import RoomCrypt.Crypto.Curve25519
import RoomCrypt.Crypto.Sha512

/-!
# Ed25519 signatures

Points of the twisted Edwards curve in extended coordinates, their 32-byte form, and the signature
scheme. Reading a point is lenient: the number may be at least the prime, and the sign bit is
ignored where x is zero. Verification recomputes the first half of the signature and compares its
bytes, with no cofactor, so that a point of small order passes where the equation holds.
-/

namespace RoomCrypt.Ed25519

open Curve25519 (prime mul add sub power inverse)

/-- The order of the base point. -/
def order : Nat := Nat.pow 2 252 + 27742317777372353535851937790883648493

/-- The curve constant, `-121665 / 121666`. -/
def curveConstant : Nat := mul (prime - 121665) (inverse 121666)

/-- A square root of minus one. -/
def rootOfMinusOne : Nat := power 255 2 ((prime - 1) / 4)

/-- A point as `(x / z, y / z)` with `t = x * y / z`. -/
structure Point where
  x : Nat
  y : Nat
  z : Nat
  t : Nat

namespace Point

/-- The neutral point. -/
def neutral : Point := ⟨0, 1, 1, 0⟩

/-- The sum of two points. -/
def plus (p q : Point) : Point :=
  let a := mul (sub p.y p.x) (sub q.y q.x)
  let b := mul (add p.y p.x) (add q.y q.x)
  let c := mul (mul p.t (add curveConstant curveConstant)) q.t
  let d := mul (add p.z p.z) q.z
  let e := sub b a
  let f := sub d c
  let g := add d c
  let h := add b a
  ⟨mul e f, mul g h, mul f g, mul e h⟩

/-- The point on the other side of the y-axis. -/
def negate (p : Point) : Point :=
  ⟨sub 0 p.x, p.y, p.z, sub 0 p.t⟩

/-- A multiple of a point; the scalar is below `2 ^ bits`. -/
def multiple : Nat → Nat → Point → Point
  | 0, _, _ => neutral
  | bits + 1, scalar, p =>
    let half := multiple bits (scalar / 2) (p.plus p)
    if scalar % 2 = 0 then half else p.plus half

/-- The 32 bytes of a point: its y-coordinate, with the lowest bit of x on top. -/
def encode (p : Point) : Octets 32 :=
  let i := inverse p.z
  let x := mul p.x i
  let y := mul p.y i
  .ofNatLE 32 (y + Curve25519.topBit * (x % 2))

/-- The point written by 32 bytes, if there is one with that y-coordinate. -/
def decode? (bytes : Octets 32) : Option Point :=
  let n := bytes.toNatLE
  let y := n % Curve25519.topBit % prime
  let yy := mul y y
  let u := sub yy 1
  let v := add (mul curveConstant yy) 1
  let v3 := mul (mul v v) v
  let v7 := mul (mul v3 v3) v
  let r := mul (mul u v3) (power 255 (mul u v7) ((prime - 5) / 8))
  let check := mul v (mul r r)
  let x? := if check = u then some r
    else if check = sub 0 u then some (mul r rootOfMinusOne) else none
  x?.map fun x =>
    let x := if (x % 2 == 1) == (Curve25519.topBit ≤ n) then x else sub 0 x
    ⟨x, y, 1, mul x y⟩

/-- The base point: `y = 4 / 5`, and x is even. -/
def base : Point :=
  (decode? (.ofNatLE 32 (mul 4 (inverse 5)))).getD neutral

end Point

/-- Do the bytes write a point of the curve? -/
def isPoint (key : Octets 32) : Bool :=
  (Point.decode? key).isSome

/-- The scalar of a seed, and the bytes that make its signatures' nonces. -/
def expand (seed : Octets 32) : Nat × Bytes :=
  let (scalar, nonce) := (Sha512.hash seed.bytes).halves
  (Curve25519.scalar scalar, nonce.bytes)

/-- The public key of a seed. -/
def publicKey (seed : Octets 32) : Octets 32 :=
  (Point.multiple 255 (expand seed).1 Point.base).encode

/-- The scalar that a hash writes, modulo the order of the base point. -/
def hashScalar (message : Bytes) : Nat :=
  (Sha512.hash message).toNatLE % order

/-- The signature of a message by a seed. -/
def sign (seed : Octets 32) (message : Bytes) : Octets 64 :=
  let (scalar, nonce) := expand seed
  let key := publicKey seed
  let r := hashScalar (nonce ++ message)
  let commitment := (Point.multiple 253 r Point.base).encode
  let k := hashScalar (commitment.bytes ++ key.bytes ++ message)
  commitment.append (.ofNatLE 32 ((r + k * scalar) % order))

/-- Does the signature of the message verify under the key? -/
def verify (key : Octets 32) (message : Bytes) (signature : Octets 64) : Bool :=
  let (commitment, response) := signature.halves
  let s := response.toNatLE
  match Point.decode? key with
  | none => false
  | some point =>
    let k := hashScalar (commitment.bytes ++ key.bytes ++ message)
    s < order &&
      ((Point.multiple 253 s Point.base).plus (Point.multiple 253 k point.negate)).encode
        == commitment

end RoomCrypt.Ed25519
