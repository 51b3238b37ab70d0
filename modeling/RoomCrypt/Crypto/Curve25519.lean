import RoomCrypt.Bytes

/-!
# The field of Curve25519 and its key agreement

Field elements are natural numbers below the prime `2 ^ 255 - 19`. A public key is the
x-coordinate of a point, written as 32 bytes lowest first; the top bit is ignored and the number
counts modulo the prime, so that several byte strings write one key.
-/

namespace RoomCrypt.Curve25519

/-- The highest bit of 32 bytes: `2 ^ 255`. -/
def topBit : Nat := Nat.pow 2 255

/-- The prime that gives the curve its name. -/
def prime : Nat := topBit - 19

/-- The product of two field elements. -/
def mul (a b : Nat) : Nat := a * b % prime

/-- The sum of two field elements. -/
def add (a b : Nat) : Nat := (a + b) % prime

/-- The difference of two field elements. -/
def sub (a b : Nat) : Nat := (a + prime - b) % prime

/-- The power of a field element; the exponent is below `2 ^ bits`. -/
def power : Nat → Nat → Nat → Nat
  | 0, _, _ => 1
  | bits + 1, a, exponent =>
    let root := power bits (mul a a) (exponent / 2)
    if exponent % 2 = 0 then root else mul a root

/-- The inverse of a field element, and zero for zero. -/
def inverse (a : Nat) : Nat := power 255 a (prime - 2)

/-- The field element that 32 bytes write: lowest byte first, without the top bit. -/
def element (key : Octets 32) : Nat :=
  key.toNatLE % topBit % prime

/-- Two points on the ladder, each as a projective x-coordinate. -/
structure Rungs where
  x2 : Nat
  z2 : Nat
  x3 : Nat
  z3 : Nat

/-- Double the first point and add the second one to it; their difference has x-coordinate `x1`. -/
def Rungs.step (x1 : Nat) (r : Rungs) : Rungs :=
  let a := add r.x2 r.z2
  let aa := mul a a
  let b := sub r.x2 r.z2
  let bb := mul b b
  let e := sub aa bb
  let da := mul (sub r.x3 r.z3) a
  let cb := mul (add r.x3 r.z3) b
  let s := add da cb
  let t := sub da cb
  ⟨mul aa bb, mul e (add aa (mul 121665 e)), mul s s, mul x1 (mul t t)⟩

/-- The two points in the other order. -/
def Rungs.swap (r : Rungs) : Rungs := ⟨r.x3, r.z3, r.x2, r.z2⟩

/-- Walk down the lowest `bits` bits of the scalar, highest first. -/
def climb (scalar x1 : Nat) : Nat → Rungs → Rungs
  | 0, r => r
  | bits + 1, r =>
    climb scalar x1 bits (if scalar.testBit bits then (r.swap.step x1).swap else r.step x1)

/-- The x-coordinate of a multiple of the point with x-coordinate `x`. -/
def multiple (scalar x : Nat) : Nat :=
  let r := climb scalar x 255 ⟨1, 0, x, 1⟩
  mul r.x2 (inverse r.z2)

/-- The scalar of a secret: a multiple of eight with bit 254 set. -/
def scalar (secret : Octets 32) : Nat :=
  let bit254 := topBit / 2
  let n := secret.toNatLE % bit254
  bit254 + (n - n % 8)

/-- The shared secret of a secret and a public key. -/
def agree (secret key : Octets 32) : Octets 32 :=
  .ofNatLE 32 (multiple (scalar secret) (element key))

/-- The public key of a secret. -/
def publicKey (secret : Octets 32) : Octets 32 :=
  .ofNatLE 32 (multiple (scalar secret) 9)

end RoomCrypt.Curve25519
