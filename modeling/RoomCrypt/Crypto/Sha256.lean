import RoomCrypt.Bytes

/-!
# SHA-256 and its MAC

The hash of a byte string: the padded message is cut into blocks of 64 bytes, and each block moves
a state of eight 32-bit words on by 64 rounds. `hmac` is the keyed hash built from it.

The round constants are the first 32 bits of the fractional parts of the cube roots of the first
64 primes, and the start state is made of the square roots of the first eight.
-/

namespace RoomCrypt.Sha256

/-- The eight working words. -/
structure State where
  a : UInt32
  b : UInt32
  c : UInt32
  d : UInt32
  e : UInt32
  f : UInt32
  g : UInt32
  h : UInt32

/-- The state before the first block. -/
def start : State :=
  ⟨0x6a09e667, 0xbb67ae85, 0x3c6ef372, 0xa54ff53a, 0x510e527f, 0x9b05688c, 0x1f83d9ab, 0x5be0cd19⟩

/-- One constant for each of the 64 rounds. -/
def roundConstants : List UInt32 :=
  [0x428a2f98, 0x71374491, 0xb5c0fbcf, 0xe9b5dba5, 0x3956c25b, 0x59f111f1, 0x923f82a4, 0xab1c5ed5,
   0xd807aa98, 0x12835b01, 0x243185be, 0x550c7dc3, 0x72be5d74, 0x80deb1fe, 0x9bdc06a7, 0xc19bf174,
   0xe49b69c1, 0xefbe4786, 0x0fc19dc6, 0x240ca1cc, 0x2de92c6f, 0x4a7484aa, 0x5cb0a9dc, 0x76f988da,
   0x983e5152, 0xa831c66d, 0xb00327c8, 0xbf597fc7, 0xc6e00bf3, 0xd5a79147, 0x06ca6351, 0x14292967,
   0x27b70a85, 0x2e1b2138, 0x4d2c6dfc, 0x53380d13, 0x650a7354, 0x766a0abb, 0x81c2c92e, 0x92722c85,
   0xa2bfe8a1, 0xa81a664b, 0xc24b8b70, 0xc76c51a3, 0xd192e819, 0xd6990624, 0xf40e3585, 0x106aa070,
   0x19a4c116, 0x1e376c08, 0x2748774c, 0x34b0bcb5, 0x391c0cb3, 0x4ed8aa4a, 0x5b9cca4f, 0x682e6ff3,
   0x748f82ee, 0x78a5636f, 0x84c87814, 0x8cc70208, 0x90befffa, 0xa4506ceb, 0xbef9a3f7, 0xc67178f2]

/-- Rotate the bits of a word to the right. -/
def rotateRight (x : UInt32) (n : UInt32) : UInt32 :=
  x >>> n ||| x <<< (32 - n)

/-- The words of a message, four bytes each, highest byte first. -/
def words : Bytes → List UInt32
  | a :: b :: c :: d :: rest =>
    (a.toUInt32 <<< 24 ||| b.toUInt32 <<< 16 ||| c.toUInt32 <<< 8 ||| d.toUInt32) :: words rest
  | _ => []

/-- Extend the message words by `count` more, each made from four earlier ones. -/
def extend : Nat → Array UInt32 → Array UInt32
  | 0, ws => ws
  | count + 1, ws =>
    let w15 := ws.getD (ws.size - 15) 0
    let w2 := ws.getD (ws.size - 2) 0
    let s0 := rotateRight w15 7 ^^^ rotateRight w15 18 ^^^ w15 >>> 3
    let s1 := rotateRight w2 17 ^^^ rotateRight w2 19 ^^^ w2 >>> 10
    extend count (ws.push (ws.getD (ws.size - 16) 0 + s0 + ws.getD (ws.size - 7) 0 + s1))

/-- One round with its constant and its message word. -/
def round (s : State) (constant word : UInt32) : State :=
  let s1 := rotateRight s.e 6 ^^^ rotateRight s.e 11 ^^^ rotateRight s.e 25
  let choice := (s.e &&& s.f) ^^^ ((~~~ s.e) &&& s.g)
  let t1 := s.h + s1 + choice + constant + word
  let s0 := rotateRight s.a 2 ^^^ rotateRight s.a 13 ^^^ rotateRight s.a 22
  let majority := (s.a &&& s.b) ^^^ (s.a &&& s.c) ^^^ (s.b &&& s.c)
  ⟨t1 + (s0 + majority), s.a, s.b, s.c, s.d + t1, s.e, s.f, s.g⟩

/-- The state after one block, given as its 16 words. -/
def compress (s : State) (block : List UInt32) : State :=
  let t := (roundConstants.zip (extend 48 block.toArray).toList).foldl
    (fun s (constant, word) => round s constant word) s
  ⟨s.a + t.a, s.b + t.b, s.c + t.c, s.d + t.d, s.e + t.e, s.f + t.f, s.g + t.g, s.h + t.h⟩

/-- The state after `count` blocks of 16 words each. -/
def compressAll : Nat → State → List UInt32 → State
  | 0, s, _ => s
  | count + 1, s, ws => compressAll count (compress s (ws.take 16)) (ws.drop 16)

/-- The message with a one bit, zero bits and its length in bits appended, so that its length is a
multiple of 64 bytes. -/
def pad (message : Bytes) : Bytes :=
  let length := message.length
  message ++ 0x80 :: List.replicate ((119 - length % 64) % 64) 0 ++ Bytes.ofNatBE 8 (8 * length)

/-- The state as 32 bytes. -/
def State.digest (s : State) : Octets 32 :=
  ⟨[s.a, s.b, s.c, s.d, s.e, s.f, s.g, s.h].flatMap Bytes.ofUInt32, rfl⟩

/-- The SHA-256 hash of a message. -/
def hash (message : Bytes) : Octets 32 :=
  let ws := words (pad message)
  (compressAll (ws.length / 16) start ws).digest

/-- A MAC key as one block: longer keys are hashed first, shorter ones are filled with zeros. -/
def macBlock (key : Bytes) : Bytes :=
  let key := if key.length > 64 then (hash key).bytes else key
  key ++ List.replicate (64 - key.length) 0

/-- The HMAC of a message under a key. -/
def hmac (key message : Bytes) : Octets 32 :=
  let block := macBlock key
  let inner := hash (block.map (· ^^^ 0x36) ++ message)
  hash (block.map (· ^^^ 0x5c) ++ inner.bytes)

end RoomCrypt.Sha256
