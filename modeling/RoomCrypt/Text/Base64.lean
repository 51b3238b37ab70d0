import RoomCrypt.Bytes

/-!
# Base64 without padding

Byte strings are written with the standard alphabet and no padding. Reading also accepts padding,
up to the number of signs that fill the last group of four, but nothing else outside the alphabet,
no group of a single sign, and no bits left over that are not zero.
-/

namespace RoomCrypt.Base64

/-- The 64 signs in the order of their values. -/
def alphabet : Array Char :=
  "ABCDEFGHIJKLMNOPQRSTUVWXYZabcdefghijklmnopqrstuvwxyz0123456789+/".toList.toArray

/-- The sign of a value below 64. -/
def sign (value : Nat) : Char :=
  alphabet.getD value 'A'

/-- The value of a sign, if it is one of the alphabet. -/
def value? (c : Char) : Option Nat :=
  if 'A' ≤ c ∧ c ≤ 'Z' then some (c.toNat - 65)
  else if 'a' ≤ c ∧ c ≤ 'z' then some (c.toNat - 71)
  else if '0' ≤ c ∧ c ≤ '9' then some (c.toNat + 4)
  else if c = '+' then some 62
  else if c = '/' then some 63
  else none

/-- The values of the signs of a byte string: three bytes make four of them. -/
def sextets : Bytes → List Nat
  | [] => []
  | [a] => [a.toNat / 4, a.toNat % 4 * 16]
  | [a, b] => [a.toNat / 4, a.toNat % 4 * 16 + b.toNat / 16, b.toNat % 16 * 4]
  | a :: b :: c :: rest =>
    a.toNat / 4 :: (a.toNat % 4 * 16 + b.toNat / 16) ::
      (b.toNat % 16 * 4 + c.toNat / 64) :: c.toNat % 64 :: sextets rest

/-- The bytes with the given values of signs. Left-over bits must be zero. -/
def ofSextets? : List Nat → Option Bytes
  | [] => some []
  | [_] => none
  | [p, q] => if q % 16 = 0 then some [UInt8.ofNat (p * 4 + q / 16)] else none
  | [p, q, r] =>
    if r % 4 = 0 then
      some [UInt8.ofNat (p * 4 + q / 16), UInt8.ofNat (q % 16 * 16 + r / 4)]
    else none
  | p :: q :: r :: s :: rest =>
    (ofSextets? rest).map fun bytes =>
      UInt8.ofNat (p * 4 + q / 16) :: UInt8.ofNat (q % 16 * 16 + r / 4) ::
        UInt8.ofNat (r % 4 * 64 + s) :: bytes

/-- The text of a byte string. -/
def encode (bytes : Bytes) : String :=
  String.ofList ((sextets bytes).map sign)

/-- The bytes of a text, if it is one of those of a byte string. -/
def decode? (text : String) : Option Bytes := do
  let signs := text.toList.takeWhile (· ≠ '=')
  let padding := text.toList.drop signs.length
  if padding.all (· = '=') ∧ padding.length ≤ (4 - signs.length % 4) % 4 then
    ofSextets? (← signs.mapM value?)
  else none

end RoomCrypt.Base64
