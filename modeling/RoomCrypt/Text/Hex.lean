import RoomCrypt.Bytes

/-!
# Hexadecimal text

Each byte is written as two lower-case digits, the high half first. Reading also takes upper-case
digits, but no odd number of them.
-/

namespace RoomCrypt.Hex

/-- The digit of a value below 16. -/
def digit (n : Nat) : Char :=
  "0123456789abcdef".toList.getD n '0'

/-- The value of a digit. -/
def value? (c : Char) : Option Nat :=
  if '0' ≤ c ∧ c ≤ '9' then some (c.toNat - 48)
  else if 'a' ≤ c ∧ c ≤ 'f' then some (c.toNat - 87)
  else if 'A' ≤ c ∧ c ≤ 'F' then some (c.toNat - 55)
  else none

/-- The two digits of a byte. -/
def digits (b : UInt8) : List Char :=
  [digit (b.toNat / 16), digit (b.toNat % 16)]

/-- Write bytes. -/
def encode (bytes : Bytes) : String :=
  String.ofList (bytes.flatMap digits)

/-- Read pairs of digits. -/
def decodePairs? : List Char → Option Bytes
  | [] => some []
  | high :: low :: rest => do
    let high ← value? high
    let low ← value? low
    let rest ← decodePairs? rest
    some (UInt8.ofNat (16 * high + low) :: rest)
  | [_] => none

/-- Read bytes. -/
def decode? (text : String) : Option Bytes :=
  decodePairs? text.toList

end RoomCrypt.Hex
