import RoomCrypt.Bytes

/-!
# Base58

A byte string is read as one big number and written in base 58, highest digit first; each zero byte
at its front becomes a sign of value zero at the front of the text. The alphabet leaves out the
signs `0`, `O`, `I` and `l`, which are easily mistaken for others.
-/

namespace RoomCrypt.Base58

/-- The 58 signs in the order of their values. -/
def alphabet : List Char :=
  "123456789ABCDEFGHJKLMNPQRSTUVWXYZabcdefghijkmnopqrstuvwxyz".toList

/-- The sign of a value below 58. -/
def sign (value : Nat) : Char :=
  alphabet.getD value '1'

/-- The value of a sign, if it is one of the alphabet. -/
def value? (c : Char) : Option Nat :=
  alphabet.idxOf? c

/-- The digits of a number in a base above one, lowest first, and none for zero. -/
def digits (base : Nat) (n : Nat) : List Nat :=
  if n = 0 ∨ base ≤ 1 then [] else n % base :: digits base (n / base)
termination_by n
decreasing_by exact Nat.div_lt_self (by omega) (by omega)

/-- The number with the given digits, lowest first. -/
def ofDigits (base : Nat) : List Nat → Nat
  | [] => 0
  | d :: rest => d + base * ofDigits base rest

/-- Change the base of a digit list, highest digit first; zeros at the front are kept. -/
def changeBase (source target : Nat) (ds : List Nat) : List Nat :=
  List.replicate (ds.takeWhile (· = 0)).length 0 ++
    (digits target (ofDigits source ds.reverse)).reverse

/-- The text of a byte string. -/
def encode (bytes : Bytes) : String :=
  String.ofList ((changeBase 256 58 (bytes.map UInt8.toNat)).map sign)

/-- The bytes of a text, if all its signs are in the alphabet. -/
def decode? (text : List Char) : Option Bytes := do
  let ds ← text.mapM value?
  some ((changeBase 58 256 ds).map UInt8.ofNat)

end RoomCrypt.Base58
