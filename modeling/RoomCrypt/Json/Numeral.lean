import RoomCrypt.Json.Basic
import RoomCrypt.Text.Utf8

/-!
# Numbers in JSON

A number is a whole number of the 64-bit range, or it is taken as a double: as many digits as fit
64 bits make a whole number, which is rounded to a double and scaled by the double nearest to a
power of ten; digits beyond these count as zeros before the point and not at all after it. A number
for which this leads beyond the largest double stands for nothing.
-/

namespace RoomCrypt.Json

open Utf8 (Part)

/-- The digits at the front of a text. -/
def takeDigits : List Part → List Char × List Part
  | .char c :: rest =>
    if c.isDigit then
      let (digits, rest) := takeDigits rest
      (c :: digits, rest)
    else ([], .char c :: rest)
  | rest => ([], rest)

/-- The parts of a written number. -/
structure Numeral where
  negative : Bool
  /-- The digits before the point. -/
  whole : List Char
  /-- The digits after the point, if there is one. -/
  fraction : Option (List Char)
  /-- The sign and the digits of the exponent, if there is one. -/
  exponent : Option (Bool × List Char)

/-- The digits before the point: a zero stands alone. -/
def readWhole? (s : List Part) : Option (List Char × List Part) :=
  match takeDigits s with
  | ([], _) => none
  | ('0' :: _ :: _, _) => none
  | (digits, rest) => some (digits, rest)

/-- The point and the digits after it, if there is a point. -/
def readFraction? : List Part → Option (Option (List Char) × List Part)
  | .char '.' :: rest =>
    match takeDigits rest with
    | ([], _) => none
    | (digits, rest) => some (some digits, rest)
  | rest => some (none, rest)

/-- The exponent, if there is one. -/
def readExponent? : List Part → Option (Option (Bool × List Char) × List Part)
  | .char c :: rest =>
    if c = 'e' ∨ c = 'E' then
      let (negative, rest) :=
        match rest with
        | .char '-' :: rest => (true, rest)
        | .char '+' :: rest => (false, rest)
        | rest => (false, rest)
      match takeDigits rest with
      | ([], _) => none
      | (digits, rest) => some (some (negative, digits), rest)
    else some (none, .char c :: rest)
  | rest => some (none, rest)

/-- A number. -/
def readNumeral? (s : List Part) : Option (Numeral × List Part) := do
  let (negative, rest) :=
    match s with
    | .char '-' :: rest => (true, rest)
    | rest => (false, rest)
  let (whole, rest) ← readWhole? rest
  let (fraction, rest) ← readFraction? rest
  let (exponent, rest) ← readExponent? rest
  some (⟨negative, whole, fraction, exponent⟩, rest)

/-- The double nearest to a whole number, of two equally near ones the even one. All 53 leading bits
of a number are kept. -/
def nearestDouble (n : Nat) : Nat :=
  let unit := 1 <<< (n.log2 - 52)
  let units := n / unit
  let excess := n % unit
  if unit < 2 * excess ∨ (unit = 2 * excess ∧ units % 2 = 1) then (units + 1) * unit
  else units * unit

/-- The whole number from which on there is no double: the one halfway between the largest double
and the next power of two. -/
def doubleBound : Nat := 1 <<< 1024 - 1 <<< 970

/-- Append digits to a number as long as it fits 64 bits. The answer has the number and how many
digits are left. -/
def appendDigits : Nat → List Char → Nat × Nat
  | n, [] => (n, 0)
  | n, c :: rest =>
    let next := 10 * n + (c.toNat - 48)
    if next < UInt64.size then appendDigits next rest else (n, rest.length + 1)

/-- The number with the given decimal digits, if it fits 64 bits. -/
def ofDigits? (digits : List Char) : Option Nat :=
  match appendDigits 0 digits with
  | (n, 0) => some n
  | _ => none

namespace Numeral

/-- The digits that count, as a whole number, and the power of ten that it is scaled by. An exponent
beyond 64 bits exceeds any number of digits, so that its exact value does not matter. -/
def scaled (n : Numeral) : Nat × Int :=
  let fraction := n.fraction.getD []
  let (digits, dropped) := appendDigits 0 n.whole
  let (digits, left) := appendDigits digits fraction
  let exponent : Int := match n.exponent with
    | none => 0
    | some (true, digits) => -((ofDigits? digits).getD UInt64.size : Int)
    | some (false, digits) => (ofDigits? digits).getD UInt64.size
  (digits, dropped - (fraction.length - left : Nat) + exponent)

/-- Is the number too large for a double? -/
def overflows (n : Numeral) : Bool :=
  match n.scaled with
  | (0, _) => false
  | (_, .negSucc _) => false
  | (digits, .ofNat exponent) =>
    308 < exponent || doubleBound ≤ nearestDouble digits * nearestDouble (Nat.pow 10 exponent)

/-- The number as it is written, with a small `e` before an exponent and no plus sign in it. -/
def write (n : Numeral) : List Char :=
  let sign (negative : Bool) : List Char := if negative then ['-'] else []
  let fraction := n.fraction.elim [] ('.' :: ·)
  let exponent := n.exponent.elim [] fun (negative, digits) => 'e' :: (sign negative ++ digits)
  sign n.negative ++ n.whole ++ fraction ++ exponent

/-- The value of a number. A number without fraction and exponent is a whole number if it is in the
range; minus zero is not. -/
def value (n : Numeral) : Json :=
  let decimal : Json := if n.overflows then .void else .decimal (String.ofList n.write)
  match ofDigits? n.whole, n.fraction, n.exponent with
  | some whole, none, none =>
    if !n.negative then .int whole
    else if 0 < whole ∧ whole ≤ UInt64.size / 2 then .int (-whole)
    else decimal
  | _, _, _ => decimal

end Numeral

end RoomCrypt.Json
