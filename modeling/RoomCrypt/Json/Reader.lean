import RoomCrypt.Json.Numeral
import RoomCrypt.Text.Hex

/-!
# Reading JSON

A reader takes a value from the front of a text and gives back the rest. Between signs there may be
spaces, tabs and line ends. A text with half of a surrogate pair or with a stray byte, a number
beyond the range of doubles, and an array or object that is nested too deeply are well formed but
stand for nothing.
-/

namespace RoomCrypt.Json

open Utf8 (Part)

/-- Skip the space between signs. -/
def skipSpace : List Part → List Part
  | .char c :: rest =>
    if c = ' ' ∨ c = '\n' ∨ c = '\t' ∨ c = '\r' then skipSpace rest else .char c :: rest
  | rest => rest

/-- The number with the given four hexadecimal digits. -/
def hexUnit? (a b c d : Char) : Option Nat := do
  let a ← Hex.value? a
  let b ← Hex.value? b
  let c ← Hex.value? c
  let d ← Hex.value? d
  some (((a * 16 + b) * 16 + c) * 16 + d)

/-- The character of an escape sign other than `u`. -/
def shortEscape? (c : Char) : Option Char :=
  if c = '"' ∨ c = '\\' ∨ c = '/' then some c
  else if c = 'b' then some '\x08'
  else if c = 'f' then some '\x0c'
  else if c = 'n' then some '\n'
  else if c = 'r' then some '\r'
  else if c = 't' then some '\t'
  else none

/-- A piece of a text: a character, the number of a 16-bit unit, or a stray byte. -/
inductive Piece where
  /-- A character that stands for itself or has a short escape. -/
  | char (c : Char)
  /-- An escaped 16-bit unit. -/
  | unit (n : Nat)
  | stray

/-- The pieces of a text up to its closing quote; the pieces read so far are given in reverse. -/
def readPieces (done : List Piece) : List Part → Option (List Piece × List Part)
  | [] => none
  | .char '"' :: rest => some (done.reverse, rest)
  | .char '\\' :: .char 'u' :: .char a :: .char b :: .char c :: .char d :: rest =>
    match hexUnit? a b c d with
    | some n => readPieces (.unit n :: done) rest
    | none => none
  | .char '\\' :: .char e :: rest =>
    match shortEscape? e with
    | some c => readPieces (.char c :: done) rest
    | none => none
  | .char c :: rest => if c.toNat < 32 ∨ c = '\\' then none else readPieces (.char c :: done) rest
  | .stray :: rest => readPieces (.stray :: done) rest

/-- The characters of the pieces of a text: a unit stands for a character, or together with the
unit after it. There are none if half of a pair is left or a byte is astray. The characters found
so far are given in reverse. -/
def joinPieces (done : List Char) : List Piece → Option (List Char)
  | [] => some done.reverse
  | .char c :: rest => joinPieces (c :: done) rest
  | .unit high :: .unit low :: rest =>
    if high < 0xd800 ∨ 0xdfff < high then joinPieces (Char.ofNat high :: done) (.unit low :: rest)
    else if high ≤ 0xdbff ∧ 0xdc00 ≤ low ∧ low ≤ 0xdfff then
      joinPieces (Char.ofNat (0x10000 + (high - 0xd800) * 0x400 + (low - 0xdc00)) :: done) rest
    else none
  | .unit n :: rest =>
    if n < 0xd800 ∨ 0xdfff < n then joinPieces (Char.ofNat n :: done) rest else none
  | .stray :: _ => none

/-- The text that ends at the next closing quote. The inner answer is empty if the text is well
formed but stands for nothing. -/
def readText? (s : List Part) : Option (Option String × List Part) :=
  (readPieces [] s).map fun (pieces, rest) => ((joinPieces [] pieces).map String.ofList, rest)

/-- The rest of a text after a fixed word. -/
def afterWord? : List Char → List Part → Option (List Part)
  | [], rest => some rest
  | w :: word, .char c :: rest => if w = c then afterWord? word rest else none
  | _ :: _, _ => none

/-- How deeply arrays and objects may be nested. -/
def maxDepth : Nat := 127

mutual

/-- A value that starts at the front of the text, with `depth` levels left to nest. -/
def readValue : Nat → Nat → List Part → Option (Json × List Part)
  | 0, _, _ => none
  | fuel + 1, depth, .char c :: rest =>
    if c = '"' then
      (readText? rest).map fun (content, rest) =>
        (match content with
          | some content => .text content
          | none => .void, rest)
    else if c = '[' then
      (match skipSpace rest with
        | .char ']' :: rest => some ([], rest)
        | rest => readItems fuel (depth - 1) rest).map fun (items, rest) =>
          (if depth = 0 then .void else .array items, rest)
    else if c = '\x7b' then
      (match skipSpace rest with
        | .char '\x7d' :: rest => some (some [], rest)
        | rest => readMembers fuel (depth - 1) rest).map fun (members, rest) =>
          (match members with
            | some members => if depth = 0 then .void else .object members
            | none => .void, rest)
    else if c = 'n' then (afterWord? "ull".toList rest).map fun rest => (.null, rest)
    else if c = 't' then (afterWord? "rue".toList rest).map fun rest => (.bool true, rest)
    else if c = 'f' then (afterWord? "alse".toList rest).map fun rest => (.bool false, rest)
    else (readNumeral? (.char c :: rest)).map fun (n, rest) => (n.value, rest)
  | _ + 1, _, _ => none

/-- The items of an array, from the first one to the closing bracket. -/
def readItems : Nat → Nat → List Part → Option (List Json × List Part)
  | 0, _, _ => none
  | fuel + 1, depth, s => do
    let (item, rest) ← readValue fuel depth s
    match skipSpace rest with
    | .char ']' :: rest => some ([item], rest)
    | .char ',' :: rest =>
      let (items, rest) ← readItems fuel depth (skipSpace rest)
      some (item :: items, rest)
    | _ => none

/-- The members of an object, from the first one to the closing brace. There are none to use if
some name stands for nothing. -/
def readMembers : Nat → Nat → List Part → Option (Option (List (String × Json)) × List Part)
  | 0, _, _ => none
  | fuel + 1, depth, s => do
    let rest ← afterWord? ['"'] s
    let (name, rest) ← readText? rest
    let rest ← afterWord? [':'] (skipSpace rest)
    let (value, rest) ← readValue fuel depth (skipSpace rest)
    match skipSpace rest with
    | .char '\x7d' :: rest => some (name.map fun name => [(name, value)], rest)
    | .char ',' :: rest =>
      let (members, rest) ← readMembers fuel depth (skipSpace rest)
      some (do some ((← name, value) :: (← members)), rest)
    | _ => none

end

/-- The value of the parts of a text, if it is a single well-formed one. -/
def ofParts? (parts : List Part) : Option Json := do
  let (value, rest) ← readValue (parts.length + 1) maxDepth (skipSpace parts)
  if (skipSpace rest).isEmpty then some value else none

/-- The value of a text. -/
def parse? (s : String) : Option Json :=
  ofParts? (Utf8.ofText s)

/-- The value of an encoded text. It may have stray bytes where it stands for nothing. -/
def ofUtf8? (bytes : Bytes) : Option Json :=
  ofParts? (Utf8.parts bytes)

end RoomCrypt.Json
