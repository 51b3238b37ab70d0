import RoomCrypt.Json.Basic
import RoomCrypt.Text.Hex

/-!
# Writing JSON

Values are written without any space. In texts only quotes, backslashes and control characters are
escaped. The canonical form, which is what signatures are made over, also has the members of every
object in the order of their names, and holds no numbers but whole ones that a double holds exactly.
-/

namespace RoomCrypt.Json

/-- A character inside of a text. -/
def escapeChar (c : Char) : List Char :=
  if c = '"' then ['\\', '"']
  else if c = '\\' then ['\\', '\\']
  else if c = '\n' then ['\\', 'n']
  else if c = '\r' then ['\\', 'r']
  else if c = '\t' then ['\\', 't']
  else if c = '\x08' then ['\\', 'b']
  else if c = '\x0c' then ['\\', 'f']
  else if c.toNat < 32 then
    ['\\', 'u', '0', '0', Hex.digit (c.toNat / 16), Hex.digit (c.toNat % 16)]
  else [c]

/-- A text with its quotes. -/
def quote (s : String) : List Char :=
  '"' :: s.toList.flatMap escapeChar ++ ['"']

mutual

/-- The written form of a value. -/
def write : Json → List Char
  | .null => "null".toList
  | .bool true => "true".toList
  | .bool false => "false".toList
  | .int n => (toString n).toList
  | .decimal written => written.toList
  | .text s => quote s
  | .array items => '[' :: writeItems items
  | .object members => '\x7b' :: writeMembers members
  | .void => "null".toList

/-- The items of an array up to its end. -/
def writeItems : List Json → List Char
  | [] => [']']
  | [item] => write item ++ [']']
  | item :: rest => write item ++ ',' :: writeItems rest

/-- The members of an object up to its end. -/
def writeMembers : List (String × Json) → List Char
  | [] => ['\x7d']
  | [(name, value)] => quote name ++ ':' :: write value ++ ['\x7d']
  | (name, value) :: rest => quote name ++ ':' :: write value ++ ',' :: writeMembers rest

end

/-- The written form of a value. -/
def render (value : Json) : String :=
  String.ofList (write value)

/-- The largest whole number up to which a double holds all of them. -/
def maxExact : Nat := Nat.pow 2 53 - 1

mutual

/-- Does the value hold only numbers that the canonical form allows? -/
def isExact : Json → Bool
  | .int n => n.natAbs ≤ maxExact
  | .decimal _ => false
  | .void => false
  | .array items => areExact items
  | .object members => areMembersExact members
  | _ => true

/-- `isExact` for each item. -/
def areExact : List Json → Bool
  | [] => true
  | item :: rest => isExact item && areExact rest

/-- `isExact` for each member. -/
def areMembersExact : List (String × Json) → Bool
  | [] => true
  | (_, value) :: rest => isExact value && areMembersExact rest

end

/-- The canonical form of a value, if it has one. -/
def canonical? (value : Json) : Option String :=
  if isExact value then value.collapse?.map render else none

end RoomCrypt.Json
