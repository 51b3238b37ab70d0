import RoomCrypt.Dict

/-!
# JSON values

A value keeps what later steps can tell apart: the members of an object in their order and with
repeated names, and whole numbers of the 64-bit range apart from all other numbers. A value that is
well formed but stands for nothing, such as a text with half of a surrogate pair, is `void`: it may
be passed over but not used.
-/

namespace RoomCrypt

/-- A JSON value. -/
inductive Json where
  /-- The value `null`. -/
  | null
  /-- A truth value. -/
  | bool (value : Bool)
  /-- A whole number, written without fraction and exponent, from `-2 ^ 63` to `2 ^ 64 - 1`. -/
  | int (value : Int)
  /-- Any other number, in decimal notation. -/
  | decimal (written : String)
  /-- A text. -/
  | text (value : String)
  /-- A list of values. -/
  | array (items : List Json)
  /-- Named values in the order in which they stand. -/
  | object (members : List (String × Json))
  /-- A well-formed value that stands for nothing. -/
  | void

namespace Json

instance : Inhabited Json := ⟨.null⟩

/-- The value of a dictionary of values. -/
def ofDict (d : Dict Json) : Json :=
  .object d.entries

mutual

/-- The value with the members of all objects in the order of their names, the last of repeated
ones kept. There is none if some part of the value stands for nothing. -/
def collapse? : Json → Option Json
  | .null => some .null
  | .bool b => some (.bool b)
  | .int n => some (.int n)
  | .decimal written => some (.decimal written)
  | .text s => some (.text s)
  | .array items => (collapseItems? items).map .array
  | .object members => (collapseMembers? members).map fun ms => ofDict (Dict.ofList ms)
  | .void => none

/-- `collapse?` on each item. -/
def collapseItems? : List Json → Option (List Json)
  | [] => some []
  | item :: rest => do
    let item ← collapse? item
    let rest ← collapseItems? rest
    some (item :: rest)

/-- `collapse?` on the value of each member. -/
def collapseMembers? : List (String × Json) → Option (List (String × Json))
  | [] => some []
  | (name, value) :: rest => do
    let value ← collapse? value
    let rest ← collapseMembers? rest
    some ((name, value) :: rest)

end

end Json

end RoomCrypt
