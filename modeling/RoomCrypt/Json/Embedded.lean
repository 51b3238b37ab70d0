import RoomCrypt.Json.Reader

/-!
# Embedded values

An object whose only member has a reserved name stands for the value whose text that member is. If
the first member of an object has that name but the object is not of this form, it stands for
nothing. The normal form of a value has embedded values in their places and the members of all
objects in the order of their names.
-/

namespace RoomCrypt.Json

/-- The name that is reserved for the text of an embedded value. -/
def embeddingName : String := "$serde_json::private::RawValue"

mutual

/-- The value with `f` of the embedded texts in their places. -/
def expandWith (f : String → Json) : Json → Json
  | .array items => .array (expandItems f items)
  | .object ((name, value) :: rest) =>
    if name = embeddingName then
      match value, rest with
      | .text content, [] => f content
      | _, _ => .void
    else .object (expandMembers f ((name, value) :: rest))
  | .object [] => .object []
  | .null => .null
  | .bool b => .bool b
  | .int n => .int n
  | .decimal written => .decimal written
  | .text content => .text content
  | .void => .void

/-- `expandWith` on each item. -/
def expandItems (f : String → Json) : List Json → List Json
  | [] => []
  | item :: rest => expandWith f item :: expandItems f rest

/-- `expandWith` on the value of each member. -/
def expandMembers (f : String → Json) : List (String × Json) → List (String × Json)
  | [] => []
  | (name, value) :: rest => (name, expandWith f value) :: expandMembers f rest

end

/-- The value of a text with embedded values in their places. An embedded text is shorter than the
text that it stands in, so that they cannot be nested more than `fuel` deep in a text of `fuel`
characters. -/
def expandText : Nat → String → Json
  | 0, _ => .void
  | fuel + 1, content =>
    match parse? content with
    | some value => expandWith (expandText fuel) value
    | none => .void

/-- The value with embedded values in their places. -/
def expand (value : Json) : Json :=
  expandWith (fun content => expandText content.length content) value

/-- The normal form of a value. There is none if some part of the value stands for nothing. -/
def normal? (value : Json) : Option Json :=
  value.expand.collapse?

/-- The normal form of the value of each member. -/
def normalMembers? (members : List (String × Json)) : Option (List (String × Json)) :=
  members.mapM fun (name, value) => value.normal?.map fun value => (name, value)

end RoomCrypt.Json
