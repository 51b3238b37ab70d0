import RoomCrypt.Json.Basic

/-!
# Taking JSON apart

Readers of plain values, of dictionaries and of records. A record is an object whose members have
known names: a name may not be repeated, members with other names are passed over, and a member may
be missing only where it has a default. A record may also be written as the list of its values in
the order of the names, where only the last ones may be missing.
-/

namespace RoomCrypt.Json

/-- A text. -/
def text? : Json → Option String
  | .text s => some s
  | _ => none

/-- A truth value. -/
def bool? : Json → Option Bool
  | .bool b => some b
  | _ => none

/-- A whole number that is not negative and below `bound`. -/
def natBelow? (bound : Nat) : Json → Option Nat
  | .int (.ofNat n) => if n < bound then some n else none
  | _ => none

/-- An 8-bit number. -/
def uint8? (value : Json) : Option UInt8 :=
  (natBelow? UInt8.size value).map UInt8.ofNat

/-- A 32-bit number. -/
def uint32? (value : Json) : Option UInt32 :=
  (natBelow? UInt32.size value).map UInt32.ofNat

/-- A 64-bit number. -/
def uint64? (value : Json) : Option UInt64 :=
  (natBelow? UInt64.size value).map UInt64.ofNat

/-- A value that may be `null`. -/
def orNull? {α : Type} (read : Json → Option α) : Json → Option (Option α)
  | .null => some none
  | value => (read value).map some

/-- A list of values. -/
def list? {α : Type} (read : Json → Option α) : Json → Option (List α)
  | .array items => items.mapM read
  | _ => none

/-- A dictionary whose keys pass a test. Of repeated keys the last one counts, but the values of
all have to be readable. -/
def dict? {α : Type} (isKey : String → Bool) (read : Json → Option α) : Json → Option (Dict α)
  | .object members => do
    let entries ← members.mapM fun (key, value) =>
      if isKey key then (read value).map fun value => (key, value) else none
    some (Dict.ofList entries)
  | _ => none

/-- The members of a record, by name. -/
abbrev Record := String → Option Json

/-- The only member with a name. The outer answer is empty if there are several. -/
def uniqueMember? (name : String) (members : List (String × Json)) : Option (Option Json) :=
  match members.filter (·.1 = name) with
  | [] => some none
  | [(_, value)] => some (some value)
  | _ => none

/-- The members of an object with the given names, none of which is repeated. -/
def members? (names : List String) (members : List (String × Json)) : Option Record :=
  names.foldrM (fun name record =>
    (uniqueMember? name members).map fun value other =>
      if other = name then value else record other) fun _ => none

/-- A record with the given names. -/
def record? (names : List String) : Json → Option Record
  | .object members => members? names members
  | .array items =>
    if items.length ≤ names.length then
      some fun name => ((names.zip items).find? (·.1 = name)).map (·.2)
    else none
  | _ => none

namespace Record

/-- A member that has to be there. -/
def required? {α : Type} (record : Record) (name : String) (read : Json → Option α) : Option α :=
  record name >>= read

/-- A member with a value that stands for it where it is missing. -/
def withDefault? {α : Type} (record : Record) (name : String) (default : α)
    (read : Json → Option α) : Option α :=
  match record name with
  | none => some default
  | some value => read value

/-- A member that may be missing or `null`. -/
def optional? {α : Type} (record : Record) (name : String) (read : Json → Option α) :
    Option (Option α) :=
  record.withDefault? name none (orNull? read)

end Record

/-- A number as a value. -/
def ofNat (n : Nat) : Json := .int n

/-- An object with more members. -/
def extend (value : Json) (more : List (String × Json)) : Json :=
  match value with
  | .object members => .object (members ++ more)
  | other => other

/-- The members of an object, some of which are there only if they have a value. -/
def objectOfOptions (members : List (String × Option Json)) : Json :=
  .object (members.filterMap fun (name, value) => value.map fun value => (name, value))

end RoomCrypt.Json
