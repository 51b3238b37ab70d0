import RoomCrypt.Bytes

/-!
# Tagged fields

Messages hold fields, each a number, a wire type and a value. Numbers are written in groups of
seven bits, lowest first, with the top bit set on all bytes but the last. A reader takes fields in
any order and skips those it does not know, groups included; of a repeated field the last one
counts.
-/

namespace RoomCrypt.Wire

/-- A number in groups of seven bits. -/
def varint (n : Nat) : Bytes :=
  if n < 128 then [UInt8.ofNat n] else UInt8.ofNat (n % 128 + 128) :: varint (n / 128)
termination_by n

/-- Read a number of at most `count` groups. The tenth group of the longest form may only hold the
highest bit of a 64-bit number. -/
def readVarint : Nat → Bytes → Option (Nat × Bytes)
  | 0, _ => none
  | _, [] => none
  | count + 1, b :: rest =>
    if b < 128 then
      if count = 0 ∧ 1 < b then none else some (b.toNat, rest)
    else
      (readVarint count rest).map fun (n, rest) => (b.toNat - 128 + 128 * n, rest)

/-- Read a number below `2 ^ 64`. -/
def varint? (bytes : Bytes) : Option (Nat × Bytes) :=
  readVarint 10 bytes

/-- The value of a field; what is inside a group or has a fixed size is skipped. -/
inductive Value where
  /-- A number. -/
  | number (n : Nat)
  /-- A byte string that follows its length. -/
  | delimited (bytes : Bytes)
  /-- Eight bytes, four bytes or a group. -/
  | skipped
deriving DecidableEq

/-- A field of a message. -/
structure Field where
  number : Nat
  value : Value
deriving DecidableEq

/-- Read a field's number and its wire type. -/
def key? (bytes : Bytes) : Option (Nat × Nat × Bytes) := do
  let (n, rest) ← varint? bytes
  if n < UInt32.size ∧ 8 ≤ n then some (n / 8, n % 8, rest) else none

mutual

/-- Read the value of field `number` with the given wire type. Groups may hold groups, `depth`
levels deep. -/
def readValue : Nat → Nat → Nat → Nat → Bytes → Option (Value × Bytes)
  | 0, _, _, _, _ => none
  | fuel + 1, depth, number, wireType, bytes =>
    match wireType with
    | 0 => (varint? bytes).map fun (n, rest) => (.number n, rest)
    | 1 => (Bytes.splitAt? 8 bytes).map fun (_, rest) => (.skipped, rest)
    | 2 => do
      let (length, rest) ← varint? bytes
      let (taken, rest) ← Bytes.splitAt? length rest
      some (.delimited taken, rest)
    | 3 => (skipGroup fuel depth number bytes).map fun rest => (.skipped, rest)
    | 5 => (Bytes.splitAt? 4 bytes).map fun (_, rest) => (.skipped, rest)
    | _ => none

/-- Skip the fields of group `number` up to its end. -/
def skipGroup : Nat → Nat → Nat → Bytes → Option Bytes
  | 0, _, _, _ => none
  | fuel + 1, depth, number, bytes => do
    let (inner, wireType, rest) ← key? bytes
    if wireType = 4 then
      if inner = number then some rest else none
    else if depth = 0 then none
    else
      let (_, rest) ← readValue fuel (depth - 1) inner wireType rest
      skipGroup fuel depth number rest

end

/-- How many groups may stand inside each other. -/
def maxDepth : Nat := 100

/-- Read fields until the end. -/
def readFields : Nat → Bytes → Option (List Field)
  | _, [] => some []
  | 0, _ => none
  | fuel + 1, bytes => do
    let (number, wireType, rest) ← key? bytes
    let (value, rest) ← readValue fuel (maxDepth - 1) number wireType rest
    let fields ← readFields fuel rest
    some (⟨number, value⟩ :: fields)

/-- The fields of a message, if it is well formed. No field and no group inside of one has fewer
than two bytes, and reading it takes at most two steps. -/
def parse? (bytes : Bytes) : Option (List Field) :=
  readFields (2 * bytes.length + 1) bytes

/-- The last byte string with the given field number. The inner answer is empty if there is none,
and the outer one if some field of that number holds something else. -/
def lastBytes? (number : Nat) (fields : List Field) : Option (Option Bytes) :=
  fields.foldlM (fun found field =>
    if field.number = number then
      match field.value with
      | .delimited bytes => some (some bytes)
      | _ => none
    else some found) none

/-- The last number with the given field number, cut to 32 bits. -/
def lastUInt32? (number : Nat) (fields : List Field) : Option (Option UInt32) :=
  fields.foldlM (fun found field =>
    if field.number = number then
      match field.value with
      | .number n => some (some (UInt32.ofNat n))
      | _ => none
    else some found) none

/-- A number as a field. -/
def numberField (number n : Nat) : Bytes :=
  varint (8 * number) ++ varint n

/-- A byte string as a field. -/
def bytesField (number : Nat) (bytes : Bytes) : Bytes :=
  varint (8 * number + 2) ++ varint bytes.length ++ bytes

end RoomCrypt.Wire
