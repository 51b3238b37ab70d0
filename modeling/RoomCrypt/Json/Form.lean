import RoomCrypt.Json.Record

/-!
# JSON forms

Values that have a JSON form, and values that can be read from one.
-/

namespace RoomCrypt

/-- Values that can be written as JSON. -/
class ToJson (α : Type) where
  /-- The JSON form of a value. -/
  toJson : α → Json

/-- Values that can be read from JSON. -/
class OfJson (α : Type) where
  /-- The value that a JSON value writes. -/
  ofJson? : Json → Option α

export ToJson (toJson)
export OfJson (ofJson?)

instance : ToJson Json := ⟨id⟩
instance : ToJson Bool := ⟨.bool⟩
instance : ToJson String := ⟨.text⟩
instance : ToJson Nat := ⟨.ofNat⟩
instance : ToJson UInt32 := ⟨fun n => .ofNat n.toNat⟩
instance : ToJson UInt64 := ⟨fun n => .ofNat n.toNat⟩

instance {α : Type} [ToJson α] : ToJson (Option α) where
  toJson
    | some a => toJson a
    | none => .null

instance {α : Type} [ToJson α] : ToJson (List α) := ⟨fun l => .array (l.map toJson)⟩

instance {α : Type} [ToJson α] : ToJson (Dict α) := ⟨fun d => .ofDict (d.map toJson)⟩

instance : OfJson Json := ⟨some⟩
instance : OfJson Bool := ⟨Json.bool?⟩
instance : OfJson String := ⟨Json.text?⟩
instance : OfJson Nat := ⟨Json.natBelow? UInt64.size⟩
instance : OfJson UInt8 := ⟨Json.uint8?⟩
instance : OfJson UInt32 := ⟨Json.uint32?⟩
instance : OfJson UInt64 := ⟨Json.uint64?⟩

instance {α : Type} [OfJson α] : OfJson (Option α) := ⟨Json.orNull? ofJson?⟩

instance {α : Type} [OfJson α] : OfJson (List α) := ⟨Json.list? ofJson?⟩

instance {α : Type} [OfJson α] : OfJson (Dict α) := ⟨Json.dict? (fun _ => true) ofJson?⟩

end RoomCrypt
