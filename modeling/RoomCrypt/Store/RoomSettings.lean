import RoomCrypt.Json.Form
import RoomCrypt.Megolm.Inbound

/-!
# The encryption settings of a room

What a room asks for: the algorithm of its sessions, and how long and for how many messages each of
them is to be used.
-/

namespace RoomCrypt.Store

/-- The encryption settings of a room. -/
structure RoomSettings where
  algorithm : String := Megolm.algorithmName
  /-- How long a session is to be used, in milliseconds. -/
  rotationMs : Option UInt64 := none
  /-- For how many messages a session is to be used. -/
  rotationMessages : Option UInt64 := none
deriving DecidableEq

namespace RoomSettings

/-- How long a session is to be used. -/
def rotationPeriod (settings : RoomSettings) : Option Duration :=
  settings.rotationMs.map Duration.ofMilliseconds

/-- The names of the record. -/
def fieldNames : List String := ["algorithm", "rotation_period_ms", "rotation_period_msgs"]

/-- The record as a value. What is not asked for is left out. -/
def toJson (settings : RoomSettings) : Json :=
  .objectOfOptions
    [("algorithm", some (.text settings.algorithm)),
      ("rotation_period_ms", settings.rotationMs.map fun n => .ofNat n.toNat),
      ("rotation_period_msgs", settings.rotationMessages.map fun n => .ofNat n.toNat)]

/-- Read the record. -/
def ofJson? (value : Json) : Option RoomSettings := do
  let record ← value.record? fieldNames
  some {
    algorithm := ← record.required? "algorithm" Json.text?
    rotationMs := ← record.optional? "rotation_period_ms" Json.uint64?
    rotationMessages := ← record.optional? "rotation_period_msgs" Json.uint64? }

instance : ToJson RoomSettings := ⟨toJson⟩

instance : OfJson RoomSettings := ⟨ofJson?⟩

end RoomSettings

end RoomCrypt.Store
