/-!
# Shared values

A value that several holders share is kept in a pool, and each of them holds its slot: what one
changes, all see. Slots are given out once and never taken back.
-/

namespace RoomCrypt

/-- The place of a shared value. -/
structure Slot (α : Type) where
  place : Nat
deriving DecidableEq

/-- Shared values by place. -/
structure Pool (α : Type) where
  items : List α := []

namespace Pool

variable {α : Type}

instance : Inhabited (Pool α) := ⟨{}⟩

/-- Keep a new value; the answer has its slot. -/
def hold (pool : Pool α) (value : α) : Slot α × Pool α :=
  (⟨pool.items.length⟩, ⟨pool.items ++ [value]⟩)

/-- Is there a value at a slot? -/
def Holds (pool : Pool α) (slot : Slot α) : Prop :=
  slot.place < pool.items.length

/-- The value at a slot. -/
def get [Inhabited α] (pool : Pool α) (slot : Slot α) : α :=
  pool.items.getD slot.place default

/-- Change the value at a slot. -/
def set (pool : Pool α) (slot : Slot α) (value : α) : Pool α :=
  ⟨pool.items.set slot.place value⟩

theorem holds_hold (pool : Pool α) (value : α) : (pool.hold value).2.Holds (pool.hold value).1 := by
  simp [hold, Holds]

theorem Holds.hold {pool : Pool α} {slot : Slot α} (h : pool.Holds slot) (value : α) :
    (pool.hold value).2.Holds slot := by
  simp only [Holds, Pool.hold, List.length_append, List.length_singleton] at *
  omega

theorem Holds.set {pool : Pool α} {slot : Slot α} (h : pool.Holds slot) (other : Slot α)
    (value : α) : (pool.set other value).Holds slot := by
  simpa [Holds, Pool.set] using h

@[simp] theorem get_hold_self [Inhabited α] (pool : Pool α) (value : α) :
    (pool.hold value).2.get (pool.hold value).1 = value := by
  simp [hold, get]

theorem get_hold_of_holds [Inhabited α] {pool : Pool α} {slot : Slot α} (h : pool.Holds slot)
    (value : α) : (pool.hold value).2.get slot = pool.get slot := by
  simp only [Holds] at h
  simp [hold, get, List.getD, List.getElem?_append_left h]

theorem get_set_self [Inhabited α] {pool : Pool α} {slot : Slot α} (h : pool.Holds slot)
    (value : α) : (pool.set slot value).get slot = value := by
  simp only [Holds] at h
  simp [set, get, h]

theorem get_set_of_ne [Inhabited α] (pool : Pool α) {slot other : Slot α} (h : slot ≠ other)
    (value : α) : (pool.set other value).get slot = pool.get slot := by
  have : other.place ≠ slot.place := fun e => h (by cases slot; cases other; simp_all)
  simp [set, get, List.getD, List.getElem?_set_ne this]

end Pool

end RoomCrypt
