import RoomCrypt.Olm.Chain

/-!
# Skipped message keys

The keys of messages that were passed over, newest first. At most `capacity` are kept: recording
another one drops the oldest.
-/

namespace RoomCrypt.Olm

/-- A bounded store of skipped message keys. -/
structure SkippedKeys where
  /-- The keys, newest first. -/
  keys : List SkippedKey
  /-- How many keys are kept. -/
  capacity : Nat
  /-- There are no more keys than that. -/
  length_le : keys.length ≤ capacity
deriving DecidableEq

namespace SkippedKeys

@[ext] theorem ext {a b : SkippedKeys} (hkeys : a.keys = b.keys) (hcapacity : a.capacity = b.capacity) :
    a = b := by
  cases a; cases b; simp_all

/-- How many keys are kept where nothing else is asked for. -/
def defaultCapacity : Nat := 40

/-- A store without keys. -/
def withCapacity (capacity : Nat) : SkippedKeys := ⟨[], capacity, Nat.zero_le capacity⟩

instance : Inhabited SkippedKeys := ⟨withCapacity 0⟩

/-- A store of the given keys, newest first; those beyond the capacity are dropped. -/
def ofKeys (keys : List SkippedKey) (capacity : Nat) : SkippedKeys :=
  ⟨keys.take capacity, capacity, List.length_take_le capacity keys⟩

/-- Change the capacity and drop the keys beyond it. -/
def resize (store : SkippedKeys) (capacity : Nat) : SkippedKeys :=
  ofKeys store.keys capacity

/-- Record a key as the newest one. -/
def record (store : SkippedKeys) (key : SkippedKey) : SkippedKeys :=
  ofKeys (key :: store.keys) store.capacity

/-- Record keys one after the other, the last one as the newest. -/
def recordAll (store : SkippedKeys) (keys : List SkippedKey) : SkippedKeys :=
  ofKeys (keys.reverse ++ store.keys) store.capacity

@[simp] theorem recordAll_nil (store : SkippedKeys) : store.recordAll [] = store :=
  ext (List.take_of_length_le store.length_le) rfl

theorem recordAll_cons (store : SkippedKeys) (key : SkippedKey) (keys : List SkippedKey) :
    store.recordAll (key :: keys) = (store.record key).recordAll keys := by
  simp [recordAll, record, ofKeys, List.take_append, List.take_take]

/-- The newest key for a message. -/
def find? (store : SkippedKeys) (ratchetKey : Curve25519Key) (index : UInt32) :
    Option MessageKey :=
  (store.keys.find? (·.isFor ratchetKey index)).map (·.messageKey)

/-- The store without the newest key for a message. -/
def remove (store : SkippedKeys) (ratchetKey : Curve25519Key) (index : UInt32) : SkippedKeys :=
  { store with
    keys := store.keys.eraseP (·.isFor ratchetKey index)
    length_le := Nat.le_trans List.eraseP_sublist.length_le store.length_le }

/-- Take the newest key for a message out of the store. -/
def take (store : SkippedKeys) (ratchetKey : Curve25519Key) (index : UInt32) :
    Option MessageKey × SkippedKeys :=
  (store.find? ratchetKey index, store.remove ratchetKey index)

end SkippedKeys

end RoomCrypt.Olm
