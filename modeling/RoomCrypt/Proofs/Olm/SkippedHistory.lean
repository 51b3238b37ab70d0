import Mathlib.Data.List.Induction
import Mathlib.Data.List.Perm.Basic
import RoomCrypt.Proofs.Olm.Names

/-!
# The history of a store of skipped keys

A store is followed through any recordings, looks and takes. One key can be recorded many times, so next
to the store stand entries: the keys with the number of their recording. The log of a store holds the
entries that are in the store, all that were ever recorded, and those that were taken. Recording one more
drops the oldest entry of a store that is full, and as takes make room anywhere in the store, which entry is
dropped depends on the whole history. Even so, no entry is dropped before there are as many newer ones as
the store can hold.
-/

namespace RoomCrypt.Olm

/-- What can be done with a store of skipped keys. -/
inductive SkippedUse where
  | record (key : SkippedKey)
  | get (ratchetKey : Curve25519Key) (index : UInt32)
  | take (ratchetKey : Curve25519Key) (index : UInt32)

/-- The key that is recorded. -/
def SkippedUse.recorded? : SkippedUse → Option SkippedKey
  | record key => some key
  | get _ _ => none
  | take _ _ => none

namespace SkippedKeys

/-- The answer to a use of the store, and the store after it. -/
def use (store : SkippedKeys) : SkippedUse → Option MessageKey × SkippedKeys
  | .record key => (none, store.record key)
  | .get ratchetKey index => (store.find? ratchetKey index, store)
  | .take ratchetKey index => store.take ratchetKey index

/-- The store after uses, first use first. -/
def useAll (store : SkippedKeys) (uses : List SkippedUse) : SkippedKeys :=
  uses.foldl (fun store use => (store.use use).2) store

/-- The last use finds what the uses before it left. -/
theorem useAll_append_singleton (store : SkippedKeys) (uses : List SkippedUse) (use : SkippedUse) :
    store.useAll (uses ++ [use]) = ((store.useAll uses).use use).2 := by
  simp [useAll]

/-- No use changes the capacity. -/
theorem capacity_use (store : SkippedKeys) (use : SkippedUse) : (store.use use).2.capacity = store.capacity := by
  cases use <;> rfl

/-- No uses change the capacity. -/
theorem capacity_useAll (store : SkippedKeys) (uses : List SkippedUse) :
    (store.useAll uses).capacity = store.capacity := by
  induction uses using List.reverseRecOn with
  | nil => rfl
  | append_singleton uses use ih => rw [useAll_append_singleton, capacity_use, ih]

end SkippedKeys

/-- A key and the number of its recording, so that one key recorded twice makes two entries. -/
structure SkippedEntry where
  number : ℕ
  key : SkippedKey
deriving DecidableEq

/-- Is it the key of the message at a place of the chain of a ratchet key? -/
def SkippedEntry.isFor (entry : SkippedEntry) (ratchetKey : Curve25519Key) (index : UInt32) : Bool :=
  entry.key.isFor ratchetKey index

/-- An entry is for a message if its key has the name of the message. -/
theorem SkippedEntry.isFor_iff (entry : SkippedEntry) (ratchetKey : Curve25519Key) (index : UInt32) :
    entry.isFor ratchetKey index = true ↔ entry.key.name = (ratchetKey.element, index) := by
  simp [SkippedEntry.isFor, SkippedKey.isFor, SkippedKey.name]

/-- What happened to a store of skipped keys. -/
structure SkippedLog where
  /-- The entries in the store, newest first. -/
  held : List SkippedEntry
  /-- All entries that were ever recorded, newest first. -/
  recorded : List SkippedEntry
  /-- The entries that were taken, latest first. -/
  taken : List SkippedEntry

namespace SkippedLog

/-- The log of a store that has just been made. -/
def start : SkippedLog := ⟨[], [], []⟩

/-- The log after a use of a store of some capacity. -/
def step (capacity : ℕ) (log : SkippedLog) : SkippedUse → SkippedLog
  | .record key =>
    { log with
      held := (⟨log.recorded.length, key⟩ :: log.held).take capacity
      recorded := ⟨log.recorded.length, key⟩ :: log.recorded }
  | .get _ _ => log
  | .take ratchetKey index =>
    { log with
      held := log.held.eraseP (·.isFor ratchetKey index)
      taken := (log.held.find? (·.isFor ratchetKey index)).toList ++ log.taken }

/-- The log after uses, first use first. -/
def run (capacity : ℕ) (uses : List SkippedUse) : SkippedLog :=
  uses.foldl (step capacity) start

/-- The last use finds what the uses before it left. -/
theorem run_append_singleton (capacity : ℕ) (uses : List SkippedUse) (use : SkippedUse) :
    run capacity (uses ++ [use]) = (run capacity uses).step capacity use := by
  simp [run]

/-! ### The log tells of the store -/

/-- One step of the log is one use of the store. -/
theorem map_held_step {log : SkippedLog} {store : SkippedKeys} (hkeys : log.held.map (·.key) = store.keys)
    (use : SkippedUse) :
    (log.step store.capacity use).held.map (·.key) = (store.use use).2.keys := by
  cases use with
  | record key =>
    change ((⟨log.recorded.length, key⟩ :: log.held).take store.capacity).map (·.key) =
      (key :: store.keys).take store.capacity
    rw [List.map_take, List.map_cons, hkeys]
  | get ratchetKey index => exact hkeys
  | take ratchetKey index =>
    change (log.held.eraseP _).map (·.key) = store.keys.eraseP _
    rw [← hkeys, List.eraseP_map]
    rfl

/-- The entries that are held are those of the keys in the store. -/
theorem map_held_run (capacity : ℕ) (uses : List SkippedUse) :
    (run capacity uses).held.map (·.key) = ((SkippedKeys.withCapacity capacity).useAll uses).keys := by
  induction uses using List.reverseRecOn with
  | nil => rfl
  | append_singleton uses use ih =>
    have hstep := map_held_step ih use
    rwa [SkippedKeys.capacity_useAll, ← SkippedKeys.useAll_append_singleton,
      show (SkippedKeys.withCapacity capacity).capacity = capacity from rfl, ← run_append_singleton] at hstep

/-- The entries that were recorded are those of the keys that were given to the store. -/
theorem map_recorded_run (capacity : ℕ) (uses : List SkippedUse) :
    (run capacity uses).recorded.map (·.key) = (uses.filterMap SkippedUse.recorded?).reverse := by
  induction uses using List.reverseRecOn with
  | nil => rfl
  | append_singleton uses use ih =>
    rw [run_append_singleton, List.filterMap_append, List.reverse_append, ← ih]
    cases use <;> rfl

/-- The store finds the key of the newest entry of a name. -/
theorem find?_held {log : SkippedLog} {store : SkippedKeys} (hkeys : log.held.map (·.key) = store.keys)
    (ratchetKey : Curve25519Key) (index : UInt32) :
    store.find? ratchetKey index = (log.held.find? (·.isFor ratchetKey index)).map (·.key.messageKey) := by
  rw [SkippedKeys.find?, ← hkeys, List.find?_map, Option.map_map]
  rfl

/-! ### What every use keeps -/

/-- What is true of a log after any uses. -/
structure Kept (capacity : ℕ) (log : SkippedLog) : Prop where
  length_le : log.held.length ≤ capacity
  sublist : log.held.Sublist log.recorded
  /-- Entries are numbered in the order in which they were recorded. -/
  numbers : log.recorded.map (·.number) = (List.range log.recorded.length).reverse
  mem_recorded : ∀ entry ∈ log.taken, entry ∈ log.recorded
  not_held : ∀ entry ∈ log.taken, entry ∉ log.held

variable {capacity : ℕ} {log : SkippedLog}

/-- The newer of two entries has the greater number. -/
theorem Kept.pairwise_recorded (hkept : log.Kept capacity) :
    log.recorded.Pairwise fun newer older => older.number < newer.number := by
  have hrange : (List.range log.recorded.length).reverse.Pairwise (fun newer older => older < newer) :=
    List.pairwise_reverse.mpr List.pairwise_lt_range
  rw [← hkept.numbers] at hrange
  exact List.pairwise_map.mp hrange

/-- No entry is recorded twice. -/
theorem Kept.nodup_recorded (hkept : log.Kept capacity) : log.recorded.Nodup :=
  hkept.pairwise_recorded.imp fun hlt heq => absurd (heq ▸ hlt) (Nat.lt_irrefl _)

/-- The numbers of the recorded entries lie below that of the next one. -/
theorem Kept.number_lt (hkept : log.Kept capacity) {entry : SkippedEntry} (hentry : entry ∈ log.recorded) :
    entry.number < log.recorded.length := by
  have hmem : entry.number ∈ log.recorded.map (·.number) := List.mem_map_of_mem hentry
  rwa [hkept.numbers, List.mem_reverse, List.mem_range] at hmem

/-- A take removes the newest entry of its name, if there is one, and keeps the order of all others. -/
theorem take_cases (log : SkippedLog) (capacity : ℕ) (ratchetKey : Curve25519Key) (index : UInt32) :
    (log.held.find? (·.isFor ratchetKey index) = none ∧
        (∀ entry ∈ log.held, entry.key.name ≠ (ratchetKey.element, index)) ∧
        log.step capacity (.take ratchetKey index) = log) ∨
      ∃ newer entry older, log.held = newer ++ entry :: older ∧
        entry.key.name = (ratchetKey.element, index) ∧
        (∀ other ∈ newer, other.key.name ≠ (ratchetKey.element, index)) ∧
        log.held.find? (·.isFor ratchetKey index) = some entry ∧
        log.step capacity (.take ratchetKey index) =
          { log with held := newer ++ older, taken := entry :: log.taken } := by
  cases hfind : log.held.find? (·.isFor ratchetKey index) with
  | none =>
    have hnone : ∀ entry ∈ log.held, ¬entry.isFor ratchetKey index = true := List.find?_eq_none.mp hfind
    refine .inl ⟨rfl, fun entry hentry => ?_, ?_⟩
    · rw [ne_eq, ← entry.isFor_iff]
      exact hnone entry hentry
    · simp only [step, hfind, List.eraseP_of_forall_not hnone]
      rfl
  | some entry =>
    obtain ⟨hfor, newer, older, hheld, hnewer⟩ := List.find?_eq_some_iff_append.mp hfind
    have hnot : ∀ other ∈ newer, ¬other.isFor ratchetKey index = true := by simpa using hnewer
    refine .inr ⟨newer, entry, older, hheld, (entry.isFor_iff ..).mp hfor, fun other hother => ?_, rfl, ?_⟩
    · rw [ne_eq, ← other.isFor_iff]
      exact hnot other hother
    · have herase : log.held.eraseP (·.isFor ratchetKey index) = newer ++ older := by
        rw [hheld, List.eraseP_append_right _ hnot, List.eraseP_cons_of_pos (by exact hfor)]
      simp only [step, hfind, herase]
      rfl

/-- The log of a new store. -/
theorem kept_start (capacity : ℕ) : start.Kept capacity where
  length_le := Nat.zero_le capacity
  sublist := List.Sublist.slnil
  numbers := rfl
  mem_recorded := by simp [start]
  not_held := by simp [start]

/-- Recording a key keeps the log in order. -/
theorem Kept.record (hkept : log.Kept capacity) (key : SkippedKey) :
    (log.step capacity (.record key)).Kept capacity where
  length_le := List.length_take_le capacity _
  sublist := (List.take_sublist capacity _).trans (hkept.sublist.cons_cons _)
  numbers := by
    change log.recorded.length :: log.recorded.map (·.number) = (List.range (log.recorded.length + 1)).reverse
    rw [hkept.numbers, List.range_succ, List.reverse_append]
    rfl
  mem_recorded entry hentry := List.mem_cons_of_mem _ (hkept.mem_recorded entry hentry)
  not_held entry hentry hheld := by
    rcases List.mem_cons.mp (List.mem_of_mem_take hheld) with rfl | hheld
    · exact Nat.lt_irrefl _ (hkept.number_lt (hkept.mem_recorded _ hentry))
    · exact hkept.not_held entry hentry hheld

/-- Taking a key keeps the log in order. -/
theorem Kept.take (hkept : log.Kept capacity) (ratchetKey : Curve25519Key) (index : UInt32) :
    (log.step capacity (.take ratchetKey index)).Kept capacity := by
  rcases log.take_cases capacity ratchetKey index with ⟨-, -, hsame⟩ | ⟨newer, entry, older, hheld, -, -, -, hstep⟩
  · rwa [hsame]
  · have hnodup : (newer ++ entry :: older).Nodup := hheld ▸ hkept.sublist.nodup hkept.nodup_recorded
    have hsub : (newer ++ older).Sublist log.held :=
      hheld ▸ (List.Sublist.refl newer).append (List.sublist_cons_self entry older)
    have hmem : entry ∈ log.held := by simp [hheld]
    rw [hstep]
    exact {
      length_le := Nat.le_trans hsub.length_le hkept.length_le
      sublist := hsub.trans hkept.sublist
      numbers := hkept.numbers
      mem_recorded := by
        rintro other (_ | ⟨_, hother⟩)
        · exact hkept.sublist.subset hmem
        · exact hkept.mem_recorded other hother
      not_held := by
        rintro other (_ | ⟨_, hother⟩) hin
        · exact (List.nodup_middle.mp hnodup).notMem hin
        · exact hkept.not_held other hother (hsub.subset hin) }

/-- Every use keeps the log in order. -/
theorem Kept.step (hkept : log.Kept capacity) (use : SkippedUse) : (log.step capacity use).Kept capacity := by
  cases use with
  | record key => exact hkept.record key
  | get ratchetKey index => exact hkept
  | take ratchetKey index => exact hkept.take ratchetKey index

/-- The log is in order after any uses. -/
theorem kept_run (capacity : ℕ) (uses : List SkippedUse) : (run capacity uses).Kept capacity := by
  induction uses using List.reverseRecOn with
  | nil => exact kept_start capacity
  | append_singleton uses use ih =>
    rw [run_append_singleton]
    exact ih.step use

/-! ### How an entry leaves -/

/-- The store is full, and all that it holds is newer than an entry. -/
def Outlived (capacity : ℕ) (log : SkippedLog) (entry : SkippedEntry) : Prop :=
  log.held.length = capacity ∧ ∀ other ∈ log.held, entry.number < other.number

/-- What a recording drops is older than all that the store then holds, and the store is full. -/
theorem Kept.outlived_record (hkept : log.Kept capacity) (key : SkippedKey) {entry : SkippedEntry}
    (hentry : entry ∈ (⟨log.recorded.length, key⟩ :: log.held))
    (hout : entry ∉ (log.step capacity (.record key)).held) :
    Outlived capacity (log.step capacity (.record key)) entry := by
  set all := (⟨log.recorded.length, key⟩ :: log.held : List SkippedEntry) with hall
  have hheld : (log.step capacity (.record key)).held = all.take capacity := rfl
  have hordered : all.Pairwise fun newer older => older.number < newer.number :=
    (hkept.record key).pairwise_recorded.sublist (hkept.sublist.cons_cons _)
  rw [hheld] at hout
  have hdropped : entry ∈ all.drop capacity := by
    rw [← List.take_append_drop capacity all, List.mem_append] at hentry
    exact hentry.resolve_left hout
  have hlong : capacity ≤ all.length := by
    have hpos := List.length_pos_of_mem hdropped
    rw [List.length_drop] at hpos
    omega
  rw [← List.take_append_drop capacity all] at hordered
  refine ⟨?_, fun other hother => ?_⟩
  · rw [hheld, List.length_take_of_le hlong]
  · exact (List.pairwise_append.mp hordered).2.2 other (hheld ▸ hother) entry hdropped

/-- An entry that is out after a use was taken, or it was out before, or the use filled the store with newer
ones. -/
theorem Kept.out_step (hkept : log.Kept capacity) (use : SkippedUse) {entry : SkippedEntry}
    (hentry : entry ∈ (log.step capacity use).recorded) (hout : entry ∉ (log.step capacity use).held) :
    entry ∈ (log.step capacity use).taken ∨ (entry ∈ log.recorded ∧ entry ∉ log.held) ∨
      Outlived capacity (log.step capacity use) entry := by
  cases use with
  | record key =>
    rcases List.mem_cons.mp hentry with rfl | hentry
    · exact .inr (.inr (hkept.outlived_record key List.mem_cons_self hout))
    · by_cases hheld : entry ∈ log.held
      · exact .inr (.inr (hkept.outlived_record key (List.mem_cons_of_mem _ hheld) hout))
      · exact .inr (.inl ⟨hentry, hheld⟩)
  | get ratchetKey index => exact .inr (.inl ⟨hentry, hout⟩)
  | take ratchetKey index =>
    rcases log.take_cases capacity ratchetKey index with
      ⟨-, -, hsame⟩ | ⟨newer, named, older, hheld, -, -, -, hstep⟩
    · rw [hsame] at hentry hout
      exact .inr (.inl ⟨hentry, hout⟩)
    · rw [hstep] at hentry hout ⊢
      by_cases hin : entry ∈ log.held
      · rw [hheld, List.mem_append, List.mem_cons] at hin
        rw [List.mem_append, not_or] at hout
        have hnamed : entry = named := by tauto
        exact .inl (hnamed ▸ List.mem_cons_self)
      · exact .inr (.inl ⟨hentry, hin⟩)

/-- No use forgets an entry that was recorded or taken. -/
theorem suffix_step (capacity : ℕ) (log : SkippedLog) (use : SkippedUse) :
    log.recorded <:+ (log.step capacity use).recorded ∧ log.taken <:+ (log.step capacity use).taken := by
  cases use with
  | record key => exact ⟨List.suffix_cons _ _, List.suffix_rfl⟩
  | get ratchetKey index => exact ⟨List.suffix_rfl, List.suffix_rfl⟩
  | take ratchetKey index => exact ⟨List.suffix_rfl, List.suffix_append _ _⟩

/-- The entries that were recorded at some time are the oldest of those recorded later. -/
theorem suffix_recorded_run (capacity : ℕ) (earlier later : List SkippedUse) :
    (run capacity earlier).recorded <:+ (run capacity (earlier ++ later)).recorded := by
  induction later using List.reverseRecOn with
  | nil => exact (List.append_nil earlier).symm ▸ List.suffix_rfl
  | append_singleton later use ih =>
    rw [← List.append_assoc, run_append_singleton]
    exact ih.trans (suffix_step capacity _ use).1

/-- An entry that is gone was taken, or there was a time when the store was full with newer ones. -/
theorem exists_outlived (capacity : ℕ) (uses : List SkippedUse) {entry : SkippedEntry}
    (hentry : entry ∈ (run capacity uses).recorded) (htaken : entry ∉ (run capacity uses).taken)
    (hout : entry ∉ (run capacity uses).held) :
    ∃ earlier later, uses = earlier ++ later ∧ entry ∈ (run capacity earlier).recorded ∧
      Outlived capacity (run capacity earlier) entry := by
  induction uses using List.reverseRecOn with
  | nil => exact absurd hentry List.not_mem_nil
  | append_singleton uses use ih =>
    have hlast := hentry
    rw [run_append_singleton] at hentry htaken hout
    rcases (kept_run capacity uses).out_step use hentry hout with hnow | ⟨hbefore, hgone⟩ | hfull
    · exact absurd hnow htaken
    · have htaken' : entry ∉ (run capacity uses).taken := fun h =>
        htaken ((suffix_step capacity _ use).2.subset h)
      obtain ⟨earlier, later, rfl, hthen, houtlived⟩ := ih hbefore htaken' hgone
      exact ⟨earlier, later ++ [use], (List.append_assoc ..).symm ▸ rfl, hthen, houtlived⟩
    · exact ⟨uses ++ [use], [], (List.append_nil _).symm, hlast, by rwa [run_append_singleton]⟩

/-- An entry that was not taken stays until as many newer ones were recorded as the store can hold. -/
theorem mem_held_of_newer (capacity : ℕ) (uses : List SkippedUse) {newer older : List SkippedEntry}
    {entry : SkippedEntry} (hrecorded : (run capacity uses).recorded = newer ++ entry :: older)
    (hnewer : newer.length < capacity) (htaken : entry ∉ (run capacity uses).taken) :
    entry ∈ (run capacity uses).held := by
  by_contra hout
  have hentry : entry ∈ (run capacity uses).recorded := by simp [hrecorded]
  obtain ⟨earlier, later, huses, -, hlength, houtlived⟩ := exists_outlived capacity uses hentry htaken hout
  have hkept := kept_run capacity earlier
  have hordered := (kept_run capacity uses).pairwise_recorded
  rw [hrecorded, List.pairwise_append] at hordered
  -- The entries that filled the store were all recorded after this one.
  have hsubset : (run capacity earlier).held ⊆ newer := by
    intro other hother
    have hrec : other ∈ newer ++ entry :: older := by
      rw [← hrecorded, huses]
      exact (suffix_recorded_run capacity earlier later).subset (hkept.sublist.subset hother)
    have hlt := houtlived other hother
    rcases List.mem_append.mp hrec with hmem | hmem
    · exact hmem
    · rcases List.mem_cons.mp hmem with rfl | hmem
      · exact absurd hlt (Nat.lt_irrefl _)
      · exact absurd (List.rel_of_pairwise_cons hordered.2.1 hmem) (Nat.lt_asymm hlt)
  have hle := (List.subperm_of_subset (hkept.sublist.nodup hkept.nodup_recorded) hsubset).length_le
  omega

/-! ### Looks and takes -/

/-- A look and a take name one entry, the newest one of the name, and the take removes just that one. -/
theorem get_take_cases {store : SkippedKeys} (hkeys : log.held.map (·.key) = store.keys)
    (hcapacity : store.capacity = capacity) (ratchetKey : Curve25519Key) (index : UInt32) :
    ((∀ entry ∈ log.held, entry.key.name ≠ (ratchetKey.element, index)) ∧
        store.find? ratchetKey index = none ∧ store.take ratchetKey index = (none, store) ∧
        log.step capacity (.take ratchetKey index) = log) ∨
      ∃ newer entry older, log.held = newer ++ entry :: older ∧
        entry.key.name = (ratchetKey.element, index) ∧
        (∀ other ∈ newer, other.key.name ≠ (ratchetKey.element, index)) ∧
        store.find? ratchetKey index = some entry.key.messageKey ∧
        (store.take ratchetKey index).1 = some entry.key.messageKey ∧
        (store.take ratchetKey index).2.keys = (newer ++ older).map (·.key) ∧
        log.step capacity (.take ratchetKey index) =
          { log with held := newer ++ older, taken := entry :: log.taken } := by
  have hafter := map_held_step hkeys (.take ratchetKey index)
  rw [hcapacity] at hafter
  have hfound := find?_held hkeys ratchetKey index
  rcases log.take_cases capacity ratchetKey index with
    ⟨hfind, hnone, hsame⟩ | ⟨newer, entry, older, hheld, hname, hnewer, hfind, hstep⟩
  · rw [hfind] at hfound
    refine .inl ⟨hnone, hfound, Prod.ext hfound (SkippedKeys.ext ?_ rfl), hsame⟩
    rw [hsame, hkeys] at hafter
    exact hafter.symm
  · rw [hfind] at hfound
    rw [hstep] at hafter
    exact .inr ⟨newer, entry, older, hheld, hname, hnewer, hfound, hfound, hafter.symm, hstep⟩

end SkippedLog

end Olm

open Olm in
/-- A store of skipped keys drops only what it must, whatever is recorded, looked for and taken. It holds no
more keys than its capacity, newest first. An entry that was not taken is there until as many newer ones were
recorded as the store can hold. With each use, an entry leaves only if it is taken or if the store is then
full with newer ones, so for each entry that is gone there was a time when it was so. A look and a take name
the same entry, the newest one with the field element of the ratchet key and the place, and the take
removes that one and keeps the order of the others. -/
theorem drops_only_what_it_must (capacity : ℕ) (uses : List SkippedUse) :
    let store := (SkippedKeys.withCapacity capacity).useAll uses
    let log := SkippedLog.run capacity uses
    (log.held.map (·.key) = store.keys ∧
      log.recorded.map (·.key) = (uses.filterMap SkippedUse.recorded?).reverse ∧
      log.recorded.map (·.number) = (List.range log.recorded.length).reverse ∧
      ∀ entry ∈ log.taken, entry ∈ log.recorded ∧ entry ∉ log.held) ∧
    (store.keys.length ≤ capacity ∧ log.held.Sublist log.recorded) ∧
    (∀ newer entry older, log.recorded = newer ++ entry :: older → newer.length < capacity →
      entry ∉ log.taken → entry ∈ log.held) ∧
    (∀ use, ∀ entry ∈ (log.step capacity use).recorded, entry ∉ (log.step capacity use).held →
      entry ∈ (log.step capacity use).taken ∨ (entry ∈ log.recorded ∧ entry ∉ log.held) ∨
        (log.step capacity use).Outlived capacity entry) ∧
    (∀ entry ∈ log.recorded, entry ∉ log.taken → entry ∉ log.held →
      ∃ earlier later, uses = earlier ++ later ∧ entry ∈ (SkippedLog.run capacity earlier).recorded ∧
        (SkippedLog.run capacity earlier).Outlived capacity entry) ∧
    ∀ ratchetKey index,
      ((∀ entry ∈ log.held, entry.key.name ≠ (ratchetKey.element, index)) ∧
        store.find? ratchetKey index = none ∧ store.take ratchetKey index = (none, store) ∧
        log.step capacity (.take ratchetKey index) = log) ∨
      ∃ newer entry older, log.held = newer ++ entry :: older ∧
        entry.key.name = (ratchetKey.element, index) ∧
        (∀ other ∈ newer, other.key.name ≠ (ratchetKey.element, index)) ∧
        store.find? ratchetKey index = some entry.key.messageKey ∧
        (store.take ratchetKey index).1 = some entry.key.messageKey ∧
        (store.take ratchetKey index).2.keys = (newer ++ older).map (·.key) ∧
        log.step capacity (.take ratchetKey index) =
          { log with held := newer ++ older, taken := entry :: log.taken } := by
  intro store log
  have hkeys : log.held.map (·.key) = store.keys := SkippedLog.map_held_run capacity uses
  have hcapacity : store.capacity = capacity := SkippedKeys.capacity_useAll _ uses
  have hkept : log.Kept capacity := SkippedLog.kept_run capacity uses
  refine ⟨⟨hkeys, SkippedLog.map_recorded_run capacity uses, hkept.numbers, fun entry hentry =>
    ⟨hkept.mem_recorded entry hentry, hkept.not_held entry hentry⟩⟩, ⟨?_, hkept.sublist⟩, ?_, ?_, ?_, ?_⟩
  · exact hcapacity ▸ store.length_le
  · intro newer entry older hrecorded hnewer htaken
    exact SkippedLog.mem_held_of_newer capacity uses hrecorded hnewer htaken
  · intro use entry hentry hout
    exact hkept.out_step use hentry hout
  · intro entry hentry htaken hout
    exact SkippedLog.exists_outlived capacity uses hentry htaken hout
  · intro ratchetKey index
    exact SkippedLog.get_take_cases hkeys hcapacity ratchetKey index

open Olm in
/-- A store of two keys after the older one was taken, by other bytes of its ratchet key, and another one was
recorded: the key in between is still there, and the next recording drops it. -/
theorem drops_only_what_it_must_refilled :
    let key (index : UInt32) : SkippedKey := ⟨⟨.zero 32⟩, ⟨[], index⟩⟩
    let uses : List SkippedUse :=
      [.record (key 0), .record (key 1), .take ⟨.ofNatLE 32 Curve25519.prime⟩ 0, .record (key 2)]
    let log := SkippedLog.run 2 uses
    ⟨1, key 1⟩ ∈ log.held ∧ ⟨0, key 0⟩ ∈ log.taken ∧
      (log.step 2 (.record (key 3))).Outlived 2 ⟨1, key 1⟩ := by
  intro key uses log
  obtain ⟨-, -, hstays, hleaves, -⟩ := drops_only_what_it_must 2 uses
  have hheld : ⟨1, key 1⟩ ∈ log.held :=
    hstays [⟨2, key 2⟩] ⟨1, key 1⟩ [⟨0, key 0⟩] (by decide +kernel) (by decide) (by decide +kernel)
  refine ⟨hheld, by decide +kernel, ?_⟩
  rcases hleaves (.record (key 3)) ⟨1, key 1⟩ (by decide +kernel) (by decide +kernel) with
    htaken | ⟨-, hout⟩ | hfull
  · exact absurd htaken (by decide +kernel)
  · exact absurd hheld hout
  · exact hfull

end RoomCrypt
