/-!
# Dictionaries

Finite maps from texts, kept in the order of their keys: the order in which they are listed and
written. Texts are ordered by their code points, which is also the order of their UTF-8 bytes.
-/

namespace RoomCrypt

/-- A finite map from texts to values. -/
structure Dict (α : Type) where
  /-- The keys and their values. -/
  entries : List (String × α)
  /-- The keys are in order, and no two of them are equal. -/
  ordered : entries.Pairwise fun a b => a.1 < b.1

namespace Dict

variable {α β : Type}

theorem eq_of_entries_eq {d e : Dict α} (h : d.entries = e.entries) : d = e := by
  cases d; cases e; simp_all

instance [DecidableEq α] : DecidableEq (Dict α) := fun d e =>
  decidable_of_iff (d.entries = e.entries) ⟨eq_of_entries_eq, fun h => h ▸ rfl⟩

/-- The map without entries. -/
def empty : Dict α := ⟨[], List.Pairwise.nil⟩

instance : Inhabited (Dict α) := ⟨empty⟩

/-- Look a key up in a list of entries. -/
def lookup? (key : String) : List (String × α) → Option α
  | [] => none
  | (k, v) :: rest => if k = key then some v else lookup? key rest

/-- The value of a key. -/
def find? (d : Dict α) (key : String) : Option α :=
  lookup? key d.entries

/-- Put an entry before the first greater key, in place of an entry with the same key. -/
def insertEntry (key : String) (value : α) : List (String × α) → List (String × α)
  | [] => [(key, value)]
  | (k, v) :: rest =>
    if k = key then (key, value) :: rest
    else if key < k then (key, value) :: (k, v) :: rest
    else (k, v) :: insertEntry key value rest

theorem mem_insertEntry {key : String} {value : α} {entries : List (String × α)}
    {entry : String × α} (h : entry ∈ insertEntry key value entries) :
    entry = (key, value) ∨ entry ∈ entries := by
  induction entries with
  | nil => simpa [insertEntry] using h
  | cons first rest ih =>
    simp only [insertEntry] at h
    split at h <;> grind

theorem ordered_insertEntry (key : String) (value : α) {entries : List (String × α)}
    (h : entries.Pairwise fun a b => a.1 < b.1) :
    (insertEntry key value entries).Pairwise fun a b => a.1 < b.1 := by
  induction entries with
  | nil => simp [insertEntry]
  | cons first rest ih =>
    obtain ⟨k, v⟩ := first
    obtain ⟨hfirst, hrest⟩ := List.pairwise_cons.1 h
    by_cases hk : k = key
    · subst hk
      simpa [insertEntry] using h
    · by_cases hlt : key < k
      · simp only [insertEntry, hk, hlt, if_false, if_true]
        refine List.pairwise_cons.2 ⟨fun entry hentry => ?_, h⟩
        rcases List.mem_cons.1 hentry with rfl | hentry
        · exact hlt
        · exact String.lt_trans hlt (hfirst entry hentry)
      · simp only [insertEntry, hk, hlt, if_false]
        refine List.pairwise_cons.2 ⟨fun entry hentry => ?_, ih hrest⟩
        rcases mem_insertEntry hentry with rfl | hentry
        · exact Std.lt_of_le_of_ne (String.not_lt.1 hlt) hk
        · exact hfirst entry hentry

/-- Give a key a value; the one it had before is forgotten. -/
def insert (d : Dict α) (key : String) (value : α) : Dict α :=
  ⟨insertEntry key value d.entries, ordered_insertEntry key value d.ordered⟩

/-- Take a key out. -/
def erase (d : Dict α) (key : String) : Dict α :=
  ⟨d.entries.filter fun entry => entry.1 ≠ key, d.ordered.filter _⟩

/-- Does the key have a value? -/
def contains (d : Dict α) (key : String) : Bool :=
  (d.find? key).isSome

/-- The map of a list of entries; of equal keys the last one counts. -/
def ofList (entries : List (String × α)) : Dict α :=
  entries.foldl (fun d (key, value) => d.insert key value) empty

/-- The keys in order. -/
def keys (d : Dict α) : List String :=
  d.entries.map (·.1)

/-- The values in the order of their keys. -/
def values (d : Dict α) : List α :=
  d.entries.map (·.2)

/-- Apply a function to every key and its value. -/
def mapEntries (f : String → α → β) (d : Dict α) : Dict β :=
  ⟨d.entries.map fun entry => (entry.1, f entry.1 entry.2), List.pairwise_map.2 d.ordered⟩

/-- Apply a function to every value. -/
def map (f : α → β) (d : Dict α) : Dict β :=
  d.mapEntries fun _ => f

/-- How many keys there are. -/
def size (d : Dict α) : Nat :=
  d.entries.length

/-- Is there no entry? -/
def isEmpty (d : Dict α) : Bool :=
  d.entries.isEmpty

end Dict

end RoomCrypt
