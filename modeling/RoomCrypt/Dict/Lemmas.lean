import RoomCrypt.Dict

/-!
# Laws of dictionaries

What looking a key up finds after each operation, and that a dictionary is determined by what can
be found in it: the order in which its entries were put does not show.
-/

namespace RoomCrypt.Dict

variable {α β : Type}

theorem lookup?_insertEntry_self (key : String) (value : α) (entries : List (String × α)) :
    lookup? key (insertEntry key value entries) = some value := by
  induction entries with
  | nil => simp [insertEntry, lookup?]
  | cons entry rest ih =>
    obtain ⟨k, v⟩ := entry
    by_cases h : k = key
    · simp [insertEntry, lookup?, h]
    · by_cases h' : key < k <;> simp [insertEntry, lookup?, h, h', ih]

theorem lookup?_insertEntry_of_ne {key other : String} (h : other ≠ key) (value : α)
    (entries : List (String × α)) :
    lookup? other (insertEntry key value entries) = lookup? other entries := by
  induction entries with
  | nil => simp [insertEntry, lookup?, Ne.symm h]
  | cons entry rest ih =>
    obtain ⟨k, v⟩ := entry
    by_cases hk : k = key
    · simp [insertEntry, lookup?, hk, Ne.symm h]
    · by_cases h' : key < k <;> simp [insertEntry, lookup?, hk, h', ih, Ne.symm h]

@[simp] theorem find?_insert_self (d : Dict α) (key : String) (value : α) :
    (d.insert key value).find? key = some value :=
  lookup?_insertEntry_self key value d.entries

theorem find?_insert_of_ne (d : Dict α) {key other : String} (h : other ≠ key) (value : α) :
    (d.insert key value).find? other = d.find? other :=
  lookup?_insertEntry_of_ne h value d.entries

/-- What is found after a value was put. -/
theorem find?_insert (d : Dict α) (key other : String) (value : α) :
    (d.insert key value).find? other = if other = key then some value else d.find? other := by
  by_cases h : other = key
  · subst h
    rw [if_pos rfl, find?_insert_self]
  · rw [if_neg h, find?_insert_of_ne d h]

/-- A map that is not there is one without entries. -/
theorem find?_getD_empty (d : Option (Dict α)) (key : String) :
    (d.getD .empty).find? key = d.bind (·.find? key) := by
  cases d <;> rfl

/-- A value in a map of maps is found under its two keys. -/
theorem find?_insert_nested (d : Dict (Dict α)) (first second : String) (value : α) (key key' : String) :
    ((d.insert first (((d.find? first).getD .empty).insert second value)).find? key).bind (·.find? key') =
      if key = first ∧ key' = second then some value else (d.find? key).bind (·.find? key') := by
  rw [find?_insert]
  by_cases hfirst : key = first
  · subst hfirst
    rw [if_pos rfl, Option.bind_some, find?_insert, find?_getD_empty]
    simp only [true_and]
  · rw [if_neg hfirst, if_neg fun h => hfirst h.1]

/-- A value in a map of maps of maps is found under its three keys. -/
theorem find?_insert_nested₂ (d : Dict (Dict (Dict α))) (first second third : String) (value : α)
    (key key' key'' : String) :
    let maps := (d.find? first).getD .empty
    let map := (maps.find? second).getD .empty
    ((d.insert first (maps.insert second (map.insert third value))).find? key).bind
        (fun maps => (maps.find? key').bind (·.find? key'')) =
      if key = first ∧ key' = second ∧ key'' = third then some value
      else (d.find? key).bind fun maps => (maps.find? key').bind (·.find? key'') := by
  intro maps map
  have hmap : map = ((d.find? first).bind (·.find? second)).getD .empty := by
    rw [← find?_getD_empty]
  simp only [← Option.bind_assoc]
  rw [find?_insert_nested]
  by_cases hfound : key = first ∧ key' = second
  · obtain ⟨rfl, rfl⟩ := hfound
    rw [if_pos ⟨rfl, rfl⟩, Option.bind_some, find?_insert, hmap, find?_getD_empty]
    simp only [true_and]
  · rw [if_neg hfound, if_neg fun h => hfound ⟨h.1, h.2.1⟩]

@[simp] theorem find?_empty (key : String) : (empty : Dict α).find? key = none := rfl

theorem mem_of_lookup? {key : String} {value : α} {entries : List (String × α)}
    (h : lookup? key entries = some value) : (key, value) ∈ entries := by
  induction entries with
  | nil => simp [lookup?] at h
  | cons entry rest ih =>
    obtain ⟨k, v⟩ := entry
    by_cases hk : k = key
    · simp_all [lookup?]
    · exact List.mem_cons_of_mem _ (ih (by simpa [lookup?, hk] using h))

theorem lookup?_of_mem {key : String} {value : α} {entries : List (String × α)}
    (hord : entries.Pairwise fun a b => a.1 < b.1) (h : (key, value) ∈ entries) :
    lookup? key entries = some value := by
  induction entries with
  | nil => simp at h
  | cons entry rest ih =>
    obtain ⟨hfirst, hrest⟩ := List.pairwise_cons.1 hord
    rcases List.mem_cons.1 h with rfl | hmem
    · simp [lookup?]
    · have hne : entry.1 ≠ key := fun e => String.lt_irrefl key (by simpa [e] using hfirst _ hmem)
      simp [lookup?, hne, ih hrest hmem]

/-- The entries are the keys that have a value, with their values. -/
theorem mem_entries {d : Dict α} {key : String} {value : α} :
    (key, value) ∈ d.entries ↔ d.find? key = some value :=
  ⟨lookup?_of_mem d.ordered, mem_of_lookup?⟩

/-- No key is repeated. -/
theorem nodup_keys (d : Dict α) : d.keys.Nodup := by
  refine List.pairwise_map.mpr (d.ordered.imp fun {entry other} hlt heq => ?_)
  rw [heq] at hlt
  exact String.lt_irrefl _ hlt

/-- A key is one that has a value. -/
theorem mem_keys {d : Dict α} {key : String} : key ∈ d.keys ↔ (d.find? key).isSome := by
  constructor
  · intro h
    obtain ⟨⟨_, value⟩, hentry, rfl⟩ := List.mem_map.mp h
    rw [mem_entries.mp hentry]
    rfl
  · intro h
    obtain ⟨value, hvalue⟩ := Option.isSome_iff_exists.mp h
    exact List.mem_map.mpr ⟨(key, value), mem_entries.mpr hvalue, rfl⟩

theorem lookup?_map (f : String → α → β) (key : String) (entries : List (String × α)) :
    lookup? key (entries.map fun entry => (entry.1, f entry.1 entry.2)) =
      (lookup? key entries).map (f key) := by
  induction entries with
  | nil => rfl
  | cons entry rest ih => by_cases h : entry.1 = key <;> simp [lookup?, h, ih]

@[simp] theorem find?_mapEntries (f : String → α → β) (d : Dict α) (key : String) :
    (d.mapEntries f).find? key = (d.find? key).map (f key) :=
  lookup?_map f key d.entries

@[simp] theorem find?_map (f : α → β) (d : Dict α) (key : String) :
    (d.map f).find? key = (d.find? key).map f :=
  find?_mapEntries _ d key

/-- Nothing is found under a key that no entry has. -/
theorem lookup?_eq_none {key : String} {entries : List (String × α)}
    (h : ∀ entry ∈ entries, entry.1 ≠ key) : lookup? key entries = none := by
  induction entries with
  | nil => rfl
  | cons entry rest ih =>
    obtain ⟨hentry, hrest⟩ := List.forall_mem_cons.1 h
    simp [lookup?, hentry, ih hrest]

/-- A key before that of every entry is that of none. -/
theorem lookup?_eq_none_of_lt {key : String} {entries : List (String × α)}
    (h : ∀ entry ∈ entries, key < entry.1) : lookup? key entries = none :=
  lookup?_eq_none fun entry hentry heq => String.lt_irrefl key (heq ▸ h entry hentry)

/-- Ordered lists in which every key has the same value are equal. -/
theorem entries_ext {l l' : List (String × α)} (hl : l.Pairwise fun a b => a.1 < b.1)
    (hl' : l'.Pairwise fun a b => a.1 < b.1) (h : ∀ key, lookup? key l = lookup? key l') :
    l = l' := by
  induction l generalizing l' with
  | nil =>
    cases l' with
    | nil => rfl
    | cons entry rest => simpa [lookup?] using h entry.1
  | cons entry rest ih =>
    cases l' with
    | nil => simpa [lookup?] using h entry.1
    | cons entry' rest' =>
      obtain ⟨hfirst, hrest⟩ := List.pairwise_cons.1 hl
      obtain ⟨hfirst', hrest'⟩ := List.pairwise_cons.1 hl'
      have hmem : entry ∈ entry' :: rest' :=
        mem_of_lookup? ((h entry.1).symm.trans (lookup?_of_mem hl List.mem_cons_self))
      have hmem' : entry' ∈ entry :: rest :=
        mem_of_lookup? ((h entry'.1).trans (lookup?_of_mem hl' List.mem_cons_self))
      have heq : entry = entry' := by
        rcases List.mem_cons.1 hmem with heq | hmem
        · exact heq
        · rcases List.mem_cons.1 hmem' with heq | hmem'
          · exact heq.symm
          · exact absurd (String.lt_trans (hfirst _ hmem') (hfirst' _ hmem)) (String.lt_irrefl _)
      subst heq
      congr 1
      refine ih hrest hrest' fun key => ?_
      by_cases hkey : entry.1 = key
      · subst hkey
        rw [lookup?_eq_none_of_lt hfirst, lookup?_eq_none_of_lt hfirst']
      · simpa [lookup?, hkey] using h key

/-- Maps with the same value for every key are equal. -/
theorem ext_find? {d e : Dict α} (h : ∀ key, d.find? key = e.find? key) : d = e :=
  eq_of_entries_eq (entries_ext d.ordered e.ordered h)

/-- Giving a key the value that it has changes nothing. -/
theorem insert_of_find? {d : Dict α} {key : String} {value : α} (h : d.find? key = some value) :
    d.insert key value = d := by
  refine ext_find? fun other => ?_
  rw [find?_insert]
  split
  · next hkey => rw [hkey, h]
  · rfl

/-- Nor does it in a map of maps of maps. -/
theorem insert_nested₂_of_find? {d : Dict (Dict (Dict α))} {first second third : String} {value : α}
    (h : (d.find? first).bind (fun maps => (maps.find? second).bind (·.find? third)) = some value) :
    let maps := (d.find? first).getD .empty
    let map := (maps.find? second).getD .empty
    d.insert first (maps.insert second (map.insert third value)) = d := by
  obtain ⟨maps, hmaps, h⟩ := Option.bind_eq_some_iff.mp h
  obtain ⟨map, hmap, h⟩ := Option.bind_eq_some_iff.mp h
  simp only [hmaps, hmap, Option.getD_some, insert_of_find? h, insert_of_find? hmap, insert_of_find? hmaps]

/-- Entries that are put one after the other are found, if no key is repeated. -/
theorem find?_foldl_insert (d : Dict α) {entries : List (String × α)} (hkeys : (entries.map (·.1)).Nodup)
    (key : String) :
    (entries.foldl (fun d (entry : String × α) => d.insert entry.1 entry.2) d).find? key =
      (lookup? key entries).or (d.find? key) := by
  induction entries generalizing d with
  | nil => rfl
  | cons entry rest ih =>
    obtain ⟨hfirst, hrest⟩ := List.nodup_cons.1 hkeys
    rw [List.foldl_cons, ih _ hrest]
    by_cases hkey : entry.1 = key
    · subst hkey
      have hothers : ∀ other ∈ rest, other.1 ≠ entry.1 := fun other hother heq =>
        hfirst (List.mem_map.2 ⟨other, hother, heq⟩)
      simp [lookup?, lookup?_eq_none hothers]
    · simp [lookup?, hkey, find?_insert_of_ne d (Ne.symm hkey)]

/-- The map of entries has each of them, if no key is repeated. -/
theorem find?_ofList {entries : List (String × α)} (hkeys : (entries.map (·.1)).Nodup) (key : String) :
    (ofList entries).find? key = lookup? key entries := by
  rw [ofList, find?_foldl_insert _ hkeys, find?_empty, Option.or_none]

/-- A map is that of its entries. -/
@[simp] theorem ofList_entries (d : Dict α) : ofList d.entries = d :=
  ext_find? fun key => find?_ofList d.nodup_keys key

/-- Entries in two parts are found in the first one or the second one. -/
theorem lookup?_append (key : String) (entries others : List (String × α)) :
    lookup? key (entries ++ others) = (lookup? key entries).or (lookup? key others) := by
  induction entries with
  | nil => rfl
  | cons entry rest ih => by_cases h : entry.1 = key <;> simp [lookup?, h, ih]

/-- The entries whose keys pass a test. -/
theorem lookup?_filter (test : String → Bool) (key : String) (entries : List (String × α)) :
    lookup? key (entries.filter fun entry => test entry.1) = if test key then lookup? key entries else none := by
  induction entries with
  | nil => simp [lookup?]
  | cons entry rest ih =>
    by_cases hkey : entry.1 = key
    · subst hkey
      by_cases htest : test entry.1 <;> simp_all [lookup?]
    · by_cases htest : test entry.1 <;> simp_all [lookup?]

end RoomCrypt.Dict
