import Mathlib.Data.List.Forall2
import RoomCrypt.Proofs.Call
import RoomCrypt.Proofs.Wire

/-!
# Fields one after another

A field is read from the bytes that it takes, whatever follows them, and the number of steps that a reader may
take does not matter: twice the number of bytes is always enough, for groups inside of groups too. So a byte string
holds fields exactly if it is made of parts that hold one field each, however these were written, and of the fields
with one number the last one counts, wherever it stands among the others.
-/

namespace RoomCrypt.Wire

variable {α : Type}

/-- A reader reads a value from some bytes, whatever follows them. -/
def Takes (read : Bytes → Option (α × Bytes)) (taken : Bytes) (value : α) : Prop :=
  ∀ rest, read (taken ++ rest) = some (value, rest)

/-- A reader looks at no bytes but those that it takes, and it takes at least one. -/
def TakesFront (read : Bytes → Option (α × Bytes)) : Prop :=
  ∀ bytes value rest, read bytes = some (value, rest) →
    ∃ taken, taken ≠ [] ∧ bytes = taken ++ rest ∧ Takes read taken value

theorem groups_ne_nil (count n : ℕ) : groups count n ≠ [] := by
  cases count <;> exact List.cons_ne_nil _ _

theorem takesFront_varint? : TakesFront varint? := by
  intro bytes n rest h
  obtain ⟨hlimit, count, hcount, hn, rfl⟩ := varint?_eq_some_iff.mp h
  exact ⟨groups count n, groups_ne_nil count n, rfl,
    fun rest => varint?_eq_some_iff.mpr ⟨hlimit, count, hcount, hn, rfl⟩⟩

/-- The number of a field and its wire type are read together. -/
theorem key?_eq_some_iff {bytes rest : Bytes} {number wireType : ℕ} :
    key? bytes = some (number, wireType, rest) ↔
      ∃ n, varint? bytes = some (n, rest) ∧ (n < UInt32.size ∧ 8 ≤ n) ∧ n / 8 = number ∧ n % 8 = wireType := by
  unfold key?
  cases hn : varint? bytes with
  | none => simp
  | some found =>
    obtain ⟨n, rest'⟩ := found
    by_cases hbounds : n < UInt32.size ∧ 8 ≤ n
    · simp only [Option.bind_eq_bind, Option.bind_some, if_pos hbounds, Option.some.injEq, Prod.mk.injEq]
      constructor
      · rintro ⟨rfl, rfl, rfl⟩
        exact ⟨n, ⟨rfl, rfl⟩, hbounds, rfl, rfl⟩
      · rintro ⟨_, ⟨rfl, rfl⟩, -, rfl, rfl⟩
        exact ⟨rfl, rfl, rfl⟩
    · simp only [Option.bind_eq_bind, Option.bind_some, if_neg hbounds, Option.some.injEq, Prod.mk.injEq]
      constructor
      · nofun
      · rintro ⟨_, ⟨rfl, rfl⟩, hbounds', -, -⟩
        exact absurd hbounds' hbounds

/-- Some bytes are the number of a field and its wire type. -/
def IsKey (number wireType : ℕ) (taken : Bytes) : Prop :=
  ∀ rest, key? (taken ++ rest) = some (number, wireType, rest)

/-- The first bytes of a field are its number and its wire type, whatever follows. -/
theorem exists_isKey {bytes rest : Bytes} {number wireType : ℕ} (h : key? bytes = some (number, wireType, rest)) :
    ∃ taken, taken ≠ [] ∧ bytes = taken ++ rest ∧ IsKey number wireType taken := by
  obtain ⟨n, hn, hbounds, hnumber, hwireType⟩ := key?_eq_some_iff.mp h
  obtain ⟨taken, hne, hbytes, htaken⟩ := takesFront_varint? bytes n rest hn
  exact ⟨taken, hne, hbytes, fun more => key?_eq_some_iff.mpr ⟨n, htaken more, hbounds, hnumber, hwireType⟩⟩

/-- Some bytes are the value of a field if twice as many steps read it from them; more steps change nothing. -/
def IsValue (depth number wireType : ℕ) (taken : Bytes) (value : Value) : Prop :=
  ∀ fuel, 2 * taken.length ≤ fuel → Takes (readValue fuel depth number wireType) taken value

/-- Some bytes are the inside of a group and its end. -/
def IsGroup (depth number : ℕ) (taken : Bytes) : Prop :=
  ∀ fuel, 2 * taken.length ≤ fuel + 1 → ∀ rest, skipGroup fuel depth number (taken ++ rest) = some rest

section Values

variable {depth number wireType inner : ℕ} {taken : Bytes}

/-- Reading a value that takes bytes needs a step. -/
theorem exists_fuel_eq (hne : taken ≠ []) {fuel : ℕ} (hfuel : 2 * taken.length ≤ fuel) :
    ∃ fewer, fuel = fewer + 1 := by
  have hpos := List.length_pos_iff.mpr hne
  exact ⟨fuel - 1, by omega⟩

theorem isValue_number {n : ℕ} (hne : taken ≠ []) (htaken : Takes varint? taken n) :
    IsValue depth number 0 taken (.number n) := by
  intro fuel hfuel rest
  obtain ⟨fewer, rfl⟩ := exists_fuel_eq hne hfuel
  simp only [readValue, htaken rest, Option.map_some]

theorem isValue_delimited {bytes : Bytes} (hne : taken ≠ []) (htaken : Takes varint? taken bytes.length) :
    IsValue depth number 2 (taken ++ bytes) (.delimited bytes) := by
  intro fuel hfuel rest
  obtain ⟨fewer, rfl⟩ := exists_fuel_eq (List.append_ne_nil_of_left_ne_nil hne bytes) hfuel
  simp [readValue, htaken (bytes ++ rest), Bytes.splitAt?_append]

theorem isValue_eight (hlength : taken.length = 8) : IsValue depth number 1 taken .skipped := by
  intro fuel hfuel rest
  obtain ⟨fewer, rfl⟩ := exists_fuel_eq (List.ne_nil_of_length_eq_add_one hlength) hfuel
  have hsplit := Bytes.splitAt?_append taken rest
  rw [hlength] at hsplit
  simp only [readValue, hsplit, Option.map_some]

theorem isValue_four (hlength : taken.length = 4) : IsValue depth number 5 taken .skipped := by
  intro fuel hfuel rest
  obtain ⟨fewer, rfl⟩ := exists_fuel_eq (List.ne_nil_of_length_eq_add_one hlength) hfuel
  have hsplit := Bytes.splitAt?_append taken rest
  rw [hlength] at hsplit
  simp only [readValue, hsplit, Option.map_some]

/-- A group is a value that is skipped. -/
theorem IsGroup.isValue (hne : taken ≠ []) (hgroup : IsGroup depth number taken) :
    IsValue depth number 3 taken .skipped := by
  intro fuel hfuel rest
  obtain ⟨fewer, rfl⟩ := exists_fuel_eq hne hfuel
  simp only [readValue, hgroup fewer hfuel rest, Option.map_some]

/-- A group may have nothing inside. -/
theorem IsKey.isGroup (hne : taken ≠ []) (hend : IsKey number 4 taken) : IsGroup depth number taken := by
  intro fuel hfuel rest
  have hpos := List.length_pos_iff.mpr hne
  obtain ⟨fewer, rfl⟩ : ∃ fewer, fuel = fewer + 1 := ⟨fuel - 1, by omega⟩
  simp [skipGroup, hend rest]

/-- A field in front of what is inside of a group is inside of it too. -/
theorem IsGroup.cons {key value : Bytes} {content : Value} (hkey : IsKey inner wireType key) (hnekey : key ≠ [])
    (hwireType : wireType ≠ 4) (hdepth : depth ≠ 0) (hvalue : IsValue (depth - 1) inner wireType value content)
    (hne : taken ≠ []) (hgroup : IsGroup depth number taken) : IsGroup depth number (key ++ (value ++ taken)) := by
  intro fuel hfuel rest
  have hposkey := List.length_pos_iff.mpr hnekey
  have hpos := List.length_pos_iff.mpr hne
  simp only [List.length_append] at hfuel
  obtain ⟨fewer, rfl⟩ : ∃ fewer, fuel = fewer + 1 := ⟨fuel - 1, by omega⟩
  have hfirst := hvalue fewer (by omega) (taken ++ rest)
  have hothers := hgroup fewer (by omega) rest
  simp [skipGroup, hkey (value ++ (taken ++ rest)), hwireType, hdepth, hfirst, hothers]

end Values

/-- Whatever some steps read as a value is one, whatever follows it. -/
def FindsValues (fuel : ℕ) : Prop :=
  ∀ depth number wireType bytes value rest, readValue fuel depth number wireType bytes = some (value, rest) →
    ∃ taken, taken ≠ [] ∧ bytes = taken ++ rest ∧ IsValue depth number wireType taken value

/-- Whatever some steps skip as a group is one. -/
def FindsGroups (fuel : ℕ) : Prop :=
  ∀ depth number bytes rest, skipGroup fuel depth number bytes = some rest →
    ∃ taken, taken ≠ [] ∧ bytes = taken ++ rest ∧ IsGroup depth number taken

/-- A value is read by its wire type, and only a group takes more steps. -/
theorem FindsGroups.findsValues {fuel : ℕ} (hgroups : FindsGroups fuel) : FindsValues (fuel + 1) := by
  intro depth number wireType bytes value rest h
  unfold readValue at h
  split at h
  · simp only [Option.map_eq_some_iff, Prod.exists, Prod.mk.injEq] at h
    obtain ⟨n, rest', hn, rfl, rfl⟩ := h
    obtain ⟨taken, hne, hbytes, htaken⟩ := takesFront_varint? bytes n rest' hn
    exact ⟨taken, hne, hbytes, isValue_number hne htaken⟩
  · simp only [Option.map_eq_some_iff, Prod.exists, Prod.mk.injEq] at h
    obtain ⟨taken, rest', hsplit, rfl, rfl⟩ := h
    obtain ⟨hbytes, hlength⟩ := Bytes.append_of_splitAt? hsplit
    exact ⟨taken, List.ne_nil_of_length_eq_add_one hlength, hbytes, isValue_eight hlength⟩
  · simp only [Option.bind_eq_bind, Option.bind_eq_some_iff, Prod.exists, Option.some.injEq, Prod.mk.injEq] at h
    obtain ⟨length, after, hlength, content, rest', hsplit, rfl, rfl⟩ := h
    obtain ⟨taken, hne, rfl, htaken⟩ := takesFront_varint? bytes length after hlength
    obtain ⟨rfl, rfl⟩ := Bytes.append_of_splitAt? hsplit
    exact ⟨taken ++ content, List.append_ne_nil_of_left_ne_nil hne content, (List.append_assoc _ _ _).symm,
      isValue_delimited hne htaken⟩
  · simp only [Option.map_eq_some_iff, Prod.mk.injEq] at h
    obtain ⟨rest', hskip, rfl, rfl⟩ := h
    obtain ⟨taken, hne, hbytes, hgroup⟩ := hgroups depth number bytes rest' hskip
    exact ⟨taken, hne, hbytes, hgroup.isValue hne⟩
  · simp only [Option.map_eq_some_iff, Prod.exists, Prod.mk.injEq] at h
    obtain ⟨taken, rest', hsplit, rfl, rfl⟩ := h
    obtain ⟨hbytes, hlength⟩ := Bytes.append_of_splitAt? hsplit
    exact ⟨taken, List.ne_nil_of_length_eq_add_one hlength, hbytes, isValue_four hlength⟩
  · cases h

/-- A group is its end, or a field and what else is inside. -/
theorem FindsValues.findsGroups {fuel : ℕ} (hvalues : FindsValues fuel) (hgroups : FindsGroups fuel) :
    FindsGroups (fuel + 1) := by
  intro depth number bytes rest h
  simp only [skipGroup, Option.bind_eq_bind, Option.bind_eq_some_iff, Prod.exists] at h
  obtain ⟨inner, wireType, after, hkey, h⟩ := h
  obtain ⟨key, hnekey, rfl, hiskey⟩ := exists_isKey hkey
  split at h
  · next hend =>
    obtain ⟨hnumber, hrest⟩ := Option.ite_none_right_eq_some.mp h
    obtain rfl : after = rest := Option.some.inj hrest
    subst hend hnumber
    exact ⟨key, hnekey, rfl, hiskey.isGroup hnekey⟩
  · next hwireType =>
    obtain ⟨hdepth, h⟩ := Option.ite_none_left_eq_some.mp h
    simp only [Option.bind_eq_some_iff, Prod.exists] at h
    obtain ⟨content, between, hvalue, hskip⟩ := h
    obtain ⟨value, -, rfl, hisvalue⟩ := hvalues _ _ _ _ _ _ hvalue
    obtain ⟨taken, hne, rfl, hgroup⟩ := hgroups _ _ _ _ hskip
    refine ⟨key ++ (value ++ taken), List.append_ne_nil_of_left_ne_nil hnekey _, ?_,
      hgroup.cons hiskey hnekey hwireType hdepth hisvalue hne⟩
    simp only [List.append_assoc]

/-- The two are read by turns, each with one step less. -/
theorem findsValues_and_findsGroups (fuel : ℕ) : FindsValues fuel ∧ FindsGroups fuel := by
  induction fuel with
  | zero => exact ⟨fun _ _ _ _ _ _ h => by simp [readValue] at h, fun _ _ _ _ h => by simp [skipGroup] at h⟩
  | succ fuel ih => exact ⟨ih.2.findsValues, ih.1.findsGroups ih.2⟩

/-- Some bytes are a field. -/
def IsField (part : Bytes) (field : Field) : Prop :=
  ∃ key value wireType, part = key ++ value ∧ key ≠ [] ∧ IsKey field.number wireType key ∧
    IsValue (maxDepth - 1) field.number wireType value field.value

/-- What is read as fields is made of them. -/
theorem exists_parts_of_readFields {fuel : ℕ} {bytes : Bytes} {fields : List Field}
    (h : readFields fuel bytes = some fields) : ∃ parts, bytes = parts.flatten ∧ List.Forall₂ IsField parts fields := by
  induction fuel generalizing bytes fields with
  | zero =>
    cases bytes with
    | nil => exact ⟨[], rfl, (Option.some.inj h) ▸ .nil⟩
    | cons b bytes => simp [readFields] at h
  | succ fuel ih =>
    cases bytes with
    | nil => exact ⟨[], rfl, (Option.some.inj h) ▸ .nil⟩
    | cons b bytes =>
      simp only [readFields, Option.bind_eq_bind, Option.bind_eq_some_iff, Prod.exists, Option.some.injEq] at h
      obtain ⟨number, wireType, after, hkey, content, rest, hvalue, others, hothers, rfl⟩ := h
      obtain ⟨key, hne, hbytes, hiskey⟩ := exists_isKey hkey
      obtain ⟨value, -, rfl, hisvalue⟩ := (findsValues_and_findsGroups fuel).1 _ _ _ _ _ _ hvalue
      obtain ⟨parts, rfl, hparts⟩ := ih hothers
      refine ⟨(key ++ value) :: parts, ?_, .cons ⟨key, value, wireType, rfl, hne, hiskey, hisvalue⟩ hparts⟩
      rw [hbytes, List.flatten_cons, List.append_assoc]

/-- What is made of fields is read as them, in twice as many steps as there are bytes, and one. -/
theorem readFields_flatten {parts : List Bytes} {fields : List Field} (hparts : List.Forall₂ IsField parts fields)
    {fuel : ℕ} (hfuel : 2 * parts.flatten.length + 1 ≤ fuel) : readFields fuel parts.flatten = some fields := by
  induction hparts generalizing fuel with
  | nil => simp [readFields]
  | @cons part field parts fields hpart hparts ih =>
    obtain ⟨key, value, wireType, rfl, hne, hkey, hvalue⟩ := hpart
    have hpos := List.length_pos_iff.mpr hne
    rw [List.flatten_cons, List.append_assoc] at hfuel ⊢
    simp only [List.length_append] at hfuel
    obtain ⟨fewer, rfl⟩ : ∃ fewer, fuel = fewer + 1 := ⟨fuel - 1, by omega⟩
    exact readFields_cons (hkey _) (hvalue fewer (by omega) _) (ih (by omega))

/-- Fields are read if any number of steps reads them. -/
theorem parse?_of_readFields {fuel : ℕ} {bytes : Bytes} {fields : List Field}
    (h : readFields fuel bytes = some fields) : parse? bytes = some fields := by
  obtain ⟨parts, rfl, hparts⟩ := exists_parts_of_readFields h
  exact readFields_flatten hparts (Nat.le_refl _)

/-- A field is what is read as a single one. -/
theorem isField_iff {part : Bytes} {field : Field} : IsField part field ↔ parse? part = some [field] := by
  constructor
  · intro h
    have hread := readFields_flatten (.cons h .nil) (Nat.le_refl _)
    rw [List.flatten_singleton] at hread
    exact parse?_of_readFields hread
  · intro h
    obtain ⟨parts, rfl, hparts⟩ := exists_parts_of_readFields h
    obtain ⟨part, rest, hpart, hrest, rfl⟩ := List.forall₂_cons_right_iff.mp hparts
    obtain rfl := List.forall₂_nil_right_iff.mp hrest
    rw [List.flatten_singleton]
    exact hpart

/-- A byte string holds fields exactly if it is made of parts, one after another, that hold one of them each. -/
theorem parse?_eq_some_iff {bytes : Bytes} {fields : List Field} :
    parse? bytes = some fields ↔
      ∃ parts, bytes = parts.flatten ∧ List.Forall₂ (fun part field => parse? part = some [field]) parts fields := by
  simp only [← isField_iff]
  constructor
  · exact exists_parts_of_readFields
  · rintro ⟨parts, rfl, hparts⟩
    exact readFields_flatten hparts (Nat.le_refl _)

/-- The values of the fields with a number, in their order. -/
def valuesOf (number : ℕ) (fields : List Field) : List Value :=
  (fields.filter (·.number = number)).map (·.value)

/-- Taking the last field with a number reads all of them. -/
theorem foldlM_last (read : Value → Option α) (number : ℕ) (fields : List Field) (found : Option α) :
    fields.foldlM (fun found field => if field.number = number then (read field.value).map some else some found)
      found = ((valuesOf number fields).mapM read).map fun values => values.getLast?.or found := by
  induction fields generalizing found with
  | nil => simp [valuesOf]
  | cons field fields ih =>
    simp only [List.foldlM_cons, Option.bind_eq_bind]
    by_cases hnumber : field.number = number
    · have hvalues : valuesOf number (field :: fields) = field.value :: valuesOf number fields := by
        simp [valuesOf, hnumber]
      rw [if_pos hnumber, hvalues, List.mapM_cons]
      cases hread : read field.value with
      | none => rfl
      | some value =>
        simp only [Option.map_some, Option.bind_some, ih, Option.bind_eq_bind]
        cases (valuesOf number fields).mapM read with
        | none => rfl
        | some values => cases values <;> simp [List.getLast?_cons]
    · have hvalues : valuesOf number (field :: fields) = valuesOf number fields := by
        simp [valuesOf, hnumber]
      rw [if_neg hnumber, hvalues, Option.bind_some, ih]

/-- All fields with a number have a value of some kind, and this is the one of the last of them. -/
def LastIs (read : Value → Option α) (number : ℕ) (fields : List Field) (value : α) : Prop :=
  ∃ earlier, (valuesOf number fields).map read = (earlier ++ [value]).map some

/-- The last field is found exactly if it is there and nothing with its number is of another kind. -/
theorem foldlM_eq_some_some_iff {read : Value → Option α} {number : ℕ} {fields : List Field} {value : α} :
    fields.foldlM (fun found field => if field.number = number then (read field.value).map some else some found)
      none = some (some value) ↔ LastIs read number fields value := by
  simp only [foldlM_last, Option.or_none, Option.map_eq_some_iff, mapM_eq_some_iff, List.getLast?_eq_some_iff]
  constructor
  · rintro ⟨_, hvalues, earlier, rfl⟩
    exact ⟨earlier, hvalues⟩
  · rintro ⟨earlier, hvalues⟩
    exact ⟨_, hvalues, earlier, rfl⟩

/-- The byte string of a value that is one. -/
def Value.bytes? : Value → Option Bytes
  | delimited bytes => some bytes
  | _ => none

/-- The number of a value that is one, cut to 32 bits. -/
def Value.uint32? : Value → Option UInt32
  | number n => some (UInt32.ofNat n)
  | _ => none

theorem lastBytes?_eq_some_some_iff {number : ℕ} {fields : List Field} {bytes : Bytes} :
    lastBytes? number fields = some (some bytes) ↔ LastIs Value.bytes? number fields bytes := by
  rw [← foldlM_eq_some_some_iff, lastBytes?]
  refine Iff.of_eq (congrArg (fun step => fields.foldlM step none = some (some bytes)) ?_)
  funext found field
  cases field.value <;> rfl

theorem lastUInt32?_eq_some_some_iff {number : ℕ} {fields : List Field} {n : UInt32} :
    lastUInt32? number fields = some (some n) ↔ LastIs Value.uint32? number fields n := by
  rw [← foldlM_eq_some_some_iff, lastUInt32?]
  refine Iff.of_eq (congrArg (fun step => fields.foldlM step none = some (some n)) ?_)
  funext found field
  cases field.value <;> rfl

end RoomCrypt.Wire
