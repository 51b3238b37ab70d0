import RoomCrypt.Proofs.Json.Written

/-!
# Texts of values

A plain value, nested no deeper than a reader follows, is read from its written form. The fuel of the
reader is as much as there are characters, which is enough because each step reads at least one.
-/

namespace RoomCrypt.Json

open Utf8 (Part)

/-- A value without decimals, negative numbers and parts that stand for nothing, nested at most so deep. -/
inductive Plain : Nat → Json → Prop where
  | null (depth : Nat) : Plain depth .null
  | bool (depth : Nat) (b : Bool) : Plain depth (.bool b)
  | nat (depth : Nat) {n : Nat} (h : n < UInt64.size) : Plain depth (.int n)
  | text (depth : Nat) (s : String) : Plain depth (.text s)
  | array {depth : Nat} {items : List Json} (h : ∀ item ∈ items, Plain depth item) :
    Plain (depth + 1) (.array items)
  | object {depth : Nat} {members : List (String × Json)} (h : ∀ member ∈ members, Plain depth member.2) :
    Plain (depth + 1) (.object members)

/-- A sign that opens a value: it is no space and closes nothing. -/
def Opens (c : Char) : Prop :=
  c ≠ ' ' ∧ c ≠ '\n' ∧ c ≠ '\t' ∧ c ≠ '\r' ∧ c ≠ ']' ∧ c ≠ '\x7d'

/-- There is no space to skip in front of a sign that opens a value. -/
theorem skipSpace_opens {c : Char} (h : Opens c) (rest : List Part) :
    skipSpace (.char c :: rest) = .char c :: rest := by
  obtain ⟨hspace, hline, htab, hreturn, -, -⟩ := h
  rw [skipSpace.eq_def]
  simp [hspace, hline, htab, hreturn]

theorem skipSpace_comma (rest : List Part) : skipSpace (.char ',' :: rest) = .char ',' :: rest :=
  skipSpace_opens (by simp [Opens]) rest

/-- What is written of a natural number is its digits. -/
theorem write_nat (n : Nat) : write (.int n) = Nat.toDigits 10 n := by
  simp [write, toString, Int.repr, Nat.repr, String.toList_ofList]

/-- What is written of a plain value begins with a sign that opens it. -/
theorem write_eq_cons {depth : Nat} {value : Json} (h : Plain depth value) :
    ∃ c more, write value = c :: more ∧ Opens c := by
  cases h with
  | null => exact ⟨'n', ['u', 'l', 'l'], by decide, by simp [Opens]⟩
  | bool depth b =>
    cases b with
    | true => exact ⟨'t', ['r', 'u', 'e'], by decide, by simp [Opens]⟩
    | false => exact ⟨'f', ['a', 'l', 's', 'e'], by decide, by simp [Opens]⟩
  | nat depth h =>
    rename_i n
    obtain ⟨c, more, heq, hdigit⟩ := toDigits_first n
    refine ⟨c, more, (write_nat n).trans heq, ?_⟩
    unfold Opens
    refine ⟨?_, ?_, ?_, ?_, ?_, ?_⟩ <;> (rintro rfl; exact absurd hdigit (by decide))
  | text depth s => exact ⟨'"', _, rfl, by simp [Opens]⟩
  | array h => exact ⟨'[', _, rfl, by simp [Opens]⟩
  | object h => exact ⟨'\x7b', _, rfl, by simp [Opens]⟩

/-- No number goes on with a sign that closes or parts values. -/
theorem endsNumber_cons {c : Char} (h : c = ',' ∨ c = ']' ∨ c = '\x7d') (rest : List Part) :
    EndsNumber (.char c :: rest) := by
  rintro d more ⟨⟩
  rcases h with rfl | rfl | rfl <;> decide

/-- So does what is written of items. -/
theorem writeItems_eq_cons {depth : Nat} {items : List Json} (hne : items ≠ [])
    (hplain : ∀ item ∈ items, Plain depth item) : ∃ c more, writeItems items = c :: more ∧ Opens c := by
  match items, hne with
  | [item], _ =>
    obtain ⟨c, more, heq, hopens⟩ := write_eq_cons (hplain item List.mem_cons_self)
    exact ⟨c, more ++ [']'], by rw [writeItems, heq, List.cons_append], hopens⟩
  | item :: second :: others, _ =>
    obtain ⟨c, more, heq, hopens⟩ := write_eq_cons (hplain item List.mem_cons_self)
    exact ⟨c, more ++ ',' :: writeItems (second :: others), by simp [writeItems, heq], hopens⟩

/-- And what is written of members begins with the quote of a name. -/
theorem writeMembers_eq_cons {members : List (String × Json)} (hne : members ≠ []) :
    ∃ more, writeMembers members = '"' :: more := by
  match members, hne with
  | [(name, value)], _ => exact ⟨_, rfl⟩
  | (name, value) :: second :: others, _ => exact ⟨_, rfl⟩

/-- A value is read from its written form, if there is fuel enough for it. -/
def ReadsBack (depth : Nat) (value : Json) : Prop :=
  ∀ fuel rest, (write value).length ≤ fuel → EndsNumber rest →
    readValue fuel depth (parts (write value) ++ rest) = some (value, rest)

/-- Items that are read back one by one are read back up to the end of their array. -/
theorem readItems_write {depth : Nat} {items : List Json} (hne : items ≠ [])
    (hplain : ∀ item ∈ items, Plain depth item) (hitems : ∀ item ∈ items, ReadsBack depth item) (fuel : Nat)
    (rest : List Part) (hfuel : (writeItems items).length ≤ fuel) :
    readItems fuel depth (parts (writeItems items) ++ rest) = some (items, rest) := by
  induction items generalizing fuel with
  | nil => exact absurd rfl hne
  | cons item items ih =>
    obtain ⟨hitem, hitems⟩ := List.forall_mem_cons.mp hitems
    obtain ⟨-, hplain⟩ := List.forall_mem_cons.mp hplain
    cases items with
    | nil =>
      simp only [writeItems, List.length_append, List.length_singleton] at hfuel
      obtain ⟨fuel, rfl⟩ := Nat.exists_eq_succ_of_ne_zero (n := fuel) (by omega)
      have hread := hitem fuel (.char ']' :: rest) (by omega) (endsNumber_cons (by simp) rest)
      simp [writeItems, readItems, hread, skipSpace]
    | cons second others =>
      simp only [writeItems, List.length_append, List.length_cons] at hfuel
      obtain ⟨fuel, rfl⟩ := Nat.exists_eq_succ_of_ne_zero (n := fuel) (by omega)
      have hread := hitem fuel (.char ',' :: (parts (writeItems (second :: others)) ++ rest)) (by omega)
        (endsNumber_cons (by simp) _)
      have hlater := ih (List.cons_ne_nil _ _) hplain hitems fuel (by omega)
      obtain ⟨c, more, heq, hopens⟩ := writeItems_eq_cons (List.cons_ne_nil second others) hplain
      have hspace : skipSpace (parts (writeItems (second :: others)) ++ rest) =
          parts (writeItems (second :: others)) ++ rest := by
        rw [heq]
        exact skipSpace_opens hopens _
      simp [writeItems, readItems, hread, skipSpace_comma, hspace, hlater]

/-- Members whose values are read back are read back up to the end of their object. -/
theorem readMembers_write {depth : Nat} {members : List (String × Json)} (hne : members ≠ [])
    (hplain : ∀ member ∈ members, Plain depth member.2) (hmembers : ∀ member ∈ members, ReadsBack depth member.2)
    (fuel : Nat) (rest : List Part) (hfuel : (writeMembers members).length ≤ fuel) :
    readMembers fuel depth (parts (writeMembers members) ++ rest) = some (some members, rest) := by
  induction members generalizing fuel with
  | nil => exact absurd rfl hne
  | cons member members ih =>
    obtain ⟨name, value⟩ := member
    obtain ⟨(hvalue : ReadsBack depth value), hmembers⟩ := List.forall_mem_cons.mp hmembers
    obtain ⟨hplainValue, hplain⟩ := List.forall_mem_cons.mp hplain
    have hname := readText?_quote name
    have hcolon (s : List Part) : skipSpace (.char ':' :: s) = .char ':' :: s :=
      skipSpace_opens (by simp [Opens]) s
    obtain ⟨c, more, hwrite, hopens⟩ := write_eq_cons hplainValue
    have hfirst (s : List Part) : skipSpace (parts (write value) ++ s) = parts (write value) ++ s := by
      rw [hwrite]
      exact skipSpace_opens hopens _
    cases members with
    | nil =>
      simp only [writeMembers, quote, List.length_append, List.length_cons] at hfuel
      obtain ⟨fuel, rfl⟩ := Nat.exists_eq_succ_of_ne_zero (n := fuel) (by omega)
      have hread := hvalue fuel (.char '\x7d' :: rest) (by omega) (endsNumber_cons (by simp) rest)
      simp [writeMembers, quote, readMembers, afterWord?, hname, hfirst, hread, skipSpace]
    | cons second others =>
      simp only [writeMembers, quote, List.length_append, List.length_cons] at hfuel
      obtain ⟨fuel, rfl⟩ := Nat.exists_eq_succ_of_ne_zero (n := fuel) (by omega)
      have hread := hvalue fuel (.char ',' :: (parts (writeMembers (second :: others)) ++ rest)) (by omega)
        (endsNumber_cons (by simp) _)
      have hlater := ih (List.cons_ne_nil _ _) hplain hmembers fuel (by omega)
      obtain ⟨more', heq⟩ := writeMembers_eq_cons (List.cons_ne_nil second others)
      have hspace : skipSpace (parts (writeMembers (second :: others)) ++ rest) =
          parts (writeMembers (second :: others)) ++ rest := by
        rw [heq]
        exact skipSpace_opens (by simp [Opens]) _
      simp [writeMembers, quote, readMembers, afterWord?, hname, hcolon, hfirst, hread, skipSpace_comma, hspace, hlater]

/-- A plain value is read from its written form. -/
theorem Plain.readsBack {depth : Nat} {value : Json} (h : Plain depth value) : ReadsBack depth value := by
  induction h with
  | null depth =>
    rintro (_ | fuel) rest hfuel -
    · simp [write] at hfuel
    · rfl
  | bool depth b =>
    cases b with
    | true =>
      rintro (_ | fuel) rest hfuel -
      · simp [write] at hfuel
      · rfl
    | false =>
      rintro (_ | fuel) rest hfuel -
      · simp [write] at hfuel
      · rfl
  | @nat depth n h =>
    intro fuel rest hfuel hrest
    obtain ⟨c, more, heq, hdigit⟩ := toDigits_first n
    have hread := readNumeral?_toDigits n hrest
    have hvalue := value_toDigits h
    rw [write_nat] at hfuel ⊢
    rw [heq] at hread hvalue hfuel ⊢
    cases fuel with
    | zero => simp at hfuel
    | succ fuel =>
      -- A digit is none of the signs by which the other kinds of values are known.
      have hother : c ≠ '"' ∧ c ≠ '[' ∧ c ≠ '\x7b' ∧ c ≠ 'n' ∧ c ≠ 't' ∧ c ≠ 'f' := by
        refine ⟨?_, ?_, ?_, ?_, ?_, ?_⟩ <;> (rintro rfl; exact absurd hdigit (by decide))
      simp only [List.map_cons, List.cons_append] at hread ⊢
      simp only [readValue, hother, if_false, hread, Option.map_some, hvalue]
  | text depth s =>
    rintro (_ | fuel) rest hfuel -
    · simp [write, quote] at hfuel
    · simp [write, quote, readValue, readText?_quote]
  | @array depth items h ih =>
    rintro fuel rest hfuel -
    simp only [write, List.length_cons] at hfuel
    obtain ⟨fuel, rfl⟩ := Nat.exists_eq_succ_of_ne_zero (n := fuel) (by omega)
    by_cases hempty : items = []
    · subst hempty
      simp [write, writeItems, readValue, skipSpace]
    · have hread := readItems_write hempty h ih fuel rest (by omega)
      obtain ⟨c, more, heq, hopens⟩ := writeItems_eq_cons hempty h
      have hclose : c ≠ ']' := hopens.2.2.2.2.1
      simp only [write, parts, List.map_cons, List.cons_append, readValue] at hread ⊢
      rw [heq] at hread ⊢
      simp only [List.map_cons, List.cons_append] at hread ⊢
      rw [skipSpace_opens hopens]
      simp [hclose, hread]
  | @object depth members h ih =>
    rintro fuel rest hfuel -
    simp only [write, List.length_cons] at hfuel
    obtain ⟨fuel, rfl⟩ := Nat.exists_eq_succ_of_ne_zero (n := fuel) (by omega)
    by_cases hempty : members = []
    · subst hempty
      simp [write, writeMembers, readValue, skipSpace]
    · have hread := readMembers_write hempty h ih fuel rest (by omega)
      obtain ⟨more, heq⟩ := writeMembers_eq_cons hempty
      simp only [write, parts, List.map_cons, List.cons_append, readValue] at hread ⊢
      rw [heq] at hread ⊢
      simp only [List.map_cons, List.cons_append] at hread ⊢
      rw [skipSpace_opens (by simp [Opens])]
      simp [hread]

/-- The text of a plain value is read as the value. -/
theorem parse?_render {value : Json} (h : Plain maxDepth value) : parse? (render value) = some value := by
  have hread := h.readsBack ((write value).length + 1) [] (Nat.le_succ _) (by nofun)
  obtain ⟨c, more, heq, hopens⟩ := write_eq_cons h
  have hspace : skipSpace (parts (write value)) = parts (write value) := by
    rw [heq]
    exact skipSpace_opens hopens _
  rw [List.append_nil] at hread
  unfold parse? render Utf8.ofText ofParts?
  simp only [String.toList_ofList, List.length_map]
  change (readValue ((write value).length + 1) maxDepth (skipSpace (parts (write value))) >>= _) = _
  rw [hspace, hread]
  rfl

end RoomCrypt.Json
