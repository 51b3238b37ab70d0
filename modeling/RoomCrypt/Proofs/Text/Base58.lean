import Mathlib.Data.Nat.Digits.Lemmas
import RoomCrypt.Text.Base58

/-!
# Base58 as a positional code

A text writes a byte string if it has as many signs of value zero at its front as the byte string
has zero bytes there, and both are the same number: the text in base 58, the byte string in base
256, highest digit first. Each byte string is written by exactly one text, which is the one that is
made for it, and a text is read as exactly the byte string that it writes.
-/

namespace RoomCrypt.Base58

section Digits

variable {base : ℕ}

/-- The digits of a number are those of the library. -/
theorem digits_eq (hbase : 1 < base) (n : ℕ) : digits base n = Nat.digits base n := by
  fun_induction digits base n with
  | case1 n h =>
    obtain rfl : n = 0 := h.resolve_right (Nat.not_le.mpr hbase)
    exact (Nat.digits_zero base).symm
  | case2 n h ih =>
    have hpos : 0 < n := Nat.pos_of_ne_zero fun hzero => h (.inl hzero)
    rw [Nat.digits_def' hbase hpos, ih]

/-- So is the number with given digits. -/
theorem ofDigits_eq (ds : List ℕ) : ofDigits base ds = Nat.ofDigits base ds := by
  induction ds with
  | nil => rfl
  | cons d ds ih => rw [ofDigits, ih, Nat.ofDigits_cons]

/-- The number with the given digits, highest first. -/
def number (base : ℕ) (ds : List ℕ) : ℕ :=
  ds.foldl (fun n d => base * n + d) 0

/-- It is the number with the digits turned round. -/
theorem number_eq (ds : List ℕ) : number base ds = Nat.ofDigits base ds.reverse := by
  rw [Nat.ofDigits_eq_foldr, List.foldr_reverse]
  exact congrArg (fun f => ds.foldl f 0) (funext fun n => funext fun d => Nat.add_comm (base * n) d)

/-- The digits of a number, highest first, are those of that number. -/
theorem number_reverse_digits (base n : ℕ) : number base (Nat.digits base n).reverse = n := by
  rw [number_eq, List.reverse_reverse, Nat.ofDigits_digits]

/-- Zeros at the front do not count in the number. -/
theorem number_replicate_append (count : ℕ) (ds : List ℕ) :
    number base (List.replicate count 0 ++ ds) = number base ds := by
  rw [number_eq, number_eq, List.reverse_append, List.reverse_replicate, Nat.ofDigits_append_replicate_zero]

/-- The number of zeros at the front. -/
def zerosAtFront (ds : List ℕ) : ℕ :=
  (ds.takeWhile (· = 0)).length

/-- The digits of a number, highest first, have no zero at the front. -/
theorem zerosAtFront_reverse_digits (base n : ℕ) : zerosAtFront (Nat.digits base n).reverse = 0 := by
  rcases Nat.eq_zero_or_pos n with rfl | hpos
  · rw [Nat.digits_zero]
    rfl
  · have hlast := Nat.getLast_digit_ne_zero base hpos.ne'
    generalize hds : (Nat.digits base n).reverse = ds
    cases ds with
    | nil => rfl
    | cons d ds =>
      have hd : d ≠ 0 := by
        simpa only [List.reverse_eq_iff.mp hds, List.reverse_cons, List.getLast_append_singleton] using hlast
      rw [zerosAtFront, List.takeWhile_cons_of_neg (by simpa using hd)]
      rfl

/-- Zeros before digits are at the front. -/
theorem zerosAtFront_replicate_append (count : ℕ) (ds : List ℕ) :
    zerosAtFront (List.replicate count 0 ++ ds) = count + zerosAtFront ds := by
  unfold zerosAtFront
  rw [List.takeWhile_append_of_pos (by simp), List.length_append, List.length_replicate]

end Digits

section ChangeOfBase

variable {source target : ℕ} {ds es : List ℕ}

/-- A change of the base keeps the zeros at the front and the number. -/
theorem changeBase_eq (htarget : 1 < target) : changeBase source target ds =
    List.replicate (zerosAtFront ds) 0 ++ (Nat.digits target (number source ds)).reverse := by
  rw [changeBase, digits_eq htarget, ofDigits_eq, number_eq]
  rfl

/-- Digits are not changed by a change to their own base. -/
theorem changeBase_self (hsource : 1 < source) (hds : ∀ d ∈ ds, d < source) : changeBase source source ds = ds := by
  rw [changeBase_eq hsource]
  induction ds with
  | nil => rw [number_eq, List.reverse_nil, Nat.ofDigits_nil, Nat.digits_zero]; rfl
  | cons d ds ih =>
    rcases Nat.eq_zero_or_pos d with rfl | hpos
    · have hzeros : zerosAtFront (0 :: ds) = zerosAtFront ds + 1 := by simp [zerosAtFront]
      have hnumber : number source (0 :: ds) = number source ds := number_replicate_append 1 ds
      rw [hzeros, hnumber, List.replicate_succ, List.cons_append, ih fun e he => hds e (List.mem_cons_of_mem 0 he)]
    · have hzeros : zerosAtFront (d :: ds) = 0 := by simp [zerosAtFront, hpos.ne']
      have hdigits : Nat.digits source (Nat.ofDigits source (d :: ds).reverse) = (d :: ds).reverse := by
        apply Nat.digits_ofDigits source hsource
        · intro e he
          exact hds e (List.mem_reverse.mp he)
        · intro _
          simpa only [List.reverse_cons, List.getLast_append_singleton] using hpos.ne'
      rw [hzeros, number_eq, hdigits, List.reverse_reverse]
      rfl

/-- A change of the base gives the only digits with the same zeros at the front and the same number. -/
theorem changeBase_eq_iff (htarget : 1 < target) : changeBase source target ds = es ↔
    (∀ e ∈ es, e < target) ∧ zerosAtFront es = zerosAtFront ds ∧ number target es = number source ds := by
  constructor
  · rintro rfl
    rw [changeBase_eq htarget, zerosAtFront_replicate_append, zerosAtFront_reverse_digits, Nat.add_zero,
      number_replicate_append, number_reverse_digits]
    refine ⟨fun e he => ?_, rfl, rfl⟩
    rcases List.mem_append.mp he with hzero | hdigit
    · rw [List.eq_of_mem_replicate hzero]
      exact Nat.zero_lt_of_lt htarget
    · exact Nat.digits_lt_base htarget (List.mem_reverse.mp hdigit)
  · rintro ⟨hlt, hzeros, hnumber⟩
    rw [changeBase_eq htarget, ← hzeros, ← hnumber, ← changeBase_eq htarget, changeBase_self htarget hlt]

end ChangeOfBase

section Signs

variable {c : Char} {text : List Char} {value : ℕ} {ds : List ℕ}

/-- A sign stands for its place in the alphabet. -/
theorem value?_eq_some_iff : value? c = some value ↔ c ∈ alphabet ∧ alphabet.idxOf c = value := by
  rw [value?, ← List.isSome_idxOf?, List.idxOf_eq_getD_idxOf?]
  cases alphabet.idxOf? c <;> simp

/-- The sign of a value is the one that stands for it. -/
theorem sign_eq_iff (hvalue : value < 58) : sign value = c ↔ c ∈ alphabet ∧ alphabet.idxOf c = value := by
  have hsign : ∀ value < 58, value? (sign value) = some value := by decide +kernel
  constructor
  · rintro rfl
    exact value?_eq_some_iff.mp (hsign value hvalue)
  · rintro ⟨hc, rfl⟩
    have hlt := List.idxOf_lt_length_of_mem hc
    rw [sign, List.getD_eq_getElem?_getD, List.getElem?_eq_getElem hlt, Option.getD_some, List.getElem_idxOf]

/-- The first sign alone has the value zero. -/
theorem idxOf_eq_zero_iff : alphabet.idxOf c = 0 ↔ c = '1' := by
  have hfirst : alphabet = '1' :: alphabet.tail := rfl
  rw [hfirst, List.idxOf_cons]
  by_cases hc : c = '1'
  · simp [hc]
  · simp [hc, beq_false_of_ne (Ne.symm hc)]

/-- Signs are read one by one. -/
theorem mapM_value?_eq_some_iff :
    text.mapM value? = some ds ↔ (∀ c ∈ text, c ∈ alphabet) ∧ text.map alphabet.idxOf = ds := by
  induction text generalizing ds with
  | nil => simp
  | cons c text ih =>
    simp only [List.mapM_cons, Option.pure_def, Option.bind_eq_bind, Option.bind_eq_some_iff, Option.some.injEq,
      List.forall_mem_cons, List.map_cons, value?_eq_some_iff, ih]
    constructor
    · rintro ⟨_, ⟨hc, rfl⟩, _, ⟨htext, rfl⟩, rfl⟩
      exact ⟨⟨hc, htext⟩, rfl⟩
    · rintro ⟨⟨hc, htext⟩, rfl⟩
      exact ⟨_, ⟨hc, rfl⟩, _, ⟨htext, rfl⟩, rfl⟩

/-- And written one by one. -/
theorem map_sign_eq_iff (hds : ∀ d ∈ ds, d < 58) :
    ds.map sign = text ↔ (∀ c ∈ text, c ∈ alphabet) ∧ text.map alphabet.idxOf = ds := by
  induction ds generalizing text with
  | nil => cases text <;> simp
  | cons d ds ih =>
    obtain ⟨hd, hds⟩ := List.forall_mem_cons.mp hds
    cases text with
    | nil => simp
    | cons c text =>
      simp only [List.map_cons, List.cons.injEq, sign_eq_iff hd, ih hds, List.forall_mem_cons]
      exact and_and_and_comm

end Signs

section Texts

variable {text : List Char} {bytes : Bytes}

/-- A text is the positional code of a byte string. -/
structure Writes (text : List Char) (bytes : Bytes) : Prop where
  /-- All its signs are in the alphabet. -/
  mem_alphabet : ∀ c ∈ text, c ∈ alphabet
  /-- There are as many signs of value zero at its front as there are zero bytes. -/
  front_eq : (text.takeWhile (· = '1')).length = (bytes.takeWhile (· = 0)).length
  /-- The number in base 58 is the number in base 256. -/
  number_eq : text.foldl (fun n c => 58 * n + alphabet.idxOf c) 0 = bytes.foldl (fun n b => 256 * n + b.toNat) 0

/-- It is so exactly if the places of its signs and the bytes are digits of one number, with equally many zeros at
the front. -/
theorem writes_iff : Writes text bytes ↔ (∀ c ∈ text, c ∈ alphabet) ∧
    zerosAtFront (text.map alphabet.idxOf) = zerosAtFront (bytes.map UInt8.toNat) ∧
      number 58 (text.map alphabet.idxOf) = number 256 (bytes.map UInt8.toNat) := by
  have htext : zerosAtFront (text.map alphabet.idxOf) = (text.takeWhile (· = '1')).length := by
    simp only [zerosAtFront, List.takeWhile_map, List.length_map, Function.comp_def, idxOf_eq_zero_iff]
  have hbytes : zerosAtFront (bytes.map UInt8.toNat) = (bytes.takeWhile (· = 0)).length := by
    simp only [zerosAtFront, List.takeWhile_map, List.length_map, Function.comp_def, ← UInt8.toNat_inj,
      UInt8.toNat_zero]
  rw [htext, hbytes, number, number, List.foldl_map, List.foldl_map]
  constructor
  · rintro ⟨hmem, hfront, hnumber⟩
    exact ⟨hmem, hfront, hnumber⟩
  · rintro ⟨hmem, hfront, hnumber⟩
    exact ⟨hmem, hfront, hnumber⟩

/-- Bytes are digits in base 256. -/
theorem toNat_lt_of_mem_map : ∀ d ∈ bytes.map UInt8.toNat, d < 256 := by
  intro d hd
  obtain ⟨b, -, rfl⟩ := List.mem_map.mp hd
  exact b.toNat_lt

/-- Digits in base 256 are bytes. -/
theorem map_ofNat_eq_iff {ds : List ℕ} (hds : ∀ d ∈ ds, d < 256) :
    ds.map UInt8.ofNat = bytes ↔ ds = bytes.map UInt8.toNat := by
  constructor
  · rintro rfl
    have hbyte : ∀ d ∈ ds, (UInt8.toNat ∘ UInt8.ofNat) d = id d :=
      fun d hd => UInt8.toNat_ofNat_of_lt' (hds d hd)
    rw [List.map_map, List.map_congr_left hbyte, List.map_id]
  · rintro rfl
    have hbyte : UInt8.ofNat ∘ UInt8.toNat = id := funext fun _ => UInt8.ofNat_toNat
    rw [List.map_map, hbyte, List.map_id]

/-- A text is read as exactly the byte string that it writes. -/
theorem decode?_eq_some_iff : decode? text = some bytes ↔ Writes text bytes := by
  have hdigits : ∀ d ∈ changeBase 58 256 (text.map alphabet.idxOf), d < 256 :=
    ((changeBase_eq_iff (by decide)).mp rfl).1
  rw [writes_iff, decode?, Option.bind_eq_bind, Option.bind_eq_some_iff]
  simp only [mapM_value?_eq_some_iff, Option.some.injEq]
  constructor
  · rintro ⟨_, ⟨hmem, rfl⟩, hbytes⟩
    obtain ⟨-, hzeros, hnumber⟩ := (changeBase_eq_iff (by decide)).mp ((map_ofNat_eq_iff hdigits).mp hbytes)
    exact ⟨hmem, hzeros.symm, hnumber.symm⟩
  · rintro ⟨hmem, hzeros, hnumber⟩
    refine ⟨_, ⟨hmem, rfl⟩, (map_ofNat_eq_iff hdigits).mpr ?_⟩
    exact (changeBase_eq_iff (by decide)).mpr ⟨toNat_lt_of_mem_map, hzeros.symm, hnumber.symm⟩

/-- The text that is made for a byte string is the only one that writes it. -/
theorem toList_encode_eq_iff : (encode bytes).toList = text ↔ Writes text bytes := by
  have hdigits := (changeBase_eq_iff (by decide)).mp (Eq.refl (changeBase 256 58 (bytes.map UInt8.toNat)))
  rw [writes_iff, encode, String.toList_ofList, map_sign_eq_iff hdigits.1]
  constructor
  · rintro ⟨hmem, hdigitsText⟩
    rw [hdigitsText]
    exact ⟨hmem, hdigits.2⟩
  · rintro ⟨hmem, hzeros, hnumber⟩
    have hlt : ∀ d ∈ text.map alphabet.idxOf, d < 58 := by
      intro d hd
      obtain ⟨c, hc, rfl⟩ := List.mem_map.mp hd
      exact List.idxOf_lt_length_of_mem (hmem c hc)
    exact ⟨hmem, ((changeBase_eq_iff (by decide)).mpr ⟨hlt, hzeros, hnumber⟩).symm⟩

/-- Each byte string is read from its text and from no other. -/
theorem decode?_eq_some_iff_toList_encode : decode? text = some bytes ↔ (encode bytes).toList = text :=
  decode?_eq_some_iff.trans toList_encode_eq_iff.symm

end Texts

end RoomCrypt.Base58
