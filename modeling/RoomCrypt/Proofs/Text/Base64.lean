import Mathlib.Data.List.TakeWhile
import RoomCrypt.Text.Base64

/-!
# Base64 texts read back

The text of a byte string is read as that byte string: the signs have their values back, and four
values the three bytes that they were made from. No other text is read as it, up to the padding.
-/

namespace RoomCrypt.Base64

/-- The signs of a byte string stand for values below 64. -/
theorem lt_of_mem_sextets {bytes : Bytes} {value : Nat} (hvalue : value ∈ sextets bytes) : value < 64 := by
  fun_induction sextets bytes with
  | case1 => cases hvalue
  | case2 a =>
    have ha := a.toNat_lt
    simp only [List.mem_cons, List.not_mem_nil, or_false] at hvalue
    omega
  | case3 a b =>
    have ha := a.toNat_lt
    have hb := b.toNat_lt
    simp only [List.mem_cons, List.not_mem_nil, or_false] at hvalue
    omega
  | case4 a b c rest ih =>
    have ha := a.toNat_lt
    have hb := b.toNat_lt
    have hc := c.toNat_lt
    simp only [List.mem_cons] at hvalue
    rcases hvalue with h | h | h | h | h
    · omega
    · omega
    · omega
    · omega
    · exact ih h

/-- A byte is read from what was written of it. -/
theorem ofNat_eq {a : UInt8} {n : Nat} (h : n = a.toNat) : UInt8.ofNat n = a := by
  rw [h, UInt8.ofNat_toNat]

/-- The values of a byte string give the byte string. -/
theorem ofSextets?_sextets (bytes : Bytes) : ofSextets? (sextets bytes) = some bytes := by
  fun_induction sextets bytes with
  | case1 => rfl
  | case2 a =>
    have hzero : a.toNat % 4 * 16 % 16 = 0 := by omega
    have ha : UInt8.ofNat (a.toNat / 4 * 4 + a.toNat % 4 * 16 / 16) = a := ofNat_eq (by omega)
    simp only [ofSextets?, hzero, if_true, ha]
  | case3 a b =>
    have hlt := b.toNat_lt
    have hzero : b.toNat % 16 * 4 % 4 = 0 := by omega
    have ha : UInt8.ofNat (a.toNat / 4 * 4 + (a.toNat % 4 * 16 + b.toNat / 16) / 16) = a :=
      ofNat_eq (by omega)
    have hb : UInt8.ofNat ((a.toNat % 4 * 16 + b.toNat / 16) % 16 * 16 + b.toNat % 16 * 4 / 4) = b :=
      ofNat_eq (by omega)
    simp only [ofSextets?, hzero, if_true, ha, hb]
  | case4 a b c rest ih =>
    have hltb := b.toNat_lt
    have hltc := c.toNat_lt
    have ha : UInt8.ofNat (a.toNat / 4 * 4 + (a.toNat % 4 * 16 + b.toNat / 16) / 16) = a :=
      ofNat_eq (by omega)
    have hb : UInt8.ofNat ((a.toNat % 4 * 16 + b.toNat / 16) % 16 * 16 +
        (b.toNat % 16 * 4 + c.toNat / 64) / 4) = b := ofNat_eq (by omega)
    have hc : UInt8.ofNat ((b.toNat % 16 * 4 + c.toNat / 64) % 4 * 64 + c.toNat % 64) = c :=
      ofNat_eq (by omega)
    simp only [ofSextets?, ih, Option.map_some, ha, hb, hc]

/-- The sign of a value stands for it, and is not the padding sign. -/
theorem value?_sign {value : Nat} (hvalue : value < 64) : value? (sign value) = some value ∧ sign value ≠ '=' := by
  revert value
  decide +kernel

/-- Signs are read one by one. -/
theorem mapM_value?_sign {values : List Nat} (hvalues : ∀ value ∈ values, value < 64) :
    (values.map sign).mapM value? = some values := by
  induction values with
  | nil => rfl
  | cons value values ih =>
    have hrest := ih fun value hvalue => hvalues value (List.mem_cons_of_mem _ hvalue)
    have hvalue := (value?_sign (hvalues value List.mem_cons_self)).1
    simp [List.map_cons, List.mapM_cons, hvalue, hrest]

/-- A sign stands for a value below 64 and is the sign of that value. -/
theorem sign_of_value? {c : Char} {value : Nat} (h : value? c = some value) : value < 64 ∧ sign value = c := by
  have hascii : c.toNat < 128 := by
    unfold value? at h
    split at h
    · next hupper => exact Nat.lt_of_le_of_lt hupper.2 (by decide)
    split at h
    · next hlower => exact Nat.lt_of_le_of_lt hlower.2 (by decide)
    split at h
    · next hdigit => exact Nat.lt_of_le_of_lt hdigit.2 (by decide)
    split at h
    · next hplus => subst hplus; decide
    split at h
    · next hslash => subst hslash; decide
    · cases h
  have hall : ∀ n < 128, ∀ value ∈ value? (Char.ofNat n), value < 64 ∧ sign value = Char.ofNat n := by decide +kernel
  rw [← Char.ofNat_toNat c] at h ⊢
  exact hall c.toNat hascii value h

/-- The values of a byte string are exactly those from which it is read. -/
theorem sextets_of_ofSextets? {values : List Nat} {bytes : Bytes} (hvalues : ∀ value ∈ values, value < 64)
    (h : ofSextets? values = some bytes) : sextets bytes = values := by
  fun_induction ofSextets? values generalizing bytes with
  | case1 => obtain rfl := Option.some.inj h; rfl
  | case2 => cases h
  | case3 p q hzero =>
    obtain rfl := Option.some.inj h
    have hp := hvalues p (by simp)
    have hq := hvalues q (by simp)
    simp only [sextets, List.cons.injEq, and_true]
    rw [UInt8.toNat_ofNat']
    omega
  | case4 p q hzero => cases h
  | case5 p q r hzero =>
    obtain rfl := Option.some.inj h
    have hp := hvalues p (by simp)
    have hq := hvalues q (by simp)
    have hr := hvalues r (by simp)
    simp only [sextets, List.cons.injEq, and_true]
    rw [UInt8.toNat_ofNat', UInt8.toNat_ofNat']
    omega
  | case6 p q r hzero => cases h
  | case7 p q r s rest ih =>
    obtain ⟨after, hafter, rfl⟩ := Option.map_eq_some_iff.mp h
    have hp := hvalues p (by simp)
    have hq := hvalues q (by simp)
    have hr := hvalues r (by simp)
    have hs := hvalues s (by simp)
    have hrest := ih (fun value hvalue => hvalues value (by simp [hvalue])) hafter
    simp only [sextets, hrest, List.cons.injEq, and_true]
    rw [UInt8.toNat_ofNat', UInt8.toNat_ofNat', UInt8.toNat_ofNat']
    omega

/-- Signs that are read one by one are those of the values. -/
theorem map_sign_of_mapM_value? {signs : List Char} {values : List Nat} (h : signs.mapM value? = some values) :
    (∀ value ∈ values, value < 64) ∧ values.map sign = signs := by
  induction signs generalizing values with
  | nil =>
    obtain rfl : values = [] := by simpa using h.symm
    exact ⟨by simp, rfl⟩
  | cons c signs ih =>
    simp only [List.mapM_cons, Option.bind_eq_bind, Option.bind_eq_some_iff, Option.pure_def, Option.some.injEq] at h
    obtain ⟨value, hvalue, values, hvalues, rfl⟩ := h
    obtain ⟨hlt, hsign⟩ := sign_of_value? hvalue
    obtain ⟨hall, hsigns⟩ := ih hvalues
    exact ⟨List.forall_mem_cons.mpr ⟨hlt, hall⟩, by rw [List.map_cons, hsign, hsigns]⟩

/-- No sign of a byte string is a padding sign. -/
theorem ne_padding_of_mem {bytes : Bytes} {c : Char} (hc : c ∈ (sextets bytes).map sign) : c ≠ '=' := by
  obtain ⟨value, hvalue, rfl⟩ := List.mem_map.mp hc
  exact (value?_sign (lt_of_mem_sextets hvalue)).2

/-- The texts that are read as a byte string are its own and that with padding, up to the number of signs that fill
the last group of four. -/
theorem decode?_eq_some_iff {text : String} {bytes : Bytes} :
    decode? text = some bytes ↔ ∃ padding ≤ (4 - (encode bytes).toList.length % 4) % 4,
      text.toList = (encode bytes).toList ++ List.replicate padding '=' := by
  unfold decode? encode
  simp only [String.toList_ofList, List.length_map]
  constructor
  · intro h
    split at h
    · next hpadding =>
      simp only [Option.bind_eq_bind, Option.bind_eq_some_iff] at h
      obtain ⟨values, hvalues, hbytes⟩ := h
      obtain ⟨hlt, hsigns⟩ := map_sign_of_mapM_value? hvalues
      have hlength : values.length = (text.toList.takeWhile (· ≠ '=')).length := by rw [← hsigns, List.length_map]
      have hsplit := List.prefix_iff_eq_append.mp (List.takeWhile_prefix (fun c => decide (c ≠ '=')) (l := text.toList))
      have hreplicate := List.eq_replicate_of_mem fun c hc =>
        of_decide_eq_true (List.all_eq_true.mp hpadding.1 c hc)
      rw [sextets_of_ofSextets? hlt hbytes, hsigns, hlength]
      exact ⟨_, hpadding.2, by rw [← hreplicate, hsplit]⟩
    · cases h
  · rintro ⟨padding, hle, htext⟩
    have hsigns : text.toList.takeWhile (· ≠ '=') = (sextets bytes).map sign := by
      rw [htext, List.takeWhile_append_of_pos fun c hc => decide_eq_true (ne_padding_of_mem hc)]
      cases padding <;> simp [List.replicate_succ]
    have hdrop : text.toList.drop ((sextets bytes).map sign).length = List.replicate padding '=' := by
      rw [htext, List.drop_left]
    have hall : (List.replicate padding '=').all (· = '=') = true := by simp
    rw [hsigns, hdrop, hall, List.length_replicate, List.length_map, if_pos ⟨rfl, hle⟩,
      mapM_value?_sign fun _ => lt_of_mem_sextets]
    exact ofSextets?_sextets bytes

/-- The text of a byte string is read as the byte string. -/
theorem decode?_encode (bytes : Bytes) : decode? (encode bytes) = some bytes :=
  decode?_eq_some_iff.mpr ⟨0, Nat.zero_le _, by rw [List.replicate_zero, List.append_nil]⟩

end RoomCrypt.Base64
