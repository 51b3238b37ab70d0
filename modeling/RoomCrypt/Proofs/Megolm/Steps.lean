import Mathlib.Algebra.Group.Nat.Defs
import Mathlib.Logic.Function.Iterate
import RoomCrypt.Megolm.Ratchet

/-!
# The steps of a ratchet

A step to a place hashes the parts from its level on, and the level is the first part whose span divides
the place. So all steps between two multiples of a span leave the parts down to its own alone, and the
step to the next multiple makes the later parts anew from a part that they have not touched.
-/

namespace RoomCrypt.Megolm.Ratchet

/-- How many steps a part stays as it is. -/
def span (i : Fin 4) : ℕ :=
  256 ^ (3 - i.val)

/-- A mask takes a place modulo a power of two. -/
theorem and_mask_eq_zero_iff (n bits : ℕ) (hbits : bits ≤ 32) {mask : UInt32}
    (hmask : mask.toNat = 2 ^ bits - 1) : UInt32.ofNat n &&& mask = 0 ↔ 2 ^ bits ∣ n := by
  have hdvd : 2 ^ bits ∣ UInt32.size := Nat.pow_dvd_pow 2 hbits
  rw [← UInt32.toNat_inj, UInt32.toNat_and, hmask, Nat.and_two_pow_sub_one_eq_mod, UInt32.toNat_ofNat',
    Nat.dvd_iff_mod_eq_zero]
  change n % UInt32.size % 2 ^ bits = 0 ↔ _
  rw [Nat.mod_mod_of_dvd _ hdvd]

/-- There are four parts. -/
theorem part_cases (i : Fin 4) : i = 0 ∨ i = 1 ∨ i = 2 ∨ i = 3 := by
  revert i
  decide

/-- Of three conditions, each of which implies the next one, the first that holds is found. -/
theorem first_le_iff {a b c : Prop} [Decidable a] [Decidable b] [Decidable c] (hab : a → b) (hbc : b → c) :
    let first : Fin 4 := if a then 0 else if b then 1 else if c then 2 else 3
    (first ≤ 0 ↔ a) ∧ (first ≤ 1 ↔ b) ∧ (first ≤ 2 ↔ c) := by
  by_cases ha : a
  · simp [ha, hab ha, hbc (hab ha)]
  · by_cases hb : b
    · simp [ha, hb, hbc hb]
    · by_cases hc : c <;> simp [ha, hb, hc]

/-- The step to a place hashes a part exactly if its span divides the place. -/
theorem levelOf_le_iff (n : ℕ) (i : Fin 4) : levelOf (UInt32.ofNat n) ≤ i ↔ span i ∣ n := by
  have h0 : UInt32.ofNat n &&& 0xffffff = 0 ↔ span 0 ∣ n := and_mask_eq_zero_iff n 24 (by decide) rfl
  have h1 : UInt32.ofNat n &&& 0xffff = 0 ↔ span 1 ∣ n := and_mask_eq_zero_iff n 16 (by decide) rfl
  have h2 : UInt32.ofNat n &&& 0xff = 0 ↔ span 2 ∣ n := and_mask_eq_zero_iff n 8 (by decide) rfl
  have h01 : span 0 ∣ n → span 1 ∣ n := Nat.dvd_trans (by decide)
  have h12 : span 1 ∣ n → span 2 ∣ n := Nat.dvd_trans (by decide)
  obtain ⟨hfirst, hsecond, hthird⟩ := first_le_iff h01 h12
  unfold levelOf
  simp only [h0, h1, h2]
  rcases part_cases i with rfl | rfl | rfl | rfl
  · exact hfirst
  · exact hsecond
  · exact hthird
  · exact iff_of_true (Fin.le_last _) (Nat.one_dvd n)

/-- A ratchet is its parts and its place. -/
theorem ext_parts {a b : Ratchet} (hparts : ∀ k, a.part k = b.part k) (hindex : a.index = b.index) : a = b := by
  obtain ⟨a0, a1, a2, a3, i⟩ := a
  obtain ⟨b0, b1, b2, b3, j⟩ := b
  obtain rfl : a0 = b0 := hparts 0
  obtain rfl : a1 = b1 := hparts 1
  obtain rfl : a2 = b2 := hparts 2
  obtain rfl : a3 = b3 := hparts 3
  obtain rfl : i = j := hindex
  rfl

@[simp] theorem part_withParts (ratchet : Ratchet) (parts : Fin 4 → Octets 32) (k : Fin 4) :
    (ratchet.withParts parts).part k = parts k := by
  match k with
  | 0 | 1 | 2 | 3 => rfl

/-- The ratchet at another place. -/
def withIndex (ratchet : Ratchet) (index : UInt32) : Ratchet :=
  { ratchet with index }

@[simp] theorem part_withIndex (ratchet : Ratchet) (index : UInt32) (k : Fin 4) :
    (ratchet.withIndex index).part k = ratchet.part k := by
  match k with
  | 0 | 1 | 2 | 3 => rfl

/-- Two ratchets have the same parts down to part `i`. -/
def AgreeTo (i : Fin 4) (a b : Ratchet) : Prop :=
  ∀ k ≤ i, a.part k = b.part k

variable [Suite]

/-- Hashing part `i` and making the later ones anew gives its hashes in place `i` and after it. -/
theorem part_rehashFrom (ratchet : Ratchet) (i k : Fin 4) :
    (ratchet.rehashFrom i).part k = if i ≤ k then hashInto (ratchet.part i) k else ratchet.part k :=
  part_withParts ..

/-- Hashing part `i` alone gives its hash in place `i`. -/
theorem part_rehashOnly (ratchet : Ratchet) (i k : Fin 4) :
    (ratchet.rehashOnly i).part k = if k = i then hashInto (ratchet.part i) k else ratchet.part k :=
  part_withParts ..

/-- What comes after part `i` does not matter when it is made anew. -/
theorem AgreeTo.rehashFrom {i j : Fin 4} {a b : Ratchet} (h : AgreeTo i a b) (hj : j ≤ i)
    (hindex : a.index = b.index) : a.rehashFrom j = b.rehashFrom j := by
  refine ext_parts (fun k => ?_) (by exact hindex)
  rw [part_rehashFrom, part_rehashFrom, h j hj]
  split
  · rfl
  · next hk => exact h k (Fin.le_of_lt (Fin.lt_of_lt_of_le (Fin.not_le.mp hk) hj))

/-- Parts that agree down to part `i` still do so when part `i` is hashed. -/
theorem AgreeTo.rehashOnly {i : Fin 4} {a b : Ratchet} (h : AgreeTo i a b) :
    AgreeTo i (a.rehashOnly i) (b.rehashOnly i) := by
  intro k hk
  rw [part_rehashOnly, part_rehashOnly, h i (Fin.le_refl i), h k hk]

/-- And so they do after any number of times. -/
theorem AgreeTo.rehashTimes {i : Fin 4} {a b : Ratchet} (h : AgreeTo i a b) (count : ℕ) :
    AgreeTo i (rehashTimes i count a) (rehashTimes i count b) := by
  induction count generalizing a b with
  | zero => exact h
  | succ count ih => exact ih h.rehashOnly

/-- Down to part `i`, making the later parts anew is hashing part `i` alone. -/
theorem agreeTo_rehashFrom (ratchet : Ratchet) (i : Fin 4) :
    AgreeTo i (ratchet.rehashFrom i) (ratchet.rehashOnly i) := by
  intro k hk
  rw [part_rehashFrom, part_rehashOnly]
  by_cases hki : k = i
  · simp [hki]
  · have hlt : ¬ i ≤ k := Fin.not_le.mpr (Nat.lt_of_le_of_ne hk (Fin.val_ne_of_ne hki))
    simp [hki, hlt]

/-- Neither of them moves the ratchet. -/
@[simp] theorem index_rehashFrom (ratchet : Ratchet) (i : Fin 4) : (ratchet.rehashFrom i).index = ratchet.index :=
  rfl

@[simp] theorem index_rehashTimes (ratchet : Ratchet) (i : Fin 4) (count : ℕ) :
    (rehashTimes i count ratchet).index = ratchet.index := by
  induction count generalizing ratchet with
  | zero => rfl
  | succ count ih => exact ih (ratchet.rehashOnly i)

/-- The later parts need to be made anew only once, the last time that part `i` is hashed. -/
theorem iterate_rehashFrom (ratchet : Ratchet) (i : Fin 4) (count : ℕ) :
    (rehashFrom · i)^[count + 1] ratchet = (rehashTimes i count ratchet).rehashFrom i := by
  induction count generalizing ratchet with
  | zero => rfl
  | succ count ih =>
    rw [Function.iterate_succ_apply, ih]
    exact ((agreeTo_rehashFrom ratchet i).rehashTimes count).rehashFrom (Fin.le_refl i) (by simp; rfl)

/-- A step to a place hashes the parts from its level on. -/
theorem next_eq (ratchet : Ratchet) (n : ℕ) (hindex : ratchet.index = UInt32.ofNat n) :
    ratchet.next = (ratchet.withIndex (UInt32.ofNat (n + 1))).rehashFrom (levelOf (UInt32.ofNat (n + 1))) := by
  have hnext : ratchet.index + 1 = UInt32.ofNat (n + 1) := by
    rw [hindex, UInt32.ofNat_add]
    rfl
  rw [next, hnext]
  rfl

/-- A ratchet counts its steps. -/
theorem index_iterate_next (ratchet : Ratchet) (n : ℕ) (hindex : ratchet.index = UInt32.ofNat n) (count : ℕ) :
    (next^[count] ratchet).index = UInt32.ofNat (n + count) := by
  induction count with
  | zero => exact hindex
  | succ count ih =>
    rw [Function.iterate_succ_apply', next_eq _ _ ih]
    rfl

/-- As long as no multiple of its span comes, part `i` and the parts before it stay as they are. -/
theorem agreeTo_iterate_next (ratchet : Ratchet) (n : ℕ) (hindex : ratchet.index = UInt32.ofNat n) (i : Fin 4)
    (count : ℕ) (hquiet : ∀ m, n < m → m ≤ n + count → ¬ span i ∣ m) :
    AgreeTo i (next^[count] ratchet) ratchet := by
  induction count with
  | zero => exact fun _ _ => rfl
  | succ count ih =>
    intro k hk
    have hbefore := ih fun m hm hle => hquiet m hm (by omega)
    have hlevel : ¬ levelOf (UInt32.ofNat (n + count + 1)) ≤ i := by
      rw [levelOf_le_iff]
      exact hquiet _ (by omega) (by omega)
    have hk' : ¬ levelOf (UInt32.ofNat (n + count + 1)) ≤ k := fun h => hlevel (Fin.le_trans h hk)
    rw [Function.iterate_succ_apply', next_eq _ _ (index_iterate_next ratchet n hindex count), part_rehashFrom,
      if_neg hk', part_withIndex]
    exact hbefore k hk

/-- The steps to the next multiple of a span hash only the parts from the level of the multiple on. -/
theorem iterate_next_multiple (ratchet : Ratchet) (n : ℕ) (hindex : ratchet.index = UInt32.ofNat n) (i : Fin 4)
    (count : ℕ) (hquiet : ∀ m, n < m → m ≤ n + count → ¬ span i ∣ m) (hmultiple : span i ∣ n + count + 1) :
    next^[count + 1] ratchet = (ratchet.withIndex (UInt32.ofNat (n + count + 1))).rehashFrom
      (levelOf (UInt32.ofNat (n + count + 1))) := by
  have hagree := agreeTo_iterate_next ratchet n hindex i count hquiet
  have hlevel := (levelOf_le_iff (n + count + 1) i).mpr hmultiple
  rw [Function.iterate_succ_apply', next_eq _ _ (index_iterate_next ratchet n hindex count)]
  have hagree' : AgreeTo i ((next^[count] ratchet).withIndex (UInt32.ofNat (n + count + 1)))
      (ratchet.withIndex (UInt32.ofNat (n + count + 1))) := by
    intro k hk
    rw [part_withIndex, part_withIndex]
    exact hagree k hk
  exact hagree'.rehashFrom hlevel rfl

end RoomCrypt.Megolm.Ratchet
