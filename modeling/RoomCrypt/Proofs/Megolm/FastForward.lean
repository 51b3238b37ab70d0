import RoomCrypt.Proofs.Megolm.Steps

/-!
# Moving a ratchet is taking steps

A ratchet that moves to a place jumps from multiple to multiple, first with the longest span and last
with single steps. Each jump hashes one part, and is all the steps up to where it gets.
-/

namespace RoomCrypt.Megolm.Ratchet

variable [Suite]

omit [Suite] in
/-- Every span has a place in it. -/
theorem span_pos (i : Fin 4) : 0 < span i :=
  Nat.pow_pos (by decide)

/-- Hashing does not depend on the place. -/
theorem rehashFrom_withIndex (ratchet : Ratchet) (i : Fin 4) (index : UInt32) :
    (ratchet.withIndex index).rehashFrom i = (ratchet.rehashFrom i).withIndex index := by
  refine ext_parts (fun k => ?_) rfl
  rw [part_withIndex, part_rehashFrom, part_rehashFrom, part_withIndex, part_withIndex]

/-- The next multiple of a span is reached by hashing its level once. -/
theorem iterate_next_block (ratchet : Ratchet) (n : ℕ) (hindex : ratchet.index = UInt32.ofNat n) (i : Fin 4)
    {goal : ℕ} (hmultiple : goal = (n / span i + 1) * span i) :
    next^[goal - n] ratchet =
      (ratchet.rehashFrom (levelOf (UInt32.ofNat goal))).withIndex (UInt32.ofNat goal) := by
  have hgoal : goal = n / span i * span i + span i := hmultiple.trans (Nat.succ_mul _ _)
  have hlt : n < goal := by
    rw [hgoal]
    exact Nat.lt_div_mul_add (span_pos i)
  have hquiet : ∀ m, n < m → m ≤ n + (goal - n - 1) → ¬ span i ∣ m := by
    rintro m hm hle ⟨c, rfl⟩
    have hc : c < n / span i + 1 := by
      rw [Nat.mul_comm] at hle
      exact Nat.lt_of_mul_lt_mul_right (a := span i) (by omega)
    have hback : span i * c ≤ n := by
      rw [Nat.mul_comm]
      exact (Nat.le_div_iff_mul_le (span_pos i)).mp (Nat.le_of_lt_succ hc)
    omega
  have hcount : n + (goal - n - 1) + 1 = goal := by omega
  have hsteps : goal - n = goal - n - 1 + 1 := by omega
  have hdvd : span i ∣ n + (goal - n - 1) + 1 := by
    rw [hcount, hmultiple]
    exact Nat.dvd_mul_left _ _
  rw [hsteps, iterate_next_multiple ratchet n hindex i _ hquiet hdvd, hcount, rehashFrom_withIndex]

/-- If part `i` is the level of the next multiples of its span, they are reached by hashing it as often. -/
theorem iterate_next_blocks (ratchet : Ratchet) (n : ℕ) (hindex : ratchet.index = UInt32.ofNat n) (i : Fin 4)
    (count : ℕ) (hlevel : ∀ k ≤ count, levelOf (UInt32.ofNat ((n / span i + (k + 1)) * span i)) = i) :
    next^[(n / span i + (count + 1)) * span i - n] ratchet =
      ((rehashFrom · i)^[count + 1] ratchet).withIndex
        (UInt32.ofNat ((n / span i + (count + 1)) * span i)) := by
  induction count with
  | zero =>
    rw [iterate_next_block ratchet n hindex i rfl, hlevel 0 (Nat.le_refl 0)]
    rfl
  | succ count ih =>
    have hbefore := ih fun k hk => hlevel k (Nat.le_succ_of_le hk)
    have hlast := hlevel (count + 1) (Nat.le_refl _)
    generalize hreached : (n / span i + (count + 1)) * span i = reached at hbefore
    have hindex' : (next^[reached - n] ratchet).index = UInt32.ofNat reached := by
      rw [hbefore]
      rfl
    have hdiv : reached / span i = n / span i + (count + 1) := by
      rw [← hreached]
      exact Nat.mul_div_cancel _ (span_pos i)
    have hgoal : (n / span i + (count + 1 + 1)) * span i = (reached / span i + 1) * span i := by
      rw [hdiv, ← Nat.add_assoc _ (count + 1) 1]
    have hblock := iterate_next_block _ reached hindex' i hgoal
    rw [hlast, hbefore, rehashFrom_withIndex] at hblock
    have hle : n ≤ reached := by
      rw [← hreached]
      exact Nat.le_trans (Nat.le_of_lt (Nat.lt_div_mul_add (span_pos i)))
        (by rw [← Nat.succ_mul]; exact Nat.mul_le_mul_right _ (by omega))
    have hle' : reached ≤ (n / span i + (count + 1 + 1)) * span i := by
      rw [← hreached]
      exact Nat.mul_le_mul_right _ (by omega)
    have hsteps : (n / span i + (count + 1 + 1)) * span i - n =
        ((n / span i + (count + 1 + 1)) * span i - reached) + (reached - n) := by omega
    rw [hsteps, Function.iterate_add_apply, hbefore, hblock, Function.iterate_succ_apply' _ (count + 1)]
    rfl

omit [Suite] in
/-- A span is a whole number of rounds of the part that comes after. -/
theorem span_dvd_span {i j : Fin 4} (hj : j < i) : 256 * span i ∣ span j := by
  have hi := i.isLt
  have hpow : 256 * span i = 256 ^ (3 - i.val + 1) := (Nat.pow_succ' ..).symm
  rw [hpow]
  exact Nat.pow_dvd_pow 256 (by omega)

omit [Suite] in
/-- Within a round, the multiples of a span have the level of its part. -/
theorem levelOf_mul_span (count : ℕ) (i : Fin 4) (hround : i = 0 ∨ ¬ 256 ∣ count) :
    levelOf (UInt32.ofNat (count * span i)) = i := by
  apply Fin.le_antisymm ((levelOf_le_iff _ i).mpr (Nat.dvd_mul_left _ _))
  rw [← Fin.not_lt]
  intro hlt
  rcases hround with rfl | hround
  · exact absurd hlt (Fin.not_lt_zero _)
  · have hdvd := (levelOf_le_iff (count * span i) _).mp (Fin.le_refl _)
    exact hround (Nat.dvd_of_mul_dvd_mul_right (span_pos i) (Nat.dvd_trans (span_dvd_span hlt) hdvd))

omit [Suite] in
/-- The share of a part is the place divided by its span. -/
theorem toNat_share (index : UInt32) (i : Fin 4) : (share index i).toNat = index.toNat / span i := by
  rcases part_cases i with rfl | rfl | rfl | rfl
  all_goals
    rw [share, UInt32.toNat_shiftRight, Nat.shiftRight_eq_div_pow]
    rfl

omit [Suite] in
/-- A share that is moved back is the last multiple of the span that is not beyond the place. -/
theorem share_shiftLeft (target : ℕ) (htarget : target < UInt32.size) (i : Fin 4) :
    share (UInt32.ofNat target) i <<< UInt32.ofNat (8 * (3 - i.val)) =
      UInt32.ofNat (target / span i * span i) := by
  have hle : target / span i * span i ≤ target := Nat.div_mul_le_self _ _
  have hback : (UInt32.ofNat (target / span i * span i)).toNat = target / span i * span i :=
    UInt32.toNat_ofNat_of_lt' (Nat.lt_of_le_of_lt hle htarget)
  have hshift : 2 ^ ((UInt32.ofNat (8 * (3 - i.val))).toNat % 32) = span i := by
    rcases part_cases i with rfl | rfl | rfl | rfl <;> rfl
  apply UInt32.toNat_inj.mp
  rw [UInt32.toNat_shiftLeft, toNat_share, hback, UInt32.toNat_ofNat_of_lt' htarget, Nat.shiftLeft_eq, hshift]
  exact Nat.mod_eq_of_lt (Nat.lt_of_le_of_lt hle htarget)

omit [Suite] in
/-- On the way to a place further on, a part is hashed as often as its share grows. -/
theorem distance_eq (ratchet : Ratchet) (n target : ℕ) (hindex : ratchet.index = UInt32.ofNat n)
    (hle : n ≤ target) (htarget : target < UInt32.size) (i : Fin 4) :
    ratchet.distance (UInt32.ofNat target) i = (target / span i - n / span i) % 256 := by
  have hn : (UInt32.ofNat n).toNat = n := UInt32.toNat_ofNat_of_lt' (by omega)
  have ht : (UInt32.ofNat target).toNat = target := UInt32.toNat_ofNat_of_lt' htarget
  have hshare : share (UInt32.ofNat n) i ≤ share (UInt32.ofNat target) i := by
    rw [UInt32.le_iff_toNat_le, toNat_share, toNat_share, hn, ht]
    exact Nat.div_le_div_right hle
  have hnot : ¬ UInt32.ofNat target < UInt32.ofNat n := by
    rw [UInt32.lt_iff_toNat_lt, hn, ht]
    omega
  simp only [distance, hindex, hnot, and_false, if_false]
  rw [UInt32.toNat_and, UInt32.toNat_sub_of_le _ _ hshare, toNat_share, toNat_share, hn, ht]
  exact Nat.and_two_pow_sub_one_eq_mod _ 8

/-- Bringing a part to its state at a place takes steps to the last multiple of its span, if the parts
before it are there. -/
theorem alignPart_eq_iterate (ratchet : Ratchet) (n target : ℕ) (hindex : ratchet.index = UInt32.ofNat n)
    (hle : n ≤ target) (htarget : target < UInt32.size) (i : Fin 4)
    (hround : i = 0 ∨ n / span i / 256 = target / span i / 256) :
    ∃ reached, n ≤ reached ∧ reached ≤ target ∧ reached / span i = target / span i ∧
      alignPart (UInt32.ofNat target) ratchet i = next^[reached - n] ratchet := by
  have hshares : n / span i ≤ target / span i := Nat.div_le_div_right hle
  have hdistance := distance_eq ratchet n target hindex hle htarget i
  have hfew : target / span i - n / span i < 256 := by
    rcases hround with rfl | hround
    · exact Nat.lt_of_le_of_lt (Nat.sub_le _ _) (Nat.div_lt_of_lt_mul htarget)
    · omega
  rw [Nat.mod_eq_of_lt hfew] at hdistance
  rcases Nat.eq_zero_or_pos (target / span i - n / span i) with hzero | hpos
  · refine ⟨n, Nat.le_refl n, hle, by omega, ?_⟩
    rw [hzero] at hdistance
    simp [alignPart, hdistance]
  · obtain ⟨count, hcount⟩ : ∃ count, target / span i - n / span i = count + 1 := Nat.exists_eq_add_of_le' hpos
    have hgoal : n / span i + (count + 1) = target / span i := by omega
    have hlevel : ∀ k ≤ count, levelOf (UInt32.ofNat ((n / span i + (k + 1)) * span i)) = i := by
      intro k hk
      refine levelOf_mul_span _ i (hround.imp id fun hround => ?_)
      omega
    have hblocks := iterate_next_blocks ratchet n hindex i count hlevel
    rw [hgoal] at hblocks
    have hreached : n ≤ target / span i * span i := by
      have hlt : n < n / span i * span i + span i := Nat.lt_div_mul_add (span_pos i)
      rw [← hgoal, Nat.add_mul, Nat.succ_mul]
      omega
    refine ⟨target / span i * span i, hreached, Nat.div_mul_le_self _ _, Nat.mul_div_cancel _ (span_pos i), ?_⟩
    rw [hcount] at hdistance
    simp only [alignPart, hdistance, share_shiftLeft target htarget]
    rw [hblocks, iterate_rehashFrom]
    rfl

omit [Suite] in
/-- Two places with the same share of a part lie in the same round of the next part. -/
theorem round_eq {i j : Fin 4} (hspan : span i = span j * 256) {n target : ℕ}
    (hshare : n / span i = target / span i) : n / span j / 256 = target / span j / 256 := by
  rw [Nat.div_div_eq_div_mul, Nat.div_div_eq_div_mul, ← hspan, hshare]

/-- Moving to a place further on takes all steps to it. -/
theorem moveTo_eq_iterate (ratchet : Ratchet) (n target : ℕ) (hindex : ratchet.index = UInt32.ofNat n)
    (hle : n ≤ target) (htarget : target < UInt32.size) :
    ratchet.moveTo (UInt32.ofNat target) = next^[target - n] ratchet := by
  -- Every part starts where the one before it has got to, and the last one gets to the place itself.
  have hat (reached : ℕ) (h : n ≤ reached) : (next^[reached - n] ratchet).index = UInt32.ofNat reached := by
    rw [index_iterate_next ratchet n hindex, Nat.add_sub_cancel' h]
  have hmore {reached further : ℕ} (h : n ≤ reached) (h' : reached ≤ further) :
      next^[further - reached] (next^[reached - n] ratchet) = next^[further - n] ratchet := by
    rw [← Function.iterate_add_apply]
    congr 1
    omega
  obtain ⟨a, ha, hat0, hshare0, hpart0⟩ :=
    alignPart_eq_iterate ratchet n target hindex hle htarget 0 (Or.inl rfl)
  obtain ⟨b, hb, hat1, hshare1, hpart1⟩ :=
    alignPart_eq_iterate _ a target (hat a ha) hat0 htarget 1 (Or.inr (round_eq rfl hshare0))
  rw [hmore ha hb] at hpart1
  have hb' : n ≤ b := Nat.le_trans ha hb
  obtain ⟨c, hc, hat2, hshare2, hpart2⟩ :=
    alignPart_eq_iterate _ b target (hat b hb') hat1 htarget 2 (Or.inr (round_eq rfl hshare1))
  rw [hmore hb' hc] at hpart2
  have hc' : n ≤ c := Nat.le_trans hb' hc
  obtain ⟨d, hd, -, hshare3, hpart3⟩ :=
    alignPart_eq_iterate _ c target (hat c hc') hat2 htarget 3 (Or.inr (round_eq rfl hshare2))
  rw [hmore hc' hd] at hpart3
  obtain rfl : d = target := by
    change d / 1 = target / 1 at hshare3
    rwa [Nat.div_one, Nat.div_one] at hshare3
  change alignPart _ (alignPart _ (alignPart _ (alignPart _ ratchet 0) 1) 2) 3 = _
  rw [hpart0, hpart1, hpart2, hpart3]

/-- The same for places as they are counted. -/
theorem moveTo_of_le (ratchet : Ratchet) {place : UInt32} (hplace : ratchet.index ≤ place) :
    ratchet.moveTo place = next^[place.toNat - ratchet.index.toNat] ratchet := by
  have hmove := moveTo_eq_iterate ratchet _ place.toNat UInt32.ofNat_toNat.symm
    (UInt32.le_iff_toNat_le.mp hplace) place.toNat_lt
  rwa [UInt32.ofNat_toNat] at hmove

/-- A ratchet gets to the place that it moves to. -/
theorem index_moveTo (ratchet : Ratchet) {place : UInt32} (hplace : ratchet.index ≤ place) :
    (ratchet.moveTo place).index = place := by
  have hle := UInt32.le_iff_toNat_le.mp hplace
  rw [moveTo_of_le ratchet hplace, index_iterate_next ratchet _ UInt32.ofNat_toNat.symm, Nat.add_sub_cancel' hle,
    UInt32.ofNat_toNat]

/-- A ratchet that moves to its own place stays as it is. -/
theorem moveTo_index (ratchet : Ratchet) : ratchet.moveTo ratchet.index = ratchet := by
  rw [moveTo_of_le ratchet (UInt32.le_refl _), Nat.sub_self]
  rfl

/-- Two moves forward are one. -/
theorem moveTo_moveTo (ratchet : Ratchet) {place further : UInt32} (hplace : ratchet.index ≤ place)
    (hfurther : place ≤ further) : (ratchet.moveTo place).moveTo further = ratchet.moveTo further := by
  have hindex := index_moveTo ratchet hplace
  have hfirst := UInt32.le_iff_toNat_le.mp hplace
  have hthen := UInt32.le_iff_toNat_le.mp hfurther
  rw [moveTo_of_le _ (hindex.symm ▸ hfurther), hindex, moveTo_of_le ratchet hplace,
    moveTo_of_le ratchet (UInt32.le_trans hplace hfurther), ← Function.iterate_add_apply]
  congr 1
  omega

end RoomCrypt.Megolm.Ratchet
