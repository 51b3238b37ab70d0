import RoomCrypt.Proofs.Laws
import RoomCrypt.Proofs.Megolm.FastForward

/-!
# Moving a ratchet all the way round

A ratchet that is moved to a place before its own goes round: its first part is hashed up to the last
multiple of its span before the place, in the next round of the counter, and from there on the ratchet
moves forward. So moving is taking steps wherever the place lies, as many as there are from the one place
to the other modulo `2 ^ 32`.
-/

namespace RoomCrypt.Megolm.Ratchet

/-- The last place up to this one at which all parts behind part `i` start again. -/
def entry (target : UInt32) (i : Fin 4) : ℕ :=
  target.toNat / span i * span i

theorem entry_le (target : UInt32) (i : Fin 4) : entry target i ≤ target.toNat :=
  Nat.div_mul_le_self _ _

theorem share_entry (target : UInt32) (i : Fin 4) : entry target i / span i = target.toNat / span i :=
  Nat.mul_div_cancel _ (span_pos i)

/-- The first shares of a place and of one before it differ by less than a round. -/
theorem shares_of_lt {target index : UInt32} (h : target < index) :
    (share target 0).toNat ≤ (share index 0).toNat ∧ (share index 0).toNat < 256 := by
  rw [toNat_share, toNat_share]
  exact ⟨Nat.div_le_div_right (Nat.le_of_lt (UInt32.lt_iff_toNat_lt.mp h)), Nat.div_lt_of_lt_mul index.toNat_lt⟩

/-- Before its first part gets to a place in the next round, it is hashed as often as its share grows and
wraps; it is a full round if the share is the same. -/
theorem distance_of_lt {ratchet : Ratchet} {target : UInt32} (h : target < ratchet.index) :
    ratchet.distance target 0 = (share target 0).toNat + 256 - (share ratchet.index 0).toNat := by
  obtain ⟨hshares, hfew⟩ := shares_of_lt h
  obtain ⟨steps, hsteps⟩ : ∃ steps, steps = (share target 0 - share ratchet.index 0) &&& 0xff := ⟨_, rfl⟩
  have hcount : steps.toNat = ((share target 0).toNat + 256 - (share ratchet.index 0).toNat) % 256 := by
    rw [hsteps, UInt32.toNat_and, UInt32.toNat_sub]
    refine (Nat.and_two_pow_sub_one_eq_mod _ 8).trans ?_
    omega
  unfold distance
  rw [← hsteps]
  by_cases hzero : steps = 0
  · rw [if_pos ⟨hzero, h⟩]
    rw [hzero, UInt32.toNat_zero] at hcount
    omega
  · rw [if_neg fun both => hzero both.1, hcount]
    have hnonzero : steps.toNat ≠ 0 := fun hnat => hzero (UInt32.toNat_inj.mp hnat)
    omega

variable [Suite]

/-- Bringing the first part to a place in the next round takes all steps to the entry of the place. -/
theorem alignPart_of_lt {ratchet : Ratchet} {target : UInt32} (h : target < ratchet.index) :
    alignPart target ratchet 0 = next^[entry target 0 + UInt32.size - ratchet.index.toNat] ratchet := by
  obtain ⟨hshares, hfew⟩ := shares_of_lt h
  have hdistance := distance_of_lt h
  obtain ⟨count, hcount⟩ : ∃ count, (share ratchet.index 0).toNat + (count + 1) = (share target 0).toNat + 256 :=
    ⟨(share target 0).toNat + 255 - (share ratchet.index 0).toNat, by omega⟩
  rw [← hcount, Nat.add_sub_cancel_left] at hdistance
  rw [toNat_share, toNat_share] at hcount
  have hgoal : (target.toNat / span 0 + 256) * span 0 = entry target 0 + UInt32.size := Nat.add_mul _ _ _
  have hblocks := iterate_next_blocks ratchet ratchet.index.toNat UInt32.ofNat_toNat.symm 0 count
    fun k _ => levelOf_mul_span _ 0 (Or.inl rfl)
  rw [hcount, hgoal, iterate_rehashFrom] at hblocks
  have hplace : UInt32.ofNat (entry target 0 + UInt32.size) = UInt32.ofNat (entry target 0) :=
    UInt32.toNat_inj.mp (by simp)
  have hshare := share_shiftLeft target.toNat target.toNat_lt 0
  rw [UInt32.ofNat_toNat] at hshare
  rw [hblocks, hplace]
  simp only [alignPart, hdistance, hshare]
  rfl

/-- Moving to a place before the current one takes the steps to the entry of the place and those after it. -/
theorem moveTo_of_lt {ratchet : Ratchet} {target : UInt32} (h : target < ratchet.index) :
    ratchet.moveTo target = next^[target.toNat + UInt32.size - ratchet.index.toNat] ratchet := by
  have hlt := UInt32.lt_iff_toNat_lt.mp h
  have hbound := ratchet.index.toNat_lt
  have hsize : UInt32.size = 2 ^ 32 := rfl
  have hround := alignPart_of_lt h
  obtain ⟨entered, hentered⟩ : ∃ entered, entered = alignPart target ratchet 0 := ⟨_, rfl⟩
  have hindex : entered.index = UInt32.ofNat (entry target 0) := by
    rw [hentered, hround, index_iterate_next ratchet _ UInt32.ofNat_toNat.symm]
    apply UInt32.toNat_inj.mp
    rw [UInt32.toNat_ofNat', UInt32.toNat_ofNat']
    omega
  -- From its entry on, the first part is where it has to be, and the ratchet moves forward.
  have hstays : alignPart target entered 0 = entered := by
    have hdistance := distance_eq entered (entry target 0) target.toNat hindex (entry_le target 0) target.toNat_lt 0
    rw [UInt32.ofNat_toNat, share_entry, Nat.sub_self, Nat.zero_mod] at hdistance
    simp [alignPart, hdistance]
  have hforward : ratchet.moveTo target = entered.moveTo target := by
    change alignPart _ (alignPart _ (alignPart _ (alignPart _ ratchet 0) 1) 2) 3 =
      alignPart _ (alignPart _ (alignPart _ (alignPart _ entered 0) 1) 2) 3
    rw [hstays, hentered]
  have hmove := moveTo_eq_iterate entered (entry target 0) target.toNat hindex (entry_le target 0) target.toNat_lt
  rw [UInt32.ofNat_toNat] at hmove
  have hle := entry_le target 0
  rw [hforward, hmove, hentered, hround, ← Function.iterate_add_apply]
  congr 1
  omega

/-- Moving a ratchet to any place is taking as many steps as there are from its own place to that one modulo
`2 ^ 32`, whatever the hash is. A move to its own place changes nothing, and a move to a place before it goes
through the last place of the counter, from where the next step gets to the first one. -/
theorem moveTo_eq_steps (ratchet : Ratchet) (target : UInt32) :
    ratchet.moveTo target = next^[(target - ratchet.index).toNat] ratchet ∧
      ratchet.moveTo ratchet.index = ratchet ∧
      (target < ratchet.index →
        let round := next^[UInt32.size - ratchet.index.toNat] ratchet
        round.index = 0 ∧ ratchet.moveTo target = next^[target.toNat] round) := by
  have hindex := ratchet.index.toNat_lt
  have htarget := target.toNat_lt
  have hsize : UInt32.size = 2 ^ 32 := rfl
  refine ⟨?_, ratchet.moveTo_index, fun hlt => ⟨?_, ?_⟩⟩
  · by_cases hlt : target < ratchet.index
    · have hnat := UInt32.lt_iff_toNat_lt.mp hlt
      rw [moveTo_of_lt hlt, UInt32.toNat_sub]
      congr 1
      omega
    · have hle := UInt32.not_lt.mp hlt
      rw [moveTo_of_le ratchet hle, UInt32.toNat_sub_of_le _ _ hle]
  · rw [index_iterate_next ratchet _ UInt32.ofNat_toNat.symm, Nat.add_sub_cancel' (Nat.le_of_lt hindex)]
    rfl
  · rw [moveTo_of_lt hlt, ← Function.iterate_add_apply]
    congr 1
    omega

end RoomCrypt.Megolm.Ratchet

namespace RoomCrypt.Megolm.Ratchet

open scoped Suite.Evaluation

/-- A ratchet two steps before the end of the counter. -/
def lateRatchet : Ratchet :=
  ⟨.ofNatLE 32 1, .ofNatLE 32 2, .ofNatLE 32 3, .ofNatLE 32 4, 0xfffffffe⟩

/-- It gets to the place 1 by three steps, the second of which makes all parts anew. -/
theorem moveTo_eq_steps_late :
    (1 : UInt32) < lateRatchet.index ∧ lateRatchet.moveTo 1 = lateRatchet.next.next.next ∧
      lateRatchet.next.next.index = 0 ∧ lateRatchet.next.next.part0 = hashInto lateRatchet.part0 0 ∧
      lateRatchet.moveTo 1 = next^[1] (next^[2] lateRatchet) := by
  have hlt : (1 : UInt32) < lateRatchet.index := by decide
  obtain ⟨hmove, -, hround⟩ := moveTo_eq_steps lateRatchet 1
  obtain ⟨hzero, hthrough⟩ := hround hlt
  exact ⟨hlt, hmove, hzero, rfl, hthrough⟩

end RoomCrypt.Megolm.Ratchet
