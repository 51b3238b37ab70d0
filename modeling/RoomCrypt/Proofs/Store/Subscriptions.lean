import Mathlib.Data.List.Basic
import RoomCrypt.Store.Announcements

/-!
# What a subscriber gets

A stream holds the latest of all announcements that were made. A subscriber takes one notice at a time: the
announcement at his place, or, if that one is no longer held, the notice that he has missed some, which brings him
to the oldest one that is held. So an announcement that is not behind him is either pending or missed, and then the
notice of that is pending.
-/

namespace RoomCrypt.Store.Announcements

variable {stream : Announcements} {announced : List Announcement} {subscription left : Subscription}

/-- The announcements that were made, first ones first, are those that are held and those that were dropped. -/
structure Holds (stream : Announcements) (announced : List Announcement) : Prop where
  count_eq : stream.count = announced.length
  held_eq : stream.held = announced.drop stream.dropped

theorem holds_empty : empty.Holds [] :=
  ⟨rfl, rfl⟩

/-- Another announcement comes behind the ones before. -/
theorem Holds.send (h : stream.Holds announced) (announcement : Announcement) :
    (stream.send announcement).Holds (announced ++ [announcement]) where
  count_eq := by
    rw [count_send, h.count_eq, List.length_append, List.length_singleton]
  held_eq := by
    have hdropped : stream.dropped ≤ announced.length := h.count_eq ▸ Nat.le_add_right _ _
    unfold Announcements.send
    rw [← List.drop_drop, List.drop_append_of_le_length hdropped, ← h.held_eq]

/-- Take the next notice, if there is one. -/
def next? (stream : Announcements) (subscription : Subscription) : Option (Notice × Subscription) :=
  if subscription.position < stream.dropped then some (.missed, ⟨stream.dropped⟩)
  else
    stream.held[subscription.position - stream.dropped]?.map fun announcement =>
      (.news announcement, ⟨subscription.position + 1⟩)

/-- The notices that are pending are those that are taken one after the other. -/
theorem pending_eq (stream : Announcements) (subscription : Subscription) :
    stream.pending subscription =
      match stream.next? subscription with
      | none => []
      | some (notice, left) => notice :: stream.pending left := by
  unfold next?
  by_cases hbehind : subscription.position < stream.dropped
  · have hall : stream.news subscription = stream.news ⟨stream.dropped⟩ := by
      unfold news
      rw [Nat.sub_eq_zero_of_le (Nat.le_of_lt hbehind), Nat.sub_self]
    unfold pending
    rw [if_pos hbehind, if_pos hbehind, hall]
    simp
  · rw [if_neg hbehind]
    have hnext : ¬ subscription.position + 1 < stream.dropped := by omega
    have hplace : subscription.position + 1 - stream.dropped = subscription.position - stream.dropped + 1 := by omega
    unfold pending news
    rw [if_neg hbehind]
    cases hheld : stream.held[subscription.position - stream.dropped]? with
    | none =>
      rw [List.drop_of_length_le (List.getElem?_eq_none_iff.mp hheld)]
      rfl
    | some announcement =>
      obtain ⟨hlt, rfl⟩ := List.getElem?_eq_some_iff.mp hheld
      rw [List.drop_eq_getElem_cons hlt]
      simp only [Option.map_some, if_neg hnext, hplace, List.map_cons]

/-- What is taken is behind the subscriber, and it is the announcement at his place if nothing is missed. -/
theorem Holds.next? (h : stream.Holds announced) {notice : Notice}
    (hnext : stream.next? subscription = some (notice, left)) :
    left.position ≤ announced.length ∧
      ∀ announcement, notice = .news announcement →
        announced[subscription.position]? = some announcement ∧ left.position = subscription.position + 1 := by
  have hcount := h.count_eq
  unfold count at hcount
  unfold Announcements.next? at hnext
  by_cases hbehind : subscription.position < stream.dropped
  · rw [if_pos hbehind] at hnext
    cases hnext
    exact ⟨by dsimp only; omega, nofun⟩
  · rw [if_neg hbehind] at hnext
    obtain ⟨announcement, hheld, hpair⟩ := Option.map_eq_some_iff.mp hnext
    cases hpair
    have hlt := (List.getElem?_eq_some_iff.mp hheld).1
    refine ⟨by dsimp only; omega, ?_⟩
    rintro _ ⟨⟩
    rw [h.held_eq, List.getElem?_drop, Nat.add_sub_cancel' (Nat.le_of_not_lt hbehind)] at hheld
    exact ⟨hheld, rfl⟩

/-- An announcement that is not behind a subscriber is pending, or it was missed. -/
theorem Holds.mem_pending (h : stream.Holds announced) {place : ℕ} {announcement : Announcement}
    (hplace : announced[place]? = some announcement) (hahead : subscription.position ≤ place) :
    .missed ∈ stream.pending subscription ∨ .news announcement ∈ stream.pending subscription := by
  unfold pending
  by_cases hbehind : subscription.position < stream.dropped
  · rw [if_pos hbehind]
    exact Or.inl List.mem_cons_self
  · rw [if_neg hbehind]
    refine Or.inr (List.mem_map_of_mem ?_)
    unfold news
    rw [h.held_eq, List.drop_drop, Nat.add_sub_cancel' (Nat.le_of_not_lt hbehind)]
    refine List.mem_of_getElem? (i := place - subscription.position) ?_
    rw [List.getElem?_drop, Nat.add_sub_cancel' hahead, hplace]

end RoomCrypt.Store.Announcements
