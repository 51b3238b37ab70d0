import RoomCrypt.Proofs.Pickle.Writing

/-!
# The front of a pickle

A pickle that cannot be finished, because a list is too long to be counted, still has what was written
before the list: no step of writing takes anything back.
-/

namespace RoomCrypt

variable {α : Type}

namespace Pickler

/-- A step takes nothing back, be it finished or not. -/
def Extends (step : Pickler Unit) : Prop :=
  ∀ buffer : PickleBuffer, ∃ more, (InPlace.on step buffer).2.done = more ++ buffer.done

/-- A step that has so much room fills the next bytes of the buffer with these, be it finished or not. -/
def Starts (step : Pickler Unit) (needed : ℕ) (front : Bytes) : Prop :=
  ∀ buffer : PickleBuffer, needed ≤ buffer.room.length →
    (∃ rest, (InPlace.on step buffer).2.target = buffer.done.reverse ++ front ++ rest) ∧
      ((InPlace.on step buffer).1 = .ok () →
        buffer.done.length + front.length ≤ (InPlace.on step buffer).2.done.length)

theorem extends_bytes (form : Bytes) : Extends (bytes form) := by
  intro buffer
  unfold bytes
  rw [InPlace.on_bind, InPlace.on_get]
  dsimp only
  cases Bytes.splitAt? form.length buffer.room with
  | none => exact ⟨[], rfl⟩
  | some split => exact ⟨form.reverse, rfl⟩

theorem extends_value [ToPickle α] (item : α) : Extends (value item) := by
  intro buffer
  unfold value
  rw [InPlace.on_bind, InPlace.on_get]
  dsimp only
  rcases encode item buffer.room with ⟨e | count, room⟩
  · exact ⟨[], rfl⟩
  · exact ⟨(room.take count).reverse, rfl⟩

theorem Extends.followed {first next : Pickler Unit} (hfirst : Extends first) (hnext : Extends next) :
    Extends (first >>= fun _ => next) := by
  intro buffer
  obtain ⟨more, hmore⟩ := hfirst buffer
  rw [InPlace.on_bind]
  rcases hrun : InPlace.on first buffer with ⟨e | u, between⟩
  · rw [hrun] at hmore
    exact ⟨more, hmore⟩
  · rw [hrun] at hmore
    obtain ⟨further, hfurther⟩ := hnext between
    refine ⟨further ++ more, ?_⟩
    rw [List.append_assoc, ← hmore]
    exact hfurther

theorem extends_values [ToPickle α] (items : List α) : Extends (values items) := by
  induction items with
  | nil => exact fun buffer => ⟨[], rfl⟩
  | cons item items ih => exact (extends_value item).followed ih

theorem extends_list [ToPickle α] (items : List α) : Extends (list items) := by
  unfold list
  split
  · exact (extends_bytes _).followed (extends_values items)
  · exact fun buffer => ⟨[], rfl⟩

/-- What is written by a step that is finished is followed by what comes next. -/
theorem Writes.starts {first next : Pickler Unit} {form front : Bytes} {needed : ℕ}
    (hfirst : Writes first form) (hnext : Starts next needed front) :
    Starts (first >>= fun _ => next) (form.length + needed) (form ++ front) := by
  intro buffer hroom
  have hleft : needed ≤ (buffer.filled form).room.length := by
    rw [PickleBuffer.filled, List.length_drop]
    omega
  rw [InPlace.on_bind, hfirst buffer (by omega)]
  obtain ⟨⟨rest, hrest⟩, hlength⟩ := hnext (buffer.filled form) hleft
  refine ⟨⟨rest, hrest.trans ?_⟩, fun hok => ?_⟩
  · simp [PickleBuffer.filled]
  · have hall := hlength hok
    simp only [PickleBuffer.filled, List.length_append, List.length_reverse] at hall ⊢
    omega

/-- And it stays when something comes next that may not be finished. -/
theorem Writes.startsOnly {first next : Pickler Unit} {form : Bytes} (hfirst : Writes first form)
    (hnext : Extends next) : Starts (first >>= fun _ => next) form.length form := by
  have hnothing : Starts next 0 [] := by
    intro buffer _
    obtain ⟨more, hmore⟩ := hnext buffer
    refine ⟨⟨more.reverse ++ (InPlace.on next buffer).2.room, ?_⟩, fun _ => ?_⟩
    · rw [PickleBuffer.target, hmore]
      simp
    · rw [hmore]
      simp
  have hstarts := hfirst.starts hnothing
  rwa [List.append_nil] at hstarts

/-- A value that is written inside of another one starts as it does alone. -/
theorem Starts.value [ToPickle α] {item : α} {needed : ℕ} {front : Bytes}
    (h : Starts (ToPickle.write item) needed front) (hsize : needed ≤ ToPickle.size item) :
    Starts (value item) (ToPickle.size item) front := by
  intro buffer hroom
  obtain ⟨⟨rest, hrest⟩, hlength⟩ := h (.ofTarget buffer.room) (Nat.le_trans hsize hroom)
  unfold Pickler.value
  rw [InPlace.on_bind, InPlace.on_get]
  simp only [encode_eq, if_neg (Nat.not_lt.mpr hroom)]
  rcases hrun : InPlace.on (ToPickle.write item) (.ofTarget buffer.room) with ⟨e | u, after⟩
  · rw [hrun] at hrest
    refine ⟨⟨rest, ?_⟩, fun hok => by cases hok⟩
    change buffer.done.reverse ++ after.target = _
    rw [show after.target = _ from hrest]
    simp [PickleBuffer.ofTarget]
  · rw [hrun] at hrest hlength
    have hcount : after.target.take after.position = after.done.reverse :=
      List.take_left' (by simp [PickleBuffer.position])
    refine ⟨⟨rest, ?_⟩, fun _ => ?_⟩
    · change ((after.target.take after.position).reverse ++ buffer.done).reverse ++ after.target.drop after.position = _
      rw [List.reverse_append, List.reverse_reverse, List.append_assoc, List.take_append_drop,
        show after.target = _ from hrest]
      simp [PickleBuffer.ofTarget]
    · change buffer.done.length + front.length ≤ ((after.target.take after.position).reverse ++ buffer.done).length
      have hfront : front.length ≤ after.done.length := by
        simpa [PickleBuffer.ofTarget] using hlength rfl
      rw [hcount]
      simp only [List.reverse_reverse, List.length_append]
      omega

/-- A pickle starts as its value does. -/
theorem Starts.toPickle [ToPickle α] {item : α} {needed : ℕ} {front : Bytes}
    (h : Starts (ToPickle.write item) needed front) (hsize : needed ≤ ToPickle.size item) :
    ∃ rest, toPickle item = front ++ rest := by
  have hroom : needed ≤ (List.replicate (ToPickle.size item) (0 : UInt8)).length := by
    rwa [List.length_replicate]
  obtain ⟨⟨rest, hrest⟩, hlength⟩ := h (.ofTarget (List.replicate (ToPickle.size item) 0)) hroom
  unfold RoomCrypt.toPickle
  simp only [encode_eq, List.length_replicate, Nat.lt_irrefl, if_false]
  rcases hrun : InPlace.on (ToPickle.write item) (.ofTarget (List.replicate (ToPickle.size item) 0)) with ⟨e | u, after⟩
  · rw [hrun] at hrest
    exact ⟨rest, hrest⟩
  · rw [hrun] at hrest hlength
    have hfront : front.length ≤ after.done.length := by
      simpa [PickleBuffer.ofTarget] using hlength rfl
    have htarget : after.target = front ++ rest := hrest
    refine ⟨rest.take (after.position - front.length), ?_⟩
    change after.target.take after.position = _
    rw [htarget, List.take_append, List.take_of_length_le (show front.length ≤ after.position from hfront)]

end Pickler

end RoomCrypt
