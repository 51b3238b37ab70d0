import RoomCrypt.Proofs.Pickle.Exactness

/-!
# Lists of any values

A list is written as the number of its elements and their pickles, one after the other, and the elements need not have
one size. Nothing is assumed of them but what each value promises about its own pickle: it is written as a whole or not
at all, and it is read back from its pickle, whatever follows. Then the list is read back too, wherever in a buffer it
stands. The other way round, if what is read of an element is nothing but its pickle, the same is true of lists.
-/

namespace RoomCrypt

variable {α : Type} [ToPickle α]

section

variable {value : α}

/-- A value that is written as a whole or not at all is written so inside of another one. -/
theorem AllOrNothing.writes_value (h : AllOrNothing value) :
    Pickler.Writes (Pickler.value value) (toPickle value) := by
  refine Pickler.writes_value fun target htarget => ?_
  rw [h.length_eq] at htarget ⊢
  exact h.written target htarget

end

section

variable {items : List α}

/-- A list of values that are written as a whole or not at all has the size that is stated for it. -/
theorem length_listForm (h : ∀ item ∈ items, AllOrNothing item) :
    (listForm toPickle items).length = listPickleSize items :=
  (listPickleSize_eq fun item hitem => (h item hitem).length_eq.symm).symm

/-- And it is written with their pickles, if they can be counted in 32 bits. -/
theorem Pickler.writes_list_pickles (h : ∀ item ∈ items, AllOrNothing item) (hcount : items.length < UInt32.size) :
    Writes (list items) (listForm toPickle items) :=
  writes_list (fun item hitem => (h item hitem).writes_value) hcount

end

variable [OfPickle α]

/-- A value is read back from its pickle, whatever follows. -/
def IsReadBack (value : α) : Prop :=
  ∀ rest, ofPickle? α (toPickle value ++ rest) = .ok (value, rest)

/-- Elements that are read back are read back inside of a list. -/
theorem readsBack_pickles : Unpickler.ReadsBack (Unpickler.value α) toPickle IsReadBack :=
  fun _ rest hback => Unpickler.on_nested_eq_ok_iff.mpr (Unpickler.decodeWith_eq_ok_iff.mp (hback rest))

/-- If nothing is read but pickles, nothing is read inside of a list but pickles. -/
theorem takesForms_pickles
    (h : ∀ source (value : α) rest, ofPickle? α source = .ok (value, rest) →
      AllOrNothing value ∧ source = toPickle value ++ rest) :
    Unpickler.TakesForms (Unpickler.value α) toPickle AllOrNothing :=
  fun source value rest hread =>
    h source value rest (Unpickler.decodeWith_eq_ok_iff.mpr (Unpickler.on_nested_eq_ok_iff.mp hread))

/-- Lists keep what their elements promise. If each element is written as a whole or not at all, and is read back from
its pickle, a list of less than `2 ^ 32` of them is written into any buffer that has as much room left as its stated
size, wherever the writing stands, and takes exactly that much. It is read back from these bytes, whatever follows, if
the reader allows so many elements. If it does not, the list is refused when its number of elements has been read, and
what reader the elements have does not matter. And if what is read of an element is nothing but its pickle, what is
read of a list is nothing but what is written for it. -/
theorem lists_keep_their_elements :
    (∀ items : List α, items.length < UInt32.size → (∀ item ∈ items, AllOrNothing item ∧ IsReadBack item) →
        (listForm toPickle items).length = listPickleSize items ∧
          (∀ buffer : PickleBuffer, listPickleSize items ≤ buffer.room.length →
            InPlace.on (Pickler.list items) buffer = (.ok (), buffer.filled (listForm toPickle items))) ∧
          ∀ max rest,
            (items.length ≤ max →
              InPlace.on (Unpickler.list α max) (listForm toPickle items ++ rest) = (.ok items, rest)) ∧
            (max < items.length → ∀ reader : OfPickle α,
              InPlace.on (@Unpickler.list α reader max) (listForm toPickle items ++ rest) =
                (.error (.malformed .tooManyElements), items.flatMap toPickle ++ rest))) ∧
      ((∀ source (value : α) rest, ofPickle? α source = .ok (value, rest) →
          AllOrNothing value ∧ source = toPickle value ++ rest) →
        ∀ max source (items : List α) rest, InPlace.on (Unpickler.list α max) source = (.ok items, rest) →
          items.length ≤ max ∧ items.length < UInt32.size ∧ source = listForm toPickle items ++ rest ∧
            ∀ buffer : PickleBuffer, listPickleSize items ≤ buffer.room.length →
              InPlace.on (Pickler.list items) buffer = (.ok (), buffer.filled (listForm toPickle items))) := by
  have hfills {items : List α} (hwhole : ∀ item ∈ items, AllOrNothing item) (hcount : items.length < UInt32.size)
      (buffer : PickleBuffer) (hroom : listPickleSize items ≤ buffer.room.length) :
      InPlace.on (Pickler.list items) buffer = (.ok (), buffer.filled (listForm toPickle items)) :=
    Pickler.writes_list_pickles hwhole hcount buffer (Nat.le_trans (Nat.le_of_eq (length_listForm hwhole)) hroom)
  refine ⟨fun items hcount hitems => ?_, fun hcanonical max source items rest hread => ?_⟩
  · have hwhole : ∀ item ∈ items, AllOrNothing item := fun item hitem => (hitems item hitem).1
    refine ⟨length_listForm hwhole, hfills hwhole hcount, fun max rest => ⟨fun hmax => ?_, fun hmax reader => ?_⟩⟩
    · exact readsBack_pickles.list max items rest ⟨hmax, hcount, fun item hitem => (hitems item hitem).2⟩
    · exact @Unpickler.on_list_of_exceeds α reader toPickle items max hcount hmax rest
  · obtain ⟨hvalid, hsource⟩ := (takesForms_pickles hcanonical).list max source items rest hread
    exact ⟨hvalid.length_le, hvalid.length_lt, hsource, hfills hvalid.valid hvalid.length_lt⟩

end RoomCrypt

namespace RoomCrypt

open Olm
open scoped Suite.Evaluation

/-- What is read as a channel is its pickle, and the channel is written as a whole or not at all. -/
theorem channels_are_canonical (source : Bytes) (channel : Channel) (rest : Bytes)
    (h : ofPickle? Channel source = .ok (channel, rest)) :
    AllOrNothing channel ∧ source = toPickle channel ++ rest := by
  obtain ⟨hvalid, rfl⟩ := (Channel.reads {}).forms _ _ _ (Unpickler.decodeWith_eq_ok_iff.mp h)
  have hform := channel.hasForm hvalid.receivers_lt hvalid.skipped_lt
  rw [hform.toPickle_eq]
  exact ⟨hform.allOrNothing, rfl⟩

/-- And a channel that can be restored is read back. -/
theorem Olm.Ratchet.Restorable.isReadBack {channel : Channel} (h : channel.ratchet.Restorable {}) :
    AllOrNothing channel ∧ IsReadBack channel := by
  have hform := channel.hasForm h.receivers_lt h.skipped_lt
  refine ⟨hform.allOrNothing, fun rest => ?_⟩
  rw [hform.toPickle_eq]
  exact Unpickler.decodeWith_eq_ok_iff.mpr ((Channel.reads {}).back channel rest h)

/-- A channel that has not been used yet. -/
def unusedChannel : Channel :=
  (ChannelOrigin.inbound ⟨boundsKey, boundsKey, boundsKey⟩ [7] boundsKey).channel

/-- A list of two channels of different sizes is written behind another byte, and it is read back or, where only one
channel is allowed, refused. What is read as a list of channels is what is written for it. -/
theorem lists_keep_their_elements_channels :
    ToPickle.size answeredChannel = 449 ∧ ToPickle.size unusedChannel = 213 ∧
      InPlace.on (Pickler.list [answeredChannel, unusedChannel]) ⟨[7], List.replicate 668 0xAA⟩ =
        (.ok (), ⟨(listForm toPickle [answeredChannel, unusedChannel]).reverse ++ [7], [0xAA, 0xAA]⟩) ∧
      InPlace.on (Unpickler.list Channel 2) (listForm toPickle [answeredChannel, unusedChannel] ++ [9]) =
        (.ok [answeredChannel, unusedChannel], [9]) ∧
      InPlace.on (Unpickler.list Channel 1) (listForm toPickle [answeredChannel, unusedChannel] ++ [9]) =
        (.error (.malformed .tooManyElements), [answeredChannel, unusedChannel].flatMap toPickle ++ [9]) ∧
      ∀ source channels rest, InPlace.on (Unpickler.list Channel 2) source = (.ok channels, rest) →
        source = listForm toPickle channels ++ rest := by
  obtain ⟨hconfig, hreceivers, hskipped, hanswered⟩ := answeredChannel_counts
  have hunused : ToPickle.size unusedChannel = 213 := by decide
  have hsize : listPickleSize [answeredChannel, unusedChannel] = 666 := by
    simp only [listPickleSize, valuesPickleSize, hanswered, hunused]
  have hrestorable : answeredChannel.ratchet.Restorable {} := by
    rw [← hconfig]
    exact Channel.restorable_useAll (.inbound ⟨boundsKey, boundsKey, boundsKey⟩ [7] boundsKey)
      [.decrypt boundsFirst, .encrypt [2] default] (Nat.lt_of_le_of_lt (Nat.le_of_eq hreceivers) (by decide))
      (Nat.lt_of_le_of_lt (Nat.le_of_eq hskipped) (by decide))
  have hrestorable' : unusedChannel.ratchet.Restorable {} :=
    Channel.restorable_useAll (.inbound ⟨boundsKey, boundsKey, boundsKey⟩ [7] boundsKey) []
      (by decide) (by decide)
  obtain ⟨hlists, hcanonical⟩ := lists_keep_their_elements (α := Channel)
  obtain ⟨hlength, hfills, hreads⟩ := hlists [answeredChannel, unusedChannel] (by decide) (by
    simp only [List.forall_mem_cons, List.not_mem_nil, false_imp_iff, implies_true, and_true]
    exact ⟨hrestorable.isReadBack, hrestorable'.isReadBack⟩)
  have hfilled := hfills ⟨[7], List.replicate 668 0xAA⟩ (by rw [hsize, List.length_replicate]; decide)
  rw [PickleBuffer.filled, hlength, hsize, List.drop_replicate] at hfilled
  exact ⟨hanswered, hunused, hfilled, (hreads 2 [9]).1 (by decide), (hreads 1 [9]).2 (by decide) _,
    fun source channels rest hread => (hcanonical channels_are_canonical 2 source channels rest hread).2.2.1⟩

end RoomCrypt
