import RoomCrypt.Proofs.Olm.Loading

/-!
# Pickles are written as a whole or not at all

The size of a value is stated apart from how the value is written, and it is checked once, before the first byte.
That protects the buffer only if each of the statements is right, of every value inside of another one and of every
list: then nothing that comes later can find too little room. So a buffer that is too short stays as it was, any other
one gets the pickle at its start and keeps what stands behind it, and a fresh buffer of the stated size is filled.
-/

namespace RoomCrypt

section

variable {α : Type} [ToPickle α] {value : α} {form : Bytes}

/-- A value is written as a whole or not at all. -/
structure AllOrNothing (value : α) : Prop where
  /-- A buffer that is too short is refused, with both numbers, and stays as it was. -/
  refused : ∀ target : Bytes, target.length < ToPickle.size value →
    Pickler.encode value target =
      (.error (.bufferTooShort (ToPickle.size value) target.length), target)
  /-- Any other buffer gets the pickle at its start, whatever it held before, and stays as it was behind it. -/
  written : ∀ target : Bytes, ToPickle.size value ≤ target.length →
    Pickler.encode value target =
      (.ok (ToPickle.size value), toPickle value ++ target.drop (ToPickle.size value))
  /-- The pickle has the size that was stated. -/
  length_eq : (toPickle value).length = ToPickle.size value
  /-- It is what fills a fresh buffer of that size, which cannot fail. -/
  fresh : Pickler.encode value (List.replicate (ToPickle.size value) 0) =
    (.ok (ToPickle.size value), toPickle value)

/-- A value that has a form is written as a whole or not at all. -/
theorem HasForm.allOrNothing (h : HasForm value form) : AllOrNothing value := by
  have hwritten (target : Bytes) (htarget : ToPickle.size value ≤ target.length) :
      Pickler.encode value target =
        (.ok (ToPickle.size value), toPickle value ++ target.drop (ToPickle.size value)) := by
    rw [h.size_eq] at htarget ⊢
    rw [h.toPickle_eq]
    exact h.encode htarget
  refine ⟨fun target hshort => ?_, hwritten, ?_, ?_⟩
  · rw [Pickler.encode_eq, if_pos hshort]
  · rw [h.toPickle_eq, h.size_eq]
  · have hfresh := hwritten (List.replicate (ToPickle.size value) 0) (Nat.le_of_eq List.length_replicate.symm)
    rwa [List.drop_of_length_le (Nat.le_of_eq List.length_replicate), List.append_nil] at hfresh

end

open Olm Megolm

/-- All that can be pickled is written as a whole or not at all: numbers, truth values and keys, message keys of any
length, chains, ratchets and sessions. Of a ratchet and of a session with one, the lists have to be such as can be
counted in 32 bits. -/
theorem encoding_is_all_or_nothing :
    (∀ n : UInt32, AllOrNothing n) ∧
      (∀ b : Bool, AllOrNothing b) ∧
      (∀ key : Curve25519Key, AllOrNothing key) ∧
      (∀ key : Ed25519Key, AllOrNothing key) ∧
      (∀ chain : ChainKey, AllOrNothing chain) ∧
      (∀ key : MessageKey, AllOrNothing key) ∧
      (∀ root : RootKey, AllOrNothing root) ∧
      (∀ pair : RatchetKeyPair, AllOrNothing pair) ∧
      (∀ chain : SenderChain, AllOrNothing chain) ∧
      (∀ chain : ReceiverChain, AllOrNothing chain) ∧
      (∀ key : SkippedKey, AllOrNothing key) ∧
      (∀ ratchet : Olm.Ratchet, ratchet.Countable → AllOrNothing ratchet) ∧
      (∀ channel : Channel, channel.ratchet.Countable → AllOrNothing channel) ∧
      (∀ ratchet : Megolm.Ratchet, AllOrNothing ratchet) ∧
      ∀ receiver : Receiver, AllOrNothing receiver :=
  ⟨fun n => (hasForm_uint32 n).allOrNothing, fun b => (hasForm_bool b).allOrNothing,
    fun key => key.hasForm.allOrNothing, fun key => key.hasForm.allOrNothing,
    fun chain => chain.hasForm.allOrNothing, fun key => key.hasForm.allOrNothing,
    fun root => root.hasForm.allOrNothing, fun pair => pair.hasForm.allOrNothing,
    fun chain => chain.hasForm.allOrNothing, fun chain => chain.hasForm.allOrNothing,
    fun key => key.hasForm.allOrNothing,
    fun ratchet hcount => (ratchet.hasForm hcount.receivers_lt hcount.skipped_lt).allOrNothing,
    fun channel hcount => (channel.hasForm hcount.receivers_lt hcount.skipped_lt).allOrNothing,
    fun ratchet => ratchet.hasForm.allOrNothing, fun receiver => receiver.hasForm.allOrNothing⟩

end RoomCrypt

namespace RoomCrypt

open Olm
open scoped Suite.Evaluation

/-- A channel with a chain for sending, one for receiving and two skipped keys finds one byte too few in its buffer and
leaves it alone; where there are two bytes more than it needs, these stay. -/
theorem encoding_is_all_or_nothing_answered :
    answeredChannel.ratchet.Countable ∧ ToPickle.size answeredChannel = 449 ∧
      Pickler.encode answeredChannel (List.replicate 448 0xAA) =
        (.error (.bufferTooShort 449 448), List.replicate 448 0xAA) ∧
      Pickler.encode answeredChannel (List.replicate 451 0xAA) =
        (.ok 449, toPickle answeredChannel ++ [0xAA, 0xAA]) ∧
      (toPickle answeredChannel).length = 449 := by
  obtain ⟨-, hreceivers, hskipped, hsize⟩ := answeredChannel_counts
  have hcount : answeredChannel.ratchet.Countable :=
    ⟨hreceivers ▸ by decide, hskipped ▸ by decide⟩
  obtain ⟨-, -, -, -, -, -, -, -, -, -, -, -, hchannels, -, -⟩ := encoding_is_all_or_nothing
  have hwhole := hchannels answeredChannel hcount
  have hrefused := hwhole.refused (List.replicate 448 0xAA)
  have hwritten := hwhole.written (List.replicate 451 0xAA)
  have hlength := hwhole.length_eq
  simp only [hsize, List.length_replicate, List.drop_replicate] at hrefused hwritten hlength
  exact ⟨hcount, hsize, hrefused (by decide), hwritten (by decide), hlength⟩

end RoomCrypt
