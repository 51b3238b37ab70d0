import RoomCrypt.Proofs.Megolm.Exchange
import RoomCrypt.Proofs.Pickle.Reading

/-!
# The pickles of receivers

A ratchet is written as its four parts and its place, and a receiver as its version, its two ratchets,
the signing key and the flag. What is read as a receiver has a point of the curve for its signing key,
and its latest ratchet does not lie before the initial one.
-/

namespace RoomCrypt.Megolm

open Unpickler (Reads reads_octets reads_uint32 reads_bool)

namespace Ratchet

/-- The parts and the place. -/
def form (ratchet : Ratchet) : Bytes :=
  ratchet.bytes.bytes ++ Bytes.ofUInt32 ratchet.index

@[simp] theorem length_form (ratchet : Ratchet) : ratchet.form.length = 132 := by
  simp [form]

theorem hasForm (ratchet : Ratchet) : HasForm ratchet ratchet.form where
  size_eq := ratchet.length_form.symm
  writes := by
    have hwrites := (Pickler.writes_bytes ratchet.part0.bytes).followed
      ((Pickler.writes_bytes ratchet.part1.bytes).followed
        ((Pickler.writes_bytes ratchet.part2.bytes).followed
          ((Pickler.writes_bytes ratchet.part3.bytes).followed (Pickler.writes_uint32 ratchet.index))))
    simp only [form, bytes, List.append_assoc]
    exact hwrites

/-- The parts that are made from bytes have these bytes. -/
theorem bytes_ofBytes (octets : Octets 128) (index : UInt32) : (ofBytes octets index).bytes = octets := by
  apply Octets.ext
  have hjoin (start : ℕ) : (octets.bytes.drop start).take 32 ++ octets.bytes.drop (start + 32) =
      octets.bytes.drop start := by
    rw [← List.drop_drop]
    exact List.take_append_drop 32 _
  have hlast : (octets.bytes.drop 96).take 32 = octets.bytes.drop 96 :=
    List.take_of_length_le (by simp)
  simp only [bytes, ofBytes, Octets.slice, List.append_assoc]
  rw [hlast, hjoin 64, hjoin 32, hjoin 0, List.drop_zero]

theorem reads : Reads OfPickle.read form fun _ => True :=
  ((reads_octets 128).pair reads_uint32 ofBytes_bytes fun octets index => ⟨bytes_ofBytes octets index, rfl⟩).congr
    fun _ => (and_iff_left trivial).symm

end Ratchet

namespace Receiver

/-- The version, the ratchets, the signing key and the flag. -/
def form (receiver : Receiver) : Bytes :=
  Bytes.ofUInt32 pickleVersion ++ receiver.initial.form ++ receiver.latest.form ++
    receiver.signingKey.octets.bytes ++ [if receiver.verified then 1 else 0]

/-- A receiver that can be restored: what its pickle is checked for. -/
structure Restorable [Suite] (receiver : Receiver) : Prop where
  signingKey_point : Suite.isPoint receiver.signingKey = true
  initial_le : receiver.initial.index ≤ receiver.latest.index

theorem hasForm (receiver : Receiver) : HasForm receiver receiver.form where
  size_eq := by simp [form, ToPickle.size]
  writes := by
    have hwrites := (Pickler.writes_uint32 pickleVersion).followed
      (receiver.initial.hasForm.writes_value.followed
        (receiver.latest.hasForm.writes_value.followed
          (receiver.signingKey.hasForm.writes_value.followed (Pickler.writes_bool receiver.verified))))
    simp only [form, List.append_assoc]
    exact hwrites

/-- The flag is the last byte. -/
theorem getElem?_form_append (receiver : Receiver) (rest : Bytes) :
    (receiver.form ++ rest)[300]? = some (if receiver.verified then 1 else 0) := by
  have hfront : (Bytes.ofUInt32 pickleVersion ++ receiver.initial.form ++ receiver.latest.form ++
      receiver.signingKey.octets.bytes).length = 300 := by simp
  rw [form, List.append_assoc, List.getElem?_append_right (Nat.le_of_eq hfront), hfront]
  rfl

/-- What is read as a receiver is the form of one that can be restored. -/
theorem reads [Suite] : Reads OfPickle.read form Restorable := by
  apply Reads.of_iff
  intro source receiver rest
  simp only [OfPickle.read, InPlace.on_bind_eq_ok_iff, reads_uint32.iff, reads_bool.iff, Ratchet.reads.value.iff,
    Ed25519Key.reads.value.iff, InPlace.on_unless_eq_ok_iff, InPlace.on_pure_eq_ok_iff, true_and, ne_eq,
    Decidable.not_not, UInt32.not_lt]
  constructor
  · rintro ⟨_, _, rfl, rfl, initial, _, rfl, latest, _, rfl, horder, signingKey, _, ⟨hpoint, rfl⟩, verified, _,
      rfl, rfl, rfl⟩
    refine ⟨⟨hpoint, horder⟩, ?_⟩
    simp only [form, List.append_assoc]
  · rintro ⟨h, rfl⟩
    refine ⟨pickleVersion, _, ?_, rfl, receiver.initial, _, rfl, receiver.latest, _, rfl, h.initial_le,
      receiver.signingKey, _, ⟨h.signingKey_point, rfl⟩, receiver.verified, rest, rfl, rfl, rfl⟩
    simp only [form, List.append_assoc]

end Receiver

end RoomCrypt.Megolm
