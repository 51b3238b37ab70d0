import RoomCrypt.Proofs.Laws
import RoomCrypt.Proofs.Megolm.Pickles
import RoomCrypt.Proofs.Olm.Pickles

/-!
# A pickle is canonical

Whatever byte string a value is read from, be it one that was ever written or not, what was taken of it is
the one pickle of the value. So no value has two pickles, and keys are kept as the bytes that were given,
even if other bytes write the same field element.
-/

namespace RoomCrypt

open Unpickler (Reads decodeWith)

section

variable {α : Type} [ToPickle α] {read : Unpickler α} {source rest : Bytes} {value : α}

/-- A value was read from the front of a byte string, and what was taken is its pickle. -/
structure TakesPickle (read : Unpickler α) (source : Bytes) (value : α) (rest : Bytes) : Prop where
  /-- No more was taken than there was. -/
  size_le : ToPickle.size value ≤ source.length
  /-- What comes behind is left. -/
  rest_eq : rest = source.drop (ToPickle.size value)
  /-- Writing the value gives the bytes that were taken, in any buffer that is long enough. -/
  written : ∀ target : Bytes, ToPickle.size value ≤ target.length →
    Pickler.encode value target =
      (.ok (ToPickle.size value), source.take (ToPickle.size value) ++ target.drop (ToPickle.size value))
  /-- The value is read from no other bytes. -/
  unique : ∀ other left, decodeWith read other = .ok (value, left) →
    other.take (ToPickle.size value) = source.take (ToPickle.size value) ∧
      left = other.drop (ToPickle.size value)

/-- What is read is the form of a valid value, and so its pickle. -/
theorem Unpickler.Reads.takesPickle {form : α → Bytes} {valid : α → Prop} (hread : Reads read form valid)
    (hform : ∀ value, valid value → HasForm value (form value)) (h : decodeWith read source = .ok (value, rest)) :
    valid value ∧ source = form value ++ rest ∧ TakesPickle read source value rest := by
  obtain ⟨hvalid, rfl⟩ := hread.forms _ _ _ (decodeWith_eq_ok_iff.mp h)
  have hvalue := hform value hvalid
  have htake (left : Bytes) : (form value ++ left).take (ToPickle.size value) = form value :=
    List.take_left' hvalue.size_eq.symm
  have hdrop (left : Bytes) : (form value ++ left).drop (ToPickle.size value) = left :=
    List.drop_left' hvalue.size_eq.symm
  refine ⟨hvalid, rfl, ?_, (hdrop rest).symm, ?_, ?_⟩
  · rw [hvalue.size_eq, List.length_append]
    exact Nat.le_add_right _ _
  · intro target htarget
    rw [htake, hvalue.size_eq]
    exact hvalue.encode (hvalue.size_eq ▸ htarget)
  · intro other left hother
    obtain ⟨-, rfl⟩ := hread.forms _ _ _ (decodeWith_eq_ok_iff.mp hother)
    rw [htake, htake, hdrop]
    exact ⟨rfl, rfl⟩

end

variable [Suite]

open Olm Megolm

/-- If a channel, a ratchet or a receiver is read from the front of any byte string, under any bounds, then
what was taken is its pickle: the version, the truth values as 0 or 1, the keys as their bytes and the lists
with their lengths. And it satisfies all checks: the lists keep to the bounds, our public key is the one of
its secret as a field element, the signing key is a point and the latest ratchet is not before the initial
one. -/
theorem pickles_are_canonical (config : RatchetConfig) (source rest : Bytes) :
    (∀ channel : Channel, decodeWith (Channel.readWith config) source = .ok (channel, rest) →
      TakesPickle (Channel.readWith config) source channel rest ∧ source = channel.form ++ rest ∧
        source.take 4 = Bytes.ofUInt32 Channel.pickleVersion ∧
        source[4]? = some (if channel.received then 1 else 0) ∧
        channel.ratchet.Restorable config) ∧
      (∀ ratchet : Olm.Ratchet, decodeWith (Olm.Ratchet.readWith config) source = .ok (ratchet, rest) →
        TakesPickle (Olm.Ratchet.readWith config) source ratchet rest ∧ source = ratchet.form ++ rest ∧
          ratchet.Restorable config) ∧
      ∀ receiver : Receiver, decodeWith OfPickle.read source = .ok (receiver, rest) →
        TakesPickle OfPickle.read source receiver rest ∧ source = receiver.form ++ rest ∧
          source.take 4 = Bytes.ofUInt32 Receiver.pickleVersion ∧
          source[300]? = some (if receiver.verified then 1 else 0) ∧
          receiver.Restorable := by
  refine ⟨?_, ?_, ?_⟩
  · intro channel hread
    obtain ⟨hvalid, hsource, htakes⟩ := (Channel.reads config).takesPickle
      (fun channel h => channel.hasForm h.receivers_lt h.skipped_lt) hread
    exact ⟨htakes, hsource, by rw [hsource]; rfl, by rw [hsource]; rfl, hvalid⟩
  · intro ratchet hread
    obtain ⟨hvalid, hsource, htakes⟩ := (Olm.Ratchet.reads config).takesPickle
      (fun ratchet h => ratchet.hasForm h.receivers_lt h.skipped_lt) hread
    exact ⟨htakes, hsource, hvalid⟩
  · intro receiver hread
    obtain ⟨hvalid, hsource, htakes⟩ := Receiver.reads.takesPickle (fun receiver _ => receiver.hasForm) hread
    exact ⟨htakes, hsource, by rw [hsource]; rfl, by rw [hsource, receiver.getElem?_form_append],
      hvalid⟩

end RoomCrypt

namespace RoomCrypt

open Unpickler (decodeWith)
open Olm
open scoped Suite.Evaluation

/-- A key pair whose public key has other bytes than the one that is made of the secret, for the same field
element. -/
def otherPair : RatchetKeyPair :=
  ⟨⟨.ofNatLE 32 5⟩, ⟨.ofNatLE 32 (2 ^ 255 - 19 + 5)⟩⟩

/-- A ratchet that no one comes to have: it has this pair, and three chains of one ratchet key. -/
def otherRatchet : Olm.Ratchet where
  rootKey := ⟨.ofNatLE 32 1⟩
  sender := some ⟨otherPair, ⟨.ofNatLE 32 2, 3⟩⟩
  receivers := List.replicate 3 ⟨otherPair.publicKey, ⟨.ofNatLE 32 4, 5⟩⟩
  skipped := .ofKeys [⟨otherPair.publicKey, ⟨List.replicate 32 6, 7⟩⟩] 40
  config := {}

/-- It is read from its pickle, and the public key is written with the bytes that it has. -/
theorem pickles_are_canonical_other_bytes :
    otherPair.publicKey ≠ Suite.publicKey otherPair.secret ∧ otherPair.IsPair ∧
      decodeWith (Olm.Ratchet.readWith {}) (otherRatchet.form ++ [9]) = .ok (otherRatchet, [9]) ∧
      TakesPickle (Olm.Ratchet.readWith {}) (otherRatchet.form ++ [9]) otherRatchet [9] ∧
      ((toPickle otherRatchet).drop 36).take 32 = otherPair.publicKey.octets.bytes := by
  have hrestorable : otherRatchet.Restorable {} :=
    { config_eq := rfl
      capacity_eq := rfl
      receivers_le := by decide
      receivers_lt := by decide
      skipped_le := by decide
      skipped_lt := by decide
      sender_pair := by
        rintro _ ⟨⟩
        exact (by decide +kernel : otherPair.IsPair)
      skipped_length := by decide }
  have hread : decodeWith (Olm.Ratchet.readWith {}) (otherRatchet.form ++ [9]) = .ok (otherRatchet, [9]) :=
    Unpickler.decodeWith_eq_ok_iff.mpr ((Olm.Ratchet.reads {}).back otherRatchet [9] hrestorable)
  have htakes := ((pickles_are_canonical {} (otherRatchet.form ++ [9]) [9]).2.1 otherRatchet hread).1
  have hform := (otherRatchet.hasForm hrestorable.receivers_lt hrestorable.skipped_lt).toPickle_eq
  exact ⟨by decide +kernel, by decide +kernel, hread, htakes, by rw [hform]; rfl⟩

end RoomCrypt
