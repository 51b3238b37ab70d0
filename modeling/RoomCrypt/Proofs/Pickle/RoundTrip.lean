import RoomCrypt.Proofs.Megolm.Cache
import RoomCrypt.Proofs.Megolm.Pickles
import RoomCrypt.Proofs.Olm.Bounds
import RoomCrypt.Proofs.Olm.Pickles

/-!
# Pickling loses nothing

What is written of a value is read back as the value, and nothing of what follows is taken. A channel can
be written whatever has been done with it: it keeps to the bounds under which it is read, its key pair for
sending is one, and its skipped keys have the length in which they are written. So can a receiver, because
its latest ratchet never gets before the initial one.
-/

namespace RoomCrypt

open Unpickler (Reads decodeWith decodeAllWith)

section

variable {α : Type} {read : Unpickler α}

/-- If a value is read from the front, it is accepted alone and refused with anything behind it. -/
theorem Unpickler.decodeAllWith_of_decodeWith {source rest : Bytes} {value : α}
    (h : decodeWith read source = .ok (value, rest)) :
    decodeAllWith read source = if rest = [] then .ok value else .error (.malformed .trailingBytes) := by
  unfold decodeAllWith
  rw [h]
  cases rest <;> rfl

variable [ToPickle α] {value : α}

/-- A value is restored from its pickle. -/
structure Restores (read : Unpickler α) (value : α) : Prop where
  /-- The pickle has the size that was stated in advance. -/
  length_eq : (toPickle value).length = ToPickle.size value
  /-- It is written into any buffer that is long enough, and nothing else is. -/
  written : ∀ target : Bytes, ToPickle.size value ≤ target.length →
    Pickler.encode value target =
      (.ok (ToPickle.size value), toPickle value ++ target.drop (ToPickle.size value))
  /-- The value is read from it, and what follows is left. -/
  front : ∀ rest, decodeWith read (toPickle value ++ rest) = .ok (value, rest)
  /-- The pickle alone is accepted. -/
  whole : decodeAllWith read (toPickle value) = .ok value
  /-- The pickle with anything behind it is refused. -/
  trailing : ∀ rest, rest ≠ [] → decodeAllWith read (toPickle value ++ rest) = .error (.malformed .trailingBytes)

/-- A valid value is restored, if it is written as its form and forms are read. -/
theorem HasForm.restores {form : α → Bytes} {valid : α → Prop} (hform : HasForm value (form value))
    (hread : Reads read form valid) (hvalid : valid value) : Restores read value := by
  have hfront (rest : Bytes) : decodeWith read (toPickle value ++ rest) = .ok (value, rest) := by
    rw [hform.toPickle_eq]
    exact Unpickler.decodeWith_eq_ok_iff.mpr (hread.back value rest hvalid)
  refine ⟨?_, ?_, hfront, ?_, ?_⟩
  · rw [hform.toPickle_eq, hform.size_eq]
  · intro target htarget
    rw [hform.size_eq] at htarget ⊢
    rw [hform.toPickle_eq]
    exact hform.encode htarget
  · have halone := Unpickler.decodeAllWith_of_decodeWith (hfront [])
    rwa [List.append_nil] at halone
  · intro rest hrest
    rw [Unpickler.decodeAllWith_of_decodeWith (hfront rest), if_neg hrest]

end

variable [Suite]

namespace Olm

/-- A key pair that is made of a secret is one. -/
theorem RatchetKeyPair.isPair_ofSecret (secret : Curve25519Secret) : (ofSecret secret).IsPair :=
  Curve25519Key.same_refl _

namespace Ratchet

/-- The key pair of the chain for sending is one. -/
def Paired (ratchet : Ratchet) : Prop :=
  ∀ chain ∈ ratchet.sender, chain.keyPair.IsPair

/-- That withstands all uses: a new key pair is made of a secret. -/
theorem stable_paired : Stable (fun _ => True) Paired where
  configured _ h := h
  sent hencrypt h := by
    rcases eq_of_encrypt hencrypt with ⟨chain, hsender, rfl⟩ | ⟨ratchetKey, rfl⟩
    · rintro _ ⟨⟩
      exact h chain hsender
    · rintro _ ⟨⟩
      exact RatchetKeyPair.isPair_ofSecret _
  read haccepts h := by
    cases haccepts with
    | skipped key hkey hplain => exact h
    | held place chain hkey hchain hplace hgap hplain => exact h
    | opened sender hkey hchain hsender hgap hplain => nofun

/-- A ratchet can be restored under its own bounds, if its lists can be counted in 32 bits. -/
theorem Bounded.restorable {ratchet : Ratchet} (h : Bounded ratchet) (hpaired : Paired ratchet)
    (hreceivers : ratchet.receivers.length < UInt32.size)
    (hskipped : ratchet.skipped.keys.length < UInt32.size) : Restorable ratchet.config ratchet where
  config_eq := rfl
  capacity_eq := h.capacity_eq
  receivers_le := h.receivers_le
  receivers_lt := hreceivers
  skipped_le := h.skipped_le
  skipped_lt := hskipped
  sender_pair := hpaired
  skipped_length := h.skipped_length

end Ratchet

/-- The side that opens a channel makes its first key pair of a secret. -/
theorem ChannelOrigin.paired (origin : ChannelOrigin) : origin.origin.ratchet.Paired := by
  cases origin with
  | outbound keys secret entropy =>
    rintro _ ⟨⟩
    exact RatchetKeyPair.isPair_ofSecret _
  | inbound keys secret theirs => nofun

/-- Whatever was done with a channel, it can be restored under its own bounds. -/
theorem Channel.restorable_useAll (origin : ChannelOrigin) (uses : List RatchetUse) :
    let ratchet := (origin.channel.useAll uses).ratchet
    ratchet.receivers.length < UInt32.size → ratchet.skipped.keys.length < UInt32.size →
      ratchet.Restorable ratchet.config := by
  intro ratchet
  have hratchet : ratchet = origin.origin.ratchet.useAll uses := by
    rw [← origin.ratchet_channel]
    exact Channel.ratchet_useAll _ _
  rw [hratchet]
  exact (Ratchet.stable_bounded.useAll (Ratchet.bounded_origin _) fun _ _ => trivial).restorable
    (Ratchet.stable_paired.useAll origin.paired fun _ _ => trivial)

end Olm

/-- Whatever messages have come to a receiver, it can be restored if its signing key is a point. -/
theorem Megolm.Receiver.restorable_afterMessages (origin : ReceiverOrigin)
    (hpoint : Suite.isPoint origin.receiver.signingKey = true) (messages : List MegolmMessage) :
    (origin.receiver.afterMessages messages).Restorable where
  signingKey_point := (origin.receiver.precedes_afterMessages messages).signingKey_eq ▸ hpoint
  initial_le := ((cached_origin origin).afterMessages messages).initial_le

open Olm Megolm

/-- A channel is restored from its pickle under its own bounds, whatever was done with it, as long as its
lists can be counted in 32 bits; and so is a receiver, whatever has come to it. Its signing key has to be a
point of the curve, as that of every session key is that can be read or made. -/
theorem pickles_lose_nothing (origin : ChannelOrigin) (uses : List RatchetUse) (source : ReceiverOrigin)
    (messages : List MegolmMessage) :
    let channel := origin.channel.useAll uses
    let receiver := source.receiver.afterMessages messages
    (channel.ratchet.receivers.length < UInt32.size → channel.ratchet.skipped.keys.length < UInt32.size →
        Restores (Channel.readWith channel.ratchet.config) channel) ∧
      (Suite.isPoint source.receiver.signingKey = true → Restores OfPickle.read receiver) := by
  intro channel receiver
  refine ⟨fun hreceivers hskipped => ?_, fun hpoint => ?_⟩
  · exact (channel.hasForm hreceivers hskipped).restores (Channel.reads _)
      (Channel.restorable_useAll origin uses hreceivers hskipped)
  · exact receiver.hasForm.restores Receiver.reads (Receiver.restorable_afterMessages source hpoint messages)

end RoomCrypt

namespace RoomCrypt

open Olm Megolm
open scoped Suite.Evaluation

/-- A channel that has received a message, passing over two others, and has answered. -/
def answeredChannel : Channel :=
  (ChannelOrigin.inbound ⟨boundsKey, boundsKey, boundsKey⟩ [7] boundsKey).channel.useAll
    [.decrypt boundsFirst, .encrypt [2] default]

/-- It has one chain for receiving and two skipped keys, under the default bounds. -/
theorem answeredChannel_counts :
    answeredChannel.ratchet.config = {} ∧ answeredChannel.ratchet.receivers.length = 1 ∧
      answeredChannel.ratchet.skipped.keys.length = 2 ∧ ToPickle.size answeredChannel = 449 := by
  decide +kernel

/-- A receiver whose latest ratchet is in the next round. -/
def movedReceiver : Receiver :=
  (ReceiverOrigin.exported cacheSession.exportedKey).receiver.afterMessages [cacheMessage 3, cacheForged]

/-- With a chain for sending, one for receiving and two skipped keys the channel comes back, and so does the
receiver with both of its ratchets. -/
theorem pickles_lose_nothing_answered :
    answeredChannel.ratchet.sender.isSome = true ∧ answeredChannel.ratchet.receivers.length = 1 ∧
      answeredChannel.ratchet.skipped.keys.length = 2 ∧ answeredChannel.received = true ∧
      Channel.ofPickleWith? {} (toPickle answeredChannel) = .ok answeredChannel ∧
      movedReceiver.latest.index = 256 ∧ Suite.isPoint movedReceiver.signingKey = true ∧
      ofPickle? Receiver (toPickle movedReceiver ++ [9]) = .ok (movedReceiver, [9]) := by
  obtain ⟨hconfig, hreceivers, hskipped, -⟩ := answeredChannel_counts
  obtain ⟨hchannel, hreceiver⟩ :=
    pickles_lose_nothing (.inbound ⟨boundsKey, boundsKey, boundsKey⟩ [7] boundsKey)
      [.decrypt boundsFirst, .encrypt [2] default] (.exported cacheSession.exportedKey)
      [cacheMessage 3, cacheForged]
  have hrestored : Restores (Channel.readWith answeredChannel.ratchet.config) answeredChannel :=
    hchannel (Nat.lt_of_le_of_lt (Nat.le_of_eq hreceivers) (by decide))
      (Nat.lt_of_le_of_lt (Nat.le_of_eq hskipped) (by decide))
  rw [hconfig] at hrestored
  exact ⟨by decide +kernel, hreceivers, hskipped, by decide +kernel, hrestored.whole, by decide +kernel, rfl,
    (hreceiver rfl).front [9]⟩

end RoomCrypt
