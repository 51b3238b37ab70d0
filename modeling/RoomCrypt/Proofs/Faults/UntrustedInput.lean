import RoomCrypt.Proofs.Faults.GroupRatchet
import RoomCrypt.Proofs.Faults.Messages
import RoomCrypt.Proofs.Faults.Ratchet
import RoomCrypt.Proofs.Faults.Unpickling
import RoomCrypt.Proofs.Laws

/-!
# No input makes the program fault

Messages, session keys and pickles come from anyone, and so do the ratchets that are read from pickles.
Whatever they are, each operation that asks for something gets it, and what is written with these operations
is what decoding and decryption are.
-/

namespace RoomCrypt

section

variable [Suite]

open Olm Megolm

/-- A value is decoded from any bytes without a fault, and from no more of them than there are. -/
def DecodesFrom (α : Type) [OfPickle α] [OfCursor α] (source : Bytes) : Prop :=
  Reading.Decodes (OfCursor.reading : Reading α) OfPickle.read source

omit [Suite] in
theorem decodesFrom (α : Type) [OfPickle α] [OfCursor α] (source : Bytes) : DecodesFrom α source :=
  OfCursor.follows.decodes source

/-- No untrusted input makes an operation fault: no difference is below zero, no place, part or shift is out of range,
and nothing has another length than is expected. Messages and session keys are decoded from any bytes as they should
be. Each decoder answers for any bytes what unpickling reads from them, and consumes no more than there are,
under any bounds. Any ratchet, channel or receiver, be it one that could only come out of a pickle, goes through any
messages and comes to what decryption says. And the loop that moves a chain up to a message takes as many rounds
as the message lies beyond the chain, which are no more than the bound allows, or else the message is refused in front of the
loop. -/
theorem untrusted_input_never_faults (config : RatchetConfig) :
    (∀ bytes, OlmMessage.ofBytesGuarded bytes = .ok (OlmMessage.ofBytes? bytes) ∧
      MegolmMessage.ofBytesGuarded bytes = .ok (MegolmMessage.ofBytes? bytes) ∧
      SharedKey.ofBytesGuarded bytes = .ok (SharedKey.ofBytes? bytes) ∧
      ExportedKey.ofBytesGuarded bytes = .ok (ExportedKey.ofBytes? bytes)) ∧
    (∀ source, DecodesFrom UInt32 source ∧ DecodesFrom Bool source ∧ DecodesFrom Curve25519Key source ∧
      DecodesFrom Ed25519Key source ∧ DecodesFrom ChainKey source ∧ DecodesFrom MessageKey source ∧
      DecodesFrom RootKey source ∧ DecodesFrom RatchetKeyPair source ∧ DecodesFrom SenderChain source ∧
      DecodesFrom ReceiverChain source ∧ DecodesFrom SkippedKey source ∧
      DecodesFrom Megolm.Ratchet source ∧ DecodesFrom Receiver source ∧
      (Olm.Ratchet.reading config).Decodes (Olm.Ratchet.readWith config) source ∧
      (Channel.reading config).Decodes (Channel.readWith config) source) ∧
    (∀ (messages : List OlmMessage) (ratchet : Olm.Ratchet) (channel : Channel),
      Guarded.each Olm.Ratchet.decryptGuarded messages ratchet =
          .ok (InPlace.settleAll Olm.Ratchet.decrypt messages ratchet) ∧
        Guarded.each Channel.decryptGuarded messages channel =
          .ok (InPlace.settleAll Channel.decrypt messages channel)) ∧
    (∀ (messages : List MegolmMessage) (receiver : Receiver),
      Guarded.each Receiver.decryptGuarded messages receiver =
        .ok (InPlace.settleAll Receiver.decrypt messages receiver)) ∧
    ∀ (chain : ReceiverChain) (message : OlmMessage), chain.index ≤ message.index →
      ∃ rounds, chain.index.toNat + rounds = message.index.toNat ∧ chain.StopsAfter message.index rounds ∧
        (rounds ≤ config.maxGap.toNat ∨ ∀ ratchet : Olm.Ratchet,
          (Ratchet.decryptOnGuarded config chain message).on ratchet =
            .ok (.error (.tooManySkippedMessages (message.index - chain.index) config.maxGap), ratchet)) := by
  refine ⟨fun bytes => ?_, fun source => ?_, fun messages ratchet channel => ?_, fun messages receiver => ?_,
    fun chain message hplace => ?_⟩
  · exact ⟨OlmMessage.ofBytesGuarded_eq bytes, MegolmMessage.ofBytesGuarded_eq bytes,
      SharedKey.ofBytesGuarded_eq bytes, ExportedKey.ofBytesGuarded_eq bytes⟩
  · exact ⟨decodesFrom _ _, decodesFrom _ _, decodesFrom _ _, decodesFrom _ _, decodesFrom _ _, decodesFrom _ _,
      decodesFrom _ _, decodesFrom _ _, decodesFrom _ _, decodesFrom _ _, decodesFrom _ _, decodesFrom _ _,
      decodesFrom _ _, (Ratchet.follows_reading config).decodes source,
      (Channel.follows_reading config).decodes source⟩
  · exact ⟨ratchet.each_decryptGuarded messages, channel.each_decryptGuarded messages⟩
  · exact receiver.each_decryptGuarded messages
  · have hsum := chain.index_add_gap message hplace
    exact ⟨chain.gap message, hsum, ReceiverChain.stopsAfter hsum, Ratchet.rounds_le_or_refused config hplace hsum⟩

end

section

open Olm
open scoped Suite.Evaluation

/-- A ratchet with no chain for sending and one for receiving that stands in front of the last place, which no
honest run has reached, and another byte. -/
def nearWrapPickle : Bytes :=
  List.replicate 32 7 ++ [0, 0, 0, 0] ++ [0, 0, 0, 1] ++ List.replicate 64 8 ++ [0xFF, 0xFF, 0xFF, 0xFE] ++
    [0, 0, 0, 0] ++ [9]

/-- The chain of the ratchet. -/
def nearWrapChain : ReceiverChain :=
  ⟨⟨⟨List.replicate 32 8, rfl⟩⟩, ⟨⟨List.replicate 32 8, rfl⟩, 0xfffffffe⟩⟩

/-- The ratchet. -/
def nearWrapRatchet : Ratchet :=
  ⟨⟨⟨List.replicate 32 7, rfl⟩⟩, none, [nearWrapChain], .withCapacity SkippedKeys.defaultCapacity, {}⟩

/-- A message on the chain, from a number of places behind it. -/
def nearWrapMessage (count : ℕ) (text : Bytes) : OlmMessage :=
  (nearWrapChain.ahead count).messageKey.encrypt nearWrapChain.ratchetKey text

/-- A ratchet in front of the last place is decoded and leaves the last byte. It reads the message at the last place,
for which its chain is moved by one round, and its chain then stands at place 0. The same message is now too far ahead,
and the one that was passed over is read. -/
theorem untrusted_input_never_faults_near_wrap :
    (Ratchet.reading {}).decode nearWrapPickle = .ok (.ok (nearWrapRatchet, 112)) ∧
    (Guarded.each Ratchet.decryptGuarded
        [nearWrapMessage 1 [1], nearWrapMessage 1 [1], nearWrapMessage 0 [2]] nearWrapRatchet).map (·.1) =
      .ok [.ok [1], .error (.tooManySkippedMessages 0xffffffff 2000), .ok [2]] ∧
    (∃ rounds, nearWrapChain.index.toNat + rounds = (nearWrapMessage 1 [1]).index.toNat ∧ rounds = 1 ∧
      nearWrapChain.StopsAfter (nearWrapMessage 1 [1]).index rounds) ∧
    (nearWrapChain.ahead 2).index = 0 := by
  obtain ⟨-, hdecoders, hmessages, -, hloop⟩ := untrusted_input_never_faults {}
  refine ⟨?_, ?_, ?_, by decide +kernel⟩
  · obtain ⟨-, -, -, -, -, -, -, -, -, -, -, -, -, hratchet, -⟩ := hdecoders nearWrapPickle
    have hread : Unpickler.decodeWith (Ratchet.readWith {}) nearWrapPickle = .ok (nearWrapRatchet, [9]) := by
      decide +kernel
    rcases hratchet with ⟨value, consumed, hconsumed, hdecode, hvalue⟩ | ⟨e, -, herror⟩
    · rw [hread] at hvalue
      obtain ⟨rfl, hrest⟩ := Prod.mk.inj (Except.ok.inj hvalue)
      have hlength := congrArg List.length hrest
      rw [List.length_drop, show nearWrapPickle.length = 113 from rfl, List.length_singleton] at hlength
      obtain rfl : consumed = 112 := by omega
      exact hdecode
    · rw [hread] at herror
      cases herror
  · rw [(hmessages _ nearWrapRatchet default).1]
    decide +kernel
  · obtain ⟨rounds, hsum, hstops, -⟩ := hloop nearWrapChain (nearWrapMessage 1 [1]) (by decide +kernel)
    have hfrom : nearWrapChain.index.toNat = 0xfffffffe := rfl
    have hto : (nearWrapMessage 1 [1]).index.toNat = 0xffffffff := by decide +kernel
    exact ⟨rounds, hsum, by omega, hstops⟩

end

end RoomCrypt
