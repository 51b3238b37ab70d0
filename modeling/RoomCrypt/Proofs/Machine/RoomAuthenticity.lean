import RoomCrypt.Proofs.Laws
import RoomCrypt.Proofs.Machine.RoomRuns

/-!
# Messages to rooms are authentic

A machine that starts over an empty store has no room key but those that it imports, each of them under the
room, the sender and the session that it was imported for. What it decrypts, it decrypts with the latest of
these: the signature is by the key that the session is called after, and the MAC and the text are those of
the imported ratchet, moved on to the place of the message.
-/

namespace RoomCrypt

open Store

section

variable [Suite]

/-- After any imports, restored backups and messages over an empty store, a message is decrypted only with
the key of the latest import that was taken for just this room, sender and session: its signature verifies
under the key whose text is the name of the session, it does not lie before the first place of the imported
key, and it has the MAC and the text of the ratchet of that key at its place. -/
theorem decrypts_with_latest_import (user : UserId) (events : List RoomEvent) (around : Surroundings)
    (room : RoomId) (senderKey : Curve25519Key) (sessionId : String) (message : MegolmMessage)
    (text : Megolm.DecryptedMessage)
    (h : (InPlace.on (Machine.decryptRoomMessage room senderKey sessionId message)
      (((MachineState.boot user {}).afterRoomEvents events).within around)).1 = .ok text) :
    ∃ imported ∈ latestImport? ⟨room, senderKey, sessionId⟩ ((MachineState.boot user {}).roomKeyLog events),
      imported.room = room ∧ imported.key.senderKey = senderKey ∧ imported.sessionId = sessionId ∧
      let key := imported.key.sessionKey
      key.signingKey.toBase64 = sessionId ∧
      Suite.verify key.signingKey (message.body ++ message.mac.bytes) message.signature = true ∧
      text.index = message.index ∧ key.index ≤ text.index ∧
      let cipher := (key.ratchetAt text.index).cipher
      cipher.mac message.body = message.mac ∧ cipher.decrypt? message.ciphertext = some text.plain := by
  have hstart : (MachineState.boot user {}).RoomsTidy :=
    MachineState.roomsTidy_boot user
      (List.forall_mem_nil fun session : Megolm.InboundSession Megolm.Receiver => session.Genuine)
  have hrun := MachineState.follows_afterRoomEvents hstart events
  have hwithin := MachineState.Follows.within hrun.tidy around
  obtain ⟨outcome, after, hdecrypt, -, hcases⟩ :=
    Machine.decryptRoomMessage_cases hwithin.tidy ⟨room, senderKey, sessionId⟩ message
  obtain ⟨-, key, hkey, hanswer⟩ := hcases text ((congrArg Prod.fst hdecrypt).symm.trans h)
  have hsession := hwithin.tidy.sessionId_of_roomKey? hkey
  obtain ⟨hverify, hfirst, hindex, hmac, hplain⟩ := Megolm.ExportedKey.answer_eq_ok_iff.mp hanswer
  replace hkey := (hwithin.key_eq _).symm.trans hkey
  replace hkey := (hrun.key_eq _).symm.trans hkey
  -- Over an empty store there is no other key than that of an import.
  cases hlatest : latestImport? ⟨room, senderKey, sessionId⟩ ((MachineState.boot user {}).roomKeyLog events) with
  | none =>
    rw [hlatest] at hkey
    cases hkey
  | some imported =>
    rw [hlatest] at hkey
    obtain rfl := Option.some.inj (Except.ok.inj hkey)
    obtain ⟨hroom, hsender, hclaimed⟩ := RoomSessionName.mk.inj (mem_of_latestImport? hlatest).1
    refine ⟨imported, rfl, hroom, hsender, hclaimed, hsession, hverify, hindex, ?_, ?_⟩
    · rw [hindex]
      exact hfirst
    · rw [hindex]
      exact ⟨hmac, hplain⟩

end

open scoped Suite.Evaluation
open Megolm (OutboundSession)

/-- The key of a small session as it comes from a backup. -/
def backedUpSession : OutboundSession :=
  .ofParts ⟨.ofNatLE 32 1, .ofNatLE 32 2, .ofNatLE 32 3, .ofNatLE 32 4, 0⟩ ⟨.ofNatLE 32 5⟩

/-- A session of a backup from a place on, imported for a room. -/
def importOf (session : OutboundSession) (room : RoomId) : KeyImport :=
  ⟨"1", room, session.sessionId, ⟨Megolm.algorithmName, ⟨.ofNatLE 32 7⟩, session.exportedKey, .empty, []⟩⟩

/-- A room. -/
def firstRoom : RoomId := ⟨"!first", by decide⟩

/-- Another one. -/
def secondRoom : RoomId := ⟨"!second", by decide⟩

/-- A machine gets a session for two rooms, first from its second place on for the one and then from its
first place on for the other. -/
def twoRooms : List RoomEvent :=
  [⟨default, .importKey (importOf (backedUpSession.ahead 1) firstRoom)⟩,
    ⟨default, .importKey (importOf backedUpSession secondRoom)⟩]

/-- The second message is decrypted in the first room, with the key that was imported for that room. -/
theorem decrypts_with_latest_import_of_first_room :
    let message := (backedUpSession.ahead 1).message [9]
    let machine := (MachineState.boot evaluationUser {}).afterRoomEvents twoRooms
    let decrypt := Machine.decryptRoomMessage firstRoom ⟨.ofNatLE 32 7⟩ backedUpSession.sessionId message
    (InPlace.on decrypt (machine.within default)).1 = .ok ⟨[9], 1⟩ ∧
      ∃ imported ∈ (MachineState.boot evaluationUser {}).roomKeyLog twoRooms,
        imported.room = firstRoom ∧ imported.key.sessionKey.index ≤ 1 ∧
        Suite.verify imported.key.sessionKey.signingKey (message.body ++ message.mac.bytes) message.signature := by
  intro message machine decrypt
  have hdecrypt : (InPlace.on decrypt (machine.within default)).1 = .ok ⟨[9], 1⟩ := by decide +kernel
  obtain ⟨imported, hlatest, hroom, -, -, -, hverify, -, hindex, -⟩ :=
    decrypts_with_latest_import evaluationUser twoRooms default firstRoom ⟨.ofNatLE 32 7⟩
      backedUpSession.sessionId message ⟨[9], 1⟩ hdecrypt
  exact ⟨hdecrypt, imported, (mem_of_latestImport? hlatest).2, hroom, hindex, hverify⟩

end RoomCrypt
