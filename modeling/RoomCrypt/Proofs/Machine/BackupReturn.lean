import RoomCrypt.Proofs.Backup.Encryption
import RoomCrypt.Proofs.Machine.RoomKeyImport
import RoomCrypt.Proofs.Megolm.Provenance

/-!
# Room keys that come back from a backup

A backup gets the key of a room session from the first place on that the session knows. The recovery key gives this
key back, and the session that is imported with it answers every message as the first session would have done
before any message came.
-/

namespace RoomCrypt

open Megolm (InboundSession Receiver)
open Store

variable [Suite]

/-- The room key of a session has the key of the session from its first place on. -/
theorem Backup.RoomKey.sessionKey_ofSession {session : InboundSession Receiver} (h : session.Sound) :
    (ofSession session).sessionKey = session.state.firstKey :=
  h.exportKey_eq.1

/-- The room key of a session is taken under the identifier of the session. -/
theorem Backup.RoomKey.fits_ofSession {session : InboundSession Receiver} (h : session.Sound)
    (halgorithm : session.algorithm = Megolm.algorithmName) (version : String) (room : RoomId) :
    KeyImport.Fits ⟨version, room, session.sessionId, .ofSession session⟩ :=
  ⟨halgorithm, (congrArg Megolm.ExportedKey.sessionId (sessionKey_ofSession h)).trans h.sessionId_eq.symm⟩

/-- A session that is imported with the key of another one is known from the same place on and answers every message
as a fresh copy of the other one. -/
theorem KeyImport.session_ofSession {session : InboundSession Receiver} (h : session.Sound) {imported : KeyImport}
    (hkey : imported.key = .ofSession session) (state : MachineState) :
    (imported.session state).firstKnownIndex = session.firstKnownIndex ∧ ∀ message,
      ((imported.session state).decrypt message).map (·.1) = (session.fresh.decrypt message).map (·.1) := by
  have hsessionKey : imported.key.sessionKey = session.state.firstKey := by
    rw [hkey]
    exact Backup.RoomKey.sessionKey_ofSession h
  have hfirst : (imported.session state).state.firstKey = session.state.firstKey := by
    change (Receiver.ofExported imported.key.sessionKey).firstKey = _
    rw [Receiver.firstKey_ofExported, hsessionKey]
  refine ⟨?_, fun message => ?_⟩
  · change imported.key.sessionKey.index = _
    rw [hsessionKey, h.firstKnownIndex_eq]
    rfl
  · have hcached : (imported.session state).state.Cached :=
      Receiver.cached_origin (.exported imported.key.sessionKey)
    rw [InboundSession.decrypt_eq_answer hcached, hfirst, InboundSession.decrypt_eq_answer session.cached_fresh]
    rfl

/-- A room key that was backed up comes back, whatever session it is of and whatever secret was made for it. The
recovery key gives back what is known of the session, and its key from the first place on. A machine whose store
works imports it under the identifier of the session, and the session that it gets answers every message as a fresh
copy of the first one does, and as the first one itself does if its latest ratchet is a cache. -/
theorem backed_up_session_returns (hagrees : Suite.Agrees) (hinverts : Suite.Inverts) (key : Backup.RecoveryKey)
    {session : InboundSession Receiver} (harises : session.Arises)
    (halgorithm : session.algorithm = Megolm.algorithmName) (entropy : Entropy) :
    ∃ roomKey, key.decrypt (key.backupKey.encrypt session entropy).1.data = .ok roomKey ∧
      roomKey.algorithm = session.algorithm ∧ roomKey.senderKey = session.senderKey ∧
      roomKey.claimedKeys = session.claimedKeys ∧ roomKey.forwardingChain = session.forwardingChain ∧
      session.state.exportAt? session.firstKnownIndex = some roomKey.sessionKey ∧
      ∀ (version : String) (room : RoomId) (state : MachineState), state.backend.outage .saveChanges = none →
        ∃ back after,
          InPlace.on (Machine.importRoomKey version room session.sessionId roomKey) state = (.ok back, after) ∧
          back.sessionId = session.sessionId ∧ back.firstKnownIndex = session.firstKnownIndex ∧
          back.senderKey = session.senderKey ∧ back.claimedKeys = session.claimedKeys ∧
          ∀ message, (back.decrypt message).map (·.1) = (session.fresh.decrypt message).map (·.1) ∧
            (session.state.Cached → (back.decrypt message).map (·.1) = (session.decrypt message).map (·.1)) := by
  have hsound := harises.sound
  have hpoint : Suite.isPoint (Backup.RoomKey.ofSession session).sessionKey.signingKey = true := by
    rw [Backup.RoomKey.sessionKey_ofSession hsound]
    exact hsound.point
  refine ⟨.ofSession session, key.decrypt_encryptWith hagrees hinverts _ hpoint, rfl, rfl, rfl, rfl, ?_, ?_⟩
  · exact hsound.exportKey_eq.2.trans (congrArg some hsound.exportKey_eq.1.symm)
  · intro version room state houtage
    let imported : KeyImport := ⟨version, room, session.sessionId, .ofSession session⟩
    have hfits : imported.Fits := Backup.RoomKey.fits_ofSession hsound halgorithm version room
    have hrun := KeyImport.on_task_of_fits hfits state
    rw [houtage] at hrun
    have hkey : imported.key = .ofSession session := rfl
    obtain ⟨hindex, hanswers⟩ := KeyImport.session_ofSession hsound hkey state
    refine ⟨imported.session state, _, hrun, hfits.2, hindex, rfl, rfl, fun message => ?_⟩
    refine ⟨hanswers message, fun hcached => ?_⟩
    rw [hanswers, InboundSession.decrypt_eq_answer session.cached_fresh, InboundSession.decrypt_eq_answer hcached]
    rfl

end RoomCrypt

namespace RoomCrypt

open Megolm (InboundSession Receiver)
open scoped Suite.Evaluation

/-- A session that begins at its second place and came through another device. -/
def forwardedSession : InboundSession Receiver :=
  { InboundSession.ofExported ⟨.ofNatLE 32 7⟩ (Dict.empty.insert "ed25519" "claimed") firstRoom
      (backedUpSession.ahead 1).exportedKey default with
    forwardingChain := ["forwarder"], maxAge := none, maxMessages := none, backupVersion := none }

/-- The third message of the session. -/
def thirdMessage : MegolmMessage :=
  (backedUpSession.ahead 2).message [9]

/-- The session after that message. -/
def readSession : InboundSession Receiver :=
  forwardedSession.withState (forwardedSession.state.afterMessage thirdMessage)

/-- It comes back from a backup, and what is made of it decrypts that message too. -/
theorem backed_up_session_returns_forwarded :
    let key : Backup.RecoveryKey := ⟨⟨.ofNatLE 32 3⟩⟩
    let state := MachineState.boot evaluationUser {}
    Suite.Agrees ∧ Suite.Inverts ∧ readSession.Arises ∧ readSession.algorithm = Megolm.algorithmName ∧
      state.backend.outage .saveChanges = none ∧
      ∃ roomKey back after, key.decrypt (key.backupKey.encrypt readSession default).1.data = .ok roomKey ∧
        roomKey.forwardingChain = ["forwarder"] ∧
        InPlace.on (Machine.importRoomKey "1" firstRoom readSession.sessionId roomKey) state = (.ok back, after) ∧
        back.firstKnownIndex = 1 ∧ (back.decrypt thirdMessage).map (·.1) = .ok ⟨[9], 2⟩ := by
  intro key state
  have hdecrypt : forwardedSession.decrypt thirdMessage = .ok (⟨[9], 2⟩, readSession) := by decide +kernel
  have harises : readSession.Arises := .decrypted (.labelled _ _ _ _ (.exported _ _ _ rfl _)) hdecrypt
  obtain ⟨roomKey, hroomKey, -, -, -, hchain, -, himport⟩ :=
    backed_up_session_returns Suite.agrees_simple Suite.inverts_simple key harises rfl default
  obtain ⟨back, after, hrun, -, hindex, -, -, hanswers⟩ := himport "1" firstRoom state rfl
  have hfresh : (readSession.fresh.decrypt thirdMessage).map (·.1) = .ok ⟨[9], 2⟩ := by decide +kernel
  exact ⟨Suite.agrees_simple, Suite.inverts_simple, harises, rfl, rfl, roomKey, back, after, hroomKey, hchain, hrun,
    hindex, (hanswers thirdMessage).1.trans hfresh⟩

end RoomCrypt
