import RoomCrypt.Proofs.Machine.RoomAuthenticity

/-!
# What becomes of a message that was decrypted before

An import takes the place of the session that is known under its name, whichever of the two opens more of
the messages. So a message that was decrypted once is decrypted again, with the same text and place, unless
a later import for just its session comes in between that starts behind the message or has another ratchet
at its place. A copy that starts behind the message makes it unreadable.
-/

namespace RoomCrypt

open Megolm (InboundSession Receiver)
open Store

/-- A session key gives the same answer as one that it agrees with at the place of the message. -/
theorem Megolm.ExportedKey.answer_of_agrees [Suite] {key other : ExportedKey} (hname : other.sessionId = key.sessionId)
    {message : MegolmMessage} (hindex : other.index ≤ message.index)
    (hratchet : other.ratchetAt message.index = key.ratchetAt message.index) {text : DecryptedMessage}
    (h : key.answer message = .ok text) : other.answer message = .ok text := by
  have hkey : other.signingKey = key.signingKey := Ed25519Key.toBase64_inj.mp hname
  obtain ⟨hverify, -, hplace, hmac, hplain⟩ := answer_eq_ok_iff.mp h
  refine answer_eq_ok_iff.mpr ⟨?_, hindex, hplace, ?_⟩
  · rw [hkey]
    exact hverify
  · rw [hratchet]
    exact ⟨hmac, hplain⟩

/-- A session key that starts behind a message refuses it, also if another one of its name has answered it. -/
theorem Megolm.ExportedKey.answer_of_behind [Suite] {key other : ExportedKey} (hname : other.sessionId = key.sessionId)
    {message : MegolmMessage} (hbehind : message.index < other.index) {text : DecryptedMessage}
    (h : key.answer message = .ok text) : other.answer message = .error (.unknownIndex other.index message.index) := by
  have hkey : other.signingKey = key.signingKey := Ed25519Key.toBase64_inj.mp hname
  obtain ⟨hverify, -⟩ := answer_eq_ok_iff.mp h
  rw [answer, hkey, if_pos hverify, if_pos hbehind]

section

variable [Suite]

/-- A message that was decrypted is decrypted again after any imports, restored backups and messages, with
the same text and place, if the latest import for its session in between, should there be one, does not
start behind it and has the ratchet at its place that the session had. If the latest import starts behind it,
it is refused. The store may hold sessions from before, and it may fail at any call. -/
theorem decrypts_again (user : UserId) {prior : List (InboundSession Receiver)}
    (hprior : ∀ session ∈ prior, session.Genuine) (earlier later : List RoomEvent) (around again : Surroundings)
    (room : RoomId) (senderKey : Curve25519Key) (sessionId : String) (message : MegolmMessage)
    (text : Megolm.DecryptedMessage) :
    let name : RoomSessionName := ⟨room, senderKey, sessionId⟩
    let decrypt := Machine.decryptRoomMessage room senderKey sessionId message
    let known := (MachineState.boot user (prior.foldl MemoryStore.saveRoomSession {})).afterRoomEvents earlier
    let first := InPlace.on decrypt (known.within around)
    first.1 = .ok text →
      ∃ key, known.roomKey? name = .ok (some key) ∧
        ((∀ imported ∈ latestImport? name (first.2.roomKeyLog later),
            imported.key.sessionKey.index ≤ message.index ∧
              imported.key.sessionKey.ratchetAt message.index = key.ratchetAt message.index) →
          (InPlace.on decrypt ((first.2.afterRoomEvents later).within again)).1 = .ok text) ∧
        ∀ imported ∈ latestImport? name (first.2.roomKeyLog later),
          message.index < imported.key.sessionKey.index →
            (InPlace.on decrypt ((first.2.afterRoomEvents later).within again)).1 =
              .error (.decrypt (.unknownIndex imported.key.sessionKey.index message.index)) := by
  intro name decrypt known first houtcome
  have hknown := MachineState.follows_afterRoomEvents (MachineState.roomsTidy_boot user hprior) earlier
  have hwithin := MachineState.Follows.within hknown.tidy around
  obtain ⟨outcome, after, hrun, hafter, hcases⟩ := Machine.decryptRoomMessage_cases hwithin.tidy name message
  obtain ⟨hcached, key, hkey, hanswer⟩ := hcases text ((congrArg Prod.fst hrun).symm.trans houtcome)
  have hleft : first.2 = after := congrArg Prod.snd hrun
  rw [hleft]
  have hlater := MachineState.follows_afterRoomEvents hafter.tidy later
  have hagain := MachineState.Follows.within hlater.tidy again
  -- What the machine has at the end is the key of the latest import, or the one from before.
  have hfinal := (hagain.key_eq name).trans (hlater.key_eq name)
  have hdecrypt {last : Megolm.ExportedKey}
      (hlast : ((after.afterRoomEvents later).within again).roomKey? name = .ok (some last)) :
      (InPlace.on decrypt ((after.afterRoomEvents later).within again)).1 = (last.answer message).mapError .decrypt :=
    Machine.on_decryptRoomMessage_of_cached hagain.tidy (hagain.cached name (hlater.cached name hcached)) hlast message
  have hname {imported : KeyImport}
      (hlast : ((after.afterRoomEvents later).within again).roomKey? name = .ok (some imported.key.sessionKey)) :
      imported.key.sessionKey.sessionId = key.sessionId :=
    (hagain.tidy.sessionId_of_roomKey? hlast).trans (hwithin.tidy.sessionId_of_roomKey? hkey).symm
  refine ⟨key, hkey, fun hagrees => ?_, fun imported hlatest hbehind => ?_⟩
  · cases hlatest : latestImport? name (after.roomKeyLog later) with
    | none =>
      rw [hlatest] at hfinal
      rw [hdecrypt (hfinal.trans ((hafter.key_eq name).trans hkey)), hanswer]
      rfl
    | some imported =>
      rw [hlatest] at hfinal
      obtain ⟨hindex, hratchet⟩ := hagrees imported hlatest
      rw [hdecrypt hfinal, Megolm.ExportedKey.answer_of_agrees (hname hfinal) hindex hratchet hanswer]
      rfl
  · rw [Option.mem_def.mp hlatest] at hfinal
    rw [hdecrypt hfinal, Megolm.ExportedKey.answer_of_behind (hname hfinal) hbehind hanswer]
    rfl

end

open scoped Suite.Evaluation

/-- A session of the second room that was saved by an earlier machine. -/
def savedSession : InboundSession Receiver :=
  .ofExported ⟨.ofNatLE 32 7⟩ .empty secondRoom backedUpSession.exportedKey default

/-- A message is decrypted again after a copy of its session came in that starts earlier. -/
theorem decrypts_again_earlier_copy :
    let message := (backedUpSession.ahead 1).message [9]
    let decrypt := Machine.decryptRoomMessage firstRoom ⟨.ofNatLE 32 7⟩ backedUpSession.sessionId message
    let start := MachineState.boot evaluationUser ([savedSession].foldl MemoryStore.saveRoomSession {})
    let known := start.afterRoomEvents
      [⟨default, .importKey (importOf (backedUpSession.ahead 1) firstRoom)⟩]
    let first := InPlace.on decrypt (known.within default)
    let later := first.2.afterRoomEvents [⟨default, .importKey (importOf backedUpSession firstRoom)⟩]
    first.1 = .ok ⟨[9], 1⟩ ∧ (InPlace.on decrypt (later.within default)).1 = .ok ⟨[9], 1⟩ := by
  intro message decrypt start known first later
  have hprior : ∀ session ∈ [savedSession], session.Genuine := by
    simp only [List.forall_mem_singleton]
    exact ⟨rfl, Receiver.cached_origin (.exported backedUpSession.exportedKey)⟩
  have houtcome : first.1 = .ok ⟨[9], 1⟩ := by decide +kernel
  obtain ⟨key, hkey, hagain, -⟩ := decrypts_again evaluationUser hprior
    [⟨default, .importKey (importOf (backedUpSession.ahead 1) firstRoom)⟩]
    [⟨default, .importKey (importOf backedUpSession firstRoom)⟩] default default firstRoom ⟨.ofNatLE 32 7⟩
    backedUpSession.sessionId message ⟨[9], 1⟩ houtcome
  refine ⟨houtcome, hagain ?_⟩
  have hfirst : known.roomKey? ⟨firstRoom, ⟨.ofNatLE 32 7⟩, backedUpSession.sessionId⟩ =
    .ok (some (backedUpSession.ahead 1).exportedKey) := by decide +kernel
  obtain rfl : (backedUpSession.ahead 1).exportedKey = key := Option.some.inj (Except.ok.inj (hfirst.symm.trans hkey))
  decide +kernel

/-- A session that is called as another one, with another ratchet. -/
def forgedSession : Megolm.OutboundSession :=
  .ofParts ⟨.ofNatLE 32 6, .ofNatLE 32 2, .ofNatLE 32 3, .ofNatLE 32 4, 0⟩ ⟨.ofNatLE 32 5⟩

/-- A message that was decrypted is refused after a copy of its session came in that starts behind it, or
one that has another ratchet. -/
theorem refused_after_later_copy :
    let message := backedUpSession.message [9]
    let decrypt := Machine.decryptRoomMessage firstRoom ⟨.ofNatLE 32 7⟩ backedUpSession.sessionId message
    let known := (MachineState.boot evaluationUser {}).afterRoomEvents
      [⟨default, .importKey (importOf backedUpSession firstRoom)⟩]
    let first := InPlace.on decrypt (known.within default)
    let again (session : Megolm.OutboundSession) :=
      (InPlace.on decrypt
        ((first.2.afterRoomEvents [⟨default, .importKey (importOf session firstRoom)⟩]).within default)).1
    first.1 = .ok ⟨[9], 0⟩ ∧
      again (backedUpSession.ahead 1) = .error (.decrypt (.unknownIndex 1 0)) ∧
      again forgedSession = .error (.decrypt .invalidMac) := by
  decide +kernel

end RoomCrypt
