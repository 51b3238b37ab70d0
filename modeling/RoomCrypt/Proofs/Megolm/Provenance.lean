import RoomCrypt.Proofs.Megolm.Sessions

/-!
# Where room sessions come from

A room session is made of a session key or restored from a record, and it goes on by the messages that it decrypts.
However it has come about, it says of itself what its receiver says, and its signing key is a point of the curve. Its
key from the first place on answers every message as the session does, as long as its latest ratchet is a cache.
-/

namespace RoomCrypt.Megolm

variable [Suite]

omit [Suite] in
/-- A receiver before any message has come. -/
def Receiver.fresh (receiver : Receiver) : Receiver :=
  { receiver with latest := receiver.initial }

namespace InboundSession

omit [Suite] in
/-- A copy of a session that no message has come to. -/
def fresh (session : InboundSession Receiver) : InboundSession Receiver :=
  session.withState session.state.fresh

/-- A session that decrypts a message changes only by the latest ratchet and the flag of its receiver. -/
theorem eq_of_decrypt {session after : InboundSession Receiver} {message : MegolmMessage} {text : DecryptedMessage}
    (h : session.decrypt message = .ok (text, after)) :
    after = { session with state := session.state.afterDecrypt message } := by
  unfold InboundSession.decrypt at h
  obtain ⟨⟨plain, receiver⟩, hreceiver, hafter⟩ := bind_eq_ok_iff.mp h
  obtain ⟨rfl, rfl⟩ := Prod.mk.inj (Except.ok.inj hafter)
  rw [← Receiver.eq_afterDecrypt hreceiver]

/-- How room sessions come about: they are made of session keys, they are restored from any records, they get what
is known of where they come from, and they decrypt messages. -/
inductive Arises : InboundSession Receiver → Prop where
  | shared (senderKey : Curve25519Key) (signingKey : Ed25519Key) (room : RoomId) {key : SharedKey}
      (hpoint : Suite.isPoint key.key.signingKey = true) (now : Clock) :
      Arises (ofShared senderKey signingKey room key now)
  | exported (senderKey : Curve25519Key) (claimedKeys : Dict String) (room : RoomId) {key : ExportedKey}
      (hpoint : Suite.isPoint key.signingKey = true) (now : Clock) :
      Arises (ofExported senderKey claimedKeys room key now)
  | restored {pickled : PickledInboundSession} {session : InboundSession Receiver}
      (hread : ofPickle? pickled = .ok session) : Arises session
  | labelled {session : InboundSession Receiver} (forwardingChain : List String) (maxAge : Option Duration)
      (maxMessages : Option UInt64) (backupVersion : Option String) (h : Arises session) :
      Arises { session with forwardingChain, maxAge, maxMessages, backupVersion }
  | decrypted {session after : InboundSession Receiver} {message : MegolmMessage} {text : DecryptedMessage}
      (h : Arises session) (hdecrypt : session.decrypt message = .ok (text, after)) : Arises after

/-- The receiver of a session that was restored can be restored, and the session says what it says. -/
theorem restorable_of_ofPickle? {pickled : PickledInboundSession} {session : InboundSession Receiver}
    (hread : ofPickle? pickled = .ok session) : session.state.Restorable ∧
      session.sessionId = session.state.sessionId ∧ session.firstKnownIndex = session.state.firstKnownIndex := by
  unfold ofPickle? at hread
  cases hbytes : Base64.decode? pickled.pickle with
  | none =>
    rw [hbytes] at hread
    cases hread
  | some bytes =>
    rw [hbytes] at hread
    obtain ⟨receiver, hreceiver, hsession⟩ := bind_eq_ok_iff.mp hread
    obtain rfl := Except.ok.inj hsession
    exact ⟨(Receiver.reads.of_decodeAllWith hreceiver).1, rfl, rfl⟩

/-- A session says what its receiver says, and the signing key is a point. -/
structure Sound (session : InboundSession Receiver) : Prop where
  sessionId_eq : session.sessionId = session.state.sessionId
  firstKnownIndex_eq : session.firstKnownIndex = session.state.firstKnownIndex
  point : Suite.isPoint session.state.signingKey = true

/-- That is so however a session has come about. -/
theorem Arises.sound {session : InboundSession Receiver} (h : session.Arises) : session.Sound := by
  induction h with
  | shared senderKey signingKey room hpoint now => exact ⟨rfl, rfl, hpoint⟩
  | exported senderKey claimedKeys room hpoint now => exact ⟨rfl, rfl, hpoint⟩
  | restored hread =>
    obtain ⟨hrestorable, hid, hindex⟩ := restorable_of_ofPickle? hread
    exact ⟨hid, hindex, hrestorable.signingKey_point⟩
  | labelled forwardingChain maxAge maxMessages backupVersion h ih =>
    exact ⟨ih.sessionId_eq, ih.firstKnownIndex_eq, ih.point⟩
  | @decrypted session after message text h hdecrypt ih =>
    obtain rfl := eq_of_decrypt hdecrypt
    have hkeeps := session.state.precedes_afterDecrypt message
    refine ⟨?_, ?_, ?_⟩
    · exact ih.sessionId_eq.trans (congrArg Ed25519Key.toBase64 hkeeps.signingKey_eq.symm)
    · exact ih.firstKnownIndex_eq.trans (congrArg Ratchet.index hkeeps.initial_eq.symm)
    · exact hkeeps.signingKey_eq.symm ▸ ih.point

/-- The text of a message is that of the receiver of the session. -/
theorem map_decrypt (session : InboundSession Receiver) (message : MegolmMessage) :
    (session.decrypt message).map (·.1) = ((Receiver.decryptInPlace message).on session.state).1 := by
  rw [Receiver.on_decryptInPlace]
  unfold InboundSession.decrypt
  cases session.state.decrypt message <;> rfl

/-- The text of a message is that of the key of the session, if the latest ratchet is a cache. -/
theorem decrypt_eq_answer {session : InboundSession Receiver} (h : session.state.Cached) (message : MegolmMessage) :
    (session.decrypt message).map (·.1) = session.state.firstKey.answer message :=
  (session.map_decrypt message).trans (h.outcome_eq_answer message)

/-- In a fresh copy the latest ratchet is a cache. -/
theorem cached_fresh (session : InboundSession Receiver) : session.fresh.state.Cached :=
  ⟨UInt32.le_refl _, (Ratchet.moveTo_index _).symm⟩

/-- A session is exported from its first place on as its first key. -/
theorem Sound.exportKey_eq {session : InboundSession Receiver} (h : session.Sound) :
    session.exportKey = session.state.firstKey ∧
      session.state.exportAt? session.firstKnownIndex = some session.state.firstKey := by
  have hkey : session.state.exportAt? session.firstKnownIndex = some session.state.firstKey := by
    unfold Receiver.exportAt?
    rw [h.firstKnownIndex_eq, if_neg (UInt32.lt_irrefl _)]
    exact congrArg (fun ratchet => some (ExportedKey.ofRatchet ratchet session.state.signingKey)) (Ratchet.moveTo_index _)
  refine ⟨?_, hkey⟩
  have hplace : max session.firstKnownIndex session.firstKnownIndex = session.firstKnownIndex := ite_self _
  unfold exportKey exportFrom
  rw [hplace, hkey]

end InboundSession

end RoomCrypt.Megolm
