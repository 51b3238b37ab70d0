import RoomCrypt.Megolm.Inbound
import RoomCrypt.Proofs.Json.Records
import RoomCrypt.Proofs.Megolm.Cache
import RoomCrypt.Proofs.Megolm.Pickles

/-!
# Room sessions and their keys

A room session is found by its room, the key of its sender and its identifier, which is the text of its
signing key. Nothing else of it matters for messages but its first ratchet and that signing key: together
they are a session key, the answer to any message is that of the key, and neither messages nor a pickle
change it.
-/

namespace RoomCrypt

/-- What a room session is found by. -/
structure RoomSessionName where
  room : RoomId
  senderKey : Curve25519Key
  sessionId : String
deriving DecidableEq

/-- A name is known from the texts that maps are keyed by. -/
theorem RoomSessionName.eq_iff_texts {name other : RoomSessionName} :
    name = other ↔ name.room.text = other.room.text ∧ name.senderKey.toBase64 = other.senderKey.toBase64 ∧
      name.sessionId = other.sessionId := by
  obtain ⟨⟨room, hroom⟩, senderKey, sessionId⟩ := name
  obtain ⟨⟨room', hroom'⟩, senderKey', sessionId'⟩ := other
  simp only [mk.injEq, RoomId.mk.injEq, Curve25519Key.toBase64_inj]

variable [Suite]

namespace Megolm

namespace ExportedKey

/-- The ratchet at a place that the key opens: one step after the other. -/
def ratchetAt (key : ExportedKey) (place : UInt32) : Ratchet :=
  Ratchet.next^[place.toNat - key.index.toNat] (Ratchet.ofBytes key.ratchet key.index)

/-- The answer to a message that has nothing but the key. -/
def answer (key : ExportedKey) (message : MegolmMessage) : Except DecryptError DecryptedMessage :=
  if Suite.verify key.signingKey message.signedBytes message.signature = true then
    if message.index < key.index then .error (.unknownIndex key.index message.index)
    else (Receiver.decryptAt (key.ratchetAt message.index) message).map fun plain => ⟨plain, message.index⟩
  else .error .invalidSignature

/-- A message is decrypted if its signature verifies, it lies at or behind the first place of the key, and
its MAC and its text are those of the ratchet at its place. -/
theorem answer_eq_ok_iff {key : ExportedKey} {message : MegolmMessage} {text : DecryptedMessage} :
    key.answer message = .ok text ↔
      Suite.verify key.signingKey message.signedBytes message.signature = true ∧ key.index ≤ message.index ∧
        text.index = message.index ∧
        let cipher := (key.ratchetAt message.index).cipher
        cipher.mac message.body = message.mac ∧ cipher.decrypt? message.ciphertext = some text.plain := by
  obtain ⟨plain, index⟩ := text
  unfold answer Receiver.decryptAt
  by_cases hverify : Suite.verify key.signingKey message.signedBytes message.signature = true
  · by_cases hknown : message.index < key.index
    · simp [hverify, hknown]
    · by_cases hmac : (key.ratchetAt message.index).cipher.mac message.body = message.mac
      · cases hplain : (key.ratchetAt message.index).cipher.decrypt? message.ciphertext with
        | none => simp [hverify, hknown, hmac, hplain, Except.map]
        | some text =>
          simp [hverify, hknown, hmac, hplain, Except.map, UInt32.not_lt.mp hknown, eq_comm, and_comm]
      · simp [hverify, hknown, hmac, Except.map]
  · simp [hverify]

end ExportedKey

/-- The session key from the first place on that a receiver knows. -/
def Receiver.firstKey (receiver : Receiver) : ExportedKey :=
  .ofRatchet receiver.initial receiver.signingKey

omit [Suite] in
/-- A receiver that is made of a key has this key. -/
theorem Receiver.firstKey_ofExported (key : ExportedKey) : (ofExported key).firstKey = key := by
  obtain ⟨signingKey, ratchet, index⟩ := key
  simp only [firstKey, ofExported, ExportedKey.ofRatchet, Ratchet.bytes_ofBytes]
  rfl

/-- The answer of a receiver is that of its key. -/
theorem Receiver.Cached.outcome_eq_answer {receiver : Receiver} (h : receiver.Cached) (message : MegolmMessage) :
    ((decryptInPlace message).on receiver).1 = receiver.firstKey.answer message := by
  have hratchet : Ratchet.ofBytes receiver.firstKey.ratchet receiver.firstKey.index = receiver.initial :=
    Ratchet.ofBytes_bytes receiver.initial
  rw [h.outcome_eq]
  unfold answer ExportedKey.answer ExportedKey.ratchetAt
  rw [hratchet]
  change _ = if Suite.verify receiver.signingKey message.signedBytes message.signature = true then
    if message.index < receiver.initial.index then _ else _ else _
  by_cases hknown : message.index < receiver.initial.index
  · rw [if_pos hknown, if_pos hknown]
    rfl
  · rw [if_neg hknown, if_neg hknown, Ratchet.moveTo_of_le _ (UInt32.not_lt.mp hknown)]
    rfl

omit [Suite] in
/-- A receiver is known from its form. -/
theorem Receiver.form_injective {receiver other : Receiver} (h : receiver.form = other.form) : receiver = other := by
  have hratchet {ratchet ratchet' : Ratchet} (h : ratchet.form = ratchet'.form) : ratchet = ratchet' := by
    have hread := Ratchet.reads.back ratchet [] trivial
    have hread' := Ratchet.reads.back ratchet' [] trivial
    rw [h, hread', Prod.mk.injEq, Except.ok.injEq] at hread
    exact hread.1.symm
  unfold form at h
  obtain ⟨hfront, hverified⟩ := List.append_inj' h rfl
  obtain ⟨hratchets, hkey⟩ := List.append_inj' hfront (by rw [Octets.length_eq, Octets.length_eq])
  obtain ⟨hfirst, hlatest⟩ := List.append_inj' hratchets (by rw [Ratchet.length_form, Ratchet.length_form])
  obtain ⟨-, hinitial⟩ := List.append_inj' hfirst (by rw [Ratchet.length_form, Ratchet.length_form])
  obtain ⟨initial, latest, ⟨key⟩, verified⟩ := receiver
  obtain ⟨initial', latest', ⟨key'⟩, verified'⟩ := other
  obtain rfl := hratchet hinitial
  obtain rfl := hratchet hlatest
  obtain rfl := Octets.ext hkey
  cases verified <;> cases verified' <;> first | rfl | cases hverified

/-- What is restored from the pickle of a receiver is the receiver. -/
theorem Receiver.eq_of_ofWholePickle? {receiver restored : Receiver}
    (h : ofWholePickle? Receiver (toPickle receiver) = .ok restored) : restored = receiver := by
  obtain ⟨-, hform⟩ := Receiver.reads.of_decodeAllWith h
  rw [receiver.hasForm.toPickle_eq] at hform
  exact (Receiver.form_injective hform).symm

namespace InboundSession

/-- The name under which a session is kept. -/
def name {σ : Type} (session : InboundSession σ) : RoomSessionName :=
  ⟨session.room, session.senderKey, session.sessionId⟩

/-- A session is called after its signing key, and its latest ratchet is a cache. -/
structure Genuine (session : InboundSession Receiver) : Prop where
  sessionId_eq : session.sessionId = session.state.sessionId
  cached : session.state.Cached

/-- A session that is restored from its record is the session. -/
theorem Genuine.ofPickle? {session loaded : InboundSession Receiver} (h : session.Genuine)
    (hload : ofPickle? session.pickle = .ok loaded) :
    loaded.Genuine ∧ loaded.name = session.name ∧ loaded.state = session.state := by
  have hdecode : Base64.decode? session.pickle.pickle = some (toPickle session.state) := Base64.decode?_encode _
  unfold InboundSession.ofPickle? at hload
  simp only [hdecode] at hload
  obtain ⟨receiver, hreceiver, hloaded⟩ := bind_eq_ok_iff.mp hload
  obtain rfl := Receiver.eq_of_ofWholePickle? hreceiver
  obtain rfl := Except.ok.inj hloaded
  have hname := congrArg (RoomSessionName.mk session.room session.senderKey) h.sessionId_eq.symm
  exact ⟨⟨rfl, h.cached⟩, hname, rfl⟩

/-- A message is answered as by the key of the session, which stays. -/
theorem Genuine.decrypt_cases {session : InboundSession Receiver} (h : session.Genuine) (message : MegolmMessage) :
    (∃ e, session.state.firstKey.answer message = .error e ∧ session.decrypt message = .error e) ∨
      ∃ text after, session.state.firstKey.answer message = .ok text ∧
        session.decrypt message = .ok (text, after) ∧ after.Genuine ∧ after.name = session.name ∧
        after.state.firstKey = session.state.firstKey := by
  have houtcome := h.cached.outcome_eq_answer message
  have hafter := h.cached.afterMessage message
  unfold Receiver.afterMessage at hafter
  rw [Receiver.on_decryptInPlace] at houtcome hafter
  unfold InboundSession.decrypt
  cases hdecrypt : session.state.decrypt message with
  | error e =>
    rw [hdecrypt] at houtcome
    exact Or.inl ⟨e, houtcome.symm, rfl⟩
  | ok result =>
    obtain ⟨text, receiver⟩ := result
    rw [hdecrypt] at houtcome hafter
    have hkeeps : session.state.Precedes receiver :=
      Receiver.eq_afterDecrypt hdecrypt ▸ session.state.precedes_afterDecrypt message
    refine Or.inr ⟨text, { session with state := receiver }, houtcome.symm, rfl, ⟨?_, hafter⟩, rfl, ?_⟩
    · exact h.sessionId_eq.trans (congrArg Ed25519Key.toBase64 hkeeps.signingKey_eq.symm)
    · exact congrArg₂ ExportedKey.ofRatchet hkeeps.initial_eq hkeeps.signingKey_eq

end InboundSession

end Megolm

end RoomCrypt
