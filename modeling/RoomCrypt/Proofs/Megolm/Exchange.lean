import RoomCrypt.Megolm.Outbound
import RoomCrypt.Megolm.Receiver
import RoomCrypt.Proofs.Call
import RoomCrypt.Proofs.Megolm.Steps

/-!
# A session and its receivers

A session encrypts one text after the other, each at its own place. Its key gets to a receiver signed or
not, as bytes or as text, and the receiver reads whatever comes: bytes that are no message leave it
alone.
-/

namespace RoomCrypt.Megolm

variable [Suite]

/-- A message and the text that it was made from. -/
structure Sent where
  message : MegolmMessage
  plain : Bytes
deriving DecidableEq

namespace OutboundSession

/-- Encrypt texts one after the other: the messages, first one first, and the session after them. -/
def encryptAll : List Bytes → OutboundSession → List Sent × OutboundSession
  | [], session => ([], session)
  | plain :: plains, session =>
    let (message, session) := session.encrypt plain
    let (sent, session) := encryptAll plains session
    (⟨message, plain⟩ :: sent, session)

/-- The session a number of messages further. -/
def ahead (session : OutboundSession) (count : ℕ) : OutboundSession :=
  { session with ratchet := Ratchet.next^[count] session.ratchet }

/-- Each of the texts takes one step of the ratchet. -/
theorem encryptAll_session (plains : List Bytes) (session : OutboundSession) :
    (encryptAll plains session).2 = session.ahead plains.length := by
  induction plains generalizing session with
  | nil => rfl
  | cons plain plains ih => exact ih session.next

/-- Each message is made at its own place. -/
theorem mem_encryptAll {plains : List Bytes} {session : OutboundSession} {sent : Sent}
    (hsent : sent ∈ (encryptAll plains session).1) :
    ∃ count < plains.length, sent.message = (session.ahead count).message sent.plain := by
  induction plains generalizing session with
  | nil => cases hsent
  | cons plain plains ih =>
    rcases List.mem_cons.mp hsent with rfl | hlater
    · exact ⟨0, Nat.succ_pos _, rfl⟩
    · obtain ⟨count, hcount, hmessage⟩ := ih hlater
      exact ⟨count + 1, Nat.succ_lt_succ hcount, hmessage⟩

/-- A session counts its messages. -/
theorem index_ahead (session : OutboundSession) (count : ℕ) :
    (session.ahead count).index = UInt32.ofNat (session.index.toNat + count) :=
  Ratchet.index_iterate_next session.ratchet _ UInt32.ofNat_toNat.symm count

/-- It does so without going round below `2 ^ 32`. -/
theorem toNat_index_ahead (session : OutboundSession) {count : ℕ}
    (hcount : session.index.toNat + count < UInt32.size) :
    (session.ahead count).ratchet.index.toNat = session.index.toNat + count :=
  (congrArg UInt32.toNat (session.index_ahead count)).trans (UInt32.toNat_ofNat_of_lt' hcount)

end OutboundSession

namespace Receiver

/-- The ratchet for a message: the latest one moved to its place, or the first one if the message is
early. -/
def ratchetFor (receiver : Receiver) (message : MegolmMessage) : Ratchet :=
  (if message.index < receiver.latest.index then receiver.initial else receiver.latest).moveTo message.index

/-- The receiver after a message that it has decrypted. -/
def afterDecrypt (receiver : Receiver) (message : MegolmMessage) : Receiver :=
  { receiver with
    latest := if message.index < receiver.latest.index then receiver.latest else receiver.ratchetFor message
    verified := true }

/-- What decryption comes to: the signature and the place are checked, and the ratchet for the message
decrypts it. -/
theorem decrypt_eq (receiver : Receiver) (message : MegolmMessage) :
    receiver.decrypt message =
      if Suite.verify receiver.signingKey message.signedBytes message.signature = true then
        if message.index < receiver.firstKnownIndex then
          .error (.unknownIndex receiver.firstKnownIndex message.index)
        else (decryptAt (receiver.ratchetFor message) message).map fun plain =>
          (⟨plain, message.index⟩, receiver.afterDecrypt message)
      else .error .invalidSignature := by
  unfold decrypt
  by_cases hverify : Suite.verify receiver.signingKey message.signedBytes message.signature = true
  · simp only [hverify, Bool.not_true, Bool.false_eq_true, if_false, if_true]
    by_cases hknown : message.index < receiver.firstKnownIndex
    · simp only [hknown, if_true]
      rfl
    · simp only [hknown, if_false]
      by_cases hearly : message.index < receiver.latest.index
      · simp only [ratchetFor, afterDecrypt, hearly, if_true]
        cases decryptAt (receiver.initial.moveTo message.index) message <;> rfl
      · simp only [ratchetFor, afterDecrypt, hearly, if_false]
        cases decryptAt (receiver.latest.moveTo message.index) message <;> rfl
  · simp only [hverify, Bool.not_false, if_true]
    rfl

/-- A message that is decrypted leaves the receiver in that state. -/
theorem eq_afterDecrypt {receiver after : Receiver} {message : MegolmMessage} {text : DecryptedMessage}
    (h : receiver.decrypt message = .ok (text, after)) : after = receiver.afterDecrypt message := by
  rw [decrypt_eq] at h
  split at h
  · split at h
    · cases h
    · cases hplain : decryptAt (receiver.ratchetFor message) message with
      | error e =>
        rw [hplain] at h
        cases h
      | ok plain =>
        rw [hplain] at h
        cases h
        rfl
  · cases h

/-- Decrypt a message in place: first the checks, then the flag and the latest ratchet. -/
def decryptInPlace (message : MegolmMessage) : InPlace Receiver DecryptError DecryptedMessage := do
  let receiver ← get
  if !Suite.verify receiver.signingKey message.signedBytes message.signature then
    throw .invalidSignature
  if message.index < receiver.firstKnownIndex then
    throw (.unknownIndex receiver.firstKnownIndex message.index)
  let early : Bool := message.index < receiver.latest.index
  let ratchet := (if early then receiver.initial else receiver.latest).moveTo message.index
  let plain ← liftM (decryptAt ratchet message)
  modify fun receiver => { receiver with verified := true }
  if !early then
    modify fun receiver => { receiver with latest := ratchet }
  pure ⟨plain, message.index⟩

/-- Decrypting in place ends as decryption says: nothing is written before it can fail. -/
theorem on_decryptInPlace (receiver : Receiver) (message : MegolmMessage) :
    (decryptInPlace message).on receiver = InPlace.settle receiver (receiver.decrypt message) := by
  rw [decrypt_eq]
  unfold decryptInPlace
  simp only [InPlace.on_bind, InPlace.on_get]
  by_cases hverify : Suite.verify receiver.signingKey message.signedBytes message.signature = true
  · simp only [hverify, Bool.not_true, Bool.false_eq_true, if_false, if_true]
    by_cases hknown : message.index < receiver.firstKnownIndex
    · simp only [hknown, if_true]
      rfl
    · simp only [hknown, if_false, InPlace.on_bind, InPlace.on_lift]
      by_cases hearly : message.index < receiver.latest.index
      · simp only [ratchetFor, afterDecrypt, hearly, decide_true, if_true, Bool.not_true]
        cases decryptAt (receiver.initial.moveTo message.index) message <;> rfl
      · simp only [ratchetFor, afterDecrypt, hearly, decide_false, Bool.false_eq_true, if_false, Bool.not_false]
        cases decryptAt (receiver.latest.moveTo message.index) message <;> rfl
  · simp only [hverify, Bool.not_false, if_true]
    rfl

/-- Decode a message and decrypt it in place: the outcome, and the receiver that is left. -/
def read (receiver : Receiver) (bytes : Bytes) :
    Except MessageError (Except DecryptError DecryptedMessage × Receiver) :=
  (MegolmMessage.ofBytes? bytes).map fun message => (decryptInPlace message).on receiver

/-- The receiver after something has come; bytes that are no message leave it alone. -/
def afterReading (receiver : Receiver) (bytes : Bytes) : Receiver :=
  match receiver.read bytes with
  | .ok (_, after) => after
  | .error _ => receiver

/-- The receiver after whatever has come, first message first. -/
def readAll (receiver : Receiver) (deliveries : List Bytes) : Receiver :=
  deliveries.foldl afterReading receiver

end Receiver

/-- How the key of a session gets to a receiver. -/
inductive Handover where
  | signedBytes
  | signedText
  | exportedBytes
  | exportedText

/-- The receiver that has got the key of a session at its place. -/
def Handover.receiver? (session : OutboundSession) : Handover → Except SessionKeyError Receiver
  | signedBytes => (SharedKey.ofBytes? session.sharedKey.toBytes).map .ofShared
  | signedText => (SharedKey.ofBase64? session.sharedKey.toBase64).map .ofShared
  | exportedBytes => (ExportedKey.ofBytes? session.exportedKey.toBytes).map .ofExported
  | exportedText => (ExportedKey.ofBase64? session.exportedKey.toBase64).map .ofExported

omit [Suite] in
/-- A ratchet is made again from its bytes and its place. -/
theorem Ratchet.ofBytes_bytes (ratchet : Ratchet) : ofBytes ratchet.bytes ratchet.index = ratchet := by
  obtain ⟨⟨a, ha⟩, ⟨b, hb⟩, ⟨c, hc⟩, ⟨d, hd⟩, index⟩ := ratchet
  have h0 : ((a ++ b ++ c ++ d).drop 0).take 32 = a := by
    rw [List.drop_zero, List.append_assoc, List.append_assoc]
    exact List.take_left' ha
  have h1 : ((a ++ b ++ c ++ d).drop 32).take 32 = b := by
    rw [List.append_assoc, List.append_assoc, List.drop_left' ha]
    exact List.take_left' hb
  have h2 : ((a ++ b ++ c ++ d).drop 64).take 32 = c := by
    rw [List.append_assoc, List.drop_left' (by simp [ha, hb])]
    exact List.take_left' hc
  have h3 : ((a ++ b ++ c ++ d).drop 96).take 32 = d := by
    rw [List.drop_left' (by simp [ha, hb, hc])]
    exact List.take_of_length_le (Nat.le_of_eq hd)
  simp only [ofBytes, bytes, Octets.slice, h0, h1, h2, h3]

end RoomCrypt.Megolm
