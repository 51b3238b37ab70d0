import RoomCrypt.Proofs.Laws
import RoomCrypt.Proofs.Megolm.Exchange
import RoomCrypt.Proofs.Megolm.FastForward

/-!
# The latest ratchet is a cache

A receiver keeps the ratchet of its latest message only to save hashes. Two moves forward are one, so
that the latest ratchet is always the initial one moved to some place, and the answer to a message is
that of the initial ratchet moved to its place, whatever has come before.
-/

namespace RoomCrypt.Megolm

variable [Suite]

/-- What a receiver is made of. -/
inductive ReceiverOrigin where
  /-- A signed session key. -/
  | shared (key : SharedKey)
  /-- An unsigned one. -/
  | exported (key : ExportedKey)

/-- The receiver before anything has come. -/
def ReceiverOrigin.receiver : ReceiverOrigin → Receiver
  | shared key => .ofShared key
  | exported key => .ofExported key

namespace Receiver

/-- The receiver after a message has come. -/
def afterMessage (receiver : Receiver) (message : MegolmMessage) : Receiver :=
  ((decryptInPlace message).on receiver).2

/-- The receiver after messages have come, first message first. -/
def afterMessages (receiver : Receiver) (messages : List MegolmMessage) : Receiver :=
  messages.foldl afterMessage receiver

/-- The answer to a message without a latest ratchet: the initial one is moved to its place. -/
def answer (initial : Ratchet) (signingKey : Ed25519Key) (message : MegolmMessage) :
    Except DecryptError DecryptedMessage :=
  if Suite.verify signingKey message.signedBytes message.signature = true then
    if message.index < initial.index then .error (.unknownIndex initial.index message.index)
    else (decryptAt (initial.moveTo message.index) message).map fun plain => ⟨plain, message.index⟩
  else .error .invalidSignature

/-- Messages from before the initial ratchet are not decrypted. -/
theorem initial_le_of_decrypt {receiver after : Receiver} {message : MegolmMessage} {text : DecryptedMessage}
    (h : receiver.decrypt message = .ok (text, after)) : receiver.initial.index ≤ message.index := by
  rw [decrypt_eq] at h
  split at h
  · split at h
    · cases h
    · next hknown => exact UInt32.not_lt.mp hknown
  · cases h

/-- A message that comes is refused and changes nothing, or it is decrypted and does not lie before the
initial ratchet. -/
theorem on_decryptInPlace_cases (receiver : Receiver) (message : MegolmMessage) :
    (∃ e, (decryptInPlace message).on receiver = (.error e, receiver)) ∨
      ∃ text, receiver.initial.index ≤ message.index ∧
        (decryptInPlace message).on receiver = (.ok text, receiver.afterDecrypt message) := by
  rw [on_decryptInPlace]
  cases hdecrypt : receiver.decrypt message with
  | error e => exact Or.inl ⟨e, rfl⟩
  | ok result =>
    obtain ⟨text, after⟩ := result
    obtain rfl := eq_afterDecrypt hdecrypt
    exact Or.inr ⟨text, initial_le_of_decrypt hdecrypt, rfl⟩

/-- What no message changes, and what only grows. -/
structure Precedes (before after : Receiver) : Prop where
  initial_eq : after.initial = before.initial
  signingKey_eq : after.signingKey = before.signingKey
  latest_le : before.latest.index ≤ after.latest.index
  verified : before.verified = true → after.verified = true

omit [Suite] in
theorem Precedes.refl (receiver : Receiver) : Precedes receiver receiver :=
  ⟨rfl, rfl, UInt32.le_refl _, id⟩

omit [Suite] in
theorem Precedes.trans {first second third : Receiver} (h : Precedes first second) (h' : Precedes second third) :
    Precedes first third :=
  ⟨h'.initial_eq.trans h.initial_eq, h'.signingKey_eq.trans h.signingKey_eq,
    UInt32.le_trans h.latest_le h'.latest_le, h'.verified ∘ h.verified⟩

/-- A message moves the latest ratchet forward or leaves it where it is. -/
theorem precedes_afterDecrypt (receiver : Receiver) (message : MegolmMessage) :
    Precedes receiver (receiver.afterDecrypt message) := by
  refine ⟨rfl, rfl, ?_, fun _ => rfl⟩
  unfold afterDecrypt ratchetFor
  by_cases hearly : message.index < receiver.latest.index
  · simp only [hearly, if_true]
    exact UInt32.le_refl _
  · simp only [hearly, if_false]
    have hplace := UInt32.not_lt.mp hearly
    exact (Ratchet.index_moveTo _ hplace).symm ▸ hplace

/-- So it is for any message that comes. -/
theorem precedes_afterMessage (receiver : Receiver) (message : MegolmMessage) :
    Precedes receiver (receiver.afterMessage message) := by
  unfold afterMessage
  rcases receiver.on_decryptInPlace_cases message with ⟨e, hrefused⟩ | ⟨text, -, hdecrypted⟩
  · rw [hrefused]
    exact .refl receiver
  · rw [hdecrypted]
    exact receiver.precedes_afterDecrypt message

/-- And for any number of them. -/
theorem precedes_afterMessages (receiver : Receiver) (messages : List MegolmMessage) :
    Precedes receiver (receiver.afterMessages messages) := by
  induction messages generalizing receiver with
  | nil => exact .refl receiver
  | cons message messages ih => exact (receiver.precedes_afterMessage message).trans (ih _)

/-- The latest ratchet is the initial one, moved to a place that is not before it. -/
structure Cached (receiver : Receiver) : Prop where
  initial_le : receiver.initial.index ≤ receiver.latest.index
  latest_eq : receiver.latest = receiver.initial.moveTo receiver.latest.index

/-- In a receiver that has just been made, both ratchets are one. -/
theorem cached_origin (origin : ReceiverOrigin) : Cached origin.receiver := by
  cases origin with
  | shared key => exact ⟨UInt32.le_refl _, (Ratchet.moveTo_index _).symm⟩
  | exported key => exact ⟨UInt32.le_refl _, (Ratchet.moveTo_index _).symm⟩

namespace Cached

variable {receiver : Receiver}

/-- From whichever of the two ratchets a message is reached, it is reached as from the initial one. -/
theorem ratchetFor_eq (h : Cached receiver) (message : MegolmMessage) :
    receiver.ratchetFor message = receiver.initial.moveTo message.index := by
  unfold ratchetFor
  by_cases hearly : message.index < receiver.latest.index
  · simp only [hearly, if_true]
  · -- The latest ratchet has made one move forward already, and the message asks for another one.
    simp only [hearly, if_false]
    rw [h.latest_eq]
    exact Ratchet.moveTo_moveTo _ h.initial_le (UInt32.not_lt.mp hearly)

/-- The answer to a message is the one without a latest ratchet. -/
theorem outcome_eq (h : Cached receiver) (message : MegolmMessage) :
    ((decryptInPlace message).on receiver).1 = answer receiver.initial receiver.signingKey message := by
  rw [on_decryptInPlace, decrypt_eq]
  unfold answer firstKnownIndex
  by_cases hverify : Suite.verify receiver.signingKey message.signedBytes message.signature = true
  · simp only [hverify, if_true]
    by_cases hknown : message.index < receiver.initial.index
    · simp only [hknown, if_true]
      rfl
    · simp only [hknown, if_false, h.ratchetFor_eq]
      cases decryptAt (receiver.initial.moveTo message.index) message <;> rfl
  · simp only [hverify]
    rfl

/-- A message that comes leaves the latest ratchet a cache. -/
theorem afterMessage (h : Cached receiver) (message : MegolmMessage) :
    Cached (receiver.afterMessage message) := by
  unfold Receiver.afterMessage
  rcases receiver.on_decryptInPlace_cases message with ⟨e, hrefused⟩ | ⟨text, hplace, hdecrypted⟩
  · rw [hrefused]
    exact h
  · rw [hdecrypted]
    unfold afterDecrypt
    by_cases hearly : message.index < receiver.latest.index
    · simp only [hearly, if_true]
      exact ⟨h.initial_le, h.latest_eq⟩
    · simp only [hearly, if_false, h.ratchetFor_eq]
      have hindex := Ratchet.index_moveTo receiver.initial hplace
      exact ⟨hindex.symm ▸ hplace, congrArg receiver.initial.moveTo hindex.symm⟩

/-- And so does any number of messages. -/
theorem afterMessages (h : Cached receiver) (messages : List MegolmMessage) :
    Cached (receiver.afterMessages messages) := by
  induction messages generalizing receiver with
  | nil => exact h
  | cons message messages ih => exact ih (h.afterMessage message)

end Cached

end Receiver

open Receiver (decryptInPlace)

/-- After any messages, a receiver answers the next one as it would have done before all of them, with the
same text and place or the same error. The initial ratchet, the first known place and the signing key
stay, the latest ratchet is the initial one moved to its place, that place never comes down and the flag
never falls, and a message that is refused changes nothing. -/
theorem answers_as_when_fresh (origin : ReceiverOrigin) (messages more : List MegolmMessage)
    (message : MegolmMessage) :
    let fresh := origin.receiver
    let now := fresh.afterMessages messages
    let later := now.afterMessages more
    ((decryptInPlace message).on now).1 = ((decryptInPlace message).on fresh).1 ∧
      now.initial = fresh.initial ∧ now.firstKnownIndex = fresh.firstKnownIndex ∧
      now.signingKey = fresh.signingKey ∧
      now.latest = now.initial.moveTo now.latest.index ∧
      now.latest.index ≤ later.latest.index ∧
      (now.verified = true → later.verified = true) ∧
      ∀ e, ((decryptInPlace message).on now).1 = .error e → ((decryptInPlace message).on now).2 = now := by
  intro fresh now later
  have hfresh : Receiver.Cached fresh := Receiver.cached_origin origin
  have hnow : Receiver.Cached now := hfresh.afterMessages messages
  have hpast : Receiver.Precedes fresh now := fresh.precedes_afterMessages messages
  have hfuture : Receiver.Precedes now later := now.precedes_afterMessages more
  refine ⟨?_, hpast.initial_eq, congrArg Ratchet.index hpast.initial_eq, hpast.signingKey_eq, hnow.latest_eq,
    hfuture.latest_le, hfuture.verified, ?_⟩
  · rw [hnow.outcome_eq, hfresh.outcome_eq, hpast.initial_eq, hpast.signingKey_eq]
  · intro e hfails
    rcases now.on_decryptInPlace_cases message with ⟨e', hrefused⟩ | ⟨text, -, hdecrypted⟩
    · rw [hrefused]
    · rw [hdecrypted] at hfails
      cases hfails

end RoomCrypt.Megolm

namespace RoomCrypt.Megolm

open scoped Suite.Evaluation
open Receiver (decryptInPlace)

/-- The messages of a small session close to the end of a round of its last part. -/
def cacheSession : OutboundSession :=
  .ofParts ⟨.ofNatLE 32 1, .ofNatLE 32 2, .ofNatLE 32 3, .ofNatLE 32 4, 253⟩ ⟨.ofNatLE 32 5⟩

/-- The message of the session at a number of places from its first one. -/
def cacheMessage (count : ℕ) : MegolmMessage :=
  (cacheSession.ahead count).message [UInt8.ofNat count]

/-- A message that was tampered with. -/
def cacheForged : MegolmMessage :=
  { cacheMessage 1 with mac := default }

/-- After a message of the next round and one that was tampered with, the first message is answered as if
it had come first. -/
theorem answers_as_when_fresh_late :
    let fresh := (ReceiverOrigin.exported cacheSession.exportedKey).receiver
    let now := fresh.afterMessages [cacheMessage 3, cacheForged]
    now.latest.index = 256 ∧ now.latest = now.initial.moveTo 256 ∧ now.verified = true ∧
      ((decryptInPlace (cacheMessage 0)).on now).1.toOption = some ⟨[0], 253⟩ ∧
      ((decryptInPlace cacheForged).on now).1.toOption = none ∧ ((decryptInPlace cacheForged).on now).2 = now := by
  intro fresh now
  have hlatest : now.latest.index = 256 := by decide +kernel
  have hfresh : ((decryptInPlace (cacheMessage 0)).on fresh).1.toOption = some ⟨[0], 253⟩ := by decide +kernel
  have hforged : ((decryptInPlace cacheForged).on now).1.toOption = none := by decide +kernel
  obtain ⟨hanswer, -, -, -, hcache, -⟩ := answers_as_when_fresh (.exported cacheSession.exportedKey)
    [cacheMessage 3, cacheForged] [] (cacheMessage 0)
  obtain ⟨-, -, -, -, -, -, -, hrefused⟩ := answers_as_when_fresh (.exported cacheSession.exportedKey)
    [cacheMessage 3, cacheForged] [] cacheForged
  refine ⟨hlatest, ?_, by decide +kernel, ?_, hforged, ?_⟩
  · rw [← hlatest]
    exact hcache
  · exact (congrArg Except.toOption hanswer).trans hfresh
  · cases houtcome : ((decryptInPlace cacheForged).on now).1 with
    | ok text =>
      rw [houtcome] at hforged
      cases hforged
    | error e => exact hrefused e houtcome

end RoomCrypt.Megolm
