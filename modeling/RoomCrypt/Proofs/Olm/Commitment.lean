import RoomCrypt.Olm.Session
import RoomCrypt.Proofs.Olm.Acceptance

/-!
# Nothing is committed before the MAC is verified

Here a ratchet is a state that a call writes as it goes: the keys that were passed over are recorded
one by one, and a ratchet step writes the root key, the chains and the skipped keys one after the
other. A call that fails keeps what it has written by then. Still no call that fails leaves a trace,
because each of them has checked all that can fail before its first write; and one that succeeds has
verified the MAC with the key that the message names.
-/

namespace RoomCrypt.Olm

variable [Suite]

namespace Ratchet

/-- Record skipped keys one after the other. -/
def recordInPlace : List SkippedKey → InPlace Ratchet RatchetError Unit
  | [] => pure ()
  | key :: keys => do
    modify fun ratchet => { ratchet with skipped := ratchet.skipped.record key }
    recordInPlace keys

/-- Decrypt a message with a skipped key and take the key out of the store. -/
def decryptSkippedInPlace (key : MessageKey) (message : OlmMessage) : InPlace Ratchet RatchetError Bytes := do
  let plain ← liftM (key.decrypt message)
  modify fun ratchet =>
    { ratchet with skipped := ratchet.skipped.remove message.ratchetKey message.index }
  pure plain

/-- Decrypt a message on a copy of the chain at a place of the list and write the copy back. -/
def decryptKnownInPlace (config : RatchetConfig) (place : ℕ) (chain : ReceiverChain)
    (message : OlmMessage) : InPlace Ratchet RatchetError Bytes := do
  if message.index < chain.index then throw (.replayOrUnknownMessage message.index)
  let (plain, skipped, chain) ← liftM (decryptOn config chain message)
  modify fun ratchet => { ratchet with receivers := ratchet.receivers.set place chain }
  recordInPlace skipped
  pure plain

/-- Decrypt the first message from a new ratchet key and write the ratchet step. -/
def decryptNewInPlace (message : OlmMessage) : InPlace Ratchet RatchetError Bytes := do
  let ratchet ← get
  match ratchet.sender with
  | none => throw .missingChain
  | some sender =>
    let (rootKey, chainKey) := ratchet.rootKey.step sender.keyPair message.ratchetKey
    let (plain, skipped, chain) ←
      liftM (decryptOn ratchet.config ⟨message.ratchetKey, chainKey⟩ message)
    modify fun ratchet => { ratchet with rootKey }
    modify fun ratchet => { ratchet with sender := none }
    modify fun ratchet => { ratchet with receivers := chain :: ratchet.receivers }
    modify fun ratchet =>
      { ratchet with receivers := ratchet.receivers.take ratchet.config.maxReceiverChains }
    recordInPlace skipped
    pure plain

/-- Decrypt a message in place. -/
def decryptInPlace (message : OlmMessage) : InPlace Ratchet RatchetError Bytes := do
  let ratchet ← get
  match ratchet.skipped.find? message.ratchetKey message.index with
  | some key => decryptSkippedInPlace key message
  | none =>
    match locate? message.ratchetKey ratchet.receivers with
    | some (place, chain) => decryptKnownInPlace ratchet.config place chain message
    | none => decryptNewInPlace message

/-- Make a chain for sending and write the root key of the ratchet step; the random bytes for the
key pair are used up. -/
def openSenderInPlace : InPlace (Ratchet × Entropy) RatchetError SenderChain := do
  let (ratchet, entropy) ← get
  match ratchet.receivers with
  | [] => throw .missingChain
  | chain :: _ =>
    let (secret, entropy) := entropy.draw 32
    modify fun (ratchet, _) => (ratchet, entropy)
    let pair := RatchetKeyPair.ofSecret ⟨secret⟩
    let (rootKey, chainKey) := ratchet.rootKey.step pair chain.ratchetKey
    modify fun (ratchet, entropy) => ({ ratchet with rootKey }, entropy)
    pure ⟨pair, chainKey⟩

/-- Encrypt a text in place. -/
def encryptInPlace (plain : Bytes) : InPlace (Ratchet × Entropy) RatchetError OlmMessage := do
  let (ratchet, _) ← get
  if ratchet.sender.isNone then
    let chain ← openSenderInPlace
    modify fun (ratchet, entropy) => ({ ratchet with sender := some chain }, entropy)
  let (ratchet, _) ← get
  match ratchet.sender with
  | none => throw .missingChain
  | some chain =>
    modify fun (ratchet, entropy) => ({ ratchet with sender := some chain.next }, entropy)
    pure (chain.messageKey.encrypt chain.publicKey plain)

omit [Suite] in
/-- Recording keys one by one is recording them all, and it cannot fail. -/
theorem on_recordInPlace (keys : List SkippedKey) (ratchet : Ratchet) :
    (recordInPlace keys).on ratchet =
      (.ok (), { ratchet with skipped := ratchet.skipped.recordAll keys }) := by
  induction keys generalizing ratchet with
  | nil => rw [SkippedKeys.recordAll_nil]; rfl
  | cons key keys ih =>
    rw [recordInPlace, InPlace.on_bind, InPlace.on_modify]
    simp only [ih, SkippedKeys.recordAll_cons]

/-- With a skipped key, the call in place ends as the one without side effects says. -/
theorem on_decryptSkippedInPlace (ratchet : Ratchet) (key : MessageKey) (message : OlmMessage) :
    (decryptSkippedInPlace key message).on ratchet =
      InPlace.settle ratchet (ratchet.decryptSkipped key message) := by
  simp only [decryptSkippedInPlace, decryptSkipped, InPlace.on_bind, InPlace.on_lift]
  cases key.decrypt message with
  | error e => rfl
  | ok plain => rfl

/-- So it does on a chain that is held. -/
theorem on_decryptKnownInPlace (ratchet : Ratchet) (place : ℕ) (chain : ReceiverChain)
    (message : OlmMessage) :
    (decryptKnownInPlace ratchet.config place chain message).on ratchet =
      InPlace.settle ratchet (ratchet.decryptKnown place chain message) := by
  unfold decryptKnownInPlace decryptKnown
  by_cases hplace : message.index < chain.index
  · simp only [hplace, if_true]
    rfl
  · simp only [hplace, if_false, InPlace.on_bind, InPlace.on_lift]
    cases decryptOn ratchet.config chain message with
    | error e => rfl
    | ok result =>
      obtain ⟨plain, skipped, next⟩ := result
      simp only [InPlace.on_modify, on_recordInPlace]
      rfl

/-- So it does on a new chain. -/
theorem on_decryptNewInPlace (ratchet : Ratchet) (message : OlmMessage) :
    (decryptNewInPlace message).on ratchet =
      InPlace.settle ratchet (ratchet.decryptNew message) := by
  unfold decryptNewInPlace decryptNew
  simp only [InPlace.on_bind, InPlace.on_get]
  cases ratchet.sender with
  | none => rfl
  | some sender =>
    simp only [InPlace.on_bind, InPlace.on_lift]
    cases decryptOn ratchet.config
        ⟨message.ratchetKey, (ratchet.rootKey.step sender.keyPair message.ratchetKey).2⟩ message with
    | error e => rfl
    | ok result =>
      obtain ⟨plain, skipped, chain⟩ := result
      simp only [InPlace.on_modify, on_recordInPlace]
      rfl

/-- Decrypting in place ends as decryption says: nothing is written before it can fail. -/
theorem on_decryptInPlace (ratchet : Ratchet) (message : OlmMessage) :
    (decryptInPlace message).on ratchet = InPlace.settle ratchet (ratchet.decrypt message) := by
  unfold decryptInPlace decrypt
  simp only [InPlace.on_bind, InPlace.on_get]
  cases ratchet.skipped.find? message.ratchetKey message.index with
  | some key => exact on_decryptSkippedInPlace ratchet key message
  | none =>
    cases locate? message.ratchetKey ratchet.receivers with
    | some found => exact on_decryptKnownInPlace ratchet found.1 found.2 message
    | none => exact on_decryptNewInPlace ratchet message

/-- Encrypting in place ends as encryption says. -/
theorem on_encryptInPlace (ratchet : Ratchet) (plain : Bytes) (entropy : Entropy) :
    (encryptInPlace plain).on (ratchet, entropy) =
      InPlace.settle (ratchet, entropy) (ratchet.encrypt plain entropy) := by
  obtain ⟨rootKey, sender, receivers, skipped, config⟩ := ratchet
  cases sender with
  | some chain => rfl
  | none =>
    cases receivers with
    | nil => rfl
    | cons chain rest => rfl

end Ratchet

namespace Channel

/-- Decrypt a message in place; the channel remembers that it has received one. -/
def decryptInPlace (message : OlmMessage) : InPlace Channel RatchetError Bytes := do
  let plain ← InPlace.zoom ratchet (fun ratchet channel => { channel with ratchet })
    (Ratchet.decryptInPlace message)
  modify fun channel => { channel with received := true }
  pure plain

/-- Encrypt a text in place. -/
def encryptInPlace (plain : Bytes) : InPlace (Channel × Entropy) RatchetError OlmMessage :=
  InPlace.zoom (fun (channel, entropy) => (channel.ratchet, entropy))
    (fun (ratchet, entropy) (channel, _) => ({ channel with ratchet }, entropy))
    (Ratchet.encryptInPlace plain)

/-- Decrypting in place ends as decryption says. -/
theorem on_decryptInPlace (channel : Channel) (message : OlmMessage) :
    (decryptInPlace message).on channel = InPlace.settle channel (channel.decrypt message) := by
  simp only [decryptInPlace, decrypt, InPlace.on_bind, InPlace.on_zoom, Ratchet.on_decryptInPlace]
  cases channel.ratchet.decrypt message with
  | error e => rfl
  | ok result => rfl

/-- Encrypting in place ends as encryption says. -/
theorem on_encryptInPlace (channel : Channel) (plain : Bytes) (entropy : Entropy) :
    (encryptInPlace plain).on (channel, entropy) =
      InPlace.settle (channel, entropy) (channel.encrypt plain entropy) := by
  simp only [encryptInPlace, encrypt, InPlace.on_zoom, Ratchet.on_encryptInPlace]
  cases channel.ratchet.encrypt plain entropy with
  | error e => rfl
  | ok result => rfl

end Channel

namespace Session

/-- Decrypt a message in place and write the time. -/
def decryptInPlace (message : OlmMessage) (now : Clock) : InPlace (Session Channel) RatchetError Bytes := do
  let plain ← InPlace.zoom state (fun state session => { session with state })
    (Channel.decryptInPlace message)
  modify fun session => { session with lastUsed := now.seconds }
  pure plain

/-- Encrypt a text in place and write the time. -/
def encryptInPlace (plain : Bytes) (now : Clock) :
    InPlace (Session Channel × Entropy) RatchetError OlmMessage := do
  let message ← InPlace.zoom (fun (session, entropy) => (session.state, entropy))
    (fun (state, entropy) (session, _) => ({ session with state }, entropy))
    (Channel.encryptInPlace plain)
  modify fun (session, entropy) => ({ session with lastUsed := now.seconds }, entropy)
  pure message

/-- Decrypting in place ends as decryption says. -/
theorem on_decryptInPlace (session : Session Channel) (message : OlmMessage) (now : Clock) :
    (decryptInPlace message now).on session = InPlace.settle session (session.decrypt message now) := by
  simp only [decryptInPlace, decrypt, InPlace.on_bind, InPlace.on_zoom, Channel.on_decryptInPlace]
  cases session.state.decrypt message with
  | error e => rfl
  | ok result => rfl

/-- Encrypting in place ends as encryption says. -/
theorem on_encryptInPlace (session : Session Channel) (plain : Bytes) (now : Clock) (entropy : Entropy) :
    (encryptInPlace plain now).on (session, entropy) =
      InPlace.settle (session, entropy) (session.encrypt plain now entropy) := by
  simp only [encryptInPlace, encrypt, InPlace.on_bind, InPlace.on_zoom, Channel.on_encryptInPlace]
  cases session.state.encrypt plain entropy with
  | error e => rfl
  | ok result => rfl

end Session

/-- A message that decrypts with a key has the MAC that the key makes over its body. -/
theorem MessageKey.decrypt_eq_ok_iff (key : MessageKey) (message : OlmMessage) (plain : Bytes) :
    key.decrypt message = .ok plain ↔
      message.mac.bytes = (Suite.hmac key.cipher.macKey.bytes message.body).bytes.take 8 ∧
        key.cipher.decrypt? message.ciphertext = some plain := by
  have hmac : key.cipher.mac message.body = message.mac ↔
      message.mac.bytes = (Suite.hmac key.cipher.macKey.bytes message.body).bytes.take 8 := by
    constructor
    · intro h
      rw [← h]
      rfl
    · intro h
      exact Octets.ext h.symm
  unfold decrypt
  rw [← hmac]
  split
  · next h =>
    cases key.cipher.decrypt? message.ciphertext with
    | none => simp [h]
    | some text => simp [h]
  · next h => simp [h]

/-- No failing call on a ratchet, a channel or a session leaves a trace, whatever the state is; and
a message that was decrypted has the MAC that the key it names makes over its body. -/
theorem commits_only_verified (message : OlmMessage) (plain : Bytes) (now : Clock) :
    (Ratchet.decryptInPlace message).LeavesNoTrace ∧
      (Ratchet.encryptInPlace plain).LeavesNoTrace ∧
      (Channel.decryptInPlace message).LeavesNoTrace ∧
      (Channel.encryptInPlace plain).LeavesNoTrace ∧
      (Session.decryptInPlace message now).LeavesNoTrace ∧
      (Session.encryptInPlace plain now).LeavesNoTrace ∧
      ∀ ratchet text after, (Ratchet.decryptInPlace message).on ratchet = (.ok text, after) →
        ∃ key, ratchet.namedKey? message = some key ∧
          message.mac.bytes = (Suite.hmac key.cipher.macKey.bytes message.body).bytes.take 8 ∧
          key.cipher.decrypt? message.ciphertext = some text := by
  refine ⟨InPlace.leavesNoTrace_of_settle fun ratchet => ⟨_, Ratchet.on_decryptInPlace ratchet message⟩,
    InPlace.leavesNoTrace_of_settle fun (ratchet, entropy) =>
      ⟨_, Ratchet.on_encryptInPlace ratchet plain entropy⟩,
    InPlace.leavesNoTrace_of_settle fun channel => ⟨_, Channel.on_decryptInPlace channel message⟩,
    InPlace.leavesNoTrace_of_settle fun (channel, entropy) =>
      ⟨_, Channel.on_encryptInPlace channel plain entropy⟩,
    InPlace.leavesNoTrace_of_settle fun session => ⟨_, Session.on_decryptInPlace session message now⟩,
    InPlace.leavesNoTrace_of_settle fun (session, entropy) =>
      ⟨_, Session.on_encryptInPlace session plain now entropy⟩, ?_⟩
  intro ratchet text after hdecrypt
  rw [Ratchet.on_decryptInPlace] at hdecrypt
  have haccepts := (Ratchet.decrypt_eq_ok_iff ..).mp (InPlace.eq_ok_of_settle hdecrypt)
  obtain ⟨key, hnamed, hplain⟩ := haccepts.namedKey
  exact ⟨key, hnamed, (MessageKey.decrypt_eq_ok_iff key message text).mp hplain⟩

end RoomCrypt.Olm
