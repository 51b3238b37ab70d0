import RoomCrypt.Olm.Ratchet

/-!
# How a ratchet sends

A ratchet with a chain for sending sends on it. One without makes a chain with a fresh key pair for the
newest ratchet key of the other side, and fails only if it has none. What was received stays as it is.
-/

namespace RoomCrypt.Olm

variable [Suite]

namespace Ratchet

/-- A side with a chain for sending sends on it. -/
theorem encrypt_of_sender {ratchet : Ratchet} {chain : SenderChain}
    (hsender : ratchet.sender = some chain) (plain : Bytes) (entropy : Entropy) :
    ratchet.encrypt plain entropy = .ok (chain.messageKey.encrypt chain.publicKey plain,
      { ratchet with sender := some chain.next }, entropy) := by
  simp only [encrypt, hsender]
  rfl

/-- The chain for sending that a side makes with a fresh secret for the ratchet key of the other side. -/
def freshSender (ratchet : Ratchet) (entropy : Entropy) (ratchetKey : Curve25519Key) : SenderChain :=
  let pair := RatchetKeyPair.ofSecret ⟨(entropy.draw 32).1⟩
  ⟨pair, (ratchet.rootKey.step pair ratchetKey).2⟩

/-- Its first message is at place 0. -/
theorem index_freshSender (ratchet : Ratchet) (entropy : Entropy) (ratchetKey : Curve25519Key) :
    (ratchet.freshSender entropy ratchetKey).index = 0 := rfl

/-- The ratchet after it has sent the first message on such a chain. -/
def afterFresh (ratchet : Ratchet) (entropy : Entropy) (ratchetKey : Curve25519Key) : Ratchet :=
  { ratchet with
    rootKey := (ratchet.rootKey.step (.ofSecret ⟨(entropy.draw 32).1⟩) ratchetKey).1
    sender := some (ratchet.freshSender entropy ratchetKey).next }

/-- A side without a chain for sending makes one and sends on it. -/
theorem encrypt_of_receiver {ratchet : Ratchet} {ratchetKey : Curve25519Key}
    (hsender : ratchet.sender = none)
    (hreceiver : (ratchet.receivers.map (·.ratchetKey)).head? = some ratchetKey) (plain : Bytes)
    (entropy : Entropy) :
    let chain := ratchet.freshSender entropy ratchetKey
    ratchet.encrypt plain entropy = .ok (chain.messageKey.encrypt chain.publicKey plain,
      ratchet.afterFresh entropy ratchetKey, (entropy.draw 32).2) := by
  obtain ⟨rootKey, sender, receivers, skipped, config⟩ := ratchet
  cases hsender
  cases receivers with
  | nil => cases hreceiver
  | cons chain rest =>
    cases hreceiver
    rfl

/-- Encryption succeeds as long as there is a chain of either kind. -/
theorem exists_encrypt {ratchet : Ratchet} (h : ratchet.sender.isSome = true ∨ ratchet.receivers ≠ [])
    (plain : Bytes) (entropy : Entropy) :
    ∃ message after left, ratchet.encrypt plain entropy = .ok (message, after, left) := by
  cases hsender : ratchet.sender with
  | some chain => exact ⟨_, _, _, encrypt_of_sender hsender plain entropy⟩
  | none =>
    have hne : ratchet.receivers ≠ [] := h.resolve_left (by simp [hsender])
    obtain ⟨chain, rest, hreceivers⟩ := List.exists_cons_of_ne_nil hne
    have hreceiver : (ratchet.receivers.map (·.ratchetKey)).head? = some chain.ratchetKey := by
      rw [hreceivers]
      rfl
    exact ⟨_, _, _, encrypt_of_receiver hsender hreceiver plain entropy⟩

section

variable {ratchet after : Ratchet} {plain : Bytes} {entropy left : Entropy} {message : OlmMessage}

/-- Encryption succeeds on the chain that is there, or on a fresh one. -/
theorem eq_of_encrypt (h : ratchet.encrypt plain entropy = .ok (message, after, left)) :
    (∃ chain, ratchet.sender = some chain ∧ after = { ratchet with sender := some chain.next }) ∨
      ∃ ratchetKey, after = ratchet.afterFresh entropy ratchetKey := by
  obtain ⟨rootKey, sender, receivers, skipped, config⟩ := ratchet
  cases sender with
  | some chain =>
    cases h
    exact Or.inl ⟨chain, rfl, rfl⟩
  | none =>
    cases receivers with
    | nil => cases h
    | cons chain rest =>
      cases h
      exact Or.inr ⟨chain.ratchetKey, rfl⟩

/-- Encryption changes nothing that was received. -/
theorem encrypt_frame (h : ratchet.encrypt plain entropy = .ok (message, after, left)) :
    after.receivers = ratchet.receivers ∧ after.skipped = ratchet.skipped ∧ after.config = ratchet.config := by
  rcases eq_of_encrypt h with ⟨chain, -, rfl⟩ | ⟨ratchetKey, rfl⟩
  · exact ⟨rfl, rfl, rfl⟩
  · exact ⟨rfl, rfl, rfl⟩

end

end Ratchet

end RoomCrypt.Olm
