import RoomCrypt.Proofs.Olm.Commitment

/-!
# The log of a ratchet

A ratchet is followed through any calls, on messages from anyone. Next to the ratchet stand the
ratchet keys of all chains for receiving that there ever were, and the messages that it has decrypted.
-/

namespace RoomCrypt.Olm

variable [Suite]

/-- How a ratchet begins. -/
inductive Origin where
  /-- As the side that opened the session. -/
  | initiator (secret : Bytes) (ours : RatchetKeyPair)
  /-- As the other side. -/
  | responder (secret : Bytes) (theirs : Curve25519Key)

/-- The ratchet at its beginning. -/
def Origin.ratchet : Origin → Ratchet
  | initiator secret ours => .ofInitiator secret ours
  | responder secret theirs => .ofResponder secret theirs

/-- A call on a ratchet. -/
inductive RatchetCall where
  | encrypt (plain : Bytes) (entropy : Entropy)
  | decrypt (message : OlmMessage)

/-- A ratchet and what happened to it. -/
structure RatchetLog where
  ratchet : Ratchet
  /-- The ratchet keys of all chains for receiving that there ever were, as field elements. -/
  chainKeys : List ℕ
  /-- The messages that were decrypted, latest first. -/
  accepted : List OlmMessage

namespace RatchetLog

/-- The log of a ratchet that has just begun, under some bounds. -/
def start (origin : Origin) (config : RatchetConfig) : RatchetLog where
  ratchet := origin.ratchet.withConfig config
  chainKeys := origin.ratchet.receivers.map (·.ratchetKey.element)
  accepted := []

/-- Does the ratchet need a new chain for a message? -/
def opensChain (ratchet : Ratchet) (message : OlmMessage) : Bool :=
  (ratchet.skipped.find? message.ratchetKey message.index).isNone &&
    (Ratchet.locate? message.ratchetKey ratchet.receivers).isNone

/-- The log after a call. -/
def step (log : RatchetLog) : RatchetCall → RatchetLog
  | .encrypt plain entropy =>
    { log with ratchet := ((Ratchet.encryptInPlace plain).on (log.ratchet, entropy)).2.1 }
  | .decrypt message =>
    match (Ratchet.decryptInPlace message).on log.ratchet with
    | (.ok _, ratchet) =>
      { ratchet
        chainKeys :=
          if opensChain log.ratchet message then message.ratchetKey.element :: log.chainKeys
          else log.chainKeys
        accepted := message :: log.accepted }
    | (.error _, ratchet) => { log with ratchet }

/-- The log after calls, first call first. -/
def run (log : RatchetLog) (calls : List RatchetCall) : RatchetLog :=
  calls.foldl step log

/-- The log after a decryption that succeeded. -/
def afterDecrypt (log : RatchetLog) (message : OlmMessage) (after : Ratchet) : RatchetLog where
  ratchet := after
  chainKeys :=
    if opensChain log.ratchet message then message.ratchetKey.element :: log.chainKeys else log.chainKeys
  accepted := message :: log.accepted

/-- A decryption that fails leaves the log as it is. -/
theorem step_decrypt (log : RatchetLog) (message : OlmMessage) :
    log.step (.decrypt message) = log ∨
      ∃ plain after, log.ratchet.Accepts message plain after ∧
        log.step (.decrypt message) = log.afterDecrypt message after := by
  cases hdecrypt : log.ratchet.decrypt message with
  | error e =>
    left
    simp only [step, Ratchet.on_decryptInPlace, hdecrypt]
    rfl
  | ok result =>
    obtain ⟨plain, after⟩ := result
    right
    refine ⟨plain, after, (Ratchet.decrypt_eq_ok_iff ..).mp hdecrypt, ?_⟩
    simp only [step, Ratchet.on_decryptInPlace, hdecrypt]
    rfl

/-- Nothing that happened is forgotten. -/
theorem suffix_step (log : RatchetLog) (call : RatchetCall) :
    log.accepted <:+ (log.step call).accepted ∧ log.chainKeys <:+ (log.step call).chainKeys := by
  cases call with
  | encrypt plain entropy => exact ⟨List.suffix_rfl, List.suffix_rfl⟩
  | decrypt message =>
    rcases log.step_decrypt message with hsame | ⟨plain, after, -, hstep⟩
    · rw [hsame]
      exact ⟨List.suffix_rfl, List.suffix_rfl⟩
    · rw [hstep]
      refine ⟨List.suffix_cons _ _, ?_⟩
      unfold afterDecrypt
      split
      · exact List.suffix_cons _ _
      · exact List.suffix_rfl

/-- The last call of a run works on what the calls before it left. -/
theorem run_append_singleton (log : RatchetLog) (calls : List RatchetCall) (call : RatchetCall) :
    log.run (calls ++ [call]) = (log.run calls).step call := by
  simp [run]

end RatchetLog

end RoomCrypt.Olm
