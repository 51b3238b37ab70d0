import Mathlib.Logic.Function.Basic
import RoomCrypt.Proofs.Olm.Commitment
import RoomCrypt.Proofs.Olm.Names

/-!
# Two ratchets in conversation

An initiator and a responder encrypt texts for each other, and any message that one of them has sent
can be delivered to the other at any time: late, more than once, or never. A party remembers what it
has sent and read, and which chains and skipped keys it gave up because they exceeded its bounds.
-/

namespace RoomCrypt.Olm

/-- The two sides of a conversation. -/
inductive Side where
  | initiator
  | responder
deriving DecidableEq

namespace Side

/-- The side that one talks to. -/
def other : Side → Side
  | initiator => responder
  | responder => initiator

@[simp] theorem other_other (side : Side) : side.other.other = side := by
  cases side <;> rfl

theorem other_ne (side : Side) : side.other ≠ side := by
  cases side <;> nofun

/-- There is no third side. -/
theorem eq_or_eq_other (side a : Side) : a = side ∨ a = side.other := by
  cases side <;> cases a <;> simp [other]

end Side

variable [Suite]

/-- A message and the text that it was made from. -/
structure Sent where
  message : OlmMessage
  plain : Bytes
deriving DecidableEq

/-- A ratchet and what happened to it in the conversation. -/
structure Party where
  ratchet : Ratchet
  /-- What it has sent, first message first. -/
  sent : List Sent
  /-- The messages that it has decrypted. -/
  read : List OlmMessage
  /-- The ratchet keys of the chains for receiving that exceeded the bound, as field elements. -/
  lostChains : List ℕ
  /-- The names of the skipped keys that exceeded the bound. -/
  lostKeys : List (ℕ × UInt32)

/-- The place at which the chain of a ratchet key stands, or place 0 if there is no such chain yet. -/
def Ratchet.standing (ratchet : Ratchet) (ratchetKey : Curve25519Key) : ℕ :=
  match locate? ratchetKey ratchet.receivers with
  | some (_, chain) => chain.index.toNat
  | none => 0

/-- The chain on which a message is read that has no skipped key: the one that is held, or else a
new one. -/
def Ratchet.chainFor? (ratchet : Ratchet) (message : OlmMessage) : Option ReceiverChain :=
  match locate? message.ratchetKey ratchet.receivers with
  | some (_, chain) => some chain
  | none => ratchet.sender.map fun sender => ratchet.freshChain sender message.ratchetKey

/-- The chains beyond the bound once a message is read: none, unless it opens a new chain. -/
def Ratchet.surplusChains (ratchet : Ratchet) (message : OlmMessage) : List ReceiverChain :=
  match ratchet.skipped.find? message.ratchetKey message.index,
    locate? message.ratchetKey ratchet.receivers, ratchet.chainFor? message with
  | none, none, some chain => (chain :: ratchet.receivers).drop ratchet.config.maxReceiverChains
  | _, _, _ => []

/-- The skipped keys beyond the bound once a message is read: none, unless it has no skipped key
itself. -/
def Ratchet.surplusKeys (ratchet : Ratchet) (message : OlmMessage) : List SkippedKey :=
  match ratchet.skipped.find? message.ratchetKey message.index, ratchet.chainFor? message with
  | none, some chain =>
    ((chain.passed (chain.gap message)).reverse ++ ratchet.skipped.keys).drop ratchet.config.maxSkippedKeys
  | _, _ => []

namespace Party

/-- A party at the beginning. -/
def start (ratchet : Ratchet) (config : RatchetConfig) : Party :=
  ⟨ratchet.withConfig config, [], [], [], []⟩

/-- The party after it has sent a message. -/
def afterSending (party : Party) (ratchet : Ratchet) (sent : Sent) : Party :=
  { party with ratchet, sent := party.sent ++ [sent] }

/-- The party after it has read a message. -/
def afterReading (party : Party) (ratchet : Ratchet) (message : OlmMessage) : Party where
  ratchet
  sent := party.sent
  read := message :: party.read
  lostChains := (party.ratchet.surplusChains message).map (·.ratchetKey.element) ++ party.lostChains
  lostKeys := (party.ratchet.surplusKeys message).map SkippedKey.name ++ party.lostKeys

end Party

/-- The two parties and all ratchet key pairs that were made, latest first. -/
structure Conversation where
  party : Side → Party
  pairs : List RatchetKeyPair

/-- What can happen in a conversation. -/
inductive Event where
  /-- A side encrypts a text. -/
  | send (side : Side) (plain : Bytes) (entropy : Entropy)
  /-- A side gets the message at a place among those that the other side has sent. -/
  | deliver (side : Side) (place : ℕ)

namespace Conversation

/-- A conversation that has just begun, from a shared secret and the initiator's first ratchet key. -/
def start (secret : Bytes) (first : Curve25519Secret) (config : Side → RatchetConfig) : Conversation where
  party
    | .initiator => .start (.ofInitiator secret (.ofSecret first)) (config .initiator)
    | .responder => .start (.ofResponder secret (Suite.publicKey first)) (config .responder)
  pairs := [.ofSecret first]

/-- Change one of the parties. -/
def put (talk : Conversation) (side : Side) (party : Party) : Conversation :=
  { talk with party := Function.update talk.party side party }

/-- The key pair that a ratchet has made, if it had no chain for sending before. -/
def newPair? (before after : Ratchet) : Option RatchetKeyPair :=
  if before.sender.isNone then after.sender.map (·.keyPair) else none

/-- The conversation after an event. -/
def step (talk : Conversation) : Event → Conversation
  | .send side plain entropy =>
    let party := talk.party side
    match (Ratchet.encryptInPlace plain).on (party.ratchet, entropy) with
    | (.ok message, ratchet, _) =>
      { talk.put side (party.afterSending ratchet ⟨message, plain⟩) with
        pairs := (newPair? party.ratchet ratchet).toList ++ talk.pairs }
    | (.error _, ratchet, _) => talk.put side { party with ratchet }
  | .deliver side place =>
    let party := talk.party side
    match (talk.party side.other).sent[place]? with
    | none => talk
    | some sent =>
      match (Ratchet.decryptInPlace sent.message).on party.ratchet with
      | (.ok _, ratchet) => talk.put side (party.afterReading ratchet sent.message)
      | (.error _, ratchet) => talk.put side { party with ratchet }

/-- The conversation after events, first event first. -/
def run (talk : Conversation) (events : List Event) : Conversation :=
  events.foldl step talk

/-- An event does not deliver a message that carries by chance the MAC of another chain: its own chain
was given up, no skipped key is held for it, and the chain that is made instead would accept its MAC. -/
def NoStrayMac (talk : Conversation) : Event → Prop
  | .send _ _ _ => True
  | .deliver side place =>
    ∀ sent ∈ (talk.party side.other).sent[place]?,
      sent.message.ratchetKey.element ∈ (talk.party side).lostChains →
        (talk.party side).ratchet.skipped.find? sent.message.ratchetKey sent.message.index = none →
          ∀ sender ∈ (talk.party side).ratchet.sender,
            (((talk.party side).ratchet.freshChain sender sent.message.ratchetKey).ahead
              sent.message.index.toNat).messageKey.cipher.mac sent.message.body ≠ sent.message.mac

instance (talk : Conversation) : (event : Event) → Decidable (talk.NoStrayMac event)
  | .send _ _ _ => inferInstanceAs (Decidable True)
  | .deliver _ _ => inferInstanceAs (Decidable (∀ sent ∈ _, _ → _ → ∀ sender ∈ _, _))

/-- No event of a run delivers such a message. -/
def NoStrayMacs (talk : Conversation) : List Event → Prop
  | [] => True
  | event :: events => talk.NoStrayMac event ∧ (talk.step event).NoStrayMacs events

instance instDecidableNoStrayMacs (talk : Conversation) : (events : List Event) → Decidable (talk.NoStrayMacs events)
  | [] => inferInstanceAs (Decidable True)
  | event :: events =>
    have := instDecidableNoStrayMacs (talk.step event) events
    inferInstanceAs (Decidable (_ ∧ _))

end Conversation

end RoomCrypt.Olm
