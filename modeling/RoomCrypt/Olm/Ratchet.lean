import RoomCrypt.Entropy
import RoomCrypt.Json.Form
import RoomCrypt.Olm.SkippedKeys

/-!
# The double ratchet

Two devices exchange messages on chains, and every change of direction mixes a fresh key agreement
into the root key from which the next chain starts. The side that gets a new ratchet key opens a
chain for receiving and gives up its chain for sending; it opens a new one when it next sends.

Decryption commits nothing before the message has been verified: each of its three ways (a key kept
from before, a chain that is there, a new chain) works on copies. State is bounded: old chains and
old skipped keys are given up, and a message too far ahead is refused.
-/

namespace RoomCrypt.Olm

variable [Suite]

/-- Bounds of the state of a ratchet. -/
structure RatchetConfig where
  /-- How many chains for receiving are kept. -/
  maxReceiverChains : Nat := 5
  /-- How many skipped message keys are kept. -/
  maxSkippedKeys : Nat := SkippedKeys.defaultCapacity
  /-- How many places a message may be ahead. -/
  maxGap : UInt32 := 2000
deriving DecidableEq, Inhabited

namespace RatchetConfig

/-- The bounds as a list: chains, skipped keys, places. -/
instance : ToJson RatchetConfig where
  toJson config := .array
    [toJson config.maxReceiverChains, toJson config.maxSkippedKeys, toJson config.maxGap]

/-- Read bounds. Those that are not given are the usual ones. -/
def ofJson? (value : Json) : Option RatchetConfig := do
  let record ← value.record? ["chains", "skipped", "gap"]
  let usual : RatchetConfig := {}
  let chains ← record.optional? "chains" OfJson.ofJson?
  let skipped ← record.optional? "skipped" OfJson.ofJson?
  let gap ← record.optional? "gap" OfJson.ofJson?
  some
    ⟨chains.getD usual.maxReceiverChains, skipped.getD usual.maxSkippedKeys,
      gap.getD usual.maxGap⟩

instance : OfJson RatchetConfig := ⟨ofJson?⟩

end RatchetConfig

/-- The secret from which the next chain is made. -/
structure RootKey where
  key : Octets 32
deriving DecidableEq, Inhabited

namespace RootKey

/-- The halves of 64 derived bytes: a root key and the start of a chain. -/
def split (octets : Octets 64) : RootKey × ChainKey :=
  let (root, chain) := octets.halves
  (⟨root⟩, .ofKey chain)

/-- The first root key and chain, from the secret that both sides share. -/
def ofSharedSecret (secret : Bytes) : RootKey × ChainKey :=
  split (deriveKey noSalt secret "OLM_ROOT".toUTF8.toList 64)

/-- The next root key and chain, from a key agreement between our and their ratchet key. -/
def step (root : RootKey) (ours : RatchetKeyPair) (theirs : Curve25519Key) : RootKey × ChainKey :=
  split (deriveKey root.key.bytes (Suite.agree ours.secret theirs).bytes
    "OLM_RATCHET".toUTF8.toList 64)

instance : ToPickle RootKey where
  size _ := 32
  write root := Pickler.bytes root.key.bytes

instance : OfPickle RootKey where
  read := RootKey.mk <$> Unpickler.octets 32

end RootKey

/-- The state of one side. -/
structure Ratchet where
  rootKey : RootKey
  /-- The chain for sending, if there is one. -/
  sender : Option SenderChain
  /-- The chains for receiving, newest first. -/
  receivers : List ReceiverChain
  skipped : SkippedKeys
  config : RatchetConfig
deriving DecidableEq, Inhabited

namespace Ratchet

/-- The side that opened the session: it can send at once. -/
def ofInitiator (secret : Bytes) (ours : RatchetKeyPair) : Ratchet :=
  let (rootKey, chainKey) := RootKey.ofSharedSecret secret
  ⟨rootKey, some ⟨ours, chainKey⟩, [], .withCapacity SkippedKeys.defaultCapacity, {}⟩

/-- The other side: it can receive from the first ratchet key. -/
def ofResponder (secret : Bytes) (theirs : Curve25519Key) : Ratchet :=
  let (rootKey, chainKey) := RootKey.ofSharedSecret secret
  ⟨rootKey, none, [⟨theirs, chainKey⟩], .withCapacity SkippedKeys.defaultCapacity, {}⟩

/-- The ratchet under other bounds; what exceeds them is given up, oldest first. -/
def withConfig (ratchet : Ratchet) (config : RatchetConfig) : Ratchet :=
  { ratchet with
    config
    receivers := ratchet.receivers.take config.maxReceiverChains
    skipped := ratchet.skipped.resize config.maxSkippedKeys }

/-- Open a chain for sending to the newest ratchet key of the other side, with a fresh key pair. -/
def openSender (ratchet : Ratchet) (entropy : Entropy) :
    Except RatchetError (SenderChain × Ratchet × Entropy) :=
  match ratchet.receivers with
  | [] => .error .missingChain
  | chain :: _ =>
    let (secret, entropy) := entropy.draw 32
    let pair := RatchetKeyPair.ofSecret ⟨secret⟩
    let (rootKey, chainKey) := ratchet.rootKey.step pair chain.ratchetKey
    .ok (⟨pair, chainKey⟩, { ratchet with rootKey }, entropy)

/-- Encrypt a text on the chain for sending, which is opened if there is none. -/
def encrypt (ratchet : Ratchet) (plain : Bytes) (entropy : Entropy) :
    Except RatchetError (OlmMessage × Ratchet × Entropy) := do
  let (chain, ratchet, entropy) ←
    match ratchet.sender with
    | some chain => pure (chain, ratchet, entropy)
    | none => ratchet.openSender entropy
  pure (chain.messageKey.encrypt chain.publicKey plain,
    { ratchet with sender := some chain.next }, entropy)

/-- The first chain of a ratchet key, with its place in the list. -/
def locate? (ratchetKey : Curve25519Key) : List ReceiverChain → Option (Nat × ReceiverChain)
  | [] => none
  | chain :: rest =>
    if chain.belongsTo ratchetKey then some (0, chain)
    else (locate? ratchetKey rest).map fun (i, chain) => (i + 1, chain)

/-- Decrypt a message on a chain that is not beyond it: the text, the keys that were passed over,
first place first, and the chain after the message. -/
def decryptOn (config : RatchetConfig) (chain : ReceiverChain) (message : OlmMessage) :
    Except RatchetError (Bytes × List SkippedKey × ReceiverChain) := do
  let gap := message.index - chain.index
  if config.maxGap < gap then throw (.tooManySkippedMessages gap config.maxGap)
  let (skipped, chain) := chain.skip gap.toNat
  let plain ← chain.messageKey.decrypt message
  pure (plain, skipped, chain.next)

/-- Decrypt a message with a key that was kept for it, which is then given up. -/
def decryptSkipped (ratchet : Ratchet) (key : MessageKey) (message : OlmMessage) :
    Except RatchetError (Bytes × Ratchet) := do
  let plain ← key.decrypt message
  pure (plain, { ratchet with skipped := ratchet.skipped.remove message.ratchetKey message.index })

/-- Decrypt a message on the chain at a place of the list. -/
def decryptKnown (ratchet : Ratchet) (place : Nat) (chain : ReceiverChain) (message : OlmMessage) :
    Except RatchetError (Bytes × Ratchet) := do
  if message.index < chain.index then throw (.replayOrUnknownMessage message.index)
  let (plain, skipped, chain) ← decryptOn ratchet.config chain message
  pure (plain,
    { ratchet with
      receivers := ratchet.receivers.set place chain
      skipped := ratchet.skipped.recordAll skipped })

/-- Decrypt the first message from a new ratchet key: a ratchet step opens its chain and ends our
chain for sending. -/
def decryptNew (ratchet : Ratchet) (message : OlmMessage) :
    Except RatchetError (Bytes × Ratchet) := do
  match ratchet.sender with
  | none => throw .missingChain
  | some sender =>
    let (rootKey, chainKey) := ratchet.rootKey.step sender.keyPair message.ratchetKey
    let (plain, skipped, chain) ←
      decryptOn ratchet.config ⟨message.ratchetKey, chainKey⟩ message
    pure (plain,
      { ratchet with
        rootKey
        sender := none
        receivers := (chain :: ratchet.receivers).take ratchet.config.maxReceiverChains
        skipped := ratchet.skipped.recordAll skipped })

/-- Decrypt a message. -/
def decrypt (ratchet : Ratchet) (message : OlmMessage) : Except RatchetError (Bytes × Ratchet) :=
  match ratchet.skipped.find? message.ratchetKey message.index with
  | some key => ratchet.decryptSkipped key message
  | none =>
    match locate? message.ratchetKey ratchet.receivers with
    | some (place, chain) => ratchet.decryptKnown place chain message
    | none => ratchet.decryptNew message

instance : ToPickle Ratchet where
  size ratchet :=
    ToPickle.size ratchet.rootKey + listPickleSize ratchet.sender.toList +
      listPickleSize ratchet.receivers + listPickleSize ratchet.skipped.keys
  write ratchet := do
    Pickler.value ratchet.rootKey
    Pickler.list ratchet.sender.toList
    Pickler.list ratchet.receivers
    Pickler.list ratchet.skipped.keys

/-- Read a ratchet that is to have the given bounds. One that exceeds them is refused. -/
def readWith (config : RatchetConfig) : Unpickler Ratchet := do
  let rootKey ← Unpickler.value RootKey
  let senders ← Unpickler.list SenderChain 1
  let receivers ← Unpickler.list ReceiverChain config.maxReceiverChains
  let skipped ← Unpickler.list SkippedKey config.maxSkippedKeys
  pure ⟨rootKey, senders.head?, receivers, .ofKeys skipped config.maxSkippedKeys, config⟩

end Ratchet

end RoomCrypt.Olm
