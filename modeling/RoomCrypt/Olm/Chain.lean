import RoomCrypt.Failure
import RoomCrypt.Cipher
import RoomCrypt.Message
import RoomCrypt.Pickle.Keys

/-!
# Chains

A chain makes one message key after the other out of a chain key that is hashed forward with each
step, so that no step can be taken back. A chain for sending belongs to a ratchet key pair of ours,
and a chain for receiving to a ratchet key of the other side.
-/

namespace RoomCrypt.Olm

variable [Suite]

/-- The key of a chain at one of its places. -/
structure ChainKey where
  key : Octets 32
  /-- The place of the message key that comes next. -/
  index : UInt32
deriving DecidableEq, Inhabited

/-- The key of a single message. -/
structure MessageKey where
  key : Bytes
  /-- The place of the message on its chain. -/
  index : UInt32
deriving DecidableEq, Inhabited

namespace ChainKey

/-- The start of a chain. -/
def ofKey (key : Octets 32) : ChainKey := ⟨key, 0⟩

/-- The chain key one place further. Places are counted modulo `2 ^ 32`. -/
def next (chain : ChainKey) : ChainKey :=
  ⟨Suite.hmac chain.key.bytes [2], chain.index + 1⟩

/-- The message key at the place of the chain key. -/
def messageKey (chain : ChainKey) : MessageKey :=
  ⟨(Suite.hmac chain.key.bytes [1]).bytes, chain.index⟩

instance : ToPickle ChainKey where
  size _ := 36
  write chain := do
    Pickler.bytes chain.key.bytes
    Pickler.uint32 chain.index

instance : OfPickle ChainKey where
  read := do
    let key ← Unpickler.octets 32
    let index ← Unpickler.uint32
    pure ⟨key, index⟩

end ChainKey

/-- Why a ratchet refuses a message or cannot make one. -/
inductive RatchetError where
  /-- The message was read before, or its key was given up. -/
  | replayOrUnknownMessage (index : UInt32)
  /-- Too many messages lie between the last one and this one. -/
  | tooManySkippedMessages (skipped max : UInt32)
  /-- The MAC is wrong. -/
  | invalidMac
  /-- The padding of the text is wrong. -/
  | invalidPadding
  /-- There is no chain to start from. -/
  | missingChain
deriving DecidableEq

/-- The text of an error. -/
def RatchetError.message : RatchetError → String
  | replayOrUnknownMessage index =>
    s!"the message with chain index {index} was already decrypted or its key was discarded"
  | tooManySkippedMessages skipped max =>
    s!"the message requires skipping {skipped} message keys, at most {max} are allowed"
  | invalidMac => "the MAC of the Olm message didn't match"
  | invalidPadding => "the decrypted Olm message had invalid padding"
  | missingChain => "the ratchet doesn't have a chain that can be used to encrypt or decrypt"

/-- The word for an error. -/
def RatchetError.kind : RatchetError → String
  | replayOrUnknownMessage _ => "ReplayOrUnknownMessage"
  | tooManySkippedMessages _ _ => "TooManySkippedMessages"
  | invalidMac => "InvalidMac"
  | invalidPadding => "InvalidPadding"
  | missingChain => "MissingChain"

instance : Failure RatchetError := ⟨RatchetError.kind, fun error => some error.message⟩

namespace MessageKey

/-- The context in which the keys of a message are derived. -/
def context : String := "OLM_KEYS"

/-- The cipher of the message. -/
def cipher (key : MessageKey) : Cipher :=
  Cipher.derive key.key context

/-- Encrypt a text into a message sent from a ratchet key. -/
def encrypt (key : MessageKey) (ratchetKey : Curve25519Key) (plain : Bytes) : OlmMessage :=
  let ciphertext := key.cipher.encrypt plain
  let body := OlmMessage.encodeBody ratchetKey key.index ciphertext
  ⟨ratchetKey, key.index, ciphertext, body, key.cipher.mac body⟩

/-- Check the MAC of a message and decrypt it. -/
def decrypt (key : MessageKey) (message : OlmMessage) : Except RatchetError Bytes :=
  if key.cipher.mac message.body = message.mac then
    match key.cipher.decrypt? message.ciphertext with
    | some plain => .ok plain
    | none => .error .invalidPadding
  else .error .invalidMac

instance : ToPickle MessageKey where
  size _ := 36
  write key := do
    Pickler.fixed key.key 32
    Pickler.uint32 key.index

instance : OfPickle MessageKey where
  read := do
    let key ← Unpickler.octets 32
    let index ← Unpickler.uint32
    pure ⟨key.bytes, index⟩

end MessageKey

/-- A key pair of ours that takes part in a ratchet step. -/
structure RatchetKeyPair where
  secret : Curve25519Secret
  /-- The public key as it is written; it is the one of the secret as a field element. -/
  publicKey : Curve25519Key
deriving DecidableEq, Inhabited

namespace RatchetKeyPair

/-- The key pair of a secret. -/
def ofSecret (secret : Curve25519Secret) : RatchetKeyPair :=
  ⟨secret, Suite.publicKey secret⟩

instance : ToPickle RatchetKeyPair where
  size _ := 64
  write pair := do
    Pickler.value pair.publicKey
    Pickler.bytes pair.secret.octets.bytes

instance : OfPickle RatchetKeyPair where
  read := do
    let publicKey ← Unpickler.value Curve25519Key
    let secret := ⟨← Unpickler.octets 32⟩
    if (Suite.publicKey secret).same publicKey then pure ⟨secret, publicKey⟩
    else throw (.malformed .keyPairMismatch)

end RatchetKeyPair

/-- The chain of our next messages. -/
structure SenderChain where
  keyPair : RatchetKeyPair
  chainKey : ChainKey
deriving DecidableEq, Inhabited

namespace SenderChain

/-- The ratchet key that the other side sees on our messages. -/
def publicKey (chain : SenderChain) : Curve25519Key :=
  chain.keyPair.publicKey

/-- The place of the next message. -/
def index (chain : SenderChain) : UInt32 :=
  chain.chainKey.index

/-- The key of the next message. -/
def messageKey (chain : SenderChain) : MessageKey :=
  chain.chainKey.messageKey

/-- The chain one place further. -/
def next (chain : SenderChain) : SenderChain :=
  { chain with chainKey := chain.chainKey.next }

instance : ToPickle SenderChain where
  size chain := ToPickle.size chain.keyPair + ToPickle.size chain.chainKey
  write chain := do
    Pickler.value chain.keyPair
    Pickler.value chain.chainKey

instance : OfPickle SenderChain where
  read := do
    let keyPair ← Unpickler.value RatchetKeyPair
    let chainKey ← Unpickler.value ChainKey
    pure ⟨keyPair, chainKey⟩

end SenderChain

/-- A message key that was passed over, kept for the case that its message still comes. -/
structure SkippedKey where
  /-- The ratchet key of the chain of the message. -/
  ratchetKey : Curve25519Key
  messageKey : MessageKey
deriving DecidableEq, Inhabited

namespace SkippedKey

/-- Is it the key of the message at a place of the chain of a ratchet key? -/
def isFor (key : SkippedKey) (ratchetKey : Curve25519Key) (index : UInt32) : Bool :=
  key.ratchetKey.same ratchetKey && key.messageKey.index == index

instance : ToPickle SkippedKey where
  size key := ToPickle.size key.ratchetKey + ToPickle.size key.messageKey
  write key := do
    Pickler.value key.ratchetKey
    Pickler.value key.messageKey

instance : OfPickle SkippedKey where
  read := do
    let ratchetKey ← Unpickler.value Curve25519Key
    let messageKey ← Unpickler.value MessageKey
    pure ⟨ratchetKey, messageKey⟩

end SkippedKey

/-- The chain of the messages that the other side sends from one of its ratchet keys. -/
structure ReceiverChain where
  ratchetKey : Curve25519Key
  chainKey : ChainKey
deriving DecidableEq, Inhabited

namespace ReceiverChain

/-- The place of the next message. -/
def index (chain : ReceiverChain) : UInt32 :=
  chain.chainKey.index

/-- The key of the next message. -/
def messageKey (chain : ReceiverChain) : MessageKey :=
  chain.chainKey.messageKey

/-- Is it the chain of a ratchet key? -/
def belongsTo (chain : ReceiverChain) (ratchetKey : Curve25519Key) : Bool :=
  chain.ratchetKey.same ratchetKey

/-- The chain one place further. -/
def next (chain : ReceiverChain) : ReceiverChain :=
  { chain with chainKey := chain.chainKey.next }

/-- Pass over a number of places: their keys, first place first, and the chain after them. -/
def skip : Nat → ReceiverChain → List SkippedKey × ReceiverChain
  | 0, chain => ([], chain)
  | count + 1, chain =>
    let (keys, last) := skip count chain.next
    (⟨chain.ratchetKey, chain.messageKey⟩ :: keys, last)

instance : ToPickle ReceiverChain where
  size chain := ToPickle.size chain.ratchetKey + ToPickle.size chain.chainKey
  write chain := do
    Pickler.value chain.ratchetKey
    Pickler.value chain.chainKey

instance : OfPickle ReceiverChain where
  read := do
    let ratchetKey ← Unpickler.value Curve25519Key
    let chainKey ← Unpickler.value ChainKey
    pure ⟨ratchetKey, chainKey⟩

end ReceiverChain

end RoomCrypt.Olm
