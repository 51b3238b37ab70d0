import RoomCrypt.Olm.Ratchet

/-!
# Channels between two devices

A channel is a ratchet together with the three public keys from whose agreement it was made. The
keys give the channel its identifier.
-/

namespace RoomCrypt.Olm

variable [Suite]

/-- The public keys of the agreement that opened a channel. -/
structure SessionKeys where
  /-- The identity key of the device that opened the channel. -/
  identity : Curve25519Key
  /-- A key of that device made for this channel. -/
  base : Curve25519Key
  /-- The one-time key of the other device. -/
  oneTime : Curve25519Key
deriving DecidableEq, Inhabited

/-- The identifier of a channel: the text of the hash of its three keys. -/
def SessionKeys.sessionId (keys : SessionKeys) : String :=
  Base64.encode (Suite.digest
    (keys.identity.octets.bytes ++ keys.base.octets.bytes ++ keys.oneTime.octets.bytes)).bytes

/-- A channel to another device. -/
structure Channel where
  keys : SessionKeys
  ratchet : Ratchet
  /-- Has a message been received? -/
  received : Bool
deriving DecidableEq, Inhabited

namespace Channel

/-- The channel of the side that opened it, with a fresh ratchet key. -/
def outbound (keys : SessionKeys) (secret : Bytes) (entropy : Entropy) : Channel × Entropy :=
  let (ratchetSecret, entropy) := entropy.draw 32
  (⟨keys, .ofInitiator secret (.ofSecret ⟨ratchetSecret⟩), false⟩, entropy)

/-- The channel of the other side, which has seen the first ratchet key. -/
def inbound (keys : SessionKeys) (secret : Bytes) (theirs : Curve25519Key) : Channel :=
  ⟨keys, .ofResponder secret theirs, false⟩

/-- The channel under other bounds. -/
def withConfig (channel : Channel) (config : RatchetConfig) : Channel :=
  { channel with ratchet := channel.ratchet.withConfig config }

/-- The identifier of the channel. -/
def sessionId (channel : Channel) : String :=
  channel.keys.sessionId

/-- Encrypt a text. -/
def encrypt (channel : Channel) (plain : Bytes) (entropy : Entropy) :
    Except RatchetError (OlmMessage × Channel × Entropy) := do
  let (message, ratchet, entropy) ← channel.ratchet.encrypt plain entropy
  pure (message, { channel with ratchet }, entropy)

/-- Decrypt a message. -/
def decrypt (channel : Channel) (message : OlmMessage) :
    Except RatchetError (Bytes × Channel) := do
  let (plain, ratchet) ← channel.ratchet.decrypt message
  pure (plain, { channel with ratchet, received := true })

/-- The version of the pickles we write and read. -/
def pickleVersion : UInt32 := 1

instance : ToPickle Channel where
  size channel :=
    4 + ToPickle.size channel.received + ToPickle.size channel.keys.identity +
      ToPickle.size channel.keys.base + ToPickle.size channel.keys.oneTime +
      ToPickle.size channel.ratchet
  write channel := do
    Pickler.uint32 pickleVersion
    Pickler.bool channel.received
    Pickler.value channel.keys.identity
    Pickler.value channel.keys.base
    Pickler.value channel.keys.oneTime
    Pickler.value channel.ratchet

/-- Read a channel that is to have the given bounds. -/
def readWith (config : RatchetConfig) : Unpickler Channel := do
  let version ← Unpickler.uint32
  if version ≠ pickleVersion then throw (.unsupportedVersion version)
  let received ← Unpickler.bool
  let identity ← Unpickler.value Curve25519Key
  let base ← Unpickler.value Curve25519Key
  let oneTime ← Unpickler.value Curve25519Key
  let ratchet ← Unpickler.nested (Ratchet.readWith config)
  pure ⟨⟨identity, base, oneTime⟩, ratchet, received⟩

instance : OfPickle Channel where
  read := readWith {}

/-- Read a channel from a pickle that has nothing else. -/
def ofPickleWith? (config : RatchetConfig) (source : Bytes) : Except PickleError Channel :=
  Unpickler.decodeAllWith (readWith config) source

end Channel

end RoomCrypt.Olm
