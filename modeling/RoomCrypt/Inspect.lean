import RoomCrypt.Backup.Encryption
import RoomCrypt.Megolm.Outbound
import RoomCrypt.Signatures
import RoomCrypt.Store.Memory
import RoomCrypt.Text.Hex

/-!
# What can be seen of keys and sessions

JSON forms that show what is inside of keys, messages, chains, sessions, devices and stores, for
tools that follow a conversation from both sides. Byte strings are shown in hexadecimal, and a long
state also by a fingerprint of its pickle. These forms show secrets, so they are no way to store or
send anything.
-/

namespace RoomCrypt

variable [Suite]

/-- Bytes as shown. -/
def shownBytes (bytes : Bytes) : Json := .text (Hex.encode bytes)

/-- A short name of bytes: the first eight bytes of their hash. -/
def fingerprint (bytes : Bytes) : Json := shownBytes ((Suite.digest bytes).bytes.take 8)

/-! ## Messages and session keys -/

instance : ToJson OlmMessage where
  toJson m := .object
    [("ratchet_key", toJson m.ratchetKey), ("chain_index", toJson m.index),
      ("ciphertext", shownBytes m.ciphertext), ("bytes", shownBytes m.toBytes),
      ("base64", toJson m.toBase64)]

instance : ToJson MegolmMessage where
  toJson m := .object
    [("message_index", toJson m.index), ("ciphertext", shownBytes m.ciphertext),
      ("signature", toJson m.signature.toBase64), ("bytes", shownBytes m.toBytes),
      ("base64", toJson m.toBase64)]

instance : ToJson Megolm.SharedKey where
  toJson key := .object [("bytes", shownBytes key.toBytes), ("base64", toJson key.toBase64)]

instance : ToJson Megolm.ExportedKey where
  toJson key := .object
    [("session_id", toJson key.sessionId), ("first_known_index", toJson key.index),
      ("bytes", shownBytes key.toBytes), ("base64", toJson key.toBase64)]

instance : ToJson Backup.RecoveryKey where
  toJson key := .object
    [("base58", toJson key.toBase58), ("base64", toJson key.toBase64),
      ("display", toJson key.toDisplayText), ("public_key", toJson key.publicKey),
      ("backup_key", toJson key.backupKey.key)]

/-! ## Sessions with devices -/

namespace Olm

instance : ToJson ChainKey where
  toJson key := .object [("index", toJson key.index), ("key", shownBytes key.key.bytes)]

instance : ToJson MessageKey where
  toJson key := .object [("index", toJson key.index), ("key", shownBytes key.key)]

instance : ToJson RatchetKeyPair where
  toJson pair := toJson pair.publicKey

instance : ToJson SenderChain where
  toJson chain := .object
    [("ratchet_key", toJson chain.publicKey), ("public", toJson chain.publicKey),
      ("index", toJson chain.index), ("chain_key", toJson chain.chainKey)]

instance : ToJson ReceiverChain where
  toJson chain := .object
    [("ratchet_key", toJson chain.ratchetKey), ("index", toJson chain.index),
      ("chain_key", toJson chain.chainKey)]

instance : ToJson SkippedKey where
  toJson key := .object
    [("ratchet_key", toJson key.ratchetKey), ("message_key", toJson key.messageKey)]

instance : ToJson SkippedKeys where
  toJson store := .object
    [("len", toJson store.keys.length), ("empty", toJson store.keys.isEmpty),
      ("capacity", toJson store.capacity), ("keys", toJson store.keys)]

/-- A ratchet: where each of its chains stands, and which keys it has skipped. -/
def Ratchet.members (r : Ratchet) : List (String × Json) :=
  let place (key : Curve25519Key) (index : UInt32) : Json := .array [toJson key, toJson index]
  [("sender", toJson (r.sender.map fun c => place c.publicKey c.index)),
    ("receivers", toJson (r.receivers.map fun c => place c.ratchetKey c.index)),
    ("skipped", toJson (r.skipped.keys.map fun k => place k.ratchetKey k.messageKey.index))]

instance : ToJson Ratchet where
  toJson r := .object (r.members ++ [("digest", fingerprint (toPickle r))])

/-- A channel: its ratchet, its identifier, and whether the other side has answered. -/
def Channel.members (c : Channel) : List (String × Json) :=
  c.ratchet.members ++
    [("session_id", toJson c.sessionId), ("received", toJson c.received),
      ("digest", fingerprint (toPickle c))]

instance : ToJson Channel := ⟨fun c => .object c.members⟩

instance : ToJson (Session Channel) where
  toJson s := .object
    (s.state.members ++
      [("sender_key", toJson s.senderKey), ("created", toJson s.created),
        ("used", toJson s.lastUsed)])

end Olm

/-! ## Sessions of rooms -/

namespace Megolm

instance : ToJson OutboundSession where
  toJson s := .object
    [("session_id", toJson s.sessionId), ("signing_key", toJson s.signingKey),
      ("index", toJson s.index)]

instance : ToJson DecryptedMessage where
  toJson m := .object [("plain", shownBytes m.plain), ("index", toJson m.index)]

instance : ToJson (InboundSession Receiver) where
  toJson s :=
    let pickled := s.pickle
    .object
      [("session_id", toJson s.sessionId), ("room", toJson s.room),
        ("sender_key", toJson s.senderKey), ("first", toJson s.firstKnownIndex),
        ("latest", toJson s.state.latest.index), ("verified", toJson s.state.verified),
        ("signing_key", toJson s.claimedSigningKey?), ("claimed", toJson s.claimedKeys),
        ("forwarding", toJson s.forwardingChain), ("received_at", toJson s.receivedAt),
        ("max_age_ms", toJson pickled.maxAgeMs),
        ("max_age", toJson (s.maxAge.map fun d => [d.seconds.toNat, d.nanoseconds.val])),
        ("max_messages", toJson s.maxMessages), ("version", toJson s.backupVersion),
        ("imported", toJson s.imported), ("algorithm", toJson s.algorithm),
        ("digest", fingerprint pickled.pickle.toUTF8.toList)]

end Megolm

/-! ## Signatures and devices -/

instance : ToJson Signature where
  toJson
    | .ed25519 signature => toJson ["ed25519", signature.toBase64]
    | .other text => toJson ["other", text]
    | .invalid text => toJson ["invalid", text]

instance : ToJson (Device DeviceTrust) where
  toJson d := .object
    [("user", toJson d.user), ("device", toJson d.deviceId), ("ed25519", toJson d.signingKey),
      ("curve25519", toJson d.identityKey), ("trust", toJson d.trust.localTrust),
      ("locally_trusted", toJson (d.trust.localTrust == .verified)),
      ("blacklisted", toJson (d.trust.localTrust == .blackListed)),
      ("cross_signing_trusted", toJson d.trust.crossSigned),
      ("verified", toJson d.trust.isVerified)]

/-! ## Stores -/

/-- What a store holds for rooms, and the master key that it knows. -/
def Store.MemoryStore.shown (store : MemoryStore) : Except StoreError Json := do
  let sessions ← store.allRoomSessions
  let named := sessions.map fun s =>
    ("|".intercalate [s.room.text, s.senderKey.toBase64, s.sessionId], toJson s)
  pure (.object
    [("count", toJson store.roomSessionCount), ("groups", .object named),
      ("version", toJson store.backupVersion),
      ("master", toJson (store.crossSigning.map (·.masterKey)))])

end RoomCrypt
