import RoomCrypt.Json.Key
import RoomCrypt.Megolm.Receiver

/-!
# Room sessions

A room session is a receiver together with the room it belongs to, the device it came from and how
it got to us. What holds the receiver is a parameter: the receiver itself, or the place where it is
kept for all who share it.

A stored room session is a record around the pickle of its receiver.
-/

namespace RoomCrypt.Megolm

variable [Suite]

/-- The only algorithm of room sessions. -/
def algorithmName : String := "m.megolm.v1.aes-sha2"

/-- What we know about a room session. -/
structure InboundSession (σ : Type) where
  /-- The receiver, or where it is kept. -/
  state : σ
  /-- The identifier of the session. -/
  sessionId : String
  /-- The first place that the receiver knows. -/
  firstKnownIndex : UInt32
  /-- The identity key of the device that made the session. -/
  senderKey : Curve25519Key
  /-- The keys that the device claims to have, by algorithm. -/
  claimedKeys : Dict String
  room : RoomId
  /-- The identity keys of the devices that passed the session on, oldest first. -/
  forwardingChain : List String
  /-- When we got the session, in milliseconds. -/
  receivedAt : Time
  /-- How long the session is to be used. -/
  maxAge : Option Duration
  /-- For how many messages the session is to be used. -/
  maxMessages : Option UInt64
  /-- The version of the backup that the session comes from. -/
  backupVersion : Option String
  /-- Did the session come from a backup or an export? -/
  imported : Bool
  algorithm : String
deriving DecidableEq

/-- A room session as it is stored. -/
structure PickledInboundSession where
  /-- The Base64 text of the pickle of the receiver. -/
  pickle : String
  senderKey : Curve25519Key
  claimedKeys : Dict String
  room : RoomId
  forwardingChain : List String
  receivedAt : Time
  maxAgeMs : Option UInt64
  maxMessages : Option UInt64
  backupVersion : Option String
  imported : Bool
  algorithm : String
deriving DecidableEq

namespace PickledInboundSession

/-- The names of the record. -/
def fieldNames : List String :=
  ["pickle", "sender_key", "sender_claimed_keys", "room_id", "forwarding_chain", "received_at",
    "max_age_ms", "max_messages", "key_backup_version", "imported", "algorithm"]

/-- The record as a value. What is not known is left out. -/
def toJson (pickled : PickledInboundSession) : Json :=
  .objectOfOptions
    [("pickle", some (.text pickled.pickle)), ("sender_key", some pickled.senderKey.toJson),
      ("sender_claimed_keys", some pickled.claimedKeys.toJson),
      ("room_id", some (.text pickled.room.text)),
      ("forwarding_chain", some (.ofTexts pickled.forwardingChain)),
      ("received_at", some (.ofNat pickled.receivedAt.count)),
      ("max_age_ms", pickled.maxAgeMs.map fun n => .ofNat n.toNat),
      ("max_messages", pickled.maxMessages.map fun n => .ofNat n.toNat),
      ("key_backup_version", pickled.backupVersion.map .text),
      ("imported", some (.bool pickled.imported)),
      ("algorithm", some (.text pickled.algorithm))]

/-- Read the record. -/
def ofJson? (value : Json) : Option PickledInboundSession := do
  let record ← value.record? fieldNames
  some {
    pickle := ← record.required? "pickle" Json.text?
    senderKey := ← record.required? "sender_key" Curve25519Key.ofJson?
    claimedKeys := ← record.required? "sender_claimed_keys" Dict.ofJson?
    room := ← record.required? "room_id" RoomId.ofJson?
    forwardingChain := ← record.withDefault? "forwarding_chain" [] (Json.list? Json.text?)
    receivedAt := ← record.required? "received_at" Time.ofJson?
    maxAgeMs := ← record.optional? "max_age_ms" Json.uint64?
    maxMessages := ← record.optional? "max_messages" Json.uint64?
    backupVersion := ← record.optional? "key_backup_version" Json.text?
    imported := ← record.required? "imported" Json.bool?
    algorithm := ← record.withDefault? "algorithm" algorithmName Json.text? }

instance : ToJson PickledInboundSession := ⟨toJson⟩

instance : OfJson PickledInboundSession := ⟨ofJson?⟩

end PickledInboundSession

namespace InboundSession

/-- The same session with its receiver held otherwise. -/
def withState {σ τ : Type} (session : InboundSession σ) (state : τ) : InboundSession τ :=
  { session with state }

/-- A session that has just come in. -/
def ofReceiver (receiver : Receiver) (senderKey : Curve25519Key) (claimedKeys : Dict String)
    (room : RoomId) (imported : Bool) (now : Clock) : InboundSession Receiver where
  state := receiver
  sessionId := receiver.sessionId
  firstKnownIndex := receiver.firstKnownIndex
  senderKey
  claimedKeys
  room
  forwardingChain := []
  receivedAt := now.time
  maxAge := none
  maxMessages := none
  backupVersion := none
  imported
  algorithm := algorithmName

/-- The session of a signed key, from the device that has the given keys. -/
def ofShared (senderKey : Curve25519Key) (signingKey : Ed25519Key) (room : RoomId)
    (key : SharedKey) (now : Clock) : InboundSession Receiver :=
  ofReceiver (.ofShared key) senderKey
    (Dict.empty.insert signingAlgorithm signingKey.toBase64) room false now

/-- The session of a key that was passed on. -/
def ofExported (senderKey : Curve25519Key) (claimedKeys : Dict String) (room : RoomId)
    (key : ExportedKey) (now : Clock) : InboundSession Receiver :=
  ofReceiver (.ofExported key) senderKey claimedKeys room true now

/-- The signing key that the device claims to have, if it is one. -/
def claimedSigningKey? {σ : Type} (session : InboundSession σ) : Option Ed25519Key :=
  session.claimedKeys.find? signingAlgorithm >>= Ed25519Key.ofBase64?

/-- Decrypt a message. -/
def decrypt (session : InboundSession Receiver) (message : MegolmMessage) :
    Except DecryptError (DecryptedMessage × InboundSession Receiver) := do
  let (decrypted, receiver) ← session.state.decrypt message
  pure (decrypted, { session with state := receiver })

/-- The session key from a place on, or from the first one that is known if that is later. Such a key is there, as the
first place of a session is that of its receiver. -/
def exportFrom (session : InboundSession Receiver) (index : UInt32) : ExportedKey :=
  match session.state.exportAt? (max session.firstKnownIndex index) with
  | some key => key
  | none => .ofRatchet session.state.initial session.state.signingKey

/-- The session key from the first place on that is known. -/
def exportKey (session : InboundSession Receiver) : ExportedKey :=
  session.exportFrom session.firstKnownIndex

/-- The session as it is stored. -/
def pickle (session : InboundSession Receiver) : PickledInboundSession where
  pickle := Base64.encode (toPickle session.state)
  senderKey := session.senderKey
  claimedKeys := session.claimedKeys
  room := session.room
  forwardingChain := session.forwardingChain
  receivedAt := session.receivedAt
  maxAgeMs := session.maxAge.map Duration.clampedMilliseconds
  maxMessages := session.maxMessages
  backupVersion := session.backupVersion
  imported := session.imported
  algorithm := session.algorithm

/-- Restore a session. -/
def ofPickle? (pickled : PickledInboundSession) :
    Except PickleError (InboundSession Receiver) := do
  match Base64.decode? pickled.pickle with
  | none => throw (.malformed .invalidBase64)
  | some bytes =>
    let receiver ← ofWholePickle? Receiver bytes
    pure {
      state := receiver
      sessionId := receiver.sessionId
      firstKnownIndex := receiver.firstKnownIndex
      senderKey := pickled.senderKey
      claimedKeys := pickled.claimedKeys
      room := pickled.room
      forwardingChain := pickled.forwardingChain
      receivedAt := pickled.receivedAt
      maxAge := pickled.maxAgeMs.map Duration.ofMilliseconds
      maxMessages := pickled.maxMessages
      backupVersion := pickled.backupVersion
      imported := pickled.imported
      algorithm := pickled.algorithm }

end InboundSession

end RoomCrypt.Megolm
