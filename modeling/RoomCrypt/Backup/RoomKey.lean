import RoomCrypt.Json.Key
import RoomCrypt.Megolm.SessionKey

/-!
# Room keys in a backup

A backup holds encrypted room keys by room and session. A room key names neither its room nor its
session: both are given by its place.
-/

namespace RoomCrypt.Backup

variable [Suite]

/-- A room key as it is encrypted for a backup. -/
structure RoomKey where
  algorithm : String
  /-- The identity key of the device that made the session. -/
  senderKey : Curve25519Key
  sessionKey : Megolm.ExportedKey
  /-- The keys that the device claims to have, by algorithm. -/
  claimedKeys : Dict String
  /-- The identity keys of the devices that passed the key on, oldest first. -/
  forwardingChain : List String
deriving DecidableEq

namespace RoomKey

/-- The names of the record. -/
def fieldNames : List String :=
  ["algorithm", "sender_key", "session_key", "sender_claimed_keys",
    "forwarding_curve25519_key_chain"]

/-- The algorithms whose keys are written first, in their order: that of signing keys, then that of
identity keys. -/
def leadingAlgorithms : List String := [signingAlgorithm, "curve25519"]

/-- The keys that a device claims to have, as they are written: those of the leading algorithms,
then all others by algorithm. -/
def claimedKeysToJson (keys : Dict String) : Json :=
  let leading := leadingAlgorithms.filterMap fun algorithm =>
    (keys.find? algorithm).map fun key => (algorithm, key)
  let others := keys.entries.filter fun (algorithm, _) => algorithm ∉ leadingAlgorithms
  .object ((leading ++ others).map fun (algorithm, key) => (algorithm, .text key))

/-- The record as a value. -/
def toJson (key : RoomKey) : Json :=
  .object
    [("algorithm", .text key.algorithm), ("sender_key", key.senderKey.toJson),
      ("session_key", .text key.sessionKey.toBase64),
      ("sender_claimed_keys", claimedKeysToJson key.claimedKeys),
      ("forwarding_curve25519_key_chain", .ofTexts key.forwardingChain)]

/-- Read a session key. -/
def sessionKeyOfJson? (value : Json) : Option Megolm.ExportedKey := do
  (Megolm.ExportedKey.ofBase64? (← value.text?)).toOption

/-- Read the record. -/
def ofJson? (value : Json) : Option RoomKey := do
  let record ← value.record? fieldNames
  some {
    algorithm := ← record.required? "algorithm" Json.text?
    senderKey := ← record.required? "sender_key" Curve25519Key.ofJson?
    sessionKey := ← record.required? "session_key" sessionKeyOfJson?
    claimedKeys := ← record.withDefault? "sender_claimed_keys" .empty Dict.ofJson?
    forwardingChain :=
      ← record.withDefault? "forwarding_curve25519_key_chain" [] (Json.list? Json.text?) }

instance : ToJson RoomKey := ⟨toJson⟩

instance : OfJson RoomKey := ⟨ofJson?⟩

end RoomKey

/-- An encrypted room key. -/
structure EncryptedRoomKey where
  /-- The text of the public key made for this room key. -/
  ephemeral : String
  /-- The Base64 text of the encrypted record. -/
  ciphertext : String
  /-- The Base64 text of the MAC. -/
  mac : String
deriving DecidableEq

namespace EncryptedRoomKey

/-- The names of the record. -/
def fieldNames : List String := ["ephemeral", "ciphertext", "mac"]

/-- The record as a value. -/
def toJson (data : EncryptedRoomKey) : Json :=
  .object
    [("ephemeral", .text data.ephemeral), ("ciphertext", .text data.ciphertext),
      ("mac", .text data.mac)]

/-- Read the record. -/
def ofJson? (value : Json) : Option EncryptedRoomKey := do
  let record ← value.record? fieldNames
  some {
    ephemeral := ← record.required? "ephemeral" Json.text?
    ciphertext := ← record.required? "ciphertext" Json.text?
    mac := ← record.required? "mac" Json.text? }

instance : ToJson EncryptedRoomKey := ⟨toJson⟩

instance : OfJson EncryptedRoomKey := ⟨ofJson?⟩

end EncryptedRoomKey

/-- What a backup holds for a session. -/
structure Entry where
  /-- The first place that the room key knows. -/
  firstIndex : UInt32
  /-- How often the room key was passed on. -/
  forwardedCount : UInt32
  /-- Did the device that made the backup verify the device that the key came from? -/
  isVerified : Bool
  data : EncryptedRoomKey
deriving DecidableEq

namespace Entry

/-- The names of the record. -/
def fieldNames : List String :=
  ["first_message_index", "forwarded_count", "is_verified", "session_data"]

/-- The record as a value. -/
def toJson (entry : Entry) : Json :=
  .object
    [("first_message_index", .ofNat entry.firstIndex.toNat),
      ("forwarded_count", .ofNat entry.forwardedCount.toNat),
      ("is_verified", .bool entry.isVerified), ("session_data", entry.data.toJson)]

/-- Read the record. -/
def ofJson? (value : Json) : Option Entry := do
  let record ← value.record? fieldNames
  some {
    firstIndex := ← record.required? "first_message_index" Json.uint32?
    forwardedCount := ← record.required? "forwarded_count" Json.uint32?
    isVerified := ← record.required? "is_verified" Json.bool?
    data := ← record.required? "session_data" EncryptedRoomKey.ofJson? }

instance : ToJson Entry := ⟨toJson⟩

instance : OfJson Entry := ⟨ofJson?⟩

end Entry

/-- The content of a backup: its entries by room, then by session. -/
structure Content where
  rooms : Dict (Dict Entry)
deriving DecidableEq

namespace Content

/-- Nothing. -/
def empty : Content := ⟨.empty⟩

/-- Add an entry; one that stands in its place is forgotten. -/
def insert (content : Content) (room : RoomId) (sessionId : String) (entry : Entry) : Content :=
  let entries := (content.rooms.find? room.text).getD .empty
  ⟨content.rooms.insert room.text (entries.insert sessionId entry)⟩

/-- Add entries, one after the other. -/
def insertAll (content : Content) (entries : List (RoomId × String × Entry)) : Content :=
  entries.foldl (fun content (room, sessionId, entry) => content.insert room sessionId entry)
    content

/-- The entries with their rooms and sessions, in the order of these. -/
def entries (content : Content) : List (RoomId × String × Entry) :=
  content.rooms.entries.flatMap fun (room, sessions) =>
    match RoomId.ofString? room with
    | some room => sessions.entries.map fun (sessionId, entry) => (room, sessionId, entry)
    | none => []

/-- The content as a value. -/
def toJson (content : Content) : Json :=
  .object [("rooms", .ofDict (content.rooms.map fun entries =>
    .object [("sessions", .ofDict (entries.map Entry.toJson))]))]

/-- Read the entries of a room. -/
def roomOfJson? (value : Json) : Option (Dict Entry) := do
  let record ← value.record? ["sessions"]
  record.required? "sessions" (Json.dict? (fun _ => true) Entry.ofJson?)

/-- Read the content. -/
def ofJson? (value : Json) : Option Content := do
  let record ← value.record? ["rooms"]
  (record.required? "rooms" (Json.dict? isRoomId roomOfJson?)).map Content.mk

instance : ToJson Content := ⟨toJson⟩

instance : OfJson Content := ⟨ofJson?⟩

end Content

end RoomCrypt.Backup
