import RoomCrypt.Device
import RoomCrypt.Json.Reader
import RoomCrypt.Json.Writer
import RoomCrypt.Olm.Session
import RoomCrypt.Pool
import RoomCrypt.Store.RoomSettings

/-!
# The store

What has to outlive a session in memory. Sessions are kept as the texts of their records, so that
each load makes a new one; a saved session takes the place of the one with the same identifier.
Devices are kept as they are, with the trust in them shared.
-/

namespace RoomCrypt.Store

variable [Suite]

/-- Why a store cannot do what it is asked for. -/
inductive StoreError where
  /-- A pickle cannot be read. -/
  | pickle (error : PickleError)
  /-- The text of a record cannot be read. -/
  | serialization
  /-- What is underneath fails. -/
  | backend (message : String)
deriving DecidableEq

/-- The text of an error, where there is one. -/
def StoreError.message? : StoreError → Option String
  | pickle error => some error.message
  | serialization => none
  | backend message => some message

/-- The word for an error. -/
def StoreError.kind : StoreError → String
  | pickle error => "Pickle." ++ error.kind
  | serialization => "Serialization"
  | backend _ => "Backend"

instance : Failure StoreError := ⟨StoreError.kind, StoreError.message?⟩

/-- What is to be saved at one time. -/
structure Changes (σ : Type) where
  sessions : List (Olm.Session σ) := []
  roomSessions : List (Megolm.InboundSession Megolm.Receiver) := []
  devices : List (Device (Slot DeviceTrust)) := []
  /-- Our own cross-signing keys. -/
  crossSigning : Option CrossSigningKeys := none
  /-- The version of the backup that we have restored. -/
  backupVersion : Option String := none

namespace Changes

/-- Is there nothing to be saved? -/
def isEmpty {σ : Type} (changes : Changes σ) : Bool :=
  changes.sessions.isEmpty && changes.roomSessions.isEmpty && changes.devices.isEmpty &&
    changes.crossSigning.isNone && changes.backupVersion.isNone

/-- The same changes with the channels of sessions held otherwise. -/
def mapStates {σ τ : Type} (f : σ → τ) (changes : Changes σ) : Changes τ :=
  { changes with sessions := changes.sessions.map fun s => s.withState (f s.state) }

end Changes

/-- A store in memory. -/
structure MemoryStore where
  /-- The bounds that sessions get when they are loaded. -/
  config : Olm.RatchetConfig := {}
  /-- The texts of sessions, by the text of the sender key, then by identifier. -/
  sessions : Dict (Dict String) := .empty
  /-- The texts of room sessions, by room, by the text of the sender key, then by identifier. -/
  roomSessions : Dict (Dict (Dict String)) := .empty
  /-- Devices by user, then by identifier. -/
  devices : Dict (Dict (Device (Slot DeviceTrust))) := .empty
  crossSigning : Option CrossSigningKeys := none
  backupVersion : Option String := none
  /-- The encryption settings of rooms. -/
  settings : Dict RoomSettings := .empty

namespace MemoryStore

instance : Inhabited MemoryStore := ⟨{}⟩

/-- The text of a session. -/
def sessionText (session : Olm.Session Olm.Channel) : String :=
  session.pickle.toJson.render

/-- The record of a session from its text. -/
def pickledOfText? (text : String) : Except StoreError Olm.PickledSession :=
  match Json.parse? text >>= Olm.PickledSession.ofJson? with
  | none => .error .serialization
  | some pickled => .ok pickled

/-- The text of a room session. -/
def roomSessionText (session : Megolm.InboundSession Megolm.Receiver) : String :=
  session.pickle.toJson.render

/-- The room session of a text. -/
def roomSessionOfText? (text : String) :
    Except StoreError (Megolm.InboundSession Megolm.Receiver) :=
  match Json.parse? text >>= Megolm.PickledInboundSession.ofJson? with
  | none => .error .serialization
  | some pickled => (Megolm.InboundSession.ofPickle? pickled).mapError .pickle

/-- Save a session. -/
def saveSession (store : MemoryStore) (session : Olm.Session Olm.Channel) : MemoryStore :=
  let sender := session.senderKey.toBase64
  let texts := (store.sessions.find? sender).getD .empty
  { store with
    sessions := store.sessions.insert sender
      (texts.insert session.sessionId (sessionText session)) }

/-- Save a room session. -/
def saveRoomSession (store : MemoryStore) (session : Megolm.InboundSession Megolm.Receiver) :
    MemoryStore :=
  let sender := session.senderKey.toBase64
  let senders := (store.roomSessions.find? session.room.text).getD .empty
  let texts := (senders.find? sender).getD .empty
  { store with
    roomSessions := store.roomSessions.insert session.room.text
      (senders.insert sender (texts.insert session.sessionId (roomSessionText session))) }

/-- Save a device. -/
def saveDevice (store : MemoryStore) (device : Device (Slot DeviceTrust)) : MemoryStore :=
  let devices := (store.devices.find? device.user.text).getD .empty
  { store with
    devices := store.devices.insert device.user.text (devices.insert device.deviceId device) }

/-- Save changes. -/
def save (store : MemoryStore) (changes : Changes Olm.Channel) : MemoryStore :=
  let store := changes.sessions.foldl saveSession store
  let store := changes.roomSessions.foldl saveRoomSession store
  let store := changes.devices.foldl saveDevice store
  { store with
    crossSigning := changes.crossSigning <|> store.crossSigning
    backupVersion := changes.backupVersion <|> store.backupVersion }

/-- Remember the encryption settings of a room. -/
def saveSettings (store : MemoryStore) (room : RoomId) (settings : RoomSettings) : MemoryStore :=
  { store with settings := store.settings.insert room.text settings }

/-- All sessions of a sender in the order of their identifiers, if there are any. One that cannot
be loaded is an error for all of them; texts that cannot be read come before pickles that cannot. -/
def loadSessions (store : MemoryStore) (sender : String) :
    Except StoreError (Option (List (Olm.Session Olm.Channel))) :=
  match store.sessions.find? sender with
  | none => .ok none
  | some texts => do
    let pickles ← texts.values.mapM pickledOfText?
    let sessions ← pickles.mapM fun pickled =>
      (Olm.Session.ofPickle? pickled store.config).mapError StoreError.pickle
    pure (some sessions)

/-- A room session, if there is one. -/
def loadRoomSession (store : MemoryStore) (room : RoomId) (senderKey : Curve25519Key)
    (sessionId : String) : Except StoreError (Option (Megolm.InboundSession Megolm.Receiver)) :=
  let text := do
    (← (← store.roomSessions.find? room.text).find? senderKey.toBase64).find? sessionId
  match text with
  | none => .ok none
  | some text => (roomSessionOfText? text).map some

/-- All room sessions, in the order of room, sender key and identifier. -/
def allRoomSessions (store : MemoryStore) :
    Except StoreError (List (Megolm.InboundSession Megolm.Receiver)) :=
  let texts := store.roomSessions.values.flatMap fun senders => senders.values.flatMap Dict.values
  texts.mapM roomSessionOfText?

/-- A device, if it is known. -/
def device? (store : MemoryStore) (user : UserId) (deviceId : String) :
    Option (Device (Slot DeviceTrust)) := do
  (← store.devices.find? user.text).find? deviceId

/-- How many room sessions there are. -/
def roomSessionCount (store : MemoryStore) : Nat :=
  (store.roomSessions.values.flatMap fun senders => senders.values.flatMap Dict.values).length

end MemoryStore

end RoomCrypt.Store
