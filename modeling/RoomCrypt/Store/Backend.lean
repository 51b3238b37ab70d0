import RoomCrypt.Store.Memory

/-!
# Stores that fail

A store is reached through calls, each of which may be out of order. A call that fails changes
nothing.
-/

namespace RoomCrypt.Store

variable [Suite]

/-- The calls by which a store is used. -/
inductive StoreCall where
  | saveChanges
  | sessions
  | roomSession
  | device
  | crossSigningKeys
  | roomSettings
deriving DecidableEq

/-- A store and the calls that are out of order. -/
structure Backend where
  store : MemoryStore := default
  /-- The message with which a call fails, if it does. -/
  outage : StoreCall → Option String := fun _ => none

namespace Backend

instance : Inhabited Backend := ⟨{}⟩

/-- Make a call, unless it is out of order. -/
def attempt {α : Type} (backend : Backend) (call : StoreCall) (answer : Except StoreError α) :
    Except StoreError α :=
  match backend.outage call with
  | some message => .error (.backend message)
  | none => answer

/-- Save changes. -/
def save (backend : Backend) (changes : Changes Olm.Channel) : Except StoreError Backend :=
  backend.attempt .saveChanges (.ok { backend with store := backend.store.save changes })

/-- All sessions of a sender, if there are any. -/
def loadSessions (backend : Backend) (sender : String) :
    Except StoreError (Option (List (Olm.Session Olm.Channel))) :=
  backend.attempt .sessions (backend.store.loadSessions sender)

/-- A room session, if there is one. -/
def loadRoomSession (backend : Backend) (room : RoomId) (senderKey : Curve25519Key)
    (sessionId : String) : Except StoreError (Option (Megolm.InboundSession Megolm.Receiver)) :=
  backend.attempt .roomSession (backend.store.loadRoomSession room senderKey sessionId)

/-- A device, if it is known. -/
def device? (backend : Backend) (user : UserId) (deviceId : String) :
    Except StoreError (Option (Device (Slot DeviceTrust))) :=
  backend.attempt .device (.ok (backend.store.device? user deviceId))

/-- Our own cross-signing keys, if they are known. -/
def crossSigning? (backend : Backend) : Except StoreError (Option CrossSigningKeys) :=
  backend.attempt .crossSigningKeys (.ok backend.store.crossSigning)

/-- The encryption settings of a room, if they are known. -/
def settings? (backend : Backend) (room : RoomId) : Except StoreError (Option RoomSettings) :=
  backend.attempt .roomSettings (.ok (backend.store.settings.find? room.text))

end Backend

end RoomCrypt.Store
