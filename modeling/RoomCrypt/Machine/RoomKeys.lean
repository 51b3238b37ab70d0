import RoomCrypt.Machine.Basic
import RoomCrypt.Backup.RoomKey

/-!
# Room keys and messages to rooms

Room keys come in from a backup, messages to rooms are decrypted with them, and whoever lacks a
room key can wait for it. A waiter subscribes to the announcements before he looks for the key, so
that he does not miss one that comes in between.
-/

namespace RoomCrypt

open Store

variable [Suite]

/-- Why a room key is not taken. -/
inductive ImportError where
  /-- The algorithm is not the one that we know. -/
  | unsupportedAlgorithm (algorithm : String)
  /-- The key belongs to another session than is claimed. -/
  | sessionIdMismatch (claimed actual : String)
  /-- The store fails. -/
  | store (error : StoreError)
deriving DecidableEq

/-- The text of an error, where there is one. -/
def ImportError.message? : ImportError → Option String
  | unsupportedAlgorithm algorithm =>
    some ("the room key uses the unsupported algorithm " ++ algorithm)
  | sessionIdMismatch claimed actual =>
    some ("the room key was advertised as session " ++ claimed ++ " but belongs to " ++ actual)
  | store error => error.message?

/-- The word for an error. -/
def ImportError.kind : ImportError → String
  | unsupportedAlgorithm _ => "UnsupportedAlgorithm"
  | sessionIdMismatch _ _ => "SessionIdMismatch"
  | store error => "Store." ++ error.kind

instance : Failure ImportError := ⟨ImportError.kind, ImportError.message?⟩

/-- Why a message to a room cannot be decrypted. -/
inductive RoomMessageError where
  /-- The session refuses. -/
  | decrypt (error : Megolm.DecryptError)
  /-- The session is not known. -/
  | missingRoomKey (room : RoomId) (sessionId : String)
  /-- The store fails. -/
  | store (error : StoreError)
deriving DecidableEq

/-- The text of an error, where there is one. -/
def RoomMessageError.message? : RoomMessageError → Option String
  | decrypt error => some error.message
  | missingRoomKey room sessionId =>
    some ("can't find the room key for the session " ++ sessionId ++ " in the room " ++ room.text)
  | store error => error.message?

/-- The word for an error. -/
def RoomMessageError.kind : RoomMessageError → String
  | decrypt error => error.kind
  | missingRoomKey _ _ => "MissingRoomKey"
  | store error => "Store." ++ error.kind

instance : Failure RoomMessageError := ⟨RoomMessageError.kind, RoomMessageError.message?⟩

namespace Machine

/-- The session of a room key from a backup. Its device passed it on last, and its room says how
long and how often it is to be used, if that is known. -/
def sessionOfRoomKey (version : String) (room : RoomId) (key : Backup.RoomKey)
    (settings : Except StoreError (Option RoomSettings)) (now : Clock) :
    Megolm.InboundSession Megolm.Receiver :=
  let settings := (settings.toOption.join : Option RoomSettings)
  { Megolm.InboundSession.ofExported key.senderKey key.claimedKeys room key.sessionKey now with
    forwardingChain := key.forwardingChain ++ [key.senderKey.toBase64]
    maxAge := settings.bind RoomSettings.rotationPeriod
    maxMessages := settings.bind RoomSettings.rotationMessages
    backupVersion := some version }

/-- Take a room key from a version of a backup, where it stands under a room and a session. -/
def importRoomKey (version : String) (room : RoomId) (sessionId : String) (key : Backup.RoomKey) :
    Task ImportError (Megolm.InboundSession Megolm.Receiver) := do
  if key.algorithm ≠ Megolm.algorithmName then throw (.unsupportedAlgorithm key.algorithm)
  if key.sessionKey.sessionId ≠ sessionId then
    throw (.sessionIdMismatch sessionId key.sessionKey.sessionId)
  let state ← get
  let session := sessionOfRoomKey version room key (state.roomSettings room) state.now
  (save { roomSessions := [session] }).wrap .store
  pure session

/-- Decrypt a message to a room. -/
def decryptRoomMessage (room : RoomId) (senderKey : Curve25519Key) (sessionId : String)
    (message : MegolmMessage) : Task RoomMessageError Megolm.DecryptedMessage := do
  match ← (roomSession? room senderKey sessionId).wrap .store with
  | none => throw (.missingRoomKey room sessionId)
  | some session =>
    let (decrypted, session) ← Task.ofExcept ((session.decrypt message).mapError .decrypt)
    modify fun state =>
      { state with
        machine :=
          { state.machine with roomSessions := (state.machine.roomSessions.add session).2 } }
    pure decrypted

/-- Subscribe to the announcements of room keys. -/
def subscribe (machine : Machine) : Subscription :=
  machine.announcements.subscribe

/-- Someone who waits for a room key. -/
structure Waiter where
  room : RoomId
  senderKey : Curve25519Key
  sessionId : String
  subscription : Subscription
deriving DecidableEq

/-- Start to wait for a room key. There is nothing to wait for if it is known. -/
def beginWait (room : RoomId) (senderKey : Curve25519Key) (sessionId : String) :
    Task StoreError (Option Waiter) := do
  let subscription := (← get).machine.subscribe
  match ← roomSession? room senderKey sessionId with
  | some _ => pure none
  | none => pure (some ⟨room, senderKey, sessionId, subscription⟩)

/-- Does a notice tell a waiter that his key is there? He looks for it if notices were missed. -/
def Waiter.hears (waiter : Waiter) : Notice → Task StoreError Bool
  | .news announcement =>
    pure (announcement.any (·.isFor waiter.room waiter.senderKey waiter.sessionId))
  | .missed => do
    pure (← roomSession? waiter.room waiter.senderKey waiter.sessionId).isSome

/-- Does one of the notices tell a waiter that his key is there? -/
def Waiter.hearsAny (waiter : Waiter) : List Notice → Task StoreError Bool
  | [] => pure false
  | notice :: rest => do
    if ← waiter.hears notice then pure true else waiter.hearsAny rest

/-- Take up what was announced since a waiter started. The answer tells whether his key is
there. -/
def Waiter.finish (waiter : Waiter) : Task StoreError Bool := do
  waiter.hearsAny ((← get).machine.announcements.pending waiter.subscription)

end Machine

end RoomCrypt
