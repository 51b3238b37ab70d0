import RoomCrypt.Backup.Server
import RoomCrypt.Store.Announcements
import RoomCrypt.Store.Backend
import RoomCrypt.Store.Cache

/-!
# The machine of a user

A machine does everything that has to do with the keys of one user. It reaches its sessions through
caches over a store: what was changed is saved before it is answered, and what was saved is cached
and announced after that. The channels of sessions with devices are shared, because two copies of a
channel would use the same keys twice.

An operation is a step on all that it can see: the machine, its store, the shared channels, the
random bytes, the clock, and those who answer its questions. A step that fails keeps what it has
changed before.
-/

namespace RoomCrypt

open Store

variable [Suite]

/-- What a machine keeps in memory. -/
structure Machine where
  /-- The user whose machine it is. -/
  user : UserId
  sessions : SessionCache (Slot Olm.Channel)
  roomSessions : RoomSessionCache Megolm.Receiver
  announcements : Announcements

/-- A machine that has just been made. -/
def Machine.ofUser (user : UserId) : Machine :=
  ⟨user, .empty, .empty, .empty⟩

/-- All that an operation of a machine can see. -/
structure MachineState where
  machine : Machine
  backend : Backend
  /-- The channels of all sessions with devices. -/
  channels : Pool Olm.Channel
  /-- The trust in all devices. -/
  trust : Pool DeviceTrust
  entropy : Entropy
  /-- The time in milliseconds. -/
  now : Clock
  /-- The encryption settings of rooms, as far as they can be looked up. -/
  roomSettings : RoomId → Except StoreError (Option RoomSettings)
  /-- The server that holds backups. -/
  server : Backup.Server

/-- An operation of a machine. -/
abbrev Task (ε : Type) := ExceptT ε (StateM MachineState)

namespace Task

/-- An operation whose outcome is given. -/
def ofExcept {ε α : Type} : Except ε α → Task ε α
  | .ok a => pure a
  | .error e => throw e

/-- An operation that only looks at the state. -/
def ofState {ε α : Type} (f : MachineState → Except ε α) : Task ε α := do
  ofExcept (f (← get))

/-- An operation with its errors as part of other ones. -/
def wrap {ε δ α : Type} (f : ε → δ) (task : Task ε α) : Task δ α :=
  ExceptT.adapt f task

end Task

namespace Machine

/-- The machine after changes were saved. The sessions are cached, and room sessions are
announced. -/
def remember (machine : Machine) (changes : Changes (Slot Olm.Channel)) : Machine :=
  { machine with
    sessions := changes.sessions.foldl (fun cache s => (cache.add s).2) machine.sessions
    roomSessions :=
      changes.roomSessions.foldl (fun cache s => (cache.add s).2) machine.roomSessions
    announcements :=
      if changes.roomSessions.isEmpty then machine.announcements
      else machine.announcements.send (changes.roomSessions.map .ofSession) }

/-- Save changes. If that fails, nothing is cached or announced. -/
def save (changes : Changes (Slot Olm.Channel)) : Task StoreError Unit := do
  let state ← get
  let backend ← Task.ofExcept (state.backend.save (changes.mapStates state.channels.get))
  set { state with backend, machine := state.machine.remember changes }

/-- Share the channels of sessions. -/
def share (channels : Pool Olm.Channel) :
    List (Olm.Session Olm.Channel) → List (Olm.Session (Slot Olm.Channel)) × Pool Olm.Channel
  | [] => ([], channels)
  | session :: rest =>
    let (slot, channels) := channels.hold session.state
    let (shared, channels) := share channels rest
    (session.withState slot :: shared, channels)

/-- The sessions with the devices of a sender key. They are loaded when they are first asked
for. -/
def sessionsOf (sender : String) : Task StoreError (List (Olm.Session (Slot Olm.Channel))) := do
  let state ← get
  match state.machine.sessions.find? sender with
  | some sessions => pure sessions
  | none =>
    let loaded ← Task.ofExcept (state.backend.loadSessions sender)
    let (sessions, channels) := share state.channels (loaded.getD [])
    set
      { state with
        channels
        machine :=
          { state.machine with sessions := state.machine.sessions.setSender sender sessions } }
    pure sessions

/-- A room session, if it is known. It is loaded when it is first asked for. -/
def roomSession? (room : RoomId) (senderKey : Curve25519Key) (sessionId : String) :
    Task StoreError (Option (Megolm.InboundSession Megolm.Receiver)) := do
  let state ← get
  match state.machine.roomSessions.find? room senderKey.toBase64 sessionId with
  | some session => pure (some session)
  | none =>
    match ← Task.ofExcept (state.backend.loadRoomSession room senderKey sessionId) with
    | none => pure none
    | some session =>
      set
        { state with
          machine :=
            { state.machine with roomSessions := (state.machine.roomSessions.add session).2 } }
      pure (some session)

end Machine

end RoomCrypt
