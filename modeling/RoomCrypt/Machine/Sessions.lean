import RoomCrypt.Machine.Basic

/-!
# Messages to and from devices

A message to a device is encrypted with the session that was used last, and a message from a device
is tried with each session in turn. Both change the session where it is shared, then save it.
-/

namespace RoomCrypt

open Store

variable [Suite]

/-- Why a message to or from a device cannot be handled. -/
inductive SessionError where
  /-- The session refuses. -/
  | ratchet (error : Olm.RatchetError)
  /-- There is no session that could be used. -/
  | missingSession (senderKey : Curve25519Key)
  /-- The store fails. -/
  | store (error : StoreError)
deriving DecidableEq

/-- The text of an error, where there is one. -/
def SessionError.message? : SessionError → Option String
  | ratchet error => some error.message
  | missingSession senderKey =>
    some ("we don't share an Olm session with the device owning the sender key " ++
      senderKey.toBase64)
  | store error =>
    error.message?.map fun message => "failed to read or write to the crypto store " ++ message

/-- The word for an error. -/
def SessionError.kind : SessionError → String
  | ratchet error => error.kind
  | missingSession _ => "MissingSession"
  | store error => "Store." ++ error.kind

instance : Failure SessionError := ⟨SessionError.kind, SessionError.message?⟩

namespace MachineState

/-- A session with its channel as it is now. -/
def view (state : MachineState) (session : Olm.Session (Slot Olm.Channel)) :
    Olm.Session Olm.Channel :=
  session.withState (state.channels.get session.state)

/-- Put a session that was used in place of the one at a place of the list of a sender, and its
channel in place of the shared one. -/
def putUsed (state : MachineState) (sender : String) (place : Nat) (slot : Slot Olm.Channel)
    (used : Olm.Session Olm.Channel) : MachineState :=
  { state with
    channels := state.channels.set slot used.state
    machine :=
      { state.machine with
        sessions := state.machine.sessions.replace sender place (used.withState slot) } }

end MachineState

namespace Machine

/-- The place of the session that was used last, and that session. Of several that were used at
the same time it is the last one. -/
def lastUsed? {σ : Type} : List (Olm.Session σ) → Option (Nat × Olm.Session σ)
  | [] => none
  | session :: rest =>
    match lastUsed? rest with
    | none => some (0, session)
    | some (place, other) =>
      if other.lastUsed.count < session.lastUsed.count then some (0, session)
      else some (place + 1, other)

/-- Add a session. -/
def addSession (session : Olm.Session (Slot Olm.Channel)) : Task StoreError Unit :=
  save { sessions := [session] }

/-- Encrypt a text for the device with the given identity key. -/
def encrypt (senderKey : Curve25519Key) (plain : Bytes) : Task SessionError OlmMessage := do
  let sender := senderKey.toBase64
  let sessions ← (sessionsOf sender).wrap .store
  match lastUsed? sessions with
  | none => throw (.missingSession senderKey)
  | some (place, session) =>
    let state ← get
    let (message, used, entropy) ←
      Task.ofExcept (((state.view session).encrypt plain state.now state.entropy).mapError .ratchet)
    set ({ state with entropy }.putUsed sender place session.state used)
    (save { sessions := [used.withState session.state] }).wrap .store
    pure message

/-- A session that has decrypted a message. -/
structure Opened where
  /-- Its place in the list. -/
  place : Nat
  /-- Where its channel is shared. -/
  slot : Slot Olm.Channel
  plain : Bytes
  /-- The session after the message. -/
  used : Olm.Session Olm.Channel

/-- The first session of a list that can decrypt a message. -/
def firstOpened? (state : MachineState) (message : OlmMessage)
    (sessions : List (Olm.Session (Slot Olm.Channel))) : Option Opened :=
  sessions.zipIdx.findSome? fun (session, place) =>
    match (state.view session).decrypt message state.now with
    | .ok (plain, used) => some ⟨place, session.state, plain, used⟩
    | .error _ => none

/-- Decrypt a message from the device with the given identity key. -/
def decrypt (senderKey : Curve25519Key) (message : OlmMessage) : Task SessionError Bytes := do
  let sender := senderKey.toBase64
  let sessions ← (sessionsOf sender).wrap .store
  let state ← get
  match firstOpened? state message sessions with
  | none => throw (.missingSession senderKey)
  | some opened =>
    set (state.putUsed sender opened.place opened.slot opened.used)
    (save { sessions := [opened.used.withState opened.slot] }).wrap .store
    pure opened.plain

end Machine

end RoomCrypt
