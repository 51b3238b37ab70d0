import RoomCrypt.Megolm.Inbound
import RoomCrypt.Olm.Session

/-!
# Caches of sessions

Sessions with devices are cached in a list for each sender key, in the order in which they came. A
session that is in the list already is not added again. Room sessions are cached by room, sender
key and identifier, where a later session takes the place of an earlier one.
-/

namespace RoomCrypt.Store

/-- Sessions with devices by the text of the sender key. -/
structure SessionCache (σ : Type) where
  senders : Dict (List (Olm.Session σ))

namespace SessionCache

variable {σ : Type}

/-- No sessions. -/
def empty : SessionCache σ := ⟨.empty⟩

instance : Inhabited (SessionCache σ) := ⟨empty⟩

/-- The sessions of a sender, if there is a list for him. -/
def find? (cache : SessionCache σ) (sender : String) : Option (List (Olm.Session σ)) :=
  cache.senders.find? sender

/-- Give a sender a list of sessions. -/
def setSender (cache : SessionCache σ) (sender : String) (sessions : List (Olm.Session σ)) :
    SessionCache σ :=
  ⟨cache.senders.insert sender sessions⟩

/-- Give a sender a list of sessions if there is none for him. The answer has his list. -/
def getOrInsert (cache : SessionCache σ) (sender : String) (sessions : List (Olm.Session σ)) :
    List (Olm.Session σ) × SessionCache σ :=
  match cache.find? sender with
  | some cached => (cached, cache)
  | none => (sessions, cache.setSender sender sessions)

/-- Does a list have a session with an identifier? -/
def hasId (sessionId : String) (sessions : List (Olm.Session σ)) : Bool :=
  sessions.any (·.sessionId == sessionId)

/-- Add a session at the end of the list of its sender, unless it is there. The answer tells
whether it was added. -/
def add (cache : SessionCache σ) (session : Olm.Session σ) : Bool × SessionCache σ :=
  let sender := session.senderKey.toBase64
  let (sessions, cache) := cache.getOrInsert sender []
  if hasId session.sessionId sessions then (false, cache)
  else (true, cache.setSender sender (sessions ++ [session]))

/-- Put a session in place of the one at a place of the list of a sender. -/
def replace (cache : SessionCache σ) (sender : String) (place : Nat) (session : Olm.Session σ) :
    SessionCache σ :=
  match cache.find? sender with
  | some sessions => cache.setSender sender (sessions.set place session)
  | none => cache

end SessionCache

/-- Room sessions by room, by the text of the sender key and by identifier. -/
structure RoomSessionCache (σ : Type) where
  rooms : Dict (Dict (Dict (Megolm.InboundSession σ)))

namespace RoomSessionCache

variable {σ : Type}

/-- No sessions. -/
def empty : RoomSessionCache σ := ⟨.empty⟩

instance : Inhabited (RoomSessionCache σ) := ⟨empty⟩

/-- The session with the given room, sender and identifier. -/
def find? (cache : RoomSessionCache σ) (room : RoomId) (sender sessionId : String) :
    Option (Megolm.InboundSession σ) := do
  (← (← cache.rooms.find? room.text).find? sender).find? sessionId

/-- Add a session. The answer tells whether there was none in its place. -/
def add (cache : RoomSessionCache σ) (session : Megolm.InboundSession σ) :
    Bool × RoomSessionCache σ :=
  let sender := session.senderKey.toBase64
  let senders := (cache.rooms.find? session.room.text).getD .empty
  let sessions := (senders.find? sender).getD .empty
  (!sessions.contains session.sessionId,
    ⟨cache.rooms.insert session.room.text
      (senders.insert sender (sessions.insert session.sessionId session))⟩)

/-- All sessions. -/
def all (cache : RoomSessionCache σ) : List (Megolm.InboundSession σ) :=
  cache.rooms.values.flatMap fun senders => senders.values.flatMap Dict.values

/-- How many sessions there are. -/
def count (cache : RoomSessionCache σ) : Nat :=
  cache.all.length

end RoomSessionCache

end RoomCrypt.Store
