import RoomCrypt.Megolm.Inbound

/-!
# Announcements of room keys

Whoever waits for a room key subscribes to a stream of announcements. The stream holds the latest
announcements only. A subscriber who has fallen behind is told that he has missed some, and goes on
with the oldest one that is held.
-/

namespace RoomCrypt.Store

/-- What is announced about a room session. -/
structure RoomKeyInfo where
  algorithm : String
  room : RoomId
  /-- The identity key of the device that made the session. -/
  senderKey : Curve25519Key
  sessionId : String
  /-- The first place that is known. -/
  firstKnownIndex : UInt32
deriving DecidableEq

namespace RoomKeyInfo

/-- What is announced about a session. -/
def ofSession {σ : Type} (session : Megolm.InboundSession σ) : RoomKeyInfo :=
  ⟨session.algorithm, session.room, session.senderKey, session.sessionId,
    session.firstKnownIndex⟩

/-- Is it about a session? Sender keys are compared as field elements. -/
def isFor (info : RoomKeyInfo) (room : RoomId) (senderKey : Curve25519Key) (sessionId : String) :
    Bool :=
  info.room = room ∧ info.senderKey.same senderKey ∧ info.sessionId = sessionId

/-- The names of the record. -/
def fieldNames : List String :=
  ["algorithm", "room_id", "sender_key", "session_id", "first_known_index"]

/-- The record as a value. -/
def toJson (info : RoomKeyInfo) : Json :=
  .object
    [("algorithm", .text info.algorithm), ("room_id", .text info.room.text),
      ("sender_key", info.senderKey.toByteList), ("session_id", .text info.sessionId),
      ("first_known_index", .ofNat info.firstKnownIndex.toNat)]

/-- Read the record. -/
def ofJson? (value : Json) : Option RoomKeyInfo := do
  let record ← value.record? fieldNames
  some {
    algorithm := ← record.required? "algorithm" Json.text?
    room := ← record.required? "room_id" RoomId.ofJson?
    senderKey := ← record.required? "sender_key" Curve25519Key.ofByteList?
    sessionId := ← record.required? "session_id" Json.text?
    firstKnownIndex := ← record.required? "first_known_index" Json.uint32? }

instance : ToJson RoomKeyInfo := ⟨toJson⟩

instance : OfJson RoomKeyInfo := ⟨ofJson?⟩

end RoomKeyInfo

/-- What is announced at one time. -/
abbrev Announcement := List RoomKeyInfo

/-- The stream of announcements. -/
structure Announcements where
  /-- How many announcements are no longer held. -/
  dropped : Nat
  /-- The latest announcements, oldest first. -/
  held : List Announcement
deriving DecidableEq, Inhabited

/-- The place of a subscriber: how many announcements lie behind him. -/
structure Subscription where
  position : Nat
deriving DecidableEq, Inhabited

/-- What a subscriber gets. -/
inductive Notice where
  /-- Announcements were missed. -/
  | missed
  /-- The next announcement. -/
  | news (announcement : Announcement)
deriving DecidableEq

namespace Announcements

/-- How many announcements are held. -/
def capacity : Nat := 16

/-- A stream without announcements. -/
def empty : Announcements := ⟨0, []⟩

/-- How many announcements were made. -/
def count (stream : Announcements) : Nat :=
  stream.dropped + stream.held.length

/-- Announce something; the oldest announcement is dropped if there are too many. -/
def send (stream : Announcements) (announcement : Announcement) : Announcements :=
  let held := stream.held ++ [announcement]
  let excess := held.length - capacity
  ⟨stream.dropped + excess, held.drop excess⟩

/-- Subscribe to what comes from now on. -/
def subscribe (stream : Announcements) : Subscription :=
  ⟨stream.count⟩

/-- The announcements that a subscriber can still get, oldest first. -/
def news (stream : Announcements) (subscription : Subscription) : List Announcement :=
  stream.held.drop (subscription.position - stream.dropped)

/-- What a subscriber has not got yet, oldest first. -/
def pending (stream : Announcements) (subscription : Subscription) : List Notice :=
  let notices := (stream.news subscription).map Notice.news
  if subscription.position < stream.dropped then .missed :: notices else notices

@[simp] theorem count_send (stream : Announcements) (announcement : Announcement) :
    (stream.send announcement).count = stream.count + 1 := by
  simp only [send, count, List.length_drop, List.length_append, List.length_singleton]
  omega

theorem pending_subscribe (stream : Announcements) : stream.pending stream.subscribe = [] := by
  simp [pending, news, subscribe, count]

end Announcements

end RoomCrypt.Store
