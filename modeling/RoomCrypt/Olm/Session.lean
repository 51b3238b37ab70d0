import RoomCrypt.Json.Key
import RoomCrypt.Olm.Channel

/-!
# Sessions with a device

A session is a channel together with the identity key of the other device and the times of its
creation and last use. What holds the channel is a parameter: the channel itself, or the place
where it is kept for all who share it.

A stored session is a small record around the pickle of its channel.
-/

namespace RoomCrypt.Olm

variable [Suite]

/-- A session with another device. -/
structure Session (σ : Type) where
  /-- The channel, or where it is kept. -/
  state : σ
  /-- The identifier of the channel. -/
  sessionId : String
  /-- The identity key of the other device. -/
  senderKey : Curve25519Key
  /-- When the session was made, in seconds. -/
  created : Time
  /-- When the session was last used, in seconds. -/
  lastUsed : Time
deriving DecidableEq, Inhabited

/-- A session as it is stored. -/
structure PickledSession where
  /-- The Base64 text of the pickle of the channel. -/
  pickle : String
  senderKey : Curve25519Key
  created : Time
  lastUsed : Time
deriving DecidableEq

namespace PickledSession

/-- The names of the record. -/
def fieldNames : List String :=
  ["pickle", "sender_key", "creation_time", "last_use_time"]

/-- The record as a value. -/
def toJson (pickled : PickledSession) : Json :=
  .object
    [("pickle", .text pickled.pickle), ("sender_key", pickled.senderKey.toByteList),
      ("creation_time", .ofNat pickled.created.count),
      ("last_use_time", .ofNat pickled.lastUsed.count)]

/-- Read the record. -/
def ofJson? (value : Json) : Option PickledSession := do
  let record ← value.record? fieldNames
  some {
    pickle := ← record.required? "pickle" Json.text?
    senderKey := ← record.required? "sender_key" Curve25519Key.ofByteList?
    created := ← record.required? "creation_time" Time.ofJson?
    lastUsed := ← record.required? "last_use_time" Time.ofJson? }

instance : ToJson PickledSession := ⟨toJson⟩

instance : OfJson PickledSession := ⟨ofJson?⟩

end PickledSession

namespace Session

/-- The same session with its channel held otherwise. -/
def withState {σ τ : Type} (session : Session σ) (state : τ) : Session τ :=
  { session with state }

/-- A new session with the device that has the given identity key. -/
def ofChannel (senderKey : Curve25519Key) (channel : Channel) (now : Clock) : Session Channel :=
  ⟨channel, channel.sessionId, senderKey, now.seconds, now.seconds⟩

/-- Encrypt a text. -/
def encrypt (session : Session Channel) (plain : Bytes) (now : Clock) (entropy : Entropy) :
    Except RatchetError (OlmMessage × Session Channel × Entropy) := do
  let (message, channel, entropy) ← session.state.encrypt plain entropy
  pure (message, { session with state := channel, lastUsed := now.seconds }, entropy)

/-- Decrypt a message. -/
def decrypt (session : Session Channel) (message : OlmMessage) (now : Clock) :
    Except RatchetError (Bytes × Session Channel) := do
  let (plain, channel) ← session.state.decrypt message
  pure (plain, { session with state := channel, lastUsed := now.seconds })

/-- The session as it is stored. -/
def pickle (session : Session Channel) : PickledSession :=
  ⟨Base64.encode (toPickle session.state), session.senderKey, session.created, session.lastUsed⟩

/-- Restore a session that is to have the given bounds. -/
def ofPickle? (pickled : PickledSession) (config : RatchetConfig) :
    Except PickleError (Session Channel) := do
  match Base64.decode? pickled.pickle with
  | none => throw (.malformed .invalidBase64)
  | some bytes =>
    let channel ← Channel.ofPickleWith? config bytes
    pure ⟨channel, channel.sessionId, pickled.senderKey, pickled.created, pickled.lastUsed⟩

end Session

end RoomCrypt.Olm
