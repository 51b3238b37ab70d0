import RoomCrypt.Message
import RoomCrypt.Megolm.SessionKey

/-!
# Sending to a room

The session of the device that sends: each message is encrypted at the next place of the ratchet,
and signed with the key of the session.
-/

namespace RoomCrypt.Megolm

variable [Suite]

/-- A session for sending. -/
structure OutboundSession where
  ratchet : Ratchet
  seed : Ed25519Seed
  /-- The public key of the seed. -/
  signingKey : Ed25519Key
deriving DecidableEq, Inhabited

namespace OutboundSession

/-- A session with a given ratchet and seed. -/
def ofParts (ratchet : Ratchet) (seed : Ed25519Seed) : OutboundSession :=
  ⟨ratchet, seed, Suite.signingKey seed⟩

/-- A session with a random ratchet and seed. -/
def fresh (entropy : Entropy) : OutboundSession × Entropy :=
  let (ratchet, entropy) := Ratchet.fresh entropy
  let (seed, entropy) := entropy.draw 32
  (ofParts ratchet ⟨seed⟩, entropy)

/-- The identifier of the session: the text of its signing key. -/
def sessionId (session : OutboundSession) : String :=
  session.signingKey.toBase64

/-- The place of the next message. -/
def index (session : OutboundSession) : UInt32 :=
  session.ratchet.index

/-- The session key from the next message on, without a signature. -/
def exportedKey (session : OutboundSession) : ExportedKey :=
  .ofRatchet session.ratchet session.signingKey

/-- The session key from the next message on, signed. -/
def sharedKey (session : OutboundSession) : SharedKey :=
  ⟨session.exportedKey, Suite.sign session.seed (SharedKey.signedBytes session.exportedKey)⟩

/-- The session one message further. -/
def next (session : OutboundSession) : OutboundSession :=
  { session with ratchet := session.ratchet.next }

/-- The message of a text at the place of the session. -/
def message (session : OutboundSession) (plain : Bytes) : MegolmMessage :=
  let cipher := session.ratchet.cipher
  let ciphertext := cipher.encrypt plain
  let body := MegolmMessage.encodeBody session.index ciphertext
  let mac := cipher.mac body
  ⟨session.index, ciphertext, body, mac, Suite.sign session.seed (body ++ mac.bytes)⟩

/-- Encrypt a text. -/
def encrypt (session : OutboundSession) (plain : Bytes) : MegolmMessage × OutboundSession :=
  (session.message plain, session.next)

/-- Encrypt texts one after the other and forget the messages: only the place changes. -/
def advance : Nat → OutboundSession → OutboundSession
  | 0, session => session
  | count + 1, session => advance count session.next

end OutboundSession

end RoomCrypt.Megolm
