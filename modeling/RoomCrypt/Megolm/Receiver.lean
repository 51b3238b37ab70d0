import RoomCrypt.Failure
import RoomCrypt.Message
import RoomCrypt.Pickle.Keys
import RoomCrypt.Megolm.SessionKey

/-!
# Receiving from a room

The state that decrypts the messages of a room session: the ratchet at the first place that we
know, which stays, and a ratchet that follows the latest message, so that messages in order need
few hashes. A message is first checked against the signing key, then against its MAC.
-/

namespace RoomCrypt.Megolm

variable [Suite]

/-- Why a message is refused. -/
inductive DecryptError where
  /-- The message lies before the first place that we know. -/
  | unknownIndex (firstKnown requested : UInt32)
  /-- The signature does not verify. -/
  | invalidSignature
  /-- The MAC is wrong. -/
  | invalidMac
  /-- The padding of the text is wrong. -/
  | invalidPadding
deriving DecidableEq

/-- The text of an error. -/
def DecryptError.message : DecryptError → String
  | unknownIndex firstKnown requested =>
    s!"the message index {requested} is lower than the first known index {firstKnown} " ++
      "of the session"
  | invalidSignature => "the signature of the Megolm message didn't verify"
  | invalidMac => "the MAC of the Megolm message didn't match"
  | invalidPadding => "the decrypted Megolm message had invalid padding"

/-- The word for an error. -/
def DecryptError.kind : DecryptError → String
  | unknownIndex _ _ => "UnknownMessageIndex"
  | invalidSignature => "InvalidSignature"
  | invalidMac => "InvalidMac"
  | invalidPadding => "InvalidPadding"

instance : Failure DecryptError := ⟨DecryptError.kind, fun error => some error.message⟩

/-- A text that was sent to a room. -/
structure DecryptedMessage where
  plain : Bytes
  /-- The place of the message in its session. -/
  index : UInt32
deriving DecidableEq

/-- The ratchets and the signing key of a session for receiving. -/
structure Receiver where
  /-- The ratchet at the first place that we know. -/
  initial : Ratchet
  /-- The ratchet at the place of the latest message. -/
  latest : Ratchet
  signingKey : Ed25519Key
  /-- Have we seen a signature by the signing key? -/
  verified : Bool
deriving DecidableEq, Inhabited

namespace Receiver

/-- The receiver of an unsigned session key. -/
def ofExported (key : ExportedKey) : Receiver :=
  let ratchet := Ratchet.ofBytes key.ratchet key.index
  ⟨ratchet, ratchet, key.signingKey, false⟩

/-- The receiver of a signed session key. -/
def ofShared (shared : SharedKey) : Receiver :=
  { ofExported shared.key with verified := true }

/-- The identifier of the session: the text of its signing key. -/
def sessionId (receiver : Receiver) : String :=
  receiver.signingKey.toBase64

/-- The first place that we know. -/
def firstKnownIndex (receiver : Receiver) : UInt32 :=
  receiver.initial.index

/-- Check the MAC of a message at the ratchet's place and decrypt it. -/
def decryptAt (ratchet : Ratchet) (message : MegolmMessage) : Except DecryptError Bytes :=
  let cipher := ratchet.cipher
  if cipher.mac message.body = message.mac then
    match cipher.decrypt? message.ciphertext with
    | some plain => .ok plain
    | none => .error .invalidPadding
  else .error .invalidMac

/-- Decrypt a message: its text and the receiver after it. The ratchet starts from the latest
place if that is not beyond the message, and from the first one if it is. -/
def decrypt (receiver : Receiver) (message : MegolmMessage) :
    Except DecryptError (DecryptedMessage × Receiver) := do
  if !Suite.verify receiver.signingKey message.signedBytes message.signature then
    throw .invalidSignature
  if message.index < receiver.firstKnownIndex then
    throw (.unknownIndex receiver.firstKnownIndex message.index)
  if message.index < receiver.latest.index then
    let plain ← decryptAt (receiver.initial.moveTo message.index) message
    pure (⟨plain, message.index⟩, { receiver with verified := true })
  else
    let ratchet := receiver.latest.moveTo message.index
    let plain ← decryptAt ratchet message
    pure (⟨plain, message.index⟩, { receiver with latest := ratchet, verified := true })

/-- The session key from a place on, if that is not before the first one. -/
def exportAt? (receiver : Receiver) (index : UInt32) : Option ExportedKey :=
  if index < receiver.firstKnownIndex then none
  else some (.ofRatchet (receiver.initial.moveTo index) receiver.signingKey)

/-- The version of the pickles we write and read. -/
def pickleVersion : UInt32 := 2

instance : ToPickle Receiver where
  size _ := 4 + 2 * 132 + 32 + 1
  write receiver := do
    Pickler.uint32 pickleVersion
    Pickler.value receiver.initial
    Pickler.value receiver.latest
    Pickler.value receiver.signingKey
    Pickler.bool receiver.verified

instance : OfPickle Receiver where
  read := do
    let version ← Unpickler.uint32
    if version ≠ pickleVersion then throw (.unsupportedVersion version)
    let initial ← Unpickler.value Ratchet
    let latest ← Unpickler.value Ratchet
    if latest.index < initial.index then throw (.malformed .latestBeforeInitial)
    let signingKey ← Unpickler.value Ed25519Key
    let verified ← Unpickler.bool
    pure ⟨initial, latest, signingKey, verified⟩

end Receiver

end RoomCrypt.Megolm
