import RoomCrypt.Failure
import RoomCrypt.Backup.RecoveryKey
import RoomCrypt.Backup.RoomKey
import RoomCrypt.Cipher
import RoomCrypt.Entropy
import RoomCrypt.Json.Reader
import RoomCrypt.Json.Writer
import RoomCrypt.Megolm.Inbound

/-!
# Encrypting room keys for a backup

Whoever knows the public key of a backup can add room keys to it: each is encrypted with a secret
agreed between that key and one made for this room key alone. Only the recovery key decrypts them.
The MAC of this format is made over an empty message, so it proves the key but not the text.
-/

namespace RoomCrypt.Backup

variable [Suite]

/-- Why an encrypted room key cannot be read. -/
inductive DecryptError where
  /-- The public key made for the room key is not one. -/
  | invalidEphemeralKey
  | invalidBase64
  /-- The MAC is wrong. -/
  | invalidMac
  /-- The padding of the text is wrong. -/
  | invalidPadding
  /-- The text is not a room key. -/
  | invalidRecord
deriving DecidableEq

/-- The text of an error, where there is one of our own. -/
def DecryptError.message? : DecryptError → Option String
  | invalidEphemeralKey => none
  | invalidBase64 => none
  | invalidMac => some "The MAC of the backed up room key doesn't match"
  | invalidPadding => some "The backed up room key has invalid padding"
  | invalidRecord => none

/-- The word for an error. -/
def DecryptError.kind : DecryptError → String
  | invalidEphemeralKey => "EphemeralKey"
  | invalidBase64 => "Base64"
  | invalidMac => "Mac"
  | invalidPadding => "Padding"
  | invalidRecord => "Json"

instance : Failure DecryptError := ⟨DecryptError.kind, DecryptError.message?⟩

/-- The cipher of a room key, from the secret that was agreed for it. -/
def cipherOf (secret : Octets 32) : Cipher :=
  Cipher.derive secret.bytes ""

/-- The message that the MAC is made over. -/
def macMessage : Bytes := []

/-- The public key of a backup, which encrypts room keys. -/
structure PublicKey where
  key : Curve25519Key
deriving DecidableEq, Inhabited

/-- The public key of the backup that a recovery key opens. -/
def RecoveryKey.backupKey (key : RecoveryKey) : PublicKey := ⟨key.publicKey⟩

/-- The room key of a session, from the first place on that is known. -/
def RoomKey.ofSession (session : Megolm.InboundSession Megolm.Receiver) : RoomKey where
  algorithm := session.algorithm
  senderKey := session.senderKey
  sessionKey := session.exportKey
  claimedKeys := session.claimedKeys
  forwardingChain := session.forwardingChain

namespace PublicKey

/-- Encrypt the record of a room key with a secret made for it. -/
def encryptWith (key : PublicKey) (ephemeral : Curve25519Secret) (roomKey : RoomKey) :
    EncryptedRoomKey :=
  let cipher := cipherOf (Suite.agree ephemeral key.key)
  { ephemeral := (Suite.publicKey ephemeral).toBase64
    ciphertext := Base64.encode (cipher.encrypt roomKey.toJson.render.toUTF8.toList)
    mac := Base64.encode (cipher.mac macMessage).bytes }

/-- The entry of a session. It tells whether the session was passed on, but not how often. -/
def encrypt (key : PublicKey) (session : Megolm.InboundSession Megolm.Receiver)
    (entropy : Entropy) : Entry × Entropy :=
  let (ephemeral, entropy) := entropy.draw 32
  ({ firstIndex := session.firstKnownIndex
     forwardedCount := if session.imported then 1 else 0
     isVerified := false
     data := key.encryptWith ⟨ephemeral⟩ (.ofSession session) }, entropy)

end PublicKey

/-- The room key of an encoded text. -/
def RoomKey.ofText? (bytes : Bytes) : Option RoomKey := do
  RoomKey.ofJson? (← Json.ofUtf8? bytes)

/-- Decrypt a room key. Its MAC is checked before its text is. -/
def RecoveryKey.decrypt (key : RecoveryKey) (data : EncryptedRoomKey) :
    Except DecryptError RoomKey := do
  let some ephemeral := Curve25519Key.ofBase64? data.ephemeral | throw .invalidEphemeralKey
  let some ciphertext := Base64.decode? data.ciphertext | throw .invalidBase64
  let some mac := Base64.decode? data.mac | throw .invalidBase64
  let cipher := cipherOf (Suite.agree key.secret ephemeral)
  if (cipher.mac macMessage).bytes ≠ mac then throw .invalidMac
  let some plain := cipher.decrypt? ciphertext | throw .invalidPadding
  let some roomKey := RoomKey.ofText? plain | throw .invalidRecord
  pure roomKey

end RoomCrypt.Backup
