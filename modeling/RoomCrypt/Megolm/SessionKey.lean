import RoomCrypt.Failure
import RoomCrypt.Megolm.Ratchet

/-!
# Keys of room sessions

A session key opens a room session from a place on: it has the ratchet at that place and the key
that signs the messages. The creator of a session shares it signed with that very key; all others
pass it on without a signature.
-/

namespace RoomCrypt.Megolm

variable [Suite]

/-- Why bytes are no session key. -/
inductive SessionKeyError where
  /-- The version is not the one we know. -/
  | version (known found : UInt8)
  /-- The length is wrong. -/
  | length (expected got : Nat)
  /-- The text of the key is not Base64. -/
  | invalidBase64
  /-- The signing key is not a point of the curve. -/
  | invalidPublicKey
  /-- The signature does not verify. -/
  | invalidSignature
deriving DecidableEq

/-- The text of an error, where there is one of our own. It names the version that we know first
and the one that was found second. -/
def SessionKeyError.message? : SessionKeyError → Option String
  | version known found =>
    some s!"the session key version {known} is not supported, expected {found}"
  | length expected got =>
    some s!"the session key has an invalid length, expected {expected} bytes, got {got}"
  | invalidBase64 => none
  | invalidPublicKey => none
  | invalidSignature => none

/-- The word for an error. -/
def SessionKeyError.kind : SessionKeyError → String
  | version _ _ => "Version"
  | length _ _ => "Length"
  | invalidBase64 => "Base64"
  | invalidPublicKey => "PublicKey"
  | invalidSignature => "Signature"

instance : Failure SessionKeyError := ⟨SessionKeyError.kind, SessionKeyError.message?⟩

/-- A session key as it is passed on. -/
structure ExportedKey where
  signingKey : Ed25519Key
  /-- The parts of the ratchet. -/
  ratchet : Octets 128
  /-- The place of the ratchet. -/
  index : UInt32
deriving DecidableEq, Inhabited

namespace ExportedKey

/-- The version of the form. -/
def version : UInt8 := 1

/-- The length of the form. -/
def size : Nat := 165

/-- The key of a ratchet. -/
def ofRatchet (ratchet : Ratchet) (signingKey : Ed25519Key) : ExportedKey :=
  ⟨signingKey, ratchet.bytes, ratchet.index⟩

/-- The identifier of the session: the text of its signing key. -/
def sessionId (key : ExportedKey) : String :=
  key.signingKey.toBase64

/-- The place, the ratchet and the signing key. -/
def fields (key : ExportedKey) : Bytes :=
  Bytes.ofUInt32 key.index ++ key.ratchet.bytes ++ key.signingKey.octets.bytes

/-- Read the place, the ratchet and the signing key. -/
def ofFields? (octets : Octets 164) : Except SessionKeyError ExportedKey :=
  match Ed25519Key.ofOctets? (octets.slice 132 32 (by decide)) with
  | some signingKey =>
    .ok ⟨signingKey, octets.slice 4 128 (by decide), (octets.slice 0 4 (by decide)).toUInt32⟩
  | none => .error .invalidPublicKey

/-- Encode a key. -/
def toBytes (key : ExportedKey) : Bytes :=
  version :: key.fields

/-- Decode a key. -/
def ofBytes? (bytes : Bytes) : Except SessionKeyError ExportedKey :=
  match Octets.ofBytes? size bytes with
  | none => .error (.length size bytes.length)
  | some octets =>
    let found := bytes.headD 0
    if found ≠ version then .error (.version version found)
    else ofFields? (octets.slice 1 164 (by decide))

/-- Decode the text of a key. -/
def ofBase64? (text : String) : Except SessionKeyError ExportedKey :=
  match Base64.decode? text with
  | some bytes => ofBytes? bytes
  | none => .error .invalidBase64

/-- Encode a key as text. -/
def toBase64 (key : ExportedKey) : String :=
  Base64.encode key.toBytes

end ExportedKey

/-- A session key as its creator shares it. -/
structure SharedKey where
  key : ExportedKey
  /-- The signature over the version and the key, by the signing key of the session. -/
  signature : Ed25519Signature
deriving DecidableEq, Inhabited

namespace SharedKey

/-- The version of the form. -/
def version : UInt8 := 2

/-- The length of the form. -/
def size : Nat := 229

/-- What the signature is made over. -/
def signedBytes (key : ExportedKey) : Bytes :=
  version :: key.fields

/-- Encode a key. -/
def toBytes (shared : SharedKey) : Bytes :=
  signedBytes shared.key ++ shared.signature.octets.bytes

/-- Decode a key and verify its signature. -/
def ofBytes? (bytes : Bytes) : Except SessionKeyError SharedKey :=
  match Octets.ofBytes? size bytes with
  | none => .error (.length size bytes.length)
  | some octets =>
    let found := bytes.headD 0
    if found ≠ version then .error (.version version found)
    else
      match ExportedKey.ofFields? (octets.slice 1 164 (by decide)) with
      | .error e => .error e
      | .ok key =>
        let signature := ⟨octets.slice 165 64 (by decide)⟩
        if Suite.verify key.signingKey (bytes.take 165) signature then .ok ⟨key, signature⟩
        else .error .invalidSignature

/-- Decode the text of a key and verify its signature. -/
def ofBase64? (text : String) : Except SessionKeyError SharedKey :=
  match Base64.decode? text with
  | some bytes => ofBytes? bytes
  | none => .error .invalidBase64

/-- Encode a key as text. -/
def toBase64 (shared : SharedKey) : String :=
  Base64.encode shared.toBytes

end SharedKey

end RoomCrypt.Megolm
