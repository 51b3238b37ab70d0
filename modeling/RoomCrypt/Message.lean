import RoomCrypt.Failure
import RoomCrypt.Wire
import RoomCrypt.Suite

/-!
# The form of encrypted messages

A message is a version byte, tagged fields and a MAC over both; messages to a room also have a
signature over everything before it. A decoded message keeps the bytes that the MAC covers as they
came, so that encoding it again gives the same bytes, however its fields were written.
-/

namespace RoomCrypt

/-- Why bytes are no message. -/
inductive MessageError where
  /-- There are fewer bytes than the parts of fixed size have. -/
  | tooShort (expected got : Nat)
  /-- The version is not known. -/
  | unsupportedVersion (version : UInt8)
  /-- The fields are not well formed. -/
  | malformedFields
  /-- A field is missing or has a wrong size. -/
  | invalidField (name : String)
  /-- The text of the message is not Base64. -/
  | invalidBase64
deriving DecidableEq

/-- The text of an error, where there is one of our own. -/
def MessageError.message? : MessageError → Option String
  | tooShort expected got =>
    some s!"the message is too short, expected at least {expected} bytes, got {got}"
  | unsupportedVersion version => some s!"the message version {version} is not supported"
  | malformedFields => none
  | invalidField name =>
    some ("the message field " ++ "\x60" ++ name ++ "\x60" ++ " is missing or invalid")
  | invalidBase64 => none

/-- The word for an error. -/
def MessageError.kind : MessageError → String
  | tooShort _ _ => "MessageTooShort"
  | unsupportedVersion _ => "UnsupportedVersion"
  | malformedFields => "ProtoBuf"
  | invalidField _ => "InvalidField"
  | invalidBase64 => "Base64"

instance : Failure MessageError := ⟨MessageError.kind, MessageError.message?⟩

/-- The version of the messages we write and read. -/
def messageVersion : UInt8 := 3

/-- Split off a tail of fixed length. -/
def splitTail? (n : Nat) (bytes : Bytes) : Option (Bytes × Octets n) :=
  (Octets.ofBytes? n (bytes.drop (bytes.length - n))).map fun tail =>
    (bytes.take (bytes.length - n), tail)

/-- A message to one device. -/
structure OlmMessage where
  /-- The public ratchet key of the chain that the message belongs to. -/
  ratchetKey : Curve25519Key
  /-- The place of the message on that chain. -/
  index : UInt32
  ciphertext : Bytes
  /-- The version and the fields as they were written; the MAC is made over them. -/
  body : Bytes
  mac : Octets 8
deriving DecidableEq

namespace OlmMessage

/-- The version and the fields of a message. -/
def encodeBody (ratchetKey : Curve25519Key) (index : UInt32) (ciphertext : Bytes) : Bytes :=
  messageVersion :: Wire.bytesField 1 ratchetKey.octets.bytes ++
    Wire.numberField 2 index.toNat ++ Wire.bytesField 4 ciphertext

/-- The fewest bytes a message has: the version and the MAC. -/
def minLength : Nat := 9

/-- Read the fields of a body whose version byte has been taken off. -/
def ofFields? (fields : List Wire.Field) (body : Bytes) (mac : Octets 8) :
    Except MessageError OlmMessage :=
  match Wire.lastBytes? 1 fields, Wire.lastUInt32? 2 fields, Wire.lastBytes? 4 fields with
  | some key, some index, some ciphertext =>
    match key >>= Octets.ofBytes? 32, index, ciphertext with
    | some key, some index, some ciphertext => .ok ⟨⟨key⟩, index, ciphertext, body, mac⟩
    | none, _, _ => .error (.invalidField "ratchet_key")
    | _, none, _ => .error (.invalidField "chain_index")
    | _, _, none => .error (.invalidField "ciphertext")
  | _, _, _ => .error .malformedFields

/-- Decode a message. -/
def ofBytes? (bytes : Bytes) : Except MessageError OlmMessage :=
  match bytes with
  | version :: _ =>
    if bytes.length < minLength then .error (.tooShort minLength bytes.length)
    else if version ≠ messageVersion then .error (.unsupportedVersion version)
    else
      match splitTail? 8 bytes with
      | some (body, mac) =>
        match Wire.parse? (body.drop 1) with
        | some fields => ofFields? fields body mac
        | none => .error .malformedFields
      | none => .error (.tooShort minLength bytes.length)
  | [] => .error (.tooShort minLength 0)

/-- Encode a message. -/
def toBytes (message : OlmMessage) : Bytes :=
  message.body ++ message.mac.bytes

/-- Decode the text of a message. -/
def ofBase64? (text : String) : Except MessageError OlmMessage :=
  match Base64.decode? text with
  | some bytes => ofBytes? bytes
  | none => .error .invalidBase64

/-- Encode a message as text. -/
def toBase64 (message : OlmMessage) : String :=
  Base64.encode message.toBytes

end OlmMessage

/-- A message to a room. -/
structure MegolmMessage where
  /-- The place of the message in its session. -/
  index : UInt32
  ciphertext : Bytes
  /-- The version and the fields as they were written; the MAC is made over them. -/
  body : Bytes
  mac : Octets 8
  /-- The signature over the body and the MAC. -/
  signature : Ed25519Signature
deriving DecidableEq

namespace MegolmMessage

/-- The version and the fields of a message. -/
def encodeBody (index : UInt32) (ciphertext : Bytes) : Bytes :=
  messageVersion :: Wire.numberField 1 index.toNat ++ Wire.bytesField 2 ciphertext

/-- The fewest bytes a message has: the version, the MAC and the signature. -/
def minLength : Nat := 73

/-- What the signature is made over. -/
def signedBytes (message : MegolmMessage) : Bytes :=
  message.body ++ message.mac.bytes

/-- Read the fields of a body whose version byte has been taken off. -/
def ofFields? (fields : List Wire.Field) (body : Bytes) (mac : Octets 8)
    (signature : Octets 64) : Except MessageError MegolmMessage :=
  match Wire.lastUInt32? 1 fields, Wire.lastBytes? 2 fields with
  | some index, some ciphertext =>
    match index, ciphertext with
    | some index, some ciphertext => .ok ⟨index, ciphertext, body, mac, ⟨signature⟩⟩
    | none, _ => .error (.invalidField "message_index")
    | _, none => .error (.invalidField "ciphertext")
  | _, _ => .error .malformedFields

/-- Decode a message. -/
def ofBytes? (bytes : Bytes) : Except MessageError MegolmMessage :=
  match bytes with
  | version :: _ =>
    if bytes.length < minLength then .error (.tooShort minLength bytes.length)
    else if version ≠ messageVersion then .error (.unsupportedVersion version)
    else
      match splitTail? 64 bytes with
      | some (rest, signature) =>
        match splitTail? 8 rest with
        | some (body, mac) =>
          match Wire.parse? (body.drop 1) with
          | some fields => ofFields? fields body mac signature
          | none => .error .malformedFields
        | none => .error (.tooShort minLength bytes.length)
      | none => .error (.tooShort minLength bytes.length)
  | [] => .error (.tooShort minLength 0)

/-- Encode a message. -/
def toBytes (message : MegolmMessage) : Bytes :=
  message.body ++ message.mac.bytes ++ message.signature.octets.bytes

/-- Decode the text of a message. -/
def ofBase64? (text : String) : Except MessageError MegolmMessage :=
  match Base64.decode? text with
  | some bytes => ofBytes? bytes
  | none => .error .invalidBase64

/-- Encode a message as text. -/
def toBase64 (message : MegolmMessage) : String :=
  Base64.encode message.toBytes

end MegolmMessage

end RoomCrypt
