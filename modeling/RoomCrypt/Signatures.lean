import RoomCrypt.Identifier
import RoomCrypt.Json.Form
import RoomCrypt.Json.Writer
import RoomCrypt.Suite

/-!
# Signatures of an object

A signed object lists signatures by user and key. What is not a signature that we can read is kept
as the text it is, so that reading and writing the list loses nothing.

A signature is made over the canonical form of the object without its signatures and without what
its server has added.
-/

namespace RoomCrypt

/-- One entry of a list of signatures. -/
inductive Signature where
  /-- A signature of the algorithm that we know. -/
  | ed25519 (signature : Ed25519Signature)
  /-- A signature of another algorithm. -/
  | other (text : String)
  /-- A text that is no signature of its algorithm. -/
  | invalid (text : String)
deriving DecidableEq

namespace Signature

/-- The entry of a key with the given text. -/
def ofText (keyId text : String) : Signature :=
  if keyAlgorithm keyId = signingAlgorithm then
    match Ed25519Signature.ofBase64? text with
    | some signature => ed25519 signature
    | none => invalid text
  else other text

/-- The text of an entry. -/
def toBase64 : Signature → String
  | ed25519 signature => signature.toBase64
  | other text => text
  | invalid text => text

end Signature

/-- The signatures of an object. -/
structure Signatures where
  /-- By user, then by key. -/
  users : Dict (Dict Signature)
deriving DecidableEq

namespace Signatures

/-- No signatures. -/
def empty : Signatures := ⟨.empty⟩

/-- Is there no user with signatures? -/
def isEmpty (signatures : Signatures) : Bool :=
  signatures.users.isEmpty

/-- The signatures of a user by key. -/
def ofUser? (signatures : Signatures) (user : UserId) : Option (Dict Signature) :=
  signatures.users.find? user.text

/-- Add a signature; the answer has the one that it replaces. -/
def add (signatures : Signatures) (user : UserId) (keyId : String)
    (signature : Ed25519Signature) : Option Signature × Signatures :=
  let entries := (signatures.ofUser? user).getD .empty
  (entries.find? keyId,
    ⟨signatures.users.insert user.text (entries.insert keyId (.ed25519 signature))⟩)

/-- The list as a value. -/
def toJson (signatures : Signatures) : Json :=
  .ofDict (signatures.users.map fun entries => .ofDict (entries.map fun s => .text s.toBase64))

/-- Read the texts of the entries of a user. -/
def entriesOfJson? (value : Json) : Option (Dict Signature) := do
  let texts ← value.dict? isKeyId Json.text?
  some (texts.mapEntries Signature.ofText)

/-- Read a list. -/
def ofJson? (value : Json) : Option Signatures :=
  (value.dict? isUserId entriesOfJson?).map Signatures.mk

instance : ToJson Signatures := ⟨toJson⟩

instance : OfJson Signatures := ⟨ofJson?⟩

end Signatures

namespace Json

/-- The first member of an object with a name. -/
def member? (name : String) : Json → Option Json
  | .object members => Dict.lookup? name members
  | _ => none

/-- The text that signatures of an object are made over. -/
def signedText? : Json → Option String
  | .object members =>
    canonical? (.object (members.filter fun (name, _) =>
      name ≠ "signatures" ∧ name ≠ "unsigned"))
  | _ => none

/-- The signature that an object lists under a user and a key. -/
def signature? (value : Json) (user : UserId) (keyId : String) : Option Ed25519Signature := do
  let written ← (← (← (← value.member? "signatures").member? user.text).member? keyId).text?
  Ed25519Signature.ofBase64? written

/-- Does an object hold a signature of a user's key that verifies? Only keys of the algorithm that we know are asked. -/
def isSignedBy [Suite] (value : Json) (user : UserId) (keyId : String) (key : Ed25519Key) : Bool :=
  if keyAlgorithm keyId = signingAlgorithm then
    match value.signature? user keyId, value.signedText? with
    | some signature, some signed => Suite.verify key signed.toUTF8.toList signature
    | _, _ => false
  else false

end Json

end RoomCrypt
