import RoomCrypt.Text.Base64
import RoomCrypt.Crypto.Curve25519

/-!
# Keys and the cipher suite

The kinds of keys, and the primitives that everything else is built from: a keyed hash, a block
cipher in a chained mode, a key agreement and a signature scheme. What is built from them is stated
over any suite, so that its properties do not depend on how a primitive works.
-/

namespace RoomCrypt

/-- A public key of the key agreement, as it was written. -/
structure Curve25519Key where
  octets : Octets 32
deriving DecidableEq, Inhabited

/-- A secret of the key agreement. It is brought into the scalar form only where it is used. -/
structure Curve25519Secret where
  octets : Octets 32
deriving DecidableEq, Inhabited

/-- A public key of the signature scheme. -/
structure Ed25519Key where
  octets : Octets 32
deriving DecidableEq, Inhabited

/-- The seed from which a signing key pair is made. -/
structure Ed25519Seed where
  octets : Octets 32
deriving DecidableEq, Inhabited

/-- A signature. -/
structure Ed25519Signature where
  octets : Octets 64
deriving DecidableEq, Inhabited

/-- The primitives. -/
class Suite where
  /-- The keyed hash of a message: first the key, then the message. -/
  hmac : Bytes → Bytes → Octets 32
  /-- The hash of a message. -/
  digest : Bytes → Octets 32
  /-- Encrypt a text with a key and an initialisation vector. -/
  encrypt : Octets 32 → Octets 16 → Bytes → Bytes
  /-- Decrypt a text, if its padding is right. -/
  decrypt? : Octets 32 → Octets 16 → Bytes → Option Bytes
  /-- The public key of a secret. -/
  publicKey : Curve25519Secret → Curve25519Key
  /-- The secret that two sides share, from the secret of one and the public key of the other. -/
  agree : Curve25519Secret → Curve25519Key → Octets 32
  /-- The public key of a seed. -/
  signingKey : Ed25519Seed → Ed25519Key
  /-- Do the bytes of a public key write a point of the curve? -/
  isPoint : Ed25519Key → Bool
  /-- The signature of a message. -/
  sign : Ed25519Seed → Bytes → Ed25519Signature
  /-- Does the signature of the message verify under the key? -/
  verify : Ed25519Key → Bytes → Ed25519Signature → Bool

/-- A byte string of fixed length from its text. -/
def Octets.ofBase64? (n : Nat) (text : String) : Option (Octets n) :=
  Base64.decode? text >>= Octets.ofBytes? n

namespace Curve25519Key

/-- The field element that the key writes. -/
def element (key : Curve25519Key) : Nat :=
  Curve25519.element key.octets

/-- Keys are the same if they write one field element, be their bytes equal or not. -/
def same (a b : Curve25519Key) : Bool :=
  a.element == b.element

@[simp] theorem same_iff {a b : Curve25519Key} : a.same b = true ↔ a.element = b.element := by
  simp [same]

theorem same_refl (a : Curve25519Key) : a.same a = true := by simp

theorem same_symm {a b : Curve25519Key} (h : a.same b = true) : b.same a = true := by
  simp_all

theorem same_trans {a b c : Curve25519Key} (h : a.same b = true) (h' : b.same c = true) :
    a.same c = true := by
  simp_all

/-- The text of a key. -/
def toBase64 (key : Curve25519Key) : String :=
  Base64.encode key.octets.bytes

/-- The key of a text, which has no more than one padding sign. -/
def ofBase64? (text : String) : Option Curve25519Key :=
  if text.utf8ByteSize = 43 ∨ text.utf8ByteSize = 44 then
    (Octets.ofBase64? 32 text).map Curve25519Key.mk
  else none

end Curve25519Key

namespace Ed25519Key

/-- The text of a key. -/
def toBase64 (key : Ed25519Key) : String :=
  Base64.encode key.octets.bytes

/-- The key with the given bytes, if they write a point. -/
def ofOctets? [Suite] (octets : Octets 32) : Option Ed25519Key :=
  if Suite.isPoint ⟨octets⟩ then some ⟨octets⟩ else none

/-- The key of a text. -/
def ofBase64? [Suite] (text : String) : Option Ed25519Key :=
  Octets.ofBase64? 32 text >>= ofOctets?

end Ed25519Key

namespace Ed25519Signature

/-- The text of a signature. -/
def toBase64 (signature : Ed25519Signature) : String :=
  Base64.encode signature.octets.bytes

/-- The signature of a text. -/
def ofBase64? (text : String) : Option Ed25519Signature :=
  (Octets.ofBase64? 64 text).map Ed25519Signature.mk

end Ed25519Signature

end RoomCrypt
