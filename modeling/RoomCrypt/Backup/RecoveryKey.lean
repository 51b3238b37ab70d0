import RoomCrypt.Failure
import RoomCrypt.Suite
import RoomCrypt.Text.Base58
import RoomCrypt.Text.Blank

/-!
# Recovery keys

The secret of a backup, and the texts in which users write it down. The main one is the Base58 text
of a fixed marker, the secret and a parity byte that brings the sum of all bytes modulo two to zero;
blank characters in it do not count.
-/

namespace RoomCrypt.Backup

/-- Why a text is no recovery key. -/
inductive RecoveryKeyError where
  | invalidBase58
  | invalidBase64
  /-- The text has another number of bytes. -/
  | length (expected got : Nat)
  /-- The bytes do not start with the marker. -/
  | marker (expected got : Octets 2)
  /-- The last byte is not the parity of the others. -/
  | parity (written computed : UInt8)
deriving DecidableEq

/-- The texts of two bytes, as a list. -/
def showPair (octets : Octets 2) : String :=
  "[" ++ ", ".intercalate (octets.bytes.map fun b => toString b.toNat) ++ "]"

/-- The text of an error, where there is one of our own. -/
def RecoveryKeyError.message? : RecoveryKeyError → Option String
  | invalidBase58 => none
  | invalidBase64 => none
  | length expected got =>
    some s!"The decoded recovery key has a invalid length: expected {expected}, got {got}"
  | marker expected got =>
    some ("The decoded recovery key has an invalid prefix: expected " ++ showPair expected ++
      ", got " ++ showPair got)
  | parity written computed =>
    some ("The parity byte of the recovery key doesn't match: expected " ++
      toString written.toNat ++ ", got " ++ toString computed.toNat)

/-- The word for an error. -/
def RecoveryKeyError.kind : RecoveryKeyError → String
  | invalidBase58 => "Base58"
  | invalidBase64 => "Base64"
  | length _ _ => "Length"
  | marker _ _ => "Prefix"
  | parity _ _ => "Parity"

instance : Failure RecoveryKeyError := ⟨RecoveryKeyError.kind, RecoveryKeyError.message?⟩

/-- The secret of a backup. -/
structure RecoveryKey where
  secret : Curve25519Secret
deriving DecidableEq, Inhabited

namespace RecoveryKey

/-- The number of bytes of the secret. -/
def size : Nat := 32

/-- The bytes before the secret. -/
def marker : Octets 2 := ⟨[0x8b, 0x01], rfl⟩

/-- The parity of bytes: their sum modulo two, bit by bit. -/
def parityOf (bytes : Bytes) : UInt8 :=
  bytes.foldl (· ^^^ ·) 0

/-- The marker, the secret and the parity byte. -/
def framed (key : RecoveryKey) : Bytes :=
  let bytes := marker.bytes ++ key.secret.octets.bytes
  bytes ++ [parityOf bytes]

/-- The number of bytes with the marker and the parity byte. -/
def framedSize : Nat := 2 + size + 1

/-- The key of the bytes with the marker and the parity byte. -/
def ofFramed? (bytes : Bytes) : Except RecoveryKeyError RecoveryKey :=
  match Octets.ofBytes? framedSize bytes with
  | none => .error (.length framedSize bytes.length)
  | some octets =>
    let found := octets.slice 0 2 (by decide)
    let secret := octets.slice 2 32 (by decide)
    let written := octets.bytes.getLastD 0
    let computed := parityOf (marker.bytes ++ secret.bytes)
    if found ≠ marker then .error (.marker marker found)
    else if written ≠ computed then .error (.parity written computed)
    else .ok ⟨⟨secret⟩⟩

/-- The text of a key. -/
def toBase58 (key : RecoveryKey) : String :=
  Base58.encode key.framed

/-- The key of a text. -/
def ofBase58? (text : String) : Except RecoveryKeyError RecoveryKey :=
  match Base58.decode? (text.toList.filter fun c => !isBlank c) with
  | some bytes => ofFramed? bytes
  | none => .error .invalidBase58

/-- A list in pieces of `n + 1` elements, of which the last one may be shorter. -/
def pieces {α : Type} (n : Nat) : List α → List (List α)
  | [] => []
  | a :: rest => (a :: rest.take n) :: pieces n (rest.drop n)
termination_by l => l.length
decreasing_by simp only [List.length_drop, List.length_cons]; omega

/-- The text of a key as it is shown: in groups of four signs. -/
def toDisplayText (key : RecoveryKey) : String :=
  " ".intercalate ((pieces 3 key.toBase58.toList).map String.ofList)

/-- The Base64 text of the secret. -/
def toBase64 (key : RecoveryKey) : String :=
  Base64.encode key.secret.octets.bytes

/-- The key of the Base64 text of a secret. -/
def ofBase64? (text : String) : Except RecoveryKeyError RecoveryKey :=
  match Base64.decode? text with
  | none => .error .invalidBase64
  | some bytes =>
    match Octets.ofBytes? 32 bytes with
    | some octets => .ok ⟨⟨octets⟩⟩
    | none => .error (.length size bytes.length)

/-- The public key, which is published with a backup. -/
def publicKey [Suite] (key : RecoveryKey) : Curve25519Key :=
  Suite.publicKey key.secret

end RecoveryKey

end RoomCrypt.Backup
