import RoomCrypt.Backup.Info
import RoomCrypt.Dict.Lemmas
import RoomCrypt.Proofs.Text.Base64

/-!
# Signatures over the data of a backup

A signature is looked up in the value that the data are written as, and it is made over this value without
its signatures. What is found is the signature of the entry that was read, and what is signed is the public
key with all members that we do not know, so that neither the other signatures nor what a server has added
change what a signature says.
-/

namespace RoomCrypt

/-- A signature is read from its text. -/
theorem Ed25519Signature.ofBase64?_toBase64 (signature : Ed25519Signature) :
    ofBase64? signature.toBase64 = some signature := by
  unfold ofBase64? Octets.ofBase64? toBase64
  rw [Base64.decode?_encode]
  simp

namespace Signature

/-- The signature that an entry holds, if its text is one. -/
def held? : Signature → Option Ed25519Signature
  | ed25519 signature => some signature
  | other text => Ed25519Signature.ofBase64? text
  | invalid text => Ed25519Signature.ofBase64? text

/-- It is read from the text of the entry. -/
theorem ofBase64?_toBase64 (entry : Signature) : Ed25519Signature.ofBase64? entry.toBase64 = entry.held? := by
  cases entry with
  | ed25519 signature => exact signature.ofBase64?_toBase64
  | other text => rfl
  | invalid text => rfl

end Signature

namespace Backup.AuthData

/-- The text that signatures are made over: the public key and the members that we do not know, but for what a
server has added. -/
def signedText? (data : AuthData) : Option String :=
  Json.canonical? (.object (("public_key", data.publicKey.toJson) ::
    data.extra.entries.filter fun (name, _) => name ≠ "signatures" ∧ name ≠ "unsigned"))

/-- It is the text of the value that the data are written as. -/
theorem signedText?_toJson (data : AuthData) : data.toJson.signedText? = data.signedText? := by
  have hkey : decide ("public_key" ≠ "signatures" ∧ "public_key" ≠ "unsigned") = true := by decide
  have hsignatures : ¬ decide ("signatures" ≠ "signatures" ∧ "signatures" ≠ "unsigned") = true := by decide
  unfold toJson Json.signedText? signedText?
  dsimp only
  rw [List.filter_cons, if_pos hkey, List.filter_cons, if_neg hsignatures]

/-- The signature that the data hold under a key of a user. -/
def signature? (data : AuthData) (user : UserId) (keyId : String) : Option Ed25519Signature :=
  (data.signatures.ofUser? user).bind fun entries => (entries.find? keyId).bind Signature.held?

/-- It is what is found in the value that the data are written as. -/
theorem signature?_toJson (data : AuthData) (user : UserId) (keyId : String) :
    data.toJson.signature? user keyId = data.signature? user keyId := by
  have hsignatures : data.toJson.member? "signatures" = some data.signatures.toJson := by
    unfold toJson Json.member?
    dsimp only
    rw [Dict.lookup?, if_neg (by decide), Dict.lookup?, if_pos rfl]
  have huser : data.signatures.toJson.member? user.text =
      (data.signatures.ofUser? user).map fun entries => Json.ofDict (entries.map fun entry => .text entry.toBase64) :=
    Dict.find?_map _ data.signatures.users user.text
  unfold signature? Json.signature?
  rw [hsignatures, Option.bind_eq_bind, Option.bind_some, huser]
  cases data.signatures.ofUser? user with
  | none => rfl
  | some entries =>
    have hentry : (Json.ofDict (entries.map fun entry => .text entry.toBase64)).member? keyId =
        (entries.find? keyId).map fun entry => .text entry.toBase64 :=
      Dict.find?_map _ entries keyId
    rw [Option.map_some, Option.bind_eq_bind, Option.bind_some, Option.bind_some, hentry]
    cases entries.find? keyId with
    | none => rfl
    | some entry => exact entry.ofBase64?_toBase64

variable [Suite]

/-- A key of a user has signed the data: what they hold under it is a signature of their text that verifies. -/
def SignedWith (data : AuthData) (user : UserId) (keyId : String) (key : Ed25519Key) : Prop :=
  ∃ signature text, data.signature? user keyId = some signature ∧ data.signedText? = some text ∧
    Suite.verify key text.toUTF8.toList signature = true

/-- That is what is checked, for keys of the algorithm that we know. -/
theorem isSignedBy_iff {data : AuthData} {user : UserId} {keyId : String} {key : Ed25519Key} :
    data.toJson.isSignedBy user keyId key = true ↔
      keyAlgorithm keyId = signingAlgorithm ∧ data.SignedWith user keyId key := by
  unfold Json.isSignedBy SignedWith
  rw [signature?_toJson, signedText?_toJson]
  by_cases halgorithm : keyAlgorithm keyId = signingAlgorithm
  · cases data.signature? user keyId with
    | none => simp
    | some signature => cases data.signedText? <;> simp [halgorithm]
  · simp [halgorithm]

/-- Data with the same text and the same signature under a key are both signed with it, or both are not. -/
theorem SignedWith.congr {data other : AuthData} {user : UserId} {keyId : String} {key : Ed25519Key}
    (htext : data.signedText? = other.signedText?)
    (hsignature : data.signature? user keyId = other.signature? user keyId) :
    data.SignedWith user keyId key ↔ other.SignedWith user keyId key := by
  unfold SignedWith
  rw [htext, hsignature]

end Backup.AuthData

end RoomCrypt
