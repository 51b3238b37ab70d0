import RoomCrypt.Backup.Encryption
import RoomCrypt.Proofs.Backup.RoomKey
import RoomCrypt.Proofs.Laws
import RoomCrypt.Proofs.Text.Utf8

/-!
# Encrypted room keys read back

The recovery key of a backup decrypts the room keys that were encrypted for its public key, whatever secret was
made for each of them.
-/

namespace RoomCrypt.Backup

variable [Suite]

/-- A room key is read from the bytes of its record, if its signing key is a point. -/
theorem RoomKey.ofText?_render {roomKey : RoomKey} (hpoint : Suite.isPoint roomKey.sessionKey.signingKey = true) :
    ofText? roomKey.toJson.render.toUTF8.toList = some roomKey := by
  unfold ofText?
  rw [Json.ofUtf8?_toUTF8, Json.parse?_render roomKey.plain_toJson, Option.bind_eq_bind, Option.bind_some,
    ofJson?_toJson hpoint]

/-- A room key is decrypted by the recovery key of the backup that it was encrypted for. -/
theorem RecoveryKey.decrypt_encryptWith (hagrees : Suite.Agrees) (hinverts : Suite.Inverts) (key : RecoveryKey)
    (ephemeral : Curve25519Secret) {roomKey : RoomKey}
    (hpoint : Suite.isPoint roomKey.sessionKey.signingKey = true) :
    key.decrypt (key.backupKey.encryptWith ephemeral roomKey) = .ok roomKey := by
  have hsecret : Suite.agree key.secret (Suite.publicKey ephemeral) = Suite.agree ephemeral key.backupKey.key :=
    hagrees key.secret ephemeral
  let cipher := cipherOf (Suite.agree ephemeral key.backupKey.key)
  have hplain : cipher.decrypt? (cipher.encrypt roomKey.toJson.render.toUTF8.toList) =
      some roomKey.toJson.render.toUTF8.toList := hinverts _ _ _
  unfold decrypt PublicKey.encryptWith
  simp only [Curve25519Key.ofBase64?_toBase64, Base64.decode?_encode, hsecret]
  rw [if_neg (not_not.mpr rfl), hplain]
  dsimp only
  rw [RoomKey.ofText?_render hpoint]
  rfl

/-- A room key that is decrypted is read from a text. -/
theorem RecoveryKey.ofText?_of_decrypt {key : RecoveryKey} {data : EncryptedRoomKey} {roomKey : RoomKey}
    (h : key.decrypt data = .ok roomKey) : ∃ plain, RoomKey.ofText? plain = some roomKey := by
  unfold decrypt at h
  dsimp only at h
  repeat' split at h
  -- All ways but the last one end in an error.
  all_goals cases h
  exact ⟨_, ‹RoomKey.ofText? _ = some roomKey›⟩

/-- Its signing key is a point. -/
theorem RecoveryKey.isPoint_of_decrypt {key : RecoveryKey} {data : EncryptedRoomKey} {roomKey : RoomKey}
    (h : key.decrypt data = .ok roomKey) : Suite.isPoint roomKey.sessionKey.signingKey = true := by
  obtain ⟨plain, hread⟩ := ofText?_of_decrypt h
  obtain ⟨value, -, hrecord⟩ := Option.bind_eq_some_iff.mp hread
  exact RoomKey.isPoint_of_ofJson? hrecord

end RoomCrypt.Backup
