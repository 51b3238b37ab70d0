import RoomCrypt.Suite
import RoomCrypt.Crypto.Sha256
import RoomCrypt.Crypto.Aes
import RoomCrypt.Crypto.Ed25519

/-!
# The standard suite

SHA-256 and its MAC, AES-256 in CBC mode, X25519 and Ed25519.
-/

namespace RoomCrypt.Suite

/-- The suite that sessions use. -/
@[reducible] def standard : Suite where
  hmac := Sha256.hmac
  digest := Sha256.hash
  encrypt := Aes.encrypt
  decrypt? := Aes.decrypt?
  publicKey secret := ⟨Curve25519.publicKey secret.octets⟩
  agree secret key := Curve25519.agree secret.octets key.octets
  signingKey seed := ⟨Ed25519.publicKey seed.octets⟩
  isPoint key := Ed25519.isPoint key.octets
  sign seed message := ⟨Ed25519.sign seed.octets message⟩
  verify key message signature := Ed25519.verify key.octets message signature.octets

end RoomCrypt.Suite
