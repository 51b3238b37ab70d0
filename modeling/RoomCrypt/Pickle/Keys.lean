import RoomCrypt.Pickle.Basic
import RoomCrypt.Suite

/-!
# Pickles of keys

A public key is its 32 bytes as they were given. Any 32 bytes are a key of the key agreement, while
a signing key has to be a point of the curve.
-/

namespace RoomCrypt

instance : ToPickle Curve25519Key where
  size _ := 32
  write key := Pickler.bytes key.octets.bytes

instance : OfPickle Curve25519Key where
  read := Curve25519Key.mk <$> Unpickler.octets 32

instance : ToPickle Ed25519Key where
  size _ := 32
  write key := Pickler.bytes key.octets.bytes

instance [Suite] : OfPickle Ed25519Key where
  read := do
    match Ed25519Key.ofOctets? (← Unpickler.octets 32) with
    | some key => pure key
    | none => throw (.malformed .invalidEd25519Key)

end RoomCrypt
