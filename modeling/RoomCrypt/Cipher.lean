import RoomCrypt.Suite

/-!
# Message ciphers

Every message is encrypted and authenticated with keys derived from one secret: a key and an
initialisation vector for the block cipher and a key for the MAC, of which eight bytes are sent.
-/

namespace RoomCrypt

variable [Suite]

/-- Key material: `count` blocks, each the keyed hash of the block before it, the context and its
number. -/
def keyBlocks (key info : Bytes) : Nat → Bytes → UInt8 → Bytes
  | 0, _, _ => []
  | count + 1, previous, number =>
    let block := Suite.hmac key (previous ++ info ++ [number])
    block.bytes ++ keyBlocks key info count block.bytes (number + 1)

@[simp] theorem length_keyBlocks (key info : Bytes) (count : Nat) (previous : Bytes)
    (number : UInt8) : (keyBlocks key info count previous number).length = 32 * count := by
  induction count generalizing previous number with
  | zero => rfl
  | succ count ih => simp [keyBlocks, ih]; omega

/-- Derive `n` bytes from a secret: extract a key with the salt, then expand it in a context. -/
def deriveKey (salt secret info : Bytes) (n : Nat) : Octets n :=
  let key := Suite.hmac salt secret
  ⟨(keyBlocks key.bytes info ((n + 31) / 32) [] 1).take n, by simp; omega⟩

/-- The salt where there is none to give: zeros. -/
def noSalt : Bytes := List.replicate 32 0

/-- The keys of one message. -/
structure Cipher where
  /-- The key of the block cipher. -/
  key : Octets 32
  /-- The key of the MAC. -/
  macKey : Octets 32
  /-- The initialisation vector. -/
  iv : Octets 16
deriving DecidableEq

namespace Cipher

/-- The keys derived from a secret in a context. -/
def derive (secret : Bytes) (context : String) : Cipher :=
  let keys := deriveKey noSalt secret context.toUTF8.toList 80
  ⟨keys.slice 0 32 (by decide), keys.slice 32 32 (by decide), keys.slice 64 16 (by decide)⟩

/-- Encrypt a text. -/
def encrypt (cipher : Cipher) (plain : Bytes) : Bytes :=
  Suite.encrypt cipher.key cipher.iv plain

/-- Decrypt a text, if its padding is right. -/
def decrypt? (cipher : Cipher) (text : Bytes) : Option Bytes :=
  Suite.decrypt? cipher.key cipher.iv text

/-- The MAC of a message: the first eight bytes of the keyed hash. -/
def mac (cipher : Cipher) (message : Bytes) : Octets 8 :=
  (Suite.hmac cipher.macKey.bytes message).slice 0 8 (by decide)

end Cipher

end RoomCrypt
