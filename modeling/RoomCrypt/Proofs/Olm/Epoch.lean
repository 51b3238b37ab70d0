import Mathlib.Data.List.Infix
import RoomCrypt.Proofs.Laws
import RoomCrypt.Proofs.Olm.Conversation

/-!
# Epochs

The two sides of a conversation take turns in making ratchet key pairs. The pairs that were made so
far, latest first, fix a root key and a chain: the first from the shared secret, and each next one
from the root key before it and the agreement of the two latest pairs. An epoch is such a list; the
side that made its latest pair sends on its chain.
-/

namespace RoomCrypt.Olm

/-- The side that has made the latest pair. -/
def owner : List RatchetKeyPair → Side
  | [] => .responder
  | _ :: past => (owner past).other

/-- The epochs of a side among those of a conversation: a pair that it has made and those before. -/
def IsEpoch (side : Side) (pairs : List RatchetKeyPair) (pair : RatchetKeyPair)
    (past : List RatchetKeyPair) : Prop :=
  pair :: past <:+ pairs ∧ owner (pair :: past) = side

namespace IsEpoch

variable {side : Side} {pairs : List RatchetKeyPair} {pair : RatchetKeyPair} {past : List RatchetKeyPair}

/-- An epoch remains one when more pairs are made. -/
theorem mono (h : IsEpoch side pairs pair past) {more : List RatchetKeyPair} (hmore : pairs <:+ more) :
    IsEpoch side more pair past :=
  ⟨h.1.trans hmore, h.2⟩

/-- A new pair starts an epoch of its own, besides those that there were. -/
theorem cons_iff {newest : RatchetKeyPair} :
    IsEpoch side (newest :: pairs) pair past ↔
      ((pair = newest ∧ past = pairs) ∧ (owner pairs).other = side) ∨ IsEpoch side pairs pair past := by
  unfold IsEpoch
  rw [List.suffix_cons_iff, List.cons.injEq, or_and_right]
  constructor
  · rintro (⟨⟨rfl, rfl⟩, howner⟩ | hold)
    · exact Or.inl ⟨⟨rfl, rfl⟩, howner⟩
    · exact Or.inr hold
  · rintro (⟨⟨rfl, rfl⟩, howner⟩ | hold)
    · exact Or.inl ⟨⟨rfl, rfl⟩, howner⟩
    · exact Or.inr hold

/-- The pair of an epoch is one of those that were made. -/
theorem mem (h : IsEpoch side pairs pair past) : pair ∈ pairs :=
  h.1.subset List.mem_cons_self

/-- If no ratchet key is made twice, the ratchet key determines the epoch. -/
theorem unique (hnodup : (pairs.map (·.publicKey.element)).Nodup) {side' : Side} {pair' : RatchetKeyPair}
    {past' : List RatchetKeyPair} (h : IsEpoch side pairs pair past) (h' : IsEpoch side' pairs pair' past')
    (helement : pair.publicKey.element = pair'.publicKey.element) : pair = pair' ∧ past = past' := by
  induction pairs with
  | nil => exact absurd (List.suffix_nil.mp h.1) (List.cons_ne_nil _ _)
  | cons newest pairs ih =>
    obtain ⟨hnewest, hnodup⟩ := List.nodup_cons.mp hnodup
    have hother {side : Side} {pair : RatchetKeyPair} {past : List RatchetKeyPair}
        (h : IsEpoch side pairs pair past) : pair.publicKey.element ≠ newest.publicKey.element := by
      intro hsame
      exact hnewest (List.mem_map.mpr ⟨pair, h.mem, hsame⟩)
    rcases cons_iff.mp h with ⟨⟨rfl, rfl⟩, -⟩ | hold
    · rcases cons_iff.mp h' with ⟨⟨rfl, rfl⟩, -⟩ | hold'
      · exact ⟨rfl, rfl⟩
      · exact absurd helement.symm (hother hold')
    · rcases cons_iff.mp h' with ⟨⟨rfl, rfl⟩, -⟩ | hold'
      · exact absurd helement (hother hold)
      · exact ih hnodup hold hold'

end IsEpoch

variable [Suite]

/-- The root key and the start of the chain of an epoch. -/
def epoch (secret : Bytes) : List RatchetKeyPair → RootKey × ChainKey
  | ours :: theirs :: past => (epoch secret (theirs :: past)).1.step ours theirs.publicKey
  | _ => RootKey.ofSharedSecret secret

/-- The chain key at a place of an epoch. -/
def epochChain (secret : Bytes) (pairs : List RatchetKeyPair) (place : UInt32) : ChainKey :=
  (epoch secret pairs).2.ahead place.toNat

/-- The key of the message at a place of an epoch. -/
def epochKey (secret : Bytes) (pairs : List RatchetKeyPair) (place : UInt32) : MessageKey :=
  (epochChain secret pairs place).messageKey

/-- The chain of an epoch starts at place 0. -/
theorem index_epoch (secret : Bytes) (pairs : List RatchetKeyPair) : (epoch secret pairs).2.index = 0 := by
  unfold epoch
  split <;> rfl

/-- The start of an epoch is its chain at place 0. -/
@[simp] theorem epochChain_zero (secret : Bytes) (pairs : List RatchetKeyPair) :
    epochChain secret pairs 0 = (epoch secret pairs).2 := rfl

/-- A chain that stays below the last place stays on its epoch when it moves on. -/
theorem ahead_epochChain (secret : Bytes) (pairs : List RatchetKeyPair) (place : UInt32) (count : ℕ)
    (hcount : place.toNat + count < UInt32.size) :
    (epochChain secret pairs place).ahead count = epochChain secret pairs (place + UInt32.ofNat count) := by
  have hsum : (place + UInt32.ofNat count).toNat = place.toNat + count := by
    rw [UInt32.toNat_add, UInt32.toNat_ofNat_of_lt' (by omega)]
    exact Nat.mod_eq_of_lt hcount
  rw [epochChain, epochChain, ChainKey.ahead_ahead, hsum]

/-- A chain for receiving that stands on an epoch: its ratchet key is that of the latest pair, and its
chain key the one of its place. -/
def ReceiverChain.StandsOn (secret : Bytes) (pair : RatchetKeyPair) (past : List RatchetKeyPair)
    (chain : ReceiverChain) : Prop :=
  chain = ⟨pair.publicKey, epochChain secret (pair :: past) chain.index⟩

/-- A skipped key of an epoch. -/
def SkippedKey.StandsOn (secret : Bytes) (pair : RatchetKeyPair) (past : List RatchetKeyPair)
    (key : SkippedKey) : Prop :=
  key = ⟨pair.publicKey, epochKey secret (pair :: past) key.messageKey.index⟩

namespace ReceiverChain.StandsOn

variable {secret : Bytes} {pair : RatchetKeyPair} {past : List RatchetKeyPair} {chain : ReceiverChain}

/-- The ratchet key of the chain is that of the latest pair. -/
theorem ratchetKey_eq (h : chain.StandsOn secret pair past) : chain.ratchetKey = pair.publicKey := by
  rw [h]

/-- The chain key is the one of the place. -/
theorem chainKey_eq (h : chain.StandsOn secret pair past) :
    chain.chainKey = epochChain secret (pair :: past) chain.index :=
  congrArg ReceiverChain.chainKey h

/-- The chain stays on its epoch when it moves on. -/
theorem ahead (h : chain.StandsOn secret pair past) (count : ℕ)
    (hcount : chain.index.toNat + count < UInt32.size) : (chain.ahead count).StandsOn secret pair past := by
  have hkey : (chain.ahead count).chainKey = epochChain secret (pair :: past) (chain.ahead count).index := by
    rw [ReceiverChain.chainKey_ahead, h.chainKey_eq, ahead_epochChain _ _ _ _ hcount,
      ReceiverChain.index_ahead]
  unfold ReceiverChain.StandsOn
  rw [← hkey, ← h.ratchetKey_eq]
  rfl

/-- The keys that the chain passes over are those of the epoch. -/
theorem passed (h : chain.StandsOn secret pair past) {count : ℕ}
    (hcount : chain.index.toNat + count ≤ UInt32.size) {key : SkippedKey} (hkey : key ∈ chain.passed count) :
    key.StandsOn secret pair past := by
  obtain ⟨i, hi, rfl⟩ := mem_passed.mp hkey
  have hchain := h.ahead i (by omega)
  unfold SkippedKey.StandsOn
  rw [h.ratchetKey_eq]
  congr 1
  exact congrArg ChainKey.messageKey hchain.chainKey_eq

/-- The key at the place of a message is the one of the epoch. -/
theorem messageKey_ahead (h : chain.StandsOn secret pair past) {message : OlmMessage}
    (hplace : chain.index ≤ message.index) :
    (chain.ahead (chain.gap message)).messageKey = epochKey secret (pair :: past) message.index := by
  have hsum := chain.index_add_gap message hplace
  have hlt := message.index.toNat_lt_size
  have hchain := h.ahead (chain.gap message) (by omega)
  have hindex : (chain.ahead (chain.gap message)).index = message.index :=
    UInt32.toNat_inj.mp (by rw [chain.toNat_index_ahead _ (by omega), hsum])
  rw [epochKey, ← hindex, ← hchain.chainKey_eq]
  rfl

end ReceiverChain.StandsOn

/-- The side that gets a new ratchet key finds the same epoch as the side that has made it. -/
theorem step_eq_epoch (hagree : Suite.Agrees) (secret : Bytes) (newest : Curve25519Secret)
    (latest : Curve25519Secret) (past : List RatchetKeyPair) :
    (epoch secret (.ofSecret latest :: past)).1.step (.ofSecret latest) (Suite.publicKey newest) =
      epoch secret (.ofSecret newest :: .ofSecret latest :: past) := by
  change RootKey.split (deriveKey _ (Suite.agree latest (Suite.publicKey newest)).bytes _ 64) = _
  rw [hagree]
  rfl

/-- So its new chain stands on that epoch. -/
theorem Ratchet.freshChain_standsOn (ratchet : Ratchet) (sender : SenderChain) {secret : Bytes}
    {pair : RatchetKeyPair} {past : List RatchetKeyPair}
    (hstep : ratchet.rootKey.step sender.keyPair pair.publicKey = epoch secret (pair :: past)) :
    (ratchet.freshChain sender pair.publicKey).StandsOn secret pair past := by
  unfold ReceiverChain.StandsOn Ratchet.freshChain
  rw [hstep]
  change _ = ReceiverChain.mk _ (epochChain secret (pair :: past) (epoch secret (pair :: past)).2.index)
  rw [index_epoch, epochChain_zero]

/-- A message decrypts with the key that it was made with. -/
theorem decrypt_encrypt (hinverts : Suite.Inverts) (key : MessageKey) (ratchetKey : Curve25519Key)
    (plain : Bytes) : key.decrypt (key.encrypt ratchetKey plain) = .ok plain := by
  have hplain : key.cipher.decrypt? (key.cipher.encrypt plain) = some plain :=
    hinverts key.cipher.key key.cipher.iv plain
  simp [MessageKey.decrypt, MessageKey.encrypt, hplain]

end RoomCrypt.Olm
