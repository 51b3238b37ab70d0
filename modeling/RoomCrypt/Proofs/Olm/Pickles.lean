import RoomCrypt.Olm.Channel
import RoomCrypt.Proofs.Pickle.Reading

/-!
# The pickles of chains, ratchets and channels

For each type its form is given as a byte string. It is what is written of a value, and what is read
is the form of a valid value: our key pair has to be one, and a message key has 32 bytes. Any other
message key is written as zeros and does not come back.
-/

namespace RoomCrypt.Olm

open Unpickler (Reads reads_octets reads_uint32 reads_bool)

namespace ChainKey

/-- The key and its place. -/
def form (chain : ChainKey) : Bytes :=
  chain.key.bytes ++ Bytes.ofUInt32 chain.index

theorem hasForm (chain : ChainKey) : HasForm chain chain.form where
  size_eq := by simp [form, ToPickle.size]
  writes := (Pickler.writes_bytes _).followed (Pickler.writes_uint32 _)

theorem reads : Reads OfPickle.read form fun _ => True :=
  ((reads_octets 32).pair reads_uint32 (fun _ => rfl) fun _ _ => ⟨rfl, rfl⟩).congr
    fun _ => (and_iff_left trivial).symm

end ChainKey

namespace MessageKey

/-- The key and its place. A key that does not have 32 bytes is written as zeros. -/
def form (key : MessageKey) : Bytes :=
  (if key.key.length = 32 then key.key else List.replicate 32 0) ++ Bytes.ofUInt32 key.index

theorem hasForm (key : MessageKey) : HasForm key key.form where
  size_eq := by
    by_cases hlength : key.key.length = 32 <;> simp [form, ToPickle.size, hlength]
  writes := (Pickler.writes_fixed _ 32).followed (Pickler.writes_uint32 _)

theorem reads : Reads OfPickle.read form fun key => key.key.length = 32 := by
  apply Reads.of_iff
  intro source key rest
  simp only [OfPickle.read, InPlace.on_bind_eq_ok_iff, (reads_octets 32).iff, reads_uint32.iff,
    InPlace.on_pure_eq_ok_iff, true_and]
  constructor
  · rintro ⟨octets, _, rfl, index, _, rfl, rfl, rfl⟩
    refine ⟨octets.length_eq, ?_⟩
    rw [form, if_pos octets.length_eq, List.append_assoc]
  · rintro ⟨hlength, rfl⟩
    refine ⟨⟨key.key, hlength⟩, _, ?_, key.index, rest, rfl, rfl, rfl⟩
    rw [form, if_pos hlength, List.append_assoc]

end MessageKey

namespace RatchetKeyPair

/-- The public key and the secret. -/
def form (pair : RatchetKeyPair) : Bytes :=
  pair.publicKey.octets.bytes ++ pair.secret.octets.bytes

/-- The public key is the one of the secret, as a field element. -/
def IsPair [Suite] (pair : RatchetKeyPair) : Prop :=
  (Suite.publicKey pair.secret).same pair.publicKey = true

instance [Suite] (pair : RatchetKeyPair) : Decidable pair.IsPair :=
  inferInstanceAs (Decidable ((Suite.publicKey pair.secret).same pair.publicKey = true))

theorem hasForm (pair : RatchetKeyPair) : HasForm pair pair.form where
  size_eq := by simp [form, ToPickle.size]
  writes := pair.publicKey.hasForm.writes_value.followed (Pickler.writes_bytes _)

theorem reads [Suite] : Reads OfPickle.read form IsPair := by
  apply Reads.of_iff
  intro source pair rest
  simp only [OfPickle.read, InPlace.on_bind_eq_ok_iff, Curve25519Key.reads.value.iff,
    (reads_octets 32).iff, true_and]
  constructor
  · rintro ⟨publicKey, _, rfl, secret, _, rfl, hread⟩
    by_cases hpair : (Suite.publicKey ⟨secret⟩).same publicKey = true
    · simp only [hpair, if_true, InPlace.on_pure_eq_ok_iff] at hread
      obtain ⟨rfl, rfl⟩ := hread
      exact ⟨hpair, (List.append_assoc _ _ _).symm⟩
    · simp only [hpair] at hread
      cases hread
  · rintro ⟨hpair, rfl⟩
    refine ⟨pair.publicKey, _, List.append_assoc _ _ _, pair.secret.octets, rest, rfl, ?_⟩
    have hsame : (Suite.publicKey pair.secret).same pair.publicKey = true := hpair
    simp only [hsame, if_true]
    rfl

end RatchetKeyPair

namespace SenderChain

/-- The key pair and the chain key. -/
def form (chain : SenderChain) : Bytes :=
  chain.keyPair.form ++ chain.chainKey.form

theorem hasForm (chain : SenderChain) : HasForm chain chain.form :=
  chain.keyPair.hasForm.pair chain.chainKey.hasForm rfl rfl

theorem reads [Suite] : Reads OfPickle.read form fun chain => chain.keyPair.IsPair :=
  (RatchetKeyPair.reads.value.pair ChainKey.reads.value (fun _ => rfl) fun _ _ => ⟨rfl, rfl⟩).congr
    fun _ => (and_iff_left trivial).symm

end SenderChain

namespace SkippedKey

/-- The ratchet key and the message key. -/
def form (key : SkippedKey) : Bytes :=
  key.ratchetKey.octets.bytes ++ key.messageKey.form

theorem hasForm (key : SkippedKey) : HasForm key key.form :=
  key.ratchetKey.hasForm.pair key.messageKey.hasForm rfl rfl

theorem reads : Reads OfPickle.read form fun key => key.messageKey.key.length = 32 :=
  (Curve25519Key.reads.value.pair MessageKey.reads.value (fun _ => rfl) fun _ _ => ⟨rfl, rfl⟩).congr
    fun _ => (and_iff_right trivial).symm

end SkippedKey

namespace ReceiverChain

/-- The ratchet key and the chain key. -/
def form (chain : ReceiverChain) : Bytes :=
  chain.ratchetKey.octets.bytes ++ chain.chainKey.form

theorem hasForm (chain : ReceiverChain) : HasForm chain chain.form :=
  chain.ratchetKey.hasForm.pair chain.chainKey.hasForm rfl rfl

theorem reads : Reads OfPickle.read form fun _ => True :=
  (Curve25519Key.reads.value.pair ChainKey.reads.value (fun _ => rfl) fun _ _ => ⟨rfl, rfl⟩).congr
    fun _ => (and_iff_left trivial).symm

end ReceiverChain

namespace RootKey

theorem hasForm (root : RootKey) : HasForm root root.key.bytes where
  size_eq := root.key.length_eq.symm
  writes := Pickler.writes_bytes _

theorem reads : Reads OfPickle.read (fun root : RootKey => root.key.bytes) fun _ => True :=
  (reads_octets 32).map (fun _ => rfl) fun _ => rfl

end RootKey

namespace Ratchet

/-- The root key, and the lists of chains and skipped keys: of chains for sending there is one or none. -/
def form (ratchet : Ratchet) : Bytes :=
  ratchet.rootKey.key.bytes ++ listForm SenderChain.form ratchet.sender.toList ++
    listForm ReceiverChain.form ratchet.receivers ++ listForm SkippedKey.form ratchet.skipped.keys

/-- A ratchet that can be restored under some bounds: it has these bounds and keeps to them, its lists
can be counted in 32 bits, and its keys are such as can be written. -/
structure Restorable [Suite] (config : RatchetConfig) (ratchet : Ratchet) : Prop where
  config_eq : ratchet.config = config
  capacity_eq : ratchet.skipped.capacity = config.maxSkippedKeys
  receivers_le : ratchet.receivers.length ≤ config.maxReceiverChains
  receivers_lt : ratchet.receivers.length < UInt32.size
  skipped_le : ratchet.skipped.keys.length ≤ config.maxSkippedKeys
  skipped_lt : ratchet.skipped.keys.length < UInt32.size
  sender_pair : ∀ chain ∈ ratchet.sender, chain.keyPair.IsPair
  skipped_length : ∀ key ∈ ratchet.skipped.keys, key.messageKey.key.length = 32

/-- A ratchet is written as its form, if its lists can be counted. -/
theorem hasForm (ratchet : Ratchet) (hreceivers : ratchet.receivers.length < UInt32.size)
    (hskipped : ratchet.skipped.keys.length < UInt32.size) : HasForm ratchet ratchet.form where
  size_eq := by
    simp only [form, List.length_append, ← listPickleSize_eq fun chain _ => (SenderChain.hasForm chain).size_eq,
      ← listPickleSize_eq fun chain _ => (ReceiverChain.hasForm chain).size_eq,
      ← listPickleSize_eq fun key _ => (SkippedKey.hasForm key).size_eq, ← ratchet.rootKey.hasForm.size_eq]
    rfl
  writes := by
    have hsender : ratchet.sender.toList.length < UInt32.size :=
      Nat.lt_of_le_of_lt Option.length_toList_le (by decide)
    have hwrites := ratchet.rootKey.hasForm.writes_value.followed
      ((Pickler.writes_list (fun chain _ => (SenderChain.hasForm chain).writes_value) hsender).followed
        ((Pickler.writes_list (fun chain _ => (ReceiverChain.hasForm chain).writes_value) hreceivers).followed
          (Pickler.writes_list (fun key _ => (SkippedKey.hasForm key).writes_value) hskipped)))
    rw [form, List.append_assoc, List.append_assoc]
    exact hwrites

/-- A list of one chain or none is the list of its first chain. -/
theorem toList_head? {chains : List SenderChain} (hlength : chains.length ≤ 1) :
    chains.head?.toList = chains := by
  match chains, hlength with
  | [], _ => rfl
  | [_], _ => rfl

/-- What is read as a ratchet under some bounds is the form of one that can be restored under them. -/
theorem reads [Suite] (config : RatchetConfig) : Reads (readWith config) form (Restorable config) := by
  apply Reads.of_iff
  intro source ratchet rest
  simp only [readWith, InPlace.on_bind_eq_ok_iff, RootKey.reads.value.iff, (SenderChain.reads.list 1).iff,
    (ReceiverChain.reads.list config.maxReceiverChains).iff, (SkippedKey.reads.list config.maxSkippedKeys).iff,
    InPlace.on_pure_eq_ok_iff, true_and]
  constructor
  · rintro ⟨root, _, rfl, senders, _, ⟨hsenders, rfl⟩, receivers, _, ⟨hreceivers, rfl⟩, skipped, _,
      ⟨hskipped, rfl⟩, rfl, rfl⟩
    -- The list of at most one chain becomes an option, and the keys are no more than the store may have.
    have hsender := toList_head? hsenders.length_le
    have hkeys : (SkippedKeys.ofKeys skipped config.maxSkippedKeys).keys = skipped :=
      List.take_of_length_le hskipped.length_le
    refine ⟨?_, ?_⟩
    · exact
        { config_eq := rfl
          capacity_eq := rfl
          receivers_le := hreceivers.length_le
          receivers_lt := hreceivers.length_lt
          skipped_le := by rw [hkeys]; exact hskipped.length_le
          skipped_lt := by rw [hkeys]; exact hskipped.length_lt
          sender_pair := fun chain hchain => hsenders.valid chain (List.mem_of_mem_head? hchain)
          skipped_length := by rw [hkeys]; exact hskipped.valid }
    · simp only [form, hsender, hkeys, List.append_assoc]
  · rintro ⟨h, rfl⟩
    have hkeys : SkippedKeys.ofKeys ratchet.skipped.keys config.maxSkippedKeys = ratchet.skipped :=
      SkippedKeys.ext (List.take_of_length_le h.skipped_le) h.capacity_eq.symm
    obtain ⟨root, sender, receivers, skipped, bounds⟩ := ratchet
    obtain rfl : bounds = config := h.config_eq
    refine ⟨root, _, ?_, sender.toList, _, ⟨⟨?_, ?_, ?_⟩, rfl⟩,
      receivers, _, ⟨⟨h.receivers_le, h.receivers_lt, fun _ _ => trivial⟩, rfl⟩, skipped.keys, rest,
      ⟨⟨h.skipped_le, h.skipped_lt, h.skipped_length⟩, rfl⟩, ?_, rfl⟩
    · simp only [form, List.append_assoc]
    · exact Option.length_toList_le
    · exact Nat.lt_of_le_of_lt Option.length_toList_le (by decide)
    · exact fun chain hchain => h.sender_pair chain (Option.mem_toList.mp hchain)
    · rw [hkeys]
      cases sender <;> rfl

end Ratchet

namespace Channel

/-- The version, whether a message was received, the three keys of the agreement and the ratchet. -/
def form (channel : Channel) : Bytes :=
  Bytes.ofUInt32 pickleVersion ++ [if channel.received then 1 else 0] ++ channel.keys.identity.octets.bytes ++
    channel.keys.base.octets.bytes ++ channel.keys.oneTime.octets.bytes ++ channel.ratchet.form

/-- A channel is written as its form, if the lists of its ratchet can be counted. -/
theorem hasForm (channel : Channel) (hreceivers : channel.ratchet.receivers.length < UInt32.size)
    (hskipped : channel.ratchet.skipped.keys.length < UInt32.size) : HasForm channel channel.form where
  size_eq := by
    have hratchet := (channel.ratchet.hasForm hreceivers hskipped).size_eq
    simp only [form, List.length_append, ← hratchet]
    simp [ToPickle.size]
  writes := by
    have hwrites := (Pickler.writes_uint32 pickleVersion).followed
      ((Pickler.writes_bool channel.received).followed
        (channel.keys.identity.hasForm.writes_value.followed
          (channel.keys.base.hasForm.writes_value.followed
            (channel.keys.oneTime.hasForm.writes_value.followed
              (channel.ratchet.hasForm hreceivers hskipped).writes_value))))
    simp only [form, List.append_assoc]
    exact hwrites

/-- What is read as a channel is the form of one whose ratchet can be restored. -/
theorem reads [Suite] (config : RatchetConfig) :
    Reads (readWith config) form fun channel => channel.ratchet.Restorable config := by
  apply Reads.of_iff
  intro source channel rest
  simp only [readWith, InPlace.on_bind_eq_ok_iff, reads_uint32.iff, reads_bool.iff, Curve25519Key.reads.value.iff,
    (Ratchet.reads config).nested.iff, InPlace.on_unless_eq_ok_iff, InPlace.on_pure_eq_ok_iff, true_and, ne_eq,
    Decidable.not_not]
  constructor
  · rintro ⟨_, _, rfl, rfl, received, _, rfl, identity, _, rfl, base, _, rfl, oneTime, _, rfl, ratchet, _,
      ⟨hratchet, rfl⟩, rfl, rfl⟩
    refine ⟨hratchet, ?_⟩
    simp only [form, List.append_assoc]
  · rintro ⟨hratchet, rfl⟩
    refine ⟨pickleVersion, _, ?_, rfl, channel.received, _, rfl, channel.keys.identity, _, rfl,
      channel.keys.base, _, rfl, channel.keys.oneTime, _, rfl, channel.ratchet, rest, ⟨hratchet, rfl⟩, rfl, rfl⟩
    simp only [form, List.append_assoc]

end Channel

end RoomCrypt.Olm
