import Mathlib.Data.List.Nodup
import RoomCrypt.Proofs.Olm.Acceptance

/-!
# Names of messages and of their keys

A message is named by its ratchet key, as a field element, and its place on the chain. The skipped
keys that a jump leaves behind have the names of the places in between, one each, and the store of
skipped keys finds and removes keys by their names.
-/

namespace RoomCrypt

/-- The ratchet key of a message as a field element, and its place. -/
def OlmMessage.name (message : OlmMessage) : ℕ × UInt32 :=
  (message.ratchetKey.element, message.index)

namespace Olm

/-- The ratchet key of a skipped key as a field element, and its place. -/
def SkippedKey.name (key : SkippedKey) : ℕ × UInt32 :=
  (key.ratchetKey.element, key.messageKey.index)

/-- A skipped key is for a message if they have one name. -/
theorem SkippedKey.isFor_iff (key : SkippedKey) (message : OlmMessage) :
    key.isFor message.ratchetKey message.index = true ↔ key.name = message.name := by
  simp [SkippedKey.isFor, SkippedKey.name, OlmMessage.name]

/-- A chain belongs to a ratchet key if they write one field element. -/
theorem ReceiverChain.belongsTo_iff (chain : ReceiverChain) (ratchetKey : Curve25519Key) :
    chain.belongsTo ratchetKey = true ↔ chain.ratchetKey.element = ratchetKey.element := by
  simp [ReceiverChain.belongsTo]

/-- No chain is found exactly if all have other ratchet keys. -/
theorem Ratchet.locate?_eq_none_iff_element {ratchetKey : Curve25519Key} {chains : List ReceiverChain} :
    Ratchet.locate? ratchetKey chains = none ↔
      ∀ chain ∈ chains, chain.ratchetKey.element ≠ ratchetKey.element := by
  rw [Ratchet.locate?_eq_none_iff]
  simp only [← ReceiverChain.belongsTo_iff, ne_eq, Bool.not_eq_true]

namespace SkippedKeys

/-- No key is found exactly if no key in the store has the name of the message. -/
theorem find?_eq_none_iff (store : SkippedKeys) (message : OlmMessage) :
    store.find? message.ratchetKey message.index = none ↔ ∀ key ∈ store.keys, key.name ≠ message.name := by
  simp only [find?, Option.map_eq_none_iff, List.find?_eq_none, SkippedKey.isFor_iff, ne_eq]

/-- A key that was found is in the store and has the name of the message. -/
theorem mem_of_find? {store : SkippedKeys} {message : OlmMessage} {key : MessageKey}
    (h : store.find? message.ratchetKey message.index = some key) :
    ∃ entry ∈ store.keys, entry.name = message.name ∧ entry.messageKey = key := by
  obtain ⟨entry, hfind, hkey⟩ := Option.map_eq_some_iff.mp h
  have hfor : entry.isFor message.ratchetKey message.index = true := by
    simpa only using List.find?_some hfind
  exact ⟨entry, List.mem_of_find?_eq_some hfind, (entry.isFor_iff message).mp hfor, hkey⟩

/-- Removing a key keeps the order of the others. -/
theorem remove_sublist (store : SkippedKeys) (ratchetKey : Curve25519Key) (index : UInt32) :
    (store.remove ratchetKey index).keys.Sublist store.keys :=
  List.eraseP_sublist

/-- Removing the key of a message leaves the keys of other names. -/
theorem mem_remove_of_name_ne (store : SkippedKeys) (message : OlmMessage) {key : SkippedKey}
    (hkey : key ∈ store.keys) (hname : key.name ≠ message.name) :
    key ∈ (store.remove message.ratchetKey message.index).keys :=
  (List.mem_eraseP_of_neg (by rwa [SkippedKey.isFor_iff])).mpr hkey

/-- If names do not repeat, no key of the name is left after the removal. -/
theorem name_ne_of_mem_remove (store : SkippedKeys) (message : OlmMessage)
    (hnodup : (store.keys.map SkippedKey.name).Nodup) {key : SkippedKey}
    (hkey : key ∈ (store.remove message.ratchetKey message.index).keys) : key.name ≠ message.name := by
  intro hname
  change key ∈ store.keys.eraseP _ at hkey
  generalize store.keys = keys at hnodup hkey
  induction keys with
  | nil => simp at hkey
  | cons first rest ih =>
    obtain ⟨hfirst, hrest⟩ := List.nodup_cons.mp hnodup
    by_cases hfor : first.isFor message.ratchetKey message.index
    · simp only [List.eraseP_cons, hfor, cond_true] at hkey
      apply hfirst
      rw [(first.isFor_iff message).mp hfor, ← hname]
      exact List.mem_map_of_mem hkey
    · simp only [List.eraseP_cons, hfor, cond_false] at hkey
      rcases List.mem_cons.mp hkey with rfl | hkey
      · exact hfor ((key.isFor_iff message).mpr hname)
      · exact ih hrest hkey

/-- A key in the store after recording was there before or is one of the recorded keys. -/
theorem mem_of_mem_recordAll {store : SkippedKeys} {keys : List SkippedKey} {key : SkippedKey}
    (h : key ∈ (store.recordAll keys).keys) : key ∈ keys ∨ key ∈ store.keys := by
  have hmem := List.mem_of_mem_take h
  rwa [List.mem_append, List.mem_reverse] at hmem

end SkippedKeys

/-- The last place of a chain; the next one is place 0 again. -/
def lastPlace : UInt32 := 0xffffffff

/-- Before the last place, places are counted without going round. -/
theorem toNat_lt_of_ne_lastPlace {index : UInt32} (h : index ≠ lastPlace) :
    index.toNat + 1 < UInt32.size := by
  have hlt := index.toNat_lt_size
  have hne : index.toNat ≠ lastPlace.toNat := fun heq => h (UInt32.toNat_inj.mp heq)
  have hlast : lastPlace.toNat + 1 = UInt32.size := rfl
  omega

namespace ReceiverChain

/-- A message that is not behind the chain lies beyond it by its gap. -/
theorem index_add_gap (chain : ReceiverChain) (message : OlmMessage) (hplace : chain.index ≤ message.index) :
    chain.index.toNat + chain.gap message = message.index.toNat := by
  have hle := UInt32.le_iff_toNat_le.mp hplace
  rw [chain.gap_eq message hplace]
  omega

variable [Suite]

/-- Places are counted without going round as long as they stay below `2 ^ 32`. -/
theorem toNat_index_ahead (chain : ReceiverChain) (count : ℕ)
    (hcount : chain.index.toNat + count < UInt32.size) :
    (chain.ahead count).index.toNat = chain.index.toNat + count := by
  have hsmall : count < UInt32.size := by omega
  rw [index_ahead, UInt32.toNat_add, UInt32.toNat_ofNat_of_lt' hsmall]
  exact Nat.mod_eq_of_lt hcount

/-- The keys that are passed over are those of the next places. -/
theorem mem_passed {chain : ReceiverChain} {count : ℕ} {key : SkippedKey} :
    key ∈ chain.passed count ↔
      ∃ i < count, key = ⟨chain.ratchetKey, (chain.chainKey.ahead i).messageKey⟩ := by
  simp only [passed, List.mem_map, List.mem_range]
  constructor
  · rintro ⟨i, hi, rfl⟩
    exact ⟨i, hi, rfl⟩
  · rintro ⟨i, hi, rfl⟩
    exact ⟨i, hi, rfl⟩

/-- A key that is passed over has the ratchet key of the chain and one of the next places. -/
theorem name_of_mem_passed {chain : ReceiverChain} {count : ℕ} {key : SkippedKey}
    (hkey : key ∈ chain.passed count) (hcount : chain.index.toNat + count ≤ UInt32.size) :
    key.ratchetKey = chain.ratchetKey ∧ chain.index.toNat ≤ key.messageKey.index.toNat ∧
      key.messageKey.index.toNat < chain.index.toNat + count := by
  obtain ⟨i, hi, rfl⟩ := mem_passed.mp hkey
  have hindex : ((chain.chainKey.ahead i).messageKey.index).toNat = chain.index.toNat + i :=
    chain.toNat_index_ahead i (by omega)
  refine ⟨rfl, ?_, ?_⟩
  · exact hindex ▸ Nat.le_add_right _ _
  · exact hindex ▸ Nat.add_lt_add_left hi _

/-- Each place that is passed over leaves a key of its own. -/
theorem exists_mem_passed (chain : ReceiverChain) {count : ℕ} (index : UInt32)
    (hfrom : chain.index.toNat ≤ index.toNat) (hto : index.toNat < chain.index.toNat + count) :
    ∃ key ∈ chain.passed count, key.name = (chain.ratchetKey.element, index) := by
  have hlt := index.toNat_lt_size
  refine ⟨_, mem_passed.mpr ⟨index.toNat - chain.index.toNat, by omega, rfl⟩, ?_⟩
  refine Prod.ext rfl (UInt32.toNat_inj.mp ?_)
  change (chain.ahead (index.toNat - chain.index.toNat)).index.toNat = index.toNat
  rw [chain.toNat_index_ahead _ (by omega)]
  omega

/-- The names of keys that are passed over do not repeat. -/
theorem nodup_names_passed (chain : ReceiverChain) (count : ℕ)
    (hcount : chain.index.toNat + count ≤ UInt32.size) :
    ((chain.passed count).map SkippedKey.name).Nodup := by
  rw [passed, List.map_map]
  apply List.Nodup.map_on _ List.nodup_range
  intro i hi j hj hname
  have hi := List.mem_range.mp hi
  have hj := List.mem_range.mp hj
  have hindex : (chain.ahead i).index.toNat = (chain.ahead j).index.toNat :=
    congrArg UInt32.toNat (Prod.mk.inj hname).2
  rw [chain.toNat_index_ahead i (by omega), chain.toNat_index_ahead j (by omega)] at hindex
  omega

/-- The ratchet keys of chains stay the same when one of them moves on. -/
theorem map_ratchetKey_set {α : Type} (f : Curve25519Key → α) {receivers : List ReceiverChain} {place : ℕ}
    {chain : ReceiverChain} (hget : receivers[place]? = some chain) (count : ℕ) :
    (receivers.set place (chain.ahead count)).map (fun chain => f chain.ratchetKey) =
      receivers.map (fun chain => f chain.ratchetKey) := by
  obtain ⟨hlt, rfl⟩ := List.getElem?_eq_some_iff.mp hget
  have hlt' : place < (receivers.map fun chain => f chain.ratchetKey).length := by rwa [List.length_map]
  have hkey : (receivers.map fun chain => f chain.ratchetKey)[place] = f receivers[place].ratchetKey :=
    List.getElem_map _
  rw [List.map_set, ratchetKey_ahead, ← hkey]
  exact List.set_getElem_self hlt'

end ReceiverChain

end Olm

end RoomCrypt
