import RoomCrypt.Proofs.Olm.Names

/-!
# A chain moves behind a message

A message that has no skipped key is accepted on a chain, be it held or new. Both ways do the same to
the chains and to the skipped keys: the chain comes to stand behind the message, and the keys of the
places in between are recorded.
-/

namespace RoomCrypt.Olm.Ratchet

variable [Suite]

/-- Acceptance on a chain, which is held or starts at place 0. -/
structure Moves (ratchet after : Ratchet) (message : OlmMessage) (chain : ReceiverChain) : Prop where
  key_eq : chain.ratchetKey.element = message.ratchetKey.element
  place_le : chain.index ≤ message.index
  source : chain ∈ ratchet.receivers ∨ chain.index = 0
  receivers : ∀ other ∈ after.receivers,
    other = chain.ahead (chain.gap message + 1) ∨ other ∈ ratchet.receivers
  skipped_eq : after.skipped = ratchet.skipped.recordAll (chain.passed (chain.gap message))

/-- Acceptance on a chain that is held moves it. -/
theorem moves_held {ratchet : Ratchet} {message : OlmMessage} {place : ℕ} {chain : ReceiverChain}
    (hchain : locate? message.ratchetKey ratchet.receivers = some (place, chain))
    (hplace : chain.index ≤ message.index) :
    ratchet.Moves (ratchet.afterHeld place chain message) message chain := by
  obtain ⟨hget, hbelongs⟩ := getElem?_of_locate? hchain
  exact
    { key_eq := (chain.belongsTo_iff _).mp hbelongs
      place_le := hplace
      source := Or.inl (List.mem_of_getElem? hget)
      receivers := fun other hother => (List.mem_or_eq_of_mem_set hother).symm
      skipped_eq := rfl }

/-- Acceptance on a new chain moves that chain. -/
theorem moves_opened (ratchet : Ratchet) (sender : SenderChain) (message : OlmMessage) :
    ratchet.Moves (ratchet.afterOpened sender message) message
      (ratchet.freshChain sender message.ratchetKey) := by
  have hgap := ratchet.gap_freshChain sender message
  refine
    { key_eq := rfl
      place_le := UInt32.zero_le
      source := Or.inr rfl
      receivers := ?_
      skipped_eq := ?_ }
  · intro other hother
    rw [hgap]
    exact List.mem_cons.mp (List.mem_of_mem_take hother)
  · rw [hgap]
    rfl

/-- The ratchet keys of the chains still differ when one of the chains has moved. -/
theorem nodup_afterHeld {ratchet : Ratchet} {message : OlmMessage} {place : ℕ} {chain : ReceiverChain}
    (hchain : locate? message.ratchetKey ratchet.receivers = some (place, chain))
    (hnodup : (ratchet.receivers.map (·.ratchetKey.element)).Nodup) :
    ((ratchet.afterHeld place chain message).receivers.map (·.ratchetKey.element)).Nodup := by
  obtain ⟨hget, -⟩ := getElem?_of_locate? hchain
  unfold afterHeld
  rw [ReceiverChain.map_ratchetKey_set Curve25519Key.element hget]
  exact hnodup

/-- And so they do when a chain was opened because there was none. -/
theorem nodup_afterOpened {ratchet : Ratchet} {message : OlmMessage}
    (hchain : locate? message.ratchetKey ratchet.receivers = none)
    (hnodup : (ratchet.receivers.map (·.ratchetKey.element)).Nodup) (sender : SenderChain) :
    ((ratchet.afterOpened sender message).receivers.map (·.ratchetKey.element)).Nodup := by
  refine ((List.take_sublist _ _).map _).nodup ?_
  rw [List.map_cons, List.nodup_cons]
  refine ⟨fun hmem => ?_, hnodup⟩
  obtain ⟨other, hold, hsame⟩ := List.mem_map.mp hmem
  exact locate?_eq_none_iff_element.mp hchain other hold hsame

namespace Moves

variable {ratchet after : Ratchet} {message : OlmMessage} {chain : ReceiverChain}

/-- The chain and the gap give the place of the message. -/
theorem place_eq (h : Moves ratchet after message chain) :
    chain.index.toNat + chain.gap message = message.index.toNat :=
  chain.index_add_gap message h.place_le

/-- The chain comes to stand behind the message. -/
theorem behind (h : Moves ratchet after message chain) (hlast : message.index ≠ lastPlace) :
    (chain.ahead (chain.gap message + 1)).index.toNat = message.index.toNat + 1 := by
  have hplace := h.place_eq
  have hsize := toNat_lt_of_ne_lastPlace hlast
  rw [chain.toNat_index_ahead _ (by omega)]
  omega

/-- A skipped key was there before, or was recorded on the way. -/
theorem mem_skipped (h : Moves ratchet after message chain) {key : SkippedKey}
    (hkey : key ∈ after.skipped.keys) :
    key ∈ chain.passed (chain.gap message) ∨ key ∈ ratchet.skipped.keys := by
  rw [h.skipped_eq] at hkey
  exact SkippedKeys.mem_of_mem_recordAll hkey

/-- The keys that are recorded are those of the places between the chain and the message. -/
theorem name_passed (h : Moves ratchet after message chain) {key : SkippedKey}
    (hkey : key ∈ chain.passed (chain.gap message)) :
    key.ratchetKey.element = chain.ratchetKey.element ∧
      chain.index.toNat ≤ key.messageKey.index.toNat ∧
      key.messageKey.index.toNat < message.index.toNat := by
  have hplace := h.place_eq
  have hsize := message.index.toNat_lt_size
  obtain ⟨hname, hfrom, hto⟩ := ReceiverChain.name_of_mem_passed hkey (by omega)
  exact ⟨congrArg Curve25519Key.element hname, hfrom, by omega⟩

/-- No name of a skipped key is repeated, if what was held of the chain lies below it. -/
theorem nodup_names (h : Moves ratchet after message chain)
    (hnodup : (ratchet.skipped.keys.map SkippedKey.name).Nodup)
    (hbelow : ∀ key ∈ ratchet.skipped.keys, key.ratchetKey.element = chain.ratchetKey.element →
      key.messageKey.index < chain.index) : (after.skipped.keys.map SkippedKey.name).Nodup := by
  have hplace := h.place_eq
  have hsize := message.index.toNat_lt_size
  have hsublist : (ratchet.skipped.recordAll (chain.passed (chain.gap message))).keys.Sublist
      ((chain.passed (chain.gap message)).reverse ++ ratchet.skipped.keys) := List.take_sublist _ _
  rw [h.skipped_eq]
  refine (hsublist.map SkippedKey.name).nodup ?_
  rw [List.map_append, List.map_reverse]
  refine List.Nodup.append (List.nodup_reverse.mpr (chain.nodup_names_passed _ (by omega))) hnodup ?_
  intro name hnew hold
  obtain ⟨new, hmem, rfl⟩ := List.mem_map.mp (List.mem_reverse.mp hnew)
  obtain ⟨old, hold, hname⟩ := List.mem_map.mp hold
  obtain ⟨hkey, hfrom, -⟩ := h.name_passed hmem
  have helement : old.ratchetKey.element = chain.ratchetKey.element := (Prod.mk.inj hname).1.trans hkey
  have hlt := UInt32.lt_iff_toNat_lt.mp (hbelow old hold helement)
  have hindex : old.messageKey.index = new.messageKey.index := (Prod.mk.inj hname).2
  rw [hindex] at hlt
  omega

end Moves

end RoomCrypt.Olm.Ratchet
