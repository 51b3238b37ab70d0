import RoomCrypt.Proofs.Laws
import RoomCrypt.Proofs.Olm.Movement
import RoomCrypt.Proofs.Olm.Uses

/-!
# A ratchet keeps to its bounds and can always send

Whatever is done with a ratchet, its lists keep to the bounds that were given last, no two chains for
receiving have one ratchet key, and the skipped keys are keys of 32 bytes. The chain for sending is given
up only for a new chain for receiving, which comes first and so is kept if any chain is: there is always
a chain to send on or a ratchet key to make one for.
-/

namespace RoomCrypt.Olm

variable [Suite]

namespace Ratchet

/-- The lists keep to the bounds, and what is in them differs or has its length. -/
structure Bounded (ratchet : Ratchet) : Prop where
  receivers_le : ratchet.receivers.length ≤ ratchet.config.maxReceiverChains
  capacity_eq : ratchet.skipped.capacity = ratchet.config.maxSkippedKeys
  chains_nodup : (ratchet.receivers.map (·.ratchetKey.element)).Nodup
  skipped_length : ∀ key ∈ ratchet.skipped.keys, key.messageKey.key.length = 32

omit [Suite] in
/-- There are no more skipped keys than the store may have. -/
theorem Bounded.skipped_le {ratchet : Ratchet} (h : Bounded ratchet) :
    ratchet.skipped.keys.length ≤ ratchet.config.maxSkippedKeys :=
  h.capacity_eq ▸ ratchet.skipped.length_le

/-- A ratchet begins with the usual bounds. -/
theorem config_origin (origin : Origin) : origin.ratchet.config = {} := by
  cases origin <;> rfl

/-- It begins within them. -/
theorem bounded_origin (origin : Origin) : Bounded origin.ratchet := by
  cases origin with
  | initiator secret ours => exact ⟨Nat.zero_le _, rfl, List.nodup_nil, fun key hkey => nomatch hkey⟩
  | responder secret theirs =>
    exact ⟨Nat.succ_le_succ (Nat.zero_le 4), rfl, List.nodup_singleton _, fun key hkey => nomatch hkey⟩

/-- The keys that are recorded on the way have 32 bytes, as all hashes have. -/
theorem Moves.skipped_length {ratchet after : Ratchet} {message : OlmMessage} {chain : ReceiverChain}
    (h : Moves ratchet after message chain)
    (hlength : ∀ key ∈ ratchet.skipped.keys, key.messageKey.key.length = 32) :
    ∀ key ∈ after.skipped.keys, key.messageKey.key.length = 32 := by
  intro key hkey
  rcases h.mem_skipped hkey with hnew | hold
  · obtain ⟨i, -, rfl⟩ := ReceiverChain.mem_passed.mp hnew
    exact Octets.length_eq _
  · exact hlength key hold

/-- So skipped keys have 32 bytes after acceptance of a message if they had them before. -/
theorem Accepts.skipped_length {ratchet after : Ratchet} {message : OlmMessage} {plain : Bytes}
    (haccepts : ratchet.Accepts message plain after)
    (hlength : ∀ key ∈ ratchet.skipped.keys, key.messageKey.key.length = 32) :
    ∀ key ∈ after.skipped.keys, key.messageKey.key.length = 32 := by
  cases haccepts with
  | skipped key hkey hplain =>
    have hsublist := ratchet.skipped.remove_sublist message.ratchetKey message.index
    exact fun other hother => hlength other (hsublist.subset hother)
  | held place chain hkey hchain hplace hgap hplain => exact (moves_held hchain hplace).skipped_length hlength
  | opened sender hkey hchain hsender hgap hplain =>
    exact (ratchet.moves_opened sender message).skipped_length hlength

/-- Acceptance of a message keeps to the bounds. -/
theorem Bounded.accepts {ratchet after : Ratchet} {message : OlmMessage} {plain : Bytes} (h : Bounded ratchet)
    (haccepts : ratchet.Accepts message plain after) : Bounded after := by
  have hskipped := haccepts.skipped_length h.skipped_length
  cases haccepts with
  | skipped key hkey hplain => exact ⟨h.receivers_le, h.capacity_eq, h.chains_nodup, hskipped⟩
  | held place chain hkey hchain hplace hgap hplain =>
    exact ⟨Nat.le_trans (Nat.le_of_eq List.length_set) h.receivers_le, h.capacity_eq,
      nodup_afterHeld hchain h.chains_nodup, hskipped⟩
  | opened sender hkey hchain hsender hgap hplain =>
    exact ⟨List.length_take_le _ _, h.capacity_eq, nodup_afterOpened hchain h.chains_nodup sender, hskipped⟩

/-- The bounds withstand all uses. -/
theorem stable_bounded : Stable (fun _ => True) Bounded where
  configured _ h :=
    ⟨List.length_take_le _ _, rfl, ((List.take_sublist _ _).map _).nodup h.chains_nodup,
      fun key hkey => h.skipped_length key (List.mem_of_mem_take hkey)⟩
  sent hencrypt h := by
    obtain ⟨hreceivers, hskipped, hconfig⟩ := encrypt_frame hencrypt
    exact ⟨hreceivers ▸ hconfig ▸ h.receivers_le, hskipped ▸ hconfig ▸ h.capacity_eq,
      hreceivers ▸ h.chains_nodup, hskipped ▸ h.skipped_length⟩
  read haccepts h := h.accepts haccepts

/-- There is a chain of some kind, and there may be one for receiving. -/
structure Usable (ratchet : Ratchet) : Prop where
  room : 1 ≤ ratchet.config.maxReceiverChains
  chain : ratchet.sender.isSome = true ∨ ratchet.receivers ≠ []

/-- A ratchet begins with a chain. -/
theorem usable_origin (origin : Origin) : Usable origin.ratchet where
  room := by
    rw [config_origin]
    decide
  chain := by
    cases origin with
    | initiator secret ours => exact Or.inl rfl
    | responder secret theirs => exact Or.inr (List.cons_ne_nil _ _)

omit [Suite] in
/-- If chains may be kept, the first one is. -/
theorem take_ne_nil {chains : List ReceiverChain} (hne : chains ≠ []) {max : ℕ} (hmax : 1 ≤ max) :
    chains.take max ≠ [] := by
  intro hnil
  rcases List.take_eq_nil_iff.mp hnil with hzero | hempty
  · omega
  · exact hne hempty

/-- Acceptance of a message leaves a chain: it gives up the one for sending only for a new one. -/
theorem Usable.accepts {ratchet after : Ratchet} {message : OlmMessage} {plain : Bytes} (h : Usable ratchet)
    (haccepts : ratchet.Accepts message plain after) : Usable after := by
  cases haccepts with
  | skipped key hkey hplain => exact ⟨h.room, h.chain⟩
  | held place chain hkey hchain hplace hgap hplain =>
    exact ⟨h.room, h.chain.imp id fun hne hnil => hne ((List.set_eq_nil_iff _ _).mp hnil)⟩
  | opened sender hkey hchain hsender hgap hplain =>
    -- The new chain comes first, so it is not among those that exceed the bound.
    exact ⟨h.room, Or.inr (take_ne_nil (List.cons_ne_nil _ _) h.room)⟩

/-- That a ratchet can send withstands all uses, if chains may be kept at any time. -/
theorem stable_usable : Stable (fun config => 1 ≤ config.maxReceiverChains) Usable where
  configured hroom h := ⟨hroom, h.chain.imp id fun hne => take_ne_nil hne hroom⟩
  sent hencrypt h := by
    obtain ⟨-, -, hconfig⟩ := encrypt_frame hencrypt
    refine ⟨hconfig ▸ h.room, Or.inl ?_⟩
    rcases eq_of_encrypt hencrypt with ⟨chain, -, rfl⟩ | ⟨ratchetKey, rfl⟩
    · rfl
    · rfl
  read haccepts h := h.accepts haccepts

end Ratchet

/-- Whatever bounds are given to a ratchet, whatever it encrypts and whatever messages come to it: it has the
bounds that were given last and keeps to them, its chains for receiving have different ratchet keys and its
skipped keys have 32 bytes. If all bounds let it keep a chain, it has one, and encryption does not fail. -/
theorem bounded_and_usable (origin : Origin) (uses : List RatchetUse) :
    let ratchet := origin.ratchet.useAll uses
    ratchet.config = (RatchetUse.configs uses).getLastD {} ∧
      ratchet.receivers.length ≤ ratchet.config.maxReceiverChains ∧
      ratchet.skipped.keys.length ≤ ratchet.config.maxSkippedKeys ∧
      ratchet.skipped.capacity = ratchet.config.maxSkippedKeys ∧
      (ratchet.receivers.map (·.ratchetKey.element)).Nodup ∧
      (∀ key ∈ ratchet.skipped.keys, key.messageKey.key.length = 32) ∧
      ((∀ config ∈ RatchetUse.configs uses, 1 ≤ config.maxReceiverChains) →
        (ratchet.sender.isSome = true ∨ ratchet.receivers ≠ []) ∧
          ∀ plain entropy, ∃ message after,
            (Ratchet.encryptInPlace plain).on (ratchet, entropy) = (.ok message, after)) := by
  intro ratchet
  have hbounded : ratchet.Bounded :=
    Ratchet.stable_bounded.useAll (Ratchet.bounded_origin origin) fun _ _ => trivial
  refine ⟨?_, hbounded.receivers_le, hbounded.skipped_le, hbounded.capacity_eq, hbounded.chains_nodup,
    hbounded.skipped_length, fun hroom => ?_⟩
  · exact Ratchet.config_origin origin ▸ origin.ratchet.config_useAll uses
  · have husable : ratchet.Usable := Ratchet.stable_usable.useAll (Ratchet.usable_origin origin) hroom
    refine ⟨husable.chain, fun plain entropy => ?_⟩
    obtain ⟨message, after, left, hencrypt⟩ := Ratchet.exists_encrypt husable.chain plain entropy
    rw [Ratchet.on_encryptInPlace, hencrypt]
    exact ⟨message, _, rfl⟩

end RoomCrypt.Olm

namespace RoomCrypt.Olm

open scoped Suite.Evaluation

/-- The ratchet key of the first messages of a small session. -/
def boundsKey : Curve25519Key := ⟨.ofNatLE 32 5⟩

/-- The next ratchet key of the same side. -/
def boundsNextKey : Curve25519Key := ⟨.ofNatLE 32 9⟩

/-- The message at place 2 of the first chain of the session. -/
def boundsFirst : OlmMessage :=
  ((RootKey.ofSharedSecret [7]).2.ahead 2).messageKey.encrypt boundsKey [1]

/-- The side that has received this message, passing over two others, and has answered. -/
def boundsAnswered : Ratchet :=
  (Origin.responder [7] boundsKey).ratchet.useAll [.decrypt boundsFirst, .encrypt [2] default]

/-- The message at place 1 of the next chain of the other side. -/
def boundsNext : OlmMessage :=
  match boundsAnswered.sender with
  | some sender =>
    ((boundsAnswered.freshChain sender boundsNextKey).ahead 1).messageKey.encrypt boundsNextKey [3]
  | none => boundsFirst

/-- What is done with it: the bounds are made narrow, and then a new ratchet key comes. -/
def boundsUses : List RatchetUse :=
  [.decrypt boundsFirst, .encrypt [2] default, .configure ⟨1, 1, 10⟩, .decrypt boundsNext]

/-- The chain for sending and the old chain are gone and one of three skipped keys is left, and it can still
be answered. -/
theorem bounded_and_usable_narrowed :
    let ratchet := (Origin.responder [7] boundsKey).ratchet.useAll boundsUses
    ratchet.config = ⟨1, 1, 10⟩ ∧ ratchet.sender = none ∧
      ratchet.receivers.map (·.ratchetKey) = [boundsNextKey] ∧ ratchet.skipped.keys.length = 1 ∧
      (∀ key ∈ ratchet.skipped.keys, key.messageKey.key.length = 32) ∧
      (∀ config ∈ RatchetUse.configs boundsUses, 1 ≤ config.maxReceiverChains) ∧
      ∃ message after, (Ratchet.encryptInPlace [4]).on (ratchet, default) = (.ok message, after) := by
  have hroom : ∀ config ∈ RatchetUse.configs boundsUses, 1 ≤ config.maxReceiverChains := by decide
  obtain ⟨hconfig, -, -, -, -, hlength, husable⟩ := bounded_and_usable (.responder [7] boundsKey) boundsUses
  exact ⟨hconfig, by decide +kernel, by decide +kernel, by decide +kernel, hlength, hroom,
    (husable hroom).2 [4] default⟩

end RoomCrypt.Olm
