import Mathlib.Data.List.Induction
import RoomCrypt.Proofs.Laws
import RoomCrypt.Proofs.Olm.Encryption
import RoomCrypt.Proofs.Olm.Movement
import RoomCrypt.Proofs.Olm.RatchetLog

/-!
# A message is accepted at most once

The names of the skipped keys never repeat and lie below their chains, and the names of decrypted
messages lie below their chains too and have no skipped key any more. So as long as the chain is
there, a message of such a name is refused, and by an argument that needs nothing of the primitives.
-/

namespace RoomCrypt.Olm

variable [Suite]

namespace RatchetLog

/-- What holds at any time: names do not repeat, and nothing that was used or passed over lies ahead
of its chain. -/
structure Inv (log : RatchetLog) : Prop where
  chains_nodup : (log.ratchet.receivers.map (·.ratchetKey.element)).Nodup
  chains_known : ∀ chain ∈ log.ratchet.receivers, chain.ratchetKey.element ∈ log.chainKeys
  keys_nodup : (log.ratchet.skipped.keys.map SkippedKey.name).Nodup
  keys_known : ∀ key ∈ log.ratchet.skipped.keys, key.ratchetKey.element ∈ log.chainKeys
  keys_below : ∀ key ∈ log.ratchet.skipped.keys, ∀ chain ∈ log.ratchet.receivers,
    chain.ratchetKey.element = key.ratchetKey.element → key.messageKey.index < chain.index
  accepted_known : ∀ message ∈ log.accepted, message.ratchetKey.element ∈ log.chainKeys
  accepted_below : ∀ message ∈ log.accepted, ∀ chain ∈ log.ratchet.receivers,
    chain.ratchetKey.element = message.ratchetKey.element → message.index < chain.index
  accepted_gone : ∀ message ∈ log.accepted, ∀ key ∈ log.ratchet.skipped.keys, key.name ≠ message.name

/-- The invariant holds at the beginning. -/
theorem inv_start (origin : Origin) (config : RatchetConfig) : Inv (start origin config) := by
  have hkeys : (start origin config).ratchet.skipped.keys = [] := by
    cases origin <;> exact List.take_nil
  have hsublist : (start origin config).ratchet.receivers.Sublist origin.ratchet.receivers :=
    List.take_sublist _ _
  constructor
  · refine (hsublist.map _).nodup ?_
    cases origin with
    | initiator secret ours => exact List.nodup_nil
    | responder secret theirs => exact List.nodup_singleton _
  · intro chain hchain
    exact List.mem_map_of_mem (hsublist.subset hchain)
  · simp [hkeys]
  · simp [hkeys]
  · simp [hkeys]
  · simp [start]
  · simp [start]
  · simp [start]

/-- What acceptance on a chain does to the log, be the chain an old one or a new one: the chain moves
behind the message, and no other chain has its ratchet key. -/
structure Advances (log after : RatchetLog) (message : OlmMessage) (chain : ReceiverChain) : Prop
    extends log.ratchet.Moves after.ratchet message chain where
  only : ∀ other ∈ after.ratchet.receivers, other.ratchetKey.element = chain.ratchetKey.element →
    other = chain.ahead (chain.gap message + 1)
  receivers_nodup : (after.ratchet.receivers.map (·.ratchetKey.element)).Nodup
  known : message.ratchetKey.element ∈ after.chainKeys
  known_subset : log.chainKeys ⊆ after.chainKeys
  accepted_eq : after.accepted = message :: log.accepted
  keys_below : ∀ key ∈ log.ratchet.skipped.keys,
    key.ratchetKey.element = chain.ratchetKey.element → key.messageKey.index < chain.index
  accepted_below : ∀ old ∈ log.accepted,
    old.ratchetKey.element = chain.ratchetKey.element → old.index < chain.index

namespace Advances

variable {log after : RatchetLog} {message : OlmMessage} {chain : ReceiverChain}

/-- The other chains are as they were and have other ratchet keys. -/
theorem others (h : Advances log after message chain) {other : ReceiverChain}
    (hother : other ∈ after.ratchet.receivers) :
    other = chain.ahead (chain.gap message + 1) ∨
      (other ∈ log.ratchet.receivers ∧ other.ratchetKey.element ≠ chain.ratchetKey.element) := by
  by_cases hsame : other.ratchetKey.element = chain.ratchetKey.element
  · exact Or.inl (h.only other hother hsame)
  · exact (h.receivers other hother).imp id fun hold => ⟨hold, hsame⟩

/-- A place that lies below the other chains of its ratchet key, and not beyond the message if it is of
the chain of the message, lies below all chains of its ratchet key afterwards. -/
theorem below (h : Advances log after message chain) (hlast : message.index ≠ lastPlace) {element : ℕ}
    {index : UInt32} (hsame : element = chain.ratchetKey.element → index.toNat ≤ message.index.toNat)
    (hbelow : element ≠ chain.ratchetKey.element → ∀ other ∈ log.ratchet.receivers,
      other.ratchetKey.element = element → index < other.index) :
    ∀ other ∈ after.ratchet.receivers, other.ratchetKey.element = element → index < other.index := by
  intro other hother hkey
  rcases h.others hother with rfl | ⟨hold, hne⟩
  · have hle := hsame hkey.symm
    rw [UInt32.lt_iff_toNat_lt, h.behind hlast]
    omega
  · exact hbelow (hkey ▸ hne) other hold hkey

/-- What lies below the chain does not lie beyond the message. -/
theorem le_of_lt (h : Advances log after message chain) {index : UInt32} (hlt : index < chain.index) :
    index.toNat ≤ message.index.toNat := by
  have hplace := h.place_eq
  have hlt := UInt32.lt_iff_toNat_lt.mp hlt
  omega

/-- The skipped keys lie below their chains. -/
theorem keys_below_after (h : Advances log after message chain) (hinv : Inv log)
    (hlast : message.index ≠ lastPlace) {key : SkippedKey} (hkey : key ∈ after.ratchet.skipped.keys) :
    ∀ other ∈ after.ratchet.receivers, other.ratchetKey.element = key.ratchetKey.element →
      key.messageKey.index < other.index := by
  rcases h.mem_skipped hkey with hnew | hold
  · obtain ⟨helement, -, hto⟩ := h.name_passed hnew
    exact h.below hlast (fun _ => Nat.le_of_lt hto) fun hne => absurd helement hne
  · exact h.below hlast (fun hsame => h.le_of_lt (h.keys_below key hold hsame)) fun _ =>
      hinv.keys_below key hold

/-- The messages that were decrypted lie below their chains. -/
theorem accepted_below_after (h : Advances log after message chain) (hinv : Inv log)
    (hlast : message.index ≠ lastPlace) {old : OlmMessage} (hold : old ∈ after.accepted) :
    ∀ other ∈ after.ratchet.receivers, other.ratchetKey.element = old.ratchetKey.element →
      old.index < other.index := by
  rw [h.accepted_eq] at hold
  rcases List.mem_cons.mp hold with rfl | hold
  · exact h.below hlast (fun _ => Nat.le_refl _) fun hne => absurd h.key_eq.symm hne
  · exact h.below hlast (fun hsame => h.le_of_lt (h.accepted_below old hold hsame)) fun _ =>
      hinv.accepted_below old hold

/-- The messages that were decrypted have no skipped key. -/
theorem accepted_gone_after (h : Advances log after message chain) (hinv : Inv log) {old : OlmMessage}
    (hold : old ∈ after.accepted) {key : SkippedKey} (hkey : key ∈ after.ratchet.skipped.keys) :
    key.name ≠ old.name := by
  intro hname
  have helement : key.ratchetKey.element = old.ratchetKey.element := (Prod.mk.inj hname).1
  have hindex : key.messageKey.index = old.index := (Prod.mk.inj hname).2
  have hplace := h.place_eq
  rw [h.accepted_eq] at hold
  rcases List.mem_cons.mp hold with rfl | hold
  · rcases h.mem_skipped hkey with hnew | hkeep
    · have hto := (h.name_passed hnew).2.2
      rw [hindex] at hto
      omega
    · have hlt := UInt32.lt_iff_toNat_lt.mp (h.keys_below key hkeep (helement.trans h.key_eq.symm))
      rw [hindex] at hlt
      omega
  · rcases h.mem_skipped hkey with hnew | hkeep
    · obtain ⟨hsame, hfrom, -⟩ := h.name_passed hnew
      have hlt := UInt32.lt_iff_toNat_lt.mp (h.accepted_below old hold (helement.symm.trans hsame))
      rw [hindex] at hfrom
      omega
    · exact hinv.accepted_gone old hold key hkeep hname

/-- Acceptance on a chain keeps the invariant. -/
theorem inv (h : Advances log after message chain) (hinv : Inv log) (hlast : message.index ≠ lastPlace) :
    Inv after := by
  refine
    { chains_nodup := h.receivers_nodup
      chains_known := ?_
      keys_nodup := h.nodup_names hinv.keys_nodup h.keys_below
      keys_known := ?_
      keys_below := fun key hkey => h.keys_below_after hinv hlast hkey
      accepted_known := ?_
      accepted_below := fun old hold => h.accepted_below_after hinv hlast hold
      accepted_gone := fun old hold key hkey => h.accepted_gone_after hinv hold hkey }
  · intro other hother
    rcases h.others hother with rfl | ⟨hold, -⟩
    · rw [ReceiverChain.ratchetKey_ahead, h.key_eq]
      exact h.known
    · exact h.known_subset (hinv.chains_known other hold)
  · intro key hkey
    rcases h.mem_skipped hkey with hnew | hold
    · rw [(h.name_passed hnew).1, h.key_eq]
      exact h.known
    · exact h.known_subset (hinv.keys_known key hold)
  · intro old hold
    rw [h.accepted_eq] at hold
    rcases List.mem_cons.mp hold with rfl | hold
    · exact h.known
    · exact h.known_subset (hinv.accepted_known old hold)

end Advances

/-- A call on a ratchet that encrypts keeps the invariant. -/
theorem Inv.encrypt {log : RatchetLog} (h : Inv log) (plain : Bytes) (entropy : Entropy) :
    Inv (log.step (.encrypt plain entropy)) := by
  simp only [step, Ratchet.on_encryptInPlace]
  cases hencrypt : log.ratchet.encrypt plain entropy with
  | error e => exact h
  | ok result =>
    obtain ⟨message, after, left⟩ := result
    obtain ⟨hreceivers, hskipped, -⟩ := Ratchet.encrypt_frame hencrypt
    change Inv { log with ratchet := after }
    exact ⟨hreceivers ▸ h.chains_nodup, hreceivers ▸ h.chains_known, hskipped ▸ h.keys_nodup,
      hskipped ▸ h.keys_known, hreceivers ▸ hskipped ▸ h.keys_below, h.accepted_known,
      hreceivers ▸ h.accepted_below, hskipped ▸ h.accepted_gone⟩

omit [Suite] in
/-- A message that decrypts with a skipped key keeps the invariant: its name had no other key. -/
theorem Inv.skipped {log : RatchetLog} (h : Inv log) {message : OlmMessage} {key : MessageKey}
    (hkey : log.ratchet.skipped.find? message.ratchetKey message.index = some key) :
    Inv (log.afterDecrypt message
      { log.ratchet with skipped := log.ratchet.skipped.remove message.ratchetKey message.index }) := by
  have hsublist := log.ratchet.skipped.remove_sublist message.ratchetKey message.index
  have hknown : (log.afterDecrypt message
      { log.ratchet with skipped := log.ratchet.skipped.remove message.ratchetKey message.index }).chainKeys =
        log.chainKeys := by
    simp [afterDecrypt, opensChain, hkey]
  obtain ⟨entry, hentry, hname, -⟩ := SkippedKeys.mem_of_find? hkey
  have helement : entry.ratchetKey.element = message.ratchetKey.element := (Prod.mk.inj hname).1
  have hindex : entry.messageKey.index = message.index := (Prod.mk.inj hname).2
  constructor
  · exact h.chains_nodup
  · rw [hknown]
    exact h.chains_known
  · exact (hsublist.map SkippedKey.name).nodup h.keys_nodup
  · intro key hkey
    rw [hknown]
    exact h.keys_known key (hsublist.subset hkey)
  · intro key hkey
    exact h.keys_below key (hsublist.subset hkey)
  · intro old hold
    rw [hknown]
    rcases List.mem_cons.mp hold with rfl | hold
    · exact helement ▸ h.keys_known entry hentry
    · exact h.accepted_known old hold
  · intro old hold chain hchain hsame
    rcases List.mem_cons.mp hold with rfl | hold
    · exact hindex ▸ h.keys_below entry hentry chain hchain (hsame.trans helement.symm)
    · exact h.accepted_below old hold chain hchain hsame
  · intro old hold key hkey
    rcases List.mem_cons.mp hold with rfl | hold
    · exact SkippedKeys.name_ne_of_mem_remove _ _ h.keys_nodup hkey
    · exact h.accepted_gone old hold key (hsublist.subset hkey)

/-- A message on a chain that is held moves the chain behind it. -/
theorem Inv.advances_held {log : RatchetLog} (h : Inv log) {message : OlmMessage} {place : ℕ}
    {chain : ReceiverChain}
    (hchain : Ratchet.locate? message.ratchetKey log.ratchet.receivers = some (place, chain))
    (hplace : chain.index ≤ message.index) :
    Advances log (log.afterDecrypt message (log.ratchet.afterHeld place chain message)) message chain := by
  obtain ⟨hget, hbelongs⟩ := Ratchet.getElem?_of_locate? hchain
  have hkey := (chain.belongsTo_iff message.ratchetKey).mp hbelongs
  have hmem : chain ∈ log.ratchet.receivers := List.mem_of_getElem? hget
  have hknown : (log.afterDecrypt message (log.ratchet.afterHeld place chain message)).chainKeys =
      log.chainKeys := by
    simp [afterDecrypt, opensChain, hchain]
  have hnodup := Ratchet.nodup_afterHeld hchain h.chains_nodup
  refine
    { toMoves := Ratchet.moves_held hchain hplace
      only := ?_
      receivers_nodup := hnodup
      known := ?_
      known_subset := hknown ▸ List.Subset.refl _
      accepted_eq := rfl
      keys_below := fun key hold hsame => h.keys_below key hold chain hmem hsame.symm
      accepted_below := fun old hold hsame => h.accepted_below old hold chain hmem hsame.symm }
  · intro other hother hsame
    obtain ⟨hlt, -⟩ := List.getElem?_eq_some_iff.mp hget
    exact List.inj_on_of_nodup_map hnodup hother (List.mem_set hlt _) hsame
  · rw [hknown, ← hkey]
    exact h.chains_known chain hmem

/-- The first message of a ratchet key that was never seen opens a chain behind it. -/
theorem Inv.advances_opened {log : RatchetLog} (h : Inv log) {message : OlmMessage} (sender : SenderChain)
    (hkey : log.ratchet.skipped.find? message.ratchetKey message.index = none)
    (hchain : Ratchet.locate? message.ratchetKey log.ratchet.receivers = none)
    (hnew : message.ratchetKey.element ∉ log.chainKeys) :
    Advances log (log.afterDecrypt message (log.ratchet.afterOpened sender message)) message
      (log.ratchet.freshChain sender message.ratchetKey) := by
  have hother := Ratchet.locate?_eq_none_iff_element.mp hchain
  have hmoves := log.ratchet.moves_opened sender message
  have hknown : (log.afterDecrypt message (log.ratchet.afterOpened sender message)).chainKeys =
      message.ratchetKey.element :: log.chainKeys := by
    simp [afterDecrypt, opensChain, hkey, hchain]
  refine
    { toMoves := hmoves
      only := ?_
      receivers_nodup := Ratchet.nodup_afterOpened hchain h.chains_nodup sender
      known := hknown ▸ List.mem_cons_self
      known_subset := hknown ▸ List.subset_cons_self _ _
      accepted_eq := rfl
      keys_below := fun key hold hsame => absurd (hsame ▸ h.keys_known key hold) hnew
      accepted_below := fun old hold hsame => absurd (hsame ▸ h.accepted_known old hold) hnew }
  intro other hmem hsame
  rcases hmoves.receivers other hmem with hmoved | hold
  · exact hmoved
  · exact absurd hsame (hother other hold)

/-- A call keeps the invariant, if what it accepts is not at the last place and it opens no chain of
a ratchet key that had one before. -/
theorem Inv.step {log : RatchetLog} (h : Inv log) (call : RatchetCall)
    (hplaces : ∀ message ∈ (log.step call).accepted, message.index ≠ lastPlace)
    (hkeys : (log.step call).chainKeys.Nodup) : Inv (log.step call) := by
  cases call with
  | encrypt plain entropy => exact h.encrypt plain entropy
  | decrypt message =>
    rcases log.step_decrypt message with hsame | ⟨plain, after, haccepts, hstep⟩
    · rw [hsame]
      exact h
    rw [hstep] at hplaces hkeys ⊢
    have hlast : message.index ≠ lastPlace := hplaces message List.mem_cons_self
    cases haccepts with
    | skipped key hkey hplain => exact h.skipped hkey
    | held place chain hkey hchain hplace hgap hplain =>
      exact (h.advances_held hchain hplace).inv h hlast
    | opened sender hkey hchain hsender hgap hplain =>
      have hnew : message.ratchetKey.element ∉ log.chainKeys := by
        simp only [afterDecrypt, opensChain, hkey, hchain, Option.isNone_none, Bool.and_self, if_true]
          at hkeys
        exact (List.nodup_cons.mp hkeys).1
      exact (h.advances_opened sender hkey hchain hnew).inv h hlast

/-- Any calls keep the invariant, under the conditions of the step. -/
theorem Inv.run {log : RatchetLog} (h : Inv log) (calls : List RatchetCall)
    (hplaces : ∀ message ∈ (log.run calls).accepted, message.index ≠ lastPlace)
    (hkeys : (log.run calls).chainKeys.Nodup) : Inv (log.run calls) := by
  induction calls using List.reverseRecOn with
  | nil => exact h
  | append_singleton calls call ih =>
    rw [run_append_singleton] at hplaces hkeys ⊢
    obtain ⟨haccepted, hchains⟩ := (log.run calls).suffix_step call
    have hbefore : Inv (log.run calls) :=
      ih (fun message hold => hplaces message (haccepted.subset hold)) (hchains.sublist.nodup hkeys)
    exact hbefore.step call hplaces hkeys

/-- A message of the name of one that was decrypted is refused while the chain is there. -/
theorem Inv.refuses {log : RatchetLog} (h : Inv log) {message again : OlmMessage}
    (hmem : message ∈ log.accepted) (hname : again.name = message.name)
    (hchain : ∃ chain ∈ log.ratchet.receivers, chain.belongsTo message.ratchetKey = true) :
    log.ratchet.decrypt again = .error (.replayOrUnknownMessage again.index) := by
  have helement : again.ratchetKey.element = message.ratchetKey.element := (Prod.mk.inj hname).1
  have hindex : again.index = message.index := (Prod.mk.inj hname).2
  have hgone : log.ratchet.skipped.find? again.ratchetKey again.index = none := by
    rw [SkippedKeys.find?_eq_none_iff]
    intro key hkey heq
    exact h.accepted_gone message hmem key hkey (heq.trans hname)
  obtain ⟨held, hheld, hbelongs⟩ := hchain
  cases hlocate : Ratchet.locate? again.ratchetKey log.ratchet.receivers with
  | none =>
    have hother := Ratchet.locate?_eq_none_iff_element.mp hlocate held hheld
    exact absurd (((held.belongsTo_iff _).mp hbelongs).trans helement.symm) hother
  | some found =>
    obtain ⟨place, chain⟩ := found
    obtain ⟨hget, hfound⟩ := Ratchet.getElem?_of_locate? hlocate
    have hbehind : again.index < chain.index := by
      rw [hindex]
      exact h.accepted_below message hmem chain (List.mem_of_getElem? hget)
        (((chain.belongsTo_iff _).mp hfound).trans helement)
    simp only [Ratchet.decrypt, hgone, hlocate, Ratchet.decryptKnown, hbehind, if_true]
    rfl

end RatchetLog

/-- After any calls on a ratchet, no name is that of two skipped keys, the skipped keys of a chain
that is there lie below it, and a message of the name of one that was decrypted is refused and
changes nothing as long as its chain is there. No chain may get to its last place, and no ratchet key
of a chain that was given up may come back as a new one. -/
theorem accepted_at_most_once (origin : Origin) (config : RatchetConfig) (calls : List RatchetCall)
    (hplaces : ∀ message ∈ ((RatchetLog.start origin config).run calls).accepted,
      message.index ≠ lastPlace)
    (hkeys : ((RatchetLog.start origin config).run calls).chainKeys.Nodup) :
    let log := (RatchetLog.start origin config).run calls
    (log.ratchet.skipped.keys.map SkippedKey.name).Nodup ∧
      (∀ key ∈ log.ratchet.skipped.keys, ∀ chain ∈ log.ratchet.receivers,
        chain.belongsTo key.ratchetKey = true → key.messageKey.index < chain.index) ∧
      ∀ message ∈ log.accepted, ∀ again : OlmMessage, again.name = message.name →
        (∃ chain ∈ log.ratchet.receivers, chain.belongsTo message.ratchetKey = true) →
        (Ratchet.decryptInPlace again).on log.ratchet =
          (.error (.replayOrUnknownMessage again.index), log.ratchet) := by
  intro log
  have hinv : RatchetLog.Inv log := (RatchetLog.inv_start origin config).run calls hplaces hkeys
  refine ⟨hinv.keys_nodup, ?_, ?_⟩
  · intro key hkey chain hchain hbelongs
    exact hinv.keys_below key hkey chain hchain ((chain.belongsTo_iff _).mp hbelongs)
  · intro message hmem again hname hchain
    rw [Ratchet.on_decryptInPlace, hinv.refuses hmem hname hchain]
    rfl

end RoomCrypt.Olm

namespace RoomCrypt.Olm

open scoped Suite.Evaluation

/-- The message at a place of the first chain of a small session. -/
def earlyMessage (place : ℕ) : OlmMessage :=
  ((RootKey.ofSharedSecret [7]).2.ahead place).messageKey.encrypt ⟨.ofNatLE 32 5⟩ [1, 2, 3]

/-- The side that receives: a jump over two places, one of the messages in between, an answer. -/
def jumpedLog : RatchetLog :=
  (RatchetLog.start (.responder [7] ⟨.ofNatLE 32 5⟩) {}).run
    [.decrypt (earlyMessage 2), .decrypt (earlyMessage 0), .encrypt [4] default]

/-- After a jump, both the message that jumped and the one that came late are refused. -/
theorem accepted_at_most_once_jumped :
    (∀ message ∈ jumpedLog.accepted, message.index ≠ lastPlace) ∧ jumpedLog.chainKeys.Nodup ∧
      jumpedLog.accepted = [earlyMessage 0, earlyMessage 2] ∧
      (jumpedLog.ratchet.skipped.keys.map SkippedKey.name).Nodup ∧
      ∀ place ∈ [0, 2], (Ratchet.decryptInPlace (earlyMessage place)).on jumpedLog.ratchet =
        (.error (.replayOrUnknownMessage (earlyMessage place).index), jumpedLog.ratchet) := by
  have hplaces : ∀ message ∈ jumpedLog.accepted, message.index ≠ lastPlace := by decide +kernel
  have hkeys : jumpedLog.chainKeys.Nodup := by decide +kernel
  have haccepted : jumpedLog.accepted = [earlyMessage 0, earlyMessage 2] := by decide +kernel
  have hchain (place : ℕ) :
      ∃ chain ∈ jumpedLog.ratchet.receivers, chain.belongsTo (earlyMessage place).ratchetKey = true := by
    change ∃ chain ∈ jumpedLog.ratchet.receivers, chain.belongsTo ⟨.ofNatLE 32 5⟩ = true
    decide +kernel
  obtain ⟨hnames, -, hrefused⟩ := accepted_at_most_once (.responder [7] ⟨.ofNatLE 32 5⟩) {}
    [.decrypt (earlyMessage 2), .decrypt (earlyMessage 0), .encrypt [4] default] hplaces hkeys
  refine ⟨hplaces, hkeys, haccepted, hnames, fun place hplace => ?_⟩
  refine hrefused (earlyMessage place) ?_ _ rfl (hchain place)
  change earlyMessage place ∈ jumpedLog.accepted
  rw [haccepted]
  simp only [List.mem_cons, List.not_mem_nil, or_false] at hplace
  rcases hplace with rfl | rfl
  · exact List.mem_cons_self
  · exact List.mem_cons_of_mem _ List.mem_cons_self

end RoomCrypt.Olm
