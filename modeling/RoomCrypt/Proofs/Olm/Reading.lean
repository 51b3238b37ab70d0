import RoomCrypt.Proofs.Olm.Inbox
import RoomCrypt.Proofs.Olm.InStep

/-!
# A side reads

A side that is in step reads a message of the other side with the key that it was made with, and is in
step afterwards. It accepts each such message that it has not read yet and for which nothing was lost.
-/

namespace RoomCrypt.Olm

variable [Suite]

variable {secret : Bytes} {config : RatchetConfig} {pairs known past : List RatchetKeyPair} {side : Side}
  {party : Party} {pair : RatchetKeyPair} {message : OlmMessage} {chain : ReceiverChain}

/-- Reading with a skipped key keeps a side in step. -/
theorem Synced.skipped (h : Synced secret config pairs side party known) :
    Synced secret config pairs side (party.afterReading { party.ratchet with
      skipped := party.ratchet.skipped.remove message.ratchetKey message.index } message) known := by
  have hsublist := party.ratchet.skipped.remove_sublist message.ratchetKey message.index
  refine
    { known_pairs := h.known_pairs
      root := h.root
      turn := ?_
      chains := h.chains
      covered := fun pair past hepoch =>
        (h.covered pair past hepoch).imp id (List.mem_append_right _)
      keys := fun key hmem => h.keys key (hsublist.subset hmem)
      config_eq := h.config_eq
      capacity_eq := h.capacity_eq }
  cases h.turn with
  | theirs pair past chain howner hsender hpair hchain => exact .theirs pair past chain howner hsender hpair hchain
  | ours pair past howner hsender hreceiver => exact .ours pair past howner hsender hreceiver

/-- The skipped keys stay on their epochs when a chain of an epoch moves. -/
theorem Ratchet.Moves.keys {ratchet after : Ratchet} (h : ratchet.Moves after message chain)
    (hepoch : IsEpoch side pairs pair past) (hstands : chain.StandsOn secret pair past)
    (hold : ∀ key ∈ ratchet.skipped.keys, ∃ pair past,
      IsEpoch side pairs pair past ∧ key.StandsOn secret pair past) :
    ∀ key ∈ after.skipped.keys, ∃ pair past,
      IsEpoch side pairs pair past ∧ key.StandsOn secret pair past := by
  intro key hkey
  have hplace := h.place_eq
  have hsize := message.index.toNat_lt_size
  rcases h.mem_skipped hkey with hnew | hkey
  · exact ⟨pair, past, hepoch, hstands.passed (by omega) hnew⟩
  · exact hold key hkey

/-- The chains stay on their epochs when a chain of an epoch moves. -/
theorem Ratchet.Moves.chains {ratchet after : Ratchet} (h : ratchet.Moves after message chain)
    (hlast : message.index ≠ lastPlace)
    (hepoch : IsEpoch side pairs pair past) (hstands : chain.StandsOn secret pair past)
    (hold : ∀ chain ∈ ratchet.receivers, ∃ pair past,
      IsEpoch side pairs pair past ∧ chain.StandsOn secret pair past) :
    ∀ chain ∈ after.receivers, ∃ pair past,
      IsEpoch side pairs pair past ∧ chain.StandsOn secret pair past := by
  intro other hother
  have hplace := h.place_eq
  have hsize := toNat_lt_of_ne_lastPlace hlast
  rcases h.receivers other hother with rfl | hother
  · exact ⟨pair, past, hepoch, hstands.ahead _ (by omega)⟩
  · exact hold other hother

/-- Reading on a chain that is held keeps a side in step. -/
theorem Synced.held (h : Synced secret config pairs side party known)
    (hnodup : (pairs.map (·.publicKey.element)).Nodup) (hepoch : IsEpoch side.other pairs pair past)
    (hmade : message.ratchetKey = pair.publicKey) (hlast : message.index ≠ lastPlace) {place : ℕ}
    (hkey : party.ratchet.skipped.find? message.ratchetKey message.index = none)
    (hchain : Ratchet.locate? message.ratchetKey party.ratchet.receivers = some (place, chain))
    (hplace : chain.index ≤ message.index) :
    Synced secret config pairs side
      (party.afterReading (party.ratchet.afterHeld place chain message) message) known := by
  obtain ⟨hget, hbelongs⟩ := Ratchet.getElem?_of_locate? hchain
  have hmoves := Party.moves_held h.capacity hkey hchain hplace
  obtain ⟨hknown, hstands⟩ := h.standsOn hnodup hepoch (List.mem_of_getElem? hget)
    (hmade ▸ (chain.belongsTo_iff _).mp hbelongs)
  have hkeys : (party.ratchet.afterHeld place chain message).receivers.map (·.ratchetKey) =
      party.ratchet.receivers.map (·.ratchetKey) := ReceiverChain.map_ratchetKey_set id hget _
  refine
    { known_pairs := h.known_pairs
      root := h.root
      turn := ?_
      chains := hmoves.chains hlast hknown hstands h.chains
      covered := ?_
      keys := hmoves.keys hknown hstands h.keys
      config_eq := h.config_eq
      capacity_eq := h.capacity_eq }
  · cases h.turn with
    | theirs pair past chain howner hsender hpair hchain =>
      exact .theirs pair past chain howner hsender hpair hchain
    | ours pair past howner hsender hreceiver => exact .ours pair past howner hsender (hkeys ▸ hreceiver)
  · intro pair past hepoch
    change _ ∈ (party.ratchet.afterHeld place chain message).receivers.map _ ∨ _
    rw [hkeys]
    exact (h.covered pair past hepoch).imp id (List.mem_append_right _)

/-- A new chain comes first, and the chains beyond the bound are given up. -/
theorem Ratchet.ratchetKeys_afterOpened (ratchet : Ratchet) (sender : SenderChain) (message : OlmMessage) :
    (ratchet.afterOpened sender message).receivers.map (·.ratchetKey) =
      (message.ratchetKey :: ratchet.receivers.map (·.ratchetKey)).take ratchet.config.maxReceiverChains := by
  unfold afterOpened
  simp only [List.map_take, List.map_cons, ReceiverChain.ratchetKey_ahead]
  rfl

/-- The chain of a ratchet key is there after a new one was opened, or was given up. -/
theorem Ratchet.mem_afterOpened_or_surplus {ratchet : Ratchet} {sender : SenderChain}
    (hkey : ratchet.skipped.find? message.ratchetKey message.index = none)
    (hchain : Ratchet.locate? message.ratchetKey ratchet.receivers = none)
    (hsender : ratchet.sender = some sender) {ratchetKey : Curve25519Key}
    (hmem : ratchetKey ∈ message.ratchetKey :: ratchet.receivers.map (·.ratchetKey)) :
    ratchetKey ∈ (ratchet.afterOpened sender message).receivers.map (·.ratchetKey) ∨
      ratchetKey.element ∈ (ratchet.surplusChains message).map (·.ratchetKey.element) := by
  have hsurplus : (ratchet.surplusChains message).map (·.ratchetKey.element) =
      ((message.ratchetKey :: ratchet.receivers.map (·.ratchetKey)).drop
        ratchet.config.maxReceiverChains).map Curve25519Key.element := by
    rw [(surplus_opened hkey hchain hsender).1]
    simp only [List.map_drop, List.map_cons, List.map_map]
    rfl
  rw [← List.take_append_drop ratchet.config.maxReceiverChains (_ :: _), List.mem_append] at hmem
  rw [ratchetKeys_afterOpened, hsurplus]
  exact hmem.imp id List.mem_map_of_mem

/-- Reading on a new chain brings a side up to the latest pair. -/
theorem Synced.opened (h : Synced secret config pairs side party known) (hconfig : 1 ≤ config.maxReceiverChains)
    (hpairs : pairs = pair :: known) (howner : owner pairs = side.other)
    (hmade : message.ratchetKey = pair.publicKey) (hlast : message.index ≠ lastPlace) {sender : SenderChain}
    (hkey : party.ratchet.skipped.find? message.ratchetKey message.index = none)
    (hchain : Ratchet.locate? message.ratchetKey party.ratchet.receivers = none)
    (hsender : party.ratchet.sender = some sender)
    (hstep : party.ratchet.rootKey.step sender.keyPair message.ratchetKey = epoch secret pairs) :
    Synced secret config pairs side
      (party.afterReading (party.ratchet.afterOpened sender message) message) pairs := by
  have hmoves := party.ratchet.moves_opened sender message
  have hnew : IsEpoch side.other pairs pair known := ⟨hpairs ▸ List.suffix_rfl, hpairs ▸ howner⟩
  have hmono {pair : RatchetKeyPair} {past : List RatchetKeyPair} (hepoch : IsEpoch side.other known pair past) :
      IsEpoch side.other pairs pair past := hepoch.mono (hpairs ▸ List.suffix_cons _ _)
  have hstands : (party.ratchet.freshChain sender message.ratchetKey).StandsOn secret pair known :=
    hmade ▸ party.ratchet.freshChain_standsOn sender (hmade ▸ hpairs ▸ hstep)
  refine
    { known_pairs := Or.inl rfl
      root := congrArg Prod.fst hstep
      turn := ?_
      chains := hmoves.chains hlast hnew hstands ?_
      covered := ?_
      keys := hmoves.keys hnew hstands ?_
      config_eq := h.config_eq
      capacity_eq := h.capacity_eq }
  · -- The new chain is kept, whatever the bound, since it comes first.
    have hhead : ((party.ratchet.afterOpened sender message).receivers.map (·.ratchetKey)).head? =
        some pair.publicKey := by
      obtain ⟨max, hmax⟩ := Nat.exists_eq_add_of_le' hconfig
      rw [Ratchet.ratchetKeys_afterOpened, h.config_eq, hmax, hmade]
      rfl
    rw [hpairs] at howner ⊢
    exact .ours pair known howner rfl hhead
  · intro chain hold
    obtain ⟨pair, past, hepoch, hstands⟩ := h.chains chain hold
    exact ⟨pair, past, hmono hepoch, hstands⟩
  · intro other past hepoch
    have hbefore : other.publicKey ∈ message.ratchetKey :: party.ratchet.receivers.map (·.ratchetKey) ∨
        other.publicKey.element ∈ party.lostChains := by
      rw [hpairs] at hepoch
      rcases IsEpoch.cons_iff.mp hepoch with ⟨⟨rfl, -⟩, -⟩ | hold
      · exact Or.inl (hmade ▸ List.mem_cons_self)
      · exact (h.covered other past hold).imp (List.mem_cons_of_mem _) id
    rcases hbefore with hmem | hlost
    · exact (Ratchet.mem_afterOpened_or_surplus hkey hchain hsender hmem).imp id (List.mem_append_left _)
    · exact Or.inr (List.mem_append_right _ hlost)
  · intro key hold
    obtain ⟨pair, past, hepoch, hstands⟩ := h.keys key hold
    exact ⟨pair, past, hmono hepoch, hstands⟩

/-- A side reads a message of the other side with the key that it was made with, and is in step
afterwards. -/
theorem Synced.reads (h : Synced secret config pairs side party known) (hagree : Suite.Agrees)
    (hconfig : 1 ≤ config.maxReceiverChains) (hsecrets : ∀ pair ∈ pairs, pair = .ofSecret pair.secret)
    (hnodup : (pairs.map (·.publicKey.element)).Nodup) {sent : List Sent} (hinbox : Inbox party sent)
    (hnames : ∀ a ∈ sent, ∀ b ∈ sent, a.message.name = b.message.name → a = b)
    {this : Sent} (hthis : this ∈ sent) (hepoch : IsEpoch side.other pairs pair past)
    (hmade : this.message.ratchetKey = pair.publicKey) (hlast : this.message.index ≠ lastPlace)
    (hstray : this.message.ratchetKey.element ∈ party.lostChains →
      party.ratchet.skipped.find? this.message.ratchetKey this.message.index = none →
        ∀ sender ∈ party.ratchet.sender, ((party.ratchet.freshChain sender this.message.ratchetKey).ahead
          this.message.index.toNat).messageKey.cipher.mac this.message.body ≠ this.message.mac)
    {plain : Bytes} {ratchet : Ratchet} (haccepts : party.ratchet.Accepts this.message plain ratchet) :
    (∃ known, Synced secret config pairs side (party.afterReading ratchet this.message) known) ∧
      Inbox (party.afterReading ratchet this.message) sent := by
  cases haccepts with
  | skipped key hkey hplain => exact ⟨⟨known, h.skipped⟩, hinbox.skipped hnames hthis⟩
  | held place chain hkey hchain hplace hgap hplain =>
    exact ⟨⟨known, h.held hnodup hepoch hmade hlast hkey hchain hplace⟩,
      hinbox.moves (Party.moves_held h.capacity hkey hchain hplace) hnames hthis rfl hlast⟩
  | opened sender hkey hchain hsender hgap hplain =>
    have hnone := Ratchet.locate?_eq_none_iff_element.mp hchain
    have hlost : this.message.ratchetKey.element ∉ party.lostChains := by
      intro hlost
      refine hstray hlost hkey sender hsender ?_
      have hmac := ((MessageKey.decrypt_eq_ok_iff _ _ _).mp hplain).1
      exact Octets.ext hmac.symm
    rw [hmade] at hnone hlost
    obtain ⟨hpairs, hpast, sender', hsender', hstep⟩ := h.latest hagree hsecrets hepoch hnone hlost
    obtain rfl : sender = sender' := Option.some.inj (hsender.symm.trans hsender')
    have howner : owner pairs = side.other := by
      rw [hpairs, ← hpast]
      exact hepoch.2
    refine ⟨⟨pairs, ?_⟩, hinbox.moves (Party.moves_opened h.capacity hkey hchain hsender) hnames hthis rfl hlast⟩
    exact h.opened hconfig hpairs howner hmade hlast hkey hchain hsender (hmade ▸ hstep)

/-- Reading leaves what a side has sent as it is: at most the chain for sending ends. -/
theorem Outbox.reads {sent : OlmMessage} (h : Outbox secret pairs side party) {plain : Bytes}
    {ratchet : Ratchet} (haccepts : party.ratchet.Accepts sent plain ratchet) :
    Outbox secret pairs side (party.afterReading ratchet sent) := by
  refine ⟨h.made, h.names, ?_⟩
  cases haccepts with
  | skipped key hkey hplain => exact h.below
  | held place chain hkey hchain hplace hgap hplain => exact h.below
  | opened sender hkey hchain hsender hgap hplain => nofun

/-- The skipped key that is found for a message is the one of its epoch. -/
theorem Synced.skipped_key (h : Synced secret config pairs side party known)
    (hnodup : (pairs.map (·.publicKey.element)).Nodup) (hepoch : IsEpoch side.other pairs pair past)
    (hmade : message.ratchetKey = pair.publicKey) {key : MessageKey}
    (hfind : party.ratchet.skipped.find? message.ratchetKey message.index = some key) :
    key = epochKey secret (pair :: past) message.index := by
  obtain ⟨entry, hentry, hname, rfl⟩ := SkippedKeys.mem_of_find? hfind
  obtain ⟨pair', past', hepoch', hstands⟩ := h.keys entry hentry
  have hindex : entry.messageKey.index = message.index := (Prod.mk.inj hname).2
  have helement : pair'.publicKey.element = pair.publicKey.element := by
    rw [← hmade, ← (Prod.mk.inj hname).1, hstands]
  obtain ⟨rfl, rfl⟩ := (hepoch'.mono h.known_suffix).unique hnodup hepoch helement
  rw [← hindex]
  exact congrArg SkippedKey.messageKey hstands

/-- So is the key on the chain that is held. -/
theorem Synced.held_key (h : Synced secret config pairs side party known)
    (hnodup : (pairs.map (·.publicKey.element)).Nodup) (hepoch : IsEpoch side.other pairs pair past)
    (hmade : message.ratchetKey = pair.publicKey) {place : ℕ}
    (hchain : Ratchet.locate? message.ratchetKey party.ratchet.receivers = some (place, chain))
    (hplace : chain.index ≤ message.index) :
    (chain.ahead (chain.gap message)).messageKey = epochKey secret (pair :: past) message.index := by
  obtain ⟨hget, hbelongs⟩ := Ratchet.getElem?_of_locate? hchain
  have helement := (chain.belongsTo_iff _).mp hbelongs
  obtain ⟨-, hstands⟩ := h.standsOn hnodup hepoch (List.mem_of_getElem? hget) (hmade ▸ helement)
  exact hstands.messageKey_ahead hplace

/-- And so is the key on a new chain, if no chain of the epoch was given up. -/
theorem Synced.opened_key (h : Synced secret config pairs side party known) (hagree : Suite.Agrees)
    (hsecrets : ∀ pair ∈ pairs, pair = .ofSecret pair.secret) (hepoch : IsEpoch side.other pairs pair past)
    (hmade : message.ratchetKey = pair.publicKey)
    (hchain : Ratchet.locate? message.ratchetKey party.ratchet.receivers = none)
    (hlost : message.ratchetKey.element ∉ party.lostChains) :
    ∃ sender, party.ratchet.sender = some sender ∧
      ((party.ratchet.freshChain sender message.ratchetKey).ahead message.index.toNat).messageKey =
        epochKey secret (pair :: past) message.index := by
  have hnone := Ratchet.locate?_eq_none_iff_element.mp hchain
  rw [hmade] at hnone hlost
  obtain ⟨hpairs, rfl, sender, hsender, hstep⟩ := h.latest hagree hsecrets hepoch hnone hlost
  have hstands : (party.ratchet.freshChain sender message.ratchetKey).StandsOn secret pair past := by
    rw [hmade]
    exact party.ratchet.freshChain_standsOn sender (hstep.trans (congrArg _ hpairs))
  have hzero : (party.ratchet.freshChain sender message.ratchetKey).index ≤ message.index := UInt32.zero_le
  have hkey := hstands.messageKey_ahead hzero
  rw [party.ratchet.gap_freshChain] at hkey
  exact ⟨sender, hsender, hkey⟩

/-- A message of the other side that was not read yet is accepted with the text that it was made from,
unless it is too far ahead or its chain or its skipped key exceeded a bound. -/
theorem Synced.accepts (h : Synced secret config pairs side party known) (hagree : Suite.Agrees)
    (hinverts : Suite.Inverts) (hsecrets : ∀ pair ∈ pairs, pair = .ofSecret pair.secret)
    (hnodup : (pairs.map (·.publicKey.element)).Nodup) {sent : List Sent} (hinbox : Inbox party sent)
    {this : Sent} (hthis : this ∈ sent) (hepoch : IsEpoch side.other pairs pair past)
    (hmade : this.message =
      (epochKey secret (pair :: past) this.message.index).encrypt pair.publicKey this.plain)
    (hunread : this.message ∉ party.read)
    (hgap : this.message.index.toNat - party.ratchet.standing this.message.ratchetKey ≤
      config.maxGap.toNat)
    (hchain : this.message.ratchetKey.element ∉ party.lostChains)
    (hkey : this.message.name ∉ party.lostKeys) :
    ∃ after, party.ratchet.Accepts this.message this.plain after := by
  have hratchetKey : this.message.ratchetKey = pair.publicKey := congrArg OlmMessage.ratchetKey hmade
  have hplain : (epochKey secret (pair :: past) this.message.index).decrypt this.message =
      .ok this.plain := by
    have hdecrypt := decrypt_encrypt hinverts (epochKey secret (pair :: past) this.message.index)
      pair.publicKey this.plain
    rwa [← hmade] at hdecrypt
  cases hfind : party.ratchet.skipped.find? this.message.ratchetKey this.message.index with
  | some key =>
    rw [← h.skipped_key hnodup hepoch hratchetKey hfind] at hplain
    exact ⟨_, .skipped key hfind hplain⟩
  | none =>
    cases hlocate : Ratchet.locate? this.message.ratchetKey party.ratchet.receivers with
    | some found =>
      obtain ⟨place, chain⟩ := found
      obtain ⟨hget, hbelongs⟩ := Ratchet.getElem?_of_locate? hlocate
      have hplace : chain.index ≤ this.message.index :=
        hinbox.place_le hthis hunread hkey hfind (List.mem_of_getElem? hget)
          ((chain.belongsTo_iff _).mp hbelongs)
      have hgap' : this.message.index - chain.index ≤ party.ratchet.config.maxGap := by
        simp only [Ratchet.standing, hlocate] at hgap
        rw [UInt32.le_iff_toNat_le, UInt32.toNat_sub_of_le _ _ hplace, h.config_eq]
        exact hgap
      rw [← h.held_key hnodup hepoch hratchetKey hlocate hplace] at hplain
      exact ⟨_, .held place chain hfind hlocate hplace hgap' hplain⟩
    | none =>
      have hgap' : this.message.index ≤ party.ratchet.config.maxGap := by
        simp only [Ratchet.standing, hlocate, Nat.sub_zero] at hgap
        rwa [UInt32.le_iff_toNat_le, h.config_eq]
      obtain ⟨sender, hsender, hmessageKey⟩ :=
        h.opened_key hagree hsecrets hepoch hratchetKey hlocate hchain
      rw [← hmessageKey] at hplain
      exact ⟨_, .opened sender hfind hlocate hsender hgap' hplain⟩

end RoomCrypt.Olm
