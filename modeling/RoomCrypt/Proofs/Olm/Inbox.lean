import RoomCrypt.Proofs.Olm.Conversation
import RoomCrypt.Proofs.Olm.Movement

/-!
# What is still to be read

A message of the other side that was not read yet lies ahead of its chain, or has a skipped key, or its
key exceeded a bound: no key is forgotten without a trace, whatever is read.
-/

namespace RoomCrypt.Olm

variable [Suite]

/-- A party has the key of a name, or remembers that it has lost it. -/
def Party.Traces (party : Party) (name : ℕ × UInt32) : Prop :=
  (∃ key ∈ party.ratchet.skipped.keys, key.name = name) ∨ name ∈ party.lostKeys

/-- How far a side has come with what the other side has sent. -/
structure Inbox (party : Party) (sent : List Sent) : Prop where
  reached : ∀ chain ∈ party.ratchet.receivers, chain.index = 0 ∨ ∃ last ∈ sent,
    last.message.ratchetKey.element = chain.ratchetKey.element ∧
      last.message.index.toNat + 1 = chain.index.toNat
  unread : ∀ one ∈ sent, one.message ∉ party.read → ∀ chain ∈ party.ratchet.receivers,
    chain.ratchetKey.element = one.message.ratchetKey.element → one.message.index < chain.index →
      party.Traces one.message.name

variable {party after : Party} {message : OlmMessage} {chain : ReceiverChain} {sent : List Sent}

/-- A party reads a message without a skipped key: a chain moves, and what exceeds the bound on skipped
keys is remembered as lost. -/
structure Party.Moves (party after : Party) (message : OlmMessage) (chain : ReceiverChain) : Prop
    extends party.ratchet.Moves after.ratchet message chain where
  lostKeys_eq : after.lostKeys = (((chain.passed (chain.gap message)).reverse ++
    party.ratchet.skipped.keys).drop party.ratchet.skipped.capacity).map SkippedKey.name ++ party.lostKeys
  read_eq : after.read = message :: party.read

/-- No key is forgotten without a trace. -/
theorem Party.Moves.traces_key (h : party.Moves after message chain) {key : SkippedKey}
    (hkey : key ∈ chain.passed (chain.gap message) ∨ key ∈ party.ratchet.skipped.keys) :
    after.Traces key.name := by
  have hmem : key ∈ (chain.passed (chain.gap message)).reverse ++ party.ratchet.skipped.keys := by
    rwa [List.mem_append, List.mem_reverse]
  rw [← List.take_append_drop party.ratchet.skipped.capacity (_ ++ _), List.mem_append] at hmem
  unfold Party.Traces
  rw [h.skipped_eq, h.lostKeys_eq]
  exact hmem.imp (fun hkeep => ⟨key, hkeep, rfl⟩) fun hdrop =>
    List.mem_append_left _ (List.mem_map_of_mem hdrop)

/-- A trace is never lost. -/
theorem Party.Moves.traces (h : party.Moves after message chain) {name : ℕ × UInt32}
    (htrace : party.Traces name) : after.Traces name := by
  rcases htrace with ⟨key, hmem, rfl⟩ | hlost
  · exact h.traces_key (Or.inr hmem)
  · right
    rw [h.lostKeys_eq]
    exact List.mem_append_right _ hlost

/-- The chain leaves a trace of each other message that comes to lie behind it. -/
theorem Inbox.traces_behind (h : Inbox party sent) (hmoves : party.Moves after message chain)
    (hlast : message.index ≠ lastPlace) {one : Sent} (hone : one ∈ sent)
    (hunread : one.message ∉ party.read) (hname : one.message.name ≠ message.name)
    (hkey : chain.ratchetKey.element = one.message.ratchetKey.element)
    (hplace : one.message.index < (chain.ahead (chain.gap message + 1)).index) :
    after.Traces one.message.name := by
  have hsum := hmoves.place_eq
  rw [UInt32.lt_iff_toNat_lt, hmoves.behind hlast] at hplace
  have hne : one.message.index.toNat ≠ message.index.toNat := by
    intro hindex
    exact hname (Prod.ext (hkey.symm.trans hmoves.key_eq) (UInt32.toNat_inj.mp hindex))
  rcases Nat.lt_or_ge one.message.index.toNat chain.index.toNat with hlt | hge
  · rcases hmoves.source with hold | hzero
    · exact hmoves.traces (h.unread one hone hunread chain hold hkey (UInt32.lt_iff_toNat_lt.mpr hlt))
    · rw [hzero] at hlt
      exact absurd hlt (Nat.not_lt_zero _)
  · have hto : one.message.index.toNat < chain.index.toNat + chain.gap message := by omega
    obtain ⟨key, hmem, hpassed⟩ := chain.exists_mem_passed one.message.index hge hto
    have htrace := hmoves.traces_key (Or.inl hmem)
    rwa [hpassed, hkey] at htrace

/-- Reading on a chain keeps track of what the other side has sent. -/
theorem Inbox.moves (h : Inbox party sent) (hmoves : party.Moves after message chain)
    (hnames : ∀ a ∈ sent, ∀ b ∈ sent, a.message.name = b.message.name → a = b)
    {this : Sent} (hthis : this ∈ sent) (hmessage : this.message = message)
    (hlast : message.index ≠ lastPlace) : Inbox after sent := by
  constructor
  · intro other hother
    rcases hmoves.receivers other hother with rfl | hold
    · right
      refine ⟨this, hthis, ?_, ?_⟩
      · rw [hmessage, ReceiverChain.ratchetKey_ahead, hmoves.key_eq]
      · rw [hmessage, hmoves.behind hlast]
    · exact h.reached other hold
  · intro one hone hunread other hother hkey hplace
    rw [hmoves.read_eq, List.mem_cons, not_or] at hunread
    rcases hmoves.receivers other hother with rfl | hold
    · have hname : one.message.name ≠ message.name := by
        intro hsame
        rw [← hmessage] at hsame
        exact hunread.1 ((congrArg Sent.message (hnames one hone this hthis hsame)).trans hmessage)
      exact h.traces_behind hmoves hlast hone hunread.2 hname hkey hplace
    · exact hmoves.traces (h.unread one hone hunread.2 other hold hkey hplace)

/-- Reading on a chain that is held gives up no chain. -/
theorem surplus_held {ratchet : Ratchet} {place : ℕ}
    (hkey : ratchet.skipped.find? message.ratchetKey message.index = none)
    (hchain : Ratchet.locate? message.ratchetKey ratchet.receivers = some (place, chain)) :
    ratchet.surplusChains message = [] ∧
      ratchet.surplusKeys message = ((chain.passed (chain.gap message)).reverse ++
        ratchet.skipped.keys).drop ratchet.config.maxSkippedKeys := by
  simp [Ratchet.surplusChains, Ratchet.surplusKeys, Ratchet.chainFor?, hkey, hchain]

/-- Reading on a new chain gives up the chains beyond the bound. -/
theorem surplus_opened {ratchet : Ratchet} {sender : SenderChain}
    (hkey : ratchet.skipped.find? message.ratchetKey message.index = none)
    (hchain : Ratchet.locate? message.ratchetKey ratchet.receivers = none)
    (hsender : ratchet.sender = some sender) :
    let chain := ratchet.freshChain sender message.ratchetKey
    ratchet.surplusChains message = (chain :: ratchet.receivers).drop ratchet.config.maxReceiverChains ∧
      ratchet.surplusKeys message = ((chain.passed (chain.gap message)).reverse ++
        ratchet.skipped.keys).drop ratchet.config.maxSkippedKeys := by
  simp [Ratchet.surplusChains, Ratchet.surplusKeys, Ratchet.chainFor?, hkey, hchain, hsender]

/-- A party whose store of skipped keys has its bound reads on a chain that it holds. -/
theorem Party.moves_held {place : ℕ}
    (hcapacity : party.ratchet.skipped.capacity = party.ratchet.config.maxSkippedKeys)
    (hkey : party.ratchet.skipped.find? message.ratchetKey message.index = none)
    (hchain : Ratchet.locate? message.ratchetKey party.ratchet.receivers = some (place, chain))
    (hplace : chain.index ≤ message.index) :
    party.Moves (party.afterReading (party.ratchet.afterHeld place chain message) message) message chain where
  toMoves := Ratchet.moves_held hchain hplace
  lostKeys_eq := by
    rw [hcapacity, ← (surplus_held hkey hchain).2]
    rfl
  read_eq := rfl

/-- And so it does on a new chain. -/
theorem Party.moves_opened {sender : SenderChain}
    (hcapacity : party.ratchet.skipped.capacity = party.ratchet.config.maxSkippedKeys)
    (hkey : party.ratchet.skipped.find? message.ratchetKey message.index = none)
    (hchain : Ratchet.locate? message.ratchetKey party.ratchet.receivers = none)
    (hsender : party.ratchet.sender = some sender) :
    party.Moves (party.afterReading (party.ratchet.afterOpened sender message) message) message
      (party.ratchet.freshChain sender message.ratchetKey) where
  toMoves := party.ratchet.moves_opened sender message
  lostKeys_eq := by
    rw [hcapacity, ← (surplus_opened hkey hchain hsender).2]
    rfl
  read_eq := rfl

/-- A message that is read with a skipped key leaves the keys of the other messages. -/
theorem Inbox.skipped (h : Inbox party sent)
    (hnames : ∀ a ∈ sent, ∀ b ∈ sent, a.message.name = b.message.name → a = b)
    {this : Sent} (hthis : this ∈ sent) :
    Inbox (party.afterReading { party.ratchet with
      skipped := party.ratchet.skipped.remove this.message.ratchetKey this.message.index } this.message)
      sent := by
  constructor
  · exact h.reached
  · intro one hone hunread chain hchain hkey hplace
    obtain ⟨hne, hunread⟩ := not_or.mp (List.mem_cons.not.mp hunread)
    rcases h.unread one hone hunread chain hchain hkey hplace with ⟨key, hmem, hname⟩ | hlost
    · refine Or.inl ⟨key, SkippedKeys.mem_remove_of_name_ne _ this.message hmem ?_, hname⟩
      intro hsame
      exact hne (congrArg Sent.message (hnames one hone this hthis (hname.symm.trans hsame)))
    · exact Or.inr (List.mem_append_right _ hlost)

omit [Suite] in
/-- A message that was not read yet does not lie behind its chain, unless its key was lost. -/
theorem Inbox.place_le (h : Inbox party sent) {this : Sent} (hthis : this ∈ sent)
    (hunread : this.message ∉ party.read) (hlost : this.message.name ∉ party.lostKeys)
    (hfind : party.ratchet.skipped.find? this.message.ratchetKey this.message.index = none)
    (hchain : chain ∈ party.ratchet.receivers)
    (helement : chain.ratchetKey.element = this.message.ratchetKey.element) :
    chain.index ≤ this.message.index := by
  rw [← UInt32.not_lt]
  intro hbehind
  rcases h.unread this hthis hunread chain hchain helement hbehind with ⟨key, hmem, hname⟩ | hgone
  · exact (SkippedKeys.find?_eq_none_iff _ _).mp hfind key hmem hname
  · exact hlost hgone

omit [Suite] in
/-- A new message of the other side lies ahead of the chains. -/
theorem Inbox.extend (h : Inbox party sent) {one : Sent}
    (hbelow : ∀ old ∈ sent, old.message.ratchetKey.element = one.message.ratchetKey.element →
      old.message.index < one.message.index) : Inbox party (sent ++ [one]) := by
  constructor
  · intro chain hchain
    refine (h.reached chain hchain).imp id ?_
    rintro ⟨last, hlast, hreached⟩
    exact ⟨last, List.mem_append_left _ hlast, hreached⟩
  · intro two htwo hunread chain hchain hkey hplace
    rcases List.mem_append.mp htwo with hold | hnew
    · exact h.unread two hold hunread chain hchain hkey hplace
    · obtain rfl := List.mem_singleton.mp hnew
      rw [UInt32.lt_iff_toNat_lt] at hplace
      rcases h.reached chain hchain with hzero | ⟨last, hlast, helement, hindex⟩
      · rw [hzero] at hplace
        exact absurd hplace (Nat.not_lt_zero _)
      · have hlt := UInt32.lt_iff_toNat_lt.mp (hbelow last hlast (helement.trans hkey))
        omega

end RoomCrypt.Olm
