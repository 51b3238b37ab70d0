import RoomCrypt.Proofs.Olm.Epoch

/-!
# What keeps two sides in step

Each side of a conversation knows all ratchet key pairs that were made, or all but the latest one,
which the other side has made. Its root key is that of the latest pair it knows, its chains stand on
the epochs of the other side, and each epoch of the other side that it knows has a chain or has lost it.
-/

namespace RoomCrypt.Olm

variable [Suite]

/-- Whose turn it is to make the next pair, as a ratchet shows it: after a pair of ours we send on its
epoch, and after a pair of theirs we have no chain for sending. -/
inductive Turn (secret : Bytes) (side : Side) (ratchet : Ratchet) : List RatchetKeyPair → Prop where
  | theirs (pair : RatchetKeyPair) (past : List RatchetKeyPair) (chain : SenderChain)
      (howner : owner (pair :: past) = side)
      (hsender : ratchet.sender = some chain)
      (hpair : chain.keyPair = pair)
      (hchain : chain.chainKey = epochChain secret (pair :: past) chain.index) :
      Turn secret side ratchet (pair :: past)
  | ours (pair : RatchetKeyPair) (past : List RatchetKeyPair)
      (howner : owner (pair :: past) = side.other)
      (hsender : ratchet.sender = none)
      (hreceiver : (ratchet.receivers.map (·.ratchetKey)).head? = some pair.publicKey) :
      Turn secret side ratchet (pair :: past)

/-- What a side has that knows some of the pairs. -/
structure Synced (secret : Bytes) (config : RatchetConfig) (pairs : List RatchetKeyPair) (side : Side)
    (party : Party) (known : List RatchetKeyPair) : Prop where
  known_pairs : known = pairs ∨ owner known = side ∧ ∃ pair, pairs = pair :: known
  root : party.ratchet.rootKey = (epoch secret known).1
  turn : Turn secret side party.ratchet known
  chains : ∀ chain ∈ party.ratchet.receivers, ∃ pair past,
    IsEpoch side.other known pair past ∧ chain.StandsOn secret pair past
  covered : ∀ pair past, IsEpoch side.other known pair past →
    pair.publicKey ∈ party.ratchet.receivers.map (·.ratchetKey) ∨
      pair.publicKey.element ∈ party.lostChains
  keys : ∀ key ∈ party.ratchet.skipped.keys, ∃ pair past,
    IsEpoch side.other known pair past ∧ key.StandsOn secret pair past
  config_eq : party.ratchet.config = config
  capacity_eq : party.ratchet.skipped.capacity = config.maxSkippedKeys

/-- What a side has sent: on its epochs, each message at a place of its own behind its chain. -/
structure Outbox (secret : Bytes) (pairs : List RatchetKeyPair) (side : Side) (party : Party) : Prop where
  made : ∀ sent ∈ party.sent, ∃ pair past, IsEpoch side pairs pair past ∧
    sent.message = (epochKey secret (pair :: past) sent.message.index).encrypt pair.publicKey sent.plain
  names : ∀ a ∈ party.sent, ∀ b ∈ party.sent, a.message.name = b.message.name → a = b
  below : ∀ chain ∈ party.ratchet.sender, ∀ sent ∈ party.sent,
    sent.message.ratchetKey.element = chain.publicKey.element → sent.message.index < chain.index

/-- The initiator begins in step. -/
theorem Synced.initiator (secret : Bytes) (first : Curve25519Secret) (config : RatchetConfig) :
    Synced secret config [.ofSecret first] .initiator
      (.start (.ofInitiator secret (.ofSecret first)) config) [.ofSecret first] where
  known_pairs := Or.inl rfl
  root := rfl
  turn := .theirs (.ofSecret first) [] ⟨.ofSecret first, (RootKey.ofSharedSecret secret).2⟩ rfl rfl rfl rfl
  chains := by simp [Party.start, Ratchet.withConfig, Ratchet.ofInitiator]
  covered := by
    intro pair past hepoch
    rcases IsEpoch.cons_iff.mp hepoch with ⟨-, howner⟩ | hnone
    · cases howner
    · exact absurd (List.suffix_nil.mp hnone.1) (List.cons_ne_nil _ _)
  keys := by
    simp [Party.start, Ratchet.withConfig, Ratchet.ofInitiator, SkippedKeys.resize, SkippedKeys.ofKeys,
      SkippedKeys.withCapacity]
  config_eq := rfl
  capacity_eq := rfl

/-- The responder begins in step, with the initiator's first chain. -/
theorem Synced.responder (secret : Bytes) (first : Curve25519Secret) (config : RatchetConfig)
    (hconfig : 1 ≤ config.maxReceiverChains) :
    Synced secret config [.ofSecret first] .responder
      (.start (.ofResponder secret (Suite.publicKey first)) config) [.ofSecret first] := by
  have hreceivers : (Party.start (.ofResponder secret (Suite.publicKey first)) config).ratchet.receivers =
      [⟨Suite.publicKey first, (RootKey.ofSharedSecret secret).2⟩] :=
    List.take_of_length_le hconfig
  have hepoch : IsEpoch Side.responder.other [.ofSecret first] (.ofSecret first) [] :=
    ⟨List.suffix_rfl, rfl⟩
  refine
    { known_pairs := Or.inl rfl
      root := rfl
      turn := .ours (.ofSecret first) [] rfl rfl ?_
      chains := ?_
      covered := ?_
      keys := ?_
      config_eq := rfl
      capacity_eq := rfl }
  · rw [hreceivers]
    rfl
  · intro chain hchain
    rw [hreceivers, List.mem_singleton] at hchain
    exact ⟨.ofSecret first, [], hepoch, hchain ▸ rfl⟩
  · intro pair past hpast
    rcases IsEpoch.cons_iff.mp hpast with ⟨⟨rfl, -⟩, -⟩ | hnone
    · rw [hreceivers]
      exact Or.inl List.mem_cons_self
    · exact absurd (List.suffix_nil.mp hnone.1) (List.cons_ne_nil _ _)
  · simp [Party.start, Ratchet.withConfig, Ratchet.ofResponder, SkippedKeys.resize, SkippedKeys.ofKeys,
      SkippedKeys.withCapacity]

section

variable {secret : Bytes} {config : RatchetConfig} {pairs known past : List RatchetKeyPair} {side : Side}
  {party : Party} {pair : RatchetKeyPair} {chain : ReceiverChain}

/-- The store of skipped keys has the bound of the ratchet. -/
theorem Synced.capacity (h : Synced secret config pairs side party known) :
    party.ratchet.skipped.capacity = party.ratchet.config.maxSkippedKeys := by
  rw [h.capacity_eq, h.config_eq]

/-- What a side knows are the pairs up to some time. -/
theorem Synced.known_suffix (h : Synced secret config pairs side party known) : known <:+ pairs := by
  rcases h.known_pairs with rfl | ⟨-, newest, rfl⟩
  · exact List.suffix_rfl
  · exact List.suffix_cons _ _

/-- The chain that is held for a message stands on the epoch of the message. -/
theorem Synced.standsOn (h : Synced secret config pairs side party known)
    (hnodup : (pairs.map (·.publicKey.element)).Nodup) (hepoch : IsEpoch side.other pairs pair past)
    (hchain : chain ∈ party.ratchet.receivers)
    (hkey : chain.ratchetKey.element = pair.publicKey.element) :
    IsEpoch side.other known pair past ∧ chain.StandsOn secret pair past := by
  obtain ⟨pair', past', hepoch', hstands⟩ := h.chains chain hchain
  rw [hstands.ratchetKey_eq] at hkey
  obtain ⟨rfl, rfl⟩ := (hepoch'.mono h.known_suffix).unique hnodup hepoch hkey
  exact ⟨hepoch', hstands⟩

/-- A side that has the other side's latest pair knows all pairs. -/
theorem Synced.known_eq (h : Synced secret config pairs side party known) (howner : owner known = side.other) :
    known = pairs := by
  rcases h.known_pairs with hknown | ⟨howner', -⟩
  · exact hknown
  · exact absurd (howner.symm.trans howner') (Side.other_ne side)

/-- So does the side that has made the latest pair. -/
theorem Synced.known_eq_of_owner (h : Synced secret config pairs side party known)
    (howner : owner pairs = side) : known = pairs := by
  rcases h.known_pairs with hknown | ⟨howner', newest, rfl⟩
  · exact hknown
  · have hother : side = side.other := howner.symm.trans (congrArg Side.other howner')
    exact absurd hother.symm (Side.other_ne side)

/-- An epoch of the other side that has no chain, and has lost none, is the latest one: the side does
not know it yet and finds it by a step of its root key. -/
theorem Synced.latest (h : Synced secret config pairs side party known) (hagree : Suite.Agrees)
    (hsecrets : ∀ pair ∈ pairs, pair = .ofSecret pair.secret) (hepoch : IsEpoch side.other pairs pair past)
    (hchain : ∀ chain ∈ party.ratchet.receivers, chain.ratchetKey.element ≠ pair.publicKey.element)
    (hlost : pair.publicKey.element ∉ party.lostChains) :
    pairs = pair :: known ∧ past = known ∧ ∃ sender, party.ratchet.sender = some sender ∧
      party.ratchet.rootKey.step sender.keyPair pair.publicKey = epoch secret pairs := by
  have hunknown : ¬ IsEpoch side.other known pair past := by
    intro hknown
    rcases h.covered pair past hknown with hheld | hgone
    · obtain ⟨chain, hmem, hkey⟩ := List.mem_map.mp hheld
      exact hchain chain hmem (congrArg Curve25519Key.element hkey)
    · exact hlost hgone
  rcases h.known_pairs with rfl | ⟨howner, newest, rfl⟩
  · exact absurd hepoch hunknown
  rcases IsEpoch.cons_iff.mp hepoch with ⟨⟨rfl, rfl⟩, -⟩ | hknown
  · refine ⟨rfl, rfl, ?_⟩
    have hturn := h.turn
    have hroot := h.root
    cases hturn with
    | theirs latest past sender _ hsender hpair hchain =>
      refine ⟨sender, hsender, ?_⟩
      have hnewest := hsecrets pair List.mem_cons_self
      have hlatest := hsecrets latest (List.mem_cons_of_mem _ List.mem_cons_self)
      rw [hpair, hroot, hnewest, hlatest]
      exact step_eq_epoch hagree secret pair.secret latest.secret past
    | ours latest past hother hsender hreceiver =>
      exact absurd (howner.symm.trans hother).symm (Side.other_ne side)
  · exact absurd hknown hunknown

end

end RoomCrypt.Olm
