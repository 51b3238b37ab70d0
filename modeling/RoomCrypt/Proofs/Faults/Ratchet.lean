import RoomCrypt.Proofs.Faults.Operations
import RoomCrypt.Proofs.Olm.Commitment
import RoomCrypt.Proofs.Olm.Names

/-!
# Decryption with a ratchet that can be anything

How far a message lies beyond its chain is a difference that is taken without a check where the chain is moved.
The check stands with the callers: a chain that is held must not lie beyond the message, and a new chain starts
at place 0. So no ratchet faults, also not one that was read from a pickle and could not have come about otherwise,
and the loop that moves a chain takes as many rounds as the difference says: it never goes round the
last place, as it stops in front of the message.
-/

namespace RoomCrypt.Olm

variable [Suite] {σ : Type}

/-- The next root key and chain, cut out of the bytes that are derived from a key agreement. -/
def RootKey.stepGuarded (root : RootKey) (ours : RatchetKeyPair) (theirs : Curve25519Key) :
    Checked (RootKey × ChainKey) := do
  let octets ← Checked.expand root.key.bytes (Suite.agree ours.secret theirs).bytes "OLM_RATCHET".toUTF8.toList 64
  let rootKey ← Checked.part octets.bytes 0 32 32
  let chainKey ← Checked.part octets.bytes 32 64 32
  pure (⟨rootKey⟩, .ofKey chainKey)

theorem RootKey.stepGuarded_eq (root : RootKey) (ours : RatchetKeyPair) (theirs : Curve25519Key) :
    root.stepGuarded ours theirs = .ok (root.step ours theirs) := by
  rw [stepGuarded, Checked.expand_eq _ _ _ (by decide)]
  simp only [bind, Except.bind]
  rw [Checked.part_octets _ 0 32 (by decide) rfl, Checked.part_octets _ 32 32 (by decide) rfl]
  rfl

/-- Check the MAC of a message and decrypt it. -/
def MessageKey.decryptGuarded (key : MessageKey) (message : OlmMessage) : Guarded σ RatchetError Bytes := do
  let cipher ← Cipher.deriveGuarded key.key context
  if cipher.mac message.body = message.mac then
    match cipher.decrypt? message.ciphertext with
    | some plain => pure plain
    | none => throw .invalidPadding
  else throw .invalidMac

theorem MessageKey.on_decryptGuarded (key : MessageKey) (message : OlmMessage) (state : σ) :
    (key.decryptGuarded message).on state = .ok (key.decrypt message, state) := by
  rw [decryptGuarded, Guarded.on_checked_bind (Cipher.deriveGuarded_eq key.key context), decrypt]
  by_cases hmac : (Cipher.derive key.key context).mac message.body = message.mac
  · rw [if_pos hmac, cipher, if_pos hmac]
    cases (Cipher.derive key.key context).decrypt? message.ciphertext <;> rfl
  · rw [if_neg hmac, cipher, if_neg hmac]
    rfl

namespace ReceiverChain

/-- A chain in front of a place has one place less to go after a step; it does not go round. -/
theorem toNat_index_next {chain : ReceiverChain} {index : UInt32} (h : chain.index < index) :
    chain.next.index.toNat = chain.index.toNat + 1 := by
  have hlt := UInt32.lt_iff_toNat_lt.mp h
  have hsize := index.toNat_lt_size
  exact chain.toNat_index_ahead 1 (by omega)

/-- Move a chain up to a place and note the keys of the places before it. -/
def passTo (index : UInt32) (chain : ReceiverChain) (keys : List SkippedKey) : List SkippedKey × ReceiverChain :=
  if h : chain.index < index then passTo index chain.next (keys ++ [⟨chain.ratchetKey, chain.messageKey⟩])
  else (keys, chain)
termination_by index.toNat - chain.index.toNat
decreasing_by
  rw [toNat_index_next h]
  have hlt := UInt32.lt_iff_toNat_lt.mp h
  omega

/-- The rounds of the loop: in front of the place there is one more to come, and at the place it stops. -/
theorem passTo_eq {index : UInt32} {rounds : ℕ} {chain : ReceiverChain} (keys : List SkippedKey)
    (h : chain.index.toNat + rounds = index.toNat) :
    chain.passTo index keys = (keys ++ chain.passed rounds, chain.ahead rounds) := by
  induction rounds generalizing chain keys with
  | zero =>
    have hstop : ¬ chain.index < index := by
      rw [UInt32.lt_iff_toNat_lt]
      omega
    rw [passTo, dif_neg hstop]
    simp only [passed, List.range_zero, List.map_nil, List.append_nil]
    rfl
  | succ rounds ih =>
    have hfurther : chain.index < index := by
      rw [UInt32.lt_iff_toNat_lt]
      omega
    have hnext : chain.next.index.toNat + rounds = index.toNat := by
      rw [toNat_index_next hfurther]
      omega
    have hskip := chain.skip_eq (rounds + 1)
    simp only [skip, skip_eq, Prod.mk.injEq] at hskip
    rw [passTo, dif_pos hfurther, ih _ hnext, ← hskip.1, ← hskip.2, List.append_assoc]
    rfl

/-- The loop that moves a chain up to a place goes on for a number of rounds, each of which notes one key, and
then stops at the place. -/
structure StopsAfter (chain : ReceiverChain) (index : UInt32) (rounds : ℕ) : Prop where
  goesOn : ∀ round < rounds, (chain.ahead round).index < index
  stops : (chain.ahead rounds).index = index
  passTo_eq : chain.passTo index [] = (chain.passed rounds, chain.ahead rounds)
  length_eq : (chain.passTo index []).1.length = rounds

theorem stopsAfter {chain : ReceiverChain} {index : UInt32} {rounds : ℕ}
    (h : chain.index.toNat + rounds = index.toNat) : chain.StopsAfter index rounds := by
  have hsize := index.toNat_lt_size
  have hpass := passTo_eq [] h
  rw [List.nil_append] at hpass
  refine ⟨fun round hround => ?_, UInt32.toNat_inj.mp ?_, hpass, ?_⟩
  · rw [UInt32.lt_iff_toNat_lt, chain.toNat_index_ahead round (by omega)]
    omega
  · rw [chain.toNat_index_ahead rounds (by omega), h]
  · rw [hpass, passed, List.length_map, List.length_range]

end ReceiverChain

namespace Ratchet

/-- Decrypt a message on a copy of a chain, from how far the message lies beyond it. -/
def decryptOnGuarded (config : RatchetConfig) (chain : ReceiverChain) (message : OlmMessage) :
    Guarded σ RatchetError (Bytes × List SkippedKey × ReceiverChain) := do
  let gap ← Checked.sub32 message.index chain.index
  if config.maxGap < gap then throw (.tooManySkippedMessages gap config.maxGap)
  let (skipped, chain) := chain.passTo message.index []
  let plain ← chain.messageKey.decryptGuarded message
  pure (plain, skipped, chain.next)

/-- It does not fault if the chain does not lie beyond the message. -/
theorem on_decryptOnGuarded (config : RatchetConfig) {chain : ReceiverChain} {message : OlmMessage}
    (hplace : chain.index ≤ message.index) (state : σ) :
    (decryptOnGuarded config chain message).on state = .ok (decryptOn config chain message, state) := by
  have hpass := ReceiverChain.passTo_eq [] (chain.index_add_gap message hplace)
  rw [List.nil_append, ← ReceiverChain.skip_eq, ReceiverChain.gap] at hpass
  rw [decryptOnGuarded, Guarded.on_checked_bind (Checked.sub32_eq hplace), decryptOn]
  by_cases hgap : config.maxGap < message.index - chain.index
  · simp only [hgap, if_true]
    rfl
  · simp only [hgap, if_false, hpass]
    rw [Guarded.on_bind, MessageKey.on_decryptGuarded]
    cases (chain.skip (message.index - chain.index).toNat).2.messageKey.decrypt message <;> rfl

/-- On a chain beyond the message it would fault: nothing but the check of the callers keeps it from that. -/
theorem on_decryptOnGuarded_eq_underflow_iff (config : RatchetConfig) (chain : ReceiverChain) (message : OlmMessage)
    (state : σ) :
    (decryptOnGuarded config chain message).on state = .error .underflow ↔ message.index < chain.index := by
  constructor
  · intro hfault
    by_contra hplace
    rw [on_decryptOnGuarded config (UInt32.not_lt.mp hplace)] at hfault
    cases hfault
  · intro hbeyond
    rw [decryptOnGuarded, Checked.sub32, if_neg (UInt32.not_le.mpr hbeyond)]
    rfl

/-- A chain that is moved at all is moved by no more rounds than the bound allows. -/
theorem rounds_le_or_refused (config : RatchetConfig) {chain : ReceiverChain} {message : OlmMessage} {rounds : ℕ}
    (hplace : chain.index ≤ message.index) (h : chain.index.toNat + rounds = message.index.toNat) :
    rounds ≤ config.maxGap.toNat ∨ ∀ state : σ, (decryptOnGuarded config chain message).on state =
      .ok (.error (.tooManySkippedMessages (message.index - chain.index) config.maxGap), state) := by
  by_cases hgap : config.maxGap < message.index - chain.index
  · refine .inr fun state => ?_
    rw [on_decryptOnGuarded config hplace, decryptOn]
    simp only [hgap, if_true]
    rfl
  · have hle := UInt32.le_iff_toNat_le.mp (UInt32.not_lt.mp hgap)
    rw [UInt32.toNat_sub_of_le _ _ hplace] at hle
    exact .inl (by omega)

/-- Decrypt a message with a skipped key and take the key out of the store. -/
def decryptSkippedGuarded (key : MessageKey) (message : OlmMessage) : Guarded Ratchet RatchetError Bytes := do
  let plain ← key.decryptGuarded message
  modify fun ratchet =>
    { ratchet with skipped := ratchet.skipped.remove message.ratchetKey message.index }
  pure plain

/-- Decrypt a message on a copy of the chain at a place of the list and write the copy back. -/
def decryptKnownGuarded (config : RatchetConfig) (place : ℕ) (message : OlmMessage) :
    Guarded Ratchet RatchetError Bytes := do
  let ratchet ← get
  let chain ← Checked.get ratchet.receivers place
  if message.index < chain.index then throw (.replayOrUnknownMessage message.index)
  let (plain, skipped, chain) ← decryptOnGuarded config chain message
  let receivers ← Checked.put ratchet.receivers place chain
  modify fun ratchet => { ratchet with receivers }
  Guarded.ofInPlace (recordInPlace skipped)
  pure plain

/-- Decrypt the first message from a new ratchet key and write the ratchet step. -/
def decryptNewGuarded (message : OlmMessage) : Guarded Ratchet RatchetError Bytes := do
  let ratchet ← get
  match ratchet.sender with
  | none => throw .missingChain
  | some sender =>
    let (rootKey, chainKey) ← ratchet.rootKey.stepGuarded sender.keyPair message.ratchetKey
    let (plain, skipped, chain) ←
      decryptOnGuarded ratchet.config ⟨message.ratchetKey, chainKey⟩ message
    modify fun ratchet => { ratchet with rootKey }
    modify fun ratchet => { ratchet with sender := none }
    modify fun ratchet => { ratchet with receivers := chain :: ratchet.receivers }
    modify fun ratchet =>
      { ratchet with receivers := ratchet.receivers.take ratchet.config.maxReceiverChains }
    Guarded.ofInPlace (recordInPlace skipped)
    pure plain

/-- Decrypt a message. -/
def decryptGuarded (message : OlmMessage) : Guarded Ratchet RatchetError Bytes := do
  let ratchet ← get
  match ratchet.skipped.find? message.ratchetKey message.index with
  | some key => decryptSkippedGuarded key message
  | none =>
    match ratchet.receivers.findIdx? (·.belongsTo message.ratchetKey) with
    | some place => decryptKnownGuarded ratchet.config place message
    | none => decryptNewGuarded message

omit [Suite] in
/-- The place of the first chain of a ratchet key is a place of the list. -/
theorem locate?_eq_findIdx? (ratchetKey : Curve25519Key) (chains : List ReceiverChain) :
    locate? ratchetKey chains = (chains.findIdx? (·.belongsTo ratchetKey)).bind fun place =>
      chains[place]?.map fun chain => (place, chain) := by
  induction chains with
  | nil => rfl
  | cons first rest ih =>
    rw [locate?, List.findIdx?_cons]
    by_cases hfirst : first.belongsTo ratchetKey
    · simp [hfirst]
    · simp only [hfirst, Bool.false_eq_true, if_false, ih]
      cases rest.findIdx? (·.belongsTo ratchetKey) with
      | none => rfl
      | some place => cases hget : rest[place]? <;> simp [hget]

variable (ratchet : Ratchet) (message : OlmMessage)

theorem matches_decryptSkippedGuarded (key : MessageKey) :
    (decryptSkippedGuarded key message).Matches Eq (decryptSkippedInPlace key message) ratchet ratchet := by
  refine (Guarded.matches_lift (key.on_decryptGuarded message ratchet)).then fun plain after _ => ?_
  exact (Guarded.matches_modify _ after).then fun _ after _ => Guarded.matches_pure rfl plain

/-- The place of a chain that was found is in range when the chain is looked up and when it is written. -/
theorem matches_decryptKnownGuarded {place : ℕ} {chain : ReceiverChain}
    (hchain : ratchet.receivers[place]? = some chain) :
    (decryptKnownGuarded ratchet.config place message).Matches Eq
      (decryptKnownInPlace ratchet.config place chain message) ratchet ratchet := by
  unfold Guarded.Matches decryptKnownGuarded decryptKnownInPlace
  rw [Guarded.on_bind_of_ok (Guarded.on_get ratchet),
    Guarded.on_checked_bind (Checked.get_eq hchain)]
  by_cases hbehind : message.index < chain.index
  · simp only [hbehind, if_true]
    exact ⟨ratchet, rfl, rfl⟩
  · simp only [hbehind, if_false]
    have hdecrypt := on_decryptOnGuarded ratchet.config (UInt32.not_lt.mp hbehind) ratchet
    refine (Guarded.matches_lift hdecrypt).then fun found after hfound => ?_
    obtain ⟨plain, skipped, moved⟩ := found
    obtain rfl : ratchet = after := by
      rw [InPlace.on_lift] at hfound
      exact (Prod.mk.inj hfound).2
    obtain ⟨hplace, -⟩ := List.getElem?_eq_some_iff.mp hchain
    refine Guarded.Matches.checked (Checked.put_eq hplace moved) ?_
    have hwrite : Guarded.Matches Eq
        (modify fun now : Ratchet => { now with receivers := ratchet.receivers.set place moved })
        (modify fun now => { now with receivers := now.receivers.set place moved } :
          InPlace Ratchet RatchetError PUnit) ratchet ratchet := ⟨_, rfl, rfl⟩
    refine hwrite.then fun _ after _ => ?_
    exact (Guarded.matches_ofInPlace _ after).then fun _ after _ => Guarded.matches_pure rfl plain

/-- A new chain starts at place 0, which lies beyond no message. -/
theorem matches_decryptNewGuarded :
    (decryptNewGuarded message).Matches Eq (decryptNewInPlace message) ratchet ratchet := by
  unfold Guarded.Matches decryptNewGuarded decryptNewInPlace
  rw [Guarded.on_bind_of_ok (Guarded.on_get ratchet), InPlace.on_bind, InPlace.on_get]
  simp only []
  cases ratchet.sender with
  | none => exact ⟨ratchet, rfl, rfl⟩
  | some sender =>
    refine Guarded.Matches.checked (ratchet.rootKey.stepGuarded_eq sender.keyPair message.ratchetKey) ?_
    have hplace : (ratchet.freshChain sender message.ratchetKey).index ≤ message.index :=
      UInt32.le_iff_toNat_le.mpr (Nat.zero_le _)
    have hdecrypt := on_decryptOnGuarded ratchet.config hplace ratchet
    refine (Guarded.matches_lift hdecrypt).then fun found after _ => ?_
    obtain ⟨plain, skipped, chain⟩ := found
    refine (Guarded.matches_modify _ after).then fun _ after _ => ?_
    refine (Guarded.matches_modify _ after).then fun _ after _ => ?_
    refine (Guarded.matches_modify _ after).then fun _ after _ => ?_
    refine (Guarded.matches_modify _ after).then fun _ after _ => ?_
    exact (Guarded.matches_ofInPlace _ after).then fun _ after _ => Guarded.matches_pure rfl plain

/-- No ratchet faults on a message, whatever it is. -/
theorem matches_decryptGuarded : (decryptGuarded message).Matches Eq (decryptInPlace message) ratchet ratchet := by
  unfold Guarded.Matches decryptGuarded decryptInPlace
  rw [Guarded.on_bind_of_ok (Guarded.on_get ratchet), InPlace.on_bind, InPlace.on_get]
  simp only [locate?_eq_findIdx?]
  cases ratchet.skipped.find? message.ratchetKey message.index with
  | some key => exact matches_decryptSkippedGuarded ratchet message key
  | none =>
    cases hfind : ratchet.receivers.findIdx? (·.belongsTo message.ratchetKey) with
    | none => exact matches_decryptNewGuarded ratchet message
    | some place =>
      obtain ⟨hplace, -⟩ := List.findIdx?_eq_some_iff_getElem.mp hfind
      have hchain := List.getElem?_eq_getElem hplace
      simp only [Option.bind_some, hchain, Option.map_some]
      exact matches_decryptKnownGuarded ratchet message hchain

/-- So none faults on any messages, and they come to what decryption says. -/
theorem each_decryptGuarded (messages : List OlmMessage) :
    Guarded.each decryptGuarded messages ratchet = .ok (InPlace.settleAll decrypt messages ratchet) :=
  Guarded.each_eq (fun message ratchet => by
    rw [(matches_decryptGuarded ratchet message).on_eq, on_decryptInPlace]) messages ratchet

end Ratchet

/-- Decrypt a message; the channel remembers that it has received one. -/
def Channel.decryptGuarded (message : OlmMessage) : Guarded Channel RatchetError Bytes := do
  let plain ← Guarded.zoom ratchet (fun ratchet channel => { channel with ratchet })
    (Ratchet.decryptGuarded message)
  modify fun channel => { channel with received := true }
  pure plain

/-- No channel faults on a message, whatever its ratchet is. -/
theorem Channel.matches_decryptGuarded (channel : Channel) (message : OlmMessage) :
    (decryptGuarded message).Matches Eq (decryptInPlace message) channel channel := by
  refine (channel.ratchet.matches_decryptGuarded message).zoom.then fun plain after _ => ?_
  exact (Guarded.matches_modify _ after).then fun _ after _ => Guarded.matches_pure rfl plain

theorem Channel.each_decryptGuarded (channel : Channel) (messages : List OlmMessage) :
    Guarded.each decryptGuarded messages channel = .ok (InPlace.settleAll decrypt messages channel) :=
  Guarded.each_eq (fun message channel => by
    rw [(matches_decryptGuarded channel message).on_eq, on_decryptInPlace]) messages channel

end RoomCrypt.Olm
