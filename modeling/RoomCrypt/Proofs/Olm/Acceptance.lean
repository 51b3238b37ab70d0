import Mathlib.Logic.Function.Iterate
import RoomCrypt.Olm.Ratchet
import RoomCrypt.Proofs.Call

/-!
# What a ratchet accepts

A message is accepted in one of three ways: with a skipped key, on a chain that the ratchet holds,
or as the first message of a new chain. The relation `Accepts` states for each of them what the
ratchet looked at and what it became, and decryption succeeds exactly in these ways.

The places of a chain are counted by iterating its step, so that the key of a message does not
depend on the order in which the messages before it came.
-/

namespace RoomCrypt.Olm

variable [Suite]

namespace ChainKey

/-- The chain key a number of places further. -/
def ahead (chain : ChainKey) (count : ℕ) : ChainKey :=
  next^[count] chain

@[simp] theorem ahead_zero (chain : ChainKey) : chain.ahead 0 = chain := rfl

/-- The step can also be taken last. -/
theorem ahead_next (chain : ChainKey) (count : ℕ) : (chain.ahead count).next = chain.ahead (count + 1) :=
  (Function.iterate_succ_apply' next count chain).symm

/-- Distances on a chain add up. -/
theorem ahead_ahead (chain : ChainKey) (m n : ℕ) : (chain.ahead m).ahead n = chain.ahead (m + n) := by
  rw [Nat.add_comm]
  exact (Function.iterate_add_apply next n m chain).symm

/-- A chain key counts its places. -/
@[simp] theorem index_ahead (chain : ChainKey) (count : ℕ) :
    (chain.ahead count).index = chain.index + UInt32.ofNat count := by
  induction count with
  | zero => simp
  | succ count ih =>
    rw [← ahead_next]
    change (chain.ahead count).index + 1 = _
    rw [ih, UInt32.add_assoc, UInt32.ofNat_add]
    rfl

end ChainKey

namespace ReceiverChain

/-- The chain a number of places further. -/
def ahead (chain : ReceiverChain) (count : ℕ) : ReceiverChain :=
  { chain with chainKey := chain.chainKey.ahead count }

@[simp] theorem ratchetKey_ahead (chain : ReceiverChain) (count : ℕ) :
    (chain.ahead count).ratchetKey = chain.ratchetKey := rfl

@[simp] theorem chainKey_ahead (chain : ReceiverChain) (count : ℕ) :
    (chain.ahead count).chainKey = chain.chainKey.ahead count := rfl

@[simp] theorem index_ahead (chain : ReceiverChain) (count : ℕ) :
    (chain.ahead count).index = chain.index + UInt32.ofNat count :=
  chain.chainKey.index_ahead count

/-- The keys of the next places, first place first. -/
def passed (chain : ReceiverChain) (count : ℕ) : List SkippedKey :=
  (List.range count).map fun i => ⟨chain.ratchetKey, (chain.chainKey.ahead i).messageKey⟩

/-- Passing over places gives exactly their keys and leaves the chain behind them. -/
theorem skip_eq (chain : ReceiverChain) (count : ℕ) :
    chain.skip count = (chain.passed count, chain.ahead count) := by
  induction count generalizing chain with
  | zero => rfl
  | succ count ih =>
    simp only [skip, ih, passed, List.range_succ_eq_map, List.map_cons, List.map_map]
    rfl

/-- How many places a message lies beyond the chain, counted modulo `2 ^ 32`. -/
def gap (chain : ReceiverChain) (message : OlmMessage) : ℕ :=
  (message.index - chain.index).toNat

omit [Suite] in
/-- The gap is the plain difference for a message that is not behind the chain. -/
theorem gap_eq (chain : ReceiverChain) (message : OlmMessage) (hplace : chain.index ≤ message.index) :
    chain.gap message = message.index.toNat - chain.index.toNat :=
  UInt32.toNat_sub_of_le _ _ hplace

end ReceiverChain

namespace Ratchet

/-- Decryption on a chain succeeds exactly if the gap is small enough and the message decrypts with
the key of its own place. -/
theorem decryptOn_eq_ok_iff (config : RatchetConfig) (chain : ReceiverChain) (message : OlmMessage)
    (plain : Bytes) (skipped : List SkippedKey) (after : ReceiverChain) :
    decryptOn config chain message = .ok (plain, skipped, after) ↔
      message.index - chain.index ≤ config.maxGap ∧
        (chain.ahead (chain.gap message)).messageKey.decrypt message = .ok plain ∧
        skipped = chain.passed (chain.gap message) ∧ after = chain.ahead (chain.gap message + 1) := by
  have hnext (count : ℕ) : (chain.ahead count).next = chain.ahead (count + 1) := by
    simp only [ReceiverChain.next, ReceiverChain.ahead, ChainKey.ahead_next]
  unfold decryptOn
  by_cases hgap : config.maxGap < message.index - chain.index
  · have hgap' : ¬ message.index - chain.index ≤ config.maxGap := UInt32.not_le.mpr hgap
    simp [hgap, hgap', bind, Except.bind, throw, throwThe, MonadExceptOf.throw]
  · have hgap' : message.index - chain.index ≤ config.maxGap := UInt32.not_lt.mp hgap
    simp only [hgap, hgap', if_false, ReceiverChain.skip_eq, true_and]
    rw [bind_eq_ok_iff]
    constructor
    · rintro ⟨text, hplain, h⟩
      obtain ⟨rfl, rfl, rfl⟩ : text = plain ∧ chain.passed _ = skipped ∧ _ = after := by
        simpa only [pure, Except.pure, Except.ok.injEq, Prod.mk.injEq] using h
      exact ⟨hplain, rfl, hnext _⟩
    · rintro ⟨hplain, rfl, rfl⟩
      exact ⟨plain, hplain, by rw [hnext]; rfl⟩

omit [Suite] in
/-- A chain that was found stands at its place and belongs to the ratchet key. -/
theorem getElem?_of_locate? {ratchetKey : Curve25519Key} {chains : List ReceiverChain} {place : ℕ}
    {chain : ReceiverChain} (h : locate? ratchetKey chains = some (place, chain)) :
    chains[place]? = some chain ∧ chain.belongsTo ratchetKey = true := by
  induction chains generalizing place with
  | nil => simp [locate?] at h
  | cons first rest ih =>
    by_cases hfirst : first.belongsTo ratchetKey
    · simp only [locate?, hfirst, if_true, Option.some.injEq, Prod.mk.injEq] at h
      obtain ⟨rfl, rfl⟩ := h
      exact ⟨rfl, hfirst⟩
    · simp only [locate?, hfirst, Bool.false_eq_true, if_false, Option.map_eq_some_iff,
        Prod.mk.injEq, Prod.exists] at h
      obtain ⟨i, found, h, rfl, rfl⟩ := h
      exact ih h

omit [Suite] in
/-- No chain is found exactly if none belongs to the ratchet key. -/
theorem locate?_eq_none_iff {ratchetKey : Curve25519Key} {chains : List ReceiverChain} :
    locate? ratchetKey chains = none ↔ ∀ chain ∈ chains, chain.belongsTo ratchetKey = false := by
  induction chains with
  | nil => simp [locate?]
  | cons first rest ih =>
    by_cases hfirst : first.belongsTo ratchetKey
    · simp [locate?, hfirst]
    · simp [locate?, hfirst, ih]

/-- The new chain of a ratchet key of the other side, by a ratchet step with our chain for
sending. -/
def freshChain (ratchet : Ratchet) (sender : SenderChain) (ratchetKey : Curve25519Key) : ReceiverChain :=
  ⟨ratchetKey, (ratchet.rootKey.step sender.keyPair ratchetKey).2⟩

/-- The key that a message names: the one that was skipped for it, or else the one of its place on
the chain of its ratchet key, or else, if there is no such chain, the one of its place on a new
chain. -/
def namedKey? (ratchet : Ratchet) (message : OlmMessage) : Option MessageKey :=
  match ratchet.skipped.find? message.ratchetKey message.index with
  | some key => some key
  | none =>
    match locate? message.ratchetKey ratchet.receivers with
    | some (_, chain) =>
      if chain.index ≤ message.index then
        some (chain.ahead (message.index.toNat - chain.index.toNat)).messageKey
      else none
    | none =>
      ratchet.sender.map fun sender =>
        ((ratchet.freshChain sender message.ratchetKey).ahead message.index.toNat).messageKey

/-- The ratchet after a message on a chain that it holds. -/
def afterHeld (ratchet : Ratchet) (place : ℕ) (chain : ReceiverChain) (message : OlmMessage) : Ratchet :=
  { ratchet with
    receivers := ratchet.receivers.set place (chain.ahead (chain.gap message + 1))
    skipped := ratchet.skipped.recordAll (chain.passed (chain.gap message)) }

/-- The ratchet after the first message of a new chain. -/
def afterOpened (ratchet : Ratchet) (sender : SenderChain) (message : OlmMessage) : Ratchet :=
  let chain := ratchet.freshChain sender message.ratchetKey
  { ratchet with
    rootKey := (ratchet.rootKey.step sender.keyPair message.ratchetKey).1
    sender := none
    receivers := (chain.ahead (message.index.toNat + 1) :: ratchet.receivers).take
      ratchet.config.maxReceiverChains
    skipped := ratchet.skipped.recordAll (chain.passed message.index.toNat) }

/-- A ratchet accepts a message with a text and becomes another ratchet. -/
inductive Accepts (ratchet : Ratchet) (message : OlmMessage) (plain : Bytes) : Ratchet → Prop where
  /-- With a skipped key, which is then gone. -/
  | skipped (key : MessageKey)
      (hkey : ratchet.skipped.find? message.ratchetKey message.index = some key)
      (hplain : key.decrypt message = .ok plain) :
      Accepts ratchet message plain
        { ratchet with skipped := ratchet.skipped.remove message.ratchetKey message.index }
  /-- On the chain of its ratchet key, which then stands behind the message. -/
  | held (place : ℕ) (chain : ReceiverChain)
      (hkey : ratchet.skipped.find? message.ratchetKey message.index = none)
      (hchain : locate? message.ratchetKey ratchet.receivers = some (place, chain))
      (hplace : chain.index ≤ message.index)
      (hgap : message.index - chain.index ≤ ratchet.config.maxGap)
      (hplain : (chain.ahead (chain.gap message)).messageKey.decrypt message = .ok plain) :
      Accepts ratchet message plain (ratchet.afterHeld place chain message)
  /-- On a new chain, which ends our chain for sending. -/
  | opened (sender : SenderChain)
      (hkey : ratchet.skipped.find? message.ratchetKey message.index = none)
      (hchain : locate? message.ratchetKey ratchet.receivers = none)
      (hsender : ratchet.sender = some sender)
      (hgap : message.index ≤ ratchet.config.maxGap)
      (hplain : ((ratchet.freshChain sender message.ratchetKey).ahead message.index.toNat).messageKey.decrypt
        message = .ok plain) :
      Accepts ratchet message plain (ratchet.afterOpened sender message)

/-- A new chain starts at place 0, so that its gap to a message is the place of the message. -/
theorem gap_freshChain (ratchet : Ratchet) (sender : SenderChain) (message : OlmMessage) :
    (ratchet.freshChain sender message.ratchetKey).gap message = message.index.toNat := by
  change (message.index - 0).toNat = _
  rw [UInt32.sub_zero]

/-- Decrypting on a chain that is held succeeds exactly as acceptance says. -/
theorem decryptKnown_eq_ok_iff (ratchet : Ratchet) (place : ℕ) (chain : ReceiverChain)
    (message : OlmMessage) (plain : Bytes) (after : Ratchet) :
    ratchet.decryptKnown place chain message = .ok (plain, after) ↔
      chain.index ≤ message.index ∧ message.index - chain.index ≤ ratchet.config.maxGap ∧
        (chain.ahead (chain.gap message)).messageKey.decrypt message = .ok plain ∧
        after = ratchet.afterHeld place chain message := by
  unfold decryptKnown
  by_cases hplace : message.index < chain.index
  · have hplace' : ¬ chain.index ≤ message.index := UInt32.not_le.mpr hplace
    simp [hplace, hplace', bind, Except.bind, throw, throwThe, MonadExceptOf.throw]
  · have hplace' : chain.index ≤ message.index := UInt32.not_lt.mp hplace
    simp only [hplace, hplace', if_false, true_and]
    rw [bind_eq_ok_iff]
    constructor
    · rintro ⟨⟨text, skipped, next⟩, hon, h⟩
      obtain ⟨hgap, hplain, rfl, rfl⟩ := (decryptOn_eq_ok_iff ..).mp hon
      cases h
      exact ⟨hgap, hplain, rfl⟩
    · rintro ⟨hgap, hplain, rfl⟩
      exact ⟨_, (decryptOn_eq_ok_iff ..).mpr ⟨hgap, hplain, rfl, rfl⟩, rfl⟩

/-- Decrypting on a new chain succeeds exactly as acceptance says. -/
theorem decryptNew_eq_ok_iff (ratchet : Ratchet) (message : OlmMessage) (plain : Bytes) (after : Ratchet) :
    ratchet.decryptNew message = .ok (plain, after) ↔
      ∃ sender, ratchet.sender = some sender ∧ message.index ≤ ratchet.config.maxGap ∧
        ((ratchet.freshChain sender message.ratchetKey).ahead message.index.toNat).messageKey.decrypt
          message = .ok plain ∧
        after = ratchet.afterOpened sender message := by
  unfold decryptNew
  cases hsender : ratchet.sender with
  | none => simp [throw, throwThe, MonadExceptOf.throw]
  | some sender =>
    simp only [Option.some.injEq, exists_eq_left']
    have hindex : message.index - (ratchet.freshChain sender message.ratchetKey).index = message.index :=
      UInt32.sub_zero _
    have hon := decryptOn_eq_ok_iff ratchet.config (ratchet.freshChain sender message.ratchetKey) message
    rw [gap_freshChain, hindex] at hon
    change (decryptOn ratchet.config (ratchet.freshChain sender message.ratchetKey) message) >>= _ = _ ↔ _
    rw [bind_eq_ok_iff]
    constructor
    · rintro ⟨⟨text, skipped, next⟩, hresult, h⟩
      obtain ⟨hgap, hplain, rfl, rfl⟩ := (hon text skipped next).mp hresult
      cases h
      exact ⟨hgap, hplain, rfl⟩
    · rintro ⟨hgap, hplain, rfl⟩
      exact ⟨_, (hon plain _ _).mpr ⟨hgap, hplain, rfl, rfl⟩, rfl⟩

/-- Decryption succeeds in the three ways of acceptance and in no other way. -/
theorem decrypt_eq_ok_iff (ratchet : Ratchet) (message : OlmMessage) (plain : Bytes) (after : Ratchet) :
    ratchet.decrypt message = .ok (plain, after) ↔ ratchet.Accepts message plain after := by
  unfold decrypt
  constructor
  · intro h
    cases hkey : ratchet.skipped.find? message.ratchetKey message.index with
    | some key =>
      simp only [hkey] at h
      obtain ⟨text, hplain, h⟩ := bind_eq_ok_iff.mp h
      cases h
      exact .skipped key hkey hplain
    | none =>
      cases hchain : locate? message.ratchetKey ratchet.receivers with
      | some found =>
        obtain ⟨place, chain⟩ := found
        simp only [hkey, hchain] at h
        obtain ⟨hplace, hgap, hplain, rfl⟩ := (decryptKnown_eq_ok_iff ..).mp h
        exact .held place chain hkey hchain hplace hgap hplain
      | none =>
        simp only [hkey, hchain] at h
        obtain ⟨sender, hsender, hgap, hplain, rfl⟩ := (decryptNew_eq_ok_iff ..).mp h
        exact .opened sender hkey hchain hsender hgap hplain
  · intro h
    cases h with
    | skipped key hkey hplain => simp [hkey, decryptSkipped, hplain, bind, Except.bind, pure, Except.pure]
    | held place chain hkey hchain hplace hgap hplain =>
      simp only [hkey, hchain]
      exact (decryptKnown_eq_ok_iff ..).mpr ⟨hplace, hgap, hplain, rfl⟩
    | opened sender hkey hchain hsender hgap hplain =>
      simp only [hkey, hchain]
      exact (decryptNew_eq_ok_iff ..).mpr ⟨sender, hsender, hgap, hplain, rfl⟩

/-- An accepted message decrypts with the key that it names. -/
theorem Accepts.namedKey {ratchet after : Ratchet} {message : OlmMessage} {plain : Bytes}
    (h : ratchet.Accepts message plain after) :
    ∃ key, ratchet.namedKey? message = some key ∧ key.decrypt message = .ok plain := by
  cases h with
  | skipped key hkey hplain => exact ⟨key, by simp [namedKey?, hkey], hplain⟩
  | held place chain hkey hchain hplace hgap hplain =>
    rw [chain.gap_eq message hplace] at hplain
    exact ⟨_, by simp [namedKey?, hkey, hchain, hplace], hplain⟩
  | opened sender hkey hchain hsender hgap hplain =>
    exact ⟨_, by simp [namedKey?, hkey, hchain, hsender], hplain⟩

end Ratchet

end RoomCrypt.Olm
