import RoomCrypt.Proofs.Olm.Bounds
import RoomCrypt.Proofs.Olm.Pickles

/-!
# What a jump records

A message that is ahead of its chain makes the chain jump to the place behind it. The keys of the places in
between are recorded, the last place as the newest key, in front of those that are there already, and the
oldest keys beyond the bound are given up. This holds for all bounds: a jump may pass over more keys than can
be kept, and none may be kept at all.

The keys are written out here as what they are: the chain key is hashed forward once for each place, and the
message key of a place is the other hash of its chain key.
-/

namespace RoomCrypt.Olm

variable [Suite]

/-- A chain key hashed forward a number of times. -/
def ChainKey.hashed (key : Octets 32) (count : ℕ) : Octets 32 :=
  (fun key => Suite.hmac key.bytes [2])^[count] key

/-- The chain key a number of places further is the one hashed as often. -/
theorem ChainKey.ahead_eq (chain : ChainKey) (count : ℕ) :
    chain.ahead count = ⟨hashed chain.key count, chain.index + UInt32.ofNat count⟩ := by
  rw [← index_ahead]
  suffices hkey : (chain.ahead count).key = hashed chain.key count by rw [← hkey]
  induction count with
  | zero => rfl
  | succ count ih =>
    rw [← ahead_next, hashed, Function.iterate_succ_apply']
    exact congrArg (fun key : Octets 32 => Suite.hmac key.bytes [2]) ih

namespace ReceiverChain

/-- The key of a place that is not behind the chain. -/
def keyOf (chain : ReceiverChain) (place : ℕ) : SkippedKey :=
  ⟨chain.ratchetKey,
    (Suite.hmac (ChainKey.hashed chain.chainKey.key (place - chain.index.toNat)).bytes [1]).bytes,
    UInt32.ofNat place⟩

/-- The chain when it stands behind a place. -/
def behind (chain : ReceiverChain) (place : UInt32) : ReceiverChain :=
  ⟨chain.ratchetKey, ChainKey.hashed chain.chainKey.key (place.toNat - chain.index.toNat + 1), place + 1⟩

/-- The keys from the place of the chain to the one before another place, last place first. -/
def keysUpTo (chain : ReceiverChain) (place : UInt32) : List SkippedKey :=
  ((List.range' chain.index.toNat (place.toNat - chain.index.toNat)).map chain.keyOf).reverse

/-- The keys that are passed over are those of the places from that of the chain on. -/
theorem passed_eq (chain : ReceiverChain) (count : ℕ) :
    chain.passed count = (List.range' chain.index.toNat count).map chain.keyOf := by
  rw [passed, List.range'_eq_map_range, List.map_map]
  apply List.map_congr_left
  intro i _
  have hindex : chain.chainKey.index + UInt32.ofNat i = UInt32.ofNat (chain.index.toNat + i) := by
    rw [UInt32.ofNat_add, UInt32.ofNat_toNat]
    rfl
  rw [ChainKey.ahead_eq, hindex]
  simp only [Function.comp_apply, keyOf, ChainKey.messageKey, Nat.add_sub_cancel_left]

/-- A chain that has moved past a message that is not behind it stands behind its place. -/
theorem ahead_gap (chain : ReceiverChain) (message : OlmMessage) (hplace : chain.index ≤ message.index) :
    chain.ahead (chain.gap message + 1) = chain.behind message.index := by
  have hindex : chain.chainKey.index + UInt32.ofNat (chain.gap message + 1) = message.index + 1 := by
    rw [UInt32.ofNat_add, ← UInt32.add_assoc, gap, UInt32.ofNat_toNat]
    change chain.index + (message.index - chain.index) + 1 = message.index + 1
    rw [UInt32.add_comm chain.index, UInt32.sub_add_cancel]
  unfold ahead behind
  rw [ChainKey.ahead_eq, hindex, chain.gap_eq message hplace]

end ReceiverChain

namespace Ratchet

/-- How ratchets come about: they begin, they are read from any bytes and under any bounds, and they are used
in any way. -/
inductive Arises : Ratchet → Prop where
  | begun (origin : Origin) : Arises origin.ratchet
  | restored {config : RatchetConfig} {source rest : Bytes} {ratchet : Ratchet}
      (hread : InPlace.on (readWith config) source = (.ok ratchet, rest)) : Arises ratchet
  | used {ratchet : Ratchet} (this : RatchetUse) (h : Arises ratchet) : Arises (ratchet.use this)

/-- More uses make another one. -/
theorem Arises.useAll {ratchet : Ratchet} (h : ratchet.Arises) (uses : List RatchetUse) :
    (ratchet.useAll uses).Arises := by
  induction uses generalizing ratchet with
  | nil => exact h
  | cons this uses ih => exact ih (.used this h)

/-- The capacity of the store of skipped keys follows the bounds in all uses. -/
theorem stable_capacity :
    Stable (fun _ => True) fun ratchet => ratchet.skipped.capacity = ratchet.config.maxSkippedKeys where
  configured _ _ := rfl
  sent hencrypt h := by
    obtain ⟨-, hskipped, hconfig⟩ := encrypt_frame hencrypt
    rw [hskipped, hconfig, h]
  read haccepts h := by cases haccepts <;> exact h

/-- However a ratchet has come about, it keeps as many skipped keys as its bounds say. -/
theorem Arises.capacity_eq {ratchet : Ratchet} (h : ratchet.Arises) :
    ratchet.skipped.capacity = ratchet.config.maxSkippedKeys := by
  induction h with
  | begun origin => exact (bounded_origin origin).capacity_eq
  | @restored config source rest ratchet hread =>
    obtain ⟨hvalid, -⟩ := (reads config).iff.mp hread
    rw [hvalid.capacity_eq, hvalid.config_eq]
  | used this h ih => exact stable_capacity.becomes (becomes_use _ this) (fun _ _ => trivial) ih

omit [Suite] in
/-- A chain that was found is the first of its ratchet key. -/
theorem split_of_locate? {ratchetKey : Curve25519Key} {chains : List ReceiverChain} {place : ℕ}
    {chain : ReceiverChain} (h : locate? ratchetKey chains = some (place, chain)) :
    ∃ newer older, chains = newer ++ chain :: older ∧ newer.length = place ∧
      ∀ other ∈ newer, other.ratchetKey.element ≠ ratchetKey.element := by
  induction chains generalizing place with
  | nil => simp [locate?] at h
  | cons first rest ih =>
    by_cases hfirst : first.belongsTo ratchetKey
    · simp only [locate?, hfirst, if_true, Option.some.injEq, Prod.mk.injEq] at h
      obtain ⟨rfl, rfl⟩ := h
      exact ⟨[], rest, rfl, rfl, by simp⟩
    · simp only [locate?, hfirst, Bool.false_eq_true, if_false, Option.map_eq_some_iff, Prod.mk.injEq,
        Prod.exists] at h
      obtain ⟨i, found, h, rfl, rfl⟩ := h
      obtain ⟨newer, older, rfl, rfl, hnewer⟩ := ih h
      refine ⟨first :: newer, older, rfl, rfl, ?_⟩
      rw [ReceiverChain.belongsTo_iff] at hfirst
      exact List.forall_mem_cons.mpr ⟨hfirst, hnewer⟩

/-- A message is read with a skipped key: the newest key of its name goes, and nothing else changes. -/
def TakesKey (ratchet : Ratchet) (message : OlmMessage) (after : Ratchet) : Prop :=
  ∃ newer entry older, ratchet.skipped.keys = newer ++ entry :: older ∧ entry.name = message.name ∧
    (∀ other ∈ newer, other.name ≠ message.name) ∧ after.skipped.keys = newer ++ older ∧
    after.skipped.capacity = ratchet.skipped.capacity ∧ after = { ratchet with skipped := after.skipped }

/-- A chain that is held moves behind a message: the first chain of the ratchet key, and no other one. -/
def MovesHeld (ratchet : Ratchet) (message : OlmMessage) (chain : ReceiverChain) (after : Ratchet) : Prop :=
  ∃ newer older, ratchet.receivers = newer ++ chain :: older ∧
    chain.ratchetKey.element = message.ratchetKey.element ∧
    (∀ other ∈ newer, other.ratchetKey.element ≠ message.ratchetKey.element) ∧
    after.receivers = newer ++ chain.behind message.index :: older ∧
    after.rootKey = ratchet.rootKey ∧ after.sender = ratchet.sender

/-- A new chain that starts at place 0 moves behind a message: it comes first, and the oldest chains beyond
the bound are given up. -/
def OpensChain (ratchet : Ratchet) (message : OlmMessage) (chain : ReceiverChain) (after : Ratchet) : Prop :=
  (∀ other ∈ ratchet.receivers, other.ratchetKey.element ≠ message.ratchetKey.element) ∧
    ∃ sender, ratchet.sender = some sender ∧ chain.ratchetKey = message.ratchetKey ∧ chain.index = 0 ∧
      (after.rootKey, chain.chainKey) = ratchet.rootKey.step sender.keyPair message.ratchetKey ∧
      after.receivers = (chain.behind message.index :: ratchet.receivers).take ratchet.config.maxReceiverChains ∧
      after.sender = none

/-- A chain jumps to the place behind a message, and the keys of the places in between are recorded. -/
structure Jumps (ratchet : Ratchet) (message : OlmMessage) (chain : ReceiverChain) (after : Ratchet) : Prop where
  unkept : ∀ key ∈ ratchet.skipped.keys, key.name ≠ message.name
  place_le : chain.index.toNat ≤ message.index.toNat
  gap_le : message.index.toNat - chain.index.toNat ≤ ratchet.config.maxGap.toNat
  chains : ratchet.MovesHeld message chain after ∨ ratchet.OpensChain message chain after
  keys_eq : after.skipped.keys =
    (chain.keysUpTo message.index ++ ratchet.skipped.keys).take ratchet.config.maxSkippedKeys
  capacity_eq : after.skipped.capacity = ratchet.skipped.capacity
  config_eq : after.config = ratchet.config

omit [Suite] in
/-- Taking a skipped key out of the store leaves the others in their order. -/
theorem takesKey_remove {ratchet : Ratchet} {message : OlmMessage} {key : MessageKey}
    (hkey : ratchet.skipped.find? message.ratchetKey message.index = some key) :
    ratchet.TakesKey message
      { ratchet with skipped := ratchet.skipped.remove message.ratchetKey message.index } := by
  obtain ⟨found, hmem, hname, -⟩ := SkippedKeys.mem_of_find? hkey
  have hfound : found.isFor message.ratchetKey message.index = true := (found.isFor_iff message).mpr hname
  obtain ⟨entry, newer, older, hnewer, hentry, hkeys, hafter⟩ :=
    List.exists_of_eraseP (p := fun key => key.isFor message.ratchetKey message.index) hmem hfound
  refine ⟨newer, entry, older, hkeys, (entry.isFor_iff message).mp hentry, ?_, hafter, rfl, rfl⟩
  intro other hother hsame
  exact hnewer other hother ((other.isFor_iff message).mpr hsame)

/-- The keys that a move of a chain records, as they stand in the store. -/
theorem keys_recordAll {ratchet : Ratchet} (harises : ratchet.Arises) {message : OlmMessage}
    {chain : ReceiverChain} (hplace : chain.index ≤ message.index) :
    (ratchet.skipped.recordAll (chain.passed (chain.gap message))).keys =
      (chain.keysUpTo message.index ++ ratchet.skipped.keys).take ratchet.config.maxSkippedKeys := by
  unfold ReceiverChain.keysUpTo
  rw [← harises.capacity_eq, ← chain.gap_eq message hplace, ← chain.passed_eq]
  rfl

/-- Acceptance on a chain that is held is a jump of that chain. -/
theorem jumps_held {ratchet : Ratchet} (harises : ratchet.Arises) {message : OlmMessage} {place : ℕ}
    {chain : ReceiverChain} (hkey : ratchet.skipped.find? message.ratchetKey message.index = none)
    (hchain : locate? message.ratchetKey ratchet.receivers = some (place, chain))
    (hplace : chain.index ≤ message.index)
    (hgap : message.index - chain.index ≤ ratchet.config.maxGap) :
    ratchet.Jumps message chain (ratchet.afterHeld place chain message) where
  unkept := (SkippedKeys.find?_eq_none_iff _ message).mp hkey
  place_le := UInt32.le_iff_toNat_le.mp hplace
  gap_le := by
    rw [← chain.gap_eq message hplace]
    exact UInt32.le_iff_toNat_le.mp hgap
  chains := by
    obtain ⟨newer, older, hreceivers, hlength, hnewer⟩ := split_of_locate? hchain
    obtain ⟨-, hbelongs⟩ := getElem?_of_locate? hchain
    refine Or.inl ⟨newer, older, hreceivers, (chain.belongsTo_iff _).mp hbelongs, hnewer, ?_, rfl, rfl⟩
    change ratchet.receivers.set place _ = _
    rw [hreceivers, ← hlength, chain.ahead_gap message hplace]
    simp
  keys_eq := keys_recordAll harises hplace
  capacity_eq := rfl
  config_eq := rfl

/-- Acceptance on a new chain is a jump of that chain from place 0. -/
theorem jumps_opened {ratchet : Ratchet} (harises : ratchet.Arises) {message : OlmMessage}
    {sender : SenderChain} (hkey : ratchet.skipped.find? message.ratchetKey message.index = none)
    (hchain : locate? message.ratchetKey ratchet.receivers = none) (hsender : ratchet.sender = some sender)
    (hgap : message.index ≤ ratchet.config.maxGap) :
    ratchet.Jumps message (ratchet.freshChain sender message.ratchetKey) (ratchet.afterOpened sender message) where
  unkept := (SkippedKeys.find?_eq_none_iff _ message).mp hkey
  place_le := Nat.zero_le _
  gap_le := UInt32.le_iff_toNat_le.mp hgap
  chains := by
    refine Or.inr ⟨locate?_eq_none_iff_element.mp hchain, sender, hsender, rfl, rfl, rfl, ?_, rfl⟩
    rw [← ReceiverChain.ahead_gap _ message UInt32.zero_le, ratchet.gap_freshChain sender message]
    rfl
  keys_eq := by
    unfold afterOpened
    rw [← ratchet.gap_freshChain sender message]
    exact keys_recordAll harises UInt32.zero_le
  capacity_eq := rfl
  config_eq := rfl

end Ratchet

/-- A ratchet, whatever its bounds are, reads a message with a skipped key and gives up that key alone, or a
chain jumps to the place behind the message: a chain that it holds or a new one at place 0, not further than
is allowed. The keys in between are recorded in front of the other skipped keys, the last place first, as far
as there is room. Recording them one by one as the call in place does comes to the same. -/
theorem jump_records_between {ratchet : Ratchet} (harises : ratchet.Arises) {message : OlmMessage}
    {plain : Bytes} {after : Ratchet} (hdecrypt : ratchet.decrypt message = .ok (plain, after)) :
    (Ratchet.decryptInPlace message).on ratchet = (.ok plain, after) ∧
      (ratchet.TakesKey message after ∨ ∃ chain, ratchet.Jumps message chain after) := by
  refine ⟨?_, ?_⟩
  · rw [Ratchet.on_decryptInPlace, hdecrypt]
    rfl
  · cases (Ratchet.decrypt_eq_ok_iff ..).mp hdecrypt with
    | skipped key hkey hplain => exact Or.inl (Ratchet.takesKey_remove hkey)
    | held place chain hkey hchain hplace hgap hplain =>
      exact Or.inr ⟨chain, Ratchet.jumps_held harises hkey hchain hplace hgap⟩
    | opened sender hkey hchain hsender hgap hplain =>
      exact Or.inr ⟨_, Ratchet.jumps_opened harises hkey hchain hsender hgap⟩

end RoomCrypt.Olm

namespace RoomCrypt.Olm

open scoped Suite.Evaluation

/-- A side that keeps a single skipped key. -/
def narrowRatchet : Ratchet :=
  (Origin.responder [7] boundsKey).ratchet.use (.configure ⟨1, 1, 10⟩)

/-- What a jump over two places leaves of it. -/
def narrowJumped : Ratchet :=
  narrowRatchet.use (.decrypt boundsFirst)

/-- Of the keys of the two places, the one of the last place is kept. -/
theorem jump_records_between_narrow :
    narrowRatchet.Arises ∧ narrowRatchet.decrypt boundsFirst = .ok ([1], narrowJumped) ∧
      narrowJumped.skipped.keys.map SkippedKey.name = [(boundsKey.element, 1)] ∧
      ∃ chain, narrowRatchet.Jumps boundsFirst chain narrowJumped := by
  have harises : narrowRatchet.Arises := .used _ (.begun _)
  have hdecrypt : narrowRatchet.decrypt boundsFirst = .ok ([1], narrowJumped) := by decide +kernel
  have hkeys : narrowJumped.skipped.keys.map SkippedKey.name = [(boundsKey.element, 1)] := by decide +kernel
  have hnone : narrowRatchet.skipped.keys = [] := by decide +kernel
  obtain ⟨-, ⟨newer, entry, older, hsplit, -⟩ | hjumps⟩ := jump_records_between harises hdecrypt
  · rw [hnone] at hsplit
    exact absurd hsplit.symm (List.append_ne_nil_of_right_ne_nil newer (List.cons_ne_nil entry older))
  · exact ⟨harises, hdecrypt, hkeys, hjumps⟩

end RoomCrypt.Olm
