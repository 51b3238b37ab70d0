import RoomCrypt.Proofs.Olm.Loading

/-!
# Pickles that were cut off

A pickle has no end of its own: each field takes a number of bytes, and a list says how many elements come. So wherever
a pickle is cut off, the first field that is not there as a whole finds too few bytes, and that is the answer. No check
gets in its way: the fields before the cut are those of a value that can be read, and what is checked of a field is
checked when all of it is there.
-/

namespace RoomCrypt

variable {α β : Type}

namespace Unpickler

/-- A byte string ends before a step of reading has what it takes, and the step says so. -/
def EndsEarly (step : Unpickler α) (source : Bytes) : Prop :=
  ∃ needed available left, available < needed ∧ InPlace.on step source = (.error (.truncated needed available), left)

/-- A byte string ends early wherever it is cut off. -/
def CutShort (step : Unpickler α) (form : Bytes) : Prop :=
  ∀ count < form.length, EndsEarly step (form.take count)

/-- Where a byte string ends early, no value is read from its front, and none from all of it. -/
theorem EndsEarly.exists_truncated {read : Unpickler α} {source : Bytes} (h : EndsEarly read source) :
    ∃ needed available, available < needed ∧ decodeWith read source = .error (.truncated needed available) ∧
      decodeAllWith read source = .error (.truncated needed available) := by
  obtain ⟨needed, available, left, hshort, herror⟩ := h
  have hfront := decodeWith_of_error herror
  refine ⟨needed, available, hshort, hfront, ?_⟩
  unfold decodeAllWith
  rw [hfront]
  rfl

section

variable {step : Unpickler α} {form : α → Bytes} {valid : α → Prop} {value : α}

/-- If the bytes end early, what was to come next does not matter. -/
theorem EndsEarly.on_bind {source : Bytes} (h : EndsEarly step source) (next : α → Unpickler β) :
    EndsEarly (step >>= next) source := by
  obtain ⟨needed, available, left, hshort, herror⟩ := h
  refine ⟨needed, available, left, hshort, ?_⟩
  rw [InPlace.on_bind, herror]

/-- Where there is nothing, nothing is cut off. -/
theorem cutShort_nil (step : Unpickler α) : CutShort step [] := by
  intro count hcount
  exact absurd hcount (Nat.not_lt_zero count)

/-- Either the cut falls into a field, or the field is read and the cut falls into what comes next. -/
theorem CutShort.bind {next : α → Unpickler β} {more : Bytes} (h : CutShort step (form value))
    (hback : ReadsBack step form valid) (hvalid : valid value) (hnext : CutShort (next value) more) :
    CutShort (step >>= next) (form value ++ more) := by
  intro count hcount
  by_cases hfirst : count < (form value).length
  · rw [List.take_append_of_le_length (Nat.le_of_lt hfirst)]
    exact (h count hfirst).on_bind next
  · have hwhole : (form value).length ≤ count := Nat.not_lt.mp hfirst
    have hlater : count - (form value).length < more.length := by
      rw [List.length_append] at hcount
      omega
    rw [List.take_append, List.take_of_length_le hwhole]
    obtain ⟨needed, available, left, hshort, herror⟩ := hnext _ hlater
    refine ⟨needed, available, left, hshort, ?_⟩
    rw [hback.on_bind value hvalid]
    exact herror

/-- A value that is made of one field is cut off as the field is. -/
theorem CutShort.map (h : CutShort step (form value)) (hback : ReadsBack step form valid) (hvalid : valid value)
    (make : α → β) : CutShort (make <$> step) (form value) := by
  have hmade : CutShort (step >>= fun a => pure (make a)) (form value ++ []) := h.bind hback hvalid (cutShort_nil _)
  rwa [List.append_nil] at hmade

/-- A value that is made of two fields is cut off in one of them. -/
theorem CutShort.pair {γ : Type} {second : Unpickler β} {after : β → Bytes} {allowed : β → Prop} {other : β}
    (h : CutShort step (form value)) (hback : ReadsBack step form valid) (hvalid : valid value)
    (hsecond : CutShort second (after other)) (hafter : ReadsBack second after allowed) (hallowed : allowed other)
    (make : α → β → γ) : CutShort (do let a ← step; let b ← second; pure (make a b)) (form value ++ after other) :=
  h.bind hback hvalid (hsecond.map hafter hallowed (make value))

/-- A value inside of another one is cut off as it is alone. -/
theorem CutShort.nested {bytes : Bytes} (h : CutShort step bytes) : CutShort (nested step) bytes := by
  intro count hcount
  obtain ⟨needed, available, left, hshort, herror⟩ := h count hcount
  refine ⟨needed, available, bytes.take count, hshort, ?_⟩
  rw [on_nested, decodeWith_of_error herror]
  rfl

end

/-- Bytes of a fixed number are cut off where there are fewer. -/
theorem cutShort_octets {n : ℕ} (taken : Octets n) : CutShort (octets n) taken.bytes := by
  intro count hcount
  rw [taken.length_eq] at hcount
  have hlength : (taken.bytes.take count).length = count := by
    rw [List.length_take, taken.length_eq, Nat.min_eq_left (Nat.le_of_lt hcount)]
  have hshort : (taken.bytes.take count).length < n := by
    rw [hlength]
    exact hcount
  refine ⟨n, (taken.bytes.take count).length, taken.bytes.take count, hshort, ?_⟩
  rw [on_octets, Octets.splitAt?_eq_none_iff.mpr hshort]
  rfl

/-- So is a number. -/
theorem cutShort_uint32 (n : UInt32) : CutShort uint32 (Bytes.ofUInt32 n) :=
  (cutShort_octets ⟨Bytes.ofUInt32 n, rfl⟩).map (reads_octets 4).back trivial Octets.toUInt32

/-- And so is a truth value. -/
theorem cutShort_bool (b : Bool) : CutShort bool [if b then 1 else 0] :=
  fun count hcount => (cutShort_octets ⟨[if b then 1 else 0], rfl⟩ count hcount).on_bind _

section

variable [OfPickle α] {form : α → Bytes} {valid : α → Prop} {items : List α}

/-- A value inside of another one is cut off as it is alone. -/
theorem CutShort.value {bytes : Bytes} (h : CutShort (OfPickle.read : Unpickler α) bytes) :
    CutShort (Unpickler.value α) bytes :=
  h.nested

/-- Of values that come one after the other, the first ones are read, and the cut falls into one of them. -/
theorem cutShort_values (hread : Reads (OfPickle.read : Unpickler α) form valid)
    (hitems : ∀ item ∈ items, valid item ∧ CutShort (OfPickle.read : Unpickler α) (form item)) :
    CutShort (values α items.length) (items.flatMap form) := by
  induction items with
  | nil => exact cutShort_nil _
  | cons item items ih =>
    obtain ⟨⟨hvalid, hitem⟩, hothers⟩ := List.forall_mem_cons.mp hitems
    have hback := hread.value.back.values items.length
    rw [List.flatMap_cons]
    exact hitem.value.bind hread.value.back hvalid
      ((ih hothers).map hback ⟨rfl, fun other hother => (hothers other hother).1⟩ (item :: ·))

/-- The number of the elements of a list promises them, whether they come or not. -/
theorem cutShort_list {max : ℕ} (hread : Reads (OfPickle.read : Unpickler α) form valid)
    (hvalid : ListValid max valid items)
    (hitems : ∀ item ∈ items, valid item → CutShort (OfPickle.read : Unpickler α) (form item)) :
    CutShort (list α max) (listForm form items) := by
  have hcount : (UInt32.ofNat items.length).toNat = items.length := UInt32.toNat_ofNat_of_lt' hvalid.length_lt
  refine (cutShort_uint32 (UInt32.ofNat items.length)).bind reads_uint32.back trivial ?_
  rw [hcount, if_neg (Nat.not_lt.mpr hvalid.length_le)]
  exact cutShort_values hread fun item hitem =>
    ⟨hvalid.valid item hitem, hitems item hitem (hvalid.valid item hitem)⟩

end

end Unpickler

open Unpickler

theorem Curve25519Key.cutShort (key : Curve25519Key) :
    CutShort (OfPickle.read : Unpickler Curve25519Key) key.octets.bytes :=
  (cutShort_octets key.octets).map (reads_octets 32).back trivial Curve25519Key.mk

theorem Ed25519Key.cutShort [Suite] (key : Ed25519Key) :
    CutShort (OfPickle.read : Unpickler Ed25519Key) key.octets.bytes :=
  fun count hcount => (cutShort_octets key.octets count hcount).on_bind _

namespace Olm

theorem ChainKey.cutShort (chain : ChainKey) : CutShort (OfPickle.read : Unpickler ChainKey) chain.form :=
  (cutShort_octets chain.key).pair (reads_octets 32).back trivial (cutShort_uint32 chain.index) reads_uint32.back
    trivial ChainKey.mk

theorem MessageKey.cutShort {key : MessageKey} (hlength : key.key.length = 32) :
    CutShort (OfPickle.read : Unpickler MessageKey) key.form := by
  unfold form
  rw [if_pos hlength]
  exact (cutShort_octets ⟨key.key, hlength⟩).pair (reads_octets 32).back trivial (cutShort_uint32 key.index)
    reads_uint32.back trivial fun octets index => MessageKey.mk octets.bytes index

theorem SkippedKey.cutShort {key : SkippedKey} (hlength : key.messageKey.key.length = 32) :
    CutShort (OfPickle.read : Unpickler SkippedKey) key.form :=
  key.ratchetKey.cutShort.value.pair Curve25519Key.reads.value.back trivial (MessageKey.cutShort hlength).value
    MessageKey.reads.value.back hlength SkippedKey.mk

theorem ReceiverChain.cutShort (chain : ReceiverChain) :
    CutShort (OfPickle.read : Unpickler ReceiverChain) chain.form :=
  chain.ratchetKey.cutShort.value.pair Curve25519Key.reads.value.back trivial chain.chainKey.cutShort.value
    ChainKey.reads.value.back trivial ReceiverChain.mk

theorem RootKey.cutShort (root : RootKey) : CutShort (OfPickle.read : Unpickler RootKey) root.key.bytes :=
  (cutShort_octets root.key).map (reads_octets 32).back trivial RootKey.mk

variable [Suite]

/-- The two keys are compared when both of them are there. -/
theorem RatchetKeyPair.cutShort (pair : RatchetKeyPair) :
    CutShort (OfPickle.read : Unpickler RatchetKeyPair) pair.form :=
  pair.publicKey.cutShort.value.bind Curve25519Key.reads.value.back trivial
    fun count hcount => (cutShort_octets pair.secret.octets count hcount).on_bind _

theorem SenderChain.cutShort {chain : SenderChain} (hpair : chain.keyPair.IsPair) :
    CutShort (OfPickle.read : Unpickler SenderChain) chain.form :=
  chain.keyPair.cutShort.value.pair RatchetKeyPair.reads.value.back hpair chain.chainKey.cutShort.value
    ChainKey.reads.value.back trivial SenderChain.mk

/-- A ratchet is cut off in its root key or in one of its lists. -/
theorem Ratchet.Restorable.cutShort {config : RatchetConfig} {ratchet : Ratchet} (h : ratchet.Restorable config) :
    CutShort (Ratchet.readWith config) ratchet.form := by
  have hsender : ListValid 1 (fun chain => chain.keyPair.IsPair) ratchet.sender.toList :=
    ⟨Option.length_toList_le, Nat.lt_of_le_of_lt Option.length_toList_le (by decide),
      fun chain hchain => h.sender_pair chain (Option.mem_toList.mp hchain)⟩
  have hreceivers : ListValid config.maxReceiverChains (fun _ => True) ratchet.receivers :=
    ⟨h.receivers_le, h.receivers_lt, fun _ _ => trivial⟩
  have hskipped : ListValid config.maxSkippedKeys (fun key => key.messageKey.key.length = 32) ratchet.skipped.keys :=
    ⟨h.skipped_le, h.skipped_lt, h.skipped_length⟩
  have hsenderCut := cutShort_list SenderChain.reads hsender fun _ _ hpair => SenderChain.cutShort hpair
  have hreceiversCut := cutShort_list ReceiverChain.reads hreceivers fun chain _ _ => chain.cutShort
  have hskippedCut := cutShort_list SkippedKey.reads hskipped fun _ _ hlength => SkippedKey.cutShort hlength
  unfold readWith form
  simp only [List.append_assoc]
  refine ratchet.rootKey.cutShort.value.bind RootKey.reads.value.back trivial ?_
  refine hsenderCut.bind (SenderChain.reads.list 1).back hsender ?_
  exact hreceiversCut.pair (ReceiverChain.reads.list _).back hreceivers hskippedCut (SkippedKey.reads.list _).back
    hskipped _

/-- A channel is cut off in its version, its flag, one of its keys or its ratchet. -/
theorem Channel.cutShort {config : RatchetConfig} {channel : Channel} (h : channel.ratchet.Restorable config) :
    CutShort (Channel.readWith config) channel.form := by
  have hkey := Curve25519Key.reads.value.back
  unfold readWith form
  simp only [List.append_assoc]
  refine (cutShort_uint32 pickleVersion).bind reads_uint32.back trivial ?_
  simp only [ne_eq, not_true_eq_false, if_false]
  refine (cutShort_bool channel.received).bind reads_bool.back trivial ?_
  refine channel.keys.identity.cutShort.value.bind hkey trivial ?_
  refine channel.keys.base.cutShort.value.bind hkey trivial ?_
  refine channel.keys.oneTime.cutShort.value.bind hkey trivial ?_
  exact h.cutShort.nested.map (Ratchet.reads config).nested.back h _

end Olm

namespace Megolm

theorem Ratchet.cutShort (ratchet : Ratchet) : CutShort (OfPickle.read : Unpickler Ratchet) ratchet.form :=
  (cutShort_octets ratchet.bytes).pair (reads_octets 128).back trivial (cutShort_uint32 ratchet.index)
    reads_uint32.back trivial Ratchet.ofBytes

/-- A receiver is cut off in one of its fields. Its ratchets are compared when both of them are there. -/
theorem Receiver.Restorable.cutShort [Suite] {receiver : Receiver} (h : receiver.Restorable) :
    CutShort (OfPickle.read : Unpickler Receiver) receiver.form := by
  have hratchet := Ratchet.reads.value.back
  unfold OfPickle.read instOfPickle form
  simp only [List.append_assoc]
  refine (cutShort_uint32 pickleVersion).bind reads_uint32.back trivial ?_
  simp only [ne_eq, not_true_eq_false, if_false]
  refine receiver.initial.cutShort.value.bind hratchet trivial ?_
  refine receiver.latest.cutShort.value.bind hratchet trivial ?_
  rw [if_neg (UInt32.not_lt.mpr h.initial_le)]
  refine receiver.signingKey.cutShort.value.bind Ed25519Key.reads.value.back h.signingKey_point ?_
  exact (cutShort_bool receiver.verified).map reads_bool.back trivial _

end Megolm

variable [Suite]

open Olm Megolm

/-- The bounds of a channel are the usual ones or the last ones that were given, and if these can be counted in 32
bits, so can its lists. -/
theorem Olm.Channel.countable_useAll (origin : ChannelOrigin) {uses : List RatchetUse}
    (hbounds : ∀ config ∈ RatchetUse.configs uses,
      config.maxReceiverChains < UInt32.size ∧ config.maxSkippedKeys < UInt32.size) :
    (origin.channel.useAll uses).ratchet.Countable := by
  rw [Channel.ratchet_useAll, origin.ratchet_channel]
  have hbounded : (origin.origin.ratchet.useAll uses).Bounded :=
    Ratchet.stable_bounded.useAll (Ratchet.bounded_origin _) fun _ _ => trivial
  have hconfig : (origin.origin.ratchet.useAll uses).config ∈ {} :: RatchetUse.configs uses := by
    rw [Ratchet.config_useAll, Ratchet.config_origin]
    exact List.getLastD_mem_cons
  obtain ⟨hreceivers, hskipped⟩ : (origin.origin.ratchet.useAll uses).config.maxReceiverChains < UInt32.size ∧
      (origin.origin.ratchet.useAll uses).config.maxSkippedKeys < UInt32.size := by
    rcases List.mem_cons.mp hconfig with husual | hgiven
    · rw [husual]
      decide
    · exact hbounds _ hgiven
  exact ⟨Nat.lt_of_le_of_lt hbounded.receivers_le hreceivers, Nat.lt_of_le_of_lt hbounded.skipped_le hskipped⟩

/-- A pickle that was cut off anywhere is reported as truncated: more bytes were needed than were left. That holds for a
channel under its own bounds, whatever was done with it, as long as its lists can be counted in 32 bits, so that it has
a pickle. They can be if no bounds were given that cannot, and so they always can if none were given. And it holds for
a receiver, whatever has come to it; its signing key has to be a point of the curve, as that of every session key is
that can be read or made. -/
theorem cut_pickle_is_truncated (origin : ChannelOrigin) (uses : List RatchetUse) (source : ReceiverOrigin)
    (messages : List MegolmMessage) :
    let channel := origin.channel.useAll uses
    let receiver := source.receiver.afterMessages messages
    ((∀ config ∈ RatchetUse.configs uses,
        config.maxReceiverChains < UInt32.size ∧ config.maxSkippedKeys < UInt32.size) → channel.ratchet.Countable) ∧
      (channel.ratchet.Countable → ∀ count < (toPickle channel).length, ∃ needed available, available < needed ∧
        decodeWith (Channel.readWith channel.ratchet.config) ((toPickle channel).take count) =
          .error (.truncated needed available) ∧
        Channel.ofPickleWith? channel.ratchet.config ((toPickle channel).take count) =
          .error (.truncated needed available)) ∧
      (Suite.isPoint source.receiver.signingKey = true → ∀ count < (toPickle receiver).length,
        ∃ needed available, available < needed ∧
          ofPickle? Receiver ((toPickle receiver).take count) = .error (.truncated needed available) ∧
          ofWholePickle? Receiver ((toPickle receiver).take count) = .error (.truncated needed available)) := by
  intro channel receiver
  refine ⟨Channel.countable_useAll origin, fun hcount count hcut => ?_, fun hpoint count hcut => ?_⟩
  · have hrestorable := Channel.restorable_useAll origin uses hcount.receivers_lt hcount.skipped_lt
    rw [(channel.hasForm hcount.receivers_lt hcount.skipped_lt).toPickle_eq] at hcut ⊢
    exact (Channel.cutShort hrestorable count hcut).exists_truncated
  · have hrestorable := Receiver.restorable_afterMessages source hpoint messages
    rw [receiver.hasForm.toPickle_eq] at hcut ⊢
    exact (hrestorable.cutShort count hcut).exists_truncated

end RoomCrypt

namespace RoomCrypt

open Olm Megolm
open scoped Suite.Evaluation

/-- The pickle of the channel that has answered is cut inside of the second skipped key, which its count had promised,
and that of the receiver in front of its flag. -/
theorem cut_pickle_is_truncated_answered :
    answeredChannel.ratchet.Countable ∧ (toPickle answeredChannel).length = 449 ∧
      Suite.isPoint movedReceiver.signingKey = true ∧ (toPickle movedReceiver).length = 301 ∧
      (∃ needed available, available < needed ∧
        Channel.ofPickleWith? {} ((toPickle answeredChannel).take 400) = .error (.truncated needed available)) ∧
      ∃ needed available, available < needed ∧
        ofWholePickle? Receiver ((toPickle movedReceiver).take 300) = .error (.truncated needed available) := by
  obtain ⟨hconfig, -, -, hsize⟩ := answeredChannel_counts
  have hreceiver : (toPickle movedReceiver).length = 301 := by
    rw [movedReceiver.hasForm.toPickle_eq, ← movedReceiver.hasForm.size_eq]
    rfl
  obtain ⟨hcountable, hcut, hcutReceiver⟩ :=
    cut_pickle_is_truncated (.inbound ⟨boundsKey, boundsKey, boundsKey⟩ [7] boundsKey)
      [.decrypt boundsFirst, .encrypt [2] default] (.exported cacheSession.exportedKey) [cacheMessage 3, cacheForged]
  have hcount : answeredChannel.ratchet.Countable := hcountable (by decide)
  have hform := answeredChannel.hasForm hcount.receivers_lt hcount.skipped_lt
  have hchannel : (toPickle answeredChannel).length = 449 := by
    rw [hform.toPickle_eq, ← hform.size_eq, hsize]
  obtain ⟨needed, available, hshort, -, hwhole⟩ := hcut hcount 400 (hchannel.symm ▸ by decide)
  obtain ⟨needed', available', hshort', -, hwhole'⟩ := hcutReceiver rfl 300 (hreceiver.symm ▸ by decide)
  exact ⟨hcount, hchannel, rfl, hreceiver, ⟨needed, available, hshort, hconfig ▸ hwhole⟩,
    ⟨needed', available', hshort', hwhole'⟩⟩

end RoomCrypt
