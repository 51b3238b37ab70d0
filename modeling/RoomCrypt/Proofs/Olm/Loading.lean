import RoomCrypt.Proofs.Olm.Restored

/-!
# Channels loaded under other bounds

A pickle says nothing of bounds. A channel that is loaded gets those of the reader: if its lists keep to them,
it is the channel that was pickled, under these bounds, and if one of them does not, the channel is refused.
-/

namespace RoomCrypt.Olm

namespace Ratchet

/-- The lists keep to some bounds. -/
def FitsIn (ratchet : Ratchet) (config : RatchetConfig) : Prop :=
  ratchet.receivers.length ≤ config.maxReceiverChains ∧ ratchet.skipped.keys.length ≤ config.maxSkippedKeys

instance (ratchet : Ratchet) (config : RatchetConfig) : Decidable (ratchet.FitsIn config) :=
  inferInstanceAs (Decidable (_ ∧ _))

/-- The lists can be counted in 32 bits. A ratchet of which that is not true cannot be pickled. -/
structure Countable (ratchet : Ratchet) : Prop where
  receivers_lt : ratchet.receivers.length < UInt32.size
  skipped_lt : ratchet.skipped.keys.length < UInt32.size

/-- If they fit, the lists stay whole under the bounds. -/
theorem FitsIn.form_withConfig {ratchet : Ratchet} {config : RatchetConfig} (h : ratchet.FitsIn config) :
    (ratchet.withConfig config).form = ratchet.form := by
  have hreceivers : (ratchet.withConfig config).receivers = ratchet.receivers := List.take_of_length_le h.1
  have hskipped : (ratchet.withConfig config).skipped.keys = ratchet.skipped.keys := List.take_of_length_le h.2
  unfold form
  rw [hreceivers, hskipped]
  rfl

variable [Suite]

/-- The keys are such as a pickle has. -/
structure Sound (ratchet : Ratchet) : Prop where
  paired : Paired ratchet
  skipped_length : ∀ key ∈ ratchet.skipped.keys, key.messageKey.key.length = 32

/-- That withstands all uses. -/
theorem stable_sound : Stable (fun _ => True) Sound where
  configured hallowed h :=
    ⟨stable_paired.configured hallowed h.paired, fun key hkey => h.skipped_length key (List.mem_of_mem_take hkey)⟩
  sent hencrypt h :=
    ⟨stable_paired.sent hencrypt h.paired, (encrypt_frame hencrypt).2.1 ▸ h.skipped_length⟩
  read haccepts h := ⟨stable_paired.read haccepts h.paired, haccepts.skipped_length h.skipped_length⟩

section

variable {ratchet : Ratchet} {config : RatchetConfig}

/-- A ratchet that can be pickled can be restored under any bounds that it is given. -/
theorem Sound.restorable_withConfig (h : ratchet.Sound) (hcount : ratchet.Countable) (config : RatchetConfig) :
    (ratchet.withConfig config).Restorable config where
  config_eq := rfl
  capacity_eq := rfl
  receivers_le := List.length_take_le _ _
  receivers_lt := Nat.lt_of_le_of_lt (List.length_take_le' _ _) hcount.receivers_lt
  skipped_le := List.length_take_le _ _
  skipped_lt := Nat.lt_of_le_of_lt (List.length_take_le' _ _) hcount.skipped_lt
  sender_pair := h.paired
  skipped_length key hkey := h.skipped_length key (List.mem_of_mem_take hkey)

/-- A ratchet that does not fit is refused, at its first list that is too long. -/
theorem on_readWith_of_not_fits (h : ratchet.Sound) (hcount : ratchet.Countable) (hfits : ¬ ratchet.FitsIn config)
    (rest : Bytes) :
    ∃ left, InPlace.on (readWith config) (ratchet.form ++ rest) = (.error (.malformed .tooManyElements), left) := by
  have hsender : Unpickler.ListValid 1 (fun chain => chain.keyPair.IsPair) ratchet.sender.toList :=
    ⟨Option.length_toList_le, Nat.lt_of_le_of_lt Option.length_toList_le (by decide),
      fun chain hchain => h.paired chain (Option.mem_toList.mp hchain)⟩
  unfold readWith form
  simp only [List.append_assoc]
  rw [RootKey.reads.value.back.on_bind _ trivial, (SenderChain.reads.list 1).back.on_bind _ hsender]
  by_cases hreceivers : ratchet.receivers.length ≤ config.maxReceiverChains
  · have hskipped : config.maxSkippedKeys < ratchet.skipped.keys.length :=
      Nat.lt_of_not_le fun hle => hfits ⟨hreceivers, hle⟩
    have hexceeds := Unpickler.on_list_of_exceeds SkippedKey.form hcount.skipped_lt hskipped rest
    rw [(ReceiverChain.reads.list config.maxReceiverChains).back.on_bind _
      ⟨hreceivers, hcount.receivers_lt, fun _ _ => trivial⟩, InPlace.on_bind, hexceeds]
    exact ⟨_, rfl⟩
  · have hexceeds := Unpickler.on_list_of_exceeds ReceiverChain.form hcount.receivers_lt
      (Nat.lt_of_not_le hreceivers) (listForm SkippedKey.form ratchet.skipped.keys ++ rest)
    rw [InPlace.on_bind, hexceeds]
    exact ⟨_, rfl⟩

end

end Ratchet

variable [Suite]

namespace Channel

/-- How channels come about: they begin, they are restored from any bytes and under any bounds, and they are
used in any way. -/
inductive Arises : Channel → Prop where
  | begun (origin : ChannelOrigin) : Arises origin.channel
  | restored {config : RatchetConfig} {source : Bytes} {channel : Channel}
      (hread : ofPickleWith? config source = .ok channel) : Arises channel
  | used {channel : Channel} (this : RatchetUse) (h : Arises channel) : Arises (channel.use this)

/-- The keys of the agreement stay in all uses. -/
theorem keys_use (channel : Channel) (this : RatchetUse) : (channel.use this).keys = channel.keys := by
  cases this with
  | configure config => rfl
  | encrypt plain entropy => rfl
  | decrypt message =>
    simp only [use, on_decryptInPlace, decrypt]
    cases channel.ratchet.decrypt message with
    | error e => rfl
    | ok result => rfl

/-- However a channel has come about, its keys are such as a pickle has. -/
theorem Arises.sound {channel : Channel} (h : channel.Arises) : channel.ratchet.Sound := by
  induction h with
  | begun origin =>
    rw [origin.ratchet_channel]
    exact ⟨origin.paired, (Ratchet.bounded_origin _).skipped_length⟩
  | restored hread =>
    obtain ⟨hvalid, -⟩ := (reads _).of_decodeAllWith hread
    exact ⟨hvalid.sender_pair, hvalid.skipped_length⟩
  | used this h ih =>
    rw [ratchet_use]
    exact Ratchet.stable_sound.becomes (Ratchet.becomes_use _ this) (fun _ _ => trivial) ih

section

variable {channel : Channel} (hsound : channel.ratchet.Sound) (hcount : channel.ratchet.Countable)
include hsound hcount

/-- A channel that is loaded gets the bounds of the reader, or it is refused if it does not keep to them. -/
theorem ofPickleWith?_toPickle (config : RatchetConfig) :
    ofPickleWith? config (toPickle channel) =
      if channel.ratchet.FitsIn config then .ok (channel.withConfig config)
      else .error (.malformed .tooManyElements) := by
  rw [(channel.hasForm hcount.receivers_lt hcount.skipped_lt).toPickle_eq]
  split
  next hfits =>
    have hrestorable := hsound.restorable_withConfig hcount config
    have hform : channel.form = (channel.withConfig config).form := by
      unfold form withConfig
      rw [hfits.form_withConfig]
    have hfront := (reads config).back (channel.withConfig config) [] hrestorable
    rw [List.append_nil, ← hform] at hfront
    exact Unpickler.decodeAllWith_of_decodeWith (Unpickler.decodeWith_eq_ok_iff.mpr hfront)
  next hfits =>
    obtain ⟨left, hleft⟩ := Ratchet.on_readWith_of_not_fits hsound hcount hfits []
    rw [List.append_nil] at hleft
    have hread : InPlace.on (readWith config) channel.form =
        (.error (.malformed .tooManyElements), channel.ratchet.form) := by
      unfold readWith form
      simp only [List.append_assoc]
      rw [Unpickler.reads_uint32.back.on_bind _ trivial]
      simp only [ne_eq, not_true_eq_false, if_false]
      rw [Unpickler.reads_bool.back.on_bind channel.received trivial,
        Curve25519Key.reads.value.back.on_bind _ trivial, Curve25519Key.reads.value.back.on_bind _ trivial,
        Curve25519Key.reads.value.back.on_bind _ trivial, InPlace.on_bind, Unpickler.on_nested,
        Unpickler.decodeWith_of_error hleft]
      rfl
    unfold ofPickleWith? Unpickler.decodeAllWith
    rw [Unpickler.decodeWith_of_error hread]
    rfl

/-- Its pickle is the same then. -/
theorem toPickle_withConfig {config : RatchetConfig} (hfits : channel.ratchet.FitsIn config) :
    toPickle (channel.withConfig config) = toPickle channel := by
  have hread := ofPickleWith?_toPickle hsound hcount config
  rw [if_pos hfits] at hread
  exact (of_ofPickleWith? hread).2.2

end

end Channel

namespace Session

/-- How sessions come about: they are made of channels, they are restored from any records and under any bounds,
and their channels are used in any way. -/
inductive Arises : Session Channel → Prop where
  | made (senderKey : Curve25519Key) {channel : Channel} (hchannel : channel.Arises) (now : Clock) :
      Arises (ofChannel senderKey channel now)
  | restored {config : RatchetConfig} {pickled : PickledSession} {session : Session Channel}
      (hread : ofPickle? pickled config = .ok session) : Arises session
  | used {session : Session Channel} (this : RatchetUse) (lastUsed : Time) (h : Arises session) :
      Arises { session with state := session.state.use this, lastUsed }

/-- However a session has come about, so has its channel, and the session is called after it. -/
theorem Arises.channel {session : Session Channel} (h : session.Arises) :
    session.state.Arises ∧ session.sessionId = session.state.sessionId := by
  induction h with
  | made senderKey hchannel now => exact ⟨hchannel, rfl⟩
  | @restored config pickled session hread =>
    unfold ofPickle? at hread
    cases hbytes : Base64.decode? pickled.pickle with
    | none =>
      rw [hbytes] at hread
      cases hread
    | some bytes =>
      rw [hbytes] at hread
      obtain ⟨channel, hchannel, hsession⟩ := bind_eq_ok_iff.mp hread
      obtain rfl := Except.ok.inj hsession
      exact ⟨.restored hchannel, rfl⟩
  | used this lastUsed h ih =>
    exact ⟨.used this ih.1, ih.2.trans (congrArg SessionKeys.sessionId (Channel.keys_use _ this)).symm⟩

/-- What a session is when it has been loaded under some bounds: these are the bounds of its channel, and
nothing else of it is changed. -/
def loadedUnder (session : Session Channel) (config : RatchetConfig) : Session Channel :=
  { session with state := session.state.withConfig config }

section

variable {session : Session Channel} (hsound : session.state.ratchet.Sound)
  (hcount : session.state.ratchet.Countable)
include hsound hcount

/-- A stored session that is called after its channel is loaded, or it is refused if its lists do not keep to the
bounds. -/
theorem ofPickle?_pickle_eq (hid : session.sessionId = session.state.sessionId) (config : RatchetConfig) :
    ofPickle? session.pickle config =
      if session.state.ratchet.FitsIn config then .ok (session.loadedUnder config)
      else .error (.malformed .tooManyElements) := by
  have hdecode : Base64.decode? session.pickle.pickle = some (toPickle session.state) := Base64.decode?_encode _
  unfold ofPickle?
  simp only [hdecode, Channel.ofPickleWith?_toPickle hsound hcount]
  by_cases hfits : session.state.ratchet.FitsIn config
  · simp only [if_pos hfits, bind, Except.bind]
    unfold loadedUnder
    rw [hid]
    rfl
  · simp only [if_neg hfits, bind, Except.bind]

/-- What is stored of it is the same then. -/
theorem pickle_loadedUnder {config : RatchetConfig} (hfits : session.state.ratchet.FitsIn config) :
    (session.loadedUnder config).pickle = session.pickle := by
  unfold pickle loadedUnder
  rw [Channel.toPickle_withConfig hsound hcount hfits]

end

end Session

end RoomCrypt.Olm
