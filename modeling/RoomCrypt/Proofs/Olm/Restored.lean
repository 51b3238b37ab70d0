import RoomCrypt.Olm.Session
import RoomCrypt.Proofs.Olm.Pickles
import RoomCrypt.Proofs.Pickle.Front
import RoomCrypt.Proofs.Pickle.RoundTrip
import RoomCrypt.Proofs.Text.Base64

/-!
# What is restored from a pickle

The keys of a channel and its chain for sending stand before the lists that may be too long to be written.
So whatever is restored from a pickle has the keys and the chain for sending of what was pickled, and its
own pickle is the one that it was restored from.
-/

namespace RoomCrypt

namespace Olm

/-- A chain key is known from its form. -/
theorem ChainKey.form_injective {chain other : ChainKey} (h : chain.form = other.form) : chain = other := by
  have hread := ChainKey.reads.back chain [] trivial
  rw [h, ChainKey.reads.back other [] trivial, Prod.mk.injEq, Except.ok.injEq] at hread
  exact hread.1.symm

/-- A chain for sending is known from its form. -/
theorem SenderChain.form_injective {chain other : SenderChain} (h : chain.form = other.form) : chain = other := by
  obtain ⟨⟨⟨secret⟩, ⟨publicKey⟩⟩, chainKey⟩ := chain
  obtain ⟨⟨⟨secret'⟩, ⟨publicKey'⟩⟩, chainKey'⟩ := other
  have hpairs : (RatchetKeyPair.form ⟨⟨secret⟩, ⟨publicKey⟩⟩).length =
      (RatchetKeyPair.form ⟨⟨secret'⟩, ⟨publicKey'⟩⟩).length := by simp [RatchetKeyPair.form]
  obtain ⟨hpair, hchain⟩ := List.append_inj h hpairs
  obtain ⟨hpublic, hsecret⟩ := List.append_inj hpair (publicKey.length_eq.trans publicKey'.length_eq.symm)
  obtain rfl : publicKey = publicKey' := Octets.ext hpublic
  obtain rfl : secret = secret' := Octets.ext hsecret
  obtain rfl : chainKey = chainKey' := ChainKey.form_injective hchain
  rfl

/-- A chain for sending that may be missing is known from the front of its list. -/
theorem SenderChain.eq_of_listForm {chain other : Option SenderChain} {rest rest' : Bytes}
    (h : listForm SenderChain.form chain.toList ++ rest = listForm SenderChain.form other.toList ++ rest') :
    chain = other := by
  unfold listForm at h
  rw [List.append_assoc, List.append_assoc] at h
  obtain ⟨hcount, hchains⟩ := List.append_inj h (by simp)
  cases chain with
  | none =>
    cases other with
    | none => rfl
    | some other => exact absurd hcount (by decide : Bytes.ofUInt32 0 ≠ Bytes.ofUInt32 1)
  | some chain =>
    cases other with
    | none => exact absurd hcount (by decide : Bytes.ofUInt32 1 ≠ Bytes.ofUInt32 0)
    | some other =>
      simp only [Option.toList_some, List.flatMap_cons, List.flatMap_nil, List.append_nil] at hchains
      have hlength : chain.form.length = other.form.length := by
        simp [form, RatchetKeyPair.form, ChainKey.form]
      rw [form_injective (List.append_inj hchains hlength).1]

namespace Ratchet

/-- What stands before the lists that may be too long: the root key and the chain for sending. -/
def front (ratchet : Ratchet) : Bytes :=
  ratchet.rootKey.key.bytes ++ listForm SenderChain.form ratchet.sender.toList

theorem starts_front (ratchet : Ratchet) :
    Pickler.Starts (ToPickle.write ratchet) ratchet.front.length ratchet.front := by
  have hsender : ratchet.sender.toList.length < UInt32.size :=
    Nat.lt_of_le_of_lt Option.length_toList_le (by decide)
  have hlist := Pickler.writes_list
    (fun chain (_ : chain ∈ ratchet.sender.toList) => (SenderChain.hasForm chain).writes_value) hsender
  have hlater := (Pickler.extends_list ratchet.receivers).followed (Pickler.extends_list ratchet.skipped.keys)
  have hstarts := ratchet.rootKey.hasForm.writes_value.starts (hlist.startsOnly hlater)
  unfold front
  rw [List.length_append]
  exact hstarts

theorem length_front_le (ratchet : Ratchet) : ratchet.front.length ≤ ToPickle.size ratchet := by
  have hsize : ToPickle.size ratchet = ToPickle.size ratchet.rootKey + listPickleSize ratchet.sender.toList +
    listPickleSize ratchet.receivers + listPickleSize ratchet.skipped.keys := rfl
  rw [hsize, listPickleSize_eq fun chain _ => (SenderChain.hasForm chain).size_eq, ratchet.rootKey.hasForm.size_eq,
    front, List.length_append]
  omega

end Ratchet

namespace Channel

/-- What stands before the lists that may be too long. -/
def front (channel : Channel) : Bytes :=
  Bytes.ofUInt32 pickleVersion ++ ([if channel.received then 1 else 0] ++ (channel.keys.identity.octets.bytes ++
    (channel.keys.base.octets.bytes ++ (channel.keys.oneTime.octets.bytes ++ channel.ratchet.front))))

/-- The pickle of a channel starts with its front. -/
theorem toPickle_front (channel : Channel) : ∃ rest, toPickle channel = channel.front ++ rest := by
  have hratchet := channel.ratchet.starts_front.value channel.ratchet.length_front_le
  have hstarts := (Pickler.writes_uint32 pickleVersion).starts
    ((Pickler.writes_bool channel.received).starts
      (channel.keys.identity.hasForm.writes_value.starts
        (channel.keys.base.hasForm.writes_value.starts (channel.keys.oneTime.hasForm.writes_value.starts hratchet))))
  refine Pickler.Starts.toPickle hstarts ?_
  have hsize : ToPickle.size channel = 4 + 1 + 32 + 32 + 32 + ToPickle.size channel.ratchet := rfl
  rw [hsize]
  simp
  omega

/-- And so does its form. -/
theorem form_front (channel : Channel) : ∃ rest, channel.form = channel.front ++ rest := by
  refine ⟨listForm ReceiverChain.form channel.ratchet.receivers ++
    listForm SkippedKey.form channel.ratchet.skipped.keys, ?_⟩
  simp only [form, front, Ratchet.form, Ratchet.front, List.append_assoc]

/-- The keys of a channel and its chain for sending are known from its front. -/
theorem eq_of_front {channel other : Channel} {rest rest' : Bytes}
    (h : channel.front ++ rest = other.front ++ rest') :
    channel.keys = other.keys ∧ channel.ratchet.sender = other.ratchet.sender := by
  obtain ⟨⟨⟨identity⟩, ⟨base⟩, ⟨oneTime⟩⟩, ratchet, received⟩ := channel
  obtain ⟨⟨⟨identity'⟩, ⟨base'⟩, ⟨oneTime'⟩⟩, ratchet', received'⟩ := other
  simp only [front, Ratchet.front, List.append_assoc] at h
  obtain ⟨-, hreceived⟩ := List.append_inj h rfl
  obtain ⟨-, hkeys⟩ := List.append_inj hreceived rfl
  obtain ⟨hidentity, hbases⟩ := List.append_inj hkeys (identity.length_eq.trans identity'.length_eq.symm)
  obtain ⟨hbase, honeTimes⟩ := List.append_inj hbases (base.length_eq.trans base'.length_eq.symm)
  obtain ⟨honeTime, hratchets⟩ := List.append_inj honeTimes (oneTime.length_eq.trans oneTime'.length_eq.symm)
  obtain ⟨-, hsenders⟩ :=
    List.append_inj hratchets (ratchet.rootKey.key.length_eq.trans ratchet'.rootKey.key.length_eq.symm)
  obtain rfl : identity = identity' := Octets.ext hidentity
  obtain rfl : base = base' := Octets.ext hbase
  obtain rfl : oneTime = oneTime' := Octets.ext honeTime
  exact ⟨rfl, SenderChain.eq_of_listForm hsenders⟩

/-- What is restored from the pickle of a channel has its keys and its chain for sending, and its own pickle
is that one. -/
theorem of_ofPickleWith? [Suite] {config : RatchetConfig} {channel restored : Channel}
    (h : ofPickleWith? config (toPickle channel) = .ok restored) :
    restored.keys = channel.keys ∧ restored.ratchet.sender = channel.ratchet.sender ∧
      toPickle restored = toPickle channel := by
  obtain ⟨hvalid, hform⟩ := (reads config).of_decodeAllWith h
  obtain ⟨written, hwritten⟩ := channel.toPickle_front
  obtain ⟨taken, htaken⟩ := restored.form_front
  have hsame : restored.front ++ taken = channel.front ++ written := by
    rw [← htaken, ← hform, hwritten]
  obtain ⟨hkeys, hsender⟩ := eq_of_front hsame
  refine ⟨hkeys, hsender, ?_⟩
  rw [(restored.hasForm hvalid.receivers_lt hvalid.skipped_lt).toPickle_eq, hform]

end Channel

namespace Session

/-- What is restored from the record of a session is called after its channel. It has the device, the times,
the keys and the chain for sending of the session, and its record is that one. -/
theorem of_ofPickle? [Suite] {config : RatchetConfig} {session restored : Session Channel}
    (h : ofPickle? session.pickle config = .ok restored) :
    restored.sessionId = restored.state.sessionId ∧ restored.senderKey = session.senderKey ∧
      restored.state.keys = session.state.keys ∧ restored.state.ratchet.sender = session.state.ratchet.sender ∧
      restored.pickle = session.pickle := by
  have hdecode : Base64.decode? session.pickle.pickle = some (toPickle session.state) := Base64.decode?_encode _
  unfold ofPickle? at h
  simp only [hdecode] at h
  obtain ⟨channel, hchannel, hrestored⟩ := bind_eq_ok_iff.mp h
  obtain rfl := Except.ok.inj hrestored
  obtain ⟨hkeys, hsender, hpickle⟩ := Channel.of_ofPickleWith? hchannel
  refine ⟨rfl, rfl, hkeys, hsender, ?_⟩
  unfold pickle
  rw [hpickle]

/-- A session that is called after its channel is restored as it was, if its ratchet can be restored. -/
theorem ofPickle?_pickle [Suite] {config : RatchetConfig} {session : Session Channel}
    (hratchet : session.state.ratchet.Restorable config) (hid : session.sessionId = session.state.sessionId) :
    ofPickle? session.pickle config = .ok session := by
  have hdecode : Base64.decode? session.pickle.pickle = some (toPickle session.state) := Base64.decode?_encode _
  have hread : Channel.ofPickleWith? config (toPickle session.state) = .ok session.state :=
    ((session.state.hasForm hratchet.receivers_lt hratchet.skipped_lt).restores (Channel.reads config) hratchet).whole
  unfold ofPickle?
  simp only [hdecode, hread, bind, Except.bind, ← hid]
  rfl

end Session

end Olm

end RoomCrypt
