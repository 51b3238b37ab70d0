import RoomCrypt.Proofs.Olm.Encryption
import RoomCrypt.Proofs.Olm.InStep

/-!
# A side sends

A side that is in step sends on the chain of its latest pair, or makes a new pair after the other side's
latest one. In both cases it is in step afterwards, and no two of its messages have one name.
-/

namespace RoomCrypt.Olm

variable [Suite]

variable {party : Party} {secret : Bytes} {config : RatchetConfig} {pairs known past : List RatchetKeyPair}
  {side : Side}

/-- A chain for sending counts its messages, before the last place. -/
theorem SenderChain.toNat_index_next {chain : SenderChain} (hlast : chain.index ≠ lastPlace) :
    chain.next.index.toNat = chain.index.toNat + 1 := by
  have hsize := toNat_lt_of_ne_lastPlace hlast
  change (chain.index + 1).toNat = _
  rw [UInt32.toNat_add]
  exact Nat.mod_eq_of_lt hsize

/-- A message is made on the chain for sending, be it held or fresh, and the chain moves on. -/
theorem Ratchet.chain_of_encrypt {ratchet after : Ratchet} {plain : Bytes} {entropy left : Entropy}
    {message : OlmMessage} (h : ratchet.encrypt plain entropy = .ok (message, after, left)) :
    ∃ chain, after.sender = some chain.next ∧ message.name = (chain.publicKey.element, chain.index) ∧
      (ratchet.sender = some chain ∧ Conversation.newPair? ratchet after = none ∨
        chain.index = 0 ∧ Conversation.newPair? ratchet after = some chain.keyPair) := by
  obtain ⟨rootKey, sender, receivers, skipped, config⟩ := ratchet
  cases sender with
  | some chain =>
    cases h
    exact ⟨chain, rfl, rfl, Or.inl ⟨rfl, rfl⟩⟩
  | none =>
    cases receivers with
    | nil => cases h
    | cons newest rest =>
      cases h
      exact ⟨_, rfl, rfl, Or.inr ⟨rfl, rfl⟩⟩

/-- A side that decrypts keeps its chain for sending or gives it up. -/
theorem Ratchet.sender_of_decrypt {ratchet after : Ratchet} {message : OlmMessage} {plain : Bytes}
    (h : ratchet.decrypt message = .ok (plain, after)) : after.sender = ratchet.sender ∨ after.sender = none := by
  cases (ratchet.decrypt_eq_ok_iff message plain after).mp h with
  | skipped => exact Or.inl rfl
  | held => exact Or.inl rfl
  | opened => exact Or.inr rfl

/-- A chain for sending stays on its epoch. -/
theorem SenderChain.chainKey_next {chain : SenderChain}
    (hchain : chain.chainKey = epochChain secret pairs chain.index) (hlast : chain.index ≠ lastPlace) :
    chain.next.chainKey = epochChain secret pairs chain.next.index := by
  have hnext := ahead_epochChain secret pairs chain.index 1 (toNat_lt_of_ne_lastPlace hlast)
  rw [← hchain] at hnext
  exact hnext

/-- Sending keeps the messages of a side apart. -/
theorem Outbox.sends (h : Outbox secret pairs side party) {more : List RatchetKeyPair}
    (hmore : pairs <:+ more) {chain : SenderChain} (hepoch : IsEpoch side more chain.keyPair past)
    (hchain : chain.chainKey = epochChain secret (chain.keyPair :: past) chain.index)
    (hbelow : ∀ sent ∈ party.sent, sent.message.ratchetKey.element = chain.publicKey.element →
      sent.message.index < chain.index)
    (hlast : chain.index ≠ lastPlace) {ratchet : Ratchet} (hsender : ratchet.sender = some chain.next)
    (plain : Bytes) :
    Outbox secret more side
      (party.afterSending ratchet ⟨chain.messageKey.encrypt chain.publicKey plain, plain⟩) := by
  have hapart {old : Sent} (hold : old ∈ party.sent) :
      old.message.name ≠ (chain.publicKey.element, chain.index) := by
    intro hname
    have hlt := hbelow old hold (Prod.mk.inj hname).1
    rw [(Prod.mk.inj hname).2] at hlt
    exact UInt32.lt_irrefl _ hlt
  constructor
  · intro sent hsent
    rcases List.mem_append.mp hsent with hold | hnew
    · obtain ⟨pair, past, hepoch, hmade⟩ := h.made sent hold
      exact ⟨pair, past, hepoch.mono hmore, hmade⟩
    · rw [List.mem_singleton.mp hnew]
      refine ⟨chain.keyPair, past, hepoch, ?_⟩
      exact congrArg (fun key => MessageKey.encrypt key chain.publicKey plain)
        (congrArg ChainKey.messageKey hchain)
  · intro a ha b hb hname
    rcases List.mem_append.mp ha with hold | hnew <;> rcases List.mem_append.mp hb with hold' | hnew'
    · exact h.names a hold b hold' hname
    · rw [List.mem_singleton.mp hnew'] at hname
      exact absurd hname (hapart hold)
    · rw [List.mem_singleton.mp hnew] at hname
      exact absurd hname.symm (hapart hold')
    · rw [List.mem_singleton.mp hnew, List.mem_singleton.mp hnew']
  · intro after hafter sent hsent hkey
    obtain rfl : chain.next = after := Option.some.inj (hsender.symm.trans hafter)
    rw [UInt32.lt_iff_toNat_lt, SenderChain.toNat_index_next hlast]
    rcases List.mem_append.mp hsent with hold | hnew
    · have hlt := UInt32.lt_iff_toNat_lt.mp (hbelow sent hold hkey)
      omega
    · rw [List.mem_singleton.mp hnew]
      exact Nat.lt_succ_self _

/-- What a side has sent is not of a pair that nobody has made yet. -/
theorem Outbox.ne_newest (h : Outbox secret pairs side party) {newest : RatchetKeyPair}
    (hnewest : newest.publicKey.element ∉ pairs.map (·.publicKey.element)) {sent : Sent}
    (hsent : sent ∈ party.sent) : sent.message.ratchetKey.element ≠ newest.publicKey.element := by
  obtain ⟨pair, past, hepoch, hmade⟩ := h.made sent hsent
  have hkey : sent.message.ratchetKey = pair.publicKey := congrArg OlmMessage.ratchetKey hmade
  rw [hkey]
  intro hsame
  exact hnewest (List.mem_map.mpr ⟨pair, hepoch.mem, hsame⟩)

/-- What a side has sent stays as it is when the other side makes a pair. -/
theorem Outbox.mono (h : Outbox secret pairs side party) {more : List RatchetKeyPair} (hmore : pairs <:+ more) :
    Outbox secret more side party := by
  refine ⟨fun sent hsent => ?_, h.names, h.below⟩
  obtain ⟨pair, past, hepoch, hmade⟩ := h.made sent hsent
  exact ⟨pair, past, hepoch.mono hmore, hmade⟩

/-- Sending on the chain for sending keeps a side in step. -/
theorem Synced.sends (h : Synced secret config pairs side party known) {chain : SenderChain}
    (hsender : party.ratchet.sender = some chain) (hlast : chain.index ≠ lastPlace) (sent : Sent) :
    Synced secret config pairs side
      (party.afterSending { party.ratchet with sender := some chain.next } sent) known := by
  refine
    { known_pairs := h.known_pairs
      root := h.root
      turn := ?_
      chains := h.chains
      covered := h.covered
      keys := h.keys
      config_eq := h.config_eq
      capacity_eq := h.capacity_eq }
  cases h.turn with
  | theirs pair past chain' howner hsender' hpair hchain =>
    obtain rfl : chain = chain' := Option.some.inj (hsender.symm.trans hsender')
    exact .theirs pair past chain.next howner rfl hpair (SenderChain.chainKey_next hchain hlast)
  | ours pair past howner hsender' hreceiver =>
    rw [hsender] at hsender'
    cases hsender'

/-- When a side has made the latest pair, the other side may make the next one. -/
theorem Synced.overtaken (h : Synced secret config pairs side party known) (howner : owner pairs = side)
    (newest : RatchetKeyPair) : Synced secret config (newest :: pairs) side party known := by
  have hknown := h.known_eq_of_owner howner
  exact { h with known_pairs := Or.inr ⟨hknown ▸ howner, newest, hknown ▸ rfl⟩ }

/-- A fresh chain for sending stands at the start of the epoch of its pair. -/
theorem Synced.step_eq {latest : RatchetKeyPair} (h : Synced secret config pairs side party (latest :: past))
    (howner : owner (latest :: past) = side.other) (newest : RatchetKeyPair) :
    party.ratchet.rootKey.step newest latest.publicKey = epoch secret (newest :: pairs) := by
  rw [h.root, ← h.known_eq howner]
  rfl

/-- The next pair after one of the other side starts an epoch of this side. -/
theorem Synced.epoch_newest (h : Synced secret config pairs side party known)
    (howner : owner known = side.other) (newest : RatchetKeyPair) :
    IsEpoch side (newest :: pairs) newest pairs := by
  refine ⟨List.suffix_rfl, ?_⟩
  rw [← h.known_eq howner]
  exact (congrArg Side.other howner).trans side.other_other

/-- Sending on a fresh chain keeps a side in step: it has made the latest pair. -/
theorem Synced.sends_fresh {latest : RatchetKeyPair}
    (h : Synced secret config pairs side party (latest :: past))
    (howner : owner (latest :: past) = side.other) (entropy : Entropy) (sent : Sent) :
    let newest := RatchetKeyPair.ofSecret ⟨(entropy.draw 32).1⟩
    Synced secret config (newest :: pairs) side
      (party.afterSending (party.ratchet.afterFresh entropy latest.publicKey) sent) (newest :: pairs) := by
  intro newest
  have hpairs := h.known_eq howner
  have hstep := h.step_eq howner newest
  have hnewest : owner (newest :: pairs) = side := (h.epoch_newest howner newest).2
  have hold {pair : RatchetKeyPair} {older : List RatchetKeyPair} :
      IsEpoch side.other (newest :: pairs) pair older ↔ IsEpoch side.other (latest :: past) pair older := by
    rw [IsEpoch.cons_iff, hpairs]
    exact or_iff_right fun hnew => Side.other_ne side (hnew.2.symm.trans hnewest)
  refine
    { known_pairs := Or.inl rfl
      root := congrArg Prod.fst hstep
      turn := ?_
      chains := fun chain hchain => by simpa only [hold] using h.chains chain hchain
      covered := fun pair older hepoch => h.covered pair older (hold.mp hepoch)
      keys := fun key hkey => by simpa only [hold] using h.keys key hkey
      config_eq := h.config_eq
      capacity_eq := h.capacity_eq }
  have hfirst : (party.ratchet.freshSender entropy latest.publicKey).chainKey =
      epochChain secret (newest :: pairs) 0 := congrArg Prod.snd hstep
  have hplace : (party.ratchet.freshSender entropy latest.publicKey).index ≠ lastPlace := by
    rw [Ratchet.index_freshSender]
    decide
  exact .theirs newest pairs (party.ratchet.freshSender entropy latest.publicKey).next hnewest rfl rfl
    (SenderChain.chainKey_next hfirst hplace)

end RoomCrypt.Olm
