import RoomCrypt.Proofs.Olm.Events
import RoomCrypt.Proofs.Olm.Reading

/-!
# Two honest ratchets agree

A conversation of an initiator and a responder who share a secret keeps both sides in step, whatever
is sent, delivered, lost and repeated. So a message that is delivered for the first time decrypts to
the text that it was made from, unless it is too far ahead or its chain or its skipped key exceeded a
bound.

It is assumed that the key agreement and the cipher work, that no ratchet key is made twice, and that
no chain gets to its last place. A message whose chain was given up is accepted on another chain if it
has the right MAC by chance. A run in which that happens is excluded: afterwards the sides can be out of
step, as the run at the end shows over a suite with one MAC for all messages.
-/

namespace RoomCrypt.Olm

variable [Suite]

namespace Conversation

/-- What holds at any time in a conversation. -/
structure Inv (secret : Bytes) (config : Side → RatchetConfig) (talk : Conversation) : Prop where
  pairs_made : ∀ pair ∈ talk.pairs, pair = .ofSecret pair.secret
  synced : ∀ side, ∃ known, Synced secret (config side) talk.pairs side (talk.party side) known
  outbox : ∀ side, Outbox secret talk.pairs side (talk.party side)
  inbox : ∀ side, Inbox (talk.party side) (talk.party side.other).sent

variable {secret : Bytes} {config : Side → RatchetConfig} {talk : Conversation}

/-- The invariant holds at the beginning. -/
theorem inv_start (secret : Bytes) (first : Curve25519Secret) (config : Side → RatchetConfig)
    (hconfig : ∀ side, 1 ≤ (config side).maxReceiverChains) : Inv secret config (start secret first config) := by
  have hsent (side : Side) : ((start secret first config).party side).sent = [] := by
    cases side <;> rfl
  constructor
  · intro pair hpair
    rw [List.mem_singleton.mp hpair]
    rfl
  · intro side
    cases side with
    | initiator => exact ⟨_, Synced.initiator secret first (config .initiator)⟩
    | responder => exact ⟨_, Synced.responder secret first (config .responder) (hconfig .responder)⟩
  · intro side
    constructor <;> simp [hsent]
  · intro side
    constructor
    · intro chain hchain
      left
      cases side with
      | initiator => simp [start, Party.start, Ratchet.withConfig, Ratchet.ofInitiator] at hchain
      | responder =>
        have hmem := List.mem_of_mem_take hchain
        rw [List.mem_singleton.mp hmem]
        rfl
    · simp [hsent]

/-- The invariant of a conversation in which one party has changed, and pairs may have been made. -/
theorem inv_put {side : Side} {party : Party} {pairs : List RatchetKeyPair}
    (hmade : ∀ pair ∈ pairs, pair = .ofSecret pair.secret)
    (hsynced : ∃ known, Synced secret (config side) pairs side party known)
    (hsynced' : ∃ known, Synced secret (config side.other) pairs side.other (talk.party side.other) known)
    (houtbox : Outbox secret pairs side party)
    (houtbox' : Outbox secret pairs side.other (talk.party side.other))
    (hinbox : Inbox party (talk.party side.other).sent)
    (hinbox' : Inbox (talk.party side.other) party.sent) :
    Inv secret config { talk.put side party with pairs } := by
  have hself : Function.update talk.party side party side = party := Function.update_self ..
  have hother : Function.update talk.party side party side.other = talk.party side.other :=
    Function.update_of_ne side.other_ne _ _
  refine ⟨hmade, ?_, ?_, ?_⟩
  · intro a
    change ∃ known, Synced secret (config a) pairs a (Function.update talk.party side party a) known
    rcases side.eq_or_eq_other a with rfl | rfl
    · rwa [hself]
    · rwa [hother]
  · intro a
    change Outbox secret pairs a (Function.update talk.party side party a)
    rcases side.eq_or_eq_other a with rfl | rfl
    · rwa [hself]
    · rwa [hother]
  · intro a
    change Inbox (Function.update talk.party side party a) (Function.update talk.party side party a.other).sent
    rcases side.eq_or_eq_other a with rfl | rfl
    · rwa [hself, hother]
    · rwa [side.other_other, hself, hother]

/-- Sending on the chain of a pair of its own keeps a side, and the conversation, in step. -/
theorem Inv.send_on (h : Inv secret config talk) {side : Side} {known past : List RatchetKeyPair}
    {chain : SenderChain} (hsynced : Synced secret (config side) talk.pairs side (talk.party side) known)
    (hepoch : IsEpoch side talk.pairs chain.keyPair past)
    (hsender : (talk.party side).ratchet.sender = some chain)
    (hchain : chain.chainKey = epochChain secret (chain.keyPair :: past) chain.index)
    (plain : Bytes) (entropy : Entropy) (hplaces : (talk.step (.send side plain entropy)).PlacesLeft) :
    Inv secret config (talk.step (.send side plain entropy)) := by
  rw [talk.step_send hsender plain entropy] at hplaces ⊢
  have hinbox' := h.inbox side.other
  rw [side.other_other] at hinbox'
  have hlast : chain.index ≠ lastPlace :=
    hplaces side ⟨chain.messageKey.encrypt chain.publicKey plain, plain⟩ (by simp [put, Party.afterSending])
  have hbelow := (h.outbox side).below chain hsender
  exact inv_put h.pairs_made ⟨_, hsynced.sends hsender hlast _⟩ (h.synced side.other)
    ((h.outbox side).sends List.suffix_rfl hepoch hchain hbelow hlast rfl plain)
    (h.outbox side.other) ⟨(h.inbox side).reached, (h.inbox side).unread⟩ (hinbox'.extend hbelow)

/-- So does sending on a fresh chain, with which the side makes the next pair. -/
theorem Inv.send_fresh (h : Inv secret config talk) {side : Side} {pair : RatchetKeyPair}
    {past : List RatchetKeyPair}
    (hsynced : Synced secret (config side) talk.pairs side (talk.party side) (pair :: past))
    (howner : owner (pair :: past) = side.other) (hsender : (talk.party side).ratchet.sender = none)
    (hreceiver : ((talk.party side).ratchet.receivers.map (·.ratchetKey)).head? = some pair.publicKey)
    (plain : Bytes) (entropy : Entropy) (hkeys : (talk.step (.send side plain entropy)).KeysDistinct) :
    Inv secret config (talk.step (.send side plain entropy)) := by
  rw [talk.step_send_fresh hsender hreceiver plain entropy] at hkeys ⊢
  obtain ⟨known', hsynced'⟩ := h.synced side.other
  have hinbox' := h.inbox side.other
  rw [side.other_other] at hinbox'
  have hnewest := (List.nodup_cons.mp hkeys).1
  have hfresh := hsynced.step_eq howner (.ofSecret ⟨(entropy.draw 32).1⟩)
  have hepoch := hsynced.epoch_newest howner (.ofSecret ⟨(entropy.draw 32).1⟩)
  have hbelow : ∀ sent ∈ (talk.party side).sent, sent.message.ratchetKey.element =
      ((talk.party side).ratchet.freshSender entropy pair.publicKey).publicKey.element →
      sent.message.index < ((talk.party side).ratchet.freshSender entropy pair.publicKey).index :=
    fun sent hsent helement => absurd helement ((h.outbox side).ne_newest hnewest hsent)
  have hlast : ((talk.party side).ratchet.freshSender entropy pair.publicKey).index ≠ lastPlace := by
    rw [Ratchet.index_freshSender]
    decide
  refine inv_put ?_ ⟨_, hsynced.sends_fresh howner entropy _⟩
    ⟨known', hsynced'.overtaken (hsynced.known_eq howner ▸ howner) _⟩
    ((h.outbox side).sends (List.suffix_cons _ _) hepoch (congrArg Prod.snd hfresh) hbelow hlast rfl plain)
    ((h.outbox side.other).mono (List.suffix_cons _ _))
    ⟨(h.inbox side).reached, (h.inbox side).unread⟩ (hinbox'.extend hbelow)
  intro made hmade
  rcases List.mem_cons.mp hmade with rfl | hold
  · rfl
  · exact h.pairs_made made hold

/-- Sending keeps the invariant. -/
theorem Inv.send (h : Inv secret config talk) (side : Side) (plain : Bytes) (entropy : Entropy)
    (hkeys : (talk.step (.send side plain entropy)).KeysDistinct)
    (hplaces : (talk.step (.send side plain entropy)).PlacesLeft) :
    Inv secret config (talk.step (.send side plain entropy)) := by
  obtain ⟨known, hsynced⟩ := h.synced side
  have hturn := hsynced.turn
  cases hturn with
  | theirs pair past chain howner hsender hpair hchain =>
    subst hpair
    exact h.send_on hsynced ⟨hsynced.known_suffix, howner⟩ hsender hchain plain entropy hplaces
  | ours pair past howner hsender hreceiver =>
    exact h.send_fresh hsynced howner hsender hreceiver plain entropy hkeys

/-- A delivery keeps the invariant. -/
theorem Inv.deliver (h : Inv secret config talk) (hagree : Suite.Agrees)
    (hconfig : ∀ side, 1 ≤ (config side).maxReceiverChains) (side : Side) (place : ℕ)
    (hkeys : talk.KeysDistinct) (hplaces : talk.PlacesLeft) (hstray : talk.NoStrayMac (.deliver side place)) :
    Inv secret config (talk.step (.deliver side place)) := by
  rcases talk.step_deliver side place with hsame | ⟨sent, hsent, plain, ratchet, haccepts, hstep⟩
  · rw [hsame]
    exact h
  rw [hstep]
  obtain ⟨known, hsynced⟩ := h.synced side
  obtain ⟨known', hsynced'⟩ := h.synced side.other
  have hinbox' := h.inbox side.other
  rw [side.other_other] at hinbox'
  have houtbox := h.outbox side.other
  have hmem : sent ∈ (talk.party side.other).sent := List.mem_of_getElem? hsent
  obtain ⟨pair, past, hepoch, hmade⟩ := houtbox.made sent hmem
  obtain ⟨hafter, hinbox⟩ := hsynced.reads hagree (hconfig side) h.pairs_made hkeys (h.inbox side)
    houtbox.names hmem hepoch (congrArg OlmMessage.ratchetKey hmade) (hplaces side.other sent hmem)
    (hstray sent hsent) haccepts
  exact inv_put h.pairs_made hafter ⟨known', hsynced'⟩ ((h.outbox side).reads haccepts) houtbox hinbox
    ⟨hinbox'.reached, hinbox'.unread⟩

/-- Every event keeps the invariant. -/
theorem Inv.step (h : Inv secret config talk) (hagree : Suite.Agrees)
    (hconfig : ∀ side, 1 ≤ (config side).maxReceiverChains) (event : Event)
    (hkeys : (talk.step event).KeysDistinct) (hplaces : (talk.step event).PlacesLeft)
    (hstray : talk.NoStrayMac event) : Inv secret config (talk.step event) := by
  cases event with
  | send side plain entropy => exact h.send side plain entropy hkeys hplaces
  | deliver side place =>
    have hgrows := talk.grows_step (.deliver side place)
    exact h.deliver hagree hconfig side place (hgrows.keysDistinct hkeys) (hgrows.placesLeft hplaces) hstray

/-- Every run keeps the invariant. -/
theorem Inv.run (h : Inv secret config talk) (hagree : Suite.Agrees)
    (hconfig : ∀ side, 1 ≤ (config side).maxReceiverChains) (events : List Event)
    (hkeys : (talk.run events).KeysDistinct) (hplaces : (talk.run events).PlacesLeft)
    (hstray : talk.NoStrayMacs events) : Inv secret config (talk.run events) := by
  induction events generalizing talk with
  | nil => exact h
  | cons event events ih =>
    have hgrows := (talk.step event).grows_run events
    have hstep := h.step hagree hconfig event (hgrows.keysDistinct hkeys) (hgrows.placesLeft hplaces) hstray.1
    exact ih hstep hkeys hplaces hstray.2

end Conversation

/-- In every run of an initiator and a responder who share a secret, a message of one side that the
other side has not decrypted yet decrypts to the text that it was made from, unless it is too far ahead
of its chain, or its chain or its skipped key exceeded a bound. -/
theorem honest_ratchets_agree (hagree : Suite.Agrees) (hinverts : Suite.Inverts) (secret : Bytes)
    (first : Curve25519Secret) (config : Side → RatchetConfig)
    (hconfig : ∀ side, 1 ≤ (config side).maxReceiverChains) (events : List Event)
    (hkeys : ((Conversation.start secret first config).run events).KeysDistinct)
    (hplaces : ((Conversation.start secret first config).run events).PlacesLeft)
    (hstray : (Conversation.start secret first config).NoStrayMacs events) :
    let talk := (Conversation.start secret first config).run events
    ∀ side, ∀ sent ∈ (talk.party side.other).sent, sent.message ∉ (talk.party side).read →
      sent.message.index.toNat - (talk.party side).ratchet.standing sent.message.ratchetKey ≤
        (config side).maxGap.toNat →
      sent.message.ratchetKey.element ∉ (talk.party side).lostChains →
      sent.message.name ∉ (talk.party side).lostKeys →
      ((Ratchet.decryptInPlace sent.message).on (talk.party side).ratchet).1 = .ok sent.plain := by
  intro talk side sent hsent hunread hgap hchain hkey
  have hinv : talk.Inv secret config :=
    (Conversation.inv_start secret first config hconfig).run hagree hconfig events hkeys hplaces hstray
  obtain ⟨known, hsynced⟩ := hinv.synced side
  obtain ⟨pair, past, hepoch, hmade⟩ := (hinv.outbox side.other).made sent hsent
  obtain ⟨after, haccepts⟩ := hsynced.accepts hagree hinverts hinv.pairs_made hkeys (hinv.inbox side) hsent
    hepoch hmade hunread hgap hchain hkey
  rw [Ratchet.on_decryptInPlace, (Ratchet.decrypt_eq_ok_iff ..).mpr haccepts]
  rfl

end RoomCrypt.Olm

namespace RoomCrypt.Olm

/-- The initiator sends two texts, of which the first one is delivered. The sides answer each other, and the responder,
who holds one chain for receiving, gives up that of the other text. -/
def lossEvents : List Event :=
  [.send .initiator [1] default, .send .initiator [2] default, .deliver .responder 0,
    .send .responder [3] ⟨fun _ => 9, 0⟩, .deliver .initiator 0,
    .send .initiator [4] ⟨fun _ => 11, 0⟩, .send .initiator [5] default, .deliver .responder 3,
    .send .responder [6] ⟨fun _ => 13, 0⟩]

/-- That text comes late, and the conversation goes on. -/
def strayEvents : List Event :=
  lossEvents ++ [.deliver .responder 1, .deliver .initiator 1, .send .initiator [7] ⟨fun _ => 15, 0⟩]

/-- The bounds of both sides. -/
def strayConfig : RatchetConfig :=
  { maxReceiverChains := 1 }

/-- Two sides with these bounds at the beginning. -/
def strayStart [Suite] : Conversation :=
  .start [7] ⟨.ofNatLE 32 5⟩ fun _ => strayConfig

/-- Their conversation. -/
def strayTalk [Suite] : Conversation :=
  strayStart.run strayEvents

section

open scoped Suite.Evaluation

/-- The text whose chain was given up is refused when it comes. The others are read afterwards: one with a skipped key,
and one on a chain that is not there yet. -/
theorem honest_ratchets_agree_lost_chain :
    strayTalk.KeysDistinct ∧ strayTalk.PlacesLeft ∧ strayStart.NoStrayMacs strayEvents ∧
      (∃ sent ∈ ((strayStart.run lossEvents).party .initiator).sent[1]?, sent.plain = [2] ∧
        sent.message.ratchetKey.element ∈ ((strayStart.run lossEvents).party .responder).lostChains) ∧
      ((strayTalk.party .initiator).sent.filter fun sent =>
        sent.message ∉ (strayTalk.party .responder).read).map Sent.plain = [[2], [4], [7]] ∧
      ∀ sent ∈ (strayTalk.party .initiator).sent, sent.message ∉ (strayTalk.party .responder).read →
        sent.message.ratchetKey.element ∉ (strayTalk.party .responder).lostChains →
          ((Ratchet.decryptInPlace sent.message).on (strayTalk.party .responder).ratchet).1 = .ok sent.plain := by
  -- One evaluation of the run serves all of these.
  have hrun : strayTalk.KeysDistinct ∧ strayTalk.PlacesLeft ∧ strayStart.NoStrayMacs strayEvents ∧
      (∃ sent ∈ ((strayStart.run lossEvents).party .initiator).sent[1]?, sent.plain = [2] ∧
        sent.message.ratchetKey.element ∈ ((strayStart.run lossEvents).party .responder).lostChains) ∧
      ((strayTalk.party .initiator).sent.filter fun sent =>
        sent.message ∉ (strayTalk.party .responder).read).map Sent.plain = [[2], [4], [7]] ∧
      ∀ sent ∈ (strayTalk.party .initiator).sent,
        sent.message.index.toNat - (strayTalk.party .responder).ratchet.standing sent.message.ratchetKey ≤
            strayConfig.maxGap.toNat ∧
          sent.message.name ∉ (strayTalk.party .responder).lostKeys := by
    decide +kernel
  obtain ⟨hkeys, hplaces, hstray, hlost, htexts, hlate⟩ := hrun
  refine ⟨hkeys, hplaces, hstray, hlost, htexts, fun sent hsent hunread hchain => ?_⟩
  obtain ⟨hgap, hkey⟩ := hlate sent hsent
  exact honest_ratchets_agree Suite.agrees_simple Suite.inverts_simple [7] ⟨.ofNatLE 32 5⟩
    (fun _ => strayConfig) (fun _ => by decide) strayEvents hkeys hplaces hstray .responder sent hsent hunread hgap
    hchain hkey

end

section

open scoped Suite.OneMac

/-- Where all messages have one MAC, that text is read on a new chain, by a step of the responder's root key that ends
its chain for sending. So a later text, which comes for the first time and whose chain was not given up, is refused. -/
theorem ratchets_part_after_stray_mac :
    Suite.Agrees ∧ Suite.Inverts ∧ 1 ≤ strayConfig.maxReceiverChains ∧
      strayTalk.KeysDistinct ∧ strayTalk.PlacesLeft ∧
      ∃ sent ∈ (strayTalk.party .initiator).sent, sent.plain = [7] ∧
        sent.message ∉ (strayTalk.party .responder).read ∧
        sent.message.index.toNat - (strayTalk.party .responder).ratchet.standing sent.message.ratchetKey ≤
          strayConfig.maxGap.toNat ∧
        sent.message.ratchetKey.element ∉ (strayTalk.party .responder).lostChains ∧
        sent.message.name ∉ (strayTalk.party .responder).lostKeys ∧
        ((Ratchet.decryptInPlace sent.message).on (strayTalk.party .responder).ratchet).1 = .error .missingChain :=
  ⟨Suite.agrees_oneMac, Suite.inverts_oneMac, by decide +kernel⟩

end

end RoomCrypt.Olm
