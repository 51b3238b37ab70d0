import RoomCrypt.Proofs.Olm.Sending

/-!
# What an event does

A side that sends uses its chain for sending or makes a new pair first, and a delivery reads the message
or changes nothing. Pairs and messages only become more, so that what holds of all of them at the end of
a run has held at any time before.
-/

namespace RoomCrypt.Olm.Conversation

variable [Suite] {talk : Conversation}

/-- A later conversation: there are more pairs and more messages. -/
structure Grows (talk later : Conversation) : Prop where
  pairs : talk.pairs <:+ later.pairs
  sent : ∀ side, (talk.party side).sent ⊆ (later.party side).sent

/-- A side that has a chain for sending makes no pair. -/
theorem step_send {side : Side} {chain : SenderChain}
    (hsender : (talk.party side).ratchet.sender = some chain) (plain : Bytes) (entropy : Entropy) :
    talk.step (.send side plain entropy) =
      talk.put side ((talk.party side).afterSending
        { (talk.party side).ratchet with sender := some chain.next }
        ⟨chain.messageKey.encrypt chain.publicKey plain, plain⟩) := by
  have hpair : newPair? (talk.party side).ratchet
      { (talk.party side).ratchet with sender := some chain.next } = none := by
    simp [newPair?, hsender]
  simp only [step, Ratchet.on_encryptInPlace, Ratchet.encrypt_of_sender hsender, InPlace.settle, hpair]
  rfl

/-- A side that has none makes a pair, with a fresh chain. -/
theorem step_send_fresh {side : Side} {ratchetKey : Curve25519Key}
    (hsender : (talk.party side).ratchet.sender = none)
    (hreceiver : ((talk.party side).ratchet.receivers.map (·.ratchetKey)).head? = some ratchetKey)
    (plain : Bytes) (entropy : Entropy) :
    let chain := (talk.party side).ratchet.freshSender entropy ratchetKey
    talk.step (.send side plain entropy) =
      { talk.put side ((talk.party side).afterSending ((talk.party side).ratchet.afterFresh entropy ratchetKey)
          ⟨chain.messageKey.encrypt chain.publicKey plain, plain⟩) with
        pairs := chain.keyPair :: talk.pairs } := by
  have hpair : newPair? (talk.party side).ratchet ((talk.party side).ratchet.afterFresh entropy ratchetKey) =
      some ((talk.party side).ratchet.freshSender entropy ratchetKey).keyPair := by
    simp only [newPair?, hsender]
    rfl
  simp only [step, Ratchet.on_encryptInPlace, Ratchet.encrypt_of_receiver hsender hreceiver, InPlace.settle,
    hpair]
  rfl

/-- A delivery changes nothing, or its message is read. -/
theorem step_deliver (talk : Conversation) (side : Side) (place : ℕ) :
    talk.step (.deliver side place) = talk ∨
      ∃ sent ∈ (talk.party side.other).sent[place]?, ∃ plain ratchet,
        (talk.party side).ratchet.Accepts sent.message plain ratchet ∧
        talk.step (.deliver side place) = talk.put side ((talk.party side).afterReading ratchet sent.message) := by
  cases hsent : (talk.party side.other).sent[place]? with
  | none => exact Or.inl (by simp only [step, hsent])
  | some sent =>
    cases hdecrypt : (talk.party side).ratchet.decrypt sent.message with
    | error e =>
      left
      simp only [step, hsent, Ratchet.on_decryptInPlace, hdecrypt, InPlace.settle]
      exact congrArg (Conversation.mk · talk.pairs) (Function.update_eq_self ..)
    | ok result =>
      right
      refine ⟨sent, rfl, result.1, result.2, (Ratchet.decrypt_eq_ok_iff ..).mp hdecrypt, ?_⟩
      simp only [step, hsent, Ratchet.on_decryptInPlace, hdecrypt, InPlace.settle]

omit [Suite] in
/-- A conversation grows when one party sends more and pairs are made. -/
theorem grows_put {side : Side} {party : Party} {pairs : List RatchetKeyPair}
    (hsent : (talk.party side).sent ⊆ party.sent) (hpairs : talk.pairs <:+ pairs) :
    Grows talk { talk.put side party with pairs } := by
  refine ⟨hpairs, fun a => ?_⟩
  change (talk.party a).sent ⊆ (Function.update talk.party side party a).sent
  by_cases hside : a = side
  · rw [hside, Function.update_self]
    exact hsent
  · rw [Function.update_of_ne hside]
    exact List.Subset.refl _

/-- Every event makes a conversation grow. -/
theorem grows_step (talk : Conversation) (event : Event) : Grows talk (talk.step event) := by
  cases event with
  | send side plain entropy =>
    cases hencrypt : (talk.party side).ratchet.encrypt plain entropy with
    | error e =>
      simp only [step, Ratchet.on_encryptInPlace, hencrypt, InPlace.settle]
      exact grows_put (List.Subset.refl _) List.suffix_rfl
    | ok result =>
      simp only [step, Ratchet.on_encryptInPlace, hencrypt, InPlace.settle]
      exact grows_put (List.subset_append_left _ _) (List.suffix_append _ _)
  | deliver side place =>
    rcases talk.step_deliver side place with hsame | ⟨sent, -, plain, ratchet, -, hstep⟩
    · rw [hsame]
      exact ⟨List.suffix_rfl, fun _ => List.Subset.refl _⟩
    · rw [hstep]
      exact grows_put (List.Subset.refl _) List.suffix_rfl

/-- So does every run. -/
theorem grows_run (talk : Conversation) (events : List Event) : Grows talk (talk.run events) := by
  induction events generalizing talk with
  | nil => exact ⟨List.suffix_rfl, fun _ => List.Subset.refl _⟩
  | cons event events ih =>
    have hstep := talk.grows_step event
    have hrun := ih (talk.step event)
    exact ⟨hstep.pairs.trans hrun.pairs, fun side => List.Subset.trans (hstep.sent side) (hrun.sent side)⟩

/-- No ratchet key is made twice. -/
def KeysDistinct (talk : Conversation) : Prop :=
  (talk.pairs.map (·.publicKey.element)).Nodup

instance : Decidable talk.KeysDistinct :=
  inferInstanceAs (Decidable (List.Nodup _))

/-- No message is sent at the last place of a chain. -/
def PlacesLeft (talk : Conversation) : Prop :=
  ∀ side, ∀ sent ∈ (talk.party side).sent, sent.message.index ≠ lastPlace

omit [Suite] in
theorem placesLeft_iff : talk.PlacesLeft ↔
    (∀ sent ∈ (talk.party .initiator).sent, sent.message.index ≠ lastPlace) ∧
      ∀ sent ∈ (talk.party .responder).sent, sent.message.index ≠ lastPlace := by
  constructor
  · intro h
    exact ⟨h .initiator, h .responder⟩
  · rintro ⟨hinitiator, hresponder⟩ side
    cases side with
    | initiator => exact hinitiator
    | responder => exact hresponder

instance : Decidable talk.PlacesLeft :=
  decidable_of_iff _ placesLeft_iff.symm

omit [Suite] in
/-- What is distinct at the end was distinct before. -/
theorem Grows.keysDistinct {later : Conversation} (h : Grows talk later) (hlater : later.KeysDistinct) :
    talk.KeysDistinct :=
  (h.pairs.sublist.map _).nodup hlater

omit [Suite] in
/-- A place that is left at the end was left before. -/
theorem Grows.placesLeft {later : Conversation} (h : Grows talk later) (hlater : later.PlacesLeft) :
    talk.PlacesLeft :=
  fun side sent hsent => hlater side sent (h.sent side hsent)

end RoomCrypt.Olm.Conversation
