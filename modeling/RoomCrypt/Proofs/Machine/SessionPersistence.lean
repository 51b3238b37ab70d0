import RoomCrypt.Proofs.Laws
import RoomCrypt.Proofs.Machine.SessionRuns
import RoomCrypt.Proofs.Olm.Sending

/-!
# Sessions are saved before their results are returned

A call that has used a session saves it, and answers only after that. So whatever the store refuses and
whenever the machine is made anew, the session that comes next, be it from memory or from the store, stands
behind all messages that were returned, and no two of them have one ratchet key and one place.
-/

namespace RoomCrypt

open Olm (Session Channel lastPlace)
open Olm.Conversation (newPair?)
open Store

section

variable [Suite]

/-- What calls have to do with chains for sending, the latest first. -/
structure SendingLog where
  /-- The ratchet keys that were generated, each with the session that it is for. -/
  keys : List (SessionName × Curve25519Key) := []
  /-- The messages that were made, also those that were not returned. -/
  made : List OlmMessage := []
  /-- The messages that were returned. -/
  returned : List OlmMessage := []

namespace SendingLog

instance : Append SendingLog :=
  ⟨fun later earlier =>
    ⟨later.keys ++ earlier.keys, later.made ++ earlier.made, later.returned ++ earlier.returned⟩⟩

/-- All ratchet keys, as field elements. -/
def keyElements (log : SendingLog) : List ℕ :=
  log.keys.map (·.2.element)

omit [Suite] in
theorem keyElements_append (later earlier : SendingLog) :
    (later ++ earlier).keyElements = later.keyElements ++ earlier.keyElements :=
  List.map_append

omit [Suite] in
theorem append_assoc (latest later earlier : SendingLog) :
    latest ++ later ++ earlier = latest ++ (later ++ earlier) :=
  (SendingLog.mk.injEq ..).mpr
    ⟨List.append_assoc .., List.append_assoc .., List.append_assoc ..⟩

omit [Suite] in
theorem append_empty (log : SendingLog) : log ++ {} = log :=
  (SendingLog.mk.injEq ..).mpr ⟨List.append_nil _, List.append_nil _, List.append_nil _⟩

end SendingLog

/-- What an encryption has to do with chains for sending, from the messages that were returned. -/
def Machine.SessionUse.log (use : SessionUse OlmMessage) (returned : List OlmMessage) : SendingLog where
  keys := (newPair? use.before.state.ratchet use.used.state.ratchet).toList.map fun pair =>
    (use.used.name, pair.publicKey)
  made := [use.result]
  returned

/-- A session that was added brings the key of its chain for sending with it. -/
def SendingLog.ofAdded (session : Session Channel) : SendingLog where
  keys := session.state.ratchet.sender.toList.map fun chain => (session.name, chain.publicKey)

namespace SessionCall

/-- What a call has to do with chains for sending. -/
def log (state : MachineState) : SessionCall → SendingLog
  | add new =>
    match (InPlace.on (Machine.addSession (state.shared new.session)) (state.sharing new.session)).1 with
    | .ok () => .ofAdded new.session
    | .error _ => {}
  | encrypt senderKey plain =>
    let returned := (InPlace.on (Machine.encrypt senderKey plain) state).1.toOption.toList
    match Machine.encryption? senderKey plain state with
    | some use => use.log returned
    | none => { returned }
  | decrypt _ _ => {}
  | restart => {}

end SessionCall

/-- A session is added, or nothing is done but to share its channel. -/
theorem SessionCall.add_cases (state : MachineState) (new : NamedSession) :
    (add new).after state = state.sharing new.session ∧ (add new).log state = {} ∨
      (add new).after state = state.afterAdding new.session ∧ (add new).log state = .ofAdded new.session := by
  simp only [after, log]
  rcases state.addSession_cases new.session with ⟨_, -, hrun⟩ | hrun <;> rw [hrun]
  · exact Or.inl ⟨rfl, rfl⟩
  · exact Or.inr ⟨rfl, rfl⟩

/-- What calls have to do with chains for sending, the latest first. -/
def MachineState.sendingLog : MachineState → List SessionEvent → SendingLog
  | _, [] => {}
  | state, event :: events =>
    (event.call.after (state.within event.around)).sendingLog events ++ event.call.log (state.within event.around)

/-- A chain for sending is of a key that was generated for its session, and stands behind all messages of this
key that were returned. -/
def SendingLog.Unused (log : SendingLog) (session : Session Channel) : Prop :=
  ∀ chain ∈ session.state.ratchet.sender, (session.name, chain.publicKey) ∈ log.keys ∧
    ∀ message ∈ log.returned, message.ratchetKey.element = chain.publicKey.element → message.index < chain.index

namespace SendingLog.Unused

variable {log later : SendingLog} {session other : Session Channel}

omit [Suite] in
/-- It depends on nothing but the name and the chain for sending, which may be given up. -/
theorem of_sender (h : log.Unused session) (hname : other.name = session.name)
    (hsender : other.state.ratchet.sender = session.state.ratchet.sender ∨ other.state.ratchet.sender = none) :
    log.Unused other := by
  intro chain hchain
  rcases hsender with hsame | hnone
  · rw [hname]
    exact h chain (hsame ▸ hchain)
  · rw [hnone] at hchain
    cases hchain

omit [Suite] in
/-- It stays so when keys are generated. -/
theorem mono (h : log.Unused session) (hkeys : log.keys ⊆ later.keys) (hreturned : later.returned = log.returned) :
    later.Unused session := fun chain hchain =>
  ⟨hkeys (h chain hchain).1, hreturned ▸ (h chain hchain).2⟩

end SendingLog.Unused

namespace MachineState

/-- No session, be it cached or stored, comes back to a place of a message that was returned. -/
structure Unspent (log : SendingLog) (state : MachineState) : Prop where
  cached : state.Caches log.Unused
  stored : state.backend.store.Keeps log.Unused
  keys : log.keyElements.Nodup
  known : ∀ message ∈ log.returned, message.ratchetKey.element ∈ log.keyElements
  names : (log.returned.map OlmMessage.name).Nodup

end MachineState

/-- A machine that has just been made over an empty store has nothing that could come back. -/
theorem MachineState.unspent_boot (user : UserId) (config : Olm.RatchetConfig) :
    Unspent {} (boot user { config }) where
  cached := caches_boot user { config }
  stored := MemoryStore.keeps_empty config
  keys := List.nodup_nil
  known message hmessage := by cases hmessage
  names := List.nodup_nil

namespace Machine.SessionUse

variable {log : SendingLog} {use : SessionUse OlmMessage} {returned : List OlmMessage} {chain : Olm.SenderChain}

/-- A session has sent on a chain that is its own and stands behind all messages that were returned before. -/
structure SendsOn (use : SessionUse OlmMessage) (chain : Olm.SenderChain) (log : SendingLog)
    (returned : List OlmMessage) : Prop where
  sender_eq : use.used.state.ratchet.sender = some chain.next
  name_eq : use.result.name = (chain.publicKey.element, chain.index)
  known : (use.used.name, chain.publicKey) ∈ (use.log returned ++ log).keys
  below : ∀ message ∈ log.returned, message.ratchetKey.element = chain.publicKey.element → message.index < chain.index

/-- A session that encrypts sends on its chain, or on one with a key that nobody has used. -/
theorem exists_sendsOn {plain : Bytes} {entropy left : Entropy}
    (hratchet : use.before.state.ratchet.encrypt plain entropy = .ok (use.result, use.used.state.ratchet, left))
    (hname : use.used.name = use.before.name) (hbefore : log.Unused use.before)
    (hkeys : (use.log returned ++ log).keyElements.Nodup)
    (hknown : ∀ message ∈ log.returned, message.ratchetKey.element ∈ log.keyElements) :
    ∃ chain, use.SendsOn chain log returned := by
  obtain ⟨chain, hsender, hresult, ⟨hheld, -⟩ | ⟨-, hfresh⟩⟩ := Olm.Ratchet.chain_of_encrypt hratchet
  · obtain ⟨hmem, hbelow⟩ := hbefore chain hheld
    exact ⟨chain, hsender, hresult, List.mem_append_right _ (hname ▸ hmem), hbelow⟩
  · have hlog : (use.log returned).keys = [(use.used.name, chain.publicKey)] := by
      unfold SessionUse.log
      rw [hfresh]
      rfl
    refine ⟨chain, hsender, hresult, List.mem_append_left _ (hlog ▸ List.mem_cons_self), ?_⟩
    -- Nothing was returned yet that has the new key.
    intro message hmessage hsame
    rw [SendingLog.keyElements_append, SendingLog.keyElements, hlog] at hkeys
    have hnew : chain.publicKey.element ∉ log.keyElements := (List.nodup_cons.mp hkeys).1
    exact absurd (hsame ▸ hknown message hmessage) hnew

namespace SendsOn

variable (h : use.SendsOn chain log returned) (hreturned : returned.Sublist [use.result])

include h

/-- What was returned before has other names than the new message. -/
theorem name_notMem : use.result.name ∉ log.returned.map OlmMessage.name := by
  rw [h.name_eq]
  intro hmem
  obtain ⟨message, hmessage, hname⟩ := List.mem_map.mp hmem
  obtain ⟨hkey, hindex⟩ := Prod.mk.inj hname
  exact UInt32.lt_irrefl _ (hindex ▸ h.below message hmessage hkey)

include hreturned

/-- The session stands behind its message. -/
theorem unused (hlast : use.result.index ≠ lastPlace) : (use.log returned ++ log).Unused use.used := by
  obtain ⟨hkey, hindex⟩ := Prod.mk.inj h.name_eq
  intro later hlater
  obtain rfl : chain.next = later := Option.some.inj (h.sender_eq.symm.trans hlater)
  refine ⟨h.known, fun message hmessage hsame => ?_⟩
  have hnext : chain.next.index.toNat = chain.index.toNat + 1 :=
    Olm.SenderChain.toNat_index_next fun heq => hlast (hindex.trans heq)
  rw [UInt32.lt_iff_toNat_lt, hnext]
  rcases List.mem_append.mp hmessage with hnew | hold
  · rw [List.mem_singleton.mp (hreturned.subset hnew), hindex]
    exact Nat.lt_succ_self _
  · have hlt := UInt32.lt_iff_toNat_lt.mp (h.below message hold hsame)
    omega

/-- The sessions of other names have other keys. -/
theorem unused_other (hkeys : (use.log returned ++ log).keyElements.Nodup) {other : Session Channel}
    (hother : other.name ≠ use.used.name) (hunused : log.Unused other) : (use.log returned ++ log).Unused other := by
  intro own hown
  obtain ⟨hmem, hbelow⟩ := hunused own hown
  have hmem' : (other.name, own.publicKey) ∈ (use.log returned ++ log).keys := List.mem_append_right _ hmem
  refine ⟨hmem', fun message hmessage hsame => ?_⟩
  rcases List.mem_append.mp hmessage with hnew | hold
  · rw [List.mem_singleton.mp (hreturned.subset hnew)] at hsame
    have hkey : chain.publicKey.element = own.publicKey.element := (Prod.mk.inj h.name_eq).1.symm.trans hsame
    have hsession := List.inj_on_of_nodup_map hkeys h.known hmem' hkey
    exact absurd (Prod.mk.inj hsession).1.symm hother
  · exact hbelow message hold hsame

end SendsOn

end Machine.SessionUse

namespace MachineState.Unspent

variable {log : SendingLog} {state : MachineState}

/-- It depends on no surroundings. -/
theorem within (h : Unspent log state) (around : Surroundings) : Unspent log (state.within around) where
  cached := ⟨h.cached.held, h.cached.slots, h.cached.kept, h.cached.ids⟩
  stored := h.stored
  keys := h.keys
  known := h.known
  names := h.names

/-- Sessions are looked up. -/
theorem lookedUp (h : Unspent log state) (sender : String) : (state.lookedUp sender).Caches log.Unused :=
  h.cached.lookedUp h.stored (fun _ _ hunused hrestored =>
    hunused.of_sender hrestored.name_eq (Or.inl hrestored.sender_eq)) sender

/-- What holds of the messages when more of them are returned, of a session that has sent. -/
theorem of_sendsOn {use : Machine.SessionUse OlmMessage} {chain : Olm.SenderChain} {returned : List OlmMessage}
    {after : MachineState} (h : Unspent log state) (hsends : use.SendsOn chain log returned)
    (hreturned : returned.Sublist [use.result]) (hkeys : (use.log returned ++ log).keyElements.Nodup)
    (hcached : after.Caches (use.log returned ++ log).Unused)
    (hstored : after.backend.store.Keeps (use.log returned ++ log).Unused) :
    Unspent (use.log returned ++ log) after where
  cached := hcached
  stored := hstored
  keys := hkeys
  known message hmessage := by
    rcases List.mem_append.mp hmessage with hnew | hold
    · rw [List.mem_singleton.mp (hreturned.subset hnew), (Prod.mk.inj hsends.name_eq).1]
      exact List.mem_map_of_mem hsends.known
    · rw [SendingLog.keyElements_append]
      exact List.mem_append_right _ (h.known message hold)
  names := by
    change ((returned ++ log.returned).map OlmMessage.name).Nodup
    rw [List.map_append]
    have hnames : (([use.result] ++ log.returned).map OlmMessage.name).Nodup :=
      List.nodup_cons.mpr ⟨hsends.name_notMem, h.names⟩
    rw [List.map_append] at hnames
    exact hnames.sublist ((hreturned.map _).append_right _)

/-- A session is added. -/
theorem afterAdding (h : Unspent log state) (new : NamedSession)
    (hkeys : (SendingLog.ofAdded new.session ++ log).keyElements.Nodup) :
    Unspent (.ofAdded new.session ++ log) (state.afterAdding new.session) := by
  have hunused : ∀ session, log.Unused session → (SendingLog.ofAdded new.session ++ log).Unused session :=
    fun session hsession => hsession.mono (List.subset_append_right _ _) rfl
  have hnew : (SendingLog.ofAdded new.session ++ log).Unused new.session := fun chain hchain => by
    have hmem : (new.session.name, chain.publicKey) ∈ (SendingLog.ofAdded new.session).keys :=
      List.mem_map.mpr ⟨chain, Option.mem_toList.mpr hchain, rfl⟩
    -- Nothing was returned yet that has the key of the chain.
    refine ⟨List.mem_append_left _ hmem, fun message hmessage hsame => ?_⟩
    rw [SendingLog.keyElements_append] at hkeys
    exact absurd hsame.symm ((List.nodup_append.mp hkeys).2.2 _ (List.mem_map_of_mem hmem) _ (h.known message hmessage))
  exact
    { cached := h.cached.afterAdding hunused new.named hnew
      stored := h.stored.saveSession (fun other _ => hunused other) new.named hnew
      keys := hkeys
      known := fun message hmessage => by
        rw [SendingLog.keyElements_append]
        exact List.mem_append_right _ (h.known message hmessage)
      names := h.names }

/-- A session encrypts. -/
theorem encrypt (h : Unspent log state) (senderKey : Curve25519Key) (plain : Bytes)
    (hkeys : ((SessionCall.encrypt senderKey plain).log state ++ log).keyElements.Nodup)
    (hplaces : ∀ message ∈ ((SessionCall.encrypt senderKey plain).log state).made, message.index ≠ lastPlace) :
    Unspent ((SessionCall.encrypt senderKey plain).log state ++ log)
      ((SessionCall.encrypt senderKey plain).after state) := by
  have hlooked := h.lookedUp senderKey.toBase64
  obtain ⟨hnone, e, hrun⟩ | ⟨use, hsome, hrun, hsound, entropy, left, hratchet⟩ := Machine.encrypt_cases hlooked plain
  · have hlog : (SessionCall.encrypt senderKey plain).log state = {} := by
      simp only [SessionCall.log, hnone, hrun]
      rfl
    have hafter : (SessionCall.encrypt senderKey plain).after state = _ := congrArg Prod.snd hrun
    rw [hlog, hafter]
    exact ⟨hlooked, (state.backend_lookedUp senderKey.toBase64) ▸ h.stored, h.keys, h.known, h.names⟩
  have hlog : (SessionCall.encrypt senderKey plain).log state =
      use.log (use.finish senderKey.toBase64).1.toOption.toList := by
    simp only [SessionCall.log, hsome, hrun]
  have hafter : (SessionCall.encrypt senderKey plain).after state = (use.finish senderKey.toBase64).2 :=
    congrArg Prod.snd hrun
  rw [hlog] at hkeys hplaces
  rw [hlog, hafter]
  have hstored : use.state.backend.store.Keeps log.Unused := hsound.backend_eq ▸ h.stored
  have hlast := hplaces use.result List.mem_cons_self
  obtain ⟨chain, hsends⟩ :=
    Machine.SessionUse.exists_sendsOn hratchet hsound.name_eq (hsound.kept hlooked).2.2 hkeys h.known
  rcases use.finish_cases senderKey.toBase64 with ⟨message, -, hfinish⟩ | hfinish <;> rw [hfinish] at hkeys hsends ⊢
  · have hreturned : ([] : List OlmMessage).Sublist [use.result] := List.nil_sublist _
    refine h.of_sendsOn hsends hreturned hkeys
      (hsound.caches_putUsed hlooked (hsends.unused hreturned hlast) fun _ => hsends.unused_other hreturned hkeys) ?_
    exact hstored.imp fun session hsession => hsession.mono (List.subset_append_right _ _) rfl
  · have hreturned : [use.result].Sublist [use.result] := .refl _
    refine h.of_sendsOn hsends hreturned hkeys
      (hsound.caches_afterUse hlooked (hsends.unused hreturned hlast) fun _ => hsends.unused_other hreturned hkeys) ?_
    exact hstored.saveSession (fun _ => hsends.unused_other hreturned hkeys) (hsound.named hlooked)
      (hsends.unused hreturned hlast)

/-- A session decrypts: it keeps its chain for sending or gives it up. -/
theorem decrypt (h : Unspent log state) (senderKey : Curve25519Key) (message : OlmMessage) :
    Unspent log ((SessionCall.decrypt senderKey message).after state) := by
  have hlooked := h.lookedUp senderKey.toBase64
  simp only [SessionCall.after]
  obtain ⟨-, e, hrun⟩ | ⟨use, -, hrun, hsound, hratchet⟩ := Machine.decrypt_cases hlooked message <;> rw [hrun]
  · exact ⟨hlooked, (state.backend_lookedUp senderKey.toBase64) ▸ h.stored, h.keys, h.known, h.names⟩
  have hstored : use.state.backend.store.Keeps log.Unused := hsound.backend_eq ▸ h.stored
  have hunused : log.Unused use.used :=
    (hsound.kept hlooked).2.2.of_sender hsound.name_eq (Olm.Ratchet.sender_of_decrypt hratchet)
  rcases use.finish_cases senderKey.toBase64 with ⟨_, -, hfinish⟩ | hfinish <;> rw [hfinish]
  · exact ⟨hsound.caches_putUsed hlooked hunused fun _ _ => id, hstored, h.keys, h.known, h.names⟩
  · exact ⟨hsound.caches_afterUse hlooked hunused fun _ _ => id,
      hstored.saveSession (fun _ _ => id) (hsound.named hlooked) hunused, h.keys, h.known, h.names⟩

/-- Every call keeps the places of messages that were returned apart from those that come. -/
theorem after (h : Unspent log state) (call : SessionCall) (hkeys : (call.log state ++ log).keyElements.Nodup)
    (hplaces : ∀ message ∈ (call.log state).made, message.index ≠ lastPlace) :
    Unspent (call.log state ++ log) (call.after state) := by
  cases call with
  | add new =>
    rcases SessionCall.add_cases state new with ⟨hafter, hlog⟩ | ⟨hafter, hlog⟩
    · rw [hafter, hlog]
      exact ⟨h.cached.hold _, h.stored, h.keys, h.known, h.names⟩
    · rw [hlog] at hkeys
      rw [hafter, hlog]
      exact h.afterAdding new hkeys
  | encrypt senderKey plain => exact h.encrypt senderKey plain hkeys hplaces
  | decrypt senderKey message => exact h.decrypt senderKey message
  | restart => exact ⟨caches_ofUser _, h.stored, h.keys, h.known, h.names⟩

/-- And so does a run. -/
theorem afterSessionEvents (h : Unspent log state) (events : List SessionEvent)
    (hkeys : (state.sendingLog events ++ log).keyElements.Nodup)
    (hplaces : ∀ message ∈ (state.sendingLog events).made, message.index ≠ lastPlace) :
    Unspent (state.sendingLog events ++ log) (state.afterSessionEvents events) := by
  induction events generalizing log state with
  | nil => exact h
  | cons event events ih =>
    unfold MachineState.sendingLog at hkeys hplaces ⊢
    rw [SendingLog.append_assoc] at hkeys ⊢
    have hearlier : (event.call.log (state.within event.around) ++ log).keyElements.Nodup := by
      rw [SendingLog.keyElements_append] at hkeys
      exact hkeys.of_append_right
    have hcall := (h.within event.around).after event.call hearlier fun message hmessage =>
      hplaces message (List.mem_append_right _ hmessage)
    exact ih hcall hkeys fun message hmessage => hplaces message (List.mem_append_left _ hmessage)

end MachineState.Unspent

/-- Sessions with devices are persisted before the results of their calls are returned. After any calls, of
which any may fail in the store and between which the machine may be made anew over its store, a call that
encrypts or decrypts returns its result only when the session that was used stands at its place in memory and
its record, as it is there, is in the store. If the ratchet keys that are generated differ and no chain comes
to its last place, no two messages that were returned have one ratchet key and one place. -/
theorem persisted_before_returned (user : UserId) (config : Olm.RatchetConfig) (events : List SessionEvent) :
    let start := MachineState.boot user { config }
    let state := start.afterSessionEvents events
    let log := start.sendingLog events
    (∀ around senderKey plain message after,
      InPlace.on (Machine.encrypt senderKey plain) (state.within around) = (.ok message, after) →
        ∃ use, Machine.encryption? senderKey plain (state.within around) = some use ∧ use.result = message ∧
          after.Persisted senderKey.toBase64 use.place use.slot use.used) ∧
      (∀ around senderKey message plain after,
        InPlace.on (Machine.decrypt senderKey message) (state.within around) = (.ok plain, after) →
          ∃ use, Machine.decryption? senderKey message (state.within around) = some use ∧ use.result = plain ∧
            after.Persisted senderKey.toBase64 use.place use.slot use.used) ∧
      (log.keyElements.Nodup → (∀ message ∈ log.made, message.index ≠ lastPlace) →
        (log.returned.map OlmMessage.name).Nodup) := by
  intro start state log
  have htidy : state.SessionsTidy := (MachineState.sessionsTidy_boot user config).afterSessionEvents events
  refine ⟨fun around senderKey plain message after hrun => ?_, fun around senderKey message plain after hrun => ?_,
    fun hkeys hplaces => ?_⟩
  · have hlooked := ((htidy.within around).lookedUp senderKey.toBase64).cached
    obtain ⟨-, e, hfails⟩ | ⟨use, hsome, hcall, hsound, -⟩ := Machine.encrypt_cases hlooked plain
    · cases hfails.symm.trans hrun
    · exact ⟨use, hsome, hsound.persisted_of_finish hlooked (hcall.symm.trans hrun)⟩
  · have hlooked := ((htidy.within around).lookedUp senderKey.toBase64).cached
    obtain ⟨-, e, hfails⟩ | ⟨use, hsome, hcall, hsound, -⟩ := Machine.decrypt_cases hlooked message
    · cases hfails.symm.trans hrun
    · exact ⟨use, hsome, hsound.persisted_of_finish hlooked (hcall.symm.trans hrun)⟩
  · have hunspent := (MachineState.unspent_boot user config).afterSessionEvents events
    rw [SendingLog.append_empty] at hunspent
    exact (hunspent hkeys hplaces).names

end

open scoped Suite.Evaluation

/-- A session that was opened with one of several devices. -/
def openedSession (device : ℕ) : NamedSession where
  session :=
    let keys : Olm.SessionKeys := ⟨⟨.ofNatLE 32 1⟩, ⟨.ofNatLE 32 2⟩, ⟨.ofNatLE 32 device⟩⟩
    .ofChannel ⟨.ofNatLE 32 device⟩ (Channel.outbound keys [8] ⟨fun _ => .ofNat device, 0⟩).1 default
  named := rfl

/-- A message to a device is lost when it cannot be saved, and the next one is returned. The machine is made
anew, and it goes on with another device. -/
def interruptedCalls : List SessionEvent :=
  [⟨default, .add (openedSession 5)⟩,
    ⟨{ (default : Surroundings) with outage := fun _ => some "disk full" }, .encrypt ⟨.ofNatLE 32 5⟩ [1]⟩,
    ⟨default, .encrypt ⟨.ofNatLE 32 5⟩ [1]⟩, ⟨default, .restart⟩, ⟨default, .add (openedSession 6)⟩,
    ⟨default, .encrypt ⟨.ofNatLE 32 6⟩ [2]⟩]

/-- The place of the lost message is not used again, and the next message is persisted before it is returned. -/
theorem persisted_before_returned_interrupted :
    let start := MachineState.boot evaluationUser {}
    let state := start.afterSessionEvents interruptedCalls
    let log := start.sendingLog interruptedCalls
    let next := InPlace.on (Machine.encrypt ⟨.ofNatLE 32 6⟩ [3]) (state.within default)
    log.made.map (·.index) = [0, 1, 0] ∧ log.returned.map (·.index) = [0, 1] ∧
      (log.returned.map OlmMessage.name).Nodup ∧ next.1.toOption.isSome = true ∧
      ∃ place slot used, next.2.Persisted (Curve25519Key.toBase64 ⟨.ofNatLE 32 6⟩) place slot used := by
  intro start state log next
  obtain ⟨hencrypt, -, hnames⟩ := persisted_before_returned evaluationUser {} interruptedCalls
  have hkeys : log.keyElements.Nodup := by decide +kernel
  have hplaces : ∀ message ∈ log.made, message.index ≠ lastPlace := by decide +kernel
  have hnext : next.1.toOption.isSome = true := by decide +kernel
  refine ⟨by decide +kernel, by decide +kernel, hnames hkeys hplaces, hnext, ?_⟩
  rcases hrun : next with ⟨e | message, after⟩
  · rw [hrun] at hnext
    cases hnext
  · obtain ⟨use, -, -, hpersisted⟩ := hencrypt default ⟨.ofNatLE 32 6⟩ [3] message after hrun
    exact ⟨use.place, use.slot, use.used, hpersisted⟩

end RoomCrypt
