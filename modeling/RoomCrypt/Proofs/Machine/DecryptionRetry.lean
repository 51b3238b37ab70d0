import RoomCrypt.Proofs.Machine.CacheAgreement

/-!
# Decryptions that fail

A decryption may fail before a session was used, because the sessions cannot be loaded or none of them opens
the message. Then all sessions are as before, and the call can be made again. It may also fail in the save
that comes last, and then the session that has opened the message has moved on in memory, though its plaintext
is not returned.
-/

namespace RoomCrypt

open Olm (Session Channel)
open Store

/-- The store answers all calls. -/
def Surroundings.StoreWorks (around : Surroundings) : Prop :=
  ∀ call, around.outage call = none

section

variable [Suite]

namespace MachineState

/-- The sessions that a machine works with for a device: those that are cached, or else those that are stored. -/
def sessionsWith (state : MachineState) (sender : String) : Except StoreError (List (Session Channel)) :=
  match state.machine.sessions.find? sender with
  | some sessions => .ok (sessions.map state.view)
  | none => (state.backend.store.loadSessions sender).map (·.getD [])

variable {state after : MachineState} {P : Session Channel → Prop} {sender : String}

omit [Suite] in
theorem viewAt?_of_find? {sessions : List (Session (Slot Channel))}
    (hlist : state.machine.sessions.find? sender = some sessions) (place : ℕ) :
    state.viewAt? sender place = (sessions.map state.view)[place]? := by
  unfold viewAt? cachedAt?
  rw [hlist, Option.bind_some, List.getElem?_map]

theorem sessionsWith_of_find? {sessions : List (Session (Slot Channel))}
    (hlist : state.machine.sessions.find? sender = some sessions) :
    state.sessionsWith sender = .ok (sessions.map state.view) := by
  unfold sessionsWith
  rw [hlist]

theorem sessionsWith_of_not_cached (hlist : state.machine.sessions.find? sender = none) :
    state.sessionsWith sender = (state.backend.store.loadSessions sender).map (·.getD []) := by
  unfold sessionsWith
  rw [hlist]

/-- Sessions in a list that is cached are those that are seen at its places. -/
theorem sessionsWith_eq_ok {seen : List (Session Channel)}
    (hlist : (state.machine.sessions.find? sender).isSome)
    (hplaces : ∀ place, state.viewAt? sender place = seen[place]?) : state.sessionsWith sender = .ok seen := by
  obtain ⟨sessions, hsessions⟩ := Option.isSome_iff_exists.mp hlist
  rw [sessionsWith_of_find? hsessions]
  refine congrArg Except.ok (List.ext_getElem? fun place => ?_)
  rw [← viewAt?_of_find? hsessions, hplaces]

/-- The sessions stay the same if they are cached or not as before, the same is seen at all places, and the store is
the same. -/
theorem sessionsWith_congr (hstore : after.backend.store = state.backend.store)
    (hlist : (after.machine.sessions.find? sender).isSome = (state.machine.sessions.find? sender).isSome)
    (hplaces : ∀ place, after.viewAt? sender place = state.viewAt? sender place) :
    after.sessionsWith sender = state.sessionsWith sender := by
  cases hsessions : state.machine.sessions.find? sender with
  | none =>
    rw [hsessions, Option.isSome_none, Option.isSome_eq_false_iff, Option.isNone_iff_eq_none] at hlist
    rw [sessionsWith_of_not_cached hsessions, sessionsWith_of_not_cached hlist, hstore]
  | some sessions =>
    rw [hsessions] at hlist
    rw [sessionsWith_of_find? hsessions, sessionsWith_eq_ok hlist fun place => (hplaces place).trans ?_]
    exact viewAt?_of_find? hsessions place

/-- To load the sessions of a device does not change which ones the machine works with. -/
theorem Caches.sessionsWith_withLoaded (h : state.Caches P) (hlist : state.machine.sessions.find? sender = none)
    {found : Option (List (Session Channel))} (hload : state.backend.store.loadSessions sender = .ok found)
    (other : String) : (state.withLoaded sender (found.getD [])).sessionsWith other = state.sessionsWith other := by
  have hplaces := h.viewAt?_withLoaded sender (found.getD []) other
  by_cases hsender : other = sender
  · subst hsender
    rw [sessionsWith_of_not_cached hlist, hload]
    refine sessionsWith_eq_ok ?_ fun place => (hplaces place).trans (if_pos rfl)
    exact Option.isSome_of_eq_some (Dict.find?_insert_self _ _ _)
  · refine sessionsWith_congr rfl ?_ fun place => (hplaces place).trans (if_neg hsender)
    exact congrArg Option.isSome (Dict.find?_insert_of_ne _ hsender _)

/-- Nor does a look-up, whatever comes of it. -/
theorem Caches.sessionsWith_lookedUp (h : state.Caches P) (sender other : String) :
    (state.lookedUp sender).sessionsWith other = state.sessionsWith other := by
  unfold MachineState.lookedUp
  cases hlist : state.machine.sessions.find? sender with
  | some sessions => rw [Machine.on_sessionsOf_of_cached hlist]
  | none =>
    rw [Machine.on_sessionsOf_of_not_cached hlist]
    cases hload : state.backend.loadSessions sender with
    | error e => rfl
    | ok found => exact h.sessionsWith_withLoaded hlist (Backend.eq_ok_of_attempt hload) other

/-- Sessions that were found are those that the machine works with. -/
theorem Caches.sessionsWith_of_found (h : state.Caches P) {sessions : List (Session (Slot Channel))}
    (hfound : InPlace.on (Machine.sessionsOf sender) state = (.ok sessions, after)) :
    state.sessionsWith sender = .ok (sessions.map after.view) := by
  obtain ⟨rfl, hlist⟩ := find?_lookedUp hfound
  rw [← h.sessionsWith_lookedUp sender, sessionsWith_of_find? hlist]

/-- If the store answers and they are not found, they cannot be read. -/
theorem sessionsWith_of_not_found (hworks : state.backend.outage .sessions = none) {e : StoreError}
    (hfails : InPlace.on (Machine.sessionsOf sender) state = (.error e, after)) :
    state.sessionsWith sender = .error e := by
  cases hlist : state.machine.sessions.find? sender with
  | some sessions => cases (Machine.on_sessionsOf_of_cached hlist).symm.trans hfails
  | none =>
    have hload : state.backend.loadSessions sender = state.backend.store.loadSessions sender := by
      unfold Backend.loadSessions Backend.attempt
      rw [hworks]
    have hrun := (Machine.on_sessionsOf_of_not_cached hlist).symm.trans hfails
    rw [sessionsWith_of_not_cached hlist, ← hload]
    cases hread : state.backend.loadSessions sender with
    | error e' =>
      rw [hread] at hrun
      cases hrun
      rfl
    | ok found =>
      rw [hread] at hrun
      cases hrun

end MachineState

namespace Machine

/-- The plaintext of a message, if one of the sessions opens it. -/
def plaintext? (message : OlmMessage) (sessions : List (Session Channel)) : Option Bytes :=
  sessions.findSome? fun session => (session.state.decrypt message).toOption.map Prod.fst

/-- What a decryption answers with the sessions that there are. -/
def answer (senderKey : Curve25519Key) (message : OlmMessage) :
    Except StoreError (List (Session Channel)) → Except SessionError Bytes
  | .error e => .error (.store e)
  | .ok sessions =>
    match plaintext? message sessions with
    | none => .error (.missingSession senderKey)
    | some plain => .ok plain

variable {state : MachineState} {P : Session Channel → Prop}

/-- A session gives the plaintext that its channel gives, at whatever time. -/
theorem plain_of_session_decrypt (session : Session Channel) (message : OlmMessage) (now : Clock) :
    (session.decrypt message now).toOption.map Prod.fst = (session.state.decrypt message).toOption.map Prod.fst := by
  unfold Session.decrypt
  cases session.state.decrypt message <;> rfl

/-- The session that opens a message first gives its plaintext. -/
theorem plain_of_firstOpened? (state : MachineState) (message : OlmMessage)
    (sessions : List (Session (Slot Channel))) :
    (firstOpened? state message sessions).map (·.plain) = plaintext? message (sessions.map state.view) := by
  unfold firstOpened? plaintext?
  conv_rhs => rw [← List.zipIdx_map_fst 0 sessions]
  rw [List.map_findSome?, List.findSome?_map, List.findSome?_map]
  refine congrArg (List.findSome? · _) (funext fun ⟨session, place⟩ => ?_)
  simp only [Function.comp_apply, ← plain_of_session_decrypt (state.view session) message state.now]
  cases (state.view session).decrypt message state.now <;> rfl

/-- If the store works, a decryption answers as the sessions do that the machine works with. -/
theorem decrypt_of_works (h : state.Caches P) (hworks : ∀ call, state.backend.outage call = none)
    (senderKey : Curve25519Key) (message : OlmMessage) :
    (InPlace.on (decrypt senderKey message) state).1 =
      answer senderKey message (state.sessionsWith senderKey.toBase64) := by
  have hrun : InPlace.on (decrypt senderKey message) state = _ := InPlace.on_bind _ _ _
  rw [Task.on_wrap] at hrun
  rw [hrun]
  rcases hlookup : InPlace.on (sessionsOf senderKey.toBase64) state with ⟨e | sessions, loaded⟩
  · rw [MachineState.sessionsWith_of_not_found (hworks .sessions) hlookup]
    rfl
  · have hloaded := (MachineState.find?_lookedUp hlookup).1
    rw [h.sessionsWith_of_found hlookup]
    unfold answer
    dsimp only [Except.mapError]
    rw [InPlace.on_bind, InPlace.on_get, ← plain_of_firstOpened? loaded message sessions]
    dsimp only
    cases firstOpened? loaded message sessions with
    | none => rfl
    | some opened =>
      have houtage : loaded.backend.outage .saveChanges = none := by
        rw [hloaded, state.backend_lookedUp]
        exact hworks .saveChanges
      dsimp only [Option.map_some]
      rw [InPlace.on_bind, Task.on_set]
      dsimp only
      rw [InPlace.on_bind, Task.on_wrap, on_save]
      dsimp only [MachineState.putUsed]
      rw [houtage]
      rfl

/-- A message that a session opens is one that the machine's sessions give the plaintext of. -/
theorem listed_of_decryption? (h : state.Caches P) {senderKey : Curve25519Key} {message : OlmMessage}
    {use : SessionUse Bytes} (hsome : decryption? senderKey message state = some use) :
    ∃ sessions, state.sessionsWith senderKey.toBase64 = .ok sessions ∧ sessions[use.place]? = some use.before ∧
      use.before.decrypt message state.now = .ok (use.result, use.used) ∧
      plaintext? message sessions = some use.result := by
  unfold decryption? at hsome
  rcases hlookup : InPlace.on (sessionsOf senderKey.toBase64) state with ⟨e | sessions, loaded⟩
  · rw [hlookup] at hsome
    cases hsome
  · rw [hlookup] at hsome
    obtain ⟨opened, hopened, hrest⟩ := Option.bind_eq_some_iff.mp hsome
    obtain ⟨session, hplace, huse⟩ := Option.bind_eq_some_iff.mp hrest
    obtain ⟨session', hplace', -, hdecrypt⟩ := getElem?_of_firstOpened? hopened
    obtain rfl : session = session' := Option.some.inj (hplace.symm.trans hplace')
    obtain rfl := Option.some.inj huse
    have hnow : loaded.now = state.now := by
      rw [(MachineState.find?_lookedUp hlookup).1]
      exact state.now_lookedUp _
    refine ⟨_, h.sessionsWith_of_found hlookup, ?_, hnow ▸ hdecrypt, ?_⟩
    · rw [List.getElem?_map, hplace]
      rfl
    · rw [← plain_of_firstOpened?, hopened]
      rfl

end Machine

namespace MachineState

variable {state after : MachineState} {P : Session Channel → Prop} {sender : String}

/-- A session that was used is seen at its place, and all else is as before. -/
theorem Caches.sessionsWith_putUsed (h : state.Caches P) {place : ℕ} {session : Session (Slot Channel)}
    (hcached : state.cachedAt? sender place = some session) {used : Session Channel}
    (hname : used.name = session.name) {seen : List (Session Channel)} (hseen : state.sessionsWith sender = .ok seen)
    (other : String) :
    (state.putUsed sender place session.state used).sessionsWith other =
      if other = sender then .ok (seen.set place used) else state.sessionsWith other := by
  obtain ⟨sessions, hlist, hplace⟩ := Option.bind_eq_some_iff.mp hcached
  obtain rfl := Except.ok.inj ((sessionsWith_of_find? hlist).symm.trans hseen)
  have hfind := find?_putUsed hlist place session.state used other
  have hplaces := (h.puts_putUsed hcached hname).viewAt? other
  by_cases hsender : other = sender
  · subst hsender
    rw [if_pos rfl] at hfind ⊢
    refine sessionsWith_eq_ok (Option.isSome_of_eq_some hfind) fun index => ?_
    rw [hplaces, h.view_putUsed hcached]
    by_cases hindex : index = place
    · subst hindex
      have hlt := (List.getElem?_eq_some_iff.mp hplace).1
      rw [if_pos ⟨rfl, rfl⟩, List.getElem?_set_self (by simpa using hlt)]
    · rw [if_neg fun hsame => hindex hsame.2, List.getElem?_set_ne (Ne.symm hindex), viewAt?_of_find? hlist]
  · rw [if_neg hsender] at hfind ⊢
    refine sessionsWith_congr rfl (congrArg Option.isSome hfind) fun index => ?_
    rw [hplaces, if_neg fun hsame => hsender hsame.1]

/-- All sessions are as they were, so that a decryption answers what it would have answered then, once the store
works. -/
structure Repeats (state after : MachineState) (senderKey : Curve25519Key) (message : OlmMessage) : Prop where
  sessions_eq : ∀ sender, after.sessionsWith sender = state.sessionsWith sender
  answers_eq : ∀ first again : Surroundings, first.StoreWorks → again.StoreWorks →
    (InPlace.on (Machine.decrypt senderKey message) (after.within again)).1 =
      (InPlace.on (Machine.decrypt senderKey message) (state.within first)).1

/-- One session has opened a message, whose plaintext a decryption would have returned if the store worked. It has
moved on, and no other session has. -/
structure MovesOn (state after : MachineState) (senderKey : Curve25519Key) (message : OlmMessage) (now : Clock)
    (use : Machine.SessionUse Bytes) : Prop where
  opens : use.before.decrypt message now = .ok (use.result, use.used)
  answers : ∀ first : Surroundings, first.StoreWorks →
    (InPlace.on (Machine.decrypt senderKey message) (state.within first)).1 = .ok use.result
  sessions_eq : ∃ sessions, state.sessionsWith senderKey.toBase64 = .ok sessions ∧
    sessions[use.place]? = some use.before ∧
    ∀ sender, after.sessionsWith sender =
      if sender = senderKey.toBase64 then .ok (sessions.set use.place use.used) else state.sessionsWith sender

namespace SessionsTidy

/-- In surroundings in which the store works, a decryption answers as the sessions do. -/
theorem decrypt_within (h : state.SessionsTidy) {around : Surroundings} (hworks : around.StoreWorks)
    (senderKey : Curve25519Key) (message : OlmMessage) :
    (InPlace.on (Machine.decrypt senderKey message) (state.within around)).1 =
      Machine.answer senderKey message (state.sessionsWith senderKey.toBase64) :=
  Machine.decrypt_of_works (h.within around).cached hworks senderKey message

/-- If the sessions are the same, the call can be made again. -/
theorem repeats (h : state.SessionsTidy) (hafter : after.SessionsTidy)
    (hsame : ∀ sender, after.sessionsWith sender = state.sessionsWith sender) (senderKey : Curve25519Key)
    (message : OlmMessage) : state.Repeats after senderKey message where
  sessions_eq := hsame
  answers_eq first again hfirst hagain := by
    rw [hafter.decrypt_within hagain, h.decrypt_within hfirst, hsame]

/-- If a session was used and not saved, it alone has moved on. -/
theorem movesOn (h : state.SessionsTidy) {around : Surroundings} {senderKey : Curve25519Key} {message : OlmMessage}
    {use : Machine.SessionUse Bytes} (hsome : Machine.decryption? senderKey message (state.within around) = some use)
    (hsound : use.Sound (state.within around) senderKey.toBase64) :
    state.MovesOn (use.state.putUsed senderKey.toBase64 use.place use.slot use.used) senderKey message around.now
      use := by
  have hwithin := h.within around
  have hlooked := (hwithin.lookedUp senderKey.toBase64).cached
  obtain ⟨sessions, hseen, hplace, hopens, hplain⟩ := Machine.listed_of_decryption? hwithin.cached hsome
  have hstate (sender : String) : use.state.sessionsWith sender = state.sessionsWith sender := by
    obtain ⟨entropy, hstate⟩ := hsound.looked
    rw [hstate]
    exact hwithin.cached.sessionsWith_lookedUp senderKey.toBase64 sender
  refine ⟨hopens, fun first hfirst => ?_, sessions, hseen, hplace, fun sender => ?_⟩
  · rw [h.decrypt_within hfirst]
    change Machine.answer senderKey message ((state.within around).sessionsWith senderKey.toBase64) = _
    rw [hseen]
    unfold Machine.answer
    dsimp only
    rw [hplain]
  · obtain ⟨session, hcached, hslot, hbefore⟩ := hsound.cached
    have hname : use.used.name = session.name := hsound.name_eq.trans (congrArg Session.name hbefore)
    rw [hslot, (hsound.caches hlooked).sessionsWith_putUsed hcached hname ((hstate _).trans hseen), hstate]

end SessionsTidy

end MachineState

/-- A decryption that fails changes nothing that is stored. All sessions that the machine works with are as they
were, and the call can be made again, unless it was the save that failed: then the session that has opened the
message has moved on in memory, and no other one has. This is so after any calls, of which any may fail in the
store and between which the machine may be made anew over its store. -/
theorem failed_decryption_repeats_unless_unsaved (user : UserId) (config : Olm.RatchetConfig)
    (events : List SessionEvent) (around : Surroundings) (senderKey : Curve25519Key) (message : OlmMessage)
    {e : SessionError} {after : MachineState} :
    let state := (MachineState.boot user { config }).afterSessionEvents events
    InPlace.on (Machine.decrypt senderKey message) (state.within around) = (.error e, after) →
      after.backend.store = state.backend.store ∧
        (state.Repeats after senderKey message ∨
          ∃ text use, around.outage .saveChanges = some text ∧ e = .store (.backend text) ∧
            state.MovesOn after senderKey message around.now use) := by
  intro state hfails
  have htidy : state.SessionsTidy := (MachineState.sessionsTidy_boot user config).afterSessionEvents events
  have hwithin := htidy.within around
  have hlooked := hwithin.lookedUp senderKey.toBase64
  obtain ⟨-, _, hrun⟩ | ⟨use, hsome, hrun, hsound, -⟩ := Machine.decrypt_cases hlooked.cached message
  · cases hrun.symm.trans hfails
    refine ⟨(congrArg Backend.store ((state.within around).backend_lookedUp _)).trans rfl, Or.inl ?_⟩
    exact htidy.repeats hlooked (hwithin.cached.sessionsWith_lookedUp senderKey.toBase64) senderKey message
  · have hbackend := hsound.backend_eq
    rcases use.finish_cases senderKey.toBase64 with ⟨text, houtage, hfinish⟩ | hfinish
    · cases (hrun.trans hfinish).symm.trans hfails
      rw [hbackend] at houtage
      exact ⟨(congrArg Backend.store hbackend).trans rfl,
        Or.inr ⟨text, use, houtage, rfl, htidy.movesOn hsome hsound⟩⟩
    · cases (hrun.trans hfinish).symm.trans hfails

end

open scoped Suite.Evaluation

/-- A store that fails in some of its calls. -/
def failingIn (call : StoreCall) : Surroundings :=
  { (default : Surroundings) with outage := fun other => if other = call then some "disk full" else none }

/-- A message that the other device has sent on the chain with which it opened its session. -/
def awaitedMessage : OlmMessage :=
  (openingChain 2).messageKey.encrypt (openingChain 2).publicKey [9]

/-- A session is in the store, and the machine has just been made. -/
def storedCalls : List SessionEvent :=
  [⟨default, .add (answeredSession 2)⟩, ⟨default, .restart⟩]

/-- It is loaded as it was saved. -/
theorem sessionsWith_storedCalls :
    ((MachineState.boot evaluationUser {}).afterSessionEvents storedCalls).sessionsWith
      (Curve25519Key.toBase64 ⟨.ofNatLE 32 1⟩) = .ok [(answeredSession 2).session] := by
  have hratchet : (answeredSession 2).session.state.ratchet.Restorable {} :=
    ⟨rfl, rfl, by decide, by decide, by decide, by decide, nofun, nofun⟩
  have hload : ((MachineState.boot evaluationUser {}).afterSessionEvents storedCalls).backend.store.loadSessions
      (Curve25519Key.toBase64 ⟨.ofNatLE 32 1⟩) = .ok (some [(answeredSession 2).session]) := by
    refine MemoryStore.loadSessions_of_restored rfl fun session hsession => ?_
    obtain rfl := List.mem_singleton.mp hsession
    exact Session.ofPickle?_pickle hratchet rfl
  rw [MachineState.sessionsWith_of_not_cached rfl, hload]
  rfl

/-- A message whose session cannot be loaded is decrypted when the call is made again. -/
theorem failed_decryption_repeats_unless_unsaved_unloaded :
    let senderKey : Curve25519Key := ⟨.ofNatLE 32 1⟩
    let state := (MachineState.boot evaluationUser {}).afterSessionEvents storedCalls
    let failed := InPlace.on (Machine.decrypt senderKey awaitedMessage) (state.within (failingIn .sessions))
    failed.1 = .error (.store (.backend "disk full")) ∧
      (∀ sender, failed.2.sessionsWith sender = state.sessionsWith sender) ∧
      (InPlace.on (Machine.decrypt senderKey awaitedMessage) (failed.2.within default)).1 = .ok [9] := by
  intro senderKey state failed
  have hfailed : failed.1 = .error (.store (.backend "disk full")) := by decide +kernel
  have htidy : state.SessionsTidy :=
    (MachineState.sessionsTidy_boot evaluationUser {}).afterSessionEvents storedCalls
  have hfirst : (InPlace.on (Machine.decrypt senderKey awaitedMessage) (state.within default)).1 = .ok [9] := by
    rw [htidy.decrypt_within fun _ => rfl, sessionsWith_storedCalls]
    decide +kernel
  obtain ⟨-, hrepeats | ⟨_, _, hunsaved, -⟩⟩ := failed_decryption_repeats_unless_unsaved evaluationUser {} storedCalls
    (failingIn .sessions) senderKey awaitedMessage (Prod.ext hfailed (rfl : failed.2 = failed.2))
  · have hagain := hrepeats.answers_eq default default (fun _ => rfl) fun _ => rfl
    exact ⟨hfailed, hrepeats.sessions_eq, hagain.trans hfirst⟩
  · cases hunsaved

/-- A message whose session cannot be saved is refused when the call is made again, though the first call would
have returned its plaintext if the store worked. -/
theorem unsaved_decryption_not_repeated :
    let senderKey : Curve25519Key := ⟨.ofNatLE 32 1⟩
    let state := (MachineState.boot evaluationUser {}).afterSessionEvents [⟨default, .add (answeredSession 2)⟩]
    let failed := InPlace.on (Machine.decrypt senderKey awaitedMessage) (state.within (failingIn .saveChanges))
    failed.1 = .error (.store (.backend "disk full")) ∧
      (InPlace.on (Machine.decrypt senderKey awaitedMessage) (state.within default)).1 = .ok [9] ∧
      (InPlace.on (Machine.decrypt senderKey awaitedMessage) (failed.2.within default)).1 =
        .error (.missingSession senderKey) := by
  decide +kernel

end RoomCrypt
