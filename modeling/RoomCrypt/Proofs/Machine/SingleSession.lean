import RoomCrypt.Proofs.Machine.DecryptionRetry
import RoomCrypt.Proofs.Olm.Loading

/-!
# A decryption touches a single session

The sessions of a device are tried where they are: each of them decrypts the message in place, and what is left
of it afterwards is what the cache and the other holders of the session see. A session that refuses the message
is left as it was, so that the first one that accepts it is the only one that has changed, in memory and in the
store.
-/

namespace RoomCrypt

open Olm (Session Channel Ratchet)
open Store

/-- To give a slot the value that it has changes nothing. -/
theorem Pool.set_get {α : Type} [Inhabited α] (pool : Pool α) (slot : Slot α) : pool.set slot (pool.get slot) = pool := by
  unfold set get
  congr 1
  refine List.ext_getElem? fun index => ?_
  rw [List.getElem?_set]
  split
  · next hindex =>
    subst hindex
    split
    · next hheld => simp [List.getD, hheld]
    · next hheld => rw [List.getElem?_eq_none (Nat.not_lt.mp hheld)]
  · rfl

/-- A session after its ratchet has accepted a message. -/
def Olm.Session.afterMessage (session : Session Channel) (ratchet : Ratchet) (now : Clock) : Session Channel :=
  { session with
    state := { session.state with ratchet, received := true }
    lastUsed := now.seconds }

variable [Suite]

/-- A session decrypts a message as its ratchet does. -/
theorem Olm.Session.decrypt_eq (session : Session Channel) (message : OlmMessage) (now : Clock) :
    session.decrypt message now =
      (session.state.ratchet.decrypt message).map fun (plain, ratchet) => (plain, session.afterMessage ratchet now) := by
  unfold Session.decrypt Channel.decrypt
  cases session.state.ratchet.decrypt message <;> rfl

namespace Machine

/-- Try the sessions of a list from a place on, one after the other. Whatever a session is when it has been
tried stands at its place. -/
def tryFrom (sender : String) (message : OlmMessage) :
    List (Session (Slot Channel)) → ℕ → MachineState → Option Opened × MachineState
  | [], _, state => (none, state)
  | session :: rest, place, state =>
    let (outcome, left) := (Session.decryptInPlace message state.now).on (state.view session)
    let state := state.putUsed sender place session.state left
    match outcome with
    | .ok plain => (some ⟨place, session.state, plain, left⟩, state)
    | .error _ => tryFrom sender message rest (place + 1) state

/-- Decrypt a message from a device with sessions that are tried where they are. -/
def decryptInPlace (senderKey : Curve25519Key) (message : OlmMessage) : Task SessionError Bytes := do
  let sender := senderKey.toBase64
  let sessions ← (sessionsOf sender).wrap .store
  let state ← get
  let (opened, state) := tryFrom sender message sessions 0 state
  set state
  match opened with
  | none => throw (.missingSession senderKey)
  | some opened =>
    (save { sessions := [opened.used.withState opened.slot] }).wrap .store
    pure opened.plain

end Machine

namespace MachineState

variable {state after : MachineState} {P : Session Channel → Prop} {sender : String}

omit [Suite] in
/-- To put a session at its place as it is changes nothing. -/
theorem putUsed_view {place : ℕ} {session : Session (Slot Channel)}
    (hcached : state.cachedAt? sender place = some session) :
    state.putUsed sender place session.state (state.view session) = state := by
  obtain ⟨sessions, hlist, hplace⟩ := Option.bind_eq_some_iff.mp hcached
  obtain ⟨hlt, hget⟩ := List.getElem?_eq_some_iff.mp hplace
  have hset : sessions.set place session = sessions := hget ▸ List.set_getElem_self hlt
  have hsessions : state.machine.sessions.replace sender place session = state.machine.sessions := by
    unfold SessionCache.replace SessionCache.setSender
    rw [hlist]
    dsimp only
    rw [hset, Dict.insert_of_find? hlist]
  change { state with
    channels := state.channels.set session.state (state.channels.get session.state)
    machine := { state.machine with sessions := state.machine.sessions.replace sender place session } } = state
  rw [Pool.set_get, hsessions]

end MachineState

namespace Machine

variable {state : MachineState} {P : Session Channel → Prop} {sender : String} {message : OlmMessage}

/-- What a session at a place comes to if it opens a message. -/
def openedAt? (state : MachineState) (message : OlmMessage) : Session (Slot Channel) × ℕ → Option Opened
  | (session, place) =>
    match (state.view session).decrypt message state.now with
    | .ok (plain, used) => some ⟨place, session.state, plain, used⟩
    | .error _ => none

/-- The sessions that are tried before one opens the message are left as they were, and that one is put at its
place as it is then. -/
theorem tryFrom_eq {sessions : List (Session (Slot Channel))} {place : ℕ}
    (hcached : ∀ index session, sessions[index]? = some session →
      state.cachedAt? sender (place + index) = some session) :
    tryFrom sender message sessions place state =
      match (sessions.zipIdx place).findSome? (openedAt? state message) with
      | none => (none, state)
      | some opened => (some opened, state.putUsed sender opened.place opened.slot opened.used) := by
  induction sessions generalizing place with
  | nil => rfl
  | cons session rest ih =>
    have hfirst : state.cachedAt? sender place = some session := hcached 0 session rfl
    have hrest : ∀ index other, rest[index]? = some other →
        state.cachedAt? sender (place + 1 + index) = some other := by
      intro index other hother
      rw [Nat.add_assoc, Nat.add_comm 1]
      exact hcached (index + 1) other hother
    rw [tryFrom, Session.on_decryptInPlace, List.zipIdx_cons, List.findSome?_cons, openedAt?]
    cases (state.view session).decrypt message state.now with
    | ok result => rfl
    | error e =>
      dsimp only [InPlace.settle]
      rw [MachineState.putUsed_view hfirst]
      exact ih hrest

/-- So a decryption that tries the sessions where they are ends as decryption says. -/
theorem on_decryptInPlace (senderKey : Curve25519Key) (message : OlmMessage) (state : MachineState) :
    InPlace.on (decryptInPlace senderKey message) state = InPlace.on (decrypt senderKey message) state := by
  unfold decryptInPlace decrypt
  rw [InPlace.on_bind, InPlace.on_bind, Task.on_wrap]
  rcases hlookup : InPlace.on (sessionsOf senderKey.toBase64) state with ⟨e | sessions, loaded⟩
  · rfl
  · have hlist := (MachineState.find?_lookedUp hlookup).2
    have hcached (index : ℕ) (session : Session (Slot Channel)) (hsession : sessions[index]? = some session) :
        loaded.cachedAt? senderKey.toBase64 (0 + index) = some session := by
      rw [Nat.zero_add]
      exact Option.bind_eq_some_iff.mpr ⟨sessions, hlist, hsession⟩
    dsimp only [Except.mapError]
    rw [InPlace.on_bind, InPlace.on_get, InPlace.on_bind, InPlace.on_get]
    dsimp only
    rw [tryFrom_eq hcached]
    change _ = InPlace.on (match (sessions.zipIdx 0).findSome? (openedAt? loaded message) with
      | none => _
      | some opened => _) loaded
    cases (sessions.zipIdx 0).findSome? (openedAt? loaded message) with
    | none => rfl
    | some opened => rfl

end Machine

namespace MachineState

variable {state after : MachineState} {P : Session Channel → Prop} {sender : String}

/-- Sessions that are cached stay in order if the shared channels keep the keys of their agreement. -/
theorem Caches.of_cached_eq (h : state.Caches P) (hcached : after.machine.sessions = state.machine.sessions)
    (hslots : ∀ slot, state.channels.Holds slot →
      after.channels.Holds slot ∧ (after.channels.get slot).keys = (state.channels.get slot).keys) :
    after.Caches fun _ => True := by
  have hat (sender : String) (place : ℕ) : after.cachedAt? sender place = state.cachedAt? sender place := by
    unfold cachedAt?
    rw [hcached]
  have hseen {sender : String} {place : ℕ} {seen : Session Channel} (hview : after.viewAt? sender place = some seen) :
      ∃ session, state.cachedAt? sender place = some session ∧ seen = after.view session := by
    obtain ⟨session, hsession, rfl⟩ := Option.map_eq_some_iff.mp hview
    exact ⟨session, hat sender place ▸ hsession, rfl⟩
  constructor
  case held =>
    intro sender place session hsession
    exact (hslots _ (h.held sender place session (hat sender place ▸ hsession))).1
  case slots =>
    intro sender place sender' place' session hsession session' hsession' hslot
    rw [hat] at hsession hsession'
    exact h.slots sender place sender' place' session hsession session' hsession' hslot
  case kept =>
    intro sender place seen hview
    obtain ⟨session, hsession, rfl⟩ := hseen hview
    obtain ⟨hnamed, hsender, -⟩ := h.kept sender place _ (viewAt?_of_cachedAt? hsession)
    have hkeys := (hslots _ (h.held sender place session hsession)).2
    exact ⟨hnamed.trans (congrArg Olm.SessionKeys.sessionId hkeys).symm, hsender, trivial⟩
  case ids =>
    intro sender place place' seen hview seen' hview' hid
    obtain ⟨session, hsession, rfl⟩ := hseen hview
    obtain ⟨session', hsession', rfl⟩ := hseen hview'
    exact h.ids sender place place' _ (viewAt?_of_cachedAt? hsession) _ (viewAt?_of_cachedAt? hsession') hid

/-- The state when a holder of a session has used its shared channel, without the machine. -/
def useHandle (state : MachineState) (slot : Slot Channel) (this : Olm.RatchetUse) : MachineState :=
  { state with channels := state.channels.set slot ((state.channels.get slot).use this) }

/-- How the states of a machine come about: it begins with an empty store, and it is called, restarted and used
through the sessions that others hold. All that happens elsewhere leaves the sessions in memory alone, but records
of sessions may get into the store, as from another machine over the same store. -/
inductive Reached : MachineState → Prop where
  | booted (user : UserId) (config : Olm.RatchetConfig) : Reached (boot user { config })
  | called {state : MachineState} (h : Reached state) (event : SessionEvent) :
      Reached (event.call.after (state.within event.around))
  | handled {state : MachineState} (h : Reached state) (slot : Slot Channel) (this : Olm.RatchetUse) :
      Reached (state.useHandle slot this)
  | elsewhere {state after : MachineState} (h : Reached state)
      (hcached : after.machine.sessions = state.machine.sessions)
      (hslots : ∀ slot, state.channels.Holds slot →
        after.channels.Holds slot ∧ after.channels.get slot = state.channels.get slot)
      (hstored : after.backend.store.Keeps fun _ => True) : Reached after

/-- However a state has come about, the sessions are in order. -/
theorem Reached.tidy (h : state.Reached) : state.SessionsTidy := by
  induction h with
  | booted user config => exact sessionsTidy_boot user config
  | called h event ih => exact (ih.within event.around).after event.call
  | @handled state h slot this ih =>
    refine ⟨ih.cached.of_cached_eq rfl fun other hheld => ⟨hheld.set _ _, ?_⟩, ih.stored⟩
    by_cases hslot : other = slot
    · subst hslot
      unfold useHandle
      rw [Pool.get_set_self hheld, Channel.keys_use]
    · unfold useHandle
      rw [Pool.get_set_of_ne _ hslot]
  | elsewhere h hcached hslots hstored ih =>
    exact ⟨ih.cached.of_cached_eq hcached fun slot hheld =>
      ⟨(hslots slot hheld).1, congrArg Channel.keys (hslots slot hheld).2⟩, hstored⟩

/-- States that are come to by calls are among them. -/
theorem Reached.afterSessionEvents (h : state.Reached) (events : List SessionEvent) :
    (state.afterSessionEvents events).Reached := by
  induction events generalizing state with
  | nil => exact h
  | cons event events ih => exact ih (h.called event)

/-- No session is changed, in memory or in the store. -/
structure Untouched (state after : MachineState) : Prop where
  sessions_eq : ∀ sender, after.sessionsWith sender = state.sessionsWith sender
  texts_eq : ∀ name, after.backend.store.sessionText? name = state.backend.store.sessionText? name

/-- One session of a sender is changed, in memory and in the store: it keeps its name, and all others have other
names and are as they were. -/
structure TouchesOnly (state after : MachineState) (sender : String) (tried : List (Session Channel))
    (before used : Session Channel) (later : List (Session Channel)) : Prop where
  sessions_eq : ∀ other, after.sessionsWith other =
    if other = sender then .ok (tried ++ used :: later) else state.sessionsWith other
  texts_eq : ∀ name, after.backend.store.sessionText? name =
    if name = used.name then some (MemoryStore.sessionText used) else state.backend.store.sessionText? name
  name_eq : used.name = before.name
  others : ∀ other ∈ tried ++ later, other.name ≠ used.name

end MachineState

/-- The sessions of another sender are loaded as before when one was saved. -/
theorem Store.MemoryStore.loadSessions_saveSession_of_ne (store : MemoryStore) {session : Session Channel}
    {sender : String} (hne : sender ≠ session.senderKey.toBase64) :
    (store.saveSession session).loadSessions sender = store.loadSessions sender := by
  unfold loadSessions saveSession
  rw [Dict.find?_insert_of_ne _ hne]

/-- The ratchet of a session refuses a message. -/
def Olm.Session.Refuses (session : Session Channel) (message : OlmMessage) : Prop :=
  ∃ e, session.state.ratchet.decrypt message = .error e

namespace Machine

variable {state : MachineState} {message : OlmMessage} {sessions : List (Session (Slot Channel))}

/-- A session that refuses a message does not open it. -/
theorem openedAt?_of_refuses {session : Session (Slot Channel)} (hrefuses : (state.view session).Refuses message)
    (place : ℕ) : openedAt? state message (session, place) = none := by
  obtain ⟨e, hfails⟩ := hrefuses
  simp only [openedAt?, Session.decrypt_eq, hfails, Except.map]

/-- If all sessions refuse a message, none of them opens it, from whatever place on they stand. -/
theorem findSome?_openedAt?_of_refuse (hrefuse : ∀ session ∈ sessions.map state.view, session.Refuses message)
    (place : ℕ) : (sessions.zipIdx place).findSome? (openedAt? state message) = none := by
  apply List.findSome?_eq_none_iff.mpr
  intro ⟨session, index⟩ hmember
  have hsession : session ∈ sessions := List.fst_mem_of_mem_zipIdx hmember
  exact openedAt?_of_refuses (hrefuse _ (List.mem_map_of_mem hsession)) index

/-- The first session that accepts a message opens it. -/
theorem firstOpened?_of_split {tried later : List (Session Channel)} {session : Session Channel}
    (hsplit : sessions.map state.view = tried ++ session :: later)
    (htried : ∀ other ∈ tried, other.Refuses message) {plain : Bytes} {ratchet : Ratchet}
    (haccepts : session.state.ratchet.decrypt message = .ok (plain, ratchet)) :
    ∃ slot, firstOpened? state message sessions =
      some ⟨tried.length, slot, plain, session.afterMessage ratchet state.now⟩ := by
  obtain ⟨first, rest, rfl, rfl, hrest⟩ := List.map_eq_append_iff.mp hsplit
  obtain ⟨cached, others, rfl, rfl, rfl⟩ := List.map_eq_cons_iff.mp hrest
  refine ⟨cached.state, ?_⟩
  change ((first ++ cached :: others).zipIdx 0).findSome? (openedAt? state message) = _
  rw [List.zipIdx_append, List.findSome?_append, findSome?_openedAt?_of_refuse htried, Option.none_or,
    List.zipIdx_cons, List.findSome?_cons]
  simp only [openedAt?, Session.decrypt_eq, haccepts, Except.map, Nat.zero_add, List.length_map]

/-- So the first session that accepts a message is the one that is used to decrypt it. -/
theorem decryption?_of_split {P : Session Channel → Prop} (h : state.Caches P)
    (hworks : state.backend.outage .sessions = none) {senderKey : Curve25519Key}
    {tried later : List (Session Channel)} {session : Session Channel}
    (hseen : state.sessionsWith senderKey.toBase64 = .ok (tried ++ session :: later))
    (htried : ∀ other ∈ tried, other.Refuses message) {plain : Bytes} {ratchet : Ratchet}
    (haccepts : session.state.ratchet.decrypt message = .ok (plain, ratchet)) :
    ∃ use, decryption? senderKey message state = some use ∧ use.place = tried.length ∧ use.result = plain ∧
      use.used = session.afterMessage ratchet state.now := by
  rcases hlookup : InPlace.on (sessionsOf senderKey.toBase64) state with ⟨e | sessions, loaded⟩
  · rw [MachineState.sessionsWith_of_not_found hworks hlookup] at hseen
    cases hseen
  · obtain ⟨hloaded, -⟩ := MachineState.find?_lookedUp hlookup
    have hnow : loaded.now = state.now := hloaded ▸ state.now_lookedUp _
    have hsplit := Except.ok.inj ((h.sessionsWith_of_found hlookup).symm.trans hseen)
    obtain ⟨slot, hopened⟩ := firstOpened?_of_split hsplit htried haccepts
    obtain ⟨cached, hplace, -, -⟩ := getElem?_of_firstOpened? hopened
    refine ⟨⟨loaded, tried.length, slot, loaded.view cached, session.afterMessage ratchet loaded.now, plain⟩, ?_, rfl,
      rfl, congrArg (session.afterMessage ratchet) hnow⟩
    unfold decryption?
    simp only [hlookup, hopened, Option.bind_eq_bind, Option.bind_some, hplace]

/-- If all sessions refuse a message, there is no plaintext of it. -/
theorem plaintext?_of_refuse {seen : List (Session Channel)} (hrefuse : ∀ session ∈ seen, session.Refuses message) :
    plaintext? message seen = none := by
  apply List.findSome?_eq_none_iff.mpr
  intro session hsession
  obtain ⟨e, hfails⟩ := hrefuse session hsession
  simp only [Channel.decrypt, hfails, bind, Except.bind, Except.toOption, Option.map_none]

end Machine

namespace MachineState

variable {state after : MachineState} {P : Session Channel → Prop} {sender : String}

/-- No two sessions of a sender that are cached have one identifier. -/
theorem Caches.nodup_ids (h : state.Caches P) {sessions : List (Session (Slot Channel))}
    (hlist : state.machine.sessions.find? sender = some sessions) :
    ((sessions.map state.view).map (·.sessionId)).Nodup := by
  refine List.pairwise_iff_getElem.mpr fun i j hi hj hlt hid => ?_
  rw [List.length_map] at hi hj
  have hplace {index : ℕ} (hindex : index < (sessions.map state.view).length) :
      state.viewAt? sender index = some (sessions.map state.view)[index] := by
    rw [viewAt?_of_find? hlist, List.getElem?_eq_getElem hindex]
  have hsame : (sessions.map state.view)[i].sessionId = (sessions.map state.view)[j].sessionId := by
    simpa only [List.getElem_map] using hid
  exact Nat.ne_of_lt hlt (h.ids sender i j _ (hplace hi) _ (hplace hj) hsame)

/-- When a session that was used is saved, no other session is changed by that. -/
theorem sessionsWith_afterUse {place : ℕ} {slot : Slot Channel} {used : Session Channel}
    (hlist : ((state.putUsed sender place slot used).machine.sessions.find? used.senderKey.toBase64).isSome)
    (other : String) :
    (state.afterUse sender place slot used).sessionsWith other =
      (state.putUsed sender place slot used).sessionsWith other := by
  cases hother : (state.putUsed sender place slot used).machine.sessions.find? other with
  | some sessions =>
    have hafter : (state.afterUse sender place slot used).machine.sessions.find? other = some sessions := hother
    rw [sessionsWith_of_find? hother, sessionsWith_of_find? hafter]
    rfl
  | none =>
    have hne : other ≠ used.senderKey.toBase64 := by
      rintro rfl
      rw [hother] at hlist
      cases hlist
    have hafter : (state.afterUse sender place slot used).machine.sessions.find? other = none := hother
    rw [sessionsWith_of_not_cached hother, sessionsWith_of_not_cached hafter]
    exact congrArg _ (state.backend.store.loadSessions_saveSession_of_ne hne)

namespace SessionsTidy

variable {around : Surroundings} {senderKey : Curve25519Key} {message : OlmMessage}

/-- If no session is used, none is changed. -/
theorem untouched (h : state.SessionsTidy) (hnone : Machine.decryption? senderKey message (state.within around) = none) :
    state.Untouched (InPlace.on (Machine.decrypt senderKey message) (state.within around)).2 := by
  have hwithin := h.within around
  have hlooked := hwithin.lookedUp senderKey.toBase64
  obtain ⟨-, e, hrun⟩ | ⟨use, hsome, -⟩ := Machine.decrypt_cases hlooked.cached message
  · rw [hrun]
    refine ⟨hwithin.cached.sessionsWith_lookedUp senderKey.toBase64, fun name => ?_⟩
    rw [backend_lookedUp]
    rfl
  · cases hnone.symm.trans hsome

/-- No session is used if the sessions cannot be read, or all of them refuse the message. -/
theorem decryption?_eq_none (h : state.SessionsTidy)
    (hrefuse : ∀ sessions, state.sessionsWith senderKey.toBase64 = .ok sessions →
      ∀ session ∈ sessions, session.Refuses message) :
    Machine.decryption? senderKey message (state.within around) = none := by
  cases huse : Machine.decryption? senderKey message (state.within around) with
  | none => rfl
  | some use =>
    obtain ⟨sessions, hseen, hplace, hopens, -⟩ := Machine.listed_of_decryption? (h.within around).cached huse
    obtain ⟨e, hfails⟩ := hrefuse sessions hseen _ (List.mem_of_getElem? hplace)
    obtain ⟨-, -, haccepts⟩ := Machine.eq_of_decrypt hopens
    cases hfails.symm.trans haccepts

/-- No two sessions that the machine works with for a device have one identifier. -/
theorem nodup_ids (h : state.SessionsTidy) {seen : List (Session Channel)}
    (hseen : state.sessionsWith sender = .ok seen) : (seen.map (·.sessionId)).Nodup := by
  cases hlist : state.machine.sessions.find? sender with
  | some sessions =>
    rw [sessionsWith_of_find? hlist] at hseen
    obtain rfl := Except.ok.inj hseen
    exact h.cached.nodup_ids hlist
  | none =>
    rw [sessionsWith_of_not_cached hlist] at hseen
    cases hload : state.backend.store.loadSessions sender with
    | error e =>
      rw [hload] at hseen
      cases hseen
    | ok found =>
      rw [hload] at hseen
      obtain rfl := Except.ok.inj hseen
      rw [(h.stored.loadSessions hload).1]
      exact Dict.nodup_keys _

/-- The first session that accepts the message is touched, and no other one. -/
theorem touchesOnly (h : state.SessionsTidy) (hworks : around.StoreWorks) {tried later : List (Session Channel)}
    {session : Session Channel} (hseen : state.sessionsWith senderKey.toBase64 = .ok (tried ++ session :: later))
    (htried : ∀ other ∈ tried, other.Refuses message) {plain : Bytes} {ratchet : Ratchet}
    (haccepts : session.state.ratchet.decrypt message = .ok (plain, ratchet)) :
    ∃ after, InPlace.on (Machine.decrypt senderKey message) (state.within around) = (.ok plain, after) ∧
      state.TouchesOnly after senderKey.toBase64 tried session (session.afterMessage ratchet around.now) later := by
  have hwithin := h.within around
  have hlooked := (hwithin.lookedUp senderKey.toBase64).cached
  obtain ⟨use, huse, hplace, rfl, hused⟩ :=
    Machine.decryption?_of_split hwithin.cached (hworks .sessions) hseen htried haccepts
  obtain ⟨hnone, -⟩ | ⟨use', hsome, hrun, hsound, -⟩ := Machine.decrypt_cases hlooked message
  · cases hnone.symm.trans huse
  obtain rfl : use' = use := Option.some.inj (hsome.symm.trans huse)
  obtain ⟨-, -, sessions, hsessions, hbefore, hmoved⟩ := h.movesOn huse hsound
  obtain rfl : sessions = tried ++ session :: later := Except.ok.inj (hsessions.symm.trans hseen)
  have hfinish : use'.finish senderKey.toBase64 =
      (.ok use'.result, use'.state.afterUse senderKey.toBase64 use'.place use'.slot use'.used) := by
    rcases use'.finish_cases senderKey.toBase64 with ⟨text, houtage, -⟩ | hfinish
    · rw [hsound.backend_eq] at houtage
      cases (hworks .saveChanges).symm.trans houtage
    · exact hfinish
  refine ⟨_, hrun.trans hfinish, ?_⟩
  have hused : use'.used = session.afterMessage ratchet around.now := hused
  have hkey : use'.used.senderKey.toBase64 = senderKey.toBase64 :=
    (congrArg SessionName.sender hsound.name_eq).trans (hsound.kept hlooked).2.1
  constructor
  case sessions_eq =>
    intro other
    obtain ⟨cached, hcached, -, -⟩ := hsound.cached
    obtain ⟨list, hlist, -⟩ := Option.bind_eq_some_iff.mp hcached
    have hput := find?_putUsed hlist use'.place use'.slot use'.used senderKey.toBase64
    rw [if_pos rfl] at hput
    rw [sessionsWith_afterUse (hkey.symm ▸ Option.isSome_of_eq_some hput), hmoved, hplace, ← hused]
    simp
  case texts_eq =>
    intro name
    rw [← hused]
    change (use'.state.backend.store.saveSession use'.used).sessionText? name = _
    rw [hsound.backend_eq]
    exact MemoryStore.sessionText?_saveSession _ _ _
  case name_eq => rfl
  case others =>
    intro other hother hsame
    have hnodup := h.nodup_ids hseen
    rw [List.map_append, List.map_cons, List.nodup_middle, List.nodup_cons, ← List.map_append] at hnodup
    exact hnodup.1 (List.mem_map.mpr ⟨other, hother, congrArg SessionName.sessionId hsame⟩)

end SessionsTidy

end MachineState

/-- A decryption touches a single session. The sessions of the device are tried where they are, and the call
returns the plaintext of the first one whose ratchet accepts the message: that session has its new ratchet, has
received a message and was used now, in memory and in the store, and all others, of this device and of other
ones, are as they were in both. If none accepts the message, the session is missing and none is changed. This is
so in all states that a machine can come to, as long as the store answers. -/
theorem decryption_touches_single_session {state : MachineState} (hreached : state.Reached) {around : Surroundings}
    (hworks : around.StoreWorks) (senderKey : Curve25519Key) (message : OlmMessage) :
    let run := InPlace.on (Machine.decryptInPlace senderKey message) (state.within around)
    run = InPlace.on (Machine.decrypt senderKey message) (state.within around) ∧
      (∀ tried session later plain ratchet,
        state.sessionsWith senderKey.toBase64 = .ok (tried ++ session :: later) →
        (∀ other ∈ tried, other.Refuses message) → session.state.ratchet.decrypt message = .ok (plain, ratchet) →
        run.1 = .ok plain ∧ state.TouchesOnly run.2 senderKey.toBase64 tried session
          (session.afterMessage ratchet around.now) later) ∧
      (∀ sessions, state.sessionsWith senderKey.toBase64 = .ok sessions →
        (∀ session ∈ sessions, session.Refuses message) →
        run.1 = .error (.missingSession senderKey) ∧ state.Untouched run.2) ∧
      ∀ e, state.sessionsWith senderKey.toBase64 = .error e →
        run.1 = .error (.store e) ∧ state.Untouched run.2 := by
  intro run
  have htidy := hreached.tidy
  have hrun : run = InPlace.on (Machine.decrypt senderKey message) (state.within around) :=
    Machine.on_decryptInPlace senderKey message _
  have hanswer : run.1 = Machine.answer senderKey message (state.sessionsWith senderKey.toBase64) :=
    hrun ▸ htidy.decrypt_within hworks senderKey message
  refine ⟨hrun, fun tried session later plain ratchet hseen htried haccepts => ?_, fun sessions hseen hrefuse => ?_,
    fun e hfails => ?_⟩
  · obtain ⟨after, hdecrypt, htouches⟩ := htidy.touchesOnly hworks hseen htried haccepts
    rw [hrun, hdecrypt]
    exact ⟨rfl, htouches⟩
  · refine ⟨?_, hrun ▸ htidy.untouched (htidy.decryption?_eq_none fun other hother => ?_)⟩
    · rw [hanswer, hseen]
      unfold Machine.answer
      dsimp only
      rw [Machine.plaintext?_of_refuse hrefuse]
    · obtain rfl := Except.ok.inj (hseen.symm.trans hother)
      exact hrefuse
  · refine ⟨?_, hrun ▸ htidy.untouched (htidy.decryption?_eq_none fun other hother => ?_)⟩
    · rw [hanswer, hfails]
      rfl
    · cases hfails.symm.trans hother

end RoomCrypt

namespace RoomCrypt

open Olm (Session Channel)
open scoped Suite.Evaluation

/-- A machine with two sessions with a device. -/
def twoSessions : MachineState :=
  (MachineState.boot evaluationUser {}).afterSessionEvents
    [⟨default, .add (answeredSession 2)⟩, ⟨default, .add (answeredSession 4)⟩]

/-- A message that the device has sent with the session that was added last. -/
def secondMessage : OlmMessage :=
  (openingChain 4).messageKey.encrypt (openingChain 4).publicKey [9]

/-- The key of the device. -/
def twoSessionsKey : Curve25519Key := ⟨.ofNatLE 32 1⟩

/-- What the second session is after the message. -/
def secondRatchet : Olm.Ratchet :=
  (answeredSession 4).session.state.ratchet.use (.decrypt secondMessage)

/-- The first session refuses the message and is left alone, and the second one is changed. -/
theorem decryption_touches_single_session_second :
    let run := InPlace.on (Machine.decryptInPlace twoSessionsKey secondMessage) (twoSessions.within default)
    twoSessions.Reached ∧ (answeredSession 2).session.Refuses secondMessage ∧
      (answeredSession 4).session.state.ratchet.decrypt secondMessage = .ok ([9], secondRatchet) ∧
      run.1 = .ok [9] ∧
      twoSessions.TouchesOnly run.2 twoSessionsKey.toBase64 [(answeredSession 2).session]
        (answeredSession 4).session ((answeredSession 4).session.afterMessage secondRatchet
          (default : Surroundings).now) [] := by
  have hreached : twoSessions.Reached := (MachineState.Reached.booted evaluationUser {}).afterSessionEvents _
  have hworks : (default : Surroundings).StoreWorks := fun _ => rfl
  have hseen : twoSessions.sessionsWith twoSessionsKey.toBase64 =
      .ok ([(answeredSession 2).session] ++ (answeredSession 4).session :: []) := by decide +kernel
  have hrefuses : (answeredSession 2).session.Refuses secondMessage := ⟨.missingChain, by decide +kernel⟩
  have haccepts : (answeredSession 4).session.state.ratchet.decrypt secondMessage = .ok ([9], secondRatchet) := by
    decide +kernel
  have htouches := (decryption_touches_single_session hreached hworks twoSessionsKey secondMessage).2.1
    [(answeredSession 2).session] (answeredSession 4).session [] [9] secondRatchet hseen
    (List.forall_mem_singleton.mpr hrefuses) haccepts
  exact ⟨hreached, hrefuses, haccepts, htouches⟩

end RoomCrypt
