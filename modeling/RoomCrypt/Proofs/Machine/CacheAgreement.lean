import Mathlib.Data.List.Nodup
import Mathlib.Data.List.Perm.Subperm
import RoomCrypt.Proofs.Laws
import RoomCrypt.Proofs.Machine.SessionRuns

/-!
# The cached sessions and the stored ones

The sessions of a device are loaded when they are first asked for, but a session that is added makes a list
for its device if there is none, and what is stored is not loaded any more. So the sessions that a machine
works with are stored as they are, and they are all that are stored as long as each session is added to a
list that was there before, or to no stored session.
-/

namespace RoomCrypt

open Olm (Session Channel)
open Store

section

variable [Suite]

/-- A session is stored as it is. -/
def Store.MemoryStore.HoldsSession (store : MemoryStore) (session : Session Channel) : Prop :=
  store.sessionText? session.name = some (MemoryStore.sessionText session)

namespace Store.MemoryStore

variable {store : MemoryStore} {session other : Session Channel}

omit [Suite] in
/-- A session that is saved is stored as it is. -/
theorem holdsSession_saveSession (store : MemoryStore) (session : Session Channel) :
    (store.saveSession session).HoldsSession session :=
  (sessionText?_saveSession store session session.name).trans (if_pos rfl)

omit [Suite] in
/-- Those of other names stay as they are. -/
theorem HoldsSession.saveSession (h : store.HoldsSession other) (hname : other.name ≠ session.name) :
    (store.saveSession session).HoldsSession other :=
  (sessionText?_saveSession store session other.name).trans ((if_neg hname).trans h)

/-- What is in a store is held by it. -/
theorem Keeps.holdsSession (h : store.Keeps fun _ => True) : store.Keeps store.HoldsSession := by
  intro name text htext
  obtain ⟨session, rfl, hnamed, rfl, -⟩ := h name text htext
  exact ⟨session, rfl, hnamed, rfl, htext⟩

/-- A session that is restored is stored as it is. -/
theorem HoldsSession.of_restores (h : store.HoldsSession session) (hrestores : session.Restores other) :
    store.HoldsSession other := by
  unfold HoldsSession sessionText at *
  rw [hrestores.name_eq, hrestores.pickle_eq]
  exact h

end Store.MemoryStore

namespace MachineState

/-- The sessions of a machine are stored as they are. -/
structure InStore (state : MachineState) : Prop where
  cached : state.Caches state.backend.store.HoldsSession
  stored : state.backend.store.Keeps fun _ => True

/-- A list that is cached has all sessions that are stored for its device. -/
def Complete (state : MachineState) : Prop :=
  ∀ sender, (state.machine.sessions.find? sender).isSome →
    ∀ sessionId, (state.backend.store.sessionText? ⟨sender, sessionId⟩).isSome →
      ∃ place session, state.cachedAt? sender place = some session ∧ session.sessionId = sessionId

/-- Both are so for a machine that has just been made over an empty store. -/
theorem inStore_boot (user : UserId) (config : Olm.RatchetConfig) : InStore (boot user { config }) where
  cached := caches_boot user { config }
  stored := MemoryStore.keeps_empty config

omit [Suite] in
theorem complete_boot (user : UserId) (config : Olm.RatchetConfig) : Complete (boot user { config }) :=
  fun _ hlist => by cases hlist

namespace InStore

variable {state : MachineState}

theorem within (h : state.InStore) (around : Surroundings) : (state.within around).InStore :=
  ⟨⟨h.cached.held, h.cached.slots, h.cached.kept, h.cached.ids⟩, h.stored⟩

theorem lookedUp (h : state.InStore) (sender : String) : (state.lookedUp sender).InStore := by
  have hbackend := state.backend_lookedUp sender
  refine ⟨?_, hbackend ▸ h.stored⟩
  rw [hbackend]
  exact h.cached.lookedUp h.stored.holdsSession (fun _ _ hheld => hheld.of_restores) sender

/-- A session that was used and saved is stored as it is, and so are the others still. -/
theorem afterUse {α : Type} {use : Machine.SessionUse α} {sender : String} (h : state.InStore)
    (hsound : use.Sound state sender) : (use.state.afterUse sender use.place use.slot use.used).InStore := by
  have hlooked := (h.lookedUp sender).cached
  rw [backend_lookedUp, ← hsound.backend_eq] at hlooked
  have hstored : use.state.backend.store.Keeps fun _ => True := hsound.backend_eq ▸ h.stored
  exact
    { cached := hsound.caches_afterUse hlooked (MemoryStore.holdsSession_saveSession _ _)
        fun _ hname hheld => hheld.saveSession hname
      stored := hstored.saveSession (fun _ _ => id) (hsound.named hlooked) trivial }

/-- A session of a new name is added. -/
theorem afterAdding (h : state.InStore) (new : NamedSession)
    (hnew : state.backend.store.sessionText? new.session.name = none) : (state.afterAdding new.session).InStore where
  cached := h.cached.afterAdding
    (fun session hheld => hheld.saveSession fun hname => by
      unfold MemoryStore.HoldsSession at hheld
      rw [hname, hnew] at hheld
      cases hheld)
    new.named (MemoryStore.holdsSession_saveSession _ _)
  stored := h.stored.saveSession (fun _ _ => id) new.named trivial

/-- No session in the list has the identifier of one that is not stored. -/
theorem hasId_eq_false (h : state.InStore) {session : Session Channel}
    (hnew : state.backend.store.sessionText? session.name = none) :
    SessionCache.hasId session.sessionId ((state.machine.sessions.find? session.senderKey.toBase64).getD []) =
      false := by
  rw [Bool.eq_false_iff]
  intro hid
  obtain ⟨place, other, hcached, hsame⟩ := hasId_iff.mp hid
  obtain ⟨-, hsender, hheld⟩ := h.cached.kept _ _ _ (viewAt?_of_cachedAt? hcached)
  have hname : (state.view other).name = session.name :=
    (SessionName.mk.injEq ..).mpr ⟨hsender, hsame⟩
  unfold MemoryStore.HoldsSession at hheld
  rw [hname, hnew] at hheld
  cases hheld

end InStore

namespace Complete

variable {state : MachineState}

/-- A list that is loaded has all that is stored. -/
theorem lookedUp (h : state.Complete) (hstored : state.backend.store.Keeps fun _ => True) (sender : String) :
    (state.lookedUp sender).Complete := by
  unfold MachineState.lookedUp
  obtain ⟨_, -, hrun⟩ | ⟨_, hrun⟩ | ⟨found, hload, hrun⟩ := Machine.sessionsOf_cases state sender <;> rw [hrun]
  · exact h
  · exact h
  intro other hlist sessionId htext
  have hcached := cachedAt?_withLoaded state sender (found.getD []) other
  by_cases hsender : other = sender
  · subst hsender
    have hids := (hstored.loadSessions hload).1
    have hmem : sessionId ∈ (found.getD []).map (·.sessionId) := by
      rw [hids, Dict.mem_keys, Dict.find?_getD_empty]
      exact htext
    obtain ⟨session, hsession, rfl⟩ := List.mem_map.mp hmem
    obtain ⟨place, hplace⟩ := List.getElem?_of_mem hsession
    refine ⟨place, session.withState ⟨state.channels.items.length + place⟩, ?_, rfl⟩
    rw [hcached, if_pos rfl, hplace]
    rfl
  · have hsame : (state.withLoaded sender (found.getD [])).machine.sessions.find? other =
        state.machine.sessions.find? other := Dict.find?_insert_of_ne _ hsender _
    rw [hsame] at hlist
    obtain ⟨place, session, hplace, hid⟩ := h other hlist sessionId htext
    exact ⟨place, session, by rw [hcached, if_neg hsender, hplace], hid⟩

omit [Suite] in
/-- A list stays complete when its one place has the session that is saved, and what stood there before had the
same identifier. -/
theorem puts (h : state.Complete) {after : MachineState} {sender : String} {place : ℕ}
    {session : Session (Slot Channel)} (hputs : Puts state after sender place session)
    (hplace : ∀ found ∈ state.cachedAt? sender place, found.sessionId = session.sessionId)
    (htexts : ∀ name, (after.backend.store.sessionText? name).isSome →
      name = ⟨sender, session.sessionId⟩ ∨ (state.backend.store.sessionText? name).isSome)
    (hlists : ∀ name, (after.machine.sessions.find? name.sender).isSome →
      (state.backend.store.sessionText? name).isSome → (state.machine.sessions.find? name.sender).isSome) :
    after.Complete := by
  intro other hlist sessionId htext
  rcases htexts ⟨other, sessionId⟩ htext with hname | hbefore
  · obtain ⟨rfl, rfl⟩ := SessionName.mk.inj hname
    exact ⟨place, session, by rw [hputs.cached, if_pos ⟨rfl, rfl⟩], rfl⟩
  · obtain ⟨index, found, hfound, rfl⟩ := h other (hlists _ hlist hbefore) sessionId hbefore
    by_cases hsame : other = sender ∧ index = place
    · obtain ⟨rfl, rfl⟩ := hsame
      exact ⟨index, session, by rw [hputs.cached, if_pos ⟨rfl, rfl⟩], (hplace found hfound).symm⟩
    · exact ⟨index, found, by rw [hputs.cached, if_neg hsame, hfound], rfl⟩

/-- A session that was used and saved keeps its place. -/
theorem afterUse {α : Type} {use : Machine.SessionUse α} {sender : String} (h : (state.lookedUp sender).Complete)
    (hcaches : (state.lookedUp sender).InStore) (hsound : use.Sound state sender) :
    (use.state.afterUse sender use.place use.slot use.used).Complete := by
  obtain ⟨entropy, hstate⟩ := hsound.looked
  replace h : use.state.Complete := hstate ▸ h
  obtain ⟨session, hcached, hslot, hbefore⟩ := hsound.cached
  have hname : use.used.name = session.name := hsound.name_eq.trans (congrArg Session.name hbefore)
  have hused : use.used.name = ⟨sender, use.used.sessionId⟩ := (SessionName.mk.injEq ..).mpr
    ⟨(congrArg SessionName.sender hsound.name_eq).trans (hsound.kept hcaches.cached).2.1, rfl⟩
  obtain ⟨hat, hheld, hkept, hids⟩ := (hsound.caches hcaches.cached).puts_putUsed hcached hname
  rw [hslot]
  refine h.puts ⟨hat, hheld, hkept, hids⟩ (fun found hfound => ?_) (fun name htext => ?_) fun _ hlist _ => ?_
  · obtain rfl : session = found := Option.some.inj (hcached.symm.trans hfound)
    exact (congrArg SessionName.sessionId hname).symm
  · change ((use.state.backend.store.saveSession use.used).sessionText? name).isSome at htext
    rw [MemoryStore.sessionText?_saveSession] at htext
    split at htext
    · next hsame => exact Or.inl (hsame.trans hused)
    · exact Or.inr htext
  · exact isSome_find?_of_putUsed hcached hlist

/-- A session of a new name is added to a list that was there, or to no stored session. -/
theorem afterAdding (h : state.Complete) (hcaches : state.InStore) (new : NamedSession)
    (hnew : state.backend.store.sessionText? new.session.name = none)
    (hlooked : (state.machine.sessions.find? new.session.name.sender).isSome ∨
      state.backend.store.sessions.find? new.session.name.sender = none) :
    (state.afterAdding new.session).Complete := by
  have hid : SessionCache.hasId (state.shared new.session).sessionId
      (((state.sharing new.session).machine.sessions.find? (state.shared new.session).senderKey.toBase64).getD []) =
        false := hcaches.hasId_eq_false hnew
  have hshared : (state.sharing new.session).Complete := h
  obtain ⟨hat, hheld, hkept, hids⟩ := (hcaches.cached.hold new.session.state).puts_cacheSession (Pool.holds_hold _ _)
    (hcaches.cached.slot_ne new.session) hid
  refine hshared.puts ⟨hat, hheld, hkept, hids⟩ (fun found hfound => ?_) (fun name htext => ?_)
    fun name hlist htext => ?_
  · cases (cachedAt?_length _ _).symm.trans hfound
  · change ((state.backend.store.saveSession new.session).sessionText? name).isSome at htext
    rw [MemoryStore.sessionText?_saveSession] at htext
    split at htext
    · next hsame => exact Or.inl hsame
    · exact Or.inr htext
  · have hfind := find?_cacheSession hid name.sender
    change (((state.sharing new.session).cacheSession (state.shared new.session)).machine.sessions.find?
      name.sender).isSome at hlist
    rw [hfind] at hlist
    split at hlist
    · next hsender =>
      have hsender' : name.sender = new.session.name.sender := hsender
      refine hsender' ▸ hlooked.resolve_right fun hnone => ?_
      unfold MemoryStore.sessionText? at htext
      rw [hsender'] at htext
      change ((state.backend.store.sessions.find? new.session.name.sender).bind _).isSome at htext
      rw [hnone] at htext
      cases htext
    · exact hlist

end Complete

end MachineState

/-- The session that a call adds, if it does. -/
def SessionCall.added? : SessionCall → Option NamedSession
  | add new => some new
  | _ => none

namespace SessionEvent

/-- The store takes what a call saves, and a session that it adds has a name under which none is stored. -/
def SavesNew (state : MachineState) (event : SessionEvent) : Prop :=
  event.around.outage .saveChanges = none ∧
    ∀ new ∈ event.call.added?, state.backend.store.sessionText? new.session.name = none

/-- A session is added when the sessions of its device were looked up before, or none are stored. -/
def LooksFirst (state : MachineState) (event : SessionEvent) : Prop :=
  ∀ new ∈ event.call.added?, (state.machine.sessions.find? new.session.name.sender).isSome ∨
    state.backend.store.sessions.find? new.session.name.sender = none

instance (state : MachineState) (event : SessionEvent) : Decidable (SavesNew state event) :=
  inferInstanceAs (Decidable (_ ∧ ∀ new ∈ event.call.added?, _))

instance (state : MachineState) (event : SessionEvent) : Decidable (LooksFirst state event) :=
  inferInstanceAs (Decidable (∀ new ∈ event.call.added?, _))

end SessionEvent

namespace MachineState

/-- Something holds of each call of a run and the state before it. -/
def Throughout (holds : MachineState → SessionEvent → Prop) : MachineState → List SessionEvent → Prop
  | _, [] => True
  | state, event :: events =>
    holds state event ∧ Throughout holds (event.call.after (state.within event.around)) events

instance instDecidableThroughout (holds : MachineState → SessionEvent → Prop)
    [∀ state event, Decidable (holds state event)] (state : MachineState) :
    (events : List SessionEvent) → Decidable (state.Throughout holds events)
  | [] => inferInstanceAs (Decidable True)
  | event :: events =>
    have := instDecidableThroughout holds (event.call.after (state.within event.around)) events
    inferInstanceAs (Decidable (_ ∧ _))

namespace InStore

variable {state : MachineState}

/-- A session is used when the store does not fail: it stands in the cache as it stands in the store, and no
session is lost. -/
theorem finish {α : Type} {use : Machine.SessionUse α} {sender : String} (h : state.InStore)
    (hsound : use.Sound state sender) (houtage : state.backend.outage .saveChanges = none) :
    (use.finish sender).2.InStore ∧ (state.Complete → (use.finish sender).2.Complete) := by
  rcases use.finish_cases sender with ⟨_, hfails, -⟩ | hfinish
  · rw [hsound.backend_eq, houtage] at hfails
    cases hfails
  · rw [hfinish]
    exact ⟨h.afterUse hsound, fun hlists => (hlists.lookedUp h.stored sender).afterUse (h.lookedUp sender) hsound⟩

/-- A call keeps cache and store in step. -/
theorem after (h : state.InStore) {event : SessionEvent} (hsaves : event.SavesNew state) :
    (event.call.after (state.within event.around)).InStore ∧
      (event.LooksFirst state → state.Complete → (event.call.after (state.within event.around)).Complete) := by
  obtain ⟨around, call⟩ := event
  obtain ⟨houtage, hnew⟩ := hsaves
  have hwithin := h.within around
  have hcomplete : state.Complete → (state.within around).Complete := id
  cases call with
  | add new =>
    simp only [SessionCall.after]
    rcases (state.within around).addSession_cases new.session with ⟨_, hfails, -⟩ | hrun
    · cases houtage.symm.trans hfails
    · rw [hrun]
      exact ⟨hwithin.afterAdding new (hnew new rfl), fun hlooks hlists =>
        (hcomplete hlists).afterAdding hwithin new (hnew new rfl) (hlooks new rfl)⟩
  | encrypt senderKey plain =>
    have hlooked := hwithin.lookedUp senderKey.toBase64
    simp only [SessionCall.after]
    obtain ⟨-, e, hrun⟩ | ⟨use, -, hrun, hsound, -⟩ := Machine.encrypt_cases hlooked.cached plain <;> rw [hrun]
    · exact ⟨hlooked, fun _ hlists => (hcomplete hlists).lookedUp hwithin.stored _⟩
    · obtain ⟨hafter, hfinish⟩ := hwithin.finish hsound houtage
      exact ⟨hafter, fun _ hlists => hfinish (hcomplete hlists)⟩
  | decrypt senderKey message =>
    have hlooked := hwithin.lookedUp senderKey.toBase64
    simp only [SessionCall.after]
    obtain ⟨-, e, hrun⟩ | ⟨use, -, hrun, hsound, -⟩ := Machine.decrypt_cases hlooked.cached message <;> rw [hrun]
    · exact ⟨hlooked, fun _ hlists => (hcomplete hlists).lookedUp hwithin.stored _⟩
    · obtain ⟨hafter, hfinish⟩ := hwithin.finish hsound houtage
      exact ⟨hafter, fun _ hlists => hfinish (hcomplete hlists)⟩
  | restart => exact ⟨⟨caches_ofUser _, h.stored⟩, fun _ _ _ hlist => by cases hlist⟩

/-- And so does a run. -/
theorem afterSessionEvents (h : state.InStore) {events : List SessionEvent}
    (hsaves : state.Throughout SessionEvent.SavesNew events) :
    (state.afterSessionEvents events).InStore ∧
      (state.Throughout SessionEvent.LooksFirst events → state.Complete →
        (state.afterSessionEvents events).Complete) := by
  induction events generalizing state with
  | nil => exact ⟨h, fun _ => id⟩
  | cons event events ih =>
    obtain ⟨hcall, hcomplete⟩ := h.after hsaves.1
    obtain ⟨hrun, hlists⟩ := ih hcall hsaves.2
    exact ⟨hrun, fun hlooked hstate => hlists hlooked.2 (hcomplete hlooked.1 hstate)⟩

end InStore

/-- Sessions by their identifiers, each with the text of its record as it is in memory. -/
def records (state : MachineState) (sessions : List (Session (Slot Channel))) : List (String × String) :=
  sessions.map fun session => (session.sessionId, MemoryStore.sessionText (state.view session))

variable {state : MachineState} {sender : String} {sessions : List (Session (Slot Channel))}

theorem InStore.nodup_records (h : state.InStore) (hlist : state.machine.sessions.find? sender = some sessions) :
    (state.records sessions).Nodup := by
  have hat (place : ℕ) (hplace : place < sessions.length) :
      state.viewAt? sender place = some (state.view sessions[place]) := by
    refine viewAt?_of_cachedAt? ?_
    unfold cachedAt?
    rw [hlist]
    exact List.getElem?_eq_getElem hplace
  refine List.Pairwise.map _ (fun _ _ hne heq => hne (Prod.mk.inj heq).1)
    (R := fun session other => session.sessionId ≠ other.sessionId) ?_
  refine List.pairwise_iff_getElem.mpr fun place place' hplace hplace' hlt hid => ?_
  exact absurd (h.cached.ids sender place place' _ (hat place hplace) _ (hat place' hplace') hid) (Nat.ne_of_lt hlt)

/-- What a machine works with is stored. -/
theorem InStore.records_subset (h : state.InStore) (hlist : state.machine.sessions.find? sender = some sessions) :
    state.records sessions ⊆ ((state.backend.store.sessions.find? sender).getD .empty).entries := by
  intro record hrecord
  obtain ⟨session, hsession, rfl⟩ := List.mem_map.mp hrecord
  obtain ⟨place, hplace⟩ := List.getElem?_of_mem hsession
  have hcached : state.cachedAt? sender place = some session := Option.bind_eq_some_iff.mpr ⟨sessions, hlist, hplace⟩
  obtain ⟨-, hsender, hheld⟩ := h.cached.kept _ _ _ (viewAt?_of_cachedAt? hcached)
  rw [Dict.mem_entries, Dict.find?_getD_empty, ← hsender]
  exact hheld

/-- What is stored has its name in a complete list. -/
theorem Complete.subset_records (hcomplete : state.Complete) (h : state.InStore)
    (hlist : state.machine.sessions.find? sender = some sessions) :
    ((state.backend.store.sessions.find? sender).getD .empty).entries ⊆ state.records sessions := by
  intro record hrecord
  obtain ⟨sessionId, text⟩ := record
  rw [Dict.mem_entries, Dict.find?_getD_empty] at hrecord
  obtain ⟨place, session, hcached, rfl⟩ := hcomplete sender (Option.isSome_iff_exists.mpr ⟨sessions, hlist⟩)
    sessionId (Option.isSome_iff_exists.mpr ⟨text, hrecord⟩)
  obtain ⟨-, hsender, hheld⟩ := h.cached.kept _ _ _ (viewAt?_of_cachedAt? hcached)
  obtain ⟨list, hlist', hplace⟩ := Option.bind_eq_some_iff.mp hcached
  obtain rfl : sessions = list := Option.some.inj (hlist.symm.trans hlist')
  have htext : MemoryStore.sessionText (state.view session) = text := by
    unfold MemoryStore.HoldsSession at hheld
    have hname : (state.view session).name = ⟨sender, session.sessionId⟩ := (SessionName.mk.injEq ..).mpr ⟨hsender, rfl⟩
    rw [hname] at hheld
    exact Option.some.inj (hheld.symm.trans hrecord)
  exact htext ▸ List.mem_map_of_mem (List.mem_of_getElem? hplace)

end MachineState

/-- The sessions that a machine works with are stored as they are, each of them once; and they are all sessions
that are stored for their device if each session was added when those of its device were looked up before or
none were stored. The machine may be made anew between the calls, over a store with the sessions of the earlier
one. The store takes all that is saved, and no session is added under a name that it has. -/
theorem sessions_agree_with_store (user : UserId) (config : Olm.RatchetConfig) {events : List SessionEvent}
    (hsaves : (MachineState.boot user { config }).Throughout SessionEvent.SavesNew events)
    (around : Surroundings) (sender : String) :
    let start := MachineState.boot user { config }
    let state := (start.afterSessionEvents events).within around
    ∀ sessions after, InPlace.on (Machine.sessionsOf sender) state = (.ok sessions, after) →
      let stored := ((after.backend.store.sessions.find? sender).getD .empty).entries
      (after.records sessions).Subperm stored ∧
        (start.Throughout SessionEvent.LooksFirst events → (after.records sessions).Perm stored) := by
  intro start state sessions after hrun stored
  obtain ⟨hafter, hlists⟩ := (MachineState.inStore_boot user config).afterSessionEvents hsaves
  have hlooked := (hafter.within around).lookedUp sender
  obtain ⟨rfl, hlist⟩ := MachineState.find?_lookedUp hrun
  have hsub := (hlooked.nodup_records hlist).subperm (hlooked.records_subset hlist)
  refine ⟨hsub, fun hlooks => hsub.antisymm ?_⟩
  have hcomplete : state.Complete := hlists hlooks (MachineState.complete_boot user config)
  have hstored : stored.Nodup := List.Nodup.of_map _ (Dict.nodup_keys _)
  exact hstored.subperm ((hcomplete.lookedUp hafter.stored sender).subset_records hlooked hlist)

end

open scoped Suite.Evaluation

/-- The chain for sending on which another device has opened a session with us. -/
def openingChain (base : ℕ) : Olm.SenderChain :=
  ⟨.ofSecret ⟨.ofNatLE 32 base⟩, (Olm.RootKey.ofSharedSecret [8]).2⟩

/-- Our side of that session. -/
def answeredSession (base : ℕ) : NamedSession where
  session := .ofChannel ⟨.ofNatLE 32 1⟩
    (.inbound ⟨⟨.ofNatLE 32 1⟩, ⟨.ofNatLE 32 base⟩, ⟨.ofNatLE 32 3⟩⟩ [8] (openingChain base).publicKey) default
  named := rfl

/-- Two sessions with a device are added one after the other, and a message is decrypted with the first one. -/
def answeredCalls : List SessionEvent :=
  [⟨default, .add (answeredSession 2)⟩, ⟨default, .add (answeredSession 4)⟩,
    ⟨default, .decrypt ⟨.ofNatLE 32 1⟩ ((openingChain 2).messageKey.encrypt (openingChain 2).publicKey [9])⟩]

/-- Both sessions are stored as the machine has them. -/
theorem sessions_agree_with_store_answered :
    let sender : String := Curve25519Key.toBase64 ⟨.ofNatLE 32 1⟩
    let state := (MachineState.boot evaluationUser {}).afterSessionEvents answeredCalls
    let run := InPlace.on (Machine.sessionsOf sender) (state.within default)
    ∃ sessions, run.1 = .ok sessions ∧ sessions.length = 2 ∧
      (run.2.records sessions).Perm ((run.2.backend.store.sessions.find? sender).getD .empty).entries := by
  intro sender state run
  have hsaves : (MachineState.boot evaluationUser {}).Throughout SessionEvent.SavesNew answeredCalls := by
    decide +kernel
  have hlooks : (MachineState.boot evaluationUser {}).Throughout SessionEvent.LooksFirst answeredCalls := by
    decide +kernel
  have hcount : run.1.toOption.map List.length = some 2 := by decide +kernel
  rcases hrun : run with ⟨e | sessions, after⟩
  · rw [hrun] at hcount
    cases hcount
  · rw [hrun] at hcount
    obtain ⟨-, hperm⟩ := sessions_agree_with_store evaluationUser {} hsaves default sender sessions after hrun
    exact ⟨sessions, rfl, Option.some.inj hcount, hperm hlooks⟩

/-- A session that was saved by an earlier machine is not found any more when another one with its device is
added before it is asked for: the message that it decrypts is refused. -/
theorem stored_session_missed :
    let senderKey : Curve25519Key := ⟨.ofNatLE 32 1⟩
    let message := (openingChain 2).messageKey.encrypt (openingChain 2).publicKey [9]
    let state := ((MachineState.boot evaluationUser {}).afterSessionEvents
      [⟨default, .add (answeredSession 2)⟩, ⟨default, .restart⟩, ⟨default, .add (answeredSession 4)⟩]).within default
    let found := (InPlace.on (Machine.sessionsOf senderKey.toBase64) state).1
    ((answeredSession 2).session.decrypt message default).toOption.map Prod.fst = some [9] ∧
      (state.backend.store.sessionText? (answeredSession 2).session.name).isSome = true ∧
      found.toOption.map (·.map (·.sessionId)) = some [(answeredSession 4).session.sessionId] ∧
      (InPlace.on (Machine.decrypt senderKey message) state).1 = .error (.missingSession senderKey) := by
  decide +kernel

end RoomCrypt
