import RoomCrypt.Proofs.Machine.SessionCalls

/-!
# Runs of calls that use sessions with devices

Between two calls the machine may be dropped and another one made over its store, which then knows the
sessions that were saved and no others. A session that is added is shared at a slot of its own, so that
nobody else uses it.
-/

namespace RoomCrypt

open Olm (Session Channel)
open Store

variable [Suite]

/-- A session that is called after its channel, as all are that were made or restored. -/
structure NamedSession where
  session : Session Channel
  named : session.Named

namespace MachineState

variable {state : MachineState} {P Q : Session Channel → Prop}

/-- The state with one more channel among those that are shared. -/
def sharing (state : MachineState) (session : Session Channel) : MachineState :=
  { state with channels := (state.channels.hold session.state).2 }

/-- A session whose channel is shared next. -/
def shared (state : MachineState) (session : Session Channel) : Session (Slot Channel) :=
  session.withState (state.channels.hold session.state).1

/-- What is left after a session was added and saved. -/
def afterAdding (state : MachineState) (session : Session Channel) : MachineState :=
  { (state.sharing session).cacheSession (state.shared session) with
    backend := { state.backend with store := state.backend.store.saveSession session } }

omit [Suite] in
/-- A session that is shared is seen as it is. -/
theorem view_sharing (state : MachineState) (session : Session Channel) :
    (state.sharing session).view (state.shared session) = session :=
  congrArg session.withState (Pool.get_hold_self _ _)

/-- A session is added and saved, unless the store fails. -/
theorem addSession_cases (state : MachineState) (session : Session Channel) :
    (∃ message, state.backend.outage .saveChanges = some message ∧
      InPlace.on (Machine.addSession (state.shared session)) (state.sharing session) =
        (.error (.backend message), state.sharing session)) ∨
      InPlace.on (Machine.addSession (state.shared session)) (state.sharing session) =
        (.ok (), state.afterAdding session) := by
  have hrun := Machine.on_save { sessions := [state.shared session] } (state.sharing session)
  have hsame : (state.sharing session).backend.outage = state.backend.outage := rfl
  rw [hsame, afterSave_session, view_sharing] at hrun
  cases houtage : state.backend.outage .saveChanges with
  | some message =>
    rw [houtage] at hrun
    exact Or.inl ⟨message, rfl, hrun⟩
  | none =>
    rw [houtage] at hrun
    exact Or.inr hrun

/-- Its slot is no other session's. -/
theorem Caches.slot_ne (h : state.Caches P) (session : Session Channel) (sender : String) (place : ℕ) :
    ∀ other ∈ state.cachedAt? sender place, other.state ≠ (state.shared session).state := by
  intro other hother heq
  have hlt := h.held sender place other hother
  rw [heq] at hlt
  exact Nat.lt_irrefl _ hlt

/-- A session that is added has to have the property. -/
theorem Caches.afterAdding (h : state.Caches P) (hweaker : ∀ session, P session → Q session)
    {session : Session Channel} (hnamed : session.Named) (hsession : Q session) :
    (state.afterAdding session).Caches Q := by
  have hview := state.view_sharing session
  have hnamed' : ((state.sharing session).view (state.shared session)).Named := hview.symm ▸ hnamed
  have hsession' : Q ((state.sharing session).view (state.shared session)) := hview.symm ▸ hsession
  obtain ⟨hheld, hslots, hkept, hids⟩ :=
    ((h.imp hweaker).hold session.state).cacheSession (Pool.holds_hold _ _) (h.slot_ne session) hnamed' hsession'
  exact ⟨hheld, hslots, hkept, hids⟩

end MachineState

/-- A call that has to do with sessions with devices. -/
inductive SessionCall where
  | add (new : NamedSession)
  | encrypt (senderKey : Curve25519Key) (plain : Bytes)
  | decrypt (senderKey : Curve25519Key) (message : OlmMessage)
  /-- The machine is dropped, and another one is made over its store. -/
  | restart

/-- What is left of the state after a call, whatever its outcome. -/
def SessionCall.after (state : MachineState) : SessionCall → MachineState
  | add new => (InPlace.on (Machine.addSession (state.shared new.session)) (state.sharing new.session)).2
  | encrypt senderKey plain => (InPlace.on (Machine.encrypt senderKey plain) state).2
  | decrypt senderKey message => (InPlace.on (Machine.decrypt senderKey message) state).2
  | restart => { state with machine := .ofUser state.machine.user }

/-- A call in its surroundings. -/
structure SessionEvent where
  around : Surroundings
  call : SessionCall

/-- The state after calls, the first call first. -/
def MachineState.afterSessionEvents (state : MachineState) (events : List SessionEvent) : MachineState :=
  events.foldl (fun state event => event.call.after (state.within event.around)) state

namespace MachineState

/-- The sessions of a machine are in order, both those that are cached and those that are stored. -/
structure SessionsTidy (state : MachineState) : Prop where
  cached : state.Caches fun _ => True
  stored : state.backend.store.Keeps fun _ => True

/-- They are for a new machine over a store that has none. -/
theorem sessionsTidy_boot (user : UserId) (config : Olm.RatchetConfig) : SessionsTidy (boot user { config }) where
  cached := caches_boot user { config }
  stored := MemoryStore.keeps_empty config

namespace SessionsTidy

variable {state : MachineState}

theorem within (h : state.SessionsTidy) (around : Surroundings) : (state.within around).SessionsTidy :=
  ⟨⟨h.cached.held, h.cached.slots, h.cached.kept, h.cached.ids⟩, h.stored⟩

theorem lookedUp (h : state.SessionsTidy) (sender : String) : (state.lookedUp sender).SessionsTidy :=
  ⟨h.cached.lookedUp h.stored (fun _ _ _ _ => trivial) sender, (state.backend_lookedUp sender) ▸ h.stored⟩

/-- A use of a session leaves them in order, whether the store fails or not. -/
theorem finish {α : Type} {use : Machine.SessionUse α} {sender : String} (h : state.SessionsTidy)
    (hsound : use.Sound state sender) : (use.finish sender).2.SessionsTidy := by
  have hlooked := (h.lookedUp sender).cached
  have hstored : use.state.backend.store.Keeps fun _ => True := hsound.backend_eq ▸ h.stored
  rcases use.finish_cases sender with ⟨_, -, hfinish⟩ | hfinish <;> rw [hfinish]
  · exact ⟨hsound.caches_putUsed hlooked trivial fun _ _ => id, hstored⟩
  · exact ⟨hsound.caches_afterUse hlooked trivial fun _ _ => id,
      hstored.saveSession (fun _ _ => id) (hsound.named hlooked) trivial⟩

/-- Every call leaves them in order. -/
theorem after (h : state.SessionsTidy) (call : SessionCall) : (call.after state).SessionsTidy := by
  cases call with
  | add new =>
    simp only [SessionCall.after]
    rcases state.addSession_cases new.session with ⟨_, -, hrun⟩ | hrun <;> rw [hrun]
    · exact ⟨h.cached.hold _, h.stored⟩
    · exact ⟨h.cached.afterAdding (fun _ => id) new.named trivial,
        h.stored.saveSession (fun _ _ => id) new.named trivial⟩
  | encrypt senderKey plain =>
    have hlooked := h.lookedUp senderKey.toBase64
    simp only [SessionCall.after]
    obtain ⟨-, e, hrun⟩ | ⟨use, -, hrun, hsound, -⟩ := Machine.encrypt_cases hlooked.cached plain <;> rw [hrun]
    · exact hlooked
    · exact h.finish hsound
  | decrypt senderKey message =>
    have hlooked := h.lookedUp senderKey.toBase64
    simp only [SessionCall.after]
    obtain ⟨-, e, hrun⟩ | ⟨use, -, hrun, hsound, -⟩ := Machine.decrypt_cases hlooked.cached message <;> rw [hrun]
    · exact hlooked
    · exact h.finish hsound
  | restart => exact ⟨caches_ofUser _, h.stored⟩

/-- And so do runs. -/
theorem afterSessionEvents (h : state.SessionsTidy) (events : List SessionEvent) :
    (state.afterSessionEvents events).SessionsTidy := by
  induction events generalizing state with
  | nil => exact h
  | cons event events ih => exact ih ((h.within event.around).after event.call)

end SessionsTidy

end MachineState

end RoomCrypt
