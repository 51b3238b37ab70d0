import RoomCrypt.Proofs.Machine.RoomKeyLog
import RoomCrypt.Proofs.Store.Subscriptions

/-!
# Waiting for a room key, step by step

Someone who waits for a room key subscribes to the announcements, looks for the key and then takes one notice after
the other. He looks first in the cache and then in the store, and other things may happen in between. If nothing
else happens, the steps in a row are the calls by which he starts to wait and takes up what was announced.
-/

namespace RoomCrypt

open Megolm (InboundSession Receiver)
open Store

/-- Who looks for a key looks for the first time, or again because he has missed announcements. -/
inductive Look where
  | first
  | again

/-- How far someone is who waits for a key. -/
inductive WaitStage where
  /-- He has done nothing yet. -/
  | ready
  /-- He has subscribed and will look in the cache. -/
  | looking (look : Look) (subscription : Subscription)
  /-- He has not found the key in the cache and will look in the store. -/
  | loading (look : Look) (subscription : Subscription)
  /-- He has found the session in the store and will cache it. -/
  | caching (look : Look) (subscription : Subscription) (session : InboundSession Receiver)
  /-- He has not found the key and takes the next notice when there is one. -/
  | listening (subscription : Subscription)
  /-- He has answered. -/
  | done (answer : Except StoreError Bool)

namespace WaitStage

/-- The next step of someone who waits for the key of a session. -/
def advance [Suite] (name : RoomSessionName) : MachineState × WaitStage → MachineState × WaitStage
  | (state, ready) => (state, looking .first state.machine.subscribe)
  | (state, looking look subscription) =>
    match state.cachedRoomSession? name with
    | some _ => (state, done (.ok true))
    | none => (state, loading look subscription)
  | (state, loading look subscription) =>
    match state.backend.loadRoomSession name.room name.senderKey name.sessionId with
    | .error e => (state, done (.error e))
    | .ok none => (state, listening subscription)
    | .ok (some session) => (state, caching look subscription session)
  | (state, caching _ _ session) => (state.cacheRoomSession session, done (.ok true))
  | (state, listening subscription) =>
    match state.machine.announcements.next? subscription with
    | none => (state, listening subscription)
    | some (.missed, left) => (state, looking .again left)
    | some (.news announcement, left) =>
      if announcement.any (·.isFor name.room name.senderKey name.sessionId) then (state, done (.ok true))
      else (state, listening left)
  | (state, done answer) => (state, done answer)

/-- His place among the announcements, while he waits. -/
def subscription? : WaitStage → Option Subscription
  | ready => none
  | looking _ subscription => some subscription
  | loading _ subscription => some subscription
  | caching _ subscription _ => some subscription
  | listening subscription => some subscription
  | done _ => none

/-- What someone has not dealt with who has looked for the key and not found it: the notices that are pending, and
before them the one for which he looks again. -/
def unread? (stream : Announcements) : WaitStage → Option (List Notice)
  | looking .again subscription => some (.missed :: stream.pending subscription)
  | loading .again subscription => some (.missed :: stream.pending subscription)
  | caching .again subscription _ => some (.missed :: stream.pending subscription)
  | listening subscription => some (stream.pending subscription)
  | _ => none

/-- Who has looked for a key and still waits listens, or he looks again because he has missed announcements. -/
theorem unread?_cases {stream : Announcements} {waiter : WaitStage} {unread : List Notice}
    (h : waiter.unread? stream = some unread) :
    (∃ subscription, waiter = .listening subscription ∧ unread = stream.pending subscription) ∨
      .missed ∈ unread := by
  unfold unread? at h
  split at h <;> cases h
  · exact Or.inr List.mem_cons_self
  · exact Or.inr List.mem_cons_self
  · exact Or.inr List.mem_cons_self
  · exact Or.inl ⟨_, rfl, rfl⟩

end WaitStage

/-- The session for which someone waits. -/
def Machine.Waiter.name (waiter : Machine.Waiter) : RoomSessionName :=
  ⟨waiter.room, waiter.senderKey, waiter.sessionId⟩

variable [Suite]

/-- What the next step of someone who waits can be, and what it leaves. -/
inductive WaitStage.Advances (name : RoomSessionName) (state : MachineState) :
    WaitStage → MachineState → WaitStage → Prop where
  /-- He subscribes. -/
  | subscribes : Advances name state .ready state (.looking .first state.machine.subscribe)
  /-- He finds the session in the cache. -/
  | finds {look : Look} {subscription : Subscription} {session : InboundSession Receiver}
      (hcached : state.cachedRoomSession? name = some session) :
      Advances name state (.looking look subscription) state (.done (.ok true))
  /-- He does not find it in the cache. -/
  | passes {look : Look} {subscription : Subscription} (hcached : state.cachedRoomSession? name = none) :
      Advances name state (.looking look subscription) state (.loading look subscription)
  /-- The store fails. -/
  | fails {look : Look} {subscription : Subscription} {e : StoreError}
      (hload : state.backend.loadRoomSession name.room name.senderKey name.sessionId = .error e) :
      Advances name state (.loading look subscription) state (.done (.error e))
  /-- He does not find it in the store. -/
  | misses {look : Look} {subscription : Subscription}
      (hload : state.backend.loadRoomSession name.room name.senderKey name.sessionId = .ok none) :
      Advances name state (.loading look subscription) state (.listening subscription)
  /-- He finds it in the store. -/
  | loads {look : Look} {subscription : Subscription} {session : InboundSession Receiver}
      (hload : state.backend.loadRoomSession name.room name.senderKey name.sessionId = .ok (some session)) :
      Advances name state (.loading look subscription) state (.caching look subscription session)
  /-- He caches what he has found. -/
  | caches {look : Look} {subscription : Subscription} {session : InboundSession Receiver} :
      Advances name state (.caching look subscription session) (state.cacheRoomSession session) (.done (.ok true))
  /-- There is no notice. -/
  | rests {subscription : Subscription} (hnext : state.machine.announcements.next? subscription = none) :
      Advances name state (.listening subscription) state (.listening subscription)
  /-- He has missed announcements. -/
  | lags {subscription left : Subscription}
      (hnext : state.machine.announcements.next? subscription = some (.missed, left)) :
      Advances name state (.listening subscription) state (.looking .again left)
  /-- He hears of his session. -/
  | hears {subscription left : Subscription} {announcement : Announcement}
      (hnext : state.machine.announcements.next? subscription = some (.news announcement, left))
      (hfor : announcement.any (·.isFor name.room name.senderKey name.sessionId) = true) :
      Advances name state (.listening subscription) state (.done (.ok true))
  /-- He hears of others. -/
  | ignores {subscription left : Subscription} {announcement : Announcement}
      (hnext : state.machine.announcements.next? subscription = some (.news announcement, left))
      (hother : ¬ announcement.any (·.isFor name.room name.senderKey name.sessionId) = true) :
      Advances name state (.listening subscription) state (.listening left)
  /-- He has answered and does nothing any more. -/
  | stays {answer : Except StoreError Bool} : Advances name state (.done answer) state (.done answer)

/-- These are all his steps. -/
theorem WaitStage.advances {name : RoomSessionName} {state after : MachineState} {waiter next : WaitStage}
    (h : advance name (state, waiter) = (after, next)) : Advances name state waiter after next := by
  obtain ⟨rfl, rfl⟩ : (advance name (state, waiter)).1 = after ∧ (advance name (state, waiter)).2 = next :=
    ⟨congrArg Prod.fst h, congrArg Prod.snd h⟩
  clear h
  cases waiter with
  | ready => exact .subscribes
  | looking look subscription =>
    rw [advance]
    split
    · exact .finds ‹_›
    · exact .passes ‹_›
  | loading look subscription =>
    rw [advance]
    split
    · exact .fails ‹_›
    · exact .misses ‹_›
    · exact .loads ‹_›
  | caching look subscription session => exact .caches
  | listening subscription =>
    rw [advance]
    split
    · exact .rests ‹_›
    · exact .lags ‹_›
    · split
      · exact .hears ‹_› ‹_›
      · exact .ignores ‹_› ‹_›
  | done answer => exact .stays

/-- Looking for a session does not announce anything. -/
theorem Machine.announcements_roomSession? (name : RoomSessionName) (state : MachineState) :
    (InPlace.on (roomSession? name.room name.senderKey name.sessionId) state).2.machine.announcements =
      state.machine.announcements := by
  cases hcached : state.cachedRoomSession? name with
  | some session => rw [on_roomSession?_of_cached hcached]
  | none =>
    rw [on_roomSession?_of_not_cached hcached]
    rcases state.backend.loadRoomSession name.room name.senderKey name.sessionId with e | _ | session <;> rfl

namespace WaitStage

/-- The steps of a look are the look of the machine. -/
theorem iterate_advance_looking (name : RoomSessionName) (state : MachineState) (look : Look)
    (subscription : Subscription) :
    let run := InPlace.on (Machine.roomSession? name.room name.senderKey name.sessionId) state
    ∃ n, (advance name)^[n] (state, looking look subscription) =
      (run.2, match run.1 with
        | .error e => done (.error e)
        | .ok none => listening subscription
        | .ok (some _) => done (.ok true)) := by
  intro run
  cases hcached : state.cachedRoomSession? name with
  | some session =>
    refine ⟨1, ?_⟩
    have hrun : run = _ := Machine.on_roomSession?_of_cached hcached
    rw [hrun, Function.iterate_one, advance, hcached]
  | none =>
    have hrun : run = _ := Machine.on_roomSession?_of_not_cached hcached
    rw [hrun]
    have hlook : advance name (state, looking look subscription) = (state, loading look subscription) := by
      rw [advance, hcached]
    rcases hload : state.backend.loadRoomSession name.room name.senderKey name.sessionId with e | _ | session
    · refine ⟨2, ?_⟩
      rw [Function.iterate_succ_apply, hlook, Function.iterate_one, advance, hload]
    · refine ⟨2, ?_⟩
      rw [Function.iterate_succ_apply, hlook, Function.iterate_one, advance, hload]
    · refine ⟨3, ?_⟩
      rw [Function.iterate_succ_apply, hlook, Function.iterate_succ_apply, advance, hload]
      rfl

/-- The first steps of someone who waits are the call by which he starts. -/
theorem iterate_advance_ready (name : RoomSessionName) (state : MachineState) :
    let run := InPlace.on (Machine.beginWait name.room name.senderKey name.sessionId) state
    ∃ n, (advance name)^[n] (state, ready) =
      (run.2, match run.1 with
        | .error e => done (.error e)
        | .ok none => done (.ok true)
        | .ok (some waiter) => listening waiter.subscription) := by
  intro run
  obtain ⟨n, hlook⟩ := iterate_advance_looking name state .first state.machine.subscribe
  refine ⟨n + 1, ?_⟩
  rw [Function.iterate_succ_apply, advance, hlook]
  have hrun : run = InPlace.on (Machine.beginWait name.room name.senderKey name.sessionId) state := rfl
  unfold Machine.beginWait at hrun
  rw [InPlace.on_bind, InPlace.on_get] at hrun
  dsimp only at hrun
  rw [InPlace.on_bind] at hrun
  rw [hrun]
  rcases InPlace.on (Machine.roomSession? name.room name.senderKey name.sessionId) state with
    ⟨e | _ | session, after⟩ <;> rfl

/-- The steps for one notice are the call that tells whether it is of his key. -/
theorem iterate_advance_hears (waiter : Machine.Waiter) {state : MachineState} {subscription left : Subscription}
    {notice : Notice} (hnext : state.machine.announcements.next? subscription = some (notice, left)) :
    let run := InPlace.on (waiter.hears notice) state
    run.2.machine.announcements = state.machine.announcements ∧
      ∃ n, (advance waiter.name)^[n] (state, listening subscription) =
        (run.2, if run.1 = .ok false then listening left else done run.1) := by
  intro run
  cases notice with
  | news announcement =>
    have hrun : run = (.ok (announcement.any (·.isFor waiter.room waiter.senderKey waiter.sessionId)), state) := rfl
    rw [hrun]
    refine ⟨rfl, 1, ?_⟩
    cases hfor : announcement.any (·.isFor waiter.room waiter.senderKey waiter.sessionId) <;>
      simp [advance, hnext, Machine.Waiter.name, hfor]
  | missed =>
    have hmiss : advance waiter.name (state, listening subscription) = (state, looking .again left) := by
      simp [advance, hnext]
    obtain ⟨n, hlook⟩ := iterate_advance_looking waiter.name state .again left
    have hsame := Machine.announcements_roomSession? waiter.name state
    have hrun : run = _ := InPlace.on_bind (Machine.roomSession? waiter.name.room waiter.name.senderKey
      waiter.name.sessionId) (fun found => pure found.isSome) state
    rcases hfound : InPlace.on (Machine.roomSession? waiter.name.room waiter.name.senderKey waiter.name.sessionId)
      state with ⟨e | _ | session, after⟩ <;>
    · rw [hfound] at hrun hlook hsame
      rw [hrun]
      refine ⟨hsame, n + 1, ?_⟩
      rw [Function.iterate_succ_apply, hmiss, hlook]
      rfl

/-- Later steps take one notice after the other. If he goes on waiting, nothing is pending. -/
theorem iterate_advance_hearsAny (waiter : Machine.Waiter) {notices : List Notice} {state : MachineState}
    {subscription : Subscription} (hpending : state.machine.announcements.pending subscription = notices) :
    let run := InPlace.on (waiter.hearsAny notices) state
    ∃ n left, (advance waiter.name)^[n] (state, listening subscription) =
        (run.2, if run.1 = .ok false then listening left else done run.1) ∧
      (run.1 = .ok false → run.2.machine.announcements.pending left = []) := by
  induction notices generalizing state subscription with
  | nil => exact ⟨0, subscription, rfl, fun _ => hpending⟩
  | cons notice notices ih =>
    intro run
    -- The notice is the next one, and the others are pending behind it.
    obtain ⟨left, hnext, hlater⟩ : ∃ left, state.machine.announcements.next? subscription = some (notice, left) ∧
        state.machine.announcements.pending left = notices := by
      rw [Announcements.pending_eq] at hpending
      split at hpending <;> cases hpending
      exact ⟨_, ‹_›, rfl⟩
    obtain ⟨hsame, n, hsteps⟩ := iterate_advance_hears waiter hnext
    have hrun : run = _ := InPlace.on_bind (waiter.hears notice)
      (fun heard => if heard then pure true else waiter.hearsAny notices) state
    rcases hheard : InPlace.on (waiter.hears notice) state with ⟨e | heard, after⟩
    · rw [hheard] at hrun hsteps
      rw [hrun]
      exact ⟨n, left, hsteps, nofun⟩
    · rw [hheard] at hrun hsteps hsame
      rw [hrun]
      cases heard with
      | true => exact ⟨n, left, hsteps, nofun⟩
      | false =>
        obtain ⟨m, last, hothers, hempty⟩ := ih (hsame ▸ hlater)
        refine ⟨m + n, last, ?_, hempty⟩
        rw [Function.iterate_add_apply, hsteps]
        exact hothers

/-- Later steps are the call by which he takes up what was announced. -/
theorem iterate_advance_listening (waiter : Machine.Waiter) (state : MachineState) :
    let run := InPlace.on waiter.finish state
    ∃ n left, (advance waiter.name)^[n] (state, listening waiter.subscription) =
        (run.2, if run.1 = .ok false then listening left else done run.1) ∧
      (run.1 = .ok false → run.2.machine.announcements.pending left = []) := by
  intro run
  have hrun : run = InPlace.on waiter.finish state := rfl
  unfold Machine.Waiter.finish at hrun
  rw [InPlace.on_bind, InPlace.on_get] at hrun
  rw [hrun]
  exact iterate_advance_hearsAny waiter rfl

end WaitStage

end RoomCrypt
