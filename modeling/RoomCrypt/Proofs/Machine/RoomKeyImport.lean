import RoomCrypt.Proofs.Machine.RoomAuthenticity
import RoomCrypt.Proofs.Megolm.Records

/-!
# Importing a room key

An import changes three places: the store, the cache and the stream of announcements. It changes all of them
or none. Its session is saved before it is cached and announced, so that a store that fails leaves no session
in the cache and no announcement of one that is not stored.
-/

namespace RoomCrypt

open Megolm (InboundSession Receiver)
open Store

/-- Who subscribes gets the next announcement, and nothing else yet. -/
theorem Store.Announcements.pending_send_subscribe (stream : Announcements) (announcement : Announcement) :
    (stream.send announcement).pending stream.subscribe = [.news announcement] := by
  have hexcess : stream.held.length + 1 - capacity ≤ stream.held.length := by
    unfold capacity
    omega
  have hskipped : stream.held.length + 1 - capacity +
      (stream.dropped + stream.held.length - (stream.dropped + (stream.held.length + 1 - capacity))) =
      stream.held.length := by
    omega
  have hnews : (stream.send announcement).news stream.subscribe = [announcement] := by
    simp only [send, news, subscribe, count, List.length_append, List.length_singleton, List.drop_drop]
    rw [hskipped, List.drop_left]
  have hbehind : ¬ stream.subscribe.position < (stream.send announcement).dropped := by
    simp only [send, subscribe, count, List.length_append, List.length_singleton]
    omega
  unfold pending
  rw [hnews]
  exact if_neg hbehind

section

variable [Suite]

/-- What is made of an imported key: a session from the first place of the key on, which the device of the
sender passed on last, with the limits of its room, if these are known. -/
structure KeyImport.Makes (imported : KeyImport) (state : MachineState) (session : InboundSession Receiver) : Prop where
  name_eq : session.name = imported.name
  state_eq : session.state = .ofExported imported.key.sessionKey
  firstKnownIndex_eq : session.firstKnownIndex = imported.key.sessionKey.index
  forwardingChain_eq :
    session.forwardingChain = imported.key.forwardingChain ++ [imported.key.senderKey.toBase64]
  backupVersion_eq : session.backupVersion = some imported.version
  claimedKeys_eq : session.claimedKeys = imported.key.claimedKeys
  algorithm_eq : session.algorithm = imported.key.algorithm
  limits : ∀ settings, state.roomSettings imported.room = .ok (some settings) →
    session.maxAge = settings.rotationPeriod ∧ session.maxMessages = settings.rotationMessages
  no_limits : (∀ settings, state.roomSettings imported.room ≠ .ok (some settings)) →
    session.maxAge = none ∧ session.maxMessages = none

/-- A session was taken: it is stored and cached under its name, there is one announcement, which is of this
session, and nothing else is changed. -/
structure MachineState.Took (before : MachineState) (session : InboundSession Receiver) (after : MachineState) :
    Prop where
  stored : ∀ name, after.backend.store.roomText? name =
    if name = session.name then some (MemoryStore.roomSessionText session) else before.backend.store.roomText? name
  loaded : Suite.isPoint session.state.signingKey = true →
    after.backend.store.loadRoomSession session.room session.senderKey session.sessionId = .ok (some session)
  cached : ∀ name, after.cachedRoomSession? name =
    if name = session.name then some session else before.cachedRoomSession? name
  announced : after.machine.announcements = before.machine.announcements.send [.ofSession session]
  heard : after.machine.announcements.pending before.machine.subscribe = [.news [.ofSession session]]
  otherwise_eq : after =
    { before with
      backend :=
        { before.backend with
          store := { before.backend.store with roomSessions := after.backend.store.roomSessions } }
      machine :=
        { before.machine with
          roomSessions := after.machine.roomSessions
          announcements := after.machine.announcements } }

namespace KeyImport

variable {imported : KeyImport} {state : MachineState}

omit [Suite] in
/-- The session of a key that fits is as it should be. -/
theorem makes_session (h : imported.Fits) (state : MachineState) : imported.Makes state (imported.session state) where
  name_eq := name_session h state
  state_eq := rfl
  firstKnownIndex_eq := rfl
  forwardingChain_eq := rfl
  backupVersion_eq := rfl
  claimedKeys_eq := rfl
  algorithm_eq := h.1.symm
  limits settings hsettings := by
    unfold session Machine.sessionOfRoomKey
    rw [hsettings]
    exact ⟨rfl, rfl⟩
  no_limits hsettings := by
    unfold session Machine.sessionOfRoomKey
    rcases hroom : state.roomSettings imported.room with e | _ | settings
    · exact ⟨rfl, rfl⟩
    · exact ⟨rfl, rfl⟩
    · exact absurd hroom (hsettings settings)

/-- It is restored from its record, if its signing key is a point. -/
theorem ofPickle?_session (imported : KeyImport) (state : MachineState)
    (hpoint : Suite.isPoint imported.key.sessionKey.signingKey = true) :
    InboundSession.ofPickle? (imported.session state).pickle = .ok (imported.session state) := by
  have hreceiver : (imported.session state).state.Restorable := ⟨hpoint, UInt32.le_refl _⟩
  rw [InboundSession.ofPickle?_pickle hreceiver rfl rfl]
  refine congrArg Except.ok
    (InboundSession.recorded_eq ((state.roomSettings imported.room).toOption.join.bind RoomSettings.rotationMs) ?_)
  unfold session Machine.sessionOfRoomKey
  cases (state.roomSettings imported.room).toOption.join <;> rfl

/-- A state in which it is saved took it. -/
theorem took_session (imported : KeyImport) (state : MachineState) :
    state.Took (imported.session state) (state.afterSave { roomSessions := [imported.session state] }) where
  stored := state.roomText?_afterSave _
  loaded hpoint := by
    refine (MemoryStore.loadRoomSession_eq _ (imported.session state).name).trans ?_
    rw [MachineState.roomText?_afterSave, if_pos rfl]
    dsimp only
    rw [MemoryStore.roomSessionOfText?_roomSessionText, imported.ofPickle?_session state hpoint]
    rfl
  cached := MachineState.cachedRoomSession?_cache state _
  announced := rfl
  heard := Announcements.pending_send_subscribe _ _
  otherwise_eq := rfl

end KeyImport

/-- A room key is imported wholly or not at all. It is imported if its algorithm is the one that we know, it
belongs to the session that it stands under and the store takes its session, whatever is known of the room;
otherwise nothing is changed. -/
theorem importRoomKey_whole_or_not (imported : KeyImport) (state : MachineState) :
    let run := InPlace.on imported.task state
    (run.1.isOk ↔ imported.key.algorithm = Megolm.algorithmName ∧
        imported.key.sessionKey.sessionId = imported.sessionId ∧ state.backend.outage .saveChanges = none) ∧
      (∀ e, run.1 = .error e → run.2 = state) ∧
      ∀ session, run.1 = .ok session → imported.Makes state session ∧ state.Took session run.2 := by
  intro run
  rw [← and_assoc (a := imported.key.algorithm = Megolm.algorithmName)]
  change (_ ↔ imported.Fits ∧ _) ∧ _
  by_cases hfits : imported.Fits
  · have hrun : run = _ := KeyImport.on_task_of_fits hfits state
    cases houtage : state.backend.outage .saveChanges with
    | some message =>
      rw [houtage] at hrun
      rw [hrun]
      exact ⟨by simp [Except.isOk, Except.toBool], fun _ _ => rfl, nofun⟩
    | none =>
      rw [houtage] at hrun
      rw [hrun]
      refine ⟨by simp [Except.isOk, Except.toBool, hfits], nofun, ?_⟩
      rintro session ⟨⟩
      exact ⟨KeyImport.makes_session hfits state, imported.took_session state⟩
  · obtain ⟨e, hrun⟩ := KeyImport.on_task_of_not_fits hfits state
    rw [show run = _ from hrun]
    exact ⟨by simp [Except.isOk, Except.toBool, hfits], fun _ _ => rfl, nofun⟩

end

open scoped Suite.Evaluation

/-- A key is imported with the limit of its room; and while the store fails, it is not. -/
theorem importRoomKey_whole_or_not_limited :
    let imported := importOf backedUpSession firstRoom
    let settings : RoomSettings := { rotationMessages := some 100 }
    let around : Surroundings := default
    let state :=
      (MachineState.boot evaluationUser {}).within { around with roomSettings := fun _ => .ok (some settings) }
    let failing := state.within { around with outage := fun _ => some "full" }
    (InPlace.on imported.task failing).2 = failing ∧
      ∃ session, (InPlace.on imported.task state).1 = .ok session ∧ session.maxMessages = some 100 ∧
        state.Took session (InPlace.on imported.task state).2 := by
  intro imported settings around state failing
  obtain ⟨-, hfails, -⟩ := importRoomKey_whole_or_not imported failing
  obtain ⟨-, -, htaken⟩ := importRoomKey_whole_or_not imported state
  obtain ⟨hmakes, htook⟩ := htaken (imported.session state) rfl
  exact ⟨hfails (.store (.backend "full")) rfl, imported.session state, rfl, (hmakes.limits settings rfl).2, htook⟩

end RoomCrypt
