import RoomCrypt.Proofs.Backup.Encryption
import RoomCrypt.Proofs.Machine.KeyArrivals
import RoomCrypt.Proofs.Machine.RoomRuns

/-!
# The steps of a machine that takes room keys

A machine whose store works takes room keys, one by one or from a backup, while someone waits for one of them. What is
stored can be read then, and everything else that the machine does spares its sessions for rooms. All calls that have
to do with room keys are runs of such steps.
-/

namespace RoomCrypt

open Megolm (InboundSession Receiver)
open Store

variable [Suite]

namespace Store

/-- What is stored under a name can be read, and it is a session of that name. -/
def MemoryStore.RoomsReadable (store : MemoryStore) : Prop :=
  ∀ name, ∀ text ∈ store.roomText? name, ∃ session, roomSessionOfText? text = .ok session ∧ session.name = name

variable {store : MemoryStore} {backend : Backend} {name : RoomSessionName} {session : InboundSession Receiver}

theorem MemoryStore.roomsReadable_empty : RoomsReadable {} := by
  rintro name text ⟨⟩

/-- A session that can be restored from its record may be saved. -/
theorem MemoryStore.RoomsReadable.saveRoomSession (h : store.RoomsReadable)
    (hrestored : InboundSession.ofPickle? session.pickle = .ok session) :
    (store.saveRoomSession session).RoomsReadable := by
  intro name text htext
  rw [roomText?_saveRoomSession] at htext
  split at htext
  · next hname =>
    obtain rfl := Option.some.inj htext
    refine ⟨session, ?_, hname.symm⟩
    rw [roomSessionOfText?_roomSessionText, hrestored]
    rfl
  · exact h name text htext

/-- A session that is loaded has the name that it was loaded for. -/
theorem MemoryStore.RoomsReadable.name_of_load (h : backend.store.RoomsReadable)
    (hload : backend.loadRoomSession name.room name.senderKey name.sessionId = .ok (some session)) :
    session.name = name := by
  have hanswer := Backend.eq_ok_of_attempt hload
  rw [loadRoomSession_eq] at hanswer
  cases htext : backend.store.roomText? name with
  | none =>
    rw [htext] at hanswer
    cases hanswer
  | some text =>
    obtain ⟨stored, hread, hname⟩ := h name text htext
    simp only [htext, hread] at hanswer
    cases hanswer
    exact hname

/-- If the store works, what is stored is loaded. -/
theorem MemoryStore.RoomsReadable.exists_load (h : backend.store.RoomsReadable)
    (hworks : backend.outage .roomSession = none) (hstored : (backend.store.roomText? name).isSome) :
    ∃ session, backend.loadRoomSession name.room name.senderKey name.sessionId = .ok (some session) := by
  obtain ⟨text, htext⟩ := Option.isSome_iff_exists.mp hstored
  obtain ⟨session, hread, -⟩ := h name text htext
  refine ⟨session, ?_⟩
  unfold Backend.loadRoomSession Backend.attempt
  rw [hworks]
  dsimp only
  rw [MemoryStore.loadRoomSession_eq, htext]
  dsimp only
  rw [hread]
  rfl

end Store

namespace MachineState

/-- A machine finds the session of a name when it looks for it. -/
def Finds (state : MachineState) (name : RoomSessionName) : Prop :=
  ∃ session after,
    InPlace.on (Machine.roomSession? name.room name.senderKey name.sessionId) state = (.ok (some session), after)

/-- A session of a name is cached or stored. -/
def Has (state : MachineState) (name : RoomSessionName) : Prop :=
  (state.cachedRoomSession? name).isSome ∨ (state.backend.store.roomText? name).isSome

variable {state : MachineState} {name : RoomSessionName}

theorem finds_of_cached (hcached : (state.cachedRoomSession? name).isSome) : state.Finds name := by
  obtain ⟨session, hsession⟩ := Option.isSome_iff_exists.mp hcached
  exact ⟨session, state, Machine.on_roomSession?_of_cached hsession⟩

/-- What is found was there. -/
theorem Finds.has (h : state.Finds name) : state.Has name := by
  obtain ⟨session, after, hfound⟩ := h
  cases hcached : state.cachedRoomSession? name with
  | some cached => exact Or.inl (by rw [hcached]; rfl)
  | none =>
    rw [Machine.on_roomSession?_of_not_cached hcached] at hfound
    rcases hload : state.backend.loadRoomSession name.room name.senderKey name.sessionId with e | _ | loaded
    · rw [hload] at hfound
      cases hfound
    · rw [hload] at hfound
      cases hfound
    · refine Or.inr (Option.isSome_iff_ne_none.mpr fun hnone => ?_)
      have hanswer := Backend.eq_ok_of_attempt hload
      rw [MemoryStore.loadRoomSession_eq, hnone] at hanswer
      cases hanswer

/-- If the store works and can be read, what is there is found. -/
theorem Has.finds (h : state.Has name) (hworks : state.backend.outage .roomSession = none)
    (hreadable : state.backend.store.RoomsReadable) : state.Finds name := by
  cases hcached : state.cachedRoomSession? name with
  | some cached => exact finds_of_cached (by rw [hcached]; rfl)
  | none =>
    have hstored : (state.backend.store.roomText? name).isSome :=
      h.resolve_left (by rw [hcached]; exact Bool.false_ne_true)
    obtain ⟨session, hload⟩ := hreadable.exists_load hworks hstored
    have hfound := Machine.on_roomSession?_of_not_cached hcached
    rw [hload] at hfound
    exact ⟨session, _, hfound⟩

/-- If a session is found, a message is not answered with the error that there is none. -/
theorem Finds.ne_missingRoomKey (h : state.Finds name) (message : MegolmMessage) :
    (InPlace.on (Machine.decryptRoomMessage name.room name.senderKey name.sessionId message) state).1 ≠
      .error (.missingRoomKey name.room name.sessionId) := by
  obtain ⟨session, after, hfound⟩ := h
  unfold Machine.decryptRoomMessage
  rw [InPlace.on_bind, Task.on_wrap, hfound]
  dsimp only [Except.mapError]
  rw [InPlace.on_bind, Task.on_ofExcept]
  cases session.decrypt message <;> nofun

/-- The sessions of a machine for rooms are spared: none leaves the cache, the stored ones are the same, nothing is
announced, and the calls of the store that work are the same. -/
structure SparesRooms (before after : MachineState) : Prop where
  cached : ∀ name, (before.cachedRoomSession? name).isSome → (after.cachedRoomSession? name).isSome
  texts_eq : ∀ name, after.backend.store.roomText? name = before.backend.store.roomText? name
  announcements_eq : after.machine.announcements = before.machine.announcements
  outage_eq : after.backend.outage = before.backend.outage

omit [Suite] in
theorem SparesRooms.refl (state : MachineState) : state.SparesRooms state :=
  ⟨fun _ => id, fun _ => rfl, rfl, rfl⟩

omit [Suite] in
theorem SparesRooms.trans {before between after : MachineState} (h : before.SparesRooms between)
    (h' : between.SparesRooms after) : before.SparesRooms after where
  cached other := h'.cached other ∘ h.cached other
  texts_eq other := (h'.texts_eq other).trans (h.texts_eq other)
  announcements_eq := h'.announcements_eq.trans h.announcements_eq
  outage_eq := h'.outage_eq.trans h.outage_eq

omit [Suite] in
/-- To cache a session spares the others. -/
theorem sparesRooms_cache (state : MachineState) (session : InboundSession Receiver) :
    state.SparesRooms (state.cacheRoomSession session) :=
  ⟨isSome_cachedRoomSession?_cache state session, fun _ => rfl, rfl, rfl⟩

end MachineState

namespace Machine

open MachineState

/-- To look for a session spares all of them. -/
theorem sparesRooms_roomSession? (name : RoomSessionName) (state : MachineState) :
    state.SparesRooms (InPlace.on (roomSession? name.room name.senderKey name.sessionId) state).2 := by
  cases hcached : state.cachedRoomSession? name with
  | some session =>
    rw [on_roomSession?_of_cached hcached]
    exact .refl state
  | none =>
    rw [on_roomSession?_of_not_cached hcached]
    rcases state.backend.loadRoomSession name.room name.senderKey name.sessionId with e | _ | session
    · exact .refl state
    · exact .refl state
    · exact state.sparesRooms_cache session

/-- So does a message. -/
theorem sparesRooms_decryptRoomMessage (name : RoomSessionName) (message : MegolmMessage) (state : MachineState) :
    state.SparesRooms
      (InPlace.on (decryptRoomMessage name.room name.senderKey name.sessionId message) state).2 := by
  have hlook := sparesRooms_roomSession? name state
  unfold decryptRoomMessage
  rw [InPlace.on_bind, Task.on_wrap]
  rcases hfound : InPlace.on (roomSession? name.room name.senderKey name.sessionId) state with ⟨e | _ | session, found⟩
  · rw [hfound] at hlook
    exact hlook
  · rw [hfound] at hlook
    exact hlook
  · rw [hfound] at hlook
    dsimp only [Except.mapError]
    rw [InPlace.on_bind, Task.on_ofExcept]
    rcases session.decrypt message with e | ⟨text, renewed⟩
    · exact hlook
    · exact hlook.trans (found.sparesRooms_cache renewed)

end Machine

/-- The signing key of a key that is read from a backup is a point. -/
theorem isPoint_of_readableImport? {version : String} {recoveryKey : Backup.RecoveryKey}
    {entry : RoomId × String × Backup.Entry} {imported : KeyImport}
    (h : readableImport? version recoveryKey entry = some imported) :
    Suite.isPoint imported.key.sessionKey.signingKey = true := by
  unfold readableImport? at h
  cases hread : recoveryKey.decrypt entry.2.2.data with
  | error e =>
    rw [hread] at h
    cases h
  | ok key =>
    rw [hread] at h
    obtain rfl := Option.some.inj h
    exact Backup.RecoveryKey.isPoint_of_decrypt hread

/-- What can happen to a machine that takes room keys, while someone waits for the key of a session. Its store works,
and the keys that it takes are such as can be read from a backup. -/
inductive ImportStep (name : RoomSessionName) (scene : WaitScene) : WaitScene → Prop where
  /-- He makes his next step. -/
  | waiter {state : MachineState} {waiter : WaitStage}
      (hadvance : WaitStage.advance name (scene.state, scene.waiter) = (state, waiter)) :
      ImportStep name scene { scene with state, waiter }
  /-- His time is over. It is not measured before he has looked for the first time. -/
  | expires (hwaits : (scene.waiter.unread? scene.state.machine.announcements).isSome) :
      ImportStep name scene { scene with waiter := .done (.ok false) }
  /-- An import stores the session that it has made of a key, as the settings of the room were then. -/
  | persist {imported : KeyImport} (before : MachineState) {backend : Backend} (hfits : imported.Fits)
      (hpoint : Suite.isPoint imported.key.sessionKey.signingKey = true)
      (hsave : scene.state.backend.save { roomSessions := [imported.session before] } = .ok backend) :
      ImportStep name scene (scene.persist (imported.session before) backend)
  /-- An import caches its session. -/
  | cache {session : InboundSession Receiver} (before after : List ImportStage)
      (himports : scene.imports = before ++ .stored session :: after) :
      ImportStep name scene
        { scene with state := scene.state.cacheRoomSession session, imports := before ++ .cached session :: after }
  /-- An import announces its session. -/
  | announce {session : InboundSession Receiver} (before after : List ImportStage)
      (himports : scene.imports = before ++ .cached session :: after) :
      ImportStep name scene (scene.announce session (before ++ after))
  /-- Anything else happens that spares the sessions. -/
  | elsewhere {state : MachineState} (hspares : scene.state.SparesRooms state) :
      ImportStep name scene { scene with state }

namespace ImportStep

variable {name : RoomSessionName} {after : WaitScene}

/-- All of this can happen while someone waits. -/
theorem wait {scene : WaitScene} (h : ImportStep name scene after) : WaitStep name scene after := by
  cases h with
  | waiter hadvance => exact .waiter hadvance
  | expires hwaits => exact .expires hwaits
  | persist before hfits hpoint hsave => exact .persist hsave
  | cache before after himports => exact .cache before after himports
  | announce before after himports => exact .announce before after himports
  | elsewhere hspares =>
    exact .elsewhere hspares.announcements_eq fun other hother => by rwa [hspares.texts_eq]

/-- The machine may take a key without interruption. -/
theorem run_taking (scene : WaitScene) {imported : KeyImport}
    (hpoint : Suite.isPoint imported.key.sessionKey.signingKey = true) :
    Relation.ReflTransGen (ImportStep name) scene (scene.taking imported) := by
  obtain hrefused | ⟨backend, hfits, hsave, htaken⟩ := scene.taking_cases imported
  · rw [hrefused]
  · rw [htaken]
    have hstored : Relation.ReflTransGen (ImportStep name) scene _ := .single (.persist scene.state hfits hpoint hsave)
    exact (hstored.tail (.cache [] scene.imports rfl)).tail (.announce [] scene.imports rfl)

/-- It may take any number of keys. -/
theorem run_importAll (scene : WaitScene) {imports : List KeyImport}
    (hpoints : ∀ imported ∈ imports, Suite.isPoint imported.key.sessionKey.signingKey = true) :
    ∃ announced, Relation.ReflTransGen (ImportStep name) scene
      { scene with state := (importAll imports scene.state).2, announced } := by
  induction imports generalizing scene with
  | nil => exact ⟨scene.announced, .refl⟩
  | cons imported imports ih =>
    obtain ⟨hpoint, hothers⟩ := List.forall_mem_cons.mp hpoints
    obtain ⟨announced, hrun⟩ := ih (scene.taking imported) hothers
    exact ⟨announced, (run_taking scene hpoint).trans hrun⟩

/-- It may restore a backup. -/
theorem run_restoreBackup (scene : WaitScene) (version : String) (recoveryKey : Backup.RecoveryKey) :
    ∃ announced, Relation.ReflTransGen (ImportStep name) scene
      { scene with state := (InPlace.on (Machine.restoreBackup version recoveryKey) scene.state).2, announced } := by
  rw [Machine.on_restoreBackup]
  have hfetched : scene.state.SparesRooms (InPlace.on (Machine.fetchContent version) scene.state).2 := by
    rw [Machine.on_fetchContent]
    exact ⟨fun _ => id, fun _ => rfl, rfl, rfl⟩
  rcases hfetch : InPlace.on (Machine.fetchContent version) scene.state with ⟨e | content, fetched⟩
  · rw [hfetch] at hfetched
    exact ⟨scene.announced, .single (.elsewhere hfetched)⟩
  · rw [hfetch] at hfetched
    dsimp only at hfetched ⊢
    have hpoints : ∀ imported ∈ content.entries.filterMap (readableImport? version recoveryKey),
        Suite.isPoint imported.key.sessionKey.signingKey = true := by
      intro imported hmem
      obtain ⟨entry, -, hread⟩ := List.mem_filterMap.mp hmem
      exact isPoint_of_readableImport? hread
    obtain ⟨announced, himports⟩ : ∃ announced, Relation.ReflTransGen (ImportStep name) { scene with state := fetched }
        { scene with state := (importAll _ fetched).2, announced } := run_importAll _ hpoints
    rw [(Machine.run_restoreEntries version recoveryKey content.entries {} fetched).1]
    have hsaved (state : MachineState) : state.SparesRooms
        (InPlace.on (Machine.save { backupVersion := some version }) state).2 := by
      rw [Machine.on_save]
      cases state.backend.outage .saveChanges with
      | some message => exact .refl state
      | none => exact ⟨fun _ => id, fun _ => rfl, rfl, rfl⟩
    exact ⟨announced, (himports.head (.elsewhere hfetched)).tail (.elsewhere (hsaved _))⟩

/-- Any call that has to do with room keys may be made. -/
theorem run_call (scene : WaitScene) (call : RoomCall) (hpoint : ∀ imported, call = .importKey imported →
      Suite.isPoint imported.key.sessionKey.signingKey = true) :
    ∃ announced, Relation.ReflTransGen (ImportStep name) scene
      { scene with state := call.after scene.state, announced } := by
  cases call with
  | importKey imported => exact ⟨_, run_taking scene (hpoint imported rfl)⟩
  | restore version recoveryKey => exact run_restoreBackup scene version recoveryKey
  | decrypt other message =>
    exact ⟨scene.announced, .single (.elsewhere (Machine.sparesRooms_decryptRoomMessage other message scene.state))⟩

end ImportStep

end RoomCrypt
