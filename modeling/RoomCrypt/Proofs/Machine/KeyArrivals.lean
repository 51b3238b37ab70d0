import RoomCrypt.Proofs.Machine.RoomKeyImport
import RoomCrypt.Proofs.Machine.Waiting

/-!
# Room keys that arrive while someone waits

The session of an imported key is stored, then cached, then announced. These steps of any number of imports and the
steps of someone who waits come in any order. A key that was announced was stored before, so who does not find it has
subscribed before it is announced: its announcement is not behind him as long as he waits.
-/

namespace RoomCrypt

open Megolm (InboundSession Receiver)
open Store

/-- The name of the session that is announced. -/
def Store.RoomKeyInfo.name (info : RoomKeyInfo) : RoomSessionName :=
  ⟨info.room, info.senderKey, info.sessionId⟩

/-- A session with this name is announced. -/
def Store.Announces (announcement : Announcement) (name : RoomSessionName) : Prop :=
  ∃ info ∈ announcement, info.name = name

/-- If a store answers that there is no session, there is no text of it. -/
theorem Store.Backend.roomText?_of_load_none [Suite] {backend : Backend} {name : RoomSessionName}
    (hload : backend.loadRoomSession name.room name.senderKey name.sessionId = .ok none) :
    backend.store.roomText? name = none := by
  have hanswer := Backend.eq_ok_of_attempt hload
  rw [MemoryStore.loadRoomSession_eq] at hanswer
  cases htext : backend.store.roomText? name with
  | none => rfl
  | some text =>
    simp only [htext] at hanswer
    cases hsession : MemoryStore.roomSessionOfText? text with
    | error e =>
      rw [hsession] at hanswer
      cases hanswer
    | ok session =>
      rw [hsession] at hanswer
      cases hanswer

/-- How far an import is. -/
inductive ImportStage where
  /-- Its session is stored. -/
  | stored (session : InboundSession Receiver)
  /-- Its session is cached too. -/
  | cached (session : InboundSession Receiver)

/-- The session of an import. -/
def ImportStage.session : ImportStage → InboundSession Receiver
  | stored session => session
  | cached session => session

/-- A machine with someone who waits for a key, and with the imports that are under way. -/
structure WaitScene where
  state : MachineState
  /-- All announcements that were made, first ones first. -/
  announced : List Announcement
  imports : List ImportStage
  waiter : WaitStage

namespace WaitScene

/-- A machine that has just been made over a store, and someone who is going to wait. -/
def start (user : UserId) (store : MemoryStore) : WaitScene :=
  ⟨.boot user store, [], [], .ready⟩

/-- The session of an import is stored. -/
def persist (scene : WaitScene) (session : InboundSession Receiver) (backend : Backend) : WaitScene :=
  { scene with state := { scene.state with backend }, imports := .stored session :: scene.imports }

/-- The session of an import is announced, and the import is finished. -/
def announce (scene : WaitScene) (session : InboundSession Receiver) (others : List ImportStage) : WaitScene :=
  { scene with
    state :=
      { scene.state with
        machine :=
          { scene.state.machine with
            announcements := scene.state.machine.announcements.send [.ofSession session] } }
    announced := scene.announced ++ [[.ofSession session]]
    imports := others }

end WaitScene

/-- What can happen while someone waits for the key of a session. -/
inductive WaitStep [Suite] (name : RoomSessionName) (scene : WaitScene) : WaitScene → Prop where
  /-- He makes his next step. -/
  | waiter {state : MachineState} {waiter : WaitStage}
      (hadvance : WaitStage.advance name (scene.state, scene.waiter) = (state, waiter)) :
      WaitStep name scene { scene with state, waiter }
  /-- His time is over. It is not measured before he has looked for the first time. -/
  | expires (hwaits : (scene.waiter.unread? scene.state.machine.announcements).isSome) :
      WaitStep name scene { scene with waiter := .done (.ok false) }
  /-- An import stores its session. -/
  | persist {session : InboundSession Receiver} {backend : Backend}
      (hsave : scene.state.backend.save { roomSessions := [session] } = .ok backend) :
      WaitStep name scene (scene.persist session backend)
  /-- An import caches its session. -/
  | cache {session : InboundSession Receiver} (before after : List ImportStage)
      (himports : scene.imports = before ++ .stored session :: after) :
      WaitStep name scene
        { scene with state := scene.state.cacheRoomSession session, imports := before ++ .cached session :: after }
  /-- An import announces its session. -/
  | announce {session : InboundSession Receiver} (before after : List ImportStage)
      (himports : scene.imports = before ++ .cached session :: after) :
      WaitStep name scene (scene.announce session (before ++ after))
  /-- Anything else happens that neither announces a session nor takes one out of the store. -/
  | elsewhere {state : MachineState}
      (hstream : state.machine.announcements = scene.state.machine.announcements)
      (hstore : ∀ other, (scene.state.backend.store.roomText? other).isSome →
        (state.backend.store.roomText? other).isSome) :
      WaitStep name scene { scene with state }

namespace WaitScene

variable {scene : WaitScene} {name : RoomSessionName}

/-- What is announced is stored, and so is what will be announced. If someone listens, no announcement of the session
for which he waits is behind him. -/
structure Sound (name : RoomSessionName) (scene : WaitScene) : Prop where
  holds : scene.state.machine.announcements.Holds scene.announced
  imports_stored : ∀ stage ∈ scene.imports, (scene.state.backend.store.roomText? stage.session.name).isSome
  announced_stored : ∀ announcement ∈ scene.announced, Announces announcement name →
    (scene.state.backend.store.roomText? name).isSome
  place_le : ∀ subscription ∈ scene.waiter.subscription?, subscription.position ≤ scene.announced.length
  ahead : ∀ subscription, scene.waiter = .listening subscription → ∀ place announcement,
    scene.announced[place]? = some announcement → Announces announcement name → subscription.position ≤ place

/-- In the beginning nothing is announced. -/
theorem sound_start (user : UserId) (store : MemoryStore) : (start user store).Sound name where
  holds := Announcements.holds_empty
  imports_stored := nofun
  announced_stored := nofun
  place_le := nofun
  ahead := nofun

/-- Whatever leaves the stream alone and takes no session out of the store keeps all of this. -/
theorem Sound.elsewhere (h : scene.Sound name) {state : MachineState}
    (hstream : state.machine.announcements = scene.state.machine.announcements)
    (hstore : ∀ other, (scene.state.backend.store.roomText? other).isSome →
      (state.backend.store.roomText? other).isSome) : Sound name { scene with state } where
  holds := hstream ▸ h.holds
  imports_stored stage hstage := hstore _ (h.imports_stored stage hstage)
  announced_stored announcement hmem hname := hstore _ (h.announced_stored announcement hmem hname)
  place_le := h.place_le
  ahead := h.ahead

/-- Someone who does not listen may go on, as long as he keeps to the announcements that were made. -/
theorem Sound.turn (h : scene.Sound name) {waiter : WaitStage}
    (hplace : ∀ subscription ∈ waiter.subscription?, subscription.position ≤ scene.announced.length)
    (hlistens : ∀ subscription, waiter = .listening subscription → ∀ place announcement,
      scene.announced[place]? = some announcement → Announces announcement name → subscription.position ≤ place) :
    Sound name { scene with waiter } :=
  { h with place_le := hplace, ahead := hlistens }

/-- Who has answered keeps to nothing any more. -/
theorem Sound.answers (h : scene.Sound name) (answer : Except StoreError Bool) :
    Sound name { scene with waiter := .done answer } :=
  h.turn (by rintro _ ⟨⟩) (by rintro _ ⟨⟩)

/-- Who takes a notice that is not of his session does not leave an announcement of it behind. -/
theorem Sound.ahead_of_passed (h : scene.Sound name) {subscription left : Subscription}
    (hlistens : scene.waiter = .listening subscription) {announcement : Announcement}
    (hnext : scene.state.machine.announcements.next? subscription = some (.news announcement, left))
    (hother : ¬ Announces announcement name) :
    ∀ place later, scene.announced[place]? = some later → Announces later name → left.position ≤ place := by
  intro place later hlater hnamed
  obtain ⟨htaken, hposition⟩ := (h.holds.next? hnext).2 announcement rfl
  have hle := h.ahead subscription hlistens place later hlater hnamed
  have hne : subscription.position ≠ place := by
    rintro rfl
    rw [htaken] at hlater
    exact hother (Option.some.inj hlater ▸ hnamed)
  omega

/-- An announcement of a session tells everyone who waits for it. -/
theorem any_isFor_of_announces {announcement : Announcement} (h : Announces announcement name) :
    announcement.any (·.isFor name.room name.senderKey name.sessionId) = true := by
  obtain ⟨info, hmem, rfl⟩ := h
  refine List.any_eq_true.mpr ⟨info, hmem, ?_⟩
  unfold RoomKeyInfo.isFor
  exact decide_eq_true ⟨rfl, Curve25519Key.same_refl _, rfl⟩

/-- A session that is saved is stored, and all others stay. -/
theorem roomText?_of_save {backend after : Backend} {session : InboundSession Receiver}
    (hsave : backend.save { roomSessions := [session] } = .ok after) (other : RoomSessionName) :
    after.store.roomText? other =
      if other = session.name then some (MemoryStore.roomSessionText session)
      else backend.store.roomText? other := by
  obtain rfl := Except.ok.inj (Backend.eq_ok_of_attempt hsave)
  exact MemoryStore.roomText?_saveRoomSession backend.store session other

/-- An import that stores its session takes none out of the store. -/
theorem Sound.persist (h : scene.Sound name) {session : InboundSession Receiver} {backend : Backend}
    (hsave : scene.state.backend.save { roomSessions := [session] } = .ok backend) :
    Sound name (scene.persist session backend) := by
  have htext := roomText?_of_save hsave
  have hkept (other : RoomSessionName) (hother : (scene.state.backend.store.roomText? other).isSome) :
      (backend.store.roomText? other).isSome := by
    rw [htext]
    split
    · rfl
    · exact hother
  have hsound : Sound name { scene with state := { scene.state with backend } } := h.elsewhere rfl hkept
  have hstored : (backend.store.roomText? session.name).isSome := by
    rw [htext, if_pos rfl]
    rfl
  exact { hsound with imports_stored := List.forall_mem_cons.mpr ⟨hstored, hsound.imports_stored⟩ }

/-- When an import announces its session, this is stored, and the announcement comes behind all places. -/
theorem Sound.announce (h : scene.Sound name) {session : InboundSession Receiver} {before after : List ImportStage}
    (himports : scene.imports = before ++ .cached session :: after) :
    Sound name (scene.announce session (before ++ after)) := by
  have hstored := himports ▸ h.imports_stored
  obtain ⟨hbefore, hrest⟩ := List.forall_mem_append.mp hstored
  obtain ⟨hsession, hafter⟩ := List.forall_mem_cons.mp hrest
  refine ⟨h.holds.send _, List.forall_mem_append.mpr ⟨hbefore, hafter⟩, fun announcement hmade hnamed => ?_,
    fun subscription hwaits => ?_, fun subscription hlistens place announcement hmade hnamed => ?_⟩
  · rcases List.mem_append.mp hmade with hold | hnew
    · exact h.announced_stored announcement hold hnamed
    · obtain rfl := List.mem_singleton.mp hnew
      obtain ⟨info, hinfo, rfl⟩ := hnamed
      obtain rfl := List.mem_singleton.mp hinfo
      exact hsession
  · exact Nat.le_trans (h.place_le subscription hwaits) (by simp [WaitScene.announce])
  · have hle := h.place_le subscription (congrArg WaitStage.subscription? hlistens)
    by_cases hlt : place < scene.announced.length
    · have hold : scene.announced[place]? = some announcement := (List.getElem?_append_left hlt).symm.trans hmade
      exact h.ahead subscription hlistens place announcement hold hnamed
    · omega

/-- An announcement that is not behind someone who waits is pending, or he has missed it. -/
theorem Sound.unread (h : scene.Sound name) {unread : List Notice}
    (hwaits : scene.waiter.unread? scene.state.machine.announcements = some unread) {announcement : Announcement}
    (hmade : announcement ∈ scene.announced) (hnamed : Announces announcement name) :
    .missed ∈ unread ∨ .news announcement ∈ unread := by
  rcases WaitStage.unread?_cases hwaits with ⟨subscription, hlistens, rfl⟩ | hmissed
  · obtain ⟨place, hplace⟩ := List.mem_iff_getElem?.mp hmade
    exact h.holds.mem_pending hplace (h.ahead subscription hlistens place announcement hplace hnamed)
  · exact Or.inl hmissed

variable [Suite]

/-- The steps of someone who waits keep all of this. -/
theorem Sound.advance (h : scene.Sound name) {state : MachineState} {waiter : WaitStage}
    (hadvance : WaitStage.advance name (scene.state, scene.waiter) = (state, waiter)) :
    Sound name { scene with state, waiter } := by
  obtain ⟨before, announced, imports, stage⟩ := scene
  cases WaitStage.advances hadvance with
  | subscribes => exact h.turn (by rintro _ ⟨⟩; exact Nat.le_of_eq h.holds.count_eq) (by rintro _ ⟨⟩)
  | finds hcached => exact h.answers _
  | passes hcached => exact h.turn h.place_le (by rintro _ ⟨⟩)
  | fails hload => exact h.answers _
  | misses hload =>
    -- What is not stored was not announced either.
    have hstored := Backend.roomText?_of_load_none hload
    refine h.turn h.place_le fun _ _ place announcement hmade hnamed => ?_
    have hisSome := h.announced_stored announcement (List.mem_of_getElem? hmade) hnamed
    rw [hstored] at hisSome
    cases hisSome
  | loads hload => exact h.turn h.place_le (by rintro _ ⟨⟩)
  | caches =>
    have hdone : Sound name ⟨before, announced, imports, .done (.ok true)⟩ := h.answers _
    exact hdone.elsewhere rfl fun _ => id
  | rests hnext => exact h
  | lags hnext => exact h.turn (by rintro _ ⟨⟩; exact (h.holds.next? hnext).1) (by rintro _ ⟨⟩)
  | hears hnext hfor => exact h.answers _
  | ignores hnext hother =>
    refine h.turn (by rintro _ ⟨⟩; exact (h.holds.next? hnext).1) ?_
    rintro _ ⟨⟩
    exact h.ahead_of_passed rfl hnext fun hnamed => hother (any_isFor_of_announces hnamed)
  | stays => exact h

/-- All that can happen keeps all of this. -/
theorem Sound.step {after : WaitScene} (h : scene.Sound name) (hstep : WaitStep name scene after) :
    after.Sound name := by
  cases hstep with
  | waiter hadvance => exact h.advance hadvance
  | expires hwaits => exact h.answers _
  | persist hsave => exact h.persist hsave
  | @cache session before after himports =>
    have hsound : Sound name { scene with state := scene.state.cacheRoomSession session } :=
      h.elsewhere rfl fun _ => id
    obtain ⟨hbefore, hrest⟩ := List.forall_mem_append.mp (himports ▸ h.imports_stored)
    obtain ⟨hsession, hafter⟩ := List.forall_mem_cons.mp hrest
    exact { hsound with
      imports_stored := List.forall_mem_append.mpr ⟨hbefore, List.forall_mem_cons.mpr ⟨hsession, hafter⟩⟩ }
  | announce before after himports => exact h.announce himports
  | elsewhere hstream hstore => exact h.elsewhere hstream hstore

/-- And so it is at all times. -/
theorem Sound.run {after : WaitScene} (h : scene.Sound name)
    (hrun : Relation.ReflTransGen (WaitStep name) scene after) : after.Sound name := by
  induction hrun with
  | refl => exact h
  | tail _ hstep ih => exact ih.step hstep

/-- The steps of someone who waits may come in a row. -/
theorem run_iterate_advance (scene : WaitScene) (n : ℕ) :
    Relation.ReflTransGen (WaitStep name) scene
      { scene with
        state := ((WaitStage.advance name)^[n] (scene.state, scene.waiter)).1
        waiter := ((WaitStage.advance name)^[n] (scene.state, scene.waiter)).2 } := by
  induction n with
  | zero => exact .refl
  | succ n ih =>
    rw [Function.iterate_succ_apply']
    exact ih.tail (.waiter rfl)

/-- The machine takes a key, and nothing else happens meanwhile. -/
def taking (scene : WaitScene) (imported : KeyImport) : WaitScene :=
  { scene with
    state := (InPlace.on imported.task scene.state).2
    announced := scene.announced ++
      (InPlace.on imported.task scene.state).1.toOption.toList.map fun session => [.ofSession session] }

/-- A key that the machine takes is stored, cached and announced, and one that it refuses changes nothing. -/
theorem taking_cases (scene : WaitScene) (imported : KeyImport) :
    scene.taking imported = scene ∨
      let session := imported.session scene.state
      ∃ backend, imported.Fits ∧ scene.state.backend.save { roomSessions := [session] } = .ok backend ∧
        scene.taking imported =
          announce
            { scene.persist session backend with
              state := (scene.persist session backend).state.cacheRoomSession session
              imports := .cached session :: scene.imports } session scene.imports := by
  unfold taking
  by_cases hfits : imported.Fits
  · have hrun := KeyImport.on_task_of_fits hfits scene.state
    cases houtage : scene.state.backend.outage .saveChanges with
    | some message =>
      rw [houtage] at hrun
      rw [hrun]
      exact Or.inl (by simp [Except.toOption])
    | none =>
      rw [houtage] at hrun
      rw [hrun]
      let session := imported.session scene.state
      let store := scene.state.backend.store.save { roomSessions := [session] }
      refine Or.inr ⟨{ scene.state.backend with store }, hfits, ?_, rfl⟩
      unfold Backend.save Backend.attempt
      rw [houtage]
  · obtain ⟨e, hrun⟩ := KeyImport.on_task_of_not_fits hfits scene.state
    rw [hrun]
    exact Or.inl (by simp [Except.toOption])

/-- So may those of an import. In a row they are the call by which a machine takes a key. -/
theorem run_taking (scene : WaitScene) (imported : KeyImport) :
    Relation.ReflTransGen (WaitStep name) scene (scene.taking imported) := by
  obtain hrefused | ⟨backend, -, hsave, htaken⟩ := scene.taking_cases imported
  · rw [hrefused]
  · rw [htaken]
    have hstored : Relation.ReflTransGen (WaitStep name) scene _ := .single (.persist hsave)
    exact (hstored.tail (.cache [] scene.imports rfl)).tail (.announce [] scene.imports rfl)

/-- And so may those of any number of imports. -/
theorem run_foldl_taking (scene : WaitScene) (imports : List KeyImport) :
    Relation.ReflTransGen (WaitStep name) scene (imports.foldl taking scene) := by
  induction imports generalizing scene with
  | nil => exact .refl
  | cons imported imports ih => exact (run_taking scene imported).trans (ih _)

end WaitScene

/-- Whatever imports there are and in whatever order all of it happens: if a session was announced, someone who has
looked for it, has not found it and still waits has not dealt with its announcement yet, or else with the notice that
he has missed some. The session is stored then, so he does not miss it when he looks again. If he takes up now what
was announced, he does not go on waiting. -/
theorem announced_session_unread [Suite] (user : UserId) (store : MemoryStore) (name : RoomSessionName)
    {scene : WaitScene} (hrun : Relation.ReflTransGen (WaitStep name) (.start user store) scene)
    {unread : List Notice} (hwaits : scene.waiter.unread? scene.state.machine.announcements = some unread)
    {announcement : Announcement} (hmade : announcement ∈ scene.announced) (hnamed : Announces announcement name) :
    (.missed ∈ unread ∨ .news announcement ∈ unread) ∧ unread ≠ [] ∧
      announcement.any (·.isFor name.room name.senderKey name.sessionId) = true ∧
      (scene.state.backend.store.roomText? name).isSome ∧
      ∀ subscription, scene.waiter = .listening subscription →
        (InPlace.on (Machine.Waiter.finish ⟨name.room, name.senderKey, name.sessionId, subscription⟩)
          scene.state).1 ≠ .ok false := by
  have hsound := (WaitScene.sound_start user store).run hrun
  have hunread := hsound.unread hwaits hmade hnamed
  refine ⟨hunread, ?_, WaitScene.any_isFor_of_announces hnamed, hsound.announced_stored announcement hmade hnamed, ?_⟩
  · rintro rfl
    simp at hunread
  · intro subscription hlistens hfalse
    -- Else he would get to a place where nothing is pending, as if the session were not announced.
    obtain ⟨n, left, hsteps, hempty⟩ := WaitStage.iterate_advance_listening
      ⟨name.room, name.senderKey, name.sessionId, subscription⟩ scene.state
    have hlater := hsound.run (scene.run_iterate_advance n)
    rw [hlistens, show WaitStage.advance name = WaitStage.advance (Machine.Waiter.name
      ⟨name.room, name.senderKey, name.sessionId, subscription⟩) from rfl, hsteps, if_pos hfalse] at hlater
    have hnothing := hlater.unread rfl hmade hnamed
    rw [hempty hfalse] at hnothing
    simp at hnothing

end RoomCrypt

namespace RoomCrypt

open Store
open scoped Suite.Evaluation

/-- Someone waits for the first of these keys. Then it is imported, and after it another key 16 times. -/
def arrivedKeys : List KeyImport :=
  importOf backedUpSession firstRoom :: List.replicate 16 (importOf backedUpSession secondRoom)

/-- The scene when he has looked for the key and has not found it. -/
def waitingScene : WaitScene :=
  { WaitScene.start evaluationUser {} with waiter := .listening ⟨0⟩ }

/-- The announcement that he waits for has been dropped from the stream, and he still gets to know. -/
theorem announced_session_unread_missed :
    let name := (importOf backedUpSession firstRoom).name
    let scene := arrivedKeys.foldl WaitScene.taking waitingScene
    let announcement : Announcement := [.ofSession ((importOf backedUpSession firstRoom).session waitingScene.state)]
    Relation.ReflTransGen (WaitStep name) (.start evaluationUser {}) scene ∧ scene.waiter = .listening ⟨0⟩ ∧
      announcement ∈ scene.announced ∧ .missed ∈ scene.state.machine.announcements.pending ⟨0⟩ ∧
      (InPlace.on (Machine.Waiter.finish ⟨name.room, name.senderKey, name.sessionId, ⟨0⟩⟩) scene.state).1 ≠
        .ok false := by
  intro name scene announcement
  have hrun : Relation.ReflTransGen (WaitStep name) (.start evaluationUser {}) scene :=
    ((WaitScene.start evaluationUser {}).run_iterate_advance 3).trans
      (WaitScene.run_foldl_taking waitingScene arrivedKeys)
  have hwaiter : scene.waiter = .listening ⟨0⟩ := rfl
  have hmade : announcement ∈ scene.announced := by decide +kernel
  have hmissed : .missed ∈ scene.state.machine.announcements.pending ⟨0⟩ := by decide +kernel
  obtain ⟨-, -, -, -, hfinish⟩ :=
    announced_session_unread evaluationUser {} name hrun rfl hmade ⟨_, List.mem_singleton_self _, rfl⟩
  exact ⟨hrun, hwaiter, hmade, hmissed, hfinish ⟨0⟩ hwaiter⟩

end RoomCrypt
