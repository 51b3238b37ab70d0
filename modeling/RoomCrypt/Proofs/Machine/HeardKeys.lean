import RoomCrypt.Proofs.Machine.ImportSteps

/-!
# Room keys that someone has heard of

Someone who waits for a room key looks for it under the text of its sender key, but of the announcements he takes
those whose sender key is the same field element as his. Several texts write one field element. So what he has found
is there under his name; but what he has only heard of is there under the name that was announced, and if that is
another one, he does not find it.
-/

namespace RoomCrypt

open Megolm (InboundSession Receiver)
open Store

section

variable [Suite]

namespace WaitScene

variable {scene : WaitScene} {name : RoomSessionName}

/-- A session for which someone waits is cached: under his name, or under a name that was announced and whose sender
key is the same field element. -/
def Told (name : RoomSessionName) (scene : WaitScene) : Prop :=
  ∃ senderKey : Curve25519Key, senderKey.same name.senderKey = true ∧
    (senderKey = name.senderKey ∨ ∃ announcement ∈ scene.announced, Announces announcement { name with senderKey }) ∧
    (scene.state.cachedRoomSession? { name with senderKey }).isSome

/-- What was announced is cached, and who answers that the session for which he waits is there was told of it. -/
structure Heard (name : RoomSessionName) (scene : WaitScene) : Prop where
  sound : scene.Sound name
  works : ∀ call, scene.state.backend.outage call = none
  readable : scene.state.backend.store.RoomsReadable
  imports_cached : ∀ session, .cached session ∈ scene.imports →
    (scene.state.cachedRoomSession? session.name).isSome
  announced_cached : ∀ announcement ∈ scene.announced, ∀ info ∈ announcement,
    (scene.state.cachedRoomSession? info.name).isSome
  caching_name : ∀ look subscription session, scene.waiter = .caching look subscription session → session.name = name
  told : scene.waiter = .done (.ok true) → scene.Told name

omit [Suite] in
/-- Who was told of a session is told of it as long as the sessions are spared. -/
theorem Told.spares (h : scene.Told name) {state : MachineState} (hspares : scene.state.SparesRooms state) :
    Told name { scene with state } := by
  obtain ⟨senderKey, hsame, hname, hcached⟩ := h
  exact ⟨senderKey, hsame, hname, hspares.cached _ hcached⟩

/-- In the beginning nothing is announced. -/
theorem heard_start (user : UserId) {store : MemoryStore} (hstore : store.RoomsReadable) :
    (start user store).Heard name where
  sound := sound_start user store
  works _ := rfl
  readable := hstore
  imports_cached := nofun
  announced_cached := nofun
  caching_name := nofun
  told := nofun

/-- Whatever spares the sessions keeps all of this. -/
theorem Heard.spares (h : scene.Heard name) {state : MachineState} (hspares : scene.state.SparesRooms state) :
    Heard name { scene with state } where
  sound := h.sound.step (ImportStep.elsewhere hspares).wait
  works call := (congrFun hspares.outage_eq call).trans (h.works call)
  readable other text htext := h.readable other text (hspares.texts_eq other ▸ htext)
  imports_cached session hmem := hspares.cached _ (h.imports_cached session hmem)
  announced_cached announcement hmade info hinfo := hspares.cached _ (h.announced_cached announcement hmade info hinfo)
  caching_name := h.caching_name
  told hdone := (h.told hdone).spares hspares

/-- Someone who waits may go on. -/
theorem Heard.turn (h : scene.Heard name) {waiter : WaitStage} (hsound : Sound name { scene with waiter })
    (hcaching : ∀ look subscription session, waiter = .caching look subscription session → session.name = name)
    (htold : waiter = .done (.ok true) → scene.Told name) : Heard name { scene with waiter } :=
  { h with sound := hsound, caching_name := hcaching, told := htold }

omit [Suite] in
/-- A session that is cached under his name. -/
theorem told_of_cached (hcached : (scene.state.cachedRoomSession? name).isSome) : scene.Told name :=
  ⟨name.senderKey, Curve25519Key.same_refl _, Or.inl rfl, hcached⟩

/-- Who takes an announcement of his session was told of it. -/
theorem Heard.told_of_news (h : scene.Heard name) {subscription left : Subscription} {announcement : Announcement}
    (hnext : scene.state.machine.announcements.next? subscription = some (.news announcement, left))
    (hfor : announcement.any (·.isFor name.room name.senderKey name.sessionId) = true) : scene.Told name := by
  obtain ⟨info, hinfo, hisFor⟩ := List.any_eq_true.mp hfor
  obtain ⟨hroom, hsame, hsession⟩ := of_decide_eq_true hisFor
  have hmade := List.mem_of_getElem? ((h.sound.holds.next? hnext).2 announcement rfl).1
  have hname : info.name = { name with senderKey := info.senderKey } := by
    unfold RoomKeyInfo.name
    rw [hroom, hsession]
  exact ⟨info.senderKey, hsame, Or.inr ⟨announcement, hmade, info, hinfo, hname⟩,
    hname ▸ h.announced_cached announcement hmade info hinfo⟩

/-- The steps of someone who waits keep all of this. -/
theorem Heard.advance (h : scene.Heard name) {state : MachineState} {waiter : WaitStage}
    (hadvance : WaitStage.advance name (scene.state, scene.waiter) = (state, waiter)) :
    Heard name { scene with state, waiter } := by
  have hsound := h.sound.advance hadvance
  obtain ⟨before, announced, imports, stage⟩ := scene
  cases WaitStage.advances hadvance with
  | subscribes => exact h.turn hsound (by simp) (by simp)
  | finds hcached => exact h.turn hsound (by simp) fun _ => told_of_cached (Option.isSome_of_eq_some hcached)
  | passes hcached => exact h.turn hsound (by simp) (by simp)
  | fails hload => exact h.turn hsound (by simp) (by simp)
  | misses hload => exact h.turn hsound (by simp) (by simp)
  | loads hload =>
    refine h.turn hsound ?_ (by simp)
    rintro _ _ _ ⟨⟩
    exact h.readable.name_of_load hload
  | @caches look subscription session =>
    refine (h.spares (before.sparesRooms_cache session)).turn hsound (by simp) fun _ => told_of_cached ?_
    rw [MachineState.cachedRoomSession?_cache, if_pos (h.caching_name look subscription session rfl).symm]
    rfl
  | rests hnext => exact h
  | lags hnext => exact h.turn hsound (by simp) (by simp)
  | hears hnext hfor => exact h.turn hsound (by simp) fun _ => h.told_of_news hnext hfor
  | ignores hnext hother => exact h.turn hsound (by simp) (by simp)
  | stays => exact h

/-- An import that stores its session keeps what is stored readable. -/
theorem Heard.persist (h : scene.Heard name) {imported : KeyImport} (before : MachineState) {backend : Backend}
    (hfits : imported.Fits) (hpoint : Suite.isPoint imported.key.sessionKey.signingKey = true)
    (hsave : scene.state.backend.save { roomSessions := [imported.session before] } = .ok backend) :
    Heard name (scene.persist (imported.session before) backend) where
  sound := h.sound.step (ImportStep.persist before hfits hpoint hsave).wait
  works := by
    obtain rfl := Except.ok.inj (Backend.eq_ok_of_attempt hsave)
    exact h.works
  readable := by
    obtain rfl := Except.ok.inj (Backend.eq_ok_of_attempt hsave)
    exact h.readable.saveRoomSession (imported.ofPickle?_session before hpoint)
  imports_cached session hmem := by
    rcases List.mem_cons.mp hmem with hnew | hold
    · cases hnew
    · exact h.imports_cached session hold
  announced_cached := h.announced_cached
  caching_name := h.caching_name
  told := h.told

/-- An import that caches its session keeps all of this. -/
theorem Heard.cache (h : scene.Heard name) {session : InboundSession Receiver} {before after : List ImportStage}
    (himports : scene.imports = before ++ .stored session :: after) :
    Heard name
      { scene with state := scene.state.cacheRoomSession session, imports := before ++ .cached session :: after } := by
  have hspared := h.spares (scene.state.sparesRooms_cache session)
  refine { hspared with
    sound := h.sound.step (ImportStep.cache before after himports).wait
    imports_cached := fun other hmem => ?_ }
  rcases List.mem_append.mp hmem with hbefore | hrest
  · refine hspared.imports_cached other ?_
    rw [show scene.imports = _ from himports]
    exact List.mem_append_left _ hbefore
  · rcases List.mem_cons.mp hrest with hnew | hafter
    · cases hnew
      rw [MachineState.cachedRoomSession?_cache, if_pos rfl]
      rfl
    · refine hspared.imports_cached other ?_
      rw [show scene.imports = _ from himports]
      exact List.mem_append_right _ (List.mem_cons_of_mem _ hafter)

/-- An import announces a session that is cached. -/
theorem Heard.announce (h : scene.Heard name) {session : InboundSession Receiver} {before after : List ImportStage}
    (himports : scene.imports = before ++ .cached session :: after) :
    Heard name (scene.announce session (before ++ after)) := by
  have hcached : ∀ stage ∈ before ++ .cached session :: after, ∀ other, stage = .cached other →
      (scene.state.cachedRoomSession? other.name).isSome := by
    rintro _ hmem other rfl
    exact h.imports_cached other (himports ▸ hmem)
  obtain ⟨hbefore, hrest⟩ := List.forall_mem_append.mp hcached
  obtain ⟨hsession, hafter⟩ := List.forall_mem_cons.mp hrest
  refine { h with
    sound := h.sound.step (ImportStep.announce before after himports).wait
    imports_cached := fun other hmem => List.forall_mem_append.mpr ⟨hbefore, hafter⟩ _ hmem other rfl
    announced_cached := List.forall_mem_append.mpr ⟨h.announced_cached, ?_⟩
    told := fun hdone => ?_ }
  · rintro _ hnew info hinfo
    obtain rfl := List.mem_singleton.mp hnew
    obtain rfl := List.mem_singleton.mp hinfo
    exact hsession session rfl
  · obtain ⟨senderKey, hsame, hname, htold⟩ := h.told hdone
    refine ⟨senderKey, hsame, hname.imp_right ?_, htold⟩
    rintro ⟨announcement, hmade, hnamed⟩
    exact ⟨announcement, List.mem_append_left _ hmade, hnamed⟩

/-- All that can happen keeps all of this. -/
theorem Heard.step {after : WaitScene} (h : scene.Heard name) (hstep : ImportStep name scene after) :
    after.Heard name := by
  cases hstep with
  | waiter hadvance => exact h.advance hadvance
  | expires hwaits => exact h.turn (h.sound.answers _) nofun nofun
  | persist before hfits hpoint hsave => exact h.persist before hfits hpoint hsave
  | cache before after himports => exact h.cache himports
  | announce before after himports => exact h.announce himports
  | elsewhere hspares => exact h.spares hspares

/-- And so it is at all times. -/
theorem Heard.run {after : WaitScene} (h : scene.Heard name)
    (hrun : Relation.ReflTransGen (ImportStep name) scene after) : after.Heard name := by
  induction hrun with
  | refl => exact h
  | tail _ hstep ih => exact ih.step hstep

/-- Someone who waits for a session is going to find it: it is there, and he has not looked for it in vain. -/
def WillFind (name : RoomSessionName) (scene : WaitScene) : Prop :=
  match scene.waiter with
  | .ready | .looking .first _ => scene.state.Has name
  | .loading .first _ => (scene.state.backend.store.roomText? name).isSome
  | .caching .first _ _ => True
  | .done answer => answer = .ok true
  | _ => False

omit [Suite] in
/-- As long as no session is lost, he finds it. -/
theorem WillFind.elsewhere (h : scene.WillFind name) {after : WaitScene} (hwaiter : after.waiter = scene.waiter)
    (hcached : (scene.state.cachedRoomSession? name).isSome → (after.state.cachedRoomSession? name).isSome)
    (hstored : (scene.state.backend.store.roomText? name).isSome → (after.state.backend.store.roomText? name).isSome) :
    after.WillFind name := by
  unfold WillFind at h ⊢
  rw [hwaiter]
  split at h
  · exact h.imp hcached hstored
  · exact h.imp hcached hstored
  · exact hstored h
  · exact h
  · exact h
  · exact h

omit [Suite] in
/-- His time is not measured yet. -/
theorem WillFind.unread?_eq_none (h : scene.WillFind name) (stream : Announcements) :
    scene.waiter.unread? stream = none := by
  obtain ⟨state, announced, imports, stage⟩ := scene
  rcases stage with _ | ⟨_ | _, subscription⟩ | ⟨_ | _, subscription⟩ | ⟨_ | _, subscription, session⟩ | _ | answer
  all_goals first
    | rfl
    | exact absurd h not_false

/-- His own steps bring him nearer to it. -/
theorem WillFind.advance (h : scene.WillFind name) (hheard : scene.Heard name) {state : MachineState}
    {waiter : WaitStage} (hadvance : WaitStage.advance name (scene.state, scene.waiter) = (state, waiter)) :
    WillFind name { scene with state, waiter } := by
  obtain ⟨before, announced, imports, stage⟩ := scene
  cases WaitStage.advances hadvance with
  | subscribes => exact h
  | finds hcached => exact rfl
  | @passes look subscription hcached =>
    cases look with
    | first => exact Or.resolve_left h (by rw [hcached]; exact Bool.false_ne_true)
    | again => exact h
  | @fails look subscription e hload =>
    cases look with
    | first =>
      obtain ⟨session, hloads⟩ := hheard.readable.exists_load (hheard.works .roomSession) h
      cases hloads.symm.trans hload
    | again => exact absurd h not_false
  | @misses look subscription hload =>
    cases look with
    | first =>
      obtain ⟨session, hloads⟩ := hheard.readable.exists_load (hheard.works .roomSession) h
      cases hloads.symm.trans hload
    | again => exact absurd h not_false
  | @loads look subscription session hload =>
    cases look with
    | first => trivial
    | again => exact h
  | caches => exact rfl
  | rests hnext => exact h
  | lags hnext => exact absurd h not_false
  | hears hnext hfor => exact rfl
  | ignores hnext hother => exact absurd h not_false
  | stays => exact h

/-- All that can happen leaves him where he will find it. -/
theorem WillFind.step {after : WaitScene} (h : scene.WillFind name) (hheard : scene.Heard name)
    (hstep : ImportStep name scene after) : after.WillFind name := by
  cases hstep with
  | waiter hadvance => exact h.advance hheard hadvance
  | expires hwaits =>
    rw [h.unread?_eq_none] at hwaits
    cases hwaits
  | @persist imported before backend hfits hpoint hsave =>
    refine h.elsewhere rfl id fun hstored => ?_
    rw [show (scene.persist (imported.session before) backend).state.backend.store.roomText? name = _ from
      roomText?_of_save hsave name]
    split
    · rfl
    · exact hstored
  | @cache session before after himports =>
    exact h.elsewhere rfl (MachineState.isSome_cachedRoomSession?_cache scene.state session name) id
  | announce before after himports => exact h.elsewhere rfl id id
  | elsewhere hspares => exact h.elsewhere rfl (hspares.cached name) fun hstored => by rwa [hspares.texts_eq]

/-- And so it is at all times. -/
theorem WillFind.run {after : WaitScene} (h : scene.WillFind name) (hheard : scene.Heard name)
    (hrun : Relation.ReflTransGen (ImportStep name) scene after) : after.WillFind name := by
  induction hrun with
  | refl => exact h
  | tail hrun hstep ih => exact ih.step (hheard.run hrun) hstep

/-- A few steps more and he has found it. -/
theorem WillFind.exists_done (h : scene.WillFind name) (hheard : scene.Heard name) :
    ∃ n, ((WaitStage.advance name)^[n] (scene.state, scene.waiter)).2 = .done (.ok true) := by
  obtain ⟨state, announced, imports, stage⟩ := scene
  -- Where he looks in the cache first, he finds the session as the machine does.
  have hlook (hhas : state.Has name) (subscription : Subscription) :
      ∃ n, ((WaitStage.advance name)^[n] (state, .looking .first subscription)).2 = .done (.ok true) := by
    obtain ⟨session, after, hfound⟩ := hhas.finds (hheard.works .roomSession) hheard.readable
    obtain ⟨n, hsteps⟩ := WaitStage.iterate_advance_looking name state .first subscription
    rw [hfound] at hsteps
    exact ⟨n, congrArg Prod.snd hsteps⟩
  rcases stage with _ | ⟨_ | _, subscription⟩ | ⟨_ | _, subscription⟩ | ⟨_ | _, subscription, session⟩ | _ | answer
  · obtain ⟨n, hsteps⟩ := hlook h state.machine.subscribe
    exact ⟨n + 1, hsteps⟩
  · exact hlook h subscription
  · exact absurd h not_false
  · obtain ⟨session, hload⟩ := hheard.readable.exists_load (hheard.works .roomSession) h
    refine ⟨2, ?_⟩
    rw [Function.iterate_succ_apply, WaitStage.advance, hload]
    rfl
  · exact absurd h not_false
  · exact ⟨1, rfl⟩
  · exact absurd h not_false
  · exact absurd h not_false
  · exact ⟨0, congrArg WaitStage.done h⟩

end WaitScene

/-- Whatever keys a machine takes and in whatever order all of it happens: if someone who waits for a session answers
that it is there, there is one whose sender key is the same field element, under his name or under one that was
announced, and the machine finds it and does not answer a message with the error that there is none. And if the
machine finds the session of his name when he begins, he answers that it is there, a few steps of his own later. -/
theorem heard_key_found (user : UserId) {store : MemoryStore} (hstore : store.RoomsReadable) (name : RoomSessionName)
    {scene : WaitScene} (hrun : Relation.ReflTransGen (ImportStep name) (.start user store) scene) :
    (scene.waiter = .done (.ok true) →
      ∃ senderKey : Curve25519Key, senderKey.same name.senderKey = true ∧
        (senderKey = name.senderKey ∨
          ∃ announcement ∈ scene.announced, Announces announcement { name with senderKey }) ∧
        scene.state.Finds { name with senderKey } ∧
        ∀ message, (InPlace.on (Machine.decryptRoomMessage name.room senderKey name.sessionId message)
          scene.state).1 ≠ .error (.missingRoomKey name.room name.sessionId)) ∧
      (scene.waiter = .ready → scene.state.Finds name →
        ∀ later, Relation.ReflTransGen (ImportStep name) scene later →
          (∀ answer, later.waiter = .done answer → answer = .ok true) ∧
            ∃ n, ((WaitStage.advance name)^[n] (later.state, later.waiter)).2 = .done (.ok true)) := by
  have hheard := (WaitScene.heard_start user hstore).run hrun
  refine ⟨fun hdone => ?_, fun hready hfinds later hlater => ?_⟩
  · obtain ⟨senderKey, hsame, hname, hcached⟩ := hheard.told hdone
    have hfound := MachineState.finds_of_cached hcached
    exact ⟨senderKey, hsame, hname, hfound, hfound.ne_missingRoomKey⟩
  · have hbegins : scene.WillFind name := by
      unfold WaitScene.WillFind
      rw [hready]
      exact hfinds.has
    have hfind := hbegins.run hheard hlater
    refine ⟨fun answer hanswer => ?_, hfind.exists_done (hheard.run hlater)⟩
    unfold WaitScene.WillFind at hfind
    rw [hanswer] at hfind
    exact hfind

end

open scoped Suite.Evaluation

/-- The sender key of the keys that are imported, written with its top bit set. -/
def rewrittenKey : Curve25519Key :=
  ⟨.ofNatLE 32 (2 ^ 255 + 7)⟩

/-- The name of an imported session with its sender key written like this. -/
def rewrittenName : RoomSessionName :=
  { (importOf backedUpSession firstRoom).name with senderKey := rewrittenKey }

/-- The scene when someone waits for that session and has heard of it. -/
def heardScene : WaitScene :=
  { waitingScene.taking (importOf backedUpSession firstRoom) with waiter := .done (.ok true) }

/-- There is a session that is found for someone who has heard of his, and who waits for a session that is there finds
it. -/
theorem heard_key_found_rewritten :
    let imported := importOf backedUpSession firstRoom
    let taken := (WaitScene.start evaluationUser {}).taking imported
    Relation.ReflTransGen (ImportStep rewrittenName) (.start evaluationUser {}) heardScene ∧
      heardScene.waiter = .done (.ok true) ∧
      (∃ senderKey : Curve25519Key, senderKey.same rewrittenKey = true ∧
        heardScene.state.Finds { rewrittenName with senderKey }) ∧
      Relation.ReflTransGen (ImportStep imported.name) (.start evaluationUser {}) taken ∧ taken.waiter = .ready ∧
      ∃ n, ((WaitStage.advance imported.name)^[n] (taken.state, taken.waiter)).2 = .done (.ok true) := by
  intro imported taken
  have hwaits : Relation.ReflTransGen (ImportStep rewrittenName) (.start evaluationUser {}) waitingScene :=
    .head (.waiter rfl) (.head (.waiter rfl) (.single (.waiter rfl)))
  have hrun : Relation.ReflTransGen (ImportStep rewrittenName) (.start evaluationUser {}) heardScene :=
    (hwaits.trans (ImportStep.run_taking waitingScene rfl)).tail (.waiter rfl)
  have htaken : Relation.ReflTransGen (ImportStep imported.name) (.start evaluationUser {}) taken :=
    ImportStep.run_taking _ rfl
  obtain ⟨hheard, -⟩ := heard_key_found evaluationUser MemoryStore.roomsReadable_empty rewrittenName hrun
  obtain ⟨senderKey, hsame, -, hfinds, -⟩ := hheard rfl
  obtain ⟨-, hready⟩ := heard_key_found evaluationUser MemoryStore.roomsReadable_empty imported.name htaken
  have hcached : (taken.state.cachedRoomSession? imported.name).isSome := by decide +kernel
  obtain ⟨-, hdone⟩ := hready rfl (MachineState.finds_of_cached hcached) taken .refl
  exact ⟨hrun, rfl, ⟨senderKey, hsame, hfinds⟩, htaken, rfl, hdone⟩

/-- Someone waits for a session whose sender key he has written otherwise than the one that is imported. He is told
that it is there, but a message is answered with the error that there is none. -/
theorem heard_key_not_found :
    let imported := importOf backedUpSession firstRoom
    let waiter : Machine.Waiter := ⟨firstRoom, rewrittenKey, imported.sessionId, ⟨0⟩⟩
    let begun := InPlace.on (Machine.beginWait firstRoom rewrittenKey imported.sessionId)
      (.boot evaluationUser {})
    let taken := InPlace.on imported.task begun.2
    let finished := InPlace.on waiter.finish taken.2
    let decrypt (senderKey : Curve25519Key) :=
      Machine.decryptRoomMessage firstRoom senderKey imported.sessionId (backedUpSession.message [9])
    begun.1 = .ok (some waiter) ∧ taken.1.isOk ∧ finished.1 = .ok true ∧
      (InPlace.on (decrypt imported.key.senderKey) finished.2).1 = .ok ⟨[9], 0⟩ ∧
      (InPlace.on (decrypt rewrittenKey) finished.2).1 =
        .error (.missingRoomKey firstRoom imported.sessionId) := by
  decide +kernel

end RoomCrypt
