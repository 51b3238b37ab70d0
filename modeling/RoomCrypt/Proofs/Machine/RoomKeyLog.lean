import RoomCrypt.Proofs.Machine.RoomSessions

/-!
# Which room keys a machine has

Under each name a machine has the key of the latest import for it, and without any the key that it had
before. An import is logged if it is taken, with the latest one first. A message is answered as by the key
that the machine has for its session, and changes none.
-/

namespace RoomCrypt

open Megolm (InboundSession Receiver ExportedKey)
open Store

/-- A room key that is imported from a version of a backup, with the room and the session it stands under. -/
structure KeyImport where
  version : String
  room : RoomId
  sessionId : String
  key : Backup.RoomKey

/-- The name that a key is imported for. -/
def KeyImport.name (imported : KeyImport) : RoomSessionName :=
  ⟨imported.room, imported.key.senderKey, imported.sessionId⟩

/-- The latest import for a name, in a log that starts with the latest one. -/
def latestImport? (name : RoomSessionName) (log : List KeyImport) : Option KeyImport :=
  log.find? fun imported => imported.name = name

/-- It is an import of the log that has the name. -/
theorem mem_of_latestImport? {name : RoomSessionName} {log : List KeyImport} {imported : KeyImport}
    (h : latestImport? name log = some imported) : imported.name = name ∧ imported ∈ log := by
  unfold latestImport? at h
  have hname := List.find?_some h
  exact ⟨of_decide_eq_true hname, List.mem_of_find?_eq_some h⟩

variable [Suite]

/-- The import as the machine makes it. -/
def KeyImport.task (imported : KeyImport) : Task ImportError (InboundSession Receiver) :=
  Machine.importRoomKey imported.version imported.room imported.sessionId imported.key

namespace KeyImport

/-- A key fits the place that it stands at: its algorithm is the one that we know, and it belongs to the session. -/
def Fits (imported : KeyImport) : Prop :=
  imported.key.algorithm = Megolm.algorithmName ∧ imported.key.sessionKey.sessionId = imported.sessionId

instance (imported : KeyImport) : Decidable imported.Fits :=
  inferInstanceAs (Decidable (_ ∧ _))

/-- The session that is made of a key. -/
def session (imported : KeyImport) (state : MachineState) : InboundSession Receiver :=
  Machine.sessionOfRoomKey imported.version imported.room imported.key (state.roomSettings imported.room) state.now

omit [Suite] in
/-- It is called after the place of the key. -/
theorem name_session {imported : KeyImport} (h : imported.Fits) (state : MachineState) :
    (imported.session state).name = imported.name :=
  congrArg (RoomSessionName.mk imported.room imported.key.senderKey) h.2

/-- It is a session of that key. -/
theorem genuine_session (imported : KeyImport) (state : MachineState) : (imported.session state).Genuine :=
  ⟨rfl, Receiver.cached_origin (.exported imported.key.sessionKey)⟩

omit [Suite] in
/-- A key that does not fit is refused before the store is asked. -/
theorem on_task_of_not_fits {imported : KeyImport} (h : ¬ imported.Fits) (state : MachineState) :
    ∃ e, InPlace.on imported.task state = (.error e, state) := by
  unfold task Machine.importRoomKey
  by_cases halgorithm : imported.key.algorithm ≠ Megolm.algorithmName
  · rw [if_pos halgorithm]
    exact ⟨_, rfl⟩
  · rw [if_neg halgorithm, if_pos fun hclaimed => h ⟨Decidable.not_not.mp halgorithm, hclaimed⟩]
    exact ⟨_, rfl⟩

/-- The session of a key that fits is saved, unless the store fails. -/
theorem on_task_of_fits {imported : KeyImport} (h : imported.Fits) (state : MachineState) :
    InPlace.on imported.task state =
      match state.backend.outage .saveChanges with
      | some message => (.error (.store (.backend message)), state)
      | none => (.ok (imported.session state), state.afterSave { roomSessions := [imported.session state] }) := by
  unfold task Machine.importRoomKey
  rw [if_neg (not_not.mpr h.1), if_neg (not_not.mpr h.2), InPlace.on_bind, InPlace.on_get]
  dsimp only
  rw [InPlace.on_bind, Task.on_wrap, Machine.on_save]
  cases state.backend.outage .saveChanges <;> rfl

end KeyImport

/-- What has become of a machine that took these imports, and whatever messages came. -/
structure MachineState.Follows (log : List KeyImport) (before after : MachineState) : Prop where
  tidy : after.RoomsTidy
  key_eq : ∀ name, after.roomKey? name =
    match latestImport? name log with
    | some imported => .ok (some imported.key.sessionKey)
    | none => before.roomKey? name
  cached : ∀ name, (before.cachedRoomSession? name).isSome → (after.cachedRoomSession? name).isSome

namespace MachineState.Follows

variable {before between after : MachineState} {log later : List KeyImport}

theorem refl (h : before.RoomsTidy) : Follows [] before before :=
  ⟨h, fun _ => rfl, fun _ => id⟩

theorem trans (h : Follows log before between) (h' : Follows later between after) :
    Follows (later ++ log) before after where
  tidy := h'.tidy
  key_eq name := by
    rw [h'.key_eq name, h.key_eq name]
    unfold latestImport?
    rw [List.find?_append]
    cases List.find? (fun imported : KeyImport => decide (imported.name = name)) later <;> rfl
  cached name := h'.cached name ∘ h.cached name

/-- The surroundings do not matter. -/
theorem within (h : before.RoomsTidy) (around : Surroundings) : Follows [] before (before.within around) :=
  ⟨⟨h.cached, h.stored⟩, fun _ => rfl, fun _ => id⟩

end MachineState.Follows

namespace Machine

open MachineState

variable {state : MachineState}

/-- A machine that puts a session with the key that it has in the cache has the same keys. -/
theorem follows_cache (h : state.RoomsTidy) {session : InboundSession Receiver} (hgenuine : session.Genuine)
    (hkey : state.roomKey? session.name = .ok (some session.state.firstKey)) :
    Follows [] state (state.cacheRoomSession session) where
  tidy := h.cache hgenuine
  key_eq name := by
    unfold roomKey? at hkey ⊢
    rw [roomSession?_cache]
    split
    · next hname =>
      subst hname
      exact hkey.symm
    · rfl
  cached := isSome_cachedRoomSession?_cache state session

/-- A cached session is found at once. -/
theorem on_roomSession?_of_cached {name : RoomSessionName} {session : InboundSession Receiver}
    (hcached : state.cachedRoomSession? name = some session) :
    InPlace.on (roomSession? name.room name.senderKey name.sessionId) state = (.ok (some session), state) := by
  unfold cachedRoomSession? at hcached
  unfold roomSession?
  rw [InPlace.on_bind, InPlace.on_get]
  simp only [hcached]
  rfl

/-- A session that is not cached is looked for in the store, and cached if it is found there. -/
theorem on_roomSession?_of_not_cached {name : RoomSessionName} (hcached : state.cachedRoomSession? name = none) :
    InPlace.on (roomSession? name.room name.senderKey name.sessionId) state =
      match state.backend.loadRoomSession name.room name.senderKey name.sessionId with
      | .error e => (.error e, state)
      | .ok none => (.ok none, state)
      | .ok (some session) => (.ok (some session), state.cacheRoomSession session) := by
  unfold cachedRoomSession? at hcached
  unfold roomSession?
  rw [InPlace.on_bind, InPlace.on_get]
  simp only [hcached]
  rw [InPlace.on_bind, Task.on_ofExcept]
  rcases state.backend.loadRoomSession name.room name.senderKey name.sessionId with e | _ | session <;> rfl

/-- What the store answers is what the machine has, if it is not cached. -/
theorem roomSession?_of_load {name : RoomSessionName} {found : Option (InboundSession Receiver)}
    (hcached : state.cachedRoomSession? name = none)
    (hload : state.backend.loadRoomSession name.room name.senderKey name.sessionId = .ok found) :
    state.roomSession? name = .ok found := by
  unfold MachineState.roomSession?
  rw [hcached]
  exact Backend.eq_ok_of_attempt hload

/-- A room session is found as the machine has it and is cached then, or nothing is changed. -/
theorem roomSession?_cases (h : state.RoomsTidy) (name : RoomSessionName) :
    let task := roomSession? name.room name.senderKey name.sessionId
    (∃ outcome, InPlace.on task state = (outcome, state) ∧ ∀ session, outcome ≠ .ok (some session)) ∨
      ∃ session after, state.roomSession? name = .ok (some session) ∧
        InPlace.on task state = (.ok (some session), after) ∧ Follows [] state after ∧
        after.cachedRoomSession? name = some session := by
  intro task
  cases hcached : state.cachedRoomSession? name with
  | some session =>
    have hfound : state.roomSession? name = .ok (some session) := by
      unfold MachineState.roomSession?
      rw [hcached]
    exact Or.inr ⟨session, state, hfound, on_roomSession?_of_cached hcached, .refl h, hcached⟩
  | none =>
    have hrun := on_roomSession?_of_not_cached hcached
    cases hload : state.backend.loadRoomSession name.room name.senderKey name.sessionId with
    | error e =>
      rw [hload] at hrun
      exact Or.inl ⟨.error e, hrun, fun session hsession => by cases hsession⟩
    | ok found =>
      rw [hload] at hrun
      have hfound := roomSession?_of_load hcached hload
      cases found with
      | none => exact Or.inl ⟨.ok none, hrun, fun session hsession => by cases hsession⟩
      | some session =>
        obtain ⟨rfl, hgenuine⟩ := h.of_roomSession? hfound
        refine Or.inr ⟨session, _, hfound, hrun, follows_cache h hgenuine ?_, ?_⟩
        · unfold roomKey?
          rw [hfound]
          rfl
        · rw [cachedRoomSession?_cache, if_pos rfl]

/-- A message is answered as by the key of the session that is found. -/
theorem decryptRoomMessage_of_found {name : RoomSessionName} {session : InboundSession Receiver}
    {found : MachineState} (hfound : InPlace.on (roomSession? name.room name.senderKey name.sessionId) state =
      (.ok (some session), found)) (hfollows : Follows [] state found)
    (hcached : found.cachedRoomSession? name = some session) (message : MegolmMessage) :
    ∃ after, InPlace.on (decryptRoomMessage name.room name.senderKey name.sessionId message) state =
        ((session.state.firstKey.answer message).mapError .decrypt, after) ∧
      Follows [] state after ∧ (after.cachedRoomSession? name).isSome := by
  obtain ⟨rfl, hgenuine⟩ := hfollows.tidy.cached name session hcached
  unfold decryptRoomMessage
  rw [InPlace.on_bind, Task.on_wrap, hfound]
  dsimp only [Except.mapError]
  rw [InPlace.on_bind, Task.on_ofExcept]
  obtain ⟨e, hanswer, hdecrypt⟩ | ⟨text, renewed, hanswer, hdecrypt, hrenewed, hname, hkey⟩ :=
    hgenuine.decrypt_cases message
  · rw [hanswer, hdecrypt]
    exact ⟨found, rfl, hfollows, by rw [hcached]; rfl⟩
  · rw [hanswer, hdecrypt]
    have hheld : found.roomKey? renewed.name = .ok (some renewed.state.firstKey) := by
      unfold roomKey? MachineState.roomSession?
      rw [hname, hcached, hkey]
      rfl
    refine ⟨found.cacheRoomSession renewed, rfl, hfollows.trans (follows_cache hfollows.tidy hrenewed hheld), ?_⟩
    rw [cachedRoomSession?_cache, if_pos hname.symm]
    rfl

/-- A message to a room is refused, or it is decrypted with the key that the machine has for its session. The
keys stay in both cases. -/
theorem decryptRoomMessage_cases (h : state.RoomsTidy) (name : RoomSessionName) (message : MegolmMessage) :
    ∃ outcome after,
      InPlace.on (decryptRoomMessage name.room name.senderKey name.sessionId message) state = (outcome, after) ∧
        Follows [] state after ∧ ∀ text, outcome = .ok text → (after.cachedRoomSession? name).isSome ∧
          ∃ key, state.roomKey? name = .ok (some key) ∧ key.answer message = .ok text := by
  obtain ⟨outcome, hfound, hmissing⟩ | ⟨session, found, hheld, hfound, hfollows, hcached⟩ := roomSession?_cases h name
  · have hrun : InPlace.on (decryptRoomMessage name.room name.senderKey name.sessionId message) state = _ :=
      InPlace.on_bind _ _ _
    rw [Task.on_wrap, hfound] at hrun
    rcases outcome with e | _ | session
    · exact ⟨_, _, hrun, .refl h, fun text htext => by cases htext⟩
    · exact ⟨_, _, hrun, .refl h, fun text htext => by cases htext⟩
    · exact absurd rfl (hmissing session)
  · obtain ⟨after, hrun, hkept, hafter⟩ := decryptRoomMessage_of_found hfound hfollows hcached message
    refine ⟨_, after, hrun, hkept, fun text htext => ⟨hafter, session.state.firstKey, ?_, ?_⟩⟩
    · unfold roomKey?
      rw [hheld]
      rfl
    · cases hanswer : session.state.firstKey.answer message with
      | error e =>
        rw [hanswer] at htext
        cases htext
      | ok answer =>
        rw [hanswer] at htext
        exact congrArg Except.ok (Except.ok.inj htext)

/-- A message for a cached session is answered as by the key of the session, whether the store fails or not. -/
theorem on_decryptRoomMessage_of_cached (h : state.RoomsTidy) {name : RoomSessionName}
    (hcached : (state.cachedRoomSession? name).isSome) {key : ExportedKey}
    (hkey : state.roomKey? name = .ok (some key)) (message : MegolmMessage) :
    (InPlace.on (decryptRoomMessage name.room name.senderKey name.sessionId message) state).1 =
      (key.answer message).mapError .decrypt := by
  obtain ⟨session, hsession⟩ := Option.isSome_iff_exists.mp hcached
  unfold roomKey? MachineState.roomSession? at hkey
  rw [hsession] at hkey
  obtain rfl := Option.some.inj (Except.ok.inj hkey)
  obtain ⟨after, hrun, -⟩ :=
    decryptRoomMessage_of_found (on_roomSession?_of_cached hsession) (.refl h) hsession message
  rw [hrun]

/-- A machine that saves the session of a room key has the key. -/
theorem follows_save (h : state.RoomsTidy) {session : InboundSession Receiver} (hgenuine : session.Genuine)
    {imported : KeyImport} (hname : session.name = imported.name)
    (hkey : session.state.firstKey = imported.key.sessionKey) :
    Follows [imported] state (state.afterSave { roomSessions := [session] }) where
  tidy := h.afterSave hgenuine
  key_eq name := by
    unfold roomKey? latestImport?
    rw [roomSession?_afterSave, hname]
    by_cases hsame : name = imported.name
    · simp only [hsame, List.find?_cons, decide_true, if_true, ← hkey]
      rfl
    · have hother : decide (imported.name = name) = false := decide_eq_false fun heq => hsame heq.symm
      simp only [hsame, List.find?_cons, hother, List.find?_nil, if_false]
  cached := isSome_cachedRoomSession?_cache state session

/-- A room key is refused, or its session is saved under the name that it is imported for. -/
theorem importRoomKey_cases (h : state.RoomsTidy) (imported : KeyImport) :
    (∃ e, InPlace.on imported.task state = (.error e, state)) ∨
      ∃ session after, InPlace.on imported.task state = (.ok session, after) ∧ Follows [imported] state after := by
  by_cases hfits : imported.Fits
  · rw [KeyImport.on_task_of_fits hfits]
    cases state.backend.outage .saveChanges with
    | some message => exact Or.inl ⟨_, rfl⟩
    | none =>
      exact Or.inr ⟨_, _, rfl, follows_save h (imported.genuine_session state) (KeyImport.name_session hfits state)
        (Receiver.firstKey_ofExported imported.key.sessionKey)⟩
  · obtain ⟨e, hrun⟩ := KeyImport.on_task_of_not_fits hfits state
    exact Or.inl ⟨e, hrun⟩

end Machine

end RoomCrypt
