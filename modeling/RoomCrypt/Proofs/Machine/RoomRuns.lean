import RoomCrypt.Machine.Backup
import RoomCrypt.Proofs.Machine.RoomKeyLog

/-!
# Runs of calls that have to do with room keys

Room keys are imported one by one or restored from a backup, and messages are decrypted in between. A
restored backup is a row of imports, one for each entry that can be read. After any calls a machine has
the keys of the latest imports that were taken, and otherwise those that it had before.
-/

namespace RoomCrypt

open Megolm (InboundSession Receiver)
open Store

variable [Suite]

/-- Imports that are made one after the other: those that are taken, the latest first, and what is left. -/
def importAll : List KeyImport → MachineState → List KeyImport × MachineState
  | [], state => ([], state)
  | imported :: rest, state =>
    let (outcome, between) := InPlace.on imported.task state
    let (taken, after) := importAll rest between
    (if outcome.isOk then taken ++ [imported] else taken, after)

/-- An entry of a backup as it is imported, if it can be read. -/
def readableImport? (version : String) (recoveryKey : Backup.RecoveryKey)
    (entry : RoomId × String × Backup.Entry) : Option KeyImport :=
  (recoveryKey.decrypt entry.2.2.data).toOption.map fun key => ⟨version, entry.1, entry.2.1, key⟩

omit [Suite] in
/-- Imports in two parts are made part after part. -/
theorem importAll_append (first second : List KeyImport) (state : MachineState) :
    importAll (first ++ second) state =
      ((importAll second (importAll first state).2).1 ++ (importAll first state).1,
        (importAll second (importAll first state).2).2) := by
  induction first generalizing state with
  | nil => simp [importAll]
  | cons imported first ih =>
    simp only [List.cons_append, importAll, ih]
    split <;> simp

namespace Machine

open MachineState

variable {state : MachineState}

/-- So it is with any number of imports. -/
theorem follows_importAll (h : state.RoomsTidy) (imports : List KeyImport) :
    Follows (importAll imports state).1 state (importAll imports state).2 := by
  induction imports generalizing state with
  | nil => exact .refl h
  | cons imported imports ih =>
    unfold importAll
    obtain ⟨e, hrun⟩ | ⟨session, after, hrun, hfollows⟩ := importRoomKey_cases h imported
    · rw [hrun]
      exact ih h
    · rw [hrun]
      exact hfollows.trans (ih hfollows.tidy)

/-- An entry that cannot be read is counted as failed, and one that can be read is imported. -/
theorem run_restoreEntry_eq (version : String) (recoveryKey : Backup.RecoveryKey) (room : RoomId)
    (sessionId : String) (entry : Backup.Entry) (report : RestoreReport) (state : MachineState) :
    (restoreEntry version recoveryKey room sessionId entry report).run state =
      match readableImport? version recoveryKey (room, sessionId, entry) with
      | none => (report.addFailed, state)
      | some imported =>
        match InPlace.on imported.task state with
        | (.error _, after) => (report.addFailed, after)
        | (.ok session, after) =>
          (report.addImported imported.room session.senderKey.toBase64 imported.sessionId, after) := by
  unfold restoreEntry readableImport?
  cases recoveryKey.decrypt entry.data with
  | error e => rfl
  | ok key =>
    let imported : KeyImport := ⟨version, room, sessionId, key⟩
    have hbind (next : Except ImportError (InboundSession Receiver) → StateM MachineState RestoreReport) :
        ((importRoomKey version room sessionId key).run >>= next).run state =
          (next (InPlace.on imported.task state).1).run (InPlace.on imported.task state).2 := rfl
    simp only [hbind, Except.toOption, Option.map_some]
    rcases InPlace.on imported.task state with ⟨e | session, after⟩ <;> rfl

/-- An entry is imported if it can be read, and counted if it is taken. -/
theorem run_restoreEntry (version : String) (recoveryKey : Backup.RecoveryKey) (room : RoomId) (sessionId : String)
    (entry : Backup.Entry) (report : RestoreReport) (state : MachineState) :
    let imported := importAll (readableImport? version recoveryKey (room, sessionId, entry)).toList state
    let restored := (restoreEntry version recoveryKey room sessionId entry report).run state
    restored.2 = imported.2 ∧ restored.1.imported = report.imported + imported.1.length := by
  intro imported restored
  have hrun : restored = _ := run_restoreEntry_eq version recoveryKey room sessionId entry report state
  rw [hrun]
  unfold imported
  cases readableImport? version recoveryKey (room, sessionId, entry) with
  | none => exact ⟨rfl, rfl⟩
  | some imported =>
    simp only [Option.toList_some, importAll]
    rcases InPlace.on imported.task state with ⟨e | session, after⟩ <;> exact ⟨rfl, rfl⟩

/-- Restoring entries imports the room keys that can be read, and counts those that are taken. -/
theorem run_restoreEntries (version : String) (recoveryKey : Backup.RecoveryKey)
    (entries : List (RoomId × String × Backup.Entry)) (report : RestoreReport) (state : MachineState) :
    let imported := importAll (entries.filterMap (readableImport? version recoveryKey)) state
    let restored := (restoreEntries version recoveryKey entries report).run state
    restored.2 = imported.2 ∧ restored.1.imported = report.imported + imported.1.length := by
  induction entries generalizing report state with
  | nil => exact ⟨rfl, rfl⟩
  | cons entry entries ih =>
    obtain ⟨room, sessionId, entry⟩ := entry
    have hsplit : List.filterMap (readableImport? version recoveryKey) ((room, sessionId, entry) :: entries) =
        (readableImport? version recoveryKey (room, sessionId, entry)).toList ++
          entries.filterMap (readableImport? version recoveryKey) := by
      rw [List.filterMap_cons]
      cases readableImport? version recoveryKey (room, sessionId, entry) <;> rfl
    obtain ⟨hstate, hcount⟩ := run_restoreEntry version recoveryKey room sessionId entry report state
    obtain ⟨hstates, hcounts⟩ := ih ((restoreEntry version recoveryKey room sessionId entry report).run state).1
      ((restoreEntry version recoveryKey room sessionId entry report).run state).2
    intro imported restored
    have hrestored : restored = (restoreEntries version recoveryKey entries
        ((restoreEntry version recoveryKey room sessionId entry report).run state).1).run
        ((restoreEntry version recoveryKey room sessionId entry report).run state).2 := rfl
    have himported : imported = _ := (congrArg (importAll · state) hsplit).trans (importAll_append _ _ _)
    rw [hrestored, himported, hstates, hcounts, hcount, hstate, List.length_append]
    exact ⟨rfl, by omega⟩

omit [Suite] in
/-- The server is asked for a backup, and the request is counted. -/
theorem on_fetchContent (version : String) (state : MachineState) :
    InPlace.on (fetchContent version) state =
      ((state.server.content version).mapError .request,
        { state with server := { state.server with requests := state.server.requests + 1 } }) := by
  unfold fetchContent
  rw [InPlace.on_bind, InPlace.on_get]
  dsimp only
  rw [InPlace.on_bind, Task.on_set]
  dsimp only
  rw [Task.on_ofExcept]

/-- The imports that are taken when a backup is restored. -/
def restoreLog (version : String) (recoveryKey : Backup.RecoveryKey) (state : MachineState) : List KeyImport :=
  match InPlace.on (fetchContent version) state with
  | (.ok content, fetched) =>
    (importAll (content.entries.filterMap (readableImport? version recoveryKey)) fetched).1
  | (.error _, _) => []

/-- A backup cannot be fetched, or its entries are restored. -/
theorem on_restoreBackup (version : String) (recoveryKey : Backup.RecoveryKey) (state : MachineState) :
    InPlace.on (restoreBackup version recoveryKey) state =
      match InPlace.on (fetchContent version) state with
      | (.error e, fetched) => (.error e, fetched)
      | (.ok content, fetched) =>
        let restored := (restoreEntries version recoveryKey content.entries {}).run fetched
        let saved := InPlace.on (save { backupVersion := some version }) restored.2
        ((saved.1.mapError .store).map fun _ => restored.1, saved.2) := by
  have hlift (content : Backup.Content) (fetched : MachineState) :
      InPlace.on (liftM (restoreEntries version recoveryKey content.entries {}) : Task BackupError RestoreReport)
        fetched = (.ok ((restoreEntries version recoveryKey content.entries {}).run fetched).1,
          ((restoreEntries version recoveryKey content.entries {}).run fetched).2) := rfl
  unfold restoreBackup
  rw [InPlace.on_bind]
  rcases InPlace.on (fetchContent version) state with ⟨e | content, fetched⟩
  · rfl
  · dsimp only
    rw [InPlace.on_bind, hlift]
    dsimp only
    rw [InPlace.on_bind, Task.on_wrap]
    rcases InPlace.on (save { backupVersion := some version })
      ((restoreEntries version recoveryKey content.entries {}).run fetched).2 with ⟨e | _, saved⟩ <;> rfl

/-- A machine that restores a backup takes the imports that are logged. -/
theorem follows_restoreBackup (h : state.RoomsTidy) (version : String) (recoveryKey : Backup.RecoveryKey) :
    Follows (restoreLog version recoveryKey state) state
      (InPlace.on (restoreBackup version recoveryKey) state).2 := by
  have hfetched : Follows [] state (InPlace.on (fetchContent version) state).2 := by
    rw [on_fetchContent]
    exact ⟨⟨h.cached, h.stored⟩, fun _ => rfl, fun _ => id⟩
  rw [on_restoreBackup]
  unfold restoreLog
  rcases hrun : InPlace.on (fetchContent version) state with ⟨e | content, fetched⟩
  · rw [hrun] at hfetched
    exact hfetched
  · rw [hrun] at hfetched
    dsimp only at hfetched ⊢
    have himports := follows_importAll hfetched.tidy (content.entries.filterMap (readableImport? version recoveryKey))
    rw [← (run_restoreEntries version recoveryKey content.entries {} fetched).1] at himports
    have hrestored := hfetched.trans himports
    rw [List.append_nil] at hrestored
    rw [on_save]
    cases ((restoreEntries version recoveryKey content.entries {}).run fetched).2.backend.outage .saveChanges with
    | some message => exact hrestored
    | none =>
      -- The version of the backup is no room session.
      have hkept : Follows [] ((restoreEntries version recoveryKey content.entries {}).run fetched).2
          (((restoreEntries version recoveryKey content.entries {}).run fetched).2.afterSave
            { backupVersion := some version }) :=
        ⟨⟨hrestored.tidy.cached, hrestored.tidy.stored⟩, fun _ => rfl, fun _ => id⟩
      exact hrestored.trans hkept

/-- The report on a backup that was restored counts the imports that are logged. -/
theorem imported_eq_of_restoreBackup {version : String} {recoveryKey : Backup.RecoveryKey} {report : RestoreReport}
    {after : MachineState} (h : InPlace.on (restoreBackup version recoveryKey) state = (.ok report, after)) :
    report.imported = (restoreLog version recoveryKey state).length := by
  rw [on_restoreBackup] at h
  unfold restoreLog
  rcases hrun : InPlace.on (fetchContent version) state with ⟨e | content, fetched⟩
  · rw [hrun] at h
    cases h
  · rw [hrun] at h
    dsimp only at h ⊢
    obtain ⟨-, hcount⟩ := run_restoreEntries version recoveryKey content.entries {} fetched
    cases hsaved : (InPlace.on (save { backupVersion := some version })
        ((restoreEntries version recoveryKey content.entries {}).run fetched).2).1 with
    | error e =>
      rw [hsaved] at h
      cases h
    | ok _ =>
      rw [hsaved] at h
      obtain rfl : ((restoreEntries version recoveryKey content.entries {}).run fetched).1 = report :=
        Except.ok.inj (Prod.mk.inj h).1
      rw [hcount]
      exact Nat.zero_add _

end Machine

/-- A call that has to do with room keys. -/
inductive RoomCall where
  | importKey (imported : KeyImport)
  | restore (version : String) (recoveryKey : Backup.RecoveryKey)
  | decrypt (name : RoomSessionName) (message : MegolmMessage)

namespace RoomCall

/-- What is left of the state after a call, whatever its outcome. -/
def after (state : MachineState) : RoomCall → MachineState
  | importKey imported => (InPlace.on imported.task state).2
  | restore version recoveryKey => (InPlace.on (Machine.restoreBackup version recoveryKey) state).2
  | decrypt name message =>
    (InPlace.on (Machine.decryptRoomMessage name.room name.senderKey name.sessionId message) state).2

/-- The imports that a call takes, the latest first. -/
def taken (state : MachineState) : RoomCall → List KeyImport
  | importKey imported => (importAll [imported] state).1
  | restore version recoveryKey => Machine.restoreLog version recoveryKey state
  | decrypt _ _ => []

/-- The keys of a machine after a call are those that it took, or those that it had. -/
theorem follows {state : MachineState} (h : state.RoomsTidy) (call : RoomCall) :
    MachineState.Follows (call.taken state) state (call.after state) := by
  cases call with
  | importKey imported => exact Machine.follows_importAll h [imported]
  | restore version recoveryKey => exact Machine.follows_restoreBackup h version recoveryKey
  | decrypt name message =>
    obtain ⟨outcome, after, hrun, hfollows, -⟩ := Machine.decryptRoomMessage_cases h name message
    have hafter : (decrypt name message).after state = after := congrArg Prod.snd hrun
    rw [hafter]
    exact hfollows

end RoomCall

/-- A call in its surroundings. -/
structure RoomEvent where
  around : Surroundings
  call : RoomCall

namespace MachineState

/-- The state after calls, the first call first. -/
def afterRoomEvents (state : MachineState) (events : List RoomEvent) : MachineState :=
  events.foldl (fun state event => event.call.after (state.within event.around)) state

/-- The imports that are taken by calls, the latest first. -/
def roomKeyLog : MachineState → List RoomEvent → List KeyImport
  | _, [] => []
  | state, event :: events =>
    roomKeyLog (event.call.after (state.within event.around)) events ++ event.call.taken (state.within event.around)

/-- The keys of a machine after any calls are those of the latest imports, or those that it had. -/
theorem follows_afterRoomEvents {state : MachineState} (h : state.RoomsTidy) (events : List RoomEvent) :
    Follows (state.roomKeyLog events) state (state.afterRoomEvents events) := by
  induction events generalizing state with
  | nil => exact .refl h
  | cons event events ih =>
    have hwithin := Follows.within h event.around
    have hcall := hwithin.trans (event.call.follows hwithin.tidy)
    rw [List.append_nil] at hcall
    exact hcall.trans (ih hcall.tidy)

end MachineState

end RoomCrypt
