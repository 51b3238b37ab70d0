import RoomCrypt.Proofs.Backup.Encryption
import RoomCrypt.Proofs.Machine.RoomAuthenticity

/-!
# Restoring a backup

An entry is good if it can be read and its key fits its place. A restore imports the good entries, whatever
the others are like: it is a walk through the entries in which each is judged alone. No two of them have one
place, so that no session takes the place of another one of the same backup, and a second walk finds every
session stored as it would store it again.
-/

namespace RoomCrypt

open Megolm (InboundSession Receiver)
open Store

/-- A room has the identifier that it is made of. -/
theorem RoomId.text_of_ofString? {text : String} {room : RoomId} (h : ofString? text = some room) :
    room.text = text := by
  unfold ofString? at h
  split at h
  · exact congrArg RoomId.text (Option.some.inj h).symm
  · cases h

/-- No two entries of a backup have the same place. -/
theorem Backup.Content.pairwise_entries (content : Content) :
    content.entries.Pairwise fun entry other => (entry.1, entry.2.1) ≠ (other.1, other.2.1) := by
  refine List.pairwise_flatMap.mpr ⟨fun (text, sessions) _ => ?_, ?_⟩
  · dsimp only
    cases RoomId.ofString? text with
    | none => exact .nil
    | some room =>
      refine List.pairwise_map.mpr (sessions.ordered.imp fun {entry other} hlt heq => ?_)
      exact String.lt_irrefl _ ((Prod.mk.inj heq).2 ▸ hlt)
  · refine content.rooms.ordered.imp ?_
    rintro ⟨text, sessions⟩ ⟨text', sessions'⟩ hlt entry hentry other hother heq
    dsimp only at hentry hother hlt
    cases hroom : RoomId.ofString? text with
    | none =>
      rw [hroom] at hentry
      cases hentry
    | some room =>
      cases hroom' : RoomId.ofString? text' with
      | none =>
        rw [hroom'] at hother
        cases hother
      | some room' =>
        rw [hroom] at hentry
        rw [hroom'] at hother
        obtain ⟨_, -, rfl⟩ := List.mem_map.mp hentry
        obtain ⟨_, -, rfl⟩ := List.mem_map.mp hother
        obtain rfl : room = room' := (Prod.mk.inj heq).1
        rw [← RoomId.text_of_ofString? hroom, ← RoomId.text_of_ofString? hroom'] at hlt
        exact String.lt_irrefl _ hlt

namespace RestoreReport

/-- The sessions that a report lists for a room and a sender key. -/
def listed (report : RestoreReport) (room sender : String) : List String :=
  ((report.keys.find? room).bind (·.find? sender)).getD []

/-- A key that was taken is listed last. -/
theorem listed_addImported (report : RestoreReport) (room : RoomId) (sender sessionId room' sender' : String) :
    (report.addImported room sender sessionId).listed room' sender' =
      if room' = room.text ∧ sender' = sender then report.listed room' sender' ++ [sessionId]
      else report.listed room' sender' := by
  unfold addImported listed
  dsimp only
  rw [Dict.find?_insert_nested, Dict.find?_getD_empty]
  split
  · next hplace =>
    obtain ⟨rfl, rfl⟩ := hplace
    rfl
  · rfl

/-- The report after an entry, which is imported if it is good. -/
def count (report : RestoreReport) : Option KeyImport → RestoreReport
  | some imported => report.addImported imported.room imported.key.senderKey.toBase64 imported.sessionId
  | none => report.addFailed

variable {α : Type} (good? : α → Option KeyImport)

/-- Each entry is counted once, and listed if it is good. -/
theorem foldl_count (entries : List α) (report : RestoreReport) :
    let imports := entries.filterMap good?
    let counted := entries.foldl (fun report entry => report.count (good? entry)) report
    counted.total = report.total + entries.length ∧ counted.imported = report.imported + imports.length ∧
      ∀ room sender, counted.listed room sender = report.listed room sender ++
        (imports.filter fun imported => imported.room.text = room ∧ imported.key.senderKey.toBase64 = sender).map
          (·.sessionId) := by
  induction entries generalizing report with
  | nil => exact ⟨rfl, rfl, fun room sender => (List.append_nil _).symm⟩
  | cons entry entries ih =>
    obtain ⟨htotal, himported, hlisted⟩ := ih (report.count (good? entry))
    simp only [List.foldl_cons, htotal, himported, hlisted, List.length_cons]
    cases hgood : good? entry with
    | none =>
      rw [List.filterMap_cons_none hgood]
      refine ⟨?_, rfl, fun room sender => rfl⟩
      unfold count total addFailed
      dsimp only
      omega
    | some imported =>
      rw [List.filterMap_cons_some hgood]
      refine ⟨?_, ?_, fun room sender => ?_⟩
      · unfold count total addImported
        dsimp only
        omega
      · unfold count addImported
        dsimp only
        rw [List.length_cons]
        omega
      · unfold count
        dsimp only
        rw [listed_addImported, List.filter_cons]
        by_cases hplace : imported.room.text = room ∧ imported.key.senderKey.toBase64 = sender
        · rw [if_pos ⟨hplace.1.symm, hplace.2.symm⟩, if_pos (decide_eq_true hplace), List.map_cons,
            List.append_assoc]
          rfl
        · rw [if_neg fun h => hplace ⟨h.1.symm, h.2.symm⟩, if_neg (by simpa using hplace)]

end RestoreReport

section

variable [Suite]

namespace Store.MemoryStore

omit [Suite] in
/-- Only room sessions are changed when room sessions are saved. -/
theorem foldl_saveRoomSession_eq (store : MemoryStore) (sessions : List (InboundSession Receiver)) :
    sessions.foldl saveRoomSession store =
      { store with roomSessions := (sessions.foldl saveRoomSession store).roomSessions } := by
  induction sessions generalizing store with
  | nil => rfl
  | cons session sessions ih =>
    rw [List.foldl_cons, ih]
    rfl

omit [Suite] in
/-- Sessions of different names are all stored. -/
theorem roomText?_foldl_of_mem (store : MemoryStore) {sessions : List (InboundSession Receiver)}
    (hnames : sessions.Pairwise fun session other => session.name ≠ other.name) :
    ∀ session ∈ sessions,
      (sessions.foldl saveRoomSession store).roomText? session.name = some (roomSessionText session) := by
  induction sessions generalizing store with
  | nil => nofun
  | cons session sessions ih =>
    obtain ⟨hsession, hsessions⟩ := List.pairwise_cons.mp hnames
    refine List.forall_mem_cons.mpr ⟨?_, ih _ hsessions⟩
    rw [List.foldl_cons, roomText?_foldl_of_ne _ fun other hother => (hsession other hother).symm,
      roomText?_saveRoomSession, if_pos rfl]

omit [Suite] in
/-- Saving sessions that are stored as they are changes nothing. -/
theorem foldl_saveRoomSession_of_stored {store : MemoryStore} {sessions : List (InboundSession Receiver)}
    (hstored : ∀ session ∈ sessions, store.roomText? session.name = some (roomSessionText session)) :
    sessions.foldl saveRoomSession store = store := by
  induction sessions with
  | nil => rfl
  | cons session sessions ih =>
    obtain ⟨hsession, hsessions⟩ := List.forall_mem_cons.mp hstored
    have hsaved : store.saveRoomSession session = store := by
      unfold saveRoomSession
      exact congrArg (fun rooms => { store with roomSessions := rooms }) (Dict.insert_nested₂_of_find? hsession)
    rw [List.foldl_cons, hsaved, ih hsessions]

end Store.MemoryStore

namespace MachineState

/-- The state after the session of a key was saved. -/
def taking (state : MachineState) (imported : KeyImport) : MachineState :=
  state.afterSave { roomSessions := [imported.session state] }

/-- When the sessions of keys are saved one after the other, nothing but the machine and the room sessions of the
store changes. -/
theorem foldl_taking_eq (state : MachineState) (imports : List KeyImport) :
    imports.foldl taking state =
      { state with
        machine := (imports.foldl taking state).machine
        backend :=
          { state.backend with
            store := (imports.map (·.session state)).foldl MemoryStore.saveRoomSession state.backend.store } } := by
  induction imports generalizing state with
  | nil => rfl
  | cons imported imports ih =>
    rw [List.foldl_cons, ih]
    rfl

end MachineState

/-- The room key of an entry as it is imported, if the entry is good. -/
def goodImport? (version : String) (recoveryKey : Backup.RecoveryKey) (entry : RoomId × String × Backup.Entry) :
    Option KeyImport :=
  (readableImport? version recoveryKey entry).filter (·.Fits)

/-- An entry is good if it can be decrypted, its algorithm is the one that we know and its key belongs to the
session that it stands under. -/
theorem goodImport?_eq_some_iff {version : String} {recoveryKey : Backup.RecoveryKey} {room : RoomId}
    {sessionId : String} {entry : Backup.Entry} {imported : KeyImport} :
    goodImport? version recoveryKey (room, sessionId, entry) = some imported ↔
      ∃ key, recoveryKey.decrypt entry.data = .ok key ∧ key.algorithm = Megolm.algorithmName ∧
        key.sessionKey.sessionId = sessionId ∧ imported = ⟨version, room, sessionId, key⟩ := by
  unfold goodImport? readableImport?
  rw [Option.filter_eq_some_iff]
  cases recoveryKey.decrypt entry.data with
  | error e => simp [Except.toOption]
  | ok key =>
    constructor
    · rintro ⟨himported, hfits⟩
      obtain rfl := Option.some.inj himported
      obtain ⟨halgorithm, hid⟩ := of_decide_eq_true hfits
      exact ⟨key, rfl, halgorithm, hid, rfl⟩
    · rintro ⟨key, ⟨⟩, halgorithm, hid, rfl⟩
      exact ⟨rfl, decide_eq_true ⟨halgorithm, hid⟩⟩

/-- The imports of the good entries of a backup. -/
def goodImports (version : String) (recoveryKey : Backup.RecoveryKey) (content : Backup.Content) : List KeyImport :=
  content.entries.filterMap (goodImport? version recoveryKey)

/-- No two of them have the same name. -/
theorem pairwise_goodImports (version : String) (recoveryKey : Backup.RecoveryKey) (content : Backup.Content) :
    (goodImports version recoveryKey content).Pairwise fun imported other => imported.name ≠ other.name := by
  refine content.pairwise_entries.filterMap _ fun entry other hne imported himported import' himport' hname => ?_
  obtain ⟨_, -, -, -, rfl⟩ := goodImport?_eq_some_iff.mp himported
  obtain ⟨_, -, -, -, rfl⟩ := goodImport?_eq_some_iff.mp himport'
  exact hne (Prod.ext (congrArg RoomSessionName.room hname) (congrArg RoomSessionName.sessionId hname))

namespace Machine

open MachineState

variable {state : MachineState}

/-- An entry is counted, and the session of a good one is saved. -/
theorem run_restoreEntry_of_works (hworks : state.backend.outage .saveChanges = none) (version : String)
    (recoveryKey : Backup.RecoveryKey) (room : RoomId) (sessionId : String) (entry : Backup.Entry)
    (report : RestoreReport) :
    (restoreEntry version recoveryKey room sessionId entry report).run state =
      let good? := goodImport? version recoveryKey (room, sessionId, entry)
      (report.count good?, good?.toList.foldl taking state) := by
  rw [run_restoreEntry_eq]
  unfold goodImport?
  cases readableImport? version recoveryKey (room, sessionId, entry) with
  | none => rfl
  | some imported =>
    dsimp only
    by_cases hfits : imported.Fits
    · rw [KeyImport.on_task_of_fits hfits, hworks, Option.filter_some, if_pos (decide_eq_true hfits)]
      rfl
    · obtain ⟨e, hrun⟩ := KeyImport.on_task_of_not_fits hfits state
      rw [hrun, Option.filter_some, if_neg (by simpa using hfits)]
      rfl

/-- Every entry is counted, and the sessions of the good ones are saved. -/
theorem run_restoreEntries_of_works (hworks : state.backend.outage .saveChanges = none) (version : String)
    (recoveryKey : Backup.RecoveryKey) (entries : List (RoomId × String × Backup.Entry)) (report : RestoreReport) :
    (restoreEntries version recoveryKey entries report).run state =
      (entries.foldl (fun report entry => report.count (goodImport? version recoveryKey entry)) report,
        (entries.filterMap (goodImport? version recoveryKey)).foldl taking state) := by
  induction entries generalizing report state with
  | nil => rfl
  | cons entry entries ih =>
    obtain ⟨room, sessionId, entry⟩ := entry
    have hentry := run_restoreEntry_of_works hworks version recoveryKey room sessionId entry report
    have hnext : ((goodImport? version recoveryKey (room, sessionId, entry)).toList.foldl taking
        state).backend.outage .saveChanges = none := by
      rw [foldl_taking_eq]
      exact hworks
    have hrun : (restoreEntries version recoveryKey ((room, sessionId, entry) :: entries) report).run state =
        (restoreEntries version recoveryKey entries
          ((restoreEntry version recoveryKey room sessionId entry report).run state).1).run
          ((restoreEntry version recoveryKey room sessionId entry report).run state).2 := rfl
    rw [hrun, hentry]
    dsimp only
    rw [ih hnext, List.foldl_cons]
    cases hgood : goodImport? version recoveryKey (room, sessionId, entry) with
    | none =>
      rw [List.filterMap_cons_none hgood]
      rfl
    | some imported =>
      rw [List.filterMap_cons_some hgood]
      rfl

/-- The report on the entries of a backup. -/
def restoreReport (version : String) (recoveryKey : Backup.RecoveryKey) (content : Backup.Content) : RestoreReport :=
  content.entries.foldl (fun report entry => report.count (goodImport? version recoveryKey entry)) {}

/-- The store after a restore. -/
def restoredStore (state : MachineState) (version : String) (imports : List KeyImport) : MemoryStore :=
  { (imports.map (·.session state)).foldl MemoryStore.saveRoomSession state.backend.store with
    backupVersion := some version }

/-- A backup that is fetched is restored, if the store does not fail. -/
theorem on_restoreBackup_of_works (hworks : state.backend.outage .saveChanges = none) {version : String}
    {content : Backup.Content} (hcontent : state.server.content version = .ok content)
    (recoveryKey : Backup.RecoveryKey) :
    ∃ machine, InPlace.on (restoreBackup version recoveryKey) state =
      (.ok (restoreReport version recoveryKey content),
        { state with
          server := { state.server with requests := state.server.requests + 1 }
          machine
          backend :=
            { state.backend with
              store := restoredStore state version (goodImports version recoveryKey content) } }) := by
  let fetched : MachineState :=
    { state with server := { state.server with requests := state.server.requests + 1 } }
  have hfetch : InPlace.on (fetchContent version) state = (.ok content, fetched) := by
    rw [on_fetchContent, hcontent]
    rfl
  let taken := (goodImports version recoveryKey content).foldl taking fetched
  have hfetched : fetched.backend.outage .saveChanges = none := hworks
  have hentries : (restoreEntries version recoveryKey content.entries {}).run fetched =
      (restoreReport version recoveryKey content, taken) :=
    run_restoreEntries_of_works hfetched version recoveryKey content.entries {}
  have htaken : taken = _ := foldl_taking_eq fetched (goodImports version recoveryKey content)
  have hstore : taken.backend.outage .saveChanges = none := htaken ▸ hworks
  have hsave : InPlace.on (save { backupVersion := some version }) taken =
      (.ok (), taken.afterSave { backupVersion := some version }) := by
    rw [on_save, hstore]
  refine ⟨(taken.afterSave { backupVersion := some version }).machine, ?_⟩
  rw [on_restoreBackup, hfetch]
  dsimp only
  rw [hentries, hsave]
  refine congrArg (Prod.mk (Except.ok (restoreReport version recoveryKey content))) ?_
  conv_lhs => rw [htaken]
  rfl

/-- A backup is the latest one that is trusted if it is the latest one and is trusted. -/
theorem latestBackup_eq_ok_iff {recoveryKey : Option Backup.RecoveryKey} {version : Backup.Version} :
    state.latestBackup recoveryKey = .ok version ↔
      state.server.latest = .ok version ∧ state.verifyBackup version.info recoveryKey = .ok () := by
  unfold latestBackup
  rw [bind_eq_ok_iff]
  constructor
  · rintro ⟨latest, hlatest, h⟩
    obtain ⟨⟨⟩, hverify, hlatest'⟩ := bind_eq_ok_iff.mp h
    obtain rfl := Except.ok.inj hlatest'
    exact ⟨eq_ok_of_mapError_eq_ok hlatest, hverify⟩
  · rintro ⟨hlatest, hverify⟩
    refine ⟨version, by rw [hlatest]; rfl, ?_⟩
    rw [hverify]
    rfl

/-- The latest backup is restored if it is trusted. Otherwise its content is not asked for. -/
theorem on_restoreLatestBackup (recoveryKey : Backup.RecoveryKey) (state : MachineState) :
    InPlace.on (restoreLatestBackup recoveryKey) state =
      match state.latestBackup (some recoveryKey) with
      | .error e => (.error e, state)
      | .ok version =>
        let run := InPlace.on (restoreBackup version.version recoveryKey) state
        (run.1.map fun report => (version.version, report), run.2) := by
  unfold restoreLatestBackup Task.ofState
  rw [InPlace.on_bind, InPlace.on_bind, InPlace.on_get]
  dsimp only
  rw [Task.on_ofExcept]
  cases state.latestBackup (some recoveryKey) with
  | error e => rfl
  | ok version =>
    dsimp only
    rw [InPlace.on_bind]
    rcases InPlace.on (restoreBackup version.version recoveryKey) state with ⟨e | report, after⟩ <;> rfl

end Machine

/-- The good entries of a backup were restored: they are counted and listed, their sessions are stored, and so is
the version of the backup, and nothing else of the store is changed. -/
structure MachineState.Restored (before : MachineState) (version : String) (recoveryKey : Backup.RecoveryKey)
    (content : Backup.Content) (report : RestoreReport) (after : MachineState) : Prop where
  total_eq : report.imported + report.failed = content.entries.length
  imported_eq : report.imported = (goodImports version recoveryKey content).length
  listed_eq : ∀ room sender, report.listed room sender =
    ((goodImports version recoveryKey content).filter fun imported =>
      imported.room.text = room ∧ imported.key.senderKey.toBase64 = sender).map (·.sessionId)
  saved : ∀ imported ∈ goodImports version recoveryKey content, after.backend.store.roomText? imported.name =
    some (MemoryStore.roomSessionText (imported.session before))
  kept : ∀ name, (∀ imported ∈ goodImports version recoveryKey content, imported.name ≠ name) →
    after.backend.store.roomText? name = before.backend.store.roomText? name
  store_eq : after.backend.store =
    { before.backend.store with
      roomSessions := after.backend.store.roomSessions
      backupVersion := some version }

variable {state : MachineState} {version : String} {recoveryKey : Backup.RecoveryKey} {content : Backup.Content}

/-- The sessions of good entries are called after their places. -/
theorem name_session_of_good {imported : KeyImport} (h : imported ∈ goodImports version recoveryKey content)
    (state : MachineState) : (imported.session state).name = imported.name := by
  obtain ⟨⟨room, sessionId, entry⟩, -, hgood⟩ := List.mem_filterMap.mp h
  obtain ⟨key, -, halgorithm, hid, rfl⟩ := goodImport?_eq_some_iff.mp hgood
  exact KeyImport.name_session ⟨halgorithm, hid⟩ state

/-- That is what becomes of a backup. -/
theorem restored_of_restoredStore (state : MachineState) {after : MachineState}
    (hstore : after.backend.store = Machine.restoredStore state version (goodImports version recoveryKey content)) :
    state.Restored version recoveryKey content (Machine.restoreReport version recoveryKey content) after := by
  have hnames : ((goodImports version recoveryKey content).map (·.session state)).Pairwise fun session other =>
      session.name ≠ other.name := by
    refine List.pairwise_map.mpr ((pairwise_goodImports version recoveryKey content).imp_of_mem ?_)
    intro imported other himported hother hne
    rwa [name_session_of_good himported, name_session_of_good hother]
  obtain ⟨htotal, himported, hlisted⟩ :=
    RestoreReport.foldl_count (goodImport? version recoveryKey) content.entries {}
  refine ⟨htotal.trans (Nat.zero_add _), himported.trans (Nat.zero_add _),
    fun room sender => (hlisted room sender).trans (List.nil_append _), fun imported hmem => ?_,
    fun name hother => ?_, ?_⟩
  · rw [hstore, ← name_session_of_good hmem state]
    exact MemoryStore.roomText?_foldl_of_mem state.backend.store hnames _ (List.mem_map_of_mem hmem)
  · rw [hstore]
    refine MemoryStore.roomText?_foldl_of_ne state.backend.store fun session hsession => ?_
    obtain ⟨imported, hmem, rfl⟩ := List.mem_map.mp hsession
    rw [name_session_of_good hmem]
    exact hother imported hmem
  · rw [hstore]
    unfold Machine.restoredStore
    conv_lhs => rw [MemoryStore.foldl_saveRoomSession_eq]

/-- When a backup was restored, another restore with the same clock and the same settings of rooms makes the same
sessions, and finds them stored. -/
theorem MachineState.Restored.on_restoreBackup_again {report : RestoreReport} {after : MachineState}
    (h : state.Restored version recoveryKey content report after)
    (hworks : after.backend.outage .saveChanges = none) (hcontent : after.server.content version = .ok content)
    (hnow : after.now = state.now) (hsettings : after.roomSettings = state.roomSettings) :
    ∃ again, InPlace.on (Machine.restoreBackup version recoveryKey) after =
        (.ok (Machine.restoreReport version recoveryKey content), again) ∧
      again.backend.store = after.backend.store := by
  obtain ⟨machine, hrun⟩ := Machine.on_restoreBackup_of_works hworks hcontent recoveryKey
  refine ⟨_, hrun, ?_⟩
  have hstored : ∀ session ∈ (goodImports version recoveryKey content).map (·.session after),
      after.backend.store.roomText? session.name = some (MemoryStore.roomSessionText session) := by
    intro session hsession
    obtain ⟨imported, hmem, rfl⟩ := List.mem_map.mp hsession
    have hsame : imported.session after = imported.session state := by
      unfold KeyImport.session
      rw [hnow, hsettings]
    rw [name_session_of_good hmem, hsame]
    exact h.saved imported hmem
  have hversion : after.backend.store.backupVersion = some version := congrArg MemoryStore.backupVersion h.store_eq
  dsimp only
  unfold Machine.restoredStore
  rw [MemoryStore.foldl_saveRoomSession_of_stored hstored, ← hversion]

/-- The imports of a backup are those of its good entries: they can be decrypted, their algorithm is the one that
we know, and their keys belong to the sessions that they stand under. -/
theorem mem_goodImports {imported : KeyImport} :
    imported ∈ goodImports version recoveryKey content ↔
      imported.version = version ∧ ∃ entry, (imported.room, imported.sessionId, entry) ∈ content.entries ∧
        recoveryKey.decrypt entry.data = .ok imported.key ∧ imported.key.algorithm = Megolm.algorithmName ∧
        imported.key.sessionKey.sessionId = imported.sessionId := by
  unfold goodImports
  rw [List.mem_filterMap]
  constructor
  · rintro ⟨⟨room, sessionId, entry⟩, hentry, hgood⟩
    obtain ⟨key, hkey, halgorithm, hid, rfl⟩ := goodImport?_eq_some_iff.mp hgood
    exact ⟨rfl, entry, hentry, hkey, halgorithm, hid⟩
  · rintro ⟨rfl, entry, hentry, hkey, halgorithm, hid⟩
    exact ⟨_, hentry, goodImport?_eq_some_iff.mpr ⟨imported.key, hkey, halgorithm, hid, rfl⟩⟩

/-- A restore takes the good entries of a backup and counts the others, and a second one changes nothing more.
The latest backup is restored if it is trusted; otherwise it is not asked for, and nothing is changed. -/
theorem restoreBackup_takes_good_entries (state : MachineState)
    (hworks : state.backend.outage .saveChanges = none) (recoveryKey : Backup.RecoveryKey) :
    (∀ version content, state.server.content version = .ok content →
        (∀ imported, imported ∈ goodImports version recoveryKey content ↔
          imported.version = version ∧ ∃ entry, (imported.room, imported.sessionId, entry) ∈ content.entries ∧
            recoveryKey.decrypt entry.data = .ok imported.key ∧ imported.key.algorithm = Megolm.algorithmName ∧
            imported.key.sessionKey.sessionId = imported.sessionId) ∧
          ∃ report after, InPlace.on (Machine.restoreBackup version recoveryKey) state = (.ok report, after) ∧
            state.Restored version recoveryKey content report after ∧
            ∃ again, InPlace.on (Machine.restoreBackup version recoveryKey) after = (.ok report, again) ∧
              again.backend.store = after.backend.store) ∧
      (∀ version, state.server.latest = .ok version →
        state.verifyBackup version.info (some recoveryKey) = .ok () →
          let run := InPlace.on (Machine.restoreBackup version.version recoveryKey) state
          InPlace.on (Machine.restoreLatestBackup recoveryKey) state =
            (run.1.map fun report => (version.version, report), run.2)) ∧
      ((∀ version, state.server.latest = .ok version →
          state.verifyBackup version.info (some recoveryKey) ≠ .ok ()) →
        ∃ e, InPlace.on (Machine.restoreLatestBackup recoveryKey) state = (.error e, state)) := by
  refine ⟨fun version content hcontent => ⟨fun imported => mem_goodImports, ?_⟩, fun version hlatest hverify => ?_,
    fun huntrusted => ?_⟩
  · obtain ⟨machine, hrun⟩ := Machine.on_restoreBackup_of_works hworks hcontent recoveryKey
    refine ⟨_, _, hrun, restored_of_restoredStore state rfl, ?_⟩
    exact (restored_of_restoredStore state rfl).on_restoreBackup_again hworks hcontent rfl rfl
  · rw [Machine.on_restoreLatestBackup, Machine.latestBackup_eq_ok_iff.mpr ⟨hlatest, hverify⟩]
  · rw [Machine.on_restoreLatestBackup]
    cases hlatest : state.latestBackup (some recoveryKey) with
    | error e => exact ⟨e, rfl⟩
    | ok version =>
      obtain ⟨hlatest, hverify⟩ := Machine.latestBackup_eq_ok_iff.mp hlatest
      exact absurd hverify (huntrusted version hlatest)

end

open scoped Suite.Evaluation

/-- The recovery key of a backup. -/
def restoringKey : Backup.RecoveryKey := ⟨⟨.ofNatLE 32 3⟩⟩

/-- The content of a backup that has a room key in its place and in a wrong one. -/
def placedTwice (data : Backup.EncryptedRoomKey) : Backup.Content :=
  Backup.Content.empty.insertAll
    [(firstRoom, backedUpSession.sessionId, ⟨0, 0, false, data⟩), (firstRoom, "wrong", ⟨0, 0, false, data⟩)]

theorem entries_placedTwice (data : Backup.EncryptedRoomKey) : (placedTwice data).entries =
    [(firstRoom, backedUpSession.sessionId, ⟨0, 0, false, data⟩), (firstRoom, "wrong", ⟨0, 0, false, data⟩)] := by
  rfl

/-- The entry in the right place is good. -/
theorem goodImports_placedTwice {data : Backup.EncryptedRoomKey}
    (hdata : restoringKey.decrypt data = .ok (importOf backedUpSession firstRoom).key) :
    goodImports "1" restoringKey (placedTwice data) = [importOf backedUpSession firstRoom] := by
  have hgood : goodImport? "1" restoringKey (firstRoom, backedUpSession.sessionId, ⟨0, 0, false, data⟩) =
      some (importOf backedUpSession firstRoom) :=
    goodImport?_eq_some_iff.mpr ⟨_, hdata, rfl, rfl, rfl⟩
  have hwrong : goodImport? "1" restoringKey (firstRoom, "wrong", ⟨0, 0, false, data⟩) = none := by
    refine Option.eq_none_iff_forall_ne_some.mpr fun imported himported => ?_
    obtain ⟨key, hkey, -, hid, -⟩ := goodImport?_eq_some_iff.mp himported
    obtain rfl := Except.ok.inj (hdata.symm.trans hkey)
    exact absurd hid (by decide +kernel)
  unfold goodImports
  rw [entries_placedTwice, List.filterMap_cons_some hgood, List.filterMap_cons_none hwrong, List.filterMap_nil]

/-- The room key as it is encrypted for the backup. -/
def backedUpData : Backup.EncryptedRoomKey :=
  restoringKey.backupKey.encryptWith ⟨.ofNatLE 32 9⟩ (importOf backedUpSession firstRoom).key

/-- A machine whose server has the backup. -/
def restoringMachine : MachineState :=
  let around : Surroundings := default
  (MachineState.boot evaluationUser {}).within
    { around with
      server :=
        ⟨.ok ⟨"1", .known (.ofKey restoringKey.publicKey .empty), none, none⟩,
          fun _ => .ok (placedTwice backedUpData), 0⟩ }

/-- One of the two entries is restored, from the backup that is trusted for its recovery key. With any other key
it is not, and nothing is changed. -/
theorem restoreBackup_takes_good_entries_placedTwice :
    let restore := Machine.restoreLatestBackup restoringKey
    let refuse := Machine.restoreLatestBackup ⟨⟨.ofNatLE 32 4⟩⟩
    (∃ report after, InPlace.on restore restoringMachine = (.ok ("1", report), after) ∧ report.imported = 1 ∧
        report.imported + report.failed = 2 ∧ after.backend.store.backupVersion = some "1") ∧
      (InPlace.on refuse restoringMachine).2 = restoringMachine := by
  intro restore refuse
  obtain ⟨hbackups, hlatest, -⟩ := restoreBackup_takes_good_entries restoringMachine rfl restoringKey
  obtain ⟨-, report, after, hrun, hrestored, -⟩ := hbackups "1" (placedTwice backedUpData) rfl
  obtain ⟨-, -, huntrusted⟩ := restoreBackup_takes_good_entries restoringMachine rfl ⟨⟨.ofNatLE 32 4⟩⟩
  have hdata : restoringKey.decrypt backedUpData = .ok (importOf backedUpSession firstRoom).key :=
    restoringKey.decrypt_encryptWith Suite.agrees_simple Suite.inverts_simple _ rfl
  have himported := hrestored.imported_eq
  have htotal := hrestored.total_eq
  rw [goodImports_placedTwice hdata] at himported
  rw [entries_placedTwice] at htotal
  refine ⟨⟨report, after, ?_, himported, htotal, congrArg MemoryStore.backupVersion hrestored.store_eq⟩, ?_⟩
  · refine (hlatest _ rfl (by decide +kernel)).trans ?_
    dsimp only
    rw [hrun]
    rfl
  · obtain ⟨e, hrefused⟩ := huntrusted fun version hversion => by
      obtain rfl := Except.ok.inj hversion
      decide +kernel
    exact congrArg Prod.snd hrefused

end RoomCrypt
