import RoomCrypt.Backup.Encryption
import RoomCrypt.Machine.RoomKeys

/-!
# Restoring a backup

A backup is trusted if the recovery key opens it, or if the master key of the user or one of the
user's verified devices has signed it. Restoring it takes all room keys that can be read; the others
are counted.
-/

namespace RoomCrypt

open Store

variable [Suite]

/-- Why a backup is not trusted or cannot be restored. -/
inductive BackupError where
  /-- The algorithm is not the one that we know. -/
  | unsupportedAlgorithm (algorithm : String)
  /-- There is no valid signature of the user. -/
  | notTrusted (user : UserId)
  /-- The user's cross-signing keys are not known. -/
  | crossSigningKeysUnknown
  /-- A request to the server fails. -/
  | request (message : String)
  /-- The store fails. -/
  | store (error : StoreError)
deriving DecidableEq

/-- The text of an error, where there is one. -/
def BackupError.message? : BackupError → Option String
  | unsupportedAlgorithm algorithm =>
    some ("the key backup uses the unsupported algorithm " ++ algorithm)
  | notTrusted user =>
    some ("the key backup isn't trusted, no valid signature of " ++ user.text ++ " was found")
  | crossSigningKeysUnknown =>
    some "our own cross-signing keys aren't cached, can't check the backup signatures"
  | request message => some ("failed to fetch the key backup: " ++ message)
  | store error => error.message?

/-- The word for an error. -/
def BackupError.kind : BackupError → String
  | unsupportedAlgorithm _ => "UnsupportedBackupAlgorithm"
  | notTrusted _ => "BackupNotTrusted"
  | crossSigningKeysUnknown => "CrossSigningKeysNotCached"
  | request _ => "Client"
  | store error => "Store." ++ error.kind

instance : Failure BackupError := ⟨BackupError.kind, BackupError.message?⟩

namespace MachineState

/-- The key that a signature of the user counts under: the master key, or the key of a verified
device. -/
def trustedKey? (state : MachineState) (keys : CrossSigningKeys) (keyId : String) :
    Except StoreError (Option Ed25519Key) := do
  if keyAlgorithm keyId ≠ signingAlgorithm then pure none
  else if keys.isMasterKey (keyName keyId) then pure (some keys.masterKey)
  else
    match ← state.backend.device? state.machine.user (keyName keyId) with
    | none => pure none
    | some device =>
      pure (if (state.trust.get device.trust).isVerified then some device.signingKey else none)

/-- Is an object signed by one of the keys of the user that count? The keys are tried in turn. -/
def isSignedByAny (state : MachineState) (keys : CrossSigningKeys) (signed : Json) :
    List String → Except StoreError Bool
  | [] => pure false
  | keyId :: rest => do
    match ← state.trustedKey? keys keyId with
    | none => state.isSignedByAny keys signed rest
    | some key =>
      if signed.isSignedBy state.machine.user keyId key then pure true
      else state.isSignedByAny keys signed rest

/-- Check that the data of a backup is signed by a key that counts. -/
def verifySignatures (state : MachineState) (data : Backup.AuthData) : Except BackupError Unit :=
  let user := state.machine.user
  match data.signatures.ofUser? user with
  | none => .error (.notTrusted user)
  | some entries => do
    match ← state.backend.crossSigning?.mapError .store with
    | none => .error .crossSigningKeysUnknown
    | some keys =>
      if ← (state.isSignedByAny keys data.toJson entries.keys).mapError .store then .ok ()
      else .error (.notTrusted user)

/-- Check that a backup is trusted. The recovery key that opens it is enough. -/
def verifyBackup (state : MachineState) (info : Backup.Info)
    (recoveryKey : Option Backup.RecoveryKey) : Except BackupError Unit :=
  match info with
  | .other algorithm _ => .error (.unsupportedAlgorithm algorithm)
  | .known data =>
    if recoveryKey.any (·.publicKey.same data.publicKey) then .ok ()
    else state.verifySignatures data

/-- The latest version of the backup, if it is trusted. -/
def latestBackup (state : MachineState) (recoveryKey : Option Backup.RecoveryKey) :
    Except BackupError Backup.Version := do
  let version ← state.server.latest.mapError .request
  state.verifyBackup version.info recoveryKey
  pure version

end MachineState

/-- What has become of the entries of a backup. -/
structure RestoreReport where
  /-- How many room keys were taken. -/
  imported : Nat := 0
  /-- How many could not be read or taken. -/
  failed : Nat := 0
  /-- The sessions of the room keys that were taken, by room and by the text of the sender key. -/
  keys : Dict (Dict (List String)) := .empty

namespace RestoreReport

/-- How many entries there were. -/
def total (report : RestoreReport) : Nat :=
  report.imported + report.failed

/-- Count a room key that was taken. -/
def addImported (report : RestoreReport) (room : RoomId) (sender sessionId : String) :
    RestoreReport :=
  let senders := (report.keys.find? room.text).getD .empty
  let sessionIds := (senders.find? sender).getD []
  { report with
    imported := report.imported + 1
    keys := report.keys.insert room.text (senders.insert sender (sessionIds ++ [sessionId])) }

/-- Count an entry that failed. -/
def addFailed (report : RestoreReport) : RestoreReport :=
  { report with failed := report.failed + 1 }

instance : ToJson RestoreReport where
  toJson report := .object
    [("imported", toJson report.imported), ("failed", toJson report.failed),
      ("total", toJson report.total), ("keys", toJson report.keys)]

end RestoreReport

namespace Machine

/-- Ask the server for the content of a version. -/
def fetchContent (version : String) : Task BackupError Backup.Content := do
  let state ← get
  set
    { state with server := { state.server with requests := state.server.requests + 1 } }
  Task.ofExcept ((state.server.content version).mapError .request)

/-- Take the room key of an entry, if it can be read and taken. -/
def restoreEntry (version : String) (recoveryKey : Backup.RecoveryKey) (room : RoomId)
    (sessionId : String) (entry : Backup.Entry) (report : RestoreReport) :
    StateM MachineState RestoreReport := do
  match recoveryKey.decrypt entry.data with
  | .error _ => pure report.addFailed
  | .ok roomKey =>
    match ← (importRoomKey version room sessionId roomKey).run with
    | .error _ => pure report.addFailed
    | .ok session =>
      pure (report.addImported room session.senderKey.toBase64 sessionId)

/-- Take the room keys of entries, one after the other. -/
def restoreEntries (version : String) (recoveryKey : Backup.RecoveryKey) :
    List (RoomId × String × Backup.Entry) → RestoreReport → StateM MachineState RestoreReport
  | [], report => pure report
  | (room, sessionId, entry) :: rest, report => do
    let report ← restoreEntry version recoveryKey room sessionId entry report
    restoreEntries version recoveryKey rest report

/-- Take the room keys of a version of a backup, be it trusted or not. -/
def restoreBackup (version : String) (recoveryKey : Backup.RecoveryKey) :
    Task BackupError RestoreReport := do
  let content ← fetchContent version
  let report ← restoreEntries version recoveryKey content.entries {}
  (save { backupVersion := some version }).wrap .store
  pure report

/-- Take the room keys of the latest version of the backup, if it is trusted. -/
def restoreLatestBackup (recoveryKey : Backup.RecoveryKey) :
    Task BackupError (String × RestoreReport) := do
  let version ← Task.ofState (·.latestBackup (some recoveryKey))
  let report ← restoreBackup version.version recoveryKey
  pure (version.version, report)

end Machine

end RoomCrypt
