import RoomCrypt.Machine.Backup
import RoomCrypt.Proofs.Backup.Signatures
import RoomCrypt.Proofs.Laws
import RoomCrypt.Proofs.Machine.Calls

/-!
# When a backup is trusted

The rule says which backups are trusted, and why others are not. It knows no order in which signatures are
tried. A signature counts under the master key, or under the key of a verified device of the user; all others
are as if they were not there. What a machine answers is what the rule says.
-/

namespace RoomCrypt

open Store

section

variable [Suite]

/-- A recovery key opens the backup with these data: its public key is the one that room keys are encrypted
for, be it written alike or not. -/
def Backup.AuthData.OpenedBy (data : AuthData) (recoveryKey : Option RecoveryKey) : Prop :=
  ∃ key ∈ recoveryKey, key.publicKey.element = data.publicKey.element

theorem Backup.AuthData.any_same_iff {data : AuthData} {recoveryKey : Option RecoveryKey} :
    recoveryKey.any (·.publicKey.same data.publicKey) = true ↔ data.OpenedBy recoveryKey := by
  cases recoveryKey <;> simp [OpenedBy]

omit [Suite] in
theorem CrossSigningKeys.isMasterKey_iff (keys : CrossSigningKeys) {name : String} :
    keys.isMasterKey name = true ↔ name = keys.masterKey.toBase64 := by
  unfold isMasterKey
  rw [beq_iff_eq, eq_comm]

namespace MachineState

/-- The key that signatures under a key identifier count under: the master key if the identifier has its text as
the name, and otherwise the key of the verified device of the user that has the name. -/
inductive Counts (state : MachineState) (keys : CrossSigningKeys) (keyId : String) : Ed25519Key → Prop where
  | master (halgorithm : keyAlgorithm keyId = signingAlgorithm) (hname : keyName keyId = keys.masterKey.toBase64) :
      Counts state keys keyId keys.masterKey
  | device {device : Device (Slot DeviceTrust)} (halgorithm : keyAlgorithm keyId = signingAlgorithm)
      (hname : keyName keyId ≠ keys.masterKey.toBase64)
      (hstored : state.backend.store.device? state.machine.user (keyName keyId) = some device)
      (hverified : (state.trust.get device.trust).isVerified = true) : Counts state keys keyId device.signingKey

omit [Suite] in
/-- Signatures count under identifiers of the algorithm that we know. -/
theorem Counts.algorithm {state : MachineState} {keys : CrossSigningKeys} {keyId : String} {key : Ed25519Key}
    (h : state.Counts keys keyId key) : keyAlgorithm keyId = signingAlgorithm := by
  cases h with
  | master halgorithm _ => exact halgorithm
  | device halgorithm _ _ _ => exact halgorithm

/-- The data of a backup hold a signature of the user that verifies under the key that it counts under. -/
def OwnSigned (state : MachineState) (keys : CrossSigningKeys) (data : Backup.AuthData) : Prop :=
  ∃ keyId key, state.Counts keys keyId key ∧ data.SignedWith state.machine.user keyId key

/-- The rule: what is answered to the question whether a backup is trusted. -/
inductive TrustRule (state : MachineState) (recoveryKey : Option Backup.RecoveryKey) :
    Backup.Info → Except BackupError Unit → Prop where
  | unsupported (algorithm : String) (data : Dict Json) :
      TrustRule state recoveryKey (.other algorithm data) (.error (.unsupportedAlgorithm algorithm))
  | opened {data : Backup.AuthData} (hopened : data.OpenedBy recoveryKey) :
      TrustRule state recoveryKey (.known data) (.ok ())
  | unsigned {data : Backup.AuthData} (hopened : ¬ data.OpenedBy recoveryKey)
      (hentries : data.signatures.ofUser? state.machine.user = none) :
      TrustRule state recoveryKey (.known data) (.error (.notTrusted state.machine.user))
  | keysUnknown {data : Backup.AuthData} (hopened : ¬ data.OpenedBy recoveryKey)
      (hentries : (data.signatures.ofUser? state.machine.user).isSome)
      (hkeys : state.backend.store.crossSigning = none) :
      TrustRule state recoveryKey (.known data) (.error .crossSigningKeysUnknown)
  | signed {data : Backup.AuthData} {keys : CrossSigningKeys} (hopened : ¬ data.OpenedBy recoveryKey)
      (hentries : (data.signatures.ofUser? state.machine.user).isSome)
      (hkeys : state.backend.store.crossSigning = some keys) (hsigned : state.OwnSigned keys data) :
      TrustRule state recoveryKey (.known data) (.ok ())
  | forged {data : Backup.AuthData} {keys : CrossSigningKeys} (hopened : ¬ data.OpenedBy recoveryKey)
      (hentries : (data.signatures.ofUser? state.machine.user).isSome)
      (hkeys : state.backend.store.crossSigning = some keys) (hsigned : ¬ state.OwnSigned keys data) :
      TrustRule state recoveryKey (.known data) (.error (.notTrusted state.machine.user))

/-- Data that differ at most in signatures that do not count. -/
structure SameForRule (state : MachineState) (data other : Backup.AuthData) : Prop where
  publicKey_eq : data.publicKey = other.publicKey
  signedText?_eq : data.signedText? = other.signedText?
  listed : (data.signatures.ofUser? state.machine.user).isSome = (other.signatures.ofUser? state.machine.user).isSome
  signature?_eq : ∀ keys keyId key, state.backend.store.crossSigning = some keys → state.Counts keys keyId key →
    data.signature? state.machine.user keyId = other.signature? state.machine.user keyId

variable {state : MachineState} {keys : CrossSigningKeys} {data : Backup.AuthData}
  {recoveryKey : Option Backup.RecoveryKey}

omit [Suite] in
/-- The key that signatures count under is found, unless the store fails. -/
theorem trustedKey?_spec (hworks : state.backend.outage .device = none) (keys : CrossSigningKeys) (keyId : String) :
    ∃ found, state.trustedKey? keys keyId = .ok found ∧ ∀ key, found = some key ↔ state.Counts keys keyId key := by
  unfold trustedKey?
  by_cases halgorithm : keyAlgorithm keyId = signingAlgorithm
  · rw [if_neg (not_not.mpr halgorithm)]
    by_cases hname : keyName keyId = keys.masterKey.toBase64
    · rw [if_pos (keys.isMasterKey_iff.mpr hname)]
      refine ⟨_, rfl, fun key => ⟨fun h => Option.some.inj h ▸ .master halgorithm hname, fun h => ?_⟩⟩
      cases h with
      | master _ _ => rfl
      | device _ hother _ _ => exact absurd hname hother
    · rw [if_neg (mt keys.isMasterKey_iff.mp hname)]
      unfold Backend.device? Backend.attempt
      rw [hworks]
      cases hstored : state.backend.store.device? state.machine.user (keyName keyId) with
      | none =>
        refine ⟨none, rfl, fun key => ⟨nofun, fun h => ?_⟩⟩
        cases h with
        | master _ hmaster => exact absurd hmaster hname
        | device _ _ hdevice _ => cases hstored.symm.trans hdevice
      | some device =>
        refine ⟨_, rfl, fun key => ⟨fun h => ?_, fun h => ?_⟩⟩
        · obtain ⟨hverified, hkey⟩ := Option.ite_none_right_eq_some.mp h
          exact Option.some.inj hkey ▸ .device halgorithm hname hstored hverified
        · cases h with
          | master _ hmaster => exact absurd hmaster hname
          | device _ _ hdevice hverified =>
            obtain rfl := Option.some.inj (hstored.symm.trans hdevice)
            exact if_pos hverified
  · rw [if_pos halgorithm]
    refine ⟨none, rfl, fun key => ⟨nofun, fun h => ?_⟩⟩
    cases h with
    | master hknown _ => exact absurd hknown halgorithm
    | device hknown _ _ _ => exact absurd hknown halgorithm

/-- The search through key identifiers tells whether there is a signature that counts under one of them. -/
theorem isSignedByAny_spec (hworks : state.backend.outage .device = none) (keys : CrossSigningKeys)
    (data : Backup.AuthData) (keyIds : List String) :
    ∃ found, state.isSignedByAny keys data.toJson keyIds = .ok found ∧
      (found = true ↔ ∃ keyId ∈ keyIds, ∃ key, state.Counts keys keyId key ∧
        data.SignedWith state.machine.user keyId key) := by
  induction keyIds with
  | nil => exact ⟨false, rfl, by simp⟩
  | cons keyId keyIds ih =>
    obtain ⟨rest, hrest, hiff⟩ := ih
    obtain ⟨trusted, htrusted, hcounts⟩ := trustedKey?_spec hworks keys keyId
    unfold isSignedByAny
    rw [htrusted]
    simp only [List.mem_cons, exists_eq_or_imp, ← hiff, ← hcounts]
    cases trusted with
    | none => exact ⟨rest, hrest, by simp⟩
    | some key =>
      by_cases hsigned : data.SignedWith state.machine.user keyId key
      · refine ⟨true, ?_, by simp [hsigned]⟩
        have halgorithm := ((hcounts key).mp rfl).algorithm
        exact if_pos (Backup.AuthData.isSignedBy_iff.mpr ⟨halgorithm, hsigned⟩)
      · refine ⟨rest, ?_, by simp [hsigned]⟩
        exact (if_neg fun h => hsigned (Backup.AuthData.isSignedBy_iff.mp h).2).trans hrest

/-- A machine that knows the cross-signing keys looks for a signature that counts. -/
theorem verifySignatures_of_keys (hworks : ∀ call, state.backend.outage call = none)
    (hentries : (data.signatures.ofUser? state.machine.user).isSome)
    (hkeys : state.backend.store.crossSigning = some keys) :
    (state.OwnSigned keys data → state.verifySignatures data = .ok ()) ∧
      (¬ state.OwnSigned keys data → state.verifySignatures data = .error (.notTrusted state.machine.user)) := by
  obtain ⟨entries, hentries⟩ := Option.isSome_iff_exists.mp hentries
  obtain ⟨found, hfound, hiff⟩ := isSignedByAny_spec (hworks .device) keys data entries.keys
  -- A signature that verifies stands in the list.
  replace hiff : found = true ↔ state.OwnSigned keys data := by
    rw [hiff]
    refine ⟨fun ⟨keyId, _, key, h⟩ => ⟨keyId, key, h⟩, fun ⟨keyId, key, hcounts, hsigned⟩ => ?_⟩
    refine ⟨keyId, ?_, key, hcounts, hsigned⟩
    obtain ⟨signature, _, hsignature, _⟩ := hsigned
    unfold Backup.AuthData.signature? at hsignature
    rw [hentries, Option.bind_some] at hsignature
    obtain ⟨entry, hentry, -⟩ := Option.bind_eq_some_iff.mp hsignature
    exact Dict.mem_keys.mpr (Option.isSome_iff_exists.mpr ⟨entry, hentry⟩)
  have hrun : state.verifySignatures data =
      if found then .ok () else .error (.notTrusted state.machine.user) := by
    unfold verifySignatures Backend.crossSigning? Backend.attempt
    rw [hworks]
    simp only [hentries, hkeys, Except.mapError, bind, Except.bind, hfound]
  rw [hrun]
  exact ⟨fun h => if_pos (hiff.mpr h), fun h => if_neg (mt hiff.mp h)⟩

/-- What the rule says is answered. -/
theorem TrustRule.verifyBackup_eq (hworks : ∀ call, state.backend.outage call = none) {info : Backup.Info}
    {verdict : Except BackupError Unit} (h : state.TrustRule recoveryKey info verdict) :
    state.verifyBackup info recoveryKey = verdict := by
  unfold verifyBackup
  cases h with
  | unsupported algorithm data => rfl
  | opened hopened => exact if_pos (Backup.AuthData.any_same_iff.mpr hopened)
  | unsigned hopened hentries =>
    refine (if_neg (mt Backup.AuthData.any_same_iff.mp hopened)).trans ?_
    unfold verifySignatures
    simp only [hentries]
  | keysUnknown hopened hentries hkeys =>
    obtain ⟨entries, hentries⟩ := Option.isSome_iff_exists.mp hentries
    refine (if_neg (mt Backup.AuthData.any_same_iff.mp hopened)).trans ?_
    unfold verifySignatures Backend.crossSigning? Backend.attempt
    rw [hworks]
    simp only [hentries, hkeys, Except.mapError, bind, Except.bind]
  | signed hopened hentries hkeys hsigned =>
    exact (if_neg (mt Backup.AuthData.any_same_iff.mp hopened)).trans
      ((verifySignatures_of_keys hworks hentries hkeys).1 hsigned)
  | forged hopened hentries hkeys hsigned =>
    exact (if_neg (mt Backup.AuthData.any_same_iff.mp hopened)).trans
      ((verifySignatures_of_keys hworks hentries hkeys).2 hsigned)

/-- The rule says something about every backup. -/
theorem exists_trustRule (state : MachineState) (recoveryKey : Option Backup.RecoveryKey) (info : Backup.Info) :
    ∃ verdict, state.TrustRule recoveryKey info verdict := by
  cases info with
  | other algorithm data => exact ⟨_, .unsupported algorithm data⟩
  | known data =>
    by_cases hopened : data.OpenedBy recoveryKey
    · exact ⟨_, .opened hopened⟩
    cases hentries : data.signatures.ofUser? state.machine.user with
    | none => exact ⟨_, .unsigned hopened hentries⟩
    | some entries =>
      have hlisted := Option.isSome_iff_exists.mpr ⟨entries, hentries⟩
      cases hkeys : state.backend.store.crossSigning with
      | none => exact ⟨_, .keysUnknown hopened hlisted hkeys⟩
      | some keys =>
        by_cases hsigned : state.OwnSigned keys data
        · exact ⟨_, .signed hopened hlisted hkeys hsigned⟩
        · exact ⟨_, .forged hopened hlisted hkeys hsigned⟩

/-- Signatures that do not count do not make data signed. -/
theorem SameForRule.ownSigned_iff {other : Backup.AuthData} (h : state.SameForRule data other)
    (hkeys : state.backend.store.crossSigning = some keys) :
    state.OwnSigned keys data ↔ state.OwnSigned keys other := by
  refine exists_congr fun keyId => exists_congr fun key => and_congr_right fun hcounts => ?_
  exact Backup.AuthData.SignedWith.congr h.signedText?_eq (h.signature?_eq keys keyId key hkeys hcounts)

/-- Nor does the rule see them. -/
theorem TrustRule.of_sameForRule {other : Backup.AuthData} (h : state.SameForRule data other)
    {verdict : Except BackupError Unit} (hrule : state.TrustRule recoveryKey (.known data) verdict) :
    state.TrustRule recoveryKey (.known other) verdict := by
  have hopened_iff : data.OpenedBy recoveryKey ↔ other.OpenedBy recoveryKey := by
    unfold Backup.AuthData.OpenedBy
    rw [h.publicKey_eq]
  cases hrule with
  | opened hopened => exact .opened (hopened_iff.mp hopened)
  | unsigned hopened hentries =>
    have hlisted := h.listed.symm.trans (congrArg Option.isSome hentries)
    exact .unsigned (mt hopened_iff.mpr hopened) (Option.isSome_eq_false_iff.mp hlisted |> Option.isNone_iff_eq_none.mp)
  | keysUnknown hopened hentries hkeys =>
    exact .keysUnknown (mt hopened_iff.mpr hopened) (h.listed.symm.trans hentries) hkeys
  | signed hopened hentries hkeys hsigned =>
    exact .signed (mt hopened_iff.mpr hopened) (h.listed.symm.trans hentries) hkeys
      ((h.ownSigned_iff hkeys).mp hsigned)
  | forged hopened hentries hkeys hsigned =>
    exact .forged (mt hopened_iff.mpr hopened) (h.listed.symm.trans hentries) hkeys
      (mt (h.ownSigned_iff hkeys).mpr hsigned)

/-- A machine whose store does not fail answers what the rule says, and answers the same for backups that differ
only in signatures that do not count: those of other users, of other algorithms, and of devices that are not
known or not verified. -/
theorem verifyBackup_eq_iff_trustRule (state : MachineState) (hworks : ∀ call, state.backend.outage call = none)
    (recoveryKey : Option Backup.RecoveryKey) :
    (∀ info verdict, state.verifyBackup info recoveryKey = verdict ↔ state.TrustRule recoveryKey info verdict) ∧
      ∀ data other, state.SameForRule data other →
        state.verifyBackup (.known data) recoveryKey = state.verifyBackup (.known other) recoveryKey := by
  have hanswer (info : Backup.Info) : state.TrustRule recoveryKey info (state.verifyBackup info recoveryKey) := by
    obtain ⟨verdict, hrule⟩ := exists_trustRule state recoveryKey info
    rwa [hrule.verifyBackup_eq hworks]
  constructor
  · rintro info verdict
    constructor
    · rintro rfl
      exact hanswer info
    · exact TrustRule.verifyBackup_eq hworks
  · intro data other hsame
    exact ((hanswer (.known data)).of_sameForRule hsame |>.verifyBackup_eq hworks).symm

end MachineState

end

open scoped Suite.Evaluation

/-- A machine that knows the master key of its user and a verified device. -/
def trustingMachine : MachineState :=
  let device : Device (Slot DeviceTrust) :=
    ⟨evaluationUser, "DEVICE", Suite.signingKey ⟨.ofNatLE 32 1⟩, ⟨.ofNatLE 32 2⟩, ⟨0⟩⟩
  let store : MemoryStore := { crossSigning := some ⟨evaluationUser, Suite.signingKey ⟨.ofNatLE 32 3⟩⟩ }
  { MachineState.boot evaluationUser (store.saveDevice device) with trust := ⟨[⟨.verified, false⟩]⟩ }

/-- The data of a backup with signatures. -/
def backupWith (signatures : Signatures) : Backup.AuthData :=
  .ofKey ⟨.ofNatLE 32 4⟩ signatures

/-- The signature of the device. -/
def deviceSignatures : Signatures :=
  (Signatures.empty.add evaluationUser "ed25519:DEVICE"
    (Suite.sign ⟨.ofNatLE 32 1⟩ ((backupWith .empty).signedText?.getD "").toUTF8.toList)).2

/-- Another user, whose signatures do not count. -/
def otherUser : UserId := ⟨"@other:server", by decide⟩

/-- The backup is trusted for the signature of the device, and it still is when another user has added one. -/
theorem verifyBackup_eq_iff_trustRule_device :
    let signatures := (deviceSignatures.add otherUser "ed25519:DEVICE" ⟨.ofNatLE 64 5⟩).2
    trustingMachine.TrustRule none (.known (backupWith deviceSignatures)) (.ok ()) ∧
      trustingMachine.verifyBackup (.known (backupWith signatures)) none = .ok () := by
  intro signatures
  obtain ⟨hrule, hsame⟩ := trustingMachine.verifyBackup_eq_iff_trustRule (fun _ => rfl) none
  have htrusted : trustingMachine.verifyBackup (.known (backupWith deviceSignatures)) none = .ok () := by
    decide +kernel
  have hown : signatures.ofUser? evaluationUser = deviceSignatures.ofUser? evaluationUser :=
    Dict.find?_insert_of_ne _ (by decide) _
  have hothers : trustingMachine.SameForRule (backupWith deviceSignatures) (backupWith signatures) :=
    { publicKey_eq := rfl
      signedText?_eq := rfl
      listed := congrArg Option.isSome hown.symm
      signature?_eq := fun _ keyId _ _ _ =>
        congrArg (·.bind fun entries => (entries.find? keyId).bind Signature.held?) hown.symm }
  exact ⟨(hrule _ _).mp htrusted, (hsame _ _ hothers).symm.trans htrusted⟩

end RoomCrypt
