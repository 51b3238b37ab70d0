import RoomCrypt.Json.Embedded
import RoomCrypt.Json.Key
import RoomCrypt.Signatures

/-!
# Versions of a backup

What a server says about a backup: its version, its algorithm and, for the algorithm that we know,
the public key that room keys are encrypted for, with signatures over it. Members that we do not
know are kept, because they are signed too.
-/

namespace RoomCrypt.Backup

/-- The algorithm of the backups that we know. -/
def algorithmName : String := "m.megolm_backup.v1.curve25519-aes-sha2"

/-- What the owner of a backup has published and signed. -/
structure AuthData where
  /-- The key that room keys are encrypted for. -/
  publicKey : Curve25519Key
  signatures : Signatures
  /-- All other members. -/
  extra : Dict Json

namespace AuthData

/-- The data of a key and its signatures. -/
def ofKey (publicKey : Curve25519Key) (signatures : Signatures) : AuthData :=
  ⟨publicKey, signatures, .empty⟩

/-- The data as a value. -/
def toJson (data : AuthData) : Json :=
  .object (("public_key", data.publicKey.toJson) :: ("signatures", data.signatures.toJson) ::
    data.extra.entries)

/-- The names of the members that we know. -/
def fieldNames : List String := ["public_key", "signatures"]

/-- Read the data. -/
def ofJson? : Json → Option AuthData
  | .object members => do
    let record ← Json.members? fieldNames members
    let extra ← Json.normalMembers? (members.filter fun (name, _) => name ∉ fieldNames)
    some {
      publicKey := ← record.required? "public_key" Curve25519Key.ofJson?
      signatures := ← record.withDefault? "signatures" .empty Signatures.ofJson?
      extra := .ofList extra }
  | _ => none

instance : ToJson AuthData := ⟨toJson⟩

instance : OfJson AuthData := ⟨ofJson?⟩

end AuthData

/-- The algorithm of a backup and its data. -/
inductive Info where
  /-- A backup of the algorithm that we know. -/
  | known (data : AuthData)
  /-- A backup of any other algorithm. -/
  | other (algorithm : String) (data : Dict Json)

namespace Info

/-- The name of the algorithm. -/
def algorithm : Info → String
  | known _ => algorithmName
  | other algorithm _ => algorithm

/-- Is the algorithm the one that we know? -/
def isKnown : Info → Bool
  | known _ => true
  | other _ _ => false

/-- The data as a value. -/
def dataJson : Info → Json
  | known data => data.toJson
  | other _ data => .ofDict data

/-- The names of the record. -/
def fieldNames : List String := ["algorithm", "auth_data"]

/-- The members of the record. -/
def toMembers (info : Info) : List (String × Json) :=
  [("algorithm", .text info.algorithm), ("auth_data", info.dataJson)]

/-- The record as a value. -/
def toJson (info : Info) : Json := .object info.toMembers

/-- Read the members of the record. In the data of the backup the last of repeated members
counts. -/
def ofRecord? (record : Json.Record) : Option Info := do
  let algorithm ← record.required? "algorithm" Json.text?
  let data ← record.required? "auth_data" Json.normal?
  if algorithm = algorithmName then (AuthData.ofJson? data).map known
  else
    match data with
    | .object members => (Json.normalMembers? members).map fun ms => other algorithm (.ofList ms)
    | _ => none

/-- Read the record. -/
def ofJson? (value : Json) : Option Info := do
  ofRecord? (← value.record? fieldNames)

instance : ToJson Info := ⟨toJson⟩

instance : OfJson Info := ⟨ofJson?⟩

end Info

/-- A version of a backup. -/
structure Version where
  version : String
  info : Info
  /-- How many keys the backup has. -/
  count : Option UInt64
  /-- A text that changes with the content of the backup. -/
  etag : Option String

namespace Version

/-- The version as a value. The members of its algorithm and data stand beside the others. -/
def toJson (version : Version) : Json :=
  .objectOfOptions
    (("version", some (.text version.version)) ::
      version.info.toMembers.map (fun (name, value) => (name, some value)) ++
      [("count", version.count.map fun n => .ofNat n.toNat), ("etag", version.etag.map .text)])

/-- The names of the members that we know. -/
def fieldNames : List String := ["version", "count", "etag"] ++ Info.fieldNames

/-- Read a version. -/
def ofJson? : Json → Option Version
  | .object members => do
    let record ← Json.members? fieldNames members
    let _ ← Json.collapseMembers? (members.filter fun (name, _) => name ∉ fieldNames)
    some {
      version := ← record.required? "version" Json.text?
      info := ← Info.ofRecord? record
      count := ← record.optional? "count" Json.uint64?
      etag := ← record.optional? "etag" Json.text? }
  | _ => none

instance : ToJson Version := ⟨toJson⟩

instance : OfJson Version := ⟨ofJson?⟩

end Version

end RoomCrypt.Backup
