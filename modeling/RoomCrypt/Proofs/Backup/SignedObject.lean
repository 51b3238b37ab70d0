import RoomCrypt.Proofs.Backup.Signatures
import RoomCrypt.Proofs.Json.Collapse
import RoomCrypt.Proofs.Laws

/-!
# The object that a backup's signatures are made over

The signatures of a backup are checked over the data written again, not over the text that was received. The data are
written as the object that they were read from, with members that we do not know as they were, missing signatures as
none and each signature that can be read without padding: the signed text is that of the object, and a key has signed
the one exactly if it has signed the other. This is so but for embedded values: reading puts them in their places, so
that an object which holds one is written as another object.
-/

namespace RoomCrypt

namespace Signature

/-- The text of an entry after a readable signature of the algorithm that we know was brought into its unpadded form. -/
def respell (keyId text : String) : String :=
  if keyAlgorithm keyId = signingAlgorithm then
    ((Ed25519Signature.ofBase64? text).map Ed25519Signature.toBase64).getD text
  else text

/-- That is the text of the entry that is read. -/
theorem toBase64_ofText (keyId text : String) : (ofText keyId text).toBase64 = respell keyId text := by
  unfold ofText respell
  split
  · cases Ed25519Signature.ofBase64? text <;> rfl
  · rfl

/-- It holds the same signature, if it holds one. -/
theorem ofBase64?_respell (keyId text : String) :
    Ed25519Signature.ofBase64? (respell keyId text) = Ed25519Signature.ofBase64? text := by
  unfold respell
  split
  · cases h : Ed25519Signature.ofBase64? text with
    | none => exact h
    | some signature => exact signature.ofBase64?_toBase64
  · rfl

end Signature

namespace Json

/-- An object with other texts. -/
def mapTexts (f : String → String → String) : Json → Json
  | .object members => .object (members.map fun (name, value) =>
      (name, match value with
        | .text content => .text (f name content)
        | other => other))
  | other => other

/-- A list of signatures with each readable one of the algorithm that we know in its unpadded form. -/
def respelled : Json → Json
  | .object users => .object (users.map fun (user, entries) => (user, entries.mapTexts Signature.respell))
  | other => other

end Json

namespace Signatures

/-- The texts of a list of signatures, by user and key, as a value. -/
def textsJson (texts : Dict (Dict String)) : Json :=
  .ofDict (texts.map fun entries => .ofDict (entries.map .text))

/-- The texts with each readable signature of the algorithm that we know in its unpadded form. -/
theorem respelled_textsJson (texts : Dict (Dict String)) : (textsJson texts).respelled =
    .ofDict (texts.map fun entries => .ofDict
      (entries.mapEntries fun keyId text => .text (Signature.respell keyId text))) := by
  simp only [textsJson, Json.respelled, Json.mapTexts, Json.ofDict, Dict.map, Dict.mapEntries, List.map_map,
    Function.comp_def]

/-- A list of signatures is read from its texts, which are what it is collapsed to. -/
theorem exists_texts {value : Json} {signatures : Signatures} (h : ofJson? value = some signatures) :
    ∃ texts, value.collapse? = some (textsJson texts) ∧ signatures.toJson = (textsJson texts).respelled := by
  have hentries : entriesOfJson? = fun value =>
      (value.dict? isKeyId Json.text?).map fun entries => entries.mapEntries Signature.ofText := by
    funext value
    cases h : value.dict? isKeyId Json.text? <;> simp [entriesOfJson?, h]
  obtain ⟨users, husers, rfl⟩ := Option.map_eq_some_iff.mp h
  rw [hentries] at husers
  obtain ⟨texts, htexts, rfl⟩ := Json.dict?_map husers
  refine ⟨texts, ?_, ?_⟩
  · have htext (value : Json) (text : String) (hread : value.text? = some text) :
        value.collapse? = some (.text text) := by
      cases value with
      | text content => exact congrArg (some ∘ Json.text) (Option.some.inj hread)
      | _ => cases hread
    exact Json.collapse?_of_dict? (fun _ _ hread => Json.collapse?_of_dict? htext hread) htexts
  · rw [respelled_textsJson]
    simp only [toJson, Json.ofDict, Dict.map, Dict.mapEntries, List.map_map, Function.comp_def,
      Signature.toBase64_ofText]

end Signatures

namespace Json

/-- A member of a name that is not repeated is the first one and the last one of its name. -/
theorem lookup?_of_uniqueMember? {name : String} {members : List (String × Json)} {found : Option Json}
    (h : uniqueMember? name members = some found) :
    Dict.lookup? name members = found ∧ Dict.lookup? name members.reverse = found := by
  have hfilter (list : List (String × Json)) :
      Dict.lookup? name list = Dict.lookup? name (list.filter fun member => member.1 = name) := by
    rw [Dict.lookup?_filter (fun other => other = name), if_pos (decide_eq_true rfl)]
  rw [hfilter, hfilter members.reverse, List.filter_reverse]
  unfold uniqueMember? at h
  split at h
  · next hnone =>
    cases h
    rw [hnone]
    exact ⟨rfl, rfl⟩
  · next other value hone =>
    cases h
    have hmember : (other, value) ∈ members.filter fun member => member.1 = name := hone ▸ List.mem_singleton_self _
    have hname : other = name := of_decide_eq_true (List.mem_filter.mp hmember).2
    rw [hone, List.reverse_singleton, Dict.lookup?, if_pos hname]
    exact ⟨rfl, rfl⟩
  · cases h

/-- It is the only member of its name. -/
theorem eq_of_uniqueMember? {name : String} {members : List (String × Json)} {found : Option Json} {value : Json}
    (h : uniqueMember? name members = some found) (hmember : (name, value) ∈ members) : found = some value := by
  have hfiltered : (name, value) ∈ members.filter fun member => member.1 = name :=
    List.mem_filter.mpr ⟨hmember, decide_eq_true rfl⟩
  unfold uniqueMember? at h
  split at h
  · next hnone =>
    rw [hnone] at hfiltered
    cases hfiltered
  · next other others hone =>
    rw [hone] at hfiltered
    cases h
    rw [(Prod.mk.inj (List.mem_singleton.mp hfiltered)).2]
  · cases h

/-- Each name of a record has the member that is found under it, which is not repeated. -/
theorem uniqueMember?_of_members? {names : List String} {members : List (String × Json)} {record : Record}
    (h : members? names members = some record) {name : String} (hname : name ∈ names) :
    uniqueMember? name members = some (record name) := by
  induction names generalizing record with
  | nil => cases hname
  | cons first names ih =>
    unfold members? at ih h
    rw [List.foldrM_cons] at h
    obtain ⟨others, hothers, hrecord⟩ := Option.bind_eq_some_iff.mp h
    obtain ⟨value, hvalue, rfl⟩ := Option.map_eq_some_iff.mp hrecord
    dsimp only
    by_cases hfirst : name = first
    · rw [if_pos hfirst, hfirst, hvalue]
    · rw [if_neg hfirst]
      exact ih hothers ((List.mem_cons.mp hname).resolve_left hfirst)

/-- The members of an object in normal form are those with embedded values put in place, collapsed. -/
theorem normalMembers?_eq (members : List (String × Json)) :
    normalMembers? members = collapseMembers? (members.map fun member => (member.1, member.2.expand)) := by
  induction members with
  | nil => rfl
  | cons member members ih =>
    obtain ⟨name, value⟩ := member
    unfold normalMembers? at ih ⊢
    rw [List.mapM_cons, ih, List.map_cons, collapseMembers?]
    dsimp only [normal?]
    cases value.expand.collapse? <;> rfl

end Json

namespace Backup.AuthData

variable {members : List (String × Json)} {data : AuthData} {sent : Dict Json}

/-- The members of an object with embedded values put in place, but for those that we know. -/
def putInPlace (members : List (String × Json)) : List (String × Json) :=
  members.map fun member => (member.1, if member.1 ∈ fieldNames then member.2 else member.2.expand)

/-- There is nothing to put in place in members that hold no embedded value. -/
theorem putInPlace_eq_self (h : ∀ member ∈ members, member.1 ∉ fieldNames → member.2.holdsNoEmbedding = true) :
    putInPlace members = members := by
  have hself : ∀ member ∈ members,
      (member.1, if member.1 ∈ fieldNames then member.2 else member.2.expand) = id member := by
    intro member hmember
    by_cases hname : member.1 ∈ fieldNames
    · rw [if_pos hname]
      rfl
    · rw [if_neg hname, Json.expand, Json.expandWith_eq_self _ (h member hmember hname)]
      rfl
  rw [putInPlace, List.map_congr_left hself, List.map_id]

/-- What reading finds among the members of an object: two members whose names are not repeated, and the others with
embedded values put in place. -/
structure Found (members : List (String × Json)) (data : AuthData) (keyValue listed : Option Json)
    (others : List (String × Json)) : Prop where
  key : Json.uniqueMember? "public_key" members = some keyValue
  list : Json.uniqueMember? "signatures" members = some listed
  rest : Json.collapseMembers? ((members.filter fun (name, _) => name ∉ fieldNames).map
    fun member => (member.1, member.2.expand)) = some others
  extra_eq : data.extra = .ofList others
  /-- Missing signatures are none. -/
  unlisted : listed = none → data.signatures = .empty
  /-- Signatures are collapsed to their texts. -/
  texts : ∀ value, listed = some value → ∃ texts, value.collapse? = some (Signatures.textsJson texts) ∧
    data.signatures.toJson = (Signatures.textsJson texts).respelled

/-- Data are read from what is found. -/
theorem exists_found (h : ofJson? (.object members) = some data) :
    ∃ keyValue listed others, Found members data keyValue listed others := by
  obtain ⟨record, hrecord, h⟩ := Option.bind_eq_some_iff.mp h
  obtain ⟨extra, hextra, h⟩ := Option.bind_eq_some_iff.mp h
  obtain ⟨publicKey, -, h⟩ := Option.bind_eq_some_iff.mp h
  obtain ⟨signatures, hsignatures, h⟩ := Option.bind_eq_some_iff.mp h
  obtain rfl := Option.some.inj h
  rw [Json.normalMembers?_eq] at hextra
  refine ⟨record "public_key", record "signatures", extra, ?_, ?_, hextra, rfl, ?_, ?_⟩
  · exact Json.uniqueMember?_of_members? hrecord (by decide)
  · exact Json.uniqueMember?_of_members? hrecord (by decide)
  · intro hnone
    rw [Json.Record.withDefault?, hnone] at hsignatures
    exact (Option.some.inj hsignatures).symm
  · intro value hvalue
    rw [Json.Record.withDefault?, hvalue] at hsignatures
    exact Signatures.exists_texts hsignatures

/-- The members that data are written as. -/
def written (data : AuthData) : List (String × Json) :=
  ("public_key", data.publicKey.toJson) :: ("signatures", data.signatures.toJson) :: data.extra.entries

theorem toJson_eq (data : AuthData) : data.toJson = .object data.written := rfl

/-- What was read is what the members of a collapsed object say. -/
structure ReadFrom (sent : Dict Json) (data : AuthData) : Prop where
  collapsed : ∀ name value, sent.find? name = some value → value.IsCollapsed
  publicKey_eq : sent.find? "public_key" = some data.publicKey.toJson
  signatures_eq : data.signatures.toJson = (sent.find? "signatures").elim (.object []) Json.respelled
  signatures_texts : ∀ value, sent.find? "signatures" = some value → ∃ texts, value = Signatures.textsJson texts
  extra_eq : ∀ name, data.extra.find? name = if name ∈ fieldNames then none else sent.find? name

variable {keyValue listed : Option Json} {others : List (String × Json)}

/-- An object can be collapsed if data are found in it, with embedded values put in place. -/
theorem Found.exists_collapseMembers? (h : Found members data keyValue listed others)
    (hkey : keyValue = some data.publicKey.toJson) :
    ∃ found, Json.collapseMembers? (putInPlace members) = some found := by
  apply Json.exists_collapseMembers?
  intro member hmember
  obtain ⟨⟨name, value⟩, hvalue, rfl⟩ := List.mem_map.mp hmember
  by_cases hname : name ∈ fieldNames
  · rw [if_pos hname]
    rcases List.mem_cons.mp hname with hkeyName | hsignaturesName
    · obtain rfl := hkeyName
      obtain rfl := Option.some.inj (hkey.symm.trans (Json.eq_of_uniqueMember? h.key hvalue))
      exact ⟨data.publicKey.toJson, rfl⟩
    · obtain rfl := List.mem_singleton.mp hsignaturesName
      obtain ⟨texts, hcollapse, -⟩ := h.texts value (Json.eq_of_uniqueMember? h.list hvalue)
      exact ⟨Signatures.textsJson texts, hcollapse⟩
  · rw [if_neg hname]
    have hkept : (name, value) ∈ members.filter fun (name, _) => name ∉ fieldNames :=
      List.mem_filter.mpr ⟨hvalue, decide_eq_true hname⟩
    exact Json.collapse?_of_mem h.rest (List.mem_map_of_mem hkept)

/-- The members that we do not know are found with embedded values put in place. -/
theorem Found.find?_extra (h : Found members data keyValue listed others) (name : String) : data.extra.find? name =
    if name ∈ fieldNames then none
    else (Dict.lookup? name members.reverse).bind fun value => value.expand.collapse? := by
  rw [h.extra_eq, Json.find?_collapsed_map (f := fun _ value => value.expand) h.rest, ← List.filter_reverse,
    Dict.lookup?_filter (fun name => name ∉ fieldNames)]
  by_cases hname : name ∈ fieldNames
  · rw [if_neg (by simpa using hname), if_pos hname, Option.bind_none]
  · rw [if_pos (by simpa using hname), if_neg hname]

/-- Data are read from the object that is collapsed after embedded values were put in place. -/
theorem Found.readFrom (h : Found members data keyValue listed others) (hkey : keyValue = some data.publicKey.toJson)
    {found : List (String × Json)} (hfound : Json.collapseMembers? (putInPlace members) = some found) :
    ReadFrom (.ofList found) data := by
  have hsent (name : String) : (Dict.ofList found).find? name = (Dict.lookup? name members.reverse).bind fun value =>
      (if name ∈ fieldNames then value else value.expand).collapse? :=
    Json.find?_collapsed_map (f := fun name value => if name ∈ fieldNames then value else value.expand) hfound name
  have hlast : (Dict.ofList found).find? "signatures" = listed.bind Json.collapse? := by
    rw [hsent, (Json.lookup?_of_uniqueMember? h.list).2]
    rfl
  refine ⟨?_, ?_, ?_, ?_, ?_⟩
  · intro name value hvalue
    rw [Json.find?_collapsed hfound] at hvalue
    obtain ⟨_, -, hcollapse⟩ := Option.bind_eq_some_iff.mp hvalue
    exact Json.isCollapsed_of_collapse? hcollapse
  · rw [hsent, (Json.lookup?_of_uniqueMember? h.key).2, hkey]
    rfl
  · rw [hlast]
    cases hvalue : listed with
    | none =>
      rw [h.unlisted hvalue]
      rfl
    | some value =>
      obtain ⟨texts, hcollapse, htoJson⟩ := h.texts value hvalue
      rw [Option.bind_some, hcollapse]
      exact htoJson
  · intro value hvalue
    rw [hlast] at hvalue
    obtain ⟨before, hbefore, hcollapse⟩ := Option.bind_eq_some_iff.mp hvalue
    obtain ⟨texts, htexts, -⟩ := h.texts before hbefore
    exact ⟨texts, Option.some.inj (hcollapse.symm.trans htexts)⟩
  · intro name
    rw [h.find?_extra, hsent]
    by_cases hname : name ∈ fieldNames
    · rw [if_pos hname, if_pos hname]
    · simp only [hname, if_false]

namespace ReadFrom

variable (h : ReadFrom sent data)

include h

/-- The members that we do not know are found in the object. -/
theorem mem_extra {member : String × Json} (hmember : member ∈ data.extra.entries) :
    member.1 ∉ fieldNames ∧ member.2.IsCollapsed := by
  have hfind : data.extra.find? member.1 = some member.2 := Dict.mem_entries.mp hmember
  rw [h.extra_eq] at hfind
  obtain ⟨hname, hsent⟩ := Option.ite_none_left_eq_some.mp hfind
  exact ⟨hname, h.collapsed _ _ hsent⟩

/-- The names of the written data are not repeated. -/
theorem nodup_names : (data.written.map (·.1)).Nodup := by
  have hother {name : String} (hname : name ∈ fieldNames) : name ∉ data.extra.keys := by
    rw [Dict.mem_keys, h.extra_eq, if_pos hname]
    simp
  have hkey : "public_key" ∉ "signatures" :: data.extra.keys := by
    rw [List.mem_cons, not_or]
    exact ⟨by decide, hother (by decide)⟩
  have hsignatures : "signatures" ∉ data.extra.keys := hother (by decide)
  exact List.nodup_cons.mpr ⟨hkey, List.nodup_cons.mpr ⟨hsignatures, data.extra.nodup_keys⟩⟩

/-- The members of the written data are collapsed. -/
theorem isCollapsed_of_mem {member : String × Json} (hmember : member ∈ data.written) : member.2.IsCollapsed := by
  rcases List.mem_cons.mp hmember with rfl | hmember
  · rfl
  · rcases List.mem_cons.mp hmember with rfl | hmember
    · refine Json.isCollapsed_ofDict fun user huser => ?_
      obtain ⟨⟨name, entries⟩, -, rfl⟩ := List.mem_map.mp huser
      refine Json.isCollapsed_ofDict fun entry hentry => ?_
      obtain ⟨⟨keyId, signature⟩, -, rfl⟩ := List.mem_map.mp hentry
      rfl
    · exact (h.mem_extra hmember).2

/-- What is found in the written data is found in the object, but for the signatures. -/
theorem lookup?_written (name : String) : Dict.lookup? name data.written =
    if name = "signatures" then some data.signatures.toJson else sent.find? name := by
  rw [written, Dict.lookup?, Dict.lookup?, ← Dict.find?]
  by_cases hsignatures : name = "signatures"
  · subst hsignatures
    rw [if_neg (by decide), if_pos rfl, if_pos rfl]
  · rw [if_neg hsignatures, if_neg (Ne.symm hsignatures)]
    by_cases hkey : name = "public_key"
    · rw [if_pos hkey.symm, hkey, h.publicKey_eq]
    · have hname : name ∉ fieldNames := by simp [fieldNames, hkey, hsignatures]
      rw [if_neg (Ne.symm hkey), h.extra_eq, if_neg hname]

/-- The data are written as the object that they were read from, but for the signatures: these are there, and each one
that can be read is in its unpadded form. -/
theorem collapse?_toJson : data.toJson.collapse? = some (.ofDict (sent.insert "signatures"
    ((sent.find? "signatures").elim (.object []) Json.respelled))) := by
  have hself := Json.collapseMembers?_self fun member hmember => h.isCollapsed_of_mem hmember
  have hsame : Dict.ofList data.written = sent.insert "signatures" data.signatures.toJson := by
    apply Dict.ext_find?
    intro name
    rw [Dict.find?_ofList h.nodup_names, h.lookup?_written, Dict.find?_insert]
  rw [toJson_eq, Json.collapse?, hself, Option.map_some, hsame, ← h.signatures_eq]

/-- The text that signatures are made over is that of the object. -/
theorem signedText?_toJson_eq : data.toJson.signedText? = (Json.ofDict sent).signedText? := by
  rw [toJson_eq]
  have hnames {list : List (String × Json)} (hlist : (list.map (·.1)).Nodup) :
      ((list.filter fun (name, _) => name ≠ "signatures" ∧ name ≠ "unsigned").map (·.1)).Nodup :=
    hlist.sublist (List.filter_sublist.map _)
  apply Json.canonical?_congr
  · intro member hmember
    exact h.isCollapsed_of_mem (List.mem_filter.mp hmember).1
  · intro member hmember
    exact h.collapsed _ _ (Dict.mem_entries.mp (List.mem_filter.mp hmember).1)
  · exact hnames h.nodup_names
  · exact hnames sent.nodup_keys
  · intro name
    rw [Dict.lookup?_filter (fun name => name ≠ "signatures" ∧ name ≠ "unsigned"),
      Dict.lookup?_filter (fun name => name ≠ "signatures" ∧ name ≠ "unsigned"), h.lookup?_written]
    by_cases hsignatures : name = "signatures"
    · simp [hsignatures]
    · simp only [hsignatures, if_false]
      rfl

/-- A signature that is found is that of the object. -/
theorem signature?_eq (user : UserId) (keyId : String) : data.signature? user keyId =
    (sent.find? "signatures").bind fun list => (list.member? user.text).bind fun entries =>
      (entries.member? keyId).bind fun value => value.text?.bind Ed25519Signature.ofBase64? := by
  have hmember : data.toJson.member? "signatures" = some data.signatures.toJson :=
    (h.lookup?_written "signatures").trans (if_pos rfl)
  rw [← signature?_toJson, Json.signature?, hmember, h.signatures_eq]
  cases hlist : sent.find? "signatures" with
  | none => rfl
  | some list =>
    obtain ⟨texts, rfl⟩ := h.signatures_texts list hlist
    have huser : (Signatures.textsJson texts).member? user.text =
        (texts.find? user.text).map fun entries => .ofDict (entries.map .text) :=
      Dict.find?_map _ texts user.text
    have huser' : (Signatures.textsJson texts).respelled.member? user.text = (texts.find? user.text).map fun entries =>
        .ofDict (entries.mapEntries fun keyId text => .text (Signature.respell keyId text)) := by
      rw [Signatures.respelled_textsJson]
      exact Dict.find?_map _ texts user.text
    rw [Option.elim_some, Option.bind_eq_bind, Option.bind_some, Option.bind_some, huser, huser']
    cases texts.find? user.text with
    | none => rfl
    | some entries =>
      have hentry : (Json.ofDict (entries.map Json.text)).member? keyId = (entries.find? keyId).map Json.text :=
        Dict.find?_map _ entries keyId
      have hentry' : (Json.ofDict (entries.mapEntries fun keyId text => .text (Signature.respell keyId text))).member?
          keyId = (entries.find? keyId).map fun text => .text (Signature.respell keyId text) :=
        Dict.find?_mapEntries _ entries keyId
      rw [Option.map_some, Option.map_some, Option.bind_eq_bind, Option.bind_some, Option.bind_some, hentry, hentry']
      cases entries.find? keyId with
      | none => rfl
      | some text =>
        simp only [Option.map_some, Option.bind_some, Json.text?, Signature.ofBase64?_respell]

/-- So a signature is found where the object has a text that one can be read from. -/
theorem signature?_eq_some_iff {user : UserId} {keyId : String} {signature : Ed25519Signature} :
    data.signature? user keyId = some signature ↔ ∃ list entries written, sent.find? "signatures" = some list ∧
      list.member? user.text = some entries ∧ entries.member? keyId = some (.text written) ∧
        Ed25519Signature.ofBase64? written = some signature := by
  have htext {value : Json} {written : String} : value.text? = some written ↔ value = .text written := by
    cases value <;> simp [Json.text?]
  simp only [h.signature?_eq, Option.bind_eq_some_iff, htext]
  constructor
  · rintro ⟨list, hlist, entries, hentries, value, hvalue, written, rfl, hread⟩
    exact ⟨list, entries, written, hlist, hentries, hvalue, hread⟩
  · rintro ⟨list, entries, written, hlist, hentries, hvalue, hread⟩
    exact ⟨list, hlist, entries, hentries, .text written, hvalue, written, rfl, hread⟩

end ReadFrom

variable [Suite]

end Backup.AuthData

section Examples

open scoped Suite.Evaluation
open Backup

/-- A user with a device. -/
def signingUser : UserId := ⟨"@signer:server", by decide⟩

/-- The signing key of the device. -/
def deviceSigningKey : Ed25519Key := Suite.signingKey ⟨.ofNatLE 32 1⟩

/-- The members of an object with a public key, a member that we do not know and a padded signature of the device. -/
def deviceSigned (unknown : Json) : List (String × Json) :=
  let publicKey : Curve25519Key := ⟨.ofNatLE 32 4⟩
  let content := [("public_key", publicKey.toJson), ("unknown", unknown)]
  let signed := ((Json.object content).signedText?.getD "").toUTF8.toList
  let signature := (Suite.sign ⟨.ofNatLE 32 1⟩ signed).toBase64 ++ "=="
  content ++ [("signatures", .object [(signingUser.text, .object [("ed25519:DEVICE", .text signature)])])]

/-- A member that we do not know holds other members. -/
def nestedValue : Json :=
  .object [("nested", .array [.null, .object [("count", .int 1)]])]

/-- An embedded list. -/
def embeddedList : Json :=
  .object [(Json.embeddingName, .text "[]")]

end Examples

end RoomCrypt
