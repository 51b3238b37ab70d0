import RoomCrypt.Backup.RoomKey
import RoomCrypt.Proofs.Json.Records
import RoomCrypt.Proofs.Megolm.SessionKey

/-!
# Room keys read back

The record of a room key is read as the room key, if its signing key is a point. The keys that a device claims
to have are written in another order than they are kept in, with those of our own algorithms first, and are put
in order again when they are read.
-/

namespace RoomCrypt.Backup.RoomKey

open Json (memberOf)

/-- The keys of some algorithms, in the order of these. -/
theorem lookup?_leading (keys : Dict String) (algorithms : List String) (algorithm : String) :
    Dict.lookup? algorithm (algorithms.filterMap fun algorithm =>
        (keys.find? algorithm).map fun key => (algorithm, key)) =
      if algorithm ∈ algorithms then keys.find? algorithm else none := by
  induction algorithms with
  | nil => rfl
  | cons first rest ih =>
    by_cases hfirst : first = algorithm
    · subst hfirst
      cases hkey : keys.find? first <;> simp_all [Dict.lookup?]
    · cases hkey : keys.find? first <;> simp_all [Dict.lookup?, Ne.symm hfirst]

/-- Each of them is there once. -/
theorem mem_leading {keys : Dict String} {algorithms : List String} {algorithm : String}
    (h : algorithm ∈ (algorithms.filterMap fun algorithm =>
      (keys.find? algorithm).map fun key => (algorithm, key)).map (·.1)) : algorithm ∈ algorithms := by
  obtain ⟨entry, hentry, rfl⟩ := List.mem_map.mp h
  obtain ⟨known, hknown, hkey⟩ := List.mem_filterMap.mp hentry
  obtain ⟨_, -, rfl⟩ := Option.map_eq_some_iff.mp hkey
  exact hknown

theorem nodup_leading (keys : Dict String) {algorithms : List String} (h : algorithms.Nodup) :
    ((algorithms.filterMap fun algorithm => (keys.find? algorithm).map fun key => (algorithm, key)).map
      (·.1)).Nodup := by
  rw [List.map_filterMap]
  refine List.Pairwise.filterMap _ (fun first second hne algorithm hfirst algorithm' hsecond heq => hne ?_) h
  obtain ⟨_, hentry, rfl⟩ := Option.map_eq_some_iff.mp hfirst
  obtain ⟨_, hentry', rfl⟩ := Option.map_eq_some_iff.mp hsecond
  obtain ⟨_, -, rfl⟩ := Option.map_eq_some_iff.mp hentry
  obtain ⟨_, -, rfl⟩ := Option.map_eq_some_iff.mp hentry'
  exact heq

/-- The claimed keys are read from their value. -/
theorem ofJson?_claimedKeysToJson (keys : Dict String) : Dict.ofJson? (claimedKeysToJson keys) = some keys := by
  unfold claimedKeysToJson
  refine (Dict.ofJson?_texts _).trans (congrArg some (Dict.ext_find? fun algorithm => ?_))
  rw [Dict.find?_ofList, Dict.lookup?_append, lookup?_leading,
    Dict.lookup?_filter (fun algorithm => decide (algorithm ∉ leadingAlgorithms))]
  · by_cases hleading : algorithm ∈ leadingAlgorithms
    · simp [hleading]
    · simp only [hleading, if_false, not_false_eq_true, decide_true, if_true, Option.none_or]
      rfl
  · rw [List.map_append]
    refine List.nodup_append.mpr ⟨nodup_leading keys (by decide), ?_, fun algorithm hleading other hother heq => ?_⟩
    · exact keys.nodup_keys.sublist (List.filter_sublist.map _)
    · obtain ⟨entry, hentry, rfl⟩ := List.mem_map.mp hother
      exact of_decide_eq_true (List.mem_filter.mp hentry).2 (heq ▸ mem_leading hleading)

/-- The members of the record, all of which are there. -/
def entries (key : RoomKey) : List (String × Option Json) :=
  [("algorithm", some (.text key.algorithm)), ("sender_key", some key.senderKey.toJson),
    ("session_key", some (.text key.sessionKey.toBase64)),
    ("sender_claimed_keys", some (claimedKeysToJson key.claimedKeys)),
    ("forwarding_curve25519_key_chain", some (.ofTexts key.forwardingChain))]

theorem toJson_eq (key : RoomKey) : key.toJson = .objectOfOptions key.entries := rfl

/-- No name is repeated. -/
theorem nodup_names (key : RoomKey) : (key.entries.map (·.1)).Nodup :=
  (by decide : fieldNames.Nodup)

/-- A session key is read from its text, if its signing key is a point. -/
theorem sessionKeyOfJson?_text [Suite] {key : Megolm.ExportedKey} (hpoint : Suite.isPoint key.signingKey = true) :
    sessionKeyOfJson? (.text key.toBase64) = some key := by
  have htext : Json.text? (.text key.toBase64) = some key.toBase64 := rfl
  unfold sessionKeyOfJson?
  rw [htext, Option.bind_eq_bind, Option.bind_some, Megolm.ExportedKey.ofBase64?_toBase64 hpoint]
  rfl

/-- A room key is read from its record, if its signing key is a point. -/
theorem ofJson?_toJson [Suite] {key : RoomKey} (hpoint : Suite.isPoint key.sessionKey.signingKey = true) :
    ofJson? key.toJson = some key := by
  have hrecord : key.toJson.record? fieldNames = some fun name => memberOf name key.entries :=
    Json.record?_objectOfOptions key.nodup_names
  obtain ⟨record, hmembers⟩ : ∃ record : Json.Record, record = fun name => memberOf name key.entries := ⟨_, rfl⟩
  rw [← hmembers] at hrecord
  have halgorithm : record.required? "algorithm" Json.text? = some key.algorithm := by
    rw [hmembers]
    rfl
  have hsender : record.required? "sender_key" Curve25519Key.ofJson? = some key.senderKey := by
    rw [hmembers]
    exact Curve25519Key.ofBase64?_toBase64 _
  have hsession : record.required? "session_key" sessionKeyOfJson? = some key.sessionKey := by
    have hmember : record "session_key" = some (.text key.sessionKey.toBase64) := by
      rw [hmembers]
      rfl
    unfold Json.Record.required?
    rw [hmember, Option.bind_eq_bind, Option.bind_some, sessionKeyOfJson?_text hpoint]
  have hclaimed : record.withDefault? "sender_claimed_keys" .empty Dict.ofJson? = some key.claimedKeys := by
    rw [hmembers]
    exact ofJson?_claimedKeysToJson _
  have hchain : record.withDefault? "forwarding_curve25519_key_chain" [] (Json.list? Json.text?) =
      some key.forwardingChain := by
    rw [hmembers]
    have hread (text : String) : Json.text? (.text text) = some text := rfl
    exact Json.list?_array hread _
  unfold ofJson?
  simp only [hrecord, halgorithm, hsender, hsession, hclaimed, hchain, Option.bind_eq_bind, Option.bind_some]

/-- The signing key of a room key that is read is a point. -/
theorem isPoint_of_ofJson? [Suite] {value : Json} {key : RoomKey} (h : ofJson? value = some key) :
    Suite.isPoint key.sessionKey.signingKey = true := by
  unfold ofJson? at h
  simp only [Option.bind_eq_bind, Option.bind_eq_some_iff] at h
  obtain ⟨record, -, algorithm, -, senderKey, -, sessionKey, hread, claimedKeys, -, chain, -, hkey⟩ := h
  obtain rfl := Option.some.inj hkey
  obtain ⟨written, -, hsession⟩ := Option.bind_eq_some_iff.mp hread
  obtain ⟨text, -, hdecode⟩ := Option.bind_eq_some_iff.mp hsession
  cases hsessionKey : Megolm.ExportedKey.ofBase64? text with
  | error e =>
    rw [hsessionKey] at hdecode
    cases hdecode
  | ok decoded =>
    rw [hsessionKey] at hdecode
    obtain rfl := Option.some.inj hdecode
    exact Megolm.ExportedKey.isPoint_of_ofBase64? hsessionKey

theorem plain_toJson (key : RoomKey) : Json.Plain Json.maxDepth key.toJson := by
  change Json.Plain (126 + 1) (.objectOfOptions key.entries)
  refine .objectOfOptions ?_
  have hclaimed : Json.Plain 126 (claimedKeysToJson key.claimedKeys) := by
    refine .object fun member hmember => ?_
    obtain ⟨entry, -, rfl⟩ := List.mem_map.mp hmember
    exact .text _ _
  have hchain : Json.Plain 126 (.ofTexts key.forwardingChain) := by
    refine .array fun item hitem => ?_
    obtain ⟨text, -, rfl⟩ := List.mem_map.mp hitem
    exact .text _ text
  simp only [entries, List.forall_mem_cons, Option.mem_some_iff, forall_eq']
  exact ⟨.text _ _, .text _ _, .text _ _, hclaimed, hchain, by simp⟩

end RoomCrypt.Backup.RoomKey
