import RoomCrypt.Proofs.Json.Records
import RoomCrypt.Store.Memory

/-!
# The texts of stored sessions

The text under which a session is stored is read as the record of the session.
-/

namespace RoomCrypt

open Json (memberOf)

namespace Olm.PickledSession

/-- The members of the record, all of which are there. -/
def entries (pickled : PickledSession) : List (String × Option Json) :=
  [("pickle", some (.text pickled.pickle)), ("sender_key", some pickled.senderKey.toByteList),
    ("creation_time", some (.ofNat pickled.created.count)),
    ("last_use_time", some (.ofNat pickled.lastUsed.count))]

theorem toJson_eq (pickled : PickledSession) : pickled.toJson = .objectOfOptions pickled.entries := rfl

/-- No name is repeated. -/
theorem nodup_names (pickled : PickledSession) : (pickled.entries.map (·.1)).Nodup :=
  (by decide : fieldNames.Nodup)

/-- A record is read from its value. -/
theorem ofJson?_toJson (pickled : PickledSession) : ofJson? pickled.toJson = some pickled := by
  have hrecord : pickled.toJson.record? fieldNames = some fun name => memberOf name pickled.entries :=
    Json.record?_objectOfOptions pickled.nodup_names
  unfold ofJson?
  rw [hrecord]
  simp [Json.Record.required?, memberOf, entries, Json.text?, Curve25519Key.ofByteList?_toByteList,
    Time.ofJson?_ofNat]

theorem plain_toJson (pickled : PickledSession) : Json.Plain Json.maxDepth pickled.toJson := by
  change Json.Plain (126 + 1) (.objectOfOptions pickled.entries)
  refine .objectOfOptions ?_
  simp only [entries, List.forall_mem_cons, Option.mem_some_iff, forall_eq']
  exact ⟨.text _ _, Curve25519Key.plain_toByteList _ _, Time.plain _ _, Time.plain _ _, by simp⟩

end Olm.PickledSession

namespace Megolm.PickledInboundSession

/-- The members of the record. -/
def entries (pickled : PickledInboundSession) : List (String × Option Json) :=
  [("pickle", some (.text pickled.pickle)), ("sender_key", some pickled.senderKey.toJson),
    ("sender_claimed_keys", some pickled.claimedKeys.toJson), ("room_id", some (.text pickled.room.text)),
    ("forwarding_chain", some (.ofTexts pickled.forwardingChain)),
    ("received_at", some (.ofNat pickled.receivedAt.count)),
    ("max_age_ms", pickled.maxAgeMs.map fun n => .ofNat n.toNat),
    ("max_messages", pickled.maxMessages.map fun n => .ofNat n.toNat),
    ("key_backup_version", pickled.backupVersion.map .text), ("imported", some (.bool pickled.imported)),
    ("algorithm", some (.text pickled.algorithm))]

theorem toJson_eq (pickled : PickledInboundSession) : pickled.toJson = .objectOfOptions pickled.entries := rfl

/-- No name is repeated. -/
theorem nodup_names (pickled : PickledInboundSession) : (pickled.entries.map (·.1)).Nodup :=
  (by decide : fieldNames.Nodup)

/-- A record is read from its value. -/
theorem ofJson?_toJson [Suite] (pickled : PickledInboundSession) : ofJson? pickled.toJson = some pickled := by
  have hrecord : pickled.toJson.record? fieldNames = some fun name => memberOf name pickled.entries :=
    Json.record?_objectOfOptions pickled.nodup_names
  obtain ⟨record, hmembers⟩ : ∃ record : Json.Record, record = fun name => memberOf name pickled.entries :=
    ⟨_, rfl⟩
  rw [← hmembers] at hrecord
  have hpickle : record.required? "pickle" Json.text? = some pickled.pickle := by
    rw [hmembers]
    rfl
  have hkey : record.required? "sender_key" Curve25519Key.ofJson? = some pickled.senderKey := by
    rw [hmembers]
    exact Curve25519Key.ofBase64?_toBase64 _
  have hclaimed : record.required? "sender_claimed_keys" Dict.ofJson? = some pickled.claimedKeys := by
    rw [hmembers]
    exact Dict.ofJson?_toJson _
  have hroom : record.required? "room_id" RoomId.ofJson? = some pickled.room := by
    rw [hmembers]
    exact RoomId.ofString?_text _
  have hchain : record.withDefault? "forwarding_chain" [] (Json.list? Json.text?) =
      some pickled.forwardingChain := by
    rw [hmembers]
    have hread (text : String) : Json.text? (.text text) = some text := rfl
    exact Json.list?_array hread _
  have hreceived : record.required? "received_at" Time.ofJson? = some pickled.receivedAt := by
    rw [hmembers]
    exact Time.ofJson?_ofNat _
  have hage : record.optional? "max_age_ms" Json.uint64? = some pickled.maxAgeMs :=
    Json.Record.optional?_eq (congrFun hmembers _) fun n => congrArg (Option.map some) (Json.uint64?_ofNat n)
  have hmessages : record.optional? "max_messages" Json.uint64? = some pickled.maxMessages :=
    Json.Record.optional?_eq (congrFun hmembers _) fun n => congrArg (Option.map some) (Json.uint64?_ofNat n)
  have hversion : record.optional? "key_backup_version" Json.text? = some pickled.backupVersion :=
    Json.Record.optional?_eq (congrFun hmembers _) fun _ => rfl
  have himported : record.required? "imported" Json.bool? = some pickled.imported := by
    rw [hmembers]
    rfl
  have halgorithm : record.withDefault? "algorithm" algorithmName Json.text? = some pickled.algorithm := by
    rw [hmembers]
    rfl
  unfold ofJson?
  simp only [hrecord, hpickle, hkey, hclaimed, hroom, hchain, hreceived, hage, hmessages, hversion, himported,
    halgorithm, Option.bind_eq_bind, Option.bind_some]

theorem plain_toJson (pickled : PickledInboundSession) : Json.Plain Json.maxDepth pickled.toJson := by
  change Json.Plain (126 + 1) (.objectOfOptions pickled.entries)
  refine .objectOfOptions ?_
  have hnumber (number : Option UInt64) :
      ∀ value ∈ number.map fun n => Json.ofNat n.toNat, Json.Plain 126 value := by
    intro value hvalue
    obtain ⟨n, -, rfl⟩ := Option.map_eq_some_iff.mp hvalue
    exact Json.plain_ofNat _ n.toNat_lt
  have htext (text : Option String) : ∀ value ∈ text.map Json.text, Json.Plain 126 value := by
    intro value hvalue
    obtain ⟨text, -, rfl⟩ := Option.map_eq_some_iff.mp hvalue
    exact .text _ text
  have hchain : Json.Plain 126 (.ofTexts pickled.forwardingChain) := by
    refine .array fun item hitem => ?_
    obtain ⟨text, -, rfl⟩ := List.mem_map.mp hitem
    exact .text _ text
  simp only [entries, List.forall_mem_cons, Option.mem_some_iff, forall_eq']
  exact ⟨.text _ _, .text _ _, Dict.plain_toJson _ _, .text _ _, hchain, Time.plain _ _, hnumber _, hnumber _,
    htext _, .bool _ _, .text _ _, by simp⟩

end Megolm.PickledInboundSession

namespace Store.MemoryStore

variable [Suite]

omit [Suite] in
/-- The text of a session is read as its record. -/
theorem pickledOfText?_sessionText (session : Olm.Session Olm.Channel) :
    pickledOfText? (sessionText session) = .ok session.pickle := by
  unfold pickledOfText? sessionText
  rw [Json.parse?_render (Olm.PickledSession.plain_toJson _), Option.bind_eq_bind, Option.bind_some,
    Olm.PickledSession.ofJson?_toJson]

/-- The text of a room session is read as its record, and the session is restored from that. -/
theorem roomSessionOfText?_roomSessionText (session : Megolm.InboundSession Megolm.Receiver) :
    roomSessionOfText? (roomSessionText session) =
      (Megolm.InboundSession.ofPickle? session.pickle).mapError .pickle := by
  unfold roomSessionOfText? roomSessionText
  rw [Json.parse?_render (Megolm.PickledInboundSession.plain_toJson _), Option.bind_eq_bind, Option.bind_some,
    Megolm.PickledInboundSession.ofJson?_toJson]

end Store.MemoryStore

end RoomCrypt
