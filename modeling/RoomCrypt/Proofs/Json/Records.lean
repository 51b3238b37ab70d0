import Mathlib.Data.String.Basic
import RoomCrypt.Dict.Lemmas
import RoomCrypt.Json.Key
import RoomCrypt.Proofs.Json.RoundTrip
import RoomCrypt.Proofs.Text.Base64

/-!
# Records read back

A record that is written with names of which none is repeated gives each reader the member of its name.
Keys, times and dictionaries are read from their JSON forms.
-/

namespace RoomCrypt

namespace Json

/-- The member of a name, if it is there. -/
def memberOf (name : String) : List (String × Option Json) → Option Json
  | [] => none
  | (other, value) :: rest => if other = name then value else memberOf name rest

/-- The members that are there. -/
def present (entries : List (String × Option Json)) : List (String × Json) :=
  entries.filterMap fun (name, value) => value.map fun value => (name, value)

theorem present_cons_none (name : String) (entries : List (String × Option Json)) :
    present ((name, none) :: entries) = present entries := rfl

theorem present_cons_some (name : String) (value : Json) (entries : List (String × Option Json)) :
    present ((name, some value) :: entries) = (name, value) :: present entries := rfl

/-- There is no member of a name that is not given. -/
theorem filter_present_eq_nil {entries : List (String × Option Json)} {name : String}
    (h : name ∉ entries.map (·.1)) : (present entries).filter (·.1 = name) = [] ∧ memberOf name entries = none := by
  induction entries with
  | nil => exact ⟨rfl, rfl⟩
  | cons entry entries ih =>
    obtain ⟨other, value⟩ := entry
    simp only [List.map_cons, List.mem_cons, not_or] at h
    have hne : ¬ other = name := fun e => h.1 e.symm
    obtain ⟨hfilter, hmember⟩ := ih h.2
    cases value with
    | none => simp [present_cons_none, memberOf, hne, hfilter, hmember]
    | some value => simp [present_cons_some, memberOf, hne, hfilter, hmember]

/-- A name that is not repeated has its member. -/
theorem uniqueMember?_present {entries : List (String × Option Json)} (h : (entries.map (·.1)).Nodup)
    (name : String) : uniqueMember? name (present entries) = some (memberOf name entries) := by
  induction entries with
  | nil => rfl
  | cons entry entries ih =>
    obtain ⟨other, value⟩ := entry
    obtain ⟨hother, hentries⟩ := List.nodup_cons.mp h
    by_cases hname : other = name
    · subst hname
      obtain ⟨hfilter, hmember⟩ := filter_present_eq_nil hother
      cases value with
      | none => simp [uniqueMember?, present_cons_none, memberOf, hfilter]
      | some value => simp [uniqueMember?, present_cons_some, memberOf, hfilter]
    · unfold uniqueMember? at ih ⊢
      cases value with
      | none => simpa [present_cons_none, memberOf, hname] using ih hentries
      | some value => simpa [present_cons_some, memberOf, hname] using ih hentries

/-- The members of the names that are asked for. -/
theorem members?_present {entries : List (String × Option Json)} (h : (entries.map (·.1)).Nodup)
    (names : List String) :
    members? names (present entries) = some fun name => if name ∈ names then memberOf name entries else none := by
  induction names with
  | nil => rfl
  | cons name names ih =>
    unfold members? at ih ⊢
    rw [List.foldrM_cons, ih]
    simp only [Option.bind_eq_bind, Option.bind_some, uniqueMember?_present h, Option.map_some, Option.some.injEq]
    funext other
    by_cases hother : other = name <;> simp [hother]

/-- A record is read as it was written. -/
theorem record?_objectOfOptions {entries : List (String × Option Json)} (h : (entries.map (·.1)).Nodup) :
    record? (entries.map (·.1)) (objectOfOptions entries) = some fun name => memberOf name entries := by
  refine (members?_present h _).trans (congrArg some (funext fun name => ?_))
  by_cases hname : name ∈ entries.map (·.1)
  · exact if_pos hname
  · rw [if_neg hname, (filter_present_eq_nil hname).2]

/-- A record of plain values is plain. -/
theorem Plain.objectOfOptions {depth : Nat} {entries : List (String × Option Json)}
    (h : ∀ entry ∈ entries, ∀ value ∈ entry.2, Plain depth value) :
    Plain (depth + 1) (objectOfOptions entries) := by
  refine .object fun member hmember => ?_
  obtain ⟨entry, hentry, heq⟩ := List.mem_filterMap.mp hmember
  obtain ⟨value, hvalue, rfl⟩ := Option.map_eq_some_iff.mp heq
  exact h entry hentry value hvalue

/-- A member that may be missing is read as what it was. -/
theorem Record.optional?_eq {α : Type} {record : Record} {name : String} {read : Json → Option α} {write : α → Json}
    {value : Option α} (hname : record name = value.map write)
    (hread : ∀ a, orNull? read (write a) = some (some a)) : record.optional? name read = some value := by
  unfold Record.optional? Record.withDefault?
  rw [hname]
  cases value with
  | none => rfl
  | some a => exact hread a

theorem natBelow?_ofNat {n bound : Nat} (h : n < bound) : natBelow? bound (ofNat n) = some n :=
  if_pos h

theorem uint8?_ofNat (n : UInt8) : uint8? (ofNat n.toNat) = some n := by
  simp [uint8?, natBelow?_ofNat n.toNat_lt_size]

theorem uint64?_ofNat (n : UInt64) : uint64? (ofNat n.toNat) = some n := by
  simp [uint64?, natBelow?_ofNat n.toNat_lt_size]

/-- Values that are read back one by one are read back as a list. -/
theorem list?_array {α : Type} {read : Json → Option α} {write : α → Json}
    (h : ∀ a, read (write a) = some a) (items : List α) : list? read (.array (items.map write)) = some items := by
  unfold list?
  induction items with
  | nil => rfl
  | cons item items ih => simp_all

theorem plain_ofNat {n : Nat} (depth : Nat) (h : n < UInt64.size) : Plain depth (ofNat n) :=
  .nat depth h

end Json

namespace Base64

/-- Three bytes make four signs, and what is left of a group its part of them. -/
theorem length_sextets (bytes : Bytes) : (sextets bytes).length = (4 * bytes.length + 2) / 3 := by
  fun_induction sextets bytes with
  | case1 => simp
  | case2 => simp
  | case3 => simp
  | case4 a b c rest ih =>
    simp only [List.length_cons, ih]
    omega

/-- Each sign is one byte. -/
theorem utf8ByteSize_encode (bytes : Bytes) : (encode bytes).utf8ByteSize = (4 * bytes.length + 2) / 3 := by
  have hsize : ∀ value < 64, (sign value).utf8Size = 1 := by decide +kernel
  have hsigns : ∀ values : List Nat, (∀ value ∈ values, value < 64) →
      String.utf8Len (values.map sign) = values.length := by
    intro values hvalues
    induction values with
    | nil => rfl
    | cons value values ih =>
      obtain ⟨hvalue, hvalues⟩ := List.forall_mem_cons.mp hvalues
      rw [List.map_cons, String.utf8Len_cons, ih hvalues, hsize value hvalue, List.length_cons]
  unfold encode
  rw [String.utf8ByteSize_ofList, hsigns _ fun _ => lt_of_mem_sextets, length_sextets]

end Base64

namespace Curve25519Key

/-- A key is read from the list of its bytes. -/
theorem ofByteList?_toByteList (key : Curve25519Key) : ofByteList? key.toByteList = some key := by
  unfold ofByteList? toByteList
  rw [Json.list?_array Json.uint8?_ofNat]
  simp

theorem plain_toByteList (depth : Nat) (key : Curve25519Key) : Json.Plain (depth + 1) key.toByteList := by
  refine .array fun item hitem => ?_
  obtain ⟨b, -, rfl⟩ := List.mem_map.mp hitem
  exact Json.plain_ofNat depth (Nat.lt_trans b.toNat_lt (by decide))

/-- The text of a key has 43 signs. -/
theorem utf8ByteSize_toBase64 (key : Curve25519Key) : key.toBase64.utf8ByteSize = 43 := by
  unfold toBase64
  rw [Base64.utf8ByteSize_encode, key.octets.length_eq]

/-- A key is read from its text. -/
theorem ofBase64?_toBase64 (key : Curve25519Key) : ofBase64? key.toBase64 = some key := by
  unfold ofBase64?
  rw [if_pos (Or.inl key.utf8ByteSize_toBase64)]
  unfold Octets.ofBase64? toBase64
  rw [Base64.decode?_encode]
  simp

/-- A key is known from its text. -/
theorem toBase64_inj {key other : Curve25519Key} : key.toBase64 = other.toBase64 ↔ key = other := by
  refine ⟨fun h => ?_, congrArg _⟩
  have hread := congrArg ofBase64? h
  rw [ofBase64?_toBase64, ofBase64?_toBase64] at hread
  exact Option.some.inj hread

end Curve25519Key

/-- A signing key is known from its text. -/
theorem Ed25519Key.toBase64_inj {key other : Ed25519Key} : key.toBase64 = other.toBase64 ↔ key = other := by
  refine ⟨fun h => ?_, congrArg _⟩
  have hread := congrArg Base64.decode? h
  unfold toBase64 at hread
  rw [Base64.decode?_encode, Base64.decode?_encode] at hread
  cases key
  cases other
  exact congrArg Ed25519Key.mk (Octets.ext (Option.some.inj hread))

/-- A time is read from its count. -/
theorem Time.ofJson?_ofNat (time : Time) : Time.ofJson? (.ofNat time.count) = some time := by
  unfold Time.ofJson?
  rw [Json.natBelow?_ofNat time.count_lt]
  exact Time.ofNat?_count time

theorem Time.plain (depth : Nat) (time : Time) : Json.Plain depth (.ofNat time.count) :=
  Json.plain_ofNat depth (Nat.lt_trans time.count_lt (by decide))

/-- The dictionary of texts that are written one by one is read back. -/
theorem Dict.ofJson?_texts (entries : List (String × String)) :
    Dict.ofJson? (.object (entries.map fun entry => (entry.1, .text entry.2))) = some (ofList entries) := by
  have hread : (entries.map fun entry => (entry.1, Json.text entry.2)).mapM
      (fun entry => (Json.text? entry.2).map fun value => (entry.1, value)) = some entries := by
    induction entries with
    | nil => rfl
    | cons entry entries ih => simp_all [Json.text?]
  unfold Dict.ofJson? Json.dict?
  simp_all

/-- A dictionary of texts is read from its value. -/
theorem Dict.ofJson?_toJson (d : Dict String) : Dict.ofJson? d.toJson = some d :=
  (ofJson?_texts d.entries).trans (congrArg some d.ofList_entries)

/-- It is plain. -/
theorem Dict.plain_toJson (depth : Nat) (d : Dict String) : Json.Plain (depth + 1) d.toJson := by
  refine .object fun member hmember => ?_
  obtain ⟨entry, -, rfl⟩ := List.mem_map.mp hmember
  exact .text depth entry.2

end RoomCrypt
