import Mathlib.Data.List.Forall2
import RoomCrypt.Dict.Lemmas
import RoomCrypt.Json.Embedded
import RoomCrypt.Json.Record
import RoomCrypt.Json.Writer
import RoomCrypt.Proofs.Call

/-!
# Collapsed values

A value is collapsed by putting the members of all its objects in the order of their names, where the last of
repeated ones counts. What is found in a collapsed object is the last member of its name, collapsed; a collapsed value
stays as it is; and the canonical text of an object depends on nothing but what is found in it. An object that is read
as a dictionary is collapsed to what was read, and a value that holds no embedded value has nothing to be put in place.
-/

namespace RoomCrypt

namespace Dict

variable {α β : Type}

/-- Entries are put one after the other, so that of equal keys the last one counts. -/
theorem find?_ofList_reverse (entries : List (String × α)) (key : String) :
    (ofList entries).find? key = lookup? key entries.reverse := by
  have hfold (d : Dict α) : (entries.foldl (fun d (entry : String × α) => d.insert entry.1 entry.2) d).find? key =
      (lookup? key entries.reverse).or (d.find? key) := by
    induction entries generalizing d with
    | nil => rfl
    | cons entry entries ih =>
      rw [List.foldl_cons, ih, find?_insert, List.reverse_cons, lookup?_append, Option.or_assoc]
      by_cases hkey : key = entry.1
      · simp [lookup?, hkey]
      · simp [lookup?, hkey, Ne.symm hkey]
  exact (hfold .empty).trans (Option.or_none)

/-- What is in the map of entries is one of the entries. -/
theorem mem_of_mem_ofList {entries : List (String × α)} {entry : String × α} (h : entry ∈ (ofList entries).entries) :
    entry ∈ entries := by
  have hfind := mem_entries.mp (show (entry.1, entry.2) ∈ (ofList entries).entries from h)
  rw [find?_ofList_reverse] at hfind
  exact List.mem_reverse.mp (mem_of_lookup? hfind)

/-- If no key is repeated, an entry is found under its key. -/
theorem mem_iff_lookup? {entries : List (String × α)} (hkeys : (entries.map (·.1)).Nodup) {entry : String × α} :
    entry ∈ entries ↔ lookup? entry.1 entries = some entry.2 := by
  refine ⟨fun hentry => ?_, mem_of_lookup?⟩
  induction entries with
  | nil => cases hentry
  | cons first rest ih =>
    obtain ⟨hfirst, hrest⟩ := List.nodup_cons.mp hkeys
    rcases List.mem_cons.mp hentry with rfl | hentry
    · exact if_pos rfl
    · have hne : first.1 ≠ entry.1 := by
        intro heq
        exact hfirst (List.mem_map.mpr ⟨entry, hentry, heq.symm⟩)
      rw [lookup?, if_neg hne]
      exact ih hrest hentry

/-- The map of entries that each get another value. -/
theorem map_ofList (f : α → β) (entries : List (String × α)) :
    (ofList entries).map f = ofList (entries.map fun entry => (entry.1, f entry.2)) := by
  apply ext_find?
  intro key
  rw [find?_map, find?_ofList_reverse, find?_ofList_reverse, ← List.map_reverse]
  exact (lookup?_map (fun _ => f) key entries.reverse).symm

end Dict

namespace Json

/-- What holds of a value if it holds of all its items or all its members holds of every value. -/
theorem memberInduction {motive : Json → Prop} (null : motive .null) (bool : ∀ b, motive (.bool b))
    (int : ∀ n, motive (.int n)) (decimal : ∀ written, motive (.decimal written)) (text : ∀ s, motive (.text s))
    (array : ∀ items, (∀ item ∈ items, motive item) → motive (.array items))
    (object : ∀ members, (∀ member ∈ members, motive member.2) → motive (.object members))
    (void : motive .void) (value : Json) : motive value := by
  match value with
  | .null => exact null
  | .bool b => exact bool b
  | .int n => exact int n
  | .decimal written => exact decimal written
  | .text s => exact text s
  | .array items => exact array items fun item _ => memberInduction null bool int decimal text array object void item
  | .object members =>
    exact object members fun member _ => memberInduction null bool int decimal text array object void member.2
  | .void => exact void
termination_by value
decreasing_by
  · next hitem =>
    have hlt := List.sizeOf_lt_of_mem hitem
    simp only [Json.array.sizeOf_spec]
    omega
  · next hmember =>
    have hlt := List.sizeOf_lt_of_mem hmember
    obtain ⟨name, value⟩ := member
    simp only [Json.object.sizeOf_spec, Prod.mk.sizeOf_spec] at hlt ⊢
    omega

/-- Related lists have a partner for each element. -/
theorem exists_of_forall₂ {α β : Type} {related : α → β → Prop} {list : List α} {partners : List β}
    (h : List.Forall₂ related list partners) {a : α} (ha : a ∈ list) : ∃ b ∈ partners, related a b := by
  induction h with
  | nil => cases ha
  | @cons first partner list partners hfirst _ ih =>
    rcases List.mem_cons.mp ha with rfl | ha
    · exact ⟨partner, List.mem_cons_self, hfirst⟩
    · obtain ⟨b, hb, hrelated⟩ := ih ha
      exact ⟨b, List.mem_cons_of_mem partner hb, hrelated⟩

/-- A list is read by reading each of its elements. -/
theorem mapM_eq_some_iff_forall₂ {α β : Type} {read : α → Option β} {list : List α} {values : List β} :
    list.mapM read = some values ↔ List.Forall₂ (fun a b => read a = some b) list values := by
  rw [mapM_eq_some_iff, ← List.forall₂_eq_eq_eq, List.forall₂_map_left_iff, List.forall₂_map_right_iff]

section Collapse

variable {value other : Json} {items others : List Json} {members found : List (String × Json)}

/-- Items are collapsed one by one. -/
theorem collapseItems?_eq_some_iff :
    collapseItems? items = some others ↔ List.Forall₂ (fun item other => item.collapse? = some other) items others := by
  induction items generalizing others with
  | nil => cases others <;> simp [collapseItems?]
  | cons item items ih =>
    simp only [collapseItems?, Option.bind_eq_bind, Option.bind_eq_some_iff, Option.some.injEq, ih,
      List.forall₂_cons_left_iff]
    constructor
    · rintro ⟨other, hother, others, hothers, rfl⟩
      exact ⟨other, others, hother, hothers, rfl⟩
    · rintro ⟨other, others, hother, hothers, rfl⟩
      exact ⟨other, hother, others, hothers, rfl⟩

/-- And so are members. -/
theorem collapseMembers?_eq_some_iff : collapseMembers? members = some found ↔
    List.Forall₂ (fun member other => member.1 = other.1 ∧ member.2.collapse? = some other.2) members found := by
  induction members generalizing found with
  | nil => cases found <;> simp [collapseMembers?]
  | cons member members ih =>
    obtain ⟨name, value⟩ := member
    simp only [collapseMembers?, Option.bind_eq_bind, Option.bind_eq_some_iff, Option.some.injEq, ih,
      List.forall₂_cons_left_iff]
    constructor
    · rintro ⟨other, hother, others, hothers, rfl⟩
      exact ⟨(name, other), others, ⟨rfl, hother⟩, hothers, rfl⟩
    · rintro ⟨⟨_, other⟩, others, ⟨rfl, hother⟩, hothers, rfl⟩
      exact ⟨other, hother, others, hothers, rfl⟩

/-- What is found among collapsed members is what was there, collapsed. -/
theorem lookup?_collapsed (h : List.Forall₂ (fun member other : String × Json =>
    member.1 = other.1 ∧ member.2.collapse? = some other.2) members found) (name : String) :
    Dict.lookup? name found = (Dict.lookup? name members).bind collapse? := by
  induction h with
  | nil => rfl
  | @cons member other members found hmember hmembers ih =>
    obtain ⟨hname, hvalue⟩ := hmember
    by_cases hfirst : member.1 = name
    · simp [Dict.lookup?, ← hname, hfirst, hvalue]
    · simp [Dict.lookup?, ← hname, hfirst, ih]

/-- In a collapsed object the last member of a name is found, collapsed. -/
theorem find?_collapsed (h : collapseMembers? members = some found) (name : String) :
    (Dict.ofList found).find? name = (Dict.lookup? name members.reverse).bind collapse? := by
  rw [Dict.find?_ofList_reverse]
  exact lookup?_collapsed (List.forall₂_reverse_iff.mpr (collapseMembers?_eq_some_iff.mp h)) name

/-- So it is if each member is replaced by another one of its name before. -/
theorem find?_collapsed_map {f : String → Json → Json}
    (h : collapseMembers? (members.map fun member => (member.1, f member.1 member.2)) = some found) (name : String) :
    (Dict.ofList found).find? name =
      (Dict.lookup? name members.reverse).bind fun value => (f name value).collapse? := by
  rw [find?_collapsed h, ← List.map_reverse, Dict.lookup?_map f, Option.bind_map]
  rfl

/-- Members can be collapsed if each of them can. -/
theorem exists_collapseMembers? (h : ∀ member ∈ members, ∃ other, member.2.collapse? = some other) :
    ∃ found, collapseMembers? members = some found := by
  induction members with
  | nil => exact ⟨[], rfl⟩
  | cons member members ih =>
    obtain ⟨hmember, hmembers⟩ := List.forall_mem_cons.mp h
    obtain ⟨other, hother⟩ := hmember
    obtain ⟨found, hfound⟩ := ih hmembers
    exact ⟨(member.1, other) :: found, by simp [collapseMembers?, hother, hfound]⟩

/-- And only then. -/
theorem collapse?_of_mem (h : collapseMembers? members = some found) {member : String × Json}
    (hmember : member ∈ members) : ∃ other, member.2.collapse? = some other := by
  obtain ⟨other, -, -, hother⟩ := exists_of_forall₂ (collapseMembers?_eq_some_iff.mp h) hmember
  exact ⟨other.2, hother⟩

/-- A value that is collapsed already. -/
def IsCollapsed (value : Json) : Prop :=
  value.collapse? = some value

/-- Members with collapsed values are not changed. -/
theorem collapseMembers?_self (h : ∀ member ∈ members, member.2.IsCollapsed) :
    collapseMembers? members = some members := by
  refine collapseMembers?_eq_some_iff.mpr (List.forall₂_same.mpr fun member hmember => ⟨rfl, h member hmember⟩)

/-- A dictionary of collapsed values is collapsed. -/
theorem isCollapsed_ofDict {d : Dict Json} (h : ∀ member ∈ d.entries, member.2.IsCollapsed) :
    (ofDict d).IsCollapsed := by
  rw [IsCollapsed, ofDict, collapse?, collapseMembers?_self h, Option.map_some, Dict.ofList_entries, ofDict]

/-- A value that was collapsed is collapsed. -/
theorem isCollapsed_of_collapse? (h : value.collapse? = some other) : other.IsCollapsed := by
  induction value using memberInduction generalizing other with
  | null => cases h; rfl
  | bool => cases h; rfl
  | int => cases h; rfl
  | decimal => cases h; rfl
  | text => cases h; rfl
  | array items ih =>
    obtain ⟨others, hothers, rfl⟩ := Option.map_eq_some_iff.mp h
    have hself : collapseItems? others = some others := by
      refine collapseItems?_eq_some_iff.mpr (List.forall₂_same.mpr fun other hother => ?_)
      obtain ⟨item, hitem, hcollapse⟩ := exists_of_forall₂ (collapseItems?_eq_some_iff.mp hothers).flip hother
      exact ih item hitem hcollapse
    rw [IsCollapsed, collapse?, hself, Option.map_some]
  | object members ih =>
    obtain ⟨found, hfound, rfl⟩ := Option.map_eq_some_iff.mp h
    refine isCollapsed_ofDict fun member hmember => ?_
    obtain ⟨before, hbefore, -, hcollapse⟩ := exists_of_forall₂ (collapseMembers?_eq_some_iff.mp hfound).flip
      (Dict.mem_of_mem_ofList hmember)
    exact ih before hbefore hcollapse
  | void => cases h

/-- An object holds only numbers that are allowed if each of its members does. -/
theorem areMembersExact_iff : areMembersExact members = true ↔ ∀ member ∈ members, isExact member.2 = true := by
  induction members with
  | nil => simp [areMembersExact]
  | cons member members ih => simp [areMembersExact, ih]

/-- The canonical text of an object of collapsed values depends on nothing but the member of each name. -/
theorem canonical?_congr (hmembers : ∀ member ∈ members, member.2.IsCollapsed)
    (hfound : ∀ member ∈ found, member.2.IsCollapsed) (hnames : (members.map (·.1)).Nodup)
    (hnames' : (found.map (·.1)).Nodup) (h : ∀ name, Dict.lookup? name members = Dict.lookup? name found) :
    canonical? (.object members) = canonical? (.object found) := by
  have hsame : Dict.ofList members = Dict.ofList found := by
    apply Dict.ext_find?
    intro name
    rw [Dict.find?_ofList hnames, Dict.find?_ofList hnames', h name]
  have hcollapse : collapse? (.object members) = collapse? (.object found) := by
    rw [collapse?, collapse?, collapseMembers?_self hmembers, collapseMembers?_self hfound, Option.map_some,
      Option.map_some, hsame]
  have hexact : isExact (.object members) = isExact (.object found) := by
    rw [isExact, isExact, Bool.eq_iff_iff, areMembersExact_iff, areMembersExact_iff]
    simp only [Dict.mem_iff_lookup? hnames, Dict.mem_iff_lookup? hnames', h]
  rw [canonical?, canonical?, hcollapse, hexact]

end Collapse

section Dictionaries

variable {α β : Type} {isKey : String → Bool} {read : Json → Option α}

/-- A dictionary is read entry by entry. -/
theorem dict?_eq_some_iff {value : Json} {d : Dict α} : value.dict? isKey read = some d ↔
    ∃ members entries, value = .object members ∧ Dict.ofList entries = d ∧
      List.Forall₂ (fun member entry => isKey member.1 = true ∧ member.1 = entry.1 ∧ read member.2 = some entry.2)
        members entries := by
  have hentry (member : String × Json) (entry : String × α) :
      (if isKey member.1 then (read member.2).map fun value => (member.1, value) else none) = some entry ↔
        isKey member.1 = true ∧ member.1 = entry.1 ∧ read member.2 = some entry.2 := by
    obtain ⟨key, value⟩ := entry
    simp only [Option.ite_none_right_eq_some, Option.map_eq_some_iff, Prod.mk.injEq]
    constructor
    · rintro ⟨hkey, _, hread, rfl, rfl⟩
      exact ⟨hkey, rfl, hread⟩
    · rintro ⟨hkey, rfl, hread⟩
      exact ⟨hkey, value, hread, rfl, rfl⟩
  cases value with
  | object members =>
    simp only [dict?, Option.bind_eq_bind, Option.bind_eq_some_iff, Option.some.injEq, mapM_eq_some_iff_forall₂, hentry]
    constructor
    · rintro ⟨entries, hentries, hd⟩
      exact ⟨members, entries, rfl, hd, hentries⟩
    · rintro ⟨_, entries, hmembers, hd, hentries⟩
      cases hmembers
      exact ⟨entries, hentries, hd⟩
  | _ => simp [dict?]

/-- A dictionary whose values are made of values that are read is made of the dictionary that is read. -/
theorem dict?_map {f : α → β} {value : Json} {d : Dict β} (h : value.dict? isKey (fun v => (read v).map f) = some d) :
    ∃ written, value.dict? isKey read = some written ∧ d = written.map f := by
  obtain ⟨members, entries, rfl, rfl, hentries⟩ := dict?_eq_some_iff.mp h
  have hread : ∃ others, List.Forall₂ (fun member (entry : String × α) =>
      isKey member.1 = true ∧ member.1 = entry.1 ∧ read member.2 = some entry.2) members others ∧
        entries = others.map fun entry => (entry.1, f entry.2) := by
    clear h
    induction hentries with
    | nil => exact ⟨[], .nil, rfl⟩
    | @cons member entry members entries hmember hmembers ih =>
      obtain ⟨others, hothers, rfl⟩ := ih
      obtain ⟨hkey, hname, hvalue⟩ := hmember
      obtain ⟨a, ha, hentry⟩ := Option.map_eq_some_iff.mp hvalue
      refine ⟨(entry.1, a) :: others, .cons ⟨hkey, hname, ha⟩ hothers, ?_⟩
      rw [List.map_cons, hentry]
  obtain ⟨others, hothers, rfl⟩ := hread
  exact ⟨.ofList others, dict?_eq_some_iff.mpr ⟨members, others, rfl, rfl, hothers⟩, (Dict.map_ofList f others).symm⟩

/-- A dictionary is the collapsed object, if each of its values is the collapsed member. -/
theorem collapse?_of_dict? {write : α → Json}
    (hread : ∀ value a, read value = some a → value.collapse? = some (write a)) {value : Json} {d : Dict α}
    (h : value.dict? isKey read = some d) : value.collapse? = some (.ofDict (d.map write)) := by
  obtain ⟨members, entries, rfl, rfl, hentries⟩ := dict?_eq_some_iff.mp h
  have hcollapse : collapseMembers? members = some (entries.map fun entry => (entry.1, write entry.2)) := by
    rw [collapseMembers?_eq_some_iff, List.forall₂_map_right_iff]
    exact hentries.imp fun member entry hentry => ⟨hentry.2.1, hread _ _ hentry.2.2⟩
  rw [collapse?, hcollapse, Option.map_some, Dict.map_ofList]

end Dictionaries

section Embedding

mutual

/-- Is there no object, however deep, whose first member has the reserved name? -/
def holdsNoEmbedding : Json → Bool
  | .array items => itemsHoldNoEmbedding items
  | .object [] => true
  | .object ((name, value) :: rest) => name ≠ embeddingName && membersHoldNoEmbedding ((name, value) :: rest)
  | _ => true

/-- `holdsNoEmbedding` for each item. -/
def itemsHoldNoEmbedding : List Json → Bool
  | [] => true
  | item :: rest => holdsNoEmbedding item && itemsHoldNoEmbedding rest

/-- `holdsNoEmbedding` for each member. -/
def membersHoldNoEmbedding : List (String × Json) → Bool
  | [] => true
  | (_, value) :: rest => holdsNoEmbedding value && membersHoldNoEmbedding rest

end

/-- That is so if it is so for each item. -/
theorem itemsHoldNoEmbedding_iff {items : List Json} :
    itemsHoldNoEmbedding items = true ↔ ∀ item ∈ items, holdsNoEmbedding item = true := by
  induction items with
  | nil => simp [itemsHoldNoEmbedding]
  | cons item items ih => simp [itemsHoldNoEmbedding, ih]

/-- Or for each member. -/
theorem membersHoldNoEmbedding_iff {members : List (String × Json)} :
    membersHoldNoEmbedding members = true ↔ ∀ member ∈ members, holdsNoEmbedding member.2 = true := by
  induction members with
  | nil => simp [membersHoldNoEmbedding]
  | cons member members ih => simp [membersHoldNoEmbedding, ih]

/-- Items that stay as they are. -/
theorem expandItems_eq_self {f : String → Json} {items : List Json} (h : ∀ item ∈ items, expandWith f item = item) :
    expandItems f items = items := by
  induction items with
  | nil => rfl
  | cons item items ih =>
    obtain ⟨hitem, hitems⟩ := List.forall_mem_cons.mp h
    rw [expandItems, hitem, ih hitems]

/-- Members that stay as they are. -/
theorem expandMembers_eq_self {f : String → Json} {members : List (String × Json)}
    (h : ∀ member ∈ members, expandWith f member.2 = member.2) : expandMembers f members = members := by
  induction members with
  | nil => rfl
  | cons member members ih =>
    obtain ⟨hmember, hmembers⟩ := List.forall_mem_cons.mp h
    rw [expandMembers, hmember, ih hmembers]

/-- In a value without embedded ones there is nothing to put in place. -/
theorem expandWith_eq_self (f : String → Json) {value : Json} (h : value.holdsNoEmbedding = true) :
    expandWith f value = value := by
  induction value using memberInduction with
  | array items ih =>
    rw [holdsNoEmbedding, itemsHoldNoEmbedding_iff] at h
    rw [expandWith, expandItems_eq_self fun item hitem => ih item hitem (h item hitem)]
  | object members ih =>
    cases members with
    | nil => rfl
    | cons member members =>
      obtain ⟨name, value⟩ := member
      simp only [holdsNoEmbedding, Bool.and_eq_true, decide_eq_true_eq, membersHoldNoEmbedding_iff] at h
      obtain ⟨hname, hmembers⟩ := h
      have hself := expandMembers_eq_self fun member hmember => ih member hmember (hmembers member hmember)
      unfold expandWith
      rw [if_neg hname, hself]
  | _ => rfl

end Embedding

end Json

end RoomCrypt
