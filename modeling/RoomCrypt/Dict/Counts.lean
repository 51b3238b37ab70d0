import Mathlib.Algebra.GroupWithZero.Nat
import RoomCrypt.Dict.Lemmas

/-!
# How many values there are

A value that is put in a dictionary adds its weight and takes away that of the one it replaces. So in a dictionary of
dictionaries too, a value counts unless there was one in its place.
-/

namespace RoomCrypt.Dict

variable {α : Type}

/-- The weights of all values together. -/
def total (weight : α → Nat) (d : Dict α) : Nat :=
  (d.values.map weight).sum

/-- An entry that is put adds its weight and takes away that of the one it replaces. -/
theorem sum_insertEntry (weight : α → Nat) (key : String) (value : α) {entries : List (String × α)}
    (hord : entries.Pairwise fun a b => a.1 < b.1) :
    ((insertEntry key value entries).map fun entry => weight entry.2).sum +
        ((lookup? key entries).map weight).getD 0 =
      (entries.map fun entry => weight entry.2).sum + weight value := by
  induction entries with
  | nil => simp [insertEntry, lookup?]
  | cons entry rest ih =>
    obtain ⟨hfirst, hrest⟩ := List.pairwise_cons.1 hord
    have ih := ih hrest
    by_cases hkey : entry.1 = key
    · simp only [insertEntry, lookup?, hkey, if_true, List.map_cons, List.sum_cons, Option.map_some, Option.getD_some]
      omega
    · by_cases hlt : key < entry.1
      · have hnone : lookup? key rest = none :=
          lookup?_eq_none_of_lt fun other hother => String.lt_trans hlt (hfirst other hother)
        simp only [insertEntry, lookup?, hkey, hlt, if_false, if_true, hnone, List.map_cons, List.sum_cons,
          Option.map_none, Option.getD_none]
        omega
      · simp only [insertEntry, lookup?, hkey, hlt, if_false, List.map_cons, List.sum_cons]
        omega

/-- So the weight of a map grows by that of a value and shrinks by that of the one it replaces. -/
theorem total_insert (weight : α → Nat) (d : Dict α) (key : String) (value : α) :
    total weight (d.insert key value) + ((d.find? key).map weight).getD 0 = total weight d + weight value := by
  have h := sum_insertEntry weight key value d.ordered
  unfold total values
  rw [List.map_map, List.map_map]
  exact h

/-- The same if a value without weight stands for none. -/
theorem total_insert_getD (weight : α → Nat) {light : α} (hlight : weight light = 0) (d : Dict α) (key : String)
    (value : α) :
    total weight (d.insert key value) + weight ((d.find? key).getD light) = total weight d + weight value := by
  rw [← total_insert weight d key value]
  cases d.find? key with
  | none => rw [Option.getD_none, hlight, Option.map_none, Option.getD_none]
  | some old => rfl

/-- How many values there are in a map. -/
def count (d : Dict α) : Nat :=
  d.total fun _ => 1

/-- How many values there are in a map of maps of maps. -/
def count₂ (d : Dict (Dict (Dict α))) : Nat :=
  d.total (total count)

/-- A value that is put in a map of maps of maps counts unless it replaces one. -/
theorem count₂_insert_nested₂ (d : Dict (Dict (Dict α))) (first second third : String) (value : α) :
    let maps := (d.find? first).getD .empty
    let map := (maps.find? second).getD .empty
    (d.insert first (maps.insert second (map.insert third value))).count₂ +
        (if ((d.find? first).bind fun maps => (maps.find? second).bind (·.find? third)).isSome then 1 else 0) =
      d.count₂ + 1 := by
  intro maps map
  have hfound : (d.find? first).bind (fun maps => (maps.find? second).bind (·.find? third)) = map.find? third := by
    rw [find?_getD_empty, find?_getD_empty, Option.bind_assoc]
  have hmap : (map.insert third value).count + ((map.find? third).map fun _ => 1).getD 0 = map.count + 1 :=
    total_insert _ map third value
  have hmaps : total count (maps.insert second (map.insert third value)) + map.count =
      total count maps + (map.insert third value).count := total_insert_getD count rfl maps second _
  have hd : (d.insert first (maps.insert second (map.insert third value))).count₂ + total count maps =
      d.count₂ + total count (maps.insert second (map.insert third value)) :=
    total_insert_getD (total count) rfl d first _
  rw [hfound]
  cases hold : map.find? third with
  | none =>
    rw [hold, Option.map_none, Option.getD_none] at hmap
    simp only [Option.isSome_none, Bool.false_eq_true, if_false]
    omega
  | some old =>
    rw [hold, Option.map_some, Option.getD_some] at hmap
    simp only [Option.isSome_some, if_true]
    omega

end RoomCrypt.Dict
