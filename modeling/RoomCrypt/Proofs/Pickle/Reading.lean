import RoomCrypt.Proofs.Pickle.Writing

/-!
# What unpickling takes

A step of reading has to do two things: to give back each valid value from its form, whatever follows
the form, and to take nothing from the front of a byte string but the form of the valid value that it
gives. Together they say which byte strings are read, as what, and what is left of them.
-/

namespace RoomCrypt

variable {α β : Type}

namespace Unpickler

/-- Each valid value is read from its form, whatever follows. -/
def ReadsBack (step : Unpickler α) (form : α → Bytes) (valid : α → Prop) : Prop :=
  ∀ value rest, valid value → InPlace.on step (form value ++ rest) = (.ok value, rest)

/-- What is taken is the form of a valid value. -/
def TakesForms (step : Unpickler α) (form : α → Bytes) (valid : α → Prop) : Prop :=
  ∀ source value rest, InPlace.on step source = (.ok value, rest) → valid value ∧ source = form value ++ rest

/-- A step of reading succeeds exactly on what begins with the form of a valid value. -/
structure Reads (step : Unpickler α) (form : α → Bytes) (valid : α → Prop) : Prop where
  back : ReadsBack step form valid
  forms : TakesForms step form valid

section

variable {step : Unpickler α} {form : α → Bytes} {valid : α → Prop}

/-- What comes after a field begins where the field ends. -/
theorem ReadsBack.on_bind (h : ReadsBack step form valid) (value : α) (hvalid : valid value)
    (next : α → Unpickler β) (rest : Bytes) :
    InPlace.on (step >>= next) (form value ++ rest) = InPlace.on (next value) rest := by
  rw [InPlace.on_bind, h value rest hvalid]

theorem Reads.iff (h : Reads step form valid) {source : Bytes} {value : α} {rest : Bytes} :
    InPlace.on step source = (.ok value, rest) ↔ valid value ∧ source = form value ++ rest := by
  constructor
  · exact h.forms source value rest
  · rintro ⟨hvalid, rfl⟩
    exact h.back value rest hvalid

theorem Reads.of_iff (h : ∀ source value rest,
    InPlace.on step source = (.ok value, rest) ↔ valid value ∧ source = form value ++ rest) :
    Reads step form valid where
  back value rest hvalid := (h _ value rest).mpr ⟨hvalid, rfl⟩
  forms source value rest := (h source value rest).mp

/-- Reading from the front of a byte string is the step itself. -/
theorem decodeWith_eq_ok_iff {source : Bytes} {value : α} {rest : Bytes} :
    decodeWith step source = .ok (value, rest) ↔ InPlace.on step source = (.ok value, rest) := by
  change (InPlace.on step source).1.map (fun value => (value, (InPlace.on step source).2)) = _ ↔ _
  rcases InPlace.on step source with ⟨outcome, left⟩
  cases outcome with
  | error e => simp [Except.map]
  | ok found => simp [Except.map]

/-- Reading from the front of a byte string fails as the step does. -/
theorem decodeWith_of_error {source left : Bytes} {e : PickleError} (h : InPlace.on step source = (.error e, left)) :
    decodeWith step source = .error e := by
  change (InPlace.on step source).1.map (fun value => (value, (InPlace.on step source).2)) = _
  rw [h]
  rfl

/-- A byte string that is read as a whole is the form of a valid value. -/
theorem Reads.of_decodeAllWith (h : Reads step form valid) {source : Bytes} {value : α}
    (hread : decodeAllWith step source = .ok value) : valid value ∧ source = form value := by
  unfold decodeAllWith at hread
  obtain ⟨⟨found, rest⟩, hfound, hwhole⟩ := bind_eq_ok_iff.mp hread
  cases rest with
  | cons byte rest => cases hwhole
  | nil =>
    obtain rfl := Except.ok.inj hwhole
    have hforms := h.forms _ _ _ (decodeWith_eq_ok_iff.mp hfound)
    rwa [List.append_nil] at hforms

/-- A value inside of another one is read from the front of what is left. -/
theorem on_nested (step : Unpickler α) (source : Bytes) :
    InPlace.on (nested step) source = InPlace.settle source (decodeWith step source) := by
  unfold nested
  rw [InPlace.on_bind, InPlace.on_get]
  dsimp only
  cases decodeWith step source <;> rfl

/-- A value that is read inside of another one is read as it is alone. -/
theorem on_nested_eq_ok_iff {source : Bytes} {value : α} {rest : Bytes} :
    InPlace.on (nested step) source = (.ok value, rest) ↔ InPlace.on step source = (.ok value, rest) := by
  rw [on_nested, InPlace.settle_eq_ok_iff, decodeWith_eq_ok_iff]

/-- So the laws of reading hold inside of another value too. -/
theorem ReadsBack.nested (h : ReadsBack step form valid) : ReadsBack (nested step) form valid :=
  fun value rest hvalid => on_nested_eq_ok_iff.mpr (h value rest hvalid)

theorem TakesForms.nested (h : TakesForms step form valid) : TakesForms (nested step) form valid :=
  fun source value rest hread => h source value rest (on_nested_eq_ok_iff.mp hread)

theorem Reads.nested (h : Reads step form valid) : Reads (nested step) form valid :=
  ⟨h.back.nested, h.forms.nested⟩

end

/-- A field is read as its value, if a value is made of just this one. -/
theorem Reads.map {step : Unpickler α} {form : α → Bytes} {valid : α → Prop} {make : α → β} {left : β → α}
    (h : Reads step form valid) (hmake : ∀ value, make (left value) = value) (hleft : ∀ a, left (make a) = a) :
    Reads (make <$> step) (fun value => form (left value)) fun value => valid (left value) := by
  apply Reads.of_iff
  intro source value rest
  change InPlace.on (step >>= fun a => pure (make a)) source = _ ↔ _
  simp only [InPlace.on_bind_eq_ok_iff, h.iff, InPlace.on_pure_eq_ok_iff]
  constructor
  · rintro ⟨a, _, ⟨ha, rfl⟩, rfl, rfl⟩
    rw [hleft]
    exact ⟨ha, rfl⟩
  · rintro ⟨ha, rfl⟩
    exact ⟨left value, rest, ⟨ha, rfl⟩, hmake value, rfl⟩

/-- Two fields are read one after the other, if a value is made of just these two. -/
theorem Reads.pair {γ : Type} {first : Unpickler α} {second : Unpickler β} {form : α → Bytes} {more : β → Bytes}
    {valid : α → Prop} {allowed : β → Prop} {make : α → β → γ} {left : γ → α} {right : γ → β}
    (hfirst : Reads first form valid) (hsecond : Reads second more allowed)
    (hmake : ∀ value, make (left value) (right value) = value)
    (hparts : ∀ a b, left (make a b) = a ∧ right (make a b) = b) :
    Reads (do let a ← first; let b ← second; pure (make a b))
      (fun value => form (left value) ++ more (right value))
      fun value => valid (left value) ∧ allowed (right value) := by
  apply Reads.of_iff
  intro source value rest
  simp only [InPlace.on_bind_eq_ok_iff, hfirst.iff, hsecond.iff, InPlace.on_pure_eq_ok_iff]
  constructor
  · rintro ⟨a, _, ⟨ha, rfl⟩, b, _, ⟨hb, rfl⟩, rfl, rfl⟩
    obtain ⟨hleft, hright⟩ := hparts a b
    rw [hleft, hright, List.append_assoc]
    exact ⟨⟨ha, hb⟩, rfl⟩
  · rintro ⟨⟨ha, hb⟩, rfl⟩
    exact ⟨left value, _, ⟨ha, List.append_assoc _ _ _⟩, right value, rest, ⟨hb, rfl⟩, hmake value, rfl⟩

/-- What is read does not depend on how validity is put. -/
theorem Reads.congr {step : Unpickler α} {form : α → Bytes} {valid allowed : α → Prop}
    (h : Reads step form valid) (hvalid : ∀ value, allowed value ↔ valid value) : Reads step form allowed :=
  .of_iff fun _ _ _ => by rw [h.iff, hvalid]

/-- Bytes are split off the front, if there are enough of them. -/
theorem on_octets (n : ℕ) (source : Bytes) : InPlace.on (octets n) source =
    InPlace.settle source ((Octets.splitAt? n source).elim (.error (.truncated n source.length)) .ok) := by
  unfold octets
  rw [InPlace.on_bind, InPlace.on_get]
  dsimp only
  cases Octets.splitAt? n source <;> rfl

/-- Bytes are read as they are. -/
theorem reads_octets (n : ℕ) : Reads (octets n) Octets.bytes fun _ => True := by
  apply Reads.of_iff
  intro source value rest
  rw [true_and, ← Octets.splitAt?_eq_some_iff, on_octets, InPlace.settle_eq_ok_iff]
  cases Octets.splitAt? n source <;> simp

/-- A number is read from its four bytes. -/
theorem reads_uint32 : Reads uint32 Bytes.ofUInt32 fun _ => True :=
  (reads_octets 4).map (fun n => toUInt32_ofUInt32 n) fun octets => Octets.ext (ofUInt32_toUInt32 octets)

/-- A truth value is read from the byte 1 or 0, and from no other. -/
theorem reads_bool : Reads bool (fun b => [if b then 1 else 0]) fun _ => True := by
  apply Reads.of_iff
  intro source value rest
  unfold bool
  simp only [InPlace.on_bind_eq_ok_iff, (reads_octets 1).iff, true_and]
  constructor
  · rintro ⟨⟨byte, hlength⟩, _, rfl, hread⟩
    by_cases hfalse : byte = [0]
    · simp only [hfalse, if_true, InPlace.on_pure_eq_ok_iff] at hread ⊢
      obtain ⟨rfl, rfl⟩ := hread
      rfl
    · by_cases htrue : byte = [1]
      · simp only [htrue] at hread ⊢
        obtain ⟨rfl, rfl⟩ := InPlace.on_pure_eq_ok_iff.mp hread
        rfl
      · simp only [hfalse, htrue, if_false, InPlace.on_throw] at hread
        cases hread
  · rintro rfl
    refine ⟨⟨[if value then 1 else 0], rfl⟩, rest, rfl, ?_⟩
    cases value <;> rfl

section

variable [OfPickle α] {form : α → Bytes} {valid : α → Prop}

/-- Values that are read back one by one are read back one after the other. -/
theorem ReadsBack.values (h : ReadsBack (value α) form valid) (count : ℕ) :
    ReadsBack (values α count) (List.flatMap form) fun items => items.length = count ∧ ∀ item ∈ items, valid item := by
  rintro items rest ⟨rfl, hvalid⟩
  induction items with
  | nil => rfl
  | cons item items ih =>
    obtain ⟨hitem, hitems⟩ := List.forall_mem_cons.mp hvalid
    rw [List.flatMap_cons, List.append_assoc]
    exact InPlace.on_bind_eq_ok_iff.mpr ⟨item, _, h item _ hitem,
      InPlace.on_bind_eq_ok_iff.mpr ⟨items, rest, ih hitems, rfl⟩⟩

/-- If each value takes its form, then all of them take their forms. -/
theorem TakesForms.values (h : TakesForms (value α) form valid) (count : ℕ) :
    TakesForms (values α count) (List.flatMap form) fun items => items.length = count ∧ ∀ item ∈ items, valid item := by
  intro source items rest hread
  -- Each element is read from what the ones before it have left.
  induction count generalizing source items with
  | zero =>
    obtain ⟨rfl, rfl⟩ := InPlace.on_pure_eq_ok_iff.mp hread
    exact ⟨⟨rfl, by simp⟩, rfl⟩
  | succ count ih =>
    obtain ⟨item, between, hitem, hlater⟩ := InPlace.on_bind_eq_ok_iff.mp hread
    obtain ⟨others, left, hothers, hdone⟩ := InPlace.on_bind_eq_ok_iff.mp hlater
    obtain ⟨rfl, rfl⟩ := InPlace.on_pure_eq_ok_iff.mp hdone
    obtain ⟨hvalid, rfl⟩ := h source item between hitem
    obtain ⟨⟨hlength, hvalids⟩, rfl⟩ := ih between others hothers
    refine ⟨⟨congrArg (· + 1) hlength, List.forall_mem_cons.mpr ⟨hvalid, hvalids⟩⟩, ?_⟩
    rw [List.flatMap_cons, List.append_assoc]

/-- A value inside of another one is read as it is alone. -/
theorem Reads.value (h : Reads (OfPickle.read : Unpickler α) form valid) :
    Reads (Unpickler.value α) form valid :=
  h.nested

/-- What holds of the elements of a list that is allowed to have so many of them. -/
structure ListValid (max : ℕ) (valid : α → Prop) (items : List α) : Prop where
  length_le : items.length ≤ max
  length_lt : items.length < UInt32.size
  valid : ∀ item ∈ items, valid item

/-- A list is read back if it does not exceed the bound. -/
theorem ReadsBack.list (h : ReadsBack (value α) form valid) (max : ℕ) :
    ReadsBack (list α max) (listForm form) (ListValid max valid) := by
  intro items rest hvalid
  have hcount : (UInt32.ofNat items.length).toNat = items.length := UInt32.toNat_ofNat_of_lt' hvalid.length_lt
  rw [listForm, List.append_assoc]
  refine InPlace.on_bind_eq_ok_iff.mpr ⟨_, _, reads_uint32.back _ _ trivial, ?_⟩
  rw [hcount, if_neg (Nat.not_lt.mpr hvalid.length_le)]
  exact h.values items.length items rest ⟨rfl, hvalid.valid⟩

/-- A list that exceeds the bound is refused when its number of elements has been read, and none of them has. -/
theorem on_list_of_exceeds (form : α → Bytes) {items : List α} {max : ℕ} (hcount : items.length < UInt32.size)
    (hmax : max < items.length) (rest : Bytes) : InPlace.on (list α max) (listForm form items ++ rest) =
      (.error (.malformed .tooManyElements), items.flatMap form ++ rest) := by
  have hlength : (UInt32.ofNat items.length).toNat = items.length := UInt32.toNat_ofNat_of_lt' hcount
  unfold list
  rw [listForm, List.append_assoc, InPlace.on_bind, reads_uint32.back _ _ trivial]
  dsimp only
  rw [hlength, if_pos hmax]
  rfl

/-- A list takes its number of elements and their forms. -/
theorem TakesForms.list (h : TakesForms (value α) form valid) (max : ℕ) :
    TakesForms (list α max) (listForm form) (ListValid max valid) := by
  intro source items rest hread
  obtain ⟨count, between, hcount, hitems⟩ := InPlace.on_bind_eq_ok_iff.mp hread
  obtain ⟨-, rfl⟩ := reads_uint32.forms source count between hcount
  by_cases hmax : max < count.toNat
  · simp only [hmax, if_true, InPlace.on_throw] at hitems
    cases hitems
  · simp only [hmax, if_false] at hitems
    obtain ⟨⟨hlength, hvalid⟩, rfl⟩ := h.values count.toNat between items rest hitems
    refine ⟨⟨?_, ?_, hvalid⟩, ?_⟩
    · rw [hlength]
      exact Nat.not_lt.mp hmax
    · rw [hlength]
      exact count.toNat_lt_size
    · rw [listForm, hlength, UInt32.ofNat_toNat, List.append_assoc]

theorem Reads.list (h : Reads (OfPickle.read : Unpickler α) form valid) (max : ℕ) :
    Reads (Unpickler.list α max) (listForm form) (ListValid max valid) :=
  ⟨h.value.back.list max, h.value.forms.list max⟩

end

end Unpickler

/-- Any 32 bytes are a key of the key agreement. -/
theorem Curve25519Key.reads :
    Unpickler.Reads OfPickle.read (fun key : Curve25519Key => key.octets.bytes) fun _ => True :=
  (Unpickler.reads_octets 32).map (fun _ => rfl) fun _ => rfl

/-- A signing key has to be a point of the curve. -/
theorem Ed25519Key.reads [Suite] :
    Unpickler.Reads OfPickle.read (fun key : Ed25519Key => key.octets.bytes) fun key => Suite.isPoint key = true := by
  apply Unpickler.Reads.of_iff
  intro source key rest
  simp only [OfPickle.read, InPlace.on_bind_eq_ok_iff, (Unpickler.reads_octets 32).iff, true_and]
  constructor
  · rintro ⟨taken, _, rfl, hread⟩
    unfold ofOctets? at hread
    by_cases hpoint : Suite.isPoint ⟨taken⟩ = true
    · simp only [hpoint, if_true, InPlace.on_pure_eq_ok_iff] at hread
      obtain ⟨rfl, rfl⟩ := hread
      exact ⟨hpoint, rfl⟩
    · simp only [hpoint] at hread
      cases hread
  · rintro ⟨hpoint, rfl⟩
    refine ⟨key.octets, rest, rfl, ?_⟩
    have hkey : ofOctets? key.octets = some key := if_pos hpoint
    simp only [hkey]
    rfl

end RoomCrypt
