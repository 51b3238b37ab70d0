import RoomCrypt.Cipher
import RoomCrypt.Proofs.Bytes
import RoomCrypt.Proofs.Call

/-!
# Operations that can fault

Some operations ask for something that nothing checks where they are done: that a difference is not below
zero, that a place lies inside a list, that bytes have the length of a key. A program that does such an
operation where it is not so is stopped. Here the operation gives a fault in that case, and a guarded call is a
call that is written with such operations.

That a guarded call never faults is shown together with what it comes to: it matches a call in place, which has
no faults to give. Matching is put together from the parts of a call, so that the checks that stand in front of an
operation are known where the operation is done.
-/

namespace RoomCrypt

variable {σ τ ε α β μ : Type}

/-- What stops a program. -/
inductive Fault where
  /-- A difference is below zero. -/
  | underflow
  /-- A place, a part or a shift is out of range. -/
  | outOfRange
  /-- Bytes do not have the length that was expected of them. -/
  | wrongLength
  /-- More bytes are derived from a secret than can be. -/
  | tooMuchKeyMaterial
deriving DecidableEq

/-- The result of operations that can fault. -/
abbrev Checked := Except Fault

namespace Checked

/-- The difference of two numbers. -/
def sub (a b : ℕ) : Checked ℕ :=
  if b ≤ a then .ok (a - b) else .error .underflow

/-- The difference of two 32-bit numbers. -/
def sub32 (a b : UInt32) : Checked UInt32 :=
  if b ≤ a then .ok (a - b) else .error .underflow

/-- A 32-bit number without its lowest bits. -/
def shiftRight (n : UInt32) (count : ℕ) : Checked UInt32 :=
  if count < 32 then .ok (n >>> UInt32.ofNat count) else .error .outOfRange

/-- A 32-bit number moved up by some bits. -/
def shiftLeft (n : UInt32) (count : ℕ) : Checked UInt32 :=
  if count < 32 then .ok (n <<< UInt32.ofNat count) else .error .outOfRange

/-- The element at a place of a list. -/
def get (values : List α) (place : ℕ) : Checked α :=
  values[place]?.elim (.error .outOfRange) .ok

/-- The list with another element at a place. -/
def put (values : List α) (place : ℕ) (value : α) : Checked (List α) :=
  if place < values.length then .ok (values.set place value) else .error .outOfRange

/-- The bytes from one place to another. -/
def slice (bytes : Bytes) (start stop : ℕ) : Checked Bytes :=
  if start ≤ stop ∧ stop ≤ bytes.length then .ok ((bytes.drop start).take (stop - start))
  else .error .outOfRange

/-- The bytes before a place and those from there on. -/
def split (bytes : Bytes) (place : ℕ) : Checked (Bytes × Bytes) :=
  if place ≤ bytes.length then .ok (bytes.take place, bytes.drop place) else .error .outOfRange

/-- Bytes copied to where there is room for just `n` of them. -/
def exactly (n : ℕ) (bytes : Bytes) : Checked (Octets n) :=
  (Octets.ofBytes? n bytes).elim (.error .wrongLength) .ok

/-- Bytes derived from a secret: there are at most 255 blocks of them. -/
def expand [Suite] (salt secret info : Bytes) (n : ℕ) : Checked (Octets n) :=
  if n ≤ 255 * 32 then .ok (deriveKey salt secret info n) else .error .tooMuchKeyMaterial

theorem sub_eq {a b : ℕ} (h : b ≤ a) : sub a b = .ok (a - b) :=
  if_pos h

theorem sub32_eq {a b : UInt32} (h : b ≤ a) : sub32 a b = .ok (a - b) :=
  if_pos h

theorem get_eq {values : List α} {place : ℕ} {value : α} (h : values[place]? = some value) :
    get values place = .ok value := by
  rw [get, h]
  rfl

/-- The first byte is there unless there is none. -/
theorem get_zero {bytes : Bytes} (h : 0 < bytes.length) : get bytes 0 = .ok (bytes.headD 0) := by
  obtain ⟨first, rest, rfl⟩ := List.exists_cons_of_length_pos h
  rfl

theorem put_eq {values : List α} {place : ℕ} (h : place < values.length) (value : α) :
    put values place value = .ok (values.set place value) :=
  if_pos h

theorem slice_eq {bytes : Bytes} {start stop : ℕ} (hstart : start ≤ stop) (hstop : stop ≤ bytes.length) :
    slice bytes start stop = .ok ((bytes.drop start).take (stop - start)) :=
  if_pos ⟨hstart, hstop⟩

/-- The bytes between two others. -/
theorem slice_append (before middle after : Bytes) :
    slice (before ++ (middle ++ after)) before.length (before.length + middle.length) = .ok middle := by
  rw [slice_eq (Nat.le_add_right _ _) (by simp), List.drop_left, Nat.add_sub_cancel_left, List.take_left]

/-- The bytes from a place on. -/
theorem slice_from {bytes : Bytes} {start : ℕ} (hstart : start ≤ bytes.length) :
    slice bytes start bytes.length = .ok (bytes.drop start) := by
  rw [slice_eq hstart (Nat.le_refl _), List.take_of_length_le (Nat.le_of_eq List.length_drop)]

theorem split_eq {bytes : Bytes} {place : ℕ} (h : place ≤ bytes.length) :
    split bytes place = .ok (bytes.take place, bytes.drop place) :=
  if_pos h

theorem exactly_eq {n : ℕ} {bytes : Bytes} (h : bytes.length = n) : exactly n bytes = .ok ⟨bytes, h⟩ := by
  rw [exactly, Octets.ofBytes?, dif_pos h]
  rfl

@[simp] theorem exactly_bytes {n : ℕ} (octets : Octets n) : exactly n octets.bytes = .ok octets :=
  exactly_eq octets.length_eq

/-- The bytes from one place to another, copied to where there is room for just `count` of them. -/
def part (bytes : Bytes) (start stop count : ℕ) : Checked (Octets count) := do
  exactly count (← slice bytes start stop)

/-- A part that lies inside and has the length that is expected of it is there. -/
theorem part_octets {n : ℕ} (octets : Octets n) (start count : ℕ) {stop : ℕ} (h : start + count ≤ n)
    (hstop : stop = start + count) : part octets.bytes start stop count = .ok (octets.slice start count h) := by
  subst hstop
  rw [part, slice_eq (Nat.le_add_right _ _) (by rwa [octets.length_eq]), Nat.add_sub_cancel_left]
  exact exactly_bytes (octets.slice start count h)

theorem expand_eq [Suite] (salt secret info : Bytes) {n : ℕ} (h : n ≤ 255 * 32) :
    expand salt secret info n = .ok (deriveKey salt secret info n) :=
  if_pos h

end Checked

/-- A call that writes its state as it goes and is written with operations that can fault. -/
abbrev Guarded (σ ε α : Type) := ExceptT ε (StateT σ Checked) α

namespace Guarded

/-- The outcome of a call on a state, and the state that it leaves, if there is no fault. -/
def on (call : Guarded σ ε α) (state : σ) : Checked (Except ε α × σ) :=
  (ExceptT.run call).run state

@[simp] theorem on_throw (e : ε) (state : σ) :
    (throw e : Guarded σ ε α).on state = .ok (.error e, state) := rfl

@[simp] theorem on_get (state : σ) : (get : Guarded σ ε σ).on state = .ok (.ok state, state) := rfl

@[simp] theorem on_set (after state : σ) : (set after : Guarded σ ε PUnit).on state = .ok (.ok ⟨⟩, after) := rfl

/-- An operation that gives no fault gives its value and leaves the state. -/
theorem on_checked {operation : Checked α} {value : α} (h : operation = .ok value) (state : σ) :
    (liftM operation : Guarded σ ε α).on state = .ok (.ok value, state) := by
  rw [h]
  rfl

/-- What comes next works on the state that is left, and not at all after a failure. -/
theorem on_bind (call : Guarded σ ε α) (next : α → Guarded σ ε β) (state : σ) :
    (call >>= next).on state = call.on state >>= fun
      | (.ok value, after) => (next value).on after
      | (.error e, after) => .ok (.error e, after) := by
  unfold on ExceptT.run StateT.run
  simp only [bind, ExceptT.bind, ExceptT.mk, StateT.bind]
  rcases call state with fault | ⟨outcome, after⟩
  · rfl
  · cases outcome <;> rfl

/-- So it is if the call gives a value. -/
theorem on_bind_of_ok {call : Guarded σ ε α} {value : α} {state after : σ}
    (h : call.on state = .ok (.ok value, after)) (next : α → Guarded σ ε β) :
    (call >>= next).on state = (next value).on after := by
  rw [on_bind, h]
  rfl

/-- And if it fails. -/
theorem on_bind_of_error {call : Guarded σ ε α} {e : ε} {state after : σ}
    (h : call.on state = .ok (.error e, after)) (next : α → Guarded σ ε β) :
    (call >>= next).on state = .ok (.error e, after) := by
  rw [on_bind, h]
  rfl

/-- A call on a part of a state. -/
def zoom (part : σ → τ) (put : τ → σ → σ) (call : Guarded τ ε α) : Guarded σ ε α :=
  ExceptT.mk fun state => do
    let (outcome, after) ← call.on (part state)
    pure (outcome, put after state)

/-- A call that has no operations that can fault. -/
def ofInPlace (step : InPlace σ ε α) : Guarded σ ε α :=
  ExceptT.mk fun state => .ok (step.on state)

/-- What comes after an operation that gives no fault works on its value. -/
theorem on_checked_bind {operation : Checked α} {value : α} (h : operation = .ok value) (next : α → Guarded σ ε β)
    (state : σ) : (liftM operation >>= next).on state = (next value).on state :=
  on_bind_of_ok (on_checked h state) next

/-- A guarded call matches a call in place on a pair of states: there is no fault, the outcome is the same
and the states that are left are related. -/
def Matches (related : σ → τ → Prop) (call : Guarded σ ε α) (step : InPlace τ ε α) (s : σ) (t : τ) : Prop :=
  ∃ after, call.on s = .ok ((step.on t).1, after) ∧ related after (step.on t).2

section

variable {related : σ → τ → Prop} {s : σ} {t : τ}

theorem matches_pure (h : related s t) (value : α) :
    Matches related (pure value : Guarded σ ε α) (pure value) s t :=
  ⟨s, rfl, h⟩

theorem matches_throw (h : related s t) (e : ε) :
    Matches related (throw e : Guarded σ ε α) (throw e) s t :=
  ⟨s, rfl, h⟩

/-- Composed calls match if their parts do. -/
theorem Matches.bind {call : Guarded σ ε α} {step : InPlace τ ε α} (h : call.Matches related step s t)
    {next : α → Guarded σ ε β} {further : α → InPlace τ ε β}
    (hnext : ∀ value s' t', step.on t = (.ok value, t') → related s' t' →
      (next value).Matches related (further value) s' t') :
    (call >>= next).Matches related (step >>= further) s t := by
  obtain ⟨between, hcall, hrelated⟩ := h
  unfold Matches
  rw [InPlace.on_bind]
  rcases hstep : step.on t with ⟨outcome, left⟩
  rw [hstep] at hcall hrelated
  cases outcome with
  | error e => exact ⟨between, on_bind_of_error hcall next, hrelated⟩
  | ok value =>
    rw [on_bind_of_ok hcall]
    exact hnext value between left hstep hrelated

/-- An operation that gives no fault can stand before a call. -/
theorem Matches.checked {operation : Checked α} {value : α} (h : operation = .ok value)
    {next : α → Guarded σ ε β} {step : InPlace τ ε β} (hnext : (next value).Matches related step s t) :
    (liftM operation >>= next).Matches related step s t := by
  unfold Matches
  rwa [on_checked_bind h]

end

/-- On one state, what comes next works on the state that is left on both sides. -/
theorem Matches.then {call : Guarded σ ε α} {step : InPlace σ ε α} {state : σ} (h : call.Matches Eq step state state)
    {next : α → Guarded σ ε β} {further : α → InPlace σ ε β}
    (hnext : ∀ value after, step.on state = (.ok value, after) →
      (next value).Matches Eq (further value) after after) :
    (call >>= next).Matches Eq (step >>= further) state state :=
  h.bind fun value _ after hstep heq => heq ▸ hnext value after hstep

/-- A call whose outcome is known and that leaves the state is matched by the outcome. -/
theorem matches_lift {call : Guarded σ ε α} {outcome : Except ε α} {state : σ}
    (h : call.on state = .ok (outcome, state)) : call.Matches Eq (liftM outcome) state state :=
  ⟨state, by rw [h, InPlace.on_lift], by rw [InPlace.on_lift]⟩

theorem matches_get (state : σ) : Matches Eq (get : Guarded σ ε σ) get state state :=
  ⟨state, rfl, rfl⟩

theorem matches_modify (change : σ → σ) (state : σ) :
    Matches Eq (modify change : Guarded σ ε PUnit) (modify change) state state :=
  ⟨change state, rfl, rfl⟩

theorem matches_ofInPlace (step : InPlace σ ε α) (state : σ) : (ofInPlace step).Matches Eq step state state :=
  ⟨(step.on state).2, rfl, rfl⟩

/-- What is true of a part of a state is true of the state. -/
theorem Matches.zoom {part : σ → τ} {put : τ → σ → σ} {call : Guarded τ ε α} {step : InPlace τ ε α} {state : σ}
    (h : call.Matches Eq step (part state) (part state)) :
    (zoom part put call).Matches Eq (InPlace.zoom part put step) state state := by
  obtain ⟨after, hcall, rfl⟩ := h
  refine ⟨put (step.on (part state)).2 state, ?_, ?_⟩
  · change call.on (part state) >>= _ = _
    rw [hcall, InPlace.on_zoom]
    rfl
  · rw [InPlace.on_zoom]

/-- What a call comes to on a state that it matches. -/
theorem Matches.on_eq {call : Guarded σ ε α} {step : InPlace σ ε α} {state : σ} (h : call.Matches Eq step state state) :
    call.on state = .ok (step.on state) := by
  obtain ⟨after, hcall, rfl⟩ := h
  exact hcall

/-- One call after the other, whatever the ones before it came to. -/
def each (call : μ → Guarded σ ε α) : List μ → σ → Checked (List (Except ε α) × σ)
  | [], state => .ok ([], state)
  | message :: rest, state => do
    let (outcome, state) ← (call message).on state
    let (outcomes, state) ← each call rest state
    pure (outcome :: outcomes, state)

end Guarded

/-- The outcomes of calls without side effects, one after the other: one that fails leaves the state. -/
def InPlace.settleAll (call : σ → μ → Except ε (α × σ)) : List μ → σ → List (Except ε α) × σ
  | [], state => ([], state)
  | message :: rest, state =>
    let (outcome, state) := settle state (call state message)
    let (outcomes, state) := settleAll call rest state
    (outcome :: outcomes, state)

/-- If no single call gives a fault, no sequence of them does. -/
theorem Guarded.each_eq {guarded : μ → Guarded σ ε α} {call : σ → μ → Except ε (α × σ)}
    (h : ∀ message state, (guarded message).on state = .ok (InPlace.settle state (call state message)))
    (messages : List μ) (state : σ) : each guarded messages state = .ok (InPlace.settleAll call messages state) := by
  induction messages generalizing state with
  | nil => rfl
  | cons message rest ih =>
    rw [each, h]
    change (each guarded rest (InPlace.settle state (call state message)).2 >>= _) = _
    rw [ih]
    rfl

/-- The cipher of a secret in a context, cut out of the bytes that are derived from it. -/
def Cipher.deriveGuarded [Suite] (secret : Bytes) (context : String) : Checked Cipher := do
  let keys ← Checked.expand noSalt secret context.toUTF8.toList 80
  let key ← Checked.part keys.bytes 0 32 32
  let macKey ← Checked.part keys.bytes 32 64 32
  let iv ← Checked.part keys.bytes 64 80 16
  pure ⟨key, macKey, iv⟩

theorem Cipher.deriveGuarded_eq [Suite] (secret : Bytes) (context : String) :
    deriveGuarded secret context = .ok (derive secret context) := by
  rw [deriveGuarded, Checked.expand_eq _ _ _ (by decide)]
  simp only [bind, Except.bind]
  rw [Checked.part_octets _ 0 32 (by decide) rfl, Checked.part_octets _ 32 32 (by decide) rfl,
    Checked.part_octets _ 64 16 (by decide) rfl]
  rfl

end RoomCrypt
