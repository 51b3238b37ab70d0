/-!
# Calls that can fail

A call without side effects gives a new state if it succeeds and nothing if it fails. A call in
place writes its state as it goes, and what it wrote before a failure stays. The two agree when the
call in place ends as the other one says: with the new state after a success, and with the state
from before after a failure.
-/

namespace RoomCrypt

variable {σ τ ε α β : Type}

/-- A composed call succeeds exactly if both of its parts do. -/
theorem bind_eq_ok_iff {call : Except ε α} {next : α → Except ε β} {result : β} :
    call >>= next = .ok result ↔ ∃ value, call = .ok value ∧ next value = .ok result := by
  cases call with
  | error e => simp [bind, Except.bind]
  | ok value => simp [bind, Except.bind]

/-- A call succeeds whatever its errors are called. -/
theorem eq_ok_of_mapError_eq_ok {δ : Type} {f : ε → δ} {call : Except ε α} {value : α}
    (h : call.mapError f = .ok value) : call = .ok value := by
  cases call with
  | error e => cases h
  | ok found => exact congrArg Except.ok (Except.ok.inj h)

/-- Calls of which each succeeds on its condition, and fails in one way otherwise, succeed together if all of the
conditions hold. -/
theorem mapM_eq_ite {f : α → Except ε β} {g : α → β} {e : ε} {p : α → Prop} [DecidablePred p] {values : List α}
    (h : ∀ value ∈ values, f value = if p value then .ok (g value) else .error e) :
    values.mapM f = if ∀ value ∈ values, p value then .ok (values.map g) else .error e := by
  induction values with
  | nil => simp [pure, Except.pure]
  | cons value values ih =>
    obtain ⟨hvalue, hvalues⟩ := List.forall_mem_cons.mp h
    rw [List.mapM_cons, hvalue, ih hvalues]
    by_cases hfirst : p value
    · by_cases hrest : ∀ other ∈ values, p other
      · rw [if_pos hfirst, if_pos hrest, if_pos (List.forall_mem_cons.mpr ⟨hfirst, hrest⟩)]
        rfl
      · rw [if_pos hfirst, if_neg hrest, if_neg fun hall => hrest (List.forall_mem_cons.mp hall).2]
        rfl
    · rw [if_neg hfirst, if_neg fun hall => hfirst (List.forall_mem_cons.mp hall).1]
      rfl

/-- Calls of which each succeeds succeed together. -/
theorem mapM_eq_ok {f : α → Except ε β} {g : α → β} {values : List α} (h : ∀ value ∈ values, f value = .ok (g value)) :
    values.mapM f = .ok (values.map g) := by
  induction values with
  | nil => rfl
  | cons value values ih =>
    obtain ⟨hvalue, hvalues⟩ := List.forall_mem_cons.mp h
    rw [List.mapM_cons, hvalue, ih hvalues]
    rfl

/-- The elements of a list are read together exactly if each of them is. -/
theorem mapM_eq_some_iff {read : α → Option β} {values : List α} {found : List β} :
    values.mapM read = some found ↔ values.map read = found.map some := by
  induction values generalizing found with
  | nil => cases found <;> simp
  | cons value values ih =>
    cases found with
    | nil => simp [List.mapM_cons, Option.bind_eq_some_iff]
    | cons first found => simp [List.mapM_cons, Option.bind_eq_some_iff, ih]

/-- A call that writes its state as it goes. -/
abbrev InPlace (σ ε α : Type) := ExceptT ε (StateM σ) α

namespace InPlace

/-- The outcome of a call on a state, and the state that it leaves. -/
def on (call : InPlace σ ε α) (state : σ) : Except ε α × σ :=
  (ExceptT.run call).run state

/-- The outcome of a call without side effects, and the state that goes with it. -/
def settle (state : σ) : Except ε (α × σ) → Except ε α × σ
  | .ok (value, after) => (.ok value, after)
  | .error e => (.error e, state)

/-- A call on a part of a state. -/
def zoom (part : σ → τ) (put : τ → σ → σ) (call : InPlace τ ε α) : InPlace σ ε α :=
  ExceptT.mk fun state =>
    let (outcome, after) := call.on (part state)
    pure (outcome, put after state)

@[simp] theorem on_pure (value : α) (state : σ) :
    (pure value : InPlace σ ε α).on state = (.ok value, state) := rfl

@[simp] theorem on_throw (e : ε) (state : σ) :
    (throw e : InPlace σ ε α).on state = (.error e, state) := rfl

@[simp] theorem on_lift (call : Except ε α) (state : σ) :
    (liftM call : InPlace σ ε α).on state = (call, state) := by
  cases call <;> rfl

/-- What comes next works on the state that is left, and not at all after a failure. -/
theorem on_bind (call : InPlace σ ε α) (next : α → InPlace σ ε β) (state : σ) :
    (call >>= next).on state =
      match call.on state with
      | (.ok value, after) => (next value).on after
      | (.error e, after) => (.error e, after) := by
  unfold on ExceptT.run StateT.run
  simp only [bind, ExceptT.bind, ExceptT.mk, StateT.bind]
  rcases call state with ⟨outcome, after⟩
  cases outcome <;> rfl

@[simp] theorem on_get (state : σ) :
    (get : InPlace σ ε σ).on state = (.ok state, state) := rfl

@[simp] theorem on_modify (change : σ → σ) (state : σ) :
    (modify change : InPlace σ ε PUnit).on state = (.ok ⟨⟩, change state) := rfl

/-- A call on a part of a state leaves the rest alone. -/
theorem on_zoom (part : σ → τ) (put : τ → σ → σ) (call : InPlace τ ε α) (state : σ) :
    (zoom part put call).on state = ((call.on (part state)).1, put (call.on (part state)).2 state) := rfl

/-- A composed call succeeds exactly if both of its parts do, the second one on what the first one has
left. -/
theorem on_bind_eq_ok_iff {call : InPlace σ ε α} {next : α → InPlace σ ε β}
    {state after : σ} {result : β} :
    (call >>= next).on state = (.ok result, after) ↔
      ∃ value between, call.on state = (.ok value, between) ∧ (next value).on between = (.ok result, after) := by
  rw [on_bind]
  rcases call.on state with ⟨outcome, between⟩
  cases outcome with
  | error e => simp
  | ok value =>
    constructor
    · intro h
      exact ⟨value, between, rfl, h⟩
    · rintro ⟨_, _, heq, h⟩
      obtain ⟨hvalue, rfl⟩ := Prod.mk.inj heq
      obtain rfl := Except.ok.inj hvalue
      exact h

/-- A call that gives a value without doing anything succeeds. -/
theorem on_pure_eq_ok_iff {value result : α} {state after : σ} :
    (pure value : InPlace σ ε α).on state = (.ok result, after) ↔ value = result ∧ state = after := by
  simp

/-- What comes after a check succeeds if the check is passed. -/
theorem on_unless_eq_ok_iff {p : Prop} [Decidable p] {e : ε} {next : InPlace σ ε α}
    {state after : σ} {result : α} :
    (if p then (throw e : InPlace σ ε PUnit) >>= fun _ => next else next).on state = (.ok result, after) ↔
      ¬ p ∧ next.on state = (.ok result, after) := by
  by_cases hp : p
  · simp [hp]
  · simp [hp]

/-- A call that fails leaves its state as it was. -/
def LeavesNoTrace (call : InPlace σ ε α) : Prop :=
  ∀ state e after, call.on state = (.error e, after) → after = state

/-- A call leaves no trace if it ends as some call without side effects would. -/
theorem leavesNoTrace_of_settle {call : InPlace σ ε α}
    (h : ∀ state, ∃ result, call.on state = settle state result) : call.LeavesNoTrace := by
  intro state e after hfails
  obtain ⟨result, hresult⟩ := h state
  rw [hresult] at hfails
  cases result with
  | error e' => exact (Prod.mk.inj hfails).2.symm
  | ok pair => cases (Prod.mk.inj hfails).1

/-- What a call gave is what the call without side effects gives. -/
theorem eq_ok_of_settle {state after : σ} {value : α} {result : Except ε (α × σ)}
    (h : settle state result = (.ok value, after)) : result = .ok (value, after) := by
  cases result with
  | error e => cases (Prod.mk.inj h).1
  | ok pair =>
    obtain ⟨hvalue, rfl⟩ := Prod.mk.inj h
    rw [← Except.ok.inj hvalue]

/-- What a call without side effects gives is the outcome of the call that ends as it says. -/
theorem settle_eq_ok_iff {call : Except ε (α × σ)} {state after : σ} {value : α} :
    settle state call = (.ok value, after) ↔ call = .ok (value, after) := by
  constructor
  · exact eq_ok_of_settle
  · rintro rfl
    rfl

end InPlace

end RoomCrypt
