/-
# Actions over a state, with failure

A transaction body reads and changes a state and may stop with an error; what it
changed before stopping is still there for its caller to see. `EStateM` is that
computation, and this module is the logic used to reason about it.

* `wp` — the weakest precondition for two postconditions, one on the result an
  action returns and one on the error it stops with.
* `wp.bind`, `wp.mono`, `wp.forEach` — sequencing, weakening, and the invariant
  rule for loops, so that a caller cites the rule of what it calls and never
  unfolds it.
* `returned` — what an action returns, errors set aside, for comparing two actions.
-/

import Mathlib

namespace Library

variable {ε σ α β : Type}

/-- From `s`, the action either returns with `post` or stops with `fail`. -/
def wp (action : EStateM ε σ α) (post : α → σ → Prop) (fail : ε → σ → Prop) (s : σ) : Prop :=
  match action s with
  | .ok a s' => post a s'
  | .error e s' => fail e s'

section Rules

variable {post post' : α → σ → Prop} {fail fail' : ε → σ → Prop} {s : σ}

theorem wp_iff {action : EStateM ε σ α} :
    wp action post fail s ↔
      (∀ a s', action s = .ok a s' → post a s') ∧ ∀ e s', action s = .error e s' → fail e s' := by
  unfold wp
  cases action s with
  | ok a s' => simp
  | error e s' => simp

theorem wp.of_ok {action : EStateM ε σ α} (h : wp action post fail s) {a : α} {s' : σ}
    (run : action s = .ok a s') : post a s' := (wp_iff.mp h).1 a s' run

theorem wp.of_error {action : EStateM ε σ α} (h : wp action post fail s) {e : ε} {s' : σ}
    (run : action s = .error e s') : fail e s' := (wp_iff.mp h).2 e s' run

theorem wp.mono {action : EStateM ε σ α} (h : wp action post fail s)
    (ok : ∀ a s', post a s' → post' a s') (err : ∀ e s', fail e s' → fail' e s') :
    wp action post' fail' s := by
  rw [wp_iff] at h ⊢
  exact ⟨fun a s' run => ok a s' (h.1 a s' run), fun e s' run => err e s' (h.2 e s' run)⟩

theorem wp.imp {action : EStateM ε σ α} (h : wp action post fail s)
    (ok : ∀ a s', post a s' → post' a s') : wp action post' fail s :=
  h.mono ok fun _ _ hf => hf

theorem wp.stops {action : EStateM ε σ α} (h : wp action post fail s)
    (err : ∀ e s', fail e s' → fail' e s') : wp action post fail' s :=
  h.mono (fun _ _ hp => hp) err

theorem wp.and {action : EStateM ε σ α} (h : wp action post fail s)
    (h' : wp action post' fail' s) :
    wp action (fun a s' => post a s' ∧ post' a s') (fun e s' => fail e s' ∧ fail' e s') s := by
  rw [wp_iff] at h h' ⊢
  exact ⟨fun a s' run => ⟨h.1 a s' run, h'.1 a s' run⟩,
    fun e s' run => ⟨h.2 e s' run, h'.2 e s' run⟩⟩

theorem wp.trivial (action : EStateM ε σ α) (s : σ) :
    wp action (fun _ _ => True) (fun _ _ => True) s := by
  unfold wp
  split <;> exact True.intro

theorem wp.pure {a : α} (h : post a s) : wp (Pure.pure a : EStateM ε σ α) post fail s := h

theorem wp.throw {e : ε} (h : fail e s) : wp (throw e : EStateM ε σ α) post fail s := h

theorem wp.get_bind {next : σ → EStateM ε σ α} (h : wp (next s) post fail s) :
    wp (MonadState.get >>= next) post fail s := h

theorem wp.set_bind {next : PUnit → EStateM ε σ α} {s' : σ} (h : wp (next ⟨⟩) post fail s') :
    wp (MonadStateOf.set s' >>= next) post fail s := h

theorem wp.modify {post : PUnit → σ → Prop} {f : σ → σ} (h : post ⟨⟩ (f s)) :
    wp (modifyGet fun s => (⟨⟩, f s) : EStateM ε σ PUnit) post fail s := h

theorem wp.modify_bind {next : PUnit → EStateM ε σ α} {f : σ → σ}
    (h : wp (next ⟨⟩) post fail (f s)) :
    wp ((modifyGet fun s => (⟨⟩, f s) : EStateM ε σ PUnit) >>= next) post fail s := h

/-- What a sequence of two actions does. -/
theorem bind_apply (first : EStateM ε σ α) (next : α → EStateM ε σ β) (s : σ) :
    (first >>= next) s =
      match first s with
      | .ok a s' => next a s'
      | .error e s' => .error e s' := rfl

/-- Sequencing: the second action starts from what the first one promises. -/
theorem wp.bind {first : EStateM ε σ α} {next : α → EStateM ε σ β} {post : β → σ → Prop}
    {m : α → σ → Prop} (h : wp first m fail s)
    (rest : ∀ a s', m a s' → wp (next a) post fail s') : wp (first >>= next) post fail s := by
  unfold wp at h ⊢
  rw [bind_apply]
  cases run : first s with
  | ok a s' =>
    rw [run] at h
    exact rest a s' h
  | error e s' =>
    rw [run] at h
    exact h

end Rules

/-! ### What an action returns -/

/-- The result and the state an action returned with, if it did not stop. -/
def returned : EStateM.Result ε σ α → Option (α × σ)
  | .ok a s => some (a, s)
  | .error _ _ => none

@[simp] theorem returned_bind (first : EStateM ε σ α) (next : α → EStateM ε σ β) (s : σ) :
    returned ((first >>= next) s) = (returned (first s)).bind fun r => returned (next r.1 r.2) := by
  rw [bind_apply]
  cases first s with
  | ok a s' => rfl
  | error e s' => rfl

theorem returned_get_bind (next : σ → EStateM ε σ α) (s : σ) :
    returned ((MonadState.get >>= next) s) = returned (next s s) := rfl

theorem returned_set_bind (next : PUnit → EStateM ε σ α) (s s' : σ) :
    returned ((MonadStateOf.set s' >>= next) s) = returned (next ⟨⟩ s') := rfl

/-- A postcondition sharpened by what the action is known to return. -/
theorem wp.of_returned {action : EStateM ε σ α} {post post' : α → σ → Prop} {fail : ε → σ → Prop}
    {s : σ} (h : wp action post fail s)
    (ok : ∀ a s', returned (action s) = some (a, s') → post a s' → post' a s') :
    wp action post' fail s := by
  rw [wp_iff] at h ⊢
  exact ⟨fun a s' run => ok a s' (by rw [run]; rfl) (h.1 a s' run), h.2⟩

/-! ### Loops -/

/-- Run an action on each element, in order, stopping at the first error. -/
def forEach (action : α → EStateM ε σ β) : List α → EStateM ε σ (List β)
  | [] => pure []
  | a :: rest => do
      let b ← action a
      let bs ← forEach action rest
      return b :: bs

/-- The loop rule: `inv done results s` says what holds once the elements of
`done` have produced `results`. -/
theorem wp.forEach {action : α → EStateM ε σ β} {fail : ε → σ → Prop}
    (inv : List α → List β → σ → Prop) {elements : List α} {s : σ} (start : inv [] [] s)
    (step : ∀ done a todo results s, elements = done ++ a :: todo → inv done results s →
      wp (action a) (fun b s' => inv (done ++ [a]) (results ++ [b]) s') fail s) :
    wp (forEach action elements) (fun results s' => inv elements results s') fail s := by
  -- Generalised over the part of the list already handled.
  suffices general : ∀ todo done results s, elements = done ++ todo → inv done results s →
      wp (Library.forEach action todo)
        (fun more s' => inv elements (results ++ more) s') fail s by
    simpa using general elements [] [] s rfl start
  intro todo
  induction todo with
  | nil =>
    intro done results s split held
    rw [List.append_nil] at split
    exact wp.pure (by simpa [split] using held)
  | cons a todo ih =>
    intro done results s split held
    refine wp.bind (step done a todo results s split held) fun b s' held' => ?_
    refine wp.bind (ih (done ++ [a]) (results ++ [b]) s' (by simp [split]) held') ?_
    intro more s'' finished
    exact wp.pure (by simpa using finished)

/-! ### Invariants -/

/-- The action keeps `inv`; where it stops with an error, `fail` holds. -/
def Preserves (inv : σ → Prop) (fail : ε → σ → Prop) (action : EStateM ε σ α) : Prop :=
  ∀ s, inv s → wp action (fun _ s' => inv s') fail s

section Preserves

variable {inv : σ → Prop} {fail : ε → σ → Prop}

theorem Preserves.pure (a : α) : Preserves inv fail (Pure.pure a : EStateM ε σ α) :=
  fun _ held => wp.pure held

theorem Preserves.throw {e : ε} (stops : ∀ s, inv s → fail e s) :
    Preserves inv fail (MonadExcept.throw e : EStateM ε σ α) :=
    fun s held => wp.throw (stops s held)

theorem Preserves.bind {first : EStateM ε σ α} {next : α → EStateM ε σ β}
    (h : Preserves inv fail first) (rest : ∀ a, Preserves inv fail (next a)) :
    Preserves inv fail (first >>= next) :=
  fun s held => wp.bind (h s held) fun a s' held' => rest a s' held'

theorem Preserves.forEach {action : α → EStateM ε σ β} {elements : List α}
    (each : ∀ a ∈ elements, Preserves inv fail (action a)) :
    Preserves inv fail (forEach action elements) := by
  intro s held
  refine wp.forEach (fun _ _ s' => inv s') held ?_
  intro done a todo _ s' split held'
  exact each a (by simp [split]) s' held'

end Preserves

end Library
