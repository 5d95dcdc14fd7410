import Vash.Library.Action

/-!
# Parts of a state

A part is a field, or a group of fields, of a state: how to read it and how to
overwrite it. An action that behaves the same whatever a part is overwritten
with neither reads nor changes that part, which is what the frame rule and the
exchange of two actions rest on.

* `Ignores` — overwriting before the action is overwriting after it; closed under
  sequencing and loops.
* `Part.keeps` — the frame rule: an ignored part is unchanged, also where the
  action stops with an error.
-/

namespace Library

variable {ε σ α β π ρ : Type}

/-- A part of the state. -/
structure Part (σ π : Type) where
  get : σ → π
  put : π → σ → σ
  get_put : ∀ p s, get (put p s) = p
  put_get : ∀ s, put (get s) s = s

/-- `patch` leaves the part alone and does not depend on it. -/
structure Part.Spared (part : Part σ π) (patch : σ → σ) : Prop where
  get_patch : ∀ s, part.get (patch s) = part.get s
  patch_put : ∀ p s, patch (part.put p s) = part.put p (patch s)

/-- A change of the part alone commutes with whatever spares the part. -/
theorem Part.Spared.patch_modify {part : Part σ π} {patch : σ → σ} (spared : part.Spared patch)
    (change : π → π) (s : σ) :
    patch (part.put (change (part.get s)) s) =
      part.put (change (part.get (patch s))) (patch s) := by
  rw [spared.patch_put, spared.get_patch]

/-- A result with its state overwritten. -/
def mapState (patch : σ → σ) : EStateM.Result ε σ α → EStateM.Result ε σ α
  | .ok a s => .ok a (patch s)
  | .error e s => .error e (patch s)

@[simp] theorem mapState_ok (patch : σ → σ) (a : α) (s : σ) :
    mapState (ε := ε) patch (.ok a s) = .ok a (patch s) := rfl

@[simp] theorem mapState_error (patch : σ → σ) (e : ε) (s : σ) :
    mapState (α := α) patch (.error e s) = .error e (patch s) := rfl

/-- Overwriting the state before the action is overwriting it after. -/
def Ignores (patch : σ → σ) (action : EStateM ε σ α) : Prop :=
  ∀ s, action (patch s) = mapState patch (action s)

namespace Ignores

variable {patch : σ → σ}

theorem pure (a : α) : Ignores patch (Pure.pure a : EStateM ε σ α) := fun _ => rfl

theorem throw (e : ε) : Ignores patch (MonadExcept.throw e : EStateM ε σ α) := fun _ => rfl

theorem bind {first : EStateM ε σ α} {next : α → EStateM ε σ β} (h : Ignores patch first)
    (rest : ∀ a, Ignores patch (next a)) : Ignores patch (first >>= next) := by
  intro s
  rw [bind_apply, bind_apply, h s]
  cases first s with
  | ok a s' => exact rest a s'
  | error e s' => rfl

theorem forEach {action : α → EStateM ε σ β} {elements : List α}
    (each : ∀ a ∈ elements, Ignores patch (action a)) :
    Ignores patch (Library.forEach action elements) := by
  induction elements with
  | nil => exact pure []
  | cons a rest ih =>
    apply bind (each a List.mem_cons_self)
    intro b
    apply bind (ih fun a mem => each a (List.mem_cons_of_mem _ mem))
    intro bs
    exact pure _

end Ignores

/-- The frame rule: a part the action ignores, whatever it is overwritten with,
stays as it was. -/
theorem Part.keeps (part : Part σ π) {action : EStateM ε σ α}
    (ignored : ∀ p, Ignores (part.put p) action) (s : σ) :
    wp action (fun _ s' => part.get s' = part.get s) (fun _ s' => part.get s' = part.get s) s := by
  have same := ignored (part.get s) s
  rw [part.put_get] at same
  unfold wp
  cases run : action s with
  | ok a s' =>
    rw [run, mapState_ok] at same
    injection same with _ state
    exact (congrArg part.get state).trans (part.get_put _ _)
  | error e s' =>
    rw [run, mapState_error] at same
    injection same with _ state
    exact (congrArg part.get state).trans (part.get_put _ _)

end Library
