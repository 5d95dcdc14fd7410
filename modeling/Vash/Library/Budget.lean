import Vash.Library.Part

/-!
# Actions on a budget

Some resources are used up one by one while a transaction runs, and what is known
of its state depends on how many have been. A `Budget` says what holds once at
most `k` have been spent, and what is left where an action stops for good.

* `Budget.Spends` — the action spends at most `k`; sums over sequencing and loops.
* `Budget.Spends.of_keeps` — an action that keeps the part of the state a budget is
  about spends nothing.
-/

namespace Library

variable {ε σ α β π : Type}

/-- What holds of a state once at most `k` have been spent, and of the error and
state of an action that stopped halfway. -/
structure Budget (ε σ : Type) where
  ok : Nat → σ → Prop
  broken : Nat → ε → σ → Prop
  ok_mono : ∀ {k l s}, k ≤ l → ok k s → ok l s
  broken_mono : ∀ {k l e s}, k ≤ l → broken k e s → broken l e s

namespace Budget

variable {b : Budget ε σ} {k l : Nat}

/-- A budget that is not counted where an action stopped for good. -/
def uncounted (ok : Nat → σ → Prop) (broken : ε → σ → Prop)
    (ok_mono : ∀ {k l s}, k ≤ l → ok k s → ok l s) : Budget ε σ where
  ok
  broken _ := broken
  ok_mono
  broken_mono _ h := h

/-- The action spends at most `k`. -/
def Spends (b : Budget ε σ) (k : Nat) (action : EStateM ε σ α) : Prop :=
  ∀ spent s, b.ok spent s →
    wp action (fun _ s' => b.ok (spent + k) s')
      (fun e s' => b.broken (spent + k) e s' ∨ b.ok (spent + k) s') s

/-- Where an action stopped, more may have been allowed. -/
theorem stopped_mono {e : ε} {s : σ} (le : k ≤ l) (h : b.broken k e s ∨ b.ok k s) :
    b.broken l e s ∨ b.ok l s :=
  h.imp (b.broken_mono le) (b.ok_mono le)

theorem Spends.pure (a : α) (k : Nat) : b.Spends k (Pure.pure a : EStateM ε σ α) :=
  fun _ _ held => wp.pure (b.ok_mono (Nat.le_add_right _ _) held)

theorem Spends.bind {first : EStateM ε σ α} {next : α → EStateM ε σ β} (h : b.Spends k first)
    (rest : ∀ a, b.Spends l (next a)) : b.Spends (k + l) (first >>= next) := by
  intro spent s held
  have le : spent + k ≤ spent + (k + l) := by omega
  apply wp.bind ((h spent s held).stops fun _ _ h => stopped_mono le h)
  intro a s' held'
  have tail := rest a (spent + k) s' held'
  rwa [Nat.add_assoc] at tail

theorem Spends.forEach {action : α → EStateM ε σ β} {elements : List α}
    (each : ∀ a ∈ elements, b.Spends 1 (action a)) :
    b.Spends elements.length (Library.forEach action elements) := by
  induction elements with
  | nil => exact .pure [] 0
  | cons a rest ih =>
    rw [List.length_cons, Nat.add_comm]
    apply (each a List.mem_cons_self).bind
    intro r
    have tail := ih fun a mem => each a (List.mem_cons_of_mem _ mem)
    exact tail.bind fun _ => .pure _ 0

/-- The budget is about one part of the state only. -/
def About (b : Budget ε σ) (part : Part σ π) : Prop :=
  ∀ k s s', part.get s' = part.get s → b.ok k s → b.ok k s'

theorem Spends.of_keeps {part : Part σ π} (about : b.About part) {action : EStateM ε σ α}
    (ignored : ∀ p, Ignores (part.put p) action) (k : Nat) : b.Spends k action := by
  intro spent s held
  have later : ∀ s', part.get s' = part.get s → b.ok (spent + k) s' := fun s' kept =>
    b.ok_mono (Nat.le_add_right _ _) (about spent s s' kept held)
  exact (part.keeps ignored s).mono (fun _ s' kept => later s' kept)
    fun _ s' kept => .inr (later s' kept)

end Budget

end Library
