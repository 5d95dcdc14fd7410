import Mathlib

/-!
# Numbers on lease

Numbers below a limit are lent, each to one holder at a time. A number that has come
back is lent again before a new one is taken from a counter. A holder that leaves may
also keep its number for ever.

* `Leased` — who holds which number, and what has come back.
* `Leased.reuse`, `Leased.grow`, `Leased.giveBack`, `Leased.lose`, `Leased.skip` — the
  moves that keep it.
-/

namespace Library

variable {τ : Type}

/-- No number is held twice, or held and free at once, and the counter is past them all. -/
structure Leased (limit : Nat) (holds : τ → Option Nat) (freed : List Nat) (next : Nat) : Prop where
  alone : ∀ t u i, holds t = some i → holds u = some i → t = u
  distinct : freed.Nodup
  away : ∀ i ∈ freed, ∀ t, holds t ≠ some i
  lent : ∀ t i, holds t = some i → i < limit ∧ i < next
  returned : ∀ i ∈ freed, i < limit ∧ i < next

namespace Leased

variable {limit next : Nat} {holds : τ → Option Nat} {freed : List Nat}

theorem start : Leased limit (fun _ : τ => none) [] 0 :=
  ⟨by simp, List.nodup_nil, by simp, by simp, by simp⟩

/-- Past the limit the counter lends nothing, whatever it shows. -/
theorem skip {next' : Nat} (leased : Leased limit holds freed next) (past : limit ≤ next') :
    Leased limit holds freed next' := by
  refine ⟨leased.alone, leased.distinct, leased.away, fun t i held => ?_, fun i mem => ?_⟩
  · have low := (leased.lent t i held).1
    omega
  · have low := (leased.returned i mem).1
    omega

variable [DecidableEq τ] {t : τ}

theorem holds_update {t u : τ} {x : Option Nat} {i : Nat}
    (held : Function.update holds t x u = some i) :
    u = t ∧ x = some i ∨ u ≠ t ∧ holds u = some i := by
  by_cases here : u = t
  · subst here
    exact .inl ⟨rfl, by simpa using held⟩
  · exact .inr ⟨here, by simpa [here] using held⟩

/-- A number nobody holds is lent. -/
theorem lend (leased : Leased limit holds freed next) {i : Nat} (low : i < limit)
    (below : i < next) (unheld : ∀ u, holds u ≠ some i) (gone : i ∉ freed) :
    Leased limit (Function.update holds t (some i)) freed next := by
  refine ⟨fun u v j heldU heldV => ?_, leased.distinct, fun j mem u held => ?_,
    fun u j held => ?_, leased.returned⟩
  · rcases holds_update heldU with ⟨rfl, eqU⟩ | ⟨-, oldU⟩ <;>
      rcases holds_update heldV with ⟨rfl, eqV⟩ | ⟨-, oldV⟩
    · rfl
    · exact absurd (eqU ▸ oldV) (unheld v)
    · exact absurd (eqV ▸ oldU) (unheld u)
    · exact leased.alone u v j oldU oldV
  · rcases holds_update held with ⟨-, eq⟩ | ⟨-, old⟩
    · obtain rfl := Option.some.inj eq
      exact gone mem
    · exact leased.away j mem u old
  · rcases holds_update held with ⟨-, eq⟩ | ⟨-, old⟩
    · obtain rfl := Option.some.inj eq
      exact ⟨low, below⟩
    · exact leased.lent u j old

/-- The number that came back last is lent again. -/
theorem reuse {i : Nat} (leased : Leased limit holds (i :: freed) next) :
    Leased limit (Function.update holds t (some i)) freed next := by
  obtain ⟨fresh, distinct⟩ := List.nodup_cons.mp leased.distinct
  obtain ⟨low, below⟩ := leased.returned i List.mem_cons_self
  have rest : Leased limit holds freed next :=
    ⟨leased.alone, distinct, fun j mem => leased.away j (List.mem_cons_of_mem _ mem), leased.lent,
      fun j mem => leased.returned j (List.mem_cons_of_mem _ mem)⟩
  exact rest.lend low below (leased.away i List.mem_cons_self) fresh

/-- The counter lends the number it shows. -/
theorem grow (leased : Leased limit holds freed next) (low : next < limit) :
    Leased limit (Function.update holds t (some next)) freed (next + 1) := by
  have wider : Leased limit holds freed (next + 1) :=
    ⟨leased.alone, leased.distinct, leased.away,
      fun u i held => (leased.lent u i held).imp_right Nat.lt_succ_of_lt,
      fun i mem => (leased.returned i mem).imp_right Nat.lt_succ_of_lt⟩
  refine wider.lend low (Nat.lt_succ_self next) (fun u held => ?_) fun mem => ?_
  · exact (leased.lent u next held).2.false
  · exact (leased.returned next mem).2.false

/-- A holder leaves, and its number with it. -/
theorem lose (leased : Leased limit holds freed next) :
    Leased limit (Function.update holds t none) freed next := by
  have old : ∀ {u i}, Function.update holds t none u = some i → holds u = some i := by
    intro u i held
    rcases holds_update held with ⟨-, eq⟩ | ⟨-, old⟩
    · cases eq
    · exact old
  exact ⟨fun u v i heldU heldV => leased.alone u v i (old heldU) (old heldV), leased.distinct,
    fun i mem u held => leased.away i mem u (old held), fun u i held => leased.lent u i (old held),
    leased.returned⟩

/-- A holder leaves, and its number comes back. -/
theorem giveBack (leased : Leased limit holds freed next) {i : Nat} (held : holds t = some i) :
    Leased limit (Function.update holds t none) (i :: freed) next := by
  have rest : Leased limit (Function.update holds t none) freed next := leased.lose
  have fresh : i ∉ freed := fun mem => leased.away i mem t held
  refine ⟨rest.alone, List.nodup_cons.mpr ⟨fresh, leased.distinct⟩, fun j mem u heldU => ?_,
    rest.lent, fun j mem => ?_⟩
  · rcases List.mem_cons.mp mem with rfl | mem
    · rcases holds_update heldU with ⟨-, eq⟩ | ⟨other, old⟩
      · cases eq
      · exact other (leased.alone u t j old held)
    · exact rest.away j mem u heldU
  · rcases List.mem_cons.mp mem with rfl | mem
    · exact leased.lent t j held
    · exact leased.returned j mem

end Leased

/-- A sum over all places once one of them has changed. -/
theorem sum_update {s : Finset τ} [DecidableEq τ] {t : τ} (mem : t ∈ s) (f : τ → Nat) (b : Nat) :
    ∑ u ∈ s, Function.update f t b u + f t = ∑ u ∈ s, f u + b := by
  rw [Finset.sum_update_of_mem mem, ← Finset.add_sum_erase s f mem, Finset.sdiff_singleton_eq_erase]
  omega

end Library
