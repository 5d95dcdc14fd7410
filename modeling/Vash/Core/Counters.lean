/-
# Integer counters

What `Arithmetic::evaluate` answers with `Delta::Int`, against the same answer
computed on unbounded integers. The code never sees the sum when it leaves the
64 bits: it tells the breached bound from the sign of the increment then, and
`evaluateInt_eq` shows that both ways of telling it give the nearer bound.
-/

import Vash.Core.Decimal

namespace Vash

/-! ### The answer on exact integers -/

/-- The nearest number between two bounds. -/
def nearestWithin (lower upper n : Int) : Int := max lower (min upper n)

/-- What an integer counter is for: add, and fall back on `onBound` when the sum
is not between the bounds. -/
def exactAnswer (onBound : OnBound) (current delta lower upper : Int) : Except CoreError Outcome :=
  let sum := current + delta
  if lower ≤ sum ∧ sum ≤ upper then
    .ok (.store (decimalInt sum) ⟨.int sum, .int delta, true⟩)
  else
    match onBound with
    | .fail => .error .overflow
    | .skip => .ok (.unchanged ⟨.int current, .int 0, false⟩)
    | .clamp =>
      let bound := nearestWithin lower upper sum
      if IsI64 (bound - current) then
        .ok (.store (decimalInt bound) ⟨.int bound, .int (bound - current), true⟩)
      else .error .overflow

section Int

variable {floats : FloatOps} {onBound : OnBound} {current delta lower upper : Int}

theorem checkedI64_of_fits {n : Int} (fits : IsI64 n) : checkedI64 n = some n := if_pos fits

theorem checkedI64_of_not_fits {n : Int} (large : ¬ IsI64 n) : checkedI64 n = none := if_neg large

/-- The bound the code clamps to, read off the sum. -/
theorem clamped_of_sum (ordered : lower ≤ upper) {updated : Int}
    (sum : checkedI64 (current + delta) = some updated)
    (outside : ¬ (lower ≤ current + delta ∧ current + delta ≤ upper)) :
    (if updated > upper then upper else lower) =
      nearestWithin lower upper (current + delta) := by
  unfold checkedI64 at sum
  split at sum
  · cases sum
    unfold nearestWithin
    split <;> omega
  · cases sum

/-- The bound the code clamps to when the sum left the 64 bits: it left them on the
side of the increment. -/
theorem clamped_of_sign (currentFits : IsI64 current) (lowerFits : IsI64 lower)
    (upperFits : IsI64 upper) (ordered : lower ≤ upper)
    (overflowed : checkedI64 (current + delta) = none) :
    (if delta > 0 then upper else lower) = nearestWithin lower upper (current + delta) := by
  simp only [IsI64] at currentFits lowerFits upperFits
  unfold checkedI64 at overflowed
  split at overflowed
  · cases overflowed
  · unfold nearestWithin
    split <;> omega

theorem filter_checkedI64 (lowerFits : IsI64 lower) (upperFits : IsI64 upper) (sum : Int) :
    ((checkedI64 sum).filter fun value => decide (lower ≤ value ∧ value ≤ upper)) =
      if lower ≤ sum ∧ sum ≤ upper then some sum else none := by
  unfold checkedI64
  simp only [IsI64] at lowerFits upperFits
  by_cases within : lower ≤ sum ∧ sum ≤ upper
  · rw [if_pos within, if_pos (by omega)]
    simp [within]
  · rw [if_neg within]
    split
    · simpa using within
    · rfl

/-- The 64-bit computation gives the exact answer. -/
theorem evaluateInt_eq (currentFits : IsI64 current) (lowerFits : IsI64 lower)
    (upperFits : IsI64 upper) (ordered : lower ≤ upper) :
    evaluateInt floats onBound current delta lower upper =
      exactAnswer onBound current delta lower upper := by
  unfold evaluateInt exactAnswer
  dsimp only
  rw [filter_checkedI64 lowerFits upperFits]
  by_cases within : lower ≤ current + delta ∧ current + delta ≤ upper
  · rw [if_pos within, if_pos within]
    rfl
  · rw [if_neg within, if_neg within]
    cases onBound with
    | fail => rfl
    | skip => rfl
    | clamp =>
      by_cases fits : IsI64 (nearestWithin lower upper (current + delta) - current)
      · rw [if_pos fits]
        cases sum : checkedI64 (current + delta) with
        | some updated =>
          simp only [clamped_of_sum ordered sum within, checkedI64_of_fits fits]
          rfl
        | none =>
          simp only [clamped_of_sign currentFits lowerFits upperFits ordered sum,
            checkedI64_of_fits fits]
          rfl
      · rw [if_neg fits]
        cases sum : checkedI64 (current + delta) with
        | some updated =>
          simp only [clamped_of_sum ordered sum within, checkedI64_of_not_fits fits]
        | none =>
          simp only [clamped_of_sign currentFits lowerFits upperFits ordered sum,
            checkedI64_of_not_fits fits]

/-- Whatever text is stored is read back as the number that was reported. -/
theorem exactAnswer_stores {text : Bytes} {applied : Applied} (lowerFits : IsI64 lower)
    (upperFits : IsI64 upper)
    (stores : exactAnswer onBound current delta lower upper = .ok (.store text applied)) :
    ∃ n, applied.value = .int n ∧ parseInt text = some n := by
  simp only [IsI64] at lowerFits upperFits
  unfold exactAnswer at stores
  dsimp only at stores
  split at stores
  · rename_i within
    cases stores
    exact ⟨_, rfl, parseInt_decimalInt ⟨by omega, by omega⟩⟩
  · cases onBound with
    | fail => cases stores
    | skip => cases stores
    | clamp =>
      dsimp only at stores
      split at stores
      · cases stores
        refine ⟨_, rfl, parseInt_decimalInt ?_⟩
        simp only [IsI64, nearestWithin]
        omega
      · cases stores

/-- What is stored lies within the bounds, and is the number before and the increment that
was reported. -/
theorem exactAnswer_within {text : Bytes} {applied : Applied} (ordered : lower ≤ upper)
    (stores : exactAnswer onBound current delta lower upper = .ok (.store text applied)) :
    ∃ value moved, text = decimalInt value ∧ applied.value = .int value ∧
      applied.applied = .int moved ∧ lower ≤ value ∧ value ≤ upper ∧ value = current + moved := by
  unfold exactAnswer at stores
  dsimp only at stores
  split at stores
  · rename_i within
    cases stores
    exact ⟨_, _, rfl, rfl, rfl, within.1, within.2, rfl⟩
  · cases onBound with
    | fail => cases stores
    | skip => cases stores
    | clamp =>
      dsimp only at stores
      split at stores
      · cases stores
        refine ⟨_, _, rfl, rfl, rfl, ?_, ?_, by omega⟩ <;>
        · unfold nearestWithin
          omega
      · cases stores

end Int

/-! ### The operation -/

/-- An integer counter refuses what is not the text of an `i64`, and on every other
text answers what exact arithmetic does, with a text it can read back. -/
theorem evaluate_int_exact (floats : FloatOps) (op : Arithmetic) (delta lower upper : Int)
    (counts : op.delta = .int delta lower upper) (lowerFits : IsI64 lower)
    (upperFits : IsI64 upper) (ordered : lower ≤ upper) (stored : Bytes) :
    (op.evaluate floats (some stored) = .error .notAnInteger ↔
      ¬ ∃ current, IsI64 current ∧ stored = decimalInt current) ∧
    (∀ current, IsI64 current → stored = decimalInt current →
      op.evaluate floats (some stored) = exactAnswer op.onBound current delta lower upper) ∧
    ∀ text applied, op.evaluate floats (some stored) = .ok (.store text applied) →
      ∃ n, applied.value = .int n ∧ parseInt text = some n := by
  have unfolded : op.evaluate floats (some stored) =
      (parseInt stored).elim (.error .notAnInteger) fun current =>
        evaluateInt floats op.onBound current delta lower upper := by
    unfold Arithmetic.evaluate
    cases op.missing <;> simp only [counts] <;> cases parseInt stored <;> rfl
  have answers : ∀ current, IsI64 current → stored = decimalInt current →
      op.evaluate floats (some stored) = exactAnswer op.onBound current delta lower upper := by
    intro current fits canonical
    rw [unfolded, canonical, parseInt_decimalInt fits]
    exact evaluateInt_eq fits lowerFits upperFits ordered
  by_cases canonical : ∃ current, IsI64 current ∧ stored = decimalInt current
  · obtain ⟨current, fits, text⟩ := canonical
    have answer := answers current fits text
    refine ⟨⟨fun refused => ?_, fun none => absurd ⟨current, fits, text⟩ none⟩, answers, ?_⟩
    · -- The exact answer never reports a text that is no integer.
      rw [answer] at refused
      unfold exactAnswer at refused
      dsimp only at refused
      cases onBound : op.onBound <;> rw [onBound] at refused <;> dsimp only at refused <;>
        repeat' split at refused
      all_goals cases refused
    · intro text applied stores
      exact exactAnswer_stores lowerFits upperFits (answer ▸ stores)
  · have refused : parseInt stored = none := by
      cases parsed : parseInt stored with
      | none => rfl
      | some current => exact absurd ⟨current, parseInt_eq_some_iff.mp parsed⟩ canonical
    rw [refused] at unfolded
    refine ⟨⟨fun _ => canonical, fun _ => unfolded⟩, answers, ?_⟩
    intro text applied stores
    rw [unfolded] at stores
    cases stores

/-- A counter at the lowest `i64`, clamped where it stands. -/
theorem evaluate_int_exact_lowest :
    let op : Arithmetic :=
      ⟨[107], .int (-1) i64Min i64Max, .clamp, .fail, .keep⟩
    let floats : FloatOps := ⟨fun x _ => x, fun x _ => x, fun _ => none, fun _ => []⟩
    IsI64 i64Min ∧ IsI64 i64Max ∧ i64Min ≤ i64Max ∧
      op.evaluate floats (some (decimalInt i64Min)) =
        .ok (.store (decimalInt i64Min) ⟨.int i64Min, .int 0, true⟩) := by
  intro op floats
  have exact := evaluate_int_exact floats op (-1) i64Min i64Max rfl (by decide) (by decide)
    (by decide) (decimalInt i64Min)
  exact ⟨by decide, by decide, by decide, exact.2.1 i64Min (by decide) rfl⟩

end Vash
