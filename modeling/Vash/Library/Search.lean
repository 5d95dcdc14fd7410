import Mathlib

/-!
# Binary search

The search a slice of keys is looked up with: it halves the range that can hold the key
and compares once at the end. `DequeSearch` is what callers may rely on: a position it
finds holds the key, and in keys in ascending order it finds every key that is there.
-/

namespace Library

/-- A search for a key among keys. -/
structure DequeSearch where
  find : List Nat → Nat → Option Nat
  sound : ∀ keys key position, find keys key = some position → keys[position]? = some key
  complete : ∀ keys key, keys.Pairwise (· < ·) → key ∈ keys → (find keys key).isSome = true

/-- The loop of the search over the `size` keys from `base` on. -/
def halve (keys : List Nat) (key : Nat) : (fuel base size : Nat) → Nat
  | 0, base, _ => base
  | fuel + 1, base, size =>
    if size ≤ 1 then base
    else halve keys key fuel
      (if keys.getD (base + size / 2) 0 > key then base else base + size / 2) (size - size / 2)

/-- The position of a key. -/
def binarySearch (keys : List Nat) (key : Nat) : Option Nat :=
  let base := halve keys key keys.length 0 keys.length
  if keys[base]? = some key then some base else none

/-- While the key is in the range, the halved range has it. -/
theorem halve_eq {keys : List Nat} {key j : Nat} (ascending : keys.Pairwise (· < ·))
    (here : keys[j]? = some key) {fuel base size : Nat} (enough : size ≤ fuel)
    (within : base + size ≤ keys.length) (from' : base ≤ j) (below : j < base + size) :
    halve keys key fuel base size = j := by
  induction fuel generalizing base size with
  | zero => omega
  | succ fuel ih =>
    unfold halve
    split
    · omega
    · have inside : base + size / 2 < keys.length := by omega
      obtain ⟨bound, same⟩ := List.getElem?_eq_some_iff.mp here
      have middle : keys.getD (base + size / 2) 0 = keys[base + size / 2] := by
        rw [List.getD_eq_getElem?_getD, List.getElem?_eq_getElem inside]
        rfl
      rw [middle]
      -- keys in ascending order tell on which side of the middle the key is
      rcases lt_trichotomy j (base + size / 2) with lower | equal | upper
      · have := List.pairwise_iff_getElem.mp ascending j (base + size / 2) bound inside lower
        rw [if_pos (by omega)]
        exact ih (by omega) (by omega) from' (by omega)
      · subst equal
        rw [if_neg (by omega)]
        exact ih (by omega) (by omega) le_rfl (by omega)
      · have := List.pairwise_iff_getElem.mp ascending (base + size / 2) j inside bound upper
        rw [if_neg (by omega)]
        exact ih (by omega) (by omega) (by omega) (by omega)

theorem binarySearch_eq {keys : List Nat} {key j : Nat} (ascending : keys.Pairwise (· < ·))
    (here : keys[j]? = some key) : binarySearch keys key = some j := by
  have bound := (List.getElem?_eq_some_iff.mp here).1
  have found := halve_eq ascending here le_rfl (by omega) (Nat.zero_le j)
    (show j < 0 + keys.length by omega)
  simp only [binarySearch, found, here, if_true]

/-- The search of the standard library keeps the contract. -/
def halving : DequeSearch where
  find := binarySearch
  sound keys key position found := by
    simp only [binarySearch] at found
    split at found
    · rename_i holds
      obtain rfl := Option.some.inj found
      exact holds
    · cases found
  complete keys key ascending mem := by
    obtain ⟨j, here⟩ := List.getElem?_of_mem mem
    rw [binarySearch_eq ascending here]
    rfl

end Library
