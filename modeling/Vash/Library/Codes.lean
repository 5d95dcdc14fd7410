/-
# Self-delimiting codes

A set of words none of which begins another. What follows a word is then told by the word
itself, and a text is a row of words in one way only.

* `flatten_append_inj` — two rows of equally many words before two texts.
* `SelfDelimiting.flatten_inj` — a text is one row of words.
-/

import Mathlib

namespace Library

variable {α : Type}

/-- A word at the beginning of a text is known from the text. -/
def SelfDelimiting (code : List α → Prop) : Prop :=
  ∀ u v x y, code u → code v → u ++ x = v ++ y → u = v ∧ x = y

/-- Two rows of equally many words, where the words of one are told apart from those of the
other. -/
theorem flatten_append_inj {us vs : List (List α)} {x y : List α}
    (apart : ∀ u ∈ us, ∀ v ∈ vs, ∀ x y, u ++ x = v ++ y → u = v ∧ x = y)
    (count : us.length = vs.length) (same : us.flatten ++ x = vs.flatten ++ y) :
    us = vs ∧ x = y := by
  induction us generalizing vs with
  | nil =>
    obtain rfl : vs = [] := List.length_eq_zero_iff.mp count.symm
    exact ⟨rfl, same⟩
  | cons u us ih =>
    cases vs with
    | nil => cases count
    | cons v vs =>
      rw [List.flatten_cons, List.flatten_cons, List.append_assoc, List.append_assoc] at same
      obtain ⟨rfl, later⟩ := apart u List.mem_cons_self v List.mem_cons_self _ _ same
      obtain ⟨rfl, rest⟩ := ih (fun w here w' here' => apart w (List.mem_cons_of_mem _ here) w'
        (List.mem_cons_of_mem _ here')) (Nat.succ.inj count) later
      exact ⟨rfl, rest⟩

/-- A text is one row of words. -/
theorem SelfDelimiting.flatten_inj {code : List α → Prop} (delimits : SelfDelimiting code)
    (nonempty : ¬ code []) {us vs : List (List α)} (words : ∀ u ∈ us, code u)
    (words' : ∀ v ∈ vs, code v) (same : us.flatten = vs.flatten) : us = vs := by
  induction us generalizing vs with
  | nil =>
    cases vs with
    | nil => rfl
    | cons v vs =>
      obtain ⟨rfl, -⟩ := List.append_eq_nil_iff.mp same.symm
      exact absurd (words' [] List.mem_cons_self) nonempty
  | cons u us ih =>
    cases vs with
    | nil =>
      obtain ⟨rfl, -⟩ := List.append_eq_nil_iff.mp same
      exact absurd (words [] List.mem_cons_self) nonempty
    | cons v vs =>
      obtain ⟨word, left⟩ := List.forall_mem_cons.mp words
      obtain ⟨word', left'⟩ := List.forall_mem_cons.mp words'
      obtain ⟨rfl, later⟩ := delimits u v _ _ word word' same
      rw [ih left left' later]

end Library
