/-
# Wildcard patterns

A pattern is a sequence of tokens; what a whole text matches is said by
recursion on the tokens, with a choice wherever a token may take any run.

The two facts a search with one remembered run rests on are `Matches.skip`, that
tokens of fixed width take a fixed part of the text, and `Matches.absorb`, that a
run can always take more: whatever an earlier run could still do by taking more,
a later one does as well.
-/

import Mathlib

namespace Library

/-- One token of a wildcard pattern. -/
inductive Wild (α : Type) where
  | run
  | one
  | exactly (a : α)
  | dangling
  deriving DecidableEq, Repr

namespace Wild

variable {α : Type}

/-- A token of fixed width takes one element, if it takes any. -/
def Accepts : Wild α → α → Prop
  | .run, _ => False
  | .one, _ => True
  | .exactly a, b => a = b
  | .dangling, _ => False

/-- The whole text matches the tokens. -/
def Matches : List (Wild α) → List α → Prop
  | [], text => text = []
  | .run :: tokens, text => ∃ skipped rest, text = skipped ++ rest ∧ Matches tokens rest
  | token :: tokens, text => ∃ a rest, text = a :: rest ∧ token.Accepts a ∧ Matches tokens rest

theorem matches_run {tokens : List (Wild α)} {text : List α} :
    Matches (.run :: tokens) text ↔ ∃ skipped rest, text = skipped ++ rest ∧ Matches tokens rest :=
  Iff.rfl

theorem matches_cons {token : Wild α} (fixed : token ≠ .run) {tokens : List (Wild α)}
    {text : List α} :
    Matches (token :: tokens) text ↔
      ∃ a rest, text = a :: rest ∧ token.Accepts a ∧ Matches tokens rest := by
  cases token with
  | run => exact absurd rfl fixed
  | one => exact Iff.rfl
  | exactly a => exact Iff.rfl
  | dangling => exact Iff.rfl

/-- Nothing is left over exactly for runs. -/
theorem matches_nil {tokens : List (Wild α)} :
    Matches tokens [] ↔ ∀ token ∈ tokens, token = .run := by
  induction tokens with
  | nil => simp [Matches]
  | cons token tokens ih =>
    by_cases run : token = .run
    · subst run
      rw [matches_run]
      constructor
      · rintro ⟨skipped, rest, empty, later⟩
        obtain ⟨rfl, rfl⟩ := List.append_eq_nil_iff.mp empty.symm
        exact List.forall_mem_cons.mpr ⟨rfl, ih.mp later⟩
      · intro all
        exact ⟨[], [], rfl, ih.mpr (List.forall_mem_cons.mp all).2⟩
    · rw [matches_cons run]
      constructor
      · rintro ⟨a, rest, empty, -⟩
        cases empty
      · intro all
        exact absurd (all token List.mem_cons_self) run

/-- Tokens of fixed width take as many elements as there are tokens. -/
theorem Matches.skip {fixed tokens : List (Wild α)} (width : ∀ token ∈ fixed, token ≠ .run)
    {text : List α} (whole : Matches (fixed ++ tokens) text) :
    ∃ front rest, text = front ++ rest ∧ front.length = fixed.length ∧ Matches tokens rest := by
  induction fixed generalizing text with
  | nil => exact ⟨[], text, rfl, rfl, whole⟩
  | cons token fixed ih =>
    obtain ⟨first, others⟩ := List.forall_mem_cons.mp width
    obtain ⟨a, rest, rfl, -, later⟩ := (matches_cons first).mp whole
    obtain ⟨front, rest, rfl, length, matched⟩ := ih others later
    exact ⟨a :: front, rest, rfl, by simp [length], matched⟩

/-- A run takes more where it may take less. -/
theorem Matches.absorb {tokens : List (Wild α)} {text rest : List α} (suffix : rest <:+ text)
    (matched : Matches (.run :: tokens) rest) : Matches (.run :: tokens) text := by
  obtain ⟨front, rfl⟩ := suffix
  obtain ⟨skipped, rest, rfl, later⟩ := matched
  exact ⟨front ++ skipped, rest, by simp, later⟩

end Wild

end Library
