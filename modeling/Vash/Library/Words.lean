/-
# Lines of words

Text read the way a configuration file is: a line is its words, whatever stands between
and around them, and what a line begins with is what its first word begins with.

* `words_trimEnds` — trimming a line leaves its words.
* `head?_trimEnds` — trimming leaves what a line begins with.
* `of_mem_words` — a word holds no separator.
* `splitOnce_eq_some_iff` — a field cut at its first separator.
-/

import Mathlib

namespace Library

variable {α : Type} {p : α → Bool}

/-- The pieces between separators, without the empty ones. -/
def words (p : α → Bool) (text : List α) : List (List α) :=
  (text.splitOnP p).filter fun word => !word.isEmpty

/-- Without the separators at both ends. -/
def trimEnds (p : α → Bool) (text : List α) : List α := (text.dropWhile p).rdropWhile p

/-- What stands before and after the first separator. -/
def splitOnce [DecidableEq α] (separator : α) (text : List α) : Option (List α × List α) :=
  match text.dropWhile fun c => c ≠ separator with
  | [] => none
  | _ :: rest => some (text.takeWhile fun c => c ≠ separator, rest)

theorem words_nil : words p [] = [] := by simp [words, List.splitOnP_nil]

theorem words_cons_of_pos {c : α} (separates : p c = true) (text : List α) :
    words p (c :: text) = words p text := by
  rw [words, List.splitOnP_cons_eq_if_modifyHead, if_pos separates]
  rfl

/-- A line that begins with a word. -/
theorem words_of_head {c : α} (inside : p c = false) (text : List α) :
    ∃ word rest, words p (c :: text) = (c :: word) :: rest := by
  rw [words, List.splitOnP_cons_eq_if_modifyHead, if_neg (by simp [inside])]
  cases pieces : text.splitOnP p with
  | nil => exact absurd pieces (List.splitOnP_ne_nil _ _)
  | cons piece rest => exact ⟨piece, _, rfl⟩

theorem words_dropWhile (text : List α) : words p (text.dropWhile p) = words p text := by
  induction text with
  | nil => rfl
  | cons c rest ih =>
    rw [List.dropWhile_cons]
    split
    · rename_i separates
      rw [ih, words_cons_of_pos separates]
    · rfl

theorem words_rdropWhile (text : List α) : words p (text.rdropWhile p) = words p text := by
  induction text using List.reverseRecOn with
  | nil => rfl
  | append_singleton text c ih =>
    by_cases separates : p c = true
    · rw [List.rdropWhile_concat_pos _ _ _ separates, ih, words, words,
        List.splitOnP_append_cons _ _ separates, List.filter_append, List.splitOnP_nil]
      simp
    · rw [List.rdropWhile_concat_neg _ _ _ separates]

theorem words_trimEnds (text : List α) : words p (trimEnds p text) = words p text := by
  rw [trimEnds, words_rdropWhile, words_dropWhile]

/-- Where dropping stops. -/
theorem of_dropWhile_eq_cons {text rest : List α} {c : α} (left : text.dropWhile p = c :: rest) :
    p c = false := by
  have stopped := List.head?_dropWhile_not p text
  rw [left] at stopped
  simpa using stopped

/-- What is left of a line begins with something inside. -/
theorem of_trimEnds_eq_cons {text rest : List α} {c : α} (left : trimEnds p text = c :: rest) :
    p c = false := by
  have whole := List.takeWhile_append_dropWhile (p := p) (l := (text.dropWhile p).reverse)
  rw [← List.reverse_inj, List.reverse_append, List.reverse_reverse, ← List.rdropWhile, ← trimEnds,
    left, List.cons_append] at whole
  exact of_dropWhile_eq_cons whole.symm

/-- Trimming the end of a line leaves its beginning. -/
theorem head?_trimEnds (text : List α) : (trimEnds p text).head? = (text.dropWhile p).head? := by
  cases left : text.dropWhile p with
  | nil => simp [trimEnds, left]
  | cons c rest =>
    obtain ⟨word, later, first⟩ := words_of_head (of_dropWhile_eq_cons left) rest
    rw [← left, words_dropWhile] at first
    cases trimmed : trimEnds p text with
    | nil =>
      rw [← words_trimEnds, trimmed, words_nil] at first
      cases first
    | cons d others =>
      obtain ⟨word', later', same⟩ := words_of_head (of_trimEnds_eq_cons trimmed) others
      rw [← trimmed, words_trimEnds, first] at same
      injection same with same
      injection same with same
      rw [List.head?_cons, List.head?_cons, same]

theorem of_mem_words {text word : List α} (mem : word ∈ words p text) :
    ∀ c ∈ word, p c = false := by
  have inside : ∀ piece ∈ text.splitOnP p, ∀ c ∈ piece, p c = false := by
    clear mem
    induction text with
    | nil => simp [List.splitOnP_nil]
    | cons c rest ih =>
      rw [List.splitOnP_cons_eq_if_modifyHead]
      split
      · exact List.forall_mem_cons.mpr ⟨by simp, ih⟩
      · rename_i outside
        cases pieces : rest.splitOnP p with
        | nil => simp
        | cons piece later =>
          rw [pieces] at ih
          obtain ⟨first, others⟩ := List.forall_mem_cons.mp ih
          refine List.forall_mem_cons.mpr ⟨?_, others⟩
          exact List.forall_mem_cons.mpr ⟨Bool.eq_false_iff.mpr outside, first⟩
  exact inside word (List.mem_filter.mp mem).1

theorem splitOnce_eq_some_iff [DecidableEq α] {separator : α} {text before after : List α} :
    splitOnce separator text = some (before, after) ↔
      separator ∉ before ∧ text = before ++ separator :: after := by
  unfold splitOnce
  constructor
  · intro split
    have whole := List.takeWhile_append_dropWhile (p := fun c => c ≠ separator) (l := text)
    revert split
    cases left : text.dropWhile fun c => c ≠ separator with
    | nil => nofun
    | cons c rest =>
      intro split
      obtain ⟨rfl, rfl⟩ := Prod.mk.inj (Option.some.inj split)
      have here : c = separator := by simpa using of_dropWhile_eq_cons left
      subst here
      refine ⟨fun mem => ?_, ?_⟩
      · simpa using List.mem_takeWhile_imp mem
      · rw [← left, whole]
  · rintro ⟨free, rfl⟩
    have inside : ∀ c ∈ before, decide (c ≠ separator) = true := by
      intro c mem
      exact decide_eq_true fun eq => free (eq ▸ mem)
    rw [List.dropWhile_append_of_pos inside, List.takeWhile_append_of_pos inside]
    simp

end Library
