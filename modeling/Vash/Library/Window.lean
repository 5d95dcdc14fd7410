import Mathlib

/-!
# Windows over a list

A list is offered in rounds of a fixed width. Each round goes on where the one before
it stopped, and past the end of the list it starts over.

* `mem_of_mem_window` — a round offers items of the list only.
* `windows_cover` — consecutive rounds that together are as wide as the list offer
  every item of it, wherever the first of them starts.
-/

namespace Library

variable {α β : Type}

/-- The items of one round. -/
def window (items : List α) (width round : Nat) : List α :=
  ((items ++ items).drop (round * width % items.length)).take width

theorem map_window (f : α → β) (items : List α) (width round : Nat) :
    (window items width round).map f = window (items.map f) width round := by
  simp [window, List.map_take, List.map_drop]

theorem length_window_le (items : List α) (width round : Nat) :
    (window items width round).length ≤ width := by
  unfold window
  exact List.length_take_le _ _

theorem mem_of_mem_window {items : List α} {width round : Nat} {a : α}
    (mem : a ∈ window items width round) : a ∈ items := by
  have doubled := List.mem_of_mem_drop (List.mem_of_mem_take mem)
  exact (List.mem_append.mp doubled).elim id id

/-- The items of a round, by their positions in the list. -/
theorem getElem?_window {items : List α} {width : Nat} (fits : width ≤ items.length)
    (round : Nat) {p : Nat} (inside : p < width) :
    (window items width round)[p]? = items[(round * width + p) % items.length]? := by
  have start : round * width % items.length < items.length := Nat.mod_lt _ (by omega)
  rw [window, List.getElem?_take_of_lt inside, List.getElem?_drop, Nat.add_mod,
    Nat.mod_eq_of_lt (show p < items.length by omega)]
  generalize round * width % items.length = s at start
  rcases Nat.lt_or_ge (s + p) items.length with below | above
  · rw [List.getElem?_append_left below, Nat.mod_eq_of_lt below]
  · rw [List.getElem?_append_right above, Nat.mod_eq_sub_mod above,
      Nat.mod_eq_of_lt (show s + p - items.length < items.length by omega)]

/-- Rounds as wide as the list between them leave nothing out. -/
theorem windows_cover {items : List α} {width : Nat} (positive : 0 < width)
    (fits : width ≤ items.length) (first : Nat) {a : α} (mem : a ∈ items) :
    ∃ t < items.length ⌈/⌉ width, a ∈ window items width (first + t) := by
  obtain ⟨i, below, rfl⟩ := List.getElem_of_mem mem
  -- the distance to the item from where the first round starts
  obtain ⟨d, short, lands⟩ : ∃ d < items.length, (first * width + d) % items.length = i := by
    refine ⟨(i + (items.length - first * width % items.length)) % items.length,
      Nat.mod_lt _ (by omega), ?_⟩
    have start : first * width % items.length < items.length := Nat.mod_lt _ (by omega)
    rw [Nat.add_mod, Nat.mod_mod, ← Nat.add_mod, ← Nat.mod_add_mod]
    rw [show first * width % items.length + (i + (items.length - first * width % items.length)) =
      i + items.length by omega, Nat.add_mod_right, Nat.mod_eq_of_lt below]
  refine ⟨d / width, ?_, ?_⟩
  · rw [Nat.ceilDiv_eq_add_pred_div, Nat.div_lt_iff_lt_mul positive]
    have rest := Nat.div_add_mod (items.length + width - 1) width
    have small := Nat.mod_lt (items.length + width - 1) positive
    rw [Nat.mul_comm] at rest
    omega
  · have found := getElem?_window fits (first + d / width) (Nat.mod_lt d positive)
    rw [Nat.add_mul, Nat.add_assoc, Nat.mul_comm (d / width), Nat.div_add_mod, lands,
      List.getElem?_eq_getElem below] at found
    exact List.mem_of_getElem? found

end Library
