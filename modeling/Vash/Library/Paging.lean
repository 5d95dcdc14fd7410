import Mathlib.Data.Finset.Card
import Mathlib.Data.Finset.Union
import Mathlib.Data.List.Sort

/-!
# Paging through a sequence that changes

A page looks, in order, at the elements behind a position, until it has kept as many
as it may keep or looked at as many as it may look at, and names the last element it
looked at. The next page resumes behind that element, in what the sequence is by then.

* `walk_ascending` — no element is listed twice, however the sequence changes.
* `walk_complete` — a walk that ended lists what was wanted throughout.
* `walk_ends` — a walk ends once the sequence grows no more.
-/

namespace Library

section Page

variable {α : Type} (wanted : α → Bool) (limit budget : Nat)

/-- A page over the elements still to look at: what it keeps, and where it stops if it
does not come to the end. -/
def pageFrom : List α → List α → Nat → List α × Option α
  | [], kept, _ => (kept, none)
  | a :: rest, kept, seen =>
    let kept := if wanted a then kept ++ [a] else kept
    if limit ≤ kept.length ∨ budget ≤ seen + 1 then (kept, some a)
    else pageFrom rest kept (seen + 1)

/-- A page keeps what is wanted among the elements it looked at, which are all of them or
those up to the one it stops at. -/
theorem pageFrom_spec (rows kept : List α) (seen : Nat) :
    ∃ front back, rows = front ++ back ∧
      (pageFrom wanted limit budget rows kept seen).1 = kept ++ front.filter wanted ∧
      (((pageFrom wanted limit budget rows kept seen).2 = none ∧ back = []) ∨
        ∃ last, (pageFrom wanted limit budget rows kept seen).2 = some last ∧
          front.getLast? = some last) := by
  induction rows generalizing kept seen with
  | nil => exact ⟨[], [], rfl, by simp [pageFrom], .inl ⟨rfl, rfl⟩⟩
  | cons a rest ih =>
    have keeps : (if wanted a then kept ++ [a] else kept) = kept ++ [a].filter wanted := by
      cases here : wanted a <;> simp [here]
    rw [pageFrom, keeps]
    split
    · exact ⟨[a], rest, rfl, rfl, .inr ⟨a, rfl, rfl⟩⟩
    · obtain ⟨front, back, split, listed, stops⟩ := ih (kept ++ [a].filter wanted) (seen + 1)
      refine ⟨a :: front, back, by rw [split, List.cons_append], ?_, ?_⟩
      · rw [listed, List.append_assoc, ← List.filter_append, List.singleton_append]
      · refine stops.imp_right ?_
        rintro ⟨last, stopped, found⟩
        exact ⟨last, stopped, by simp [List.getLast?_cons, found]⟩

end Page

variable {α : Type} [LinearOrder α]

/-- The elements behind a position. -/
def behind (after : Option α) (rows : List α) : List α :=
  rows.filter fun a => after.all (· < a)

/-- A sequence that may change from page to page, and what is wanted of it. -/
structure Changing (α : Type) [LinearOrder α] where
  rows : Nat → List α
  wanted : Nat → α → Bool
  sorted : ∀ k, (rows k).Pairwise (· < ·)

namespace Changing

variable (s : Changing α) (limit budget : Nat)

/-- The page made of the sequence at `k`, from behind a position. -/
def page (k : Nat) (after : Option α) : List α × Option α :=
  pageFrom (s.wanted k) limit budget (behind after (s.rows k)) [] 0

/-- The pages of a walk, and whether the last one came to the end. -/
def walk : Nat → Nat → Option α → List (List α) × Bool
  | 0, _, _ => ([], false)
  | fuel + 1, k, after =>
    match s.page limit budget k after with
    | (kept, none) => ([kept], true)
    | (kept, some last) =>
      let rest := walk fuel (k + 1) (some last)
      (kept :: rest.1, rest.2)

/-- How a page divides the sequence behind its position. -/
theorem page_spec (k : Nat) (after : Option α) :
    (((s.page limit budget k after).2 = none ∧
        ∀ a, a ∈ (s.page limit budget k after).1 ↔
          a ∈ s.rows k ∧ s.wanted k a = true ∧ after.all (· < a) = true) ∨
      ∃ last, (s.page limit budget k after).2 = some last ∧ last ∈ s.rows k ∧
        after.all (· < last) = true ∧
        ∀ a, a ∈ (s.page limit budget k after).1 ↔
          a ∈ s.rows k ∧ s.wanted k a = true ∧ after.all (· < a) = true ∧ a ≤ last) ∧
    (s.page limit budget k after).1.Pairwise (· < ·) := by
  obtain ⟨front, back, split, listed, stops⟩ :=
    pageFrom_spec (s.wanted k) limit budget (behind after (s.rows k)) [] 0
  have sorted : (front ++ back).Pairwise (· < ·) := split ▸ (s.sorted k).filter _
  have all : ∀ a, a ∈ front ++ back ↔ a ∈ s.rows k ∧ after.all (· < a) = true := by
    intro a
    rw [← split, behind, List.mem_filter]
  rw [List.nil_append] at listed
  obtain ⟨ascending, -, apart⟩ := List.pairwise_append.mp sorted
  refine ⟨?_, by rw [page, listed]; exact ascending.filter _⟩
  rcases stops with ⟨none, rfl⟩ | ⟨last, stopped, found⟩
  · refine .inl ⟨none, fun a => ?_⟩
    rw [page, listed, List.mem_filter, ← List.append_nil front, all]
    tauto
  · have inside := List.mem_of_getLast? found
    obtain ⟨there, later⟩ := (all last).mp (List.mem_append_left _ inside)
    refine .inr ⟨last, stopped, there, later, fun a => ?_⟩
    have upTo : a ∈ front ↔ a ∈ front ++ back ∧ a ≤ last := by
      constructor
      · intro mem
        refine ⟨List.mem_append_left _ mem, ?_⟩
        obtain ⟨init, rfl⟩ := List.getLast?_eq_some_iff.mp found
        rcases List.mem_append.mp mem with earlier | same
        · exact ((List.pairwise_append.mp ascending).2.2 a earlier last (by simp)).le
        · exact (List.mem_singleton.mp same).le
      · rintro ⟨mem, le⟩
        refine (List.mem_append.mp mem).resolve_right fun later => ?_
        exact absurd (apart last inside a later) (not_lt.mpr le)
    rw [page, listed, List.mem_filter, upTo, all]
    tauto

variable {s limit budget}

theorem walk_of_end {k : Nat} {after : Option α} (ends : (s.page limit budget k after).2 = none)
    (fuel : Nat) : s.walk limit budget (fuel + 1) k after =
      ([(s.page limit budget k after).1], true) := by
  rw [walk]
  split
  · rename_i kept same
    rw [same]
  · rename_i kept last same
    rw [same] at ends
    cases ends

theorem walk_of_stop {k : Nat} {after : Option α} {last : α}
    (stops : (s.page limit budget k after).2 = some last) (fuel : Nat) :
    s.walk limit budget (fuel + 1) k after =
      ((s.page limit budget k after).1 :: (s.walk limit budget fuel (k + 1) (some last)).1,
        (s.walk limit budget fuel (k + 1) (some last)).2) := by
  rw [walk]
  split
  · rename_i kept same
    rw [same] at stops
    cases stops
  · rename_i kept last' same
    rw [same] at stops
    cases stops
    rw [same]

variable (s limit budget)

/-- What a walk lists ascends, from behind where it starts. -/
theorem walk_ascending (fuel k : Nat) (after : Option α) :
    (s.walk limit budget fuel k after).1.flatten.Pairwise (· < ·) ∧
      ∀ a ∈ (s.walk limit budget fuel k after).1.flatten, after.all (· < a) = true := by
  induction fuel generalizing k after with
  | zero => simp [walk]
  | succ fuel ih =>
    obtain ⟨⟨ends, listed⟩ | ⟨last, stops, -, later, listed⟩, ascending⟩ :=
      page_spec s limit budget k after
    · rw [walk_of_end ends]
      simpa using ⟨ascending, fun a mem => ((listed a).mp mem).2.2⟩
    · rw [walk_of_stop stops]
      obtain ⟨rest, behindLast⟩ := ih (k + 1) (some last)
      have past : ∀ a ∈ (s.walk limit budget fuel (k + 1) (some last)).1.flatten, last < a :=
        fun a mem => by simpa using behindLast a mem
      rw [List.flatten_cons]
      refine ⟨List.pairwise_append.mpr ⟨ascending, rest, fun a mem b mem' => ?_⟩, ?_⟩
      · exact ((listed a).mp mem).2.2.2.trans_lt (past b mem')
      · intro a mem
        rcases List.mem_append.mp mem with here | there
        · exact ((listed a).mp here).2.2.1
        · cases after with
          | none => rfl
          | some start => exact decide_eq_true ((of_decide_eq_true later).trans (past a there))

/-- What a page of a walk lists was there when the page was made, and wanted. -/
theorem walk_kept (fuel k : Nat) (after : Option α) {j : Nat} {kept : List α}
    (found : (s.walk limit budget fuel k after).1[j]? = some kept) {a : α} (mem : a ∈ kept) :
    a ∈ s.rows (k + j) ∧ s.wanted (k + j) a = true := by
  induction fuel generalizing k after j with
  | zero => simp [walk] at found
  | succ fuel ih =>
    obtain ⟨⟨ends, listed⟩ | ⟨last, stops, -, -, listed⟩, -⟩ :=
      page_spec s limit budget k after
    · rw [walk_of_end ends] at found
      cases j with
      | zero =>
        obtain rfl := Option.some.inj found
        exact ⟨((listed a).mp mem).1, ((listed a).mp mem).2.1⟩
      | succ j => simp at found
    · rw [walk_of_stop stops] at found
      cases j with
      | zero =>
        obtain rfl := Option.some.inj found
        exact ⟨((listed a).mp mem).1, ((listed a).mp mem).2.1⟩
      | succ j =>
        rw [List.getElem?_cons_succ] at found
        have there := ih (k + 1) (some last) found
        rwa [Nat.add_right_comm, Nat.add_assoc] at there

/-- A walk that came to its end lists what was there and wanted at every page. -/
theorem walk_complete (fuel k : Nat) (after : Option α)
    (ended : (s.walk limit budget fuel k after).2 = true) {a : α}
    (later : after.all (· < a) = true)
    (stays : ∀ j < (s.walk limit budget fuel k after).1.length,
      a ∈ s.rows (k + j) ∧ s.wanted (k + j) a = true) :
    a ∈ (s.walk limit budget fuel k after).1.flatten := by
  induction fuel generalizing k after with
  | zero => simp [walk] at ended
  | succ fuel ih =>
    obtain ⟨⟨ends, listed⟩ | ⟨last, stops, -, -, listed⟩, -⟩ :=
      page_spec s limit budget k after
    · rw [walk_of_end ends] at stays ⊢
      have now := stays 0 (by simp)
      simpa using (listed a).mpr ⟨now.1, now.2, later⟩
    · rw [walk_of_stop stops] at ended stays ⊢
      have now := stays 0 (by simp)
      rw [List.flatten_cons]
      by_cases here : a ≤ last
      · exact List.mem_append_left _ ((listed a).mpr ⟨now.1, now.2, later, here⟩)
      · refine List.mem_append_right _ (ih (k + 1) (some last) ended ?_ fun j inside => ?_)
        · exact decide_eq_true (not_le.mp here)
        · have next := stays (j + 1) (by simpa using inside)
          rwa [← Nat.add_assoc, Nat.add_right_comm] at next

/-- A walk through elements of a finite set ends: each page leaves fewer of them behind it. -/
theorem walk_ends_within (all : Finset α) (k : Nat) (after : Option α)
    (within : ∀ j, k ≤ j → ∀ a ∈ s.rows j, a ∈ all) :
    ∃ fuel, (s.walk limit budget fuel k after).2 = true := by
  generalize left : (all.filter fun a => after.all (· < a) = true).card = count
  induction count using Nat.strong_induction_on generalizing k after with
  | _ count ih =>
    obtain ⟨⟨ends, -⟩ | ⟨last, stops, there, later, -⟩, -⟩ :=
      page_spec s limit budget k after
    · exact ⟨1, by rw [walk_of_end ends]⟩
    · have fewer : (all.filter fun a => (some last).all (· < a) = true).card < count := by
        rw [← left]
        refine Finset.card_lt_card (Finset.ssubset_iff_of_subset ?_ |>.mpr ⟨last, ?_, ?_⟩)
        · intro a mem
          obtain ⟨inside, past⟩ := Finset.mem_filter.mp mem
          refine Finset.mem_filter.mpr ⟨inside, ?_⟩
          cases after with
          | none => rfl
          | some start =>
            exact decide_eq_true ((of_decide_eq_true later).trans (of_decide_eq_true past))
        · exact Finset.mem_filter.mpr ⟨within k le_rfl last there, later⟩
        · simp
      obtain ⟨fuel, ended⟩ := ih _ fewer (k + 1) (some last)
        (fun j le => within j (by omega)) rfl
      exact ⟨fuel + 1, by rw [walk_of_stop stops]; exact ended⟩

/-- A walk ends if from some page on no element is new. -/
theorem walk_ends {settled : Nat} (grown : ∀ j, settled ≤ j → ∀ a ∈ s.rows j, a ∈ s.rows settled)
    (after : Option α) : ∃ fuel, (s.walk limit budget fuel 0 after).2 = true := by
  refine s.walk_ends_within limit budget
    ((Finset.range (settled + 1)).biUnion fun j => (s.rows j).toFinset) 0 after
    fun j _ a mem => ?_
  rw [Finset.mem_biUnion]
  rcases Nat.lt_or_ge j settled with early | late
  · exact ⟨j, Finset.mem_range.mpr (by omega), List.mem_toFinset.mpr mem⟩
  · exact ⟨settled, Finset.mem_range.mpr (by omega), List.mem_toFinset.mpr (grown j late a mem)⟩

end Changing

end Library
