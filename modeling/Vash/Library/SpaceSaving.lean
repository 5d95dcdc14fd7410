import Mathlib

/-!
# Space-Saving summaries

A summary counts the items of a stream with a bounded number of slots. An item that
has a slot is counted there; a new item takes a free slot or, if there is none, the
slot with the least count, and goes on from that count. What it took over is kept as
the slot's error.

* `Tallies` — what a summary says of the stream it has seen: counts are never below
  the true ones, exceed them by at most the error, and an item without a slot is no
  more frequent than the least counted one.
* `Tallies.holds_frequent` — an item that makes up more than its share of the stream
  has a slot.
-/

namespace Library

section First

variable {β γ : Type}

/-- Change the first element that `p` picks. -/
def modifyFirst (p : β → Bool) (f : β → β) : List β → List β
  | [] => []
  | b :: rest => if p b then f b :: rest else b :: modifyFirst p f rest

theorem exists_modifyFirst {p : β → Bool} {f : β → β} {l : List β} (some' : ∃ b ∈ l, p b = true) :
    ∃ b rest, l.Perm (b :: rest) ∧ p b = true ∧ (modifyFirst p f l).Perm (f b :: rest) := by
  induction l with
  | nil => simp at some'
  | cons first rest ih =>
    cases here : p first with
    | true => exact ⟨first, rest, .refl _, here, by simp [modifyFirst, here]⟩
    | false =>
      have later : ∃ b ∈ rest, p b = true := by
        obtain ⟨b, mem, picked⟩ := some'
        rcases List.mem_cons.mp mem with rfl | mem
        · simp [here] at picked
        · exact ⟨b, mem, picked⟩
      obtain ⟨b, others, listed, picked, modified⟩ := ih later
      refine ⟨b, first :: others, (listed.cons first).trans (.swap b first others), picked, ?_⟩
      simpa [modifyFirst, here] using (modified.cons first).trans (.swap _ first others)

theorem mem_modifyFirst {p : β → Bool} {f : β → β} {l : List β} {b : β}
    (mem : b ∈ modifyFirst p f l) : b ∈ l ∨ ∃ c ∈ l, p c = true ∧ b = f c := by
  induction l with
  | nil => cases mem
  | cons first rest ih =>
    unfold modifyFirst at mem
    split at mem
    · rename_i picked
      rcases List.mem_cons.mp mem with rfl | mem
      · exact .inr ⟨first, List.mem_cons_self, picked, rfl⟩
      · exact .inl (List.mem_cons_of_mem _ mem)
    · rcases List.mem_cons.mp mem with rfl | mem
      · exact .inl List.mem_cons_self
      · rcases ih mem with old | ⟨c, held, picked, new⟩
        · exact .inl (List.mem_cons_of_mem _ old)
        · exact .inr ⟨c, List.mem_cons_of_mem _ held, picked, new⟩

/-- A change seen through a map of the elements. -/
theorem map_modifyFirst {p : β → Bool} {f : β → β} {q : γ → Bool} {h : γ → γ} {g : β → γ}
    {l : List β} (picks : ∀ b ∈ l, q (g b) = p b) (changes : ∀ b, g (f b) = h (g b)) :
    (modifyFirst p f l).map g = modifyFirst q h (l.map g) := by
  induction l with
  | nil => rfl
  | cons first rest ih =>
    have later := ih fun b mem => picks b (List.mem_cons_of_mem _ mem)
    simp only [modifyFirst, List.map_cons, picks first List.mem_cons_self]
    split
    · rw [List.map_cons, changes]
    · rw [List.map_cons, later]

/-- The element is at least as low as every other. -/
def isLeast (key : β → Nat) (l : List β) (b : β) : Bool := l.all fun c => key b ≤ key c

theorem exists_isLeast (key : β → Nat) {l : List β} (some' : l ≠ []) :
    ∃ b ∈ l, isLeast key l b = true := by
  classical
  obtain ⟨b, mem, least⟩ := l.toFinset.exists_min_image key (by simpa using some')
  exact ⟨b, List.mem_toFinset.mp mem, by
    simpa [isLeast] using fun c mem => least c (List.mem_toFinset.mpr mem)⟩

end First

/-- A slot of a summary. -/
structure Slot (α : Type) where
  item : α
  count : Nat
  error : Nat

section Summary

variable {α : Type} [DecidableEq α]

/-- One more item of the stream. -/
def offer (capacity : Nat) (slots : List (Slot α)) (a : α) : List (Slot α) :=
  if slots.any fun slot => slot.item = a then
    modifyFirst (fun slot => slot.item = a)
      (fun slot => { slot with count := slot.count + 1 }) slots
  else if slots.length < capacity then slots ++ [⟨a, 1, 0⟩]
  else modifyFirst (isLeast Slot.count slots) (fun slot => ⟨a, slot.count + 1, slot.count⟩) slots

/-- What the slots say of the stream. -/
structure Tallies (capacity : Nat) (stream : List α) (slots : List (Slot α)) : Prop where
  bounded : slots.length ≤ capacity
  total : (slots.map Slot.count).sum = stream.length
  distinct : (slots.map Slot.item).Nodup
  above : ∀ slot ∈ slots, stream.count slot.item ≤ slot.count
  below : ∀ slot ∈ slots, slot.count ≤ stream.count slot.item + slot.error
  unheld : ∀ a ∈ stream, (∀ slot ∈ slots, slot.item ≠ a) →
    slots.length = capacity ∧ ∀ slot ∈ slots, stream.count a ≤ slot.count

theorem Tallies.empty (capacity : Nat) : Tallies capacity ([] : List α) [] := by
  constructor <;> simp

variable {capacity : Nat} {stream : List α} {slots slots' : List (Slot α)} {slot : Slot α} {a : α}

theorem Tallies.perm (tallies : Tallies capacity stream slots) (same : slots.Perm slots') :
    Tallies capacity stream slots' where
  bounded := same.length_eq ▸ tallies.bounded
  total := (same.map Slot.count).sum_eq ▸ tallies.total
  distinct := (same.map Slot.item).nodup_iff.mp tallies.distinct
  above slot mem := tallies.above slot (same.mem_iff.mpr mem)
  below slot mem := tallies.below slot (same.mem_iff.mpr mem)
  unheld a mem out := by
    obtain ⟨full, least⟩ := tallies.unheld a mem fun slot held => out slot (same.mem_iff.mp held)
    exact ⟨same.length_eq ▸ full, fun slot held => least slot (same.mem_iff.mpr held)⟩

/-- One more item is counted once more, and no other item. -/
theorem count_snoc (stream : List α) (a b : α) :
    (stream ++ [a]).count b = stream.count b + if b = a then 1 else 0 := by
  by_cases same : b = a
  · simp [same]
  · simp [same, Ne.symm same]

/-- An item that has a slot is counted there. -/
theorem Tallies.counted (tallies : Tallies capacity stream (slot :: slots)) :
    Tallies capacity (stream ++ [slot.item])
      ({ slot with count := slot.count + 1 } :: slots) := by
  have others : ∀ other ∈ slots, other.item ≠ slot.item := by
    intro other mem same
    exact (List.nodup_cons.mp tallies.distinct).1 (List.mem_map.mpr ⟨other, mem, same⟩)
  refine ⟨tallies.bounded, ?_, tallies.distinct, ?_, ?_, ?_⟩
  · have total := tallies.total
    simp only [List.map_cons, List.sum_cons, List.length_append, List.length_singleton] at total ⊢
    omega
  · rintro other (_ | ⟨_, mem⟩)
    · have above := tallies.above slot List.mem_cons_self
      simp only [count_snoc]
      simpa using above
    · rw [count_snoc, if_neg (others other mem), Nat.add_zero]
      exact tallies.above other (List.mem_cons_of_mem _ mem)
  · rintro other (_ | ⟨_, mem⟩)
    · have below := tallies.below slot List.mem_cons_self
      simp only [count_snoc, if_true]
      omega
    · rw [count_snoc, if_neg (others other mem), Nat.add_zero]
      exact tallies.below other (List.mem_cons_of_mem _ mem)
  · intro b mem out
    have apart : b ≠ slot.item := fun same => out _ List.mem_cons_self same.symm
    have seen : b ∈ stream := by simpa [apart] using mem
    obtain ⟨full, least⟩ := tallies.unheld b seen (List.forall_mem_cons.mpr
      ⟨apart.symm, fun other held => out other (List.mem_cons_of_mem _ held)⟩)
    rw [count_snoc, if_neg apart, Nat.add_zero]
    refine ⟨full, List.forall_mem_cons.mpr ⟨?_, fun other held =>
      least other (List.mem_cons_of_mem _ held)⟩⟩
    have := least slot List.mem_cons_self
    simp only
    omega

/-- A new item takes a free slot. -/
theorem Tallies.pushed (tallies : Tallies capacity stream slots)
    (new : ∀ slot ∈ slots, slot.item ≠ a) (free : slots.length < capacity) :
    Tallies capacity (stream ++ [a]) (⟨a, 1, 0⟩ :: slots) := by
  -- while a slot is free, every item of the stream has one
  have held : ∀ b ∈ stream, ¬ ∀ slot ∈ slots, slot.item ≠ b := fun b mem out =>
    absurd (tallies.unheld b mem out).1 free.ne
  have unseen : stream.count a = 0 := List.count_eq_zero.mpr fun mem => held a mem new
  refine ⟨free, ?_, ?_, ?_, ?_, ?_⟩
  · have total := tallies.total
    simp only [List.map_cons, List.sum_cons, List.length_append, List.length_singleton]
    omega
  · refine List.nodup_cons.mpr ⟨fun mem => ?_, tallies.distinct⟩
    obtain ⟨slot, mem, same⟩ := List.mem_map.mp mem
    exact new slot mem same
  · rintro other (_ | ⟨_, mem⟩)
    · simp [unseen]
    · rw [count_snoc, if_neg (new other mem), Nat.add_zero]
      exact tallies.above other mem
  · rintro other (_ | ⟨_, mem⟩)
    · simp [unseen]
    · rw [count_snoc, if_neg (new other mem), Nat.add_zero]
      exact tallies.below other mem
  · intro b mem out
    obtain ⟨apart, out⟩ := List.forall_mem_cons.mp out
    have seen : b ∈ stream := by simpa [Ne.symm apart] using mem
    exact absurd out (held b seen)

/-- A new item takes the slot with the least count, and goes on from that count. -/
theorem Tallies.replaced (tallies : Tallies capacity stream (slot :: slots))
    (new : ∀ other ∈ slot :: slots, other.item ≠ a) (full : capacity ≤ slots.length + 1)
    (least : ∀ other ∈ slots, slot.count ≤ other.count) :
    Tallies capacity (stream ++ [a]) (⟨a, slot.count + 1, slot.count⟩ :: slots) := by
  have new' : ∀ other ∈ slots, other.item ≠ a := fun other mem =>
    new other (List.mem_cons_of_mem _ mem)
  -- no item that has no slot is above the least count
  have low : stream.count a ≤ slot.count := by
    by_cases mem : a ∈ stream
    · exact (tallies.unheld a mem new).2 slot List.mem_cons_self
    · rw [List.count_eq_zero.mpr mem]
      exact Nat.zero_le _
  refine ⟨tallies.bounded, ?_, ?_, ?_, ?_, ?_⟩
  · have total := tallies.total
    simp only [List.map_cons, List.sum_cons, List.length_append, List.length_singleton] at total ⊢
    omega
  · refine List.nodup_cons.mpr ⟨fun mem => ?_, (List.nodup_cons.mp tallies.distinct).2⟩
    obtain ⟨other, mem, same⟩ := List.mem_map.mp mem
    exact new' other mem same
  · rintro other (_ | ⟨_, mem⟩)
    · simpa [count_snoc] using low
    · rw [count_snoc, if_neg (new' other mem), Nat.add_zero]
      exact tallies.above other (List.mem_cons_of_mem _ mem)
  · rintro other (_ | ⟨_, mem⟩)
    · simp only [count_snoc, if_true]
      omega
    · rw [count_snoc, if_neg (new' other mem), Nat.add_zero]
      exact tallies.below other (List.mem_cons_of_mem _ mem)
  · intro b mem out
    obtain ⟨apart, out⟩ := List.forall_mem_cons.mp out
    have seen : b ∈ stream := by simpa [Ne.symm apart] using mem
    have bounded := tallies.bounded
    refine ⟨le_antisymm bounded full, ?_⟩
    rw [count_snoc, if_neg (Ne.symm apart), Nat.add_zero]
    -- the item whose slot was taken is not above the least count either
    have low' : stream.count b ≤ slot.count := by
      by_cases last : slot.item = b
      · exact last ▸ tallies.above slot List.mem_cons_self
      · exact (tallies.unheld b seen (List.forall_mem_cons.mpr ⟨last, out⟩)).2 slot
          List.mem_cons_self
    exact List.forall_mem_cons.mpr
      ⟨low'.trans (Nat.le_succ _), fun other held => low'.trans (least other held)⟩

/-- Every item offered keeps the account. -/
theorem offer_tallies (positive : 1 ≤ capacity) (tallies : Tallies capacity stream slots) (a : α) :
    Tallies capacity (stream ++ [a]) (offer capacity slots a) := by
  unfold offer
  split
  · rename_i held
    obtain ⟨slot, rest, listed, here, counted⟩ := exists_modifyFirst
      (f := fun slot : Slot α => { slot with count := slot.count + 1 })
      (List.any_eq_true.mp held)
    obtain rfl : slot.item = a := of_decide_eq_true here
    exact (tallies.perm listed).counted.perm counted.symm
  · rename_i unheld
    have new : ∀ slot ∈ slots, slot.item ≠ a := by simpa using unheld
    split
    · rename_i free
      exact (tallies.pushed new free).perm (List.perm_append_singleton _ _).symm
    · rename_i full
      have some' : slots ≠ [] := by
        rintro rfl
        exact full positive
      obtain ⟨slot, rest, listed, least, replaced⟩ := exists_modifyFirst
        (f := fun slot : Slot α => ⟨a, slot.count + 1, slot.count⟩)
        (exists_isLeast Slot.count some')
      have lower : ∀ other ∈ slots, slot.count ≤ other.count := by simpa [isLeast] using least
      refine ((tallies.perm listed).replaced (fun other mem => new other (listed.mem_iff.mpr mem))
        ?_ fun other mem => lower other (listed.mem_iff.mpr (List.mem_cons_of_mem _ mem))).perm
          replaced.symm
      have := listed.length_eq
      simp only [List.length_cons] at this
      omega

/-- An item that makes up more than its share of the stream has a slot. -/
theorem Tallies.holds_frequent (tallies : Tallies capacity stream slots)
    (frequent : stream.length < stream.count a * capacity) : ∃ slot ∈ slots, slot.item = a := by
  by_contra out
  push Not at out
  have seen : a ∈ stream := by
    refine List.count_pos_iff.mp (Nat.pos_of_ne_zero fun none => ?_)
    simp [none] at frequent
  obtain ⟨full, least⟩ := tallies.unheld a seen out
  have low : (slots.map Slot.count).length • stream.count a ≤ (slots.map Slot.count).sum := by
    refine List.card_nsmul_le_sum _ _ fun count mem => ?_
    obtain ⟨slot, held, rfl⟩ := List.mem_map.mp mem
    exact least slot held
  rw [List.length_map, full, tallies.total, smul_eq_mul, Nat.mul_comm] at low
  omega

end Summary

end Library
