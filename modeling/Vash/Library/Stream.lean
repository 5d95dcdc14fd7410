/-
# Framing a stream

A framer looks at the front of its input and waits for more, takes an item off
the front, or stops for good. Draining an input takes items until it waits or
stops; a connection drains whatever it has each time bytes arrive.

* `serve_seen` — when the verdicts along a stream are steady, that is, when no
  verdict other than waiting changes as more of the stream arrives, then any way of
  cutting the stream into reads shows the same items and the same stop.
-/

import Mathlib

namespace Library

variable {β α ρ : Type}

/-! ### Lines -/

section Lines
variable [DecidableEq β] {newline : β}

theorem findIdx?_of_not_mem {input : List β} (none : newline ∉ input) :
    input.findIdx? (· = newline) = Option.none := by
  rw [List.findIdx?_eq_none_iff]
  intro b mem
  exact decide_eq_false fun same => none (same ▸ mem)

/-- The first newline ends the first line. -/
theorem findIdx?_line {line : List β} (single : newline ∉ line) (rest : List β) :
    (line ++ newline :: rest).findIdx? (· = newline) = some line.length := by
  rw [List.findIdx?_append, findIdx?_of_not_mem single]
  simp [List.findIdx?_cons]

/-- Every input is a line and what follows, or holds no newline. -/
theorem line_cases (newline : β) (input : List β) :
    newline ∉ input ∨ ∃ line rest, newline ∉ line ∧ input = line ++ newline :: rest := by
  by_cases present : newline ∈ input
  · obtain ⟨line, rest, split, single⟩ := List.eq_append_cons_of_mem present
    exact .inr ⟨line, rest, single, split⟩
  · exact .inl present

end Lines

/-! ### Framers -/

/-- What a framer makes of the front of its input. -/
inductive Verdict (α ρ : Type) where
  | wait
  | take (item : α) (length : Nat)
  | stop (reason : ρ)
  deriving DecidableEq, Repr

/-- A framer takes at least one element, and no more than there are; with nothing to
look at it waits. -/
structure Framer (β α ρ : Type) where
  next : List β → Verdict α ρ
  next_nil : next [] = .wait
  take_le : ∀ {input item length}, next input = .take item length →
    0 < length ∧ length ≤ input.length

/-- The items taken off an input with their lengths, what was left, and why it
stopped, if it did. -/
structure Drained (β α ρ : Type) where
  items : List (α × Nat)
  left : List β
  stopped : Option ρ
  deriving DecidableEq, Repr

/-- What can be told from outside: the items and the stop. -/
def Drained.seen (d : Drained β α ρ) : List (α × Nat) × Option ρ := (d.items, d.stopped)

/-- One item in front of others. -/
def Drained.after (item : α) (length : Nat) (d : Drained β α ρ) : Drained β α ρ :=
  { d with items := (item, length) :: d.items }

namespace Framer

variable (f : Framer β α ρ)

/-- Drains an input of fewer than `fuel` elements. -/
def drainWith : Nat → List β → Drained β α ρ
  | 0, input => ⟨[], input, none⟩
  | fuel + 1, input =>
    match f.next input with
    | .wait => ⟨[], input, none⟩
    | .stop reason => ⟨[], input, some reason⟩
    | .take item length => (drainWith fuel (input.drop length)).after item length

/-- Takes items until the framer waits or stops. -/
def drain (input : List β) : Drained β α ρ := f.drainWith (input.length + 1) input

/-- Bytes arrive: what was left and the new bytes are drained, unless the framer has
stopped. -/
def receive (state : Drained β α ρ) (read : List β) : Drained β α ρ :=
  if state.stopped.isSome then state
  else
    let d := f.drain (state.left ++ read)
    ⟨state.items ++ d.items, d.left, d.stopped⟩

/-- A connection that is sent a sequence of reads. -/
def serve (reads : List (List β)) : Drained β α ρ := reads.foldl f.receive ⟨[], [], none⟩

variable {f}

/-! ### Draining -/

/-- Fuel beyond the length of the input changes nothing. -/
theorem drainWith_eq {fuel : Nat} {input : List β} (enough : input.length < fuel) :
    f.drainWith fuel input = f.drain input := by
  have general : ∀ fuel fuel' (input : List β), input.length < fuel → input.length < fuel' →
      f.drainWith fuel input = f.drainWith fuel' input := by
    intro fuel
    induction fuel with
    | zero => intro _ _ short; omega
    | succ fuel ih =>
      intro fuel' input enough enough'
      obtain ⟨fuel', rfl⟩ : ∃ n, fuel' = n + 1 := ⟨fuel' - 1, by omega⟩
      unfold drainWith
      cases verdict : f.next input with
      | wait => rfl
      | stop reason => rfl
      | take item length =>
        have bounds := f.take_le verdict
        dsimp only
        rw [ih fuel' _ (by simp; omega) (by simp; omega)]
  exact general _ _ input enough (Nat.lt_succ_self _)

theorem drain_wait {input : List β} (verdict : f.next input = .wait) :
    f.drain input = ⟨[], input, none⟩ := by
  simp [drain, drainWith, verdict]

theorem drain_stop {input : List β} {reason : ρ} (verdict : f.next input = .stop reason) :
    f.drain input = ⟨[], input, some reason⟩ := by
  simp [drain, drainWith, verdict]

theorem drain_take {input : List β} {item : α} {length : Nat}
    (verdict : f.next input = .take item length) :
    f.drain input = (f.drain (input.drop length)).after item length := by
  have bounds := f.take_le verdict
  rw [drain, drainWith, verdict]
  dsimp only
  rw [drainWith_eq (by simp; omega)]

/-- Induction along the items of an input. -/
theorem drain_induction {motive : List β → Prop}
    (wait : ∀ input, f.next input = .wait → motive input)
    (stop : ∀ input reason, f.next input = .stop reason → motive input)
    (take : ∀ input item length, f.next input = .take item length → motive (input.drop length) →
      motive input) (input : List β) : motive input := by
  induction size : input.length using Nat.strong_induction_on generalizing input with
  | _ n ih =>
    cases verdict : f.next input with
    | wait => exact wait input verdict
    | stop reason => exact stop input reason verdict
    | take item length =>
      have bounds := f.take_le verdict
      exact take input item length verdict (ih _ (by simp; omega) _ rfl)

/-! ### Steady streams -/

/-- Where an item of the stream begins, or where the items end. -/
inductive Boundary (f : Framer β α ρ) : List β → List β → Prop where
  | here (stream : List β) : Boundary f stream stream
  | next {stream rest : List β} {item : α} {length : Nat}
      (verdict : f.next stream = .take item length)
      (later : Boundary f (stream.drop length) rest) : Boundary f stream rest

/-- More of the stream arriving changes no verdict but waiting. -/
def Steady (f : Framer β α ρ) (stream : List β) : Prop :=
  ∀ rest, f.Boundary stream rest → ∀ front mid, front <+: mid → mid <+: rest →
    f.next front ≠ .wait → f.next mid = f.next front

/-- No verdict but waiting ever changes. -/
def Stable (f : Framer β α ρ) : Prop :=
  ∀ front more, f.next front ≠ .wait → f.next (front ++ more) = f.next front

theorem Stable.steady (stable : f.Stable) (stream : List β) : f.Steady stream := by
  rintro rest - front mid ⟨more, rfl⟩ - decided
  exact stable front more decided

/-- The verdict on a beginning of a steady stream is the verdict on the stream. -/
theorem Steady.whole {stream more : List β} (steady : f.Steady (stream ++ more))
    {verdict : Verdict α ρ} (decided : f.next stream = verdict) (nowait : verdict ≠ .wait) :
    f.next (stream ++ more) = verdict := by
  rw [← decided] at nowait ⊢
  exact steady _ (.here _) stream _ (List.prefix_append _ _) List.prefix_rfl nowait

theorem Steady.drop {stream : List β} {item : α} {length : Nat} (steady : f.Steady stream)
    (verdict : f.next stream = .take item length) : f.Steady (stream.drop length) :=
  fun rest boundary => steady rest (.next verdict boundary)

/-- A beginning of a steady stream is steady. -/
theorem Steady.front {stream more : List β} (steady : f.Steady (stream ++ more)) :
    f.Steady stream := by
  intro rest boundary
  induction boundary generalizing more with
  | here stream =>
    intro front mid before within
    exact steady _ (.here _) front mid before (within.trans (List.prefix_append _ _))
  | @next stream rest item length verdict later ih =>
    have bounds := f.take_le verdict
    have later : f.Steady (stream.drop length ++ more) := by
      rw [← List.drop_append_of_le_length bounds.2]
      exact steady.drop (steady.whole verdict (by simp))
    exact ih later

/-- A stop at the front of a steady stream is the stop of the stream. -/
theorem drain_append_of_stopped {stream more : List β} (steady : f.Steady (stream ++ more))
    {reason : ρ} (stopped : (f.drain stream).stopped = some reason) :
    (f.drain (stream ++ more)).seen = (f.drain stream).seen := by
  induction stream using drain_induction (f := f) with
  | wait stream verdict => simp [drain_wait verdict] at stopped
  | stop stream reason' verdict =>
    rw [drain_stop verdict, drain_stop (steady.whole verdict (by simp))]
    rfl
  | take stream item length verdict ih =>
    have bounds := f.take_le verdict
    have same := steady.whole verdict (by simp)
    have later := steady.drop same
    rw [drain_take verdict] at stopped ⊢
    rw [drain_take same]
    rw [List.drop_append_of_le_length bounds.2] at later ⊢
    have seen := ih later stopped
    simp only [Drained.seen, Drained.after, Prod.mk.injEq] at seen ⊢
    exact ⟨by rw [seen.1], seen.2⟩

/-- Without a stop, what was left is drained with what comes after it. -/
theorem drain_append_of_waiting {stream more : List β} (steady : f.Steady (stream ++ more))
    (waiting : (f.drain stream).stopped = none) :
    f.drain (stream ++ more) =
      { f.drain ((f.drain stream).left ++ more) with
        items := (f.drain stream).items ++ (f.drain ((f.drain stream).left ++ more)).items } := by
  induction stream using drain_induction (f := f) with
  | wait stream verdict => simp [drain_wait verdict]
  | stop stream reason verdict => simp [drain_stop verdict] at waiting
  | take stream item length verdict ih =>
    have bounds := f.take_le verdict
    have same := steady.whole verdict (by simp)
    have later := steady.drop same
    rw [drain_take verdict] at waiting ⊢
    rw [drain_take same]
    rw [List.drop_append_of_le_length bounds.2] at later ⊢
    rw [ih later waiting]
    rfl

/-- However a steady stream is cut into reads, its items and its stop are those of the
whole. -/
theorem serve_seen {reads : List (List β)} (steady : f.Steady reads.flatten) :
    (f.serve reads).seen = (f.drain reads.flatten).seen := by
  -- Along the reads the state is that of draining what has arrived; after a stop, what
  -- is left no longer matters.
  have general : (f.serve reads).seen = (f.drain reads.flatten).seen ∧
      ((f.serve reads).stopped = none → (f.serve reads).left = (f.drain reads.flatten).left) := by
    induction reads using List.reverseRecOn with
    | nil => simp [serve, drain_wait f.next_nil, Drained.seen]
    | append_singleton reads read ih =>
      rw [List.flatten_append, List.flatten_singleton] at steady
      obtain ⟨seen, left⟩ := ih steady.front
      have sameStop : (f.serve reads).stopped = (f.drain reads.flatten).stopped :=
        congrArg Prod.snd seen
      have step : f.serve (reads ++ [read]) = f.receive (f.serve reads) read := by
        simp [serve]
      rw [step, List.flatten_append, List.flatten_singleton, receive]
      cases stopped : (f.serve reads).stopped with
      | some reason =>
        rw [if_pos (by simp)]
        refine ⟨?_, by simp [stopped]⟩
        rw [seen, drain_append_of_stopped steady (sameStop ▸ stopped)]
      | none =>
        rw [if_neg (by simp), left stopped,
          drain_append_of_waiting steady (sameStop ▸ stopped)]
        have items : (f.serve reads).items = (f.drain reads.flatten).items :=
          congrArg Prod.fst seen
        rw [items]
        exact ⟨rfl, fun _ => rfl⟩
  exact general.1

/-! ### Slices -/

/-- A verdict that takes an item depends on no more than what it takes. -/
def Local (f : Framer β α ρ) : Prop :=
  ∀ input item length more, f.next input = .take item length → length ≤ more →
    f.next (input.take more) = .take item length

/-- The elements some items took. -/
def size (items : List (α × Nat)) : Nat := (items.map Prod.snd).sum

@[simp] theorem size_nil : size ([] : List (α × Nat)) = 0 := rfl

@[simp] theorem size_cons (entry : α × Nat) (items : List (α × Nat)) :
    size (entry :: items) = entry.2 + size items := by
  simp [size]

@[simp] theorem size_append (items others : List (α × Nat)) :
    size (items ++ others) = size items + size others := by
  simp [size]

/-- The items of an input and what is left of it are the input. -/
theorem left_eq (input : List β) :
    (f.drain input).left = input.drop (size (f.drain input).items) ∧
      size (f.drain input).items ≤ input.length := by
  induction input using drain_induction (f := f) with
  | wait input verdict => simp [drain_wait verdict]
  | stop input reason verdict => simp [drain_stop verdict]
  | take input item length verdict ih =>
    have bounds := f.take_le verdict
    rw [drain_take verdict]
    simp only [Drained.after, size_cons, List.length_drop] at ih ⊢
    rw [ih.1, List.drop_drop]
    exact ⟨rfl, by omega⟩

theorem length_pos (input : List β) : ∀ entry ∈ (f.drain input).items, 0 < entry.2 := by
  induction input using drain_induction (f := f) with
  | wait input verdict => simp [drain_wait verdict]
  | stop input reason verdict => simp [drain_stop verdict]
  | take input item length verdict ih =>
    rw [drain_take verdict]
    exact List.forall_mem_cons.mpr ⟨(f.take_le verdict).1, ih⟩

/-- Draining what is behind some items takes the items behind them. -/
theorem drain_back {input : List β} {front back : List (α × Nat)}
    (items : (f.drain input).items = front ++ back) :
    f.drain (input.drop (size front)) =
      ⟨back, (f.drain input).left, (f.drain input).stopped⟩ := by
  induction front generalizing input with
  | nil =>
    rw [List.nil_append] at items
    simp [← items]
  | cons entry front ih =>
    cases verdict : f.next input with
    | wait => simp [drain_wait verdict] at items
    | stop reason => simp [drain_stop verdict] at items
    | take item length =>
      rw [drain_take verdict] at items ⊢
      obtain ⟨same, later⟩ := List.cons.inj items
      cases same
      rw [size_cons, ← List.drop_drop, ih later]
      rfl

end Framer

end Library
