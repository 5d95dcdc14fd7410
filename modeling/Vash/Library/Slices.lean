/-
# Slices of a stream

A walk over an input notes a kind and a length for each item it frames, and gathers
neighbours of one kind into runs. Another framer, the executor, is later given the
slice of some consecutive runs alone. The executor is faithful to the walk when it
meets there the items that it meets in the whole input, and uses the slice up.

* `runsOf_covers` — the runs are a partition of the items, in order.
* `faithful_iff` — when an item that is taken is taken whatever follows it, the executor
  is faithful exactly when it takes each item at the front of what its run still has.
-/

import Vash.Library.Stream

namespace Library

variable {β α κ ρ : Type}

/-- A stretch of items of one kind. -/
structure Run (κ : Type) where
  len : Nat
  count : Nat
  kind : κ
  deriving DecidableEq, Repr

namespace Run

/-- The elements of some runs. -/
def lens (runs : List (Run κ)) : Nat := (runs.map Run.len).sum

/-- The items of some runs. -/
def counts (runs : List (Run κ)) : Nat := (runs.map Run.count).sum

@[simp] theorem lens_nil : lens ([] : List (Run κ)) = 0 := rfl

@[simp] theorem lens_cons (run : Run κ) (runs : List (Run κ)) :
    lens (run :: runs) = run.len + lens runs := by
  simp [lens]

@[simp] theorem counts_nil : counts ([] : List (Run κ)) = 0 := rfl

@[simp] theorem counts_cons (run : Run κ) (runs : List (Run κ)) :
    counts (run :: runs) = run.count + counts runs := by
  simp [counts]

/-- One item more: it extends the last run if that is of its kind. -/
def extend [DecidableEq κ] (runs : List (Run κ)) (kind : κ) (len : Nat) : List (Run κ) :=
  match runs.getLast? with
  | some last =>
    if last.kind = kind then
      runs.dropLast ++ [{ last with len := last.len + len, count := last.count + 1 }]
    else runs ++ [⟨len, 1, kind⟩]
  | none => runs ++ [⟨len, 1, kind⟩]

/-- The runs of a list of items. -/
def runsOf [DecidableEq κ] (entries : List (κ × Nat)) : List (Run κ) :=
  entries.foldl (fun runs entry => extend runs entry.1 entry.2) []

/-! ### The partition -/

/-- A run and the items gathered in it. -/
structure Covers (run : Run κ) (segment : List (κ × Nat)) : Prop where
  nonempty : segment ≠ []
  len : run.len = Framer.size segment
  count : run.count = segment.length
  kind : ∀ entry ∈ segment, entry.1 = run.kind

/-- The items of runs in front and of runs behind. -/
theorem covers_append {front back : List (Run κ)} {segments : List (List (κ × Nat))}
    (covers : List.Forall₂ Covers (front ++ back) segments) :
    ∃ early late, segments = early ++ late ∧ List.Forall₂ Covers front early ∧
      List.Forall₂ Covers back late := by
  refine ⟨segments.take front.length, segments.drop front.length,
    (List.take_append_drop _ _).symm, ?_, ?_⟩
  · simpa using List.forall₂_take front.length covers
  · simpa using List.forall₂_drop front.length covers

theorem lens_of_covers {runs : List (Run κ)} {segments : List (List (κ × Nat))}
    (covers : List.Forall₂ Covers runs segments) : lens runs = Framer.size segments.flatten := by
  induction covers with
  | nil => rfl
  | cons here _ ih => simp [here.len, ih]

theorem counts_of_covers {runs : List (Run κ)} {segments : List (List (κ × Nat))}
    (covers : List.Forall₂ Covers runs segments) : counts runs = segments.flatten.length := by
  induction covers with
  | nil => rfl
  | cons here _ ih => rw [counts_cons, here.count, ih, List.flatten_cons, List.length_append]

variable [DecidableEq κ]

theorem extend_covers {runs : List (Run κ)} {segments : List (List (κ × Nat))}
    (covers : List.Forall₂ Covers runs segments) (kind : κ) (len : Nat) :
    ∃ segments', List.Forall₂ Covers (extend runs kind len) segments' ∧
      segments'.flatten = segments.flatten ++ [(kind, len)] := by
  have alone : Covers ⟨len, 1, kind⟩ [(kind, len)] :=
    ⟨by simp, by simp, rfl, by simp⟩
  have appended : ∃ segments', List.Forall₂ Covers (runs ++ [⟨len, 1, kind⟩]) segments' ∧
      segments'.flatten = segments.flatten ++ [(kind, len)] :=
    ⟨segments ++ [[(kind, len)]], List.rel_append covers (.cons alone .nil), by simp⟩
  rcases List.eq_nil_or_concat runs with rfl | ⟨early, last, rfl⟩
  · exact appended
  rw [List.concat_eq_append] at covers appended ⊢
  by_cases same : last.kind = kind
  · obtain ⟨earlier, latest, rfl, coversEarly, coversLast⟩ := covers_append covers
    cases coversLast with
    | @cons _ segment _ _ here rest =>
      cases rest
      have extended : Covers { last with len := last.len + len, count := last.count + 1 }
          (segment ++ [(kind, len)]) := by
        refine ⟨by simp, by simp [here.len], by simp [here.count], ?_⟩
        intro entry mem
        rcases List.mem_append.mp mem with old | new
        · exact here.kind entry old
        · rw [List.mem_singleton.mp new]
          exact same.symm
      refine ⟨earlier ++ [segment ++ [(kind, len)]], ?_, by simp⟩
      simp only [extend, List.getLast?_concat, if_pos same, List.dropLast_concat]
      exact List.rel_append coversEarly (.cons extended .nil)
  · simpa only [extend, List.getLast?_concat, if_neg same] using appended

/-- The runs are a partition of the items, in order. -/
theorem runsOf_covers (entries : List (κ × Nat)) :
    ∃ segments, List.Forall₂ Covers (runsOf entries) segments ∧ segments.flatten = entries := by
  induction entries using List.reverseRecOn with
  | nil => exact ⟨[], .nil, rfl⟩
  | append_singleton entries entry ih =>
    obtain ⟨segments, covers, rfl⟩ := ih
    obtain ⟨segments', covers', flat⟩ := extend_covers covers entry.1 entry.2
    refine ⟨segments', ?_, flat⟩
    simpa [runsOf] using covers'

/-- An item, the items before it and the items behind it in its run. -/
def Placed (entries before : List (κ × Nat)) (entry : κ × Nat) (after : List (κ × Nat)) : Prop :=
  ∃ front run back early, runsOf entries = front ++ run :: back ∧
    (entries.drop (counts front)).take run.count = early ++ entry :: after ∧
    before = entries.take (counts front) ++ early

/-- The items of a run among all. -/
theorem placed_iff {entries : List (κ × Nat)} {segments : List (List (κ × Nat))}
    (covers : List.Forall₂ Covers (runsOf entries) segments) (flat : segments.flatten = entries)
    {before after : List (κ × Nat)} {entry : κ × Nat} :
    Placed entries before entry after ↔ ∃ front early back,
      segments = front ++ (early ++ entry :: after) :: back ∧ before = front.flatten ++ early := by
  subst flat
  constructor
  · rintro ⟨front, run, back, early, split, items, rfl⟩
    rw [split] at covers
    obtain ⟨first, others, rfl, coversFront, coversBack⟩ := covers_append covers
    cases coversBack with
    | @cons _ segment _ later here _ =>
      rw [counts_of_covers coversFront, here.count] at items
      rw [counts_of_covers coversFront]
      simp only [List.flatten_append, List.flatten_cons, List.drop_left, List.take_left] at items ⊢
      exact ⟨first, early, later, by rw [items], rfl⟩
  · rintro ⟨front, early, back, rfl, rfl⟩
    obtain ⟨runs, others, split, coversFront, coversBack⟩ :
        ∃ runs others, runsOf _ = runs ++ others ∧ List.Forall₂ Covers runs front ∧
          List.Forall₂ Covers others ((early ++ entry :: after) :: back) :=
      ⟨_, _, (List.take_append_drop front.length _).symm, List.forall₂_take_append _ _ _ covers,
        List.forall₂_drop_append _ _ _ covers⟩
    cases coversBack with
    | @cons run _ later _ here _ =>
      refine ⟨runs, run, later, early, split, ?_, ?_⟩
      · rw [counts_of_covers coversFront, here.count, List.flatten_append, List.flatten_cons,
          List.drop_left, List.take_left]
      · rw [counts_of_covers coversFront, List.flatten_append, List.take_left]

/-- An item among some lists is in one of them. -/
theorem flatten_split {γ : Type} {lists : List (List γ)} {before after : List γ} {item : γ}
    (flat : lists.flatten = before ++ item :: after) :
    ∃ front early late back, lists = front ++ (early ++ item :: late) :: back ∧
      before = front.flatten ++ early ∧ after = late ++ back.flatten := by
  rcases List.flatten_eq_append_iff.mp flat with
    ⟨front, rest, rfl, rfl, begins⟩ | ⟨front, early, _, late, back, rfl, rfl, same⟩
  · obtain ⟨empty, late, back, rfl, nothing, rfl⟩ := List.flatten_eq_cons_iff.mp begins.symm
    have none : empty.flatten = [] := List.flatten_eq_nil_iff.mpr nothing
    exact ⟨front ++ empty, [], late, back, by simp, by simp [none], rfl⟩
  · cases same
    exact ⟨front, early, late, back, rfl, rfl, rfl⟩

theorem Placed.split {entries before after : List (κ × Nat)} {entry : κ × Nat}
    (placed : Placed entries before entry after) :
    ∃ others, entries = before ++ entry :: (after ++ others) := by
  obtain ⟨front, run, back, early, -, items, rfl⟩ := placed
  refine ⟨(entries.drop (counts front)).drop run.count, ?_⟩
  calc entries = entries.take (counts front) ++ ((entries.drop (counts front)).take run.count ++
        (entries.drop (counts front)).drop run.count) := by
        rw [List.take_append_drop, List.take_append_drop]
    _ = _ := by rw [items]; simp

/-- Every item is in a run. -/
theorem exists_placed {entries before late : List (κ × Nat)} {entry : κ × Nat}
    (split : entries = before ++ entry :: late) :
    ∃ after others, Placed entries before entry after ∧ late = after ++ others := by
  obtain ⟨segments, covers, flat⟩ := runsOf_covers entries
  obtain ⟨front, early, after, rest, eq, rfl, rfl⟩ := flatten_split (flat.trans split)
  exact ⟨after, rest.flatten, (placed_iff covers flat).mpr ⟨front, early, rest, eq, rfl⟩, rfl⟩

/-- The items of some consecutive runs, and where the runs of these end. -/
theorem exists_parts {entries : List (κ × Nat)} {front mid back : List (Run κ)}
    (split : runsOf entries = front ++ mid ++ back) :
    ∃ before here after, entries = before ++ here ++ after ∧
      (lens front = Framer.size before ∧ counts front = before.length) ∧
      (lens mid = Framer.size here ∧ counts mid = here.length) ∧
      ∀ early entry late, here = early ++ entry :: late →
        ∃ after others, Placed entries (before ++ early) entry after ∧ late = after ++ others := by
  obtain ⟨segments, covers, flat⟩ := runsOf_covers entries
  have placed := @placed_iff _ _ _ _ covers flat
  rw [split] at covers
  obtain ⟨_, last, rfl, coversBoth, -⟩ := covers_append covers
  obtain ⟨first, middle, rfl, coversFront, coversMid⟩ := covers_append coversBoth
  refine ⟨first.flatten, middle.flatten, last.flatten, by simp [← flat],
    ⟨lens_of_covers coversFront, counts_of_covers coversFront⟩,
    ⟨lens_of_covers coversMid, counts_of_covers coversMid⟩, ?_⟩
  intro early entry late whole
  obtain ⟨others, start, after, rest, rfl, rfl, rfl⟩ := flatten_split whole
  refine ⟨after, rest.flatten, placed.mpr ⟨first ++ others, start, rest ++ last, ?_, ?_⟩, rfl⟩
  · simp
  · simp

theorem lens_runsOf (entries : List (κ × Nat)) : lens (runsOf entries) = Framer.size entries := by
  obtain ⟨segments, covers, rfl⟩ := runsOf_covers entries
  exact lens_of_covers covers

/-- A run of items that take something takes something. -/
theorem runsOf_positive {entries : List (κ × Nat)} (positive : ∀ entry ∈ entries, 0 < entry.2) :
    ∀ run ∈ runsOf entries, 0 < run.len := by
  obtain ⟨segments, covers, flat⟩ := runsOf_covers entries
  intro run mem
  obtain ⟨segment, listed, here⟩ : ∃ segment ∈ segments, Covers run segment := by
    obtain ⟨front, back, split⟩ := List.append_of_mem mem
    rw [split] at covers
    obtain ⟨_, others, rfl, -, coversBack⟩ := covers_append covers
    cases coversBack with
    | @cons _ segment _ _ here _ => exact ⟨segment, by simp, here⟩
  obtain ⟨entry, others, rfl⟩ := List.exists_cons_of_ne_nil here.nonempty
  have first := positive entry (flat ▸ List.mem_flatten.mpr ⟨_, listed, List.mem_cons_self⟩)
  rw [here.len, Framer.size_cons]
  omega

end Run

/-! ### Executing slices -/

namespace Framer

variable {f : Framer β α ρ}

/-- An item that is taken is taken whatever follows. -/
def Grows (f : Framer β α ρ) : Prop :=
  ∀ input more item length, f.next input = .take item length →
    f.next (input ++ more) = .take item length

theorem Grows.take (grows : f.Grows) {input : List β} {item : α} {length n m : Nat} (le : n ≤ m)
    (taken : f.next (input.take n) = .take item length) :
    f.next (input.take m) = .take item length := by
  have longer := grows _ ((input.take m).drop n) _ _ taken
  rwa [← Nat.min_eq_left le, ← List.take_take, Nat.min_eq_left le, List.take_append_drop] at longer

theorem Grows.whole (grows : f.Grows) {input : List β} {item : α} {length n : Nat}
    (taken : f.next (input.take n) = .take item length) : f.next input = .take item length := by
  have longer := grows _ (input.drop n) _ _ taken
  rwa [List.take_append_drop] at longer

theorem Stable.grows (stable : f.Stable) : f.Grows := by
  intro input more item length taken
  rw [stable input more (by simp [taken]), taken]

/-- Each item of an input is what is taken where it begins. -/
theorem next_of_items {input : List β} {front back : List (α × Nat)} {item : α} {length : Nat}
    (items : (f.drain input).items = front ++ (item, length) :: back) :
    f.next (input.drop (size front)) = .take item length := by
  have behind := congrArg Drained.items (drain_back items)
  cases verdict : f.next (input.drop (size front)) with
  | wait => simp [drain_wait verdict] at behind
  | stop reason => simp [drain_stop verdict] at behind
  | take item' length' =>
    rw [drain_take verdict] at behind
    cases (List.cons.inj behind).1
    rfl

/-- What a walk that frames as `f` does notes of an input. -/
def entries (f : Framer β α ρ) (kind : α → κ) (input : List β) : List (κ × Nat) :=
  (f.drain input).items.map fun item => (kind item.1, item.2)

theorem entries_pos {kind : α → κ} {input : List β} :
    ∀ entry ∈ f.entries kind input, 0 < entry.2 := by
  intro entry mem
  obtain ⟨item, listed, rfl⟩ := List.mem_map.mp mem
  exact length_pos input item listed

theorem size_entries (kind : α → κ) (input : List β) :
    size (f.entries kind input) = size (f.drain input).items := by
  simp [entries, size, Function.comp_def]

theorem size_entries_le (kind : α → κ) (input : List β) :
    size (f.entries kind input) ≤ input.length := by
  rw [size_entries]
  exact (left_eq input).2

/-- Each entry is of the item that is taken where it begins. -/
theorem next_of_entries {kind : α → κ} {input : List β} {before after : List (κ × Nat)}
    {entry : κ × Nat} (split : f.entries kind input = before ++ entry :: after) :
    ∃ item, kind item = entry.1 ∧ f.next (input.drop (size before)) = .take item entry.2 := by
  obtain ⟨front, others, all, rfl, others'⟩ := List.map_eq_append_iff.mp split
  obtain ⟨⟨item, length⟩, back, rfl, rfl, rfl⟩ := List.map_eq_cons_iff.mp others'
  refine ⟨item, rfl, ?_⟩
  have sizes : size (front.map fun item => (kind item.1, item.2)) = size front := by
    simp [size, Function.comp_def]
  rw [sizes]
  exact next_of_items all

/-- The items that are taken where the entries of a list begin are the first items. -/
theorem exists_items {input : List β} {entries : List (κ × Nat)}
    (taken : ∀ before entry after, entries = before ++ entry :: after →
      ∃ item, f.next (input.drop (size before)) = .take item entry.2) :
    ∃ items more, (f.drain input).items = items ++ more ∧
      items.map Prod.snd = entries.map Prod.snd := by
  induction entries generalizing input with
  | nil => exact ⟨[], _, rfl, rfl⟩
  | cons entry entries ih =>
    obtain ⟨item, verdict⟩ := taken [] entry entries rfl
    rw [size_nil, List.drop_zero] at verdict
    have later : ∀ before next after, entries = before ++ next :: after →
        ∃ item, f.next ((input.drop entry.2).drop (size before)) = .take item next.2 := by
      intro before next after split
      have := taken (entry :: before) next after (by rw [split]; rfl)
      rwa [size_cons, ← List.drop_drop] at this
    obtain ⟨items, more, all, lengths⟩ := ih later
    refine ⟨(item, entry.2) :: items, more, ?_, by simp [lengths]⟩
    rw [drain_take verdict, Drained.after, all]
    rfl

theorem size_eq_of_lengths {items : List (α × Nat)} {entries : List (κ × Nat)}
    (lengths : items.map Prod.snd = entries.map Prod.snd) : size items = size entries :=
  congrArg List.sum lengths

/-- A slice in which each item is taken where it begins is used up by them. -/
theorem drain_of_taken (grows : f.Grows) {input : List β} {items back : List (α × Nat)}
    {entries : List (κ × Nat)} (all : (f.drain input).items = items ++ back)
    (lengths : items.map Prod.snd = entries.map Prod.snd)
    (taken : ∀ before entry after, entries = before ++ entry :: after →
      ∃ item, f.next ((input.drop (size before)).take (entry.2 + size after)) =
        .take item entry.2) :
    f.drain (input.take (size entries)) = ⟨items, [], none⟩ := by
  induction entries generalizing input items with
  | nil =>
    rw [List.map_nil, List.map_eq_nil_iff] at lengths
    simp [drain_wait f.next_nil, lengths]
  | cons entry entries ih =>
    obtain ⟨met, items, rfl, -, lengths⟩ := List.map_eq_cons_iff.mp lengths
    obtain ⟨item, verdict⟩ := taken [] entry entries rfl
    rw [size_nil, List.drop_zero] at verdict
    rw [drain_take (grows.whole verdict)] at all
    obtain ⟨same, later⟩ := List.cons.inj all
    have rest := ih later lengths fun before next after split => by
      have := taken (entry :: before) next after (by rw [split]; rfl)
      rwa [size_cons, ← List.drop_drop] at this
    rw [size_cons, drain_take verdict, List.drop_take, Nat.add_sub_cancel_left, rest, ← same]
    rfl

variable [DecidableEq κ]

/-- The executor meets the items of any consecutive runs in their slice alone as it does in
the whole input, with the lengths noted for them, and uses the slice up. -/
structure Faithful (f : Framer β α ρ) (entries : List (κ × Nat)) (input : List β) : Prop where
  positive : ∀ run ∈ Run.runsOf entries, 0 < run.len
  total : Run.lens (Run.runsOf entries) = size entries
  within : size entries ≤ input.length
  slices : ∀ front mid back, Run.runsOf entries = front ++ mid ++ back →
    f.drain ((input.drop (Run.lens front)).take (Run.lens mid)) =
        ⟨((f.drain input).items.drop (Run.counts front)).take (Run.counts mid), [], none⟩ ∧
      (((f.drain input).items.drop (Run.counts front)).take (Run.counts mid)).map Prod.snd =
        ((entries.drop (Run.counts front)).take (Run.counts mid)).map Prod.snd

/-- Each item is taken at the front of what its run still has. -/
def TakesInRuns (f : Framer β α ρ) (entries : List (κ × Nat)) (input : List β) : Prop :=
  ∀ before entry after, Run.Placed entries before entry after →
    ∃ item, f.next ((input.drop (size before)).take (entry.2 + size after)) = .take item entry.2

/-- In the slice of some consecutive runs each item is taken where it begins. -/
theorem TakesInRuns.parts (grows : f.Grows) {entries : List (κ × Nat)} {input : List β}
    (taken : f.TakesInRuns entries input) {before here : List (κ × Nat)}
    (placed : ∀ early entry late, here = early ++ entry :: late →
      ∃ after others, Run.Placed entries (before ++ early) entry after ∧ late = after ++ others)
    (early : List (κ × Nat)) (entry : κ × Nat) (late : List (κ × Nat))
    (split : here = early ++ entry :: late) :
    ∃ item, f.next (((input.drop (size before)).drop (size early)).take (entry.2 + size late)) =
      .take item entry.2 := by
  obtain ⟨after, others, place, rfl⟩ := placed early entry late split
  obtain ⟨item, verdict⟩ := taken _ _ _ place
  rw [size_append, ← List.drop_drop] at verdict
  exact ⟨item, grows.take (by rw [size_append]; omega) verdict⟩

/-- A framer whose verdicts depend on no more than what they take is faithful to its own
walk. -/
theorem Local.takesInRuns (isLocal : f.Local) (kind : α → κ) (input : List β) :
    f.TakesInRuns (f.entries kind input) input := by
  intro before entry after placed
  obtain ⟨others, split⟩ := placed.split
  obtain ⟨item, -, verdict⟩ := next_of_entries split
  exact ⟨item, isLocal _ _ _ _ verdict (Nat.le_add_right _ _)⟩

theorem faithful_iff (grows : f.Grows) {entries : List (κ × Nat)} {input : List β}
    (positive : ∀ entry ∈ entries, 0 < entry.2) (within : size entries ≤ input.length) :
    f.Faithful entries input ↔ f.TakesInRuns entries input := by
  constructor
  · rintro faithful before entry after ⟨front, run, back, early, split, items, rfl⟩
    have split' : Run.runsOf entries = front ++ [run] ++ back := by simp [split]
    obtain ⟨others, here, rest, rfl, sizes, sizes', -⟩ := Run.exists_parts split'
    obtain ⟨used, lengths⟩ := faithful.slices front [run] back split'
    simp only [Run.lens_cons, Run.lens_nil, Run.counts_cons, Run.counts_nil, Nat.add_zero]
      at sizes' used lengths
    rw [List.append_assoc, sizes.2, List.drop_left, sizes'.2, List.take_left] at items
    rw [sizes.2, sizes'.2] at used
    rw [List.append_assoc, sizes.2, sizes'.2, List.drop_left, List.take_left] at lengths
    have lengths := lengths.trans (congrArg (List.map Prod.snd) items)
    rw [List.map_append, List.map_cons] at lengths
    -- the item that is met where the entry stands
    obtain ⟨met, more, all, lengthsEarly, lengthsLate⟩ := List.map_eq_append_iff.mp lengths
    obtain ⟨⟨item, length⟩, behind, rfl, same, -⟩ := List.map_eq_cons_iff.mp lengthsLate
    cases same
    rw [all] at used
    have verdict := next_of_items (congrArg Drained.items used)
    rw [sizes.1, sizes'.1, size_eq_of_lengths lengthsEarly, List.drop_take, List.drop_drop, items,
      size_append, size_cons, Nat.add_sub_cancel_left] at verdict
    refine ⟨item, ?_⟩
    rw [sizes.2, List.append_assoc, List.take_left, size_append]
    exact verdict
  · intro taken
    refine ⟨Run.runsOf_positive positive, Run.lens_runsOf entries, within, ?_⟩
    intro front mid back split
    have everywhere : ∀ early entry late, entries = early ++ entry :: late →
        ∃ item, f.next (input.drop (size early)) = .take item entry.2 := by
      intro early entry late split
      obtain ⟨after, others, place, -⟩ := Run.exists_placed split
      obtain ⟨item, verdict⟩ := taken _ _ _ place
      exact ⟨item, grows.whole verdict⟩
    obtain ⟨items, more, all, lengths⟩ := exists_items everywhere
    obtain ⟨before, here, after, rfl, sizes, sizes', placed⟩ := Run.exists_parts split
    -- the items met in the whole input are cut as the entries are
    rw [List.map_append, List.map_append] at lengths
    obtain ⟨both, last, rfl, lengthsBoth, -⟩ := List.map_eq_append_iff.mp lengths
    obtain ⟨first, middle, rfl, lengthsFirst, lengthsMiddle⟩ :=
      List.map_eq_append_iff.mp lengthsBoth
    simp only [List.append_assoc] at all
    have behind := congrArg Drained.items (drain_back all)
    rw [size_eq_of_lengths lengthsFirst] at behind
    have used := drain_of_taken grows behind lengthsMiddle (taken.parts grows placed)
    have count : first.length = before.length := by simpa using congrArg List.length lengthsFirst
    have count' : middle.length = here.length := by simpa using congrArg List.length lengthsMiddle
    rw [sizes.1, sizes.2, sizes'.1, sizes'.2, all, ← count, List.drop_left, ← count',
      List.take_left, used, count, count', List.append_assoc, List.drop_left, List.take_left]
    exact ⟨rfl, lengthsMiddle⟩

end Framer

end Library
