import Vash.Node.Store
import Vash.Store.Invalidation
import Vash.Store.Sides
import Vash.Store.TagLimit

/-!
# Jobs alone in their batch

What a job handed to a shard does to the generations the shard holds. Only the
three tag jobs move them, each under the name it was given.

* `submit_ok`, `submit_error` — a job alone is committed, with whatever it did
  before it stopped, unless its error poisoned the transaction.
* `submit_deleteByTag`, `submit_mergeTag`, `submit_createTags`, `submit_record` —
  the generations of the shard after each kind of job.
-/

namespace Vash.Node

open Library Store

/-- The generation of a name in the rows of a shard. -/
def rowGeneration (sh : Shard) (name : Bytes) : Option Nat :=
  (sh.tables.tags.get name).map TagRow.generation

/-- A name `validate_tag_name` lets through. -/
def ValidName (name : Bytes) : Prop := name.length ≠ 0 ∧ name.length ≤ maxTagLen

/-- Only valid names have a row. -/
def NamesValid (sh : Shard) : Prop := ∀ name, rowGeneration sh name ≠ none → ValidName name

/-- RAM shows the generations of the rows. -/
theorem generationOf_eq {sh : Shard} (ok : sh.TagsOk) (name : Bytes) :
    sh.engine.registry.generationOf name = rowGeneration sh name := by
  rw [Registry.generationOf, rowGeneration, ok.mirrors.byName, Option.map_map]
  rfl

section Submit

variable {sh : Shard} {clock : Nat → Nat} {op : WriteOp} {s : Txn}

theorem submit_ok {outcome : WriteOutcome}
    (ran : apply sh.engine op { sh.begin [] with clock } = .ok outcome s) :
    submit clock op sh = (.ok outcome, sh.commit s) := by
  have sound := (apply_sound sh.engine op _ ⟨rfl, rfl⟩).of_ok ran
  have opened : engineCall (sh.begin []) = .ok () (sh.begin []) := rfl
  simp [submit, commitBatch, opened, applyJobs, ran, finishBatch, engineCall_sound sound]

theorem submit_error {e : StoreError}
    (ran : apply sh.engine op { sh.begin [] with clock } = .error e s) :
    (submit clock op sh).1 = .error e ∧
      ((submit clock op sh).2 = sh.commit s ∨ (submit clock op sh).2 = sh.abort s) := by
  have sound := (apply_sound sh.engine op _ ⟨rfl, rfl⟩).of_error ran
  have opened : engineCall (sh.begin []) = .ok () (sh.begin []) := rfl
  cases poisons : e.poisonsTransaction with
  | true => simp [submit, commitBatch, opened, applyJobs, ran, poisons]
  | false =>
    simp [submit, commitBatch, opened, applyJobs, ran, poisons, finishBatch,
      engineCall_sound sound]

/-- A job refused without breaking the transaction is committed as far as it got. -/
theorem submit_refused {e : StoreError}
    (ran : apply sh.engine op { sh.begin [] with clock } = .error e s)
    (mild : e.poisonsTransaction = false) : submit clock op sh = (.error e, sh.commit s) := by
  have sound := (apply_sound sh.engine op _ ⟨rfl, rfl⟩).of_error ran
  have opened : engineCall (sh.begin []) = .ok () (sh.begin []) := rfl
  simp [submit, commitBatch, opened, applyJobs, ran, mild, finishBatch, engineCall_sound sound]

/-- What holds of the tables whenever the job ends, in whatever way. -/
theorem submit_tables (post : Tables → Prop)
    (ran : wp (apply sh.engine op) (fun _ s => post s.tables)
      (fun e s => post s.tables ∨ Breaks e s) { sh.begin [] with clock })
    (start : post sh.tables) : post (submit clock op sh).2.tables := by
  cases applied : apply sh.engine op { sh.begin [] with clock } with
  | ok outcome s =>
    rw [submit_ok applied]
    exact ran.of_ok applied
  | error e s =>
    have sound := (apply_sound sh.engine op _ ⟨rfl, rfl⟩).of_error applied
    have kept : post s.tables := (ran.of_error applied).resolve_right fun breaks =>
      absurd (sound.2.symm.trans breaks.2) (by simp)
    rcases (submit_error applied).2 with committed | aborted
    · rw [committed]
      exact kept
    · rw [aborted]
      exact start

theorem submit_rows (post : Table Bytes TagRow → Prop)
    (ran : wp (apply sh.engine op) (fun _ s => post s.tables.tags)
      (fun e s => post s.tables.tags ∨ Breaks e s) { sh.begin [] with clock })
    (start : post sh.tables.tags) : post (submit clock op sh).2.tables.tags :=
  submit_tables (fun t => post t.tags) ran start

/-- A job that is refused with the rows as they were. -/
theorem submit_stops (ran : wp (apply sh.engine op) (fun _ _ => False)
      (fun e s => s.tables.tags = sh.tables.tags ∨ Breaks e s) { sh.begin [] with clock }) :
    (∃ e, (submit clock op sh).1 = .error e) ∧
      (submit clock op sh).2.tables.tags = sh.tables.tags := by
  refine ⟨?_, submit_rows (fun rows => rows = sh.tables.tags) (ran.imp fun _ _ h => h.elim) rfl⟩
  cases applied : apply sh.engine op { sh.begin [] with clock } with
  | ok outcome s => exact (ran.of_ok applied).elim
  | error e s => exact ⟨e, (submit_error applied).1⟩

theorem submit_tagsKept (ok : sh.TagsOk) (left : sh.counters.nextId + op.tagCount < 2 ^ 32) :
    (submit clock op sh).2.TagsOk :=
  (commitBatch_tagsKept ok ⟨[⟨op, clock⟩], none, []⟩ (by simpa [tagCount] using left)).ok

theorem submit_grows (ok : sh.TagsOk) (left : sh.counters.nextId + op.tagCount < 2 ^ 32) :
    Grows sh.tables.tags (submit clock op sh).2.tables.tags :=
  (commitBatch_tagsKept ok ⟨[⟨op, clock⟩], none, []⟩ (by simpa [tagCount] using left)).grows

/-- A record job leaves the rows alone. -/
theorem submit_record_rows (record : op.isRecord = true) :
    (submit clock op sh).2.tables.tags = sh.tables.tags :=
  submit_rows (fun rows => rows = sh.tables.tags)
    ((recordJob_frame record).mono (fun _ _ frames => frames.tags) fun _ _ frames =>
      .inl frames.tags) rfl

/-- A record job publishes nothing. -/
theorem submit_record_engine (record : op.isRecord = true) :
    (submit clock op sh).2.engine = sh.engine := by
  have frame : wp (apply sh.engine op) (fun _ s => Txn.Frames { sh.begin [] with clock } s)
      (fun _ s => Txn.Frames { sh.begin [] with clock } s) { sh.begin [] with clock } :=
    recordJob_frame record
  have commits : ∀ s : Txn, Txn.Frames { sh.begin [] with clock } s →
      (sh.commit s).engine = sh.engine := by
    intro s frames
    rw [Shard.commit, frames.effects]
    rfl
  cases applied : apply sh.engine op { sh.begin [] with clock } with
  | ok outcome s =>
    rw [submit_ok applied]
    exact commits s (frame.of_ok applied)
  | error e s =>
    rcases (submit_error applied).2 with committed | aborted
    · rw [committed]
      exact commits s (frame.of_error applied)
    · rw [aborted]
      rfl

/-- A tag job leaves the records alone. -/
theorem submit_tagJob_main (other : op.isRecord = false) (plain : op ≠ .flush) :
    (submit clock op sh).2.tables.main = sh.tables.main :=
  submit_tables (fun t => t.main = sh.tables.main)
    ((tagJob_frame other plain).mono (fun _ _ frames => frames.1) fun _ _ frames =>
      .inl frames.1) rfl

/-- A record job leaves every generation alone. -/
theorem submit_record (record : op.isRecord = true) :
    rowGeneration (submit clock op sh).2 = rowGeneration sh := by
  funext name
  rw [rowGeneration, submit_record_rows record, rowGeneration]

/-- What a job makes of the tables holds when its caller takes an answer from it, and
what it makes of them otherwise when the caller gives up. -/
theorem ask_ensures {n : Nat} {α : Type} {allowed : (Nat → Nat) → Prop} {parties : Fin n → Shard}
    {shard : Fin n} {expected : WriteOutcome → Option α} (post : Option α → Tables → Prop)
    (start : post none (parties shard).tables)
    (ran : ∀ clock, allowed clock → wp (apply (parties shard).engine op)
      (fun outcome s => post (expected outcome) s.tables)
      (fun e s => post none s.tables ∨ Breaks e s) { (parties shard).begin [] with clock }) :
    (ask shard op expected).Ensures submit allowed
      (fun a parties' => post (some a) (parties' shard).tables)
      (fun _ parties' => post none (parties' shard).tables) parties := by
  intro clock ok
  have ends := ran clock ok
  cases applied : apply (parties shard).engine op { (parties shard).begin [] with clock } with
  | ok outcome s =>
    have holds := ends.of_ok applied
    rw [submit_ok applied]
    dsimp only [answered]
    cases taken : expected outcome with
    | none =>
      rw [taken] at holds
      change post none (Function.update parties shard ((parties shard).commit s) shard).tables
      rwa [Function.update_self]
    | some a =>
      rw [taken] at holds
      change post (some a)
        (Function.update parties shard ((parties shard).commit s) shard).tables
      rwa [Function.update_self]
  | error e s =>
    have sound := (apply_sound (parties shard).engine op _ ⟨rfl, rfl⟩).of_error applied
    have kept : post none s.tables := (ends.of_error applied).resolve_right fun breaks =>
      absurd (sound.2.symm.trans breaks.2) (by simp)
    rw [(submit_error applied).1]
    change post none
      (Function.update parties shard (submit clock op (parties shard)).2 shard).tables
    rw [Function.update_self]
    rcases (submit_error applied).2 with committed | aborted
    · rw [committed]
      exact kept
    · rw [aborted]
      exact start

end Submit

/-! ### Jobs on a tag -/

section Tags

variable {eng : Engine} {s : Txn} {name : Bytes} {row : TagRow}

theorem tagNameOk_iff : tagNameOk name = true ↔ ValidName name := by
  simp [tagNameOk, ValidName]

/-- A name that is accepted can always be merged into. -/
theorem mergeTagOp_accepted (accepts : eng.Accepts s.tables.tags name) (generation : Nat) :
    wp (mergeTagOp eng name generation)
      (fun outcome s' => outcome = .merged (s.mergedRow name generation).generation ∧
        s'.tables.tags = s.tables.tags.put name (s.mergedRow name generation)) Breaks s := by
  refine (mergeTagOp_spec name generation).mono (fun _ _ h => h.2.2) ?_
  rintro e s' (⟨-, -, why⟩ | ⟨breaks, -⟩)
  · exact absurd accepts why
  · exact breaks

/-- A name that is valid if it has a row can be invalidated. -/
theorem deleteByTagOp_valid (valid : s.tables.tags.get name ≠ none → ValidName name) :
    wp (deleteByTagOp eng name)
      (fun outcome s' => s.tables.tags.get name = none ∧ outcome = .invalidated none ∧
          s'.tables.tags = s.tables.tags ∨
        ∃ row generation, s.tables.tags.get name = some row ∧
          outcome = .invalidated (some generation) ∧ row.generation ≤ generation ∧
          (row.generation < generation ∨ u64Max ≤ generation) ∧
          s'.tables.tags = s.tables.tags.put name ⟨row.id, generation⟩) Breaks s := by
  refine (deleteByTagOp_spec name).mono ?_ ?_
  · rintro outcome s' ⟨-, absent | present⟩
    · exact .inl absent
    · exact .inr present
  · rintro e s' (⟨-, bad, present⟩ | ⟨breaks, -⟩)
    · rw [tagNameOk_iff.mpr (valid present)] at bad
      cases bad
    · exact breaks

/-- Rows were added under valid names; those that were there are as they were. -/
structure RowsAdded (rows rows' : Table Bytes TagRow) : Prop where
  kept : ∀ name row, rows.get name = some row → rows'.get name = some row
  valid : ∀ name, rows.get name = none → rows'.get name ≠ none → ValidName name

theorem RowsAdded.refl (rows : Table Bytes TagRow) : RowsAdded rows rows :=
  ⟨fun _ _ found => found, fun _ absent found => absurd absent found⟩

theorem RowsAdded.put {rows rows' : Table Bytes TagRow} (added : RowsAdded rows rows')
    (absent : rows'.get name = none) (valid : ValidName name) (row : TagRow) :
    RowsAdded rows (rows'.put name row) := by
  constructor
  · intro other row' found
    have kept := added.kept other row' found
    have ne : other ≠ name := by
      rintro rfl
      exact absurd (absent.symm.trans kept) (by simp)
    rw [Table.get_put_of_ne ne, kept]
  · intro other none some
    rw [Table.get_put] at some
    split at some
    · rename_i same
      exact same ▸ valid
    · exact added.valid other none some

theorem createTags_adds (names : List (Bytes × Nat)) :
    wp (apply eng (.createTags names)) (fun _ s' => RowsAdded s.tables.tags s'.tables.tags)
      (fun e s' => RowsAdded s.tables.tags s'.tables.tags ∨ Breaks e s') s := by
  refine wp.bind (wp.forEach (fun _ _ s' => RowsAdded s.tables.tags s'.tables.tags) (.refl _) ?_)
    fun _ _ added => wp.pure added
  rintro done name todo results s₁ - added
  refine (createTag_spec name).mono ?_ ?_
  · rintro _ s₂ ⟨accepts, -, tags⟩
    rw [tags]
    cases found : s₁.tables.tags.get name.1 with
    | none => exact added.put found (tagNameOk_iff.mp accepts.1) _
    | some row =>
      rw [Option.getD_some, put_of_present found]
      exact added
  · refine fun _ s₂ stops => stops.rows.imp_left fun tags => ?_
    rw [tags]
    exact added

end Tags

/-- The generations once a row has been put. -/
theorem rowGeneration_put {sh sh' : Shard} {name : Bytes} {row : TagRow}
    (rows : sh'.tables.tags = sh.tables.tags.put name row) :
    rowGeneration sh' = Function.update (rowGeneration sh) name (some row.generation) := by
  funext other
  rw [rowGeneration, rows, Table.get_put, Function.update_apply]
  split
  · rfl
  · rfl

section Jobs

variable {sh : Shard} (clock : Nat → Nat) {name : Bytes} {held : Nat}

theorem rowGeneration_eq_some (found : rowGeneration sh name = some held) :
    ∃ row, sh.tables.tags.get name = some row ∧ row.generation = held := by
  simpa [rowGeneration] using found

theorem rowGeneration_eq_none : rowGeneration sh name = none ↔ sh.tables.tags.get name = none := by
  simp [rowGeneration]

variable {clock} in
/-- A job that can stop only by breaking the transaction does not stop. -/
theorem submit_succeeds {op : WriteOp} {post : WriteOutcome → Txn → Prop}
    (ran : wp (apply sh.engine op) post Breaks { sh.begin [] with clock }) :
    ∃ outcome s, post outcome s ∧ submit clock op sh = (.ok outcome, sh.commit s) := by
  cases applied : apply sh.engine op { sh.begin [] with clock } with
  | ok outcome s => exact ⟨outcome, s, ran.of_ok applied, submit_ok applied⟩
  | error e s =>
    have sound := (apply_sound sh.engine op _ ⟨rfl, rfl⟩).of_error applied
    exact absurd (sound.2.symm.trans (ran.of_error applied).2) (by simp)

/-- A merge into a name that is accepted. -/
theorem submit_mergeTag_accepted (accepts : sh.engine.Accepts sh.tables.tags name)
    (generation : Nat) :
    ∃ row, row = (sh.begin []).mergedRow name generation ∧
      (submit clock (.mergeTag name generation) sh).1 = .ok (.merged row.generation) ∧
      rowGeneration (submit clock (.mergeTag name generation) sh).2 =
        Function.update (rowGeneration sh) name (some row.generation) := by
  have ran : wp (apply sh.engine (.mergeTag name generation)) _ Breaks
      { sh.begin [] with clock } := mergeTagOp_accepted accepts generation
  obtain ⟨outcome, s, ⟨rfl, rows⟩, done⟩ := submit_succeeds ran
  rw [done]
  exact ⟨_, rfl, rfl, rowGeneration_put (show (sh.commit s).tables.tags = _ from rows)⟩

theorem submit_mergeTag (valid : NamesValid sh) (found : rowGeneration sh name = some held)
    (generation : Nat) :
    (submit clock (.mergeTag name generation) sh).1 = .ok (.merged (max held generation)) ∧
      rowGeneration (submit clock (.mergeTag name generation) sh).2 =
        Function.update (rowGeneration sh) name (some (max held generation)) := by
  obtain ⟨row, present, rfl⟩ := rowGeneration_eq_some found
  have accepts : sh.engine.Accepts sh.tables.tags name :=
    ⟨tagNameOk_iff.mpr (valid name (by simp [found])), by simp [present]⟩
  obtain ⟨_, rfl, merged⟩ := submit_mergeTag_accepted clock accepts generation
  have same : (sh.begin []).mergedRow name generation =
      ⟨row.id, max row.generation generation⟩ := by
    rw [Txn.mergedRow, show (sh.begin []).tables.tags.get name = some row from present]
  rwa [same] at merged

theorem submit_deleteByTag (valid : NamesValid sh) (found : rowGeneration sh name = some held) :
    ∃ generation, (held ≤ generation ∧ (held < generation ∨ u64Max ≤ generation)) ∧
      (submit clock (.deleteByTag name) sh).1 = .ok (.invalidated (some generation)) ∧
      rowGeneration (submit clock (.deleteByTag name) sh).2 =
        Function.update (rowGeneration sh) name (some generation) := by
  obtain ⟨row, present, rfl⟩ := rowGeneration_eq_some found
  have ran : wp (apply sh.engine (.deleteByTag name)) _ Breaks { sh.begin [] with clock } :=
    deleteByTagOp_valid fun _ => valid name (by simp [found])
  obtain ⟨outcome, s, ⟨absent, -⟩ | ⟨row', generation, present', rfl, le, higher, rows⟩, done⟩ :=
    submit_succeeds ran
  · exact absurd (present.symm.trans absent) (by simp)
  · obtain rfl := Option.some.inj (present.symm.trans present')
    rw [done]
    exact ⟨generation, ⟨le, higher⟩, rfl,
      rowGeneration_put (show (sh.commit s).tables.tags = _ from rows)⟩

theorem rowGeneration_congr {sh' : Shard} (rows : sh'.tables.tags = sh.tables.tags) :
    rowGeneration sh' = rowGeneration sh := by
  funext other
  rw [rowGeneration, rows, rowGeneration]

theorem submit_deleteByTag_absent (absent : rowGeneration sh name = none) :
    (submit clock (.deleteByTag name) sh).1 = .ok (.invalidated none) ∧
      rowGeneration (submit clock (.deleteByTag name) sh).2 = rowGeneration sh := by
  have missing := rowGeneration_eq_none.mp absent
  have ran : wp (apply sh.engine (.deleteByTag name)) _ Breaks { sh.begin [] with clock } :=
    deleteByTagOp_valid fun present => absurd missing present
  obtain ⟨outcome, s, ⟨-, rfl, rows⟩ | ⟨row, generation, present, -⟩, done⟩ := submit_succeeds ran
  · rw [done]
    exact ⟨rfl, rowGeneration_congr (show (sh.commit s).tables.tags = _ from rows)⟩
  · exact absurd (missing.symm.trans present) (by simp)

/-- A merge into a name without a row creates it, if RAM has room for the name. -/
theorem submit_mergeTag_creates (absent : rowGeneration sh name = none) (valid : ValidName name)
    (room : ¬ sh.engine.TagsFull) (generation : Nat) :
    (submit clock (.mergeTag name generation) sh).1 = .ok (.merged generation) ∧
      rowGeneration (submit clock (.mergeTag name generation) sh).2 =
        Function.update (rowGeneration sh) name (some generation) := by
  have accepts : sh.engine.Accepts sh.tables.tags name := ⟨tagNameOk_iff.mpr valid, fun _ => room⟩
  obtain ⟨_, rfl, merged⟩ := submit_mergeTag_accepted clock accepts generation
  have same : (sh.begin []).mergedRow name generation =
      ⟨(sh.begin []).counters.nextId, generation⟩ := by
    rw [Txn.mergedRow, show (sh.begin []).tables.tags.get name = none from
      rowGeneration_eq_none.mp absent]
  rwa [same] at merged

theorem submit_mergeTag_absent (absent : rowGeneration sh name = none) (generation : Nat) :
    (submit clock (.mergeTag name generation) sh).1 = .ok (.merged generation) ∧
        ValidName name ∧ rowGeneration (submit clock (.mergeTag name generation) sh).2 =
          Function.update (rowGeneration sh) name (some generation) ∨
      (∃ e, (submit clock (.mergeTag name generation) sh).1 = .error e) ∧
        rowGeneration (submit clock (.mergeTag name generation) sh).2 = rowGeneration sh := by
  by_cases takes : ValidName name ∧ ¬ sh.engine.TagsFull
  · obtain ⟨reply, rows⟩ := submit_mergeTag_creates clock absent takes.1 takes.2 generation
    exact .inl ⟨reply, takes.1, rows⟩
  · have stops : wp (apply sh.engine (.mergeTag name generation)) (fun _ _ => False)
        (fun e s => s.tables.tags = sh.tables.tags ∨ Breaks e s) { sh.begin [] with clock } := by
      refine (mergeTagOp_spec name generation).mono (fun _ _ h => ?_) fun e s h => ?_
      · exact takes ⟨tagNameOk_iff.mp h.1.1, h.1.2 (rowGeneration_eq_none.mp absent)⟩
      · exact h.rows
    obtain ⟨reply, rows⟩ := submit_stops stops
    exact .inr ⟨reply, rowGeneration_congr rows⟩

theorem submit_createTags (names : List (Bytes × Nat)) :
    RowsAdded sh.tables.tags (submit clock (.createTags names) sh).2.tables.tags :=
  submit_rows (RowsAdded sh.tables.tags) (createTags_adds names) (.refl _)

end Jobs

end Vash.Node
