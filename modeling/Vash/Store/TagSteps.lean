import Vash.Library.Budget
import Vash.Store.RecordJobs

/-!
# The steps of a tag job

A job on a tag finds its row or makes one, raises its generation and queues the reclamation of what
that invalidates, and publishes what it did.

* `createTag_spec`, `mergeTagOp_spec`, `deleteByTagOp_spec` — what each of them leaves and answers,
  and why it is refused.
* `TagBudget.apply` — what goes through one step of a tag holds of the tag jobs.
-/

namespace Vash.Store

open Library

/-- The name passes `validate_tag_name`. -/
def tagNameOk (name : Bytes) : Bool := name.length ≠ 0 ∧ name.length ≤ maxTagLen

/-- The name is valid, and has a row if the registry is full. -/
def Engine.Accepts (eng : Engine) (tags : Table Bytes TagRow) (name : Bytes) : Prop :=
  tagNameOk name = true ∧ (tags.get name = none → ¬ eng.TagsFull)

/-- A row put again is the table as it was. -/
theorem put_of_present {tags : Table Bytes TagRow} {name : Bytes} {row : TagRow}
    (present : tags.get name = some row) : tags.put name row = tags := by
  apply Table.ext_get
  intro name'
  rw [Table.get_put]
  split
  · rename_i same
    rw [same, present]
  · rfl

/-- What a tag job works on. -/
structure TagView where
  tables : Tables
  nextId : Nat
  effects : List PostCommit

def Txn.tagView (s : Txn) : TagView := ⟨s.tables, s.counters.nextId, s.effects⟩

/-- One step of a job on `name`, publishing `k` registrations. -/
inductive TagStep (eng : Engine) (name : Bytes) (v : TagView) : Nat → TagView → Prop where
  | same : TagStep eng name v 0 v
  /-- A row is made under the next id. -/
  | created (absent : v.tables.tags.get name = none) (room : ¬ eng.TagsFull) (start : Nat) :
      TagStep eng name v 1 ⟨{ v.tables with tags := v.tables.tags.put name ⟨v.nextId, start⟩ },
        wrappingAdd32 v.nextId 1, v.effects ++ [.tagCreated name v.nextId start]⟩
  /-- A row that was there is published again. -/
  | announced {row : TagRow} (present : v.tables.tags.get name = some row) :
      TagStep eng name v 1
        { v with effects := v.effects ++ [.tagCreated name row.id row.generation] }
  /-- A generation is raised. -/
  | raised {row : TagRow} {generation : Nat} (present : v.tables.tags.get name = some row)
      (lt : row.generation < generation) :
      TagStep eng name v 0 ⟨{ v.tables with
        tags := v.tables.tags.put name ⟨row.id, generation⟩
        jobs := v.tables.jobs.put row.id (.new generation) }, v.nextId,
        v.effects ++ [.tagGeneration row.id generation]⟩
  /-- A saturated generation is published again. -/
  | confirmed {row : TagRow} (present : v.tables.tags.get name = some row) :
      TagStep eng name v 0
        { v with effects := v.effects ++ [.tagGeneration row.id row.generation] }

/-- How a job on `name` stops: it is refused and has changed nothing, or the engine failed it, with
an id burnt if the tag had no row. -/
inductive TagStops (eng : Engine) (name : Bytes) (s : Txn) (e : StoreError) (s' : Txn) : Prop where
  | refused (mild : e.poisonsTransaction = false) (same : s'.tagView = s.tagView)
      (why : ¬ eng.Accepts s.tables.tags name)
  | broke (breaks : Breaks e s') (next : s'.counters.nextId = s.counters.nextId ∨
      s.tables.tags.get name = none ∧ s'.counters.nextId = wrappingAdd32 s.counters.nextId 1)

section Jobs

variable {eng : Engine} {s s' : Txn} {name : Bytes}

theorem Txn.Becomes.tagView {tables : Tables} (becomes : s.Becomes tables s') :
    s'.tagView = ⟨tables, s.counters.nextId, s.effects⟩ := by
  rw [Txn.tagView, becomes.tables, becomes.counters, becomes.effects]

theorem TagStops.of_fails {s₁ : Txn} {e : StoreError}
    (next : s₁.counters.nextId = s.counters.nextId)
    (fails : s₁.Fails e s') : TagStops eng name s e s' :=
  .broke ⟨fails.poisons, fails.broken⟩ (.inl (by rw [fails.counters, next]))

theorem TagStops.rows {e : StoreError} (stops : TagStops eng name s e s') :
    s'.tables.tags = s.tables.tags ∨ Breaks e s' := by
  rcases stops with ⟨-, same, -⟩ | ⟨breaks, -⟩
  · exact .inl (congrArg (·.tables.tags) same)
  · exact .inr breaks

theorem publish_tagView (effect : PostCommit) {fail : StoreError → Txn → Prop} :
    wp (publish effect) (fun _ s' => s'.tagView =
      { s.tagView with effects := s.tagView.effects ++ [effect] }) fail s := wp.modify rfl

theorem validateTagName_spec (eng : Engine) (name : Bytes) :
    wp (validateTagName name) (fun _ s' => tagNameOk name = true ∧ s = s')
      (TagStops eng name s) s := by
  unfold validateTagName
  split
  · rename_i bad
    refine wp.throw (.refused rfl rfl fun accepts => ?_)
    have := accepts.1
    simp only [tagNameOk, decide_eq_true_eq] at this
    omega
  · rename_i good
    refine wp.pure ⟨?_, rfl⟩
    simp only [tagNameOk, decide_eq_true_eq]
    omega

theorem applyCreateTag_spec (name : Bytes) (start : Nat) :
    wp (applyCreateTag eng name start)
      (fun row s' => eng.Accepts s.tables.tags name ∧
        (s.tables.tags.get name = some row ∧ s.Agrees s' ∨
          s.tables.tags.get name = none ∧ row = ⟨s.counters.nextId, start⟩ ∧
            s'.tagView = ⟨{ s.tables with tags := s.tables.tags.put name row },
              wrappingAdd32 s.counters.nextId 1, s.effects⟩))
      (TagStops eng name s) s := by
  unfold applyCreateTag
  refine wp.bind (validateTagName_spec eng name) ?_
  rintro _ _ ⟨good, rfl⟩
  refine wp.bind (query_spec.stops fun _ _ => .of_fails rfl) ?_
  rintro _ s₁ ⟨rfl, agrees⟩
  cases found : s.tables.tags.get name with
  | some row => exact wp.pure ⟨⟨good, by simp [found]⟩, .inl ⟨rfl, agrees⟩⟩
  | none =>
    have next : s₁.counters.nextId = s.counters.nextId := by rw [agrees.counters]
    unfold allocateId
    by_cases full : eng.TagsFull
    · rw [if_pos (show eng.registry.byName.size ≥ eng.config.maxTags from full)]
      exact .refused rfl agrees.tagView fun accepts => accepts.2 found full
    · rw [if_neg (show ¬ eng.registry.byName.size ≥ eng.config.maxTags from full)]
      refine wp.bind (m := fun id s₂ => id = s₁.counters.nextId ∧ s₂ = { s₁ with
        counters := { s₁.counters with nextId := wrappingAdd32 s₁.counters.nextId 1 } }) ?_ ?_
      · exact wp.get_bind (wp.set_bind (wp.pure ⟨rfl, rfl⟩))
      rintro _ _ ⟨rfl, rfl⟩
      refine wp.bind (update_spec.stops fun e s' fails => ?_) fun _ s₂ put => ?_
      · refine .broke ⟨fails.poisons, fails.broken⟩ (.inr ⟨found, ?_⟩)
        rw [fails.counters, next]
      · refine wp.pure ⟨⟨good, fun _ => full⟩, .inr ⟨rfl, by rw [next], ?_⟩⟩
        rw [put.tagView, ← next, ← agrees.tables, ← agrees.effects]

/-- One name of a `CreateTags` job. -/
theorem createTag_spec (name : Bytes × Nat) :
    wp (createTag eng name)
      (fun _ s' => eng.Accepts s.tables.tags name.1 ∧
        TagStep eng name.1 s.tagView 1 s'.tagView ∧
        s'.tables.tags = s.tables.tags.put name.1
          ((s.tables.tags.get name.1).getD ⟨s.counters.nextId, name.2⟩))
      (TagStops eng name.1 s) s := by
  refine wp.bind (applyCreateTag_spec name.1 name.2) ?_
  rintro row s₁ ⟨accepts, ⟨present, agrees⟩ | ⟨absent, rfl, created⟩⟩
  · refine (publish_tagView _).imp fun _ s₂ published => ⟨accepts, ?_, ?_⟩
    · rw [published, agrees.tagView]
      exact .announced present
    · rw [show s₂.tables = s₂.tagView.tables from rfl, published, agrees.tagView, present]
      exact (put_of_present present).symm
  · refine (publish_tagView _).imp fun _ s₂ published => ⟨accepts, ?_, ?_⟩
    · rw [published, created]
      exact .created absent (accepts.2 absent) name.2
    · rw [show s₂.tables = s₂.tagView.tables from rfl, published, created, absent]
      rfl

/-- What a merge does, before it publishes it. -/
inductive Merged (eng : Engine) (v : TagView) (name : Bytes) (generation : Nat) :
    TagMerge → TagView → Prop where
  | created (absent : v.tables.tags.get name = none) (room : ¬ eng.TagsFull) :
      Merged eng v name generation (.created v.nextId generation)
        ⟨{ v.tables with tags := v.tables.tags.put name ⟨v.nextId, generation⟩ },
          wrappingAdd32 v.nextId 1, v.effects⟩
  | raised {row : TagRow} (present : v.tables.tags.get name = some row)
      (lt : row.generation < generation) :
      Merged eng v name generation (.raised row.id generation)
        { v with tables := { v.tables with
          tags := v.tables.tags.put name ⟨row.id, generation⟩
          jobs := v.tables.jobs.put row.id (.new generation) } }
  | unchanged {row : TagRow} (present : v.tables.tags.get name = some row)
      (le : generation ≤ row.generation) :
      Merged eng v name generation (.unchanged row.id row.generation) v

theorem applyMergeTag_spec (name : Bytes) (generation : Nat) :
    wp (applyMergeTag eng name generation)
      (fun merged s' => eng.Accepts s.tables.tags name ∧
        Merged eng s.tagView name generation merged s'.tagView) (TagStops eng name s) s := by
  unfold applyMergeTag
  refine wp.bind (validateTagName_spec eng name) ?_
  rintro _ _ ⟨good, rfl⟩
  refine wp.bind (query_spec.stops fun _ _ => .of_fails rfl) ?_
  rintro _ s₁ ⟨rfl, agrees⟩
  have next : s₁.counters.nextId = s.counters.nextId := by rw [agrees.counters]
  cases found : s.tables.tags.get name with
  | none =>
    refine wp.bind ((applyCreateTag_spec name generation).stops ?_) ?_
    · rintro e s' (⟨mild, same, why⟩ | ⟨breaks, burnt⟩)
      · rw [agrees.tables] at why
        exact .refused mild (same.trans agrees.tagView) why
      · rw [agrees.tables, next] at burnt
        exact .broke breaks burnt
    · rintro row s₂ ⟨accepts, ⟨present, -⟩ | ⟨-, rfl, created⟩⟩
      · simp [agrees.tables, found] at present
      · rw [agrees.tables] at accepts
        refine wp.pure ⟨accepts, ?_⟩
        rw [created, next, agrees.tables, agrees.effects]
        exact .created found (accepts.2 found)
  | some row =>
    have accepts : eng.Accepts s.tables.tags name := ⟨good, by simp [found]⟩
    dsimp only
    split
    · rename_i le
      refine wp.pure ⟨accepts, ?_⟩
      rw [agrees.tagView]
      exact .unchanged found le
    · rename_i lt
      refine wp.bind (update_spec.stops fun _ _ => .of_fails next) ?_
      intro _ s₂ put
      refine wp.bind (update_spec.stops
        fun _ _ => .of_fails (by rw [put.counters, next])) fun _ s₃ queued => ?_
      refine wp.pure ⟨accepts, ?_⟩
      rw [queued.tagView, put.counters, put.effects, put.tables, agrees.tables, next,
        agrees.effects]
      exact .raised found (by omega)

/-- What a merge makes of the row under a name. -/
def Txn.mergedRow (s : Txn) (name : Bytes) (generation : Nat) : TagRow :=
  match s.tables.tags.get name with
  | none => ⟨s.counters.nextId, generation⟩
  | some row => ⟨row.id, max row.generation generation⟩

theorem mergeTagOp_spec (name : Bytes) (generation : Nat) :
    wp (mergeTagOp eng name generation)
      (fun outcome s' => eng.Accepts s.tables.tags name ∧
        (∃ k ≤ 1, TagStep eng name s.tagView k s'.tagView) ∧
        outcome = .merged (s.mergedRow name generation).generation ∧
        s'.tables.tags = s.tables.tags.put name (s.mergedRow name generation))
      (TagStops eng name s) s := by
  refine wp.bind (applyMergeTag_spec name generation) ?_
  rintro merged s₁ ⟨accepts, result⟩
  generalize after : s₁.tagView = v at result
  unfold Txn.mergedRow
  cases result with
  | created absent room =>
    refine wp.bind (publish_tagView _) fun _ s₂ published => wp.pure ?_
    rw [after] at published
    rw [show s₂.tables = s₂.tagView.tables from rfl, published,
      show s.tables.tags.get name = none from absent]
    exact ⟨accepts, ⟨1, le_rfl, .created absent room generation⟩, rfl, rfl⟩
  | @raised row present lt =>
    refine wp.bind (publish_tagView _) fun _ s₂ published => wp.pure ?_
    rw [after] at published
    rw [show s₂.tables = s₂.tagView.tables from rfl, published,
      show s.tables.tags.get name = some row from present]
    dsimp only
    rw [max_eq_right lt.le]
    exact ⟨accepts, ⟨0, Nat.zero_le 1, .raised present lt⟩, rfl, rfl⟩
  | @unchanged row present le =>
    refine wp.pure ?_
    rw [show s₁.tables = s₁.tagView.tables from rfl, after,
      show s.tables.tags.get name = some row from present]
    dsimp only
    rw [max_eq_left le]
    exact ⟨accepts, ⟨0, Nat.zero_le 1, .same⟩, rfl, (put_of_present present).symm⟩

/-- How an invalidation stops. No id is burnt. -/
inductive InvalidationStops (name : Bytes) (s : Txn) (e : StoreError) (s' : Txn) : Prop where
  | refused (same : s'.tagView = s.tagView) (bad : tagNameOk name = false)
      (present : s.tables.tags.get name ≠ none)
  | broke (breaks : Breaks e s') (next : s'.counters.nextId = s.counters.nextId)

theorem applyDeleteByTag_spec (name : Bytes) :
    wp (applyDeleteByTag eng name)
      (fun result s' => match result with
        | none => s.tables.tags.get name = none ∧ s'.tagView = s.tagView
        | some row' => ∃ row, s.tables.tags.get name = some row ∧ row'.id = row.id ∧
          (row' = row ∧ u64Max ≤ row.generation ∧ s'.tagView = s.tagView ∨
            row.generation < row'.generation ∧ s'.tagView = { s.tagView with
              tables := { s.tables with
                tags := s.tables.tags.put name ⟨row.id, row'.generation⟩
                jobs := s.tables.jobs.put row.id (.new row'.generation) } }))
      (InvalidationStops name s) s := by
  refine wp.bind (query_spec.stops fun e s' fails => ?_) ?_
  · exact .broke ⟨fails.poisons, fails.broken⟩ (by rw [fails.counters])
  rintro _ s₁ ⟨rfl, agrees⟩
  have next : s₁.counters.nextId = s.counters.nextId := by rw [agrees.counters]
  cases found : s.tables.tags.get name with
  | none => exact wp.pure ⟨rfl, agrees.tagView⟩
  | some row =>
    dsimp only
    split
    · rename_i saturated
      refine wp.pure ⟨row, rfl, rfl, .inl ⟨rfl, ?_, agrees.tagView⟩⟩
      unfold saturatingAdd64 at saturated
      omega
    · refine wp.bind ((applyMergeTag_spec name _).stops ?_) ?_
      · rintro e s' (⟨-, same, why⟩ | ⟨breaks, kept | ⟨absent, -⟩⟩)
        · refine .refused (same.trans agrees.tagView) ?_ (by simp [found])
          simpa [Engine.Accepts, agrees.tables, found] using why
        · exact .broke breaks (kept.trans next)
        · simp [agrees.tables, found] at absent
      · rintro merged s₂ ⟨-, result⟩
        rw [agrees.tagView] at result
        generalize after : s₂.tagView = v at result
        cases result with
        | created absent _ => exact absurd (found.symm.trans absent) (by simp)
        | raised present lt =>
          obtain rfl := Option.some.inj (found.symm.trans present)
          exact wp.pure ⟨row, rfl, rfl, .inr ⟨lt, after⟩⟩
        | unchanged present le =>
          obtain rfl := Option.some.inj (found.symm.trans present)
          refine wp.pure ⟨row, rfl, rfl, .inl ⟨rfl, ?_, after⟩⟩
          unfold saturatingAdd64 at le
          omega

/-- An invalidation answers with the generation it leaves, which is a higher one unless it had
saturated. -/
theorem deleteByTagOp_spec (name : Bytes) :
    wp (deleteByTagOp eng name)
      (fun outcome s' => TagStep eng name s.tagView 0 s'.tagView ∧
        (s.tables.tags.get name = none ∧ outcome = .invalidated none ∧
            s'.tables.tags = s.tables.tags ∨
          ∃ row generation, s.tables.tags.get name = some row ∧
            outcome = .invalidated (some generation) ∧ row.generation ≤ generation ∧
            (row.generation < generation ∨ u64Max ≤ generation) ∧
            s'.tables.tags = s.tables.tags.put name ⟨row.id, generation⟩))
      (InvalidationStops name s) s := by
  refine wp.bind (applyDeleteByTag_spec name) fun result s₁ spec => ?_
  cases result with
  | none =>
    obtain ⟨absent, same⟩ := spec
    exact wp.pure ⟨same ▸ .same, .inl ⟨absent, rfl, congrArg (·.tables.tags) same⟩⟩
  | some row' =>
    refine wp.bind (publish_tagView _) fun _ s₂ published => wp.pure ?_
    rw [show s₂.tables = s₂.tagView.tables from rfl, published]
    obtain ⟨row, present, id, ⟨rfl, saturated, same⟩ | ⟨lt, same⟩⟩ := spec
    · rw [same]
      exact ⟨.confirmed present, .inr ⟨row', _, present, rfl, le_rfl, .inr saturated,
        (put_of_present present).symm⟩⟩
    · rw [same, id]
      exact ⟨.raised present lt, .inr ⟨row, _, present, rfl, lt.le, .inl lt, rfl⟩⟩

end Jobs

/-! ### Tag jobs on a budget -/

/-- How many tags a job can create. -/
def WriteOp.tagCount : WriteOp → Nat
  | .createTags names => names.length
  | .mergeTag _ _ => 1
  | _ => 0

/-- A budget that the steps of tag jobs spend the registrations of. -/
structure TagBudget (eng : Engine) (b : Budget StoreError Txn) : Prop where
  step : ∀ {name k spent s s'}, b.ok spent s → TagStep eng name s.tagView k s'.tagView →
    b.ok (spent + k) s'
  broke : ∀ {e spent s s'}, b.ok spent s → Breaks e s' →
    s'.counters.nextId = s.counters.nextId → b.broken spent e s'
  burnt : ∀ {e spent s s'}, b.ok spent s → Breaks e s' →
    s'.counters.nextId = wrappingAdd32 s.counters.nextId 1 → b.broken (spent + 1) e s'

namespace TagBudget

variable {eng : Engine} {b : Budget StoreError Txn} (budget : TagBudget eng b) {name : Bytes}
  {spent : Nat} {s s' : Txn} {e : StoreError}

include budget

theorem refused (held : b.ok spent s) (same : s'.tagView = s.tagView) : b.ok spent s' :=
  budget.step (k := 0) held (show TagStep eng [] _ _ _ from same ▸ .same)

theorem stops (held : b.ok spent s) (stops : TagStops eng name s e s') :
    b.broken (spent + 1) e s' ∨ b.ok (spent + 1) s' := by
  have later := Nat.le_add_right spent 1
  rcases stops with ⟨-, same, -⟩ | ⟨breaks, kept | ⟨-, burnt⟩⟩
  · exact .inr (b.ok_mono later (budget.refused held same))
  · exact .inl (b.broken_mono later (budget.broke held breaks kept))
  · exact .inl (budget.burnt held breaks burnt)

theorem apply {op : WriteOp} (other : op.isRecord = false) (plain : op ≠ .flush) :
    b.Spends op.tagCount (apply eng op) := by
  cases op with
  | createTags names =>
    refine Budget.Spends.bind (Budget.Spends.forEach fun name _ spent s held => ?_)
      fun _ => .pure _ 0
    exact (createTag_spec name).mono (fun _ _ h => budget.step held h.2.1)
      fun _ _ => budget.stops held
  | deleteByTag name =>
    intro spent s held
    refine (deleteByTagOp_spec name).mono (fun _ _ h => budget.step held h.1) ?_
    rintro e s' (⟨same, -, -⟩ | ⟨breaks, next⟩)
    · exact .inr (budget.refused held same)
    · exact .inl (budget.broke held breaks next)
  | mergeTag name generation =>
    intro spent s held
    refine (mergeTagOp_spec name generation).mono ?_ fun _ _ => budget.stops held
    rintro outcome s' ⟨-, ⟨k, within, step⟩, -⟩
    exact b.ok_mono (Nat.add_le_add_left within spent) (budget.step held step)
  | flush => exact absurd rfl plain
  | sync => exact .pure _ 0
  | _ => simp [WriteOp.isRecord] at other

end TagBudget

end Vash.Store
