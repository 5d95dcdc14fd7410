import Vash.Store.IndexInvariants
import Vash.Store.ShardRuns

/-!
# The indexes over whole runs

What the invariants of `IndexInvariants` say of a shard that starts empty and
performs any sequence of operations on keys whose hashes are distinct:

* `records_stay_indexed` — a record has its expiry row. The clock of a sweep stands
  before `u64::MAX`, the bucket of what never expires, which is always in the future.
* `expiry_rows_match_records` — an expiry row has its record and the two tables
  have the same size, while no reclaim pass meets a dead record without a
  deadline; `reclaim_leaves_a_row` is the run that does.
* `tag_rows_match_records` — the tag index is exact, without further conditions.
-/

namespace Vash.Store

open Library

/-! ### Concrete runs -/

/-- An operation at a fixed reading of the clock, on an engine that reports no
failure. -/
def OpStep.at (now : Nat) (registry : Registry) (operation : Operation) : OpStep where
  operation
  epoch := 0
  registry
  pressure := .normal
  counters := ⟨0, 0, 0⟩
  clock := fun _ => now
  faults := []

/-- Two records are written; a sweep takes one, and the other is rewritten inside
its bucket. -/
def rewriteRun : List OpStep :=
  [.at 100 .empty (.write (.set [settledSet [1] 8100 none, settledSet [2] 900 none])),
    .at 2000 .empty (.sweep 4), .at 2100 .empty (.write (.set [settledSet [1] 8900 none]))]

/-- A record with the deadline `expiresAtMs` is written. -/
def expiringRun (expiresAtMs : Nat) : List OpStep :=
  [.at 100 .empty (.write (.set [settledSet [1] expiresAtMs none]))]

/-- A tag is created, a record with the deadline `expiresAtMs` is written under it,
and the tag is invalidated and reclaimed, each in the RAM the steps before leave. -/
def reclaimRun (expiresAtMs : Nat) : List OpStep :=
  let created := Registry.empty.insert [97] 0 0
  [.at 100 .empty (.write (.createTags [([97], 0)])),
    .at 100 created (.write (.set [settledSet [1] expiresAtMs (some ⟨0, 0⟩)])),
    .at 200 created (.write (.deleteByTag [97])),
    .at 300 (created.mergeGeneration 0 1) (.reclaim 4)]

/-- The keys of a run are told apart if a list of them is. -/
theorem injOn_keysInUse {c : Config} {steps : List OpStep}
    (distinct : ∀ a ∈ steps.flatMap fun e => e.operation.keys,
      ∀ b ∈ steps.flatMap fun e => e.operation.keys, c.hash a = c.hash b → a = b) :
    Set.InjOn c.hash (keysInUse steps) := by
  rintro a ⟨e, mem, named⟩ b ⟨e', mem', named'⟩ same
  exact distinct a (List.mem_flatMap.mpr ⟨e, mem, named⟩) b
    (List.mem_flatMap.mpr ⟨e', mem', named'⟩) same

/-- A run is in the scope of its keys and of the clock readings its sweeps make. -/
theorem along_inScope {c : Config} {t : Tables} {steps : List OpStep} {sweeps : Set Nat}
    (clock : ∀ e ∈ steps, ∀ budget, e.operation = .sweep budget → e.clock 0 ∈ sweeps) :
    Along (perform c) (InScope c ⟨keysInUse steps, sweeps, False⟩) t steps :=
  along_of_forall fun _ e mem => ⟨fun _ named => ⟨e, mem, named⟩, clock e mem, False.elim⟩

/-! ### Every record has its expiry row -/

/-- The invariant from any state that has it. -/
theorem run_indexed {c : Config} (scope : Scope) (inj : Set.InjOn c.hash scope.keys)
    (below : ∀ now ∈ scope.sweeps, now < u64Max) {t : Tables} (jobs : t.JobsOk)
    (start : t.KeysIn scope.keys ∧ t.Indexed c) {steps : List OpStep}
    (allowed : Along (perform c) (InScope c scope) t steps) :
    (run (perform c) t steps).JobsOk ∧ (run (perform c) t steps).KeysIn scope.keys ∧
      (run (perform c) t steps).Indexed c := by
  refine run_perform_invariant scope (fun t => t.KeysIn scope.keys ∧ t.Indexed c) ?_ jobs start
    allowed
  rintro t t' ⟨known, held⟩ change
  exact ⟨known.change change, held.change inj below known change⟩

/-- In every state a run reaches, each record stands in `exp` under the row of its
deadline. -/
theorem records_stay_indexed (c : Config) (steps : List OpStep)
    (inj : Set.InjOn c.hash (keysInUse steps))
    (clock : ∀ e ∈ steps, ∀ budget, e.operation = .sweep budget → e.clock 0 < u64Max) :
    ∀ key r, (run (perform c) .created steps).main.get key = some r →
      (run (perform c) .created steps).exp.get (encodeKey c r.header.expiresAtMs key) =
        some key := by
  let scope : Scope := ⟨keysInUse steps, { now | now < u64Max }, False⟩
  have below : ∀ now ∈ scope.sweeps, now < u64Max := fun _ h => h
  exact (run_indexed scope inj below .created ⟨.of_empty rfl, .of_empty rfl⟩
    (along_inScope clock)).2.2

/-- Two writes, a sweep that takes one of them, and a rewrite inside the bucket. -/
theorem records_stay_indexed_rewrite :
    (run (perform (firstByteConfig 1000)) .created rewriteRun).main.get [1] ≠ none ∧
      ∀ key r, (run (perform (firstByteConfig 1000)) .created rewriteRun).main.get key = some r →
        (run (perform (firstByteConfig 1000)) .created rewriteRun).exp.get
          (encodeKey (firstByteConfig 1000) r.header.expiresAtMs key) = some key :=
  ⟨by decide, records_stay_indexed _ rewriteRun (injOn_keysInUse (by decide))
    (by simp [rewriteRun, OpStep.at, u64Max])⟩

/-! ### Every expiry row has its record -/

/-- In every state a run reaches, each row of `exp` stands for a record and the
two tables have the same size, if every reclaim pass starts where `ReclaimSpares`
holds and no sweep reads the clock at `u64::MAX`. -/
theorem expiry_rows_match_records (c : Config) (steps : List OpStep)
    (inj : Set.InjOn c.hash (keysInUse steps))
    (clock : ∀ e ∈ steps, ∀ budget, e.operation = .sweep budget → e.clock 0 < u64Max)
    (spares : Along (perform c) (fun t e => ∀ budget, e.operation = .reclaim budget →
      ReclaimSpares (e.engine c) budget (e.clock 0) t) .created steps) :
    (∀ entry key, (run (perform c) .created steps).exp.get entry = some key →
      ∃ r, (run (perform c) .created steps).main.get key = some r ∧
        bucketFor r.header.expiresAtMs c.bucketGranularityMs = (ofLex entry).1) ∧
    (run (perform c) .created steps).exp.size = (run (perform c) .created steps).main.size := by
  let scope : Scope := ⟨keysInUse steps, { now | now < u64Max }, True⟩
  have below : ∀ now ∈ scope.sweeps, now < u64Max := fun _ h => h
  have allowed : Along (perform c) (InScope c scope) .created steps :=
    spares.mono fun t e mem spared =>
      ⟨fun key named => ⟨e, mem, named⟩, clock e mem, fun _ => spared⟩
  obtain ⟨-, -, indexed⟩ :=
    run_indexed scope inj below .created ⟨.of_empty rfl, .of_empty rfl⟩ allowed
  obtain ⟨-, noOrphans⟩ := run_perform_invariant scope (Tables.NoOrphans c)
    (fun t t' held change => held.change trivial change) .created (.of_empty rfl) allowed
  refine ⟨fun entry key row => ?_, Tables.size_eq indexed noOrphans⟩
  obtain ⟨r, stored, rfl⟩ := noOrphans entry key row
  exact ⟨r, stored, rfl⟩

/-- While every record has a deadline, so has every record a pass meets. -/
theorem ReclaimSpares.of_volatile {eng : Engine} {budget now : Nat} {t : Tables}
    (volatile : ∀ row ∈ t.main.rows, row.2.header.expiresAtMs ≠ never) :
    ReclaimSpares eng budget now t :=
  fun _ _ _ row _ r stored persistent =>
    absurd persistent (volatile (row.2, r) (Table.get_eq_some_iff.mp stored))

/-- Reclaiming a record that has a deadline. -/
theorem expiry_rows_match_records_reclaim :
    (run (perform (firstByteConfig 1000)) .created (reclaimRun 9000)).main.get [1] = none ∧
      (run (perform (firstByteConfig 1000)) .created (reclaimRun 9000)).exp.size =
        (run (perform (firstByteConfig 1000)) .created (reclaimRun 9000)).main.size :=
  ⟨by decide, (expiry_rows_match_records _ (reclaimRun 9000) (injOn_keysInUse (by decide))
    (by simp [reclaimRun, OpStep.at, u64Max])
    ⟨nofun, nofun, nofun, fun _ _ => .of_volatile (by decide), trivial⟩).2⟩

/-- Reclaiming a record without a deadline leaves its row behind. -/
theorem reclaim_leaves_a_row :
    Set.InjOn (firstByteConfig 1000).hash (keysInUse (reclaimRun never)) ∧
      (run (perform (firstByteConfig 1000)) .created (reclaimRun never)).main.get [1] = none ∧
      (run (perform (firstByteConfig 1000)) .created (reclaimRun never)).exp.get
        (encodeKey (firstByteConfig 1000) never [1]) = some [1] ∧
      (run (perform (firstByteConfig 1000)) .created (reclaimRun never)).exp.size ≠
        (run (perform (firstByteConfig 1000)) .created (reclaimRun never)).main.size :=
  ⟨injOn_keysInUse (by decide), by decide, by decide, by decide⟩

/-! ### The tag index -/

/-- In every state a run reaches, `tagidx` has the row of a tag and a key exactly
when `main` holds a record under the key that carries the tag. -/
theorem tag_rows_match_records (c : Config) (steps : List OpStep)
    (inj : Set.InjOn c.hash (keysInUse steps)) (id : Nat) (key : Bytes) :
    (run (perform c) .created steps).tagidx.get (indexKey c id key) = some key ↔
      ∃ r, (run (perform c) .created steps).main.get key = some r ∧ id ∈ r.tagIds := by
  let scope : Scope := ⟨keysInUse steps, Set.univ, False⟩
  have allowed : Along (perform c) (InScope c scope) .created steps :=
    along_inScope fun _ _ _ _ => trivial
  refine (run_perform_invariant scope
    (fun t => t.KeysIn scope.keys ∧ t.TagKeysIn scope.keys ∧ t.TagIndexed c) ?_ .created
    ⟨.of_empty rfl, .of_empty rfl, .of_empty rfl rfl⟩ allowed).2.2.2 id key
  rintro t t' ⟨known, tagKnown, held⟩ change
  exact ⟨known.change change, tagKnown.change change, held.change inj known tagKnown change⟩

/-- A tagged record has its row; the reclaimed one does not. -/
theorem tag_rows_match_records_reclaim :
    ((run (perform (firstByteConfig 1000)) .created ((reclaimRun never).take 3)).tagidx.get
        (indexKey (firstByteConfig 1000) 0 [1]) = some [1] ↔
      ∃ r, (run (perform (firstByteConfig 1000)) .created ((reclaimRun never).take 3)).main.get
        [1] = some r ∧ 0 ∈ r.tagIds) ∧
    ((run (perform (firstByteConfig 1000)) .created (reclaimRun never)).tagidx.get
        (indexKey (firstByteConfig 1000) 0 [1]) = some [1] ↔
      ∃ r, (run (perform (firstByteConfig 1000)) .created (reclaimRun never)).main.get [1] =
        some r ∧ 0 ∈ r.tagIds) :=
  ⟨tag_rows_match_records _ _ (injOn_keysInUse (by decide)) 0 [1],
    tag_rows_match_records _ _ (injOn_keysInUse (by decide)) 0 [1]⟩

/-! ### Reopening with another granularity -/

/-- The database opened with another `bucket_granularity_ms`; nothing compares it
with the one before. -/
def Config.withGranularity (c : Config) (granularityMs : Nat) : Config :=
  { c with bucketGranularityMs := granularityMs }

/-- A run under one granularity, then one under another. -/
def reopenedRun (c : Config) (granularityMs : Nat) (before after : List OpStep) : Tables :=
  run (perform (c.withGranularity granularityMs)) (run (perform c) .created before) after

/-- If every record there is at the reopening falls into the same bucket under
both granularities, every record keeps its expiry row in every run that follows. -/
theorem records_stay_indexed_reopened (c : Config) (granularityMs : Nat)
    (before after : List OpStep) (inj : Set.InjOn c.hash (keysInUse (before ++ after)))
    (clock : ∀ e ∈ before ++ after, ∀ budget, e.operation = .sweep budget → e.clock 0 < u64Max)
    (aligned : ∀ key r, (run (perform c) .created before).main.get key = some r →
      bucketFor r.header.expiresAtMs c.bucketGranularityMs =
        bucketFor r.header.expiresAtMs granularityMs) :
    ∀ key r, (reopenedRun c granularityMs before after).main.get key = some r →
      ∃ entry, (reopenedRun c granularityMs before after).exp.get entry = some key ∧
        (ofLex entry).1 = bucketFor r.header.expiresAtMs granularityMs := by
  let scope : Scope := ⟨keysInUse (before ++ after), { now | now < u64Max }, False⟩
  have below : ∀ now ∈ scope.sweeps, now < u64Max := fun _ h => h
  have inScope : ∀ c' t, ∀ e ∈ before ++ after, InScope c' scope t e := fun c' t e mem =>
    ⟨fun key named => ⟨e, mem, named⟩, clock e mem, fun absurd => absurd.elim⟩
  obtain ⟨jobs, known, indexed⟩ := run_indexed scope inj below .created
    ⟨.of_empty rfl, .of_empty rfl⟩
    (along_of_forall fun t e mem => inScope c t e (List.mem_append_left _ mem))
  -- The rows written before are the rows the new granularity would have written.
  have reopened : (run (perform c) .created before).Indexed (c.withGranularity granularityMs) := by
    intro key r stored
    rw [← indexed key r stored]
    simp only [encodeKey, Config.withGranularity, aligned key r stored]
  obtain ⟨-, -, held⟩ := run_indexed (c := c.withGranularity granularityMs) scope inj below jobs
    ⟨known, reopened⟩
    (along_of_forall fun t e mem => inScope _ t e (List.mem_append_right _ mem))
  exact fun key r stored => ⟨_, held key r stored, rfl⟩

/-- A deadline that both granularities divide. -/
theorem records_stay_indexed_reopened_aligned :
    (reopenedRun (firstByteConfig 1000) 500 (expiringRun 3000)
        [.at 2000 .empty (.sweep 4)]).main.get [1] ≠ none ∧
      ∀ key r, (reopenedRun (firstByteConfig 1000) 500 (expiringRun 3000)
          [.at 2000 .empty (.sweep 4)]).main.get key = some r →
        ∃ entry, (reopenedRun (firstByteConfig 1000) 500 (expiringRun 3000)
            [.at 2000 .empty (.sweep 4)]).exp.get entry = some key ∧
          (ofLex entry).1 = bucketFor r.header.expiresAtMs 500 := by
  have aligned : ∀ row ∈ (run (perform (firstByteConfig 1000))
      .created (expiringRun 3000)).main.rows,
      bucketFor row.2.header.expiresAtMs 1000 = bucketFor row.2.header.expiresAtMs 500 := by decide
  exact ⟨by decide, records_stay_indexed_reopened _ 500 (expiringRun 3000) _
    (injOn_keysInUse (by decide)) (by simp [expiringRun, OpStep.at, u64Max])
    fun key r stored => aligned (key, r) (Table.get_eq_some_iff.mp stored)⟩

/-- Reopened with a granularity that rounds a deadline elsewhere, the first sweep
past it drops the row and leaves the record, with no row for any pass to find. -/
theorem reopening_loses_a_record :
    Set.InjOn (firstByteConfig 1000).hash
        (keysInUse (expiringRun 1500 ++ [.at 9000 .empty (.sweep 4)])) ∧
      (∃ r, (reopenedRun (firstByteConfig 1000) 700 (expiringRun 1500)
        [.at 9000 .empty (.sweep 4)]).main.get [1] = some r ∧ r.isExpired 9000 = true) ∧
      (reopenedRun (firstByteConfig 1000) 700 (expiringRun 1500)
        [.at 9000 .empty (.sweep 4)]).exp = ∅ :=
  ⟨injOn_keysInUse (by decide), ⟨⟨⟨0, 0, 1500, 1⟩, [], [], by decide⟩, by decide, by decide⟩,
    by decide⟩

end Vash.Store
