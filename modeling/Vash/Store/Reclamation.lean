import Vash.Store.Reclaiming
import Vash.Store.Invisible
import Vash.Store.IndexRuns

/-!
# Reclamation, pass by pass

A job walks the rows of its tag. The walk may be cut into passes of any budget, each
in a transaction of its own, and the process may be restarted between two of them:
the cursor is durable, what a pass deletes lies behind it, and what it retains is not
visited again.

* `reclamation_is_exact` — the walk ends, and however it was cut it has deleted what
  one pass over all of it deletes, if every pass judges the records of the tag alike.
* `reclamation_depends_on_the_cuts` — a deadline, or a restart that brings RAM up to
  date, between two passes; and a record behind the cursor of a job under way.
-/

namespace Vash.Store

open Library

/-! ### Deleting records with their rows -/

/-- Every record has its expiry row; the tag rows are those of the records. -/
structure Tables.IndexesMatch (c : Config) (t : Tables) : Prop where
  expiry : t.Indexed c
  tags : ∀ entry key, t.tagidx.get entry = some key ↔
    ∃ r, t.main.get key = some r ∧ ∃ id ∈ r.tagIds, entry = indexKey c id key

/-- The tables every run reaches have indexes that match. -/
theorem reached_indexes_match {c : Config} {steps : List OpStep}
    (inj : Set.InjOn c.hash (keysInUse steps))
    (clock : ∀ e ∈ steps, ∀ budget, e.operation = .sweep budget → e.clock 0 < u64Max) :
    (run (perform c) .created steps).JobsOk ∧ (run (perform c) .created steps).IndexesMatch c := by
  let scope : Scope := ⟨keysInUse steps, { now | now < u64Max }, False⟩
  have below : ∀ now ∈ scope.sweeps, now < u64Max := fun _ h => h
  have allowed : Along (perform c) (InScope c scope) .created steps := along_inScope clock
  obtain ⟨jobs, known, expiry⟩ :=
    run_indexed scope inj below .created ⟨.of_empty rfl, .of_empty rfl⟩ allowed
  obtain ⟨-, -, -, tagged, hashed⟩ := run_perform_invariant scope
    (fun t => t.KeysIn scope.keys ∧ t.TagKeysIn scope.keys ∧ t.TagIndexed c ∧
      ∀ entry key, t.tagidx.get entry = some key → (ofLex entry).2 = c.hash key) (by
    rintro t t' ⟨known, tagKnown, held, hashed⟩ change
    exact ⟨known.change change, tagKnown.change change, held.change inj known tagKnown change,
      change.tagRows (fun _ _ _ => rfl) hashed⟩) .created
    ⟨.of_empty rfl, .of_empty rfl, .of_empty rfl rfl, fun _ _ row => nomatch row⟩ allowed
  refine ⟨jobs, expiry, fun entry key => ⟨fun row => ?_, ?_⟩⟩
  · have own : entry = indexKey c (ofLex entry).1 key := by
      rw [indexKey, ← hashed entry key row]
      rfl
    rw [own] at row
    obtain ⟨r, stored, carried⟩ := (tagged _ key).mp row
    exact ⟨r, stored, _, carried, own⟩
  · rintro ⟨r, stored, id, carried, rfl⟩
    exact (tagged id key).mpr ⟨r, stored, carried⟩

/-- `t'` is `t` without the records under the keys `gone` and without their tag rows. -/
structure Stripped (t : Tables) (gone : Set Bytes) (t' : Tables) : Prop where
  main : ∀ key r, t'.main.get key = some r ↔ t.main.get key = some r ∧ key ∉ gone
  tagidx : ∀ entry key, t'.tagidx.get entry = some key ↔
    t.tagidx.get entry = some key ∧ key ∉ gone
  expiry : ∀ entry key, t.exp.get entry = some key → key ∉ gone → t'.exp.get entry = some key
  tags : t'.tags = t.tags
  epoch : t'.epoch = t.epoch

section Stripped

variable {c : Config} {t t' t'' : Tables} {gone : Set Bytes} {key : Bytes} {r : Record}

theorem Stripped.refl (t : Tables) : Stripped t ∅ t :=
  ⟨by simp, by simp, fun _ _ found _ => found, rfl, rfl⟩

/-- Jobs are not part of what is stripped. -/
theorem Stripped.jobs (stripped : Stripped t gone t') (jobs : Table Nat Job) :
    Stripped t gone { t' with jobs } :=
  ⟨stripped.main, stripped.tagidx, stripped.expiry, stripped.tags, stripped.epoch⟩

/-- One more record goes. Its rows are its own, so no other record loses one. -/
theorem Stripped.reclaim (indexes : t.IndexesMatch c) (stripped : Stripped t gone t')
    (stored : t'.main.get key = some r) :
    Stripped t (insert key gone) (t'.reclaim c key) := by
  have before := ((stripped.main key r).mp stored).1
  have ids : t'.tagIdsAt key = r.tagIds := by rw [Tables.tagIdsAt, stored]
  refine ⟨fun key' r' => ?_, fun entry key' => ?_, fun entry key' found spared => ?_,
    stripped.tags, stripped.epoch⟩
  · rw [Set.mem_insert_iff, not_or, Tables.reclaim]
    by_cases same : key' = key
    · rw [same, Table.get_delete_self]
      simp
    · rw [Table.get_delete_of_ne same, stripped.main]
      simp [same]
  · rw [Set.mem_insert_iff, not_or, Tables.reclaim, Table.get_deleteAll, ids]
    have own : entry ∈ tagKeys c key r.tagIds ↔ t.tagidx.get entry = some key := by
      rw [indexes.tags entry key]
      constructor
      · intro mem
        obtain ⟨id, carried, rfl⟩ := List.mem_map.mp mem
        exact ⟨r, before, id, carried, rfl⟩
      · rintro ⟨r', found, id, carried, rfl⟩
        obtain rfl := Option.some.inj (before.symm.trans found)
        exact List.mem_map.mpr ⟨id, carried, rfl⟩
    split
    · rename_i mem
      rw [own.mp mem]
      constructor
      · intro absurd
        cases absurd
      · rintro ⟨same, other, -⟩
        exact absurd (Option.some.inj same).symm other
    · rename_i other
      rw [stripped.tagidx]
      refine and_congr_right fun found => ?_
      have ne : key' ≠ key := by
        rintro rfl
        exact other (own.mpr found)
      simp [ne]
  · rw [Set.mem_insert_iff, not_or] at spared
    have kept := stripped.expiry entry key' found spared.2
    have other : entry ≠ encodeKey c r.header.expiresAtMs key := by
      rintro rfl
      exact spared.1 (Option.some.inj (found.symm.trans (indexes.expiry key r before)))
    rw [Tables.reclaim, Tables.indexedAt, stored, Option.map_some]
    dsimp only
    split
    · rwa [Table.get_delete_of_ne other]
    · exact kept

/-- What is left depends on what went, and not on how. -/
theorem Stripped.unique (stripped : Stripped t gone t') (stripped' : Stripped t gone t'') :
    t'.main = t''.main ∧ t'.tagidx = t''.tagidx := by
  refine ⟨Table.ext_get fun key => Option.ext fun r => ?_,
    Table.ext_get fun entry => Option.ext fun key => ?_⟩
  · exact (stripped.main key r).trans (stripped'.main key r).symm
  · exact (stripped.tagidx entry key).trans (stripped'.tagidx entry key).symm

end Stripped

/-! ### The entries of a pass -/

/-- The keys that rows name, those whose records are to go. -/
def spentKeys (t : Tables) (goes : Record → Prop) (rows : List (IndexKey × Bytes)) : Set Bytes :=
  {key | (∃ row ∈ rows, row.2 = key) ∧ ∃ r, t.main.get key = some r ∧ goes r}

theorem spentKeys_nil (t : Tables) (goes : Record → Prop) : spentKeys t goes [] = ∅ := by
  simp [spentKeys]

theorem spentKeys_append (t : Tables) (goes : Record → Prop)
    (rows rows' : List (IndexKey × Bytes)) :
    spentKeys t goes (rows ++ rows') = spentKeys t goes rows ∪ spentKeys t goes rows' := by
  ext key
  simp only [spentKeys, List.mem_append, Set.mem_union, Set.mem_ofPred_eq]
  constructor
  · rintro ⟨⟨row, mem | mem, rfl⟩, went⟩
    · exact .inl ⟨⟨row, mem, rfl⟩, went⟩
    · exact .inr ⟨⟨row, mem, rfl⟩, went⟩
  · rintro (⟨⟨row, mem, rfl⟩, went⟩ | ⟨⟨row, mem, rfl⟩, went⟩)
    · exact ⟨⟨row, .inl mem, rfl⟩, went⟩
    · exact ⟨⟨row, .inr mem, rfl⟩, went⟩

theorem spentKeys_singleton {t : Tables} {goes : Record → Prop}
    {row : IndexKey × Bytes} {r : Record}
    (stored : t.main.get row.2 = some r) :
    (goes r → spentKeys t goes [row] = {row.2}) ∧ (¬ goes r → spentKeys t goes [row] = ∅) := by
  constructor
  · intro went
    ext key
    simp only [spentKeys, List.mem_singleton, exists_eq_left, Set.mem_ofPred_eq,
      Set.mem_singleton_iff]
    constructor
    · rintro ⟨rfl, -⟩
      rfl
    · rintro rfl
      exact ⟨rfl, r, stored, went⟩
  · intro stays
    refine Set.eq_empty_iff_forall_notMem.mpr ?_
    rintro key ⟨⟨row', mem, rfl⟩, r', found, went⟩
    obtain rfl := List.mem_singleton.mp mem
    obtain rfl := Option.some.inj (stored.symm.trans found)
    exact stays went

theorem spentKeys_congr {t : Tables} {goes goes' : Record → Prop}
    (same : ∀ key r, t.main.get key = some r → (goes r ↔ goes' r))
    (rows : List (IndexKey × Bytes)) :
    spentKeys t goes rows = spentKeys t goes' rows := by
  ext key
  exact and_congr_right fun _ => exists_congr fun r => and_congr_right
    fun stored => same key r stored

section Entries

variable {eng : Engine} {tagId target now : Nat} {s : Txn} {t : Tables}

/-- The entries of a batch, each with a record of its own that carries the tag. -/
theorem forEach_reclaimEntry {gone : Set Bytes} {batch : List (IndexKey × Bytes)}
    (indexes : t.IndexesMatch eng.config) (stripped : Stripped t gone s.tables)
    (tagged : ∀ row ∈ batch, ∃ r, t.main.get row.2 = some r ∧ tagId ∈ r.tagIds)
    (fresh : ∀ row ∈ batch, row.2 ∉ gone) (distinct : (batch.map Prod.snd).Nodup) :
    wp (forEach (reclaimEntry eng tagId target now) batch)
      (fun _ s' =>
        Stripped t (gone ∪ spentKeys t (Spent eng tagId target now) batch) s'.tables ∧
        s'.tables.jobs = s.tables.jobs ∧ s'.effects = s.effects) Breaks s := by
  refine wp.forEach (fun done _ (s' : Txn) =>
    Stripped t (gone ∪ spentKeys t (Spent eng tagId target now) done) s'.tables ∧
      s'.tables.jobs = s.tables.jobs ∧ s'.effects = s.effects) ?_ ?_
  · rw [spentKeys_nil, Set.union_empty]
    exact ⟨stripped, rfl, rfl⟩
  · rintro done row todo _ s' split ⟨so_far, jobs, effects⟩
    have mem : row ∈ batch := by simp [split]
    obtain ⟨r, stored, carries⟩ := tagged row mem
    -- The record is still there: no entry before this one names its key.
    have there : s'.tables.main.get row.2 = some r := by
      refine (so_far.main _ _).mpr ⟨stored, ?_⟩
      rintro (went | ⟨⟨row', mem', same⟩, -⟩)
      · exact fresh row mem went
      · rw [split, List.map_append, List.map_cons, List.nodup_append] at distinct
        exact distinct.2.2 _ (List.mem_map_of_mem mem') _ List.mem_cons_self same
    rw [spentKeys_append, ← Set.union_assoc]
    refine (reclaimEntry_cases row).imp ?_
    rintro _ s'' (⟨absent, -⟩ | ⟨r', found, -, verdict⟩)
    · exact absurd carries (absent r there)
    obtain rfl := Option.some.inj (there.symm.trans found)
    rcases verdict with ⟨spent, after⟩ | ⟨stays, after⟩
    · rw [(spentKeys_singleton stored).1 spent, Set.union_singleton, after.tables, after.effects]
      exact ⟨so_far.reclaim indexes there, jobs, effects⟩
    · rw [(spentKeys_singleton stored).2 stays, Set.union_empty, after.tables, after.effects]
      exact ⟨so_far, jobs, effects⟩

end Entries

/-! ### The walk of a job -/

/-- The job after the given rows of its walk. -/
def Job.resumed (job : Job) (rows : List (IndexKey × Bytes)) : Job where
  targetGeneration := job.targetGeneration
  cursor := match rows.getLast? with
    | some row => some row.1
    | none => job.cursor

theorem Job.resumed_targetGeneration (job : Job) (rows : List (IndexKey × Bytes)) :
    (job.resumed rows).targetGeneration = job.targetGeneration := rfl

theorem Job.resumed_append (job : Job) (rows rows' : List (IndexKey × Bytes)) :
    job.resumed (rows ++ rows') = (job.resumed rows).resumed rows' := by
  unfold Job.resumed
  rw [List.getLast?_append]
  cases rows'.getLast? <;> rfl

theorem Tables.walk_sorted (t : Tables) (tagId : Nat) (job : Job) :
    (t.walk tagId job).Pairwise fun a b => a.1 < b.1 := t.tagidx.sorted.filter _

section Walk

variable {c : Config} {t t' : Tables} {tagId : Nat} {job : Job}

/-- The entries of a walk: each is the row of a record that carries the tag. -/
theorem walk_tagged (indexes : t.IndexesMatch c) (cursorOk : job.OnTag tagId)
    {row : IndexKey × Bytes} (mem : row ∈ t.walk tagId job) :
    row.1 = indexKey c tagId row.2 ∧ ∃ r, t.main.get row.2 = some r ∧ tagId ∈ r.tagIds := by
  have there : t.tagidx.get row.1 = some row.2 :=
    Table.get_eq_some_iff.mpr (List.mem_filter.mp mem).1
  obtain ⟨r, stored, id, carried, entry⟩ := (indexes.tags row.1 row.2).mp there
  have own : id = tagId := by
    have tagged := jobRows_tag cursorOk mem
    rwa [entry] at tagged
  subst own
  exact ⟨entry, r, stored, carried⟩

/-- Two entries of a walk do not name the same key. -/
theorem walk_keys_nodup (indexes : t.IndexesMatch c) (cursorOk : job.OnTag tagId) :
    ((t.walk tagId job).map Prod.snd).Nodup := by
  rw [List.Nodup, List.pairwise_map]
  refine (t.walk_sorted tagId job).imp_of_mem fun {a b} memA memB before same => ?_
  rw [(walk_tagged indexes cursorOk memA).1, (walk_tagged indexes cursorOk memB).1, same]
    at before
  exact lt_irrefl _ before

/-- After part of its walk, a job has the rest of it ahead: what it deleted is behind
its cursor. -/
theorem walk_resumed (indexes : t.IndexesMatch c) (cursorOk : job.OnTag tagId) {n : Nat}
    {goes : Record → Prop}
    (stripped : Stripped t (spentKeys t goes ((t.walk tagId job).take n)) t') :
    t'.walk tagId (job.resumed ((t.walk tagId job).take n)) =
      (t.walk tagId job).drop n := by
  cases taken : ((t.walk tagId job).take n).getLast? with
  | none =>
    have empty := List.getLast?_eq_none_iff.mp taken
    rw [empty, spentKeys_nil] at stripped
    rw [empty, Tables.walk, (stripped.unique (.refl t)).2]
    have whole := List.take_append_drop n (t.walk tagId job)
    rw [empty, List.nil_append] at whole
    exact whole.symm
  | some last =>
    refine Table.rows_eq_of_mem (t'.walk_sorted _ _) (t.walk_sorted _ _).drop fun row => ?_
    have lastMem : last ∈ t.walk tagId job :=
      List.mem_of_mem_take (List.mem_of_getLast? taken)
    rw [Table.mem_drop_iff (t.walk_sorted tagId job) taken]
    have cursor : (job.resumed ((t.walk tagId job).take n)).cursor =
        some last.1 := by
      simp only [Job.resumed, taken]
    constructor
    · intro ahead
      obtain ⟨there, range⟩ := List.mem_filter.mp ahead
      rw [cursor] at range
      obtain ⟨after, below⟩ := Bool.and_eq_true_iff.mp range
      have after : last.1 < row.1 := of_decide_eq_true after
      have there := ((stripped.tagidx row.1 row.2).mp (Table.get_eq_some_iff.mpr there)).1
      refine ⟨List.mem_filter.mpr ⟨Table.get_eq_some_iff.mp there, ?_⟩, after⟩
      -- The range of the job starts before `last`, and so before the row.
      obtain ⟨-, lastRange⟩ := List.mem_filter.mp lastMem
      refine Bool.and_eq_true_iff.mpr ⟨?_, below⟩
      have start := (Bool.and_eq_true_iff.mp lastRange).1
      cases at_ : job.cursor with
      | none =>
        rw [at_] at start
        exact decide_eq_true ((of_decide_eq_true start : _ ≤ last.1).trans after.le)
      | some cursor =>
        rw [at_] at start
        exact decide_eq_true ((of_decide_eq_true start : _ < last.1).trans after)
    · rintro ⟨mem, after⟩
      obtain ⟨there, range⟩ := List.mem_filter.mp mem
      refine List.mem_filter.mpr ⟨Table.get_eq_some_iff.mp ((stripped.tagidx _ _).mpr
        ⟨Table.get_eq_some_iff.mpr there, ?_⟩), ?_⟩
      · rintro ⟨⟨row', early, same⟩, -⟩
        have entry := (walk_tagged indexes cursorOk mem).1
        have entry' := (walk_tagged indexes cursorOk (List.mem_of_mem_take early)).1
        rw [same, ← entry] at entry'
        have later := (Table.mem_drop_iff (t.walk_sorted tagId job) taken).mpr ⟨mem, after⟩
        have whole := t.walk_sorted tagId job
        rw [← List.take_append_drop n (t.walk tagId job)] at whole
        have before := (List.pairwise_append.mp whole).2.2 row' early row later
        rw [entry'] at before
        exact lt_irrefl _ before
      · rw [cursor]
        exact Bool.and_eq_true_iff.mpr
          ⟨decide_eq_true after, (Bool.and_eq_true_iff.mp range).2⟩

end Walk

/-! ### Passes and restarts -/

/-- `sh` judges the records of `base` as `base` does. -/
structure Shard.JudgesAs (base sh : Shard) : Prop where
  config : sh.engine.config = base.engine.config
  epoch : sh.engine.epoch = base.engine.epoch
  generations : ∀ key r, base.tables.main.get key = some r → ∀ id ∈ r.tagIds,
    sh.engine.registry.generation id = base.engine.registry.generation id

/-- RAM shows the durable epoch and, of the stored references, the durable generations:
a restart makes no difference to them. -/
def Shard.Current (sh : Shard) : Prop := sh.JudgesAs sh.restart

/-- A shard just opened is current. -/
theorem Shard.Current.open (config : Config) (tables : Tables) (written : List (Bytes × Nat)) :
    (Shard.open config tables written).Current := ⟨rfl, rfl, fun _ _ _ _ _ => rfl⟩

/-- So is a shard between two turns of its writer. -/
theorem Shard.Settled.current {sh : Shard} (settled : sh.Settled) : sh.Current := by
  refine ⟨rfl, settled.settled.shown.symm, fun key r stored id carried => ?_⟩
  obtain ⟨ref, mem, rfl⟩ := List.mem_map.mp carried
  obtain ⟨name, row, found, own, -⟩ := (settled.settled.stamped key r stored).2 ref mem
  have loaded := (Registry.Mirrors.loadFrom settled.tags.ok.ids).byId name row found
  have shown := settled.tags.mirrors.byId name row found
  rw [own] at loaded shown
  change (Option.map _ ((Registry.loadFrom sh.tables.tags.rows).byId.get ref.tagId)) =
    Option.map _ (sh.engine.registry.byId.get ref.tagId)
  rw [shown]
  exact congrArg (Option.map _) loaded

theorem Shard.JudgesAs.tagsAlive {base sh : Shard} (judges : base.JudgesAs sh) {key : Bytes}
    {r : Record} (stored : base.tables.main.get key = some r) :
    r.tagsAlive sh.engine.registry.generation = r.tagsAlive base.engine.registry.generation := by
  rw [Bool.eq_iff_iff, Record.tagsAlive, Record.tagsAlive, List.all_eq_true, List.all_eq_true]
  refine forall₂_congr fun t mem => ?_
  rw [judges.generations key r stored t.tagId (List.mem_map_of_mem mem)]

/-- Shards that hold the same records and judge them alike answer alike. -/
theorem Shard.JudgesAs.reads {base sh : Shard} (judges : base.JudgesAs sh)
    (same : sh.tables.main = base.tables.main) {α : Type} (nowMs : Nat) (key : Bytes)
    (project : Record → α) :
    readAlive sh.tables.main sh.engine.registry (sh.snapshot nowMs) key project =
      readAlive base.tables.main base.engine.registry (base.snapshot nowMs) key project := by
  apply Option.ext
  intro a
  rw [readAlive_eq_some_iff, readAlive_eq_some_iff, same]
  refine exists_congr fun r => and_congr_right fun stored => and_congr_left' ?_
  rw [Record.isAlive, Record.isAlive, Shard.snapshot, Shard.snapshot, judges.epoch,
    judges.tagsAlive stored]

/-- Wherever a run is cut off between two turns of the writer, and however the engine
failed the batches before, a restart changes no answer to a read. -/
theorem restarts_are_invisible (config : Config) (events : List ShardEvent)
    (ready : Along Shard.step ShardEvent.Ready (.create config) events) (nowMs : Nat) :
    (∀ key, (Shard.after config events).restart.get nowMs key =
      (Shard.after config events).get nowMs key) ∧
    ∀ keys, (Shard.after config events).restart.deadlines nowMs keys =
      (Shard.after config events).deadlines nowMs keys := by
  have current := (run_settled (.create config) ready).settled.current
  refine ⟨fun key => current.reads rfl nowMs key _, fun keys => ?_⟩
  exact List.map_congr_left fun key _ => current.reads rfl nowMs key _

/-- After an invalidation, with one write prepared before it and one after. -/
theorem restarts_are_invisible_late :
    let sh := Shard.after (firstByteConfig 1000)
      (taggedEvents ++ .turn invalidatingTurn :: lateWrites)
    (sh.get 200 [8]).isSome = true ∧ ∀ key, sh.restart.get 200 key = sh.get 200 key :=
  ⟨by decide +kernel, (restarts_are_invisible _ _ (by decide +kernel) 200).1⟩

/-- A pass of the reclaimer in a transaction of its own, read at `nowMs`. -/
def Shard.reclaim (sh : Shard) (budget nowMs : Nat) : Shard :=
  match reclaimStep sh.engine budget { sh.begin [] with clock := fun _ => nowMs } with
  | .ok _ s => sh.commit s
  | .error _ s => sh.abort s

/-- A pass to come, and whether the process is restarted before it. -/
structure Pass where
  restarted : Bool
  budget : Nat
  nowMs : Nat

def Shard.pass (sh : Shard) (pass : Pass) : Shard :=
  (if pass.restarted then sh.restart else sh).reclaim pass.budget pass.nowMs

/-- The shard after the first `n` passes. -/
def Shard.afterPasses (sh : Shard) (passes : Nat → Pass) (n : Nat) : Shard :=
  run Shard.pass sh ((List.range n).map passes)

theorem Shard.afterPasses_succ (sh : Shard) (passes : Nat → Pass) (n : Nat) :
    sh.afterPasses passes (n + 1) = (sh.afterPasses passes n).pass (passes n) := by
  rw [afterPasses, List.range_succ, List.map_append, run_append]
  rfl

/-- A pass over the rows `batch` of the only job. -/
theorem Shard.reclaim_strips {sh : Shard} {t : Tables} {tagId budget : Nat} {job : Job}
    (nowMs : Nat) {gone : Set Bytes} {batch : List (IndexKey × Bytes)}
    (indexes : t.IndexesMatch sh.engine.config) (stripped : Stripped t gone sh.tables)
    (queued : sh.tables.jobs.rows = [(tagId, job)])
    (next : reclaimBatch tagId job budget sh.tables = batch)
    (tagged : ∀ row ∈ batch, ∃ r, t.main.get row.2 = some r ∧ tagId ∈ r.tagIds)
    (fresh : ∀ row ∈ batch, row.2 ∉ gone) (distinct : (batch.map Prod.snd).Nodup) :
    (sh.reclaim budget nowMs).engine = sh.engine ∧
      Stripped t (gone ∪ spentKeys t (Spent sh.engine tagId job.targetGeneration nowMs) batch)
        (sh.reclaim budget nowMs).tables ∧
      (sh.reclaim budget nowMs).tables.jobs.rows =
        if batch.length < budget then [] else [(tagId, job.resumed batch)] := by
  subst next
  have first : { sh.begin [] with clock := fun _ => nowMs }.tables.jobs.rows.head? =
      some (tagId, job) := by
    change sh.tables.jobs.rows.head? = _
    rw [queued]
    rfl
  have entries : ∀ s₁, Txn.Agrees { sh.begin [] with clock := fun _ => nowMs } s₁ →
      wp (forEach (reclaimEntry sh.engine tagId job.targetGeneration nowMs)
        (reclaimBatch tagId job budget sh.tables))
      (fun _ s' => Stripped t (gone ∪ spentKeys t (Spent sh.engine tagId job.targetGeneration nowMs)
          (reclaimBatch tagId job budget sh.tables)) s'.tables ∧
        s'.tables.jobs = sh.tables.jobs ∧ s'.effects = []) Breaks s₁ := by
    intro s₁ agrees
    have here : Stripped t gone s₁.tables := by
      rw [agrees.tables]
      exact stripped
    refine (forEach_reclaimEntry indexes here tagged fresh distinct).imp ?_
    rintro _ s' ⟨stripped, jobs, effects⟩
    exact ⟨stripped, by rw [jobs, agrees.tables]; rfl, by rw [effects, agrees.effects]; rfl⟩
  have ran := reclaimStep_of_entries first entries
  have sound := reclaimStep_sound sh.engine budget { sh.begin [] with clock := fun _ => nowMs }
    ⟨rfl, rfl⟩
  unfold Shard.reclaim
  cases stepped : reclaimStep sh.engine budget { sh.begin [] with clock := fun _ => nowMs } with
  | error e s =>
    -- Nothing the pass calls fails.
    have broken := (ran.of_error stepped).2
    rw [(sound.of_error stepped).2] at broken
    cases broken
  | ok stats s =>
    obtain ⟨s₁, ⟨stripped, jobs, effects⟩, finished⟩ := ran.of_ok stepped
    dsimp only [Shard.commit]
    rw [finished.tables, finished.effects, effects, jobs]
    refine ⟨rfl, stripped.jobs _, ?_⟩
    change (jobsAfter tagId job (reclaimBatch tagId job budget sh.tables) (decide
      ((reclaimBatch tagId job budget sh.tables).length < budget)) sh.tables.jobs).rows = _
    by_cases short : (reclaimBatch tagId job budget sh.tables).length < budget
    · simp [jobsAfter, short, Table.delete, queued]
    · rw [jobsAfter, if_neg (by simpa using short), if_neg short]
      change (sh.tables.jobs.put tagId (job.resumed _)).rows = _
      simp [Table.put, Table.putRow, queued]

section Passes

variable {base sh : Shard} {tagId nowMs budget k : Nat} {job : Job}

theorem Shard.JudgesAs.of_engine {sh' : Shard} (judges : base.JudgesAs sh)
    (same : sh'.engine = sh.engine) : base.JudgesAs sh' :=
  ⟨same ▸ judges.config, same ▸ judges.epoch, same ▸ judges.generations⟩

theorem Shard.JudgesAs.spent_iff (judges : base.JudgesAs sh) {key : Bytes} {r : Record}
    (stored : base.tables.main.get key = some r) {nowMs' target : Nat}
    (steady : tagId ∈ r.tagIds → r.isExpired nowMs' = r.isExpired nowMs) :
    Spent sh.engine tagId target nowMs' r ↔ Spent base.engine tagId target nowMs r := by
  refine exists_congr fun ref => and_congr_right fun first => or_congr_right ?_
  have own : ref.tagId = tagId := by simpa using List.find?_some first
  have carries : tagId ∈ r.tagIds :=
    own ▸ List.mem_map_of_mem (List.mem_of_find?_eq_some first)
  rw [Record.isAlive, Record.isAlive, steady carries, judges.epoch, judges.tagsAlive stored]

/-- The job went over the rows `walked`, and `queue` is what is left in the queue. -/
structure Walked (base : Shard) (tagId : Nat) (job : Job) (nowMs : Nat)
    (walked : List (IndexKey × Bytes)) (queue : List (Nat × Job)) (sh : Shard) : Prop where
  judges : base.JudgesAs sh
  stripped : Stripped base.tables (spentKeys base.tables
    (Spent base.engine tagId job.targetGeneration nowMs) walked) sh.tables
  queued : sh.tables.jobs.rows = queue

/-- The job is `k` rows into its walk. -/
abbrev Progress (base : Shard) (tagId : Nat) (job : Job) (nowMs k : Nat) (sh : Shard) : Prop :=
  Walked base tagId job nowMs ((base.tables.walk tagId job).take k)
    [(tagId, job.resumed ((base.tables.walk tagId job).take k))] sh

/-- The walk has ended and the job is gone. -/
abbrev Done (base : Shard) (tagId : Nat) (job : Job) (nowMs : Nat) (sh : Shard) : Prop :=
  Walked base tagId job nowMs (base.tables.walk tagId job) [] sh

/-- A restart finds RAM as it was. -/
theorem Walked.restart {walked : List (IndexKey × Bytes)} {queue : List (Nat × Job)}
    (current : base.Current) (held : Walked base tagId job nowMs walked queue sh) :
    Walked base tagId job nowMs walked queue sh.restart := by
  refine ⟨⟨held.judges.config, ?_, fun key r stored id carried => ?_⟩, held.stripped, held.queued⟩
  · rw [← current.epoch]
    simp only [Shard.restart, Shard.open, held.stripped.epoch]
  · rw [← current.generations key r stored id carried]
    simp only [Shard.restart, Shard.open, held.stripped.tags]

/-- One pass from within the walk: it goes on, or it ends. -/
theorem Progress.reclaim (indexes : base.tables.IndexesMatch base.engine.config)
    (cursorOk : job.OnTag tagId)
    (held : Progress base tagId job nowMs k sh) (positive : 1 ≤ budget) {nowMs' : Nat}
    (steady : ∀ key r, base.tables.main.get key = some r → tagId ∈ r.tagIds →
      r.isExpired nowMs' = r.isExpired nowMs) :
    (k + budget ≤ (base.tables.walk tagId job).length ∧
        Progress base tagId job nowMs (k + budget) (sh.reclaim budget nowMs')) ∨
      ((base.tables.walk tagId job).length < k + budget ∧
        Done base tagId job nowMs (sh.reclaim budget nowMs')) := by
  have rows := walk_resumed indexes cursorOk held.stripped
  have next : reclaimBatch tagId (job.resumed ((base.tables.walk tagId job).take k)) budget
      sh.tables = ((base.tables.walk tagId job).drop k).take budget := by
    rw [reclaimBatch, max_eq_left positive]
    exact congrArg (List.take budget) rows
  have part : ∀ row ∈ ((base.tables.walk tagId job).drop k).take budget,
      row ∈ base.tables.walk tagId job :=
    fun row mem => List.mem_of_mem_drop (List.mem_of_mem_take mem)
  have keys := walk_keys_nodup indexes cursorOk
  have goes : ∀ key r, base.tables.main.get key = some r →
      (Spent sh.engine tagId job.targetGeneration nowMs' r ↔
        Spent base.engine tagId job.targetGeneration nowMs r) :=
    fun key r stored => held.judges.spent_iff stored (steady key r stored)
  rw [← held.judges.config] at indexes
  -- What went so far was under keys of the first `k` rows.
  have fresh : ∀ row ∈ ((base.tables.walk tagId job).drop k).take budget,
      row.2 ∉ spentKeys base.tables (Spent base.engine tagId job.targetGeneration nowMs)
        ((base.tables.walk tagId job).take k) := by
    rintro row mem ⟨⟨row', early, same⟩, -⟩
    rw [← List.take_append_drop k (base.tables.walk tagId job), List.map_append,
      List.nodup_append] at keys
    exact keys.2.2 _ (List.mem_map_of_mem early) _
      (List.mem_map_of_mem (List.mem_of_mem_take mem)) same
  have distinct : ((((base.tables.walk tagId job).drop k).take budget).map Prod.snd).Nodup :=
    keys.sublist (((List.take_sublist _ _).trans (List.drop_sublist _ _)).map _)
  have tagged := fun row mem => (walk_tagged indexes cursorOk (part row mem)).2
  obtain ⟨engine, stripped, jobs⟩ := Shard.reclaim_strips nowMs' indexes held.stripped held.queued
    next tagged fresh distinct
  rw [Job.resumed_targetGeneration, spentKeys_congr goes, ← spentKeys_append,
    ← List.take_add] at stripped
  rw [← Job.resumed_append, ← List.take_add] at jobs
  have judges := held.judges.of_engine engine
  by_cases more : k + budget ≤ (base.tables.walk tagId job).length
  · refine .inl ⟨more, judges, stripped, ?_⟩
    rw [jobs, if_neg (by simp; omega)]
  · refine .inr ⟨by omega, judges, ?_, ?_⟩
    · rwa [List.take_of_length_le (by omega)] at stripped
    · rw [jobs, if_pos (by simp; omega)]

/-- Without a job, a pass does nothing. -/
theorem Done.reclaim (held : Done base tagId job nowMs sh) (budget nowMs' : Nat) :
    Done base tagId job nowMs (sh.reclaim budget nowMs') := by
  have none : { sh.begin [] with clock := fun _ => nowMs' }.tables.jobs.rows.head? = none := by
    change sh.tables.jobs.rows.head? = _
    rw [held.queued]
    rfl
  have ran : wp (reclaimStep sh.engine budget) _ Breaks _ := reclaimStep_idle none
  unfold Shard.reclaim
  cases stepped : reclaimStep sh.engine budget { sh.begin [] with clock := fun _ => nowMs' } with
  | error e s => exact ⟨held.judges.of_engine rfl, held.stripped, held.queued⟩
  | ok stats s =>
    have agrees := ran.of_ok stepped
    have engine : (sh.commit s).engine = sh.engine := by
      simp only [Shard.commit, agrees.effects, Shard.begin, List.foldl_nil]
    have tables : (sh.commit s).tables = sh.tables := agrees.tables
    refine ⟨held.judges.of_engine engine, ?_, ?_⟩
    · rw [tables]
      exact held.stripped
    · rw [tables]
      exact held.queued

/-- The job is within its walk, at least `n` rows into it, or done. -/
def Advanced (base : Shard) (tagId : Nat) (job : Job) (nowMs n : Nat) (sh : Shard) : Prop :=
  (∃ k, n ≤ k ∧ k ≤ (base.tables.walk tagId job).length ∧ Progress base tagId job nowMs k sh) ∨
    Done base tagId job nowMs sh

theorem Advanced.restart (current : base.Current) {n : Nat}
    (held : Advanced base tagId job nowMs n sh) : Advanced base tagId job nowMs n sh.restart :=
  held.imp (fun ⟨k, far, within, held⟩ => ⟨k, far, within, held.restart current⟩)
    fun held => held.restart current

/-- Every pass gets at least one row further. -/
theorem Advanced.pass (indexes : base.tables.IndexesMatch base.engine.config)
    (current : base.Current) (cursorOk : job.OnTag tagId) {n : Nat}
    (held : Advanced base tagId job nowMs n sh) {pass : Pass} (positive : 1 ≤ pass.budget)
    (steady : ∀ key r, base.tables.main.get key = some r → tagId ∈ r.tagIds →
      r.isExpired pass.nowMs = r.isExpired nowMs) :
    Advanced base tagId job nowMs (n + 1) (sh.pass pass) := by
  have reopened : Advanced base tagId job nowMs n (if pass.restarted then sh.restart else sh) := by
    split
    · exact held.restart current
    · exact held
  unfold Shard.pass
  rcases reopened with ⟨k, far, within, held⟩ | held
  · rcases held.reclaim indexes cursorOk positive steady with ⟨more, next⟩ | ⟨-, done⟩
    · exact .inl ⟨k + pass.budget, by omega, more, next⟩
    · exact .inr done
  · exact .inr (held.reclaim _ _)

end Passes

/-- The rows of a job's walk are those of the records it is to come to. -/
theorem mem_spentKeys_walk {c : Config} {t : Tables} (indexes : t.IndexesMatch c) {tagId : Nat}
    {job : Job} (cursorOk : job.OnTag tagId)
    {goes : Record → Prop} (carries : ∀ r, goes r → tagId ∈ r.tagIds) {key : Bytes} {r : Record}
    (stored : t.main.get key = some r) :
    key ∈ spentKeys t goes (t.walk tagId job) ↔
      (∀ cursor, job.cursor = some cursor → cursor < indexKey c tagId key) ∧ goes r := by
  constructor
  · rintro ⟨⟨row, mem, rfl⟩, r', found, went⟩
    obtain rfl := Option.some.inj (stored.symm.trans found)
    refine ⟨fun cursor at_ => ?_, went⟩
    rw [← (walk_tagged indexes cursorOk mem).1]
    have range := (Bool.and_eq_true_iff.mp (List.mem_filter.mp mem).2).1
    rw [at_] at range
    exact of_decide_eq_true range
  · rintro ⟨ahead, went⟩
    have row : t.tagidx.get (indexKey c tagId key) = some key :=
      (indexes.tags _ _).mpr ⟨r, stored, tagId, carries r went, rfl⟩
    exact ⟨⟨_, @Ahead.mem_jobRows c t key ⟨tagId, 0⟩ job row ahead, rfl⟩, r, stored, went⟩

/-- However the walk of the one outstanding job is cut into passes of at least one
entry, with restarts between them, it ends; by then exactly the records are gone that
the job had still to come to, carrying its tag and spent, every other record has kept
its rows, and the tables are those that one pass with an unlimited budget leaves. -/
theorem reclamation_is_exact (sh : Shard) (tagId : Nat) (job : Job)
    (indexes : sh.tables.IndexesMatch sh.engine.config) (current : sh.Current)
    (one : sh.tables.jobs.rows = [(tagId, job)]) (jobsOk : sh.tables.JobsOk)
    (passes : Nat → Pass) (positive : ∀ i, 1 ≤ (passes i).budget) (nowMs : Nat)
    (steady : ∀ i key r, sh.tables.main.get key = some r → tagId ∈ r.tagIds →
      r.isExpired (passes i).nowMs = r.isExpired nowMs) :
    (∃ n ≤ sh.tables.tagidx.size + 1, (sh.afterPasses passes n).tables.jobs = ∅) ∧
    ∀ n, (sh.afterPasses passes n).tables.jobs = ∅ →
      (∀ key r, (sh.afterPasses passes n).tables.main.get key = some r ↔
        sh.tables.main.get key = some r ∧
          ¬ ((∀ cursor, job.cursor = some cursor →
              cursor < indexKey sh.engine.config tagId key) ∧
            Spent sh.engine tagId job.targetGeneration nowMs r)) ∧
      (∀ key r, (sh.afterPasses passes n).tables.main.get key = some r → ∀ entry,
        (sh.tables.exp.get entry = some key →
          (sh.afterPasses passes n).tables.exp.get entry = some key) ∧
        (sh.tables.tagidx.get entry = some key →
          (sh.afterPasses passes n).tables.tagidx.get entry = some key)) ∧
      ∀ budget > sh.tables.tagidx.size,
        (sh.afterPasses passes n).tables.main = (sh.reclaim budget nowMs).tables.main ∧
        (sh.afterPasses passes n).tables.tagidx = (sh.reclaim budget nowMs).tables.tagidx ∧
        (sh.afterPasses passes n).tables.jobs = (sh.reclaim budget nowMs).tables.jobs := by
  have cursorOk : job.OnTag tagId := by
    refine fun cursor => jobsOk tagId job cursor (Table.get_eq_some_iff.mpr ?_)
    simp [one]
  have start : Progress sh tagId job nowMs 0 sh := by
    refine ⟨⟨rfl, rfl, fun _ _ _ _ _ => rfl⟩, ?_, one⟩
    rw [List.take_zero, spentKeys_nil]
    exact .refl _
  have short : (sh.tables.walk tagId job).length ≤ sh.tables.tagidx.size :=
    List.length_filter_le _ _
  have advanced : ∀ n, Advanced sh tagId job nowMs n (sh.afterPasses passes n) := by
    intro n
    induction n with
    | zero => exact .inl ⟨0, le_rfl, Nat.zero_le _, start⟩
    | succ n ih =>
      rw [Shard.afterPasses_succ]
      exact ih.pass indexes current cursorOk (positive n) (steady n)
  have empty : ∀ {sh' : Shard}, Done sh tagId job nowMs sh' → sh'.tables.jobs = ∅ := by
    intro sh' done
    apply Table.ext_get
    intro id
    rw [Table.get_empty, Table.get_eq_none_iff, done.queued]
    exact fun _ => List.not_mem_nil
  constructor
  · refine ⟨sh.tables.tagidx.size + 1, le_rfl, ?_⟩
    rcases advanced (sh.tables.tagidx.size + 1) with ⟨k, far, within, -⟩ | done
    · omega
    · exact empty done
  · intro n ended
    have done : Done sh tagId job nowMs (sh.afterPasses passes n) := by
      refine (advanced n).resolve_left ?_
      rintro ⟨k, -, -, held⟩
      have queued := held.queued
      rw [ended] at queued
      cases queued
    have carries : ∀ r, Spent sh.engine tagId job.targetGeneration nowMs r → tagId ∈ r.tagIds := by
      exact fun r => Spent.carries
    refine ⟨fun key r => ?_, fun key r kept entry => ?_, fun budget unlimited => ?_⟩
    · rw [done.stripped.main]
      exact and_congr_right fun stored =>
        not_congr (mem_spentKeys_walk indexes cursorOk carries stored)
    · have spared := ((done.stripped.main key r).mp kept).2
      exact ⟨fun row => done.stripped.expiry entry key row spared,
        fun row => (done.stripped.tagidx entry key).mpr ⟨row, spared⟩⟩
    · have whole : Done sh tagId job nowMs (sh.reclaim budget nowMs) := by
        have positive : 1 ≤ budget := by omega
        rcases start.reclaim indexes cursorOk positive fun _ _ _ _ => rfl with ⟨more, -⟩ | ⟨-, done⟩
        · omega
        · exact done
      obtain ⟨main, tagidx⟩ := done.stripped.unique whole.stripped
      exact ⟨main, tagidx, (empty done).trans (empty whole).symm⟩

/-- Two records are stored under a tag, the tag is invalidated, and a third record is
stored under it. -/
def spentRun : List OpStep :=
  let created := Registry.empty.insert [97] 0 0
  [.at 100 .empty (.write (.createTags [([97], 0)])),
    .at 100 created (.write (.set [settledSet [1] never (some ⟨0, 0⟩)])),
    .at 100 created (.write (.set [settledSet [3] never (some ⟨0, 0⟩)])),
    .at 200 created (.write (.deleteByTag [97])),
    .at 200 (created.mergeGeneration 0 1) (.write (.set [settledSet [2] never (some ⟨0, 1⟩)]))]

/-- The shard opened on what the run left. -/
def spentShard : Shard :=
  .open (firstByteConfig 1000) (run (perform (firstByteConfig 1000)) .created spentRun) []

/-- Passes over one entry each, with a restart before every other one: the two records
from before the invalidation are gone after the fourth. -/
theorem reclamation_is_exact_one_by_one :
    (spentShard.afterPasses (fun i => ⟨i % 2 = 1, 1, 300⟩) 4).tables.jobs = ∅ ∧
    (spentShard.afterPasses (fun i => ⟨i % 2 = 1, 1, 300⟩) 4).tables.main =
      (spentShard.reclaim 8 300).tables.main ∧
    (spentShard.reclaim 8 300).tables.main.keys = [[2]] := by
  have ended : (spentShard.afterPasses (fun i => ⟨i % 2 = 1, 1, 300⟩) 4).tables.jobs = ∅ := by
    decide +kernel
  have inj : Set.InjOn (firstByteConfig 1000).hash (keysInUse spentRun) :=
    injOn_keysInUse (by decide)
  obtain ⟨jobs, indexes⟩ := reached_indexes_match inj (by simp [spentRun, OpStep.at])
  have same := (reclamation_is_exact spentShard 0 (.new 1) indexes (.open _ _ _) (by decide +kernel)
    jobs (fun i => ⟨i % 2 = 1, 1, 300⟩) (fun _ => le_rfl) 300 fun _ _ _ _ _ => rfl).2 4 ended
  exact ⟨ended, (same.2.2 8 (by decide +kernel)).1, by decide +kernel⟩

/-- A tag is invalidated, and two records with a deadline are stored under it after that. -/
def timedRun : List OpStep :=
  let created := Registry.empty.insert [97] 0 0
  [.at 100 .empty (.write (.createTags [([97], 0)])),
    .at 100 created (.write (.deleteByTag [97])),
    .at 100 (created.mergeGeneration 0 1) (.write (.set [settledSet [1] 250 (some ⟨0, 1⟩),
      settledSet [3] 250 (some ⟨0, 1⟩)]))]

/-- The same with a pass over the first of the two, while it is alive. -/
def begunRun : List OpStep :=
  timedRun ++ [.at 200 ((Registry.empty.insert [97] 0 0).mergeGeneration 0 1) (.reclaim 1)]

def timedShard : Shard :=
  .open (firstByteConfig 1000) (run (perform (firstByteConfig 1000)) .created timedRun) []

def begunShard : Shard :=
  .open (firstByteConfig 1000) (run (perform (firstByteConfig 1000)) .created begunRun) []

/-- The shard with the tag in RAM as it was before the invalidation. -/
def laggingShard : Shard :=
  { timedShard with
    engine := { timedShard.engine with registry := Registry.empty.insert [97] 0 0 } }

/-- Passes over one entry each, all but the first past the deadline. -/
def latePasses (i : Nat) : Pass := ⟨false, 1, if i = 0 then 200 else 300⟩

/-- Passes over one entry each, with a restart behind the first. -/
def restartedPasses (i : Nat) : Pass := ⟨i = 1, 1, 200⟩

/-- Between two passes the deadline goes by, or a restart brings RAM up to date: the first
record is judged one way and the second the other, as no single pass judges them. And a job
does not come back to a record behind its cursor that has died since. -/
theorem reclamation_depends_on_the_cuts :
    (∀ sh ∈ [timedShard, laggingShard, begunShard],
      sh.tables.IndexesMatch sh.engine.config ∧ sh.tables.JobsOk ∧ sh.tables.jobs.size = 1) ∧
    ((timedShard.afterPasses latePasses 3).tables.jobs = ∅ ∧ ∀ nowMs ∈ [200, 300],
      (timedShard.afterPasses latePasses 3).tables.main ≠
        (timedShard.reclaim 8 nowMs).tables.main) ∧
    ((laggingShard.afterPasses restartedPasses 3).tables.jobs = ∅ ∧
      ∀ start ∈ [laggingShard, laggingShard.restart],
        (laggingShard.afterPasses restartedPasses 3).tables.main ≠
          (start.reclaim 8 200).tables.main) ∧
    (begunShard.reclaim 8 300).tables.jobs = ∅ ∧
      ((begunShard.reclaim 8 300).tables.main.get [1]).any
        (fun r => decide (0 ∈ r.tagIds) && r.isExpired 300) = true := by
  have timedInj : Set.InjOn (firstByteConfig 1000).hash (keysInUse timedRun) :=
    injOn_keysInUse (by decide)
  have begunInj : Set.InjOn (firstByteConfig 1000).hash (keysInUse begunRun) :=
    injOn_keysInUse (by decide)
  obtain ⟨timedJobs, timedIndexes⟩ :=
    reached_indexes_match timedInj (by simp [timedRun, OpStep.at])
  obtain ⟨begunJobs, begunIndexes⟩ :=
    reached_indexes_match begunInj (by simp [begunRun, timedRun, OpStep.at])
  have apart : ∀ {main main' : Table Bytes Record}, main.keys ≠ main'.keys → main ≠ main' :=
    fun keys same => keys (congrArg Table.keys same)
  simp only [List.forall_mem_cons, List.not_mem_nil, false_imp_iff, implies_true, and_true]
  refine ⟨⟨⟨timedIndexes, timedJobs, by decide +kernel⟩,
    ⟨timedIndexes, timedJobs, by decide +kernel⟩, ⟨begunIndexes, begunJobs, by decide +kernel⟩⟩,
    ⟨by decide +kernel, apart (by decide +kernel), apart (by decide +kernel)⟩,
    ⟨by decide +kernel, apart (by decide +kernel), apart (by decide +kernel)⟩,
    by decide +kernel, by decide +kernel⟩

end Vash.Store
