import Vash.Store.Stored
import Vash.Store.TagJobs
import Vash.Store.IndexInvariants
import Vash.Store.Invalidation
import Vash.Store.Failures

/-!
# Records ahead of the reclaimer

An invalidation queues a job that walks the tag index and deletes what the tag's
new generation left behind. Whatever is behind must still be ahead of the walk: the
cursor of a job only moves forward, and a job is gone once its range ran out.

* `no_record_is_leaked` — over every run whose writes come with references that are
  current or still ahead of a job when they are applied.
* `late_write_is_leaked` — a write prepared before an invalidation and applied
  behind the walk stays.
-/

namespace Vash.Store

open Library

/-! ### Ahead of a job -/

/-- A job for the tag has still to come to the record under `key`, and will find the
reference too old. -/
def Ahead (c : Config) (jobs : Table Nat Job) (key : Bytes) (ref : TagRef) : Prop :=
  ∃ job, jobs.get ref.tagId = some job ∧ ref.generation < job.targetGeneration ∧
    ∀ cursor, job.cursor = some cursor → cursor < indexKey c ref.tagId key

/-- The reference is to a tag that has a row; if the row has moved on, the record
under `key` is ahead of a job. -/
structure Covered (c : Config) (tags : Table Bytes TagRow) (jobs : Table Nat Job) (key : Bytes)
    (ref : TagRef) : Prop where
  known : ∃ name row, tags.get name = some row ∧ row.id = ref.tagId
  ahead : ∀ name row, tags.get name = some row → row.id = ref.tagId →
    ref.generation < row.generation → Ahead c jobs key ref

/-- The rule that every reference is covered. -/
def covers (c : Config) (t : Tables) : Rule :=
  fun key _ refs => ∀ ref ∈ refs, Covered c t.tags t.jobs key ref

theorem covers_admits (eng : Engine) (t : Tables) : Admits eng (covers eng.config t) :=
  ⟨fun _ _ mem => absurd mem List.not_mem_nil, fun _ _ _ covered => covered⟩

/-- Every record is covered, and every job goes for the generation of its tag. -/
structure Tables.Reclaimable (c : Config) (nextId : Nat) (t : Tables) : Prop
    extends t.Targeted nextId where
  covered : t.Respect (covers c t)

/-! ### Rows -/

section Rows

variable {c : Config} {tags : Table Bytes TagRow} {jobs : Table Nat Job} {n : Nat} {name : Bytes}
  {key : Bytes} {ref : TagRef} {t t' : Tables}

/-- A row under a new id is about none of the references. -/
theorem Covered.create (ids : IdsBelow tags n) (absent : tags.get name = none) (start : Nat)
    (covered : Covered c tags jobs key ref) :
    Covered c (tags.put name ⟨n, start⟩) jobs key ref := by
  obtain ⟨name', row', found', id'⟩ := covered.known
  refine ⟨⟨name', row', ?_, id'⟩, ?_⟩
  · rw [Table.get_put_of_ne, found']
    rintro rfl
    rw [absent] at found'
    cases found'
  · intro name'' row'' found'' id'' lt
    rw [Table.get_put] at found''
    split at found''
    · obtain rfl := Option.some.inj found''
      have below := ids.below name' row' found'
      change n = ref.tagId at id''
      omega
    · exact covered.ahead name'' row'' found'' id'' lt

/-- A raised row has queued a job that everything is ahead of. -/
theorem Covered.raise (ids : IdsBelow tags n) {row : TagRow} (present : tags.get name = some row)
    (generation : Nat) (covered : Covered c tags jobs key ref) :
    Covered c (tags.put name ⟨row.id, generation⟩) (jobs.put row.id (.new generation)) key ref := by
  obtain ⟨name', row', found', id'⟩ := covered.known
  by_cases same : ref.tagId = row.id
  · refine ⟨⟨name, _, Table.get_put_self _ _ _, same.symm⟩, ?_⟩
    intro name'' row'' found'' id'' lt
    rw [Table.get_put] at found''
    split at found''
    · obtain rfl := Option.some.inj found''
      refine ⟨.new generation, by rw [same, Table.get_put_self], lt, fun cursor absurd => ?_⟩
      cases absurd
    · rename_i other
      exact absurd (ids.distinct name'' name row'' row found'' present (by omega)) other
  · refine ⟨⟨name', row', ?_, id'⟩, ?_⟩
    · rw [Table.get_put_of_ne, found']
      rintro rfl
      rw [present] at found'
      obtain rfl := Option.some.inj found'
      exact same id'.symm
    · intro name'' row'' found'' id'' lt
      rw [Table.get_put] at found''
      split at found''
      · obtain rfl := Option.some.inj found''
        exact absurd id''.symm same
      · obtain ⟨job, queued, target, cursor⟩ := covered.ahead name'' row'' found'' id'' lt
        exact ⟨job, by rwa [Table.get_put_of_ne same], target, cursor⟩

theorem reclaimable_keptByRows : KeptByRows fun n t => t.Reclaimable c n := by
  intro t t' n k n' held move room
  refine ⟨targeted_keptByRows held.toTargeted move room, ?_⟩
  cases move with
  | same => exact held.covered
  | create absent start =>
    exact fun key r found ref mem => (held.covered key r found ref mem).create held.ids absent start
  | raise present lt =>
    exact fun key r found ref mem => (held.covered key r found ref mem).raise held.ids present _

/-- Records go; rows and jobs stay. -/
theorem Tables.Reclaimable.of_subset (held : t.Reclaimable c n) (tags : t'.tags = t.tags)
    (jobs : t'.jobs = t.jobs)
    (sub : ∀ key r, t'.main.get key = some r → t.main.get key = some r) : t'.Reclaimable c n := by
  refine ⟨held.same tags jobs, ?_⟩
  intro key r found ref mem
  rw [tags, jobs]
  exact held.covered key r (sub key r found) ref mem

end Rows

/-! ### Jobs -/

section Jobs

variable {eng : Engine} {base spent : Nat} {s : Txn}

/-- A record job stores what is covered, and leaves rows and jobs alone. -/
theorem recordJob_covers {op : WriteOp} (record : op.isRecord = true)
    (held : s.tables.Reclaimable eng.config s.counters.nextId)
    (respects : ∀ p ∈ op.prepared, p.Respects (covers eng.config s.tables)) :
    Leaves (apply eng op)
      (fun s' => s'.tables.Reclaimable eng.config s'.counters.nextId ∧
        s'.counters.nextId = s.counters.nextId) s := by
  have stores := apply_stores (covers_admits eng s.tables) record respects s held.covered
  have after : ∀ {s' : Txn}, s'.tables.Respect (covers eng.config s.tables) → s.Frames s' →
      s'.tables.Reclaimable eng.config s'.counters.nextId ∧
        s'.counters.nextId = s.counters.nextId := by
    intro s' respect frames
    refine ⟨⟨?_, ?_⟩, frames.nextId⟩
    · rw [frames.nextId]
      exact held.same frames.tags frames.jobs
    · intro key r found ref mem
      rw [frames.tags, frames.jobs]
      exact respect key r found ref mem
  exact (Leaves.and stores (.always (recordJob_frame record))).imp fun _ h => after h.1 h.2

/-- A flush leaves no record and no job. -/
theorem flushOp_covers {c : Config} (held : s.tables.Reclaimable c s.counters.nextId) :
    wp (flushOp eng)
      (fun _ s' => s'.tables.Reclaimable c s'.counters.nextId ∧
        s'.counters.nextId = s.counters.nextId) Breaks s := by
  refine flushOp_spec.imp fun _ s' flushed => ?_
  rw [flushed.counters]
  refine ⟨⟨held.flushed flushed.tags flushed.jobs, ?_⟩, rfl⟩
  intro key r found
  rw [flushed.main] at found
  cases found

/-- A job whose writes are covered keeps every record covered. -/
theorem apply_covers {op : WriteOp}
    (held : Within (fun n t => t.Reclaimable eng.config n) base spent s)
    (respects : ∀ p ∈ op.prepared, p.Respects (covers eng.config s.tables)) :
    Leaves (apply eng op)
      (Within (fun n t => t.Reclaimable eng.config n) base (spent + op.tagCount)) s := by
  cases record : op.isRecord with
  | true => exact held.of_kept _ fun covered => recordJob_covers record covered respects
  | false =>
    by_cases flushes : op = .flush
    · subst flushes
      exact held.of_kept _ fun covered =>
        (flushOp_covers covered).stops fun _ _ => .inl
    · exact (rowBudget_tags reclaimable_keptByRows).apply record flushes spent s held

end Jobs

/-! ### The passes -/

/-- What a batch of a sorted list leaves over comes after all of it. -/
theorem mem_of_not_mem_take {α : Type} {R : α → α → Prop} {l : List α} (sorted : l.Pairwise R)
    {n : Nat} (positive : 0 < n) {a : α} (mem : a ∈ l) (beyond : a ∉ l.take n) :
    (l.take n).length = n ∧ ∃ last, (l.take n).getLast? = some last ∧ R last a := by
  rw [← List.take_append_drop n l, List.pairwise_append] at sorted
  rw [← List.take_append_drop n l, List.mem_append] at mem
  have later := mem.resolve_left beyond
  have long : n < l.length := by
    by_contra short
    rw [List.drop_eq_nil_of_le (by omega)] at later
    cases later
  have full : (l.take n).length = n := by simp; omega
  have nonempty : l.take n ≠ [] := by
    intro empty
    rw [empty] at full
    simp at full
    omega
  exact ⟨full, _, List.getLast?_eq_some_getLast nonempty,
    sorted.2.2 _ (List.getLast_mem nonempty) _ later⟩

section Passes

variable {eng : Engine} {c : Config} {n : Nat} {t t' : Tables}

/-- A record ahead of a job is among the rows it has still to visit. -/
theorem Ahead.mem_jobRows {key : Bytes} {ref : TagRef} {job : Job}
    (row : t.tagidx.get (indexKey c ref.tagId key) = some key)
    (ahead : ∀ cursor, job.cursor = some cursor → cursor < indexKey c ref.tagId key) :
    (indexKey c ref.tagId key, key) ∈ jobRows ref.tagId job t.tagidx.rows := by
  refine List.mem_filter.mpr ⟨Table.get_eq_some_iff.mp row, Bool.and_eq_true_iff.mpr ⟨?_, ?_⟩⟩
  · cases at_ : job.cursor with
    | none =>
      refine decide_eq_true (Prod.Lex.le_iff.mpr (.inr ⟨rfl, Nat.zero_le _⟩))
    | some cursor => exact decide_eq_true (ahead cursor at_)
  · exact decide_eq_true (Prod.Lex.le_iff.mpr (.inr ⟨rfl, c.hash_le key⟩))

/-- A pass over a job: what is still behind afterwards is beyond its cursor. -/
theorem Tables.Reclaimable.reclaimed (held : t.Reclaimable c n) (indexed : t.TagIndexed c)
    {tagId budget : Nat} {job : Job} (queued : t.jobs.get tagId = some job)
    (tags : t'.tags = t.tags) (jobs : t'.jobs = t.jobs)
    (kept : ∀ key r, t'.main.get key = some r → t.main.get key = some r)
    (cleared : ∀ row ∈ reclaimBatch tagId job budget t, ∀ r, t'.main.get row.2 = some r →
      ∀ ref ∈ r.tags, ref.tagId = tagId → job.targetGeneration ≤ ref.generation) :
    { t' with
      jobs := jobsAfter tagId job (reclaimBatch tagId job budget t)
        (decide ((reclaimBatch tagId job budget t).length < budget)) t'.jobs }.Reclaimable c n := by
  refine ⟨held.toTargeted.reclaimed queued (reclaimBatch tagId job budget t) _ tags
    (by rw [jobs]), ?_⟩
  intro key r found ref mem
  have before := held.covered key r (kept key r found) ref mem
  refine ⟨by rw [tags]; exact before.known, ?_⟩
  intro name row present rowId behind
  rw [tags] at present
  obtain ⟨job', queued', target', ahead'⟩ := before.ahead name row present rowId behind
  by_cases same : ref.tagId = tagId
  · subst same
    obtain rfl := Option.some.inj (queued.symm.trans queued')
    have row : t.tagidx.get (indexKey c ref.tagId key) = some key :=
      (indexed ref.tagId key).mpr ⟨r, kept key r found, List.mem_map_of_mem mem⟩
    have ahead := Ahead.mem_jobRows row ahead'
    have beyond : (indexKey c ref.tagId key, key) ∉ reclaimBatch ref.tagId job budget t := by
      intro visited
      have := cleared _ visited r found ref mem rfl
      omega
    obtain ⟨full, last, at_, before⟩ := mem_of_not_mem_take
      (t.tagidx.sorted.filter _) (by omega : 0 < max budget 1) ahead beyond
    have running : ¬ (reclaimBatch ref.tagId job budget t).length < budget := by
      change (reclaimBatch ref.tagId job budget t).length = _ at full
      omega
    refine ⟨⟨job.targetGeneration, some last.1⟩, ?_, target', ?_⟩
    · change (reclaimBatch ref.tagId job budget t).getLast? = some last at at_
      dsimp only
      rw [jobsAfter, if_neg (by simpa using running), at_, Table.get_put_self]
    · intro cursor at_
      obtain rfl := Option.some.inj at_
      exact before
  · refine ⟨job', ?_, target', ahead'⟩
    dsimp only
    rw [jobsAfter, jobs]
    split
    · rw [Table.get_delete_of_ne same, queued']
    · rw [Table.get_put_of_ne same, queued']

/-- A drain only takes records. -/
theorem drainExpiryIndex_reclaimable {s : Txn} (budget : Nat) (accept : Victims)
    (held : s.tables.Reclaimable c s.counters.nextId) :
    wp (drainExpiryIndex eng budget accept)
      (fun _ s' => s'.tables.Reclaimable c s'.counters.nextId) Breaks s := by
  refine (drainExpiryIndex_thins budget accept).imp fun _ s' thinned => ?_
  rw [thinned.counters]
  exact held.of_subset thinned.tags thinned.jobs thinned.kept

/-- A pass of the reclaimer leaves nothing behind. -/
theorem reclaimStep_reclaimable {s : Txn} (budget : Nat)
    (held : s.tables.Reclaimable c s.counters.nextId) (indexed : s.tables.TagIndexed c) :
    wp (reclaimStep eng budget)
      (fun _ s' => s'.tables.Reclaimable c s'.counters.nextId) Breaks s := by
  refine (reclaimStep_spec budget).imp ?_
  rintro _ s' (⟨-, agrees⟩ | ⟨tagId, job, s₁, first, thinned, cleared, finished⟩)
  · rw [agrees.tables, agrees.counters]
    exact held
  · rw [finished.tables, finished.counters, thinned.counters]
    refine held.reclaimed indexed (Table.get_eq_some_iff.mpr (List.mem_of_head? first))
      thinned.tags thinned.jobs thinned.kept fun row visited r found ref mem own => ?_
    exact le_of_not_spent (cleared row visited r found) mem own

end Passes

/-! ### Batches -/

/-- The tag index is exact, over known keys, and jobs stand in their own rows. -/
structure Tables.Tracked (c : Config) (keys : Set Bytes) (t : Tables) : Prop where
  known : t.KeysIn keys
  tagKnown : t.TagKeysIn keys
  indexed : t.TagIndexed c
  jobs : t.JobsOk

/-- Whatever is done under the known keys. -/
def trackScope (keys : Set Bytes) : Scope := ⟨keys, Set.univ, False⟩

theorem Tables.Tracked.changes {c : Config} {keys : Set Bytes} (inj : Set.InjOn c.hash keys)
    {t t' : Tables} (held : t.Tracked c keys) (changes : Changes c (trackScope keys) t t') :
    t'.Tracked c keys := by
  refine Changes.invariant (fun t t' held change => ?_) held changes
  exact ⟨held.known.change change, held.tagKnown.change change,
    held.indexed.change inj held.known held.tagKnown change,
    Changes.jobsOk (.single change) held.jobs⟩

/-- The writes of a job come with references that are current, or ahead of a job that
will find them, when the job is applied. -/
def WriteJob.Timely (eng : Engine) (s : Txn) (job : WriteJob) : Prop :=
  ∀ p ∈ job.op.prepared, p.Respects (covers eng.config s.tables)

/-- The keys the jobs name are known. -/
def KeysKnown (keys : Set Bytes) (jobs : List WriteJob) : Prop :=
  ∀ job ∈ jobs, ∀ key ∈ job.op.keys, key ∈ keys

/-- Every record is covered, and can be found by the walk of a job. -/
structure Txn.Walked (c : Config) (keys : Set Bytes) (s : Txn) : Prop where
  reclaimable : s.tables.Reclaimable c s.counters.nextId
  tracked : s.tables.Tracked c keys

/-- Before the jobs still to come: ids are left for them, and each is timely. -/
structure JobsAhead (eng : Engine) (keys : Set Bytes) (todo : List WriteJob) (s : Txn) : Prop where
  walked : s.Walked eng.config keys
  room : s.counters.nextId + tagCount todo < 2 ^ 32
  timely : Along (afterJob eng) (WriteJob.Timely eng) s todo
  known : KeysKnown keys todo

section Batches

variable {eng : Engine} {keys : Set Bytes} {s s' : Txn}

theorem Txn.Walked.of_agrees {c : Config} (held : s.Walked c keys) (agrees : s.Agrees s') :
    s'.Walked c keys := by
  obtain ⟨reclaimable, tracked⟩ := held
  rw [← agrees.tables, ← agrees.counters] at reclaimable
  rw [← agrees.tables] at tracked
  exact ⟨reclaimable, tracked⟩

/-- One job of a batch. -/
theorem apply_walked (inj : Set.InjOn eng.config.hash keys) {job : WriteJob}
    {rest : List WriteJob} (held : JobsAhead eng keys (job :: rest) s) :
    wp (apply eng job.op) (fun _ s' => JobsAhead eng keys rest s')
      (fun e s' => e.poisonsTransaction = true ∨ JobsAhead eng keys rest s')
      { s with clock := job.clock } := by
  have count : tagCount (job :: rest) = job.op.tagCount + tagCount rest := by simp [tagCount]
  have room := held.room
  have start : Within (fun n t => t.Reclaimable eng.config n) s.counters.nextId 0
      { s with clock := job.clock } :=
    fun _ => ⟨held.walked.reclaimable, le_rfl⟩
  have covers := apply_covers start held.timely.1
  have moves : Leaves (apply eng job.op)
      (fun s' => Changes eng.config (trackScope keys) s.tables s'.tables)
      { s with clock := job.clock } :=
    apply_moves job.op (held.known job List.mem_cons_self) s.tables
      { s with clock := job.clock } .refl
  have spec : Leaves (apply eng job.op)
      (fun s' => s'.Walked eng.config keys ∧ s'.counters.nextId + tagCount rest < 2 ^ 32)
      { s with clock := job.clock } := by
    have after : ∀ {s' : Txn},
        Within (fun n t => t.Reclaimable eng.config n) s.counters.nextId (0 + job.op.tagCount) s' →
        Changes eng.config (trackScope keys) s.tables s'.tables →
        s'.Walked eng.config keys ∧ s'.counters.nextId + tagCount rest < 2 ^ 32 := by
      intro s' covered changes
      obtain ⟨reclaimable, below⟩ := covered (by omega)
      exact ⟨⟨reclaimable, held.walked.tracked.changes inj changes⟩, by omega⟩
    exact (covers.and moves).imp fun _ h => after h.1 h.2
  have next : ∀ {s' : Txn}, s' = afterJob eng s job ∧ s'.Walked eng.config keys ∧
      s'.counters.nextId + tagCount rest < 2 ^ 32 → JobsAhead eng keys rest s' := by
    rintro _ ⟨rfl, walked, room⟩
    exact ⟨walked, room, held.timely.2, fun job mem => held.known job (List.mem_cons_of_mem _ mem)⟩
  exact (apply_afterJob spec).mono (fun _ _ => next) fun _ _ => Or.imp_right next

theorem walked_keptByDrains (inj : Set.InjOn eng.config.hash keys) :
    KeptByDrains eng (Txn.Walked eng.config keys) where
  agrees agrees held := held.of_agrees agrees
  drain budget accept := by
    intro s held
    have moves : Leaves (drainExpiryIndex eng budget accept)
        (fun s' => Changes eng.config (trackScope keys) s.tables s'.tables) s :=
      drainExpiryIndex_moves budget (fun _ => Set.mem_univ (s.clock 0)) .refl
    refine ((drainExpiryIndex_reclaimable budget accept held.reclaimable).and moves).mono
      (fun _ s' h => ⟨h.1, held.tracked.changes inj h.2⟩) fun _ _ h => .inl h.1

theorem reclaimStep_walked (inj : Set.InjOn eng.config.hash keys) (budget : Nat) :
    Preserves (Txn.Walked eng.config keys) (fun e s => Breaks e s ∨ s.Walked eng.config keys)
      (reclaimStep eng budget) := by
  intro s held
  have moves : Leaves (reclaimStep eng budget)
      (fun s' => Changes eng.config (trackScope keys) s.tables s'.tables) s :=
    reclaimStep_moves budget held.tracked.jobs False.elim .refl
  refine ((reclaimStep_reclaimable budget held.reclaimable held.tracked.indexed).and moves).mono
    (fun _ s' h => ⟨h.1, held.tracked.changes inj h.2⟩) fun _ _ h => .inl h.1

end Batches

/-! ### Shards -/

/-- Between transactions: rows and registry are together, every record is covered, and
can be found by the walk of a job. -/
structure Shard.Walked (keys : Set Bytes) (sh : Shard) : Prop where
  tags : sh.TagsOk
  walked : (sh.begin []).Walked sh.engine.config keys

/-- The jobs of an event that is committed are timely. -/
def ShardEvent.Timely (sh : Shard) : ShardEvent → Prop
  | .turn t => (commitBatch sh t.batch).1 = .ok () →
      Along (afterJob sh.engine) (WriteJob.Timely sh.engine)
        (logged engineCall (sh.begin t.batch.faults)) t.batch.jobs
  | .restart => True

/-- The keys an event names. -/
def ShardEvent.keys : ShardEvent → List Bytes
  | .turn t => t.batch.jobs.flatMap fun job => job.op.keys
  | .restart => []

section Shards

variable {keys : Set Bytes} {sh sh' : Shard}

/-- What holds of the rows of a shard and of its records. -/
theorem Shard.Walked.of_tables (tags : sh'.TagsOk) {s : Txn}
    (walked : s.Walked sh'.engine.config keys) (tables : sh'.tables = s.tables) :
    sh'.Walked keys := by
  refine ⟨tags, ⟨?_, ?_⟩⟩
  · change sh'.tables.Reclaimable _ sh'.counters.nextId
    obtain ⟨⟨-, targets⟩, covered⟩ := walked.reclaimable
    rw [← tables] at covered targets
    exact ⟨⟨tags.ok.ids, targets⟩, covered⟩
  · change sh'.tables.Tracked _ keys
    rw [tables]
    exact walked.tracked

theorem Shard.Walked.begin (held : sh.Walked keys) (faults : List (Option Fault)) :
    (sh.begin faults).Walked sh.engine.config keys :=
  ⟨held.walked.reclaimable, held.walked.tracked⟩

theorem commitBatch_walked (inj : Set.InjOn sh.engine.config.hash keys) (held : sh.Walked keys)
    {turn : Turn} (left : ShardEvent.IdsLeft sh (.turn turn))
    (timely : ShardEvent.Timely sh (.turn turn)) (known : KeysKnown keys turn.batch.jobs) :
    (commitBatch sh turn.batch).2.2.Walked keys := by
  have tags := (commitBatch_tagsKept held.tags turn.batch left).ok
  have config := commitBatch_config sh turn.batch
  rcases ended : commitBatch sh turn.batch with ⟨_ | _, replies, sh'⟩
  · -- Nothing changed on disk.
    rw [ended] at tags config
    refine .of_tables (s := sh.begin []) tags ?_ (commitBatch_lost ended).tables
    rw [config]
    exact held.walked
  · rw [ended] at tags config
    have start : ∀ s₀, engineCall (sh.begin turn.batch.faults) = .ok () s₀ →
        JobsAhead sh.engine keys turn.batch.jobs s₀ := by
      intro s₀ opened
      have along := timely (by rw [ended])
      have agrees : (sh.begin turn.batch.faults).Agrees s₀ := engineCall_spec.of_ok opened
      rw [logged, opened] at along
      exact ⟨(held.begin _).of_agrees agrees, by rw [agrees.counters]; exact left, along, known⟩
    obtain ⟨s, level, rfl, walked⟩ := commitBatch_induction ended start
      (fun job rest s => apply_walked inj) (fun _ ahead => ahead.walked) (walked_keptByDrains inj)
      (reclaimStep_walked inj)
    exact .of_tables tags (config.symm ▸ walked) rfl

/-- Freeing space only takes records. -/
theorem Shard.Walked.freed (inj : Set.InjOn sh.engine.config.hash keys) (held : sh.Walked keys)
    (ended : Freed sh sh') : sh'.Walked keys := by
  cases ended with
  | aborted kept => exact .of_tables (held.tags.aside kept).1.ok held.walked rfl
  | committed opened closed kept =>
    have walked := freed_induction opened closed (held.begin _) (walked_keptByDrains inj)
    refine .of_tables (held.tags.aside kept).2.ok ?_ rfl
    rw [Shard.commit_config]
    exact walked

theorem Shard.Walked.step (inj : Set.InjOn sh.engine.config.hash keys) (held : sh.Walked keys)
    {event : ShardEvent} (left : event.IdsLeft sh) (timely : event.Timely sh)
    (known : ∀ key ∈ event.keys, key ∈ keys) : (sh.step event).Walked keys := by
  cases event with
  | turn turn =>
    have known : KeysKnown keys turn.batch.jobs := fun job mem key named =>
      known key (List.mem_flatMap.mpr ⟨job, mem, named⟩)
    refine (writerTurn_freed (fun sh' => sh'.Walked keys ∧ sh'.engine.config = sh.engine.config)
      ?_ ?_ ⟨commitBatch_walked inj held left timely known, commitBatch_config _ _⟩ _ _).1
    · rintro sh₁ sh₂ ⟨held, config⟩ ended
      exact ⟨held.freed (config ▸ inj) ended, ended.config.trans config⟩
    · rintro sh₁ ⟨held, config⟩
      exact ⟨⟨⟨⟨held.tags.mirrors, held.tags.ok.ids⟩, held.tags.room⟩, held.begin []⟩, config⟩
  | restart =>
    exact .of_tables (held.tags.step left).ok held.walked rfl

theorem Shard.Walked.create (config : Config) (keys : Set Bytes) :
    (Shard.create config).Walked keys := by
  refine ⟨.create config, ⟨⟨⟨(Shard.TagsOk.create config).ok.ids, ?_⟩, ?_⟩, .of_empty rfl,
    .of_empty rfl, .of_empty rfl rfl, .created⟩⟩
  · intro id job queued
    cases queued
  · intro key r found
    cases found

end Shards

/-- The keys the events of a run name. -/
def eventKeys (events : List ShardEvent) : Set Bytes :=
  { key | key ∈ events.flatMap ShardEvent.keys }

/-- In every state of every run of timely writes, under keys whose hashes are distinct
and while ids are left: a record with a reference behind the row of its tag is ahead
of a job for the tag. -/
theorem no_record_is_leaked (config : Config) (events : List ShardEvent)
    (distinct : Set.InjOn config.hash (eventKeys events))
    (left : Along Shard.step ShardEvent.IdsLeft (.create config) events)
    (timely : Along Shard.step ShardEvent.Timely (.create config) events)
    (key : Bytes) (r : Record) (stored : (Shard.after config events).tables.main.get key = some r)
    (ref : TagRef) (carried : ref ∈ r.tags) (name : Bytes) (row : TagRow)
    (registered : (Shard.after config events).tables.tags.get name = some row)
    (named : row.id = ref.tagId) (behind : ref.generation < row.generation) :
    ∃ job, (Shard.after config events).tables.jobs.get ref.tagId = some job ∧
      ref.generation < job.targetGeneration ∧
      ∀ cursor, job.cursor = some cursor → cursor < indexKey config ref.tagId key := by
  have known : Along Shard.step (fun _ event => ∀ key ∈ event.keys, key ∈ eventKeys events)
      (.create config) events :=
    along_of_forall fun _ event mem key named => List.mem_flatMap.mpr ⟨event, mem, named⟩
  have held : (Shard.after config events).Walked (eventKeys events) ∧
      (Shard.after config events).engine.config = config := by
    refine run_invariant (I := fun sh => sh.Walked (eventKeys events) ∧ sh.engine.config = config)
      ?_ ⟨.create config _, rfl⟩ ((left.and timely).and known)
    rintro sh event ⟨held, same⟩ ⟨⟨left, timely⟩, known⟩
    exact ⟨held.step (same ▸ distinct) left timely known, (Shard.step_config sh event).trans same⟩
  have covered := held.1.walked.reclaimable.covered key r stored ref carried
  have ahead := covered.ahead name row registered named behind
  rw [held.2] at ahead
  exact ahead

/-! ### Late writes -/

instance decidableAhead (c : Config) (jobs : Table Nat Job) (key : Bytes) (ref : TagRef) :
    Decidable (Ahead c jobs key ref) :=
  match queued : jobs.get ref.tagId with
  | none => .isFalse fun ⟨_, found, _⟩ => by
    rw [queued] at found
    cases found
  | some job => decidable_of_iff
      (ref.generation < job.targetGeneration ∧
        ∀ cursor ∈ job.cursor, cursor < indexKey c ref.tagId key) (by
        unfold Ahead
        rw [queued]
        simp only [Option.some.injEq, exists_eq_left', Option.mem_def])

instance decidableCovered (c : Config) (tags : Table Bytes TagRow) (jobs : Table Nat Job)
    (key : Bytes) (ref : TagRef) : Decidable (Covered c tags jobs key ref) :=
  decidable_of_iff
    ((∃ row ∈ tags.rows, row.2.id = ref.tagId) ∧
      ∀ row ∈ tags.rows, row.2.id = ref.tagId → ref.generation < row.2.generation →
        Ahead c jobs key ref) (by
    constructor
    · rintro ⟨⟨row, mem, id⟩, ahead⟩
      exact ⟨⟨row.1, row.2, Table.get_eq_some_iff.mpr mem, id⟩, fun name row found =>
        ahead (name, row) (Table.get_eq_some_iff.mp found)⟩
    · rintro ⟨⟨name, row, found, id⟩, ahead⟩
      exact ⟨⟨(name, row), Table.get_eq_some_iff.mp found, id⟩, fun row mem =>
        ahead row.1 row.2 (Table.get_eq_some_iff.mpr mem)⟩)

instance decidableJobTimely (eng : Engine) (s : Txn) (job : WriteJob) :
    Decidable (WriteJob.Timely eng s job) :=
  inferInstanceAs (Decidable (∀ p ∈ job.op.prepared, ∀ ref ∈ p.tags,
    Covered eng.config s.tables.tags s.tables.jobs p.key ref))

instance decidableTimely (sh : Shard) : ∀ event, Decidable (ShardEvent.Timely sh event)
  | .turn _ => inferInstanceAs (Decidable (_ → _))
  | .restart => .isTrue trivial

/-- A write, an invalidation, and a second write prepared before it. -/
def chasedEvents : List ShardEvent :=
  taggedEvents ++ [.turn invalidatingTurn, .of (.set [settledSet [8] never (some ⟨0, 0⟩)]) []]

/-- A write prepared before an invalidation and applied while its job is at the start of
its walk is ahead of it. -/
theorem no_record_is_leaked_chased :
    Along Shard.step ShardEvent.Timely (.create (firstByteConfig 1000)) chasedEvents ∧
    ∃ job, (Shard.after (firstByteConfig 1000) chasedEvents).tables.jobs.get 0 = some job ∧
      0 < job.targetGeneration ∧ ∀ cursor, job.cursor = some cursor →
        cursor < indexKey (firstByteConfig 1000) 0 [8] := by
  refine ⟨by decide +kernel, no_record_is_leaked (firstByteConfig 1000) chasedEvents ?_
    (by decide +kernel) (by decide +kernel) [8]
    ((settledSet [8] never (some ⟨0, 0⟩)).record.patchCas 2) (by decide +kernel) ⟨0, 0⟩
    (by decide +kernel) [1] ⟨0, 1⟩ (by decide +kernel) rfl (by decide)⟩
  exact fun a first b second => (by decide +kernel : ∀ a ∈ chasedEvents.flatMap ShardEvent.keys,
    ∀ b ∈ chasedEvents.flatMap ShardEvent.keys,
      (firstByteConfig 1000).hash a = (firstByteConfig 1000).hash b → a = b) a first b second

/-- The passes of a turn without jobs. -/
def reclaimingTurn : Turn := ⟨⟨[], some mildMaintenance, []⟩, 8, fun _ => ⟨fun _ => 200, []⟩⟩

/-- A write whose reference was resolved before the invalidation and that is applied once
the job is gone: its record is behind its tag, and no job will come to it. -/
theorem late_write_is_leaked :
    let sh := Shard.after (firstByteConfig 1000) taggedEvents
    let sh' := Shard.after (firstByteConfig 1000) (taggedEvents ++ [.turn invalidatingTurn,
      .turn reclaimingTurn, .of (.set [settledSet [8] never (some ⟨0, 0⟩)]) []])
    sh.engine.registry.resolve [[1]] = .ok [⟨0, 0⟩] ∧
    sh'.tables.main.get [8] = some ((settledSet [8] never (some ⟨0, 0⟩)).record.patchCas 2) ∧
    sh'.tables.tags.get [1] = some ⟨0, 1⟩ ∧ sh'.tables.jobs.get 0 = none := by
  decide +kernel

end Vash.Store
