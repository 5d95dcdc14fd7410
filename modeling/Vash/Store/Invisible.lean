import Vash.Store.Stored
import Vash.Store.TagJobs
import Vash.Store.Invalidation
import Vash.Store.IndexInvariants
import Vash.Store.Failures

/-!
# Background passes that no read sees

A sweep and a reclaim pass delete records in the transaction of the jobs before
them, with RAM as it was before the batch. A read after the commit answers as if they
had not run if what they delete is dead by what the batch makes durable.

* `Shard.Settled` — no record is ahead of RAM, and reclaim jobs go for durable
  generations; kept by every event while ids and epochs are left.
* `passes_are_invisible_iff` — a batch with its passes against the same batch without.
* `Shard.Settled.takesDead` — in a settled shard no read sees the passes.
* `reclaim_takes_a_live_record` — what a reclaim job does to the records of a tag that
  got its id a second time.
-/

namespace Vash.Store

open Library

/-! ### Stamps -/

/-- The record was stamped by RAM at this epoch and these rows, or earlier. -/
def stamped (epoch : Nat) (tags : Table Bytes TagRow) : Rule := fun _ stamp refs =>
  stamp ≤ epoch ∧ ∀ ref ∈ refs, ∃ name row, tags.get name = some row ∧ row.id = ref.tagId ∧
    ref.generation ≤ row.generation

section Stamps

variable {epoch epoch' : Nat} {tags tags' : Table Bytes TagRow}

theorem stamped_admits (eng : Engine) : Admits eng (stamped eng.epoch tags) :=
  ⟨fun _ => ⟨le_rfl, fun _ mem => absurd mem List.not_mem_nil⟩, fun _ _ _ held => ⟨le_rfl, held.2⟩⟩

/-- Epochs rise and rows grow. -/
theorem stamped_mono (later : epoch ≤ epoch') (grows : Grows tags tags') {key : Bytes} {stamp : Nat}
    {refs : List TagRef} (held : stamped epoch tags key stamp refs) :
    stamped epoch' tags' key stamp refs := by
  refine ⟨held.1.trans later, fun ref mem => ?_⟩
  obtain ⟨name, row, found, rowId, le⟩ := held.2 ref mem
  obtain ⟨row', found', same, le'⟩ := grows name row found
  exact ⟨name, row', found', same.trans rowId, le.trans le'⟩

end Stamps

/-! ### Transactions -/

/-- What the passes rely on, in a transaction on the shard `sh`: records are not ahead
of RAM, reclaim jobs go for durable generations, and the epoch to be shown is the
durable one. -/
structure Txn.Settled (sh : Shard) (s : Txn) : Prop where
  targeted : s.tables.Targeted s.counters.nextId
  stamped : s.tables.Respect (stamped sh.engine.epoch sh.tables.tags)
  shown : (s.effects.foldl Engine.publishEffect sh.engine).epoch = s.tables.epoch.getD 0
  later : sh.engine.epoch ≤ s.tables.epoch.getD 0

/-- Before the jobs still to come: ids and epochs are left, and their writes were stamped
before. -/
structure JobsSettled (sh : Shard) (todo : List WriteJob) (s : Txn) : Prop where
  settled : s.Settled sh
  room : s.counters.nextId + tagCount todo < 2 ^ 32
  epochs : .flush ∈ todo.map WriteJob.op → sh.engine.epoch + 1 < 2 ^ 32
  writes : ∀ job ∈ todo, ∀ p ∈ job.op.prepared,
    p.Respects (Store.stamped sh.engine.epoch sh.tables.tags)

section Transactions

variable {sh : Shard} {s s' : Txn}

theorem Txn.Settled.of_loses {dead : Bytes → Record → Prop} (held : s.Settled sh)
    (lost : s.Loses dead s')
    (targeted : s'.tables.Targeted s'.counters.nextId) : s'.Settled sh where
  targeted := targeted
  stamped := held.stamped.of_subset lost.kept
  shown := by rw [lost.effects, lost.epoch, held.shown]
  later := by rw [lost.epoch]; exact held.later

theorem Txn.Settled.of_agrees (held : s.Settled sh) (agrees : s.Agrees s') : s'.Settled sh := by
  have lost : s.Thins (fun _ _ => True) s' := .of_agrees agrees
  refine held.of_loses lost.toLoses ?_
  rw [agrees.tables, agrees.counters]
  exact held.targeted

/-- A record job stores stamps only. -/
theorem recordJob_settled {op : WriteOp} (record : op.isRecord = true) (held : s.Settled sh)
    (writes : ∀ p ∈ op.prepared, p.Respects (stamped sh.engine.epoch sh.tables.tags)) :
    Leaves (apply sh.engine op)
      (fun s' => s'.Settled sh ∧ s'.counters.nextId = s.counters.nextId) s := by
  have stores := apply_stores (stamped_admits sh.engine) record writes s held.stamped
  have after : ∀ {s' : Txn}, s'.tables.Respect (stamped sh.engine.epoch sh.tables.tags) →
      s.Frames s' → s'.Settled sh ∧ s'.counters.nextId = s.counters.nextId := by
    intro s' respect frames
    refine ⟨⟨?_, respect, ?_, ?_⟩, frames.nextId⟩
    · rw [frames.nextId]
      exact held.targeted.same frames.tags frames.jobs
    · rw [frames.effects, frames.epoch, held.shown]
    · rw [frames.epoch]
      exact held.later
  exact (Leaves.and stores (.always (recordJob_frame record))).imp fun _ h => after h.1 h.2

/-- A flush stores the epoch it publishes. -/
theorem flushOp_settled (held : s.Settled sh) (left : sh.engine.epoch + 1 < 2 ^ 32) :
    wp (flushOp sh.engine) (fun _ s' => s'.Settled sh ∧ s'.counters.nextId = s.counters.nextId)
      Breaks s := by
  refine flushOp_spec.imp fun _ s' flushed => ⟨⟨?_, ?_, ?_, ?_⟩, by rw [flushed.counters]⟩
  · rw [flushed.counters]
    exact held.targeted.flushed flushed.tags flushed.jobs
  · intro key r found
    rw [flushed.main] at found
    cases found
  · rw [flushed.effects, List.foldl_append, flushed.epoch]
    rfl
  · rw [flushed.epoch, Option.getD_some, wrappingAdd32_of_lt left]
    exact Nat.le_succ _

/-- A tag job keeps reclaim jobs at durable generations. -/
theorem tagJob_settled {op : WriteOp} (other : op.isRecord = false) (plain : op ≠ .flush)
    (held : s.Settled sh) (room : s.counters.nextId + op.tagCount < 2 ^ 32) :
    Leaves (apply sh.engine op)
      (fun s' => s'.Settled sh ∧ s'.counters.nextId ≤ s.counters.nextId + op.tagCount) s := by
  have start : Within (fun n t => t.Targeted n) s.counters.nextId 0 s :=
    fun _ => ⟨held.targeted, le_rfl⟩
  have rows : Leaves (apply sh.engine op)
      (Within (fun n t => t.Targeted n) s.counters.nextId (0 + op.tagCount)) s :=
    (rowBudget_tags targeted_keptByRows).apply other plain 0 s start
  have queued : Queued s.effects 0 s := ⟨[], by simp, le_rfl, by simp⟩
  have effects : Leaves (apply sh.engine op) (Queued s.effects (0 + op.tagCount)) s :=
    creationBudget_tags.apply other plain 0 s queued
  have after : ∀ {s' : Txn},
      Within (fun n t => t.Targeted n) s.counters.nextId (0 + op.tagCount) s' →
      Queued s.effects (0 + op.tagCount) s' →
      s'.tables.main = s.tables.main ∧ s'.tables.epoch = s.tables.epoch →
      s'.Settled sh ∧ s'.counters.nextId ≤ s.counters.nextId + op.tagCount := by
    rintro s' within ⟨new, effects, -, tags⟩ ⟨main, epoch⟩
    obtain ⟨targeted, below⟩ := within (by omega)
    refine ⟨⟨targeted, held.stamped.of_subset fun key r found => main ▸ found, ?_, ?_⟩, by omega⟩
    · rw [effects, List.foldl_append, (publishEffects_tags tags _).1, epoch, held.shown]
    · rw [epoch]
      exact held.later
  exact ((rows.and effects).and (.always (tagJob_frame other plain))).imp
    fun _ h => after h.1.1 h.1.2 h.2

/-- One job of a batch. -/
theorem apply_settled {job : WriteJob} {rest : List WriteJob}
    (held : JobsSettled sh (job :: rest) s) :
    wp (apply sh.engine job.op) (fun _ s' => JobsSettled sh rest s')
      (fun e s' => e.poisonsTransaction = true ∨ JobsSettled sh rest s')
      { s with clock := job.clock } := by
  have count : tagCount (job :: rest) = job.op.tagCount + tagCount rest := by simp [tagCount]
  have room := held.room
  have before : Txn.Settled sh { s with clock := job.clock } :=
    ⟨held.settled.targeted, held.settled.stamped, held.settled.shown, held.settled.later⟩
  have next : ∀ {s' : Txn}, s'.Settled sh ∧
      s'.counters.nextId ≤ s.counters.nextId + job.op.tagCount → JobsSettled sh rest s' := by
    rintro s' ⟨settled, below⟩
    exact ⟨settled, by omega, fun mem => held.epochs (List.mem_cons_of_mem _ mem),
      fun job mem => held.writes job (List.mem_cons_of_mem _ mem)⟩
  have spec : Leaves (apply sh.engine job.op)
      (fun s' => s'.Settled sh ∧ s'.counters.nextId ≤ s.counters.nextId + job.op.tagCount)
      { s with clock := job.clock } := by
    have weaken : ∀ {s' : Txn}, s'.Settled sh ∧ s'.counters.nextId = s.counters.nextId →
        s'.Settled sh ∧ s'.counters.nextId ≤ s.counters.nextId + job.op.tagCount :=
      fun h => ⟨h.1, by omega⟩
    cases record : job.op.isRecord with
    | true =>
      exact (recordJob_settled record before (held.writes job List.mem_cons_self)).imp
        fun _ => weaken
    | false =>
      by_cases flushes : job.op = .flush
      · have left := held.epochs (flushes ▸ List.mem_cons_self)
        rw [flushes] at weaken ⊢
        exact (flushOp_settled before left).mono (fun _ _ => weaken) fun _ _ => .inl
      · exact tagJob_settled record flushes before (by change s.counters.nextId + _ < _; omega)
  exact spec.mono (fun _ _ => next) fun _ _ => Or.imp And.left next

theorem settled_keptByDrains (sh : Shard) : KeptByDrains sh.engine (Txn.Settled sh) where
  agrees agrees held := held.of_agrees agrees
  drain budget accept := by
    intro s held
    refine (drainExpiryIndex_thins budget accept).mono (fun _ s' thinned => ?_) fun _ _ => .inl
    refine held.of_loses thinned.toLoses ?_
    rw [thinned.counters]
    exact held.targeted.same thinned.tags thinned.jobs

theorem reclaimStep_settled (sh : Shard) (budget : Nat) :
    Preserves (Txn.Settled sh) (fun e s => Breaks e s ∨ s.Settled sh)
      (reclaimStep sh.engine budget) := by
  intro s held
  refine ((reclaimStep_loses budget).and (reclaimStep_spec budget)).mono ?_ fun _ _ h => .inl h.1
  rintro _ s' ⟨lost, ⟨-, agrees⟩ | ⟨tagId, job, s₁, first, thinned, -, finished⟩⟩
  · exact held.of_agrees agrees
  · refine held.of_loses lost ?_
    rw [lost.counters]
    refine held.targeted.reclaimed (Table.get_eq_some_iff.mpr (List.mem_of_head? first)) _ _
      lost.tags (by rw [finished.tables, thinned.jobs])

end Transactions

/-! ### Shards -/

/-- Between transactions: rows and registry are together, no record is ahead of RAM,
reclaim jobs go for durable generations, and RAM shows the durable epoch. -/
structure Shard.Settled (sh : Shard) : Prop where
  tags : sh.TagsOk
  settled : (sh.begin []).Settled sh

/-- The jobs find ids and epochs left, and their writes were stamped by RAM as it stood
at some time before. -/
structure Shard.Ready (sh : Shard) (jobs : List WriteJob) : Prop where
  ids : sh.counters.nextId + tagCount jobs < 2 ^ 32
  epochs : .flush ∈ jobs.map WriteJob.op → sh.engine.epoch + 1 < 2 ^ 32
  writes : ∀ job ∈ jobs, ∀ p ∈ job.op.prepared, p.Respects (stamped sh.engine.epoch sh.tables.tags)

/-- What an event keeps: the shard stays settled and the epoch does not fall. -/
structure SettledKept (sh sh' : Shard) : Prop where
  settled : sh'.Settled
  later : sh.engine.epoch ≤ sh'.engine.epoch

/-- The event finds the shard ready for it. -/
def ShardEvent.Ready (sh : Shard) : ShardEvent → Prop
  | .turn t => sh.Ready t.batch.jobs
  | .restart => True

section Shards

variable {sh sh' : Shard}

theorem Shard.Settled.epoch (held : sh.Settled) : sh.engine.epoch = sh.tables.epoch.getD 0 :=
  held.settled.shown

theorem Shard.Settled.begin (held : sh.Settled) (faults : List (Option Fault)) :
    (sh.begin faults).Settled sh :=
  ⟨held.settled.targeted, held.settled.stamped, held.settled.shown, held.settled.later⟩

theorem SettledKept.trans {sh'' : Shard} (first : SettledKept sh sh')
    (next : SettledKept sh' sh'') : SettledKept sh sh'' :=
  ⟨next.settled, first.later.trans next.later⟩

/-- A shard with the tables and the epoch of another. -/
theorem Shard.Settled.of_same (held : sh.Settled) (tags : sh'.TagsOk)
    (tables : sh'.tables = sh.tables) (epoch : sh'.engine.epoch = sh.engine.epoch) :
    SettledKept sh sh' := by
  have targets : ∀ id job, sh'.tables.jobs.get id = some job → ∃ name row,
      sh'.tables.tags.get name = some row ∧ row.id = id ∧
        job.targetGeneration = row.generation := by
    rw [tables]
    exact held.settled.targeted.targets
  have stamps := held.settled.stamped
  have shown := held.epoch
  refine ⟨⟨tags, ⟨⟨tags.ok.ids, targets⟩, ?_, ?_, ?_⟩⟩, epoch.ge⟩
  · change sh'.tables.Respect _
    rw [tables, epoch]
    exact stamps
  · change sh'.engine.epoch = sh'.tables.epoch.getD 0
    rw [tables, epoch, shown]
  · change sh'.engine.epoch ≤ sh'.tables.epoch.getD 0
    rw [tables, epoch, shown]

theorem Shard.commit_epoch (sh : Shard) (level : Pressure) (s : Txn) :
    ((sh.setPressure level).commit s).engine.epoch =
      (s.effects.foldl Engine.publishEffect sh.engine).epoch := by
  have published := congrArg Engine.epoch (publishEffects_pressure s.effects sh.engine level)
  exact published

theorem Txn.Settled.commit {level : Pressure} {s : Txn} (held : s.Settled sh)
    (kept : TagsKept sh ((sh.setPressure level).commit s)) :
    SettledKept sh ((sh.setPressure level).commit s) := by
  have epoch : ((sh.setPressure level).commit s).engine.epoch = s.tables.epoch.getD 0 :=
    (sh.commit_epoch level s).trans held.shown
  refine ⟨⟨kept.ok, ⟨held.targeted, fun key r found => ?_, epoch, epoch.le⟩⟩, epoch ▸ held.later⟩
  exact stamped_mono (epoch ▸ held.later) kept.grows (held.stamped key r found)

theorem JobsSettled.start (held : sh.Settled) {jobs : List WriteJob} (ready : sh.Ready jobs)
    {faults : List (Option Fault)} {s : Txn} (agrees : (sh.begin faults).Agrees s) :
    JobsSettled sh jobs s :=
  ⟨(held.begin _).of_agrees agrees, by rw [agrees.counters]; exact ready.ids, ready.epochs,
    ready.writes⟩

theorem commitBatch_settled (held : sh.Settled) {batch : Batch} (ready : sh.Ready batch.jobs) :
    SettledKept sh (commitBatch sh batch).2.2 := by
  have kept := commitBatch_tagsKept held.tags batch ready.ids
  rcases ended : commitBatch sh batch with ⟨_ | _, replies, sh'⟩
  · rw [ended] at kept
    have lost := commitBatch_lost ended
    exact held.of_same kept.ok lost.tables lost.epoch
  · rw [ended] at kept
    obtain ⟨s, level, rfl, settled⟩ := commitBatch_induction ended
      (fun _ opened => .start held ready (engineCall_spec.of_ok opened))
      (fun job rest s => apply_settled) (fun _ ahead => ahead.settled) (settled_keptByDrains sh)
      (reclaimStep_settled sh)
    exact settled.commit kept

theorem Shard.Settled.freed (held : sh.Settled) (ended : Freed sh sh') : SettledKept sh sh' := by
  cases ended with
  | aborted kept => exact held.of_same (held.tags.aside kept).1.ok rfl rfl
  | @committed faults budget clock s₀ s opened closed kept =>
    have settled := freed_induction opened closed (held.begin _) (settled_keptByDrains sh)
    have committed : SettledKept sh ((sh.setPressure sh.engine.pressure).commit s) :=
      settled.commit (held.tags.aside kept).2
    exact committed

/-- Every event the shard is ready for keeps it settled. -/
theorem Shard.Settled.step (held : sh.Settled) {event : ShardEvent} (ready : event.Ready sh) :
    SettledKept sh (sh.step event) := by
  cases event with
  | turn turn =>
    refine writerTurn_freed (SettledKept sh) (fun _ _ kept ended => kept.trans ?_)
      (fun _ kept => kept.trans ?_) (commitBatch_settled held ready) _ _
    · exact kept.settled.freed ended
    · have tags := kept.settled.tags
      exact kept.settled.of_same ⟨⟨tags.mirrors, tags.ok.ids⟩, tags.room⟩ rfl rfl
  | restart =>
    have left : ShardEvent.IdsLeft sh .restart := trivial
    exact held.of_same (held.tags.step left).ok rfl held.epoch.symm

/-- Over a run of events it is ready for, the shard stays settled. -/
theorem run_settled (held : sh.Settled) {events : List ShardEvent}
    (ready : Along Shard.step ShardEvent.Ready sh events) :
    SettledKept sh (run Shard.step sh events) :=
  run_invariant (fun _ _ kept ready => kept.trans (kept.settled.step ready)) ⟨held, le_rfl⟩ ready

theorem Shard.Settled.create (config : Config) : (Shard.create config).Settled := by
  refine ⟨.create config, ⟨⟨(Shard.TagsOk.create config).ok.ids, ?_⟩, ?_, rfl, le_rfl⟩⟩
  · intro id job queued
    cases queued
  · intro key r found
    cases found

end Shards

/-! ### Deadness -/

/-- The record is dead by what is durable: its deadline, the flush epoch, or the row of a
tag it carries. -/
def DeadIn (t : Tables) (nowMs : Nat) (r : Record) : Prop :=
  r.isExpired nowMs = true ∨ r.isFlushed (t.epoch.getD 0) = true ∨
    ∃ ref ∈ r.tags, ∃ name row, t.tags.get name = some row ∧ row.id = ref.tagId ∧
      ref.generation < row.generation

section Deadness

variable {sh : Shard} {s : Txn} {r : Record} {now nowMs : Nat}

/-- RAM that shows what is durable shows the record dead. -/
theorem DeadIn.not_alive (settled : sh.Settled) (dead : DeadIn sh.tables nowMs r) :
    r.isAlive nowMs sh.engine.epoch sh.engine.registry.generation = false := by
  rw [← Bool.not_eq_true]
  intro alive
  have parts := alive
  simp only [Record.isAlive, Bool.and_eq_true, Bool.not_eq_true'] at parts
  rcases dead with expired | flushed | ⟨ref, mem, name, row, found, rowId, lt⟩
  · rw [parts.1.1] at expired
    cases expired
  · rw [← settled.epoch, parts.1.2] at flushed
    cases flushed
  · have shown := Record.generation_of_isAlive alive mem
    rw [← rowId, Registry.generation, settled.tags.mirrors.byId name row found] at shown
    have same : row.generation = ref.generation := Option.some.inj shown
    omega

/-- What a reclaim pass takes is dead by what the transaction makes durable. -/
theorem Spent.deadIn (settled : s.Settled sh) (mirrors : sh.engine.registry.Mirrors sh.tables.tags)
    (grows : Grows sh.tables.tags s.tables.tags) {key : Bytes}
    (stored : s.tables.main.get key = some r) {tagId : Nat} {job : Job}
    (queued : s.tables.jobs.get tagId = some job) (later : now ≤ nowMs)
    (spent : Spent sh.engine tagId job.targetGeneration now r) : DeadIn s.tables nowMs r := by
  obtain ⟨stamp, refs⟩ := settled.stamped key r stored
  obtain ⟨ref, first, behind | dead⟩ := spent
  · have mem := List.mem_of_find?_eq_some first
    have carried : ref.tagId = tagId := by simpa using List.find?_some first
    obtain ⟨name, row, found, rowId, target⟩ := settled.targeted.targets tagId job queued
    exact .inr (.inr ⟨ref, mem, name, row, found, rowId.trans carried.symm, target ▸ behind⟩)
  · simp only [Record.isAlive, Bool.and_eq_false_iff, Bool.not_eq_false'] at dead
    rcases dead with (expired | flushed) | invalidated
    · exact .inl (Record.isExpired_mono later expired)
    · -- The stamp is behind RAM, and RAM is not ahead of the transaction.
      have durable := settled.later
      simp only [Record.isFlushed, decide_eq_true_eq] at flushed
      refine .inr (.inl ?_)
      simp only [Record.isFlushed, decide_eq_true_eq]
      omega
    · obtain ⟨ref, mem, differs⟩ := List.all_eq_false.mp invalidated
      obtain ⟨name, row, found, rowId, le⟩ := refs ref mem
      obtain ⟨row', found', same, le'⟩ := grows name row found
      have shown : sh.engine.registry.generation ref.tagId = some row.generation := by
        rw [← rowId, Registry.generation, mirrors.byId name row found]
        rfl
      rw [shown] at differs
      have other : row.generation ≠ ref.generation := by simpa using differs
      exact .inr (.inr ⟨ref, mem, name, row', found', same.trans rowId, by omega⟩)

end Deadness

/-! ### The passes of a batch -/

/-- The rows a job has still to visit. -/
def Tables.walk (t : Tables) (tagId : Nat) (job : Job) : List (IndexKey × Bytes) :=
  jobRows tagId job t.tagidx.rows

/-- The transaction behind the sweep of a batch. -/
def Maintenance.swept (m : Maintenance) (eng : Engine) (s : Txn) : Txn :=
  logged (sweep eng m.sweepBatch) { s with clock := m.clock }

/-- The transaction behind its reclaim pass, where an eviction begins. -/
def Maintenance.tidied (m : Maintenance) (eng : Engine) (s : Txn) : Txn :=
  logged (reclaimStep eng m.reclaimBatch) (m.swept eng s)

/-- What the passes of a batch take: a sweep the expired, a reclaim pass the spent among the
records it comes to, and from the hard watermark on an eviction whatever it comes to. -/
def Maintenance.Takes (m : Maintenance) (eng : Engine) (s : Txn) (key : Bytes)
    (r : Record) : Prop :=
  r.isExpired (m.clock 0) = true ∨
    (∃ tagId job, s.tables.jobs.rows.head? = some (tagId, job) ∧
      PassTakes eng tagId job m.reclaimBatch (m.clock 1) (m.swept eng s).tables key r) ∨
    m.level.atLeastHard = true ∧
      ∃ row ∈ (m.tidied eng s).tables.exp.rows.take (max m.evictBatch 1), row.2 = key

section Passes

variable {eng : Engine} {s : Txn}

/-- A sweep drops tag rows, and none of a record that is not expired: where records have
rows of their own. -/
theorem sweep_rows (budget : Nat) :
    wp (sweep eng budget)
      (fun _ s' =>
        (∀ entry key, s'.tables.tagidx.get entry = some key →
          s.tables.tagidx.get entry = some key) ∧
        (s.tables.TagIndexed eng.config → ∀ entry key r, s.tables.tagidx.get entry = some key →
          s.tables.main.get key = some r → r.isExpired (s.clock 0) = false →
            s'.tables.tagidx.get entry = some key)) Breaks s := by
  refine drainExpiryIndex_of_entries (fun _ _ breaks => breaks) fun s₁ agrees => ?_
  refine (wp.forEach (fun _ _ s' => (∀ key r, s'.tables.main.get key = some r →
      s.tables.main.get key = some r) ∧
    (∀ entry key, s'.tables.tagidx.get entry = some key →
      s.tables.tagidx.get entry = some key) ∧
    (s.tables.TagIndexed eng.config → ∀ entry key r, s.tables.tagidx.get entry = some key →
      s.tables.main.get key = some r → r.isExpired (s.clock 0) = false →
        s'.tables.tagidx.get entry = some key)) ?_ ?_).imp fun _ _ h => h.2
  · rw [agrees.tables]
    exact ⟨fun _ _ h => h, fun _ _ h => h, fun _ _ _ _ h _ _ => h⟩
  · rintro done row todo _ s' - ⟨records, rows, spared⟩
    refine wp.bind (takeVictim_spec row) fun _ s₃ outcome => ?_
    refine wp.bind update_breaks fun _ s₄ h₄ => wp.pure ?_
    rw [h₄.tables]
    rcases outcome with ⟨r, stored, may, h₃⟩ | ⟨-, h₃⟩
    · rw [h₃.tables]
      refine ⟨fun key r' found => records key r' (Table.get_of_delete found),
        fun entry key found => rows entry key (Table.get_of_deleteAll found),
        fun indexed entry key r' there stored' unexpired => ?_⟩
      rw [Table.get_deleteAll, if_neg]
      · exact spared indexed entry key r' there stored' unexpired
      · -- The rows dropped are those of a record that has expired.
        intro dropped
        obtain ⟨id, carried, rfl⟩ := List.mem_map.mp dropped
        have own := (indexed id row.2).mpr ⟨r, records _ _ stored, carried⟩
        obtain rfl := Option.some.inj (own.symm.trans there)
        obtain rfl := Option.some.inj ((records _ _ stored).symm.trans stored')
        have expired := (Bool.and_eq_true_iff.mp may).2
        rw [show r.isExpired (s.clock 0) = true from expired] at unexpired
        cases unexpired
    · rw [h₃.tables]
      exact ⟨records, rows, spared⟩

/-- What a sweep leaves to the reclaimer. -/
structure Swept (eng : Engine) (clock : Nat → Nat) (s s' : Txn) : Prop where
  thinned : s.Thins (fun _ r => r.isExpired (clock 0) = true) s'
  rows : ∀ entry key, s'.tables.tagidx.get entry = some key → s.tables.tagidx.get entry = some key
  spared : s.tables.TagIndexed eng.config → ∀ entry key r, s.tables.tagidx.get entry = some key →
    s.tables.main.get key = some r → r.isExpired (clock 0) = false →
      s'.tables.tagidx.get entry = some key
  clock : s'.clock 0 = clock 1

theorem sweep_swept (clock : Nat → Nat) (budget : Nat) :
    wp (sweep eng budget) (fun _ s' => Swept eng clock s s') Breaks { s with clock } := by
  refine (((drainExpiryIndex_thins budget .expiredOnly).and
    (drainExpiryIndex_clock budget .expiredOnly)).and (sweep_rows budget)).mono ?_ fun _ _ h => h.2
  rintro _ s' ⟨⟨thinned, clocked⟩, rows, spared⟩
  have lost := thinned.toLoses.mono fun _ _ _ drained => drained.2 rfl
  exact ⟨⟨⟨lost.kept, lost.gone, lost.tags, lost.epoch, lost.counters, lost.effects⟩,
    thinned.jobs⟩, rows, spared, by rw [clocked]⟩

/-- The rows ahead of a job after a sweep are some of those before. -/
theorem Swept.mem_walk {clock : Nat → Nat} {s' : Txn} (swept : Swept eng clock s s') {tagId : Nat}
    {job : Job} {row : IndexKey × Bytes} (mem : row ∈ s'.tables.walk tagId job) :
    row ∈ s.tables.walk tagId job := by
  obtain ⟨here, range⟩ := List.mem_filter.mp mem
  refine List.mem_filter.mpr ⟨?_, range⟩
  exact Table.get_eq_some_iff.mp (swept.rows _ _ (Table.get_eq_some_iff.mpr here))

/-- A pass in a transaction in which no call fails. -/
theorem logged_sound {α : Type} {action : TxnM α} {post : Txn → Prop}
    (sound : Preserves Txn.Sound (fun _ s => s.Sound) action) (start : s.Sound)
    (spec : wp action (fun _ s' => post s') Breaks s) :
    post (logged action s) ∧ (logged action s).Sound := by
  have both := spec.and (sound s start)
  unfold logged
  cases ran : action s with
  | ok a s' => exact both.of_ok ran
  | error e s' =>
    have failed := both.of_error ran
    exact absurd (failed.1.2.symm.trans failed.2.2) (by simp)

theorem swept_spec (eng : Engine) (m : Maintenance) (sound : s.Sound) :
    Swept eng m.clock s (m.swept eng s) ∧ (m.swept eng s).Sound :=
  logged_sound (drainExpiryIndex_sound eng m.sweepBatch .expiredOnly) sound
    (sweep_swept m.clock m.sweepBatch)

theorem maintain_sound {m : Maintenance} (sound : (m.tidied eng s).Sound) :
    maintain eng m s = (m.level, if m.level.atLeastHard then
      logged (evict eng m.evictBatch) (m.tidied eng s) else m.tidied eng s) := by
  unfold maintain applyPressure
  rw [show logged (reclaimStep eng m.reclaimBatch) (logged (sweep eng m.sweepBatch)
    { s with clock := m.clock }) = m.tidied eng s from rfl, engineCall_sound sound]

/-- The passes of a batch, on an engine that fails nothing. -/
theorem maintain_takes (eng : Engine) (m : Maintenance) (sound : s.Sound) :
    s.Loses (m.Takes eng s) (maintain eng m s).2 ∧ (maintain eng m s).2.Sound := by
  obtain ⟨swept, sound₁⟩ := swept_spec eng m sound
  obtain ⟨reclaimed, sound₂⟩ := logged_sound (reclaimStep_sound eng m.reclaimBatch) sound₁
    (reclaimStep_loses m.reclaimBatch)
  have lost : s.Loses (m.Takes eng s) (m.tidied eng s) := by
    refine (swept.thinned.toLoses.mono fun _ _ _ => .inl).trans (reclaimed.mono ?_)
    rintro key r - ⟨tagId, job, first, taken⟩
    rw [swept.thinned.jobs] at first
    rw [swept.clock] at taken
    exact .inr (.inl ⟨tagId, job, first, taken⟩)
  rw [maintain_sound sound₂]
  dsimp only
  split
  · rename_i hard
    obtain ⟨evicted, sound₃⟩ := logged_sound (drainExpiryIndex_sound eng m.evictBatch .anything)
      sound₂ (drainExpiryIndex_thins m.evictBatch .anything)
    refine ⟨lost.trans (evicted.toLoses.mono ?_), sound₃⟩
    rintro key r - ⟨⟨row, mem, named⟩, -⟩
    rw [pickVictims_anything] at mem
    exact .inr (.inr ⟨hard, row, mem, named⟩)
  · exact ⟨lost, sound₂⟩

/-- A pass in a transaction that is good in the end. -/
theorem logged_calm {α : Type} {action : TxnM α} (calm : Calm action)
    (good : (logged action s).broken = false) :
    s.broken = false ∧ logged action s.calm = (logged action s).calm := by
  have same := calm s
  revert good
  unfold logged
  cases ran : action s with
  | ok a s' =>
    intro good
    obtain ⟨before, again⟩ := same.of_ok ran good
    exact ⟨before, by rw [again]⟩
  | error e s' =>
    intro good
    obtain ⟨before, again⟩ := same.of_error ran good
    exact ⟨before, by rw [again]⟩

/-- The passes of a batch that is good in the end do what they do on an engine that fails
nothing. -/
theorem maintain_calm {m : Maintenance} (good : (maintain eng m s).2.broken = false) :
    s.broken = false ∧ (maintain eng m s.calm).2 = (maintain eng m s).2.calm := by
  have passes : (m.tidied eng s).broken = false →
      s.broken = false ∧ m.tidied eng s.calm = (m.tidied eng s).calm := by
    intro unbroken
    obtain ⟨unswept, reclaimed⟩ := logged_calm (reclaimStep_calm eng m.reclaimBatch) unbroken
    obtain ⟨before, swept⟩ := logged_calm (s := { s with clock := m.clock })
      (drainExpiryIndex_calm eng m.sweepBatch .expiredOnly) unswept
    refine ⟨before, reclaimed ▸ congrArg (logged (reclaimStep eng m.reclaimBatch)) swept⟩
  revert good
  rw [show maintain eng m s = applyPressure eng m (m.tidied eng s) from rfl,
    show maintain eng m s.calm = applyPressure eng m (m.tidied eng s.calm) from rfl]
  unfold applyPressure
  cases called : engineCall (m.tidied eng s) with
  | error e s' =>
    intro good
    rw [(engineCall_spec.of_error called).broken] at good
    cases good
  | ok a s' =>
    obtain ⟨unbroken, good', same⟩ := engineCall_ok called
    obtain ⟨before, calm⟩ := passes unbroken
    have sound : (m.tidied eng s).calm.Sound := ⟨rfl, unbroken⟩
    rw [calm, engineCall_sound sound, ← same]
    dsimp only
    intro good
    refine ⟨before, ?_⟩
    split
    · rename_i hard
      rw [if_pos hard] at good
      exact (logged_calm (drainExpiryIndex_calm eng m.evictBatch .anything) good).2
    · rfl

/-- With a budget for all its rows, a reclaim pass takes whatever it can take of a record
that has not expired. -/
theorem maintain_clears (sound : s.Sound) (indexed : s.tables.TagIndexed eng.config)
    (clock : Nat → Nat) {tagId : Nat} {job : Job}
    (first : s.tables.jobs.rows.head? = some (tagId, job)) :
    ∃ m : Maintenance, m.level.atLeastHard = false ∧ m.clock = clock ∧
      (maintain eng m s).2.Sound ∧
      ∀ row ∈ s.tables.walk tagId job, ∀ r, s.tables.main.get row.2 = some r →
        Spent eng tagId job.targetGeneration (clock 1) r → r.isExpired (clock 0) = false →
          (maintain eng m s).2.tables.main.get row.2 = none := by
  obtain ⟨swept, sound₁⟩ := swept_spec eng ⟨1, 1, 0, .normal, clock⟩ sound
  generalize ran : Maintenance.swept ⟨1, 1, 0, .normal, clock⟩ eng s = s₁ at swept sound₁
  have ahead : s₁.tables.jobs.rows.head? = some (tagId, job) := by rw [swept.thinned.jobs, first]
  obtain ⟨reclaimed, sound₂⟩ := logged_sound
    (reclaimStep_sound eng (s₁.tables.walk tagId job).length) sound₁
    (((reclaimStep_spec _).and (reclaimStep_loses _)).stops fun _ _ h => h.1)
  refine ⟨⟨1, (s₁.tables.walk tagId job).length, 0, .normal, clock⟩, rfl, rfl, ?_⟩
  have tidied : Maintenance.tidied ⟨1, (s₁.tables.walk tagId job).length, 0, .normal, clock⟩ eng s =
      logged (reclaimStep eng (s₁.tables.walk tagId job).length) s₁ := congrArg _ ran
  rw [maintain_sound (tidied ▸ sound₂), tidied]
  dsimp only
  rw [if_neg (by decide)]
  refine ⟨sound₂, fun row mem r stored spent unexpired => ?_⟩
  have there : s₁.tables.main.get row.2 = some r := by
    refine (swept.thinned.gone _ _ stored).resolve_right fun expired => ?_
    rw [unexpired] at expired
    cases expired
  have visited : row ∈ reclaimBatch tagId job (s₁.tables.walk tagId job).length s₁.tables := by
    obtain ⟨here, range⟩ := List.mem_filter.mp mem
    have row' := swept.spared indexed _ _ r (Table.get_eq_some_iff.mpr here) stored unexpired
    have still : row ∈ s₁.tables.walk tagId job :=
      List.mem_filter.mpr ⟨Table.get_eq_some_iff.mp row', range⟩
    have whole : reclaimBatch tagId job (s₁.tables.walk tagId job).length s₁.tables =
        s₁.tables.walk tagId job := List.take_of_length_le (le_max_left _ _)
    rwa [whole]
  obtain ⟨⟨none, -⟩ | ⟨tagId', job', s₂, first', -, cleared, finished⟩, lost⟩ := reclaimed
  · rw [ahead] at none
    cases none
  · obtain ⟨rfl, rfl⟩ := Prod.mk.inj (Option.some.inj (ahead.symm.trans first'))
    rw [Option.eq_none_iff_forall_ne_some]
    intro r' found
    have same := lost.kept _ _ found
    rw [there] at same
    obtain rfl := Option.some.inj same
    rw [finished.tables] at found
    exact cleared row visited r found (swept.clock ▸ spent)

end Passes

/-! ### Reads -/

/-- Reads of two shards that show the same in RAM, one of which has lost records that are
dead. -/
theorem readAlive_of_lost {α : Type} {main main' : Table Bytes Record} {tags : Registry}
    {moment : Snapshot} (kept : ∀ key r, main'.get key = some r → main.get key = some r)
    (gone : ∀ key r, main.get key = some r → main'.get key = some r ∨
      r.isAlive moment.nowMs moment.epoch tags.generation = false) (key : Bytes)
    (project : Record → α) :
    readAlive main' tags moment key project = readAlive main tags moment key project := by
  apply Option.ext
  intro a
  rw [readAlive_eq_some_iff, readAlive_eq_some_iff]
  constructor
  · rintro ⟨r, found, alive⟩
    exact ⟨r, kept key r found, alive⟩
  · rintro ⟨r, found, alive, projected⟩
    rcases gone key r found with found' | dead
    · exact ⟨r, found', alive, projected⟩
    · rw [dead] at alive
      cases alive

/-- Reads are answered as they are by the shard without the passes of its last batch, and what
these took is dead by what is durable. -/
structure Unseen (sh plain : Shard) (nowMs : Nat) : Prop where
  get : ∀ key, sh.get nowMs key = plain.get nowMs key
  deadlines : ∀ keys, sh.deadlines nowMs keys = plain.deadlines nowMs keys
  contents : ∀ key, sh.contents nowMs key = plain.contents nowMs key
  kept : ∀ key r, sh.tables.main.get key = some r → plain.tables.main.get key = some r
  dead : ∀ key r, plain.tables.main.get key = some r → sh.tables.main.get key = none →
    DeadIn plain.tables nowMs r

/-- The record is dead by what the shard has made durable and by what it shows. -/
structure Shard.Dead (sh : Shard) (nowMs : Nat) (r : Record) : Prop where
  durable : DeadIn sh.tables nowMs r
  shown : r.isAlive nowMs sh.engine.epoch sh.engine.registry.generation = false

/-- What RAM as it was before the batch, or the target of the first reclaim job, dooms among
the records ahead of that job is dead once the jobs of the batch are committed, from the
readings of the passes on. -/
def TakesDead (eng : Engine) (clock : Nat → Nat) (plain : Shard) : Prop :=
  ∀ tagId job, plain.tables.jobs.rows.head? = some (tagId, job) →
    ∀ row ∈ plain.tables.walk tagId job, ∀ r, plain.tables.main.get row.2 = some r →
      Spent eng tagId job.targetGeneration (clock 1) r → plain.Dead (max (clock 0) (clock 1)) r

/-- What the passes of a batch take is dead once its jobs are committed. -/
def Maintenance.Quiet (m : Maintenance) (sh : Shard) (jobs : List WriteJob) : Prop :=
  ∀ key r, (sh.performed jobs).tables.main.get key = some r →
    m.Takes sh.engine (sh.performed jobs) key r →
      (sh.commit (sh.performed jobs)).Dead (max (m.clock 0) (m.clock 1)) r

section Batch

variable {sh : Shard} {jobs : List WriteJob} {replies : List Reply}

theorem Shard.Dead.of_expired {r : Record} {nowMs : Nat} (expired : r.isExpired nowMs = true) :
    sh.Dead nowMs r := ⟨.inl expired, by simp [Record.isAlive, expired]⟩

theorem Shard.Dead.later {r : Record} {nowMs laterMs : Nat} (dead : sh.Dead nowMs r)
    (le : nowMs ≤ laterMs) : sh.Dead laterMs r :=
  ⟨dead.durable.imp_left (Record.isExpired_mono le), Record.not_isAlive_mono le dead.shown⟩

/-- A batch with its passes, where it commits: its jobs are answered as without them. -/
theorem commitBatch_passed {m : Maintenance} {faults : List (Option Fault)} {sh' : Shard}
    (committed : commitBatch sh ⟨jobs, some m, faults⟩ = (.ok (), replies, sh')) :
    commitBatch sh ⟨jobs, none, []⟩ = (.ok (), replies, sh.commit (sh.performed jobs)) ∧
      (sh.performed jobs).Sound ∧ ∃ level,
        sh' = (sh.setPressure level).commit (maintain sh.engine m (sh.performed jobs)).2 := by
  obtain ⟨s₀, s, s', opened, ran, closed, rfl⟩ := commitBatch_committed committed
  obtain ⟨good, -, closing⟩ := engineCall_ok closed
  obtain ⟨before, calm⟩ := maintain_calm good
  have performed : sh.performed jobs = { s.calm with clock := fun _ => 0 } :=
    congrArg Prod.snd (ran.performed opened before).2
  refine ⟨commitBatch_calm opened ran before, ?_,
    Batch.level ⟨jobs, some m, faults⟩ sh.engine s, ?_⟩
  · rw [performed]
    exact ⟨rfl, before⟩
  · have same : (maintain sh.engine m (sh.performed jobs)).2 = s'.calm := by
      rw [performed]
      exact calm.trans closing.symm
    rw [same]
    rfl

/-- Where the passes are quiet, no read sees them. -/
theorem Maintenance.Quiet.unseen {m : Maintenance} (quiet : m.Quiet sh jobs)
    (sound : (sh.performed jobs).Sound) (level : Pressure) {nowMs : Nat}
    (swept : m.clock 0 ≤ nowMs) (reclaimed : m.clock 1 ≤ nowMs) :
    Unseen ((sh.setPressure level).commit (maintain sh.engine m (sh.performed jobs)).2)
      (sh.commit (sh.performed jobs)) nowMs := by
  have lost := (maintain_takes sh.engine m sound).1
  have gone : ∀ key r, (sh.performed jobs).tables.main.get key = some r →
      (maintain sh.engine m (sh.performed jobs)).2.tables.main.get key = some r ∨
        (sh.commit (sh.performed jobs)).Dead nowMs r := fun key r found =>
    (lost.gone key r found).imp_right fun takes =>
      (quiet key r found takes).later (max_le swept reclaimed)
  generalize (maintain sh.engine m (sh.performed jobs)).2 = s' at lost gone
  generalize sh.performed jobs = s at lost gone
  -- Both shards publish the same effects.
  have published : ((sh.setPressure level).commit s').engine =
      { (sh.commit s).engine with pressure := level } := by
    change s'.effects.foldl Engine.publishEffect { sh.engine with pressure := level } = _
    rw [lost.effects]
    exact publishEffects_pressure s.effects sh.engine level
  have alike : ∀ {α : Type} (key : Bytes) (project : Record → α),
      readAlive ((sh.setPressure level).commit s').tables.main
          ((sh.setPressure level).commit s').engine.registry
          (((sh.setPressure level).commit s').snapshot nowMs) key project =
        readAlive (sh.commit s).tables.main (sh.commit s).engine.registry
          ((sh.commit s).snapshot nowMs) key project := by
    intro α key project
    rw [Shard.snapshot, published]
    exact readAlive_of_lost lost.kept
      (fun key r found => (gone key r found).imp_right Shard.Dead.shown) key project
  refine ⟨fun key => alike key _, fun keys => ?_, fun key => alike key _, lost.kept,
    fun key r found absent => ?_⟩
  · exact List.map_congr_left fun key _ => alike key _
  · rcases gone key r found with found' | dead
    · exact absurd (found'.symm.trans absent) (by simp)
    · exact dead.durable

/-- Below the hard watermark passes are quiet if all that is ahead of a reclaim job is dead. -/
theorem TakesDead.quiet {m : Maintenance} (mild : m.level.atLeastHard = false)
    (sound : (sh.performed jobs).Sound)
    (dead : TakesDead sh.engine m.clock (sh.commit (sh.performed jobs))) : m.Quiet sh jobs := by
  rintro key r stored (expired | ⟨tagId, job, first, ⟨row, mem, rfl⟩, spent⟩ | ⟨hard, -⟩)
  · exact .of_expired (Record.isExpired_mono (le_max_left _ _) expired)
  · have ahead := (swept_spec sh.engine m sound).1.mem_walk (List.mem_of_mem_take mem)
    exact dead tagId job first row ahead r stored spent
  · simp [mild] at hard

/-- The batch with some passes, on an engine that fails nothing. -/
theorem commitBatch_passes {plain : Shard}
    (plainly : commitBatch sh ⟨jobs, none, []⟩ = (.ok (), replies, plain)) :
    ∃ s : Txn, s.Sound ∧ plain = sh.commit s ∧ ∀ m, (maintain sh.engine m s).2.Sound →
      commitBatch sh ⟨jobs, some m, []⟩ = (.ok (), replies,
        (sh.setPressure (maintain sh.engine m s).1).commit (maintain sh.engine m s).2) := by
  obtain ⟨s₀, s, s', opened, ran, closed, -⟩ := commitBatch_committed plainly
  have good : s.broken = false := (engineCall_ok closed).1
  have start : s₀.calm = sh.begin [] := (engineCall_ok opened).2.2
  have calm := (ran.calm good).2.applyJobs
  rw [start] at calm
  have same : plain = sh.commit (sh.performed jobs) :=
    congrArg (fun result => result.2.2) (plainly.symm.trans (commitBatch_calm opened ran good))
  rw [Shard.performed, (ran.performed opened good).2] at same
  refine ⟨s.calm, ⟨rfl, good⟩, same, fun m sound => ?_⟩
  unfold commitBatch
  rw [show engineCall (sh.begin []) = .ok () (sh.begin []) from rfl]
  simp only [calm, finishBatch, engineCall_sound sound]

/-- No read sees the passes of a batch, whatever their budgets and the engine's reports,
exactly when what they can take is dead by what the batch publishes and makes durable. The
batch commits without passes, and the tag index is exact where they begin. -/
theorem passes_are_invisible_iff {plain : Shard}
    (plainly : commitBatch sh ⟨jobs, none, []⟩ = (.ok (), replies, plain))
    (indexed : plain.tables.TagIndexed sh.engine.config) (clock : Nat → Nat) :
    (∀ m faults replies' sh', m.level.atLeastHard = false → m.clock = clock →
      commitBatch sh ⟨jobs, some m, faults⟩ = (.ok (), replies', sh') →
        replies' = replies ∧ ∀ nowMs, clock 0 ≤ nowMs → clock 1 ≤ nowMs →
          Unseen sh' plain nowMs) ↔ TakesDead sh.engine clock plain := by
  constructor
  · intro unseen tagId job first row mem r stored spent
    obtain ⟨s, sound, rfl, passes⟩ := commitBatch_passes plainly
    by_cases expired : r.isExpired (clock 0) = true
    · exact .of_expired (Record.isExpired_mono (le_max_left _ _) expired)
    · rw [Bool.not_eq_true] at expired
      obtain ⟨m, mild, rfl, sound', cleared⟩ := maintain_clears sound indexed clock first
      have gone := cleared row mem r stored spent expired
      obtain ⟨-, same⟩ := unseen m [] replies _ mild rfl (passes m sound')
      have reads := same _ (le_max_left _ _) (le_max_right _ _)
      refine ⟨reads.dead row.2 r stored gone, ?_⟩
      -- Served without the passes, it would be served with them.
      by_contra alive
      rw [Bool.not_eq_false] at alive
      have served : (sh.commit s).get (max (m.clock 0) (m.clock 1)) row.2 = some r.toValue :=
        readAlive_eq_some_iff.mpr ⟨r, stored, alive, rfl⟩
      rw [← reads.get] at served
      obtain ⟨r', found, -⟩ := readAlive_eq_some_iff.mp served
      exact absurd (gone.symm.trans found) (by simp)
  · rintro dead m faults replies' sh' mild rfl committed
    obtain ⟨plainly', sound, level, rfl⟩ := commitBatch_passed committed
    obtain ⟨rfl, rfl⟩ := Prod.mk.inj (Prod.mk.inj (plainly.symm.trans plainly')).2
    exact ⟨rfl, fun nowMs => (dead.quiet mild sound).unseen sound level⟩

/-- In a settled shard what the passes can take is dead. -/
theorem Shard.Settled.takesDead (settled : sh.Settled) (ready : sh.Ready jobs) (clock : Nat → Nat)
    {plain : Shard} (plainly : commitBatch sh ⟨jobs, none, []⟩ = (.ok (), replies, plain)) :
    TakesDead sh.engine clock plain := by
  have kept := commitBatch_tagsKept settled.tags ⟨jobs, none, []⟩ ready.ids
  have plainSettled : (commitBatch sh ⟨jobs, none, []⟩).2.2.Settled :=
    (commitBatch_settled settled ready).settled
  rw [plainly] at kept plainSettled
  obtain ⟨s₀, s, s', opened, ran, closed, rfl⟩ := commitBatch_committed plainly
  have start : JobsSettled sh jobs s₀ := .start settled ready (engineCall_spec.of_ok opened)
  have ended := (ran.induction (fun job rest s => apply_settled) start).settled.of_agrees
    (engineCall_spec.of_ok closed)
  intro tagId job first row mem r stored spent
  have dead := spent.deadIn ended settled.tags.mirrors kept.grows stored
    (Table.get_eq_some_iff.mpr (List.mem_of_head? first)) (le_max_right (clock 0) (clock 1))
  exact ⟨dead, dead.not_alive plainSettled⟩

end Batch

/-- A table of one record with one tag, and its row. -/
theorem tagIndexed_singleton {c : Config} {t : Tables} {key : Bytes} {r : Record} (id : Nat)
    (main : t.main.rows = [(key, r)]) (tagidx : t.tagidx.rows = [(indexKey c id key, key)])
    (carried : r.tagIds = [id]) : t.TagIndexed c := by
  intro id' key'
  simp only [Table.get_eq_some_iff, main, tagidx, List.mem_singleton, Prod.mk.injEq]
  constructor
  · rintro ⟨entry, rfl⟩
    obtain rfl : id' = id := congrArg (fun entry => (ofLex entry).1) entry
    exact ⟨r, ⟨rfl, rfl⟩, by simp [carried]⟩
  · rintro ⟨_, ⟨rfl, rfl⟩, mem⟩
    rw [carried, List.mem_singleton] at mem
    exact ⟨by rw [mem], rfl⟩

instance decidableStamped (epoch : Nat) (tags : Table Bytes TagRow) (key : Bytes) (stamp : Nat)
    (refs : List TagRef) : Decidable (stamped epoch tags key stamp refs) :=
  decidable_of_iff
    (stamp ≤ epoch ∧ ∀ ref ∈ refs, ∃ row ∈ tags.rows, row.2.id = ref.tagId ∧
      ref.generation ≤ row.2.generation) (by
    refine and_congr_right fun _ => forall₂_congr fun ref _ => ?_
    constructor
    · rintro ⟨row, mem, held⟩
      exact ⟨row.1, row.2, Table.get_eq_some_iff.mpr mem, held⟩
    · rintro ⟨name, row, found, held⟩
      exact ⟨(name, row), Table.get_eq_some_iff.mp found, held⟩)

instance decidableRespectsStamp (p : PreparedSet) (epoch : Nat) (tags : Table Bytes TagRow) :
    Decidable (p.Respects (stamped epoch tags)) :=
  inferInstanceAs (Decidable (stamped epoch tags p.key p.record.header.epoch p.tags))

instance decidableShardReady (sh : Shard) (jobs : List WriteJob) : Decidable (sh.Ready jobs) :=
  decidable_of_iff
    (sh.counters.nextId + tagCount jobs < 2 ^ 32 ∧
      (.flush ∈ jobs.map WriteJob.op → sh.engine.epoch + 1 < 2 ^ 32) ∧
      ∀ job ∈ jobs, ∀ p ∈ job.op.prepared, p.Respects (stamped sh.engine.epoch sh.tables.tags))
    ⟨fun ⟨ids, epochs, writes⟩ => ⟨ids, epochs, writes⟩,
      fun ⟨ids, epochs, writes⟩ => ⟨ids, epochs, writes⟩⟩

instance decidableReady (sh : Shard) : ∀ event, Decidable (ShardEvent.Ready sh event)
  | .turn _ => inferInstanceAs (Decidable (Shard.Ready _ _))
  | .restart => .isTrue trivial

/-- An invalidation reclaimed in the transaction that queued it. -/
theorem passes_are_invisible_reclaimed :
    let sh := Shard.after (firstByteConfig 1000) taggedEvents
    let jobs : List WriteJob := [⟨.deleteByTag [1], fun _ => 100⟩]
    let tidied := (commitBatch sh ⟨jobs, some mildMaintenance, []⟩).2.2
    let plain := (commitBatch sh ⟨jobs, none, []⟩).2.2
    tidied.tables.main.size = 0 ∧ plain.tables.main.size = 1 ∧
      ∀ key, tidied.get 300 key = plain.get 300 key := by
  intro sh jobs tidied plain
  have held : sh.Settled := (run_settled (.create _) (by decide +kernel)).settled
  have plainly : commitBatch sh ⟨jobs, none, []⟩ = (.ok (), _, plain) :=
    commitBatch_of_ok (by decide +kernel)
  have main : plain.tables.main.rows =
      [([7], (settledSet [7] never (some ⟨0, 0⟩)).record.patchCas 1)] := by decide +kernel
  have indexed : plain.tables.TagIndexed sh.engine.config :=
    tagIndexed_singleton 0 main (by decide +kernel) (by decide +kernel)
  have unseen := (passes_are_invisible_iff plainly indexed mildMaintenance.clock).mpr
    (held.takesDead (by decide +kernel) _ plainly)
  obtain ⟨-, same⟩ := unseen mildMaintenance [] _ tidied rfl rfl
    (commitBatch_of_ok (by decide +kernel))
  exact ⟨by decide +kernel, by decide +kernel, (same 300 (by decide) (by decide)).get⟩

/-! ### Writes prepared before -/

/-- A write prepared by RAM is stamped by it. -/
theorem prepareSet_stamped {sh : Shard} (tags : sh.TagsOk) {now : Nat} {set : SetRequest}
    {names : List Bytes} {refs : List TagRef} {p : PreparedSet}
    (resolved : sh.engine.registry.resolve names = .ok refs)
    (prepared : prepareSet sh.engine now set refs = .ok p) :
    p.Respects (stamped sh.engine.epoch sh.tables.tags) := by
  obtain ⟨-, -, epoch, rfl, -⟩ := of_prepareSet prepared
  refine ⟨epoch.le, fun ref mem => ?_⟩
  rw [← List.map_snd_zip (Registry.resolve_entries resolved).length_eq.ge] at mem
  obtain ⟨⟨name, ref⟩, pair, rfl⟩ := List.mem_map.mp mem
  obtain ⟨entry, named, rfl⟩ := Registry.resolve_entry resolved pair
  rw [tags.mirrors.byName] at named
  obtain ⟨row, found, rfl⟩ := Option.map_eq_some_iff.mp named
  exact ⟨name, row, found, rfl, le_rfl⟩

/-- A write prepared at some state of a run is one the shard is ready for in every later
state of the run. -/
theorem prepared_writes_are_stamped {config : Config} {earlier later : List ShardEvent}
    (ready : Along Shard.step ShardEvent.Ready (.create config) (earlier ++ later)) {now : Nat}
    {set : SetRequest} {names : List Bytes} {refs : List TagRef} {p : PreparedSet}
    (resolved : (Shard.after config earlier).engine.registry.resolve names = .ok refs)
    (prepared : prepareSet (Shard.after config earlier).engine now set refs = .ok p) :
    p.Respects (stamped (Shard.after config (earlier ++ later)).engine.epoch
      (Shard.after config (earlier ++ later)).tables.tags) := by
  obtain ⟨before, after⟩ := along_append.mp ready
  have held := (run_settled (.create config) before).settled
  have epochs := run_settled held after
  have left : Along Shard.step ShardEvent.IdsLeft (Shard.after config earlier) later := by
    refine after.mono fun sh event _ ready => ?_
    cases event with
    | turn turn => exact ready.ids
    | restart => trivial
  have rows := run_tagsKept held.tags left
  rw [Shard.after, run_append]
  exact stamped_mono epochs.later rows.grows (prepareSet_stamped held.tags resolved prepared)

/-- A write under the tag `1`. -/
def taggedRequest : SetRequest := ⟨[7], [], .set 10, 0, [[1]], .set, false⟩

/-- It is prepared, and the tag is invalidated before it is applied. -/
theorem prepared_writes_are_stamped_late :
    ∃ p, prepareSet (Shard.after (firstByteConfig 1000) taggedEvents).engine 0 taggedRequest
        [⟨0, 0⟩] = .ok p ∧
      p.Respects (stamped
        (Shard.after (firstByteConfig 1000)
          (taggedEvents ++ [.turn invalidatingTurn])).engine.epoch
        (Shard.after (firstByteConfig 1000)
          (taggedEvents ++ [.turn invalidatingTurn])).tables.tags) := by
  have prepared : prepareSet (Shard.after (firstByteConfig 1000) taggedEvents).engine 0
    taggedRequest [⟨0, 0⟩] = .ok _ := rfl
  exact ⟨_, prepared, prepared_writes_are_stamped (by decide +kernel)
    (show Registry.resolve _ [[1]] = .ok [⟨0, 0⟩] by decide +kernel) prepared⟩

/-! ### Ids that run out -/

/-- The tag `2` gets the id of the tag `1`, whose reclaim job is still queued. Every index
is exact, and the record is served under the tag `2` as long as the reclaimer does not
come to it. -/
theorem reclaim_takes_a_live_record :
    let sh := Shard.after (firstByteConfig 1000) (taggedEvents ++ .turn invalidatingTurn ::
      (List.replicate (2 ^ 32 - 1) burnId ++ [.of (.createTags [([2], 0)]) []]))
    (sh.tables.Indexed sh.engine.config ∧ sh.tables.NoOrphans sh.engine.config ∧
      sh.tables.TagIndexed sh.engine.config) ∧
    ((commitBatch sh ⟨[], none, []⟩).2.2.get 300 [7]).isSome = true ∧
    (commitBatch sh ⟨[], some mildMaintenance, []⟩).2.2.get 300 [7] = none := by
  rw [wrapped_staleShard]
  intro sh
  have main : sh.tables.main.rows =
      [([7], (settledSet [7] never (some ⟨0, 0⟩)).record.patchCas 1)] := by decide +kernel
  have exp : sh.tables.exp.rows = [(toLex (neverBucket, 7), [7])] := by decide +kernel
  refine ⟨⟨?_, ?_, ?_⟩, by decide +kernel, by decide +kernel⟩
  · intro key r found
    rw [Table.get_eq_some_iff, main, List.mem_singleton] at found
    obtain ⟨rfl, rfl⟩ := Prod.mk.inj found
    decide +kernel
  · intro entry key row
    rw [Table.get_eq_some_iff, exp, List.mem_singleton] at row
    obtain ⟨rfl, rfl⟩ := Prod.mk.inj row
    exact ⟨_, Table.get_eq_some_iff.mpr (main ▸ List.mem_singleton_self _), by decide +kernel⟩
  · exact tagIndexed_singleton 0 main (by decide +kernel) (by decide +kernel)

end Vash.Store
