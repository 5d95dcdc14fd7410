import Vash.Store.Locality
import Vash.Library.Run

/-!
# Runs of a shard

A shard's life is a sequence of writer turns and restarts. A turn commits or
aborts a batch, with its maintenance, and frees space when the store turned out
to be full. Whatever part of the state the background passes ignore is settled
by the jobs of the batch alone:

* `BatchEnd`, `commitBatch_ends` — how a batch can end, and what is known of the
  state it leaves.
* `commitBatch_committed`, `KeptByDrains` — what a batch commits, pass by pass.
* `writerTurn_invariant` — a turn keeps what its batch keeps and transactions that
  only sweep and evict keep.
-/

namespace Vash.Store

open Library

/-! ### Turns and restarts -/

/-- What one turn of the writer meets: a batch and, should the store be full, the
attempts at freeing space. -/
structure Turn where
  batch : Batch
  evictBatch : Nat
  attempts : Nat → Attempt

inductive ShardEvent where
  | turn (turn : Turn)
  | restart

def Shard.step (sh : Shard) : ShardEvent → Shard
  | .turn t => (writerTurn sh t.batch t.evictBatch t.attempts).2
  | .restart => sh.restart

/-- A shard created and taken through some events. -/
abbrev Shard.after (config : Config) (events : List ShardEvent) : Shard :=
  run Shard.step (.create config) events

/-! ### What the background passes leave alone -/

/-- A part that no background pass uses. -/
structure Part.Aside {π : Type} (part : Part Txn π) : Prop where
  engine : ∀ p, enginePart.Spared (part.put p)
  records : ∀ p, recordsPart.Spared (part.put p)
  jobs : ∀ p, jobsPart.Spared (part.put p)

theorem logged_of_wp {α : Type} {action : TxnM α} {P : Txn → Prop} {s : Txn}
    (spec : wp action (fun _ s' => P s') (fun _ s' => P s') s) : P (logged action s) := by
  unfold logged
  cases run : action s with
  | ok a s' => exact spec.of_ok run
  | error e s' => exact spec.of_error run

section Keeps

variable {π : Type} {part : Part Txn π}

/-- An action kept to other parts keeps this one, failed or not. -/
theorem logged_keeps {α : Type} {action : TxnM α} (confined : ∀ p, Confined (part.put p) action)
    (s : Txn) : part.get (logged action s) = part.get s :=
  logged_of_wp (part.keeps (fun p => (confined p).ignores) s)

theorem engineCall_keeps (aside : Part.Aside part) (s : Txn) :
    wp engineCall (fun _ s' => part.get s' = part.get s) (fun _ s' => part.get s' = part.get s) s :=
  part.keeps (fun p => (Confined.engineCall (aside.engine p)).ignores) s

/-- Setting the clock keeps what the engine does not use. -/
theorem withClock_keeps (aside : Part.Aside part) (s : Txn) (clock : Nat → Nat) :
    part.get { s with clock } = part.get s := by
  have moved := (aside.engine (part.get s)).patch_put (s.faults, s.broken, clock) s
  rw [part.put_get] at moved
  have same := congrArg part.get moved
  rw [part.get_put] at same
  exact same.symm

theorem maintain_keeps (aside : Part.Aside part) (eng : Engine) (m : Maintenance) (s : Txn) :
    part.get (maintain eng m s).2 = part.get s := by
  have drained : ∀ budget accept s, part.get (logged (drainExpiryIndex eng budget accept) s) =
      part.get s := fun budget accept =>
    logged_keeps fun p => .drainExpiryIndex (aside.engine p) (aside.records p) budget accept
  have reclaimed : ∀ budget s, part.get (logged (reclaimStep eng budget) s) = part.get s :=
    fun budget => logged_keeps fun p =>
      .reclaimStep (aside.engine p) (aside.records p) (aside.jobs p) budget
  have pressed : ∀ s, part.get (applyPressure eng m s).2 = part.get s := by
    intro s
    unfold applyPressure
    have measured := engineCall_keeps aside s
    cases run : engineCall s with
    | error e s' => exact measured.of_error run
    | ok a s' =>
      dsimp only
      split
      · rw [evict, drained, measured.of_ok run]
      · exact measured.of_ok run
  unfold maintain
  rw [pressed, reclaimed, sweep, drained, withClock_keeps aside]

end Keeps

/-- `s'` differs from `s` at most in what the background passes use. -/
def Txn.Aside (s s' : Txn) : Prop :=
  ∀ {π : Type} (part : Part Txn π), Part.Aside part → part.get s' = part.get s

/-! ### Transactions that nothing broke -/

/-- What looking at the transaction and draining its expiry index keep, as long as
nothing breaks it. -/
structure KeptByDrains (eng : Engine) (inv : Txn → Prop) : Prop where
  agrees : ∀ {s s' : Txn}, s.Agrees s' → inv s → inv s'
  drain : ∀ budget accept,
    Preserves inv (fun e s => Breaks e s ∨ inv s) (drainExpiryIndex eng budget accept)

/-- The transaction after the passes of an attempt at freeing space. -/
def freed (eng : Engine) (budget : Nat) (clock : Nat → Nat) (s : Txn) : Txn :=
  logged (evict eng budget) (logged (sweep eng budget) { s with clock })

/-- The transaction a batch commits once its jobs have left `s`. -/
def Batch.tidy (batch : Batch) (eng : Engine) (s : Txn) : Txn :=
  match batch.maintenance with
  | none => s
  | some m => (maintain eng m s).2

/-- The pressure it commits under. -/
def Batch.level (batch : Batch) (eng : Engine) (s : Txn) : Pressure :=
  match batch.maintenance with
  | none => eng.pressure
  | some m => (maintain eng m s).1

/-- A call that succeeded left the transaction good, and used up a report at most. -/
theorem engineCall_ok {s s' : Txn} {a : Unit} (run : engineCall s = .ok a s') :
    s.broken = false ∧ s'.broken = false ∧ s'.calm = s.calm := by
  unfold engineCall at run
  split at run
  · cases run
  · rename_i good
    unfold nextReport at run
    split at run
    · cases run
      simp_all
    · cases run
      simp_all [Txn.calm]
    · cases run

section Unbroken

variable {eng : Engine} {inv : Txn → Prop}

/-- A transaction that is good after a pass was good before. -/
theorem unbroken_of_logged {α : Type} {action : TxnM α} (calm : Calm action) {s : Txn} :
    (logged action s).broken = false → s.broken = false :=
  logged_of_wp (P := fun s' => s'.broken = false → s.broken = false)
    ((calm s).mono (fun _ _ h good => (h good).1) fun _ _ h good => (h good).1)

/-- A pass whose failure is logged, in a transaction that is good in the end. -/
theorem logged_good {α : Type} {action : TxnM α} (calm : Calm action) {post : Txn → Prop} {s : Txn}
    (spec : s.broken = false → Leaves action post s)
    (good : (logged action s).broken = false) : post (logged action s) := by
  refine logged_of_wp (P := fun s' => s'.broken = false → post s')
    ((spec (unbroken_of_logged calm good)).mono (fun _ _ h _ => h) fun e s' h good => ?_) good
  exact h.resolve_left fun breaks => by simp [breaks.2] at good

theorem logged_unbroken {α : Type} {action : TxnM α} (calm : Calm action)
    (keeps : Preserves inv (fun e s => Breaks e s ∨ inv s) action) {s : Txn}
    (held : s.broken = false → inv s) (good : (logged action s).broken = false) :
    inv (logged action s) :=
  logged_good calm (fun before => keeps s (held before)) good

theorem KeptByDrains.logged (kept : KeptByDrains eng inv) (budget : Nat) (accept : Victims)
    {s : Txn} (held : s.broken = false → inv s) :
    (logged (drainExpiryIndex eng budget accept) s).broken = false →
      inv (Store.logged (drainExpiryIndex eng budget accept) s) :=
  logged_unbroken (drainExpiryIndex_calm eng budget accept) (kept.drain budget accept) held

theorem KeptByDrains.freed (kept : KeptByDrains eng inv) (budget : Nat) (clock : Nat → Nat)
    {s : Txn} (held : s.broken = false → inv s) :
    (freed eng budget clock s).broken = false → inv (Store.freed eng budget clock s) :=
  kept.logged budget .anything (kept.logged budget .expiredOnly fun good =>
    kept.agrees (s := s) ⟨rfl, rfl, rfl, rfl, rfl⟩ (held good))

theorem KeptByDrains.maintain (kept : KeptByDrains eng inv)
    (reclaim : ∀ budget, Preserves inv (fun e s => Breaks e s ∨ inv s) (reclaimStep eng budget))
    (m : Maintenance) {s : Txn} (held : s.broken = false → inv s) :
    (maintain eng m s).2.broken = false → inv (Store.maintain eng m s).2 := by
  have swept := kept.logged (s := { s with clock := m.clock }) m.sweepBatch .expiredOnly fun good =>
    kept.agrees (s := s) ⟨rfl, rfl, rfl, rfl, rfl⟩ (held good)
  have reclaimed := logged_unbroken (reclaimStep_calm eng m.reclaimBatch) (reclaim m.reclaimBatch)
    swept
  unfold Store.maintain applyPressure sweep
  have measured := engineCall_spec (s := Store.logged (reclaimStep eng m.reclaimBatch)
    (Store.logged (drainExpiryIndex eng m.sweepBatch .expiredOnly) { s with clock := m.clock }))
  cases called : engineCall (Store.logged (reclaimStep eng m.reclaimBatch)
    (Store.logged (drainExpiryIndex eng m.sweepBatch .expiredOnly)
      { s with clock := m.clock })) with
  | error e s' =>
    intro good
    rw [(measured.of_error called).broken] at good
    cases good
  | ok a s' =>
    have agrees := measured.of_ok called
    have measuring : s'.broken = false → inv s' := fun good =>
      kept.agrees agrees (reclaimed (agrees.broken.symm.trans good))
    dsimp only
    split
    · exact kept.logged m.evictBatch .anything measuring
    · exact measuring

theorem KeptByDrains.tidy (kept : KeptByDrains eng inv)
    (reclaim : ∀ budget, Preserves inv (fun e s => Breaks e s ∨ inv s) (reclaimStep eng budget))
    (batch : Batch) {s : Txn} (held : s.broken = false → inv s) :
    (batch.tidy eng s).broken = false → inv (batch.tidy eng s) := by
  unfold Batch.tidy
  cases batch.maintenance with
  | none => exact held
  | some m => exact kept.maintain reclaim m held

end Unbroken

/-! ### Publishing -/

@[simp] theorem Engine.publishEffect_config (eng : Engine) (effect : PostCommit) :
    (eng.publishEffect effect).config = eng.config := by
  cases effect <;> rfl

@[simp] theorem publishEffects_config (effects : List PostCommit) (eng : Engine) :
    (effects.foldl Engine.publishEffect eng).config = eng.config := by
  induction effects generalizing eng with
  | nil => rfl
  | cons effect rest ih => rw [List.foldl_cons, ih, Engine.publishEffect_config]

/-- The pressure is published on its own. -/
theorem publishEffects_pressure (effects : List PostCommit) (eng : Engine) (level : Pressure) :
    effects.foldl Engine.publishEffect { eng with pressure := level } =
      { effects.foldl Engine.publishEffect eng with pressure := level } := by
  induction effects generalizing eng with
  | nil => rfl
  | cons effect rest ih =>
    have first : Engine.publishEffect { eng with pressure := level } effect =
        { eng.publishEffect effect with pressure := level } := by
      cases effect <;> rfl
    rw [List.foldl_cons, List.foldl_cons, first, ih]

@[simp] theorem Shard.commit_config (sh : Shard) (s : Txn) :
    (sh.commit s).engine.config = sh.engine.config := publishEffects_config _ _

/-! ### Jobs one after the other -/

/-- The transaction after a job, whatever it is answered with. -/
def afterJob (eng : Engine) (s : Txn) (job : WriteJob) : Txn :=
  logged (apply eng job.op) { s with clock := job.clock }

/-- A job is answered, and does not poison the transaction. -/
def Answers (eng : Engine) (job : WriteJob) (s : Txn) : Reply → Txn → Prop
  | .ok outcome, s' => apply eng job.op { s with clock := job.clock } = .ok outcome s'
  | .error e, s' =>
    apply eng job.op { s with clock := job.clock } = .error e s' ∧ e.poisonsTransaction = false

/-- Jobs none of which poisons the transaction, with their answers. -/
inductive Ran (eng : Engine) : List WriteJob → Txn → List Reply → Txn → Prop where
  | done (s : Txn) : Ran eng [] s [] s
  | job {job : WriteJob} {rest : List WriteJob} {s s₁ s' : Txn} {reply : Reply}
      {replies : List Reply} (answers : Answers eng job s reply s₁)
      (later : Ran eng rest s₁ replies s') : Ran eng (job :: rest) s (reply :: replies) s'

section Jobs

variable {eng : Engine} {job : WriteJob} {jobs : List WriteJob} {s s' : Txn} {reply : Reply}
  {replies : List Reply}

theorem Answers.of_wp {P : Reply → Txn → Prop} (answers : Answers eng job s reply s')
    (spec : wp (apply eng job.op) (fun outcome s' => P (.ok outcome) s')
      (fun e s' => e.poisonsTransaction = true ∨ P (.error e) s')
      { s with clock := job.clock }) : P reply s' := by
  cases reply with
  | ok outcome => exact spec.of_ok answers
  | error e => exact (spec.of_error answers.1).resolve_left (by simp [answers.2])

/-- How the job loop ends: every job ran, or one of them poisoned the transaction. -/
inductive JobsEnd (eng : Engine) (jobs : List WriteJob) (s : Txn) :
    List Reply × Option StoreError × Txn → Prop where
  | ran {replies : List Reply} {s' : Txn} (ran : Ran eng jobs s replies s') :
      JobsEnd eng jobs s (replies, none, s')
  | poisoned {before after : List WriteJob} {job : WriteJob} {s₁ s' : Txn}
      {outcomes replies : List Reply} {e : StoreError} (split : jobs = before ++ job :: after)
      (ran : Ran eng before s outcomes s₁)
      (failed : apply eng job.op { s₁ with clock := job.clock } = .error e s')
      (fatal : e.poisonsTransaction = true) : JobsEnd eng jobs s (replies, some e, s')

theorem JobsEnd.cons {rest : List WriteJob} {result : List Reply × Option StoreError × Txn}
    (answers : Answers eng job s reply s') (later : JobsEnd eng rest s' result) :
    JobsEnd eng (job :: rest) s (reply :: result.1, result.2.1, result.2.2) := by
  cases later with
  | ran ran => exact .ran (.job answers ran)
  | poisoned split ran failed fatal =>
    exact .poisoned (congrArg (job :: ·) split) (.job answers ran) failed fatal

theorem applyJobs_ends (eng : Engine) (jobs : List WriteJob) (s : Txn) :
    JobsEnd eng jobs s (applyJobs eng jobs s) := by
  induction jobs generalizing s with
  | nil => exact .ran (.done s)
  | cons job rest ih =>
    unfold applyJobs
    cases applied : apply eng job.op { s with clock := job.clock } with
    | ok outcome s₁ => exact .cons (show Answers eng job s (.ok outcome) s₁ from applied) (ih s₁)
    | error e s₁ =>
      dsimp only
      split
      · rename_i fatal
        exact .poisoned (List.nil_append _).symm (.done s) applied fatal
      · rename_i spared
        have answers : Answers eng job s (.error e) s₁ := ⟨applied, by simpa using spared⟩
        exact .cons answers (ih s₁)

/-- The job loop of jobs that ran. -/
theorem Ran.applyJobs (ran : Ran eng jobs s replies s') :
    applyJobs eng jobs s = (replies, none, s') := by
  induction ran with
  | done s => rfl
  | @job job _ s _ _ reply _ answers _ ih =>
    unfold Store.applyJobs
    cases reply with
    | ok outcome => simp [show apply eng job.op _ = _ from answers, ih]
    | error e => simp [answers.1, answers.2, ih]

theorem Ran.length (ran : Ran eng jobs s replies s') : replies.length = jobs.length := by
  induction ran with
  | done s => rfl
  | job _ _ ih => exact congrArg (· + 1) ih

/-- What each job hands on to the next holds in the end. -/
theorem Ran.induction {P : List WriteJob → Txn → Prop}
    (step : ∀ job rest s, P (job :: rest) s →
      wp (apply eng job.op) (fun _ s' => P rest s')
        (fun e s' => e.poisonsTransaction = true ∨ P rest s') { s with clock := job.clock })
    (ran : Ran eng jobs s replies s') (start : P jobs s) : P [] s' := by
  induction ran with
  | done s => exact start
  | job answers _ ih => exact ih (answers.of_wp (P := fun _ => P _) (step _ _ _ start))

/-- A job that breaks nothing leads from `s` to `afterJob eng s`. -/
theorem apply_afterJob {post : Txn → Prop}
    (spec : Leaves (apply eng job.op) post
      { s with clock := job.clock }) :
    wp (apply eng job.op) (fun _ s' => s' = afterJob eng s job ∧ post s')
      (fun e s' => e.poisonsTransaction = true ∨ s' = afterJob eng s job ∧ post s')
      { s with clock := job.clock } := by
  refine wp_iff.mpr ⟨fun a s' run => ⟨?_, spec.of_ok run⟩, fun e s' run => ?_⟩
  · rw [afterJob, logged, run]
  · exact (spec.of_error run).imp And.left fun held => ⟨by rw [afterJob, logged, run], held⟩

end Jobs

/-! ### How a batch ends -/

/-- How `commitBatch` can end. -/
inductive BatchEnd (sh : Shard) (batch : Batch) :
    Except StoreError Unit × List Reply × Shard → Prop where
  /-- A job poisoned the transaction. -/
  | poisoned {before after : List WriteJob} {job : WriteJob} {s₀ s s' : Txn}
      {outcomes : List Reply} {e : StoreError} (opened : (sh.begin batch.faults).Aside s₀)
      (split : batch.jobs = before ++ job :: after) (ran : Ran sh.engine before s₀ outcomes s)
      (failed : apply sh.engine job.op { s with clock := job.clock } = .error e s')
      (fatal : e.poisonsTransaction = true) :
      BatchEnd sh batch (.error e, .replicate batch.jobs.length (.error e), sh.abort s')
  /-- The transaction could not be opened, and no job ran, or the commit failed. -/
  | refused {jobs : List WriteJob} {s₀ s s' : Txn} {outcomes : List Reply} {level : Pressure}
      {e told : StoreError} (opened : (sh.begin batch.faults).Aside s₀)
      (front : jobs <+: batch.jobs) (ran : Ran sh.engine jobs s₀ outcomes s) (kept : s.Aside s') :
      BatchEnd sh batch
        (.error e, .replicate batch.jobs.length (.error told), (sh.setPressure level).abort s')
  /-- The jobs ran and were committed. -/
  | committed {s₀ s s' : Txn} {outcomes : List Reply}
      (opened : engineCall (sh.begin batch.faults) = .ok () s₀)
      (ran : Ran sh.engine batch.jobs s₀ outcomes s)
      (closed : engineCall (batch.tidy sh.engine s) = .ok () s') :
      BatchEnd sh batch (.ok (), outcomes, (sh.setPressure (batch.level sh.engine s)).commit s')

theorem engineCall_aside {s s' : Txn} (run : engineCall s = .ok () s') : s.Aside s' :=
  fun _ aside => (engineCall_keeps aside s).of_ok run

theorem Batch.tidy_keeps {π : Type} {part : Part Txn π} (aside : Part.Aside part) (batch : Batch)
    (eng : Engine) (s : Txn) : part.get (batch.tidy eng s) = part.get s := by
  unfold Batch.tidy
  cases batch.maintenance with
  | none => rfl
  | some m => exact maintain_keeps aside eng m s

/-- What the passes of a batch and its commit leave alone. -/
theorem Batch.tidy_aside {batch : Batch} {eng : Engine} {s s' : Txn}
    (closed : engineCall (batch.tidy eng s) = .ok () s') : s.Aside s' := fun part aside =>
  (engineCall_aside closed part aside).trans (batch.tidy_keeps aside eng s)

theorem commitBatch_ends (sh : Shard) (batch : Batch) :
    BatchEnd sh batch (commitBatch sh batch) := by
  unfold commitBatch
  cases opened : engineCall (sh.begin batch.faults) with
  | error e s =>
    have kept : (sh.begin batch.faults).Aside s :=
      fun part aside => (engineCall_keeps aside _).of_error opened
    dsimp only
    rw [List.map_const']
    change BatchEnd sh batch (_, _, (sh.setPressure sh.engine.pressure).abort s)
    exact .refused kept List.nil_prefix (.done s) fun _ _ => rfl
  | ok a s₀ =>
    have ends := applyJobs_ends sh.engine batch.jobs s₀
    dsimp only
    generalize applyJobs sh.engine batch.jobs s₀ = result at ends
    cases ends with
    | poisoned split ran failed fatal =>
      dsimp only
      rw [List.map_const']
      exact .poisoned (engineCall_aside opened) split ran failed fatal
    | @ran outcomes s ran =>
      have finish : BatchEnd sh batch (finishBatch
          (sh.setPressure (batch.level sh.engine s)) outcomes (batch.tidy sh.engine s)) := by
        unfold finishBatch
        cases closed : engineCall (batch.tidy sh.engine s) with
        | ok a s' => exact .committed opened ran closed
        | error e s' =>
          dsimp only
          rw [List.map_const', ran.length]
          exact .refused (engineCall_aside opened) List.prefix_rfl ran fun part aside =>
            ((engineCall_keeps aside _).of_error closed).trans (batch.tidy_keeps aside _ s)
      unfold Batch.tidy Batch.level at finish
      cases maintained : batch.maintenance <;> rw [maintained] at finish <;> exact finish

/-- A batch that commits: its jobs ran, and the transaction was good in the end. -/
theorem commitBatch_committed {sh sh' : Shard} {batch : Batch} {replies : List Reply}
    (committed : commitBatch sh batch = (.ok (), replies, sh')) :
    ∃ s₀ s s', engineCall (sh.begin batch.faults) = .ok () s₀ ∧
      Ran sh.engine batch.jobs s₀ replies s ∧ engineCall (batch.tidy sh.engine s) = .ok () s' ∧
      sh' = (sh.setPressure (batch.level sh.engine s)).commit s' := by
  have ends := commitBatch_ends sh batch
  rw [committed] at ends
  cases ends with
  | committed opened ran closed => exact ⟨_, _, _, opened, ran, closed, rfl⟩

theorem commitBatch_of_ok {sh : Shard} {batch : Batch} (ok : (commitBatch sh batch).1 = .ok ()) :
    commitBatch sh batch = (.ok (), (commitBatch sh batch).2.1, (commitBatch sh batch).2.2) :=
  Prod.ext ok rfl

/-- What the jobs of a committed batch hand on to each other and its passes keep holds of
the transaction it commits. -/
theorem commitBatch_induction {sh sh' : Shard} {batch : Batch} {replies : List Reply}
    {P : List WriteJob → Txn → Prop} {inv : Txn → Prop}
    (committed : commitBatch sh batch = (.ok (), replies, sh'))
    (start : ∀ s₀, engineCall (sh.begin batch.faults) = .ok () s₀ → P batch.jobs s₀)
    (step : ∀ job rest s, P (job :: rest) s →
      wp (apply sh.engine job.op) (fun _ s' => P rest s')
        (fun e s' => e.poisonsTransaction = true ∨ P rest s') { s with clock := job.clock })
    (ended : ∀ s, P [] s → inv s) (kept : KeptByDrains sh.engine inv)
    (reclaim : ∀ budget,
      Preserves inv (fun e s => Breaks e s ∨ inv s) (reclaimStep sh.engine budget)) :
    ∃ s level, sh' = (sh.setPressure level).commit s ∧ inv s := by
  obtain ⟨s₀, s, s', opened, ran, closed, rfl⟩ := commitBatch_committed committed
  have held := ended s (ran.induction step (start s₀ opened))
  have tidied := kept.tidy reclaim batch (fun _ => held) (engineCall_ok closed).1
  exact ⟨s', _, rfl, kept.agrees (engineCall_spec.of_ok closed) tidied⟩

/-- The same of an attempt at freeing space. -/
theorem freed_induction {sh : Shard} {faults : List (Option Fault)} {budget : Nat}
    {clock : Nat → Nat} {s₀ s : Txn} {inv : Txn → Prop}
    (opened : engineCall (sh.begin faults) = .ok () s₀)
    (closed : engineCall (freed sh.engine budget clock s₀) = .ok () s)
    (start : inv (sh.begin faults))
    (kept : KeptByDrains sh.engine inv) : inv s := by
  have opening := kept.agrees (engineCall_spec.of_ok opened) start
  have passes := kept.freed budget clock (fun _ => opening) (engineCall_ok closed).1
  exact kept.agrees (engineCall_spec.of_ok closed) passes

theorem commitBatch_config (sh : Shard) (batch : Batch) :
    (commitBatch sh batch).2.2.engine.config = sh.engine.config := by
  have ends := commitBatch_ends sh batch
  generalize commitBatch sh batch = result at ends
  cases ends with
  | committed _ _ _ => exact Shard.commit_config _ _
  | _ => rfl

/-! ### Freeing space -/

theorem reclaimedBy_state (pass : TxnM SweepStats) (s : Txn) :
    (reclaimedBy pass s).2 = logged pass s := by
  unfold reclaimedBy logged
  cases pass s <;> rfl

/-- How an attempt at freeing space ends. -/
inductive Freed (sh : Shard) : Shard → Prop where
  | aborted {faults : List (Option Fault)} {s : Txn} (kept : (sh.begin faults).Aside s) :
      Freed sh (sh.abort s)
  | committed {faults : List (Option Fault)} {budget : Nat} {clock : Nat → Nat} {s₀ s : Txn}
      (opened : engineCall (sh.begin faults) = .ok () s₀)
      (closed : engineCall (freed sh.engine budget clock s₀) = .ok () s)
      (kept : (sh.begin faults).Aside s) : Freed sh (sh.commit s)

theorem Freed.config {sh sh' : Shard} (ended : Freed sh sh') :
    sh'.engine.config = sh.engine.config := by
  cases ended with
  | aborted _ => rfl
  | committed _ _ _ => exact Shard.commit_config sh _

/-- An attempt at freeing space is a transaction that only swept and evicted. -/
theorem freeAttempt_ends (sh : Shard) (budget : Nat) (clock : Nat → Nat)
    (faults : List (Option Fault)) : Freed sh (freeAttempt sh budget clock faults).2 := by
  unfold freeAttempt
  cases run : engineCall (sh.begin faults) with
  | error e s =>
    have kept : (sh.begin faults).Aside s :=
      fun part aside => (engineCall_keeps aside _).of_error run
    exact .aborted kept
  | ok a s₀ =>
    have drained : ∀ (accept : Victims) (s : Txn),
        s.Aside (logged (drainExpiryIndex sh.engine budget accept) s) :=
        fun accept s π part aside =>
      logged_keeps (fun p => .drainExpiryIndex (aside.engine p) (aside.records p) _ _) s
    have reached : (sh.begin faults).Aside (freed sh.engine budget clock s₀) := by
      intro π part aside
      unfold freed
      rw [evict, drained .anything _ part aside, sweep, drained .expiredOnly _ part aside,
        withClock_keeps aside, (engineCall_keeps aside _).of_ok run]
    have state : (reclaimedBy (evict sh.engine budget)
        (reclaimedBy (sweep sh.engine budget) { s₀ with clock }).2).2 =
          freed sh.engine budget clock s₀ := by
      rw [reclaimedBy_state, reclaimedBy_state, freed]
    dsimp only
    rw [state]
    cases last : engineCall (freed sh.engine budget clock s₀) with
    | ok a s =>
      exact .committed run last fun part aside =>
        ((engineCall_keeps aside _).of_ok last).trans (reached part aside)
    | error e s =>
      have kept : (sh.begin faults).Aside s := fun part aside =>
        ((engineCall_keeps aside _).of_error last).trans (reached part aside)
      exact .aborted kept

/-- What attempts at freeing space keep, freeing space keeps. -/
theorem freeSpace_invariant (inv : Shard → Prop)
    (keeps : ∀ sh sh', inv sh → Freed sh sh' → inv sh') {sh : Shard} (held : inv sh)
    (evictBatch : Nat) (attempts : Nat → Attempt) : inv (freeSpace sh evictBatch attempts).2 := by
  have tried : ∀ tries sh, inv sh → inv (freeTries sh tries).2 := by
    intro tries
    induction tries with
    | nil => exact fun sh held => held
    | cons try_ rest ih =>
      intro sh held
      obtain ⟨budget, attempt⟩ := try_
      have after := keeps sh _ held
        (freeAttempt_ends sh (max budget 1) attempt.clock attempt.faults)
      unfold freeTries
      split
      · rename_i ran
        rw [ran] at after
        exact after
      · rename_i ran
        rw [ran] at after
        exact ih _ after
  exact tried _ sh held

/-- A turn keeps what its batch and attempts at freeing space keep. -/
theorem writerTurn_freed (inv : Shard → Prop) (keeps : ∀ sh sh', inv sh → Freed sh sh' → inv sh')
    (pressure : ∀ sh, inv sh → inv (sh.setPressure .critical))
    {sh : Shard} {batch : Batch} (committed : inv (commitBatch sh batch).2.2) (evictBatch : Nat)
    (attempts : Nat → Attempt) : inv (writerTurn sh batch evictBatch attempts).2 := by
  unfold writerTurn
  split
  · rename_i ran
    rw [ran] at committed
    exact committed
  · rename_i ran
    rw [ran] at committed
    split
    · exact freeSpace_invariant inv keeps (pressure _ committed) evictBatch attempts
    · exact committed

/-- A turn keeps what its batch and transactions that only sweep and evict keep. -/
theorem writerTurn_invariant (inv : Shard → Prop)
    (keeps : ∀ sh faults s, inv sh → (sh.begin faults).Aside s →
      inv (sh.abort s) ∧ inv (sh.commit s))
    (pressure : ∀ sh, inv sh → inv (sh.setPressure .critical))
    {sh : Shard} {batch : Batch} (committed : inv (commitBatch sh batch).2.2) (evictBatch : Nat)
    (attempts : Nat → Attempt) : inv (writerTurn sh batch evictBatch attempts).2 := by
  refine writerTurn_freed inv (fun sh sh' held ended => ?_) pressure committed evictBatch attempts
  cases ended with
  | aborted kept => exact (keeps sh _ _ held kept).1
  | committed _ _ kept => exact (keeps sh _ _ held kept).2

/-- A turn answers what its batch answers. -/
theorem writerTurn_replies (sh : Shard) (batch : Batch) (evictBatch : Nat)
    (attempts : Nat → Attempt) :
    (writerTurn sh batch evictBatch attempts).1 = (commitBatch sh batch).2.1 := by
  unfold writerTurn
  split
  · rename_i ran
    rw [ran]
  · rename_i ran
    rw [ran]
    split <;> rfl

theorem writerTurn_config (sh : Shard) (turn : Turn) :
    (writerTurn sh turn.batch turn.evictBatch turn.attempts).2.engine.config =
      sh.engine.config := by
  exact writerTurn_freed (fun sh' => sh'.engine.config = sh.engine.config)
    (fun _ _ held ended => ended.config.trans held) (fun _ held => held)
    (commitBatch_config sh turn.batch) _ _

@[simp] theorem Shard.step_config (sh : Shard) (event : ShardEvent) :
    (sh.step event).engine.config = sh.engine.config := by
  cases event with
  | turn turn => exact writerTurn_config sh turn
  | restart => rfl

/-! ### Concrete runs -/

/-- A configuration whose hash tells keys apart by their first byte. -/
def firstByteConfig (granularityMs : Nat) : Config where
  hash key := (key.headD 0).toNat
  hash_le key := (key.headD 0).toNat_lt.le.trans (by decide)
  floats := ⟨fun a _ => a, fun a _ => a, fun _ => none, fun _ => []⟩
  bucketGranularityMs := granularityMs
  maxValueLen := 64
  maxTags := 8
  shardIndex := 0
  shardCount := 1
  shard_lt := by decide

/-- A write of an empty value with a settled deadline and at most one tag. -/
def settledSet (key : Bytes) (expiresAtMs : Nat) (tag : Option TagRef) : PreparedSet where
  key
  record := ⟨⟨0, 0, expiresAtMs, 0⟩, tag.toList, [], by cases tag <;> simp [absoluteMaxTags]⟩
  expiresAtMs := some expiresAtMs
  ttl := .keep
  tags := tag.toList
  returnPrevious := false
  tags_eq := rfl
  expires_eq := fun _ h => Option.some.inj h

/-- A turn of jobs at the clock reading `now`, with what the engine reports. -/
def Turn.of (now : Nat) (ops : List WriteOp) (faults : List (Option Fault)) : Turn where
  batch := ⟨ops.map fun op => ⟨op, fun _ => now⟩, none, faults⟩
  evictBatch := 8
  attempts := fun _ => ⟨fun _ => now, []⟩

/-- A sweep and a reclaim pass at the clock reading `200`. -/
def mildMaintenance : Maintenance := ⟨8, 8, 8, .normal, fun _ => 200⟩

/-- A batch of one job at the clock reading `100`. -/
def ShardEvent.of (op : WriteOp) (faults : List (Option Fault)) : ShardEvent :=
  .turn (.of 100 [op] faults)

end Vash.Store
