import Vash.Store.Changes
import Vash.Store.Sides

/-!
# Batches that fail

A batch fails as a whole: what a job of it changed is lost with the transaction, and
every job is told so. A batch that commits may still have refused some of its jobs;
a record job that was refused had changed nothing.

* `batch_failure_is_atomic` — what is left of a batch, however the engine fails it.
-/

namespace Vash.Store

open Library

/-! ### Operations that stop before they write -/

section Stops

variable {α β : Type} {eng : Engine} {t : Tables}

/-- Where the action stops, the engine has failed it. -/
def OnlyBreaks {α : Type} (action : TxnM α) : Prop := Preserves (fun _ => True) Breaks action

/-- The action only looks; where it stops, it has changed nothing. -/
def Looks (t : Tables) {α : Type} (action : TxnM α) : Prop :=
  Preserves (fun s => s.tables = t) (fun e s => Breaks e s ∨ s.tables = t) action

/-- Where the action stops, the engine has failed it or nothing has changed. -/
def StopsClean (t : Tables) {α : Type} (action : TxnM α) : Prop :=
  ∀ s : Txn, s.tables = t →
    wp action (fun _ _ => True) (fun e s' => Breaks e s' ∨ s'.tables = t) s

theorem StopsClean.bind {first : TxnM α} {next : α → TxnM β} (looks : Looks t first)
    (rest : ∀ a, StopsClean t (next a)) : StopsClean t (first >>= next) :=
  fun s same => wp.bind (looks s same) fun a s' same' => rest a s' same'

theorem OnlyBreaks.stopsClean {action : TxnM α} (h : OnlyBreaks action) : StopsClean t action :=
  fun s _ => (h s trivial).mono (fun _ _ _ => trivial) fun _ _ => .inl

/-- Nothing after the last write can be refused. -/
theorem StopsClean.map {action : TxnM α} (h : StopsClean t action) (f : α → β) :
    StopsClean t (do let a ← action; return f a) :=
  fun s same => wp.bind (h s same) fun _ _ _ => wp.pure trivial

theorem OnlyBreaks.pure (a : α) : OnlyBreaks (Pure.pure a) := Preserves.pure a

theorem OnlyBreaks.bind {first : TxnM α} {next : α → TxnM β} (h : OnlyBreaks first)
    (rest : ∀ a, OnlyBreaks (next a)) : OnlyBreaks (first >>= next) := Preserves.bind h rest

theorem OnlyBreaks.forEach {action : α → TxnM β} {elements : List α}
    (each : ∀ a, OnlyBreaks (action a)) : OnlyBreaks (forEach action elements) :=
  Preserves.forEach fun a _ => each a

theorem OnlyBreaks.of_spec {action : TxnM α} {post : Txn → α → Txn → Prop}
    (spec : ∀ s, wp action (post s) Breaks s) : OnlyBreaks action :=
  fun s _ => (spec s).imp fun _ _ _ => trivial

theorem OnlyBreaks.map {action : TxnM α} (h : OnlyBreaks action) (f : α → β) :
    OnlyBreaks (do let a ← action; return f a) := .bind h fun a => .pure (f a)

theorem OnlyBreaks.query (read : Tables → α) : OnlyBreaks (query read) :=
  .of_spec fun _ => query_breaks

theorem OnlyBreaks.update (change : Tables → Tables) : OnlyBreaks (update change) :=
  .of_spec fun _ => update_breaks

theorem OnlyBreaks.nowMs : OnlyBreaks nowMs := .of_spec fun _ => nowMs_spec

theorem OnlyBreaks.applySet (p : PreparedSet) : OnlyBreaks (applySet eng p none) :=
  .of_spec fun _ => applySet_spec p fun _ absurd => by cases absurd

theorem OnlyBreaks.applyDelete (key : Bytes) : OnlyBreaks (applyDelete eng key) :=
  .bind (.of_spec fun _ => displace_spec key false false)
    fun _ => .bind (.update _) fun _ => .pure _

theorem OnlyBreaks.applyTouch (key : Bytes) (ttlSecs : Nat) :
    OnlyBreaks (applyTouch eng key ttlSecs) := by
  refine .bind .nowMs fun now => .bind (.query _) fun found => ?_
  cases found with
  | none => exact .pure _
  | some record =>
    dsimp only
    split
    · refine .bind .nowMs fun settled => .bind (fun _ _ => ?_) fun p => .map (.applySet p) _
      exact (liftCore_encode record.tags_le).mono (fun _ _ _ => trivial) fun _ _ => False.elim
    · exact .pure _

theorem Looks.of_agrees {action : TxnM α}
    (spec : ∀ s, wp action (fun _ s' => s.Agrees s') Breaks s) :
    Looks t action :=
  fun s same => (spec s).mono (fun _ _ agrees => agrees.tables.trans same) fun _ _ => .inl

theorem StopsClean.pure (a : α) : StopsClean t (Pure.pure a) := fun _ _ => wp.pure trivial

/-- The jobs that change a record in place. -/
theorem recordStops (key : Bytes) : RecordLogic eng key (fun _ _ => True) (StopsClean t) :=
  .of_looks .pure (fun _ _ same => .inr same) (fun f h => h.map f) .bind
    (.of_agrees fun _ => nowMs_spec.imp fun _ _ h => h.2)
    (.of_agrees fun _ => (liveRecord_spec key).imp fun _ _ h => h.2)
    (.of_agrees fun _ => query_breaks.imp fun _ _ h => h.2)
    (fun _ => (OnlyBreaks.applySet _).stopsClean) (OnlyBreaks.applyDelete key).stopsClean

theorem StopsClean.applyConditionalSet (p : PreparedSet) (mode : SetMode) :
    StopsClean t (applyConditionalSet eng p mode) := by
  intro s same
  refine applyConditionalSet_rule ((readForUpdate_spec _).mono (fun _ _ _ => trivial)
      fun _ _ => .inl)
    (fun _ s₁ agrees => .inr (agrees.tables.trans same)) (fun _ _ _ _ => trivial)
    fun p' pre s₁ _ _ _ _ reads => ?_
  exact (applySet_spec p' (by simpa using reads)).mono (fun _ _ _ _ => trivial) fun _ _ => .inl

/-- A record job stops before its first write, unless the engine failed it. -/
theorem apply_stopsClean {op : WriteOp} (record : op.isRecord = true) :
    StopsClean t (apply eng op) := by
  cases op with
  | set prepared =>
    exact (OnlyBreaks.map (.forEach fun p => .applySet p) _).stopsClean
  | conditionalSet p mode => exact (StopsClean.applyConditionalSet p mode).map _
  | delete keys =>
    exact (OnlyBreaks.map (.forEach fun key => .applyDelete key) _).stopsClean
  | touch keys ttlSecs =>
    exact (OnlyBreaks.map (.forEach fun key => .applyTouch key ttlSecs) _).stopsClean
  | arithmetic op => exact (recordStops op.key).applyArithmetic.map _
  | append key suffix => exact ((recordStops key).applyAppend suffix).map _
  | expire key ttl guard => exact ((recordStops key).applyExpire ttl guard).map _
  | _ => simp [WriteOp.isRecord] at record

end Stops

/-! ### Jobs and their answers -/

/-- A record job that was refused, and not for a failure of the engine. -/
theorem performJob_refused {eng : Engine} {job : WriteJob} (record : job.op.isRecord = true)
    {s s' : Txn} {e : StoreError} (answered : performJob eng job s = (.error e, s'))
    (spared : e.poisonsTransaction = false) : s'.tables = s.tables := by
  have clean : StopsClean s.tables (apply eng job.op) := apply_stopsClean record
  have stops := clean { s with clock := job.clock } rfl
  unfold performJob at answered
  cases run : apply eng job.op { s with clock := job.clock } with
  | ok outcome s₁ => simp [run] at answered
  | error e' s₁ =>
    simp only [run, Prod.mk.injEq, Except.error.injEq] at answered
    obtain ⟨rfl, rfl⟩ := answered
    rcases stops.of_error run with ⟨poisons, -⟩ | same
    · rw [poisons] at spared
      cases spared
    · exact same

/-! ### Batches -/

/-- The batch is lost: every job is answered with an error, and nothing has changed
on disk or in what RAM shows of the tags and the epoch. -/
structure Lost (sh : Shard) (batch : Batch) (replies : List Reply) (sh' : Shard) : Prop where
  answered : replies.length = batch.jobs.length
  failed : ∀ reply ∈ replies, ∃ e, reply = .error e
  tables : sh'.tables = sh.tables
  registry : sh'.engine.registry = sh.engine.registry
  epoch : sh'.engine.epoch = sh.engine.epoch

/-- The tables a batch commits once its jobs have left `s`. -/
def Batch.tidied (batch : Batch) (eng : Engine) (s : Txn) : Tables :=
  match batch.maintenance with
  | none => s.tables
  | some m => (maintain eng m s).2.tables

/-- The batch is committed from the transaction `s` it opened: every job is answered
with its own outcome, and a record job that is answered with an error has changed
nothing. -/
structure Landed (sh : Shard) (batch : Batch) (replies : List Reply) (sh' : Shard) (s : Txn) :
    Prop where
  opened : engineCall (sh.begin batch.faults) = .ok () s
  answered : replies = (trace (performJob sh.engine) batch.jobs s).1
  tables : sh'.tables = batch.tidied sh.engine (trace (performJob sh.engine) batch.jobs s).2
  refused : ∀ before job after e, batch.jobs = before ++ job :: after → job.op.isRecord = true →
    replies[before.length]? = some (.error e) →
    (trace (performJob sh.engine) (before ++ [job]) s).2.tables =
      (trace (performJob sh.engine) before s).2.tables

theorem commitBatch_landed {sh sh' : Shard} {batch : Batch} {replies : List Reply}
    (committed : commitBatch sh batch = (.ok (), replies, sh')) :
    ∃ s, Landed sh batch replies sh' s := by
  obtain ⟨s, s₁, s₂, opened, ran, closed, rfl⟩ := commitBatch_committed committed
  obtain ⟨harmless, answers⟩ := ran.answers
  have clock : { s with clock := fun _ => 0 } = s := by
    have : s.clock = fun _ => 0 := congrArg Txn.clock (engineCall_ok opened).2.2
    rw [← this]
  rw [clock] at answers
  have tables : s₂.tables = batch.tidied sh.engine s₁ := by
    have agrees : (batch.tidy sh.engine s₁).Agrees s₂ := engineCall_spec.of_ok closed
    rw [agrees.tables]
    unfold Batch.tidy Batch.tidied
    cases batch.maintenance <;> rfl
  refine ⟨s, opened, by rw [answers], by rw [answers]; exact tables, ?_⟩
  intro before job after e whole record answered
  have mem : .error e ∈ replies := List.mem_of_getElem? answered
  have own := getElem?_trace (performJob sh.engine) before job after s
  rw [← whole, answers, answered, Option.some.injEq] at own
  rw [trace_append, trace_cons, trace_nil]
  exact performJob_refused record (Prod.ext own.symm rfl) (harmless e mem)

theorem commitBatch_lost {sh sh' : Shard} {batch : Batch} {replies : List Reply} {e : StoreError}
    (failed : commitBatch sh batch = (.error e, replies, sh')) : Lost sh batch replies sh' := by
  have ends := commitBatch_ends sh batch
  rw [failed] at ends
  cases ends with
  | poisoned _ _ _ _ _ =>
    exact ⟨by simp, fun _ mem => ⟨_, List.eq_of_mem_replicate mem⟩, rfl, rfl, rfl⟩
  | refused _ _ _ _ =>
    exact ⟨by simp, fun _ mem => ⟨_, List.eq_of_mem_replicate mem⟩, rfl, rfl, rfl⟩

/-- However the engine fails a batch: if it is not committed, it is lost as a whole
and every job is told so; if it is, every job gets its own outcome. -/
theorem batch_failure_is_atomic (sh : Shard) (batch : Batch) :
    match commitBatch sh batch with
    | (.error _, replies, sh') => Lost sh batch replies sh'
    | (.ok (), replies, sh') => ∃ s, Landed sh batch replies sh' s := by
  rcases ended : commitBatch sh batch with ⟨_ | _, replies, sh'⟩
  · exact commitBatch_lost ended
  · exact commitBatch_landed ended

end Vash.Store
