/-
# The writer thread

What crosses the write queue and how a batch of it is committed. The jobs of a
batch share one transaction: they read its tables as the jobs before them left
them, but the epoch and the tag registry as they were published before the
batch. What the batch changes in RAM is published once it has committed.
-/

import Vash.Store.Background

namespace Vash.Store

open Library

/-! ### The queue -/

inductive WriteOp where
  | set (prepared : List PreparedSet)
  | conditionalSet (prepared : PreparedSet) (mode : SetMode)
  | delete (keys : List Bytes)
  | touch (keys : List Bytes) (ttlSecs : Nat)
  | arithmetic (op : Arithmetic)
  | append (key suffix : Bytes)
  | expire (key : Bytes) (ttl : TtlChange) (guard : ExpireGuard)
  | createTags (names : List (Bytes × Nat))
  | deleteByTag (name : Bytes)
  | mergeTag (name : Bytes) (generation : Nat)
  | flush
  | sync
  deriving DecidableEq

inductive WriteOutcome where
  | cas (tokens : List Nat)
  | written (written : Written)
  | applied (applied : Bool)
  | deleted (hits : List Bool)
  | touched (hits : List Bool)
  | arithmetic (applied : Option Applied)
  | length (length : Nat)
  | invalidated (generation : Option Nat)
  | merged (generation : Nat)
  | flushed (epoch : Nat)
  | done
  deriving DecidableEq, Repr

section Apply

variable (eng : Engine)

/-- One name of a `CreateTags` job. The entry is published even when the row was
there already. -/
def createTag (name : Bytes × Nat) : TxnM Unit := do
  let row ← applyCreateTag eng name.1 name.2
  publish (.tagCreated name.1 row.id row.generation)

/-- The `DeleteByTag` arm of `apply`. -/
def deleteByTagOp (name : Bytes) : TxnM WriteOutcome := do
  match ← applyDeleteByTag eng name with
  | some row =>
    publish (.tagGeneration row.id row.generation)
    return .invalidated (some row.generation)
  | none => return .invalidated none

/-- The `MergeTag` arm of `apply`. -/
def mergeTagOp (name : Bytes) (generation : Nat) : TxnM WriteOutcome := do
  let merged ← applyMergeTag eng name generation
  match merged with
  | .created id generation => publish (.tagCreated name id generation)
  | .raised id generation => publish (.tagGeneration id generation)
  | .unchanged _ _ => pure ()
  return .merged merged.generation

/-- The `Flush` arm of `apply`. -/
def flushOp : TxnM WriteOutcome := do
  let epoch ← applyFlush eng
  publish (.epoch epoch)
  return .flushed epoch

/-- `apply`: one job of a batch. -/
def apply : WriteOp → TxnM WriteOutcome
  | .set prepared => do
    let applied ← forEach (fun p => applySet eng p none) prepared
    return .cas (applied.map SetApplied.cas)
  | .expire key ttl guard => return .applied (← applyExpire eng key ttl guard)
  | .delete keys => return .deleted (← forEach (applyDelete eng) keys)
  | .conditionalSet prepared mode => return .written (← applyConditionalSet eng prepared mode)
  | .touch keys ttlSecs => return .touched (← forEach (fun key => applyTouch eng key ttlSecs) keys)
  | .arithmetic op => return .arithmetic (← applyArithmetic eng op)
  | .append key suffix => return .length (← applyAppend eng key suffix)
  | .createTags names => do
    let _ ← forEach (createTag eng) names
    return .done
  | .deleteByTag name => deleteByTagOp eng name
  | .mergeTag name generation => mergeTagOp eng name generation
  | .flush => flushOp eng
  | .sync => return .done

end Apply

/-! ### Batches -/

/-- A job of the queue, with the readings the clock gives while it is applied. -/
structure WriteJob where
  op : WriteOp
  clock : Nat → Nat

abbrev Reply := Except StoreError WriteOutcome

/-- The job loop of `commit_batch`: the outcomes so far, the error that poisoned
the transaction if one did, and the transaction. -/
def applyJobs (eng : Engine) : List WriteJob → Txn → List Reply × Option StoreError × Txn
  | [], s => ([], none, s)
  | job :: rest, s =>
    match apply eng job.op { s with clock := job.clock } with
    | .ok outcome s' =>
      let (outcomes, poisoned, s'') := applyJobs eng rest s'
      (.ok outcome :: outcomes, poisoned, s'')
    | .error e s' =>
      if e.poisonsTransaction then ([.error e], some e, s')
      else
        let (outcomes, poisoned, s'') := applyJobs eng rest s'
        (.error e :: outcomes, poisoned, s'')

/-- The parameters of a maintenance pass: the configured budgets, the pressure
the utilisation amounts to, and the readings of the clock. -/
structure Maintenance where
  sweepBatch : Nat
  reclaimBatch : Nat
  evictBatch : Nat
  level : Pressure
  clock : Nat → Nat

/-- The pressure is past the hard watermark. -/
def Pressure.atLeastHard : Pressure → Bool
  | .hard => true
  | .critical => true
  | _ => false

/-- The state an action leaves, whether or not it failed: a failure of a
background pass is logged. -/
def logged {α : Type} (action : TxnM α) (s : Txn) : Txn :=
  match action s with
  | .ok _ s' => s'
  | .error _ s' => s'

/-- `apply_pressure`: measure, publish the level, evict past the hard watermark. -/
def applyPressure (eng : Engine) (m : Maintenance) (s : Txn) : Pressure × Txn :=
  match engineCall s with
  | .error _ s' => (eng.pressure, s')
  | .ok _ s' => (m.level, if m.level.atLeastHard then logged (evict eng m.evictBatch) s' else s')

/-- The maintenance of `commit_batch`. -/
def maintain (eng : Engine) (m : Maintenance) (s : Txn) : Pressure × Txn :=
  applyPressure eng m
    (logged (reclaimStep eng m.reclaimBatch)
      (logged (sweep eng m.sweepBatch) { s with clock := m.clock }))

/-! ### The shard -/

/-- A shard between transactions: its RAM and its durable tables, with the
history of what has been stored and committed. -/
structure Shard where
  engine : Engine
  tables : Tables
  counters : Counters
  written : List (Bytes × Nat)

/-- `Engine::open` on the tables of a database: RAM is rebuilt from them. -/
def Shard.open (config : Config) (tables : Tables) (written : List (Bytes × Nat)) : Shard where
  engine := {
    config
    epoch := tables.epoch.getD 0
    registry := .loadFrom tables.tags.rows
    pressure := .normal }
  tables
  counters := {
    casNext := tables.casWatermark.getD 0
    casWatermark := tables.casWatermark.getD 0
    nextId := Registry.resumeId tables.tags.rows }
  written

/-- A database just created. -/
def Shard.create (config : Config) : Shard := .open config .created []

/-- The process ends and the database is opened again. -/
def Shard.restart (sh : Shard) : Shard := .open sh.engine.config sh.tables sh.written

/-- The transaction `write_txn` opens. -/
def Shard.begin (sh : Shard) (faults : List (Option Fault)) : Txn where
  tables := sh.tables
  counters := sh.counters
  effects := []
  faults
  broken := false
  clock := fun _ => 0
  written := sh.written

/-- What is left of an aborted transaction: the counters it advanced. -/
def Shard.abort (sh : Shard) (s : Txn) : Shard := { sh with counters := s.counters }

/-- A committed transaction, its effects published in order. -/
def Shard.commit (sh : Shard) (s : Txn) : Shard where
  engine := s.effects.foldl Engine.publishEffect sh.engine
  tables := s.tables
  counters := s.counters
  written := s.written

def Shard.setPressure (sh : Shard) (level : Pressure) : Shard :=
  { sh with engine := { sh.engine with pressure := level } }

/-- A batch handed to `commit_batch`, with what the engine reports on its calls:
the first is the opening of the transaction, the last its commit. -/
structure Batch where
  jobs : List WriteJob
  maintenance : Option Maintenance
  faults : List (Option Fault)

/-- The `Display` of a store error. -/
def StoreError.message : StoreError → String
  | .core e => e.message
  | .engine detail => "engine: " ++ detail
  | .capacityFull => "store is at capacity"
  | .tagLimit max => "tag registry is full (" ++ toString max ++ " tags)"
  | .corrupt detail =>
    "database is corrupt or was written by an incompatible build: " ++ detail

/-- What every job of a batch whose commit failed is answered with. -/
def commitFailure : StoreError → StoreError
  | .capacityFull => .capacityFull
  | e => .corrupt e.message

/-- The end of `commit_batch`: commit, publish, answer. -/
def finishBatch (sh : Shard) (outcomes : List Reply) (s : Txn) :
    Except StoreError Unit × List Reply × Shard :=
  match engineCall s with
  | .ok _ s' => (.ok (), outcomes, sh.commit s')
  | .error e s' => (.error e, outcomes.map fun _ => .error (commitFailure e), sh.abort s')

/-- `commit_batch`: what it returns, the answer each job gets, and the shard. -/
def commitBatch (sh : Shard) (batch : Batch) : Except StoreError Unit × List Reply × Shard :=
  match engineCall (sh.begin batch.faults) with
  | .error e s => (.error e, batch.jobs.map fun _ => .error (.corrupt e.message), sh.abort s)
  | .ok _ s =>
    match applyJobs sh.engine batch.jobs s with
    | (_, some e, s) => (.error e, batch.jobs.map fun _ => .error e, sh.abort s)
    | (outcomes, none, s) =>
      match batch.maintenance with
      | none => finishBatch sh outcomes s
      | some m =>
        let (level, s) := maintain sh.engine m s
        finishBatch (sh.setPressure level) outcomes s

/-! ### A full store -/

/-- What a pass reclaimed, and the state it leaves; a failed pass counts for
nothing. -/
def reclaimedBy (pass : TxnM SweepStats) (s : Txn) : Nat × Txn :=
  match pass s with
  | .ok stats s' => (stats.reclaimed, s')
  | .error _ s' => (0, s')

/-- One attempt of `free_space` at a budget: `none` when its commit failed and a
smaller one is to be tried. -/
def freeAttempt (sh : Shard) (budget : Nat) (clock : Nat → Nat) (faults : List (Option Fault)) :
    Option (Except StoreError Nat) × Shard :=
  match engineCall (sh.begin faults) with
  | .error e s => (some (.error e), sh.abort s)
  | .ok _ s =>
    let (swept, s) := reclaimedBy (sweep sh.engine budget) { s with clock }
    let (evicted, s) := reclaimedBy (evict sh.engine budget) s
    match engineCall s with
    | .ok _ s' => (some (.ok (swept + evicted)), sh.commit s')
    | .error _ s' => (none, sh.abort s')

/-- What one attempt of `free_space` meets: the clock's readings and the engine's
reports. -/
structure Attempt where
  clock : Nat → Nat
  faults : List (Option Fault)

/-- The loop of `free_space` over the budgets still to try. -/
def freeTries (sh : Shard) : List (Nat × Attempt) → Except StoreError Nat × Shard
  | [] => (.error .capacityFull, sh)
  | (budget, attempt) :: rest =>
    match freeAttempt sh (max budget 1) attempt.clock attempt.faults with
    | (some result, sh) => (result, sh)
    | (none, sh) => freeTries sh rest

/-- `free_space`: up to three attempts at shrinking budgets. -/
def freeSpace (sh : Shard) (evictBatch : Nat) (attempts : Nat → Attempt) :
    Except StoreError Nat × Shard :=
  freeTries sh [(evictBatch, attempts 0), (evictBatch / 8, attempts 1), (8, attempts 2)]

/-- One turn of the writer loop: commit a batch and, if the store turns out to be
full, refuse writes and free space. -/
def writerTurn (sh : Shard) (batch : Batch) (evictBatch : Nat) (attempts : Nat → Attempt) :
    List Reply × Shard :=
  match commitBatch sh batch with
  | (.ok (), replies, sh) => (replies, sh)
  | (.error e, replies, sh) =>
    if e = .capacityFull then
      (replies, (freeSpace (sh.setPressure .critical) evictBatch attempts).2)
    else (replies, sh)

end Vash.Store
