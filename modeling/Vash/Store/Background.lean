/-
# The background passes

The sweeper and the evictor walk `exp` from its front; the reclaimer walks the
part of `tagidx` that belongs to its oldest job. All three run inside a write
transaction, on what it sees, with a budget of index entries.
-/

import Vash.Store.Apply

namespace Vash.Store

open Library

/-! ### Sweeping and evicting -/

/-- Which records a pass over the expiry index may take. -/
inductive Victims where
  | expiredOnly
  | anything
  deriving DecidableEq, Repr

structure SweepStats where
  scanned : Nat
  reclaimed : Nat
  stale : Nat
  lagMs : Nat
  budgetExhausted : Bool
  deriving DecidableEq, Repr

/-- The entries a pass has picked, and what it noticed on the way. -/
structure Scan where
  victims : List (IndexKey × Bytes)
  lagMs : Nat
  budgetExhausted : Bool
  deriving DecidableEq

/-- The picking loop of `drain_expiry_index` over the rows still ahead, with
`picked` entries taken and the lag noted so far. The budget is checked after an
entry is taken, so that a budget of zero takes one. -/
def pickVictims (accept : Victims) (now budget : Nat) :
    List (IndexKey × Bytes) → Nat → Nat → Scan
  | [], _, lagMs => ⟨[], lagMs, false⟩
  | row :: rest, picked, lagMs =>
    let bucket := (ofLex row.1).1
    if accept = .expiredOnly ∧ bucket > now then ⟨[], 0, false⟩
    else
      let lagMs := if picked = 0 ∧ bucket ≤ now then now - bucket else lagMs
      if picked + 1 ≥ budget then ⟨[row], lagMs, true⟩
      else
        let scan := pickVictims accept now budget rest (picked + 1) lagMs
        { scan with victims := row :: scan.victims }

variable (eng : Engine)

/-- The record an entry leads to may be taken: the entry is the one the record
stands under now, and the pass takes such records. -/
def mayTake (accept : Victims) (now : Nat) (entry : IndexKey) (record : Record) : Bool :=
  bucketFor record.header.expiresAtMs eng.config.bucketGranularityMs = (ofLex entry).1 &&
    match accept with
    | .expiredOnly => record.isExpired now
    | .anything => true

/-- The record a victim leads to goes, if the pass may take it. -/
def takeVictim (accept : Victims) (now : Nat) (row : IndexKey × Bytes) : TxnM Bool := do
  match ← query fun t => t.main.get row.2 with
  | some record =>
    if mayTake eng accept now row.1 record then
      update fun t => { t with main := t.main.delete row.2 }
      clearTagRows eng row.2 record.tagIds
      return true
    else return false
  | none => return false

/-- One victim of `drain_expiry_index`: whether its record was deleted. The entry
goes either way. -/
def drainEntry (accept : Victims) (now : Nat) (row : IndexKey × Bytes) : TxnM Bool := do
  let reclaimed ← takeVictim eng accept now row
  update fun t => { t with exp := t.exp.delete row.1 }
  return reclaimed

/-- `drain_expiry_index`. -/
def drainExpiryIndex (budget : Nat) (accept : Victims) : TxnM SweepStats := do
  let now ← nowMs
  let rows ← query fun t => t.exp.rows
  let scan := pickVictims accept now budget rows 0 0
  let taken ← forEach (drainEntry eng accept now) scan.victims
  return {
    scanned := scan.victims.length
    reclaimed := taken.count true
    stale := taken.count false
    lagMs := scan.lagMs
    budgetExhausted := scan.budgetExhausted }

/-- `sweep`. -/
def sweep (budget : Nat) : TxnM SweepStats := drainExpiryIndex eng budget .expiredOnly

/-- `evict`. -/
def evict (budget : Nat) : TxnM SweepStats := drainExpiryIndex eng budget .anything

/-! ### Reclaiming invalidated records -/

structure ReclaimStats where
  scanned : Nat
  reclaimed : Nat
  orphaned : Nat
  retained : Nat
  completed : Bool
  deriving DecidableEq, Repr

/-- What a reclaim pass made of one index entry. -/
inductive Reclaimed where
  | orphaned
  | retained
  | reclaimed
  deriving DecidableEq, Repr

/-- The rows of `index_range tagId` a job has still to visit, in key order. -/
def jobRows (tagId : Nat) (job : Job) (rows : List (IndexKey × Bytes)) :
    List (IndexKey × Bytes) :=
  rows.filter fun row =>
    (match job.cursor with
      | some cursor => decide (cursor < row.1)
      | none => decide (toLex (tagId, 0) ≤ row.1)) &&
    decide (row.1 ≤ toLex (tagId, u64Max))

/-- The deletion of a dead record by `reclaim_step`. Its expiry row goes only when
it has a deadline. -/
def reclaimRecord (key : Bytes) (record : Record) : TxnM Unit := do
  update fun t => { t with main := t.main.delete key }
  if record.header.expiresAtMs ≠ never then
    clearExpiryRow eng key record.header.expiresAtMs
  clearTagRows eng key record.tagIds

/-- One entry of `reclaim_step`. Deadness is judged against the job's target; RAM
may lag behind it, so what RAM already knows dead goes too. -/
def reclaimEntry (tagId target now : Nat) (row : IndexKey × Bytes) : TxnM Reclaimed := do
  match ← query fun t => t.main.get row.2 with
  | none =>
    update fun t => { t with tagidx := t.tagidx.delete row.1 }
    return .orphaned
  | some record =>
    match record.tags.find? fun t => t.tagId = tagId with
    | none =>
      update fun t => { t with tagidx := t.tagidx.delete row.1 }
      return .orphaned
    | some tag =>
      let doomed : Bool := tag.generation < target
      let knownDead := !record.isAlive now eng.epoch eng.registry.generation
      if !doomed && !knownDead then return .retained
      else
        reclaimRecord eng row.2 record
        return .reclaimed

/-- The entries of a reclaim pass over a job. -/
def reclaimBatch (tagId : Nat) (job : Job) (budget : Nat) (t : Tables) :
    List (IndexKey × Bytes) :=
  (jobRows tagId job t.tagidx.rows).take (max budget 1)

/-- The job after a pass: gone once the range ran out, else resumed past the last
entry. -/
def finishJob (tagId : Nat) (job : Job) (batch : List (IndexKey × Bytes)) (completed : Bool) :
    TxnM Unit :=
  if completed then update fun t => { t with jobs := t.jobs.delete tagId }
  else
    let cursor := match batch.getLast? with
      | some row => some row.1
      | none => job.cursor
    update fun t => { t with jobs := t.jobs.put tagId ⟨job.targetGeneration, cursor⟩ }

/-- `reclaim_step`: advance the first outstanding job by up to `budget` entries. -/
def reclaimStep (budget : Nat) : TxnM (Option ReclaimStats) := do
  match ← query fun t => t.jobs.rows.head? with
  | none => return none
  | some (tagId, job) =>
    let batch ← query (reclaimBatch tagId job budget)
    let now ← nowMs
    let results ← forEach (reclaimEntry eng tagId job.targetGeneration now) batch
    let completed : Bool := batch.length < budget
    finishJob tagId job batch completed
    return some {
      scanned := batch.length
      reclaimed := results.count .reclaimed
      orphaned := results.count .orphaned
      retained := results.count .retained
      completed }

end Vash.Store
