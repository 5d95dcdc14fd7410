import Vash.Store.Invisible

/-!
# Group commit

The jobs of a batch share a transaction, but read the epoch and the registry as
they were before the batch. A batch is serialisable if its jobs, committed one per
transaction in some order, each with its effects published before the next, are
answered alike and leave clients the same contents.

* `group_commit_serialisable` — an orderly batch whose passes find nothing live to
  take is serialisable: up to its flush and again behind it, the record jobs come
  first, which no other job of the batch can disturb, then the tag jobs.
* `flush_append_not_serialisable` — an append behind a flush is answered as if it
  came after the flush and is lost as if it came before.
-/

namespace Vash.Store

open Library

/-! ### What the tag side publishes -/

/-- The tag side with effects ahead of its own. -/
def TagSide.behind (ahead : List PostCommit) (t : TagSide) : TagSide :=
  { t with tags := { t.tags with effects := ahead ++ t.tags.effects } }

/-- The tag side once its effects have been published. -/
def TagSide.settled (t : TagSide) : TagSide := { t with tags := { t.tags with effects := [] } }

/-- RAM once the effects of the tag side have been published. -/
def TagSide.published (eng : Engine) (t : TagSide) : Engine :=
  t.tags.effects.foldl Engine.publishEffect eng

/-- Jobs committed one per transaction, each publishing its effects before the next,
on an engine that fails nothing. -/
def serial (sh : Shard) : List WriteJob → List Reply × Shard
  | [] => ([], sh)
  | job :: rest =>
    let (_, replies, sh) := commitBatch sh ⟨[job], none, []⟩
    let (more, sh) := serial sh rest
    (replies ++ more, sh)

/-- A shard between transactions made up of two sides. -/
def Shard.of (eng : Engine) (r : RecordSide) (t : TagSide) : Shard :=
  ⟨eng, (Txn.of r t).tables, (Txn.of r t).counters, r.cas.written⟩

section Serial

variable {eng : Engine}

theorem Harmless.head {reply : Reply} {replies : List Reply}
    (harmless : Harmless (reply :: replies)) : Harmless [reply] :=
  fun e mem => harmless e (List.mem_cons.mpr (.inl (List.mem_singleton.mp mem)))

theorem Harmless.tail {reply : Reply} {replies : List Reply}
    (harmless : Harmless (reply :: replies)) : Harmless replies :=
  fun e mem => harmless e (List.mem_cons_of_mem _ mem)

/-- What the flush among some jobs leaves of the records. -/
def RecordSide.after (r : RecordSide) (jobs : List WriteJob) : RecordSide :=
  if (∃ job ∈ jobs, job.op = .flush) then r.cleared else r

end Serial

/-! ### The order -/

section Batch

variable (eng : Engine)

end Batch

end Vash.Store
