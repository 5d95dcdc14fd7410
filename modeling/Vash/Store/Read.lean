import Vash.Store.Writer

/-!
# Reading records

Liveness is decided from RAM alone: the clock reading of the transaction, the
flush epoch and the tag registry. The registry is consulted last, and only for
a record that carries tags, so that it may be later than the data it is held
against.

* `readAlive` — the one definition of "live" that `get`, `deadlines` and the
  others share.
* `readAlive_eq_some_iff` — what a read returns.
-/

namespace Vash.Store

open Library

/-- The clock and flush epoch the keys of one call are judged against. -/
structure Snapshot where
  nowMs : Nat
  epoch : Nat

/-- `read_alive`: look a key up, apply the liveness check, project. -/
def readAlive {α : Type} (main : Table Bytes Record) (tags : Registry) (moment : Snapshot)
    (key : Bytes) (project : Record → α) : Option α :=
  match main.get key with
  | none => none
  | some record =>
    let lookup := if record.needsTagRegistry then some tags else none
    if record.isAlive moment.nowMs moment.epoch fun id => lookup.bind fun held => held.generation id
    then some (project record)
    else none

/-- A read returns a stored record that is alive. -/
theorem readAlive_eq_some_iff {α : Type} {main : Table Bytes Record} {tags : Registry}
    {moment : Snapshot} {key : Bytes} {project : Record → α} {a : α} :
    readAlive main tags moment key project = some a ↔
      ∃ record, main.get key = some record ∧
        record.isAlive moment.nowMs moment.epoch tags.generation = true ∧ project record = a := by
  unfold readAlive
  cases found : main.get key with
  | none => simp
  | some record =>
    -- Without tags, what the registry would answer does not matter.
    have same : (record.isAlive moment.nowMs moment.epoch fun id =>
        (if record.needsTagRegistry then some tags else none).bind fun held =>
          held.generation id) = record.isAlive moment.nowMs moment.epoch tags.generation := by
      cases tagged : record.tags with
      | nil => simp [Record.isAlive, Record.tagsAlive, tagged]
      | cons ref refs => simp [Record.needsTagRegistry, tagged]
    simp only [same]
    split
    · rename_i alive
      simp [alive]
    · rename_i dead
      simp [dead]

namespace Shard

variable (sh : Shard) (nowMs : Nat)

/-- `Engine::snapshot` of a transaction opened at the reading `nowMs`. -/
def snapshot : Snapshot := ⟨nowMs, sh.engine.epoch⟩

/-- `Engine::get`. -/
def get (key : Bytes) : Option Value :=
  readAlive sh.tables.main sh.engine.registry (sh.snapshot nowMs) key Record.toValue

/-- `Engine::deadlines`: the deadline of each key that is live, in one snapshot. -/
def deadlines (keys : List Bytes) : List (Option Nat) :=
  keys.map fun key => readAlive sh.tables.main sh.engine.registry (sh.snapshot nowMs) key
    fun record => record.header.expiresAtMs

/-- What a client can see of a key: the value, flags and deadline of a live record. -/
def contents (key : Bytes) : Option (Bytes × Nat × Nat) :=
  readAlive sh.tables.main sh.engine.registry (sh.snapshot nowMs) key
    fun record => (record.value, record.header.mcFlags, record.header.expiresAtMs)

end Shard

end Vash.Store
