/-
# The engine of a shard

One shard keeps six tables in an ordered transactional engine and, in RAM, what
every read consults: the flush epoch, the tag registry and three counters. A
write transaction is an action over `Txn`: the tables as the transaction sees
them, the counters (which an abort does not roll back), the RAM changes it will
publish once it has committed, the failures the engine will report, and the
readings the clock will give.
-/

import Vash.Library.Table
import Vash.Library.Action
import Vash.Core.Command

namespace Vash.Store

open Library

/-! ### Errors -/

/-- The errors of `vash-store` that the modelled operations raise. -/
inductive StoreError where
  | core (error : CoreError)
  | engine (detail : String)
  | capacityFull
  | tagLimit (max : Nat)
  | corrupt (detail : String)
  deriving DecidableEq, Repr

/-- The errors after which a transaction cannot be committed. -/
def StoreError.poisonsTransaction : StoreError → Bool
  | .engine _ => true
  | .capacityFull => true
  | _ => false

/-- A failure the storage engine reports for one call. -/
inductive Fault where
  | engine (detail : String)
  | mapFull
  deriving DecidableEq, Repr

def Fault.toError : Fault → StoreError
  | .engine detail => .engine detail
  | .mapFull => .capacityFull

@[simp] theorem Fault.poisons (fault : Fault) : fault.toError.poisonsTransaction = true := by
  cases fault <;> rfl

/-! ### The tables -/

/-- A row of `tags`. -/
structure TagRow where
  id : Nat
  generation : Nat
  deriving DecidableEq, Repr

/-- The compound keys of `exp` and `tagidx`: a number, then a key hash, compared
in that order as their big-endian encodings are. -/
abbrev IndexKey := Nat ×ₗ Nat

/-- A row of `jobs`: the generation everything older than which is dead, and the
last index key processed. -/
structure Job where
  targetGeneration : Nat
  cursor : Option IndexKey
  deriving DecidableEq

/-- `Job::new`. -/
def Job.new (targetGeneration : Nat) : Job := ⟨targetGeneration, none⟩

/-- The sub-databases; of `meta`, the two rows that change after creation. -/
structure Tables where
  main : Table Bytes Record
  exp : Table IndexKey Bytes
  tagidx : Table IndexKey Bytes
  tags : Table Bytes TagRow
  jobs : Table Nat Job
  epoch : Option Nat
  casWatermark : Option Nat
  deriving DecidableEq

/-- The tables of a database just created. -/
def Tables.created : Tables := ⟨∅, ∅, ∅, ∅, ∅, none, none⟩

/-! ### RAM -/

/-- An entry of the tag registry. -/
structure TagEntry where
  id : Nat
  name : Bytes
  generation : Nat
  deriving DecidableEq, Repr

/-- The registry's two maps. They share an entry exactly when each leads to the
other, which is when a bump through one is seen through both. -/
structure Registry where
  byName : Table Bytes TagEntry
  byId : Table Nat TagEntry
  deriving DecidableEq

/-- `Pressure`: how full the store is. -/
inductive Pressure where
  | normal
  | soft
  | hard
  | critical
  deriving DecidableEq, Repr

/-- The configuration an engine is opened with. `hash` is `xxh3_64`. -/
structure Config where
  hash : Bytes → Nat
  hash_le : ∀ key, hash key ≤ u64Max
  floats : FloatOps
  bucketGranularityMs : Nat
  maxValueLen : Nat
  maxTags : Nat
  shardIndex : Nat
  shardCount : Nat
  shard_lt : shardIndex < shardCount

/-- What the operations of a transaction read outside of it. None of it changes
until the transaction has ended. -/
structure Engine where
  config : Config
  epoch : Nat
  registry : Registry
  pressure : Pressure

/-- The counters in RAM that the operations of a transaction advance, whether or
not the transaction is committed. -/
structure Counters where
  casNext : Nat
  casWatermark : Nat
  nextId : Nat
  deriving DecidableEq, Repr

/-- A change to RAM published once the transaction carrying it has committed. -/
inductive PostCommit where
  | tagCreated (name : Bytes) (id generation : Nat)
  | tagGeneration (id generation : Nat)
  | epoch (epoch : Nat)
  deriving DecidableEq, Repr

/-! ### Transactions -/

/-- The state of an open write transaction. -/
structure Txn where
  tables : Tables
  counters : Counters
  effects : List PostCommit
  /-- What the engine reports for the calls to come; past the end, success. -/
  faults : List (Option Fault)
  /-- A call has failed, so that the engine refuses the rest, the commit included. -/
  broken : Bool
  /-- The readings the clock will give, in order. -/
  clock : Nat → Nat
  /-- History: the keys written so far with the token each was stored under. No
  operation reads it. -/
  written : List (Bytes × Nat)

/-- An operation inside a transaction. -/
abbrev TxnM := EStateM StoreError Txn

/-- The engine's answer in a transaction one of whose calls has failed. -/
def badTxn : StoreError := .engine "MDB_BAD_TXN: Transaction must abort, has a child, or is invalid"

/-- The engine's report on a call in a transaction that is still good. A failed
call invalidates the transaction. -/
def nextReport : TxnM Unit := fun s =>
  match s.faults with
  | [] => .ok () s
  | none :: rest => .ok () { s with faults := rest }
  | some fault :: rest => .error fault.toError { s with faults := rest, broken := true }

/-- One call into the storage engine. -/
def engineCall : TxnM Unit := fun s => if s.broken then .error badTxn s else nextReport s

/-- Read the tables. -/
def query {α : Type} (read : Tables → α) : TxnM α := do
  engineCall
  let s ← get
  return read s.tables

/-- Change the tables. -/
def update (change : Tables → Tables) : TxnM Unit := do
  engineCall
  modify fun s => { s with tables := change s.tables }

/-- Read the clock. -/
def nowMs : TxnM Nat := fun s => .ok (s.clock 0) { s with clock := fun n => s.clock (n + 1) }

/-- Queue a change to RAM for after the commit. -/
def publish (effect : PostCommit) : TxnM Unit :=
  modify fun s => { s with effects := s.effects ++ [effect] }

/-- Stop with a core error. -/
def liftCore {α : Type} : Except CoreError α → TxnM α
  | .ok a => pure a
  | .error e => throw (.core e)

/-! ### What the primitives do -/

/-- `t` is `s` with its tables changed to `tables`; engine calls and clock readings
may have been used up. -/
structure Txn.Becomes (s : Txn) (tables : Tables) (t : Txn) : Prop where
  tables : t.tables = tables
  counters : t.counters = s.counters
  effects : t.effects = s.effects
  broken : t.broken = s.broken
  written : t.written = s.written

/-- `t` is `s` after engine calls and clock readings that changed nothing. -/
abbrev Txn.Agrees (s t : Txn) : Prop := s.Becomes s.tables t

theorem Txn.Becomes.refl (s : Txn) : s.Becomes s.tables s := ⟨rfl, rfl, rfl, rfl, rfl⟩

theorem Txn.Becomes.trans {s t u : Txn} {tables tables' : Tables} (st : s.Becomes tables t)
    (tu : t.Becomes tables' u) : s.Becomes tables' u :=
  ⟨tu.tables, tu.counters.trans st.counters, tu.effects.trans st.effects,
    tu.broken.trans st.broken, tu.written.trans st.written⟩

theorem Txn.agrees_trans {s t u : Txn} (st : s.Agrees t) (tu : t.Agrees u) : s.Agrees u := by
  rw [Txn.Agrees, st.tables] at tu
  exact Txn.Becomes.trans st tu

/-- The engine failed a call: nothing changed but that the transaction is broken. -/
structure Txn.Fails (s : Txn) (e : StoreError) (t : Txn) : Prop where
  poisons : e.poisonsTransaction = true
  broken : t.broken = true
  tables : t.tables = s.tables
  counters : t.counters = s.counters
  effects : t.effects = s.effects
  written : t.written = s.written

/-- The error a broken transaction is left with. -/
def Breaks (e : StoreError) (t : Txn) : Prop := e.poisonsTransaction = true ∧ t.broken = true

/-- The action leaves a transaction that `post` holds of, unless the engine fails it. -/
abbrev Leaves {α : Type} (action : TxnM α) (post : Txn → Prop) (s : Txn) : Prop :=
  wp action (fun _ => post) (fun e s' => Breaks e s' ∨ post s') s

section Leaves

variable {α : Type} {action : TxnM α} {post post' : Txn → Prop} {s : Txn}

theorem Leaves.imp (h : Leaves action post s) (weaker : ∀ s', post s' → post' s') :
    Leaves action post' s := h.mono (fun _ => weaker) fun _ s' => Or.imp_right (weaker s')

theorem Leaves.and (h : Leaves action post s) (h' : Leaves action post' s) :
    Leaves action (fun s' => post s' ∧ post' s') s := by
  refine (wp.and h h').stops ?_
  rintro e s' ⟨breaks | held, breaks' | held'⟩
  · exact .inl breaks
  · exact .inl breaks
  · exact .inl breaks'
  · exact .inr ⟨held, held'⟩

/-- What holds wherever the action ends. -/
theorem Leaves.always (h : wp action (fun _ => post) (fun _ => post) s) : Leaves action post s :=
  h.stops fun _ _ => .inr

end Leaves

section Primitives

variable {s : Txn}

theorem engineCall_spec : wp engineCall (fun _ s' => s.Agrees s') s.Fails s := by
  unfold wp
  by_cases broken : s.broken = true
  · rw [show engineCall s = .error badTxn s from if_pos broken]
    exact ⟨rfl, broken, rfl, rfl, rfl, rfl⟩
  · rw [show engineCall s = nextReport s from if_neg broken, nextReport]
    rcases s.faults with - | ⟨_ | fault, rest⟩
    · exact Txn.Becomes.refl s
    · exact ⟨rfl, rfl, rfl, rfl, rfl⟩
    · exact ⟨fault.poisons, rfl, rfl, rfl, rfl, rfl⟩

theorem query_spec {α : Type} {read : Tables → α} :
    wp (query read) (fun a s' => a = read s.tables ∧ s.Agrees s') s.Fails s := by
  refine wp.bind engineCall_spec fun _ s' agrees => ?_
  exact wp.get_bind (wp.pure ⟨congrArg read agrees.tables, agrees⟩)

theorem update_spec {change : Tables → Tables} :
    wp (update change) (fun _ s' => s.Becomes (change s.tables) s') s.Fails s := by
  refine wp.bind engineCall_spec fun _ s' agrees => wp.modify ?_
  exact ⟨congrArg change agrees.tables, agrees.counters, agrees.effects, agrees.broken,
    agrees.written⟩

/-- `query_spec` for callers that only need to know the transaction is broken. -/
theorem query_breaks {α : Type} {read : Tables → α} :
    wp (query read) (fun a s' => a = read s.tables ∧ s.Agrees s') Breaks s :=
  query_spec.stops fun _ _ h => ⟨h.poisons, h.broken⟩

/-- `update_spec` for callers that only need to know the transaction is broken. -/
theorem update_breaks {change : Tables → Tables} :
    wp (update change) (fun _ s' => s.Becomes (change s.tables) s') Breaks s :=
  update_spec.stops fun _ _ h => ⟨h.poisons, h.broken⟩

theorem engineCall_clock :
    wp engineCall (fun _ s' => s'.clock = s.clock) (fun _ _ => True) s := by
  unfold wp
  by_cases broken : s.broken = true
  · rw [show engineCall s = .error badTxn s from if_pos broken]
    trivial
  · rw [show engineCall s = nextReport s from if_neg broken, nextReport]
    rcases s.faults with - | ⟨_ | fault, rest⟩ <;> trivial

/-- Reading the tables does not read the clock. -/
theorem query_clock {α : Type} {read : Tables → α} :
    wp (query read) (fun _ s' => s'.clock = s.clock) (fun _ _ => True) s :=
  wp.bind engineCall_clock fun _ _ h => wp.get_bind (wp.pure h)

theorem update_clock {change : Tables → Tables} :
    wp (update change) (fun _ s' => s'.clock = s.clock) (fun _ _ => True) s :=
  wp.bind engineCall_clock fun _ _ h => wp.modify h

theorem nowMs_spec {fail : StoreError → Txn → Prop} :
    wp nowMs (fun now s' => now = s.clock 0 ∧ s.Agrees s') fail s := ⟨rfl, rfl, rfl, rfl, rfl, rfl⟩

theorem publish_spec {effect : PostCommit} {fail : StoreError → Txn → Prop} :
    wp (publish effect) (fun _ s' => s' = { s with effects := s.effects ++ [effect] }) fail s :=
  wp.modify rfl

end Primitives

end Vash.Store
