import Vash.Store.BackgroundChanges
import Vash.Library.Run

/-!
# The indexes match the records

A shard runs operations one after another, each in a transaction that is
committed unless the engine failed it. Three invariants of the tables, each kept
by every move of `Change`:

* `Tables.Indexed` — every record has its expiry row, although a write that stays
  in its bucket touches none. It needs sweeps to be made before `u64::MAX`, the
  bucket of the records that never expire.
* `Tables.NoOrphans` — every expiry row stands for a record. It needs reclaim
  passes to meet no dead record without a deadline: they leave its row behind.
* `Tables.TagIndexed` — the tag rows are exactly those of the records.
-/

namespace Vash.Store

open Library

/-! ### Runs of a shard -/

/-- A write job or a background pass. -/
inductive Operation where
  | write (op : WriteOp)
  | sweep (budget : Nat)
  | evict (budget : Nat)
  | reclaim (budget : Nat)

def Operation.action (eng : Engine) : Operation → TxnM Unit
  | .write op => do let _ ← apply eng op
  | .sweep budget => do let _ ← Store.sweep eng budget
  | .evict budget => do let _ ← Store.evict eng budget
  | .reclaim budget => do let _ ← reclaimStep eng budget

/-- The keys an operation names. -/
def Operation.keys : Operation → List Bytes
  | .write op => op.keys
  | _ => []

/-- An operation with everything it meets outside the tables: RAM as it stands,
the readings of the clock, and what the engine reports. -/
structure OpStep where
  operation : Operation
  epoch : Nat
  registry : Registry
  pressure : Pressure
  counters : Counters
  clock : Nat → Nat
  faults : List (Option Fault)

def OpStep.engine (e : OpStep) (c : Config) : Engine := ⟨c, e.epoch, e.registry, e.pressure⟩

def OpStep.txn (e : OpStep) (t : Tables) : Txn where
  tables := t
  counters := e.counters
  effects := []
  faults := e.faults
  broken := false
  clock := e.clock
  written := []

/-- The tables a transaction leaves: committed unless it is broken. -/
def perform (c : Config) (t : Tables) (e : OpStep) : Tables :=
  let s := logged (e.operation.action (e.engine c)) (e.txn t)
  if s.broken then t else s.tables

/-- The keys the operations of a run name. -/
def keysInUse (steps : List OpStep) : Set Bytes := { key | ∃ e ∈ steps, key ∈ e.operation.keys }

/-- The operation respects what the scope grants. -/
structure InScope (c : Config) (scope : Scope) (t : Tables) (e : OpStep) : Prop where
  keys : ∀ key ∈ e.operation.keys, key ∈ scope.keys
  sweeps : ∀ budget, e.operation = .sweep budget → e.clock 0 ∈ scope.sweeps
  spares : scope.sparesPersistent → ∀ budget, e.operation = .reclaim budget →
    ReclaimSpares (e.engine c) budget (e.clock 0) t

theorem Operation.action_moves {c : Config} {scope : Scope} {t : Tables} {e : OpStep}
    (jobs : t.JobsOk) (allowed : InScope c scope t e) :
    Leaves (e.operation.action (e.engine c)) (fun s' => Changes c scope t s'.tables) (e.txn t) := by
  have start : Changes c scope t (e.txn t).tables := .refl
  cases hop : e.operation with
  | write op =>
    have known : ∀ key ∈ op.keys, key ∈ scope.keys :=
      fun key mem => allowed.keys key (by rw [hop]; exact mem)
    exact wp.bind (@apply_moves (e.engine c) scope op known t _ start) fun _ _ h => wp.pure h
  | sweep budget =>
    exact wp.bind (drainExpiryIndex_moves budget (fun _ => allowed.sweeps budget hop) start)
      fun _ _ h => wp.pure h
  | evict budget =>
    exact wp.bind (drainExpiryIndex_moves budget (fun absurd => nomatch absurd) start)
      fun _ _ h => wp.pure h
  | reclaim budget =>
    exact wp.bind (reclaimStep_moves budget jobs (fun spares => allowed.spares spares budget hop)
      start) fun _ _ h => wp.pure h

/-- One operation makes moves within its scope. -/
theorem perform_changes {c : Config} {scope : Scope} {t : Tables} {e : OpStep} (jobs : t.JobsOk)
    (allowed : InScope c scope t e) : Changes c scope t (perform c t e) := by
  have moves := Operation.action_moves jobs allowed
  unfold perform logged
  cases run : e.operation.action (e.engine c) (e.txn t) with
  | ok a s' =>
    dsimp only
    split
    · exact .refl
    · exact moves.of_ok run
  | error err s' =>
    dsimp only
    split
    · exact .refl
    · rename_i unbroken
      rcases moves.of_error run with breaks | changes
      · exact absurd breaks.2 unbroken
      · exact changes

theorem Tables.JobsOk.created : Tables.created.JobsOk := by
  intro id job cursor queued
  cases queued

/-- An invariant that every move keeps holds after every run within the scope. -/
theorem run_perform_invariant {c : Config} (scope : Scope) (inv : Tables → Prop)
    (keeps : ∀ t t', inv t → Change c scope t t' → inv t') {t : Tables} (jobs : t.JobsOk)
    (start : inv t) {steps : List OpStep} (allowed : Along (perform c) (InScope c scope) t steps) :
    (run (perform c) t steps).JobsOk ∧ inv (run (perform c) t steps) := by
  refine run_invariant (I := fun t => t.JobsOk ∧ inv t) ?_ ⟨jobs, start⟩ allowed
  rintro t e ⟨jobs, held⟩ allowed
  have changes := perform_changes jobs allowed
  exact ⟨changes.jobsOk jobs, changes.invariant keeps held⟩

/-! ### Every record has its expiry row -/

/-- Every record stands in `exp` under the row of its deadline. -/
def Tables.Indexed (c : Config) (t : Tables) : Prop :=
  ∀ key r, t.main.get key = some r → t.exp.get (encodeKey c r.header.expiresAtMs key) = some key

/-- The keys of the records are known. -/
def Tables.KeysIn (keys : Set Bytes) (t : Tables) : Prop :=
  ∀ key r, t.main.get key = some r → key ∈ keys

theorem Tables.KeysIn.of_empty {keys : Set Bytes} {t : Tables} (main : t.main = ∅) :
    t.KeysIn keys := by
  intro key r found
  rw [main] at found
  cases found

theorem Tables.Indexed.of_empty {c : Config} {t : Tables} (main : t.main = ∅) : t.Indexed c := by
  intro key r found
  rw [main] at found
  cases found

section KeysIn

variable {c : Config} {scope : Scope} {t t' : Tables}

theorem Tables.KeysIn.change (known : t.KeysIn scope.keys) (change : Change c scope t t') :
    t'.KeysIn scope.keys := by
  -- A record after the move was there before, or is the one a write stored.
  have deleted : ∀ key', (∀ key r, (t.main.delete key').get key = some r → key ∈ scope.keys) :=
    fun _ key r found => known key r (Table.get_of_delete found)
  cases change with
  | store mem _ =>
    intro key r found
    rw [Tables.store, Table.get_put] at found
    split at found
    · rename_i same
      exact same ▸ mem
    · exact known key r found
  | remove mem => exact deleted _
  | take _ _ _ => exact deleted _
  | stale _ _ => exact known
  | early _ _ _ _ _ _ => exact known
  | orphan _ _ => exact known
  | reclaim _ _ => exact deleted _
  | flush => exact .of_empty rfl
  | other main _ _ _ =>
    intro key r found
    rw [main] at found
    exact known key r found

end KeysIn

section MoveRow

variable {c : Config} {key : Bytes} {exp : Table IndexKey Bytes}

/-- Moving the row of `key` leaves the rows of other hashes alone. -/
theorem moveRow_get_of_ne {indexedAt : Option Nat} {e : Nat} {entry : IndexKey}
    (ne : (ofLex entry).2 ≠ c.hash key) :
    (moveRow c key indexedAt e exp).get entry = exp.get entry := by
  have other : ∀ e', entry ≠ encodeKey c e' key := fun e' same => ne (by rw [same]; rfl)
  unfold moveRow
  split
  · rfl
  · rw [Table.get_put_of_ne (other e)]
    cases indexedAt with
    | none => rfl
    | some previously => exact Table.get_delete_of_ne (other previously)

/-- The row of `key` is in place afterwards, if the one it had before was. -/
theorem moveRow_get_self {indexedAt : Option Nat} {e : Nat}
    (before : ∀ e', indexedAt = some e' → exp.get (encodeKey c e' key) = some key) :
    (moveRow c key indexedAt e exp).get (encodeKey c e key) = some key := by
  unfold moveRow
  split
  · rename_i same
    cases indexedAt with
    | none => exact absurd same (by simp [sameBucket])
    | some previously =>
      have bucket := of_decide_eq_true same
      rw [← before previously rfl, encodeKey, encodeKey, bucket]
  · exact Table.get_put_self _ _ _

end MoveRow

/-- A row due below `u64::MAX` whose record it stands for has an expired record. -/
theorem isExpired_of_due {g now : Nat} {r : Record} (below : now < u64Max)
    (due : bucketFor r.header.expiresAtMs g ≤ now) : r.isExpired now = true := by
  unfold bucketFor neverBucket at due
  split at due
  · omega
  · rename_i volatile
    have rounded := le_bucket r.header.expiresAtMs g
    simp only [Record.isExpired, ne_eq, volatile, not_false_eq_true, true_and, decide_eq_true_eq]
    omega

theorem Tables.indexedAt_eq_some {t : Tables} {key : Bytes} {e : Nat} :
    t.indexedAt key = some e ↔ ∃ r, t.main.get key = some r ∧ r.header.expiresAtMs = e := by
  simp [Tables.indexedAt]

section Indexed

variable {c : Config} {scope : Scope} {t t' : Tables}

/-- Dropping the record of `key` and a row that stands for no other record. -/
theorem Tables.Indexed.drop {key : Bytes} {entry : IndexKey} (held : t.Indexed c)
    (own : ∀ key' r, key' ≠ key → t.main.get key' = some r →
      encodeKey c r.header.expiresAtMs key' ≠ entry) {tagidx : Table IndexKey Bytes} :
    { t with main := t.main.delete key, exp := t.exp.delete entry, tagidx }.Indexed c := by
  intro key' r found
  rw [Table.get_delete] at found
  split at found
  · cases found
  · rename_i ne
    rw [Table.get_delete_of_ne (own key' r ne found)]
    exact held key' r found

/-- Dropping the record of `key` alone. -/
theorem Tables.Indexed.dropRecord {key : Bytes} (held : t.Indexed c)
    {tagidx : Table IndexKey Bytes} : { t with main := t.main.delete key, tagidx }.Indexed c :=
  fun key' r found => held key' r (Table.get_of_delete found)

/-- Dropping a row that stands for no record. -/
theorem Tables.Indexed.dropRow {entry : IndexKey} (held : t.Indexed c)
    (none : ∀ key r, t.main.get key = some r → encodeKey c r.header.expiresAtMs key ≠ entry) :
    { t with exp := t.exp.delete entry }.Indexed c := by
  intro key r found
  rw [Table.get_delete_of_ne (none key r found)]
  exact held key r found

/-- Rows of different known keys are different rows. -/
theorem encodeKey_ne (inj : Set.InjOn c.hash scope.keys) {key key' : Bytes}
    (known : key ∈ scope.keys) (known' : key' ∈ scope.keys) (ne : key' ≠ key) (e e' : Nat) :
    encodeKey c e' key' ≠ encodeKey c e key :=
  fun same => ne (inj known' known (encodeKey_inj.mp same).2)

/-- Every move keeps the expiry rows of the records, while sweeps are made below
`u64::MAX`. -/
theorem Tables.Indexed.change (inj : Set.InjOn c.hash scope.keys)
    (below : ∀ now ∈ scope.sweeps, now < u64Max) (known : t.KeysIn scope.keys)
    (held : t.Indexed c) (change : Change c scope t t') : t'.Indexed c := by
  -- A row leads to one key only, so a record whose row is `entry` is the one it names.
  have named : ∀ {entry key}, t.exp.get entry = some key → ∀ key' r, t.main.get key' = some r →
      encodeKey c r.header.expiresAtMs key' = entry → key' = key := by
    intro entry key row key' r found same
    exact Option.some.inj ((held key' r found).symm.trans (same ▸ row))
  cases change with
  | @store key mem r =>
    intro key' r' found
    rw [Tables.store, Table.get_put] at found
    split at found
    · rename_i same
      subst same
      obtain rfl := Option.some.inj found
      refine moveRow_get_self fun e indexed => ?_
      obtain ⟨old, stored, rfl⟩ := Tables.indexedAt_eq_some.mp indexed
      exact held key' old stored
    · rename_i ne
      refine (moveRow_get_of_ne fun same => ?_).trans (held key' r' found)
      exact ne (inj (known key' r' found) mem same)
  | @remove key mem =>
    unfold Tables.remove
    split
    · exact held.drop fun key' r ne found => encodeKey_ne inj mem (known key' r found) ne _ _
    · exact held.dropRecord
  | @take entry key r row stored current =>
    exact held.drop fun key' r' ne found same => ne (named row key' r' found same)
  | @stale entry key row moved =>
    refine held.dropRow fun key' r found same => ?_
    obtain rfl := named row key' r found same
    exact moved r found (congrArg (fun k => (ofLex k).1) same)
  | @early entry key r now row stored reading due current unexpired =>
    have expired := isExpired_of_due (below now reading) (current ▸ due)
    exact absurd expired (by simp [unexpired])
  | orphan _ _ => exact held
  | @reclaim key r stored _ =>
    have own : ∀ e key' r', key' ≠ key → t.main.get key' = some r' →
        encodeKey c r'.header.expiresAtMs key' ≠ encodeKey c e key :=
      fun e key' r' ne found => encodeKey_ne inj (known key r stored) (known key' r' found) ne _ _
    unfold Tables.reclaim
    split
    · split
      · exact held.drop (own _)
      · exact held.dropRecord
    · exact held.dropRecord
  | flush => exact .of_empty rfl
  | other main exp _ _ =>
    intro key r found
    rw [main] at found
    rw [exp]
    exact held key r found

end Indexed

/-! ### Every expiry row stands for a record -/

/-- Every row of `exp` is the row of the record under the key it names. -/
def Tables.NoOrphans (c : Config) (t : Tables) : Prop :=
  ∀ entry key, t.exp.get entry = some key →
    ∃ r, t.main.get key = some r ∧ entry = encodeKey c r.header.expiresAtMs key

theorem Tables.NoOrphans.of_empty {c : Config} {t : Tables} (exp : t.exp = ∅) :
    t.NoOrphans c := by
  intro entry key row
  rw [exp] at row
  cases row

section NoOrphans

variable {c : Config} {scope : Scope} {t t' : Tables}

/-- Dropping the record of `key` with the row it stands under. -/
theorem Tables.NoOrphans.drop {key : Bytes} {r : Record} {entry : IndexKey} (held : t.NoOrphans c)
    (stored : t.main.get key = some r) (own : entry = encodeKey c r.header.expiresAtMs key)
    {tagidx : Table IndexKey Bytes} :
    { t with main := t.main.delete key, exp := t.exp.delete entry, tagidx }.NoOrphans c := by
  intro entry' key' row
  rw [Table.get_delete] at row
  split at row
  · cases row
  · rename_i ne
    obtain ⟨r', stored', own'⟩ := held entry' key' row
    refine ⟨r', ?_, own'⟩
    rw [Table.get_delete_of_ne, stored']
    rintro rfl
    obtain rfl := Option.some.inj (stored.symm.trans stored')
    exact ne (own'.trans own.symm)

theorem Tables.NoOrphans.dropRow (held : t.NoOrphans c) (entry : IndexKey) :
    { t with exp := t.exp.delete entry }.NoOrphans c :=
  fun entry' key row => held entry' key (Table.get_of_delete row)

/-- A key without a record has no row. -/
theorem Tables.NoOrphans.absent (held : t.NoOrphans c) {key : Bytes}
    (absent : t.main.get key = none) {tagidx : Table IndexKey Bytes} :
    { t with main := t.main.delete key, tagidx }.NoOrphans c := by
  intro entry key' row
  obtain ⟨r, stored, own⟩ := held entry key' row
  refine ⟨r, ?_, own⟩
  rw [Table.get_delete_of_ne, stored]
  rintro rfl
  simp [absent] at stored

/-- A stored record's rows: its own, and no row of what it replaced. -/
theorem Tables.NoOrphans.store (held : t.NoOrphans c) (key : Bytes) (r : Record) :
    (t.store c key r).NoOrphans c := by
  intro entry key' row
  -- A row that was there before the write names `key` only if the write kept it.
  have kept : ∀ entry, t.exp.get entry = some key' →
      (key' = key → entry = encodeKey c r.header.expiresAtMs key) →
      ∃ r', (t.store c key r).main.get key' = some r' ∧
        entry = encodeKey c r'.header.expiresAtMs key' := by
    intro entry row own
    rw [Tables.store, Table.get_put]
    split
    · rename_i same
      exact ⟨r, rfl, same ▸ own same⟩
    · exact held entry key' row
  have old : ∀ entry, t.exp.get entry = some key' → key' = key →
      ∃ e, t.indexedAt key = some e ∧ entry = encodeKey c e key := by
    intro entry' row' named
    obtain ⟨r', stored, own⟩ := held entry' key' row'
    rw [named] at stored own
    exact ⟨_, Tables.indexedAt_eq_some.mpr ⟨r', stored, rfl⟩, own⟩
  change (moveRow c key (t.indexedAt key) r.header.expiresAtMs t.exp).get entry = _ at row
  unfold moveRow at row
  split at row
  · rename_i same
    refine kept entry row fun named => ?_
    obtain ⟨e, indexed, own⟩ := old entry row named
    rw [indexed] at same
    rw [own]
    exact encodeKey_inj.mpr ⟨of_decide_eq_true same, rfl⟩
  · rw [Table.get_put] at row
    split at row
    · rename_i own
      obtain rfl := Option.some.inj row
      refine ⟨r, ?_, own⟩
      rw [Tables.store]
      exact Table.get_put_self _ _ _
    · cases indexed : t.indexedAt key with
      | none =>
        simp only [indexed] at row
        refine kept entry row fun named => ?_
        obtain ⟨e, indexed', -⟩ := old entry row named
        simp [indexed] at indexed'
      | some e =>
        simp only [indexed, Table.get_delete] at row
        split at row
        · cases row
        · rename_i ne
          refine kept entry row fun named => ?_
          obtain ⟨e', indexed', own⟩ := old entry row named
          obtain rfl := Option.some.inj (indexed.symm.trans indexed')
          exact absurd own ne

/-- Every move keeps rows to records, while reclaimers delete no record without a
deadline. -/
theorem Tables.NoOrphans.change (spares : scope.sparesPersistent) (held : t.NoOrphans c)
    (change : Change c scope t t') : t'.NoOrphans c := by
  cases change with
  | store _ r => exact held.store _ r
  | @remove key _ =>
    unfold Tables.remove
    split
    · rename_i e indexed
      obtain ⟨r, stored, rfl⟩ := Tables.indexedAt_eq_some.mp indexed
      exact held.drop stored rfl
    · rename_i absent
      exact held.absent (by simpa [Tables.indexedAt] using absent)
  | @take entry key r row stored _ =>
    obtain ⟨r', stored', own⟩ := held entry key row
    exact held.drop stored' own
  | stale _ _ => exact held.dropRow _
  | early _ _ _ _ _ _ => exact held.dropRow _
  | orphan _ _ => exact held
  | @reclaim key r stored spared =>
    have indexed : t.indexedAt key = some r.header.expiresAtMs :=
      Tables.indexedAt_eq_some.mpr ⟨r, stored, rfl⟩
    unfold Tables.reclaim
    simp only [indexed, if_pos (spared spares)]
    exact held.drop stored rfl
  | flush => exact .of_empty rfl
  | other main exp _ _ =>
    intro entry key row
    rw [exp] at row
    rw [main]
    exact held entry key row

/-- With both invariants the two tables have the same number of rows. -/
theorem Tables.size_eq (indexed : t.Indexed c) (noOrphans : t.NoOrphans c) :
    t.exp.size = t.main.size := by
  apply le_antisymm
  · refine Table.size_le_of_injOn Prod.snd (fun row mem => ?_) fun a ha b hb same => ?_
    · obtain ⟨r, stored, -⟩ := noOrphans row.1 row.2 (Table.get_eq_some_iff.mpr mem)
      exact ⟨r, stored⟩
    · obtain ⟨r, stored, own⟩ := noOrphans a.1 a.2 (Table.get_eq_some_iff.mpr ha)
      obtain ⟨r', stored', own'⟩ := noOrphans b.1 b.2 (Table.get_eq_some_iff.mpr hb)
      rw [← same] at stored' own'
      obtain rfl := Option.some.inj (stored.symm.trans stored')
      exact Prod.ext (own.trans own'.symm) same
  · refine Table.size_le_of_injOn (fun row => encodeKey c row.2.header.expiresAtMs row.1)
      (fun row mem => ⟨row.1, indexed row.1 row.2 (Table.get_eq_some_iff.mpr mem)⟩) ?_
    intro a ha b hb same
    have rowA := indexed a.1 a.2 (Table.get_eq_some_iff.mpr ha)
    have rowB := indexed b.1 b.2 (Table.get_eq_some_iff.mpr hb)
    dsimp only at same
    rw [same, rowB] at rowA
    exact List.inj_on_of_nodup_map t.main.keys_nodup ha hb (Option.some.inj rowA).symm

end NoOrphans

/-! ### The tag index -/

/-- The row of a tag and a key is there exactly when the record under the key
carries the tag. -/
def Tables.TagIndexed (c : Config) (t : Tables) : Prop :=
  ∀ id key, t.tagidx.get (indexKey c id key) = some key ↔
    ∃ r, t.main.get key = some r ∧ id ∈ r.tagIds

/-- The keys the tag rows name are known. -/
def Tables.TagKeysIn (keys : Set Bytes) (t : Tables) : Prop :=
  ∀ entry key, t.tagidx.get entry = some key → key ∈ keys

theorem Tables.TagKeysIn.of_empty {keys : Set Bytes} {t : Tables} (tagidx : t.tagidx = ∅) :
    t.TagKeysIn keys := by
  intro entry key row
  rw [tagidx] at row
  cases row

section TagIndexed

variable {c : Config} {scope : Scope} {t t' : Tables}

/-- Tables without records and without tag rows. -/
theorem Tables.TagIndexed.of_empty (main : t.main = ∅) (tagidx : t.tagidx = ∅) :
    t.TagIndexed c := by
  intro id key
  rw [main, tagidx]
  constructor
  · intro row
    cases row
  · rintro ⟨r, stored, -⟩
    cases stored

theorem mem_tagKeys {key : Bytes} {ids : List Nat} {entry : IndexKey} :
    entry ∈ tagKeys c key ids ↔ (ofLex entry).1 ∈ ids ∧ (ofLex entry).2 = c.hash key := by
  simp only [tagKeys, List.mem_map, indexKey]
  constructor
  · rintro ⟨id, mem, rfl⟩
    exact ⟨mem, rfl⟩
  · rintro ⟨mem, hash⟩
    exact ⟨_, mem, by rw [← hash]; rfl⟩

theorem indexKey_mem_tagKeys {id : Nat} {key key' : Bytes} {ids : List Nat} :
    indexKey c id key' ∈ tagKeys c key ids ↔ id ∈ ids ∧ c.hash key' = c.hash key := mem_tagKeys

theorem Tables.mem_tagIdsAt {id : Nat} {key : Bytes} :
    id ∈ t.tagIdsAt key ↔ ∃ r, t.main.get key = some r ∧ id ∈ r.tagIds := by
  unfold Tables.tagIdsAt
  cases t.main.get key <;> simp

/-- What holds of the tag rows a write stores holds of all of them: other moves only
drop rows. -/
theorem Change.tagRows {P : IndexKey → Bytes → Prop}
    (stores : ∀ key ∈ scope.keys, ∀ id, P (indexKey c id key) key)
    (held : ∀ entry key, t.tagidx.get entry = some key → P entry key)
    (change : Change c scope t t') :
    ∀ entry key, t'.tagidx.get entry = some key → P entry key := by
  have dropped : ∀ entries entry key, (t.tagidx.deleteAll entries).get entry = some key →
      P entry key := fun _ entry key row => held entry key (Table.get_of_deleteAll row)
  cases change with
  | @store key mem r =>
    intro entry key' row
    change ((t.tagidx.deleteAll _).putAll _ key).get entry = _ at row
    rw [Table.get_putAll] at row
    split at row
    · rename_i own
      obtain rfl := Option.some.inj row
      obtain ⟨id, -, rfl⟩ := List.mem_map.mp own
      exact stores key mem id
    · exact dropped _ entry key' row
  | remove _ => exact dropped _
  | take _ _ _ => exact dropped _
  | stale _ _ => exact held
  | early _ _ _ _ _ _ => exact held
  | orphan _ _ => exact dropped [_]
  | reclaim _ _ => exact dropped _
  | flush =>
    intro entry key row
    cases row
  | other _ _ tagidx _ =>
    rw [tagidx]
    exact held

theorem Tables.TagKeysIn.change (known : t.TagKeysIn scope.keys) (change : Change c scope t t') :
    t'.TagKeysIn scope.keys := change.tagRows (fun _ mem _ => mem) known

/-- Dropping the record of a known key with its tag rows. -/
theorem Tables.TagIndexed.drop (inj : Set.InjOn c.hash scope.keys) (known : t.KeysIn scope.keys)
    (tagKnown : t.TagKeysIn scope.keys) (held : t.TagIndexed c) {key : Bytes}
    (mem : key ∈ scope.keys) {exp : Table IndexKey Bytes} :
    { t with
      main := t.main.delete key
      exp
      tagidx := t.tagidx.deleteAll (tagKeys c key (t.tagIdsAt key)) }.TagIndexed c := by
  intro id key'
  rw [Table.get_deleteAll, Table.get_delete]
  by_cases same : key' = key
  · subst same
    -- Whatever row the record had is among those dropped.
    have dropped : ¬ (indexKey c id key' ∉ tagKeys c key' (t.tagIdsAt key') ∧
        t.tagidx.get (indexKey c id key') = some key') := by
      rintro ⟨kept, row⟩
      exact kept (mem_tagKeys.mpr ⟨Tables.mem_tagIdsAt.mpr ((held id key').mp row), rfl⟩)
    simpa using dropped
  · rw [if_neg same]
    by_cases hash : c.hash key' = c.hash key
    · -- A key in scope has its own hash, so `key'` is not in use.
      have unknown : key' ∉ scope.keys := fun known' => same (inj known' mem hash)
      refine ⟨fun row => ?_, ?_⟩
      · rw [← Table.get_deleteAll] at row
        exact absurd (tagKnown _ key' (Table.get_of_deleteAll row)) unknown
      · rintro ⟨r, stored, -⟩
        exact absurd (known key' r stored) unknown
    · rw [if_neg fun mem => hash (indexKey_mem_tagKeys.mp mem).2]
      exact held id key'

/-- Storing a record under a known key with its tag rows. -/
theorem Tables.TagIndexed.store (inj : Set.InjOn c.hash scope.keys) (known : t.KeysIn scope.keys)
    (tagKnown : t.TagKeysIn scope.keys) (held : t.TagIndexed c) {key : Bytes}
    (mem : key ∈ scope.keys) (r : Record) : (t.store c key r).TagIndexed c := by
  have cleared : { t with
      main := t.main.delete key
      tagidx := t.tagidx.deleteAll (tagKeys c key (t.tagIdsAt key)) }.TagIndexed c :=
    held.drop inj known tagKnown mem
  intro id key'
  have before := cleared id key'
  rw [Table.get_delete] at before
  change ((t.tagidx.deleteAll _).putAll _ key).get (indexKey c id key') = _ ↔
    ∃ r', (t.main.put key r).get key' = some r' ∧ _
  rw [Table.get_putAll, Table.get_put]
  by_cases same : key' = key
  · subst same
    rw [if_pos rfl] at before ⊢
    by_cases carries : id ∈ r.tagIds
    · rw [if_pos (indexKey_mem_tagKeys.mpr ⟨carries, rfl⟩)]
      exact iff_of_true rfl ⟨r, rfl, carries⟩
    · rw [if_neg fun mem => carries (indexKey_mem_tagKeys.mp mem).1]
      refine iff_of_false (fun row => ?_) ?_
      · obtain ⟨_, stored, -⟩ := before.mp row
        cases stored
      · rintro ⟨r', stored, mem⟩
        rw [← Option.some.inj stored] at mem
        exact carries mem
  · rw [if_neg same] at before ⊢
    by_cases hash : c.hash key' = c.hash key
    · have unknown : key' ∉ scope.keys := fun known' => same (inj known' mem hash)
      refine iff_of_false (fun row => ?_) ?_
      · split at row
        · exact same (Option.some.inj row).symm
        · exact unknown (tagKnown _ key' (Table.get_of_deleteAll row))
      · rintro ⟨r', stored, -⟩
        exact unknown (known key' r' stored)
    · rw [if_neg fun mem => hash (indexKey_mem_tagKeys.mp mem).2]
      exact before

/-- Every move keeps the tag index exact. -/
theorem Tables.TagIndexed.change (inj : Set.InjOn c.hash scope.keys) (known : t.KeysIn scope.keys)
    (tagKnown : t.TagKeysIn scope.keys) (held : t.TagIndexed c) (change : Change c scope t t') :
    t'.TagIndexed c := by
  cases change with
  | store mem r => exact held.store inj known tagKnown mem r
  | remove mem => exact held.drop inj known tagKnown mem
  | take _ stored _ => exact held.drop inj known tagKnown (known _ _ stored)
  | stale _ _ => exact held
  | early _ _ _ _ _ _ => exact held
  | @orphan entry key row gone =>
    intro id key'
    rw [Table.get_delete]
    split
    · rename_i same
      refine iff_of_false (by simp) ?_
      rintro ⟨r, stored, carries⟩
      have listed := (held id key').mpr ⟨r, stored, carries⟩
      rw [same] at listed
      obtain rfl := row key' listed
      refine gone r stored ?_
      rw [← same]
      exact carries
    · exact held id key'
  | reclaim stored _ => exact held.drop inj known tagKnown (known _ _ stored)
  | flush => exact .of_empty rfl rfl
  | other main _ tagidx _ =>
    intro id key
    rw [main, tagidx]
    exact held id key

end TagIndexed

end Vash.Store
