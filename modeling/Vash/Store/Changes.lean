import Vash.Store.Locality
import Vash.Store.TagSteps

/-!
# What a transaction does to the tables

Every operation changes the record tables by a few whole moves: a record is
stored, deleted, swept, reclaimed, or a dead index row is dropped. `Change` lists
the moves with what is known when each is made.

* `apply_moves` — a job of a batch is a sequence of moves, unless the engine failed
  and the transaction must be aborted.

An invariant of the tables is then shown once for each move.
-/

namespace Vash.Store

open Library

/-! ### Moves on the tables -/

/-- The tag rows of `key` for the given ids. -/
def tagKeys (c : Config) (key : Bytes) (ids : List Nat) : List IndexKey :=
  ids.map fun id => indexKey c id key

/-- The tag ids of the record under `key`. -/
def Tables.tagIdsAt (t : Tables) (key : Bytes) : List Nat :=
  match t.main.get key with
  | some r => r.tagIds
  | none => []

/-- The deadline of the record under `key`, live or not. -/
def Tables.indexedAt (t : Tables) (key : Bytes) : Option Nat :=
  (t.main.get key).map fun r => r.header.expiresAtMs

/-- The expiry table after a record indexed at `indexedAt` moved to `expiresAtMs`. -/
def moveRow (c : Config) (key : Bytes) (indexedAt : Option Nat) (expiresAtMs : Nat)
    (exp : Table IndexKey Bytes) : Table IndexKey Bytes :=
  if sameBucket c indexedAt expiresAtMs then exp
  else
    (match indexedAt with
      | some previously => exp.delete (encodeKey c previously key)
      | none => exp).put (encodeKey c expiresAtMs key) key

/-- A record stored over whatever was under `key`. -/
def Tables.store (c : Config) (key : Bytes) (r : Record) (t : Tables) : Tables :=
  { t with
    main := t.main.put key r
    exp := moveRow c key (t.indexedAt key) r.header.expiresAtMs t.exp
    tagidx := (t.tagidx.deleteAll (tagKeys c key (t.tagIdsAt key))).putAll
      (tagKeys c key r.tagIds) key }

/-- The record under `key` deleted with its index rows. -/
def Tables.remove (c : Config) (key : Bytes) (t : Tables) : Tables :=
  { t with
    main := t.main.delete key
    exp := match t.indexedAt key with
      | some expiresAtMs => t.exp.delete (encodeKey c expiresAtMs key)
      | none => t.exp
    tagidx := t.tagidx.deleteAll (tagKeys c key (t.tagIdsAt key)) }

/-- The record under `key` swept or evicted through the row `entry`. -/
def Tables.take (c : Config) (entry : IndexKey) (key : Bytes) (t : Tables) : Tables :=
  { t with
    main := t.main.delete key
    exp := t.exp.delete entry
    tagidx := t.tagidx.deleteAll (tagKeys c key (t.tagIdsAt key)) }

/-- The record under `key` reclaimed: a record without a deadline keeps its expiry
row. -/
def Tables.reclaim (c : Config) (key : Bytes) (t : Tables) : Tables :=
  { t with
    main := t.main.delete key
    exp := match t.indexedAt key with
      | some expiresAtMs =>
        if expiresAtMs ≠ never then t.exp.delete (encodeKey c expiresAtMs key) else t.exp
      | none => t.exp
    tagidx := t.tagidx.deleteAll (tagKeys c key (t.tagIdsAt key)) }

/-- The record tables emptied. -/
def Tables.cleared (t : Tables) : Tables := { t with main := ∅, exp := ∅, tagidx := ∅ }

/-- The cursor of every job stands among the rows of its own tag. -/
def Tables.JobsOk (t : Tables) : Prop :=
  ∀ id job cursor, t.jobs.get id = some job → job.cursor = some cursor → (ofLex cursor).1 = id

/-- What is granted about the operations of a run: the keys they name, the clock
readings sweeps are made at, and whether reclaimers meet no dead record without a
deadline. -/
structure Scope where
  keys : Set Bytes
  sweeps : Set Nat
  sparesPersistent : Prop

/-- One move on the record tables. -/
inductive Change (c : Config) (scope : Scope) : Tables → Tables → Prop where
  /-- A write stores a record. -/
  | store {t : Tables} {key : Bytes} (known : key ∈ scope.keys) (r : Record) :
      Change c scope t (t.store c key r)
  /-- A delete removes whatever is there. -/
  | remove {t : Tables} {key : Bytes} (known : key ∈ scope.keys) :
      Change c scope t (t.remove c key)
  /-- A sweep or an eviction takes the record a row stands for. -/
  | take {t : Tables} {entry : IndexKey} {key : Bytes} {r : Record}
      (row : t.exp.get entry = some key) (stored : t.main.get key = some r)
      (current : bucketFor r.header.expiresAtMs c.bucketGranularityMs = (ofLex entry).1) :
      Change c scope t (t.take c entry key)
  /-- A pass drops a row that stands for no record. -/
  | stale {t : Tables} {entry : IndexKey} {key : Bytes} (row : t.exp.get entry = some key)
      (moved : ∀ r, t.main.get key = some r →
        bucketFor r.header.expiresAtMs c.bucketGranularityMs ≠ (ofLex entry).1) :
      Change c scope t { t with exp := t.exp.delete entry }
  /-- A sweep at `now` drops a row that is due although its record is not. -/
  | early {t : Tables} {entry : IndexKey} {key : Bytes} {r : Record} {now : Nat}
      (row : t.exp.get entry = some key) (stored : t.main.get key = some r)
      (reading : now ∈ scope.sweeps) (due : (ofLex entry).1 ≤ now)
      (current : bucketFor r.header.expiresAtMs c.bucketGranularityMs = (ofLex entry).1)
      (unexpired : r.isExpired now = false) :
      Change c scope t { t with exp := t.exp.delete entry }
  /-- The reclaimer drops a tag row whose record is gone or lost the tag. -/
  | orphan {t : Tables} {entry : IndexKey} {key : Bytes}
      (row : ∀ key', t.tagidx.get entry = some key' → key' = key)
      (gone : ∀ r, t.main.get key = some r → (ofLex entry).1 ∉ r.tagIds) :
      Change c scope t { t with tagidx := t.tagidx.delete entry }
  /-- The reclaimer deletes a dead record. -/
  | reclaim {t : Tables} {key : Bytes} {r : Record} (stored : t.main.get key = some r)
      (spared : scope.sparesPersistent → r.header.expiresAtMs ≠ never) :
      Change c scope t (t.reclaim c key)
  /-- A flush empties the tables. -/
  | flush {t : Tables} : Change c scope t t.cleared
  /-- Anything that leaves the record tables alone. -/
  | other {t t' : Tables} (main : t'.main = t.main) (exp : t'.exp = t.exp)
      (tagidx : t'.tagidx = t.tagidx) (jobs : t.JobsOk → t'.JobsOk) : Change c scope t t'

/-- A sequence of moves. -/
def Changes (c : Config) (scope : Scope) : Tables → Tables → Prop :=
  Relation.ReflTransGen (Change c scope)

/-- An invariant that every move keeps is kept by every sequence of moves. -/
theorem Changes.invariant {c : Config} {scope : Scope} {inv : Tables → Prop}
    (keeps : ∀ t t', inv t → Change c scope t t' → inv t') {t t' : Tables} (held : inv t)
    (changes : Changes c scope t t') : inv t' := by
  induction changes with
  | refl => exact held
  | tail _ change ih => exact keeps _ _ ih change

theorem Changes.jobsOk {c : Config} {scope : Scope} {t t' : Tables}
    (changes : Changes c scope t t') (held : t.JobsOk) : t'.JobsOk := by
  refine Changes.invariant ?_ held changes
  intro t t' held change
  cases change with
  | other _ _ _ jobs => exact jobs held
  | _ => exact held

/-! ### Drawing tokens -/

/-- The token of a count. -/
def Config.token (c : Config) (count : Nat) : Nat := (count * c.shardCount + c.shardIndex) % 2 ^ 64

/-- The counters after a write of `key` has drawn its token. -/
def CasState.draw (c : Config) (key : Bytes) (v : CasState) : CasState :=
  let count := wrappingAdd64 v.next 1
  let watermark := wrappingAdd64 count casBlock
  { next := count
    watermark := if count ≥ v.watermark then watermark else v.watermark
    durable := if count ≥ v.watermark then some watermark else v.durable
    written := v.written ++ [(key, c.token count)] }

/-- The transaction after it. -/
def Txn.drawn (c : Config) (key : Bytes) (s : Txn) : Txn :=
  casPart.put ((casPart.get s).draw c key) s

/-! ### What the helpers of a write do -/

section Helpers

variable {eng : Engine} {s : Txn}

theorem clearTagRows_spec (key : Bytes) (ids : List Nat) :
    wp (clearTagRows eng key ids)
      (fun _ s' => s.Becomes { s.tables with
        tagidx := s.tables.tagidx.deleteAll (tagKeys eng.config key ids) } s') Breaks s := by
  induction ids generalizing s with
  | nil => exact wp.pure (.refl s)
  | cons id rest ih =>
    refine wp.bind update_breaks fun _ s₁ h₁ => ih.imp fun _ s₂ h₂ => h₁.trans ?_
    rw [h₁.tables] at h₂
    exact h₂

theorem putTagRows_spec (key : Bytes) (ids : List Nat) :
    wp (putTagRows eng key ids)
      (fun _ s' => s.Becomes { s.tables with
        tagidx := s.tables.tagidx.putAll (tagKeys eng.config key ids) key } s') Breaks s := by
  induction ids generalizing s with
  | nil => exact wp.pure (.refl s)
  | cons id rest ih =>
    refine wp.bind update_breaks fun _ s₁ h₁ => ih.imp fun _ s₂ h₂ => h₁.trans ?_
    rw [h₁.tables] at h₂
    exact h₂

/-- Drawing a token advances the count, and the watermarks when the block runs out. -/
theorem nextCas_spec (key : Bytes) :
    wp (nextCas eng)
      (fun cas s' => cas = eng.config.token (wrappingAdd64 s.counters.casNext 1) ∧
        { s.drawn eng.config key with written := s.written }.Agrees s')
      Breaks s := by
  unfold nextCas
  refine wp.get_bind (wp.set_bind ?_)
  split
  · rename_i runsOut
    refine wp.bind update_breaks fun _ s₁ h₁ => wp.modify_bind (wp.pure ⟨rfl, ?_⟩)
    refine ⟨?_, ?_, h₁.effects, h₁.broken, h₁.written⟩ <;>
      simp [Txn.drawn, casPart, CasState.draw, runsOut, h₁.tables, h₁.counters]
  · rename_i inHand
    refine wp.pure ⟨rfl, ?_, ?_, rfl, rfl, rfl⟩ <;>
      simp [Txn.drawn, casPart, CasState.draw, inHand]

/-- The judgement of a record at the next reading of the clock. -/
theorem judge_reads {r : Record} {fail : StoreError → Txn → Prop} :
    wp (judge eng r)
      (fun live s' => live = r.isAlive (s.clock 0) eng.epoch eng.registry.generation ∧
        s.Agrees s') fail s :=
  wp.bind nowMs_spec fun _ _ h => wp.pure ⟨h.1 ▸ rfl, h.2⟩

theorem judge_spec {r : Record} {fail : StoreError → Txn → Prop} :
    wp (judge eng r)
      (fun live s' => (∃ now, live = r.isAlive now eng.epoch eng.registry.generation) ∧
        s.Agrees s') fail s :=
  judge_reads.imp fun _ _ h => ⟨⟨s.clock 0, h.1⟩, h.2⟩

/-- What `displace` reports, judged at the reading `now`. -/
def displacedAt (eng : Engine) (t : Tables) (key : Bytes) (wantValue : Bool) (now : Nat) :
    Displaced :=
  match t.main.get key with
  | none => .default
  | some r => .of r (r.isAlive now eng.epoch eng.registry.generation) wantValue

theorem displacedAt_indexedAt (t : Tables) (key : Bytes) (wantValue : Bool) (now : Nat) :
    (displacedAt eng t key wantValue now).indexedAt = t.indexedAt key := by
  unfold displacedAt Tables.indexedAt
  cases t.main.get key <;> rfl

/-- The tables after `displace` on `key`. -/
def Tables.displaced (c : Config) (key : Bytes) (keepExpiryRow : Bool) (t : Tables) : Tables :=
  { t with
    exp := if keepExpiryRow then t.exp else (t.remove c key).exp
    tagidx := t.tagidx.deleteAll (tagKeys c key (t.tagIdsAt key)) }

theorem Tables.displaced_of_absent {t : Tables} {key : Bytes} (absent : t.main.get key = none)
    (c : Config) (keepExpiryRow : Bool) : t.displaced c key keepExpiryRow = t := by
  simp [Tables.displaced, Tables.remove, Tables.indexedAt, Tables.tagIdsAt, absent, tagKeys,
    Table.deleteAll]

/-- The record displaced is judged at the next reading of the clock. -/
theorem displace_reads (key : Bytes) (wantValue keepExpiryRow : Bool) :
    wp (displace eng key wantValue keepExpiryRow)
      (fun d s' => d = displacedAt eng s.tables key wantValue (s.clock 0) ∧
        s.Becomes (s.tables.displaced eng.config key keepExpiryRow) s') Breaks s := by
  unfold displace
  refine wp.bind (query_breaks.and query_clock |>.stops fun _ _ h => h.1) ?_
  rintro _ s₁ ⟨⟨rfl, h₁⟩, clock⟩
  cases found : s.tables.main.get key with
  | none =>
    rw [Tables.displaced_of_absent found]
    exact wp.pure ⟨by simp [displacedAt, found], h₁⟩
  | some r =>
    refine wp.bind judge_reads ?_
    rintro _ s₂ ⟨rfl, h₂⟩
    have report : displacedAt eng s.tables key wantValue (s.clock 0) =
        .of r (r.isAlive (s₁.clock 0) eng.epoch eng.registry.generation) wantValue := by
      simp [displacedAt, found, clock]
    have reached : s.Agrees s₂ := Txn.agrees_trans h₁ h₂
    refine wp.bind (m := fun _ s' =>
      s.Becomes (s.tables.displaced eng.config key keepExpiryRow) s') ?_
      fun _ s' h => wp.pure ⟨report.symm, h⟩
    cases keepExpiryRow with
    | true =>
      refine (clearTagRows_spec key r.tagIds).imp fun _ s₃ h₃ => reached.trans ?_
      rw [reached.tables] at h₃
      simpa [Tables.displaced, Tables.tagIdsAt, found] using h₃
    | false =>
      refine wp.bind update_breaks fun _ s₃ h₃ =>
        (clearTagRows_spec key _).imp fun _ s₄ h₄ => (reached.trans h₃).trans ?_
      rw [h₃.tables, reached.tables] at h₄
      simpa [Tables.displaced, Tables.remove, Tables.indexedAt, Tables.tagIdsAt, found,
        IndexRows.of] using h₄

theorem displace_spec (key : Bytes) (wantValue keepExpiryRow : Bool) :
    wp (displace eng key wantValue keepExpiryRow)
      (fun d s' => (∃ now, d = displacedAt eng s.tables key wantValue now) ∧
        s.Becomes (s.tables.displaced eng.config key keepExpiryRow) s') Breaks s :=
  (displace_reads key wantValue keepExpiryRow).imp fun _ _ h => ⟨⟨s.clock 0, h.1⟩, h.2⟩

theorem reindexExpiry_spec (key : Bytes) (indexedAt : Option Nat) (expiresAtMs : Nat) :
    wp (reindexExpiry eng key indexedAt expiresAtMs)
      (fun _ s' => s.Becomes { s.tables with
        exp := moveRow eng.config key indexedAt expiresAtMs s.tables.exp } s') Breaks s := by
  unfold reindexExpiry moveRow
  split
  · exact wp.pure (.refl s)
  · cases indexedAt with
    | none => exact update_breaks
    | some previously =>
      refine wp.bind update_breaks fun _ s₁ h₁ => update_breaks.imp fun _ s₂ h₂ => h₁.trans ?_
      rw [h₁.tables] at h₂
      exact h₂

/-- A read made ahead reports the record that is there. -/
def PreRead.Reads (pre : PreRead) (t : Tables) (key : Bytes) : Prop :=
  pre.rows = (t.main.get key).map IndexRows.of ∧ pre.displaced.indexedAt = t.indexedAt key

theorem displaceOrPreRead_spec (p : PreparedSet) {preRead : Option PreRead}
    (reads : ∀ pre ∈ preRead, pre.Reads s.tables p.key) :
    wp (displaceOrPreRead eng p preRead)
      (fun d s' => d.indexedAt = s.tables.indexedAt p.key ∧
        s.Becomes (s.tables.displaced eng.config p.key true) s') Breaks s := by
  cases preRead with
  | none =>
    refine (displace_spec p.key p.returnPrevious true).imp ?_
    rintro _ s' ⟨⟨now, rfl⟩, becomes⟩
    exact ⟨displacedAt_indexedAt s.tables p.key p.returnPrevious now, becomes⟩
  | some pre =>
    obtain ⟨rows, indexed⟩ := reads pre rfl
    cases found : s.tables.main.get p.key with
    | none =>
      rw [found, Option.map_none] at rows
      simp only [displaceOrPreRead, rows, Tables.displaced_of_absent found]
      exact wp.pure ⟨indexed, .refl s⟩
    | some r =>
      rw [found, Option.map_some] at rows
      simp only [displaceOrPreRead, rows]
      refine wp.bind (clearTagRows_spec p.key _) fun _ s₁ h₁ => wp.pure ⟨indexed, ?_⟩
      simpa [Tables.displaced, Tables.tagIdsAt, found, IndexRows.of] using h₁

theorem settleDeadline_spec (p : PreparedSet) (d : Displaced) {fail : StoreError → Txn → Prop} :
    wp (settleDeadline p d)
      (fun e s' => (∀ e', p.expiresAtMs = some e' → e = e') ∧ s.Agrees s') fail s := by
  unfold settleDeadline
  cases p.expiresAtMs with
  | some resolved => exact wp.pure ⟨fun _ h => Option.some.inj h, .refl s⟩
  | none => exact wp.bind nowMs_spec fun now s' h => wp.pure ⟨fun _ absurd => (nomatch absurd), h.2⟩

end Helpers

namespace PreparedSet

@[simp] theorem finish_tags (p : PreparedSet) (cas e : Nat) : (p.finish cas e).tags = p.tags := by
  rw [← p.tags_eq]
  unfold finish
  split <;> rfl

theorem finish_value (p : PreparedSet) (cas e : Nat) :
    (p.finish cas e).value = p.record.value := by
  unfold finish
  split <;> rfl

@[simp] theorem finish_cas (p : PreparedSet) (cas e : Nat) :
    (p.finish cas e).header.cas = cas := by
  unfold finish
  split <;> rfl

theorem finish_expiresAtMs {p : PreparedSet} {e : Nat}
    (settled : ∀ e', p.expiresAtMs = some e' → e = e') (cas : Nat) :
    (p.finish cas e).header.expiresAtMs = e := by
  unfold finish
  split
  · rename_i e' h
    rw [settled e' h, Record.patchCas_expiresAtMs, p.expires_eq e' h]
  · rfl

theorem finish_settled {p : PreparedSet} {deadline : Nat}
    (settled : p.expiresAtMs = some deadline) (cas expiresAtMs : Nat) :
    (p.finish cas expiresAtMs).header.expiresAtMs = deadline := by
  unfold finish
  rw [settled]
  exact p.expires_eq deadline settled

end PreparedSet

/-! ### What each operation does -/

section Operations

variable {eng : Engine} {s : Txn}

/-- A write draws a token and stores the prepared record, with token and deadline filled in. -/
theorem applySet_spec (p : PreparedSet) {preRead : Option PreRead}
    (reads : ∀ pre ∈ preRead, pre.Reads s.tables p.key) :
    wp (applySet eng p preRead)
      (fun applied s' => applied.cas = eng.config.token (wrappingAdd64 s.counters.casNext 1) ∧
        ∃ e, (s.drawn eng.config p.key).Becomes
          { s.tables.store eng.config p.key (p.finish applied.cas e) with
            casWatermark := (s.drawn eng.config p.key).tables.casWatermark } s')
      Breaks s := by
  unfold applySet
  refine wp.bind (nextCas_spec p.key) ?_
  rintro _ s₁ ⟨rfl, h₁⟩
  have main : s₁.tables.main = s.tables.main := by rw [h₁.tables]; rfl
  refine wp.bind (displaceOrPreRead_spec p fun pre mem => ?_) ?_
  · simpa only [PreRead.Reads, Tables.indexedAt, main] using reads pre mem
  rintro d s₂ ⟨indexed, h₂⟩
  refine wp.bind (settleDeadline_spec p d) ?_
  rintro e s₃ ⟨settled, h₃⟩
  refine wp.bind update_breaks fun _ s₄ h₄ => wp.modify_bind ?_
  refine wp.bind (reindexExpiry_spec p.key d.indexedAt e) fun _ s₅ h₅ => ?_
  refine wp.bind (putTagRows_spec p.key _) fun _ s₆ h₆ => wp.pure ⟨rfl, e, ?_⟩
  have before := (h₂.trans h₃).trans h₄
  have after := h₅.trans h₆
  refine ⟨?_, after.counters.trans (before.counters.trans h₁.counters),
    after.effects.trans (before.effects.trans h₁.effects),
    after.broken.trans (before.broken.trans h₁.broken),
    after.written.trans (congrArg (· ++ _) (before.written.trans h₁.written))⟩
  rw [h₆.tables, h₅.tables, h₄.tables, h₃.tables, h₂.tables, indexed, h₁.tables]
  simp only [Txn.drawn, casPart, Tables.store, Tables.displaced, Tables.indexedAt, Tables.tagIdsAt,
    Record.tagIds, PreparedSet.finish_tags, PreparedSet.finish_expiresAtMs settled _, if_true]

/-- What holds of the record whatever its token, and its deadline unless it is settled. -/
theorem applySet_stores {P : Record → Prop} {p : PreparedSet} {preRead : Option PreRead}
    (reads : ∀ pre ∈ preRead, pre.Reads s.tables p.key) (holds : ∀ cas e, P (p.finish cas e)) :
    wp (applySet eng p preRead) (fun _ s' => ∃ r, s'.tables.main.get p.key = some r ∧ P r)
      Breaks s := by
  refine (applySet_spec p reads).imp ?_
  rintro applied s' ⟨-, e, becomes⟩
  refine ⟨p.finish applied.cas e, ?_, holds _ _⟩
  rw [becomes.tables]
  exact Table.get_put_self _ _ _

theorem liftCore_spec {α : Type} {result : Except CoreError α} :
    wp (liftCore result) (fun a s' => result = .ok a ∧ s' = s)
      (fun e s' => (∃ core, result = .error core ∧ e = .core core) ∧ s' = s) s := by
  cases result with
  | ok a => exact ⟨rfl, rfl⟩
  | error e => exact ⟨⟨e, rfl, rfl⟩, rfl⟩

/-- A replacement has the references, the value and the deadline it was given. -/
theorem rewrite_stores {P : Record → Prop} {key value : Bytes} {tags : List TagRef}
    {header : RecordMeta} (holds : ∀ r, r.tags = tags → r.value = value →
      r.header.expiresAtMs = header.expiresAtMs → P r) :
    wp (rewrite eng key tags header value)
      (fun _ s' => ∃ r, s'.tables.main.get key = some r ∧ P r) (fun _ _ => True) s := by
  refine wp.bind (liftCore_spec.stops fun _ _ _ => trivial) ?_
  rintro p _ ⟨encoded, rfl⟩
  obtain ⟨rfl, -, rfl, rfl, settled⟩ := PreparedSet.of_encode encoded
  refine wp.bind ((applySet_stores (by simp) fun cas e => ?_).stops
    fun _ _ _ => trivial) fun _ _ stored => wp.pure stored
  exact holds _ (p.finish_tags cas e) (p.finish_value cas e) (p.finish_settled settled cas e)

theorem readForUpdate_spec (key : Bytes) :
    wp (readForUpdate eng key)
      (fun found s' => (∃ now, found = (s.tables.main.get key).map fun r =>
        ⟨r, r.isAlive now eng.epoch eng.registry.generation⟩) ∧ s.Agrees s') Breaks s := by
  unfold readForUpdate
  refine wp.bind query_breaks ?_
  rintro _ s₁ ⟨rfl, h₁⟩
  cases found : s.tables.main.get key with
  | none => exact wp.pure ⟨⟨0, rfl⟩, h₁⟩
  | some r =>
    refine wp.bind judge_spec ?_
    rintro _ s₂ ⟨⟨now, rfl⟩, h₂⟩
    exact wp.pure ⟨⟨now, rfl⟩, Txn.agrees_trans h₁ h₂⟩

theorem liveRecord_spec (key : Bytes) :
    wp (liveRecord eng key)
      (fun found s' => (∃ now, found = (s.tables.main.get key).filter fun r =>
        r.isAlive now eng.epoch eng.registry.generation) ∧ s.Agrees s') Breaks s := by
  unfold liveRecord
  refine wp.bind (readForUpdate_spec key) ?_
  rintro _ s₁ ⟨⟨now, rfl⟩, h₁⟩
  cases found : s.tables.main.get key with
  | none => exact wp.pure ⟨⟨now, rfl⟩, h₁⟩
  | some r =>
    simp only [Option.map_some]
    cases alive : r.isAlive now eng.epoch eng.registry.generation with
    | true => exact wp.pure ⟨⟨now, (if_pos alive).symm⟩, h₁⟩
    | false => exact wp.pure ⟨⟨now, (if_neg (by simp [alive])).symm⟩, h₁⟩

/-- The write a conditional set stores has the request's key and references, under
the epoch it was prepared or is concatenated under. -/
theorem conditionalRecord_tags (p : PreparedSet) (mode : SetMode) (existing : Option Record) :
    wp (conditionalRecord eng p mode existing)
      (fun p' s' => p'.key = p.key ∧ p'.tags = p.tags ∧
        (p'.record.header.epoch = p.record.header.epoch ∨ p'.record.header.epoch = eng.epoch) ∧
        s' = s) (fun _ s' => s' = s) s := by
  have concatenated : ∀ current combined,
      wp (concatenate eng p current combined)
        (fun p' s' => p'.key = p.key ∧ p'.tags = p.tags ∧
          (p'.record.header.epoch = p.record.header.epoch ∨ p'.record.header.epoch = eng.epoch) ∧
          s' = s) (fun _ s' => s' = s) s := by
    intro current combined
    refine wp.bind (liftCore_spec.mono (fun _ _ h => h.2) fun _ _ h => h.2) ?_
    rintro _ _ rfl
    refine liftCore_spec.mono ?_ fun _ _ h => h.2
    rintro p' _ ⟨encoded, rfl⟩
    obtain ⟨keyEq, headerEq, tagsEq, -, -⟩ := PreparedSet.of_encode encoded
    exact ⟨keyEq, tagsEq, .inr (by rw [headerEq]), rfl⟩
  unfold conditionalRecord
  split
  · exact concatenated _ _
  · exact concatenated _ _
  · exact wp.pure ⟨rfl, rfl, .inl rfl, rfl⟩

/-- A guarded write is refused, or is stored from the read its guard was judged on. -/
theorem applyConditionalSet_rule {p : PreparedSet} {mode : SetMode} 
    {post : Written → Txn → Prop} {fail : StoreError → Txn → Prop}
    (read : wp (readForUpdate eng p.key) (fun _ _ => True) fail s)
    (refused : ∀ e s', s.Agrees s' → fail e s')
    (kept : ∀ w s', (∀ cas, w.outcome ≠ .stored cas) → s.Agrees s' → post w s')
    (stores : ∀ (p' : PreparedSet) (pre : PreRead) (s₁ : Txn), p'.key = p.key → p'.tags = p.tags →
      (p'.record.header.epoch = p.record.header.epoch ∨ p'.record.header.epoch = eng.epoch) →
      s.Agrees s₁ → pre.Reads s₁.tables p'.key →
      wp (applySet eng p' (some pre))
        (fun applied s' => ∀ previous, post ⟨.stored applied.cas, previous⟩ s') fail s₁) :
    wp (applyConditionalSet eng p mode) post fail s := by
  refine wp.bind (((readForUpdate_spec p.key).and read).mono (fun _ _ h => h.1) fun _ _ h => h.2) ?_
  rintro _ s₁ ⟨⟨now, rfl⟩, agrees⟩
  dsimp only
  split
  · rename_i outcome verdict
    refine wp.pure (kept _ s₁ (fun cas same => ?_) agrees)
    -- The guard only refuses.
    obtain rfl : outcome = .stored cas := same
    revert verdict
    unfold conditionalVerdict
    split <;> simp
  · refine wp.bind ((conditionalRecord_tags p mode _).stops
      fun e _ same => refused e _ (same ▸ agrees)) ?_
    rintro p' _ ⟨key, tags, epoch, rfl⟩
    refine wp.bind (stores p' _ _ key tags epoch agrees ?_) fun _ _ h => wp.pure (h _)
    simp only [PreRead.Reads, Tables.indexedAt, Option.map_map, key, agrees.tables]
    exact ⟨rfl, rfl⟩

end Operations

/-! ### Operations are sequences of moves -/

/-- The action makes moves on the tables and nothing else, unless it breaks the
transaction. -/
def MakesMoves (c : Config) (scope : Scope) {α : Type} (action : TxnM α) : Prop :=
  ∀ t₀, Preserves (fun s => Changes c scope t₀ s.tables)
    (fun e s' => Breaks e s' ∨ Changes c scope t₀ s'.tables) action

section Moves

variable {eng : Engine} {scope : Scope} {c : Config} {α β : Type}

namespace MakesMoves

theorem pure (a : α) : MakesMoves c scope (Pure.pure a) := fun _ => .pure a

theorem bind {first : TxnM α} {next : α → TxnM β} (h : MakesMoves c scope first)
    (rest : ∀ a, MakesMoves c scope (next a)) : MakesMoves c scope (first >>= next) :=
  fun t₀ => (h t₀).bind fun a => rest a t₀

theorem forEach {action : α → TxnM β} {elements : List α}
    (each : ∀ a ∈ elements, MakesMoves c scope (action a)) :
    MakesMoves c scope (Library.forEach action elements) :=
  fun t₀ => .forEach fun a mem => each a mem t₀

/-- An action that leaves the tables as they were. -/
theorem of_agrees {action : TxnM α} (spec : ∀ s, wp action (fun _ s' => s.Agrees s') Breaks s) :
    MakesMoves c scope action := by
  intro t₀ s held
  refine (spec s).mono (fun _ s' agrees => ?_) fun _ _ breaks => .inl breaks
  simpa only [agrees.tables] using held

theorem query (read : Tables → α) : MakesMoves c scope (query read) :=
  of_agrees fun _ => query_breaks.imp fun _ _ h => h.2

theorem nowMs : MakesMoves c scope nowMs := of_agrees fun _ => nowMs_spec.imp fun _ _ h => h.2

end MakesMoves

/-- `applySet` on a key in scope, whichever read it starts from. -/
theorem applySet_makesMoves {p : PreparedSet} {preRead : Option PreRead} {t₀ : Tables} {s : Txn}
    (known : p.key ∈ scope.keys) (reads : ∀ pre ∈ preRead, pre.Reads s.tables p.key)
    (held : Changes eng.config scope t₀ s.tables) :
    Leaves (applySet eng p preRead) (fun s' => Changes eng.config scope t₀ s'.tables) s := by
  refine (applySet_spec p reads).mono ?_ fun _ _ breaks => .inl breaks
  rintro applied s' ⟨-, e, becomes⟩
  rw [becomes.tables]
  exact (held.tail (.store known _)).tail (.other rfl rfl rfl id)

theorem applySet_moves {p : PreparedSet} (known : p.key ∈ scope.keys) :
    MakesMoves eng.config scope (applySet eng p none) :=
  fun _ _ held => applySet_makesMoves known (fun _ mem => nomatch mem) held

theorem applyDelete_moves {key : Bytes} (known : key ∈ scope.keys) :
    MakesMoves eng.config scope (applyDelete eng key) := by
  intro t₀ s held
  refine wp.bind ((displace_spec key false false).mono (fun _ _ h => h.2)
    fun _ _ breaks => .inl breaks) fun _ s₁ h₁ => ?_
  refine wp.bind (update_breaks.stops fun _ _ breaks => .inl breaks) ?_
  intro _ s₂ h₂
  refine wp.pure (held.tail ?_)
  rw [h₂.tables, h₁.tables]
  exact .remove known

theorem applyConditionalSet_moves {p : PreparedSet} (known : p.key ∈ scope.keys) (mode : SetMode) :
    MakesMoves eng.config scope (applyConditionalSet eng p mode) := by
  intro t₀ s held
  refine applyConditionalSet_rule ((readForUpdate_spec _).mono (fun _ _ _ => trivial)
      fun _ _ => .inl)
    (fun _ s₁ agrees => .inr ?_)
    (fun _ s₁ _ agrees => ?_) fun p' pre s₁ key _ _ agrees reads => ?_
  all_goals rw [← agrees.tables] at held
  · exact held
  · exact held
  · exact wp.imp (applySet_makesMoves (key ▸ known) (by simpa using reads) held) fun _ _ h _ => h

/-- The jobs that change a record in place, on a key in scope. -/
theorem recordMoves {key : Bytes} (known : key ∈ scope.keys) :
    RecordLogic eng key (fun _ _ => True) (MakesMoves eng.config scope) :=
  .of_looks .pure (fun _ _ _ held => .inr held) (fun _ h => h.bind fun _ => .pure _) .bind .nowMs
    (.of_agrees fun _ => (liveRecord_spec key).imp fun _ _ h => h.2) (.query _)
    (fun same => applySet_moves (same ▸ known)) (applyDelete_moves known)

theorem applyFlush_spec {s : Txn} :
    wp (applyFlush eng) (fun epoch s' => epoch = wrappingAdd32 eng.epoch 1 ∧
      s.Becomes ⟨∅, ∅, ∅, s.tables.tags, ∅, some epoch, s.tables.casWatermark⟩ s') Breaks s := by
  refine wp.bind update_breaks fun _ s₁ h₁ => wp.bind update_breaks fun _ s₂ h₂ => ?_
  refine wp.bind update_breaks fun _ s₃ h₃ => wp.bind update_breaks fun _ s₄ h₄ => ?_
  refine wp.bind update_breaks fun _ s₅ h₅ => wp.pure ⟨rfl, ?_⟩
  have flushed := (((h₁.trans h₂).trans h₃).trans h₄).trans h₅
  rw [h₄.tables, h₃.tables, h₂.tables, h₁.tables] at flushed
  exact flushed

theorem applyFlush_moves : MakesMoves c scope (applyFlush eng) := by
  intro t₀ s held
  refine applyFlush_spec.mono (fun _ s' h => (held.tail .flush).tail ?_) fun _ _ => .inl
  rw [h.2.tables]
  exact .other rfl rfl rfl fun _ _ _ _ absurd => nomatch absurd

/-- A job just queued has no cursor. -/
theorem Tables.JobsOk.put_new {t : Tables} (ok : t.JobsOk) (id generation : Nat) :
    { t with jobs := t.jobs.put id (.new generation) }.JobsOk := by
  intro id' job cursor found
  rw [show ({ t with jobs := t.jobs.put id (.new generation) } : Tables).jobs =
    t.jobs.put id (.new generation) from rfl, Table.get_put] at found
  split at found
  · cases found
    exact fun absurd => nomatch absurd
  · exact ok id' job cursor found

/-- Tag jobs change the registry's own tables. -/
theorem tagBudget_moves (t₀ : Tables) : TagBudget eng
    (.uncounted (fun _ s => Changes c scope t₀ s.tables) Breaks fun _ => id) where
  step {_ _ _ s s'} held step := by
    refine Relation.ReflTransGen.tail held ?_
    change Change c scope s.tagView.tables s'.tagView.tables
    generalize s'.tagView = v at step
    cases step with
    | raised _ _ => exact .other rfl rfl rfl fun ok => ok.put_new _ _
    | _ => exact .other rfl rfl rfl id
  broke _ breaks _ := breaks
  burnt _ breaks _ := breaks

theorem publish_moves (effect : PostCommit) : MakesMoves c scope (publish effect) :=
  fun _ _ held => wp.modify held

/-- The keys a job names. -/
def WriteOp.keys : WriteOp → List Bytes
  | .set prepared => prepared.map PreparedSet.key
  | .conditionalSet prepared _ => [prepared.key]
  | .delete keys => keys
  | .touch keys _ => keys
  | .arithmetic op => [op.key]
  | .append key _ => [key]
  | .expire key _ _ => [key]
  | _ => []

/-- A job of a batch makes moves only. -/
theorem apply_moves (op : WriteOp) (known : ∀ key ∈ op.keys, key ∈ scope.keys) :
    MakesMoves eng.config scope (apply eng op) := by
  cases op with
  | set prepared =>
    refine (MakesMoves.forEach fun p mem => ?_).bind fun _ => .pure _
    exact applySet_moves (known p.key (List.mem_map_of_mem mem))
  | conditionalSet prepared mode =>
    exact (applyConditionalSet_moves (known _ (by simp [WriteOp.keys])) mode).bind fun _ => .pure _
  | delete keys =>
    exact (MakesMoves.forEach fun key mem => applyDelete_moves (known key mem)).bind
      fun _ => .pure _
  | touch keys ttlSecs =>
    exact (MakesMoves.forEach fun key mem => (recordMoves (known key mem)).applyTouch ttlSecs).bind
      fun _ => .pure _
  | arithmetic op =>
    exact (recordMoves (known _ (by simp [WriteOp.keys]))).applyArithmetic.bind fun _ => .pure _
  | append key suffix =>
    exact ((recordMoves (known _ (by simp [WriteOp.keys]))).applyAppend suffix).bind
      fun _ => .pure _
  | expire key ttl guard =>
    exact ((recordMoves (known _ (by simp [WriteOp.keys]))).applyExpire ttl guard).bind
      fun _ => .pure _
  | flush => exact applyFlush_moves.bind fun _ => (publish_moves _).bind fun _ => .pure _
  | _ => exact fun t₀ s held => (tagBudget_moves t₀).apply rfl (by simp) 0 s held

end Moves

end Vash.Store
