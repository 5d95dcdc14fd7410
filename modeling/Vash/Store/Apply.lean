/-
# The record operations

What the writer thread does to one record inside its transaction: `apply.rs`,
operation by operation. A write that replaces a record clears the tag rows it
owned and puts those of the new one; its expiry row is touched only when the
record changes bucket.
-/

import Vash.Store.Registry
import Vash.Store.Index

namespace Vash.Store

open Library

/-! ### Prepared writes -/

/-- A record encoded on a caller's thread, still missing its token and, when
`expiresAtMs` is `none`, its deadline. -/
structure PreparedSet where
  key : Bytes
  record : Record
  expiresAtMs : Option Nat
  ttl : TtlChange
  tags : List TagRef
  returnPrevious : Bool
  tags_eq : record.tags = tags
  expires_eq : ∀ e, expiresAtMs = some e → record.header.expiresAtMs = e
  deriving DecidableEq

/-- Encode a record into a prepared write; the only way the operations build one. -/
def PreparedSet.encode (key : Bytes) (header : RecordMeta) (expiresAtMs : Option Nat)
    (ttl : TtlChange) (tags : List TagRef) (value : Bytes) (returnPrevious : Bool)
    (settled : ∀ e, expiresAtMs = some e → header.expiresAtMs = e) :
    Except CoreError PreparedSet :=
  match encoded : encodeRecord header tags value with
  | .error e => .error e
  | .ok record =>
    .ok {
      key, record, expiresAtMs, ttl, tags, returnPrevious
      tags_eq := (encodeRecord_eq_ok_iff.mp encoded).2.1
      expires_eq := fun e h => by rw [(encodeRecord_eq_ok_iff.mp encoded).1, settled e h] }

/-- `prepare_set`, on the caller's thread at the reading `now`. The deadline is
settled here only when nothing stored can change it. -/
def prepareSet (eng : Engine) (now : Nat) (set : SetRequest) (tags : List TagRef) :
    Except StoreError PreparedSet :=
  if eng.pressure = .critical then .error .capacityFull
  else
    match validateValue set.value eng.config.maxValueLen with
    | .error e => .error (.core e)
    | .ok () =>
      let expiresAtMs := match set.ttl with
        | .set ttlSecs => some (expiryFromTtl now ttlSecs)
        | .keep => none
        | .setIfPersistent _ => none
      match PreparedSet.encode set.key ⟨eng.epoch, set.mcFlags, expiresAtMs.getD never, 0⟩
          expiresAtMs set.ttl tags set.value set.returnPrevious (fun e h => by simp [h]) with
      | .error e => .error (.core e)
      | .ok prepared => .ok prepared

/-- The index rows a stored record owns. -/
structure IndexRows where
  expiresAtMs : Nat
  cas : Nat
  tagIds : List Nat
  deriving DecidableEq, Repr

def IndexRows.of (r : Record) : IndexRows := ⟨r.header.expiresAtMs, r.header.cas, r.tagIds⟩

/-- What the record an overwrite replaced was holding. -/
structure Displaced where
  live : Bool
  deadline : Option Nat
  previous : Option Value
  indexedAt : Option Nat
  deriving DecidableEq, Repr

/-- `Displaced::default`. -/
def Displaced.default : Displaced := ⟨false, none, none, none⟩

/-- What a record found under the key was holding. A dead one has no deadline
worth keeping and no value worth reporting, but still owns its index rows. -/
def Displaced.of (record : Record) (live wantValue : Bool) : Displaced where
  live
  deadline := if live then some record.header.expiresAtMs else none
  previous := if live && wantValue then some record.toValue else none
  indexedAt := some record.header.expiresAtMs

/-- A read of the record being replaced that the caller has already made. -/
structure PreRead where
  rows : Option IndexRows
  displaced : Displaced
  deriving DecidableEq, Repr

/-- A record found under a key, and whether a client would be served it. -/
structure Found where
  record : Record
  live : Bool
  deriving DecidableEq, Repr

structure SetApplied where
  cas : Nat
  previous : Option Value
  deriving DecidableEq, Repr

/-- A guarded write's verdict, and what it displaced if it asked. -/
structure Written where
  outcome : Stored
  previous : Option Value
  deriving DecidableEq, Repr

/-! ### The shared helpers -/

section Operations

variable (eng : Engine)

/-- The liveness check at the clock's next reading. -/
def judge (r : Record) : TxnM Bool := do
  let now ← nowMs
  return r.isAlive now eng.epoch eng.registry.generation

/-- `CAS_BLOCK`. -/
def casBlock : Nat := 2 ^ 20

/-- `next_cas`: the next token, reserving a durable block of counters when the
one in hand runs out. -/
def nextCas : TxnM Nat := do
  let s ← get
  let counter := wrappingAdd64 s.counters.casNext 1
  set { s with counters := { s.counters with casNext := counter } }
  if counter ≥ s.counters.casWatermark then
    let watermark := wrappingAdd64 counter casBlock
    update fun t => { t with casWatermark := some watermark }
    modify fun s => { s with counters := { s.counters with casWatermark := watermark } }
  return (counter * eng.config.shardCount + eng.config.shardIndex) % 2 ^ 64

/-- `clear_expiry_row`. -/
def clearExpiryRow (key : Bytes) (expiresAtMs : Nat) : TxnM Unit :=
  update fun t => { t with exp := t.exp.delete (encodeKey eng.config expiresAtMs key) }

/-- `clear_tag_rows`. -/
def clearTagRows (key : Bytes) : List Nat → TxnM Unit
  | [] => pure ()
  | tagId :: rest => do
    update fun t => { t with tagidx := t.tagidx.delete (indexKey eng.config tagId key) }
    clearTagRows key rest

/-- `clear_index_rows`. -/
def clearIndexRows (key : Bytes) (rows : IndexRows) : TxnM Unit := do
  clearExpiryRow eng key rows.expiresAtMs
  clearTagRows eng key rows.tagIds

/-- The rows of a displaced record, all of them or all but the expiry row. -/
def clearDisplaced (key : Bytes) (rows : IndexRows) (keepExpiryRow : Bool) : TxnM Unit :=
  if keepExpiryRow then clearTagRows eng key rows.tagIds else clearIndexRows eng key rows

/-- `displace`: clear the index rows of whatever is stored under `key`, and report
what it held. -/
def displace (key : Bytes) (wantValue keepExpiryRow : Bool) : TxnM Displaced := do
  match ← query fun t => t.main.get key with
  | none => return .default
  | some record =>
    let live ← judge eng record
    clearDisplaced eng key (.of record) keepExpiryRow
    return .of record live wantValue

/-- `read_for_update`: present and live kept apart. -/
def readForUpdate (key : Bytes) : TxnM (Option Found) := do
  match ← query fun t => t.main.get key with
  | none => return none
  | some record =>
    let live ← judge eng record
    return some ⟨record, live⟩

/-- `live_record`. -/
def liveRecord (key : Bytes) : TxnM (Option Record) := do
  match ← readForUpdate eng key with
  | some ⟨record, true⟩ => return some record
  | _ => return none

/-- The read of the replaced record `apply_set` starts from: its own, or the one
its caller made. -/
def displaceOrPreRead (p : PreparedSet) : Option PreRead → TxnM Displaced
  | none => displace eng p.key p.returnPrevious true
  | some pre => do
    match pre.rows with
    | some rows => clearTagRows eng p.key rows.tagIds
    | none => pure ()
    return pre.displaced

/-- The deadline of the record to store, settled now if preparation could not. -/
def settleDeadline (p : PreparedSet) (displaced : Displaced) : TxnM Nat :=
  match p.expiresAtMs with
  | some resolved => pure resolved
  | none => do
    let now ← nowMs
    return deadlineAfter now p.ttl (displaced.deadline.getD never)

/-- The record to store, once its token and deadline are known. -/
def PreparedSet.finish (p : PreparedSet) (cas expiresAtMs : Nat) : Record :=
  match p.expiresAtMs with
  | some _ => p.record.patchCas cas
  | none => (p.record.patchCas cas).patchExpiry expiresAtMs

/-- The record stays in the bucket its row is already in. -/
def sameBucket (config : Config) (indexedAt : Option Nat) (expiresAtMs : Nat) : Bool :=
  match indexedAt with
  | none => false
  | some previously =>
    bucketFor previously config.bucketGranularityMs =
      bucketFor expiresAtMs config.bucketGranularityMs

/-- Move the expiry row of `key`, unless the record stays in its bucket. -/
def reindexExpiry (key : Bytes) (indexedAt : Option Nat) (expiresAtMs : Nat) : TxnM Unit := do
  if sameBucket eng.config indexedAt expiresAtMs then pure ()
  else
    match indexedAt with
    | some previously => clearExpiryRow eng key previously
    | none => pure ()
    update fun t => { t with exp := t.exp.put (encodeKey eng.config expiresAtMs key) key }

/-- The tag rows of a record just stored. -/
def putTagRows (key : Bytes) : List Nat → TxnM Unit
  | [] => pure ()
  | tagId :: rest => do
    update fun t => { t with tagidx := t.tagidx.put (indexKey eng.config tagId key) key }
    putTagRows key rest

/-- `apply_set`. -/
def applySet (p : PreparedSet) (preRead : Option PreRead) : TxnM SetApplied := do
  let cas ← nextCas eng
  let displaced ← displaceOrPreRead eng p preRead
  let expiresAtMs ← settleDeadline p displaced
  update fun t => { t with main := t.main.put p.key (p.finish cas expiresAtMs) }
  modify fun s => { s with written := s.written ++ [(p.key, cas)] }
  reindexExpiry eng p.key displaced.indexedAt expiresAtMs
  putTagRows eng p.key (p.tags.map TagRef.tagId)
  return ⟨cas, displaced.previous⟩

/-- `apply_delete`: whether the key was live before. -/
def applyDelete (key : Bytes) : TxnM Bool := do
  let displaced ← displace eng key false false
  update fun t => { t with main := t.main.delete key }
  return displaced.live

/-- `rewrite`: store a replacement whose deadline the caller has settled. -/
def rewrite (key : Bytes) (tags : List TagRef) (header : RecordMeta) (value : Bytes) :
    TxnM Nat := do
  let prepared ← liftCore (PreparedSet.encode key header (some header.expiresAtMs) .keep tags
    value false
    (fun _ h => Option.some.inj h))
  let applied ← applySet eng prepared none
  return applied.cas

/-! ### Guarded writes -/

/-- What the guard of a conditional write makes of the live record. -/
def conditionalVerdict (mode : SetMode) (existing : Option Record) : Option Stored :=
  match mode, existing with
  | .set, _ => none
  | .add, some _ => some .notStored
  | .add, none => none
  | .replace, none => some .notStored
  | .replace, some _ => none
  | .append, none => some .notStored
  | .append, some _ => none
  | .prepend, none => some .notStored
  | .prepend, some _ => none
  | .cas _, none => some .notFound
  | .cas expected, some r => if r.header.cas ≠ expected then some .keyExists else none

/-- The prepared write of a concatenation: the stored flags and deadline, the
tags of the request. -/
def concatenate (p : PreparedSet) (current : Record) (combined : Bytes) : TxnM PreparedSet := do
  liftCore (validateValue combined eng.config.maxValueLen)
  liftCore (PreparedSet.encode p.key
    ⟨eng.epoch, current.header.mcFlags, current.header.expiresAtMs, 0⟩
    (some current.header.expiresAtMs) p.ttl p.tags combined p.returnPrevious
    (fun _ h => Option.some.inj h))

/-- The write a conditional set stores once its guard let it through. -/
def conditionalRecord (p : PreparedSet) (mode : SetMode) (existing : Option Record) :
    TxnM PreparedSet :=
  match mode, existing with
  | .append, some current => concatenate eng p current (current.value ++ p.record.value)
  | .prepend, some current => concatenate eng p current (p.record.value ++ current.value)
  | _, _ => pure p

/-- `apply_conditional_set`. -/
def applyConditionalSet (p : PreparedSet) (mode : SetMode) : TxnM Written := do
  let found ← readForUpdate eng p.key
  let existing := found.bind fun f => if f.live then some f.record else none
  let previous := if p.returnPrevious then existing.map Record.toValue else none
  match conditionalVerdict mode existing with
  | some outcome => return ⟨outcome, previous⟩
  | none =>
    let prepared ← conditionalRecord eng p mode existing
    let applied ← applySet eng prepared (some {
      rows := found.map fun f => .of f.record
      displaced := {
        live := existing.isSome
        deadline := existing.map fun r => r.header.expiresAtMs
        previous
        indexedAt := found.map fun f => f.record.header.expiresAtMs } })
    return ⟨.stored applied.cas, applied.previous⟩

/-- Whether the guard of `apply_expire` lets the change through. -/
def expireApplies (guard : ExpireGuard) (current target : Nat) : Bool :=
  match guard with
  | .always => true
  | .ifPersistent => current = never
  | .ifVolatile => current ≠ never
  | .ifLater => current ≠ never ∧ target ≠ never ∧ target > current
  | .ifEarlier => target ≠ never ∧ (current = never ∨ target < current)

/-- `apply_expire`. A deadline already past deletes the key. -/
def applyExpire (key : Bytes) (ttl : TtlChange) (guard : ExpireGuard) : TxnM Bool := do
  match ← liveRecord eng key with
  | none => return false
  | some record =>
    let settled ← nowMs
    let target := deadlineAfter settled ttl record.header.expiresAtMs
    if expireApplies guard record.header.expiresAtMs target then
      let now ← nowMs
      if target ≠ never ∧ target ≤ now then applyDelete eng key
      else
        let _ ← rewrite eng key record.tags
          ⟨record.header.epoch, record.header.mcFlags, target, 0⟩ record.value
        return true
    else return false

/-! ### Changes in place -/

/-- `apply_arithmetic`. -/
def applyArithmetic (op : Arithmetic) : TxnM (Option Applied) := do
  let existing ← liveRecord eng op.key
  match ← liftCore (op.evaluate eng.config.floats (existing.map Record.value)) with
  | .missing => return none
  | .unchanged applied => return some applied
  | .store text applied =>
    liftCore (validateValue text eng.config.maxValueLen)
    let now ← nowMs
    let (tags, mcFlags, deadline) := match existing with
      | some record => (record.tags, record.header.mcFlags, record.header.expiresAtMs)
      | none => ([], 0, never)
    let _ ← rewrite eng op.key tags ⟨eng.epoch, mcFlags, deadlineAfter now op.ttl deadline, 0⟩ text
    return some applied

/-- `apply_append`: the length the value reached. -/
def applyAppend (key suffix : Bytes) : TxnM Nat := do
  let (combined, tags, mcFlags, expiresAtMs) := match ← liveRecord eng key with
    | some record =>
      (record.value ++ suffix, record.tags, record.header.mcFlags, record.header.expiresAtMs)
    | none => (suffix, [], 0, never)
  liftCore (validateValue combined eng.config.maxValueLen)
  let _ ← rewrite eng key tags ⟨eng.epoch, mcFlags, expiresAtMs, 0⟩ combined
  return combined.length

/-- `apply_touch`. -/
def applyTouch (key : Bytes) (ttlSecs : Nat) : TxnM Bool := do
  let now ← nowMs
  match ← query fun t => t.main.get key with
  | none => return false
  | some record =>
    if record.isAlive now eng.epoch eng.registry.generation then
      let settled ← nowMs
      let expiresAtMs := expiryFromTtl settled ttlSecs
      let prepared ← liftCore (PreparedSet.encode key
        ⟨record.header.epoch, record.header.mcFlags, expiresAtMs, 0⟩ (some expiresAtMs)
        (.set ttlSecs) record.tags record.value false (fun _ h => Option.some.inj h))
      let _ ← applySet eng prepared none
      return true
    else return false

/-- `apply_flush`: the new epoch. Tag registrations survive. -/
def applyFlush : TxnM Nat := do
  let epoch := wrappingAdd32 eng.epoch 1
  update fun t => { t with epoch := some epoch }
  update fun t => { t with main := ∅ }
  update fun t => { t with exp := ∅ }
  update fun t => { t with tagidx := ∅ }
  update fun t => { t with jobs := ∅ }
  return epoch

end Operations

end Vash.Store
