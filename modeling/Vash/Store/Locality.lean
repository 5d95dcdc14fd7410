import Vash.Library.Part
import Vash.Store.RecordJobs

/-!
# What each operation looks at

A transaction's state falls into six parts: what the engine and the clock
report, the record tables, the tokens, the tag rows with the effects to publish,
the reclaim jobs and the flush epoch. Each operation is shown, once, to ignore
every overwriting of the state that spares the parts it uses, and to break
nothing on an engine that fails nothing (`Confined`):

* record jobs use the records and the tokens;
* tag jobs use the tag rows and the reclaim jobs;
* sweeps and evictions use the records alone, and reclaim passes the jobs too.
-/

namespace Vash.Store

open Library

/-! ### The parts -/

/-- What the engine reports and the clock reads. -/
def enginePart : Part Txn (List (Option Fault) × Bool × (Nat → Nat)) where
  get s := (s.faults, s.broken, s.clock)
  put p s := { s with faults := p.1, broken := p.2.1, clock := p.2.2 }
  get_put _ _ := rfl
  put_get _ := rfl

/-- The three tables a record has rows in. -/
structure Records where
  main : Table Bytes Record
  exp : Table IndexKey Bytes
  tagidx : Table IndexKey Bytes

def Tables.records (t : Tables) : Records := ⟨t.main, t.exp, t.tagidx⟩

def Tables.withRecords (t : Tables) (r : Records) : Tables :=
  { t with main := r.main, exp := r.exp, tagidx := r.tagidx }

def recordsPart : Part Txn Records where
  get s := s.tables.records
  put r s := { s with tables := s.tables.withRecords r }
  get_put _ _ := rfl
  put_get _ := rfl

/-- The token counters, in RAM and durable, with the history of tokens stored. -/
structure CasState where
  next : Nat
  watermark : Nat
  durable : Option Nat
  written : List (Bytes × Nat)

def casPart : Part Txn CasState where
  get s := ⟨s.counters.casNext, s.counters.casWatermark, s.tables.casWatermark, s.written⟩
  put p s := { s with
    counters := { s.counters with casNext := p.next, casWatermark := p.watermark }
    tables := { s.tables with casWatermark := p.durable }
    written := p.written }
  get_put _ _ := rfl
  put_get _ := rfl

/-- The history of tokens stored. -/
def historyPart : Part Txn (List (Bytes × Nat)) where
  get s := s.written
  put p s := { s with written := p }
  get_put _ _ := rfl
  put_get _ := rfl

/-- The history is among the counters. -/
theorem historyPart_spared {patch : Txn → Txn} (cas : casPart.Spared patch) :
    historyPart.Spared patch where
  get_patch s := congrArg CasState.written (cas.get_patch s)
  patch_put p s := (cas.patch_modify (fun v => { v with written := p }) s)

/-- The `tags` rows, the next id and the effects to publish. -/
structure TagState where
  tags : Table Bytes TagRow
  nextId : Nat
  effects : List PostCommit

def tagsPart : Part Txn TagState where
  get s := ⟨s.tables.tags, s.counters.nextId, s.effects⟩
  put p s := { s with
    tables := { s.tables with tags := p.tags }
    counters := { s.counters with nextId := p.nextId }
    effects := p.effects }
  get_put _ _ := rfl
  put_get _ := rfl

/-- The `tags` rows and the next id, without the effects. -/
def rowsPart : Part Txn (Table Bytes TagRow × Nat) where
  get s := (s.tables.tags, s.counters.nextId)
  put p s := { s with
    tables := { s.tables with tags := p.1 }
    counters := { s.counters with nextId := p.2 } }
  get_put _ _ := rfl
  put_get _ := rfl

def jobsPart : Part Txn (Table Nat Job) where
  get s := s.tables.jobs
  put p s := { s with tables := { s.tables with jobs := p } }
  get_put _ _ := rfl
  put_get _ := rfl

def epochPart : Part Txn (Option Nat) where
  get s := s.tables.epoch
  put p s := { s with tables := { s.tables with epoch := p } }
  get_put _ _ := rfl
  put_get _ := rfl

/-! ### The primitives -/

/-- No call of the transaction fails. -/
def Txn.Sound (s : Txn) : Prop := s.faults = [] ∧ s.broken = false

/-- The transaction with no report of the engine to come. -/
def Txn.calm (s : Txn) : Txn := { s with faults := [] }

/-- Where it leaves the transaction good, the action would have done the same on an
engine that fails nothing. -/
def Calm {α : Type} (action : TxnM α) : Prop :=
  ∀ s, wp action
    (fun a s' => s'.broken = false → s.broken = false ∧ action s.calm = .ok a s'.calm)
    (fun e s' => s'.broken = false → s.broken = false ∧ action s.calm = .error e s'.calm) s

section Calm

variable {α β : Type}

theorem Calm.bind {first : TxnM α} {next : α → TxnM β} (h : Calm first)
    (rest : ∀ a, Calm (next a)) : Calm (first >>= next) := by
  intro s
  have after : ∀ a s', first s = .ok a s' → s'.broken = false →
      s.broken = false ∧ (first >>= next) s.calm = next a s'.calm := by
    intro a s' run good
    obtain ⟨start, head⟩ := (h s).of_ok run good
    exact ⟨start, by rw [bind_apply, head]⟩
  refine wp_iff.mpr ⟨fun b s'' run good => ?_, fun e s'' run good => ?_⟩
  · rw [bind_apply] at run
    cases ran : first s with
    | ok a s' =>
      rw [ran] at run
      obtain ⟨good', tail⟩ := (rest a s').of_ok run good
      obtain ⟨start, whole⟩ := after a s' ran good'
      exact ⟨start, whole.trans tail⟩
    | error e s' =>
      rw [ran] at run
      cases run
  · rw [bind_apply] at run
    cases ran : first s with
    | ok a s' =>
      rw [ran] at run
      obtain ⟨good', tail⟩ := (rest a s').of_error run good
      obtain ⟨start, whole⟩ := after a s' ran good'
      exact ⟨start, whole.trans tail⟩
    | error e' s' =>
      rw [ran] at run
      cases run
      obtain ⟨start, head⟩ := (h s).of_error ran good
      exact ⟨start, by rw [bind_apply, head]⟩

theorem Calm.pure (a : α) : Calm (Pure.pure a : TxnM α) := fun _ good => ⟨good, rfl⟩

theorem Calm.throw (e : StoreError) : Calm (MonadExcept.throw e : TxnM α) :=
  fun _ good => ⟨good, rfl⟩

theorem Calm.forEach {action : α → TxnM β} {elements : List α}
    (each : ∀ a ∈ elements, Calm (action a)) : Calm (Library.forEach action elements) := by
  induction elements with
  | nil => exact pure []
  | cons a rest ih =>
    apply bind (each a List.mem_cons_self)
    intro b
    exact (ih fun a mem => each a (List.mem_cons_of_mem _ mem)).bind fun _ => pure _

end Calm

/-- The action ignores `patch`, and fails no call unless the engine does. -/
structure Confined (patch : Txn → Txn) {α : Type} (action : TxnM α) : Prop where
  ignores : Ignores patch action
  sound : Preserves Txn.Sound (fun _ s => s.Sound) action
  calm : Calm action

section Primitives

variable {patch : Txn → Txn} {α β : Type}

namespace Confined

theorem pure (a : α) : Confined patch (Pure.pure a) := ⟨.pure a, .pure a, .pure a⟩

theorem throw (e : StoreError) : Confined patch (MonadExcept.throw e : TxnM α) :=
  ⟨.throw e, .throw fun _ sound => sound, .throw e⟩

theorem bind {first : TxnM α} {next : α → TxnM β} (h : Confined patch first)
    (rest : ∀ a, Confined patch (next a)) : Confined patch (first >>= next) :=
  ⟨h.ignores.bind fun a => (rest a).ignores, h.sound.bind fun a => (rest a).sound,
    h.calm.bind fun a => (rest a).calm⟩

theorem forEach {action : α → TxnM β} {elements : List α}
    (each : ∀ a ∈ elements, Confined patch (action a)) :
    Confined patch (Library.forEach action elements) :=
  ⟨.forEach fun a mem => (each a mem).ignores, .forEach fun a mem => (each a mem).sound,
    .forEach fun a mem => (each a mem).calm⟩

theorem liftCore (result : Except CoreError α) : Confined patch (liftCore result) := by
  cases result with
  | ok a => exact pure a
  | error e => exact throw _

/-- The fields of `enginePart`, one by one. -/
theorem engine_fields (engine : enginePart.Spared patch) (s : Txn) :
    (patch s).faults = s.faults ∧ (patch s).broken = s.broken ∧ (patch s).clock = s.clock := by
  simpa [enginePart] using engine.get_patch s

theorem engineCall (engine : enginePart.Spared patch) : Confined patch engineCall := by
  constructor
  · intro s
    obtain ⟨faults, broken, clock⟩ := engine_fields engine s
    -- A report used up is the same change before and after the overwriting.
    have used : ∀ faults broken, patch { s with faults, broken } =
        { patch s with faults, broken } := by
      intro faults' broken'
      exact (engine.patch_put (faults', broken', s.clock) s).trans (by simp [enginePart, clock])
    unfold Store.engineCall
    rw [broken]
    split
    · rfl
    · rename_i good
      unfold nextReport
      rw [faults]
      rcases s.faults with - | ⟨_ | fault, rest⟩
      · rfl
      · simpa [broken] using (used rest s.broken).symm
      · simpa using (used rest true).symm
  · rintro s ⟨faults, broken⟩
    simp [wp, Store.engineCall, nextReport, broken, faults, Txn.Sound]
  · intro s
    cases broken : s.broken with
    | true => simp [wp, Store.engineCall, broken]
    | false =>
      rcases faults : s.faults with - | ⟨_ | fault, rest⟩ <;>
        simp [wp, Store.engineCall, nextReport, broken, faults, Txn.calm]

theorem nowMs (engine : enginePart.Spared patch) : Confined patch nowMs := by
  constructor
  · intro s
    obtain ⟨faults, broken, clock⟩ := engine_fields engine s
    have used := engine.patch_put (s.faults, s.broken, fun n => s.clock (n + 1)) s
    simp only [enginePart] at used
    simp [Store.nowMs, clock, used, faults, broken]
  · intro s sound
    exact sound
  · intro s good
    exact ⟨good, rfl⟩

/-- Reading what `patch` spares. -/
theorem query {π : Type} {part : Part Txn π} {read : Tables → α} (engine : enginePart.Spared patch)
    (spared : part.Spared patch) (f : π → α) (reads : ∀ s, read s.tables = f (part.get s)) :
    Confined patch (query read) := by
  apply bind (engineCall engine)
  intro _
  constructor
  · intro s
    have same : read (patch s).tables = read s.tables := by
      rw [reads, reads, spared.get_patch]
    exact congrArg (fun a => EStateM.Result.ok a (patch s)) same
  · intro s sound
    exact sound
  · intro s good
    exact ⟨good, rfl⟩

/-- Changing what `patch` spares. -/
theorem update {π : Type} {part : Part Txn π} {change : Tables → Tables}
    (engine : enginePart.Spared patch) (spared : part.Spared patch) (f : π → π)
    (changes : ∀ s, { s with tables := change s.tables } = part.put (f (part.get s)) s) :
    Confined patch (update change) := by
  apply bind (engineCall engine)
  intro _
  constructor
  · intro s
    have same : { patch s with tables := change (patch s).tables } =
        patch { s with tables := change s.tables } := by
      rw [changes, changes, spared.patch_modify]
    exact congrArg (EStateM.Result.ok ()) same
  · intro s sound
    exact sound
  · intro s good
    exact ⟨good, rfl⟩

/-- Changing the state outside the engine, within what `patch` spares. -/
theorem modify {π : Type} {part : Part Txn π} {change : Txn → Txn} (spared : part.Spared patch)
    (f : π → π) (changes : ∀ s, change s = part.put (f (part.get s)) s)
    (sound : ∀ s, (change s).faults = s.faults ∧ (change s).broken = s.broken)
    (calm : ∀ s, change s.calm = (change s).calm) : Confined patch (modify change) := by
  constructor
  · intro s
    have same : change (patch s) = patch (change s) := by
      rw [changes, changes, spared.patch_modify]
    exact congrArg (EStateM.Result.ok ()) same
  · rintro s ⟨faults, broken⟩
    exact ⟨(sound s).1.trans faults, (sound s).2.trans broken⟩
  · intro s good
    exact ⟨(sound s).2.symm.trans good, congrArg (EStateM.Result.ok ()) (calm s)⟩

end Confined

end Primitives

/-! ### The helpers of a write -/

section Records

variable {patch : Txn → Txn} {eng : Engine}

variable (engine : enginePart.Spared patch) (records : recordsPart.Spared patch)

namespace Confined

include engine records

theorem queryMain (key : Bytes) : Confined patch (Store.query fun t => t.main.get key) :=
  query engine records (fun r => r.main.get key) fun _ => rfl

theorem putMain (key : Bytes) (r : Record) :
    Confined patch (Store.update fun t => { t with main := t.main.put key r }) :=
  update engine records (fun p => { p with main := p.main.put key r }) fun _ => rfl

theorem deleteMain (key : Bytes) :
    Confined patch (Store.update fun t => { t with main := t.main.delete key }) :=
  update engine records (fun p => { p with main := p.main.delete key }) fun _ => rfl

theorem deleteExp (entry : IndexKey) :
    Confined patch (Store.update fun t => { t with exp := t.exp.delete entry }) :=
  update engine records (fun p => { p with exp := p.exp.delete entry }) fun _ => rfl

theorem deleteTagidx (entry : IndexKey) :
    Confined patch (Store.update fun t => { t with tagidx := t.tagidx.delete entry }) :=
  update engine records (fun p => { p with tagidx := p.tagidx.delete entry }) fun _ => rfl

theorem clearTagRows (key : Bytes) (ids : List Nat) :
    Confined patch (clearTagRows eng key ids) := by
  induction ids with
  | nil => exact pure _
  | cons id rest ih => exact (deleteTagidx engine records _).bind fun _ => ih

theorem putTagRows (key : Bytes) (ids : List Nat) : Confined patch (putTagRows eng key ids) := by
  induction ids with
  | nil => exact pure _
  | cons id rest ih =>
    apply bind _ fun _ => ih
    exact update engine records
      (fun p => { p with tagidx := p.tagidx.put (indexKey eng.config id key) key }) fun _ => rfl

theorem clearDisplaced (key : Bytes) (rows : IndexRows) (keepExpiryRow : Bool) :
    Confined patch (clearDisplaced eng key rows keepExpiryRow) := by
  unfold Store.clearDisplaced
  split
  · exact clearTagRows engine records key _
  · exact (deleteExp engine records _).bind fun _ => clearTagRows engine records key _

omit records in
theorem judge (r : Record) : Confined patch (judge eng r) :=
  (nowMs engine).bind fun _ => pure _

theorem displace (key : Bytes) (wantValue keepExpiryRow : Bool) :
    Confined patch (displace eng key wantValue keepExpiryRow) := by
  apply bind (queryMain engine records key)
  intro found
  cases found with
  | none => exact pure _
  | some r =>
    apply bind (judge engine r)
    intro live
    exact (clearDisplaced engine records key _ _).bind fun _ => pure _

theorem readForUpdate (key : Bytes) : Confined patch (readForUpdate eng key) := by
  apply bind (queryMain engine records key)
  intro found
  cases found with
  | none => exact pure _
  | some r => exact (judge engine r).bind fun _ => pure _

theorem liveRecord (key : Bytes) : Confined patch (liveRecord eng key) := by
  apply bind (readForUpdate engine records key)
  intro found
  split
  · exact pure _
  · exact pure _

theorem displaceOrPreRead (p : PreparedSet) (preRead : Option PreRead) :
    Confined patch (displaceOrPreRead eng p preRead) := by
  cases preRead with
  | none => exact displace engine records _ _ _
  | some pre =>
    cases h : pre.rows with
    | none =>
      simp only [Store.displaceOrPreRead, h]
      exact pure _
    | some rows =>
      simp only [Store.displaceOrPreRead, h]
      exact (clearTagRows engine records _ _).bind fun _ => pure _

omit records in
theorem settleDeadline (p : PreparedSet) (displaced : Displaced) :
    Confined patch (settleDeadline p displaced) := by
  unfold Store.settleDeadline
  split
  · exact pure _
  · exact (nowMs engine).bind fun _ => pure _

theorem reindexExpiry (key : Bytes) (indexedAt : Option Nat) (expiresAtMs : Nat) :
    Confined patch (reindexExpiry eng key indexedAt expiresAtMs) := by
  have put : Confined patch (Store.update fun t =>
      { t with exp := t.exp.put (encodeKey eng.config expiresAtMs key) key }) :=
    update engine records
      (fun p => { p with exp := p.exp.put (encodeKey eng.config expiresAtMs key) key }) fun _ => rfl
  unfold Store.reindexExpiry
  split
  · exact pure _
  · cases indexedAt with
    | none => exact put
    | some previously => exact (deleteExp engine records _).bind fun _ => put

theorem applyDelete (key : Bytes) : Confined patch (applyDelete eng key) :=
  (displace engine records key _ _).bind fun _ =>
    (deleteMain engine records key).bind fun _ => pure _

end Confined

end Records

/-! ### The record jobs -/

/-- `nextCas` once the counter has been advanced to `counter`. -/
def reserve (eng : Engine) (counter watermark : Nat) : TxnM Nat := do
  if counter ≥ watermark then
    update fun t => { t with casWatermark := some (wrappingAdd64 counter casBlock) }
    modify fun s => { s with
      counters := { s.counters with casWatermark := wrappingAdd64 counter casBlock } }
  return (counter * eng.config.shardCount + eng.config.shardIndex) % 2 ^ 64

theorem nextCas_eq (eng : Engine) (s : Txn) :
    nextCas eng s =
      reserve eng (wrappingAdd64 s.counters.casNext 1) s.counters.casWatermark
        (casPart.put { casPart.get s with next := wrappingAdd64 s.counters.casNext 1 } s) := rfl

/-- What a write does once it has its token and knows what it displaces. -/
def storeOver (eng : Engine) (p : PreparedSet) (cas : Nat) (displaced : Displaced) :
    TxnM SetApplied := do
  let expiresAtMs ← settleDeadline p displaced
  update fun t => { t with main := t.main.put p.key (p.finish cas expiresAtMs) }
  modify fun s => { s with written := s.written ++ [(p.key, cas)] }
  reindexExpiry eng p.key displaced.indexedAt expiresAtMs
  putTagRows eng p.key (p.tags.map TagRef.tagId)
  return ⟨cas, displaced.previous⟩

theorem applySet_steps (eng : Engine) (p : PreparedSet) (preRead : Option PreRead) :
    applySet eng p preRead = (do
      let cas ← nextCas eng
      let displaced ← displaceOrPreRead eng p preRead
      storeOver eng p cas displaced) := rfl

section Writes

variable {patch : Txn → Txn} {eng : Engine}

variable (engine : enginePart.Spared patch) (records : recordsPart.Spared patch)
  (cas : casPart.Spared patch)

namespace Confined

include engine cas

theorem reserve (counter watermark : Nat) : Confined patch (reserve eng counter watermark) := by
  have durable : ∀ watermark : Nat, Confined patch (Store.update fun t =>
      { t with casWatermark := some watermark }) := fun watermark =>
    update engine cas (fun p => { p with durable := some watermark }) fun _ => rfl
  have raise : ∀ watermark : Nat, Confined patch (MonadState.modifyGet fun s : Txn =>
      ((), { s with counters := { s.counters with casWatermark := watermark } })) :=
        fun watermark =>
    modify cas (fun p => { p with watermark }) (fun _ => rfl) (fun _ => ⟨rfl, rfl⟩) fun _ => rfl
  unfold Store.reserve
  split
  · exact (durable _).bind fun _ => (raise _).bind fun _ => pure _
  · exact pure _

theorem nextCas : Confined patch (nextCas eng) := by
  constructor
  · intro s
    have same := cas.get_patch s
    simp only [casPart, CasState.mk.injEq] at same
    rw [nextCas_eq, nextCas_eq, same.1, same.2.1, ← (reserve engine cas _ _).ignores,
      cas.patch_put, cas.get_patch]
  · intro s sound
    have moved : (casPart.put
        { casPart.get s with next := wrappingAdd64 s.counters.casNext 1 } s).Sound := sound
    unfold wp
    rw [nextCas_eq]
    exact (reserve engine cas _ _).sound _ moved
  · intro s
    have reserved : Calm (Store.reserve eng (wrappingAdd64 s.counters.casNext 1)
        s.counters.casWatermark) := (reserve engine cas _ _).calm
    exact reserved (casPart.put
      { casPart.get s with next := wrappingAdd64 s.counters.casNext 1 } s)

include records

omit cas in
/-- Once it has its token, a write uses the records and the history. -/
theorem storeOver (history : historyPart.Spared patch) (p : PreparedSet) (token : Nat)
    (displaced : Displaced) : Confined patch (storeOver eng p token displaced) := by
  apply bind (settleDeadline engine p displaced)
  intro expiresAtMs
  apply bind (putMain engine records _ _)
  intro _
  apply bind (modify history (fun written => written ++ [(p.key, token)])
    (fun _ => rfl) (fun _ => ⟨rfl, rfl⟩) fun _ => rfl)
  intro _
  apply bind (reindexExpiry engine records _ _ _)
  intro _
  exact (putTagRows engine records _ _).bind fun _ => pure _

theorem applySet (p : PreparedSet) (preRead : Option PreRead) :
    Confined patch (applySet eng p preRead) :=
  bind (nextCas engine cas) fun token => bind (displaceOrPreRead engine records p preRead) fun _ =>
    storeOver engine records (historyPart_spared cas) p token _

omit engine cas records in
theorem conditionalRecord (p : PreparedSet) (mode : SetMode) (existing : Option Record) :
    Confined patch (conditionalRecord eng p mode existing) := by
  unfold Store.conditionalRecord
  split
  · exact (liftCore _).bind fun _ => liftCore _
  · exact (liftCore _).bind fun _ => liftCore _
  · exact pure _

theorem applyConditionalSet (p : PreparedSet) (mode : SetMode) :
    Confined patch (applyConditionalSet eng p mode) := by
  apply bind (readForUpdate engine records p.key)
  intro found
  dsimp only
  split
  · exact pure _
  · apply bind (conditionalRecord p mode _)
    intro prepared
    exact (applySet engine records cas _ _).bind fun _ => pure _

/-- The jobs that change a record in place. -/
theorem inPlace (key : Bytes) : RecordLogic eng key (fun _ _ => True) (Confined patch) :=
  .of_looks pure (fun e => throw (.core e)) (fun _ h => h.bind fun _ => pure _) bind
    (nowMs engine) (liveRecord engine records key) (queryMain engine records key)
    (fun _ => applySet engine records cas _ none) (applyDelete engine records key)

end Confined

end Writes

/-! ### The background passes -/

section Background

variable {patch : Txn → Txn} {eng : Engine}

variable (engine : enginePart.Spared patch) (records : recordsPart.Spared patch)

namespace Confined

include engine records

theorem takeVictim (accept : Victims) (now : Nat) (row : IndexKey × Bytes) :
    Confined patch (takeVictim eng accept now row) := by
  apply bind (queryMain engine records row.2)
  intro found
  cases found with
  | none => exact pure _
  | some r =>
    dsimp only
    split
    · apply bind (deleteMain engine records _)
      intro _
      exact (clearTagRows engine records _ _).bind fun _ => pure _
    · exact pure _

theorem drainExpiryIndex (budget : Nat) (accept : Victims) :
    Confined patch (drainExpiryIndex eng budget accept) := by
  apply bind (nowMs engine)
  intro now
  apply bind (query engine records (fun r => r.exp.rows) fun _ => rfl)
  intro rows
  apply bind
  · apply forEach
    intro row _
    apply bind (takeVictim engine records accept now row)
    intro taken
    exact (deleteExp engine records _).bind fun _ => pure _
  · intro taken
    exact pure _

theorem reclaimRecord (key : Bytes) (r : Record) : Confined patch (reclaimRecord eng key r) := by
  apply bind (deleteMain engine records key)
  intro _
  split
  · exact (deleteExp engine records _).bind fun _ => clearTagRows engine records _ _
  · exact clearTagRows engine records _ _

theorem reclaimEntry (tagId target now : Nat) (row : IndexKey × Bytes) :
    Confined patch (reclaimEntry eng tagId target now row) := by
  have orphaned : Confined patch (do
      Store.update fun t => { t with tagidx := t.tagidx.delete row.1 }
      return Reclaimed.orphaned) := (deleteTagidx engine records _).bind fun _ => pure _
  apply bind (queryMain engine records row.2)
  intro found
  cases found with
  | none => exact orphaned
  | some r =>
    cases carried : r.tags.find? fun t => t.tagId = tagId with
    | none =>
      simp only [carried]
      exact orphaned
    | some tag =>
      simp only [carried]
      split
      · exact pure _
      · exact (reclaimRecord engine records _ _).bind fun _ => pure _

theorem reclaimStep (jobs : jobsPart.Spared patch) (budget : Nat) :
    Confined patch (reclaimStep eng budget) := by
  apply bind (query engine jobs (fun rows => rows.rows.head?) fun _ => rfl)
  intro first
  cases first with
  | none => exact pure _
  | some entry =>
    obtain ⟨tagId, job⟩ := entry
    apply bind (query engine records (fun r =>
      (jobRows tagId job r.tagidx.rows).take (max budget 1)) fun _ => rfl)
    intro batch
    apply bind (nowMs engine)
    intro now
    apply bind (forEach fun row _ => reclaimEntry engine records tagId _ now row)
    intro results
    apply bind
    · unfold finishJob
      split
      · exact update engine jobs (fun rows => rows.delete tagId) fun _ => rfl
      · exact update engine jobs (fun rows => rows.put tagId _) fun _ => rfl
    · intro _
      exact pure _

end Confined

end Background

/-! ### The tag jobs -/

/-- `patch` leaves the tag rows alone, and effects are queued behind whatever it does
to the effects. -/
structure TagsSpared (patch : Txn → Txn) : Prop where
  rows : rowsPart.Spared patch
  queues : ∀ effect s, patch { s with effects := s.effects ++ [effect] } =
    { patch s with effects := (patch s).effects ++ [effect] }

section Tags

variable {patch : Txn → Txn} {eng : Engine}

variable (engine : enginePart.Spared patch) (tags : TagsSpared patch)

namespace Confined

include engine tags

theorem queryTags (name : Bytes) : Confined patch (Store.query fun t => t.tags.get name) :=
  query engine tags.rows (fun p => p.1.get name) fun _ => rfl

theorem putTags (name : Bytes) (row : TagRow) :
    Confined patch (Store.update fun t => { t with tags := t.tags.put name row }) :=
  update engine tags.rows (fun p => (p.1.put name row, p.2)) fun _ => rfl

omit engine in
theorem publish (effect : PostCommit) : Confined patch (publish effect) :=
  ⟨fun s => congrArg (EStateM.Result.ok ()) (tags.queues effect s).symm, fun _ sound => sound,
    fun _ good => ⟨good, rfl⟩⟩

omit engine tags in
theorem validateTagName (name : Bytes) : Confined patch (validateTagName name) := by
  unfold Store.validateTagName
  split
  · exact throw _
  · exact pure _

omit engine in
theorem allocateId : Confined patch (allocateId eng) := by
  unfold Store.allocateId
  split
  · exact throw _
  · constructor
    · intro s
      have same : (patch s).counters.nextId = s.counters.nextId :=
        congrArg Prod.snd (tags.rows.get_patch s)
      have moved := tags.rows.patch_modify (fun p => (p.1, wrappingAdd32 p.2 1)) s
      change EStateM.Result.ok (patch s).counters.nextId
          (rowsPart.put ((rowsPart.get (patch s)).1, wrappingAdd32 (rowsPart.get (patch s)).2 1)
            (patch s)) =
        .ok s.counters.nextId
          (patch (rowsPart.put ((rowsPart.get s).1, wrappingAdd32 (rowsPart.get s).2 1) s))
      rw [moved, same]
    · intro s sound
      exact sound
    · intro s good
      exact ⟨good, rfl⟩

theorem applyCreateTag (name : Bytes) (start : Nat) :
    Confined patch (applyCreateTag eng name start) := by
  apply bind (validateTagName name)
  intro _
  apply bind (queryTags engine tags name)
  intro found
  cases found with
  | some row => exact pure _
  | none =>
    apply bind (allocateId tags)
    intro id
    exact (putTags engine tags _ _).bind fun _ => pure _

variable (jobs : jobsPart.Spared patch)

include jobs

theorem applyMergeTag (name : Bytes) (generation : Nat) :
    Confined patch (applyMergeTag eng name generation) := by
  apply bind (validateTagName name)
  intro _
  apply bind (queryTags engine tags name)
  intro found
  cases found with
  | none => exact (applyCreateTag engine tags _ _).bind fun _ => pure _
  | some row =>
    dsimp only
    split
    · exact pure _
    · apply bind (putTags engine tags _ _)
      intro _
      apply bind (update engine jobs (fun rows => rows.put row.id (.new generation)) fun _ => rfl)
      intro _
      exact pure _

theorem applyDeleteByTag (name : Bytes) : Confined patch (applyDeleteByTag eng name) := by
  apply bind (queryTags engine tags name)
  intro found
  cases found with
  | none => exact pure _
  | some row =>
    dsimp only
    split
    · exact pure _
    · exact (applyMergeTag engine tags jobs name _).bind fun _ => pure _

omit jobs in
theorem createTag (name : Bytes × Nat) : Confined patch (createTag eng name) :=
  (applyCreateTag engine tags _ _).bind fun _ => publish tags _

theorem deleteByTagOp (name : Bytes) : Confined patch (deleteByTagOp eng name) := by
  apply bind (applyDeleteByTag engine tags jobs name)
  intro row
  cases row with
  | none => exact pure _
  | some row => exact (publish tags _).bind fun _ => pure _

theorem mergeTagOp (name : Bytes) (generation : Nat) :
    Confined patch (mergeTagOp eng name generation) := by
  apply bind (applyMergeTag engine tags jobs name generation)
  intro merged
  cases merged with
  | created id generation => exact (publish tags _).bind fun _ => pure _
  | raised id generation => exact (publish tags _).bind fun _ => pure _
  | unchanged id generation => exact pure _

omit tags in
theorem applyFlush (records : recordsPart.Spared patch) (epoch : epochPart.Spared patch) :
    Confined patch (applyFlush eng) := by
  apply bind (update engine epoch (fun _ => some (wrappingAdd32 eng.epoch 1)) fun _ => rfl)
  intro _
  apply bind (update engine records (fun r => { r with main := ∅ }) fun _ => rfl)
  intro _
  apply bind (update engine records (fun r => { r with exp := ∅ }) fun _ => rfl)
  intro _
  apply bind (update engine records (fun r => { r with tagidx := ∅ }) fun _ => rfl)
  intro _
  apply bind (update engine jobs (fun _ => ∅) fun _ => rfl)
  intro _
  exact pure _

/-- A flush uses every part but the tokens. -/
theorem flushOp (records : recordsPart.Spared patch) (epoch : epochPart.Spared patch) :
    Confined patch (flushOp eng) := by
  apply bind (applyFlush engine jobs records epoch)
  intro next
  exact (publish tags _).bind fun _ => pure _

end Confined

end Tags

/-! ### The jobs -/

section Jobs

variable {patch : Txn → Txn} {eng : Engine} {op : WriteOp}

/-- A record job uses the records and the tokens. -/
theorem Confined.recordJob (engine : enginePart.Spared patch) (records : recordsPart.Spared patch)
    (cas : casPart.Spared patch) (record : op.isRecord = true) : Confined patch (apply eng op) := by
  cases op with
  | set prepared =>
    exact (forEach fun p _ => applySet engine records cas p none).bind fun _ => pure _
  | conditionalSet prepared mode =>
    exact (applyConditionalSet engine records cas prepared mode).bind fun _ => pure _
  | delete keys => exact (forEach fun key _ => applyDelete engine records key).bind fun _ => pure _
  | touch keys ttlSecs =>
    exact (forEach fun key _ => (inPlace engine records cas key).applyTouch ttlSecs).bind
      fun _ => pure _
  | arithmetic op => exact (inPlace engine records cas op.key).applyArithmetic.bind fun _ => pure _
  | append key suffix =>
    exact ((inPlace engine records cas key).applyAppend suffix).bind fun _ => pure _
  | expire key ttl guard =>
    exact ((inPlace engine records cas key).applyExpire ttl guard).bind fun _ => pure _
  | _ => simp [WriteOp.isRecord] at record

/-- A tag job uses the tag rows and the reclaim jobs. -/
theorem Confined.tagJob (engine : enginePart.Spared patch) (tags : TagsSpared patch)
    (jobs : jobsPart.Spared patch) (other : op.isRecord = false) (kept : op ≠ .flush) :
    Confined patch (apply eng op) := by
  cases op with
  | createTags names =>
    exact (forEach fun name _ => createTag engine tags name).bind fun _ => pure _
  | deleteByTag name => exact deleteByTagOp engine tags jobs name
  | mergeTag name generation => exact mergeTagOp engine tags jobs name generation
  | flush => exact absurd rfl kept
  | sync => exact pure _
  | _ => simp [WriteOp.isRecord] at other

/-- `patch` leaves every part but the effects alone. -/
structure JobSpared (patch : Txn → Txn) : Prop where
  engine : enginePart.Spared patch
  records : recordsPart.Spared patch
  cas : casPart.Spared patch
  tags : TagsSpared patch
  jobs : jobsPart.Spared patch
  epoch : epochPart.Spared patch

theorem Confined.job (spared : JobSpared patch) (op : WriteOp) : Confined patch (apply eng op) := by
  cases record : op.isRecord with
  | true => exact recordJob spared.engine spared.records spared.cas record
  | false =>
    by_cases flushes : op = .flush
    · subst flushes
      exact flushOp spared.engine spared.tags spared.jobs spared.records spared.epoch
    · exact tagJob spared.engine spared.tags spared.jobs record flushes

theorem JobSpared.id : JobSpared id :=
  ⟨⟨fun _ => rfl, fun _ _ => rfl⟩, ⟨fun _ => rfl, fun _ _ => rfl⟩, ⟨fun _ => rfl, fun _ _ => rfl⟩,
    ⟨⟨fun _ => rfl, fun _ _ => rfl⟩, fun _ _ => rfl⟩, ⟨fun _ => rfl, fun _ _ => rfl⟩,
    ⟨fun _ => rfl, fun _ _ => rfl⟩⟩

/-- On an engine that fails nothing, no job breaks the transaction. -/
theorem apply_sound (eng : Engine) (op : WriteOp) :
    Preserves Txn.Sound (fun _ s => s.Sound) (apply eng op) := (Confined.job .id op).sound

/-- As long as no call fails, every job does what it does on an engine that fails
nothing. -/
theorem apply_calm (eng : Engine) (op : WriteOp) : Calm (apply eng op) :=
  (Confined.job .id op).calm

theorem drainExpiryIndex_calm (eng : Engine) (budget : Nat) (accept : Victims) :
    Calm (drainExpiryIndex eng budget accept) :=
  (Confined.drainExpiryIndex JobSpared.id.engine JobSpared.id.records budget accept).calm

theorem drainExpiryIndex_sound (eng : Engine) (budget : Nat) (accept : Victims) :
    Preserves Txn.Sound (fun _ s => s.Sound) (drainExpiryIndex eng budget accept) :=
  (Confined.drainExpiryIndex JobSpared.id.engine JobSpared.id.records budget accept).sound

theorem reclaimStep_calm (eng : Engine) (budget : Nat) : Calm (reclaimStep eng budget) :=
  (Confined.reclaimStep JobSpared.id.engine JobSpared.id.records JobSpared.id.jobs budget).calm

theorem reclaimStep_sound (eng : Engine) (budget : Nat) :
    Preserves Txn.Sound (fun _ s => s.Sound) (reclaimStep eng budget) :=
  (Confined.reclaimStep JobSpared.id.engine JobSpared.id.records JobSpared.id.jobs budget).sound

end Jobs

end Vash.Store
