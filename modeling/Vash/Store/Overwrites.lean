import Vash.Store.Invalidation
import Vash.Store.Stored

/-!
# Writes over a record

A write over a record starts by reading what it displaces. `apply_set` makes that
read itself; a guarded write makes its own, ahead of its guard, and hands it on.

* `set_mode_is_apply_set` — a guarded write without a guard returns what the plain
  write returns and leaves the transaction it leaves.
* `in_place_keeps_tags_iff` — a job that changes a live record in place keeps its
  references, and with them every invalidation of its tags, unless it concatenates
  with references of its own.
* `concatenation_drops_tags` — the guarded append of a client that names no tags.
-/

namespace Vash.Store

open Library

/-! ### The two reads -/

section Reads

variable {eng : Engine} {s : Txn}

/-- The engine takes the next call. -/
def Txn.ready (s : Txn) : Bool := !s.broken && (s.faults.headD none).isNone

/-- The transaction after the engine has taken a call. -/
def Txn.called (s : Txn) : Txn := { s with faults := s.faults.tail }

/-- The transaction after a reading of the clock. -/
def Txn.ticked (s : Txn) : Txn := { s with clock := fun n => s.clock (n + 1) }

theorem returned_engineCall (s : Txn) :
    returned (engineCall s) = if s.ready then some ((), s.called) else none := by
  unfold engineCall nextReport Txn.ready Txn.called
  rcases s with ⟨tables, counters, effects, faults, broken, clock, written⟩
  cases broken with
  | true => rfl
  | false => rcases faults with - | ⟨_ | fault, rest⟩ <;> rfl

theorem returned_query {α : Type} (read : Tables → α) (s : Txn) :
    returned (query read s) = if s.ready then some (read s.tables, s.called) else none := by
  unfold query
  rw [returned_bind, returned_engineCall]
  split <;> rfl

theorem returned_update (change : Tables → Tables) (s : Txn) :
    returned (update change s) =
      if s.ready then some ((), { s.called with tables := change s.tables }) else none := by
  unfold update
  rw [returned_bind, returned_engineCall]
  split <;> rfl

/-- The record under a key, judged at the clock's next reading. -/
def Txn.found (s : Txn) (eng : Engine) (key : Bytes) : Option Found :=
  (s.tables.main.get key).map fun r =>
    ⟨r, r.isAlive (s.clock 0) eng.epoch eng.registry.generation⟩

theorem returned_readForUpdate (key : Bytes) (s : Txn) :
    returned (readForUpdate eng key s) =
      if s.ready then
        some (s.found eng key, if (s.found eng key).isSome then s.called.ticked else s.called)
      else none := by
  unfold readForUpdate Txn.found
  rw [returned_bind, returned_query]
  split
  · rw [Option.bind_some]
    cases s.tables.main.get key <;> rfl
  · rfl

/-- The reservation of tokens extended to `counter + casBlock`. -/
def Txn.reserved (s : Txn) (counter : Nat) : Txn :=
  { s with
    tables := { s.tables with casWatermark := some (wrappingAdd64 counter casBlock) }
    counters := { s.counters with casWatermark := wrappingAdd64 counter casBlock } }

/-- The transaction with its token counter at `counter`. -/
def Txn.counted (s : Txn) (counter : Nat) : Txn :=
  { s with counters := { s.counters with casNext := counter } }

section Frames

variable (s : Txn) (counter : Nat)

@[simp] theorem Txn.ready_counted : (s.counted counter).ready = s.ready := rfl

@[simp] theorem Txn.ready_reserved : (s.reserved counter).ready = s.ready := rfl

@[simp] theorem Txn.ready_ticked : s.ticked.ready = s.ready := rfl

@[simp] theorem Txn.called_counted : (s.counted counter).called = s.called.counted counter := rfl

@[simp] theorem Txn.called_reserved : (s.reserved counter).called = s.called.reserved counter := rfl

@[simp] theorem Txn.called_ticked : s.ticked.called = s.called.ticked := rfl

@[simp] theorem Txn.ticked_counted : (s.counted counter).ticked = s.ticked.counted counter := rfl

@[simp] theorem Txn.ticked_reserved : (s.reserved counter).ticked = s.ticked.reserved counter := rfl

@[simp] theorem Txn.found_counted (key : Bytes) :
    (s.counted counter).found eng key = s.found eng key := rfl

@[simp] theorem Txn.found_reserved (key : Bytes) :
    (s.reserved counter).found eng key = s.found eng key := rfl

@[simp] theorem Txn.found_called (key : Bytes) : s.called.found eng key = s.found eng key := rfl

@[simp] theorem Txn.counters_called : s.called.counters = s.counters := rfl

@[simp] theorem Txn.counters_ticked : s.ticked.counters = s.counters := rfl

end Frames

theorem returned_nextCas (s : Txn) :
    returned (nextCas eng s) =
      let counter := wrappingAdd64 s.counters.casNext 1
      let cas := (counter * eng.config.shardCount + eng.config.shardIndex) % 2 ^ 64
      if counter ≥ s.counters.casWatermark then
        if s.ready then some (cas, (s.called.counted counter).reserved counter) else none
      else some (cas, s.counted counter) := by
  unfold nextCas
  rw [returned_get_bind, returned_set_bind]
  dsimp only
  split
  · change returned ((update _ >>= _) (s.counted (wrappingAdd64 s.counters.casNext 1))) = _
    rw [returned_bind, returned_update, Txn.ready_counted]
    split <;> rfl
  · rfl

/-- Reading a record and allocating a token do not see each other. -/
theorem returned_read_nextCas {α : Type} (key : Bytes) (next : Option Found → Nat → TxnM α)
    (s : Txn) :
    returned ((readForUpdate eng key >>= fun found => nextCas eng >>= next found) s) =
      returned ((nextCas eng >>= fun cas => readForUpdate eng key >>= fun found =>
        next found cas) s) := by
  simp only [returned_bind, returned_readForUpdate, returned_nextCas]
  by_cases ready : s.ready
  · by_cases runs : wrappingAdd64 s.counters.casNext 1 ≥ s.counters.casWatermark
    · -- Two calls either way, and the second one is taken or not either way.
      by_cases again : s.called.ready <;> cases present : (s.found eng key).isSome <;>
        simp [ready, runs, again, present]
    · cases present : (s.found eng key).isSome <;> simp [ready, runs, present]
  · by_cases runs : wrappingAdd64 s.counters.casNext 1 ≥ s.counters.casWatermark <;>
      simp [ready, runs]

end Reads

section PreRead

variable (eng : Engine) (p : PreparedSet)

/-- The rows a write clears of the record it found. -/
def clearFound (key : Bytes) : Option Found → TxnM Unit
  | none => pure ()
  | some found => clearTagRows eng key (IndexRows.of found.record).tagIds

/-- What the record found was holding. -/
def Found.displaced (found : Option Found) (wantValue : Bool) : Displaced :=
  match found with
  | none => .default
  | some f => .of f.record f.live wantValue

theorem displace_eq (key : Bytes) (wantValue : Bool) :
    displace eng key wantValue true = (do
      let found ← readForUpdate eng key
      clearFound eng key found
      return Found.displaced found wantValue) := by
  unfold displace readForUpdate
  rw [bind_assoc]
  congr 1
  funext record
  cases record <;> rfl

theorem applySet_eq :
    applySet eng p none = (do
      let cas ← nextCas eng
      let found ← readForUpdate eng p.key
      clearFound eng p.key found
      storeOver eng p cas (Found.displaced found p.returnPrevious)) := by
  have read : applySet eng p none =
    nextCas eng >>= fun cas => displace eng p.key p.returnPrevious true >>=
      storeOver eng p cas := rfl
  rw [read, displace_eq]
  simp only [bind_assoc, pure_bind]

theorem applySet_preRead_eq (found : Option Found) (displaced : Displaced) :
    applySet eng p (some ⟨found.map fun f => .of f.record, displaced⟩) = (do
      let cas ← nextCas eng
      clearFound eng p.key found
      storeOver eng p cas displaced) := by
  unfold applySet displaceOrPreRead
  congr 1
  funext cas
  cases found with
  | none => rfl
  | some f =>
    simp only [Option.map_some, bind_assoc, pure_bind, clearFound]
    rfl

/-- The summary a guarded write builds of the record it found is the one `displace`
reports. -/
theorem Found.displaced_eq (found : Option Found) (wantValue : Bool) :
    let existing := found.bind fun f => if f.live then some f.record else none
    (⟨existing.isSome, existing.map fun r => r.header.expiresAtMs,
      if wantValue then existing.map Record.toValue else none,
      found.map fun f => f.record.header.expiresAtMs⟩ : Displaced) =
        Found.displaced found wantValue := by
  rcases found with - | ⟨record, _ | _⟩ <;> cases wantValue <;> rfl

theorem applyConditionalSet_set_eq :
    applyConditionalSet eng p .set = (do
      let found ← readForUpdate eng p.key
      let cas ← nextCas eng
      clearFound eng p.key found
      let applied ← storeOver eng p cas (Found.displaced found p.returnPrevious)
      return ⟨.stored applied.cas, applied.previous⟩) := by
  unfold applyConditionalSet
  congr 1
  funext found
  simp only [conditionalVerdict, conditionalRecord, pure_bind, Found.displaced_eq,
    applySet_preRead_eq, bind_assoc]

/-- The guarded write without a guard returns what the plain write returns, and
leaves the transaction it leaves: the same tables, token, reported value, history,
and the same calls and readings used up. Either both stop or neither does. -/
theorem set_mode_is_apply_set (s : Txn) :
    returned (applyConditionalSet eng p .set s) =
      (returned (applySet eng p none s)).map fun r =>
        (⟨.stored r.1.cas, r.1.previous⟩, r.2) := by
  have wrapped : (returned (applySet eng p none s)).map (fun r =>
      ((⟨.stored r.1.cas, r.1.previous⟩ : Written), r.2)) =
      returned ((applySet eng p none >>= fun applied =>
        pure (⟨.stored applied.cas, applied.previous⟩ : Written)) s) := by
    rw [returned_bind, Option.map_eq_bind]
    rfl
  rw [wrapped, applyConditionalSet_set_eq, returned_read_nextCas, applySet_eq]
  simp only [bind_assoc]

end PreRead

/-! ### Changes in place -/

section InPlace

variable {eng : Engine} {s : Txn} {key : Bytes} {r : Record}

/-- The record found is judged at the clock's next reading. -/
theorem readForUpdate_found (key : Bytes) :
    wp (readForUpdate eng key)
      (fun found s' => found = s.found eng key ∧ s.Agrees s' ∧
        s'.clock = if (s.found eng key).isSome then s.ticked.clock else s.clock) Breaks s := by
  refine (readForUpdate_spec key).of_returned ?_
  rintro found s' ran ⟨-, agrees⟩
  rw [returned_readForUpdate] at ran
  split at ran
  · obtain ⟨rfl, rfl⟩ := Prod.mk.inj (Option.some.inj ran)
    exact ⟨rfl, agrees, by split <;> rfl⟩
  · cases ran

theorem wp_nowMs_bind {α : Type} {next : Nat → TxnM α} {post : α → Txn → Prop}
    {fail : StoreError → Txn → Prop} (rest : wp (next (s.clock 0)) post fail s.ticked) :
    wp (nowMs >>= next) post fail s := rest

/-- A record live at the next reading is found. -/
theorem liveRecord_live (stored : s.tables.main.get key = some r)
    (live : r.isAlive (s.clock 0) eng.epoch eng.registry.generation = true) :
    wp (liveRecord eng key)
      (fun found s' => found = some r ∧ s.Agrees s' ∧ s'.clock = s.ticked.clock) Breaks s := by
  have found : s.found eng key = some ⟨r, true⟩ := by simp [Txn.found, stored, live]
  refine wp.bind (readForUpdate_found key) ?_
  rintro _ s₁ ⟨rfl, agrees, clock⟩
  rw [found] at clock ⊢
  exact wp.pure ⟨rfl, agrees, clock⟩

/-- The record under `key` has the given references. -/
def Txn.Carries (s : Txn) (key : Bytes) (tags : List TagRef) : Prop :=
  ∃ r, s.tables.main.get key = some r ∧ r.tags = tags

theorem applyAppend_carries (stored : s.tables.main.get key = some r)
    (live : r.isAlive (s.clock 0) eng.epoch eng.registry.generation = true) (suffix : Bytes) :
    wp (applyAppend eng key suffix) (fun _ s' => s'.Carries key r.tags) (fun _ _ => True) s := by
  refine wp.bind ((liveRecord_live stored live).mono (fun _ _ h => h.1) fun _ _ _ => trivial) ?_
  rintro _ s₁ rfl
  refine wp.bind (liftCore_spec.mono (fun _ _ _ => trivial) fun _ _ _ => trivial) fun _ _ _ => ?_
  exact wp.bind (rewrite_stores fun _ h _ _ => h) fun _ _ carries => wp.pure carries

theorem applyArithmetic_carries {op : Arithmetic} (stored : s.tables.main.get op.key = some r)
    (live : r.isAlive (s.clock 0) eng.epoch eng.registry.generation = true) :
    wp (applyArithmetic eng op) (fun _ s' => s'.Carries op.key r.tags) (fun _ _ => True) s := by
  refine wp.bind ((liveRecord_live stored live).stops fun _ _ _ => trivial) ?_
  rintro _ s₁ ⟨rfl, agrees, -⟩
  have kept : s₁.Carries op.key r.tags := ⟨r, by rw [agrees.tables, stored], rfl⟩
  refine wp.bind (liftCore_spec.mono (fun _ _ h => h.2) fun _ _ _ => trivial) ?_
  rintro outcome _ rfl
  cases outcome with
  | missing => exact wp.pure kept
  | unchanged applied => exact wp.pure kept
  | store text applied =>
    refine wp.bind (liftCore_spec.mono (fun _ _ _ => trivial) fun _ _ _ => trivial)
      fun _ _ _ => wp.bind nowMs_spec fun _ _ _ => ?_
    exact wp.bind (rewrite_stores fun _ h _ _ => h) fun _ _ carries => wp.pure carries

/-- An expire whose deadline lies ahead. -/
theorem applyExpire_carries (stored : s.tables.main.get key = some r)
    (live : r.isAlive (s.clock 0) eng.epoch eng.registry.generation = true)
    {ttl : TtlChange} {guard : ExpireGuard}
    (ahead : deadlineAfter (s.clock 1) ttl r.header.expiresAtMs = never ∨
      s.clock 2 < deadlineAfter (s.clock 1) ttl r.header.expiresAtMs) :
    wp (applyExpire eng key ttl guard) (fun _ s' => s'.Carries key r.tags) (fun _ _ => True) s := by
  refine wp.bind ((liveRecord_live stored live).stops fun _ _ _ => trivial) ?_
  rintro _ s₁ ⟨rfl, agrees, clock⟩
  have kept : s₁.Carries key r.tags := ⟨r, by rw [agrees.tables, stored], rfl⟩
  have settled : s₁.clock 0 = s.clock 1 := by rw [clock]; rfl
  have now : s₁.ticked.clock 0 = s.clock 2 := by
    change s₁.clock 1 = _
    rw [clock]
    rfl
  refine wp_nowMs_bind ?_
  rw [settled]
  dsimp only
  split
  · refine wp_nowMs_bind ?_
    rw [now, if_neg (by omega)]
    exact wp.bind (rewrite_stores fun _ h _ _ => h) fun _ _ carries => wp.pure carries
  · exact wp.pure kept

/-- A write under another key, or with the same references. -/
theorem applySet_keeps_carries {tags : List TagRef} (held : s.Carries key tags) {p : PreparedSet}
    (same : p.key = key → p.tags = tags) :
    wp (applySet eng p none) (fun _ s' => s'.Carries key tags) Breaks s := by
  by_cases here : p.key = key
  · rw [← same here, ← here]
    exact applySet_stores (by simp) (p.finish_tags · ·)
  · refine (applySet_spec p (by simp)).imp ?_
    rintro applied s' ⟨-, e, becomes⟩
    obtain ⟨r, stored, tagged⟩ := held
    refine ⟨r, ?_, tagged⟩
    rw [becomes.tables]
    exact (Table.get_put_of_ne (Ne.symm here)).trans stored

theorem applyTouch_carries {tags : List TagRef} (held : s.Carries key tags) (touched : Bytes)
    (ttlSecs : Nat) :
    wp (applyTouch eng touched ttlSecs) (fun _ s' => s'.Carries key tags) (fun _ _ => True) s := by
  refine wp_nowMs_bind (wp.bind (query_breaks.stops fun _ _ _ => trivial) ?_)
  rintro _ s₁ ⟨rfl, agrees⟩
  have held₁ : s₁.Carries key tags := by
    unfold Txn.Carries
    rw [agrees.tables]
    exact held
  cases found : s.ticked.tables.main.get touched with
  | none => exact wp.pure held₁
  | some record =>
    dsimp only
    split
    · refine wp_nowMs_bind (wp.bind (liftCore_spec.stops
        fun _ _ _ => trivial) ?_)
      rintro p _ ⟨encoded, rfl⟩
      obtain ⟨keyEq, -, tagsEq, -, -⟩ := PreparedSet.of_encode encoded
      have same : p.key = key → p.tags = tags := by
        intro here
        obtain ⟨r, stored, rfl⟩ := held
        rw [← here, keyEq] at stored
        rw [tagsEq, Option.some.inj (found.symm.trans stored)]
      exact wp.bind ((applySet_keeps_carries (s := s₁.ticked) held₁ same).stops
        fun _ _ _ => trivial) fun _ _ carries => wp.pure carries
    · exact wp.pure held₁

/-- The guarded write of a concatenation stores the tags of the request. -/
theorem concatenation_carries {p : PreparedSet} (stored : s.tables.main.get p.key = some r)
    (live : r.isAlive (s.clock 0) eng.epoch eng.registry.generation = true) {mode : SetMode}
    (concatenating : mode = .append ∨ mode = .prepend) :
    wp (applyConditionalSet eng p mode) (fun _ s' => s'.Carries p.key p.tags)
      (fun _ _ => True) s := by
  have found : s.found eng p.key = some ⟨r, true⟩ := by simp [Txn.found, stored, live]
  refine wp.bind ((readForUpdate_found p.key).stops fun _ _ _ => trivial) ?_
  rintro _ s₁ ⟨rfl, agrees, -⟩
  rw [found]
  have passes : conditionalVerdict mode (some r) = none := by
    rcases concatenating with rfl | rfl <;> rfl
  simp only [Option.bind_some, if_true, passes]
  refine wp.bind ((conditionalRecord_tags p mode (some r)).stops
    fun _ _ _ => trivial) ?_
  rintro p' s₂ ⟨keyEq, tagsEq, -, same⟩
  refine wp.bind ((applySet_stores (P := fun r => r.tags = p'.tags) ?_
    (p'.finish_tags · ·)).stops fun _ _ _ => trivial) ?_
  · intro pre mem
    obtain rfl := Option.mem_some_iff.mp mem
    rw [PreRead.Reads, Tables.indexedAt, keyEq, same, agrees.tables, stored]
    exact ⟨rfl, rfl⟩
  · intro _ s' carries
    rw [keyEq, tagsEq] at carries
    exact wp.pure carries

/-- A job that extends the record of `key`, or changes its number or deadline, rather
than replacing it. -/
def WriteOp.InPlace (key : Bytes) : WriteOp → Prop
  | .conditionalSet p mode => p.key = key ∧ (mode = .append ∨ mode = .prepend)
  | .touch keys _ => key ∈ keys
  | .arithmetic op => op.key = key
  | .append key' _ => key' = key
  | .expire key' _ _ => key' = key
  | _ => False

/-- The deadline an expire gives the record lies ahead, at the readings the job
makes. -/
def WriteOp.Ahead (clock : Nat → Nat) (r : Record) : WriteOp → Prop
  | .expire _ ttl _ =>
    deadlineAfter (clock 1) ttl r.header.expiresAtMs = never ∨
      clock 2 < deadlineAfter (clock 1) ttl r.header.expiresAtMs
  | _ => True

/-- The references a job in place leaves in the record `r`: a guarded write brings
its own. -/
def WriteOp.tagsOver (r : Record) : WriteOp → List TagRef
  | .conditionalSet p _ => p.tags
  | _ => r.tags

/-- What every job in place leaves under the key of a live record. -/
theorem inPlace_carries {op : WriteOp} (inPlace : op.InPlace key)
    (stored : s.tables.main.get key = some r)
    (live : r.isAlive (s.clock 0) eng.epoch eng.registry.generation = true)
    (ahead : op.Ahead s.clock r) :
    wp (apply eng op) (fun _ s' => s'.Carries key (op.tagsOver r)) (fun _ _ => True) s := by
  cases op with
  | conditionalSet p mode =>
    obtain ⟨rfl, concatenating⟩ := inPlace
    exact wp.bind (concatenation_carries stored live concatenating) fun _ _ h => wp.pure h
  | touch keys ttlSecs =>
    refine wp.bind (wp.forEach (fun _ _ s' => s'.Carries key r.tags) ⟨r, stored, rfl⟩ ?_)
      fun _ _ h => wp.pure h
    exact fun _ touched _ _ _ _ held => applyTouch_carries held touched ttlSecs
  | arithmetic op =>
    obtain rfl := inPlace
    exact wp.bind (applyArithmetic_carries stored live) fun _ _ h => wp.pure h
  | append key' suffix =>
    obtain rfl := inPlace
    exact wp.bind (applyAppend_carries stored live suffix) fun _ _ h => wp.pure h
  | expire key' ttl guard =>
    obtain rfl := inPlace
    exact wp.bind (applyExpire_carries stored live ahead) fun _ _ h => wp.pure h
  | _ => exact inPlace.elim

end InPlace

/-! ### Invalidations after a change in place -/

/-- Every later invalidation of the tag `name`, below the highest generation and
while ids are left, hides the record for good. -/
def Shard.HiddenBy (sh : Shard) (name : Bytes) (r : Record) : Prop :=
  ∀ (between after : List ShardEvent) (turn : Turn) (job : WriteJob) (generation : Nat),
    Along Shard.step ShardEvent.IdsLeft sh (between ++ .turn turn :: after) →
    job.op = .deleteByTag name →
    (job, .ok (.invalidated (some generation))) ∈ turn.batch.jobs.zip
      (writerTurn (run Shard.step sh between) turn.batch turn.evictBatch turn.attempts).1 →
    (∀ g, (run Shard.step sh between).engine.registry.generationOf name = some g → g < u64Max) →
    ∀ nowMs epoch, r.isAlive nowMs epoch
      (run Shard.step sh (between ++ .turn turn :: after)).engine.registry.generation = false

/-- A record whose references to a tag are no later than the row of the tag. -/
theorem Shard.HiddenBy.of_reference {sh : Shard} (ok : sh.TagsOk) {name : Bytes} {row : TagRow}
    (found : sh.tables.tags.get name = some row) {r : Record} {ref : TagRef} (mem : ref ∈ r.tags)
    (id : ref.tagId = row.id) (earlier : ref.generation ≤ row.generation) :
    sh.HiddenBy name r := by
  intro between after turn job generation left invalidation answered advanced nowMs epoch
  obtain ⟨g, current, past⟩ := ok.outdated found left invalidation answered advanced
  by_contra alive
  rw [Bool.not_eq_false] at alive
  have shown := Record.generation_of_isAlive alive mem
  rw [id, current] at shown
  have same : g = ref.generation := Option.some.inj shown
  omega

/-- A job in place on a live record leaves a record with the same references, hidden
by every later invalidation of a tag the record carried, exactly when the references
it stores are the record's own. They always are, except for the guarded `append` and
`prepend`, which store those of the request. -/
theorem in_place_keeps_tags_iff (sh : Shard) (ok : sh.TagsOk) (s s' : Txn) (key : Bytes)
    (r : Record) (stored : s.tables.main.get key = some r)
    (live : r.isAlive (s.clock 0) sh.engine.epoch sh.engine.registry.generation = true)
    (op : WriteOp) (inPlace : op.InPlace key) (ahead : op.Ahead s.clock r)
    (outcome : WriteOutcome) (ran : apply sh.engine op s = .ok outcome s') :
    (∃ r', s'.tables.main.get key = some r' ∧ r'.tags = r.tags ∧
      ∀ name row, sh.tables.tags.get name = some row → row.id ∈ r.tagIds →
        sh.HiddenBy name r') ↔ op.tagsOver r = r.tags := by
  obtain ⟨r', after, tags⟩ := (inPlace_carries inPlace stored live ahead).of_ok ran
  constructor
  · rintro ⟨r'', after', same, -⟩
    obtain rfl := Option.some.inj (after.symm.trans after')
    rw [← tags, same]
  · intro own
    refine ⟨r', after, tags.trans own, ?_⟩
    intro name row found carried
    obtain ⟨ref, mem, id⟩ := List.mem_map.mp carried
    -- The reference of a live record is at the generation the registry shows.
    have current : ref.generation = row.generation := by
      have shown := Record.generation_of_isAlive live mem
      rw [id, Registry.generation, ok.mirrors.byId name row found] at shown
      exact (Option.some.inj shown).symm
    have kept : ref ∈ r'.tags := by
      rw [tags, own]
      exact mem
    exact .of_reference ok found kept id current.le

/-- The key `7` is stored under the tag `1` and a byte is appended to it. -/
theorem in_place_keeps_tags_appended :
    ∃ r', ((Shard.after (firstByteConfig 1000) taggedEvents).step
      (.of (.append [7] [5]) [])).tables.main.get [7] = some r' ∧ r'.tags = [⟨0, 0⟩] ∧
      ∀ name row, (Shard.after (firstByteConfig 1000) taggedEvents).tables.tags.get name =
        some row →
        row.id ∈ [0] → (Shard.after (firstByteConfig 1000) taggedEvents).HiddenBy name r' :=
  (in_place_keeps_tags_iff (Shard.after (firstByteConfig 1000) taggedEvents)
    (run_tagsKept (.create _) (by decide)).ok
    { (Shard.after (firstByteConfig 1000) taggedEvents).begin [] with clock := fun _ => 100 } _ [7]
    ((settledSet [7] never (some ⟨0, 0⟩)).record.patchCas 1) (by decide) (by decide)
    (.append [7] [5]) rfl trivial (.length 1) rfl).mpr rfl

/-- A guarded append carries no tags: the record appended to is served after the
invalidation that hides the record as it was written. -/
theorem concatenation_drops_tags :
    (Shard.after (firstByteConfig 1000) (taggedEvents ++ [.turn invalidatingTurn])).get 200 [7] =
      none ∧
    (writerTurn (Shard.after (firstByteConfig 1000) taggedEvents)
      (Turn.of 100 [.conditionalSet (settledSet [7] never none) .append] []).batch 8
      fun _ => ⟨fun _ => 100, []⟩).1 = [.ok (.written ⟨.stored 2, none⟩)] ∧
    (writerTurn (Shard.after (firstByteConfig 1000) (taggedEvents ++
        [.of (.conditionalSet (settledSet [7] never none) .append) []]))
      invalidatingTurn.batch 8 invalidatingTurn.attempts).1 = [.ok (.invalidated (some 1))] ∧
    (Shard.after (firstByteConfig 1000) (taggedEvents ++
      [.of (.conditionalSet (settledSet [7] never none) .append) [],
        .turn invalidatingTurn])).get 200 [7] = some ⟨[], 0, 2, some never⟩ := by
  exact ⟨by decide, by decide, by decide, by decide⟩

end Vash.Store
