import Vash.Store.Generations
import Vash.Store.Read

/-!
# No stale hit after an invalidation

A record is alive only while its references are at the generation the registry
shows. Between transactions the registry shows the rows, whatever was aborted,
swept or reopened, as long as ids do not run out.

* `invalidated_records_stay_dead` — once an invalidation has been published, no
  record with a reference resolved before it is alive, ever again.
* `reused_id_revives_a_record` — ids burnt by aborted batches wrap around, and an
  id handed out twice revives what was invalidated under it.
-/

namespace Vash.Store

open Library

/-! ### Reopening -/

section Reopening

variable {full : Table Bytes TagRow} {nextId : Nat}

/-- Loading some rows of a table: the registry shows them and what it showed. -/
theorem Registry.Mirrors.load (ids : IdsBelow full nextId) (rows : List (Bytes × TagRow))
    (present : ∀ row ∈ rows, full.get row.1 = some row.2) {r : Registry}
    {tags : Table Bytes TagRow} (mirrors : r.Mirrors tags)
    (within : ∀ name row, tags.get name = some row → full.get name = some row) :
    ∃ tags', (rows.foldl (fun r row => r.insert row.1 row.2.id row.2.generation) r).Mirrors tags' ∧
      (∀ name row, tags'.get name = some row → full.get name = some row) ∧
      (∀ name row, tags.get name = some row → tags'.get name = some row) ∧
      ∀ row ∈ rows, tags'.get row.1 = some row.2 := by
  induction rows generalizing r tags with
  | nil => exact ⟨tags, mirrors, within, fun _ _ h => h, by simp⟩
  | cons row rest ih =>
    have here := present row List.mem_cons_self
    have own : ∀ name' row', tags.get name' = some row' → row'.id = row.2.id → name' = row.1 :=
      fun name' row' found same =>
        ids.distinct name' row.1 row' row.2 (within name' row' found) here same
    have within' : ∀ name row', (tags.put row.1 row.2).get name = some row' →
        full.get name = some row' := by
      intro name row' found
      rw [Table.get_put] at found
      split at found
      · rename_i same
        rw [same, here, ← found]
      · exact within name row' found
    obtain ⟨tags', mirrors', sub, kept, loaded⟩ := ih
      (fun row mem => present row (List.mem_cons_of_mem _ mem)) (mirrors.insert row.2 own) within'
    refine ⟨tags', mirrors', sub, ?_, ?_⟩
    · intro name row' found
      apply kept
      rw [Table.get_put]
      split
      · rename_i same
        rw [← here, ← same, within name row' found]
      · exact found
    · intro row' mem
      rcases List.mem_cons.mp mem with rfl | later
      · exact kept _ _ (Table.get_put_self _ _ _)
      · exact loaded row' later

/-- A registry rebuilt from the rows shows them. -/
theorem Registry.Mirrors.loadFrom (ids : IdsBelow full nextId) :
    (Registry.loadFrom full.rows).Mirrors full := by
  have none : Registry.empty.Mirrors ∅ :=
    ⟨fun _ => rfl, fun name row found => by simp at found⟩
  obtain ⟨tags', mirrors, sub, -, loaded⟩ := none.load ids full.rows
    (fun row mem => Table.get_eq_some_iff.mpr mem) (fun name row found => by simp at found)
  have same : tags' = full := by
    apply Table.ext_get
    intro name
    cases found : full.get name with
    | some row => exact loaded (name, row) (Table.get_eq_some_iff.mp found)
    | none =>
      cases found' : tags'.get name with
      | none => rfl
      | some row => exact absurd ((sub name row found').symm.trans found) (by simp)
  exact same ▸ mirrors

/-- The id resumed from is past every row and not past the one before. -/
theorem IdsBelow.resume (ids : IdsBelow full nextId) (room : nextId < 2 ^ 32) :
    IdsBelow full (Registry.resumeId full.rows) ∧ Registry.resumeId full.rows ≤ nextId := by
  have highest : ∀ (rows : List (Bytes × TagRow)) (start : Nat),
      start ≤ rows.foldl (fun highest row => max highest row.2.id) start ∧
        (∀ row ∈ rows, row.2.id ≤ rows.foldl (fun highest row => max highest row.2.id) start) ∧
        (start < nextId → (∀ row ∈ rows, row.2.id < nextId) →
          rows.foldl (fun highest row => max highest row.2.id) start < nextId) := by
    intro rows
    induction rows with
    | nil => exact fun start => ⟨le_rfl, by simp, fun h _ => h⟩
    | cons row rest ih =>
      intro start
      obtain ⟨above, all, bound⟩ := ih (max start row.2.id)
      simp only [List.foldl_cons, List.forall_mem_cons]
      refine ⟨by omega, ⟨by omega, all⟩, fun below rows => bound ?_ rows.2⟩
      have := rows.1
      omega
  have below : ∀ row ∈ full.rows, row.2.id < nextId :=
    fun row mem => ids.below row.1 row.2 (Table.get_eq_some_iff.mpr mem)
  unfold Registry.resumeId
  split
  · rename_i empty
    refine ⟨⟨ids.distinct, fun name row found => ?_⟩, by omega⟩
    rw [Table.get_eq_some_iff, empty] at found
    simp at found
  · rename_i nonempty
    obtain ⟨row, mem⟩ := List.exists_mem_of_ne_nil _ nonempty
    have positive := below row mem
    obtain ⟨-, all, bound⟩ := highest full.rows 0
    have last := bound (by omega) below
    rw [wrappingAdd32_of_lt (by omega)]
    refine ⟨⟨ids.distinct, fun name row found => ?_⟩, by omega⟩
    have := all (name, row) (Table.get_eq_some_iff.mp found)
    simp only at this
    omega

end Reopening

/-! ### Shards -/

/-- Between transactions the registry shows the rows, and ids are left. -/
structure Shard.TagsOk (sh : Shard) : Prop where
  ok : sh.tags.Ok sh.engine
  room : sh.counters.nextId < 2 ^ 32

theorem Shard.TagsOk.mirrors {sh : Shard} (ok : sh.TagsOk) :
    sh.engine.registry.Mirrors sh.tables.tags := ok.ok.mirrors

/-- What an event keeps: rows and registry stay together, and rows only grow. -/
structure TagsKept (sh sh' : Shard) : Prop where
  ok : sh'.TagsOk
  grows : Grows sh.tables.tags sh'.tables.tags

section Shards

variable {sh : Shard}

theorem TagsKept.trans {sh' sh'' : Shard} (first : TagsKept sh sh') (next : TagsKept sh' sh'') :
    TagsKept sh sh'' :=
  ⟨next.ok, first.grows.trans next.grows⟩

/-- An aborted transaction leaves the ids it handed out behind. -/
theorem Shard.TagsOk.abort (ok : sh.TagsOk) (level : Pressure) {s : Txn}
    (later : sh.counters.nextId ≤ s.counters.nextId) (room : s.counters.nextId < 2 ^ 32) :
    TagsKept sh ((sh.setPressure level).abort s) :=
  ⟨⟨⟨ok.ok.mirrors, ok.ok.ids.mono later⟩, room⟩, .refl _⟩

/-- Publishing what a transaction queued makes the registry show its rows. -/
theorem Shard.TagsOk.commit (level : Pressure) {s : Txn}
    (ok : (tagsPart.get s).Ok sh.engine) (grows : Grows sh.tables.tags s.tables.tags)
    (room : s.counters.nextId < 2 ^ 32) : TagsKept sh ((sh.setPressure level).commit s) := by
  have published : ((sh.setPressure level).commit s).engine.registry =
      (s.effects.foldl Engine.publishEffect sh.engine).registry := by
    have := congrArg Engine.registry (publishEffects_pressure s.effects sh.engine level)
    exact this
  refine ⟨⟨⟨?_, ok.ids⟩, room⟩, grows⟩
  change ((sh.setPressure level).commit s).engine.registry.Mirrors s.tables.tags
  rw [published]
  exact ok.mirrors

/-- A transaction that only swept and evicted. -/
theorem Shard.TagsOk.aside (ok : sh.TagsOk) {faults : List (Option Fault)} {s : Txn}
    (kept : (sh.begin faults).Aside s) : TagsKept sh (sh.abort s) ∧ TagsKept sh (sh.commit s) := by
  have same : tagsPart.get s = sh.tags := kept tagsPart tagsPart_aside
  have next : s.counters.nextId = sh.counters.nextId := congrArg TagState.nextId same
  have rows : s.tables.tags = sh.tables.tags := congrArg TagState.tags same
  constructor
  · exact ok.abort sh.engine.pressure next.ge (next ▸ ok.room)
  · apply Shard.TagsOk.commit sh.engine.pressure
    · rw [same]
      exact ok.ok
    · rw [rows]
      exact .refl _
    · rw [next]
      exact ok.room

theorem commitBatch_tagsKept (ok : sh.TagsOk) (batch : Batch)
    (room : sh.counters.nextId + tagCount batch.jobs < 2 ^ 32) :
    TagsKept sh (commitBatch sh batch).2.2 := by
  have started : ∀ {s₀ : Txn}, (sh.begin batch.faults).Aside s₀ → TagsMoved sh.tags 0 s₀ := by
    intro s₀ opened
    have same : tagsPart.get s₀ = sh.tags := opened tagsPart tagsPart_aside
    exact ⟨0, le_rfl, same ▸ .start⟩
  have next : sh.tags.nextId = sh.counters.nextId := rfl
  have moved : ∀ {s : Txn}, TagsMoved sh.tags (tagCount batch.jobs) s →
      (tagsPart.get s).Ok sh.engine ∧ Grows sh.tables.tags s.tables.tags ∧
        sh.counters.nextId ≤ s.counters.nextId ∧ s.counters.nextId < 2 ^ 32 := by
    rintro s ⟨k, within, moves⟩
    obtain ⟨ok', count⟩ := moves.ok ok.ok (by omega)
    change s.counters.nextId = _ at count
    exact ⟨ok', moves.grows, by omega, by omega⟩
  have ends := commitBatch_ends sh batch
  generalize commitBatch sh batch = result at ends
  cases ends with
  | @poisoned before after job _ s _ _ _ opened split ran failed _ =>
    have cost : 0 + tagCount before + job.op.tagCount ≤ tagCount batch.jobs := by
      simp [split, tagCount]
    have spends := apply_spends sh.engine sh.tags job.op _ { s with clock := job.clock }
      (ran.tagsMoved (started opened))
    rcases Budget.stopped_mono cost (spends.of_error failed) with
      ⟨-, k, p, within, moves, left⟩ | stopped
    · obtain ⟨-, count⟩ := moves.ok ok.ok (by omega)
      rcases left with same | ⟨half, burnt⟩
      · exact ok.abort sh.engine.pressure (by omega) (by omega)
      · rw [wrappingAdd32_of_lt (by omega)] at burnt
        exact ok.abort sh.engine.pressure (by omega) (by omega)
    · obtain ⟨-, -, later, below⟩ := moved stopped
      exact ok.abort sh.engine.pressure later below
  | @refused jobs s₀ s s' _ level _ _ opened front ran kept =>
    have cost : 0 + tagCount jobs ≤ tagCount batch.jobs := by
      obtain ⟨rest, whole⟩ := front
      simp [← whole, tagCount]
    have same : s'.counters.nextId = s.counters.nextId :=
      congrArg TagState.nextId (kept tagsPart tagsPart_aside)
    obtain ⟨-, -, later, below⟩ :=
      moved ((idBudget sh.tags).ok_mono cost (ran.tagsMoved (started opened)))
    exact ok.abort level (same ▸ later) (same ▸ below)
  | @committed s₀ s s' _ opened ran closed =>
    have jobs := ran.tagsMoved (started (engineCall_aside opened))
    rw [Nat.zero_add] at jobs
    have same : tagsPart.get s' = tagsPart.get s := Batch.tidy_aside closed tagsPart tagsPart_aside
    have rows : s'.tables.tags = s.tables.tags := congrArg TagState.tags same
    have counted : s'.counters.nextId = s.counters.nextId := congrArg TagState.nextId same
    obtain ⟨ok', grows, -, below⟩ := moved jobs
    exact Shard.TagsOk.commit _ (same ▸ ok') (rows ▸ grows) (counted ▸ below)

/-- The ids left suffice for what an event can create. -/
def ShardEvent.IdsLeft (sh : Shard) : ShardEvent → Prop
  | .turn t => sh.counters.nextId + tagCount t.batch.jobs < 2 ^ 32
  | .restart => True

instance decidableIdsLeft (sh : Shard) : ∀ event, Decidable (ShardEvent.IdsLeft sh event)
  | .turn _ => inferInstanceAs (Decidable (_ < _))
  | .restart => .isTrue trivial

/-- Every event keeps rows and registry together. -/
theorem Shard.TagsOk.step (ok : sh.TagsOk) {event : ShardEvent}
    (left : ShardEvent.IdsLeft sh event) : TagsKept sh (sh.step event) := by
  cases event with
  | turn turn =>
    apply writerTurn_invariant (TagsKept sh) _ _ (commitBatch_tagsKept ok turn.batch left)
    · intro sh' faults s held aside
      obtain ⟨aborted, committed⟩ := held.ok.aside aside
      exact ⟨held.trans aborted, held.trans committed⟩
    · exact fun sh' held => ⟨⟨⟨held.ok.ok.mirrors, held.ok.ok.ids⟩, held.ok.room⟩, held.grows⟩
  | restart =>
    obtain ⟨ids, le⟩ := ok.ok.ids.resume ok.room
    exact ⟨⟨⟨.loadFrom ok.ok.ids, ids⟩, le.trans_lt ok.room⟩, .refl _⟩

theorem Shard.TagsOk.create (config : Config) : (Shard.create config).TagsOk := by
  refine ⟨⟨⟨fun _ => rfl, ?_⟩, ⟨?_, ?_⟩⟩, (by decide : 0 < 2 ^ 32)⟩
  · intro name row found
    cases found
  · intro name name' row row' found
    cases found
  · intro name row found
    cases found

/-- Over a run, rows and registry stay together and rows only grow. -/
theorem run_tagsKept (ok : sh.TagsOk) {events : List ShardEvent}
    (left : Along Shard.step ShardEvent.IdsLeft sh events) :
    TagsKept sh (run Shard.step sh events) :=
  run_invariant (fun _ _ held left => held.trans (held.ok.step left)) ⟨ok, .refl _⟩ left

/-- A turn that answered an invalidation with a generation. -/
theorem turn_invalidates (turn : Turn) {job : WriteJob} {name : Bytes} {generation : Nat}
    (invalidation : job.op = .deleteByTag name)
    (answered : (job, .ok (.invalidated (some generation))) ∈ turn.batch.jobs.zip
      (writerTurn sh turn.batch turn.evictBatch turn.attempts).1) :
    Invalidates name sh.tables.tags (sh.step (.turn turn)).tables.tags := by
  rw [writerTurn_replies] at answered
  have ends := commitBatch_ends sh turn.batch
  simp only [Shard.step, writerTurn]
  generalize commitBatch sh turn.batch = result at ends answered
  have refuses : ∀ {told : StoreError}, (job, .ok (.invalidated (some generation))) ∉
      turn.batch.jobs.zip (.replicate turn.batch.jobs.length (.error told : Reply)) := by
    intro told mem
    simpa using List.eq_of_mem_replicate (List.of_mem_zip mem).2
  cases ends with
  | poisoned _ _ _ _ _ => exact absurd answered refuses
  | refused _ _ _ _ => exact absurd answered refuses
  | @committed s₀ s s' _ opened ran closed =>
    have before : s₀.tables.tags = sh.tables.tags := Txn.Aside.rows (engineCall_aside opened)
    change Invalidates name sh.tables.tags s'.tables.tags
    rw [Txn.Aside.rows (Batch.tidy_aside closed), ← before]
    exact ran.invalidates invalidation answered

end Shards

/-! ### References -/

/-- References resolved for names are the entries of the names. -/
theorem Registry.resolve_entries {r : Registry} {names : List Bytes} {refs : List TagRef}
    (resolved : r.resolve names = .ok refs) :
    List.Forall₂ (fun name ref => ∃ entry, r.byName.get name = some entry ∧
      ref = ⟨entry.id, entry.generation⟩) names refs := by
  induction names generalizing refs with
  | nil =>
    obtain rfl : [] = refs := Except.ok.inj resolved
    exact .nil
  | cons first rest ih =>
    unfold Registry.resolve at resolved
    cases found : r.byName.get first with
    | none => simp [found] at resolved
    | some entry =>
      rw [found] at resolved
      cases tail : r.resolve rest with
      | error missing =>
        rw [tail] at resolved
        cases resolved
      | ok refs' =>
        rw [tail] at resolved
        obtain rfl : ⟨entry.id, entry.generation⟩ :: refs' = refs := Except.ok.inj resolved
        exact .cons ⟨entry, found, rfl⟩ (ih tail)

theorem Registry.resolve_entry {r : Registry} {names : List Bytes} {refs : List TagRef}
    (resolved : r.resolve names = .ok refs) {name : Bytes} {ref : TagRef}
    (mem : (name, ref) ∈ names.zip refs) :
    ∃ entry, r.byName.get name = some entry ∧ ref = ⟨entry.id, entry.generation⟩ :=
  (List.forall₂_iff_zip.mp (resolve_entries resolved)).2 mem

/-- Once an invalidation of a tag below the highest generation has been published,
the registry shows the id of the tag past every generation it had before. -/
theorem Shard.TagsOk.outdated {sh : Shard} (ok : sh.TagsOk) {name : Bytes} {row : TagRow}
    (found : sh.tables.tags.get name = some row) {between after : List ShardEvent} {turn : Turn}
    (left : Along Shard.step ShardEvent.IdsLeft sh (between ++ .turn turn :: after))
    {job : WriteJob} (invalidation : job.op = .deleteByTag name) {generation : Nat}
    (answered : (job, .ok (.invalidated (some generation))) ∈ turn.batch.jobs.zip
      (writerTurn (run Shard.step sh between) turn.batch turn.evictBatch turn.attempts).1)
    (advanced : ∀ g, (run Shard.step sh between).engine.registry.generationOf name = some g →
      g < u64Max) :
    ∃ g, (run Shard.step sh (between ++ .turn turn :: after)).engine.registry.generation row.id =
      some g ∧ row.generation < g := by
  obtain ⟨leftBetween, leftTurn, leftAfter⟩ := along_append.mp left
  have atTurn := run_tagsKept ok leftBetween
  have turned := atTurn.ok.step leftTurn
  have atEnd := run_tagsKept turned.ok leftAfter
  rw [← run_cons, ← run_append] at atEnd
  -- The row of the tag at the turn, after it and at the end.
  obtain ⟨row₂, found₂, id₂, generation₂⟩ := atTurn.grows name row found
  obtain ⟨row₃, found₃, past⟩ := turn_invalidates turn invalidation answered
  obtain ⟨row', found', id₃, -⟩ := turned.grows name row₂ found₂
  obtain rfl := Option.some.inj (found₃.symm.trans found')
  obtain ⟨row₄, found₄, id₄, generation₄⟩ := atEnd.grows name row₃ found₃
  have below : row₂.generation < u64Max := by
    apply advanced
    simp [Registry.generationOf, atTurn.ok.mirrors.byName name, found₂, TagRow.entry]
  refine ⟨row₄.generation, ?_, ?_⟩
  · rw [show row.id = row₄.id by omega, Registry.generation, atEnd.ok.mirrors.byId name row₄ found₄]
    rfl
  · have := past row₂ found₂
    omega

/-- Over every run of a shard in which ids do not run out: once an invalidation of a
tag below the highest generation has been committed and published, no later read
returns a record with a reference to the tag resolved before. A read opens its
transaction after some `later` events, and may look the registry up after more. -/
theorem invalidated_records_stay_dead (config : Config)
    (earlier between later during : List ShardEvent) (turn : Turn)
    (left : Along Shard.step ShardEvent.IdsLeft (.create config)
      (earlier ++ between ++ .turn turn :: (later ++ during)))
    (names : List Bytes) (refs : List TagRef)
    (resolved : (Shard.after config earlier).engine.registry.resolve names = .ok refs)
    (name : Bytes) (ref : TagRef) (reference : (name, ref) ∈ names.zip refs)
    (job : WriteJob) (invalidation : job.op = .deleteByTag name) (generation : Nat)
    (answered : (job, .ok (.invalidated (some generation))) ∈ turn.batch.jobs.zip
      (writerTurn (Shard.after config (earlier ++ between)) turn.batch turn.evictBatch
        turn.attempts).1)
    (advanced : ∀ g, (Shard.after config (earlier ++ between)).engine.registry.generationOf name =
      some g → g < u64Max)
    (moment : Snapshot) (key : Bytes) (record : Record)
    (hit : readAlive (Shard.after config (earlier ++ between ++ .turn turn :: later)).tables.main
      (Shard.after config
        (earlier ++ between ++ .turn turn :: (later ++ during))).engine.registry
      moment key (fun record => record) = some record) :
    ref ∉ record.tags := by
  rw [List.append_assoc] at left
  obtain ⟨leftEarlier, leftAfter⟩ := along_append.mp left
  have atResolve := run_tagsKept (.create config) leftEarlier
  obtain ⟨entry, named, rfl⟩ := Registry.resolve_entry resolved reference
  rw [atResolve.ok.mirrors.byName] at named
  obtain ⟨row, found, rfl⟩ := Option.map_eq_some_iff.mp named
  simp only [Shard.after, run_append] at answered advanced
  obtain ⟨g, current, past⟩ :=
    atResolve.ok.outdated found leftAfter invalidation answered advanced
  rw [← run_append, ← List.append_assoc] at current
  intro carried
  obtain ⟨_, -, alive, rfl⟩ := readAlive_eq_some_iff.mp hit
  have same : g = row.generation :=
    Option.some.inj (current.symm.trans (Record.generation_of_isAlive alive carried))
  omega

/-- The tag `1` is created and the key `7` is written under it. -/
def taggedEvents : List ShardEvent :=
  [.of (.createTags [([1], 0)]) [], .of (.set [settledSet [7] never (some ⟨0, 0⟩)]) []]

/-- The tag `1` is invalidated. -/
def invalidatingTurn : Turn := .of 100 [.deleteByTag [1]] []

/-- A write prepared before the invalidation, and one prepared after it. -/
def lateWrites : List ShardEvent :=
  [.of (.set [settledSet [7] never (some ⟨0, 0⟩)]) [],
    .of (.set [settledSet [8] never (some ⟨0, 1⟩)]) []]

/-- A reference resolved before the invalidation is dead, one resolved after it is
served. -/
theorem invalidated_records_stay_dead_late :
    (Shard.after (firstByteConfig 1000)
      (taggedEvents ++ .turn invalidatingTurn :: lateWrites)).get 200 [7] = none ∧
    ((settledSet [8] never (some ⟨0, 1⟩)).record.patchCas 3).tags = [⟨0, 1⟩] ∧
    (⟨0, 0⟩ : TagRef) ∉ ((settledSet [8] never (some ⟨0, 1⟩)).record.patchCas 3).tags := by
  refine ⟨by decide, by decide, ?_⟩
  exact invalidated_records_stay_dead (firstByteConfig 1000) taggedEvents [] lateWrites []
    invalidatingTurn (by decide) [[1]] [⟨0, 0⟩] (by decide) [1] ⟨0, 0⟩ (by decide)
    ⟨.deleteByTag [1], fun _ => 100⟩ rfl 1 (List.Mem.head _) (by decide) ⟨200, 0⟩ [8] _
    (by decide)

/-! ### Ids that run out -/

/-- A batch that creates the tag `2` and is aborted after it has taken an id. -/
def burnId : ShardEvent := .of (.createTags [([2], 0)]) [none, none, some (.engine "I/O error")]

/-- The shard once the tag `1` has been invalidated, with the next id at `id`. -/
def staleShard (id : Nat) : Shard :=
  let sh := Shard.after (firstByteConfig 1000) (taggedEvents ++ [.turn invalidatingTurn])
  { sh with counters := { sh.counters with nextId := id } }

theorem burnId_staleShard (id : Nat) :
    (staleShard id).step burnId = staleShard (wrappingAdd32 id 1) := rfl

theorem burnIds_staleShard (n : Nat) {id : Nat} (start : id < 2 ^ 32) :
    run Shard.step (staleShard id) (List.replicate n burnId) = staleShard ((id + n) % 2 ^ 32) := by
  induction n generalizing id with
  | zero =>
    rw [Nat.add_zero, Nat.mod_eq_of_lt start]
    rfl
  | succ n ih =>
    have next : wrappingAdd32 id 1 < 2 ^ 32 := Nat.mod_lt _ (by decide)
    rw [List.replicate_succ, run_cons, burnId_staleShard, ih next]
    congr 1
    unfold wrappingAdd32
    omega

/-- The run that burns all the other ids and creates a tag ends where a creation
with the counter at zero would. -/
theorem wrapped_staleShard :
    Shard.after (firstByteConfig 1000) (taggedEvents ++ .turn invalidatingTurn ::
      (List.replicate (2 ^ 32 - 1) burnId ++ [.of (.createTags [([2], 0)]) []])) =
    (staleShard 0).step (.of (.createTags [([2], 0)]) []) := by
  have invalidated : run Shard.step (.create (firstByteConfig 1000))
      (taggedEvents ++ [.turn invalidatingTurn]) = staleShard 1 := rfl
  rw [List.append_cons, Shard.after, run_append, invalidated, run_append,
    burnIds_staleShard _ (by decide)]
  rfl

/-- Aborted batches burn ids until the counter wraps around; the tag created next
gets the id of the tag `1`, and the record invalidated with it is served again. -/
theorem reused_id_revives_a_record :
    (Shard.after (firstByteConfig 1000) taggedEvents).engine.registry.resolve [[1]] =
      .ok [⟨0, 0⟩] ∧
    (writerTurn (Shard.after (firstByteConfig 1000) taggedEvents) invalidatingTurn.batch
      invalidatingTurn.evictBatch invalidatingTurn.attempts).1 = [.ok (.invalidated (some 1))] ∧
    readAlive
      (Shard.after (firstByteConfig 1000) (taggedEvents ++ .turn invalidatingTurn ::
        (List.replicate (2 ^ 32 - 1) burnId ++ [.of (.createTags [([2], 0)]) []]))).tables.main
      (Shard.after (firstByteConfig 1000) (taggedEvents ++ .turn invalidatingTurn ::
        (List.replicate (2 ^ 32 - 1) burnId ++ [.of (.createTags [([2], 0)]) []]))).engine.registry
      ⟨200, 0⟩ [7] Record.tags = some [⟨0, 0⟩] := by
  rw [wrapped_staleShard]
  exact ⟨by decide, by decide, by decide⟩

end Vash.Store
