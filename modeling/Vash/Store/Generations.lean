import Vash.Store.TagSteps
import Vash.Store.ShardRuns

/-!
# Tag rows

A tag's generation lives in the `tags` rows, in the registry in RAM and in every
record written under the tag. The rows only grow (`Grows`), and the registry
shows them (`Registry.Mirrors`), because each change of a row queues the effect
that repeats it in RAM.

* `TagMoves` — what the jobs of a batch do to the rows and the effects.
* `Ran.tagsMoved`, `Ran.invalidates` — every batch makes such moves, at
  most an id a tag it can create, and an invalidation answered with a generation
  raised the row.
-/

namespace Vash.Store

open Library

/-! ### Rows and registry -/

/-- Every row is still there under its id, with a generation no lower. -/
def Grows (tags tags' : Table Bytes TagRow) : Prop :=
  ∀ name row, tags.get name = some row →
    ∃ row', tags'.get name = some row' ∧ row'.id = row.id ∧ row.generation ≤ row'.generation

theorem Grows.refl (tags : Table Bytes TagRow) : Grows tags tags :=
  fun _ row found => ⟨row, found, rfl, le_rfl⟩

theorem Grows.trans {a b c : Table Bytes TagRow} (ab : Grows a b) (bc : Grows b c) : Grows a c := by
  intro name row found
  obtain ⟨row', found', id', generation'⟩ := ab name row found
  obtain ⟨row'', found'', id'', generation''⟩ := bc name row' found'
  exact ⟨row'', found'', id''.trans id', generation'.trans generation''⟩

theorem Grows.put {tags : Table Bytes TagRow} {name : Bytes} {new : TagRow}
    (above : ∀ row, tags.get name = some row → new.id = row.id ∧ row.generation ≤ new.generation) :
    Grows tags (tags.put name new) := by
  intro name' row found
  rw [Table.get_put]
  split
  · rename_i same
    subst same
    exact ⟨new, rfl, above row found⟩
  · exact ⟨row, found, rfl, le_rfl⟩

/-- The ids of the rows are distinct and have all been handed out. -/
structure IdsBelow (tags : Table Bytes TagRow) (nextId : Nat) : Prop where
  distinct : ∀ name name' row row', tags.get name = some row → tags.get name' = some row' →
    row.id = row'.id → name = name'
  below : ∀ name row, tags.get name = some row → row.id < nextId

theorem IdsBelow.mono {tags : Table Bytes TagRow} {nextId nextId' : Nat} (h : IdsBelow tags nextId)
    (le : nextId ≤ nextId') : IdsBelow tags nextId' :=
  ⟨h.distinct, fun name row found => (h.below name row found).trans_le le⟩

/-- The entry of a row. -/
def TagRow.entry (row : TagRow) (name : Bytes) : TagEntry := ⟨row.id, name, row.generation⟩

/-- Both maps of the registry show the rows. -/
structure Registry.Mirrors (r : Registry) (tags : Table Bytes TagRow) : Prop where
  byName : ∀ name, r.byName.get name = (tags.get name).map fun row => row.entry name
  byId : ∀ name row, tags.get name = some row → r.byId.get row.id = some (row.entry name)

section Mirrors

variable {r : Registry} {tags : Table Bytes TagRow} {name : Bytes} {row : TagRow} {nextId : Nat}

/-- Publishing a row just put, under an id of its own. -/
theorem Registry.Mirrors.insert (mirrors : r.Mirrors tags) (row : TagRow)
    (own : ∀ name' row', tags.get name' = some row' → row'.id = row.id → name' = name) :
    (r.insert name row.id row.generation).Mirrors (tags.put name row) := by
  constructor
  · intro name'
    simp only [Registry.insert, Table.get_put]
    split
    · rename_i same
      simp [same, TagRow.entry]
    · exact mirrors.byName name'
  · intro name' row' found
    rw [Table.get_put] at found
    simp only [Registry.insert, Table.get_put]
    split at found
    · rename_i same
      obtain rfl := Option.some.inj found
      simp [same, TagRow.entry]
    · rename_i other
      split
      · rename_i same
        exact absurd (own name' row' found same) other
      · exact mirrors.byId name' row' found

/-- A bump through the id of a row is seen through its name. -/
theorem Registry.Mirrors.mergeGeneration_eq (mirrors : r.Mirrors tags)
    (present : tags.get name = some row) {generation : Nat} (le : row.generation ≤ generation) :
    r.mergeGeneration row.id generation = r.insert name row.id generation := by
  have named : r.byName.get name = some (row.entry name) := by simp [mirrors.byName, present]
  simp [Registry.mergeGeneration, mirrors.byId name row present, TagRow.entry, named,
    Registry.insert, Nat.max_eq_right le]

/-- Raising the generation of a row through its id. -/
theorem Registry.Mirrors.raise (mirrors : r.Mirrors tags) (ids : IdsBelow tags nextId)
    (present : tags.get name = some row) {generation : Nat} (le : row.generation ≤ generation) :
    (r.mergeGeneration row.id generation).Mirrors (tags.put name ⟨row.id, generation⟩) := by
  rw [mirrors.mergeGeneration_eq present le]
  apply mirrors.insert ⟨row.id, generation⟩
  intro name' row' found same
  exact ids.distinct name' name row' row found present same

theorem IdsBelow.create (ids : IdsBelow tags nextId) (name : Bytes) (start : Nat) :
    IdsBelow (tags.put name ⟨nextId, start⟩) (nextId + 1) := by
  constructor
  · intro name' name'' row' row'' found' found'' same
    rw [Table.get_put] at found' found''
    split at found' <;> split at found''
    · simp_all
    · obtain rfl := Option.some.inj found'
      have := ids.below name'' row'' found''
      simp at same
      omega
    · obtain rfl := Option.some.inj found''
      have := ids.below name' row' found'
      simp at same
      omega
    · exact ids.distinct name' name'' row' row'' found' found'' same
  · intro name' row' found
    rw [Table.get_put] at found
    split at found
    · obtain rfl := Option.some.inj found
      simp
    · have := ids.below name' row' found
      omega

theorem IdsBelow.raise (ids : IdsBelow tags nextId) (present : tags.get name = some row)
    (generation : Nat) : IdsBelow (tags.put name ⟨row.id, generation⟩) nextId := by
  -- Every row of the new table has the id a row of its name had before.
  have old : ∀ name' row', (tags.put name ⟨row.id, generation⟩).get name' = some row' →
      ∃ before, tags.get name' = some before ∧ before.id = row'.id := by
    intro name' row' found
    rw [Table.get_put] at found
    split at found
    · rename_i same
      obtain rfl := Option.some.inj found
      exact ⟨row, same ▸ present, rfl⟩
    · exact ⟨row', found, rfl⟩
  constructor
  · intro name' name'' row' row'' found' found'' same
    obtain ⟨before', found', id'⟩ := old name' row' found'
    obtain ⟨before'', found'', id''⟩ := old name'' row'' found''
    exact ids.distinct name' name'' before' before'' found' found'' (by omega)
  · intro name' row' found
    obtain ⟨before, found, id⟩ := old name' row' found
    have := ids.below name' before found
    omega

end Mirrors

/-! ### What tag jobs do -/

/-- One change of the rows with the effect that repeats it in RAM, creating `k`
rows. -/
inductive TagMove : Nat → TagState → TagState → Prop where
  /-- A row is created under the next id. -/
  | create {p : TagState} {name : Bytes} (absent : p.tags.get name = none) (start : Nat) :
      TagMove 1 p ⟨p.tags.put name ⟨p.nextId, start⟩, wrappingAdd32 p.nextId 1,
        p.effects ++ [.tagCreated name p.nextId start]⟩
  /-- A row that was there is published again. -/
  | announce {p : TagState} {name : Bytes} {row : TagRow} (present : p.tags.get name = some row) :
      TagMove 0 p { p with effects := p.effects ++ [.tagCreated name row.id row.generation] }
  /-- A generation is raised. -/
  | raise {p : TagState} {name : Bytes} {row : TagRow} {generation : Nat}
      (present : p.tags.get name = some row) (lt : row.generation < generation) :
      TagMove 0 p { p with
        tags := p.tags.put name ⟨row.id, generation⟩
        effects := p.effects ++ [.tagGeneration row.id generation] }
  /-- A saturated generation is published again. -/
  | confirm {p : TagState} {name : Bytes} {row : TagRow} (present : p.tags.get name = some row) :
      TagMove 0 p { p with effects := p.effects ++ [.tagGeneration row.id row.generation] }
  /-- A flush. -/
  | epoch {p : TagState} (epoch : Nat) :
      TagMove 0 p { p with effects := p.effects ++ [.epoch epoch] }

/-- A sequence of changes from `start` that creates `k` rows. -/
inductive TagMoves (start : TagState) : Nat → TagState → Prop where
  | start : TagMoves start 0 start
  | move {k l : Nat} {p p' : TagState} (moves : TagMoves start k p) (move : TagMove l p p') :
      TagMoves start (k + l) p'

/-- The registry once the effects so far are published shows the rows so far. -/
structure TagState.Ok (eng : Engine) (p : TagState) : Prop where
  mirrors : (p.effects.foldl Engine.publishEffect eng).registry.Mirrors p.tags
  ids : IdsBelow p.tags p.nextId

section TagMoves

variable {eng : Engine} {start p p' : TagState} {k : Nat}

theorem TagMove.grows (move : TagMove k p p') : Grows p.tags p'.tags := by
  cases move with
  | create absent start =>
    apply Grows.put
    intro row found
    simp [absent] at found
  | announce _ => exact .refl _
  | raise present lt =>
    apply Grows.put
    intro row found
    obtain rfl := Option.some.inj (present.symm.trans found)
    exact ⟨rfl, lt.le⟩
  | confirm _ => exact .refl _
  | epoch _ => exact .refl _

theorem TagMoves.grows (moves : TagMoves start k p) : Grows start.tags p.tags := by
  induction moves with
  | start => exact .refl _
  | move _ move ih => exact ih.trans move.grows

/-- A change keeps rows and registry together, while ids do not run out. -/
theorem TagMove.ok (move : TagMove k p p') (ok : p.Ok eng) (room : p.nextId + k < 2 ^ 32) :
    p'.Ok eng ∧ p'.nextId = p.nextId + k := by
  obtain ⟨mirrors, ids⟩ := ok
  cases move with
  | @create _ name absent start =>
    have next : wrappingAdd32 p.nextId 1 = p.nextId + 1 := wrappingAdd32_of_lt room
    refine ⟨⟨?_, next ▸ ids.create name start⟩, next⟩
    rw [List.foldl_append]
    apply mirrors.insert ⟨p.nextId, start⟩
    intro name' row' found same
    exact absurd (ids.below name' row' found) (by simp [same])
  | @announce _ name row present =>
    refine ⟨⟨?_, ids⟩, rfl⟩
    rw [List.foldl_append]
    have again := mirrors.insert row fun name' row' found same =>
      ids.distinct name' name row' row found present same
    rwa [put_of_present present] at again
  | @raise _ name row generation present lt =>
    refine ⟨⟨?_, ids.raise present generation⟩, rfl⟩
    rw [List.foldl_append]
    exact mirrors.raise ids present lt.le
  | @confirm _ name row present =>
    refine ⟨⟨?_, ids⟩, rfl⟩
    rw [List.foldl_append]
    have again := mirrors.raise ids present le_rfl
    rwa [put_of_present present] at again
  | epoch e =>
    refine ⟨⟨?_, ids⟩, rfl⟩
    rw [List.foldl_append]
    exact mirrors

theorem TagMoves.ok (moves : TagMoves start k p) (ok : start.Ok eng)
    (room : start.nextId + k < 2 ^ 32) : p.Ok eng ∧ p.nextId = start.nextId + k := by
  induction moves with
  | start => exact ⟨ok, rfl⟩
  | move _ move ih =>
    rename_i k l p p' _
    obtain ⟨ok', next⟩ := ih (by omega)
    obtain ⟨ok'', next'⟩ := move.ok ok' (by omega)
    exact ⟨ok'', by omega⟩

end TagMoves

/-- The rows, the next id and the effects. -/
def TagView.state (v : TagView) : TagState := ⟨v.tables.tags, v.nextId, v.effects⟩

theorem TagStep.moves {eng : Engine} {name : Bytes} {v v' : TagView} {k : Nat}
    (step : TagStep eng name v k v') :
    v'.state = v.state ∨ ∃ l ≤ k, TagMove l v.state v'.state := by
  cases step with
  | same => exact .inl rfl
  | created absent _ start => exact .inr ⟨1, le_rfl, .create absent start⟩
  | announced present => exact .inr ⟨0, Nat.zero_le 1, .announce present⟩
  | raised present lt => exact .inr ⟨0, le_rfl, .raise present lt⟩
  | confirmed present => exact .inr ⟨0, le_rfl, .confirm present⟩

/-! ### Jobs on a budget of ids -/

/-- The rows and effects reached from `start` by changes that created at most
`budget` rows. -/
def TagsMoved (start : TagState) (budget : Nat) (s : Txn) : Prop :=
  ∃ k, k ≤ budget ∧ TagMoves start k (tagsPart.get s)

/-- The transaction broke after some of `budget` ids were handed out. -/
def TagsBroken (start : TagState) (budget : Nat) (e : StoreError) (s : Txn) : Prop :=
  Breaks e s ∧ ∃ k p, k ≤ budget ∧ TagMoves start k p ∧
    (s.counters.nextId = p.nextId ∨ k < budget ∧ s.counters.nextId = wrappingAdd32 p.nextId 1)

/-- Ids as a budget. -/
def idBudget (start : TagState) : Budget StoreError Txn where
  ok := TagsMoved start
  broken := TagsBroken start
  ok_mono le := fun ⟨k, within, moves⟩ => ⟨k, within.trans le, moves⟩
  broken_mono le := fun ⟨breaks, k, p, within, moves, left⟩ =>
    ⟨breaks, k, p, within.trans le, moves, left.imp_right fun half => ⟨by omega, half.2⟩⟩

/-- Overwriting the rows and effects spares the rest. -/
theorem tagsPart_spares (p : TagState) :
    enginePart.Spared (tagsPart.put p) ∧ recordsPart.Spared (tagsPart.put p) ∧
      casPart.Spared (tagsPart.put p) ∧ jobsPart.Spared (tagsPart.put p) :=
  ⟨⟨fun _ => rfl, fun _ _ => rfl⟩, ⟨fun _ => rfl, fun _ _ => rfl⟩,
    ⟨fun _ => rfl, fun _ _ => rfl⟩, ⟨fun _ => rfl, fun _ _ => rfl⟩⟩

theorem tagsPart_aside : Part.Aside tagsPart :=
  ⟨fun p => (tagsPart_spares p).1, fun p => (tagsPart_spares p).2.1,
    fun p => (tagsPart_spares p).2.2.2⟩

theorem Txn.Aside.rows {s s' : Txn} (aside : s.Aside s') : s'.tables.tags = s.tables.tags :=
  congrArg TagState.tags (aside tagsPart tagsPart_aside)

theorem idBudget_about (start : TagState) : (idBudget start).About tagsPart := by
  rintro spent s s' kept ⟨k, within, moves⟩
  exact ⟨k, within, kept ▸ moves⟩

section Jobs

variable {eng : Engine} {start : TagState}

/-- One more change. -/
theorem TagsMoved.step {spent l : Nat} {s s' : Txn} (held : TagsMoved start spent s)
    (move : TagMove l (tagsPart.get s) (tagsPart.get s')) : TagsMoved start (spent + l) s' := by
  obtain ⟨k, within, moves⟩ := held
  exact ⟨k + l, by omega, moves.move move⟩

theorem idBudget_tags (start : TagState) : TagBudget eng (idBudget start) where
  step held step := by
    rcases step.moves with same | ⟨l, within, move⟩
    · exact (idBudget start).ok_mono (Nat.le_add_right _ _) (idBudget_about start _ _ _ same held)
    · exact (idBudget start).ok_mono (Nat.add_le_add_left within _) (held.step move)
  broke := fun ⟨k, within, moves⟩ breaks next => ⟨breaks, k, _, within, moves, .inl next⟩
  burnt := fun ⟨k, _, moves⟩ breaks burnt =>
    ⟨breaks, k, _, by omega, moves, .inr ⟨by omega, burnt⟩⟩

/-- A flush publishes an epoch. -/
theorem flushOp_spends : (idBudget start).Spends 0 (flushOp eng) := by
  intro spent s held
  unfold flushOp
  have confined : ∀ p, Confined (tagsPart.put p) (applyFlush eng) := fun p =>
    .applyFlush (tagsPart_spares p).1 (tagsPart_spares p).2.2.2 (tagsPart_spares p).2.1
      ⟨fun _ => rfl, fun _ _ => rfl⟩
  have flushed := tagsPart.keeps (fun p => (confined p).ignores) s
  refine wp.bind (flushed.stops ?_) ?_
  · exact fun _ s' kept => .inr (idBudget_about start spent s s' kept held)
  · intro epoch s₁ kept
    refine wp.modify_bind (wp.pure (held.step (l := 0) ?_))
    rw [← kept]
    exact .epoch epoch

/-- A job hands out at most an id a tag it can create. -/
theorem apply_spends (eng : Engine) (start : TagState) (op : WriteOp) :
    (idBudget start).Spends op.tagCount (apply eng op) := by
  cases record : op.isRecord with
  | true =>
    -- Record jobs do not touch the rows.
    refine .of_keeps (idBudget_about start) (fun p => ?_) _
    exact (Confined.recordJob (tagsPart_spares p).1 (tagsPart_spares p).2.1
      (tagsPart_spares p).2.2.1 record).ignores
  | false =>
    by_cases flushes : op = .flush
    · rw [flushes]
      exact flushOp_spends
    · exact (idBudget_tags start).apply record flushes

/-- How many tags the jobs of a batch can create. -/
def tagCount (jobs : List WriteJob) : Nat := (jobs.map fun job => job.op.tagCount).sum

theorem Ran.tagsMoved {jobs : List WriteJob} {replies : List Reply} {spent : Nat} {s s' : Txn}
    (ran : Ran eng jobs s replies s') (held : TagsMoved start spent s) :
    TagsMoved start (spent + tagCount jobs) s' := by
  induction ran generalizing spent with
  | done s => exact held
  | @job job rest s s₁ _ _ _ answers _ ih =>
    have first := answers.of_wp (P := fun _ => TagsMoved start (spent + job.op.tagCount))
      ((apply_spends eng start job.op spent { s with clock := job.clock } held).stops
        fun _ _ h => h.imp_left fun broken => broken.1.1)
    have later := ih first
    rwa [Nat.add_assoc] at later

/-- The rows only grow over a batch. -/
theorem Ran.grows {jobs : List WriteJob} {replies : List Reply} {s s' : Txn}
    (ran : Ran eng jobs s replies s') : Grows s.tables.tags s'.tables.tags := by
  have unmoved : TagsMoved (tagsPart.get s) 0 s := ⟨0, le_rfl, .start⟩
  obtain ⟨k, -, moves⟩ := ran.tagsMoved unmoved
  exact moves.grows

/-- The row of an invalidated tag is past the generation it had before, unless
generations have run out. -/
def Invalidates (name : Bytes) (tags tags' : Table Bytes TagRow) : Prop :=
  ∃ row', tags'.get name = some row' ∧
    ∀ row, tags.get name = some row → row.generation < row'.generation ∨ u64Max ≤ row'.generation

/-- Rows that grow before and after an invalidation keep it one. -/
theorem Invalidates.of_grows {name : Bytes} {a b c d : Table Bytes TagRow} (ab : Grows a b)
    (bc : Invalidates name b c) (cd : Grows c d) : Invalidates name a d := by
  obtain ⟨row, found, past⟩ := bc
  obtain ⟨row', found', -, higher⟩ := cd name row found
  refine ⟨row', found', fun old foundOld => ?_⟩
  obtain ⟨old', foundOld', -, le⟩ := ab name old foundOld
  have := past old' foundOld'
  omega

/-- A batch in which an invalidation was answered with a generation. -/
theorem Ran.invalidates {jobs : List WriteJob} {replies : List Reply} {s s' : Txn}
    (ran : Ran eng jobs s replies s') {job : WriteJob} {name : Bytes} {generation : Nat}
    (invalidation : job.op = .deleteByTag name)
    (answered : (job, .ok (.invalidated (some generation))) ∈ jobs.zip replies) :
    Invalidates name s.tables.tags s'.tables.tags := by
  induction ran with
  | done s => simp at answered
  | @job first rest s s₁ s₂ reply replies answers later ih =>
    rcases List.mem_cons.mp answered with here | behind
    · -- The invalidation is this job; the jobs after it only raise the row.
      simp only [Prod.mk.injEq] at here
      obtain ⟨rfl, rfl⟩ := here
      have applied : apply eng job.op { s with clock := job.clock } = .ok _ s₁ := answers
      rw [invalidation] at applied
      obtain ⟨-, ⟨-, absurd, -⟩ | ⟨row, generation, found, ⟨⟩, -, past, rows⟩⟩ :=
        (deleteByTagOp_spec name).of_ok applied
      · cases absurd
      apply Invalidates.of_grows (.refl _) _ later.grows
      refine ⟨⟨row.id, generation⟩, by rw [rows, Table.get_put_self], fun row' found' => ?_⟩
      obtain rfl := Option.some.inj (found.symm.trans found')
      exact past
    · exact (ih behind).of_grows (Ran.job answers (.done s₁)).grows (.refl _)

end Jobs

/-! ### What RAM shows of the rows -/

/-- The rows, the next id and no effect to publish. -/
def Shard.tags (sh : Shard) : TagState := ⟨sh.tables.tags, sh.counters.nextId, []⟩

section Shown

variable {sh : Shard} {shown : Registry → Table Bytes TagRow → Prop}

/-- What holds of RAM and rows once the effects of a transaction are published. -/
theorem Shard.commit_shown (level : Pressure) {s : Txn}
    (held : shown (s.effects.foldl Engine.publishEffect sh.engine).registry s.tables.tags) :
    shown ((sh.setPressure level).commit s).engine.registry
      ((sh.setPressure level).commit s).tables.tags := by
  have pressed := congrArg Engine.registry (publishEffects_pressure s.effects sh.engine level)
  change shown (s.effects.foldl Engine.publishEffect { sh.engine with pressure := level }).registry
    s.tables.tags
  rw [pressed]
  exact held

/-- What the moves of tag jobs keep of RAM and rows, a batch keeps. -/
theorem commitBatch_shown (batch : Batch) (held : shown sh.engine.registry sh.tables.tags)
    (moved : ∀ k p, k ≤ tagCount batch.jobs → TagMoves sh.tags k p →
      shown (p.effects.foldl Engine.publishEffect sh.engine).registry p.tags) :
    shown (commitBatch sh batch).2.2.engine.registry (commitBatch sh batch).2.2.tables.tags := by
  have ends := commitBatch_ends sh batch
  generalize commitBatch sh batch = result at ends
  cases ends with
  | poisoned _ _ _ _ _ => exact held
  | refused _ _ _ _ => exact held
  | @committed s₀ s s' _ opened ran closed =>
    have before : tagsPart.get s₀ = sh.tags := engineCall_aside opened tagsPart tagsPart_aside
    have after : tagsPart.get s' = tagsPart.get s := Batch.tidy_aside closed tagsPart tagsPart_aside
    have unmoved : TagsMoved sh.tags 0 s₀ := ⟨0, le_rfl, before ▸ .start⟩
    obtain ⟨k, within, moves⟩ := ran.tagsMoved unmoved
    rw [Nat.zero_add] at within
    rw [← after] at moves
    exact Shard.commit_shown _ (moved k _ within moves)

/-- Sweeping and evicting show nothing new. -/
theorem Shard.aside_shown (held : shown sh.engine.registry sh.tables.tags)
    {faults : List (Option Fault)} {s : Txn} (kept : (sh.begin faults).Aside s) :
    shown (sh.abort s).engine.registry (sh.abort s).tables.tags ∧
      shown (sh.commit s).engine.registry (sh.commit s).tables.tags := by
  have same : tagsPart.get s = sh.tags := kept tagsPart tagsPart_aside
  have rows : s.tables.tags = sh.tables.tags := congrArg TagState.tags same
  have effects : s.effects = [] := congrArg TagState.effects same
  refine ⟨held, ?_⟩
  unfold Shard.commit
  rw [effects, rows]
  exact held

end Shown

end Vash.Store
