import Vash.Store.Generations
import Vash.Store.BackgroundChanges

/-!
# Tag jobs

A job on a tag makes a row, raises one and queues its reclaim job, or leaves the rows
alone; then it publishes what it did.

* `RowsMove` — the moves on rows and jobs; `rowBudget_tags` carries what they keep
  through a tag job, as long as ids do not run out.
* `Tables.Targeted` — a reclaim job goes for the generation of a row.
* `creationBudget_tags` — the effects a tag job publishes are about tags.
* `recordJob_frame`, `flushOp_spec` — what the other jobs do to rows, jobs and effects.
-/

namespace Vash.Store

open Library

/-! ### Moves on rows -/

/-- What a tag job does to rows and jobs, with `n` as the next id before and `n'` after,
creating `k` rows. -/
inductive RowsMove (t : Tables) (n : Nat) : Nat → Tables → Nat → Prop where
  | same : RowsMove t n 0 t n
  | create {name : Bytes} (absent : t.tags.get name = none) (start : Nat) :
      RowsMove t n 1 { t with tags := t.tags.put name ⟨n, start⟩ } (wrappingAdd32 n 1)
  | raise {name : Bytes} {row : TagRow} {generation : Nat} (present : t.tags.get name = some row)
      (lt : row.generation < generation) :
      RowsMove t n 0 { t with
        tags := t.tags.put name ⟨row.id, generation⟩
        jobs := t.jobs.put row.id (.new generation) } n

/-- The next id after a move. -/
theorem RowsMove.next {t t' : Tables} {n k n' : Nat} (move : RowsMove t n k t' n')
    (room : n + k < 2 ^ 32) : n' = n + k := by
  cases move with
  | same => rfl
  | create _ _ => exact wrappingAdd32_of_lt room
  | raise _ _ => rfl

/-- What the moves on rows keep, with the next id. -/
def KeptByRows (inv : Nat → Tables → Prop) : Prop :=
  ∀ {t t' : Tables} {n k n' : Nat}, inv n t → RowsMove t n k t' n' → n + k < 2 ^ 32 → inv n' t'

/-- What a step of a tag job does to rows and jobs. -/
theorem TagStep.rowsMove {eng : Engine} {name : Bytes} {v v' : TagView} {k : Nat}
    (step : TagStep eng name v k v') :
    ∃ l ≤ k, RowsMove v.tables v.nextId l v'.tables v'.nextId := by
  cases step with
  | same => exact ⟨0, le_rfl, .same⟩
  | created absent _ start => exact ⟨1, le_rfl, .create absent start⟩
  | announced _ => exact ⟨0, Nat.zero_le 1, .same⟩
  | raised present lt => exact ⟨0, le_rfl, .raise present lt⟩
  | confirmed _ => exact ⟨0, le_rfl, .same⟩

/-! ### Jobs on a budget of ids -/

/-- What holds once at most `k` ids past `base` have been handed out, if that is below
the end of ids. -/
def Within (inv : Nat → Tables → Prop) (base k : Nat) (s : Txn) : Prop :=
  base + k < 2 ^ 32 → inv s.counters.nextId s.tables ∧ s.counters.nextId ≤ base + k

theorem Within.mono {inv : Nat → Tables → Prop} {base k l : Nat} {s : Txn} (le : k ≤ l)
    (held : Within inv base k s) : Within inv base l s := by
  intro room
  obtain ⟨kept, below⟩ := held (by omega)
  exact ⟨kept, by omega⟩

/-- The ids handed out while an invariant of rows and jobs is kept, as a budget. -/
def rowBudget (inv : Nat → Tables → Prop) (base : Nat) : Budget StoreError Txn :=
  .uncounted (Within inv base) Breaks .mono

section RowBudget

variable {eng : Engine} {inv : Nat → Tables → Prop} {base k spent : Nat} {s s' : Txn}

/-- A tag job keeps what the moves on rows keep, within the ids it can hand out. -/
theorem rowBudget_tags (kept : KeptByRows inv) : TagBudget eng (rowBudget inv base) where
  step {name k spent s s'} held step room := by
    obtain ⟨l, within, move⟩ := step.rowsMove
    obtain ⟨before, below⟩ := held (by omega)
    have left : s.counters.nextId + l < 2 ^ 32 := by omega
    have next : s'.counters.nextId = s.counters.nextId + l := move.next left
    exact ⟨kept before move left, by omega⟩
  broke _ breaks _ := breaks
  burnt _ breaks _ := breaks

/-- What a job that is not about a tag keeps, it keeps within any ids. -/
theorem Within.of_kept {α : Type} {action : TxnM α} (held : Within inv base spent s) (k : Nat)
    (keeps : inv s.counters.nextId s.tables →
      Leaves action (fun s' => inv s'.counters.nextId s'.tables ∧
        s'.counters.nextId = s.counters.nextId) s) :
    Leaves action (Within inv base (spent + k)) s := by
  by_cases room : base + (spent + k) < 2 ^ 32
  · obtain ⟨before, below⟩ := held (by omega)
    exact (keeps before).imp fun _ after _ => ⟨after.1, by omega⟩
  · have spare : ∀ s', Within inv base (spent + k) s' := fun _ absurd => by omega
    exact (wp.trivial _ s).mono (fun _ s' _ => spare s') fun _ s' _ => .inr (spare s')

end RowBudget

/-! ### What tag jobs publish -/

/-- The effect registers a name, or registers it again. -/
def PostCommit.isCreation : PostCommit → Bool
  | .tagCreated _ _ _ => true
  | _ => false

/-- The effect is about a tag. -/
def PostCommit.isTag : PostCommit → Bool
  | .epoch _ => false
  | _ => true

/-- Effects about tags were queued behind `start`, at most `k` of them creations. -/
def Queued (start : List PostCommit) (k : Nat) (s : Txn) : Prop :=
  ∃ new, s.effects = start ++ new ∧ (new.filter PostCommit.isCreation).length ≤ k ∧
    ∀ effect ∈ new, effect.isTag = true

/-- Creations published, as a budget. -/
def creationBudget (start : List PostCommit) : Budget StoreError Txn where
  ok := Queued start
  broken _ := Breaks
  ok_mono le := fun ⟨new, effects, within, tags⟩ => ⟨new, effects, within.trans le, tags⟩
  broken_mono _ := id

section Effects

variable {eng : Engine} {start : List PostCommit} {spent : Nat} {s s' : Txn}

theorem Queued.same (queued : Queued start spent s) (effects : s'.effects = s.effects) :
    Queued start spent s' := by
  obtain ⟨new, before, within, tags⟩ := queued
  exact ⟨new, effects.trans before, within, tags⟩

theorem Queued.push (queued : Queued start spent s) (effect : PostCommit)
    (tag : effect.isTag = true) (effects : s'.effects = s.effects ++ [effect]) :
    Queued start (spent + if effect.isCreation then 1 else 0) s' := by
  obtain ⟨new, before, within, tags⟩ := queued
  refine ⟨new ++ [effect], by rw [effects, before, List.append_assoc], ?_, ?_⟩
  · cases creation : effect.isCreation <;> simpa [creation] using within
  · intro other mem
    rcases List.mem_append.mp mem with old | new
    · exact tags other old
    · rw [List.mem_singleton.mp new]
      exact tag

/-- A tag job publishes effects about tags, at most a creation a tag it can create. -/
theorem creationBudget_tags : TagBudget eng (creationBudget start) where
  step {name k spent s s'} queued step := by
    have after : s'.effects = s'.tagView.effects := rfl
    generalize s'.tagView = v at step after
    cases step with
    | same => exact queued.same after
    | created _ _ _ => exact queued.push (.tagCreated _ _ _) rfl after
    | announced _ => exact queued.push (.tagCreated _ _ _) rfl after
    | raised _ _ => exact queued.push (.tagGeneration _ _) rfl after
    | confirmed _ => exact queued.push (.tagGeneration _ _) rfl after
  broke _ breaks _ := breaks
  burnt _ breaks _ := breaks

end Effects

/-- A bump writes under a name that is there, if at all. -/
theorem Registry.mergeGeneration_byName (r : Registry) (id generation : Nat) :
    (r.mergeGeneration id generation).byName = r.byName ∨ ∃ name old new,
      r.byName.get name = some old ∧
        (r.mergeGeneration id generation).byName = r.byName.put name new := by
  unfold Registry.mergeGeneration
  cases r.byId.get id with
  | none => exact .inl rfl
  | some entry =>
    dsimp only
    cases found : r.byName.get entry.name with
    | none => exact .inl rfl
    | some named =>
      dsimp only
      split
      · exact .inr ⟨_, named, _, found, rfl⟩
      · exact .inl rfl

/-- A bump adds no name. -/
theorem Registry.size_mergeGeneration (r : Registry) (id generation : Nat) :
    (r.mergeGeneration id generation).byName.size = r.byName.size := by
  rcases r.mergeGeneration_byName id generation with same | ⟨_, _, _, found, same⟩ <;> rw [same]
  exact le_antisymm (Table.size_put_of_present found _) (Table.size_le_size_put _ _ _)

/-- Publishing effects about tags: the epoch stays, and the registry grows by the
creations at most. -/
theorem publishEffects_tags {effects : List PostCommit}
    (tags : ∀ effect ∈ effects, effect.isTag = true) (eng : Engine) :
    (effects.foldl Engine.publishEffect eng).epoch = eng.epoch ∧
      eng.registry.byName.size ≤ (effects.foldl Engine.publishEffect eng).registry.byName.size ∧
      (effects.foldl Engine.publishEffect eng).registry.byName.size ≤
        eng.registry.byName.size + (effects.filter PostCommit.isCreation).length := by
  induction effects generalizing eng with
  | nil => simp
  | cons effect rest ih =>
    obtain ⟨epoch, above, below⟩ :=
      ih (fun e mem => tags e (List.mem_cons_of_mem _ mem)) (eng.publishEffect effect)
    have tag := tags effect List.mem_cons_self
    rw [List.foldl_cons]
    cases effect with
    | tagCreated name id generation =>
      have grown := Table.size_le_size_put eng.registry.byName name ⟨id, name, generation⟩
      have most := Table.size_put_le eng.registry.byName name ⟨id, name, generation⟩
      have size : (eng.publishEffect (.tagCreated name id generation)).registry.byName.size =
        (eng.registry.byName.put name ⟨id, name, generation⟩).size := rfl
      refine ⟨epoch, by omega, ?_⟩
      rw [List.filter_cons_of_pos rfl, List.length_cons]
      omega
    | tagGeneration id generation =>
      have size : (eng.publishEffect (.tagGeneration id generation)).registry.byName.size =
        eng.registry.byName.size := eng.registry.size_mergeGeneration id generation
      refine ⟨epoch, by omega, ?_⟩
      rw [List.filter_cons_of_neg (by simp [PostCommit.isCreation])]
      omega
    | epoch e => simp [PostCommit.isTag] at tag

/-! ### The other jobs -/

/-- Rows, ids, effects, reclaim jobs and the flush epoch are as they were. -/
structure Txn.Frames (s s' : Txn) : Prop where
  rows : tagsPart.get s' = tagsPart.get s
  jobs : s'.tables.jobs = s.tables.jobs
  epoch : s'.tables.epoch = s.tables.epoch

section Others

variable {eng : Engine} {s s' : Txn}

theorem Txn.Frames.tags (frames : s.Frames s') : s'.tables.tags = s.tables.tags :=
  congrArg TagState.tags frames.rows

theorem Txn.Frames.nextId (frames : s.Frames s') : s'.counters.nextId = s.counters.nextId :=
  congrArg TagState.nextId frames.rows

theorem Txn.Frames.effects (frames : s.Frames s') : s'.effects = s.effects :=
  congrArg TagState.effects frames.rows

/-- A record job leaves everything but the records and the tokens alone. -/
theorem recordJob_frame {op : WriteOp} (record : op.isRecord = true) :
    wp (apply eng op) (fun _ s' => s.Frames s') (fun _ s' => s.Frames s') s := by
  have rows : ∀ p, Confined (tagsPart.put p) (apply eng op) := fun p =>
    .recordJob (tagsPart_spares p).1 (tagsPart_spares p).2.1 (tagsPart_spares p).2.2.1 record
  have jobs : ∀ p, Confined (jobsPart.put p) (apply eng op) := fun p =>
    .recordJob ⟨fun _ => rfl, fun _ _ => rfl⟩ ⟨fun _ => rfl, fun _ _ => rfl⟩
      ⟨fun _ => rfl, fun _ _ => rfl⟩ record
  have epoch : ∀ p, Confined (epochPart.put p) (apply eng op) := fun p =>
    .recordJob ⟨fun _ => rfl, fun _ _ => rfl⟩ ⟨fun _ => rfl, fun _ _ => rfl⟩
      ⟨fun _ => rfl, fun _ _ => rfl⟩ record
  refine (((tagsPart.keeps (fun p => (rows p).ignores) s).and
    (jobsPart.keeps (fun p => (jobs p).ignores) s)).and
    (epochPart.keeps (fun p => (epoch p).ignores) s)).mono ?_ ?_
  · exact fun _ _ h => ⟨h.1.1, h.1.2, h.2⟩
  · exact fun _ _ h => ⟨h.1.1, h.1.2, h.2⟩

/-- A tag job leaves the records and the flush epoch alone. -/
theorem tagJob_frame {op : WriteOp} (other : op.isRecord = false) (plain : op ≠ .flush) :
    wp (apply eng op)
      (fun _ s' => s'.tables.main = s.tables.main ∧ s'.tables.epoch = s.tables.epoch)
      (fun _ s' => s'.tables.main = s.tables.main ∧ s'.tables.epoch = s.tables.epoch) s := by
  have records : ∀ p, Confined (recordsPart.put p) (apply eng op) := fun p =>
    .tagJob ⟨fun _ => rfl, fun _ _ => rfl⟩ ⟨⟨fun _ => rfl, fun _ _ => rfl⟩, fun _ _ => rfl⟩
      ⟨fun _ => rfl, fun _ _ => rfl⟩ other plain
  have epoch : ∀ p, Confined (epochPart.put p) (apply eng op) := fun p =>
    .tagJob ⟨fun _ => rfl, fun _ _ => rfl⟩ ⟨⟨fun _ => rfl, fun _ _ => rfl⟩, fun _ _ => rfl⟩
      ⟨fun _ => rfl, fun _ _ => rfl⟩ other plain
  refine ((recordsPart.keeps (fun p => (records p).ignores) s).and
    (epochPart.keeps (fun p => (epoch p).ignores) s)).mono ?_ ?_
  · exact fun _ _ h => ⟨congrArg Records.main h.1, h.2⟩
  · exact fun _ _ h => ⟨congrArg Records.main h.1, h.2⟩

/-- A flush empties the records and the reclaim jobs, and publishes the epoch it stores. -/
structure Flushes (eng : Engine) (s s' : Txn) : Prop where
  main : s'.tables.main = ∅
  jobs : s'.tables.jobs = ∅
  tags : s'.tables.tags = s.tables.tags
  epoch : s'.tables.epoch = some (wrappingAdd32 eng.epoch 1)
  counters : s'.counters = s.counters
  effects : s'.effects = s.effects ++ [.epoch (wrappingAdd32 eng.epoch 1)]

theorem flushOp_spec : wp (flushOp eng) (fun _ s' => Flushes eng s s') Breaks s := by
  refine wp.bind applyFlush_spec ?_
  rintro _ s₁ ⟨rfl, becomes⟩
  refine wp.bind publish_spec fun _ s₂ published => wp.pure ?_
  rw [published]
  have tables := becomes.tables
  exact ⟨by rw [tables], by rw [tables], by rw [tables], by rw [tables], becomes.counters,
    by rw [becomes.effects]⟩

end Others

/-! ### What reclaim jobs go for -/

/-- Ids are handed out below `nextId`, each to one row, and every reclaim job goes for
the generation of the row under its id. -/
structure Tables.Targeted (nextId : Nat) (t : Tables) : Prop where
  ids : IdsBelow t.tags nextId
  targets : ∀ id job, t.jobs.get id = some job →
    ∃ name row, t.tags.get name = some row ∧ row.id = id ∧ job.targetGeneration = row.generation

section Targeted

variable {n : Nat} {t t' : Tables}

theorem targeted_keptByRows : KeptByRows fun n t => t.Targeted n := by
  intro t t' n k n' held move room
  have next := move.next room
  cases move with
  | same => exact held
  | @create name absent start =>
    refine ⟨next ▸ held.ids.create name start, ?_⟩
    intro id job queued
    obtain ⟨name', row, found, rowId, target⟩ := held.targets id job queued
    refine ⟨name', row, ?_, rowId, target⟩
    rw [Table.get_put_of_ne, found]
    rintro rfl
    rw [absent] at found
    cases found
  | @raise name row generation present lt =>
    refine ⟨held.ids.raise present generation, ?_⟩
    intro id job queued
    rw [Table.get_put] at queued
    split at queued
    · rename_i same
      obtain rfl := Option.some.inj queued
      exact ⟨name, _, Table.get_put_self _ _ _, same.symm, rfl⟩
    · rename_i other
      obtain ⟨name', row', found, rowId, target⟩ := held.targets id job queued
      refine ⟨name', row', ?_, rowId, target⟩
      rw [Table.get_put_of_ne, found]
      rintro rfl
      rw [present] at found
      obtain rfl := Option.some.inj found
      exact other rowId.symm

/-- Jobs may go, and stay for the generation they went for. -/
theorem Tables.Targeted.of_jobs (held : t.Targeted n) (tags : t'.tags = t.tags)
    (jobs : ∀ id job', t'.jobs.get id = some job' →
      ∃ job, t.jobs.get id = some job ∧ job.targetGeneration = job'.targetGeneration) :
    t'.Targeted n := by
  refine ⟨tags ▸ held.ids, fun id job' queued' => ?_⟩
  obtain ⟨job, queued, same⟩ := jobs id job' queued'
  obtain ⟨name, row, found, rowId, target⟩ := held.targets id job queued
  exact ⟨name, row, tags ▸ found, rowId, same.symm.trans target⟩

theorem Tables.Targeted.same (held : t.Targeted n) (tags : t'.tags = t.tags)
    (jobs : t'.jobs = t.jobs) : t'.Targeted n :=
  held.of_jobs tags fun _ job' queued => ⟨job', jobs ▸ queued, rfl⟩

theorem Tables.Targeted.flushed (held : t.Targeted n) (tags : t'.tags = t.tags)
    (jobs : t'.jobs = ∅) : t'.Targeted n := by
  refine held.of_jobs tags fun id job' queued => ?_
  rw [jobs] at queued
  cases queued

/-- A pass of the reclaimer resumes its job or drops it. -/
theorem Tables.Targeted.reclaimed (held : t.Targeted n) {tagId : Nat} {job : Job}
    (queued : t.jobs.get tagId = some job) (batch : List (IndexKey × Bytes)) (completed : Bool)
    (tags : t'.tags = t.tags) (jobs : t'.jobs = jobsAfter tagId job batch completed t.jobs) :
    t'.Targeted n := by
  refine held.of_jobs tags fun id job' queued' => ?_
  rw [jobs, jobsAfter] at queued'
  split at queued'
  · exact ⟨job', Table.get_of_delete queued', rfl⟩
  · rw [Table.get_put] at queued'
    split at queued'
    · rename_i same
      obtain rfl := Option.some.inj queued'
      exact ⟨job, same ▸ queued, rfl⟩
    · exact ⟨job', queued', rfl⟩

end Targeted

end Vash.Store
