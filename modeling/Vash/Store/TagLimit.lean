import Vash.Store.TagJobs

/-!
# The tag limit

`allocate_id` refuses a name once RAM holds `max_tags` of them. RAM does not show
what the transaction at hand has created, so that a batch creates all the names it
asks for, or none if RAM was full when it began.

* `Ran.registers` — the names a batch leaves in the `tags` rows.
* `tag_limit_iff` — the runs that stay within the limit are those whose batches
  ask for no more new names than are left of it.
* `create_tags_exceeds_limit` — a single job can exceed it.
-/

namespace Vash.Store

open Library

/-! ### The names a job asks for -/

/-- The names a job can register: of several, those in front of the first that does
not pass. -/
def WriteOp.newTags : WriteOp → List Bytes
  | .createTags names => (names.map Prod.fst).takeWhile tagNameOk
  | .mergeTag name _ => [name].takeWhile tagNameOk
  | _ => []

/-- The names the jobs of a batch can register. -/
def newTags (jobs : List WriteJob) : List Bytes := jobs.flatMap fun job => job.op.newTags

/-- The rows after some names were asked for: they are there, unless RAM was full. -/
def Registers (eng : Engine) (asked : List Bytes) (s s' : Txn) : Prop :=
  ∀ name, name ∈ s'.tables.tags.keys ↔
    name ∈ s.tables.tags.keys ∨ ¬ eng.TagsFull ∧ name ∈ asked

section Registers

variable {eng : Engine} {s s' s'' : Txn} {asked asked' : List Bytes}

theorem Registers.same (tags : s'.tables.tags = s.tables.tags)
    (known : ∀ name ∈ asked, eng.TagsFull ∨ name ∈ s.tables.tags.keys) :
    Registers eng asked s s' := by
  intro name
  rw [tags]
  refine ⟨.inl, ?_⟩
  rintro (here | ⟨room, mem⟩)
  · exact here
  · exact (known name mem).resolve_left room

theorem Registers.trans (first : Registers eng asked s s') (next : Registers eng asked' s' s'') :
    Registers eng (asked ++ asked') s s'' := by
  intro name
  rw [next name, first name, List.mem_append]
  tauto

/-- A row is put under a name asked for. -/
theorem Registers.put {name : Bytes} (row : TagRow)
    (tags : s'.tables.tags = s.tables.tags.put name row)
    (known : ¬ eng.TagsFull ∨ name ∈ s.tables.tags.keys) : Registers eng [name] s s' := by
  intro name'
  rw [tags, Table.mem_keys_put, List.mem_singleton]
  constructor
  · rintro (rfl | here)
    · exact known.symm.imp_right fun room => ⟨room, rfl⟩
    · exact .inl here
  · rintro (here | ⟨-, rfl⟩)
    · exact .inr here
    · exact .inl rfl

/-- Where a job on a name stops, the name is as if it had not been asked for. -/
theorem Registers.stops {name : Bytes} {e : StoreError} (stops : TagStops eng name s e s')
    (rest : List Bytes) :
    Breaks e s' ∨ Registers eng ((name :: rest).takeWhile tagNameOk) s s' := by
  rcases stops with ⟨-, same, why⟩ | ⟨breaks, -⟩
  · have tags : s'.tables.tags = s.tables.tags := congrArg (·.tables.tags) same
    right
    cases good : tagNameOk name with
    | true =>
      refine .same tags fun _ _ => .inl (by_contra fun room => why ⟨good, fun _ => room⟩)
    | false =>
      rw [List.takeWhile_cons_of_neg (by simp [good])]
      exact .same tags fun name mem => absurd mem List.not_mem_nil
  · exact .inl breaks

/-- A row is put under a name that is accepted. -/
theorem Registers.accepted {name : Bytes} (accepts : eng.Accepts s.tables.tags name) {row : TagRow}
    (tags : s'.tables.tags = s.tables.tags.put name row) : Registers eng [name] s s' := by
  refine .put row tags ?_
  cases found : s.tables.tags.get name with
  | none => exact .inl (accepts.2 found)
  | some row' => exact .inr (Table.mem_keys.mpr ⟨row', found⟩)

/-- What names asked for one after another leave, where the first that is not
registered stops the rest. -/
theorem createTags_registers (names : List (Bytes × Nat)) :
    Leaves (forEach (createTag eng) names)
      (Registers eng ((names.map Prod.fst).takeWhile tagNameOk) s) s := by
  induction names generalizing s with
  | nil => exact wp.pure (.same rfl fun name mem => absurd mem List.not_mem_nil)
  | cons name rest ih =>
    rw [List.map_cons]
    refine wp.bind ((createTag_spec name).stops fun _ _ h =>
      Registers.stops h _) ?_
    rintro _ s₁ ⟨accepts, -, tags⟩
    have first := Registers.accepted accepts tags
    rw [List.takeWhile_cons_of_pos accepts.1]
    refine wp.bind (ih.stops fun _ _ h => h.imp_right first.trans) ?_
    exact fun _ s₂ next => wp.pure (first.trans next)

/-- A job registers the names it asks for. -/
theorem apply_registers (eng : Engine) (op : WriteOp) :
    Leaves (apply eng op) (Registers eng op.newTags s) s := by
  have none : ∀ {s' : Txn}, s'.tables.tags = s.tables.tags → Registers eng [] s s' :=
    fun tags => .same tags fun name mem => absurd mem List.not_mem_nil
  have aside : op.isRecord = true → Leaves (apply eng op) (Registers eng [] s) s := fun record =>
    (Leaves.always (tagsPart.keeps (fun p => (Confined.recordJob (tagsPart_spares p).1
      (tagsPart_spares p).2.1 (tagsPart_spares p).2.2.1 record).ignores) s)).imp
      fun _ kept => none (congrArg TagState.tags kept)
  cases op with
  | createTags names =>
    exact wp.bind (createTags_registers names) fun _ _ registered => wp.pure registered
  | mergeTag name generation =>
    refine (mergeTagOp_spec name generation).mono ?_ fun _ _ h =>
      Registers.stops h []
    rintro _ s₁ ⟨accepts, -, -, tags⟩
    rw [WriteOp.newTags, List.takeWhile_cons_of_pos accepts.1]
    exact .accepted accepts tags
  | deleteByTag name =>
    refine (deleteByTagOp_spec name).mono ?_ ?_
    · rintro _ s₁ ⟨-, ⟨-, -, tags⟩ | ⟨row, generation, found, -, -, -, tags⟩⟩
      · exact none tags
      · intro name'
        rw [tags, Table.mem_keys_put_of_present found]
        simp [WriteOp.newTags]
    · rintro e s' (⟨same, -, -⟩ | ⟨breaks, -⟩)
      · exact .inr (none (congrArg (·.tables.tags) same))
      · exact .inl breaks
  | flush => exact flushOp_spec.mono (fun _ _ flushed => none flushed.tags) fun _ _ => .inl
  | sync => exact wp.pure (none rfl)
  | _ => exact aside rfl

/-- The jobs of a batch register the names they ask for. -/
theorem Ran.registers {jobs : List WriteJob} {replies : List Reply}
    (ran : Ran eng jobs s replies s') : Registers eng (newTags jobs) s s' := by
  induction ran with
  | done s => exact .same rfl fun name mem => absurd mem List.not_mem_nil
  | @job job _ s s₁ _ _ _ answers _ ih =>
    have first := answers.of_wp (P := fun _ s' => Registers eng job.op.newTags s s')
      ((apply_registers eng job.op).stops fun _ _ h => h.imp_left And.left)
    exact first.trans ih

end Registers

/-! ### The names in RAM -/

/-- RAM holds the names of the rows. -/
def Registry.Named (r : Registry) (tags : Table Bytes TagRow) : Prop :=
  ∀ name, name ∈ r.byName.keys ↔ name ∈ tags.keys

section Named

variable {r : Registry} {tags : Table Bytes TagRow} {name : Bytes}

theorem Registry.Named.insert (named : r.Named tags) (name : Bytes) (row : TagRow) :
    (r.insert name row.id row.generation).Named (tags.put name row) := by
  intro name'
  unfold Registry.insert
  rw [Table.mem_keys_put, Table.mem_keys_put, named name']

/-- A bump names nothing. -/
theorem Registry.mem_keys_mergeGeneration (id generation : Nat) (name : Bytes) :
    name ∈ (r.mergeGeneration id generation).byName.keys ↔ name ∈ r.byName.keys := by
  rcases r.mergeGeneration_byName id generation with same | ⟨_, _, _, found, same⟩ <;> rw [same]
  exact Table.mem_keys_put_of_present found

theorem Registry.Named.loadFrom (full : Table Bytes TagRow) :
    (Registry.loadFrom full.rows).Named full := by
  have loaded : ∀ (rows : List (Bytes × TagRow)) (r : Registry) (name : Bytes),
      name ∈ (rows.foldl (fun r row => r.insert row.1 row.2.id row.2.generation) r).byName.keys ↔
        name ∈ r.byName.keys ∨ name ∈ rows.map Prod.fst := by
    intro rows
    induction rows with
    | nil => simp
    | cons row rest ih =>
      intro r name
      rw [List.foldl_cons, ih, Registry.insert, Table.mem_keys_put, List.map_cons, List.mem_cons]
      tauto
  intro name
  rw [Registry.loadFrom, loaded]
  simp [Registry.empty, Table.keys]

theorem TagMove.named {eng : Engine} {k : Nat} {p p' : TagState} (move : TagMove k p p')
    (named : (p.effects.foldl Engine.publishEffect eng).registry.Named p.tags) :
    (p'.effects.foldl Engine.publishEffect eng).registry.Named p'.tags := by
  cases move with
  | @create _ name absent start =>
    rw [List.foldl_append]
    exact named.insert name ⟨p.nextId, start⟩
  | @announce _ name row present =>
    rw [List.foldl_append]
    have again := named.insert name row
    rwa [put_of_present present] at again
  | @raise _ name row generation present lt =>
    rw [List.foldl_append]
    intro name'
    exact (Registry.mem_keys_mergeGeneration _ _ name').trans
      ((named name').trans (Table.mem_keys_put_of_present present).symm)
  | @confirm _ name row present =>
    rw [List.foldl_append]
    exact fun name' => (Registry.mem_keys_mergeGeneration _ _ name').trans (named name')
  | epoch e =>
    rw [List.foldl_append]
    exact named

theorem TagMoves.named (eng : Engine) {k : Nat} {start p : TagState} (moves : TagMoves start k p)
    (named : (start.effects.foldl Engine.publishEffect eng).registry.Named start.tags) :
    (p.effects.foldl Engine.publishEffect eng).registry.Named p.tags := by
  induction moves with
  | start => exact named
  | move _ move ih => exact move.named ih

end Named

/-! ### Shards -/

/-- The names of the rows are those of `tags` with those asked for, if they were
registered at all. -/
def NamesGrown (tags : Table Bytes TagRow) (registered : Prop) (asked : List Bytes)
    (sh : Shard) : Prop :=
  ∀ name, name ∈ sh.tables.tags.keys ↔ name ∈ tags.keys ∨ registered ∧ name ∈ asked

section Shards

variable {sh : Shard}

theorem commitBatch_registers (sh : Shard) (batch : Batch) :
    NamesGrown sh.tables.tags ((commitBatch sh batch).1 = .ok () ∧ ¬ sh.engine.TagsFull)
      (newTags batch.jobs) (commitBatch sh batch).2.2 := by
  have ends := commitBatch_ends sh batch
  generalize commitBatch sh batch = result at ends
  cases ends with
  | poisoned _ _ _ _ _ => exact fun name => by simp [Shard.abort]
  | refused _ _ _ _ => exact fun name => by simp [Shard.abort, Shard.setPressure]
  | @committed s₀ s s' _ opened ran closed =>
    intro name
    have before : s₀.tables.tags = sh.tables.tags := Txn.Aside.rows (engineCall_aside opened)
    have registered := ran.registers name
    rw [before, ← Txn.Aside.rows (Batch.tidy_aside closed)] at registered
    simpa [Shard.commit] using registered

theorem writerTurn_registers (sh : Shard) (turn : Turn) :
    NamesGrown sh.tables.tags ((commitBatch sh turn.batch).1 = .ok () ∧ ¬ sh.engine.TagsFull)
      (newTags turn.batch.jobs) (sh.step (.turn turn)) := by
  refine writerTurn_invariant (NamesGrown sh.tables.tags _ _) ?_ (fun _ held => held)
    (commitBatch_registers sh turn.batch) _ _
  intro sh' faults s held aside
  have same : s.tables.tags = sh'.tables.tags := Txn.Aside.rows aside
  refine ⟨held, fun name => ?_⟩
  rw [show (sh'.commit s).tables.tags = s.tables.tags from rfl, same]
  exact held name

/-- Every event keeps the names in RAM with those of the rows. -/
theorem Shard.step_named (named : sh.engine.registry.Named sh.tables.tags) (event : ShardEvent) :
    (sh.step event).engine.registry.Named (sh.step event).tables.tags := by
  cases event with
  | turn turn =>
    refine writerTurn_invariant (fun sh => sh.engine.registry.Named sh.tables.tags)
      (fun _ _ _ held aside => Shard.aside_shown held aside) (fun _ held => held) ?_ _ _
    exact commitBatch_shown turn.batch named fun _ _ _ moves => moves.named sh.engine named
  | restart => exact .loadFrom sh.tables.tags

end Shards

/-! ### The limit -/

theorem Registry.mem_missing {r : Registry} {names : List Bytes} {name : Bytes} :
    name ∈ r.missing names ↔ name ∈ names ∧ name ∉ r.byName.keys := by
  have folded : ∀ (names found : List Bytes),
      name ∈ names.foldl (fun found name =>
        if (r.byName.get name).isNone ∧ name ∉ found then found ++ [name] else found) found ↔
      name ∈ found ∨ name ∈ names ∧ name ∉ r.byName.keys := by
    intro names
    induction names with
    | nil => simp
    | cons first rest ih =>
      intro found
      rw [List.foldl_cons, ih, List.mem_cons]
      have absent : (r.byName.get first).isNone ↔ first ∉ r.byName.keys := by
        rw [Table.mem_keys, Option.isNone_iff_eq_none, Option.eq_none_iff_forall_ne_some,
          not_exists]
      split
      · rename_i new
        rw [absent] at new
        rw [List.mem_append, List.mem_singleton]
        by_cases same : name = first
        · subst same
          simp [new]
        · simp [same]
      · rename_i old
        rw [absent] at old
        by_cases same : name = first
        · subst same
          tauto
        · simp [same]
  rw [Registry.missing, folded]
  simp

theorem Registry.nodup_missing (r : Registry) (names : List Bytes) : (r.missing names).Nodup := by
  have folded : ∀ (names found : List Bytes), found.Nodup →
      (names.foldl (fun found name =>
        if (r.byName.get name).isNone ∧ name ∉ found then found ++ [name] else found)
        found).Nodup := by
    intro names
    induction names with
    | nil => exact fun found nodup => nodup
    | cons first rest ih =>
      intro found nodup
      rw [List.foldl_cons]
      apply ih
      split
      · rename_i new
        exact List.nodup_append.mpr ⟨nodup, by simp, by
          rintro name old _ last rfl
          exact new.2 (List.mem_singleton.mp last ▸ old)⟩
      · exact nodup
  exact folded names [] List.nodup_nil

/-- Neither RAM nor the rows hold more names than the limit. -/
def Shard.WithinTagLimit (sh : Shard) : Prop :=
  sh.engine.registry.byName.size ≤ sh.engine.config.maxTags ∧
    sh.tables.tags.size ≤ sh.engine.config.maxTags

/-- A batch that commits finds RAM full, or leaves to it for the new names it asks
for. -/
def ShardEvent.TagsFit (sh : Shard) : ShardEvent → Prop
  | .turn t => (commitBatch sh t.batch).1 = .ok () →
      sh.engine.TagsFull ∨ sh.engine.registry.byName.size +
        (sh.engine.registry.missing (newTags t.batch.jobs)).length ≤ sh.engine.config.maxTags
  | .restart => True

section Limit

variable {sh : Shard}

/-- RAM and the rows are of a size. -/
theorem Registry.Named.size_eq {r : Registry} {tags : Table Bytes TagRow} (named : r.Named tags) :
    r.byName.size = tags.size :=
  le_antisymm (Table.size_le_of_keys fun name _ found => Table.mem_keys.mp
      ((named name).mp (Table.mem_keys.mpr ⟨_, found⟩)))
    (Table.size_le_of_keys fun name _ found => Table.mem_keys.mp
      ((named name).mpr (Table.mem_keys.mpr ⟨_, found⟩)))

/-- How many names a shard has after some were asked for. -/
theorem NamesGrown.size_eq {tags : Table Bytes TagRow} {registered : Prop} {asked : List Bytes}
    {r : Registry} (named : r.Named tags) (grown : NamesGrown tags registered asked sh) :
    (registered → sh.tables.tags.size = tags.size + (r.missing asked).length) ∧
      (¬ registered → sh.tables.tags.size = tags.size) := by
  constructor
  · intro done
    refine Table.size_eq_of_keys (fun name => ?_) (r.nodup_missing asked) fun name mem => ?_
    · rw [grown name, Registry.mem_missing, named name]
      tauto
    · rw [← named name]
      exact (Registry.mem_missing.mp mem).2
  · intro refused
    have keys : ∀ name, name ∈ sh.tables.tags.keys ↔ name ∈ tags.keys ∨ name ∈ [] := by
      exact fun name => (grown name).trans (by simp [refused])
    simpa using Table.size_eq_of_keys keys List.nodup_nil (by simp)

/-- A step stays within the limit exactly if it fits. -/
theorem Shard.step_within_iff (named : sh.engine.registry.Named sh.tables.tags)
    (within : sh.WithinTagLimit) (event : ShardEvent) :
    (sh.step event).WithinTagLimit ↔ ShardEvent.TagsFit sh event := by
  have after := (sh.step_named named event).size_eq
  have before := named.size_eq
  unfold WithinTagLimit at within ⊢
  rw [Shard.step_config, after, and_self]
  cases event with
  | restart => exact ⟨fun _ => trivial, fun _ => within.2⟩
  | turn turn =>
    obtain ⟨registered, refused⟩ := (writerTurn_registers sh turn).size_eq named
    simp only [ShardEvent.TagsFit]
    by_cases done : (commitBatch sh turn.batch).1 = .ok () ∧ ¬ sh.engine.TagsFull
    · rw [registered done, ← before]
      simp [done.1, done.2]
    · rw [refused done]
      exact ⟨fun _ ok => .inl (not_not.mp fun room => done ⟨ok, room⟩), fun _ => within.2⟩

end Limit

/-- From an empty database, the runs that stay within the limit are those whose
batches each ask for no more new names than are left of it, or find it used up. -/
theorem tag_limit_iff (config : Config) (events : List ShardEvent) :
    (∀ before after, events = before ++ after →
      (Shard.after config before).WithinTagLimit) ↔
    Along Shard.step ShardEvent.TagsFit (.create config) events :=
  along_iff_prefixes (I := fun sh : Shard => sh.engine.registry.Named sh.tables.tags)
    (fun _ event named => Shard.step_named named event)
    (fun _ event named within => Shard.step_within_iff named within event)
    (.loadFrom ∅) ⟨Nat.zero_le _, Nat.zero_le _⟩

/-- A shard of two names at most. -/
def twoTagConfig : Config := { firstByteConfig 1000 with maxTags := 2 }

/-- RAM is empty while the three names of one job are created. -/
theorem create_tags_exceeds_limit :
    twoTagConfig.maxTags = 2 ∧
    (commitBatch (.create twoTagConfig)
      ⟨[⟨.createTags [([1], 0), ([2], 0), ([3], 0)], fun _ => 100⟩], none, []⟩).2.1 = [.ok .done] ∧
    (Shard.after twoTagConfig
      [.of (.createTags [([1], 0), ([2], 0), ([3], 0)]) []]).engine.registry.byName.size = 3 ∧
    (Shard.after twoTagConfig
      [.of (.createTags [([1], 0), ([2], 0), ([3], 0)]) []]).tables.tags.size = 3 :=
  ⟨rfl, by decide, by decide, by decide⟩

end Vash.Store
