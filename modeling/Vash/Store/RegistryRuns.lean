import Vash.Store.Invalidation

/-!
# The registry over a history

Between transactions the registry is the `tags` rows: each name leads to the id and
generation of its row, and the two maps hold the same entries. A row keeps its id
for good and its generation only rises, so that an id belongs to one name over the
whole history, as long as ids do not run out.

* `Registry.OnlyRows` — the id map leads to nothing but the rows.
* `registry_equals_rows` — every state of every history in which ids are left.
* `reused_id_splits_the_maps` — what an id handed out twice does to the maps.
-/

namespace Vash.Store

open Library

/-! ### The id map -/

/-- Every entry the id map leads to is that of a row under that id. -/
def Registry.OnlyRows (r : Registry) (tags : Table Bytes TagRow) : Prop :=
  ∀ id entry, r.byId.get id = some entry →
    ∃ row, tags.get entry.name = some row ∧ row.id = id ∧ entry = row.entry entry.name

section OnlyRows

variable {eng : Engine} {r : Registry} {tags : Table Bytes TagRow} {name : Bytes}
  {start p p' : TagState} {k : Nat}

/-- A row put under the id its name had, if it had one. -/
theorem Registry.OnlyRows.insert (only : r.OnlyRows tags) (row : TagRow)
    (keeps : ∀ row', tags.get name = some row' → row'.id = row.id) :
    (r.insert name row.id row.generation).OnlyRows (tags.put name row) := by
  intro id entry found
  simp only [Registry.insert, Table.get_put] at found
  split at found
  · rename_i same
    obtain rfl := Option.some.inj found
    exact ⟨row, Table.get_put_self _ _ _, same.symm, rfl⟩
  · rename_i other
    obtain ⟨row', found', id', shown⟩ := only id entry found
    have apart : entry.name ≠ name := by
      intro same
      rw [same] at found'
      exact other (id'.symm.trans (keeps row' found'))
    exact ⟨row', by rwa [Table.get_put_of_ne apart], id', shown⟩

theorem TagMove.onlyRows (move : TagMove k p p') (ok : p.Ok eng)
    (only : (p.effects.foldl Engine.publishEffect eng).registry.OnlyRows p.tags) :
    (p'.effects.foldl Engine.publishEffect eng).registry.OnlyRows p'.tags := by
  cases move with
  | @create _ name absent start =>
    rw [List.foldl_append]
    refine only.insert ⟨p.nextId, start⟩ fun row' found => ?_
    rw [absent] at found
    cases found
  | @announce _ name row present =>
    rw [List.foldl_append]
    have again := only.insert row fun row' found =>
      congrArg TagRow.id (Option.some.inj (found.symm.trans present))
    rwa [put_of_present present] at again
  | @raise _ name row generation present lt =>
    rw [List.foldl_append]
    have kept : ∀ row', p.tags.get name = some row' → row'.id = row.id := fun row' found =>
      congrArg TagRow.id (Option.some.inj (found.symm.trans present))
    have raised := only.insert ⟨row.id, generation⟩ kept
    rwa [← ok.mirrors.mergeGeneration_eq present lt.le] at raised
  | @confirm _ name row present =>
    rw [List.foldl_append]
    have again := only.insert row fun row' found =>
      congrArg TagRow.id (Option.some.inj (found.symm.trans present))
    rwa [put_of_present present, ← ok.mirrors.mergeGeneration_eq present le_rfl] at again
  | epoch e =>
    rw [List.foldl_append]
    exact only

theorem TagMoves.onlyRows (moves : TagMoves start k p) (ok : start.Ok eng)
    (room : start.nextId + k < 2 ^ 32)
    (only : (start.effects.foldl Engine.publishEffect eng).registry.OnlyRows start.tags) :
    (p.effects.foldl Engine.publishEffect eng).registry.OnlyRows p.tags := by
  induction moves with
  | start => exact only
  | move before move ih =>
    exact move.onlyRows (before.ok ok (by omega)).1 (ih (by omega))

theorem Registry.OnlyRows.loadFrom (full : Table Bytes TagRow) :
    (Registry.loadFrom full.rows).OnlyRows full := by
  have loaded : ∀ (rows : List (Bytes × TagRow)), (∀ row ∈ rows, full.get row.1 = some row.2) →
      ∀ r : Registry, r.OnlyRows full →
        (rows.foldl (fun r row => r.insert row.1 row.2.id row.2.generation) r).OnlyRows full := by
    intro rows
    induction rows with
    | nil => exact fun _ r only => only
    | cons row rest ih =>
      intro present r only
      have here := present row List.mem_cons_self
      refine ih (fun row mem => present row (List.mem_cons_of_mem _ mem)) _ ?_
      have put := only.insert row.2 fun row' found =>
        congrArg TagRow.id (Option.some.inj (found.symm.trans here))
      rwa [put_of_present here] at put
  refine loaded full.rows (fun row mem => Table.get_eq_some_iff.mpr mem) _ ?_
  intro id entry found
  cases found

end OnlyRows

/-! ### Histories -/

/-- RAM and rows are one registry: a name leads to what its row holds, and the two
maps hold the same entries, each id leading to the entry that carries it. -/
structure Shard.RegistryOk (sh : Shard) : Prop where
  byName : ∀ name, sh.engine.registry.byName.get name =
    (sh.tables.tags.get name).map fun row => ⟨row.id, name, row.generation⟩
  byId : ∀ id entry, sh.engine.registry.byId.get id = some entry →
    entry.id = id ∧ sh.engine.registry.byName.get entry.name = some entry
  shared : ∀ name entry, sh.engine.registry.byName.get name = some entry →
    entry.name = name ∧ sh.engine.registry.byId.get entry.id = some entry

section Histories

variable {sh : Shard}

theorem Shard.RegistryOk.of_mirrors (mirrors : sh.engine.registry.Mirrors sh.tables.tags)
    (only : sh.engine.registry.OnlyRows sh.tables.tags) : sh.RegistryOk := by
  refine ⟨mirrors.byName, ?_, ?_⟩
  · intro id entry found
    obtain ⟨row, present, rowId, shown⟩ := only id entry found
    refine ⟨by rw [shown, ← rowId]; rfl, ?_⟩
    rw [mirrors.byName, present, Option.map_some]
    exact congrArg some shown.symm
  · intro name entry found
    rw [mirrors.byName] at found
    obtain ⟨row, present, rfl⟩ := Option.map_eq_some_iff.mp found
    exact ⟨rfl, mirrors.byId name row present⟩

/-- The id map over a batch. -/
theorem commitBatch_onlyRows (ok : sh.TagsOk)
    (only : sh.engine.registry.OnlyRows sh.tables.tags) (batch : Batch)
    (room : sh.counters.nextId + tagCount batch.jobs < 2 ^ 32) :
    (commitBatch sh batch).2.2.engine.registry.OnlyRows (commitBatch sh batch).2.2.tables.tags := by
  refine commitBatch_shown batch only fun k p within moves => ?_
  have next : sh.tags.nextId = sh.counters.nextId := rfl
  exact moves.onlyRows ok.ok (by omega) only

/-- Rows and registry are together, and the id map leads to the rows alone. -/
structure Shard.Registered (sh : Shard) : Prop where
  ok : sh.TagsOk
  only : sh.engine.registry.OnlyRows sh.tables.tags

theorem Shard.Registered.registryOk (held : sh.Registered) : sh.RegistryOk :=
  .of_mirrors held.ok.mirrors held.only

theorem Shard.Registered.step (held : sh.Registered) (event : ShardEvent)
    (left : ShardEvent.IdsLeft sh event) : (sh.step event).Registered := by
  refine ⟨(held.ok.step left).ok, ?_⟩
  cases event with
  | turn turn =>
    exact writerTurn_invariant (fun sh => sh.engine.registry.OnlyRows sh.tables.tags)
      (fun _ _ _ only aside => Shard.aside_shown only aside) (fun _ only => only)
      (commitBatch_onlyRows held.ok held.only turn.batch left) _ _
  | restart => exact .loadFrom sh.tables.tags

theorem Shard.Registered.create (config : Config) : (Shard.create config).Registered :=
  ⟨.create config, .loadFrom ∅⟩

end Histories

/-- In every state of a history in which ids are left, at the end of each batch and
after each restart, RAM equals the rows; and over the history no id changes its
name and no generation falls. -/
theorem registry_equals_rows (config : Config) (before after : List ShardEvent)
    (left : Along Shard.step ShardEvent.IdsLeft (.create config) (before ++ after)) :
    (Shard.after config before).RegistryOk ∧
    (∀ turn rest, after = .turn turn :: rest →
      (commitBatch (Shard.after config before) turn.batch).2.2.RegistryOk) ∧
    (∀ name name' row row', (Shard.after config before).tables.tags.get name = some row →
      (Shard.after config (before ++ after)).tables.tags.get name' = some row' →
      row.id = row'.id → name = name') ∧
    ∀ name row, (Shard.after config before).tables.tags.get name = some row →
      ∃ row', (Shard.after config (before ++ after)).tables.tags.get name = some row' ∧
        row.generation ≤ row'.generation := by
  obtain ⟨leftBefore, leftAfter⟩ := along_append.mp left
  have held : (Shard.after config before).Registered :=
    run_invariant (fun _ event held left => held.step event left) (.create config) leftBefore
  have later := run_tagsKept held.ok leftAfter
  rw [Shard.after, ← run_append] at later
  refine ⟨held.registryOk, ?_, ?_, ?_⟩
  · rintro turn rest rfl
    have room := leftAfter.1
    exact .of_mirrors (commitBatch_tagsKept held.ok turn.batch room).ok.mirrors
      (commitBatch_onlyRows held.ok held.only turn.batch room)
  · intro name name' row row' found found' same
    obtain ⟨kept, foundKept, keptId, -⟩ := later.grows name row found
    exact later.ok.ok.ids.distinct name name' kept row' foundKept found' (by omega)
  · intro name row found
    obtain ⟨kept, foundKept, -, le⟩ := later.grows name row found
    exact ⟨kept, foundKept, le⟩

theorem registry_equals_rows_merged :
    Along Shard.step ShardEvent.IdsLeft (.create (firstByteConfig 1000))
      (taggedEvents ++ [.of (.mergeTag [1] 5) [], .restart]) ∧
    (Shard.after (firstByteConfig 1000) taggedEvents).RegistryOk :=
  ⟨by decide, (registry_equals_rows (firstByteConfig 1000) taggedEvents
    [.of (.mergeTag [1] 5) [], .restart] (by decide)).1⟩

/-! ### Ids that run out -/

/-- Once aborted batches have driven the counter around, the tag `2` gets the id of
the tag `1`: the id belongs to two names, and the id map has lost an entry of the
name map. -/
theorem reused_id_splits_the_maps :
    (Shard.after (firstByteConfig 1000) (taggedEvents ++ .turn invalidatingTurn ::
      (List.replicate (2 ^ 32 - 1) burnId ++ [.of (.createTags [([2], 0)]) []]))).tables.tags.rows =
        [([1], ⟨0, 1⟩), ([2], ⟨0, 0⟩)] ∧
    ¬ (Shard.after (firstByteConfig 1000) (taggedEvents ++ .turn invalidatingTurn ::
      (List.replicate (2 ^ 32 - 1) burnId ++ [.of (.createTags [([2], 0)]) []]))).RegistryOk := by
  rw [wrapped_staleShard]
  refine ⟨by decide, fun ok => ?_⟩
  have shared := ok.shared [1] ⟨0, [1], 1⟩ (by decide)
  revert shared
  decide

end Vash.Store
