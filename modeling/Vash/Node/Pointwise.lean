import Vash.Node.Batches

/-!
# Batch reads

A batch read looks once at each shard that owns one of its keys. `get_many` and
`deadlines` go shard by shard and put the results back in request order;
`get_many_with` goes in request order and keeps the shards it has looked at open.
All three deliver at a position what a read of the key there delivers from the
same views of the shards.

* `batches_are_pointwise` — the two put together.
-/

namespace Vash.Node

open Library Store

variable {n : Nat} {α : Type}

/-! ### Runs -/

section Group

variable [NeZero n] {sort : ShardSort n} {hash : Bytes → Nat} {keyOf : α → Bytes} {items : List α}

theorem group_ascending : ((group sort hash keyOf items).map Prod.fst).Pairwise (· < ·) := by
  rw [group, runs_eq (sort.sorted _)]
  refine List.Pairwise.sublist (List.filter_sublist.map Prod.fst) ?_
  rw [List.map_map]
  exact List.pairwise_map.mpr (List.pairwise_lt_finRange n)

/-- A shard has a run exactly when it owns an item. -/
theorem mem_group_fst {shard : Fin n} :
    shard ∈ (group sort hash keyOf items).map Prod.fst ↔
      ∃ item ∈ items, forKey hash (keyOf item) = shard := by
  constructor
  · intro mem
    obtain ⟨⟨_, run⟩, grouped, rfl⟩ := List.mem_map.mp mem
    obtain ⟨entry, inside⟩ := List.exists_mem_of_ne_nil _ (mem_group.mp grouped).2
    obtain ⟨-, found, owner⟩ := (mem_run grouped).mp inside
    exact ⟨entry.item, List.mem_of_getElem? found, owner.symm⟩
  · rintro ⟨item, mem, rfl⟩
    obtain ⟨position, found⟩ := List.mem_iff_getElem?.mp mem
    obtain ⟨run, grouped, -⟩ : ∃ run, (forKey hash (keyOf item), run) ∈
        group sort hash keyOf items ∧ _ := exists_run found
    exact List.mem_map.mpr ⟨_, grouped, rfl⟩

/-- A run holds its shard's items, each with its position. -/
theorem group_run_perm {shard : Fin n} {run : List (Placed n α)}
    (grouped : (shard, run) ∈ group sort hash keyOf items) :
    run.Perm ((place hash keyOf items).filter fun entry => entry.shard = shard) := by
  obtain ⟨rfl, -⟩ := mem_group.mp grouped
  exact (sort.perm _).filter _

/-- One item is one run. -/
theorem group_singleton (item : α) :
    group sort hash keyOf [item] =
      [(forKey hash (keyOf item), [⟨forKey hash (keyOf item), 0, item⟩])] := by
  have owner : ∀ {shard : Fin n} {run : List (Placed n α)},
      (shard, run) ∈ group sort hash keyOf [item] → forKey hash (keyOf item) = shard := by
    intro shard run mem
    simpa using mem_group_fst.mp (List.mem_map_of_mem mem)
  have once : ((group sort hash keyOf [item]).map Prod.fst).Nodup := group_nodup
  obtain ⟨run, grouped, -⟩ : ∃ run, (forKey hash (keyOf item), run) ∈
      group sort hash keyOf [item] ∧ _ := exists_run (show [item][0]? = some item from rfl)
  have alone : run = [⟨forKey hash (keyOf item), 0, item⟩] := by
    have perm := group_run_perm grouped
    simpa [place] using perm
  rcases listed : group sort hash keyOf [item] with _ | ⟨⟨first, run'⟩, rest⟩
  · rw [listed] at grouped
    cases grouped
  · rw [listed] at grouped once owner
    have none : rest = [] := by
      refine List.eq_nil_iff_forall_not_mem.mpr ?_
      rintro ⟨other, run''⟩ mem
      have same := (owner List.mem_cons_self).symm.trans (owner (List.mem_cons_of_mem _ mem))
      exact (List.nodup_cons.mp once).1 (List.mem_map.mpr ⟨_, mem, same.symm⟩)
    subst none
    rw [← List.mem_singleton.mp grouped, alone]

end Group

/-! ### Results put back -/

/-- A position whose answers agree is given their value. -/
theorem scatter_of_agreed {results : List α} {answers : List (Nat × α)} {position : Nat} {a : α}
    (inside : position < results.length) (given : position ∈ answers.map Prod.fst)
    (agreed : ∀ b, (position, b) ∈ answers → b = a) :
    (scatter results answers)[position]? = some a := by
  induction answers using List.reverseRecOn with
  | nil => cases given
  | append_singleton answers answer ih =>
    have last : scatter results (answers ++ [answer]) =
        (scatter results answers).set answer.1 answer.2 := by
      simp [scatter, List.foldl_append]
    rw [last]
    by_cases here : answer.1 = position
    · rw [here, List.getElem?_set_self (by rwa [length_scatter]),
        agreed answer.2 (by simp [← here])]
    · rw [List.getElem?_set_ne here]
      refine ih ?_ fun b mem => agreed b (List.mem_append_left _ mem)
      simpa [Ne.symm here] using given

/-! ### The loops -/

section Loops

variable {view : Fin n → Shard × Nat} {read : Shard → Nat → Bytes → α}

theorem readRuns_read (runs : List (Fin n × List (Placed n Bytes))) (results : List α) :
    (VashStore.readRuns (fun sh now keys => keys.map (read sh now)) runs results).read view =
      some (scatter results (runs.flatMap fun run =>
        run.2.map fun entry =>
          (entry.position, read (view run.1).1 (view run.1).2 entry.item))) := by
  induction runs generalizing results with
  | nil => rfl
  | cons first rest ih =>
    rw [VashStore.readRuns, Call.read, ih, List.flatMap_cons, scatter, scatter, scatter,
      List.foldl_append, List.map_map, List.zip_map']
    rfl

theorem readRuns_looked (runs : List (Fin n × List (Placed n Bytes))) (results : List α) :
    (VashStore.readRuns (fun sh now keys => keys.map (read sh now)) runs results).looked view =
      runs.map Prod.fst := by
  induction runs generalizing results with
  | nil => rfl
  | cons first rest ih => rw [VashStore.readRuns, Call.looked, ih, List.map_cons]

/-- The readers opened so far are views of their shards. -/
def Opened (view : Fin n → Shard × Nat) (readers : Fin n → Option (Shard × Nat)) : Prop :=
  ∀ shard reader, readers shard = some reader → reader = view shard

theorem Opened.update {readers : Fin n → Option (Shard × Nat)} (opened : Opened view readers)
    (shard : Fin n) : Opened view (Function.update readers shard (some (view shard))) := by
  intro other reader found
  by_cases same : other = shard
  · subst same
    rw [Function.update_self] at found
    exact (Option.some.inj found).symm
  · rw [Function.update_of_ne same] at found
    exact opened other reader found

end Loops

variable [NeZero n] (node : VashStore n)

namespace VashStore

/-- `get_many_with` behind the keys already rendered: the readers opened so far, and the
calls of `render`, in order. -/
def renderFrom (readers : Fin n → Option (Shard × Nat)) :
    List (Bytes × Nat) → List (Nat × Option Value) → NodeCall n (List (Nat × Option Value))
  | [], rendered => .done rendered
  | (key, index) :: rest, rendered =>
    let shard := forKey node.hash key
    match readers shard with
    | some (sh, now) => renderFrom readers rest (rendered ++ [(index, sh.get now key)])
    | none =>
      .look shard fun sh now =>
        renderFrom (Function.update readers shard (some (sh, now))) rest
          (rendered ++ [(index, sh.get now key)])

/-- `get_many_with`, as the calls of `render` it makes. -/
def getManyWith (keys : List Bytes) : NodeCall n (List (Nat × Option Value)) :=
  if n = 1 then
    .look 0 fun sh now => .done (keys.zipIdx.map fun entry => (entry.2, sh.get now entry.1))
  else node.renderFrom (fun _ => none) keys.zipIdx []

end VashStore

section Read

variable {node} (view : Fin n → Shard × Nat)

/-- What the view of its shard gives for a key. -/
def viewed (read : Shard → Nat → Bytes → α) (hash : Bytes → Nat) (key : Bytes) : α :=
  read (view (forKey hash key)).1 (view (forKey hash key)).2 key

variable {view} {read : Shard → Nat → Bytes → α}

/-- A batch read delivers at each position what the view of the key's shard gives. -/
theorem readBatch_read (absent : α) (keys : List Bytes) :
    (node.readBatch (fun sh now keys => keys.map (read sh now)) absent keys).read view =
      some (keys.map (viewed view read node.hash)) := by
  unfold VashStore.readBatch
  split
  · rename_i one
    have only : ∀ shard : Fin n, shard = 0 := by
      subst one
      exact fun shard => Subsingleton.elim _ _
    have viewed_eq : viewed view read node.hash = read (view 0).1 (view 0).2 := by
      funext key
      rw [viewed, only (forKey node.hash key)]
    rw [Call.read, Call.read, viewed_eq]
  · rw [readRuns_read]
    refine congrArg some (List.ext_getElem? fun position => ?_)
    by_cases inside : position < keys.length
    · obtain ⟨key, found⟩ : ∃ key, keys[position]? = some key :=
        ⟨_, List.getElem?_eq_getElem inside⟩
      rw [List.getElem?_map, found]
      refine scatter_of_agreed (by simpa using inside) ?_ ?_
      · obtain ⟨run, grouped, mem⟩ : ∃ run, (forKey node.hash key, run) ∈
            group node.sort node.hash id keys ∧ _ := exists_run found
        refine List.mem_map.mpr ⟨(position, viewed view read node.hash key),
          List.mem_flatMap.mpr ⟨_, grouped, ?_⟩, rfl⟩
        exact List.mem_map.mpr ⟨_, mem, rfl⟩
      · intro a mem
        obtain ⟨⟨shard, run⟩, grouped, mem⟩ := List.mem_flatMap.mp mem
        obtain ⟨entry, listed, same⟩ := List.mem_map.mp mem
        obtain ⟨rfl, rfl⟩ := Prod.mk.inj same
        obtain ⟨-, item, rfl⟩ := (mem_run grouped).mp listed
        obtain rfl := Option.some.inj (found.symm.trans item)
        rfl
    · rw [List.getElem?_eq_none (by simpa using inside),
        List.getElem?_eq_none (by simpa using inside)]

theorem readBatch_looked (absent : α) (keys : List Bytes) :
    ((node.readBatch (fun sh now keys => keys.map (read sh now)) absent keys).looked
      view).Nodup := by
  unfold VashStore.readBatch
  split
  · simp [Call.looked]
  · rw [readRuns_looked]
    exact group_nodup

theorem renderFrom_read (keys : List (Bytes × Nat)) {readers : Fin n → Option (Shard × Nat)}
    (opened : Opened view readers) (rendered : List (Nat × Option Value)) :
    (node.renderFrom readers keys rendered).read view =
      some (rendered ++ keys.map fun entry =>
        (entry.2, viewed view Shard.get node.hash entry.1)) := by
  induction keys generalizing readers rendered with
  | nil => simp [VashStore.renderFrom, Call.read]
  | cons entry rest ih =>
    obtain ⟨key, index⟩ := entry
    rw [VashStore.renderFrom]
    split
    · rename_i sh now open'
      have same := opened _ _ open'
      rw [ih opened]
      simp [viewed, ← same]
    · rw [Call.read, ih (opened.update _)]
      simp [viewed]

/-- No shard is looked at whose reader is open, and none twice. -/
theorem renderFrom_looked (keys : List (Bytes × Nat)) (readers : Fin n → Option (Shard × Nat))
    (rendered : List (Nat × Option Value)) :
    ((node.renderFrom readers keys rendered).looked view).Nodup ∧
      ∀ shard ∈ (node.renderFrom readers keys rendered).looked view, readers shard = none := by
  induction keys generalizing readers rendered with
  | nil => simp [VashStore.renderFrom, Call.looked]
  | cons entry rest ih =>
    obtain ⟨key, index⟩ := entry
    rw [VashStore.renderFrom]
    split
    · exact ih _ _
    · rename_i closed
      rw [Call.looked]
      obtain ⟨once, fresh⟩ := ih (Function.update readers (forKey node.hash key)
        (some ((view (forKey node.hash key)).1, (view (forKey node.hash key)).2)))
        (rendered ++ [(index, (view (forKey node.hash key)).1.get
          (view (forKey node.hash key)).2 key)])
      have others : ∀ shard, Function.update readers (forKey node.hash key)
          (some ((view (forKey node.hash key)).1, (view (forKey node.hash key)).2)) shard = none →
          shard ≠ forKey node.hash key ∧ readers shard = none := by
        intro shard absent
        by_cases same : shard = forKey node.hash key
        · rw [same, Function.update_self] at absent
          cases absent
        · rw [Function.update_of_ne same] at absent
          exact ⟨same, absent⟩
      refine ⟨List.nodup_cons.mpr ⟨fun mem => (others _ (fresh _ mem)).1 rfl, once⟩, ?_⟩
      intro shard mem
      rcases List.mem_cons.mp mem with rfl | later
      · exact closed
      · exact (others _ (fresh _ later)).2

/-- `render` is called once for each position, in request order, with what the view of the
key's shard gives. -/
theorem getManyWith_read (keys : List Bytes) :
    (node.getManyWith keys).read view =
      some (keys.zipIdx.map fun entry => (entry.2, viewed view Shard.get node.hash entry.1)) := by
  unfold VashStore.getManyWith
  split
  · rename_i one
    have only : ∀ shard : Fin n, shard = 0 := by
      subst one
      exact fun shard => Subsingleton.elim _ _
    simp only [Call.read, viewed, only (forKey _ _)]
  · rw [renderFrom_read _ (by intro shard reader found; cases found), List.nil_append]

theorem getManyWith_looked (keys : List Bytes) :
    ((node.getManyWith keys).looked view).Nodup := by
  unfold VashStore.getManyWith
  split
  · simp [Call.looked]
  · exact (renderFrom_looked _ _ _).1

/-- The runs of a batch are the shards that own an item, in ascending order and once each,
with their items; and a batch read, which looks at no shard twice, delivers at each position
what a read of the key there delivers from the same views of the shards. -/
theorem batches_are_pointwise (node : VashStore n) (items : List α) (keyOf : α → Bytes)
    (keys : List Bytes) (view : Fin n → Shard × Nat) :
    (∀ key, indexOf node.hash n key = node.hash key % n) ∧
    (((group node.sort node.hash keyOf items).map Prod.fst).Pairwise (· < ·) ∧
      (∀ shard, shard ∈ (group node.sort node.hash keyOf items).map Prod.fst ↔
        ∃ item ∈ items, forKey node.hash (keyOf item) = shard) ∧
      ∀ shard run, (shard, run) ∈ group node.sort node.hash keyOf items →
        run.Perm ((place node.hash keyOf items).filter fun entry => entry.shard = shard)) ∧
    (((node.getMany keys).looked view).Nodup ∧ ∃ values,
      (node.getMany keys).read view = some values ∧ values.length = keys.length ∧
        ∀ (i : Nat) key, keys[i]? = some key → values[i]? = (node.get key).read view) ∧
    (((node.deadlines keys).looked view).Nodup ∧ ∃ deadlines,
      (node.deadlines keys).read view = some deadlines ∧ deadlines.length = keys.length ∧
        ∀ (i : Nat) key, keys[i]? = some key → deadlines[i]? = (node.deadline key).read view) ∧
    (((node.getManyWith keys).looked view).Nodup ∧ ∃ rendered,
      (node.getManyWith keys).read view = some rendered ∧
        rendered.map Prod.fst = List.range keys.length ∧
        ∀ (i : Nat) key, keys[i]? = some key →
          rendered[i]?.map Prod.snd = (node.get key).read view) := by
  refine ⟨indexOf_eq node.hash n, ⟨group_ascending, fun _ => mem_group_fst,
    fun _ _ => group_run_perm⟩, ⟨readBatch_looked _ _, _, readBatch_read _ _, by simp, ?_⟩,
    ⟨readBatch_looked _ _, _, readBatch_read _ _, by simp, ?_⟩,
    ⟨getManyWith_looked _, _, getManyWith_read _, ?_, ?_⟩⟩
  · intro i key found
    rw [List.getElem?_map, found]
    rfl
  · intro i key found
    rw [List.getElem?_map, found]
    rfl
  · rw [List.map_map, List.range_eq_range']
    exact List.zipIdx_map_snd 0 keys
  · intro i key found
    rw [List.getElem?_map, List.getElem?_zipIdx, found]
    rfl

end Read

/-- Three keys, one of them twice, in a store of three shards. -/
theorem batches_are_pointwise_three :
    let node : VashStore 3 := ⟨List.length, .stable 3, 8⟩
    ∃ values, (node.getMany [[1], [2, 3], [1]]).read (fun _ => (newShard 0, 0)) = some values ∧
      values.length = 3 := by
  intro node
  obtain ⟨-, -, ⟨-, values, reads, length, -⟩, -⟩ :=
    batches_are_pointwise node ([] : List Bytes) id [[1], [2, 3], [1]] fun _ => (newShard 0, 0)
  exact ⟨values, reads, length⟩

end Vash.Node
