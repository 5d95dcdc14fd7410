import Mathlib
import Vash.Core.Basic

/-!
# Routing across shards

A key belongs to one shard, by its hash. A batch is put in shard order by a sort
that may permute the items of one shard, and is cut into one run per shard; each
item keeps its position in the request, so that its result can be put back.

* `indexOf_eq` — the mask of a power of two routes as the remainder does.
* `runs_eq` — the bounds cut out, for each shard, its items in the order the sort
  left them in; `mem_group` and `mem_place` say what a run holds.
-/

namespace Vash.Node

/-! ### The shard of a key -/

/-- `Shards::mask`. -/
def mask (count : Nat) : Option Nat := if count.isPowerOfTwo then some (count - 1) else none

/-- `Shards::index_of`. -/
def indexOf (hash : Bytes → Nat) (count : Nat) (key : Bytes) : Nat :=
  if count = 1 then 0
  else
    match mask count with
    | some mask => hash key &&& mask
    | none => hash key % count

/-- The mask lands every key where the remainder does. -/
theorem indexOf_eq (hash : Bytes → Nat) (count : Nat) (key : Bytes) :
    indexOf hash count key = hash key % count := by
  unfold indexOf mask
  split
  · simp_all [Nat.mod_one]
  · by_cases power : count.isPowerOfTwo
    · obtain ⟨k, rfl⟩ := power
      simp [Nat.isPowerOfTwo, Nat.and_two_pow_sub_one_eq_mod]
    · simp [power]

variable {n : Nat} {α : Type}

/-- `Shards::for_key`, as an index of `all`. -/
def forKey [NeZero n] (hash : Bytes → Nat) (key : Bytes) : Fin n :=
  ⟨indexOf hash n key, indexOf_eq hash n key ▸ Nat.mod_lt _ (NeZero.pos n)⟩

/-! ### Grouping -/

/-- One item of a batch, and where it came from. -/
structure Placed (n : Nat) (α : Type) where
  shard : Fin n
  position : Nat
  item : α
  deriving DecidableEq, Repr

/-- `sort_unstable_by_key` on the shard: some permutation in shard order. -/
structure ShardSort (n : Nat) where
  arrange : {α : Type} → List (Placed n α) → List (Placed n α)
  perm : ∀ {α : Type} (placed : List (Placed n α)), (arrange placed).Perm placed
  sorted : ∀ {α : Type} (placed : List (Placed n α)),
    (arrange placed).Pairwise fun a b => a.shard ≤ b.shard

/-- A sort that keeps the items of a shard in order. -/
def ShardSort.stable (n : Nat) : ShardSort n where
  arrange placed := placed.insertionSort fun a b => a.shard ≤ b.shard
  perm placed := placed.perm_insertionSort _
  sorted {α} placed := by
    have total : Std.Total fun a b : Placed n α => a.shard ≤ b.shard := ⟨fun a b => le_total _ _⟩
    have trans : IsTrans (Placed n α) fun a b => a.shard ≤ b.shard := ⟨fun a b c => le_trans⟩
    exact placed.pairwise_insertionSort _

/-- Where the run of each shard begins, or the length for a shard without items. -/
def starts (placed : List (Placed n α)) : Nat → Nat :=
  placed.zipIdx.foldr (fun entry bounds => Function.update bounds entry.1.shard entry.2)
    fun _ => placed.length

/-- A shard without items is given the start of the next one. -/
def bounds (placed : List (Placed n α)) : Nat → Nat :=
  (List.range n).foldr
    (fun index bounds => Function.update bounds index (min (bounds index) (bounds (index + 1))))
    (starts placed)

/-- `Grouped::runs`: each shard that has an item, with its run. -/
def runs (placed : List (Placed n α)) : List (Fin n × List (Placed n α)) :=
  let bounds := bounds placed
  ((List.finRange n).map fun shard : Fin n =>
    (shard, (placed.drop (bounds shard)).take (bounds (shard + 1) - bounds shard))).filter
      fun run => !run.2.isEmpty

/-- The items with their shards and positions, in request order. -/
def place [NeZero n] (hash : Bytes → Nat) (keyOf : α → Bytes) (items : List α) :
    List (Placed n α) :=
  items.zipIdx.map fun entry => ⟨forKey hash (keyOf entry.1), entry.2, entry.1⟩

/-- `Shards::group`, as its runs. -/
def group [NeZero n] (sort : ShardSort n) (hash : Bytes → Nat) (keyOf : α → Bytes)
    (items : List α) :
    List (Fin n × List (Placed n α)) :=
  runs (sort.arrange (place hash keyOf items))

/-! ### The runs -/

section Runs

variable {placed : List (Placed n α)}

theorem findIdx_or (p q : α → Bool) (l : List α) :
    l.findIdx (fun a => p a || q a) = min (l.findIdx p) (l.findIdx q) := by
  induction l with
  | nil => simp
  | cons a rest ih =>
    simp only [List.findIdx_cons, ih]
    cases p a <;> cases q a <;> simp

theorem starts_eq (placed : List (Placed n α)) (i : Nat) :
    starts placed i = placed.findIdx fun entry => entry.shard = i := by
  have general : ∀ (rest : List (Placed n α)) (k : Nat),
      (rest.zipIdx k).foldr
        (fun entry bounds => Function.update bounds entry.1.shard.val entry.2)
        (fun _ => k + rest.length) i =
      k + rest.findIdx fun entry => entry.shard = i := by
    intro rest
    induction rest with
    | nil => simp
    | cons entry rest ih =>
      intro k
      have later := ih (k + 1)
      rw [show k + 1 + rest.length = k + (entry :: rest).length by simp; omega] at later
      rw [List.zipIdx_cons, List.foldr_cons, Function.update_apply, later, List.findIdx_cons]
      by_cases here : entry.shard.val = i
      · simp [here]
      · rw [if_neg (Ne.symm here)]
        simp only [here, decide_false, cond_false]
        omega
  simpa [starts] using general placed 0

theorem bounds_eq (placed : List (Placed n α)) {i : Nat} (le : i ≤ n) :
    bounds placed i = placed.findIdx fun entry => i ≤ entry.shard := by
  -- The loop runs from the last shard down; below the shards it has come to, the
  -- bounds are still the starts.
  have general : ∀ (count first : Nat), first + count = n →
      ∀ i, (List.range' first count).foldr
        (fun index bounds => Function.update bounds index (min (bounds index) (bounds (index + 1))))
        (starts placed) i =
      if i < first then starts placed i else
        if i ≤ n then placed.findIdx (fun entry => i ≤ entry.shard.val) else starts placed i := by
    intro count
    induction count with
    | zero =>
      intro first whole i
      simp only [List.range'_zero, List.foldr_nil]
      split
      · rfl
      · split
        · rename_i below le
          rw [starts_eq]
          congr 1
          funext entry
          have := entry.shard.isLt
          simp only [decide_eq_decide]
          omega
        · rfl
    | succ count ih =>
      intro first whole i
      rw [List.range'_succ, List.foldr_cons, Function.update_apply, ih (first + 1) (by omega),
        ih (first + 1) (by omega)]
      by_cases here : i = first
      · subst here
        rw [if_pos rfl, if_pos (Nat.lt_succ_self i), if_neg (lt_irrefl (i + 1)),
          if_pos (by omega), if_neg (lt_irrefl i), if_pos (by omega), starts_eq, ← findIdx_or]
        congr 1
        funext entry
        rw [Bool.eq_iff_iff]
        simp only [Bool.or_eq_true, decide_eq_true_eq]
        omega
      · rw [if_neg here, ih (first + 1) (by omega)]
        by_cases lt : i < first
        · simp [lt, Nat.lt_succ_of_lt lt]
        · rw [if_neg lt, if_neg (by omega)]
  have all := general n 0 (by omega) i
  rw [if_neg (by omega), if_pos le] at all
  rw [← all, bounds, List.range_eq_range']

/-- In a list in shard order the run between two bounds is the shard's items. -/
theorem run_eq (sorted : placed.Pairwise fun a b => a.shard ≤ b.shard) (i : Nat) :
    (placed.drop (placed.findIdx fun entry => i ≤ entry.shard)).take
        (placed.findIdx (fun entry => i + 1 ≤ entry.shard) -
          placed.findIdx fun entry => i ≤ entry.shard) =
      placed.filter fun entry => entry.shard = i := by
  induction placed with
  | nil => simp
  | cons entry rest ih =>
    obtain ⟨least, sorted⟩ := List.pairwise_cons.mp sorted
    have later := ih sorted
    simp only [List.findIdx_cons]
    rcases lt_trichotomy entry.shard.val i with below | here | above
    · have low : ¬ i ≤ entry.shard.val := by omega
      have low' : ¬ i + 1 ≤ entry.shard.val := by omega
      have other : entry.shard.val ≠ i := by omega
      simpa [low, low', other] using later
    · have none : rest.findIdx (fun entry => i ≤ entry.shard.val) = 0 := by
        cases rest with
        | nil => rfl
        | cons next rest =>
          have := least next List.mem_cons_self
          have : i ≤ next.shard.val := by omega
          simp [List.findIdx_cons, this]
      have low : ¬ i + 1 ≤ entry.shard.val := by omega
      rw [none] at later
      simpa [here, low] using later
    · have out : rest.filter (fun entry => entry.shard.val = i) = [] := by
        rw [List.filter_eq_nil_iff]
        intro next mem
        have := least next mem
        simp only [decide_eq_true_eq]
        omega
      have high : i ≤ entry.shard.val := by omega
      have high' : i + 1 ≤ entry.shard.val := by omega
      have other : entry.shard.val ≠ i := by omega
      simpa [high, high', other] using out

/-- Each shard that has an item, in order, with its items as the sort left them. -/
theorem runs_eq (sorted : placed.Pairwise fun a b => a.shard ≤ b.shard) :
    runs placed =
      ((List.finRange n).map fun shard =>
        (shard, placed.filter fun entry => entry.shard = shard)).filter
          fun run => !run.2.isEmpty := by
  unfold runs
  simp only
  congr 1
  apply List.map_congr_left
  intro shard _
  rw [bounds_eq _ (by omega), bounds_eq _ (by omega), run_eq sorted]
  simp only [Fin.ext_iff]

end Runs

/-! ### What a group holds -/

section Group

variable [NeZero n] {sort : ShardSort n} {hash : Bytes → Nat} {keyOf : α → Bytes} {items : List α}

theorem mem_place {entry : Placed n α} :
    entry ∈ place hash keyOf items ↔
      items[entry.position]? = some entry.item ∧ entry.shard = forKey hash (keyOf entry.item) := by
  simp only [place, List.mem_map, Prod.exists, List.mem_zipIdx_iff_getElem?]
  constructor
  · rintro ⟨item, position, found, rfl⟩
    exact ⟨found, rfl⟩
  · rintro ⟨found, owner⟩
    exact ⟨entry.item, entry.position, found, by rw [← owner]⟩

/-- The sort permutes the items. -/
theorem arrange_items_perm :
    ((sort.arrange (place hash keyOf items)).map Placed.item).Perm items := by
  refine ((sort.perm _).map Placed.item).trans (.of_eq ?_)
  rw [place, List.map_map]
  exact List.zipIdx_map_fst 0 items

/-- The run of a shard is what the sort left of its items. -/
theorem mem_group {shard : Fin n} {run : List (Placed n α)} :
    (shard, run) ∈ group sort hash keyOf items ↔
      run = (sort.arrange (place hash keyOf items)).filter (fun entry => entry.shard = shard) ∧
        run ≠ [] := by
  rw [group, runs_eq (sort.sorted _), List.mem_filter, List.mem_map]
  simp only [List.mem_finRange, true_and, Prod.mk.injEq, Bool.not_eq_true',
    List.isEmpty_eq_false_iff]
  constructor
  · rintro ⟨⟨_, rfl, rfl⟩, nonempty⟩
    exact ⟨rfl, nonempty⟩
  · rintro ⟨rfl, nonempty⟩
    exact ⟨⟨shard, rfl, rfl⟩, nonempty⟩

/-- Every item of a run belongs to its shard and stands at its position. -/
theorem mem_run {shard : Fin n} {run : List (Placed n α)}
    (grouped : (shard, run) ∈ group sort hash keyOf items) {entry : Placed n α} :
    entry ∈ run ↔ entry.shard = shard ∧ items[entry.position]? = some entry.item ∧
      shard = forKey hash (keyOf entry.item) := by
  obtain ⟨rfl, -⟩ := mem_group.mp grouped
  rw [List.mem_filter, (sort.perm _).mem_iff, mem_place, decide_eq_true_eq]
  constructor
  · rintro ⟨⟨found, owner⟩, rfl⟩
    exact ⟨rfl, found, owner⟩
  · rintro ⟨rfl, found, owner⟩
    exact ⟨⟨found, owner⟩, rfl⟩

/-- Every item is in the run of its shard. -/
theorem exists_run {position : Nat} {item : α} (found : items[position]? = some item) :
    ∃ run, (forKey hash (keyOf item), run) ∈ group sort hash keyOf items ∧
      ⟨forKey hash (keyOf item), position, item⟩ ∈ run := by
  have placed : ⟨forKey hash (keyOf item), position, item⟩ ∈
      (sort.arrange (place hash keyOf items)).filter
        (fun entry => entry.shard = forKey hash (keyOf item)) := by
    rw [List.mem_filter, (sort.perm _).mem_iff, mem_place]
    exact ⟨⟨found, rfl⟩, decide_eq_true rfl⟩
  exact ⟨_, mem_group.mpr ⟨rfl, List.ne_nil_of_mem placed⟩, placed⟩

/-- No position comes twice in a run. -/
theorem run_positions_nodup {shard : Fin n} {run : List (Placed n α)}
    (grouped : (shard, run) ∈ group sort hash keyOf items) : (run.map Placed.position).Nodup := by
  obtain ⟨rfl, -⟩ := mem_group.mp grouped
  refine List.Nodup.sublist (List.filter_sublist.map Placed.position) ?_
  rw [((sort.perm _).map Placed.position).nodup_iff, place, List.map_map]
  change (items.zipIdx.map Prod.snd).Nodup
  rw [List.zipIdx_map_snd]
  exact List.nodup_range'

/-- A shard has at most one run. -/
theorem group_nodup : ((group sort hash keyOf items).map Prod.fst).Nodup := by
  rw [group, runs_eq (sort.sorted _)]
  refine List.Nodup.sublist (List.filter_sublist.map Prod.fst) ?_
  rw [List.map_map]
  exact (List.nodup_finRange n).map fun _ _ h => h

end Group

end Vash.Node
