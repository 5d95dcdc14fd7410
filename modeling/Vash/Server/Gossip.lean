import Vash.Library.Window
import Vash.Server.Cluster

/-!
# Gossip rounds

In a round a node offers a peer what it has of its table of generations, the peer
merges that and answers with what the node is behind on, and the node merges the
answer. A table of up to `maxTagSyncEntries` tags is offered whole; of a larger one
each round offers a window, which moves on from round to round.

The generation of a tag at a node is the highest its shards have (`nodeLevel`), which is
what a node tells others. Merging never lowers it, and raises it to nothing that was not
offered (`Merged`), so that the two ends of a round meet at the higher of the two.

* `gossip_converges` — rounds enough for the table offer every tag, and leave both ends
  at the higher generation of each.
-/

namespace Vash.Server

open Library Store Node

/-! ### The generations of a node -/

/-- The generation a node has for a tag: the highest of its shards, `0` if none has it. -/
def nodeLevel {n : Nat} (parties : Fin n → Shard) (tag : Bytes) : Nat :=
  Finset.univ.sup fun j => (rowGeneration (parties j) tag).getD 0

/-- The tags a node has at a generation above `0`. -/
def raisedTags {n : Nat} (parties : Fin n → Shard) : Finset Bytes :=
  (Finset.univ.biUnion fun j => (parties j).tables.tags.keys.toFinset).filter fun tag =>
    0 < nodeLevel parties tag

section Levels

variable {n : Nat} {parties parties' parties'' : Fin n → Shard} {tag : Bytes}

theorem getD_le_nodeLevel (j : Fin n) :
    (rowGeneration (parties j) tag).getD 0 ≤ nodeLevel parties tag :=
  Finset.le_sup (f := fun j => (rowGeneration (parties j) tag).getD 0) (Finset.mem_univ j)

theorem le_nodeLevel {j : Fin n} {held : Nat} (found : rowGeneration (parties j) tag = some held) :
    held ≤ nodeLevel parties tag := by
  have le : (rowGeneration (parties j) tag).getD 0 ≤ nodeLevel parties tag := getD_le_nodeLevel j
  rwa [found] at le

theorem nodeLevel_le {bound : Nat}
    (below : ∀ j held, rowGeneration (parties j) tag = some held → held ≤ bound) :
    nodeLevel parties tag ≤ bound := by
  refine Finset.sup_le fun j _ => ?_
  cases found : rowGeneration (parties j) tag with
  | none => exact Nat.zero_le _
  | some held => exact below j held found

/-- A shard that has the highest generation of the node. -/
theorem exists_of_nodeLevel_pos (positive : 0 < nodeLevel parties tag) :
    ∃ j, rowGeneration (parties j) tag = some (nodeLevel parties tag) := by
  by_contra! none
  have lower : nodeLevel parties tag ≤ nodeLevel parties tag - 1 := by
    refine nodeLevel_le fun j held found => ?_
    have le := le_nodeLevel found
    have ne : held ≠ nodeLevel parties tag := fun same => none j (same ▸ found)
    omega
  omega

theorem mem_raisedTags : tag ∈ raisedTags parties ↔ 0 < nodeLevel parties tag := by
  unfold raisedTags
  rw [Finset.mem_filter, and_iff_right_iff_imp]
  intro positive
  obtain ⟨j, found⟩ := exists_of_nodeLevel_pos positive
  obtain ⟨row, present, -⟩ := rowGeneration_eq_some found
  exact Finset.mem_biUnion.mpr ⟨j, Finset.mem_univ j,
    List.mem_toFinset.mpr (Table.mem_keys.mpr ⟨row, present⟩)⟩

theorem RowsKept.nodeLevel_le (kept : RowsKept parties parties') (tag : Bytes) :
    nodeLevel parties tag ≤ nodeLevel parties' tag := by
  refine Server.nodeLevel_le fun j held found => ?_
  obtain ⟨held', found', le⟩ := kept.reached ⟨held, found, le_rfl⟩
  exact le.trans (le_nodeLevel found')

/-- One shard's generation of a tag is raised. -/
theorem nodeLevel_update {i : Fin n} {sh : Shard} {generation : Nat}
    (rows : rowGeneration sh = Function.update (rowGeneration (parties i)) tag
      (some (max ((rowGeneration (parties i) tag).getD 0) generation))) :
    nodeLevel (Function.update parties i sh) =
      Function.update (nodeLevel parties) tag (max (nodeLevel parties tag) generation) := by
  funext other
  by_cases same : other = tag
  · subst same
    rw [Function.update_self]
    apply le_antisymm
    · refine nodeLevel_le fun j held found => ?_
      by_cases here : j = i
      · subst here
        rw [Function.update_self, rows, Function.update_self, Option.some.injEq] at found
        subst found
        exact max_le_max (getD_le_nodeLevel j) le_rfl
      · rw [Function.update_of_ne here] at found
        exact (le_nodeLevel found).trans (le_max_left _ _)
    · have here : rowGeneration (Function.update parties i sh i) other =
          some (max ((rowGeneration (parties i) other).getD 0) generation) := by
        rw [Function.update_self, rows, Function.update_self]
      refine max_le (nodeLevel_le fun j held found => ?_)
        ((le_max_right _ _).trans (le_nodeLevel here))
      by_cases at_ : j = i
      · subst at_
        rw [found] at here
        exact (le_max_left _ _).trans (le_nodeLevel here)
      · have away : rowGeneration (Function.update parties i sh j) other = some held := by
          rw [Function.update_of_ne at_, found]
        exact le_nodeLevel away
  · rw [Function.update_of_ne same]
    unfold nodeLevel
    congr 1
    funext j
    by_cases here : j = i
    · subst here
      rw [Function.update_self, rows, Function.update_of_ne same]
    · rw [Function.update_of_ne here]

end Levels

/-! ### Merges -/

/-- A job can be carried out: ids are left for it, and RAM has room for the name a
merge has to register. -/
def Room (sh : Shard) (op : WriteOp) : Prop :=
  Cluster.IdsFor sh op ∧ ∀ name ∈ op.newTags, rowGeneration sh name ≠ none ∨ ¬ sh.engine.TagsFull

instance (sh : Shard) (op : WriteOp) : Decidable (Room sh op) :=
  have : Decidable sh.engine.TagsFull := inferInstanceAs (Decidable (_ ≤ _))
  inferInstanceAs (Decidable (_ ∧ _))

/-- What merging `entries` makes of the generations of a node. -/
structure Merged {n : Nat} (entries : List (Bytes × Nat)) (parties parties' : Fin n → Shard) :
    Prop where
  kept : RowsKept parties parties'
  reached : ∀ entry ∈ entries, entry.2 ≤ nodeLevel parties' entry.1
  least : ∀ tag, nodeLevel parties' tag = nodeLevel parties tag ∨
    (tag, nodeLevel parties' tag) ∈ entries

section Merges

variable {n : Nat} {parties parties' parties'' : Fin n → Shard} {tag : Bytes} {generation : Nat}
  {entries : List (Bytes × Nat)}

theorem Merged.cons {entry : Bytes × Nat} (first : Merged [entry] parties parties')
    (later : Merged entries parties' parties'') : Merged (entry :: entries) parties parties'' := by
  refine ⟨first.kept.trans later.kept, fun other mem => ?_, fun tag => ?_⟩
  · rcases List.mem_cons.mp mem with rfl | mem
    · exact (first.reached other (List.mem_singleton_self other)).trans
        (later.kept.nodeLevel_le other.1)
    · exact later.reached other mem
  · rcases later.least tag with same | offered
    · rw [same]
      exact (first.least tag).imp_right fun mem =>
        List.mem_cons.mpr (.inl (List.mem_singleton.mp mem))
    · exact .inr (List.mem_cons_of_mem _ offered)

/-- What the merge of one generation does to the levels of a node. -/
def Lifted (tag : Bytes) (generation : Nat) (parties parties' : Fin n → Shard) : Prop :=
  RowsKept parties parties' ∧ nodeLevel parties' =
    Function.update (nodeLevel parties) tag (max (nodeLevel parties tag) generation)

theorem Lifted.merged (lifted : Lifted tag generation parties parties') :
    Merged [(tag, generation)] parties parties' := by
  refine ⟨lifted.1, ?_, fun other => ?_⟩
  · simp [lifted.2]
  · rw [lifted.2]
    by_cases same : other = tag
    · subst same
      rw [Function.update_self]
      rcases max_cases (nodeLevel parties other) generation with ⟨eq, -⟩ | ⟨eq, -⟩
      · exact .inl eq
      · exact .inr (by simp [eq])
    · exact .inl (Function.update_of_ne same _ _)

/-- Raising twice is raising once. -/
theorem Lifted.trans (first : Lifted tag generation parties parties')
    (next : Lifted tag generation parties' parties'') :
    Lifted tag generation parties parties'' := by
  refine ⟨first.1.trans next.1, ?_⟩
  rw [next.2, first.2, Function.update_self, Function.update_idem, max_assoc, max_self]

theorem Lifted.same (sound : RowsKept parties parties)
    (above : generation ≤ nodeLevel parties tag) : Lifted tag generation parties parties :=
  ⟨sound, by rw [max_eq_left above, Function.update_eq_self]⟩

/-- The loop over the shards: if none so far has the name, none of those it has been to
has it; and once one has it, the node has reached the generation. -/
theorem mergeShards_lifts [NeZero n] (node : VashStore n) (valid : ValidName tag)
    (shards : List (Fin n)) (effective holders : Nat) (sound : RowsKept parties parties)
    (none : holders = 0 → ∀ j, j ∉ shards → rowGeneration (parties j) tag = none)
    (some : holders ≠ 0 → generation ≤ nodeLevel parties tag) :
    (node.mergeShards tag generation shards effective holders).Leads Node.submit Room
      (Lifted tag generation parties) parties := by
  have merging : Tagging (.mergeTag tag generation) := trivial
  have asked : tag ∈ (WriteOp.mergeTag tag generation).newTags := by
    simp [WriteOp.newTags, tagNameOk, valid.1, valid.2]
  induction shards generalizing parties effective holders with
  | nil =>
    unfold VashStore.mergeShards
    split
    · rename_i empty
      intro room clock
      have absent := none empty
      have here := absent (forKey node.hash tag) List.not_mem_nil
      have notFull := (room.2 tag asked).resolve_left (fun known => known here)
      obtain ⟨reply, rows⟩ := submit_mergeTag_creates clock here valid notFull generation
      rw [reply]
      refine ⟨sound.submit merging room.1 clock, nodeLevel_update ?_⟩
      rw [rows, here]
      simp
    · rename_i holds
      exact .same sound (some holds)
  | cons shard rest ih =>
    intro now
    dsimp only
    rw [generationOf_eq (sound.tags shard)]
    cases found : rowGeneration (parties shard) tag with
    | none =>
      refine ih effective holders sound (fun empty j out => ?_) some
      by_cases here : j = shard
      · exact here ▸ found
      · exact none empty j (by simp [here, out])
    | some current =>
      dsimp only
      split
      · rename_i above
        exact ih _ _ sound (fun absurd => by omega) fun _ => above.le.trans (le_nodeLevel found)
      · intro room clock
        obtain ⟨answer, rows⟩ := submit_mergeTag clock (sound.names shard) found generation
        have kept := sound.submit merging room.1 clock
        have lifted : Lifted tag generation parties (Function.update parties shard
            (Node.submit clock (.mergeTag tag generation) (parties shard)).2) := by
          refine ⟨kept, nodeLevel_update ?_⟩
          rw [rows, found]
          rfl
        rw [answer]
        refine Call.Leads.mono (ih _ _ kept.again (fun absurd => by omega) fun _ => ?_)
          fun _ later => lifted.trans later
        rw [lifted.2, Function.update_self]
        exact le_max_right _ _

end Merges

/-! ### What a node reads of its generations -/

/-- A list of the generations of a node. -/
structure Lists {n : Nat} (parties : Fin n → Shard) (known : List (Bytes × Nat)) : Prop where
  names : (known.map Prod.fst).Nodup
  entry : ∀ tag generation, (tag, generation) ∈ known ↔
    (∃ j, rowGeneration (parties j) tag ≠ none) ∧ generation = nodeLevel parties tag

namespace Member

variable (member : Member)

/-- The table `tag_generations` gathers from shards it finds as in `parties`. -/
def gathered (shards : List (Fin member.shards)) (merged : Table Bytes Nat)
    (parties : Fin member.shards → Shard) : Table Bytes Nat :=
  shards.foldl (fun merged j => mergeSnapshot merged (parties j).engine.registry) merged

/-- What `tag_generations` returns there. -/
def known (parties : Fin member.shards → Shard) : List (Bytes × Nat) :=
  member.order.walk (member.gathered (List.finRange member.shards) ∅ parties).rows

/-- What `build_digest` returns there. -/
def digest (parties : Fin member.shards → Shard) (round : Nat) : Bool × List (Bytes × Nat) :=
  ((member.buildDigest round).read fun j => (parties j, 0)).getD (true, [])

end Member

section Reading

variable {tag : Bytes}

theorem merge_max_eq_none {x y : Option Nat} : x.merge max y = none ↔ x = none ∧ y = none := by
  cases x <;> cases y <;> simp

theorem getD_merge_max_le {x y : Option Nat} {bound : Nat} :
    (x.merge max y).getD 0 ≤ bound ↔ x.getD 0 ≤ bound ∧ y.getD 0 ≤ bound := by
  cases x <;> cases y <;> simp

/-- A snapshot merges every generation of the registry, each under its name. -/
theorem get_mergeSnapshot (merged : Table Bytes Nat) (registry : Registry) :
    (Member.mergeSnapshot merged registry).get tag =
      (merged.get tag).merge max (registry.generationOf tag) := by
  have folded : ∀ (rows : List (Bytes × TagEntry)) (merged : Table Bytes Nat),
      (rows.map Prod.fst).Nodup →
      (rows.foldl (fun merged row => merged.put row.1
        (max ((merged.get row.1).getD row.2.generation) row.2.generation)) merged).get tag =
      (merged.get tag).merge max
        (((rows.find? fun row => decide (row.1 = tag)).map Prod.snd).map TagEntry.generation) := by
    intro rows
    induction rows with
    | nil => simp
    | cons row rest ih =>
      intro merged distinct
      obtain ⟨fresh, distinct⟩ := List.nodup_cons.mp distinct
      rw [List.foldl_cons, ih _ distinct, Table.get_put, List.find?_cons]
      by_cases here : row.1 = tag
      · have absent : rest.find? (fun row => decide (row.1 = tag)) = none := by
          refine List.find?_eq_none.mpr fun other mem => ?_
          simpa using fun same => fresh (List.mem_map.mpr ⟨other, mem, same.trans here.symm⟩)
        rw [absent]
        cases found : merged.get tag <;> simp [here, found]
      · simp [here, Ne.symm here]
  rw [Member.mergeSnapshot, folded _ _ registry.byName.keys_nodup, Registry.generationOf]
  have shown : registry.byName.get tag =
      (registry.byName.rows.find? fun row => decide (row.1 = tag)).map Prod.snd := by
    unfold Table.get
    congr!
  rw [shown]

variable (member : Member) {parties : Fin member.shards → Shard}

theorem gathered_get (tag : Bytes) (tags : ∀ j, (parties j).TagsOk)
    (shards : List (Fin member.shards)) (merged : Table Bytes Nat) :
    ((member.gathered shards merged parties).get tag = none ↔
      merged.get tag = none ∧ ∀ j ∈ shards, rowGeneration (parties j) tag = none) ∧
    ∀ bound, ((member.gathered shards merged parties).get tag).getD 0 ≤ bound ↔
      (merged.get tag).getD 0 ≤ bound ∧
        ∀ j ∈ shards, (rowGeneration (parties j) tag).getD 0 ≤ bound := by
  induction shards generalizing merged with
  | nil => simp [Member.gathered]
  | cons shard rest ih =>
    have next := ih (Member.mergeSnapshot merged (parties shard).engine.registry)
    simp only [get_mergeSnapshot, generationOf_eq (tags shard), merge_max_eq_none,
      getD_merge_max_le] at next
    simp only [List.forall_mem_cons, ← and_assoc]
    exact next

theorem lists_known (tags : ∀ j, (parties j).TagsOk) : Lists parties (member.known parties) := by
  have perm := member.order.perm
    (member.gathered (List.finRange member.shards) ∅ parties).rows
  refine ⟨(perm.map Prod.fst).nodup_iff.mpr (Table.keys_nodup _), fun tag generation => ?_⟩
  obtain ⟨absent, bounds⟩ := gathered_get member tag tags (List.finRange member.shards) ∅
  rw [Member.known, perm.mem_iff, ← Table.get_eq_some_iff]
  generalize (member.gathered (List.finRange member.shards) ∅ parties).get tag = found
    at absent bounds
  have level : found.getD 0 = nodeLevel parties tag := by
    refine eq_of_forall_ge_iff fun bound => ?_
    rw [bounds, nodeLevel, Finset.sup_le_iff]
    simp
  cases found with
  | none =>
    have all := absent.mp rfl
    simp only [reduceCtorEq, false_iff, not_and]
    rintro ⟨j, known⟩
    exact absurd (all.2 j (List.mem_finRange j)) known
  | some held =>
    have known : ∃ j, rowGeneration (parties j) tag ≠ none := by
      by_contra! none
      exact absurd (absent.mpr ⟨rfl, fun j _ => none j⟩) (by simp)
    rw [Option.getD_some] at level
    rw [Option.some.injEq, ← level]
    exact ⟨fun same => ⟨known, same.symm⟩, fun same => same.2.symm⟩

/-- `tag_generations` only looks. -/
theorem tagGenerations_ensures {allowed : (Nat → Nat) → Prop} :
    member.tagGenerations.Ensures submit allowed
      (fun known parties' => known = member.known parties ∧ parties' = parties)
      (fun _ _ => False) parties := by
  unfold Member.tagGenerations Member.known
  generalize (∅ : Table Bytes Nat) = merged
  induction List.finRange member.shards generalizing merged with
  | nil => exact ⟨rfl, rfl⟩
  | cons shard rest ih => exact fun _ _ => ih _

theorem tagGenerations_read {α : Type} {next : List (Bytes × Nat) → NodeCall member.shards α}
    {now : Nat} :
    (member.tagGenerations >>= next).read (fun j => (parties j, now)) =
      (next (member.known parties)).read fun j => (parties j, now) := by
  unfold Member.tagGenerations Member.known
  rw [bind_assoc]
  generalize (∅ : Table Bytes Nat) = merged
  induction List.finRange member.shards generalizing merged with
  | nil => rfl
  | cons shard rest ih => exact ih _

/-- The tags a digest offers from. -/
def Member.offerable (parties : Fin member.shards → Shard) : List (Bytes × Nat) :=
  (member.known parties).filter fun entry => entry.2 > 0

theorem digest_eq (round : Nat) :
    member.digest parties round =
      if (member.offerable parties).length ≤ maxTagSyncEntries then
        (true, member.offerable parties)
      else (false, window ((member.offerable parties).mergeSort fun a b => a.1 ≤ b.1)
        maxTagSyncEntries round) := by
  unfold Member.digest Member.buildDigest
  rw [tagGenerations_read]
  change ((if (member.offerable parties).length ≤ maxTagSyncEntries then _ else _ :
    NodeCall member.shards _).read _).getD _ = _
  split
  · rfl
  · rw [window, List.length_mergeSort]
    rfl

theorem buildDigest_ensures {allowed : (Nat → Nat) → Prop} (round : Nat) :
    (member.buildDigest round).Ensures submit allowed
      (fun digest parties' => digest = member.digest parties round ∧ parties' = parties)
      (fun _ _ => False) parties := by
  refine .bind ((tagGenerations_ensures member).mono ?_ fun _ _ stopped => stopped)
  rintro _ _ ⟨rfl, rfl⟩
  rw [digest_eq]
  change Call.Ensures _ _ _ _ (if (member.offerable _).length ≤ maxTagSyncEntries then _ else _) _
  split
  · exact ⟨rfl, rfl⟩
  · refine ⟨?_, rfl⟩
    rw [window, List.length_mergeSort]
    rfl

end Reading

/-! ### What a node offers, merges and answers -/

section Exchange

variable (member : Member) {parties : Fin member.shards → Shard}

theorem mem_offerable (tags : ∀ j, (parties j).TagsOk) {tag : Bytes} {generation : Nat} :
    (tag, generation) ∈ member.offerable parties ↔
      0 < nodeLevel parties tag ∧ generation = nodeLevel parties tag := by
  rw [Member.offerable, List.mem_filter, (lists_known member tags).entry]
  constructor
  · rintro ⟨⟨-, rfl⟩, positive⟩
    exact ⟨by simpa using positive, rfl⟩
  · rintro ⟨positive, rfl⟩
    obtain ⟨j, found⟩ := exists_of_nodeLevel_pos positive
    exact ⟨⟨⟨j, by simp [found]⟩, rfl⟩, by simpa using positive⟩

/-- The names a digest offers from are the raised tags. -/
theorem offerable_names (tags : ∀ j, (parties j).TagsOk) :
    ((member.offerable parties).map Prod.fst).Nodup ∧
      ((member.offerable parties).map Prod.fst).toFinset = raisedTags parties := by
  refine ⟨(lists_known member tags).names.sublist (List.filter_sublist.map _), ?_⟩
  ext tag
  rw [List.mem_toFinset, List.mem_map, mem_raisedTags]
  constructor
  · rintro ⟨⟨name, generation⟩, mem, rfl⟩
    exact ((mem_offerable member tags).mp mem).1
  · exact fun positive => ⟨(tag, _), (mem_offerable member tags).mpr ⟨positive, rfl⟩, rfl⟩

theorem length_offerable (tags : ∀ j, (parties j).TagsOk) :
    (member.offerable parties).length = (raisedTags parties).card := by
  obtain ⟨distinct, names⟩ := offerable_names member tags
  rw [← names, List.toFinset_card_of_nodup distinct, List.length_map]

/-- The names of the table in the order its windows move over. -/
theorem sorted_names (tags : ∀ j, (parties j).TagsOk) :
    ((member.offerable parties).mergeSort fun a b => a.1 ≤ b.1).map Prod.fst =
      (raisedTags parties).sort (· ≤ ·) := by
  obtain ⟨distinct, names⟩ := offerable_names member tags
  have perm := (List.mergeSort_perm (member.offerable parties) fun a b => a.1 ≤ b.1).map Prod.fst
  have sorted : (((member.offerable parties).mergeSort fun a b => a.1 ≤ b.1).map
      Prod.fst).Pairwise (· ≤ ·) := by
    rw [List.pairwise_map]
    refine (List.pairwise_mergeSort (fun a b c => ?_) (fun a b => ?_) _).imp fun le => ?_
    · simpa using fun first second => le_trans first second
    · simpa using le_total a.1 b.1
    · simpa using le
  refine List.Perm.eq_of_pairwise' (r := (· ≤ ·)) sorted (Finset.pairwise_sort _ _) ?_
  refine (List.perm_ext_iff_of_nodup (perm.nodup_iff.mpr distinct)
    (Finset.sort_nodup _ _)).mpr fun tag => ?_
  rw [perm.mem_iff, Finset.mem_sort, ← names, List.mem_toFinset]

theorem digest_full (tags : ∀ j, (parties j).TagsOk) (round : Nat) :
    (member.digest parties round).1 = true ↔ (raisedTags parties).card ≤ maxTagSyncEntries := by
  rw [digest_eq, length_offerable member tags]
  split <;> simp_all

/-- A whole table, or the window of its round. -/
theorem digest_names (tags : ∀ j, (parties j).TagsOk) (round : Nat) :
    ((raisedTags parties).card ≤ maxTagSyncEntries →
      ∀ tag, tag ∈ (member.digest parties round).2.map Prod.fst ↔ tag ∈ raisedTags parties) ∧
    (maxTagSyncEntries < (raisedTags parties).card →
      (member.digest parties round).2.map Prod.fst =
        window ((raisedTags parties).sort (· ≤ ·)) maxTagSyncEntries round) := by
  rw [digest_eq, length_offerable member tags]
  refine ⟨fun small tag => ?_, fun large => ?_⟩
  · rw [if_pos small, ← (offerable_names member tags).2, List.mem_toFinset]
  · rw [if_neg (by omega), map_window, sorted_names member tags]

/-- A digest offers what the node has. -/
theorem mem_digest (tags : ∀ j, (parties j).TagsOk) {round : Nat} {tag : Bytes} {generation : Nat}
    (offered : (tag, generation) ∈ (member.digest parties round).2) :
    0 < nodeLevel parties tag ∧ generation = nodeLevel parties tag := by
  rw [digest_eq] at offered
  split at offered
  · exact (mem_offerable member tags).mp offered
  · exact (mem_offerable member tags).mp (List.mem_mergeSort.mp (mem_of_mem_window offered))

theorem length_digest_le (round : Nat) :
    (member.digest parties round).2.length ≤ maxTagSyncEntries := by
  rw [digest_eq]
  split
  · assumption
  · exact length_window_le _ _ _

/-- An answer tells of generations the node has. -/
theorem mem_behind {known entries : List (Bytes × Nat)} {full : Bool} (lists : Lists parties known)
    {tag : Bytes} {generation : Nat} (told : (tag, generation) ∈ Member.behind known full entries) :
    0 < generation ∧ generation = nodeLevel parties tag ∧
      (full = false → tag ∈ entries.map Prod.fst) := by
  rcases List.mem_append.mp (List.mem_of_mem_take told) with lower | unnamed
  · obtain ⟨entry, mem, told⟩ := List.mem_filterMap.mp lower
    obtain ⟨mine, found, told⟩ := Option.bind_eq_some_iff.mp told
    split at told
    · rename_i above
      obtain ⟨rfl, rfl⟩ := Prod.mk.inj (Option.some.inj told)
      obtain ⟨front, back, rfl, -⟩ := List.lookup_eq_some_iff.mp found
      have listed := (lists.entry entry.1 mine).mp (by simp)
      exact ⟨by omega, listed.2, fun _ => List.mem_map.mpr ⟨entry, mem, rfl⟩⟩
    · cases told
  · split at unnamed
    · rename_i whole
      obtain ⟨listed, positive⟩ := List.mem_filter.mp unnamed
      refine ⟨by simp_all, ((lists.entry _ _).mp listed).2, fun part => ?_⟩
      exact absurd (whole.symm.trans part) (by simp)
    · cases unnamed

/-- An answer leaves out nothing the node is ahead on of what it was offered. -/
theorem behind_tells {known entries : List (Bytes × Nat)} {full : Bool}
    (lists : Lists parties known) (short : entries.length ≤ maxTagSyncEntries) {tag : Bytes}
    {generation : Nat}
    (offered : (tag, generation) ∈ entries) (ahead : generation < nodeLevel parties tag) :
    (tag, nodeLevel parties tag) ∈ Member.behind known full entries := by
  obtain ⟨j, found⟩ := exists_of_nodeLevel_pos (Nat.zero_lt_of_lt ahead)
  have listed := (lists.entry tag (nodeLevel parties tag)).mpr ⟨⟨j, by simp [found]⟩, rfl⟩
  have lookup : known.lookup tag = some (nodeLevel parties tag) := by
    obtain ⟨front, back, rfl⟩ := List.append_of_mem listed
    refine List.lookup_eq_some_iff.mpr ⟨front, back, rfl, fun entry mem => ?_⟩
    have apart := List.nodup_append.mp (List.map_append ▸ lists.names)
    have ne := apart.2.2 entry.1 (List.mem_map_of_mem mem) tag (by simp)
    simpa using Ne.symm ne
  unfold Member.behind
  dsimp only
  rw [List.take_append]
  refine List.mem_append_left _ ?_
  rw [List.take_of_length_le ((List.length_filterMap_le _ _).trans short)]
  refine List.mem_filterMap.mpr ⟨(tag, generation), offered, ?_⟩
  simp [lookup, ahead]

/-- `apply_merges` merges every entry there is room for. -/
theorem applyMerges_merged (sound : RowsKept parties parties) {entries : List (Bytes × Nat)}
    (valid : ∀ entry ∈ entries, ValidName entry.1) (applied : Nat) :
    (member.applyMerges entries applied).Leads submit Room (Merged entries parties) parties := by
  induction entries generalizing parties applied with
  | nil => exact ⟨sound, by simp, fun _ => .inl rfl⟩
  | cons entry rest ih =>
    obtain ⟨name, generation⟩ := entry
    have later : ∀ entry ∈ rest, ValidName entry.1 :=
      fun entry mem => valid entry (List.mem_cons_of_mem _ mem)
    unfold Member.applyMerges
    split
    · rename_i zero
      refine (ih sound later applied).mono fun parties' merged => ⟨merged.kept, ?_, fun tag =>
        (merged.least tag).imp_right (List.mem_cons_of_mem _)⟩
      refine List.forall_mem_cons.mpr ⟨?_, merged.reached⟩
      exact zero ▸ Nat.zero_le _
    · have lifts : (member.store.mergeTagGeneration name generation).Leads submit Room
          (Lifted name generation parties) parties :=
        mergeShards_lifts member.store (valid (name, generation) List.mem_cons_self) _ _ _ sound
          (fun _ j out => absurd (List.mem_finRange j) out) fun absurd => (absurd rfl).elim
      exact (lifts.mono fun _ lifted => lifted.merged).attempt_bind fun _ parties' merged =>
        (ih merged.kept.again later _).mono fun _ => merged.cons

/-- A request is merged, and answered from what the node had before. -/
theorem tagSync_merged (sound : RowsKept parties parties) (full : Bool)
    {entries : List (Bytes × Nat)} (valid : ∀ entry ∈ entries, ValidName entry.1) :
    (member.tagSync full entries).Leads submit Room (Merged entries parties) parties := by
  refine tagGenerations_leads member fun known => ?_
  exact (applyMerges_merged member sound valid 0).bind (fun _ _ merged => merged)
    fun _ merged => merged

theorem applyMerges_ends {allowed : (Nat → Nat) → Prop} (entries : List (Bytes × Nat))
    (applied : Nat) :
    (member.applyMerges entries applied).Ensures submit allowed (fun _ _ => True)
      (fun _ _ => False) parties := by
  induction entries generalizing parties applied with
  | nil => trivial
  | cons entry rest ih =>
    unfold Member.applyMerges
    split
    · exact ih applied
    · exact .bind ((Call.ensures_attempt _ _ parties).imp (fun _ _ _ => ih _))

theorem tagSync_answers {allowed : (Nat → Nat) → Prop} (full : Bool)
    (entries : List (Bytes × Nat)) :
    (member.tagSync full entries).Ensures submit allowed
      (fun learned _ => learned = Member.behind (member.known parties) full entries)
      (fun _ _ => False) parties := by
  refine .bind ((tagGenerations_ensures member).mono ?_ fun _ _ stopped => stopped)
  rintro _ parties' ⟨rfl, rfl⟩
  exact .bind ((applyMerges_ends member entries 0).imp (fun _ _ _ => rfl))

end Exchange

/-! ### Rounds -/

namespace Cluster

variable {m : Nat} {members : Fin m → Member}

/-- Every job of an event finds room. -/
def RoomLeft (c : Cluster members) (event : ClusterEvent m × (Nat → Nat → Nat)) : Prop :=
  ∀ act ∈ c.act event.1, act.2.Granted submit Room event.2 (c.stores act.1)

/-- A round of a node with a peer, while `queue` other messages are under way: the
digest is built, the peer answers it, and the answer is merged. -/
def gossipRound (a b : Fin m) (queue round : Nat) (clocks : Fin 3 → Nat → Nat → Nat) :
    List (ClusterEvent m × (Nat → Nat → Nat)) :=
  [(.gossip a b round, clocks 0), (.deliver queue, clocks 1), (.deliver queue, clocks 2)]

/-- Consecutive rounds. -/
def gossipRounds (a b : Fin m) (queue first count : Nat)
    (clocks : Nat → Fin 3 → Nat → Nat → Nat) : List (ClusterEvent m × (Nat → Nat → Nat)) :=
  (List.range count).flatMap fun i => gossipRound a b queue (first + i) (clocks i)

section Steps

variable {c : Cluster members} {a b : Fin m}

theorem run_buildDigest (member : Member) (parties : Fin member.shards → Shard) (round : Nat)
    (clocks : Nat → Nat → Nat) :
    (member.buildDigest round).run submit clocks parties =
      (.ok (member.digest parties round), parties) := by
  have built : (member.buildDigest round).Ensures submit (fun _ => True) _ _ parties :=
    buildDigest_ensures member round
  obtain ⟨_, result, rfl, same⟩ := built.ends clocks fun _ => trivial
  exact Prod.ext result same

theorem step_gossip (round : Nat) (clocks : Nat → Nat → Nat) :
    c.step (.gossip a b round, clocks) = ⟨c.stores, c.messages ++
      [.request a b ((members a).digest (c.stores a) round).1
        ((members a).digest (c.stores a) round).2]⟩ := by
  simp only [Cluster.step, act]
  rw [Call.run_bind_pure, run_buildDigest]
  simp [left, Except.map, Except.toOption]

/-- A delivery whose call merges entries and sends what is known beforehand. -/
theorem step_deliver {i : Fin m} {α : Type} {call : NodeCall (members i).shards α}
    {send : α → List (Message m)} {index : Nat}
    (acts : c.act (.deliver index) = some ⟨i, call >>= fun answer => pure (send answer)⟩)
    {entries : List (Bytes × Nat)} {sent : List (Message m)}
    (merges : call.Leads submit Room (Merged entries (c.stores i)) (c.stores i))
    (answers : call.Ensures submit (fun _ => True) (fun answer _ => send answer = sent)
      (fun _ _ => False) (c.stores i))
    {clocks : Nat → Nat → Nat} (room : c.RoomLeft (.deliver index, clocks)) :
    ∃ parties, Merged entries (c.stores i) parties ∧
      c.step (.deliver index, clocks) = ⟨Function.update c.stores i parties,
        c.messages.eraseIdx index ++ sent⟩ := by
  have merged := (merges.bind_pure _).run (room _ acts)
  obtain ⟨_, result, rfl⟩ := answers.ends clocks fun _ => trivial
  rw [Call.run_bind_pure] at merged
  refine ⟨_, merged, ?_⟩
  simp only [Cluster.step, acts]
  rw [Call.run_bind_pure, result]
  simp [left, Except.map, Except.toOption]

/-- The delivery of a request. -/
theorem step_request {index : Nat} {full : Bool} {entries : List (Bytes × Nat)}
    (here : c.messages[index]? = some (.request a b full entries)) (sound : Kept c c)
    (valid : ∀ entry ∈ entries, ValidName entry.1) {clocks : Nat → Nat → Nat}
    (room : c.RoomLeft (.deliver index, clocks)) :
    ∃ parties, Merged entries (c.stores b) parties ∧
      c.step (.deliver index, clocks) = ⟨Function.update c.stores b parties,
        c.messages.eraseIdx index ++
          [.reply b a (Member.behind ((members b).known (c.stores b)) full entries)]⟩ := by
  refine step_deliver (by rw [act, here]) (tagSync_merged (members b) (sound b) full valid) ?_ room
  exact (tagSync_answers (members b) full entries).imp fun _ _ told => by rw [told]

/-- The delivery of a reply. -/
theorem step_reply {index : Nat} {learned : List (Bytes × Nat)}
    (here : c.messages[index]? = some (.reply b a learned)) (sound : Kept c c)
    (valid : ∀ entry ∈ learned, ValidName entry.1) {clocks : Nat → Nat → Nat}
    (room : c.RoomLeft (.deliver index, clocks)) :
    ∃ parties, Merged learned (c.stores a) parties ∧
      c.step (.deliver index, clocks) = ⟨Function.update c.stores a parties,
        c.messages.eraseIdx index⟩ := by
  rw [← List.append_nil (c.messages.eraseIdx index)]
  refine step_deliver (by rw [act, here]) (applyMerges_merged (members a) (sound a) valid 0) ?_ room
  exact (applyMerges_ends (members a) learned 0).imp fun _ _ _ => rfl

/-- What a round leaves of the generations of its two ends. -/
structure Exchanged (a b : Fin m) (full : Bool) (offered : List Bytes) (c c' : Cluster members) :
    Prop where
  kept : Kept c c'
  messages : c'.messages = c.messages
  met : ∀ tag ∈ offered, ∀ i ∈ [a, b], nodeLevel (c'.stores i) tag =
    max (nodeLevel (c.stores a) tag) (nodeLevel (c.stores b) tag)
  below : ∀ tag, ∀ i ∈ [a, b], nodeLevel (c'.stores i) tag ≤
    max (nodeLevel (c.stores a) tag) (nodeLevel (c.stores b) tag)
  aside : full = false → raisedTags (c'.stores a) = raisedTags (c.stores a)

theorem validName_of_pos {n : Nat} {parties : Fin n → Shard} (sound : RowsKept parties parties)
    {tag : Bytes} (positive : 0 < nodeLevel parties tag) : ValidName tag := by
  obtain ⟨j, found⟩ := exists_of_nodeLevel_pos positive
  exact sound.names j tag (by simp [found])

/-- What merging an offer at one end and its answer at the other comes to. -/
theorem exchange_meets {n k : Nat} {near near' : Fin n → Shard} {far far' : Fin k → Shard}
    {entries learned : List (Bytes × Nat)} (mergedFar : Merged entries far far')
    (mergedNear : Merged learned near near')
    (offers : ∀ entry ∈ entries, entry.2 = nodeLevel near entry.1)
    (tells : ∀ entry ∈ learned, entry.2 = nodeLevel far entry.1)
    (ahead : ∀ entry ∈ entries, entry.2 < nodeLevel far entry.1 →
      (entry.1, nodeLevel far entry.1) ∈ learned) (tag : Bytes) :
    (nodeLevel near' tag ≤ max (nodeLevel near tag) (nodeLevel far tag) ∧
      nodeLevel far' tag ≤ max (nodeLevel near tag) (nodeLevel far tag)) ∧
    (tag ∈ entries.map Prod.fst →
      nodeLevel near' tag = max (nodeLevel near tag) (nodeLevel far tag) ∧
        nodeLevel far' tag = max (nodeLevel near tag) (nodeLevel far tag)) := by
  have nearUp := mergedNear.kept.nodeLevel_le tag
  have farUp := mergedFar.kept.nodeLevel_le tag
  have nearLeast : nodeLevel near' tag = nodeLevel near tag ∨
      nodeLevel near' tag = nodeLevel far tag :=
    (mergedNear.least tag).imp_right fun mem => tells _ mem
  have farLeast : nodeLevel far' tag = nodeLevel far tag ∨
      nodeLevel far' tag = nodeLevel near tag :=
    (mergedFar.least tag).imp_right fun mem => offers _ mem
  refine ⟨by omega, fun offered => ?_⟩
  obtain ⟨⟨name, generation⟩, mem, rfl⟩ := List.mem_map.mp offered
  obtain rfl : generation = nodeLevel near name := offers _ mem
  have reached := mergedFar.reached _ mem
  dsimp only at reached nearUp farUp nearLeast farLeast ⊢
  rcases Nat.lt_or_ge (nodeLevel near name) (nodeLevel far name) with lower | higher
  · have learns := mergedNear.reached _ (ahead _ mem lower)
    dsimp only at learns
    omega
  · omega

theorem eraseIdx_length {α : Type} (items : List α) (last : α) :
    (items ++ [last]).eraseIdx items.length = items := by
  simp [List.eraseIdx_append_of_length_le]

/-- One round. -/
theorem round_exchanges (sound : Kept c c) (apart : a ≠ b) {round : Nat}
    {clocks : Fin 3 → Nat → Nat → Nat}
    (room : Along step RoomLeft c (gossipRound a b c.messages.length round clocks)) :
    Exchanged a b ((members a).digest (c.stores a) round).1
      (((members a).digest (c.stores a) round).2.map Prod.fst) c
      (run step c (gossipRound a b c.messages.length round clocks)) := by
  obtain ⟨-, second, third, -⟩ := room
  simp only [gossipRound, run_cons, run_nil]
  rw [step_gossip] at second third ⊢
  have offers : ∀ entry ∈ ((members a).digest (c.stores a) round).2,
      0 < nodeLevel (c.stores a) entry.1 ∧ entry.2 = nodeLevel (c.stores a) entry.1 :=
    fun entry mem => mem_digest (members a) (sound a).tags mem
  have short : ((members a).digest (c.stores a) round).2.length ≤ maxTagSyncEntries :=
    length_digest_le (members a) round
  generalize (members a).digest (c.stores a) round = digest at *
  obtain ⟨full, entries⟩ := digest
  dsimp only at *
  -- the peer merges the digest and answers it
  obtain ⟨far, mergedFar, answered⟩ := step_request
    (c := ⟨c.stores, c.messages ++ [.request a b full entries]⟩) List.getElem?_concat_length sound
    (fun entry mem => validName_of_pos (sound a) (offers entry mem).1) second
  rw [answered, eraseIdx_length] at third ⊢
  dsimp only at third ⊢
  have lists := lists_known (members b) (sound b).tags
  have ahead : ∀ entry ∈ entries, entry.2 < nodeLevel (c.stores b) entry.1 →
      (entry.1, nodeLevel (c.stores b) entry.1) ∈
        Member.behind ((members b).known (c.stores b)) full entries :=
    fun entry mem lower => behind_tells _ lists short mem lower
  have tells : ∀ entry ∈ Member.behind ((members b).known (c.stores b)) full entries,
      0 < entry.2 ∧ entry.2 = nodeLevel (c.stores b) entry.1 ∧
        (full = false → entry.1 ∈ entries.map Prod.fst) :=
    fun entry mem => mem_behind _ lists mem
  generalize Member.behind ((members b).known (c.stores b)) full entries = learned at *
  -- the answer is merged
  have sound' : Kept c ⟨Function.update c.stores b far, c.messages⟩ := by
    intro i
    by_cases here : i = b
    · subst here
      simpa using mergedFar.kept
    · simpa [here] using sound i
  obtain ⟨near, mergedNear, learnt⟩ := step_reply
    (c := ⟨Function.update c.stores b far, c.messages ++ [.reply b a learned]⟩)
    List.getElem?_concat_length sound'.again (fun entry mem => validName_of_pos (sound b)
      ((tells entry mem).2.1 ▸ (tells entry mem).1)) third
  rw [learnt, eraseIdx_length]
  simp only [Function.update_of_ne apart] at mergedNear
  have meets := exchange_meets mergedFar mergedNear (fun entry mem => (offers entry mem).2)
    (fun entry mem => (tells entry mem).2.1) ahead
  refine ⟨fun i => ?_, rfl, fun tag offered i end_ => ?_, fun tag i end_ => ?_, fun part => ?_⟩
  · by_cases here : i = a
    · subst here
      simpa using mergedNear.kept
    · simpa [here] using sound' i
  · have both := (meets tag).2 offered
    rcases List.mem_pair.mp end_ with rfl | rfl
    · simpa using both.1
    · simpa [Ne.symm apart] using both.2
  · have both := (meets tag).1
    rcases List.mem_pair.mp end_ with rfl | rfl
    · simpa using both.1
    · simpa [Ne.symm apart] using both.2
  · ext tag
    rw [mem_raisedTags, mem_raisedTags]
    simp only [Function.update_self]
    refine ⟨fun raised => ?_, fun raised => raised.trans_le (mergedNear.kept.nodeLevel_le tag)⟩
    rcases mergedNear.least tag with same | learned
    · exact same ▸ raised
    · obtain ⟨entry, mem, rfl⟩ := List.mem_map.mp ((tells _ learned).2.2 part)
      exact (offers entry mem).1

/-- The cluster after some rounds of a node with a peer. -/
def gossiped (c : Cluster members) (a b : Fin m) (first : Nat)
    (clocks : Nat → Fin 3 → Nat → Nat → Nat) (count : Nat) : Cluster members :=
  run step c (gossipRounds a b c.messages.length first count clocks)

/-- The digest the node offers in the round after those. -/
def offered (c : Cluster members) (a b : Fin m) (first : Nat)
    (clocks : Nat → Fin 3 → Nat → Nat → Nat) (count : Nat) : Bool × List (Bytes × Nat) :=
  (members a).digest ((c.gossiped a b first clocks count).stores a) (first + count)

/-- What some rounds leave of the generations of their two ends. -/
structure Gossiped (a b : Fin m) (c c' : Cluster members) : Prop where
  kept : Kept c c'
  messages : c'.messages = c.messages
  below : ∀ tag, ∀ i ∈ [a, b], nodeLevel (c'.stores i) tag ≤
    max (nodeLevel (c.stores a) tag) (nodeLevel (c.stores b) tag)
  large : maxTagSyncEntries < (raisedTags (c.stores a)).card →
    raisedTags (c'.stores a) = raisedTags (c.stores a)

variable {first : Nat} {clocks : Nat → Fin 3 → Nat → Nat → Nat}

theorem Gossiped.refl (sound : Kept c c) : Gossiped a b c c := by
  refine ⟨sound, rfl, fun tag i end_ => ?_, fun _ => rfl⟩
  rcases List.mem_pair.mp end_ with rfl | rfl
  · exact le_max_left _ _
  · exact le_max_right _ _

/-- A round after others. -/
theorem Gossiped.round {c' c'' : Cluster members} (before : Gossiped a b c c') {round : Nat}
    (next : Exchanged a b ((members a).digest (c'.stores a) round).1
      (((members a).digest (c'.stores a) round).2.map Prod.fst) c' c'') :
    Gossiped a b c c'' := by
  refine ⟨fun i => (before.kept i).trans (next.kept i), next.messages.trans before.messages,
    fun tag i end_ => ?_, fun many => ?_⟩
  · exact (next.below tag i end_).trans
      (max_le (before.below tag a (by simp)) (before.below tag b (by simp)))
  · refine (next.aside ?_).trans (before.large many)
    rw [← Bool.not_eq_true, digest_full (members a) (before.kept a).again.tags, before.large many]
    omega

/-- The ends stay met. -/
theorem Gossiped.met {c' c'' : Cluster members} (whole : Gossiped a b c c'')
    (later : Kept c' c'') {tag : Bytes}
    (met : ∀ i ∈ [a, b], nodeLevel (c'.stores i) tag =
      max (nodeLevel (c.stores a) tag) (nodeLevel (c.stores b) tag)) :
    ∀ i ∈ [a, b], nodeLevel (c''.stores i) tag =
      max (nodeLevel (c.stores a) tag) (nodeLevel (c.stores b) tag) :=
  fun i end_ => le_antisymm (whole.below tag i end_)
    (met i end_ ▸ (later i).nodeLevel_le tag)

theorem gossipRounds_succ (queue count : Nat) :
    gossipRounds a b queue first (count + 1) clocks =
      gossipRounds a b queue first count clocks ++
        gossipRound a b queue (first + count) (clocks count) := by
  simp [gossipRounds, List.range_succ]

/-- Rounds one after another. -/
theorem rounds_gossip (sound : Kept c c) (apart : a ≠ b) {count : Nat}
    (room : Along step RoomLeft c (gossipRounds a b c.messages.length first count clocks)) :
    Gossiped a b c (c.gossiped a b first clocks count) ∧
    ∀ k < count, ∀ tag ∈ (c.offered a b first clocks k).2.map Prod.fst, ∀ i ∈ [a, b],
      nodeLevel ((c.gossiped a b first clocks count).stores i) tag =
        max (nodeLevel (c.stores a) tag) (nodeLevel (c.stores b) tag) := by
  induction count with
  | zero => exact ⟨.refl sound, by simp⟩
  | succ count ih =>
    rw [gossipRounds_succ] at room
    obtain ⟨roomBefore, roomNext⟩ := along_append.mp room
    obtain ⟨before, met⟩ := ih roomBefore
    have same : (c.gossiped a b first clocks count).messages.length = c.messages.length := by
      rw [before.messages]
    change Along step RoomLeft (c.gossiped a b first clocks count) _ at roomNext
    rw [← same] at roomNext
    have next := round_exchanges before.kept.again apart roomNext
    have stepped : c.gossiped a b first clocks (count + 1) =
        run step (c.gossiped a b first clocks count)
          (gossipRound a b (c.gossiped a b first clocks count).messages.length (first + count)
            (clocks count)) := by
      rw [same, gossiped, gossipRounds_succ, run_append]
      rfl
    rw [← stepped] at next
    have whole := before.round next
    refine ⟨whole, fun k lt tag offered => ?_⟩
    rcases Nat.lt_succ_iff_lt_or_eq.mp lt with earlier | rfl
    · exact whole.met next.kept (met k earlier tag offered)
    · refine fun i end_ => le_antisymm (whole.below tag i end_) ?_
      rw [next.met tag offered i end_]
      exact max_le_max ((before.kept a).nodeLevel_le tag) ((before.kept b).nodeLevel_le tag)

/-- The rounds up to one of them. -/
theorem rounds_upto (sound : Kept c c) (apart : a ≠ b) {count k : Nat}
    (room : Along step RoomLeft c (gossipRounds a b c.messages.length first count clocks))
    (le : k ≤ count) : Gossiped a b c (c.gossiped a b first clocks k) := by
  obtain ⟨rest, rfl⟩ := Nat.exists_eq_add_of_le le
  rw [gossipRounds, List.range_add, List.flatMap_append] at room
  exact (rounds_gossip sound apart (along_append.mp room).1).1

/-- A small table takes one round, in the state the rounds start from. -/
theorem rounds_small (small : (raisedTags (c.stores a)).card ≤ maxTagSyncEntries) {k : Nat}
    (among : k < (raisedTags (c.stores a)).card ⌈/⌉ maxTagSyncEntries) : k = 0 := by
  rw [Nat.ceilDiv_eq_add_pred_div] at among
  simp only [maxTagSyncEntries] at small among
  omega

/-- Before each of the rounds the table is whole or too large as it was at first. -/
theorem rounds_full (sound : Kept c c) (apart : a ≠ b)
    (room : Along step RoomLeft c (gossipRounds a b c.messages.length first
      ((raisedTags (c.stores a)).card ⌈/⌉ maxTagSyncEntries) clocks)) {k : Nat}
    (among : k < (raisedTags (c.stores a)).card ⌈/⌉ maxTagSyncEntries) :
    (c.offered a b first clocks k).1 = true ↔
      (raisedTags (c.stores a)).card ≤ maxTagSyncEntries := by
  have before := rounds_upto sound apart room among.le
  rw [offered, digest_full (members a) (before.kept a).again.tags]
  rcases Nat.lt_or_ge maxTagSyncEntries (raisedTags (c.stores a)).card with large | small
  · rw [before.large large]
  · obtain rfl := rounds_small small among
    rfl

/-- Enough rounds for the table offer every tag of it. -/
theorem rounds_offer (sound : Kept c c) (apart : a ≠ b)
    (room : Along step RoomLeft c (gossipRounds a b c.messages.length first
      ((raisedTags (c.stores a)).card ⌈/⌉ maxTagSyncEntries) clocks)) {tag : Bytes}
    (raised : 0 < nodeLevel (c.stores a) tag) :
    ∃ k < (raisedTags (c.stores a)).card ⌈/⌉ maxTagSyncEntries,
      tag ∈ (c.offered a b first clocks k).2.map Prod.fst := by
  have mem := mem_raisedTags.mpr raised
  rcases Nat.lt_or_ge maxTagSyncEntries (raisedTags (c.stores a)).card with large | small
  · have listed : tag ∈ (raisedTags (c.stores a)).sort (· ≤ ·) := (Finset.mem_sort _).mpr mem
    have positive : 0 < maxTagSyncEntries := by decide
    obtain ⟨k, among, found⟩ := windows_cover positive (by simpa using large.le) first listed
    rw [Finset.length_sort] at among
    refine ⟨k, among, ?_⟩
    have before := rounds_upto sound apart room among.le
    have names := (digest_names (members a) (before.kept a).again.tags (first + k)).2
    rw [before.large large] at names
    rw [offered, names large]
    exact found
  · have positive := Finset.card_pos.mpr ⟨tag, mem⟩
    refine ⟨0, ?_, ((digest_names (members a) (sound a).tags _).1 small tag).mpr mem⟩
    rw [Nat.ceilDiv_eq_add_pred_div]
    simp only [maxTagSyncEntries]
    omega

end Steps

/-! ### Entries without a generation -/

theorem submit_mergeTag_other {sh : Shard} {clock : Nat → Nat} {tag other : Bytes}
    {generation : Nat} (ne : tag ≠ other) (valid : NamesValid sh) :
    rowGeneration (submit clock (.mergeTag other generation) sh).2 tag = rowGeneration sh tag := by
  cases found : rowGeneration sh other with
  | none =>
    rcases submit_mergeTag_absent clock found generation with ⟨-, -, rows⟩ | ⟨-, same⟩
    · rw [rows, Function.update_of_ne ne]
    · rw [same]
  | some held => rw [(submit_mergeTag clock valid found generation).2, Function.update_of_ne ne]

/-- The merges of other tags. -/
def MergesOther (tag : Bytes) (op : WriteOp) : Prop :=
  ∃ other generation, op = .mergeTag other generation ∧ tag ≠ other

theorem applyMerges_others (member : Member) {tag : Bytes} {entries : List (Bytes × Nat)}
    (zero : ∀ entry ∈ entries, entry.1 = tag → entry.2 = 0) (applied : Nat) :
    (member.applyMerges entries applied).Only (MergesOther tag) := by
  induction entries generalizing applied with
  | nil => trivial
  | cons entry rest ih =>
    obtain ⟨name, generation⟩ := entry
    have later := ih fun entry mem => zero entry (List.mem_cons_of_mem _ mem)
    unfold Member.applyMerges
    split
    · exact later applied
    · rename_i positive
      have ne : tag ≠ name := fun same =>
        positive (zero (name, generation) List.mem_cons_self same.symm)
      exact (mergeTagGeneration_only member.store (fun g => ⟨name, g, rfl, ne⟩)
        generation).attempt.bind fun _ => later _

/-- A call that merges other tags leaves the rows of a tag alone. -/
theorem mergesOther_run {n : Nat} {α : Type} {call : NodeCall n α} {tag : Bytes}
    (only : call.Only (MergesOther tag)) {parties : Fin n → Shard}
    (valid : ∀ j, NamesValid (parties j)) (clocks : Nat → Nat → Nat) (j : Fin n) :
    rowGeneration ((call.run submit clocks parties).2 j) tag = rowGeneration (parties j) tag := by
  have keeps : ∀ clock op sh, MergesOther tag op →
      NamesValid sh ∧ rowGeneration sh tag = rowGeneration (parties j) tag →
      NamesValid (submit clock op sh).2 ∧
        rowGeneration (submit clock op sh).2 tag = rowGeneration (parties j) tag := by
    rintro clock _ sh ⟨other, generation, rfl, ne⟩ ⟨names, rows⟩
    have merging : Tagging (.mergeTag other generation) := trivial
    exact ⟨submit_names merging names, (submit_mergeTag_other ne names).trans rows⟩
  have ends : call.Ensures submit (fun _ => True) _ _ parties :=
    only.ensures keeps ⟨valid j, rfl⟩
  exact (ends.left clocks fun _ => trivial).2

/-! ### Convergence -/

/-- From every state a run in which ids do not run out leads to: of the tags a node has
at a generation above `0`, each is offered in one of the next rounds, if they are enough
for the table; and a tag that is offered ends at the higher of the two generations at
both ends. A digest is whole just when the table fits, no generation falls, and entries
at generation `0` register nothing. -/
theorem gossip_converges (members : Fin m → Member)
    (configs : ∀ i, Fin (members i).shards → Config)
    (earlier : List (ClusterEvent m × (Nat → Nat → Nat)))
    (left : Along step IdsLeft (fresh configs) earlier) (c : Cluster members)
    (reached : after configs earlier = c) (a b : Fin m) (apart : a ≠ b) (first rounds : Nat)
    (enough : rounds = (raisedTags (c.stores a)).card ⌈/⌉ maxTagSyncEntries)
    (clocks : Nat → Fin 3 → Nat → Nat → Nat)
    (room : Along step RoomLeft c
      (gossipRounds a b c.messages.length first rounds clocks)) :
    (∀ k < rounds,
      ((c.gossiped a b first clocks k).step (.gossip a b (first + k), clocks k 0)).messages =
        c.messages ++ [.request a b (c.offered a b first clocks k).1
          (c.offered a b first clocks k).2] ∧
      ((c.offered a b first clocks k).1 = true ↔
        (raisedTags (c.stores a)).card ≤ maxTagSyncEntries)) ∧
    (∀ tag, 0 < nodeLevel (c.stores a) tag →
      ∃ k < rounds, tag ∈ (c.offered a b first clocks k).2.map Prod.fst) ∧
    (c.gossiped a b first clocks rounds).messages = c.messages ∧
    (∀ k < rounds, ∀ tag ∈ (c.offered a b first clocks k).2.map Prod.fst, ∀ i ∈ [a, b],
      nodeLevel ((c.gossiped a b first clocks rounds).stores i) tag =
        max (nodeLevel (c.stores a) tag) (nodeLevel (c.stores b) tag)) ∧
    (∀ k ≤ rounds, ∀ i j tag held, rowGeneration (c.stores i j) tag = some held →
      ∃ held', rowGeneration ((c.gossiped a b first clocks k).stores i j) tag = some held' ∧
        held ≤ held') ∧
    (∀ i full entries tag times, (∀ entry ∈ entries, entry.1 = tag → entry.2 = 0) → ∀ j,
      rowGeneration ((((members i).tagSync full entries).run submit times (c.stores i)).2 j) tag =
        rowGeneration (c.stores i j) tag ∧
      rowGeneration ((((members i).applyMerges entries 0).run submit times (c.stores i)).2 j) tag =
        rowGeneration (c.stores i j) tag) := by
  subst reached enough
  have sound := (kept_run (kept_fresh configs) left).again
  change Kept (after configs earlier) (after configs earlier) at sound
  obtain ⟨whole, met⟩ := rounds_gossip sound apart room
  refine ⟨fun k among => ⟨?_, rounds_full sound apart room among⟩,
    fun tag raised => rounds_offer sound apart room raised, whole.messages, met,
    fun k le i j tag held found => ?_, fun i full entries tag times zero j => ⟨?_, ?_⟩⟩
  · rw [step_gossip]
    simp only [(rounds_upto sound apart room among.le).messages]
    rfl
  · exact ((rounds_upto sound apart room le).kept i).reached ⟨held, found, le_rfl⟩
  · have only : ((members i).tagSync full entries).Only (MergesOther tag) :=
      (tagGenerations_only _).bind fun _ => (applyMerges_others _ zero 0).bind fun _ => trivial
    exact mergesOther_run only (sound i).names times j
  · exact mergesOther_run (applyMerges_others _ zero 0) (sound i).names times j

section Examples

instance decidableRoomLeft (c : Cluster members) (event : ClusterEvent m × (Nat → Nat → Nat)) :
    Decidable (c.RoomLeft event) :=
  inferInstanceAs (Decidable (∀ act ∈ c.act event.1,
    act.2.Granted submit Room event.2 (c.stores act.1)))

/-- A node has invalidated the tag `[7]`, and the other has not heard of it. -/
def aheadRun (node : Fin 2) : List (ClusterEvent 2 × (Nat → Nat → Nat)) :=
  standing [tagged node [2], .deleteByTag node [7]]

/-- One round of node `0` with node `1`. -/
theorem gossip_converges_pair :
    nodeLevel ((after pairConfigs (aheadRun 0) : Cluster pair).stores 0) [7] = 1 ∧
    nodeLevel ((after pairConfigs (aheadRun 0) : Cluster pair).stores 1) [7] = 0 ∧
    ∃ k < 1, [7] ∈ ((after pairConfigs (aheadRun 0) : Cluster pair).offered 0 1 0
      (fun _ _ _ _ => 100) k).2.map Prod.fst :=
  ⟨by decide +kernel, by decide +kernel,
    (gossip_converges pair pairConfigs (aheadRun 0) (by decide +kernel) _ rfl 0 1 (by decide) 0 1
      (by decide +kernel) (fun _ _ _ _ => 100) (by decide +kernel)).2.1 [7] (by decide +kernel)⟩

end Examples

end Cluster

end Vash.Server
