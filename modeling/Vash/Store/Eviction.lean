import Vash.Store.IndexRuns

/-!
# The order of eviction

An eviction takes rows from the front of `exp`, where the buckets ascend, and
deletes the record of each row that still stands for one. When every record has
its row (`Tables.Indexed`), the records go in the order of their buckets, and those
that never expire go last.

* `evict_ordered_iff` — no record is spared before one that goes, and no more go than
  the budget allows, unless it is zero and the first row stands for a record.
* `evict_without_budget` — such an eviction.
-/

namespace Vash.Store

open Library

/-! ### The rows taken -/

/-- The row stands for the record under its key. -/
def Tables.StandsFor (c : Config) (t : Tables) (row : IndexKey × Bytes) : Prop :=
  ∃ r, t.main.get row.2 = some r ∧
    bucketFor r.header.expiresAtMs c.bucketGranularityMs = (ofLex row.1).1

/-- The rows an eviction takes. -/
def Tables.front (t : Tables) (budget : Nat) : List (IndexKey × Bytes) :=
  t.exp.rows.take (max budget 1)

/-! ### The records that go -/

section Evict

variable {eng : Engine} {s s' : Txn} {budget : Nat}

/-- The record under `key` went with one of the rows. -/
def Tables.Went (c : Config) (t : Tables) (rows : List (IndexKey × Bytes)) (key : Bytes) : Prop :=
  ∃ row ∈ rows, row.2 = key ∧ t.StandsFor c row

/-- The records are those of `t` without those that went with the rows. -/
def Tables.WithoutThose (c : Config) (t : Tables) (rows : List (IndexKey × Bytes))
    (main : Table Bytes Record) : Prop :=
  ∀ key, (t.Went c rows key → main.get key = none) ∧
    (¬ t.Went c rows key → main.get key = t.main.get key)

/-- One more row: its record goes if it is still there. -/
theorem drainEntry_without {t : Tables} {rows : List (IndexKey × Bytes)} {now : Nat}
    (row : IndexKey × Bytes) (held : t.WithoutThose eng.config rows s.tables.main) :
    wp (drainEntry eng .anything now row)
      (fun _ s' => t.WithoutThose eng.config (rows ++ [row]) s'.tables.main) Breaks s := by
  have went : ∀ key, t.Went eng.config (rows ++ [row]) key ↔
      t.Went eng.config rows key ∨ row.2 = key ∧ t.StandsFor eng.config row := by
    intro key
    simp only [Tables.Went, List.mem_append, List.mem_singleton, or_and_right, exists_or,
      exists_eq_left]
  refine wp.bind (takeVictim_spec row) fun _ s₁ outcome => ?_
  refine wp.bind update_breaks fun _ s₂ h₂ => wp.pure ?_
  rw [h₂.tables]
  rcases outcome with ⟨r, stored, may, h₁⟩ | ⟨mayNot, h₁⟩
  · have current := of_decide_eq_true (Bool.and_eq_true_iff.mp may).1
    rw [h₁.tables]
    intro key
    rw [Table.get_delete]
    by_cases here : key = row.2
    · subst here
      -- The record is still the one the eviction began with.
      have before : ¬ t.Went eng.config rows row.2 := fun gone => by
        rw [(held row.2).1 gone] at stored
        cases stored
      have stands : t.StandsFor eng.config row :=
        ⟨r, ((held row.2).2 before).symm.trans stored, current⟩
      rw [if_pos rfl]
      exact ⟨fun _ => rfl, fun stays => absurd ((went row.2).mpr (.inr ⟨rfl, stands⟩)) stays⟩
    · rw [if_neg here]
      have same : t.Went eng.config (rows ++ [row]) key ↔ t.Went eng.config rows key := by
        rw [went]
        exact or_iff_left fun other => here other.1.symm
      rw [same]
      exact held key
  · rw [h₁.tables]
    intro key
    rw [went]
    refine ⟨?_, fun stays => (held key).2 fun gone => stays (.inl gone)⟩
    rintro (gone | ⟨rfl, r, stored, current⟩)
    · exact (held key).1 gone
    · by_cases gone : t.Went eng.config rows row.2
      · exact (held row.2).1 gone
      · have may := mayNot r (((held row.2).2 gone).trans stored)
        simp [mayTake, current] at may

/-- An eviction deletes the records of the rows it takes. -/
theorem evict_main :
    wp (evict eng budget) (fun _ s' =>
      s.tables.WithoutThose eng.config (s.tables.front budget) s'.tables.main) Breaks s := by
  refine drainExpiryIndex_of_entries (fun _ _ breaks => breaks) fun s₁ agrees => ?_
  rw [pickVictims_anything]
  refine wp.forEach (fun done _ (s' : Txn) => s.tables.WithoutThose eng.config done
    s'.tables.main) ?_ fun done row _ _ s' _ held => drainEntry_without row held
  intro key
  rw [agrees.tables]
  simp [Tables.Went]

/-! ### Order and number -/

/-- The keys of the records that are in `t` and not in `t'`. -/
def Tables.removed (t t' : Tables) : List Bytes :=
  t.main.keys.filter fun key => (t'.main.get key).isNone

theorem Tables.mem_removed {t t' : Tables} {key : Bytes} :
    key ∈ t.removed t' ↔ (∃ r, t.main.get key = some r) ∧ t'.main.get key = none := by
  rw [Tables.removed, List.mem_filter, Table.mem_keys, Option.isNone_iff_eq_none]

theorem mem_removed_iff_went {c : Config} {t t' : Tables} {rows : List (IndexKey × Bytes)}
    (without : t.WithoutThose c rows t'.main) {key : Bytes} :
    key ∈ t.removed t' ↔ t.Went c rows key := by
  rw [Tables.mem_removed]
  constructor
  · rintro ⟨⟨r, stored⟩, gone⟩
    by_contra stays
    rw [(without key).2 stays, stored] at gone
    cases gone
  · intro went
    have gone := (without key).1 went
    obtain ⟨row, -, rfl, r, stored, -⟩ := went
    exact ⟨⟨r, stored⟩, gone⟩

/-- No more records go than rows are taken. -/
theorem length_removed_le {c : Config} {t t' : Tables} {rows : List (IndexKey × Bytes)}
    (without : t.WithoutThose c rows t'.main) : (t.removed t').length ≤ rows.length := by
  have once : (t.removed t').Nodup := t.main.keys_nodup.filter _
  have within : t.removed t' ⊆ rows.map Prod.snd := by
    intro key mem
    obtain ⟨row, listed, rfl, -⟩ := (mem_removed_iff_went without).mp mem
    exact List.mem_map_of_mem listed
  exact (once.subperm within).length_le.trans (by simp)

/-- Whatever has a smaller bucket than a record that goes, goes too. -/
theorem front_downward {c : Config} {t : Tables} (indexed : t.Indexed c)
    {row : IndexKey × Bytes} (taken : row ∈ t.front budget) {key : Bytes} {r : Record}
    (stored : t.main.get key = some r)
    (smaller : bucketFor r.header.expiresAtMs c.bucketGranularityMs < (ofLex row.1).1) :
    t.Went c (t.front budget) key := by
  have listed : (encodeKey c r.header.expiresAtMs key, key) ∈ t.exp.rows :=
    Table.get_eq_some_iff.mp (indexed key r stored)
  have before : encodeKey c r.header.expiresAtMs key < row.1 := Prod.Lex.lt_iff.mpr (.inl smaller)
  refine ⟨(encodeKey c r.header.expiresAtMs key, key), ?_, rfl, r, stored, rfl⟩
  -- The rows ascend, so a row before one that is taken is taken.
  by_contra spared
  have behind : (encodeKey c r.header.expiresAtMs key, key) ∈
      t.exp.rows.drop (max budget 1) := by
    rw [← List.take_append_drop (max budget 1) t.exp.rows, List.mem_append] at listed
    exact listed.resolve_left spared
  have ascending := t.exp.sorted
  rw [← List.take_append_drop (max budget 1) t.exp.rows] at ascending
  have after := (List.pairwise_append.mp ascending).2.2 row taken _ behind
  exact lt_asymm before after

/-- The first row of the index stands for a record. -/
def Tables.FrontStands (c : Config) (t : Tables) : Prop :=
  ∃ row, t.exp.rows.head? = some row ∧ t.StandsFor c row

/-- Without a budget, just the record of the first row goes. -/
theorem removed_eq_nil_iff {c : Config} {t t' : Tables}
    (without : t.WithoutThose c (t.front 0) t'.main) :
    t.removed t' = [] ↔ ¬ t.FrontStands c := by
  have first : t.front 0 = t.exp.rows.head?.toList := by
    cases rows : t.exp.rows <;> simp [Tables.front, rows]
  rw [List.eq_nil_iff_forall_not_mem]
  constructor
  · rintro none ⟨row, head, stands⟩
    refine none row.2 ((mem_removed_iff_went without).mpr ⟨row, ?_, rfl, stands⟩)
    simp [first, head]
  · rintro stale key mem
    obtain ⟨row, listed, -, stands⟩ := (mem_removed_iff_went without).mp mem
    rw [first, Option.mem_toList] at listed
    exact stale ⟨row, listed, stands⟩

/-- From a state in which every record has its row, an eviction removes no more records than
its budget exactly when it has one or the first row stands for no record; it leaves no
record with a smaller bucket than one it removes, and so a record that never expires goes
only when all those with an earlier bucket have gone. -/
theorem evict_ordered_iff {stats : SweepStats} (indexed : s.tables.Indexed eng.config)
    (ran : evict eng budget s = .ok stats s') :
    ((s.tables.removed s'.tables).length ≤ budget ↔
      0 < budget ∨ ¬ s.tables.FrontStands eng.config) ∧
    (∀ gone ∈ s.tables.removed s'.tables, ∀ left r r',
      s.tables.main.get gone = some r → s'.tables.main.get left = some r' →
        bucketFor r.header.expiresAtMs eng.config.bucketGranularityMs ≤
          bucketFor r'.header.expiresAtMs eng.config.bucketGranularityMs) ∧
    (∀ gone ∈ s.tables.removed s'.tables, ∀ r, s.tables.main.get gone = some r →
      r.header.expiresAtMs = never → ∀ key r', s.tables.main.get key = some r' →
        bucketFor r'.header.expiresAtMs eng.config.bucketGranularityMs < u64Max →
          key ∈ s.tables.removed s'.tables) := by
  have without := evict_main.of_ok ran
  have early : ∀ gone ∈ s.tables.removed s'.tables, ∀ r, s.tables.main.get gone = some r →
      ∀ key r', s.tables.main.get key = some r' →
        bucketFor r'.header.expiresAtMs eng.config.bucketGranularityMs <
          bucketFor r.header.expiresAtMs eng.config.bucketGranularityMs →
            key ∈ s.tables.removed s'.tables := by
    intro gone mem r stored key r' stored' smaller
    obtain ⟨row, taken, rfl, r'', same, current⟩ := (mem_removed_iff_went without).mp mem
    obtain rfl := Option.some.inj (stored.symm.trans same)
    rw [mem_removed_iff_went without]
    exact front_downward indexed taken stored' (current ▸ smaller)
  refine ⟨?_, ?_, ?_⟩
  · by_cases positive : 0 < budget
    · simp only [positive, true_or, iff_true]
      refine (length_removed_le without).trans ((List.length_take_le _ _).trans ?_)
      omega
    · obtain rfl : budget = 0 := by omega
      rw [Nat.le_zero, List.length_eq_zero_iff, removed_eq_nil_iff without]
      simp
  · intro gone mem left r r' stored stored'
    by_contra smaller
    have present : s.tables.main.get left = some r' := by
      by_cases went : s.tables.Went eng.config (s.tables.front budget) left
      · rw [(without left).1 went] at stored'
        cases stored'
      · rw [← (without left).2 went, stored']
    have away := (Tables.mem_removed.mp
      (early gone mem r stored left r' present (not_le.mp smaller))).2
    rw [away] at stored'
    cases stored'
  · intro gone mem r stored never' key r' stored' below
    refine early gone mem r stored key r' stored' ?_
    have last : bucketFor never eng.config.bucketGranularityMs = u64Max := if_pos rfl
    rw [never', last]
    exact below

end Evict

/-! ### Evictions of a small shard -/

/-- A shard with two records, the second of which never expires. -/
def twoRecords : Tables :=
  run (perform (firstByteConfig 1000)) .created
    [.at 100 .empty (.write (.set [settledSet [1] 8100 none, settledSet [2] never none]))]

theorem twoRecords_indexed : twoRecords.Indexed (firstByteConfig 1000) := by
  refine (run_indexed ⟨{[1], [2]}, ∅, False⟩ ?_ (by simp) .created ⟨.of_empty rfl, .of_empty rfl⟩
    (along_of_forall fun t e mem => ⟨?_, ?_, fun absurd => absurd.elim⟩)).2.2
  · rintro a (rfl | rfl) b (rfl | rfl) <;> decide
  · obtain rfl := List.mem_singleton.mp mem
    decide
  · obtain rfl := List.mem_singleton.mp mem
    rintro budget ⟨⟩

/-- An eviction on an engine that reports no failure. -/
def evictAt (budget : Nat) (t : Tables) : EStateM.Result StoreError Txn SweepStats :=
  evict ⟨firstByteConfig 1000, 0, .empty, .normal⟩ budget
    ((OpStep.at 200 .empty (.evict budget)).txn t)

/-- The keys it removes. -/
def removedBy (budget : Nat) (t : Tables) : Option (List Bytes) :=
  (returned (evictAt budget t)).map fun ended => t.removed ended.2.tables

/-- A budget of one removes the record with a deadline, and spares the other. -/
theorem evict_ordered_two_records :
    ∃ stats s', evictAt 1 twoRecords = .ok stats s' ∧
      (twoRecords.removed s'.tables).length ≤ 1 ∧ removedBy 1 twoRecords = some [[1]] := by
  have removed : removedBy 1 twoRecords = some [[1]] := by decide +kernel
  cases ran : evictAt 1 twoRecords with
  | ok stats s' =>
    have ordered := @evict_ordered_iff ⟨firstByteConfig 1000, 0, .empty, .normal⟩
      ((OpStep.at 200 .empty (.evict 1)).txn twoRecords) s' 1 stats twoRecords_indexed ran
    exact ⟨stats, s', rfl, ordered.1.mpr (.inl one_pos), removed⟩
  | error e s' =>
    rw [removedBy, ran] at removed
    cases removed

/-- With no budget at all, a record goes. -/
theorem evict_without_budget :
    twoRecords.Indexed (firstByteConfig 1000) ∧ removedBy 0 twoRecords = some [[1]] :=
  ⟨twoRecords_indexed, by decide +kernel⟩

end Vash.Store
