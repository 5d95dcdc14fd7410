import Vash.Store.Changes

/-!
# What the background passes do to the tables

The sweeper, the evictor and the reclaimer make the moves `take`, `stale`,
`early`, `orphan` and `reclaim` of `Change`, entry by entry. Apart from the indexes,
records go and nothing else happens (`Txn.Thins`).

* `reclaimStep_moves` — the entries of a reclaim pass all belong to its tag, because job
  cursors do (`Tables.JobsOk`).
* `reclaimStep_spec` — a reclaim pass takes, of the records its rows name, those its
  job dooms or RAM knows dead.
-/

namespace Vash.Store

open Library

section Drain

variable {eng : Engine} {scope : Scope} {accept : Victims} {now budget : Nat}

/-! ### The entries picked -/

theorem pickVictims_isPrefix (accept : Victims) (now budget : Nat) :
    ∀ (rows : List (IndexKey × Bytes)) (picked lagMs : Nat),
      (pickVictims accept now budget rows picked lagMs).victims <+: rows
  | [], _, _ => List.prefix_rfl
  | row :: rest, picked, lagMs => by
    unfold pickVictims
    dsimp only
    split
    · exact List.nil_prefix
    · split
      · exact List.prefix_cons_inj row |>.mpr List.nil_prefix
      · exact List.prefix_cons_inj row |>.mpr (pickVictims_isPrefix accept now budget rest _ _)

/-- An eviction takes the rows up to its budget, and at least one. -/
theorem pickVictims_anything (now budget : Nat) (rows : List (IndexKey × Bytes))
    (picked lagMs : Nat) :
    (pickVictims .anything now budget rows picked lagMs).victims =
      rows.take (max (budget - picked) 1) := by
  induction rows generalizing picked lagMs with
  | nil => simp [pickVictims]
  | cons row rest ih =>
    unfold pickVictims
    rw [if_neg (by simp)]
    dsimp only
    by_cases last : picked + 1 ≥ budget
    · have one : max (budget - picked) 1 = 1 := by omega
      rw [if_pos last, one]
      rfl
    · have more : max (budget - picked) 1 = max (budget - (picked + 1)) 1 + 1 := by omega
      rw [if_neg last, ih, more, List.take_succ_cons]

/-- A sweep picks rows that are due. -/
theorem pickVictims_due (now budget : Nat) :
    ∀ (rows : List (IndexKey × Bytes)) (picked lagMs : Nat),
      ∀ row ∈ (pickVictims .expiredOnly now budget rows picked lagMs).victims,
        (ofLex row.1).1 ≤ now
  | [], _, _ => by simp [pickVictims]
  | head :: rest, picked, lagMs => by
    unfold pickVictims
    dsimp only
    split
    · simp
    · rename_i notFuture
      have due : (ofLex head.1).1 ≤ now := by simpa using notFuture
      split
      · simpa using due
      · intro row mem
        rcases List.mem_cons.mp mem with rfl | mem
        · exact due
        · exact pickVictims_due now budget rest _ _ row mem

/-! ### One entry -/

theorem takeVictim_spec (row : IndexKey × Bytes) {s : Txn} :
    wp (takeVictim eng accept now row)
      (fun _ s' =>
        (∃ r, s.tables.main.get row.2 = some r ∧ mayTake eng accept now row.1 r = true ∧
          s.Becomes { s.tables with
            main := s.tables.main.delete row.2
            tagidx := s.tables.tagidx.deleteAll (tagKeys eng.config row.2 r.tagIds) } s') ∨
        ((∀ r, s.tables.main.get row.2 = some r → mayTake eng accept now row.1 r = false) ∧
          s.Agrees s')) Breaks s := by
  unfold takeVictim
  refine wp.bind query_breaks ?_
  rintro _ s₁ ⟨rfl, h₁⟩
  cases found : s.tables.main.get row.2 with
  | none => exact wp.pure (.inr ⟨fun _ absurd => (nomatch absurd), h₁⟩)
  | some r =>
    dsimp only
    split
    · rename_i may
      refine wp.bind update_breaks fun _ s₂ h₂ => ?_
      refine wp.bind (clearTagRows_spec row.2 r.tagIds) fun _ s₃ h₃ => wp.pure (.inl ?_)
      rw [h₂.tables, h₁.tables] at h₃
      exact ⟨r, rfl, may, (h₁.trans h₂).trans h₃⟩
    · rename_i may
      refine wp.pure (.inr ⟨fun r' same => ?_, h₁⟩)
      obtain rfl := Option.some.inj same
      exact Bool.eq_false_iff.mpr may

/-- The row of a victim is dropped; its record goes with it if the row stands for
it and the pass takes such records. -/
theorem drainEntry_spec {row : IndexKey × Bytes} {s : Txn}
    (indexed : s.tables.exp.get row.1 = some row.2)
    (due : accept = .expiredOnly → (ofLex row.1).1 ≤ now ∧ now ∈ scope.sweeps) :
    wp (drainEntry eng accept now row)
      (fun _ s' => Change eng.config scope s.tables s'.tables ∧
        s'.tables.exp = s.tables.exp.delete row.1) Breaks s := by
  refine wp.bind (takeVictim_spec row) fun _ s₁ outcome => ?_
  refine wp.bind update_breaks fun _ s₂ h₂ => wp.pure ?_
  rw [h₂.tables]
  rcases outcome with ⟨r, stored, may, h₁⟩ | ⟨mayNot, h₁⟩
  · rw [h₁.tables]
    refine ⟨?_, rfl⟩
    have current := of_decide_eq_true (Bool.and_eq_true_iff.mp may).1
    have taken : Tables.take eng.config row.1 row.2 s.tables = { s.tables with
        main := s.tables.main.delete row.2
        exp := s.tables.exp.delete row.1
        tagidx := s.tables.tagidx.deleteAll (tagKeys eng.config row.2 r.tagIds) } := by
      simp only [Tables.take, Tables.tagIdsAt, stored]
    rw [← taken]
    exact .take indexed stored current
  · rw [h₁.tables]
    refine ⟨?_, rfl⟩
    by_cases current : ∃ r, s.tables.main.get row.2 = some r ∧
        bucketFor r.header.expiresAtMs eng.config.bucketGranularityMs = (ofLex row.1).1
    · -- The row stands for its record and still the pass left the record alone.
      obtain ⟨r, stored, bucket⟩ := current
      have may := mayNot r stored
      simp only [mayTake, bucket, decide_true, Bool.true_and] at may
      cases accept with
      | anything => exact absurd may (by simp)
      | expiredOnly =>
        exact .early indexed stored (due rfl).2 (due rfl).1 bucket may
    · push Not at current
      exact .stale indexed current

/-! ### The pass -/

/-- A drain does what the entries of its victims do. -/
theorem drainExpiryIndex_of_entries {P : Txn → Prop} {fail : StoreError → Txn → Prop} {s : Txn}
    {budget : Nat} (breaks : ∀ e s', Breaks e s' → fail e s')
    (entries : ∀ s₁, s.Agrees s₁ → wp (forEach (drainEntry eng accept (s.clock 0))
      (pickVictims accept (s.clock 0) budget s.tables.exp.rows 0 0).victims) (fun _ s' => P s')
      fail s₁) :
    wp (drainExpiryIndex eng budget accept) (fun _ s' => P s') fail s := by
  unfold drainExpiryIndex
  refine wp.bind nowMs_spec ?_
  rintro _ s₁ ⟨rfl, h₁⟩
  refine wp.bind (query_breaks.stops breaks) ?_
  rintro _ s₂ ⟨rfl, h₂⟩
  rw [h₁.tables]
  exact wp.bind (entries s₂ (Txn.agrees_trans h₁ h₂)) fun _ _ held => wp.pure held

theorem drainExpiryIndex_moves {t₀ : Tables} {s : Txn} (budget : Nat)
    (reading : accept = .expiredOnly → s.clock 0 ∈ scope.sweeps)
    (held : Changes eng.config scope t₀ s.tables) :
    Leaves (drainExpiryIndex eng budget accept)
      (fun s' => Changes eng.config scope t₀ s'.tables) s := by
  refine drainExpiryIndex_of_entries (fun _ _ => .inl) fun s₁ agrees => ?_
  set victims := (pickVictims accept (s.clock 0) budget s.tables.exp.rows 0 0).victims
  have picked := pickVictims_isPrefix accept (s.clock 0) budget s.tables.exp.rows 0 0
  have rows : ∀ row ∈ victims, s.tables.exp.get row.1 = some row.2 :=
    fun row mem => Table.get_eq_some_iff.mpr (picked.subset mem)
  have distinct : (victims.map Prod.fst).Nodup :=
    s.tables.exp.keys_nodup.sublist (picked.sublist.map _)
  have dueNow : accept = .expiredOnly → ∀ row ∈ victims, (ofLex row.1).1 ≤ s.clock 0 := by
    rintro rfl row mem
    exact pickVictims_due (s.clock 0) budget _ 0 0 row mem
  -- Rows are dropped one by one, so the rows still to come are untouched.
  refine (wp.forEach (fun done _ s' => Changes eng.config scope t₀ s'.tables ∧
    s'.tables.exp = s.tables.exp.deleteAll (done.map Prod.fst)) ⟨agrees.tables ▸ held, ?_⟩ ?_).imp
    fun _ _ h => h.1
  · rw [agrees.tables]
    rfl
  · rintro done row todo _ s' split ⟨changes, exp⟩
    change victims = _ at split
    have fresh : row.1 ∉ done.map Prod.fst := by
      rw [split, List.map_append, List.map_cons] at distinct
      exact fun mem => List.disjoint_of_nodup_append distinct mem List.mem_cons_self
    have mem : row ∈ victims := by simp [split]
    have indexed : s'.tables.exp.get row.1 = some row.2 := by
      rw [exp, Table.get_deleteAll, if_neg fresh, rows row mem]
    refine (drainEntry_spec indexed fun sweeping => ⟨dueNow sweeping row mem,
      reading sweeping⟩).mono ?_ fun _ _ breaks => .inl breaks
    rintro _ s'' ⟨change, exp'⟩
    refine ⟨changes.tail change, ?_⟩
    rw [exp', exp, List.map_append]
    simp [Table.deleteAll]

end Drain

/-! ### The reclaimer -/

section Reclaim

variable {eng : Engine} {scope : Scope} {s : Txn}

/-- The cursor of the job, if it has one, is at an entry of the tag. -/
abbrev Job.OnTag (job : Job) (tagId : Nat) : Prop :=
  ∀ cursor, job.cursor = some cursor → (ofLex cursor).1 = tagId

/-- The entries of a pass belong to the job's tag. -/
theorem jobRows_tag {tagId : Nat} {job : Job} (cursorOk : job.OnTag tagId)
    {rows : List (IndexKey × Bytes)} {row : IndexKey × Bytes} (mem : row ∈ jobRows tagId job rows) :
    (ofLex row.1).1 = tagId := by
  obtain ⟨-, inRange⟩ := List.mem_filter.mp mem
  obtain ⟨above, below⟩ := Bool.and_eq_true_iff.mp inRange
  have upper : (ofLex row.1).1 ≤ tagId := by
    have := Prod.Lex.le_iff.mp (of_decide_eq_true below)
    simp only [ofLex_toLex] at this
    omega
  have lower : tagId ≤ (ofLex row.1).1 := by
    cases hc : job.cursor with
    | none =>
      simp only [hc] at above
      have := Prod.Lex.le_iff.mp (of_decide_eq_true above)
      simp only [ofLex_toLex] at this
      omega
    | some cursor =>
      simp only [hc] at above
      have := Prod.Lex.lt_iff.mp (of_decide_eq_true above)
      rw [cursorOk cursor hc] at this
      omega
  omega

/-- No record without a deadline that the next reclaim pass visits is dead. -/
def ReclaimSpares (eng : Engine) (budget now : Nat) (t : Tables) : Prop :=
  ∀ tagId job, t.jobs.rows.head? = some (tagId, job) →
    ∀ row ∈ reclaimBatch tagId job budget t, ∀ r, t.main.get row.2 = some r →
      r.header.expiresAtMs = never → ∀ tag, (r.tags.find? fun t => t.tagId = tagId) = some tag →
        job.targetGeneration ≤ tag.generation ∧
          r.isAlive now eng.epoch eng.registry.generation = true

theorem reclaimRecord_spec {key : Bytes} {r : Record} {s : Txn}
    (stored : s.tables.main.get key = some r) :
    wp (reclaimRecord eng key r) (fun _ s' => s.Becomes (s.tables.reclaim eng.config key) s')
      Breaks s := by
  unfold reclaimRecord
  refine wp.bind update_breaks fun _ s₁ h₁ => ?_
  split
  · rename_i volatile
    refine wp.bind update_breaks fun _ s₂ h₂ => (clearTagRows_spec key r.tagIds).imp
      fun _ s₃ h₃ => ?_
    rw [h₂.tables, h₁.tables] at h₃
    simpa [Tables.reclaim, Tables.indexedAt, Tables.tagIdsAt, stored, volatile] using
      (h₁.trans h₂).trans h₃
  · rename_i persistent
    refine (clearTagRows_spec key r.tagIds).imp fun _ s₂ h₂ => ?_
    rw [h₁.tables] at h₂
    simpa [Tables.reclaim, Tables.indexedAt, Tables.tagIdsAt, stored, persistent] using h₁.trans h₂

/-- The record carries the tag, and its first reference to it is below the target, or
the record is dead. -/
def Spent (eng : Engine) (tagId target nowMs : Nat) (r : Record) : Prop :=
  ∃ ref, (r.tags.find? fun t => t.tagId = tagId) = some ref ∧
    (ref.generation < target ∨ r.isAlive nowMs eng.epoch eng.registry.generation = false)

theorem Spent.carries {tagId target nowMs : Nat} {r : Record}
    (spent : Spent eng tagId target nowMs r) : tagId ∈ r.tagIds := by
  obtain ⟨ref, first, -⟩ := spent
  exact List.mem_map.mpr ⟨ref, List.mem_of_find?_eq_some first,
    by simpa using List.find?_some first⟩

/-- A record that is spared is alive, so that its references to the tag agree with the first
of them, which is not below the target. -/
theorem le_of_not_spent {tagId target nowMs : Nat} {r : Record} {ref : TagRef}
    (stays : ¬ Spent eng tagId target nowMs r) (mem : ref ∈ r.tags) (own : ref.tagId = tagId) :
    target ≤ ref.generation := by
  cases first : r.tags.find? fun t => t.tagId = tagId with
  | none => exact absurd (decide_eq_true own) (List.find?_eq_none.mp first ref mem)
  | some tag =>
    have named : tag.tagId = tagId := by simpa using List.find?_some first
    have spared : target ≤ tag.generation ∧
        r.isAlive nowMs eng.epoch eng.registry.generation = true := by
      by_contra neither
      rw [not_and_or, not_le, Bool.not_eq_true] at neither
      exact stays ⟨tag, first, neither⟩
    have shown := Record.generation_of_isAlive spared.2 (List.mem_of_find?_eq_some first)
    have shown' := Record.generation_of_isAlive spared.2 mem
    rw [own, ← named, shown] at shown'
    rw [← Option.some.inj shown']
    exact spared.1

/-- One entry: the row of a record without the tag goes, and a record with it goes if it is
spent. -/
theorem reclaimEntry_cases {tagId target now : Nat} (row : IndexKey × Bytes) {s : Txn} :
    wp (reclaimEntry eng tagId target now row)
      (fun _ s' =>
        (∀ r, s.tables.main.get row.2 = some r → tagId ∉ r.tagIds) ∧
          s.Becomes { s.tables with tagidx := s.tables.tagidx.delete row.1 } s' ∨
        ∃ r, s.tables.main.get row.2 = some r ∧ tagId ∈ r.tagIds ∧
          (Spent eng tagId target now r ∧ s.Becomes (s.tables.reclaim eng.config row.2) s' ∨
            ¬ Spent eng tagId target now r ∧ s.Agrees s')) Breaks s := by
  unfold reclaimEntry
  refine wp.bind query_breaks ?_
  rintro _ s₁ ⟨rfl, h₁⟩
  cases stored : s.tables.main.get row.2 with
  | none =>
    refine wp.bind update_breaks fun _ s₂ h₂ => wp.pure (.inl ⟨by simp, ?_⟩)
    rw [h₁.tables] at h₂
    exact h₁.trans h₂
  | some r =>
    cases first : r.tags.find? fun t => t.tagId = tagId with
    | none =>
      simp only [first]
      refine wp.bind update_breaks fun _ s₂ h₂ => wp.pure (.inl ⟨?_, ?_⟩)
      · rintro _ ⟨⟩ carried
        obtain ⟨tag, mem, own⟩ := List.mem_map.mp carried
        exact List.find?_eq_none.mp first tag mem (decide_eq_true own)
      · rw [h₁.tables] at h₂
        exact h₁.trans h₂
    | some tag =>
      have carries : tagId ∈ r.tagIds :=
        List.mem_map.mpr ⟨tag, List.mem_of_find?_eq_some first,
          by simpa using List.find?_some first⟩
      have spent : Spent eng tagId target now r ↔ tag.generation < target ∨
          r.isAlive now eng.epoch eng.registry.generation = false := by
        simp [Spent, first]
      simp only [first]
      split
      · rename_i current
        refine wp.pure (.inr ⟨r, rfl, carries, .inr ⟨?_, h₁⟩⟩)
        rw [spent]
        simpa using current
      · rename_i dead
        rw [← h₁.tables] at stored
        refine wp.bind (reclaimRecord_spec stored) fun _ s₂ h₂ =>
          wp.pure (.inr ⟨r, rfl, carries, .inl ⟨?_, ?_⟩⟩)
        · rw [spent]
          by_contra neither
          rw [not_or] at neither
          exact dead (by simpa using neither)
        · rw [h₁.tables] at h₂
          exact h₁.trans h₂

/-- One entry: rows and records only go. -/
theorem reclaimEntry_spec (scope : Scope) {tagId target now : Nat}
    {row : IndexKey × Bytes} {s : Txn}
    (indexed : ∀ key, s.tables.tagidx.get row.1 = some key → key = row.2)
    (tagged : (ofLex row.1).1 = tagId)
    (spared : scope.sparesPersistent → ∀ r, s.tables.main.get row.2 = some r →
      r.header.expiresAtMs = never → ∀ tag, (r.tags.find? fun t => t.tagId = tagId) = some tag →
        target ≤ tag.generation ∧ r.isAlive now eng.epoch eng.registry.generation = true) :
    wp (reclaimEntry eng tagId target now row)
      (fun _ s' => Change eng.config scope s.tables s'.tables ∧
        (∀ k key, s'.tables.tagidx.get k = some key → s.tables.tagidx.get k = some key) ∧
        ∀ key r, s'.tables.main.get key = some r → s.tables.main.get key = some r)
      Breaks s := by
  refine (reclaimEntry_cases row).imp ?_
  rintro _ s' (⟨gone, h⟩ | ⟨r, stored, -, ⟨⟨tag, first, verdict⟩, h⟩ | ⟨-, h⟩⟩)
  · rw [h.tables]
    refine ⟨.orphan indexed (tagged ▸ gone), fun k key found => ?_, fun _ _ h => h⟩
    by_cases same : k = row.1
    · exact absurd found (by simp [same])
    · exact (Table.get_delete_of_ne same).symm.trans found
  · rw [h.tables]
    refine ⟨.reclaim stored fun spares persistent => ?_, fun k key found => ?_,
      fun key r' found => ?_⟩
    · -- A spared record is neither doomed nor known dead.
      obtain ⟨current, alive⟩ := spared spares r stored persistent tag first
      rw [alive] at verdict
      rcases verdict with doomed | dead
      · omega
      · cases dead
    · exact Table.get_of_deleteAll found
    · exact Table.get_of_delete found
  · rw [h.tables]
    exact ⟨.other rfl rfl rfl id, fun _ _ h => h, fun _ _ h => h⟩

/-- The jobs after a pass. -/
def jobsAfter (tagId : Nat) (job : Job) (batch : List (IndexKey × Bytes)) (completed : Bool)
    (jobs : Table Nat Job) : Table Nat Job :=
  if completed then jobs.delete tagId
  else jobs.put tagId ⟨job.targetGeneration, match batch.getLast? with
    | some row => some row.1
    | none => job.cursor⟩

theorem finishJob_spec {tagId : Nat} {job : Job} {batch : List (IndexKey × Bytes)}
    {completed : Bool} :
    wp (finishJob tagId job batch completed)
      (fun _ s' => s.Becomes { s.tables with
        jobs := jobsAfter tagId job batch completed s.tables.jobs } s') Breaks s := by
  unfold finishJob jobsAfter
  split
  · exact update_breaks
  · exact update_breaks

/-- A reclaim pass over the first job does what the entries of its batch do, and moves
the job on. -/
theorem reclaimStep_of_entries {P : Txn → Prop} {tagId budget : Nat} {job : Job}
    (first : s.tables.jobs.rows.head? = some (tagId, job))
    (entries : ∀ s₁, s.Agrees s₁ →
      wp (forEach (reclaimEntry eng tagId job.targetGeneration (s.clock 0))
        (reclaimBatch tagId job budget s.tables)) (fun _ s' => P s') Breaks s₁) :
    wp (reclaimStep eng budget)
      (fun _ s' => ∃ s₁, P s₁ ∧ s₁.Becomes { s₁.tables with
        jobs := jobsAfter tagId job (reclaimBatch tagId job budget s.tables)
          (decide ((reclaimBatch tagId job budget s.tables).length < budget))
          s₁.tables.jobs } s') Breaks s := by
  unfold reclaimStep
  refine wp.bind ((query_breaks.and query_clock).stops fun _ _ h => h.1) ?_
  rintro _ s₁ ⟨⟨rfl, h₁⟩, clock₁⟩
  rw [first]
  refine wp.bind ((query_breaks.and query_clock).stops fun _ _ h => h.1) ?_
  rintro _ s₂ ⟨⟨rfl, h₂⟩, clock₂⟩
  refine wp.bind nowMs_spec ?_
  rintro _ s₃ ⟨rfl, h₃⟩
  rw [h₁.tables, clock₂, clock₁]
  refine wp.bind (entries s₃ (Txn.agrees_trans (Txn.agrees_trans h₁ h₂) h₃))
    fun results s₄ held => ?_
  exact wp.bind finishJob_spec fun _ s₅ finished => wp.pure ⟨s₄, held, finished⟩

theorem reclaimStep_idle {budget : Nat} (none : s.tables.jobs.rows.head? = none) :
    wp (reclaimStep eng budget) (fun _ s' => s.Agrees s') Breaks s := by
  unfold reclaimStep
  refine wp.bind query_breaks ?_
  rintro _ s₁ ⟨rfl, h₁⟩
  rw [none]
  exact wp.pure h₁

theorem jobsOk_jobsAfter {t : Tables} {tagId : Nat} {job : Job} {batch : List (IndexKey × Bytes)}
    (cursorOk : job.OnTag tagId)
    (tagged : ∀ row ∈ batch, (ofLex row.1).1 = tagId) (completed : Bool) (ok : t.JobsOk) :
    { t with jobs := jobsAfter tagId job batch completed t.jobs }.JobsOk := by
  intro id job' cursor found at_
  dsimp only [jobsAfter] at found
  split at found
  · exact ok id job' cursor (Table.get_of_delete found) at_
  · rw [Table.get_put] at found
    split at found
    · rename_i same
      cases found
      rw [same]
      dsimp only at at_
      split at at_
      · rename_i row last
        obtain rfl := Option.some.inj at_
        exact tagged row (List.mem_of_getLast? last)
      · exact cursorOk cursor at_
    · exact ok id job' cursor found at_

theorem reclaimStep_moves {t₀ : Tables} {s : Txn} (budget : Nat) (jobs : t₀.JobsOk)
    (spares : scope.sparesPersistent → ReclaimSpares eng budget (s.clock 0) s.tables)
    (held : Changes eng.config scope t₀ s.tables) :
    Leaves (reclaimStep eng budget) (fun s' => Changes eng.config scope t₀ s'.tables) s := by
  cases first : s.tables.jobs.rows.head? with
  | none => exact (reclaimStep_idle first).mono (fun _ _ h => h.tables ▸ held) fun _ _ => .inl
  | some entry =>
    obtain ⟨tagId, job⟩ := entry
    have queued : s.tables.jobs.get tagId = some job :=
      Table.get_eq_some_iff.mpr (List.mem_of_head? first)
    have cursorOk : job.OnTag tagId :=
      fun cursor => held.jobsOk jobs tagId job cursor queued
    have sub : ∀ row ∈ reclaimBatch tagId job budget s.tables,
        row ∈ jobRows tagId job s.tables.tagidx.rows := fun row => List.mem_of_mem_take
    have tagged : ∀ row ∈ reclaimBatch tagId job budget s.tables, (ofLex row.1).1 = tagId :=
      fun row mem => jobRows_tag cursorOk (sub row mem)
    refine (reclaimStep_of_entries (P := fun s' => Changes eng.config scope t₀ s'.tables) first
      fun s₁ agrees => ?_).mono ?_ fun _ _ => .inl
    · -- Rows and records only go, so what the pass knew at its start stays true.
      refine (wp.forEach (fun _ _ s' => Changes eng.config scope t₀ s'.tables ∧
        (∀ k key, s'.tables.tagidx.get k = some key → s.tables.tagidx.get k = some key) ∧
        ∀ key r, s'.tables.main.get key = some r → s.tables.main.get key = some r) ?_ ?_).imp
        fun _ _ h => h.1
      · rw [agrees.tables]
        exact ⟨held, fun _ _ h => h, fun _ _ h => h⟩
      · rintro done row todo _ s' split ⟨changes, rowsGo, recordsGo⟩
        have mem : row ∈ reclaimBatch tagId job budget s.tables := by simp [split]
        have listed : s.tables.tagidx.get row.1 = some row.2 :=
          Table.get_eq_some_iff.mpr (List.mem_filter.mp (sub row mem)).1
        refine (reclaimEntry_spec scope (fun key found => ?_) (tagged row mem) ?_).imp ?_
        · exact Option.some.inj ((rowsGo _ _ found).symm.trans listed)
        · exact fun spare r found => spares spare tagId job first row mem r (recordsGo _ _ found)
        · rintro _ s'' ⟨change, rows', records'⟩
          exact ⟨changes.tail change, fun k key h => rowsGo k key (rows' k key h),
            fun key r h => recordsGo key r (records' key r h)⟩
    · rintro _ s' ⟨s₁, changes, finished⟩
      rw [finished.tables]
      exact changes.tail (.other rfl rfl rfl (jobsOk_jobsAfter cursorOk tagged _))

end Reclaim

/-! ### Which records go -/

/-- Some records go, each of them `dead`; rows, epoch, counters and effects stay. -/
structure Txn.Loses (dead : Bytes → Record → Prop) (s s' : Txn) : Prop where
  kept : ∀ key r, s'.tables.main.get key = some r → s.tables.main.get key = some r
  gone : ∀ key r, s.tables.main.get key = some r → s'.tables.main.get key = some r ∨ dead key r
  tags : s'.tables.tags = s.tables.tags
  epoch : s'.tables.epoch = s.tables.epoch
  counters : s'.counters = s.counters
  effects : s'.effects = s.effects

/-- Records go, and the reclaim jobs stay as well. -/
structure Txn.Thins (dead : Bytes → Record → Prop) (s s' : Txn) : Prop extends s.Loses dead s' where
  jobs : s'.tables.jobs = s.tables.jobs

section Thins

variable {eng : Engine} {dead : Bytes → Record → Prop} {s s' s'' : Txn}

theorem Txn.Thins.of_agrees (agrees : s.Agrees s') : s.Thins dead s' := by
  refine ⟨⟨?_, ?_, by rw [agrees.tables], by rw [agrees.tables], agrees.counters,
    agrees.effects⟩, by rw [agrees.tables]⟩
  · rw [agrees.tables]
    exact fun _ _ found => found
  · rw [agrees.tables]
    exact fun _ _ found => .inl found

theorem Txn.Loses.trans (first : s.Loses dead s') (next : s'.Loses dead s'') :
    s.Loses dead s'' where
  kept key r found := first.kept key r (next.kept key r found)
  gone key r found := (first.gone key r found).elim (next.gone key r) .inr
  tags := next.tags.trans first.tags
  epoch := next.epoch.trans first.epoch
  counters := next.counters.trans first.counters
  effects := next.effects.trans first.effects

theorem Txn.Loses.mono {dead' : Bytes → Record → Prop} (lost : s.Loses dead s')
    (imp : ∀ key r, s.tables.main.get key = some r → dead key r → dead' key r) :
    s.Loses dead' s' where
  kept := lost.kept
  gone key r found := (lost.gone key r found).imp_right (imp key r found)
  tags := lost.tags
  epoch := lost.epoch
  counters := lost.counters
  effects := lost.effects

theorem Txn.Thins.trans (first : s.Thins dead s') (next : s'.Thins dead s'') :
    s.Thins dead s'' :=
  ⟨first.toLoses.trans next.toLoses, next.jobs.trans first.jobs⟩

/-- One record goes, with rows of the indexes. -/
theorem Txn.Thins.delete {key : Bytes} {exp tagidx : Table IndexKey Bytes}
    (doomed : ∀ r, s.tables.main.get key = some r → dead key r)
    (becomes : s.Becomes { s.tables with main := s.tables.main.delete key, exp, tagidx } s') :
    s.Thins dead s' := by
  refine ⟨⟨?_, ?_, by rw [becomes.tables], by rw [becomes.tables], becomes.counters,
    becomes.effects⟩, by rw [becomes.tables]⟩
  · intro key' r found
    rw [becomes.tables] at found
    exact Table.get_of_delete found
  · intro key' r found
    by_cases same : key' = key
    · subst same
      exact .inr (doomed r found)
    · rw [becomes.tables]
      exact .inl ((Table.get_delete_of_ne same).trans found)

/-- Rows of the indexes go. -/
theorem Txn.Thins.index {exp tagidx : Table IndexKey Bytes}
    (becomes : s.Becomes { s.tables with exp, tagidx } s') : s.Thins dead s' := by
  refine ⟨⟨?_, ?_, by rw [becomes.tables], by rw [becomes.tables], becomes.counters,
    becomes.effects⟩, by rw [becomes.tables]⟩
  · rw [becomes.tables]
    exact fun _ _ found => found
  · rw [becomes.tables]
    exact fun _ _ found => .inl found

/-- The records a drain takes: those its rows lead to, and of these a sweep takes the expired. -/
def Drainable (accept : Victims) (now : Nat) (rows : List (IndexKey × Bytes)) (key : Bytes)
    (r : Record) : Prop :=
  (∃ row ∈ rows, row.2 = key) ∧ (accept = .expiredOnly → r.isExpired now = true)

theorem drainEntry_thins {accept : Victims} {now : Nat} {rows : List (IndexKey × Bytes)}
    {row : IndexKey × Bytes} (mem : row ∈ rows) :
    wp (drainEntry eng accept now row) (fun _ s' => s.Thins (Drainable accept now rows) s')
      Breaks s := by
  refine wp.bind (takeVictim_spec row) fun _ s₁ outcome => ?_
  have taken : s.Thins (Drainable accept now rows) s₁ := by
    rcases outcome with ⟨r, stored, may, becomes⟩ | ⟨-, agrees⟩
    · refine .delete (fun r' found => ⟨⟨row, mem, rfl⟩, ?_⟩) becomes
      obtain rfl := Option.some.inj (stored.symm.trans found)
      rintro rfl
      exact (Bool.and_eq_true_iff.mp may).2
    · exact .of_agrees agrees
  refine wp.bind update_breaks fun _ s₂ dropped => wp.pure (taken.trans ?_)
  exact .index dropped

/-- A sweep takes records that have expired; an eviction may take any. -/
theorem drainExpiryIndex_thins (budget : Nat) (accept : Victims) :
    wp (drainExpiryIndex eng budget accept)
      (fun _ s' => s.Thins (Drainable accept (s.clock 0)
        (pickVictims accept (s.clock 0) budget s.tables.exp.rows 0 0).victims) s') Breaks s := by
  refine drainExpiryIndex_of_entries (fun _ _ breaks => breaks) fun s₁ agrees => ?_
  generalize (pickVictims accept (s.clock 0) budget s.tables.exp.rows 0 0).victims = rows
  refine wp.forEach (fun _ _ s' => s.Thins (Drainable accept (s.clock 0) rows) s')
    (.of_agrees agrees) ?_
  rintro done row todo _ s' split thinned
  have mem : row ∈ rows := by simp [split]
  exact (drainEntry_thins mem).imp fun _ _ next => thinned.trans next

/-- The action does not read the clock. -/
def Timeless {α : Type} (action : TxnM α) : Prop :=
  ∀ clock, Preserves (fun s => s.clock = clock) (fun _ _ => True) action

theorem Timeless.query {α : Type} (read : Tables → α) : Timeless (query read) :=
  fun _ _ same => query_clock.imp fun _ _ kept => kept.trans same

theorem Timeless.update (change : Tables → Tables) : Timeless (update change) :=
  fun _ _ same => update_clock.imp fun _ _ kept => kept.trans same

theorem Timeless.clearTagRows (key : Bytes) (ids : List Nat) :
    Timeless (clearTagRows eng key ids) := by
  intro clock
  induction ids with
  | nil => exact .pure ()
  | cons id rest ih => exact Preserves.bind (Timeless.update _ clock) fun _ => ih

theorem Timeless.drainEntry (accept : Victims) (now : Nat) (row : IndexKey × Bytes) :
    Timeless (drainEntry eng accept now row) := by
  intro clock
  refine Preserves.bind (Preserves.bind (Timeless.query _ clock) fun found => ?_) fun _ =>
    Preserves.bind (Timeless.update _ clock) fun _ => .pure _
  cases found with
  | none => exact .pure false
  | some record =>
    dsimp only
    split
    · exact Preserves.bind (Timeless.update _ clock) fun _ =>
        Preserves.bind (Timeless.clearTagRows _ _ clock) fun _ => .pure _
    · exact .pure false

/-- A drain reads the clock once. -/
theorem drainExpiryIndex_clock (budget : Nat) (accept : Victims) :
    wp (drainExpiryIndex eng budget accept) (fun _ s' => s'.clock = fun i => s.clock (i + 1))
      (fun _ _ => True) s := by
  unfold drainExpiryIndex
  refine wp.bind (m := fun _ s' => s'.clock = fun i => s.clock (i + 1)) rfl fun now s₁ shifted => ?_
  refine Preserves.bind (Timeless.query _ _) (fun rows => ?_) s₁ shifted
  exact Preserves.bind (Preserves.forEach fun row _ => Timeless.drainEntry accept now row _)
    fun _ => .pure _

/-- One entry takes the record it names if that is spent. -/
theorem reclaimEntry_thins {tagId target now : Nat} (row : IndexKey × Bytes) :
    wp (reclaimEntry eng tagId target now row)
      (fun _ s' => s.Thins (fun key r => row.2 = key ∧ Spent eng tagId target now r) s' ∧
        ∀ r, s'.tables.main.get row.2 = some r → ¬ Spent eng tagId target now r) Breaks s := by
  refine (reclaimEntry_cases row).imp ?_
  rintro _ s' (⟨gone, h⟩ | ⟨r, stored, -, ⟨spent, h⟩ | ⟨stays, h⟩⟩)
  · refine ⟨.index h, fun r found spent => ?_⟩
    rw [h.tables] at found
    exact gone r found spent.carries
  · refine ⟨.delete (fun r' found => ⟨rfl, Option.some.inj (stored.symm.trans found) ▸ spent⟩) h,
      fun r' found => ?_⟩
    rw [h.tables, Tables.reclaim, Table.get_delete_self] at found
    cases found
  · refine ⟨.of_agrees h, fun r' found => ?_⟩
    rw [h.tables] at found
    exact Option.some.inj (stored.symm.trans found) ▸ stays

/-- What a reclaim pass over the first job takes: of the records its rows name, the spent. -/
def PassTakes (eng : Engine) (tagId : Nat) (job : Job) (budget now : Nat) (t : Tables)
    (key : Bytes) (r : Record) : Prop :=
  (∃ row ∈ reclaimBatch tagId job budget t, row.2 = key) ∧
    Spent eng tagId job.targetGeneration now r

/-- A reclaim pass over the first job, if there is one. -/
theorem reclaimStep_spec (budget : Nat) :
    wp (reclaimStep eng budget)
      (fun _ s' => (s.tables.jobs.rows.head? = none ∧ s.Agrees s') ∨
        ∃ tagId job s₁, s.tables.jobs.rows.head? = some (tagId, job) ∧
          s.Thins (PassTakes eng tagId job budget (s.clock 0) s.tables) s₁ ∧
          (∀ row ∈ reclaimBatch tagId job budget s.tables, ∀ r,
            s₁.tables.main.get row.2 = some r →
              ¬ Spent eng tagId job.targetGeneration (s.clock 0) r) ∧
          s₁.Becomes { s₁.tables with
            jobs := jobsAfter tagId job (reclaimBatch tagId job budget s.tables)
              (decide ((reclaimBatch tagId job budget s.tables).length < budget))
              s₁.tables.jobs } s') Breaks s := by
  cases first : s.tables.jobs.rows.head? with
  | none => exact (reclaimStep_idle first).imp fun _ _ agrees => .inl ⟨rfl, agrees⟩
  | some entry =>
    obtain ⟨tagId, job⟩ := entry
    -- A row that is cleared stays so, since records only go.
    refine (reclaimStep_of_entries (P := fun s₁ =>
      s.Thins (PassTakes eng tagId job budget (s.clock 0) s.tables) s₁ ∧
        ∀ row ∈ reclaimBatch tagId job budget s.tables, ∀ r, s₁.tables.main.get row.2 = some r →
          ¬ Spent eng tagId job.targetGeneration (s.clock 0) r) first fun s₃ agrees => ?_).imp ?_
    · refine wp.forEach (fun (done : List (IndexKey × Bytes)) _ (s' : Txn) =>
        s.Thins (PassTakes eng tagId job budget (s.clock 0) s.tables) s' ∧
          ∀ row ∈ done, ∀ r, s'.tables.main.get row.2 = some r →
            ¬ Spent eng tagId job.targetGeneration (s.clock 0) r)
        ⟨.of_agrees agrees, fun row mem => absurd mem List.not_mem_nil⟩ ?_
      rintro done row todo _ s' split ⟨thinned, cleared⟩
      have mem : row ∈ reclaimBatch tagId job budget s.tables := by simp [split]
      refine (reclaimEntry_thins row).imp fun _ s'' next => ⟨thinned.trans ⟨?_, next.1.jobs⟩, ?_⟩
      · exact next.1.toLoses.mono fun key r _ spent => ⟨⟨row, mem, spent.1⟩, spent.2⟩
      · intro row' mem'
        rcases List.mem_append.mp mem' with earlier | here
        · exact fun r found => cleared row' earlier r (next.1.kept _ r found)
        · obtain rfl := List.mem_singleton.mp here
          exact next.2
    · rintro _ s₅ ⟨s₄, ⟨thinned, cleared⟩, finished⟩
      exact .inr ⟨tagId, job, s₄, rfl, thinned, cleared, finished⟩

theorem reclaimStep_loses (budget : Nat) :
    wp (reclaimStep eng budget)
      (fun _ s' => s.Loses (fun key r => ∃ tagId job,
        s.tables.jobs.rows.head? = some (tagId, job) ∧
          PassTakes eng tagId job budget (s.clock 0) s.tables key r) s') Breaks s := by
  refine (reclaimStep_spec budget).imp ?_
  rintro _ s' (⟨-, agrees⟩ | ⟨tagId, job, s₁, first, thinned, -, finished⟩)
  · exact (Txn.Thins.of_agrees agrees).toLoses
  · refine (thinned.toLoses.mono fun key r _ spent => ⟨tagId, job, first, spent⟩).trans ⟨?_, ?_,
      by rw [finished.tables], by rw [finished.tables], finished.counters, finished.effects⟩
    · rw [finished.tables]
      exact fun _ _ found => found
    · rw [finished.tables]
      exact fun _ _ found => .inl found

end Thins

end Vash.Store
