import Vash.Node.Jobs
import Vash.Node.Submit
import Vash.Store.Deadlines

/-!
# Batches with repeated keys

A batch is grouped by a sort on the shard that may permute the items of one shard,
so the items of one key reach its shard in the order the sort left them in. Each
shard applies its run in that order.

* `batches_follow_the_request_iff` — so later items win, and the first occurrence is
  the one reported, exactly when the sort leaves these items in their places.
* `permuted_items_win` — a permutation the sort may return under which they do not.
-/

namespace Vash.Node

open Library Store

/-! ### The writes of one run -/

section Writes

/-- The last write of a key. -/
def lastSet (sets : List SetRequest) (key : Bytes) : Option SetRequest :=
  (sets.filter fun set => set.key = key).getLast?

/-- The records after the sets have been stored one after another: under each of
their keys, a record that is as the last one asked. -/
def Wrote (asked : SetRequest → Record → Prop) (main main' : Table Bytes Record)
    (sets : List SetRequest) : Prop :=
  ∀ key, match lastSet sets key with
    | none => main'.get key = main.get key
    | some set => ∃ r, main'.get key = some r ∧ asked set r

/-- A write prepared for the queue, whose record will be as asked whatever token and
deadline the writer settles. -/
def Prepares (asked : SetRequest → Record → Prop) (set : SetRequest) (p : PreparedSet) : Prop :=
  p.key = set.key ∧ ∀ cas expiresAtMs, asked set (p.finish cas expiresAtMs)

/-- What `prepare_set` makes of a set: its record is stamped with the epoch and the tags the
shard shows, and with the deadline where the set states one. -/
structure Stamped (sh : Shard) (now : Nat) (set : SetRequest) (p : PreparedSet) : Prop where
  key : p.key = set.key
  value : p.record.value = set.value
  epoch : p.record.header.epoch = sh.engine.epoch
  tags : sh.engine.registry.resolve set.tags = .ok p.tags
  settled : ∀ ttlSecs, set.ttl = .set ttlSecs → p.expiresAtMs = some (expiryFromTtl now ttlSecs)

theorem of_prepareOn {sh : Shard} {now : Nat} {set : SetRequest} {p : PreparedSet}
    (prepared : VashStore.prepareOn sh now set = .ok p) : Stamped sh now set p := by
  unfold VashStore.prepareOn at prepared
  split at prepared
  · cases prepared
  · rename_i tags resolved
    obtain ⟨key, value, epoch, rfl, settled⟩ := of_prepareSet prepared
    exact ⟨key, value, epoch, resolved, settled⟩

variable {asked : SetRequest → Record → Prop}

theorem Wrote.nil (main : Table Bytes Record) : Wrote asked main main [] := fun _ => rfl

theorem Wrote.snoc {main main' : Table Bytes Record} {sets : List SetRequest} {set : SetRequest}
    {r : Record} (wrote : Wrote asked main main' sets) (holds : asked set r) :
    Wrote asked main (main'.put set.key r) (sets ++ [set]) := by
  intro key
  have before := wrote key
  unfold lastSet at before ⊢
  by_cases same : set.key = key
  · subst same
    simp only [List.filter_append, List.filter_cons_of_pos, List.filter_nil, decide_true,
      List.getLast?_append, List.getLast?_singleton, Option.some_or]
    exact ⟨r, Table.get_put_self _ _ _, holds⟩
  · simp only [List.filter_append, List.filter_cons_of_neg, List.filter_nil, List.append_nil,
      decide_eq_true_eq, same, not_false_eq_true, Table.get_put_of_ne (Ne.symm same)]
    exact before

/-- A set job stores its writes one after another. -/
theorem setJob_wrote {eng : Engine} {s : Txn} {sets : List SetRequest} {prepared : List PreparedSet}
    (prepares : List.Forall₂ (Prepares asked) sets prepared) :
    wp (apply eng (.set prepared))
      (fun outcome s' => (∃ tokens, outcome = .cas tokens) ∧
        Wrote asked s.tables.main s'.tables.main sets)
      Breaks s := by
  refine wp.bind (wp.forEach (fun done _ s' => Wrote asked s.tables.main s'.tables.main
    (sets.take done.length)) (Wrote.nil _) ?_) fun applied s' wrote => wp.pure ⟨⟨_, rfl⟩, ?_⟩
  · intro done p todo results s₁ split wrote
    refine (applySet_spec p (by simp)).imp ?_
    rintro applied s₂ ⟨-, e, becomes⟩
    -- The write prepared at this place is that of the set at this place.
    have long := prepares.length_eq
    have inside : done.length < sets.length := by
      rw [long, split]
      simp
    have here : Prepares asked (sets.get ⟨done.length, inside⟩) p := by
      have at' := prepares.get inside (by rw [← long]; exact inside)
      simpa [split] using at'
    have main : s₂.tables.main = s₁.tables.main.put p.key (p.finish applied.cas e) := by
      rw [becomes.tables]
      rfl
    have next : sets.take (done ++ [p]).length =
        sets.take done.length ++ [sets.get ⟨done.length, inside⟩] := by
      rw [List.length_append, List.length_singleton, List.take_add_one,
        List.getElem?_eq_getElem inside]
      rfl
    rw [main, next, here.1]
    exact wrote.snoc (here.2 _ _)
  · rwa [← prepares.length_eq, List.take_length] at wrote

theorem submit_set {sh : Shard} (clock : Nat → Nat) {sets : List SetRequest}
    {prepared : List PreparedSet} (prepares : List.Forall₂ (Prepares asked) sets prepared) :
    (∃ tokens, (submit clock (.set prepared) sh).1 = .ok (.cas tokens)) ∧
      Wrote asked sh.tables.main (submit clock (.set prepared) sh).2.tables.main sets := by
  obtain ⟨outcome, s, ⟨⟨tokens, rfl⟩, wrote⟩, done⟩ :=
    submit_succeeds (setJob_wrote (s := { sh.begin [] with clock }) prepares)
  rw [done]
  exact ⟨⟨tokens, rfl⟩, wrote⟩

variable {n : Nat} {allowed : (Nat → Nat) → Prop}

/-- What `prepare_set` makes of a set, at a reading the clocks may give, is as asked of a
shard that shows this engine. -/
def PreparesAs (allowed : (Nat → Nat) → Prop) (asked : Engine → SetRequest → Record → Prop) :
    Prop :=
  ∀ clock sh set p, allowed clock → VashStore.prepareOn sh (clock 0) set = .ok p →
    Prepares (asked sh.engine) set p

variable {asked : Engine → SetRequest → Record → Prop} (prepareAs : PreparesAs allowed asked)

include prepareAs in
theorem prepareRun_ensures (shard : Fin n) (sets : List SetRequest) {earlier : List SetRequest}
    {prepared : List PreparedSet} (parties : Fin n → Shard)
    (prepares : List.Forall₂ (Prepares (asked (parties shard).engine)) earlier prepared) :
    (VashStore.prepareRun shard sets prepared).Ensures submit allowed
      (fun all parties' =>
        List.Forall₂ (Prepares (asked (parties shard).engine)) (earlier ++ sets) all ∧
          parties' = parties)
      (fun _ _ => True) parties := by
  induction sets generalizing earlier prepared with
  | nil => exact ⟨by simpa using prepares, rfl⟩
  | cons set rest ih =>
    intro clock ok
    dsimp only
    split
    · trivial
    · rename_i next found
      have more := ih (List.rel_append prepares (.cons (prepareAs _ _ _ _ ok found) .nil))
      simpa using more

include prepareAs in
/-- Every shard writes its run. -/
theorem sendRuns_ensures (runs : List (Fin n × List (Placed n SetRequest)))
    (once : (runs.map Prod.fst).Nodup) (pending : List (List Nat × Reply))
    (parties : Fin n → Shard) :
    (VashStore.sendRuns runs pending).Ensures submit allowed
      (fun _ parties' => ∀ i, (∀ run, (i, run) ∈ runs →
          Wrote (asked (parties' i).engine) (parties i).tables.main (parties' i).tables.main
            (run.map Placed.item)) ∧
        (i ∉ runs.map Prod.fst → parties' i = parties i)) (fun _ _ => True) parties := by
  induction runs generalizing pending parties with
  | nil => exact fun i => ⟨by simp, fun _ => rfl⟩
  | cons first rest ih =>
    obtain ⟨shard, run⟩ := first
    rw [List.map_cons, List.nodup_cons] at once
    refine Call.Ensures.bind
      ((prepareRun_ensures prepareAs shard _ parties .nil).imp ?_)
    rintro prepared _ ⟨prepares, rfl⟩ clock _
    refine (ih once.2 _ _).imp ?_
    intro _ parties' later i
    by_cases here : i = shard
    · subst here
      have kept := (later i).2 once.1
      rw [Function.update_self] at kept
      refine ⟨?_, fun out => absurd List.mem_cons_self out⟩
      rintro run' mem
      rcases List.mem_cons.mp mem with same | other
      · obtain ⟨-, rfl⟩ := Prod.mk.inj same
        rw [kept, submit_record_engine rfl]
        exact (submit_set clock prepares).2
      · exact absurd (List.mem_map_of_mem (f := Prod.fst) other) once.1
    · have after := later i
      rw [Function.update_of_ne here] at after
      refine ⟨fun run' mem => after.1 run' ?_, fun out => after.2 fun mem => out ?_⟩
      · exact (List.mem_cons.mp mem).resolve_left fun same => here (Prod.mk.inj same).1
      · exact List.mem_cons_of_mem _ mem

theorem waitBlocking_ensures (pending : List (List Nat × Reply)) (results : List Nat)
    (parties : Fin n → Shard) :
    (VashStore.waitBlocking pending results).Ensures submit allowed
      (fun _ parties' => parties' = parties) (fun _ _ => True) parties := by
  induction pending generalizing results with
  | nil => rfl
  | cons first rest ih =>
    obtain ⟨positions, reply⟩ := first
    unfold VashStore.waitBlocking
    split
    · exact ih _
    · trivial
    · trivial

theorem records_keep_engine {α : Type} {call : NodeCall n α}
    (records : call.Only fun op => op.isRecord = true) (i : Fin n) (parties : Fin n → Shard) :
    call.Ensures submit allowed (fun _ parties' => (parties' i).engine = (parties i).engine)
      (fun _ parties' => (parties' i).engine = (parties i).engine) parties := by
  have keeps : ∀ clock op sh, op.isRecord = true → sh.engine = (parties i).engine →
      (submit clock op sh).2.engine = (parties i).engine :=
    fun clock op sh record held => (submit_record_engine record).trans held
  exact records.ensures keeps rfl

variable [NeZero n] (node : VashStore n)

/-- The items of a batch in the order the sort leaves them in. -/
def VashStore.arranged {α : Type} (keyOf : α → Bytes) (items : List α) : List (Placed n α) :=
  node.sort.arrange (place node.hash keyOf items)

/-- The items of a key are all in the run of its shard, in the order of the sort. -/
theorem filter_run (sets : List SetRequest) (key : Bytes) :
    (((node.arranged SetRequest.key sets).filter
        fun entry => entry.shard = forKey node.hash key).map Placed.item).filter
          (fun set => set.key = key) =
      ((node.arranged SetRequest.key sets).map Placed.item).filter fun set => set.key = key := by
  simp only [List.filter_map, List.filter_filter]
  congr 1
  apply List.filter_congr
  intro entry mem
  have owner := (mem_place.mp (((node.sort.perm _).mem_iff).mp mem)).2
  simp only [Function.comp_apply]
  by_cases same : entry.item.key = key
  · simp [same, owner]
  · simp [same]

include prepareAs in
/-- After `set_many` a key holds a record as the item asked that the sort left last. -/
theorem setMany_stores (sets : List SetRequest) (parties : Fin n → Shard) :
    (node.setMany sets).Ensures submit allowed
      (fun _ parties' => ∀ key set,
        lastSet ((node.arranged SetRequest.key sets).map Placed.item) key = some set →
          ∃ r, (parties' (forKey node.hash key)).tables.main.get key = some r ∧
            asked (parties' (forKey node.hash key)).engine set r)
      (fun _ _ => True) parties := by
  refine (Call.Ensures.trivial _ parties).seq ?_
  intro _ parties₁ _
  refine Call.Ensures.bind
    ((sendRuns_ensures prepareAs _ group_nodup [] parties₁).imp ?_)
  intro pending parties₂ wrote
  refine (waitBlocking_ensures pending _ parties₂).imp ?_
  rintro _ _ rfl key set last
  have run : (forKey node.hash key, (node.arranged SetRequest.key sets).filter
      fun entry => entry.shard = forKey node.hash key) ∈
        group node.sort node.hash SetRequest.key sets := by
    refine mem_group.mpr ⟨rfl, fun empty => ?_⟩
    rw [lastSet, ← filter_run, empty] at last
    simp at last
  have held := (wrote _).1 _ run key
  rw [lastSet, filter_run, ← lastSet, last] at held
  exact held

include prepareAs in
/-- A write of a whole value that `store` reports as stored is a record as asked. -/
theorem store_stores {set : SetRequest} (whole : set.mode.whole = true)
    (parties : Fin n → Shard) :
    (node.store set).Ensures submit allowed
      (fun written parties' => ∀ cas, written.outcome = .stored cas →
        ∃ r, (parties' (forKey node.hash set.key)).tables.main.get set.key = some r ∧
          asked (parties' (forKey node.hash set.key)).engine set r)
      (fun _ _ => True) parties := by
  refine (Call.Ensures.trivial _ parties).seq ?_
  intro _ parties₁ _ clock allowed
  dsimp only
  cases prepared : VashStore.prepareOn (parties₁ (forKey node.hash set.key)) (clock 0) set with
  | error e => trivial
  | ok p =>
    obtain ⟨key, holds⟩ := prepareAs clock _ set p allowed prepared
    -- The job stores the record, and publishes nothing while it does.
    refine ((ask_ensures (fun answer t => ∀ written, answer = some written →
      ∀ cas, written.outcome = .stored cas → ∃ token e,
        t.main.get p.key = some (p.finish token e)) nofun ?_).and
      (records_keep_engine (ask_only rfl) (forKey node.hash set.key) parties₁)).mono ?_
      fun _ _ _ => trivial
    · intro _ _
      refine wp.bind ((conditionalSet_stores p whole).stops
        fun _ _ _ => .inl nofun) fun written _ stored => wp.pure ?_
      rintro _ ⟨⟩
      exact stored
    · rintro written parties' ⟨stored, engine⟩ cas outcome
      obtain ⟨token, e, found⟩ := stored written rfl cas outcome
      exact ⟨p.finish token e, key ▸ found, engine ▸ holds token e⟩

/-- After `set_many` a key holds the value of the item the sort left last. -/
theorem setMany_ensures (sets : List SetRequest) (parties : Fin n → Shard) :
    (node.setMany sets).Ensures submit allowed
      (fun _ parties' => ∀ key set,
        lastSet ((node.arranged SetRequest.key sets).map Placed.item) key = some set →
          ∃ r, (parties' (forKey node.hash key)).tables.main.get key = some r ∧
            r.value = set.value) (fun _ _ => True) parties := by
  have prepareAs : PreparesAs allowed fun _ set r => r.value = set.value := by
    intro clock sh set p _ prepared
    have stamped := of_prepareOn prepared
    exact ⟨stamped.key, fun _ _ => (p.finish_value _ _).trans stamped.value⟩
  exact setMany_stores prepareAs node sets parties

end Writes

/-! ### The answers of a delete -/

section Scatter

variable {α : Type} {results : List α} {answers : List (Nat × α)} {position : Nat}

@[simp] theorem length_scatter : (scatter results answers).length = results.length := by
  induction answers generalizing results with
  | nil => rfl
  | cons answer rest ih =>
    rw [scatter, List.foldl_cons, ← scatter, ih, List.length_set]

theorem scatter_of_not_mem (out : position ∉ answers.map Prod.fst) :
    (scatter results answers)[position]? = results[position]? := by
  induction answers generalizing results with
  | nil => rfl
  | cons answer rest ih =>
    rw [List.map_cons, List.mem_cons, not_or] at out
    rw [scatter, List.foldl_cons, ← scatter, ih out.2, List.getElem?_set_ne (Ne.symm out.1)]

theorem scatter_of_mem (once : (answers.map Prod.fst).Nodup) {a : α}
    (mem : (position, a) ∈ answers) (inside : position < results.length) :
    (scatter results answers)[position]? = some a := by
  induction answers generalizing results with
  | nil => cases mem
  | cons answer rest ih =>
    rw [List.map_cons, List.nodup_cons] at once
    rw [scatter, List.foldl_cons, ← scatter]
    rcases List.mem_cons.mp mem with rfl | later
    · rw [scatter_of_not_mem once.1, List.getElem?_set_self inside]
    · exact ih once.2 later (by rwa [List.length_set])

end Scatter

section Deletes

variable {readings : Set Nat} {key : Bytes} {r : Record}

/-- A delete job finds a live key once, the first time it comes to it. -/
theorem deleteJob_hits {eng : Engine} {s : Txn} (held : s.Reads readings)
    (stored : s.tables.main.get key = some r)
    (live : ∀ now ∈ readings, r.isAlive now eng.epoch eng.registry.generation = true)
    (keys : List Bytes) :
    wp (apply eng (.delete keys))
      (fun outcome _ => ∃ hits, outcome = .deleted hits ∧ hits.length = keys.length ∧
        ∀ j, keys[j]? = some key → (hits[j]? = some true ↔ j = keys.idxOf key)) Breaks s := by
  refine wp.bind (wp.forEach (fun done hits s' => s'.Reads readings ∧
    hits.length = done.length ∧ (key ∈ done → s'.tables.main.get key = none) ∧
    (key ∉ done → s'.tables.main.get key = some r) ∧
    ∀ j, done[j]? = some key → (hits[j]? = some true ↔ j = done.idxOf key)) ?_ ?_) ?_
  · exact ⟨held, rfl, by simp, fun _ => stored, by simp⟩
  · rintro done next todo hits s₁ - ⟨held₁, long, gone, there, first⟩
    refine (applyDelete_judged held₁ next).imp ?_
    rintro hit s₂ ⟨⟨now, reading, rfl⟩, main, held₂⟩
    have after : key ≠ next → s₂.tables.main.get key = s₁.tables.main.get key := fun other => by
      rw [main, Table.get_delete_of_ne other]
    refine ⟨held₂, by simp [long], ?_, ?_, ?_⟩
    · intro mem
      by_cases same : key = next
      · rw [main, same, Table.get_delete_self]
      · rw [after same]
        exact gone (by simpa [same] using mem)
    · intro out
      rw [List.mem_append, List.mem_singleton, not_or] at out
      rw [after out.2]
      exact there out.1
    · intro j at'
      rcases lt_or_ge j done.length with before | here
      · rw [List.getElem?_append_left before] at at'
        rw [List.getElem?_append_left (by omega), first j at',
          List.idxOf_append_of_mem (List.mem_of_getElem? at')]
      · obtain rfl : j = done.length := by
          have := (List.getElem?_eq_some_iff.mp at').1
          simp only [List.length_append, List.length_singleton] at this
          omega
        obtain rfl : next = key := by simpa using at'
        rw [← long, List.getElem?_concat_length, long, Option.some.injEq]
        by_cases seen : next ∈ done
        · rw [List.idxOf_append_of_mem seen]
          have := List.idxOf_lt_length_of_mem seen
          simp only [displacedAt, gone seen, Displaced.default, Bool.false_eq_true, false_iff]
          omega
        · rw [List.idxOf_append_of_notMem seen]
          simp [displacedAt, there seen, Displaced.of, live now reading]
  · rintro hits s' ⟨-, long, -, -, first⟩
    exact wp.pure ⟨hits, rfl, long, first⟩

theorem submit_delete {sh : Shard} {clock : Nat → Nat} (times : ∀ k, clock k ∈ readings)
    (stored : sh.tables.main.get key = some r)
    (live : ∀ now ∈ readings, r.isAlive now sh.engine.epoch sh.engine.registry.generation = true)
    (keys : List Bytes) :
    ∃ hits, (submit clock (.delete keys) sh).1 = .ok (.deleted hits) ∧ hits.length = keys.length ∧
      ∀ j, keys[j]? = some key → (hits[j]? = some true ↔ j = keys.idxOf key) := by
  obtain ⟨_, s, ⟨hits, rfl, found⟩, done⟩ := submit_succeeds
    (deleteJob_hits (s := { sh.begin [] with clock }) times stored live keys)
  exact ⟨hits, by rw [done], found⟩

theorem submit_delete_deleted (sh : Shard) (clock : Nat → Nat) (keys : List Bytes) :
    ∃ hits, (submit clock (.delete keys) sh).1 = .ok (.deleted hits) := by
  have ran : wp (apply sh.engine (.delete keys)) (fun outcome _ => ∃ hits, outcome = .deleted hits)
      Breaks { sh.begin [] with clock } := by
    refine wp.bind (wp.forEach (fun _ _ _ => True) trivial ?_) fun hits _ _ => wp.pure ⟨hits, rfl⟩
    intro _ next _ _ s₁ _ _
    have anytime : s₁.Reads Set.univ := fun k => Set.mem_univ (s₁.clock k)
    exact (applyDelete_judged anytime next).imp fun _ _ _ => trivial
  obtain ⟨_, s, ⟨hits, rfl⟩, done⟩ := submit_succeeds ran
  exact ⟨hits, by rw [done]⟩

variable {n : Nat}

/-- The item at `j` is the first of its key exactly when the search for the key ends
there. -/
theorem idxOf_eq_iff_find? {run : List (Placed n Bytes)} (once : run.Nodup) {j : Nat}
    {entry : Placed n Bytes} (here : run[j]? = some entry) :
    j = (run.map Placed.item).idxOf key ↔
      run.find? (fun entry => entry.item = key) = some entry := by
  have index : (run.map Placed.item).idxOf key = run.findIdx fun entry => entry.item = key := by
    rw [List.idxOf, List.findIdx_map]
    congr 1
    funext other
    rw [Function.comp_apply, beq_eq_decide]
  rw [index, List.find?_eq_getElem?_findIdx]
  constructor
  · rintro rfl
    exact here
  · intro found
    have inside := (List.getElem?_eq_some_iff.mp here).1
    exact (List.getElem?_inj inside once).mp (here.trans found.symm)

variable [NeZero n] (node : VashStore n)

/-- The answers of the runs of a delete, for a key that stays live. -/
theorem deleteRuns_ensures {keys : List Bytes} (runs : List (Fin n × List (Placed n Bytes)))
    (grouped : ∀ run ∈ runs, run ∈ group node.sort node.hash id keys)
    (once : (runs.map Prod.fst).Nodup) (results : List Bool) (long : results.length = keys.length)
    (parties : Fin n → Shard)
    (live : forKey node.hash key ∈ runs.map Prod.fst →
      (parties (forKey node.hash key)).tables.main.get key = some r ∧
        ∀ now ∈ readings, r.isAlive now (parties (forKey node.hash key)).engine.epoch
          (parties (forKey node.hash key)).engine.registry.generation = true) :
    (VashStore.deleteRuns runs results).Ensures submit (fun clock => ∀ k, clock k ∈ readings)
      (fun hits _ => ∀ p, keys[p]? = some key →
        (forKey node.hash key ∉ runs.map Prod.fst → hits[p]? = results[p]?) ∧
        ∀ run, (forKey node.hash key, run) ∈ runs → (hits[p]? = some true ↔
          run.find? (fun entry => entry.item = key) = some ⟨forKey node.hash key, p, key⟩))
      (fun _ _ => True) parties := by
  induction runs generalizing results parties with
  | nil => exact fun p _ => ⟨fun _ => rfl, by simp⟩
  | cons first rest ih =>
    obtain ⟨shard, run⟩ := first
    rw [List.map_cons, List.nodup_cons] at once
    have mine := grouped (shard, run) List.mem_cons_self
    have others := fun run' mem => grouped run' (List.mem_cons_of_mem _ mem)
    have positions := run_positions_nodup mine
    refine Call.Ensures.bind ?_
    intro clock times
    by_cases here : shard = forKey node.hash key
    · subst here
      obtain ⟨stored, live⟩ := live List.mem_cons_self
      obtain ⟨hits, answer, length, hit⟩ := submit_delete times stored live
        (run.map Placed.item)
      rw [answer]
      refine (ih others once.2 (scatter results ((run.map Placed.position).zip hits))
        (by rw [length_scatter, long]) _ fun mem => absurd mem once.1).imp ?_
      intro final _ later p found
      refine ⟨fun out => absurd List.mem_cons_self out, ?_⟩
      intro run' mem
      have same : run' = run := by
        rcases List.mem_cons.mp mem with same | other
        · exact (Prod.mk.inj same).2
        · exact absurd (List.mem_map_of_mem (f := Prod.fst) other) once.1
      subst same
      -- The answer for the position is the one of its place in the run.
      have entry : (⟨forKey node.hash key, p, key⟩ : Placed n Bytes) ∈ run' :=
        (mem_run mine).mpr ⟨rfl, found, rfl⟩
      obtain ⟨j, at'⟩ := List.mem_iff_getElem?.mp entry
      have named : (run'.map Placed.item)[j]? = some key := by simp [at']
      obtain ⟨answer, heard⟩ : ∃ answer, hits[j]? = some answer := by
        have inside := (List.getElem?_eq_some_iff.mp at').1
        rw [List.length_map] at length
        exact ⟨_, List.getElem?_eq_getElem (length ▸ inside)⟩
      have placed : (p, answer) ∈ (run'.map Placed.position).zip hits :=
        List.mem_of_getElem? (i := j) (List.getElem?_zip_eq_some.mpr ⟨by simp [at'], heard⟩)
      have distinct : (((run'.map Placed.position).zip hits).map Prod.fst).Nodup := by
        rw [List.map_fst_zip (by simpa using length.ge)]
        exact positions
      have inside : p < results.length := long ▸ (List.getElem?_eq_some_iff.mp found).1
      rw [(later p found).1 once.1, scatter_of_mem distinct placed inside, ← heard, hit j named]
      exact idxOf_eq_iff_find? positions.of_map at'
    · obtain ⟨hits, answer⟩ := submit_delete_deleted (parties shard) clock (run.map Placed.item)
      rw [answer]
      have elsewhere : forKey node.hash key ≠ shard := Ne.symm here
      refine (ih others once.2 (scatter results ((run.map Placed.position).zip hits))
        (by rw [length_scatter, long]) _ fun mem => ?_).imp ?_
      · rw [Function.update_of_ne elsewhere]
        exact live (List.mem_cons_of_mem _ mem)
      intro final _ later p found
      -- No item of another shard stands at a position of the key.
      have untouched : p ∉ ((run.map Placed.position).zip hits).map Prod.fst := by
        intro mem
        obtain ⟨⟨position, heard⟩, zipped, same⟩ := List.mem_map.mp mem
        obtain ⟨entry, placed, rfl⟩ := List.mem_map.mp (List.of_mem_zip zipped).1
        subst same
        obtain ⟨-, item, owner⟩ := (mem_run mine).mp placed
        rw [Option.some.inj (found.symm.trans item)] at here
        exact here owner
      refine ⟨fun out => ?_, fun run' mem => ?_⟩
      · rw [(later p found).1 fun mem => out (List.mem_cons_of_mem _ mem),
          scatter_of_not_mem untouched]
      · refine (later p found).2 run' ((List.mem_cons.mp mem).resolve_left fun same => ?_)
        exact elsewhere (Prod.mk.inj same).1

/-- The first item of a key, in the order of the sort, is the first of its run. -/
theorem find?_run (keys : List Bytes) (key : Bytes) :
    ((node.arranged id keys).filter fun entry => entry.shard = forKey node.hash key).find?
        (fun entry => entry.item = key) =
      (node.arranged id keys).find? fun entry => entry.item = key := by
  rw [List.find?_filter]
  apply List.find?_congr
  intro entry mem
  have owner := (mem_place.mp (((node.sort.perm _).mem_iff).mp mem)).2
  by_cases same : entry.item = key
  · simp [same, owner]
  · simp [same]

/-- `delete_many` reports a key that stays live at the item the sort left first. -/
theorem deleteMany_ensures {keys : List Bytes} (mem : key ∈ keys) (parties : Fin n → Shard)
    (stored : (parties (forKey node.hash key)).tables.main.get key = some r)
    (live : ∀ now ∈ readings, r.isAlive now (parties (forKey node.hash key)).engine.epoch
      (parties (forKey node.hash key)).engine.registry.generation = true) :
    (node.deleteMany keys).Ensures submit (fun clock => ∀ k, clock k ∈ readings)
      (fun hits _ => ∀ p, keys[p]? = some key → (hits[p]? = some true ↔
        ((node.arranged id keys).find? fun entry => entry.item = key).map Placed.position =
          some p)) (fun _ _ => True) parties := by
  refine (deleteRuns_ensures node (group node.sort node.hash id keys) (fun _ mem => mem) group_nodup
    (keys.map fun _ => false) (by simp) parties fun _ => ⟨stored, live⟩).imp ?_
  intro hits _ reported p found
  obtain ⟨run, grouped, -⟩ : ∃ run, (forKey node.hash key, run) ∈
      group node.sort node.hash id keys ∧ _ := exists_run found
  rw [(reported p found).2 run grouped, (mem_group.mp grouped).1]
  change ((node.arranged id keys).filter _).find? _ = _ ↔ _
  rw [find?_run, Option.map_eq_some_iff]
  constructor
  · intro first
    exact ⟨_, first, rfl⟩
  · rintro ⟨entry, first, rfl⟩
    obtain rfl : entry.item = key := by simpa using List.find?_some first
    have owner := (mem_place.mp
      (((node.sort.perm _).mem_iff).mp (List.mem_of_find?_eq_some first))).2
    rw [first]
    obtain ⟨shard, position, item⟩ := entry
    simp only [Option.some.injEq, Placed.mk.injEq, and_true]
    exact owner

end Deletes

/-! ### The order of the request -/

/-- After `set_many` every key holds the value of its last item in the request exactly
when that is the value of the item the sort left last; and `delete_many` reports a key
that stays live exactly at its first item in the request when that is the item the
sort left first. The sort promises neither. -/
theorem batches_follow_the_request_iff {n : Nat} [NeZero n] (node : VashStore n)
    (clocks : Nat → Nat → Nat) (parties parties' : Fin n → Shard) :
    (∀ sets tokens,
      (node.setMany sets).run submit clocks parties = (.ok tokens, parties') →
      ((∀ key set, lastSet sets key = some set →
          ∃ r, (parties' (forKey node.hash key)).tables.main.get key = some r ∧
            r.value = set.value) ↔
        ∀ key set set', lastSet sets key = some set →
          lastSet ((node.arranged SetRequest.key sets).map Placed.item) key = some set' →
            set'.value = set.value)) ∧
    ∀ keys hits key r, (node.deleteMany keys).run submit clocks parties = (.ok hits, parties') →
      key ∈ keys → (parties (forKey node.hash key)).tables.main.get key = some r →
      (∀ k j, r.isAlive (clocks k j) (parties (forKey node.hash key)).engine.epoch
        (parties (forKey node.hash key)).engine.registry.generation = true) →
      ((∀ p, keys[p]? = some key → (hits[p]? = some true ↔ p = keys.idxOf key)) ↔
        ((node.arranged id keys).find? fun entry => entry.item = key).map Placed.position =
          some (keys.idxOf key)) := by
  constructor
  · intro sets tokens ran
    have ensured : (node.setMany sets).Ensures submit (fun _ => True) _ _ parties :=
      setMany_ensures node sets parties
    have held := ensured.run (fun _ => trivial) ran
    constructor
    · intro wins key set set' last left
      obtain ⟨r, stored, value⟩ := wins key set last
      obtain ⟨r', stored', value'⟩ := held key set' left
      rw [← value', ← value, Option.some.inj (stored.symm.trans stored')]
    · intro same key set last
      obtain ⟨set', left⟩ : ∃ set',
          lastSet ((node.arranged SetRequest.key sets).map Placed.item) key = some set' := by
        cases left : lastSet ((node.arranged SetRequest.key sets).map Placed.item) key with
        | some set' => exact ⟨set', rfl⟩
        | none =>
          -- The sort loses no item of the key.
          have empty := List.getLast?_eq_none_iff.mp left
          have perm : ((node.arranged SetRequest.key sets).map Placed.item).Perm sets :=
            arrange_items_perm
          have none : (sets.filter fun set => set.key = key) = [] :=
            List.Perm.eq_nil (empty ▸ (perm.filter _).symm)
          simp [lastSet, none] at last
      obtain ⟨r, stored, value⟩ := held key set' left
      exact ⟨r, stored, value.trans (same key set set' last left)⟩
  · intro keys hits key r ran mem stored live
    have alive : ∀ now ∈ {now | ∃ k j, clocks k j = now},
        r.isAlive now (parties (forKey node.hash key)).engine.epoch
          (parties (forKey node.hash key)).engine.registry.generation = true := by
      rintro _ ⟨k, j, rfl⟩
      exact live k j
    have reported := (deleteMany_ensures node mem parties stored alive).run
      (fun k j => ⟨k, j, rfl⟩) ran
    constructor
    · intro first
      have here : keys[keys.idxOf key]? = some key := List.getElem?_idxOf mem
      exact (reported _ here).mp ((first _ here).mpr rfl)
    · intro left p found
      rw [reported p found, left, Option.some.injEq, eq_comm]

/-- A sort that turns the items of each shard around. -/
def ShardSort.reversing (n : Nat) : ShardSort n where
  arrange placed := (ShardSort.stable n).arrange placed.reverse
  perm placed := ((ShardSort.stable n).perm placed.reverse).trans placed.reverse_perm
  sorted placed := (ShardSort.stable n).sorted placed.reverse

/-- One shard is enough for a store. -/
instance oneShard : NeZero 1 := ⟨Nat.one_ne_zero⟩

/-- A store of one shard, with a sort. -/
def oneShardStore (sort : ShardSort 1) : VashStore 1 := ⟨fun _ => 0, sort, 8⟩

/-- A shard just created. -/
def newShard : Fin 1 → Shard := fun _ => .create (firstByteConfig 1000)

/-- A call alone, at the clock reading `100`. -/
abbrev alone {α : Type} (call : NodeCall 1 α) (parties : Fin 1 → Shard) :
    Except StoreError α × (Fin 1 → Shard) :=
  call.run submit (fun _ _ => 100) parties

/-- An unconditional set of the key `7`. -/
def setSeven (value : Bytes) : SetRequest := ⟨[7], value, .set 0, 0, [], .set, false⟩

/-- The key `7` is set to `1` and then to `2` under a sort that keeps the order. -/
theorem batches_follow_the_request_stable :
    ∃ r, ((alone ((oneShardStore (.stable 1)).setMany [setSeven [1], setSeven [2]])
      newShard).2 0).tables.main.get [7] = some r ∧ r.value = [2] := by
  have kept : ((oneShardStore (.stable 1)).arranged SetRequest.key
      [setSeven [1], setSeven [2]]).map Placed.item = [setSeven [1], setSeven [2]] := by decide
  have answer : (alone ((oneShardStore (.stable 1)).setMany [setSeven [1], setSeven [2]])
      newShard).1 = .ok [1, 2] := by decide +kernel
  have ran : alone ((oneShardStore (.stable 1)).setMany [setSeven [1], setSeven [2]]) newShard =
      (.ok [1, 2], (alone ((oneShardStore (.stable 1)).setMany [setSeven [1], setSeven [2]])
        newShard).2) := by rw [← answer]
  have wins := ((batches_follow_the_request_iff (oneShardStore (.stable 1)) (fun _ _ => 100)
    newShard _).1 _ _ ran).mpr (fun key set set' last left => by
      rw [kept] at left
      rw [Option.some.inj (left.symm.trans last)])
  have owned := wins [7] (setSeven [2]) (by decide)
  rwa [show forKey (oneShardStore (.stable 1)).hash [7] = 0 from Subsingleton.elim _ _] at owned

/-- A store of two shards under a sort that turns the items of each shard around. -/
def turningStore : VashStore 2 := ⟨fun key => (key.headD 0).toNat, .reversing 2, 8⟩

/-- Two keys in turns, each on a shard of its own, under values that number the items. -/
def setsInTurns : List SetRequest :=
  (List.range 64).map fun i => ⟨[UInt8.ofNat (i % 2)], [UInt8.ofNat i], .set 0, 0, [], .set, false⟩

/-- Turned around within its shard, a batch leaves the first value of a key, and a
delete reports the last occurrence. -/
theorem permuted_items_win :
    let stored := (turningStore.setMany setsInTurns).run submit (fun _ _ => 100)
      fun _ => .create (firstByteConfig 1000)
    ((stored.2 0).get 100 [0]).map Value.data = some [0] ∧
      ((turningStore.deleteMany (setsInTurns.map SetRequest.key)).run submit (fun _ _ => 100)
        stored.2).1 = .ok ((List.range 64).map fun i => decide (62 ≤ i)) :=
  ⟨by decide +kernel, by decide +kernel⟩

end Vash.Node
