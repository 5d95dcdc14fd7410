import Vash.Node.Batches

/-!
# Refused writes and the tag registry

A write registers the tags its shards do not know before anything else about it is
checked but the number of its tags, and each registration is committed on its own.

* `refused_write_leaves_names_iff` — a write that is refused leaves the registered
  names alone exactly when it had none to register, or its first one was refused.
* `oversized_value_leaves_a_name` — one that does not.
-/

namespace Vash.Node

open Library Store

/-! ### The first name -/

/-- The names registered in a shard. -/
def Registered (sh : Shard) : Set Bytes := {name | sh.tables.tags.get name ≠ none}

/-- The shard takes the name as a new one. -/
def Takes (sh : Shard) (name : Bytes) : Prop := ValidName name ∧ ¬ sh.engine.TagsFull

section Create

variable {sh : Shard} {name : Bytes} {clock : Nat → Nat}

/-- A refusal of a name does not break the transaction. -/
theorem createTags_mild {eng : Engine} {s : Txn} (names : List (Bytes × Nat)) :
    wp (apply eng (.createTags names)) (fun _ _ => True)
      (fun e s' => e.poisonsTransaction = false ∨ Breaks e s') s := by
  refine wp.bind (wp.forEach (fun _ _ _ => True) trivial fun _ _ _ _ s _ _ => ?_)
    fun _ _ _ => wp.pure trivial
  refine (createTag_spec _).mono (fun _ _ _ => trivial) ?_
  rintro e s' (⟨mild, -, -⟩ | ⟨breaks, -⟩)
  · exact .inl mild
  · exact .inr breaks

theorem apply_createTags_cons (eng : Engine) (first : Bytes × Nat) (names : List (Bytes × Nat)) :
    apply eng (.createTags (first :: names)) =
      (createTag eng first >>= fun _ => apply eng (.createTags names)) := by
  simp [apply, forEach]

/-- A job whose first name is taken registers it, whatever becomes of the others. -/
theorem submit_createTags_takes (absent : name ∉ Registered sh) (takes : Takes sh name)
    (start : Nat) (names : List (Bytes × Nat)) :
    name ∈ Registered (submit clock (.createTags ((name, start) :: names)) sh).2 := by
  have unknown : sh.tables.tags.get name = none := not_not.mp absent
  have ran : wp (apply sh.engine (.createTags ((name, start) :: names)))
      (fun _ s => s.tables.tags.get name ≠ none)
      (fun e s => s.tables.tags.get name ≠ none ∧ e.poisonsTransaction = false ∨ Breaks e s)
      { sh.begin [] with clock } := by
    rw [apply_createTags_cons]
    refine wp.bind (m := fun _ s => s.tables.tags.get name ≠ none) ?_ ?_
    · refine (createTag_spec (name, start)).mono (fun _ s₁ h => ?_) ?_
      · rw [h.2.2]
        simp
      · rintro e s' (⟨-, -, why⟩ | ⟨breaks, -⟩)
        · exact absurd ⟨tagNameOk_iff.mpr takes.1, fun _ => takes.2⟩ why
        · exact .inr breaks
    · intro _ s₁ there
      have kept : ∀ rows, RowsAdded s₁.tables.tags rows → rows.get name ≠ none := by
        intro rows added
        obtain ⟨row, found⟩ := Option.ne_none_iff_exists'.mp there
        rw [added.kept name row found]
        simp
      refine ((createTags_adds names).and (createTags_mild names)).mono
        (fun _ s h => kept _ h.1) ?_
      rintro e s ⟨added | breaks, mild | breaks'⟩
      · exact .inl ⟨kept _ added, mild⟩
      · exact .inr breaks'
      · exact .inr breaks
      · exact .inr breaks
  cases applied : apply sh.engine (.createTags ((name, start) :: names))
      { sh.begin [] with clock } with
  | ok outcome s =>
    rw [submit_ok applied]
    exact ran.of_ok applied
  | error e s =>
    have sound := (apply_sound sh.engine _ _ ⟨rfl, rfl⟩).of_error applied
    obtain ⟨there, mild⟩ := (ran.of_error applied).resolve_right
      fun breaks => absurd (sound.2.symm.trans breaks.2) (by simp)
    rw [submit_refused applied mild]
    exact there

variable (clock) in
/-- A job whose first name is refused does nothing. -/
theorem submit_createTags_refuses (absent : name ∉ Registered sh) (refused : ¬ Takes sh name)
    (start : Nat) (names : List (Bytes × Nat)) :
    (∃ e, (submit clock (.createTags ((name, start) :: names)) sh).1 = .error e) ∧
      (submit clock (.createTags ((name, start) :: names)) sh).2.tables.tags = sh.tables.tags := by
  have unknown : sh.tables.tags.get name = none := not_not.mp absent
  have ran : wp (apply sh.engine (.createTags ((name, start) :: names))) (fun _ _ => False)
      (fun e s => s.tables.tags = sh.tables.tags ∨ Breaks e s) { sh.begin [] with clock } := by
    rw [apply_createTags_cons]
    refine wp.bind (m := fun _ _ => False) ?_ fun _ _ h => h.elim
    refine (createTag_spec (name, start)).mono (fun _ _ h => ?_) fun _ _ h => h.rows
    exact refused ⟨tagNameOk_iff.mp h.1.1, h.1.2 unknown⟩
  exact submit_stops ran

end Create

/-! ### Registration -/

/-- The names the sets need that the shard does not know, in the order it is asked. -/
def missingOn (sh : Shard) (sets : List SetRequest) : List Bytes :=
  sets.flatMap fun set => sh.engine.registry.missing set.tags

theorem missingOn_cons (sh : Shard) (set : SetRequest) (rest : List SetRequest) :
    missingOn sh (set :: rest) = sh.engine.registry.missing set.tags ++ missingOn sh rest := rfl

/-- What the registry is missing has no row. -/
theorem missingOn_unregistered {sh : Shard} (ok : sh.TagsOk) {sets : List SetRequest} {name : Bytes}
    (mem : name ∈ missingOn sh sets) : name ∉ Registered sh := by
  obtain ⟨set, -, missing⟩ := List.mem_flatMap.mp mem
  have absent : sh.engine.registry.byName.get name = none := by
    by_contra present
    obtain ⟨entry, found⟩ := Option.ne_none_iff_exists'.mp present
    exact (Registry.mem_missing.mp missing).2 (Table.mem_keys.mpr ⟨entry, found⟩)
  rw [ok.mirrors.byName, Option.map_eq_none_iff] at absent
  exact fun registered => registered absent

section Register

variable {n : Nat} {allowed : (Nat → Nat) → Prop}

theorem nodeGeneration_ensures (name : Bytes) (shards : List (Fin n)) (highest : Option Nat)
    (parties : Fin n → Shard) :
    (VashStore.nodeGeneration name shards highest).Ensures submit allowed
      (fun _ parties' => parties' = parties) (fun _ _ => False) parties := by
  induction shards generalizing highest with
  | nil => rfl
  | cons shard rest ih => exact fun clock _ => ih _

theorem gatherNames_ensures (names : List Bytes) (missing : List (Bytes × Nat))
    (parties : Fin n → Shard) :
    (VashStore.gatherNames names missing : NodeCall n _).Ensures submit allowed
      (fun result parties' => parties' = parties ∧
        (result.map Prod.fst).head? = (missing.map Prod.fst ++ names).head?)
      (fun _ _ => False) parties := by
  induction names generalizing missing with
  | nil => exact ⟨rfl, by rw [List.append_nil]⟩
  | cons name rest ih =>
    unfold VashStore.gatherNames
    split
    · rename_i known
      refine (ih missing).imp ?_
      rintro result _ ⟨rfl, first⟩
      refine ⟨rfl, first.trans ?_⟩
      cases missing with
      | nil => simp at known
      | cons first missing => rfl
    · refine (nodeGeneration_ensures name _ none parties).seq ?_
      rintro generation _ rfl
      refine (ih (missing ++ [(name, generation.getD 0)])).imp ?_
      rintro result _ ⟨rfl, first⟩
      exact ⟨rfl, by simpa using first⟩

variable [NeZero n] (node : VashStore n)

theorem gatherSets_ensures {owner : Fin n} (sets : List SetRequest)
    (owned : ∀ set ∈ sets, forKey node.hash set.key = owner) (shard : Option (Fin n))
    (missing : List (Bytes × Nat)) (held : missing ≠ [] → shard = some owner)
    (parties : Fin n → Shard) :
    (node.gatherSets sets shard missing).Ensures submit allowed
      (fun result parties' => parties' = parties ∧
        (result.2.map Prod.fst).head? =
          (missing.map Prod.fst ++ missingOn (parties owner) sets).head? ∧
        (result.2 ≠ [] → result.1 = some owner)) (fun _ _ => False) parties := by
  induction sets generalizing shard missing with
  | nil => exact ⟨rfl, by rw [missingOn, List.flatMap_nil, List.append_nil], held⟩
  | cons set rest ih =>
    have later := fun set mem => owned set (List.mem_cons_of_mem _ mem)
    unfold VashStore.gatherSets
    split
    · rename_i untagged
      refine (ih later shard missing held).imp ?_
      rintro result _ ⟨rfl, first, known⟩
      refine ⟨rfl, ?_, known⟩
      rw [first, missingOn_cons, List.isEmpty_iff.mp untagged]
      rfl
    · intro clock _
      rw [owned set List.mem_cons_self]
      refine (gatherNames_ensures _ missing parties).seq ?_
      rintro more _ ⟨rfl, first⟩
      refine (ih later (some owner) more fun _ => rfl).imp ?_
      rintro result _ ⟨rfl, next, known⟩
      refine ⟨rfl, ?_, known⟩
      rw [List.head?_append] at first
      rw [next, missingOn_cons, ← List.append_assoc]
      simp only [List.head?_append, first]

/-- What registering one run does, from the first name its shard does not know. -/
theorem registerRun_ensures {owner : Fin n} {run : List (Placed n SetRequest)}
    (owned : ∀ entry ∈ run, forKey node.hash entry.item.key = owner) (parties : Fin n → Shard)
    {post : Unit → (Fin n → Shard) → Prop} {stop : StoreError → (Fin n → Shard) → Prop}
    (known : missingOn (parties owner) (run.map Placed.item) = [] → post () parties)
    (create : ∀ name start names,
      (missingOn (parties owner) (run.map Placed.item)).head? = some name →
      (createTagsOn owner ((name, start) :: names)).Ensures submit allowed post stop parties) :
    (node.registerRun run).Ensures submit allowed post stop parties := by
  have items : ∀ set ∈ run.map Placed.item, forKey node.hash set.key = owner := by
    intro set mem
    obtain ⟨entry, placed, rfl⟩ := List.mem_map.mp mem
    exact owned entry placed
  refine Call.Ensures.bind ((gatherSets_ensures node _ items none [] (by simp) parties).mono ?_
    fun _ _ h => h.elim)
  rintro ⟨shard, missing⟩ _ ⟨rfl, first, knows⟩
  rw [List.map_nil, List.nil_append] at first
  cases missing with
  | nil =>
    have none := List.head?_eq_none_iff.mp first.symm
    cases shard with
    | none => exact known none
    | some shard => exact known none
  | cons name names =>
    obtain rfl : shard = some owner := knows (by simp)
    exact create name.1 name.2 names first.symm

end Register

/-- The first name a run needs that its shard does not know. -/
def firstMissing {n : Nat} (parties : Fin n → Shard) :
    List (Fin n × List (Placed n SetRequest)) → Option (Fin n × Bytes)
  | [] => none
  | (shard, run) :: rest =>
    match missingOn (parties shard) (run.map Placed.item) with
    | [] => firstMissing parties rest
    | name :: _ => some (shard, name)

theorem firstMissing_unregistered {n : Nat} {parties : Fin n → Shard} {i : Fin n}
    (ok : (parties i).TagsOk) {runs : List (Fin n × List (Placed n SetRequest))} {name : Bytes}
    (first : firstMissing parties runs = some (i, name)) : name ∉ Registered (parties i) := by
  induction runs with
  | nil => cases first
  | cons run rest ih =>
    obtain ⟨shard, run⟩ := run
    unfold firstMissing at first
    split at first
    · exact ih first
    · rename_i missing
      obtain ⟨rfl, rfl⟩ := Prod.mk.inj (Option.some.inj first)
      exact missingOn_unregistered ok (missing ▸ List.mem_cons_self)

/-- Writes without tags are missing no name. -/
theorem firstMissing_untagged {n : Nat} (parties : Fin n → Shard)
    {runs : List (Fin n × List (Placed n SetRequest))}
    (untagged : ∀ run ∈ runs, ∀ entry ∈ run.2, entry.item.tags = []) :
    firstMissing parties runs = none := by
  induction runs with
  | nil => rfl
  | cons run rest ih =>
    obtain ⟨shard, run⟩ := run
    have none : missingOn (parties shard) (run.map Placed.item) = [] := by
      rw [missingOn, List.flatMap_eq_nil_iff]
      intro set mem
      obtain ⟨entry, placed, rfl⟩ := List.mem_map.mp mem
      rw [untagged _ List.mem_cons_self entry placed]
      rfl
    simp only [firstMissing, none]
    exact ih fun run mem => untagged run (List.mem_cons_of_mem _ mem)

section Runs

variable {n : Nat} {allowed : (Nat → Nat) → Prop} [NeZero n] (node : VashStore n)
  {runs : List (Fin n × List (Placed n SetRequest))} {parties : Fin n → Shard}

/-- What registering the runs does, from the first name that is missing. -/
theorem registerRuns_ensures
    (owned : ∀ run ∈ runs, ∀ entry ∈ run.2, forKey node.hash entry.item.key = run.1)
    {post : Unit → (Fin n → Shard) → Prop} {stop : StoreError → (Fin n → Shard) → Prop}
    (known : firstMissing parties runs = none → post () parties)
    (create : ∀ i name start names rest, firstMissing parties runs = some (i, name) →
      (createTagsOn i ((name, start) :: names)).Ensures submit allowed
        (fun _ parties' => (node.registerRuns rest).Ensures submit allowed post stop parties')
        stop parties) :
    (node.registerRuns runs).Ensures submit allowed post stop parties := by
  induction runs with
  | nil => exact known rfl
  | cons first rest ih =>
    obtain ⟨shard, run⟩ := first
    refine Call.Ensures.bind (registerRun_ensures node (owned _ List.mem_cons_self) parties ?_ ?_)
    · intro none
      have next : firstMissing parties ((shard, run) :: rest) = firstMissing parties rest := by
        simp only [firstMissing, none]
      rw [next] at known create
      exact ih (fun run mem => owned run (List.mem_cons_of_mem _ mem)) known create
    · intro name start names first
      obtain ⟨others, missing⟩ := List.head?_eq_some_iff.mp first
      exact create shard name start names rest (by simp only [firstMissing, missing])

variable (owned : ∀ run ∈ runs, ∀ entry ∈ run.2, forKey node.hash entry.item.key = run.1)

include owned

/-- Nothing is missing: nothing is done. -/
theorem registerRuns_none (none : firstMissing parties runs = none) :
    (node.registerRuns runs).Ensures submit allowed (fun _ parties' => parties' = parties)
      (fun _ _ => False) parties := by
  refine registerRuns_ensures node owned (fun _ => rfl) fun i name _ _ _ found => ?_
  rw [none] at found
  cases found

/-- A name is missing: the first one is the first that is created. -/
theorem registerRuns_missing {i : Fin n} {name : Bytes}
    (first : firstMissing parties runs = some (i, name))
    {post : Unit → (Fin n → Shard) → Prop} {stop : StoreError → (Fin n → Shard) → Prop}
    (create : ∀ start names rest, (createTagsOn i ((name, start) :: names)).Ensures submit allowed
      (fun _ parties' => (node.registerRuns rest).Ensures submit allowed post stop parties')
      stop parties) :
    (node.registerRuns runs).Ensures submit allowed post stop parties := by
  refine registerRuns_ensures node owned (fun none => ?_) ?_
  · rw [first] at none
    cases none
  · intro i' name' start names rest found
    obtain ⟨rfl, rfl⟩ := Prod.mk.inj (Option.some.inj (first.symm.trans found))
    exact create start names rest

/-- The first missing name is taken: it stays, whatever comes after. -/
theorem registerRuns_takes {i : Fin n} {name : Bytes} (ok : (parties i).TagsOk)
    (first : firstMissing parties runs = some (i, name)) (takes : Takes (parties i) name) :
    (node.registerRuns runs).Ensures submit allowed
      (fun _ parties' => name ∈ Registered (parties' i))
      (fun _ parties' => name ∈ Registered (parties' i)) parties := by
  refine registerRuns_missing node owned first fun start names rest clock _ => ?_
  have there : name ∈ Registered (Function.update parties i
      (submit clock (.createTags ((name, start) :: names)) (parties i)).2 i) := by
    rw [Function.update_self]
    exact submit_createTags_takes (firstMissing_unregistered ok first) takes start names
  -- The jobs that follow create tags, and rows are never lost.
  have stays : ∀ clock op sh, (∃ names, op = .createTags names) → name ∈ Registered sh →
      name ∈ Registered (submit clock op sh).2 := by
    rintro clock _ sh ⟨names, rfl⟩ registered
    obtain ⟨row, found⟩ := Option.ne_none_iff_exists'.mp registered
    have kept := (submit_createTags clock names).kept name row found
    exact fun absent => absurd (kept.symm.trans absent) (by simp)
  cases (submit clock (.createTags ((name, start) :: names)) (parties i)).1 with
  | error e => exact there
  | ok outcome =>
    exact (registerRuns_only (fun names => ⟨names, rfl⟩) node rest).ensures stays there

/-- The first missing name is refused: so is the write, and nothing is done. -/
theorem registerRuns_refuses {i : Fin n} {name : Bytes} (ok : (parties i).TagsOk)
    (first : firstMissing parties runs = some (i, name)) (refused : ¬ Takes (parties i) name) :
    (node.registerRuns runs).Ensures submit allowed (fun _ _ => False)
      (fun _ parties' => ∀ j, (parties' j).tables.tags = (parties j).tables.tags) parties := by
  refine registerRuns_missing node owned first fun start names rest clock _ => ?_
  have absent := firstMissing_unregistered ok first
  obtain ⟨⟨e, answer⟩, rows⟩ := submit_createTags_refuses clock absent refused start names
  rw [answer]
  intro j
  by_cases here : j = i
  · rw [here, Function.update_self, rows]
  · rw [Function.update_of_ne here]

end Runs

/-! ### Writes -/

/-- The calls that write under tags. -/
inductive WriteRequest where
  | set (one : SetRequest)
  | setMany (many : List SetRequest)
  | store (one : SetRequest)

def WriteRequest.sets : WriteRequest → List SetRequest
  | .set one => [one]
  | .setMany many => many
  | .store one => [one]

section Writes

variable {n : Nat} [NeZero n] (node : VashStore n)

/-- The call made for a request, its answer left aside. -/
def VashStore.write : WriteRequest → NodeCall n Unit
  | .set one => node.set one >>= fun _ => pure ()
  | .setMany many => node.setMany many >>= fun _ => pure ()
  | .store one => node.store one >>= fun _ => pure ()

/-- The write has no name to register, or its first one is refused, or it is refused
for the number of its tags before that. -/
def NamesSpared (parties : Fin n → Shard) (sets : List SetRequest) : Prop :=
  (∃ e, node.checkTagCounts sets = .error e) ∨
    ∀ i name, firstMissing parties (group node.sort node.hash SetRequest.key sets) =
      some (i, name) →
      ¬ Takes (parties i) name

/-- The call registers the tags of the sets and hands out record jobs after that. -/
def RegistersFirst {α : Type} (sets : List SetRequest) (call : NodeCall n α) : Prop :=
  ∃ rest : Unit → NodeCall n α, call = node.ensureTagsRegistered sets >>= rest ∧
    ∀ u, (rest u).Only fun op => op.isRecord = true

variable {node} in
theorem RegistersFirst.bind {α β : Type} {sets : List SetRequest} {call : NodeCall n α}
    (first : RegistersFirst node sets call) {next : α → NodeCall n β}
    (only : ∀ a, (next a).Only fun op => op.isRecord = true) :
    RegistersFirst node sets (call >>= next) := by
  obtain ⟨rest, rfl, records⟩ := first
  exact ⟨_, bind_assoc _ _ _, fun u => (records u).bind only⟩

theorem setMany_registersFirst (sets : List SetRequest) :
    RegistersFirst node sets (node.setMany sets) :=
  ⟨_, rfl, fun _ => (sendRuns_only (fun _ => rfl) _ _).bind fun _ => waitBlocking_only _ _⟩

theorem write_registersFirst (request : WriteRequest) :
    RegistersFirst node request.sets (node.write request) := by
  cases request with
  | set one =>
    refine ((setMany_registersFirst node [one]).bind fun cas => ?_).bind fun _ => trivial
    split <;> trivial
  | setMany many => exact (setMany_registersFirst node many).bind fun _ => trivial
  | store one =>
    refine RegistersFirst.bind ⟨_, rfl, fun _ sh now => ?_⟩ fun _ => trivial
    dsimp only
    split
    · trivial
    · exact ask_only rfl

variable {node} in
/-- A registration that gets past the count of tags is that of the runs, even where
there is nothing to register. -/
theorem ensureTagsRegistered_ensures {allowed : (Nat → Nat) → Prop} {sets : List SetRequest}
    (counted : node.checkTagCounts sets = .ok ()) {parties : Fin n → Shard}
    {post : Unit → (Fin n → Shard) → Prop} {stop : StoreError → (Fin n → Shard) → Prop}
    (known : firstMissing parties (group node.sort node.hash SetRequest.key sets) = none →
      post () parties)
    (registers : (node.registerRuns (group node.sort node.hash SetRequest.key sets)).Ensures submit
      allowed post stop parties) :
    (node.ensureTagsRegistered sets).Ensures submit allowed post stop parties := by
  unfold VashStore.ensureTagsRegistered
  rw [counted]
  dsimp only
  split
  · rename_i untagged
    refine known (firstMissing_untagged parties fun run grouped entry mem => ?_)
    have found := ((mem_run (show (run.1, run.2) ∈ _ from grouped)).mp mem).2.1
    have empty := List.all_eq_true.mp untagged _ (List.mem_of_getElem? found)
    exact List.isEmpty_iff.mp empty
  · exact registers

omit [NeZero n] in
theorem records_keep_rows {α : Type} {allowed : (Nat → Nat) → Prop} {call : NodeCall n α}
    (records : call.Only fun op => op.isRecord = true) (i : Fin n) (parties : Fin n → Shard) :
    call.Ensures submit allowed
      (fun _ parties' => (parties' i).tables.tags = (parties i).tables.tags)
      (fun _ parties' => (parties' i).tables.tags = (parties i).tables.tags) parties := by
  have keeps : ∀ clock op sh, op.isRecord = true →
      sh.tables.tags = (parties i).tables.tags →
      (submit clock op sh).2.tables.tags = (parties i).tables.tags :=
    fun clock op sh record held => (submit_record_rows record).trans held
  exact records.ensures keeps rfl

/-- A write that is refused leaves the registered names of every shard alone exactly
when it had none to register, or its first one was refused, or it was refused for the
number of its tags. -/
theorem refused_write_leaves_names_iff (request : WriteRequest) (parties : Fin n → Shard)
    (ok : ∀ i, (parties i).TagsOk) (clocks : Nat → Nat → Nat) (e : StoreError)
    (parties' : Fin n → Shard)
    (ran : (node.write request).run submit clocks parties = (.error e, parties')) :
    (∀ i, Registered (parties' i) = Registered (parties i)) ↔
      NamesSpared node parties request.sets := by
  obtain ⟨rest, call, records⟩ := write_registersFirst node request
  rw [call] at ran
  have owned : ∀ run ∈ group node.sort node.hash SetRequest.key request.sets,
      ∀ entry ∈ run.2, forKey node.hash entry.item.key = run.1 := fun run grouped entry mem =>
    ((mem_run (show (run.1, run.2) ∈ _ from grouped)).mp mem).2.2.symm
  constructor
  · intro same
    by_contra spared
    rw [NamesSpared, not_or] at spared
    obtain ⟨counts, takes⟩ := spared
    have counted : node.checkTagCounts request.sets = .ok () := by
      cases checked : node.checkTagCounts request.sets with
      | error e => exact absurd ⟨e, checked⟩ counts
      | ok u => rfl
    push Not at takes
    obtain ⟨i, name, first, takes⟩ := takes
    have ends : (node.ensureTagsRegistered request.sets >>= rest).Ensures submit (fun _ => True)
        (fun _ parties' => name ∈ Registered (parties' i))
        (fun _ parties' => name ∈ Registered (parties' i)) parties := by
      refine (ensureTagsRegistered_ensures counted (fun none => ?_)
        (registerRuns_takes node owned (ok i) first takes)).seq ?_
      · rw [first] at none
        cases none
      · intro u parties₁ there
        refine (records_keep_rows (records u) i parties₁).mono ?_ ?_
        · intro _ parties₂ rows
          rw [Registered, rows]
          exact there
        · intro _ parties₂ rows
          rw [Registered, rows]
          exact there
    have there := ends.run_error (fun _ => trivial) ran
    rw [same i] at there
    exact firstMissing_unregistered (ok i) first there
  · intro spared
    suffices rows : ∀ i, (parties' i).tables.tags = (parties i).tables.tags by
      intro i
      rw [Registered, rows i, Registered]
    cases checked : node.checkTagCounts request.sets with
    | error refused =>
      unfold VashStore.ensureTagsRegistered at ran
      rw [checked] at ran
      cases ran
      exact fun _ => rfl
    | ok u =>
      have refuses := spared.resolve_left (by rw [checked]; rintro ⟨_, ⟨⟩⟩)
      cases first : firstMissing parties
          (group node.sort node.hash SetRequest.key request.sets) with
      | none =>
        intro i
        have ends : (node.ensureTagsRegistered request.sets >>= rest).Ensures submit
            (fun _ => True) (fun _ _ => True)
            (fun _ parties' => (parties' i).tables.tags = (parties i).tables.tags) parties := by
          refine Call.Ensures.bind ((ensureTagsRegistered_ensures checked (fun _ => rfl)
            (registerRuns_none node owned first)).mono ?_ fun _ _ h => h.elim)
          rintro u _ rfl
          exact (records_keep_rows (records u) i _).imp (fun _ _ _ => trivial)
        exact ends.run_error (fun _ => trivial) ran
      | some missing =>
        obtain ⟨i, name⟩ := missing
        have ends : (node.ensureTagsRegistered request.sets >>= rest).Ensures submit
            (fun _ => True) (fun _ _ => True)
            (fun _ parties' => ∀ j, (parties' j).tables.tags = (parties j).tables.tags)
            parties := by
          refine (ensureTagsRegistered_ensures checked (fun none => ?_)
            (registerRuns_refuses node owned (ok i) first (refuses i name first))).seq ?_
          · rw [first] at none
            cases none
          · exact fun _ _ h => h.elim
        exact ends.run_error (fun _ => trivial) ran

end Writes

/-- A write of a value over the limit of 64 bytes, under the given tags. -/
def oversized (tags : List Bytes) : WriteRequest :=
  .set ⟨[7], List.replicate 65 0, .set 0, 0, tags, .set, false⟩

/-- A shard that knows the tag `9`. -/
def taggedShard : Fin 1 → Shard :=
  fun _ => (submit (fun _ => 100) (.createTags [([9], 0)]) (newShard 0)).2

/-- An oversized write under a tag the shard knows. -/
theorem refused_write_leaves_names_known :
    [9] ∈ Registered (taggedShard 0) ∧
      Registered ((alone ((oneShardStore (.stable 1)).write (oversized [[9]])) taggedShard).2 0) =
        Registered (taggedShard 0) := by
  have answer : (alone ((oneShardStore (.stable 1)).write (oversized [[9]])) taggedShard).1 =
      .error (.core (.valueTooLarge 65 64)) := by decide +kernel
  have ran : alone ((oneShardStore (.stable 1)).write (oversized [[9]])) taggedShard =
      (.error (.core (.valueTooLarge 65 64)),
        (alone ((oneShardStore (.stable 1)).write (oversized [[9]])) taggedShard).2) := by
    rw [← answer]
  have ok : ∀ i, (taggedShard i).TagsOk := fun _ => submit_tagsKept (.create _) (by decide)
  have iff := refused_write_leaves_names_iff (oneShardStore (.stable 1)) (oversized [[9]])
    taggedShard ok (fun _ _ => 100) _ _ ran
  have known : (taggedShard 0).tables.tags.get [9] ≠ none := by decide
  refine ⟨known, iff.mpr (.inr fun i name first => ?_) 0⟩
  have none : firstMissing taggedShard (group (oneShardStore (.stable 1)).sort
      (oneShardStore (.stable 1)).hash SetRequest.key (oversized [[9]]).sets) = none := by decide
  rw [none] at first
  cases first

/-- An oversized write is refused, and the tag it named stays registered. -/
theorem oversized_value_leaves_a_name :
    (alone ((oneShardStore (.stable 1)).write (oversized [[9]])) newShard).1 =
      .error (.core (.valueTooLarge 65 64)) ∧
    (newShard 0).tables.tags.get [9] = none ∧
    ((alone ((oneShardStore (.stable 1)).write (oversized [[9]])) newShard).2 0).tables.tags.get
      [9] = some ⟨0, 0⟩ :=
  ⟨by decide +kernel, by decide, by decide +kernel⟩

end Vash.Node
