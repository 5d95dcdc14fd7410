import Vash.Node.Pointwise

/-!
# The tokens of a fetch that touches

`get_and_touch` reads the keys first and re-stamps those it found afterwards. A
re-stamp stores the record again, under the next token of its shard, so the token
the reply carries is the one before.

* `fetched_tokens_usable_iff` — so the tokens it returns can be used exactly when no
  key it is given is live.
-/

namespace Vash.Node

open Library Store

/-! ### One touch job -/

/-- The record is not served from `now` on, under the epoch and registry given. -/
def DeadFrom (now : Nat) (eng : Engine) (r : Record) : Prop :=
  ∀ later, now ≤ later → r.isAlive later eng.epoch eng.registry.generation = false

theorem DeadFrom.of_dead {now reading : Nat} (le : reading ≤ now) {eng : Engine} {r : Record}
    (dead : r.isAlive reading eng.epoch eng.registry.generation = false) : DeadFrom now eng r :=
  fun _ after => Record.not_isAlive_mono (le.trans after) dead

/-- What touching `keys` before `now` leaves of the records: each is still there, or
stored again under a later token; one that was named and not stored again is dead. -/
def Outdates (now : Nat) (eng : Engine) (keys : Set Bytes) (main main' : Table Bytes Record) :
    Prop :=
  ∀ key r, main.get key = some r → ∃ r', main'.get key = some r' ∧
    (r.header.cas < r'.header.cas ∨ r' = r ∧ (key ∈ keys → DeadFrom now eng r))

/-- No record has a token past the count of its shard. -/
def Behind (c : Config) (count : Nat) (main : Table Bytes Record) : Prop :=
  ∀ key r, main.get key = some r → r.header.cas ≤ count * c.shardCount + c.shardIndex

section Touch

variable {now : Nat} {eng : Engine}

theorem Outdates.refl (main : Table Bytes Record) : Outdates now eng ∅ main main :=
  fun _ r found => ⟨r, found, .inr ⟨rfl, fun mem => absurd mem (Set.notMem_empty _)⟩⟩

theorem Outdates.trans {keys keys' : Set Bytes} {main main' main'' : Table Bytes Record}
    (first : Outdates now eng keys main main') (next : Outdates now eng keys' main' main'') :
    Outdates now eng (keys ∪ keys') main main'' := by
  intro key r found
  obtain ⟨r', found', changed⟩ := first key r found
  obtain ⟨r'', found'', changed'⟩ := next key r' found'
  refine ⟨r'', found'', ?_⟩
  rcases changed with later | ⟨rfl, dead⟩
  · rcases changed' with later' | ⟨rfl, -⟩
    · exact .inl (later.trans later')
    · exact .inl later
  · rcases changed' with later' | ⟨rfl, dead'⟩
    · exact .inl later'
    · exact .inr ⟨rfl, fun mem => mem.elim dead dead'⟩

/-- One key touched, at a reading up to `now`. -/
theorem touch_outdates {s : Txn} (times : s.Reads (Set.Iic now))
    (behind : Behind eng.config s.counters.casNext s.tables.main)
    (fits : eng.config.Fits (s.counters.casNext + 1)) (key : Bytes) (ttlSecs : Nat) :
    wp (applyTouch eng key ttlSecs)
      (fun _ s' => s'.Reads (Set.Iic now) ∧ s'.counters.casNext ≤ s.counters.casNext + 1 ∧
        Behind eng.config s'.counters.casNext s'.tables.main ∧
        Outdates now eng {key} s.tables.main s'.tables.main) Breaks s := by
  have count : wrappingAdd64 s.counters.casNext 1 = s.counters.casNext + 1 :=
    wrappingAdd64_of_lt (by have := fits.lt; omega)
  refine (applyTouch_judged times key ttlSecs).imp ?_
  rintro _ s' ⟨times', ⟨main, counters, dead⟩ | ⟨r', main, token, counted⟩⟩
  · rw [main, counters]
    refine ⟨times', by omega, behind, fun key' r found => ⟨r, found, .inr ⟨rfl, ?_⟩⟩⟩
    rintro rfl
    obtain ⟨reading, le, dead⟩ := dead r found
    exact .of_dead le dead
  · rw [count] at token counted
    rw [fits.token] at token
    rw [main, counted]
    have room : s.counters.casNext * eng.config.shardCount + eng.config.shardIndex <
        (s.counters.casNext + 1) * eng.config.shardCount + eng.config.shardIndex := by
      have := eng.config.shard_lt
      rw [Nat.add_mul]
      omega
    refine ⟨times', le_rfl, ?_, ?_⟩
    · intro key' r found
      by_cases same : key' = key
      · rw [same, Table.get_put_self, Option.some.injEq] at found
        rw [← found, token]
      · rw [Table.get_put_of_ne same] at found
        exact (behind key' r found).trans room.le
    · intro key' r found
      by_cases same : key' = key
      · subst same
        exact ⟨r', Table.get_put_self _ _ _, .inl (token ▸ (behind key' r found).trans_lt room)⟩
      · exact ⟨r, (Table.get_put_of_ne same).trans found, .inr ⟨rfl, fun mem => absurd mem same⟩⟩

/-- A touch job, at readings up to `now`. -/
theorem touchJob_outdates {s : Txn} (times : s.Reads (Set.Iic now))
    (behind : Behind eng.config s.counters.casNext s.tables.main) (keys : List Bytes)
    (fits : eng.config.Fits (s.counters.casNext + keys.length)) (ttlSecs : Nat) :
    wp (apply eng (.touch keys ttlSecs))
      (fun outcome s' => (∃ hits, outcome = .touched hits) ∧
        s'.counters.casNext ≤ s.counters.casNext + keys.length ∧
        Behind eng.config s'.counters.casNext s'.tables.main ∧
        Outdates now eng {key | key ∈ keys} s.tables.main s'.tables.main) Breaks s := by
  refine wp.bind (wp.forEach (fun done _ s' => s'.Reads (Set.Iic now) ∧
    s'.counters.casNext ≤ s.counters.casNext + done.length ∧
    Behind eng.config s'.counters.casNext s'.tables.main ∧
    Outdates now eng {key | key ∈ done} s.tables.main s'.tables.main) ?_ ?_) ?_
  · exact ⟨times, le_rfl, behind, by simpa using Outdates.refl s.tables.main⟩
  · rintro done key todo _ s₁ split ⟨times₁, count₁, behind₁, outdates₁⟩
    have room : eng.config.Fits (s₁.counters.casNext + 1) := by
      refine fits.mono ?_
      rw [split, List.length_append, List.length_cons]
      omega
    refine (touch_outdates times₁ behind₁ room key ttlSecs).imp ?_
    rintro _ s₂ ⟨times₂, count₂, behind₂, outdates₂⟩
    refine ⟨times₂, ?_, behind₂, ?_⟩
    · rw [List.length_append, List.length_singleton]
      omega
    · have both := outdates₁.trans outdates₂
      rwa [show {k | k ∈ done} ∪ {key} = {k | k ∈ done ++ [key]} by ext; simp [or_comm]] at both
  · rintro hits s' ⟨-, count, behind', outdates⟩
    exact wp.pure ⟨⟨hits, rfl⟩, count, behind', outdates⟩

end Touch

/-- The tokens of a shard are behind its count, and `k` more fit. -/
structure Room (sh : Shard) (k : Nat) : Prop where
  behind : Behind sh.engine.config sh.counters.casNext sh.tables.main
  fits : sh.engine.config.Fits (sh.counters.casNext + k)

/-- What touching `keys` before `now` makes of a shard. -/
structure Touched (now : Nat) (keys : Set Bytes) (sh sh' : Shard) : Prop where
  engine : sh'.engine = sh.engine
  records : Outdates now sh.engine keys sh.tables.main sh'.tables.main

theorem Touched.refl {now : Nat} (sh : Shard) : Touched now ∅ sh sh := ⟨rfl, .refl _⟩

theorem Touched.trans {now : Nat} {keys keys' : Set Bytes} {sh sh' sh'' : Shard}
    (first : Touched now keys sh sh') (next : Touched now keys' sh' sh'') :
    Touched now (keys ∪ keys') sh sh'' :=
  ⟨next.engine.trans first.engine, first.records.trans (first.engine ▸ next.records)⟩

theorem submit_touch {now : Nat} {sh : Shard} {clock : Nat → Nat} (times : ∀ k, clock k ≤ now)
    {keys : List Bytes} (room : Room sh keys.length) (ttlSecs : Nat) :
    (∃ hits, (submit clock (.touch keys ttlSecs) sh).1 = .ok (.touched hits)) ∧
      Touched now {key | key ∈ keys} sh (submit clock (.touch keys ttlSecs) sh).2 := by
  have frame : wp (apply sh.engine (.touch keys ttlSecs))
      (fun _ s' => Txn.Frames { sh.begin [] with clock } s') (fun _ _ => True)
      { sh.begin [] with clock } :=
    (recordJob_frame rfl).stops fun _ _ _ => trivial
  have ran := ((touchJob_outdates (s := { sh.begin [] with clock }) times room.behind keys
    room.fits ttlSecs).and frame).stops fun _ _ h => h.1
  obtain ⟨_, s, ⟨⟨⟨hits, rfl⟩, -, -, outdates⟩, frames⟩, done⟩ := submit_succeeds ran
  have engine : (sh.commit s).engine = sh.engine := by
    rw [Shard.commit, frames.effects]
    rfl
  rw [done]
  exact ⟨⟨hits, rfl⟩, engine, outdates⟩

section Node

variable {n : Nat} {now : Nat}

/-- The keys the runs name on a shard. -/
def namedOn (runs : List (Fin n × List (Placed n Bytes))) (i : Fin n) : Set Bytes :=
  {key | ∃ run, (i, run) ∈ runs ∧ ∃ entry ∈ run, entry.item = key}

theorem touchRuns_ensures (ttlSecs : Nat) (runs : List (Fin n × List (Placed n Bytes)))
    (once : (runs.map Prod.fst).Nodup) (parties : Fin n → Shard)
    (room : ∀ i run, (i, run) ∈ runs → Room (parties i) run.length) :
    (VashStore.touchRuns ttlSecs runs).Ensures submit (fun clock => ∀ k, clock k = now)
      (fun _ parties' => ∀ i, Touched now (namedOn runs i) (parties i) (parties' i))
      (fun _ _ => False) parties := by
  induction runs generalizing parties with
  | nil =>
    intro i
    have none : namedOn ([] : List (Fin n × List (Placed n Bytes))) i = ∅ := by
      ext
      simp [namedOn]
    rw [none]
    exact .refl _
  | cons first rest ih =>
    obtain ⟨shard, run⟩ := first
    refine Call.Ensures.bind ?_
    intro clock stands
    rw [List.map_cons, List.nodup_cons] at once
    have mine := room shard run List.mem_cons_self
    rw [← List.length_map Placed.item] at mine
    obtain ⟨⟨hits, answer⟩, touched⟩ := submit_touch (fun k => (stands k).le) mine ttlSecs
    rw [answer]
    refine (ih once.2 _ fun i run' mem => ?_).imp ?_
    · have elsewhere : i ≠ shard := by
        rintro rfl
        exact once.1 (List.mem_map.mpr ⟨(i, run'), mem, rfl⟩)
      rw [Function.update_of_ne elsewhere]
      exact room i run' (List.mem_cons_of_mem _ mem)
    · intro _ parties' later i
      have next := later i
      by_cases here : i = shard
      · subst here
        rw [Function.update_self] at next
        have both := touched.trans next
        have names : {key | key ∈ run.map Placed.item} ∪ namedOn rest i =
            namedOn ((i, run) :: rest) i := by
          ext key
          simp only [namedOn, Set.mem_union, Set.mem_ofPred_eq, List.mem_map, List.mem_cons,
            Prod.mk.injEq, true_and]
          constructor
          · rintro (⟨entry, mem, item⟩ | ⟨run', mem, found⟩)
            · exact ⟨run, .inl rfl, entry, mem, item⟩
            · exact ⟨run', .inr mem, found⟩
          · rintro ⟨run', rfl | mem, found⟩
            · exact .inl found
            · exact .inr ⟨run', mem, found⟩
        rwa [names] at both
      · rw [Function.update_of_ne here] at next
        have names : namedOn ((shard, run) :: rest) i = namedOn rest i := by
          ext key
          simp [namedOn, here]
        rw [names]
        exact next

variable [NeZero n] (node : VashStore n)

/-- The record is served at the reading, where the shard holds it. -/
abbrev Live (sh : Shard) (reading : Nat) (r : Record) : Prop :=
  r.isAlive reading sh.engine.epoch sh.engine.registry.generation = true

/-- No live record is under the key. -/
def Dead (sh : Shard) (reading : Nat) (key : Bytes) : Prop :=
  ∀ r, sh.tables.main.get key = some r → ¬ Live sh reading r

theorem get_eq_none_iff {sh : Shard} {reading : Nat} {key : Bytes} :
    sh.get reading key = none ↔ Dead sh reading key := by
  rw [Option.eq_none_iff_forall_ne_some]
  constructor
  · exact fun none r stored live =>
      none _ (readAlive_eq_some_iff.mpr ⟨r, stored, live, rfl⟩)
  · intro dead v found
    obtain ⟨r, stored, live, -⟩ := readAlive_eq_some_iff.mp found
    exact dead r stored live

/-- Every value is that of a key that was not dead at `start`. -/
def Served (parties : Fin n → Shard) (start : Nat) (keys : List Bytes)
    (values : List (Option Value)) : Prop :=
  ∀ (p : Nat) key v, keys[p]? = some key → values[p]? = some (some v) →
    ¬ Dead (parties (forKey node.hash key)) start key

theorem not_dead_of_get {sh : Shard} {start reading : Nat} (after : start ≤ reading) {key : Bytes}
    {v : Value} (found : sh.get reading key = some v) : ¬ Dead sh start key := by
  intro dead
  obtain ⟨r, stored, live, -⟩ := readAlive_eq_some_iff.mp found
  have gone := DeadFrom.of_dead le_rfl (Bool.eq_false_of_not_eq_true (dead r stored))
  exact Bool.false_ne_true ((gone reading after).symm.trans live)

theorem scatter_cases {α : Type} {results : List α} {answers : List (Nat × α)} {p : Nat} {a : α}
    (found : (scatter results answers)[p]? = some a) :
    results[p]? = some a ∨ (p, a) ∈ answers := by
  induction answers generalizing results with
  | nil => exact .inl found
  | cons answer rest ih =>
    rw [scatter, List.foldl_cons, ← scatter] at found
    rcases ih found with here | later
    · rw [List.getElem?_set] at here
      split at here
      · rename_i same
        split at here
        · obtain rfl := Option.some.inj here
          exact .inr (same ▸ List.mem_cons_self)
        · cases here
      · exact .inl here
    · exact .inr (List.mem_cons_of_mem _ later)

theorem readRuns_live {keys : List Bytes} {start : Nat} (parties : Fin n → Shard)
    (runs : List (Fin n × List (Placed n Bytes)))
    (grouped : ∀ run ∈ runs, run ∈ group node.sort node.hash id keys)
    (results : List (Option Value)) (served : Served node parties start keys results) :
    (VashStore.readRuns (fun sh now keys => keys.map (sh.get now)) runs results).Ensures submit
      (fun clock => ∀ k, start ≤ clock k)
      (fun values _ => Served node parties start keys values) (fun _ _ => True) parties := by
  induction runs generalizing results with
  | nil => exact served
  | cons first rest ih =>
    obtain ⟨shard, run⟩ := first
    intro clock after
    have mine := grouped (shard, run) List.mem_cons_self
    refine ih (fun run' mem => grouped run' (List.mem_cons_of_mem _ mem)) _
      fun p key v here found => ?_
    rcases scatter_cases found with before | read
    · exact served p key v here before
    · dsimp only at read
      rw [List.map_map, List.zip_map'] at read
      obtain ⟨entry, mem, same⟩ := List.mem_map.mp read
      obtain ⟨rfl, got⟩ := Prod.mk.inj same
      obtain ⟨-, item, owner⟩ := (mem_run mine).mp mem
      obtain rfl := Option.some.inj (here.symm.trans item)
      exact owner ▸ not_dead_of_get (after 0) got

/-- Every value `get_and_touch` returns is that of a key live when the call began. -/
theorem getAndTouch_live {start : Nat} (keys : List Bytes) (ttlSecs : Nat)
    (parties : Fin n → Shard) :
    (node.getAndTouch keys ttlSecs).Ensures submit (fun clock => ∀ k, start ≤ clock k)
      (fun values _ => Served node parties start keys values) (fun _ _ => True) parties := by
  have reads : (node.getMany keys).Ensures submit (fun clock => ∀ k, start ≤ clock k)
      (fun values _ => Served node parties start keys values) (fun _ _ => True) parties := by
    unfold VashStore.getMany VashStore.readBatch
    split
    · rename_i one
      intro clock after p key v here found
      rw [List.getElem?_map, here, Option.map_some, Option.some.injEq] at found
      have owner : forKey node.hash key = (0 : Fin n) := by
        subst one
        exact Subsingleton.elim _ _
      exact owner ▸ not_dead_of_get (after 0) found
    · refine readRuns_live node parties _ (fun _ mem => mem) _ fun p key v _ found => ?_
      rw [List.getElem?_map, Option.map_eq_some_iff] at found
      obtain ⟨_, -, absurd⟩ := found
      cases absurd
  refine reads.seq (fun values parties' served => ?_)
  dsimp only
  split
  · exact served
  · exact (Call.Ensures.trivial _ _).seq (fun _ _ _ => served)

/-- While the clock stands, `get_and_touch` returns what each key holds, and leaves the
records it has returned under later tokens, or dead. -/
theorem getAndTouch_outdates (keys : List Bytes) (ttlSecs : Nat) (parties : Fin n → Shard)
    (room : ∀ i, Room (parties i) keys.length) :
    (node.getAndTouch keys ttlSecs).Ensures submit (fun clock => ∀ k, clock k = now)
      (fun values parties' =>
        values = keys.map (fun key => (parties (forKey node.hash key)).get now key) ∧
        ∀ key ∈ keys, ∀ r, (parties (forKey node.hash key)).tables.main.get key = some r →
          Live (parties (forKey node.hash key)) now r →
          ∃ r', (parties' (forKey node.hash key)).tables.main.get key = some r' ∧
            r.header.cas < r'.header.cas)
      (fun _ _ => False) parties := by
  refine Call.Ensures.bind (Call.Ensures.of_read (readBatch_read none keys) ?_)
  have view : keys.map (viewed (fun i => (parties i, now)) (fun sh now => sh.get now) node.hash) =
      keys.map fun key => (parties (forKey node.hash key)).get now key := rfl
  rw [view]
  dsimp only
  generalize listed : ((keys.zip (keys.map fun key =>
    (parties (forKey node.hash key)).get now key)).filter fun pair => pair.2.isSome).map Prod.fst
    = live
  -- A live key is among those touched.
  have touched : ∀ key ∈ keys, ∀ r,
      (parties (forKey node.hash key)).tables.main.get key = some r →
      Live (parties (forKey node.hash key)) now r → key ∈ live := by
    intro key mem r stored alive
    obtain ⟨p, here⟩ := List.mem_iff_getElem?.mp mem
    have got : (parties (forKey node.hash key)).get now key = some r.toValue :=
      readAlive_eq_some_iff.mpr ⟨r, stored, alive, rfl⟩
    rw [← listed]
    refine List.mem_map.mpr ⟨(key, some r.toValue), List.mem_filter.mpr ⟨?_, rfl⟩, rfl⟩
    refine List.mem_of_getElem? (i := p) (List.getElem?_zip_eq_some.mpr ⟨here, ?_⟩)
    rw [List.getElem?_map, here, Option.map_some, got]
  have few : live.length ≤ keys.length := by
    rw [← listed, List.length_map]
    refine (List.length_filter_le _ _).trans ?_
    simp
  split
  · rename_i none
    refine ⟨rfl, fun key mem r stored alive => ?_⟩
    have mem := touched key mem r stored alive
    rw [List.isEmpty_iff.mp none] at mem
    cases mem
  · refine (touchRuns_ensures ttlSecs _ group_nodup _ ?_).seq ?_
    · intro i run mem
      refine ⟨(room i).behind, (room i).fits.mono ?_⟩
      have short : run.length ≤ live.length := by
        rw [(mem_group.mp mem).1]
        refine (List.length_filter_le _ _).trans ?_
        rw [((node.sort.perm _).length_eq), place, List.length_map, List.length_zipIdx]
      omega
    · intro _ parties' after
      refine ⟨rfl, fun key mem r stored alive => ?_⟩
      obtain ⟨q, listed⟩ := List.mem_iff_getElem?.mp (touched key mem r stored alive)
      have shard := after (forKey node.hash key)
      obtain ⟨run, grouped, entry⟩ : ∃ run, (forKey node.hash key, run) ∈
          group node.sort node.hash id live ∧ _ := exists_run listed
      have named : key ∈ namedOn (group node.sort node.hash id live) (forKey node.hash key) :=
        ⟨run, grouped, _, entry, rfl⟩
      obtain ⟨r', stored', later | ⟨rfl, dead⟩⟩ := shard.records key r stored
      · exact ⟨r', stored', later⟩
      · rw [Live, dead named now le_rfl] at alive
        cases alive

/-- Each value carries the token its record holds, and a compare-and-swap with it is
stored while that record lives. -/
def Usable (keys : List Bytes) (values : List (Option Value)) (parties : Fin n → Shard) : Prop :=
  ∀ (p : Nat) key v, keys[p]? = some key → values[p]? = some (some v) →
    ∃ r, (parties (forKey node.hash key)).tables.main.get key = some r ∧ r.header.cas = v.cas ∧
      ∀ prepared clock, prepared.key = key →
        (∀ k, Live (parties (forKey node.hash key)) (clock k) r) →
        ∃ cas previous, (submit clock (.conditionalSet prepared (.cas v.cas))
          (parties (forKey node.hash key))).1 = .ok (.written ⟨.stored cas, previous⟩)

/-- The tokens `get_and_touch` returns can be used, whatever the clock shows from `start`
on, exactly when no key it is given is live at `start`: in a store whose tokens are not
used up. -/
theorem fetched_tokens_usable_iff (keys : List Bytes) (ttlSecs : Nat) (parties : Fin n → Shard)
    (room : ∀ i, Room (parties i) keys.length) (start : Nat) :
    (∀ clocks values parties', (∀ k j, start ≤ clocks k j) →
      (node.getAndTouch keys ttlSecs).run submit clocks parties = (.ok values, parties') →
      Usable node keys values parties') ↔
      ∀ key ∈ keys, Dead (parties (forKey node.hash key)) start key := by
  constructor
  · intro usable key mem r stored alive
    obtain ⟨values, answered, rfl, outdated⟩ :=
      (getAndTouch_outdates node keys ttlSecs parties room).ends (fun _ _ => start) fun _ _ => rfl
    obtain ⟨p, here⟩ := List.mem_iff_getElem?.mp mem
    have got : (parties (forKey node.hash key)).get start key = some r.toValue :=
      readAlive_eq_some_iff.mpr ⟨r, stored, alive, rfl⟩
    obtain ⟨r₁, stored₁, token, -⟩ := usable (fun _ _ => start) _ _ (fun _ _ => le_rfl)
      (Prod.ext answered rfl) p key r.toValue here
      (by rw [List.getElem?_map, here, Option.map_some, got])
    obtain ⟨r₂, stored₂, later⟩ := outdated key mem r stored alive
    obtain rfl := Option.some.inj (stored₁.symm.trans stored₂)
    exact later.ne token.symm
  · intro dead clocks values parties' after ran p key v here value
    have live := (getAndTouch_live node keys ttlSecs parties).run after ran p key v here value
    exact absurd (dead key (List.mem_of_getElem? here)) live

end Node

/-- A store of one shard in which the key `7` has been set. -/
def sevenStored : Fin 1 → Shard :=
  (alone ((oneShardStore (.stable 1)).setMany [setSeven [1]]) newShard).2

/-- The store after the key `7` has been fetched and touched. -/
def sevenTouched : Fin 1 → Shard :=
  (alone ((oneShardStore (.stable 1)).getAndTouch [[7]] 60) sevenStored).2

/-- The key `7` is live, so it is fetched under a token that is of no use. -/
theorem fetched_tokens_usable_seven :
    ¬ ∀ clocks values parties', (∀ k j, 100 ≤ clocks k j) →
      ((oneShardStore (.stable 1)).getAndTouch [[7]] 60).run submit clocks sevenStored =
        (.ok values, parties') →
      Usable (oneShardStore (.stable 1)) [[7]] values parties' := by
  have room : ∀ i, Room (sevenStored i) 1 := by
    intro i
    rw [Subsingleton.elim i 0]
    refine ⟨fun key r found => ?_, by decide +kernel⟩
    have all : ∀ row ∈ (sevenStored 0).tables.main.rows, row.2.header.cas ≤
        (sevenStored 0).counters.casNext * (sevenStored 0).engine.config.shardCount +
          (sevenStored 0).engine.config.shardIndex := by decide +kernel
    exact all (key, r) (Table.get_eq_some_iff.mp found)
  intro usable
  have dead := (fetched_tokens_usable_iff (oneShardStore (.stable 1)) [[7]] 60 sevenStored room
    100).mp usable [7] List.mem_cons_self
  rw [Subsingleton.elim (forKey _ _) 0, ← get_eq_none_iff] at dead
  have live : (sevenStored 0).get 100 [7] ≠ none := by decide +kernel
  exact live dead

/-- The token of a fetch that touches is the one before: a compare-and-swap with it is
refused although nothing else was written. -/
theorem fetched_token_is_outdated :
    (alone ((oneShardStore (.stable 1)).getAndTouch [[7]] 60) sevenStored).1 =
      .ok [some ⟨[1], 0, 1, some never⟩] ∧
    (sevenTouched 0).get 100 [7] = some ⟨[1], 0, 2, some 60100⟩ ∧
    (submit (fun _ => 100) (.conditionalSet (settledSet [7] never none) (.cas 1))
      (sevenTouched 0)).1 = .ok (.written ⟨.keyExists, none⟩) :=
  ⟨by decide +kernel, by decide +kernel, by decide +kernel⟩

end Vash.Node
