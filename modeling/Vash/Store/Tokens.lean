import Vash.Store.ShardRuns
import Vash.Store.Changes

/-!
# CAS tokens

A shard counts its writes; a token is the count striped over the shards. The
count lives in RAM and survives an abort; a durable reservation, extended a block
at a time inside the transactions, is where the count resumes after a restart.

* `Draws` — what a transaction does to the counters: it draws tokens one after
  another, and nothing else in it touches them (`apply_draws`).
* `tokens_never_repeat` — over any number of shards, no token is returned twice
  and the tokens stored under a key increase, if every restart finds each count
  within its durable reservation.
* `aborted_reservation_repeats` — the reservation of an aborted batch is kept in
  RAM and lost on disk, and a restart after it repeats a token.
-/

namespace Vash.Store

open Library

/-! ### Drawing tokens -/

/-- `v` is `start` after `k` writes. -/
inductive Draws (c : Config) (start : CasState) : Nat → CasState → Prop where
  | start : Draws c start 0 start
  | draw {k : Nat} {v : CasState} (drawn : Draws c start k v) (key : Bytes) :
      Draws c start (k + 1) (v.draw c key)

/-- The transaction has drawn for some of `budget` writes, and the tokens `replied`
are among those it stored. -/
def Drawn (c : Config) (start : CasState) (budget : Nat) (replied : List Nat) (s : Txn) : Prop :=
  ∃ k new, k ≤ budget ∧ Draws c start k (casPart.get s) ∧ s.written = start.written ++ new ∧
    replied.Sublist (new.map Prod.snd)

/-- The transaction broke after some of `budget` draws, the last perhaps halfway. -/
def BrokenDraw (c : Config) (start : CasState) (budget : Nat) (e : StoreError) (s : Txn) : Prop :=
  Breaks e s ∧ ∃ k v, k ≤ budget ∧ Draws c start k v ∧ s.counters.casNext = v.next

section Draws

variable {c : Config} {start : CasState} {budget spent : Nat} {replied : List Nat} {s : Txn}

theorem Drawn.mono {budget' : Nat} {replied' : List Nat} (h : Drawn c start budget replied s)
    (more : budget ≤ budget') (fewer : replied'.Sublist replied) :
    Drawn c start budget' replied' s := by
  obtain ⟨k, new, within, draws, written, sub⟩ := h
  exact ⟨k, new, within.trans more, draws, written, fewer.trans sub⟩

theorem BrokenDraw.mono {budget' : Nat} {e : StoreError} (h : BrokenDraw c start budget e s)
    (more : budget ≤ budget') : BrokenDraw c start budget' e s := by
  obtain ⟨breaks, k, v, within, draws⟩ := h
  exact ⟨breaks, k, v, within.trans more, draws⟩

end Draws

/-! ### The record jobs draw tokens -/

/-- Tokens as a budget. -/
def drawBudget (c : Config) (start : CasState) (replied : List Nat) : Budget StoreError Txn where
  ok spent s := Drawn c start spent replied s
  broken spent e s := BrokenDraw c start spent e s
  ok_mono le h := h.mono le (List.Sublist.refl _)
  broken_mono le h := h.mono le

/-- The count alone. -/
def countPart : Part Txn Nat where
  get s := s.counters.casNext
  put p s := { s with counters := { s.counters with casNext := p } }
  get_put _ _ := rfl
  put_get _ := rfl

/-- The action draws at most `k` tokens. -/
def DrawsAtMost (c : Config) (k : Nat) {α : Type} (action : TxnM α) : Prop :=
  ∀ start replied, (drawBudget c start replied).Spends k action

/-- Overwriting the counters spares the rest. -/
theorem casPart_spares (p : CasState) :
    enginePart.Spared (casPart.put p) ∧ recordsPart.Spared (casPart.put p) ∧
      TagsSpared (casPart.put p) ∧ jobsPart.Spared (casPart.put p) :=
  ⟨⟨fun _ => rfl, fun _ _ => rfl⟩, ⟨fun _ => rfl, fun _ _ => rfl⟩,
    ⟨⟨fun _ => rfl, fun _ _ => rfl⟩, fun _ _ => rfl⟩, ⟨fun _ => rfl, fun _ _ => rfl⟩⟩

theorem casPart_spares_epoch (p : CasState) : epochPart.Spared (casPart.put p) :=
  ⟨fun _ => rfl, fun _ _ => rfl⟩

section DrawsAtMost

variable {c : Config} {eng : Engine} {k l : Nat} {α β : Type}

theorem DrawsAtMost.bind {first : TxnM α} {next : α → TxnM β} (h : DrawsAtMost c k first)
    (rest : ∀ a, DrawsAtMost c l (next a)) : DrawsAtMost c (k + l) (first >>= next) :=
  fun start replied => (h start replied).bind fun a => rest a start replied

theorem DrawsAtMost.forEach {action : α → TxnM β} {elements : List α}
    (each : ∀ a ∈ elements, DrawsAtMost c 1 (action a)) :
    DrawsAtMost c elements.length (Library.forEach action elements) :=
  fun start replied => .forEach fun a mem => each a mem start replied

/-- An action that ignores the counters draws nothing. -/
theorem DrawsAtMost.of_confined {action : TxnM α}
    (confined : ∀ p, Confined (casPart.put p) action) (k : Nat) : DrawsAtMost c k action := by
  intro start replied
  have about : (drawBudget c start replied).About casPart := by
    rintro spent s s' kept ⟨j, new, within, draws, written, sub⟩
    refine ⟨j, new, within, kept ▸ draws, ?_, sub⟩
    rw [← written]
    exact congrArg CasState.written kept
  exact .of_keeps about (fun p => (confined p).ignores) k

end DrawsAtMost

section Writes

variable {eng : Engine} {s : Txn}

/-- A write counts once, wherever it stops. -/
theorem applySet_counts (p : PreparedSet) (preRead : Option PreRead) :
    wp (applySet eng p preRead)
      (fun _ s' => s'.counters.casNext = wrappingAdd64 s.counters.casNext 1)
      (fun _ s' => s'.counters.casNext = wrappingAdd64 s.counters.casNext 1) s := by
  have spares : ∀ q, enginePart.Spared (countPart.put q) ∧ recordsPart.Spared (countPart.put q) ∧
      historyPart.Spared (countPart.put q) := fun q =>
    ⟨⟨fun _ => rfl, fun _ _ => rfl⟩, ⟨fun _ => rfl, fun _ _ => rfl⟩, fun _ => rfl, fun _ _ => rfl⟩
  have after : ∀ token (s₁ : Txn),
      s₁.counters.casNext = wrappingAdd64 s.counters.casNext 1 → wp (do
        let displaced ← displaceOrPreRead eng p preRead
        storeOver eng p token displaced)
      (fun _ s' => s'.counters.casNext = wrappingAdd64 s.counters.casNext 1)
      (fun _ s' => s'.counters.casNext = wrappingAdd64 s.counters.casNext 1) s₁ := by
    intro token s₁ counted
    exact (countPart.keeps (fun q => (Confined.bind
      (.displaceOrPreRead (spares q).1 (spares q).2.1 p preRead) fun _ =>
        .storeOver (spares q).1 (spares q).2.1 (spares q).2.2 p token _).ignores) s₁).mono
      (fun _ _ kept => kept.trans counted) fun _ _ kept => kept.trans counted
  rw [applySet_steps]
  refine wp.bind ?_ after
  unfold nextCas
  refine wp.get_bind (wp.set_bind ?_)
  split
  · refine wp.bind (update_spec.stops fun _ _ fails => ?_) fun _ _ h =>
      wp.modify_bind (wp.pure ?_)
    · rw [fails.counters]
    · rw [h.counters]
  · exact wp.pure rfl

/-- A write draws one token and stores its record under it. -/
theorem applySet_draws {p : PreparedSet} {preRead : Option PreRead}
    (reads : ∀ pre ∈ preRead, pre.Reads s.tables p.key) {start : CasState} {spent : Nat}
    {replied : List Nat} (drawn : Drawn eng.config start spent replied s) :
    wp (applySet eng p preRead)
      (fun applied s' => Drawn eng.config start (spent + 1) (replied ++ [applied.cas]) s')
      (BrokenDraw eng.config start (spent + 1)) s := by
  obtain ⟨k, new, within, draws, written, sub⟩ := drawn
  have next := draws.draw p.key
  refine ((applySet_spec p reads).and (applySet_counts p preRead)).mono ?_ fun e s' broke =>
    ⟨broke.1, k + 1, _, by omega, next, broke.2⟩
  rintro applied s' ⟨⟨cas, e, becomes⟩, -⟩
  have same : casPart.get s' = (casPart.get s).draw eng.config p.key := by
    simp only [casPart, becomes.tables, becomes.counters, becomes.written]
    rfl
  refine ⟨k + 1, new ++ [(p.key, applied.cas)], by omega, same ▸ next, ?_, ?_⟩
  · rw [← List.append_assoc, ← written, cas]
    exact congrArg CasState.written same
  · rw [List.map_append]
    exact sub.append (List.Sublist.refl _)

/-- `applySet_draws` for callers that keep the token to themselves. -/
theorem applySet_drawsAtMost (p : PreparedSet) :
    DrawsAtMost eng.config 1 (applySet eng p none) := by
  intro start replied spent s drawn
  exact (applySet_draws (by simp) drawn).mono
    (fun _ _ h => h.mono le_rfl (List.sublist_append_left _ _)) fun _ _ h => .inl h

end Writes

/-! Each record job draws at most one token a key it names. -/

section Jobs

variable {eng : Engine}

/-- The jobs that change a record in place draw at most one token. -/
theorem recordDraws (key : Bytes) :
    RecordLogic eng key (fun _ _ => True) (DrawsAtMost eng.config 1) :=
  .of_looks (fun a => .of_confined (fun _ => .pure a) 1)
    (fun e => .of_confined (fun _ => .throw (.core e)) 1)
    (fun f h => h.bind fun a => .of_confined (fun _ => .pure (f a)) 0) (DrawsAtMost.bind (k := 0))
    (.of_confined (fun q => .nowMs (casPart_spares q).1) 0)
    (.of_confined (fun q => .liveRecord (casPart_spares q).1 (casPart_spares q).2.1 key) 0)
    (.of_confined (fun q => .queryMain (casPart_spares q).1 (casPart_spares q).2.1 key) 0)
    (fun _ => applySet_drawsAtMost _)
    (.of_confined (fun q => .applyDelete (casPart_spares q).1 (casPart_spares q).2.1 key) 1)

theorem applyConditionalSet_draws (p : PreparedSet) (mode : SetMode) {start : CasState}
    {spent : Nat} {replied : List Nat} {s : Txn} (drawn : Drawn eng.config start spent replied s) :
    wp (applyConditionalSet eng p mode)
      (fun w s' => Drawn eng.config start (spent + 1) (replied ++ w.outcome.tokens) s')
      (fun e s' => BrokenDraw eng.config start (spent + 1) e s' ∨
        Drawn eng.config start (spent + 1) replied s') s := by
  have kept : ∀ {s' : Txn}, s.Agrees s' → Drawn eng.config start spent replied s' := by
    intro s' agrees
    obtain ⟨k, new, within, draws, written, sub⟩ := drawn
    refine ⟨k, new, within, ?_, agrees.written.trans written, sub⟩
    simpa only [casPart, agrees.tables, agrees.counters, agrees.written] using draws
  have read : DrawsAtMost eng.config 0 (readForUpdate eng p.key) :=
    .of_confined (fun q => .readForUpdate (casPart_spares q).1 (casPart_spares q).2.1 p.key) 0
  refine applyConditionalSet_rule ((read start replied spent s drawn).mono (fun _ _ _ => trivial)
    fun e s' h => Budget.stopped_mono (b := drawBudget eng.config start replied)
      (Nat.le_add_right spent 1) h) (fun _ _ agrees => .inr ?_) (fun w s' silent agrees => ?_)
    fun p' pre s₁ _ _ _ agrees reads => ?_
  · exact (kept agrees).mono (by omega) (List.Sublist.refl _)
  · have none : w.outcome.tokens = [] := by
      cases same : w.outcome with
      | stored cas => exact absurd same (silent cas)
      | _ => rfl
    rw [none, List.append_nil]
    exact (kept agrees).mono (by omega) (List.Sublist.refl _)
  · exact (applySet_draws (by simpa using reads) (kept agrees)).mono (fun _ _ h _ => h)
      fun _ _ => .inl

/-- The tokens an outcome carries to its client. -/
def WriteOutcome.tokens : WriteOutcome → List Nat
  | .cas tokens => tokens
  | .written w => w.outcome.tokens
  | _ => []

/-- Tag jobs, flushes and the jobs that change a record in place answer without tokens. -/
theorem apply_silent {op : WriteOp} {s : Txn} (other : ∀ prepared, op ≠ .set prepared)
    (plain : ∀ p mode, op ≠ .conditionalSet p mode) :
    wp (apply eng op) (fun outcome _ => outcome.tokens = []) (fun _ _ => True) s := by
  cases op with
  | set prepared => exact absurd rfl (other prepared)
  | conditionalSet p mode => exact absurd rfl (plain p mode)
  | deleteByTag name =>
    refine wp.bind (wp.trivial _ _) fun row _ _ => ?_
    cases row with
    | none => exact wp.pure rfl
    | some row => exact wp.bind (wp.trivial _ _) fun _ _ _ => wp.pure rfl
  | mergeTag name generation =>
    refine wp.bind (wp.trivial _ _) fun merged _ _ => ?_
    cases merged with
    | unchanged id generation => exact wp.pure rfl
    | _ => exact wp.bind (wp.trivial _ _) fun _ _ _ => wp.pure rfl
  | flush =>
    exact wp.bind (wp.trivial _ _) fun _ _ _ => wp.bind (wp.trivial _ _) fun _ _ _ => wp.pure rfl
  | sync => exact wp.pure rfl
  | _ => exact wp.bind (wp.trivial _ _) fun _ _ _ => wp.pure rfl

/-- A job draws at most one token a key it names, and answers with tokens it
stored records under. -/
theorem apply_draws (op : WriteOp) {start : CasState} {spent : Nat} {replied : List Nat} {s : Txn}
    (drawn : Drawn eng.config start spent replied s) :
    wp (apply eng op)
      (fun outcome s' => Drawn eng.config start (spent + op.keys.length)
        (replied ++ outcome.tokens) s')
      (fun e s' => BrokenDraw eng.config start (spent + op.keys.length) e s' ∨
        Drawn eng.config start (spent + op.keys.length) replied s') s := by
  have silent : (∀ prepared, op ≠ .set prepared) → (∀ p mode, op ≠ .conditionalSet p mode) →
      DrawsAtMost eng.config op.keys.length (apply eng op) →
      wp (apply eng op)
        (fun outcome s' => Drawn eng.config start (spent + op.keys.length)
          (replied ++ outcome.tokens) s')
        (fun e s' => BrokenDraw eng.config start (spent + op.keys.length) e s' ∨
          Drawn eng.config start (spent + op.keys.length) replied s') s := by
    intro other plain draws
    refine ((draws start replied spent s drawn).and (apply_silent other plain)).mono ?_
      fun _ _ h => h.1
    rintro outcome s' ⟨drawn', none⟩
    rw [none, List.append_nil]
    exact drawn'
  have mapped : ∀ {α : Type} {action : TxnM α} {k : Nat} (f : α → WriteOutcome),
      DrawsAtMost eng.config k action → DrawsAtMost eng.config k (do return f (← action)) :=
    fun f draws => draws.bind fun a => .of_confined (fun _ => .pure (f a)) 0
  cases op with
  | set prepared =>
    apply wp.bind (m := fun applied s' => Drawn eng.config start (spent + prepared.length)
      (replied ++ applied.map SetApplied.cas) s')
    · apply (wp.forEach (fun done applied s' => Drawn eng.config start (spent + done.length)
        (replied ++ applied.map SetApplied.cas) s') (by simpa using drawn) ?_).imp (fun _ _ h => h)
      intro done p todo applied s' split drawn'
      have within : spent + done.length + 1 ≤ spent + prepared.length := by
        simp [split]
      refine (applySet_draws (by simp) drawn').mono ?_ fun e s'' broken => .inl (broken.mono ?_)
      · intro a s'' drawn''
        rw [List.map_append, ← List.append_assoc]
        simpa [Nat.add_assoc] using drawn''
      · simpa [WriteOp.keys] using within
    · intro applied s' drawn'
      apply wp.pure
      simpa [WriteOp.keys, WriteOutcome.tokens] using drawn'
  | conditionalSet prepared mode =>
    exact wp.bind (applyConditionalSet_draws prepared mode drawn) fun _ _ drawn' => wp.pure drawn'
  | delete keys =>
    exact silent (by simp) (by simp) (mapped _ (.of_confined (fun q => .forEach fun key _ =>
      .applyDelete (casPart_spares q).1 (casPart_spares q).2.1 key) _))
  | touch keys ttlSecs =>
    exact silent (by simp) (by simp)
      (mapped _ (.forEach fun key _ => (recordDraws key).applyTouch ttlSecs))
  | arithmetic op =>
    exact silent (by simp) (by simp) (mapped _ (recordDraws op.key).applyArithmetic)
  | append key suffix =>
    exact silent (by simp) (by simp) (mapped _ ((recordDraws key).applyAppend suffix))
  | expire key ttl guard =>
    exact silent (by simp) (by simp) (mapped _ ((recordDraws key).applyExpire ttl guard))
  | flush =>
    exact silent (by simp) (by simp) (.of_confined (fun q => .flushOp (casPart_spares q).1
      (casPart_spares q).2.2.1 (casPart_spares q).2.2.2 (casPart_spares q).2.1
      (casPart_spares_epoch q)) 0)
  | _ =>
    refine silent (by simp) (by simp) (.of_confined (fun q => ?_) 0)
    exact .tagJob (casPart_spares q).1 (casPart_spares q).2.2.1 (casPart_spares q).2.2.2 rfl
      (by simp)

end Jobs

/-! ### Batches -/

/-- The tokens a reply carries to its client. -/
def replyTokens : Reply → List Nat
  | .ok outcome => outcome.tokens
  | .error _ => []

/-- How many writes the jobs can make: one a key they name. -/
def keyCount (jobs : List WriteJob) : Nat := (jobs.flatMap fun job => job.op.keys).length

/-- The jobs of a batch draw at most a token a key, and answer with tokens they
stored records under. -/
theorem Ran.draws {eng : Engine} {start : CasState} {jobs : List WriteJob} {replies : List Reply}
    {s s' : Txn} (ran : Ran eng jobs s replies s') {spent : Nat} {replied : List Nat}
    (drawn : Drawn eng.config start spent replied s) :
    Drawn eng.config start (spent + keyCount jobs) (replied ++ replies.flatMap replyTokens) s' := by
  induction ran generalizing spent replied with
  | done s => simpa [keyCount] using drawn
  | @job job rest s s₁ _ reply _ answers _ ih =>
    have first := answers.of_wp (P := fun reply => Drawn eng.config start
      (spent + job.op.keys.length) (replied ++ replyTokens reply))
      ((apply_draws (s := { s with clock := job.clock }) job.op drawn).stops
        fun _ _ h => h.imp (fun broken => broken.1.1) fun drawn => by
          simpa [replyTokens] using drawn)
    have later := ih first
    simpa [keyCount, Nat.add_assoc] using later

/-! ### Shards -/

/-- The counters of a shard between transactions. -/
def Shard.cas (sh : Shard) : CasState :=
  ⟨sh.counters.casNext, sh.counters.casWatermark, sh.tables.casWatermark, sh.written⟩

theorem casPart_aside : Part.Aside casPart :=
  ⟨fun p => (casPart_spares p).1, fun p => (casPart_spares p).2.1,
    fun p => (casPart_spares p).2.2.2⟩

/-- The tokens of `k` writes from the count `next` on. -/
def Config.tokensFrom (c : Config) (next k : Nat) : List Nat :=
  (List.range k).map fun j => (next + j + 1) * c.shardCount + c.shardIndex

/-- No count up to `next` overflows, striped or reserved ahead. -/
def Config.Fits (c : Config) (next : Nat) : Prop := (next + casBlock + 1) * c.shardCount ≤ 2 ^ 64

instance decidableFits (c : Config) (next : Nat) : Decidable (c.Fits next) :=
  inferInstanceAs (Decidable (_ ≤ _))

theorem Config.Fits.mono {c : Config} {next next' : Nat} (fits : c.Fits next) (le : next' ≤ next) :
    c.Fits next' :=
  (Nat.mul_le_mul_right _ (by omega)).trans fits

theorem Config.Fits.lt {c : Config} {next : Nat} (fits : c.Fits next) :
    next + casBlock < 2 ^ 64 := by
  have positive : 0 < c.shardCount := Nat.lt_of_le_of_lt (Nat.zero_le _) c.shard_lt
  have := Nat.le_mul_of_pos_right (next + casBlock + 1) positive
  unfold Config.Fits at fits
  omega

theorem Config.Fits.token {c : Config} {count : Nat} (fits : c.Fits count) :
    c.token count = count * c.shardCount + c.shardIndex := by
  apply Nat.mod_eq_of_lt
  have below := c.shard_lt
  have := Nat.mul_le_mul_right c.shardCount (show count + 1 ≤ count + casBlock + 1 by omega)
  unfold Config.Fits at fits
  rw [Nat.add_mul, Nat.one_mul] at this
  omega

section Facts

variable {c : Config} {start v : CasState} {k : Nat}

/-- Counts that fit are counted one by one. -/
theorem Draws.next (draws : Draws c start k v) (fits : c.Fits (start.next + k)) :
    v.next = start.next + k := by
  induction draws with
  | start => rfl
  | draw drawn key ih =>
    rename_i k v
    have before := ih (fits.mono (by omega))
    have := fits.lt
    rw [CasState.draw, wrappingAdd64_of_lt (by omega), before]
    rfl

/-- The tokens stored are those of the counts drawn, in order. -/
theorem Draws.written (draws : Draws c start k v) (fits : c.Fits (start.next + k)) :
    ∃ new, v.written = start.written ++ new ∧ new.map Prod.snd = c.tokensFrom start.next k := by
  induction draws with
  | start => exact ⟨[], by simp, rfl⟩
  | draw drawn key ih =>
    rename_i k v
    obtain ⟨new, written, tokens⟩ := ih (fits.mono (by omega))
    have before := drawn.next (fits.mono (by omega))
    have := fits.lt
    refine ⟨new ++ [(key, c.token (wrappingAdd64 v.next 1))], ?_, ?_⟩
    · simp [CasState.draw, written]
    · rw [wrappingAdd64_of_lt (by omega), before, (fits.mono (by omega)).token]
      simp [tokens, Config.tokensFrom, List.range_succ]

end Facts

/-- The counters went from `v` to `v'`, answering clients with the tokens
`replied`: the tokens stored are those of the next counts. -/
def Advances (c : Config) (v : CasState) (replied : List Nat) (v' : CasState) : Prop :=
  ∃ k new, v'.written = v.written ++ new ∧ new.map Prod.snd = c.tokensFrom v.next k ∧
    v.next + k ≤ v'.next ∧ replied.Sublist (new.map Prod.snd)

/-- Counters that only moved on. -/
theorem Advances.of_le {c : Config} {v v' : CasState} (written : v'.written = v.written)
    (next : v.next ≤ v'.next) : Advances c v [] v' :=
  ⟨0, [], by simp [written], rfl, next, List.nil_sublist _⟩

theorem replyTokens_of_failed (n : Nat) (e : StoreError) :
    (List.replicate n (.error e)).flatMap replyTokens = [] := by
  rw [List.flatMap_replicate]
  simp [replyTokens]

section Turns

variable {sh : Shard}

/-- What an abort leaves of the counters. -/
theorem abort_advances {s : Txn} {c : Config} (next : sh.counters.casNext ≤ s.counters.casNext)
    (level : Pressure) : Advances c sh.cas [] ((sh.setPressure level).abort s).cas :=
  .of_le rfl next

theorem commitBatch_advances (batch : Batch)
    (fits : sh.engine.config.Fits (sh.counters.casNext + keyCount batch.jobs)) :
    Advances sh.engine.config sh.cas ((commitBatch sh batch).2.1.flatMap replyTokens)
      (commitBatch sh batch).2.2.cas := by
  have started : ∀ {s₀ : Txn}, (sh.begin batch.faults).Aside s₀ →
      Drawn sh.engine.config sh.cas 0 [] s₀ := by
    intro s₀ opened
    have same : casPart.get s₀ = sh.cas := opened casPart casPart_aside
    refine ⟨0, [], le_rfl, same ▸ .start, ?_, List.Sublist.refl _⟩
    rw [List.append_nil]
    exact congrArg CasState.written same
  -- Counts only grow, whether or not the last draw went through.
  have grows : ∀ {k v}, k ≤ keyCount batch.jobs → Draws sh.engine.config sh.cas k v →
      v.next = sh.counters.casNext + k := fun within draws => draws.next (fits.mono (by
        change sh.counters.casNext + _ ≤ _
        omega))
  have drawnGrows : ∀ {replied s}, Drawn sh.engine.config sh.cas (keyCount batch.jobs) replied s →
      sh.counters.casNext ≤ s.counters.casNext := by
    rintro replied s ⟨k, new, within, draws, -, -⟩
    have next := grows within draws
    change s.counters.casNext = _ at next
    omega
  have ends := commitBatch_ends sh batch
  generalize commitBatch sh batch = result at ends
  cases ends with
  | @poisoned before after job _ s _ _ _ opened split ran failed _ =>
    rw [replyTokens_of_failed]
    have cost : 0 + keyCount before + job.op.keys.length ≤ keyCount batch.jobs := by
      simp [split, keyCount]
    apply abort_advances _ sh.engine.pressure
    have draws := apply_draws (s := { s with clock := job.clock }) job.op
      (ran.draws (started opened))
    rcases draws.of_error failed with ⟨-, k, v, within, draws, next⟩ | drawn
    · have := grows (within.trans cost) draws
      omega
    · exact drawnGrows (drawn.mono cost (List.Sublist.refl _))
  | @refused jobs s₀ s s' _ level _ _ opened front ran kept =>
    rw [replyTokens_of_failed]
    have cost : 0 + keyCount jobs ≤ keyCount batch.jobs := by
      obtain ⟨rest, whole⟩ := front
      simp [← whole, keyCount]
    have same : s'.counters.casNext = s.counters.casNext :=
      congrArg CasState.next (kept casPart casPart_aside)
    have drawn := (ran.draws (started opened)).mono cost (List.Sublist.refl _)
    exact abort_advances (same ▸ drawnGrows drawn) level
  | @committed s₀ s s' outcomes opened ran closed =>
    have jobs := ran.draws (started (engineCall_aside opened))
    rw [Nat.zero_add] at jobs
    have same : casPart.get s' = casPart.get s := Batch.tidy_aside closed casPart casPart_aside
    obtain ⟨k, new, within, draws, written, replied⟩ := jobs
    have next := grows within draws
    obtain ⟨new', written', tokens⟩ := draws.written (fits.mono (by
      change sh.counters.casNext + _ ≤ _
      omega))
    obtain rfl : new = new' := List.append_cancel_left (written.symm.trans written')
    refine ⟨k, new, ?_, tokens, ?_, by simpa using replied⟩
    · exact (congrArg CasState.written same).trans written
    · have := congrArg CasState.next same
      change s'.counters.casNext = _ at this
      change sh.counters.casNext + k ≤ s'.counters.casNext
      omega

/-- A turn of the writer advances the counters as its batch does. -/
theorem writerTurn_advances (turn : Turn)
    (fits : sh.engine.config.Fits (sh.counters.casNext + keyCount turn.batch.jobs)) :
    Advances sh.engine.config sh.cas
      ((writerTurn sh turn.batch turn.evictBatch turn.attempts).1.flatMap replyTokens)
      (writerTurn sh turn.batch turn.evictBatch turn.attempts).2.cas := by
  rw [writerTurn_replies]
  apply writerTurn_invariant (fun sh' => Advances sh.engine.config sh.cas
    ((commitBatch sh turn.batch).2.1.flatMap replyTokens) sh'.cas) _ (fun _ h => h)
    (commitBatch_advances turn.batch fits)
  intro sh' faults s held aside
  have same : casPart.get s = sh'.cas := aside casPart casPart_aside
  constructor
  · have aborted : (sh'.abort s).cas = sh'.cas := by
      have next := congrArg CasState.next same
      have watermark := congrArg CasState.watermark same
      simp only [Shard.cas, Shard.abort, CasState.mk.injEq, and_true]
      exact ⟨next, watermark⟩
    rw [aborted]
    exact held
  · change Advances _ _ _ (casPart.get s)
    rw [same]
    exact held

end Turns

/-! ### The server -/

/-- A server of `n` shards, with the tokens it has answered clients with. -/
structure Server (n : Nat) where
  shards : Fin n → Shard
  issued : List Nat

/-- A turn of one shard's writer, or a restart of the process. -/
inductive ServerEvent (n : Nat) where
  | turn (shard : Fin n) (turn : Turn)
  | restart

def Server.create {n : Nat} (configs : Fin n → Config) : Server n :=
  ⟨fun i => .create (configs i), []⟩

def Server.step {n : Nat} (server : Server n) : ServerEvent n → Server n
  | .turn i t =>
    let (replies, sh) := writerTurn (server.shards i) t.batch t.evictBatch t.attempts
    { shards := Function.update server.shards i sh
      issued := server.issued ++ replies.flatMap replyTokens }
  | .restart => { server with shards := fun i => (server.shards i).restart }

/-- Counts stay small enough for their tokens and reservations not to overflow. -/
def ServerEvent.Fits {n : Nat} (server : Server n) : ServerEvent n → Prop
  | .turn i t => (server.shards i).engine.config.Fits
      ((server.shards i).counters.casNext + keyCount t.batch.jobs)
  | .restart => True

/-- A restart finds every count within its durable reservation. -/
def ServerEvent.Reserved {n : Nat} (server : Server n) : ServerEvent n → Prop
  | .turn _ _ => True
  | .restart => ∀ i, (server.shards i).counters.casNext ≤
      (server.shards i).tables.casWatermark.getD 0

instance decidableEventFits {n : Nat} (server : Server n) :
    ∀ event, Decidable (ServerEvent.Fits server event)
  | .turn _ _ => decidableFits _ _
  | .restart => .isTrue trivial

instance decidableReserved {n : Nat} (server : Server n) :
    ∀ event, Decidable (ServerEvent.Reserved server event)
  | .turn _ _ => .isTrue trivial
  | .restart => inferInstanceAs (Decidable (∀ _, _))

/-- The tokens a shard has stored increase, are striped, and are those of counts up
to its own. -/
structure Tokens (c : Config) (v : CasState) : Prop where
  increasing : (v.written.map Prod.snd).Pairwise (· < ·)
  striped : ∀ t ∈ v.written.map Prod.snd, t % c.shardCount = c.shardIndex
  counted : ∀ t ∈ v.written.map Prod.snd, t ≤ v.next * c.shardCount + c.shardIndex

section Tokens

variable {c : Config} {v v' : CasState} {replied : List Nat}

theorem mem_tokensFrom {next k t : Nat} (mem : t ∈ c.tokensFrom next k) :
    t % c.shardCount = c.shardIndex ∧ next * c.shardCount + c.shardIndex < t ∧
      t ≤ (next + k) * c.shardCount + c.shardIndex := by
  obtain ⟨j, inRange, rfl⟩ := List.mem_map.mp mem
  have positive : 0 < c.shardCount := Nat.lt_of_le_of_lt (Nat.zero_le _) c.shard_lt
  have lower := Nat.mul_lt_mul_of_pos_right (show next < next + j + 1 by omega) positive
  have upper := Nat.mul_le_mul_right c.shardCount
    (show next + j + 1 ≤ next + k by have := List.mem_range.mp inRange; omega)
  refine ⟨?_, by omega, by omega⟩
  rw [Nat.add_comm, Nat.add_mul_mod_self_right, Nat.mod_eq_of_lt c.shard_lt]

theorem tokensFrom_increasing (next k : Nat) : (c.tokensFrom next k).Pairwise (· < ·) := by
  have positive : 0 < c.shardCount := Nat.lt_of_le_of_lt (Nat.zero_le _) c.shard_lt
  unfold Config.tokensFrom
  rw [List.pairwise_map]
  apply List.pairwise_lt_range.imp
  intro i j lt
  have := Nat.mul_lt_mul_of_pos_right (show next + i + 1 < next + j + 1 by omega) positive
  omega

/-- Advancing keeps the tokens in order. -/
theorem Tokens.advance (held : Tokens c v) (advances : Advances c v replied v') : Tokens c v' := by
  obtain ⟨k, new, written, tokens, next, -⟩ := advances
  have all : v'.written.map Prod.snd = v.written.map Prod.snd ++ c.tokensFrom v.next k := by
    rw [written, List.map_append, tokens]
  have later := Nat.mul_le_mul_right c.shardCount next
  constructor
  · rw [all, List.pairwise_append]
    refine ⟨held.increasing, tokensFrom_increasing v.next k, ?_⟩
    intro t old t' new
    exact (held.counted t old).trans_lt (mem_tokensFrom new).2.1
  · intro t mem
    rw [all, List.mem_append] at mem
    rcases mem with old | new
    · exact held.striped t old
    · exact (mem_tokensFrom new).1
  · intro t mem
    rw [all, List.mem_append] at mem
    rcases mem with old | new
    · have bound := held.counted t old
      have := Nat.mul_le_mul_right c.shardCount (show v.next ≤ v.next + k by omega)
      omega
    · have := (mem_tokensFrom new).2.2
      omega

/-- Reopening within the reservation keeps the tokens in order. -/
theorem Tokens.reopen (held : Tokens c v) {next watermark : Nat} {durable : Option Nat}
    (reserved : v.next ≤ next) : Tokens c ⟨next, watermark, durable, v.written⟩ := by
  constructor
  · exact held.increasing
  · exact held.striped
  · intro t mem
    have bound := held.counted t mem
    have := Nat.mul_le_mul_right c.shardCount reserved
    change t ≤ next * c.shardCount + c.shardIndex
    omega

end Tokens

section Server

variable {n : Nat} {configs : Fin n → Config} {server : Server n}

/-- What holds of a server between events. -/
structure Server.Ok (configs : Fin n → Config) (server : Server n) : Prop where
  config : ∀ i, (server.shards i).engine.config = configs i
  tokens : ∀ i, Tokens (configs i) (server.shards i).cas
  nodup : server.issued.Nodup
  stored : ∀ t ∈ server.issued, ∃ i, t ∈ (server.shards i).written.map Prod.snd

theorem Server.Ok.create (configs : Fin n → Config) : (Server.create configs).Ok configs := by
  constructor
  · exact fun i => rfl
  · intro i
    constructor
    · exact List.Pairwise.nil
    · exact fun t mem => absurd mem List.not_mem_nil
    · exact fun t mem => absurd mem List.not_mem_nil
  · exact List.nodup_nil
  · exact fun t mem => absurd mem List.not_mem_nil

/-- The tokens of a turn are new to the server. -/
theorem Server.Ok.fresh (striped : ∀ i, (configs i).shardIndex = i ∧ (configs i).shardCount = n)
    (ok : server.Ok configs) {i : Fin n} {k t : Nat}
    (mem : t ∈ (configs i).tokensFrom (server.shards i).counters.casNext k) :
    t ∉ server.issued := by
  intro issued
  obtain ⟨j, stored⟩ := ok.stored t issued
  obtain ⟨residue, above, -⟩ := mem_tokensFrom mem
  have residue' := (ok.tokens j).striped t stored
  rw [(striped j).1, (striped j).2] at residue'
  rw [(striped i).1, (striped i).2] at residue
  obtain rfl : i = j := Fin.ext (residue.symm.trans residue')
  have below := (ok.tokens i).counted t stored
  change t ≤ (server.shards i).counters.casNext * _ + _ at below
  omega

theorem Server.Ok.turn (striped : ∀ i, (configs i).shardIndex = i ∧ (configs i).shardCount = n)
    (ok : server.Ok configs) {i : Fin n} {turn : Turn}
    (fits : ServerEvent.Fits server (.turn i turn)) : (server.step (.turn i turn)).Ok configs := by
  have advances := writerTurn_advances turn fits
  rw [ok.config i] at advances
  have config := (writerTurn_config _ turn).trans (ok.config i)
  rcases ran : writerTurn (server.shards i) turn.batch turn.evictBatch turn.attempts with
    ⟨replies, sh⟩
  simp only [Server.step, ran] at advances config ⊢
  have moved := (ok.tokens i).advance advances
  obtain ⟨k, new, written, tokens, -, sub⟩ := advances
  rw [tokens] at sub
  have appended : sh.written.map Prod.snd =
      (server.shards i).written.map Prod.snd ++ new.map Prod.snd := by
    rw [← List.map_append]
    exact congrArg (List.map Prod.snd) written
  have kept : ∀ j, ∀ t ∈ (server.shards j).written.map Prod.snd,
      t ∈ (Function.update server.shards i sh j).written.map Prod.snd := by
    apply (Function.forall_update_iff server.shards fun j sh =>
      ∀ t ∈ (server.shards j).written.map Prod.snd, t ∈ sh.written.map Prod.snd).mpr
    refine ⟨fun t mem => ?_, fun j _ t mem => mem⟩
    rw [appended]
    exact List.mem_append_left _ mem
  constructor
  · exact (Function.forall_update_iff server.shards fun j sh =>
      sh.engine.config = configs j).mpr ⟨config, fun j _ => ok.config j⟩
  · exact (Function.forall_update_iff server.shards fun j sh =>
      Tokens (configs j) sh.cas).mpr ⟨moved, fun j _ => ok.tokens j⟩
  · rw [List.nodup_append]
    refine ⟨ok.nodup, ?_, ?_⟩
    · exact ((tokensFrom_increasing _ k).sublist sub).imp fun lt => Nat.ne_of_lt lt
    · rintro t issued t' replied rfl
      exact ok.fresh striped (sub.subset replied) issued
  · intro t mem
    rcases List.mem_append.mp mem with issued | replied
    · obtain ⟨j, stored⟩ := ok.stored t issued
      exact ⟨j, kept j t stored⟩
    · refine ⟨i, ?_⟩
      simp only [Function.update_self, appended, tokens]
      exact List.mem_append_right _ (sub.subset replied)

theorem Server.Ok.restart (ok : server.Ok configs)
    (reserved : ServerEvent.Reserved server .restart) : (server.step .restart).Ok configs := by
  constructor
  · exact ok.config
  · exact fun i => (ok.tokens i).reopen (reserved i)
  · exact ok.nodup
  · exact ok.stored

/-- Over every run of a server, no token is answered twice and the tokens stored
under a key increase, if counts do not overflow and every restart finds each count
within its durable reservation. A key is kept by one shard. -/
theorem tokens_never_repeat (configs : Fin n → Config)
    (striped : ∀ i, (configs i).shardIndex = i ∧ (configs i).shardCount = n)
    (events : List (ServerEvent n))
    (fits : Along Server.step ServerEvent.Fits (.create configs) events)
    (reserved : Along Server.step ServerEvent.Reserved (.create configs) events) :
    (run Server.step (.create configs) events).issued.Nodup ∧
      ∀ i key, (((run Server.step (.create configs) events).shards i).written.filter
        fun w => w.1 = key).Pairwise fun w w' => w.2 < w'.2 := by
  have ok : (run Server.step (.create configs) events).Ok configs := by
    apply run_invariant (I := Server.Ok configs) _ (.create configs) (fits.and reserved)
    rintro server event ok ⟨fits, reserved⟩
    cases event with
    | turn i turn => exact ok.turn striped fits
    | restart => exact ok.restart reserved
  refine ⟨ok.nodup, fun i key => ?_⟩
  have increasing := List.pairwise_map.mp (ok.tokens i).increasing
  exact increasing.sublist List.filter_sublist

end Server

/-! ### The reservation of an aborted batch -/

/-- The one shard of a server. -/
def oneShard : Fin 1 → Config := fun _ => firstByteConfig 1000

/-- A write of key `1`, with what the engine reports. -/
def writeTurn (faults : List (Option Fault)) : ServerEvent 1 :=
  .turn 0 (.of 100 [.set [settledSet [1] never none]] faults)

/-- Two writes, the second aborted within the block the first reserved, then a
restart and another write. -/
def reservedEvents : List (ServerEvent 1) :=
  [writeTurn [], writeTurn [none, some (.engine "I/O error")], .restart, writeTurn []]

/-- Restarting within the reservation. -/
theorem tokens_never_repeat_reserved :
    (run Server.step (.create oneShard) reservedEvents).issued = [1, 1048578] ∧
      (run Server.step (.create oneShard) reservedEvents).issued.Nodup := by
  exact ⟨by decide, (tokens_never_repeat oneShard (by decide) reservedEvents (by decide)
    (by decide)).1⟩

/-- The first write reserves a block and is aborted; the second takes a count of
the block; after a restart, the third and fourth count from the start again. -/
def abortedEvents : List (ServerEvent 1) :=
  [writeTurn [none, none, some (.engine "I/O error")], writeTurn [], .restart, writeTurn [],
    writeTurn []]

/-- The reservation an aborted batch made stays in RAM and is rolled back on disk,
so that a restart repeats a token, and stores one below the token before it. -/
theorem aborted_reservation_repeats :
    Along Server.step ServerEvent.Fits (.create oneShard) abortedEvents ∧
      (run Server.step (.create oneShard) abortedEvents).issued = [2, 1, 2] ∧
      ((run Server.step (.create oneShard) abortedEvents).shards 0).written =
        [([1], 2), ([1], 1), ([1], 2)] :=
  ⟨by decide, by decide, by decide⟩

end Vash.Store
