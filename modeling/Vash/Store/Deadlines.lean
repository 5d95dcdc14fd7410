import Vash.Store.Overwrites
import Vash.Store.Readings

/-!
# The deadline a write stores

Each operation that stores a record settles its deadline in its own way: a prepared
write brings it along, a touch and a counter operation compute it when they are
applied. Here the clock stands at one reading while an operation is applied.

* `conditionalSet_stores`, `applyTouch_expires`,
  `applyArithmetic_expires` — the deadline under the key once the operation has written.
* `applyConditionalSet_cases` — what a guarded write does to the records.
-/

namespace Vash

/-- The mode stores the request's own value. -/
def SetMode.whole : SetMode → Bool
  | .append => false
  | .prepend => false
  | _ => true

namespace Store

open Library

variable {eng : Engine} {s : Txn} {now : Nat}

/-- The clock stands at `now`. -/
def Txn.StandsAt (s : Txn) (now : Nat) : Prop := ∀ k, s.clock k = now

/-- The deadline under `key` is `deadline`. -/
def Txn.Expires (s : Txn) (key : Bytes) (deadline : Nat) : Prop :=
  ∃ r, s.tables.main.get key = some r ∧ r.header.expiresAtMs = deadline

/-- The deadline a change of the record under `key` starts from: that of the record a
client would be served, and none if there is no such record. -/
def Tables.deadlineAt (t : Tables) (eng : Engine) (key : Bytes) (now : Nat) : Nat :=
  match t.main.get key with
  | some r =>
    if r.isAlive now eng.epoch eng.registry.generation then r.header.expiresAtMs else never
  | none => never

/-- A touch hits a live record, and if it hits it stores the deadline of its reading. -/
theorem applyTouch_expires (stands : s.StandsAt now) (key : Bytes) (ttlSecs : Nat) :
    wp (applyTouch eng key ttlSecs)
      (fun hit s' => (∀ r, s.tables.main.get key = some r →
          r.isAlive now eng.epoch eng.registry.generation = true → hit = true) ∧
        (hit = true → s'.Expires key (expiryFromTtl now ttlSecs)))
      (fun _ _ => True) s := by
  refine wp_nowMs_bind (wp.bind ((query_breaks.and query_clock).stops
    fun _ _ _ => trivial) ?_)
  rintro found s₁ ⟨⟨rfl, -⟩, clock⟩
  have settled : s₁.clock 0 = now := by
    rw [clock]
    exact stands 1
  rw [show s.ticked.tables = s.tables from rfl, stands 0]
  cases s.tables.main.get key with
  | none => exact wp.pure (by simp)
  | some record =>
    dsimp only
    split
    · refine wp_nowMs_bind (wp.bind (liftCore_spec.stops
        fun _ _ _ => trivial) ?_)
      rintro p _ ⟨encoded, rfl⟩
      obtain ⟨rfl, -, -, -, expires⟩ := PreparedSet.of_encode encoded
      rw [settled] at expires
      exact wp.bind ((applySet_stores (by simp) (p.finish_settled expires)).stops
        fun _ _ _ => trivial) fun _ _ stored => wp.pure ⟨fun _ _ _ => rfl, fun _ => stored⟩
    · rename_i dead
      refine wp.pure ⟨?_, by simp⟩
      rintro _ ⟨⟩ alive
      exact absurd alive dead

/-! ### Guarded writes -/

/-- The record a client would be served at the clock's next reading. -/
def Txn.served (s : Txn) (eng : Engine) (key : Bytes) : Option Record :=
  (s.found eng key).bind fun f => if f.live then some f.record else none

theorem Txn.get_of_served {key : Bytes} {r : Record} (served : s.served eng key = some r) :
    s.tables.main.get key = some r := by
  unfold Txn.served Txn.found at served
  cases stored : s.tables.main.get key with
  | none =>
    rw [stored] at served
    cases served
  | some r' =>
    rw [stored, Option.map_some, Option.bind_some] at served
    split at served
    · exact served
    · cases served

theorem conditionalVerdict_ne_stored {mode : SetMode} {existing : Option Record} {outcome : Stored}
    (verdict : conditionalVerdict mode existing = some outcome) (cas : Nat) :
    outcome ≠ .stored cas := by
  rintro rfl
  unfold conditionalVerdict at verdict
  split at verdict
  all_goals first | cases verdict | skip
  split at verdict <;> cases verdict

theorem conditionalRecord_whole {p : PreparedSet} {mode : SetMode} (whole : mode.whole = true)
    (existing : Option Record) : conditionalRecord eng p mode existing = pure p := by
  cases mode with
  | append => cases whole
  | prepend => cases whole
  | _ => rfl

/-- A guarded write is refused and changes no record, or is let through by its guard and
stores one; a whole value is stored as it was prepared. -/
theorem applyConditionalSet_cases (p : PreparedSet) (mode : SetMode) :
    wp (applyConditionalSet eng p mode)
      (fun written s' =>
        (conditionalVerdict mode (s.served eng p.key) ≠ none ∧
          (∀ cas, written.outcome ≠ .stored cas) ∧ s'.tables.main = s.tables.main) ∨
        (conditionalVerdict mode (s.served eng p.key) = none ∧ ∃ q cas e,
          written.outcome = .stored cas ∧ (mode.whole = true → q = p) ∧
            s'.tables.main = s.tables.main.put p.key (q.finish cas e)))
      (fun e s' => s'.tables.main = s.tables.main ∨ Breaks e s') s := by
  refine wp.bind ((readForUpdate_found p.key).stops fun _ _ h => .inr h) ?_
  rintro _ s₁ ⟨rfl, agrees, -⟩
  have tables := agrees.tables
  dsimp only
  cases verdict : conditionalVerdict mode ((s.found eng p.key).bind fun f =>
      if f.live then some f.record else none) with
  | some outcome =>
    have refused : conditionalVerdict mode (s.served eng p.key) ≠ none := by
      rw [Txn.served, verdict]
      simp
    exact wp.pure (.inl ⟨refused, conditionalVerdict_ne_stored verdict, by rw [tables]⟩)
  | none =>
    have plain : wp (conditionalRecord eng p mode (s.served eng p.key))
        (fun q s' => q.key = p.key ∧ (mode.whole = true → q = p) ∧ s' = s₁)
        (fun _ s' => s' = s₁) s₁ := by
      cases whole : mode.whole with
      | true =>
        rw [conditionalRecord_whole whole]
        exact wp.pure ⟨rfl, fun _ => rfl, rfl⟩
      | false =>
        refine (conditionalRecord_tags p mode _).imp ?_
        rintro q _ ⟨key, -, -, same⟩
        exact ⟨key, nofun, same⟩
    refine wp.bind (plain.stops fun _ s' same => .inl (by rw [same, tables])) ?_
    rintro q _ ⟨key, same, rfl⟩
    refine wp.bind ((applySet_spec q ?_).stops fun _ _ h => .inr h) ?_
    · intro pre mem
      obtain rfl := Option.mem_some_iff.mp mem
      simp only [PreRead.Reads, Tables.indexedAt, key, tables, Txn.found, Option.map_map]
      exact ⟨rfl, rfl⟩
    · rintro applied s' ⟨-, e, becomes⟩
      refine wp.pure (.inr ⟨verdict, q, applied.cas, e, rfl, same, ?_⟩)
      rw [becomes.tables, ← tables, ← key]
      rfl

/-- A write of a whole value stores the record it was prepared with, if it is stored at
all. -/
theorem conditionalSet_stores (p : PreparedSet) {mode : SetMode} (whole : mode.whole = true) :
    wp (applyConditionalSet eng p mode)
      (fun written s' => ∀ cas, written.outcome = .stored cas →
        ∃ token e, s'.tables.main.get p.key = some (p.finish token e))
      (fun _ _ => True) s := by
  refine (applyConditionalSet_cases p mode).mono ?_ fun _ _ _ => trivial
  rintro written s' (⟨-, refused, -⟩ | ⟨-, q, token, e, -, same, main⟩) cas stored
  · exact absurd stored (refused cas)
  · obtain rfl := same whole
    exact ⟨token, e, by rw [main, Table.get_put_self]⟩

/-- A compare-and-swap that is not stored changes no record, and one that is found its token
on the record. -/
theorem conditionalSet_compares (p : PreparedSet) (expected : Nat) :
    wp (applyConditionalSet eng p (.cas expected))
      (fun written s' => (s'.tables.main = s.tables.main ∧ ∀ cas, written.outcome ≠ .stored cas) ∨
        ((∃ cas, written.outcome = .stored cas) ∧
          ∃ r, s.tables.main.get p.key = some r ∧ r.header.cas = expected))
      (fun e s' => s'.tables.main = s.tables.main ∨ Breaks e s') s := by
  refine (applyConditionalSet_cases p (.cas expected)).imp ?_
  rintro written s' (⟨-, refused, main⟩ | ⟨passes, -, cas, -, stored, -⟩)
  · exact .inl ⟨main, refused⟩
  · refine .inr ⟨⟨cas, stored⟩, ?_⟩
    cases served : s.served eng p.key with
    | none =>
      rw [served] at passes
      cases passes
    | some r =>
      rw [served, conditionalVerdict] at passes
      refine ⟨r, Txn.get_of_served served, ?_⟩
      by_contra other
      rw [if_pos other] at passes
      cases passes

/-! ### Counters -/

section Evaluate

variable {floats : FloatOps} {onBound : OnBound} {applied : Applied}

theorem evaluateInt_unchanged {current delta lower upper : Int}
    (outcome : evaluateInt floats onBound current delta lower upper = .ok (.unchanged applied)) :
    applied.wrote = false := by
  unfold evaluateInt at outcome
  cases onBound with
  | fail =>
    dsimp only at outcome
    split at outcome
    · cases outcome
    · cases outcome
  | skip =>
    dsimp only at outcome
    split at outcome
    · cases outcome
    · cases outcome
      rfl
  | clamp =>
    -- A clamped result is stored, whichever bound it is clamped to.
    dsimp only at outcome
    repeat' split at outcome
    all_goals cases outcome

theorem evaluateFloat_unchanged {current delta lower upper : F64}
    (outcome : evaluateFloat floats onBound current delta lower upper =
      .ok (.unchanged applied)) : applied.wrote = false := by
  unfold evaluateFloat at outcome
  cases onBound with
  | fail =>
    dsimp only at outcome
    split at outcome
    · cases outcome
    · cases outcome
  | skip =>
    dsimp only at outcome
    split at outcome
    · cases outcome
    · cases outcome
      rfl
  | clamp =>
    dsimp only at outcome
    repeat' split at outcome
    all_goals cases outcome

/-- An operation that leaves the record unchanged says so. -/
theorem evaluate_unchanged {op : Arithmetic} {stored : Option Bytes}
    (outcome : op.evaluate floats stored = .ok (.unchanged applied)) : applied.wrote = false := by
  unfold Arithmetic.evaluate at outcome
  split at outcome
  · cases outcome
  · split at outcome
    · split at outcome
      · cases outcome
      · rename_i bytes _
        cases parsed : parseCounter bytes with
        | error e =>
          rw [parsed] at outcome
          cases outcome
        | ok current =>
          rw [parsed] at outcome
          cases outcome
    · split at outcome
      · exact evaluateInt_unchanged outcome
      · split at outcome
        · cases outcome
        · exact evaluateInt_unchanged outcome
    · split at outcome
      · exact evaluateFloat_unchanged outcome
      · split at outcome
        · cases outcome
        · exact evaluateFloat_unchanged outcome

end Evaluate

/-- The record a client would be served, at the clock's next reading. -/
theorem liveRecord_standing (stands : s.StandsAt now) (key : Bytes) :
    wp (liveRecord eng key)
      (fun found s' => (found.elim never fun r => r.header.expiresAtMs) =
        s.tables.deadlineAt eng key now ∧ s'.StandsAt now) Breaks s := by
  refine wp.bind (readForUpdate_found key) ?_
  rintro _ s₁ ⟨rfl, agrees, clock⟩
  have standing : s₁.StandsAt now := by
    intro k
    rw [clock]
    split
    · exact stands (k + 1)
    · exact stands k
  unfold Tables.deadlineAt Txn.found
  rw [stands 0]
  cases s.tables.main.get key with
  | none => exact wp.pure ⟨rfl, standing⟩
  | some r =>
    simp only [Option.map_some]
    cases alive : r.isAlive now eng.epoch eng.registry.generation with
    | true => exact wp.pure ⟨rfl, standing⟩
    | false => exact wp.pure ⟨rfl, standing⟩

/-- A counter operation that writes stores the deadline its policy makes of the one
the record had. -/
theorem applyArithmetic_expires (stands : s.StandsAt now) (op : Arithmetic) :
    wp (applyArithmetic eng op)
      (fun applied s' => (∃ a, applied = some a ∧ a.wrote = true) →
        s'.Expires op.key (deadlineAfter now op.ttl (s.tables.deadlineAt eng op.key now)))
      (fun _ _ => True) s := by
  refine wp.bind ((liveRecord_standing stands op.key).stops fun _ _ _ => trivial) ?_
  rintro existing s₁ ⟨before, standing⟩
  refine wp.bind (liftCore_spec.stops fun _ _ _ => trivial) ?_
  rintro outcome _ ⟨evaluated, rfl⟩
  cases outcome with
  | missing => exact wp.pure (by simp)
  | unchanged applied => exact wp.pure (by simp [evaluate_unchanged evaluated])
  | store text applied =>
    refine wp.bind (liftCore_spec.mono (fun _ _ h => h.2) fun _ _ _ => trivial) ?_
    rintro _ _ rfl
    refine wp_nowMs_bind ?_
    rw [standing 0, ← before]
    cases existing with
    | none =>
      exact wp.bind (rewrite_stores fun _ _ _ h => h) fun _ _ stored => wp.pure fun _ => stored
    | some r =>
      exact wp.bind (rewrite_stores fun _ _ _ h => h) fun _ _ stored => wp.pure fun _ => stored

/-- The record under `key` has the given value. -/
def Txn.Holds (s : Txn) (key value : Bytes) : Prop :=
  ∃ r, s.tables.main.get key = some r ∧ r.value = value

theorem liveRecord_served (key : Bytes) :
    wp (liveRecord eng key) (fun found _ => found = s.served eng key) (fun _ _ => True) s := by
  refine wp.bind ((readForUpdate_found key).mono (fun _ _ h => h.1) fun _ _ _ => trivial) ?_
  rintro _ _ rfl
  unfold Txn.served
  cases s.found eng key with
  | none => exact wp.pure rfl
  | some found =>
    obtain ⟨r, live⟩ := found
    cases live with
    | true => exact wp.pure rfl
    | false => exact wp.pure rfl

/-- A counter that is not to be created is written exactly when a client would be served a
record, unless the operation is refused. -/
theorem applyArithmetic_counts {op : Arithmetic} (missing : op.missing = .fail) {delta : Nat}
    {decrement : Bool} (counter : op.delta = .counter delta decrement) :
    wp (applyArithmetic eng op)
      (fun applied _ => (∃ a, applied = some a ∧ a.wrote = true) ↔ s.served eng op.key ≠ none)
      (fun _ _ => True) s := by
  refine wp.bind (liveRecord_served op.key) ?_
  rintro existing s₁ rfl
  refine wp.bind (liftCore_spec.mono (fun _ _ h => h.1) fun _ _ _ => trivial) ?_
  intro outcome s₂ evaluated
  unfold Arithmetic.evaluate at evaluated
  rw [missing, counter] at evaluated
  cases served : s.served eng op.key with
  | none =>
    rw [served] at evaluated
    cases evaluated
    exact wp.pure (by simp)
  | some r =>
    rw [served, Option.map_some] at evaluated
    dsimp only at evaluated
    cases parsed : parseCounter r.value with
    | error e =>
      rw [parsed] at evaluated
      cases evaluated
    | ok current =>
      rw [parsed] at evaluated
      cases evaluated
      refine wp.bind (wp.trivial _ _) fun _ _ _ => wp.bind (wp.trivial _ _) fun _ _ _ =>
        wp.bind (wp.trivial _ _) fun _ _ _ => wp.pure ?_
      simp

/-- A counter operation that writes stores the text it made of the value a client would have
been served. -/
theorem applyArithmetic_holds (op : Arithmetic) :
    wp (applyArithmetic eng op)
      (fun applied s' => ∀ a, applied = some a → a.wrote = true → ∃ text,
        op.evaluate eng.config.floats ((s.served eng op.key).map Record.value) =
          .ok (.store text a) ∧ s'.Holds op.key text)
      (fun _ _ => True) s := by
  refine wp.bind (liveRecord_served op.key) ?_
  rintro existing s₁ rfl
  refine wp.bind (liftCore_spec.mono (fun _ _ h => h.1) fun _ _ _ => trivial) ?_
  intro outcome s₂ evaluated
  cases outcome with
  | missing => exact wp.pure (by simp)
  | unchanged applied =>
    refine wp.pure ?_
    rintro _ ⟨⟩ wrote
    rw [evaluate_unchanged evaluated] at wrote
    cases wrote
  | store text applied =>
    refine wp.bind (liftCore_spec.mono (fun _ _ _ => trivial) fun _ _ _ => trivial)
      fun _ _ _ => wp.bind nowMs_spec fun _ _ _ => ?_
    refine wp.bind (rewrite_stores fun _ _ h _ => h) fun _ _ holds => wp.pure ?_
    rintro _ ⟨⟩ _
    exact ⟨text, evaluated, holds⟩

end Store

end Vash
