import Vash.Store.Stored
import Vash.Store.Tokens

/-!
# Operations and the readings they make

The clock gives an operation one reading after another, and what an operation does
to a record depends on the reading the record is judged at. Here the readings still
to come are known to lie in a set.

* `Timed.displace`, `Timed.applySet` — an operation leaves readings of the set.
* `applyDelete_judged`, `applyTouch_judged` — what a delete and a touch do to the
  record under a key, judged at one of the readings.
-/

namespace Vash.Store

open Library

/-- Every reading still to come is in `readings`. -/
def Txn.Reads (s : Txn) (readings : Set Nat) : Prop := ∀ k, s.clock k ∈ readings

/-- The action leaves readings of the set, whenever it starts with such. -/
def Timed (readings : Set Nat) {α : Type} (action : TxnM α) : Prop :=
  Preserves (fun s => s.Reads readings) (fun _ _ => True) action

namespace Timed

variable {readings : Set Nat} {eng : Engine} {α β : Type}

theorem of_clock {action : TxnM α}
    (same : ∀ s, wp action (fun _ s' => s'.clock = s.clock) (fun _ _ => True) s) :
    Timed readings action :=
  fun s held => (same s).imp fun _ _ kept k => kept ▸ held k

theorem query (read : Tables → α) : Timed readings (query read) := of_clock fun _ => query_clock

theorem update (change : Tables → Tables) : Timed readings (update change) :=
  of_clock fun _ => update_clock

theorem nowMs : Timed readings nowMs := fun _ held k => held (k + 1)

theorem judge (r : Record) : Timed readings (judge eng r) := Preserves.bind nowMs fun _ => .pure _

theorem clearTagRows (key : Bytes) (ids : List Nat) :
    Timed readings (clearTagRows eng key ids) := by
  induction ids with
  | nil => exact .pure ()
  | cons id rest ih => exact Preserves.bind (update _) fun _ => ih

theorem putTagRows (key : Bytes) (ids : List Nat) : Timed readings (putTagRows eng key ids) := by
  induction ids with
  | nil => exact .pure ()
  | cons id rest ih => exact Preserves.bind (update _) fun _ => ih

theorem displace (key : Bytes) (wantValue keepExpiryRow : Bool) :
    Timed readings (displace eng key wantValue keepExpiryRow) := by
  refine Preserves.bind (query _) fun found => ?_
  cases found with
  | none => exact .pure _
  | some record =>
    refine Preserves.bind (judge record) fun live => Preserves.bind ?_ fun _ => .pure _
    cases keepExpiryRow with
    | true => exact clearTagRows key _
    | false => exact Preserves.bind (update _) fun _ => clearTagRows key _

theorem nextCas : Timed readings (nextCas eng) := by
  intro s held
  unfold Store.nextCas
  refine wp.get_bind (wp.set_bind ?_)
  split
  · refine wp.bind (m := fun _ s' => s'.Reads readings) (update _ _ ?_) ?_
    · exact held
    · intro _ s₁ kept
      exact wp.modify_bind (wp.pure fun k => kept k)
  · exact wp.pure held

theorem reindexExpiry (key : Bytes) (indexedAt : Option Nat) (expiresAtMs : Nat) :
    Timed readings (reindexExpiry eng key indexedAt expiresAtMs) := by
  unfold Store.reindexExpiry
  split
  · exact .pure ()
  · cases indexedAt with
    | none => exact update _
    | some previously => exact Preserves.bind (update _) fun _ => update _

theorem settleDeadline (p : PreparedSet) (displaced : Displaced) :
    Timed readings (settleDeadline p displaced) := by
  unfold Store.settleDeadline
  split
  · exact .pure _
  · exact Preserves.bind nowMs fun _ => .pure _

theorem applySet (p : PreparedSet) : Timed readings (applySet eng p none) := by
  refine Preserves.bind nextCas fun cas => Preserves.bind (displace _ _ _) fun displaced =>
    Preserves.bind (settleDeadline p displaced) fun expiresAtMs =>
      Preserves.bind (update _) fun _ => Preserves.bind (fun _ held => wp.modify held) fun _ =>
        Preserves.bind (reindexExpiry _ _ _) fun _ => Preserves.bind (putTagRows _ _)
          fun _ => .pure _

/-- What an action does, with the readings it leaves. -/
theorem and {action : TxnM α} (within : Timed readings action) {s : Txn}
    (held : s.Reads readings) {post : α → Txn → Prop} (h : wp action post Breaks s) :
    wp action (fun a s' => post a s' ∧ s'.Reads readings) Breaks s :=
  (h.and (within s held)).stops fun _ _ h => h.1

end Timed

section Judged

variable {readings : Set Nat} {eng : Engine} {s : Txn}

/-- A delete reports whether the record was live at one of the readings. -/
theorem applyDelete_judged (held : s.Reads readings) (key : Bytes) :
    wp (applyDelete eng key)
      (fun hit s' => (∃ now ∈ readings, hit = (displacedAt eng s.tables key false now).live) ∧
        s'.tables.main = s.tables.main.delete key ∧ s'.Reads readings) Breaks s := by
  refine wp.bind ((Timed.displace key false false).and held (displace_reads key false false)) ?_
  rintro _ s₁ ⟨⟨rfl, becomes⟩, kept⟩
  refine wp.bind ((Timed.update _).and kept update_breaks) ?_
  rintro _ s₂ ⟨deleted, kept'⟩
  refine wp.pure ⟨⟨s.clock 0, held 0, rfl⟩, ?_, kept'⟩
  rw [deleted.tables, becomes.tables]
  rfl

/-- A write draws the next token and stores its record under it. -/
theorem applySet_token (p : PreparedSet) :
    wp (applySet eng p none)
      (fun applied s' => (∃ e, s'.tables.main = s.tables.main.put p.key (p.finish applied.cas e)) ∧
        applied.cas = eng.config.token (wrappingAdd64 s.counters.casNext 1) ∧
        s'.counters.casNext = wrappingAdd64 s.counters.casNext 1) Breaks s := by
  refine (applySet_spec p (by simp)).imp ?_
  rintro applied s' ⟨cas, e, becomes⟩
  exact ⟨⟨e, by rw [becomes.tables]; rfl⟩, cas, by rw [becomes.counters]; rfl⟩

/-- A touch leaves a record that is dead at its reading alone, and stores a live one
again under the next token. -/
theorem applyTouch_judged (held : s.Reads readings) (key : Bytes) (ttlSecs : Nat) :
    wp (applyTouch eng key ttlSecs)
      (fun _ s' => s'.Reads readings ∧
        (s'.tables.main = s.tables.main ∧ s'.counters = s.counters ∧
            (∀ r, s.tables.main.get key = some r → ∃ now ∈ readings,
              r.isAlive now eng.epoch eng.registry.generation = false) ∨
          ∃ r, s'.tables.main = s.tables.main.put key r ∧
            r.header.cas = eng.config.token (wrappingAdd64 s.counters.casNext 1) ∧
            s'.counters.casNext = wrappingAdd64 s.counters.casNext 1)) Breaks s := by
  refine wp.bind (Timed.nowMs.and held nowMs_spec) ?_
  rintro _ s₁ ⟨⟨rfl, h₁⟩, held₁⟩
  refine wp.bind ((Timed.query _).and held₁ query_breaks) ?_
  rintro _ s₂ ⟨⟨rfl, h₂⟩, held₂⟩
  have reached := Txn.agrees_trans h₁ h₂
  rw [h₁.tables]
  cases found : s.tables.main.get key with
  | none =>
    exact wp.pure ⟨held₂, .inl ⟨by rw [reached.tables], reached.counters, by simp⟩⟩
  | some record =>
    dsimp only
    split
    · refine wp.bind (Timed.nowMs.and held₂ nowMs_spec) ?_
      rintro settled s₃ ⟨⟨-, h₃⟩, held₃⟩
      have there := Txn.agrees_trans reached h₃
      refine wp.bind ((liftCore_encode record.tags_le).stops fun _ _ => False.elim) ?_
      rintro p _ ⟨rfl, rfl⟩
      refine wp.bind ((Timed.applySet p).and held₃ (applySet_token p)) ?_
      rintro applied s₄ ⟨⟨⟨e, stored⟩, cas, count⟩, held₄⟩
      rw [there.tables] at stored
      rw [there.counters] at cas count
      exact wp.pure ⟨held₄, .inr ⟨_, stored, by rw [p.finish_cas, cas], count⟩⟩
    · rename_i dead
      refine wp.pure ⟨held₂, .inl ⟨by rw [reached.tables], reached.counters, ?_⟩⟩
      rintro r same
      obtain rfl := Option.some.inj same
      exact ⟨s.clock 0, held 0, by simpa using dead⟩

end Judged

end Vash.Store
