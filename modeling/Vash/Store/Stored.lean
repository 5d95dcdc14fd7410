import Vash.Core.RecordBytes
import Vash.Store.Changes

/-!
# What jobs store

A record job stores a write that was prepared on a caller's thread, or rewrites the
record it found: the epoch and the tag references it leaves under a key are those
of a prepared write, or references that were there before under the epoch of RAM.

* `Admits` — a rule for what may stand under a key that rewriting respects.
* `apply_stores` — a job whose prepared writes respect the rule keeps it.
* `stored_bytes_are_patched` — the bytes a write leaves are those of the record.
-/

namespace Vash.Store

open Library

/-- A rule for the epoch and the references of the record under a key. -/
abbrev Rule := Bytes → Nat → List TagRef → Prop

/-- The rule lets a record be rewritten under the epoch of RAM, and an untagged one be
created under it. -/
structure Admits (eng : Engine) (rule : Rule) : Prop where
  fresh : ∀ key, rule key eng.epoch []
  renew : ∀ key epoch tags, rule key epoch tags → rule key eng.epoch tags

/-- Every record respects the rule. -/
def Tables.Respect (t : Tables) (rule : Rule) : Prop :=
  ∀ key r, t.main.get key = some r → rule key r.header.epoch r.tags

theorem Tables.Respect.of_subset {t t' : Tables} {rule : Rule} (held : t.Respect rule)
    (sub : ∀ key r, t'.main.get key = some r → t.main.get key = some r) : t'.Respect rule :=
  fun key r found => held key r (sub key r found)

/-- The writes a job brings along. -/
def WriteOp.prepared : WriteOp → List PreparedSet
  | .set prepared => prepared
  | .conditionalSet prepared _ => [prepared]
  | _ => []

/-- The prepared write respects the rule. -/
def PreparedSet.Respects (p : PreparedSet) (rule : Rule) : Prop :=
  rule p.key p.record.header.epoch p.tags

/-- The action keeps the rule. -/
def Keeps (rule : Rule) {α : Type} (action : TxnM α) : Prop :=
  Preserves (fun s => s.tables.Respect rule) (fun e s => Breaks e s ∨ s.tables.Respect rule) action

section Keeps

variable {eng : Engine} {rule : Rule} {α β : Type}

namespace Keeps

theorem pure (a : α) : Keeps rule (Pure.pure a) := Preserves.pure a

theorem bind {first : TxnM α} {next : α → TxnM β} (h : Keeps rule first)
    (rest : ∀ a, Keeps rule (next a)) : Keeps rule (first >>= next) := Preserves.bind h rest

theorem forEach {action : α → TxnM β} {elements : List α}
    (each : ∀ a ∈ elements, Keeps rule (action a)) :
    Keeps rule (Library.forEach action elements) := Preserves.forEach each

/-- An action that leaves the records as they were. -/
theorem of_main {action : TxnM α}
    (spec : ∀ s, wp action (fun _ s' => s'.tables.main = s.tables.main) Breaks s) :
    Keeps rule action := by
  intro s held
  refine (spec s).mono (fun _ s' same => ?_) fun _ _ => .inl
  exact held.of_subset fun key r found => same ▸ found

theorem nowMs : Keeps rule nowMs := of_main fun _ => nowMs_spec.imp fun _ _ h => by rw [h.2.tables]

/-- What follows a look at the record under a key may use that it respects the rule. -/
theorem look_bind {key : Bytes} {look : TxnM (Option Record)} {next : Option Record → TxnM β}
    (spec : ∀ s, wp look (fun found s' =>
      (∀ r ∈ found, s.tables.main.get key = some r) ∧ s.Agrees s') Breaks s)
    (absent : Keeps rule (next none))
    (present : ∀ r, rule key r.header.epoch r.tags → Keeps rule (next (some r))) :
    Keeps rule (look >>= next) := by
  intro s held
  refine wp.bind ((spec s).stops fun _ _ => .inl) ?_
  rintro found s₁ ⟨stored, agrees⟩
  have held₁ : s₁.tables.Respect rule := held.of_subset fun key r found => agrees.tables ▸ found
  cases found with
  | none => exact absent s₁ held₁
  | some r => exact present r (held key r (stored r rfl)) s₁ held₁

end Keeps

theorem PreparedSet.finish_epoch (p : PreparedSet) (cas e : Nat) :
    (p.finish cas e).header.epoch = p.record.header.epoch := by
  unfold PreparedSet.finish
  split <;> rfl

/-- `applySet`, whichever read it starts from. -/
theorem applySet_respects {p : PreparedSet} (respects : p.Respects rule)
    {preRead : Option PreRead} {s : Txn} (reads : ∀ pre ∈ preRead, pre.Reads s.tables p.key)
    (held : s.tables.Respect rule) :
    wp (applySet eng p preRead) (fun _ s' => s'.tables.Respect rule) Breaks s := by
  refine (applySet_spec p reads).imp ?_
  rintro applied s' ⟨-, e, becomes⟩
  intro key r found
  rw [becomes.tables] at found
  change (s.tables.main.put p.key (p.finish applied.cas e)).get key = some r at found
  rw [Table.get_put] at found
  split at found
  · rename_i same
    obtain rfl := Option.some.inj found
    rw [same, PreparedSet.finish_epoch, PreparedSet.finish_tags]
    exact respects
  · exact held key r found

theorem applySet_keeps_rule {p : PreparedSet} (respects : p.Respects rule) :
    Keeps rule (applySet eng p none) :=
  fun _ held => (applySet_respects respects (by simp) held).stops fun _ _ => .inl

theorem applyDelete_keeps_rule (key : Bytes) : Keeps rule (applyDelete eng key) := by
  intro s held
  refine wp.bind ((displace_spec key false false).mono (fun _ _ h => h.2) fun _ _ => .inl) ?_
  intro _ s₁ h₁
  refine wp.bind (update_breaks.stops fun _ _ => .inl) fun _ s₂ h₂ => wp.pure ?_
  refine held.of_subset fun key' r found => ?_
  rw [h₂.tables, h₁.tables] at found
  exact Table.get_of_delete found

theorem applyConditionalSet_keeps_rule (admits : Admits eng rule) {p : PreparedSet}
    (respects : p.Respects rule) (mode : SetMode) :
    Keeps rule (applyConditionalSet eng p mode) := by
  intro s held
  refine applyConditionalSet_rule
    ((readForUpdate_spec _).mono (fun _ _ _ => trivial) fun _ _ => .inl)
    (fun _ s₁ agrees => .inr ?_) (fun _ s₁ _ agrees => ?_)
    fun p' pre s₁ key tags epoch agrees reads => ?_
  all_goals rw [← agrees.tables] at held
  · exact held
  · exact held
  · have respects' : p'.Respects rule := by
      unfold PreparedSet.Respects at respects ⊢
      rw [key, tags]
      rcases epoch with same | renewed
      · rw [same]
        exact respects
      · rw [renewed]
        exact admits.renew _ _ _ respects
    exact (applySet_respects respects' (by simpa using reads) held).mono (fun _ _ h _ => h)
      fun _ _ => .inl

/-- The jobs that change a record in place. -/
theorem recordKeeps (admits : Admits eng rule) (key : Bytes) :
    RecordLogic eng key (rule key) (Keeps rule) where
  pure := .pure
  refuse _ _ held := .inr held
  map _ h := h.bind fun _ => .pure _
  clock := Keeps.nowMs.bind
  live := Keeps.look_bind fun _ => (liveRecord_spec key).imp fun _ _ h => ⟨by
    obtain ⟨now, rfl⟩ := h.1
    exact fun r found => (Option.filter_eq_some_iff.mp found).1, h.2⟩
  main := Keeps.look_bind fun _ => query_breaks.imp fun _ _ h => ⟨by simp [h.1], h.2⟩
  set same allowed := applySet_keeps_rule (by rwa [PreparedSet.Respects, same])
  delete := applyDelete_keeps_rule key
  fresh := admits.fresh key
  renew := admits.renew key _ _

/-- A record job whose prepared writes respect a rule keeps it. -/
theorem apply_stores (admits : Admits eng rule) {op : WriteOp} (record : op.isRecord = true)
    (respects : ∀ p ∈ op.prepared, p.Respects rule) : Keeps rule (apply eng op) := by
  cases op with
  | set prepared =>
    exact (Keeps.forEach fun p mem => applySet_keeps_rule (respects p mem)).bind fun _ => .pure _
  | conditionalSet p mode =>
    exact (applyConditionalSet_keeps_rule admits (respects p (List.mem_singleton_self p))
      mode).bind fun _ => .pure _
  | delete keys =>
    exact (Keeps.forEach fun key _ => applyDelete_keeps_rule key).bind fun _ => .pure _
  | touch keys ttlSecs =>
    exact (Keeps.forEach fun key _ => (recordKeeps admits key).applyTouch ttlSecs).bind
      fun _ => .pure _
  | arithmetic op => exact (recordKeeps admits op.key).applyArithmetic.bind fun _ => .pure _
  | append key suffix =>
    exact ((recordKeeps admits key).applyAppend suffix).bind fun _ => .pure _
  | expire key ttl guard =>
    exact ((recordKeeps admits key).applyExpire ttl guard).bind fun _ => .pure _
  | _ => simp [WriteOp.isRecord] at record

end Keeps

/-! ### The bytes of a write -/

/-- What `apply_set` makes of an encoded record: the token is patched in, and the deadline too
where it could not be settled before. -/
def finishBytes (expiresAtMs : Option Nat) (record : Bytes) (cas resolved : UInt64) :
    Except CoreError Bytes := do
  let stamped ← patchCas record cas
  match expiresAtMs with
  | some _ => return stamped
  | none => patchExpiry stamped resolved

section Bytes

variable {key value : Bytes} {header : RecordMeta} {expiresAtMs : Option Nat} {ttl : TtlChange}
  {tags : List TagRef} {returnPrevious : Bool}
  {settled : ∀ e, expiresAtMs = some e → header.expiresAtMs = e} {p : PreparedSet}

theorem PreparedSet.finishBytes_eq (p : PreparedSet) (cas resolved : UInt64) :
    finishBytes p.expiresAtMs p.record.asBytes cas resolved =
      .ok (p.finish cas.toNat resolved.toNat).asBytes := by
  unfold finishBytes PreparedSet.finish
  rw [Record.patchCas_asBytes]
  cases p.expiresAtMs with
  | some e => rfl
  | none => exact Record.patchExpiry_asBytes _ _

theorem PreparedSet.finish_fits (fits : p.record.header.Fits) (cas resolved : UInt64) :
    (p.finish cas.toNat resolved.toNat).header.Fits := by
  unfold PreparedSet.finish
  split
  · exact { fits with cas := Nat.le_of_lt_succ cas.toNat_lt }
  · exact { fits with
      cas := Nat.le_of_lt_succ cas.toNat_lt
      expiresAtMs := Nat.le_of_lt_succ resolved.toNat_lt }

/-- A write that is encoded once and patched in place by the writer is stored as the finished
record would be encoded, and is read back as that record. -/
theorem stored_bytes_are_patched
    (encoded : PreparedSet.encode key header expiresAtMs ttl tags value returnPrevious settled =
      .ok p)
    (fits : header.Fits) (tagsFit : ∀ tag ∈ tags, tag.Fits) (cas resolved : UInt64) :
    ∃ bytes stored ref, encodeRecordBytes header tags value = .ok bytes ∧
      finishBytes expiresAtMs bytes cas resolved = .ok stored ∧
      encodeRecordBytes (p.finish cas.toNat resolved.toNat).header tags value = .ok stored ∧
      RecordRef.parse stored = .ok ref ∧
      ref.header.toMeta = (p.finish cas.toNat resolved.toNat).header ∧ ref.tags = tags ∧
      ref.value = value := by
  obtain ⟨-, rfl, tagsEq, rfl, rfl⟩ := PreparedSet.of_encode encoded
  obtain rfl := p.tags_eq.trans tagsEq
  have finished : (p.finish cas.toNat resolved.toNat).tags = p.record.tags :=
    (p.finish_tags _ _).trans p.tags_eq.symm
  obtain ⟨ref, parsed, meta', refs, content⟩ :=
    Record.parse_asBytes (p.finish_fits fits cas resolved) (by rwa [finished])
  refine ⟨p.record.asBytes, _, ref, Record.encodeRecordBytes_of_ok ?_,
    p.finishBytes_eq cas resolved, Record.encodeRecordBytes_of_ok ?_, parsed, meta',
    refs.trans finished, content.trans (p.finish_value _ _)⟩
  · exact encodeRecord_eq_ok_iff.mpr ⟨rfl, rfl, rfl⟩
  · exact encodeRecord_eq_ok_iff.mpr ⟨rfl, finished, p.finish_value _ _⟩

/-- A write that keeps the deadline of the record it displaces. -/
theorem stored_bytes_are_patched_keep :
    ∃ bytes stored ref, encodeRecordBytes ⟨0, 0, never, 0⟩ [⟨1, 2⟩] [5] = .ok bytes ∧
      finishBytes none bytes 9 77 = .ok stored ∧ RecordRef.parse stored = .ok ref ∧
      ref.header.toMeta = ⟨0, 0, 77, 9⟩ := by
  have encoded : PreparedSet.encode [7] ⟨0, 0, never, 0⟩ none .keep [⟨1, 2⟩] [5] false (by simp) =
    .ok _ := rfl
  obtain ⟨bytes, stored, ref, written, patched, -, parsed, header, -⟩ :=
    stored_bytes_are_patched encoded ⟨by decide, by decide, by decide, by decide⟩
      (by simp [TagRef.Fits, u32Max, u64Max]) 9 77
  exact ⟨bytes, stored, ref, written, patched, parsed, header⟩

end Bytes

end Vash.Store
