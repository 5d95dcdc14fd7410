import Vash.Store.Writer

/-!
# The steps of a record job

The jobs that change a record in place take the same few steps: they look the record up, read the
clock, check what they computed and store the record again. A judgement that goes through the
steps holds of the jobs (`RecordLogic`).
-/

namespace Vash.Store

open Library

/-- A job on records: it names keys and publishes nothing. -/
def WriteOp.isRecord : WriteOp → Bool
  | .createTags _ => false
  | .deleteByTag _ => false
  | .mergeTag _ _ => false
  | .flush => false
  | .sync => false
  | _ => true

/-! ### Encoded writes -/

variable {key : Bytes} {header : RecordMeta} {expiresAtMs : Option Nat} {ttl : TtlChange}
  {tags : List TagRef} {value : Bytes} {returnPrevious : Bool}
  {settled : ∀ e, expiresAtMs = some e → header.expiresAtMs = e} {p : PreparedSet}

/-- What encoding a write makes of its parts. -/
theorem PreparedSet.of_encode
    (encoded : encode key header expiresAtMs ttl tags value returnPrevious settled = .ok p) :
    p.key = key ∧ p.record.header = header ∧ p.tags = tags ∧ p.record.value = value ∧
      p.expiresAtMs = expiresAtMs := by
  unfold encode at encoded
  split at encoded
  · cases encoded
  · rename_i record ok
    cases encoded
    obtain ⟨sameHeader, -, sameValue⟩ := encodeRecord_eq_ok_iff.mp ok
    exact ⟨rfl, sameHeader, rfl, sameValue, rfl⟩

/-- What `prepare_set` makes of a request. -/
theorem of_prepareSet {eng : Engine} {now : Nat} {set : SetRequest}
    (prepared : prepareSet eng now set tags = .ok p) :
    p.key = set.key ∧ p.record.value = set.value ∧ p.record.header.epoch = eng.epoch ∧
      p.tags = tags ∧ ∀ ttlSecs, set.ttl = .set ttlSecs →
        p.expiresAtMs = some (expiryFromTtl now ttlSecs) := by
  unfold prepareSet at prepared
  split at prepared
  · cases prepared
  · split at prepared
    · cases prepared
    · dsimp only at prepared
      split at prepared
      · cases prepared
      · rename_i encoded
        obtain rfl := Except.ok.inj prepared
        obtain ⟨key, header, tags, value, expires⟩ := PreparedSet.of_encode encoded
        refine ⟨key, value, by rw [header], tags, fun ttlSecs ttl => ?_⟩
        rw [expires, ttl]

/-- A tag table that was stored once can be written down again. -/
theorem liftCore_encode (fits : tags.length ≤ absoluteMaxTags) {s : Txn} :
    wp (liftCore
      (PreparedSet.encode key header expiresAtMs ttl tags value returnPrevious settled))
      (fun p s' => p.key = key ∧ s' = s) (fun _ _ => False) s := by
  cases encoded :
      PreparedSet.encode key header expiresAtMs ttl tags value returnPrevious settled with
  | ok p => exact ⟨(PreparedSet.of_encode encoded).1, rfl⟩
  | error e =>
    unfold PreparedSet.encode at encoded
    split at encoded
    · rename_i refused
      simp [encodeRecord, fits] at refused
    · cases encoded

/-! ### Judgements -/

/-- A judgement on actions that goes through the steps of a job on `key`. `rule` is what is known
of the epoch and the references of a record that is found, and has to hold of what is stored:
a record may be stored again under the epoch of RAM, and an untagged one be created under it. -/
structure RecordLogic (eng : Engine) (key : Bytes) (rule : Nat → List TagRef → Prop)
    (Holds : {α : Type} → TxnM α → Prop) : Prop where
  pure : ∀ {α : Type} (a : α), Holds (Pure.pure a)
  refuse : ∀ {α : Type} (e : CoreError), Holds (throw (.core e) : TxnM α)
  map : ∀ {α β : Type} {action : TxnM α} (f : α → β), Holds action →
    Holds (do let a ← action; return f a)
  clock : ∀ {α : Type} {next : Nat → TxnM α}, (∀ now, Holds (next now)) → Holds (nowMs >>= next)
  live : ∀ {α : Type} {next : Option Record → TxnM α}, Holds (next none) →
    (∀ r, rule r.header.epoch r.tags → Holds (next (some r))) →
    Holds (liveRecord eng key >>= next)
  main : ∀ {α : Type} {next : Option Record → TxnM α}, Holds (next none) →
    (∀ r, rule r.header.epoch r.tags → Holds (next (some r))) →
    Holds ((query fun t => t.main.get key) >>= next)
  set : ∀ {p : PreparedSet}, p.key = key → rule p.record.header.epoch p.tags →
    Holds (applySet eng p none)
  delete : Holds (applyDelete eng key)
  fresh : rule eng.epoch []
  renew : ∀ {epoch tags}, rule epoch tags → rule eng.epoch tags

/-- A judgement that asks nothing of records, with what holds of the steps that only look. -/
theorem RecordLogic.of_looks {eng : Engine}
    {Looks Holds : {α : Type} → TxnM α → Prop} (pure : ∀ {α : Type} (a : α), Holds (Pure.pure a))
    (refuse : ∀ {α : Type} (e : CoreError), Holds (throw (.core e) : TxnM α))
    (map : ∀ {α β : Type} {action : TxnM α} (f : α → β), Holds action →
      Holds (do let a ← action; return f a))
    (bind : ∀ {α β : Type} {first : TxnM α} {next : α → TxnM β}, Looks first →
      (∀ a, Holds (next a)) → Holds (first >>= next))
    (clock : Looks nowMs) (live : Looks (liveRecord eng key))
    (main : Looks (query fun t => t.main.get key))
    (set : ∀ {p : PreparedSet}, p.key = key → Holds (applySet eng p none))
    (delete : Holds (applyDelete eng key)) : RecordLogic eng key (fun _ _ => True) Holds where
  pure
  refuse
  map
  clock := bind clock
  live absent present := bind live fun found =>
    match found with
    | none => absent
    | some r => present r trivial
  main absent present := bind main fun found =>
    match found with
    | none => absent
    | some r => present r trivial
  set same _ := set same
  delete
  fresh := trivial
  renew _ := trivial

/-! ### The jobs -/

namespace RecordLogic

variable {eng : Engine} {rule : Nat → List TagRef → Prop}
  {Holds : {α : Type} → TxnM α → Prop} (logic : RecordLogic eng key rule Holds)

include logic

theorem liftCore {α β : Type} {result : Except CoreError α} {next : α → TxnM β}
    (rest : ∀ a, result = .ok a → Holds (next a)) : Holds (liftCore result >>= next) := by
  cases result with
  | ok a => exact rest a rfl
  | error e => exact logic.refuse e

/-- A write that is encoded and applied. -/
theorem store (allowed : rule header.epoch tags) {α : Type} (f : SetApplied → α) :
    Holds (do
      let p ← Store.liftCore
        (PreparedSet.encode key header expiresAtMs ttl tags value returnPrevious settled)
      let applied ← applySet eng p none
      return f applied) := by
  refine logic.liftCore fun p encoded => ?_
  obtain ⟨keyEq, headerEq, tagsEq, -, -⟩ := PreparedSet.of_encode encoded
  exact logic.map f (logic.set keyEq (by rwa [headerEq, tagsEq]))

theorem applyExpire (ttl : TtlChange) (guard : ExpireGuard) :
    Holds (applyExpire eng key ttl guard) := by
  refine logic.live (logic.pure _) fun r allowed => logic.clock fun settled => ?_
  dsimp only
  split
  · refine logic.clock fun now => ?_
    split
    · exact logic.delete
    · refine logic.map _ (logic.store ?_ _)
      exact allowed
  · exact logic.pure _

theorem applyAppend (suffix : Bytes) : Holds (applyAppend eng key suffix) := by
  refine logic.live ?_ fun r allowed => ?_
  · refine logic.liftCore fun _ _ => logic.map _ (logic.store ?_ _)
    exact logic.fresh
  · refine logic.liftCore fun _ _ => logic.map _ (logic.store ?_ _)
    exact logic.renew allowed

theorem applyTouch (ttlSecs : Nat) : Holds (applyTouch eng key ttlSecs) := by
  refine logic.clock fun now => logic.main (logic.pure _) fun r allowed => ?_
  dsimp only
  split
  · refine logic.clock fun settled => logic.store ?_ _
    exact allowed
  · exact logic.pure _

omit logic in
theorem applyArithmetic {op : Arithmetic} (logic : RecordLogic eng op.key rule Holds) :
    Holds (applyArithmetic eng op) := by
  refine logic.live ?_ fun r allowed => ?_
  all_goals
    refine logic.liftCore fun outcome _ => ?_
    cases outcome with
    | missing => exact logic.pure _
    | unchanged applied => exact logic.pure _
    | store text applied =>
      refine logic.liftCore fun _ _ => logic.clock fun now => logic.map _ (logic.store ?_ _)
      first
        | exact logic.fresh
        | exact logic.renew allowed

end RecordLogic

end Vash.Store
