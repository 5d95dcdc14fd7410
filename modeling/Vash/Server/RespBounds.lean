import Vash.Core.Counters
import Vash.Server.RespDeadlines

/-!
# The bounds of an integer `INCREX`

The parser compares `LBOUND` and `UBOUND` as floating-point numbers, whatever mode the
command is in; the counter is then clamped between them as integers. Two bounds in the
wrong order that are one number once converted pass the comparison.

* `increx_honours_bounds_iff` — so its bounds are honoured unless they are crossed and the
  same float, as in `crossed_bounds_accepted`.
-/

namespace Vash.Server.Resp

open Library Store Node Vash.Resp

/-! ### The words -/

/-- The words are an `INCREX` of `key` by an integer between two bounds, and nothing but
the order of the bounds is left to check. -/
structure IntegerBounds (floats : FloatOps) (args : List Bytes) (o : IncrExOptions)
    (key : Bytes) (delta lower upper : Int) : Prop where
  key : args[1]? = some key
  read : Options.walk (incrExOption floats) (args.drop 2).length {} (args.drop 2) = .ok o
  delta : o.delta.getD (.int 1) = .int delta
  lower : o.lowerToken.bind parseInt = some lower
  upper : o.upperToken.bind parseInt = some upper
  deadline : o.onlyIfPersistent = true → isDeadline o.expiry = true

/-- The command they are, if they are accepted. -/
def boundedIncrEx (o : IncrExOptions) (key : Bytes) (delta lower upper : Int) : IncrEx :=
  ⟨key, .int delta, some (.int lower), some (.int upper), o.saturate, o.expiry,
    o.onlyIfPersistent⟩

section Parsed

variable {floats : FloatOps} {args : List Bytes} {o : IncrExOptions} {key : Bytes}
  {delta lower upper : Int}

theorem readBound_int {token : Option Bytes} {bound : Int}
    (read : token.bind parseInt = some bound) :
    readBound floats (.int delta) token = .ok (some (.int bound)) := by
  obtain ⟨text, rfl, parsed⟩ := Option.bind_eq_some_iff.mp read
  rw [readBound, parsed]
  rfl

theorem parseIncrEx_eq (words : IntegerBounds floats args o key delta lower upper) :
    parseIncrEx floats args =
      if (F64.ofInt upper).lt (F64.ofInt lower) then
        refuse (.err "LBOUND must be less than or equal to UBOUND")
      else .ok (.incrEx (boundedIncrEx o key delta lower upper)) := by
  obtain ⟨inside, -⟩ := List.getElem?_eq_some_iff.mp words.key
  have arity : atLeast args 2 "increx" = .ok () := if_neg (by omega)
  have options : sliceFrom args 2 = .ok (args.drop 2) := by
    simp [sliceFrom, slice, pure, Except.pure]
    omega
  have first : index args 1 = .ok key := by
    rw [index, words.key]
    rfl
  have ok_bind : ∀ {α β : Type} (a : α) (next : α → ParseM β), (Except.ok a >>= next) = next a :=
    fun _ _ => rfl
  unfold parseIncrEx
  simp only [arity, options, words.read, words.delta, readBound_int words.lower,
    readBound_int words.upper, first, ok_bind, boundsCrossed, asFloat]
  split
  · rfl
  · rw [if_neg]
    · rfl
    · simpa using words.deadline

theorem IntegerBounds.fits (words : IntegerBounds floats args o key delta lower upper) :
    IsI64 lower ∧ IsI64 upper := by
  obtain ⟨_, -, low⟩ := Option.bind_eq_some_iff.mp words.lower
  obtain ⟨_, -, high⟩ := Option.bind_eq_some_iff.mp words.upper
  exact ⟨(parseInt_eq_some_iff.mp low).1, (parseInt_eq_some_iff.mp high).1⟩

/-- The bounds are compared as the floats nearest to them. -/
theorem parseIncrEx_accepts_iff (words : IntegerBounds floats args o key delta lower upper) :
    (∃ command, parseIncrEx floats args = .ok command) ↔
      lower ≤ upper ∨ F64.ofInt lower = F64.ofInt upper := by
  rw [parseIncrEx_eq words]
  have crossed := F64.ofInt_lt_iff words.fits.2 words.fits.1
  split
  · rename_i lt
    obtain ⟨above, apart⟩ := crossed.mp lt
    refine iff_of_false (fun ⟨command, accepted⟩ => by cases accepted) ?_
    rintro (le | same)
    · omega
    · exact apart same.symm
  · rename_i kept
    refine iff_of_true ⟨_, rfl⟩ ?_
    by_contra neither
    rw [not_or, not_le] at neither
    exact kept (crossed.mpr ⟨neither.1, fun same => neither.2 same.symm⟩)

/-- `INCREX key BYINT delta LBOUND lower UBOUND upper`, with or without `SATURATE`. -/
def incrExWords (key : Bytes) (delta lower upper : Int) (saturate : Bool) : List Bytes :=
  [ascii "INCREX", key, ascii "BYINT", decimalInt delta, ascii "LBOUND", decimalInt lower,
    ascii "UBOUND", decimalInt upper] ++ if saturate then [ascii "SATURATE"] else []

theorem incrExWords_bounds (floats : FloatOps) (key : Bytes) (deltaFits : IsI64 delta)
    (lowerFits : IsI64 lower) (upperFits : IsI64 upper) (saturate : Bool) :
    IntegerBounds floats (incrExWords key delta lower upper saturate)
      ⟨some (.int delta), some (decimalInt lower), some (decimalInt upper), saturate, none, false⟩
      key delta lower upper where
  key := rfl
  read := by
    have step : ∀ rest, incrExOption floats {} (ascii "BYINT") (decimalInt delta :: rest) =
        .ok ({ delta := some (.int delta) }, rest) := by
      intro rest
      have reads : incrExOption floats {} (ascii "BYINT") (decimalInt delta :: rest) = (do
          let value ← Resp.Number.int <$>
            required ErrorReply.notAnInteger (parseInt (decimalInt delta))
          return (({ delta := some value } : IncrExOptions), rest)) := rfl
      rw [reads, parseInt_decimalInt deltaFits]
      rfl
    cases saturate with
    | true =>
      change Options.walk (incrExOption floats) 7 {} (ascii "BYINT" :: decimalInt delta :: _) = _
      rw [Options.walk, step]
      rfl
    | false =>
      change Options.walk (incrExOption floats) 6 {} (ascii "BYINT" :: decimalInt delta :: _) = _
      rw [Options.walk, step]
      rfl
  delta := rfl
  lower := parseInt_decimalInt lowerFits
  upper := parseInt_decimalInt upperFits
  deadline := nofun

end Parsed

/-! ### The write -/

/-- A key that is absent, or holds the text of an integer. -/
def Counts (content : Option Bytes) (current : Int) : Prop :=
  content = none ∧ current = 0 ∨ content = some (decimalInt current) ∧ IsI64 current

/-- The increment of a bounded command, on a key that counts, is the exact one. -/
theorem evaluate_bounded (floats : FloatOps) {op : Arithmetic} {delta lower upper current : Int}
    {content : Option Bytes} (counts : op.delta = .int delta lower upper)
    (creates : op.missing = .createAtZero) (lowerFits : IsI64 lower) (upperFits : IsI64 upper)
    (ordered : lower ≤ upper) (numeric : Counts content current) :
    op.evaluate floats content = exactAnswer op.onBound current delta lower upper := by
  have exact : ∀ {current}, IsI64 current →
      evaluateInt floats op.onBound current delta lower upper =
        exactAnswer op.onBound current delta lower upper := fun fits =>
    evaluateInt_eq fits lowerFits upperFits ordered
  rcases numeric with ⟨rfl, rfl⟩ | ⟨rfl, fits⟩
  · rw [← exact (by unfold IsI64; decide)]
    unfold Arithmetic.evaluate
    rw [counts, creates]
  · rw [← exact fits]
    unfold Arithmetic.evaluate
    rw [counts, creates]
    simp only [parseInt_decimalInt fits]

section Write

variable {n : Nat} [NeZero n] (node : VashStore n) {parties : Fin n → Shard} {reading : Nat}

theorem served_begin (sh : Shard) (clock : Nat → Nat) (key : Bytes) :
    (Txn.served { sh.begin [] with clock } sh.engine key).map Record.value =
      (sh.get (clock 0) key).map Value.data := by
  unfold Shard.get
  cases found : sh.tables.main.get key with
  | none =>
    have absent : Txn.served { sh.begin [] with clock } sh.engine key = none := by
      simp [Txn.served, Txn.found, Shard.begin, found]
    rw [absent, readAlive, found]
    rfl
  | some r =>
    cases alive : r.isAlive (clock 0) sh.engine.epoch sh.engine.registry.generation with
    | true =>
      have served : Txn.served { sh.begin [] with clock } sh.engine key = some r := by
        simp [Txn.served, Txn.found, Shard.begin, found, alive]
      rw [served, readAlive_eq_some_iff.mpr ⟨r, found, alive, rfl⟩]
      rfl
    | false =>
      have served : Txn.served { sh.begin [] with clock } sh.engine key = none := by
        simp [Txn.served, Txn.found, Shard.begin, found, alive]
      rw [served]
      cases read : readAlive sh.tables.main sh.engine.registry (sh.snapshot (clock 0)) key
          Record.toValue with
      | none => rfl
      | some value =>
        obtain ⟨r', found', alive', -⟩ := readAlive_eq_some_iff.mp read
        rw [found] at found'
        cases found'
        exact absurd (alive.symm.trans alive') (by decide)

/-- The record now holds the text a counter operation made of the value that was served
before. -/
def Counted (op : Arithmetic) (before after : Shard) (reading : Nat) (applied : Applied) : Prop :=
  ∃ text, op.evaluate before.engine.config.floats ((before.get reading op.key).map Value.data) =
      .ok (.store text applied) ∧
    ∃ r, after.tables.main.get op.key = some r ∧ r.value = text

theorem arithmetic_counted (op : Arithmetic) :
    (node.arithmetic op).Ensures submit (Standing reading)
      (fun answer parties' => ∀ applied, answer = some applied → applied.wrote = true →
        Counted op (parties (forKey node.hash op.key)) (parties' (forKey node.hash op.key)) reading
          applied)
      (fun _ _ => True) parties := by
  refine (ask_ensures (fun answer t => ∀ outcome, answer = some outcome →
    ∀ applied, outcome = some applied → applied.wrote = true → ∃ text,
      op.evaluate (parties (forKey node.hash op.key)).engine.config.floats
        (((parties (forKey node.hash op.key)).get reading op.key).map Value.data) =
          .ok (.store text applied) ∧ ∃ r, t.main.get op.key = some r ∧ r.value = text)
    nofun ?_).mono (fun answer _ stored => stored answer rfl) fun _ _ _ => trivial
  intro clock stands
  refine wp.bind ((applyArithmetic_holds op).stops fun _ _ _ => .inl nofun)
    fun answer s stored => wp.pure ?_
  rintro _ ⟨⟩ applied same wrote
  have holds := stored applied same wrote
  rwa [served_begin, stands 0] at holds

/-- A counter operation that is executed and writes. -/
theorem executed_counted {op : Arithmetic} {call : NodeCall n Reply}
    (executed : executeRecord node (.arithmetic op) = some call) :
    call.Ensures submit (Standing reading)
      (fun reply parties' => ∀ applied, reply = .arithmetic applied → applied.wrote = true →
        Counted op (parties (forKey node.hash op.key)) (parties' (forKey node.hash op.key)) reading
          applied)
      (fun _ _ => True) parties := by
  obtain rfl := Option.some.inj executed
  refine (arithmetic_counted node op).seq ?_
  intro answer parties' stored
  cases answer with
  | none => rintro _ ⟨⟩
  | some applied =>
    rintro _ ⟨⟩
    exact stored applied rfl

end Write

/-! ### The bounds are honoured -/

section Honoured

variable {n : Nat} [NeZero n] (node : VashStore n) {floats : FloatOps} {args : List Bytes}
  {o : IncrExOptions} {key : Bytes} {delta lower upper : Int}

/-- Whatever an execution of the command writes over a key that counts lies within the
bounds, and is the number before and the increment that was reported. -/
def Honours (command : Resp.Command) (key : Bytes) (lower upper : Int) : Prop :=
  ∀ now domain call, translate now command = .ok domain →
    executeRecord node domain = some call →
    ∀ reading clocks parties parties' applied current, (∀ k, Standing reading (clocks k)) →
      Counts (((parties (forKey node.hash key)).get reading key).map Value.data) current →
      call.run submit clocks parties = (.ok (.arithmetic applied), parties') →
      applied.wrote = true →
        ∃ value moved r, applied.value = .int value ∧ applied.applied = .int moved ∧
          (parties' (forKey node.hash key)).tables.main.get key = some r ∧
          r.value = decimalInt value ∧ lower ≤ value ∧ value ≤ upper ∧ value = current + moved

theorem translate_bounded {now : Nat} {domain : Command}
    (translated : translate now (.incrEx (boundedIncrEx o key delta lower upper)) = .ok domain) :
    ∃ op, domain = .arithmetic op ∧ op.key = key ∧ op.delta = .int delta lower upper ∧
      op.missing = .createAtZero := by
  obtain ⟨op, made, translated⟩ := bind_eq_ok_iff.mp translated
  cases translated
  obtain ⟨delta', step, made⟩ := bind_eq_ok_iff.mp made
  obtain ⟨ttl, -, made⟩ := bind_eq_ok_iff.mp made
  obtain ⟨key', valid, made⟩ := bind_eq_ok_iff.mp made
  cases made
  cases step
  exact ⟨_, rfl, keyOf_eq valid, rfl, rfl⟩

/-- Bounds in order are honoured. -/
theorem honours_of_le (lowerFits : IsI64 lower) (upperFits : IsI64 upper)
    (ordered : lower ≤ upper) :
    Honours node (.incrEx (boundedIncrEx o key delta lower upper)) key lower upper := by
  intro now domain call translated executed reading clocks parties parties' applied current
    stands counts ran wrote
  obtain ⟨op, rfl, rfl, step, creates⟩ := translate_bounded translated
  obtain ⟨text, evaluated, r, found, stored⟩ :=
    (executed_counted node executed).run stands ran applied rfl wrote
  rw [evaluate_bounded _ step creates lowerFits upperFits ordered counts] at evaluated
  obtain ⟨value, moved, rfl, reported, increment, low, high, sum⟩ :=
    exactAnswer_within ordered evaluated
  exact ⟨value, moved, r, reported, increment, found, stored, low, high, sum⟩

/-- An integer `INCREX` is accepted exactly when its bounds are in order, and honours them,
unless they are crossed and one number as floats. -/
theorem increx_honours_bounds_iff
    (words : IntegerBounds floats args o key delta lower upper) :
    (((∃ command, parseIncrEx floats args = .ok command) ↔ lower ≤ upper) ∧
      ∀ command, parseIncrEx floats args = .ok command → Honours node command key lower upper) ↔
    ¬ (upper < lower ∧ F64.ofInt lower = F64.ofInt upper) := by
  have accepts := parseIncrEx_accepts_iff words
  constructor
  · rintro ⟨ordered, -⟩ ⟨crossed, same⟩
    have := ordered.mp (accepts.mpr (.inr same))
    omega
  · intro apart
    have ordered : (∃ command, parseIncrEx floats args = .ok command) ↔ lower ≤ upper := by
      rw [accepts]
      refine ⟨fun accepted => ?_, .inl⟩
      by_contra crossed
      exact apart ⟨not_le.mp crossed, accepted.resolve_left crossed⟩
    refine ⟨ordered, fun command accepted => ?_⟩
    have le := ordered.mp ⟨command, accepted⟩
    rw [parseIncrEx_eq words] at accepted
    split at accepted
    · cases accepted
    · cases accepted
      exact honours_of_le node words.fits.1 words.fits.2 le

end Honoured

/-- `INCREX 7 BYINT 1 LBOUND 0 UBOUND 10 SATURATE`. -/
theorem increx_honours_bounds_ten :
    ((∃ command, parseIncrEx noFloats (incrExWords [7] 1 0 10 true) = .ok command) ↔
        (0 : Int) ≤ 10) ∧
      ∀ command, parseIncrEx noFloats (incrExWords [7] 1 0 10 true) = .ok command →
        Honours (oneShardStore (.stable 1)) command [7] 0 10 :=
  (increx_honours_bounds_iff (oneShardStore (.stable 1))
    (incrExWords_bounds noFloats [7] (by decide) (by decide) (by decide) true)).mpr (by decide)

/-- `INCREX 7 BYINT 1 LBOUND 9007199254740993 UBOUND 9007199254740992 SATURATE`. -/
def crossedWords : List Bytes :=
  incrExWords [7] 1 9007199254740993 9007199254740992 true

/-- The words of one client, parsed and run alone on a new store of one shard. -/
def incrExAlone (words : List Bytes) : Option (Except StoreError Reply × Option Bytes) := do
  let command ← (parseArgs noFloats words).toOption
  let domain ← (translate 1700000000000 command).toOption
  let call ← executeRecord (oneShardStore (.stable 1)) domain
  let (answer, parties) := call.run submit (fun _ _ => 1700000000000) newShard
  return (answer, ((parties 0).tables.main.get [7]).map Record.value)

/-- The bounds are crossed, the command is accepted, and it writes a number above the upper
one. -/
theorem crossed_bounds_accepted :
    incrExAlone crossedWords =
      some (.ok (.arithmetic ⟨.int 9007199254740993, .int 9007199254740993, true⟩),
        some (decimalInt 9007199254740993)) ∧
      (9007199254740992 : Int) < 9007199254740993 ∧
      F64.ofInt 9007199254740993 = F64.ofInt 9007199254740992 :=
  ⟨by decide +kernel, by decide, by decide +kernel⟩

end Vash.Server.Resp
