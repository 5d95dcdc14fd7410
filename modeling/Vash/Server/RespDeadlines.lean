import Vash.Proto.RespFraming
import Vash.Server.Resp
import Vash.Server.VcpDeadlines

/-!
# The deadlines of Redis commands

Redis states deadlines in milliseconds, the store keeps whole seconds and reads small
numbers of them as offsets. `ttlFromDeadline` rounds to the nearest second and pushes a
deadline past the current second; `TTL` rounds what remains to the nearest second again.

* `deadlines_survive` — it is past now and near the deadline asked for, and later
  deadlines stay later.
* `ttl_reports_set_iff` — the two roundings cancel unless the clock stands at half a
  second, as in `ttl_at_half_a_second`.
-/

namespace Vash.Server.Resp

open Library Store Node Vash.Resp

/-! ### The stamp a deadline is stored as -/

/-- The deadline a record is stored with when `deadline` is asked for at `now` and the
store reads its clock at `reading`. -/
def storedDeadline (reading : Nat) (deadline now : Int) : Nat :=
  expiryFromTtl reading (ttlFromDeadline deadline now)

section Stamps

variable (reading : Nat) {now : Nat} {deadline : Int}

/-- The second a deadline in the future is kept as. -/
def keptSecond (deadline : Int) (now : Nat) : Nat :=
  min (max ((min (deadline + 500) i64Max) / 1000).toNat (now / 1000 + 1)) (u32Max - 1)

theorem i64Max_eq : i64Max = 9223372036854775807 := rfl

theorem i64Min_eq : i64Min = -9223372036854775808 := rfl

theorem ttlFromDeadline_future (fits : IsI64 deadline)
    (past : maxTtlSecs < now / 1000) (future : (now : Int) < deadline) :
    ttlFromDeadline deadline now = keptSecond deadline now := by
  have limit := maxTtlSecs_eq
  have top := u32Max_eq
  have high := i64Max_eq
  have low := i64Min_eq
  obtain ⟨-, fits⟩ := fits
  have sum : saturate (deadline + 500) = min (deadline + 500) i64Max := by
    unfold saturate
    omega
  have divided : (min (deadline + 500) i64Max).tdiv 1000 = min (deadline + 500) i64Max / 1000 :=
    Int.tdiv_eq_ediv_of_nonneg (by omega)
  have clock : (now : Int).tdiv 1000 = now / 1000 := Int.tdiv_eq_ediv_of_nonneg (by omega)
  have product : saturate (min (deadline + 500) i64Max / 1000 * 1000) =
      min (deadline + 500) i64Max / 1000 * 1000 := by
    unfold saturate
    omega
  unfold ttlFromDeadline keptSecond
  rw [if_neg (by omega)]
  simp only [sum, divided, clock, product]
  generalize min (deadline + 500) i64Max / 1000 = rounded
  clear high low sum divided clock product fits
  have seconds : (if rounded * 1000 ≤ now then (now : Int) / 1000 + 1 else rounded) =
      max rounded (now / 1000 + 1) := by
    split <;> omega
  rw [seconds, if_neg (by omega)]
  have nat : (max rounded (↑now / 1000 + 1)).toNat = max rounded.toNat (now / 1000 + 1) := by omega
  rw [nat]
  split
  · rfl
  · rename_i above
    rw [Nat.min_eq_right (by omega), Nat.min_eq_right]
    omega

theorem ttlFromDeadline_past (past : deadline ≤ now) :
    ttlFromDeadline deadline now = ttlAlreadyExpired := if_pos past

/-- A deadline in the future is stored as a stamp, whenever the store reads its clock. -/
theorem storedDeadline_future (fits : IsI64 deadline)
    (past : maxTtlSecs < now / 1000) (future : (now : Int) < deadline) :
    storedDeadline reading deadline now = keptSecond deadline now * 1000 ∧
      maxTtlSecs < keptSecond deadline now := by
  have limit := maxTtlSecs_eq
  have top := u32Max_eq
  have stamp : maxTtlSecs < keptSecond deadline now ∧
      keptSecond deadline now ≠ ttlAlreadyExpired := by
    unfold keptSecond ttlAlreadyExpired
    omega
  rw [storedDeadline, ttlFromDeadline_future fits past future, expiryFromTtl,
    if_neg (by omega), if_neg stamp.2, if_pos stamp.1]
  exact ⟨rfl, stamp.1⟩

theorem storedDeadline_past (past : deadline ≤ now) :
    storedDeadline reading deadline now = alreadyExpiredMs := by
  rw [storedDeadline, ttlFromDeadline_past past]
  rfl

/-- Later deadlines are stored as later ones. -/
theorem storedDeadline_mono (reading' : Nat) {deadline' : Int} (fits : IsI64 deadline)
    (fits' : IsI64 deadline') (past : maxTtlSecs < now / 1000)
    (le : deadline ≤ deadline') :
    storedDeadline reading deadline now ≤ storedDeadline reading' deadline' now := by
  rcases le_or_gt deadline' now with gone | future'
  · rw [storedDeadline_past reading (le.trans gone), storedDeadline_past reading' gone]
  · obtain ⟨stamp', large⟩ := storedDeadline_future reading' fits' past future'
    rcases le_or_gt deadline now with gone | future
    · rw [storedDeadline_past reading gone, stamp']
      unfold alreadyExpiredMs
      omega
    · obtain ⟨stamp, -⟩ := storedDeadline_future reading fits past future
      rw [stamp, stamp']
      unfold keptSecond
      omega

/-- A deadline in the future the format can hold is stored within half a second of it, or
within the second after now. -/
theorem storedDeadline_near (past : maxTtlSecs < now / 1000)
    (future : (now : Int) < deadline) (ceiling : deadline ≤ ceilingMs - 500) :
    now < storedDeadline reading deadline now ∧
      (|(storedDeadline reading deadline now : Int) - deadline| ≤ 500 ∨
        storedDeadline reading deadline now ≤ now + 1000) := by
  have top := u32Max_eq
  have most := ceilingMs_eq
  have high := i64Max_eq
  have low := i64Min_eq
  have fits : IsI64 deadline := by
    unfold IsI64
    omega
  rw [(storedDeadline_future reading fits past future).1]
  unfold keptSecond
  refine ⟨by omega, ?_⟩
  rw [abs_le]
  omega

end Stamps

/-! ### The commands that ask for a deadline -/

/-- An expiry option names a deadline, without overflow. -/
inductive Names (now : Int) : Expiry → Int → Prop
  | after {millis : Int} (fits : IsI64 (now + millis)) : Names now (.after millis) (now + millis)
  | at_ {deadline : Int} (fits : IsI64 deadline) : Names now (.at_ deadline) deadline

/-- A command asks for a deadline: `SET` and `SETTAGS`, `MSETEX` and `MSETTAGS`, `EXPIRE`
and `EXPIREAT`, and `INCREX`. -/
inductive Requests (now : Int) : Resp.Command → Int → Prop
  | set {set : SetArgs} {deadline : Int} (names : Names now set.expiry deadline) :
      Requests now (.set set) deadline
  | mSetEx {pairs : List (Bytes × Bytes)} {condition : Condition} {expiry : Expiry}
      {tags : List Bytes} {tagged : Bool} {deadline : Int} (names : Names now expiry deadline) :
      Requests now (.mSetEx pairs condition expiry tags tagged) deadline
  | expire {key : Bytes} {expiry : Expiry} {condition : ExpireCondition} {deadline : Int}
      (names : Names now expiry deadline) : Requests now (.expire key expiry condition) deadline
  | incrEx {op : IncrEx} {expiry : Expiry} {deadline : Int} (option : op.expiry = some expiry)
      (names : Names now expiry deadline) : Requests now (.incrEx op) deadline

/-- The lifetimes a command of the boundary carries. -/
def ttlChanges : Command → List TtlChange
  | .set set => [set.ttl]
  | .setMany sets _ => sets.map SetRequest.ttl
  | .expire _ ttl _ => [ttl]
  | .arithmetic op => [op.ttl]
  | _ => []

/-- The lifetime sets the deadline that was asked for, or does where there is none. -/
def Carries (deadline now : Int) (change : TtlChange) : Prop :=
  change = .set (ttlFromDeadline deadline now) ∨
    change = .setIfPersistent (ttlFromDeadline deadline now)

theorem keyOf_eq {bytes key : Bytes} (valid : keyOf bytes = .ok key) : key = bytes := by
  unfold keyOf at valid
  split at valid
  · rename_i made
    cases valid
    exact (Key.new_eq_ok_iff.mp made).2
  · cases valid

theorem asI64_of_isI64 {n : Nat} (small : IsI64 n) : asI64 n = n := by
  have high := i64Max_eq
  have bound := small.2
  exact Int.bmod_eq_of_le (by omega) (by omega)

section Translated

variable {now : Int} {expiry : Expiry} {deadline : Int}

theorem ttlChangeFor_names (names : Names now expiry deadline) (invalidExpire : String) :
    ttlChangeFor expiry now invalidExpire = .ok (.set (ttlFromDeadline deadline now)) := by
  cases names with
  | after fits => simp [ttlChangeFor, checkedI64, fits.1, fits.2]
  | at_ => rfl

theorem expireDeadline_names (names : Names now expiry deadline) :
    expireDeadline expiry now = deadline := by
  cases names with
  | after fits =>
    rw [expireDeadline, saturate, min_eq_left fits.2, max_eq_right fits.1]
  | at_ => rfl

theorem incrExTtl_names {op : IncrEx} (option : op.expiry = some expiry)
    (names : Names now expiry deadline) {change : TtlChange}
    (made : incrExTtl op now = .ok change) : Carries deadline now change := by
  have settled := ttlChangeFor_names names "invalid expire time in 'increx' command"
  unfold incrExTtl at made
  rw [option] at made
  cases names <;> (
    simp only [settled, bind, Except.bind, pure, Except.pure] at made
    cases made
    unfold Carries
    split
    · exact .inr rfl
    · exact .inl rfl)

theorem translateIncrEx_ttl {op : IncrEx} {arithmetic : Arithmetic}
    (made : translateIncrEx op now = .ok arithmetic) : incrExTtl op now = .ok arithmetic.ttl := by
  obtain ⟨delta, -, made⟩ := bind_eq_ok_iff.mp made
  obtain ⟨ttl, lifetime, made⟩ := bind_eq_ok_iff.mp made
  obtain ⟨key, -, made⟩ := bind_eq_ok_iff.mp made
  cases made
  exact lifetime

/-- Every result of a list of fallible steps is the result of one of them. -/
theorem mem_of_mapM_ok {ε α β : Type} {step : α → Except ε β} {inputs : List α}
    {results : List β} (made : inputs.mapM step = .ok results) {result : β}
    (member : result ∈ results) : ∃ input ∈ inputs, step input = .ok result := by
  induction inputs generalizing results with
  | nil =>
    cases made
    cases member
  | cons input inputs ih =>
    rw [List.mapM_cons] at made
    obtain ⟨head, first, made⟩ := bind_eq_ok_iff.mp made
    obtain ⟨tail, rest, made⟩ := bind_eq_ok_iff.mp made
    cases made
    rcases List.mem_cons.mp member with rfl | member
    · exact ⟨input, .head _, first⟩
    · obtain ⟨source, among, made⟩ := ih rest member
      exact ⟨source, .tail _ among, made⟩

/-- Every lifetime of the translated command is the deadline asked for. -/
theorem translate_carries {now : Nat} (small : IsI64 now) {command : Resp.Command}
    {domain : Command} (requests : Requests now command deadline)
    (translated : translate now command = .ok domain) :
    ∀ change ∈ ttlChanges domain, Carries deadline now change := by
  have clock := asI64_of_isI64 small
  cases requests with
  | @set args _ names =>
    obtain ⟨key, -, translated⟩ := bind_eq_ok_iff.mp translated
    rw [clock, ttlChangeFor_names names] at translated
    cases translated
    intro change member
    exact .inl (List.mem_singleton.mp member)
  | @mSetEx pairs condition expiry tags tagged _ names =>
    obtain ⟨ttl, lifetime, translated⟩ := bind_eq_ok_iff.mp translated
    rw [clock, ttlChangeFor_names names] at lifetime
    cases lifetime
    obtain ⟨sets, built, translated⟩ := bind_eq_ok_iff.mp translated
    cases translated
    intro change member
    obtain ⟨set, among, rfl⟩ := List.mem_map.mp member
    obtain ⟨pair, -, made⟩ := mem_of_mapM_ok built among
    obtain ⟨key, -, made⟩ := bind_eq_ok_iff.mp made
    cases made
    exact .inl rfl
  | @expire key expiry condition _ names =>
    obtain ⟨key, -, translated⟩ := bind_eq_ok_iff.mp translated
    rw [clock, expireDeadline_names names] at translated
    cases translated
    intro change member
    exact .inl (List.mem_singleton.mp member)
  | @incrEx op expiry _ option names =>
    obtain ⟨arithmetic, made, translated⟩ := bind_eq_ok_iff.mp translated
    cases translated
    rw [clock] at made
    intro change member
    rw [List.mem_singleton.mp member]
    exact incrExTtl_names option names (translateIncrEx_ttl made)

end Translated

/-- Deadlines survive the encoding in seconds: every command that asks for one is stored
with it; in the future it is a stamp past now and near the deadline, in the past it is
already past, and later deadlines stay later. -/
theorem deadlines_survive (now : Nat) (past : maxTtlSecs < now / 1000) :
    (∀ command domain deadline, IsI64 now → Requests now command deadline →
      translate now command = .ok domain →
        ∀ change ∈ ttlChanges domain, Carries deadline now change) ∧
    (∀ reading (deadline : Int), (now : Int) < deadline → deadline ≤ ceilingMs - 500 →
      ∃ stamp, storedDeadline reading deadline now = stamp * 1000 ∧ maxTtlSecs < stamp ∧
        stamp * 1000 ≠ never ∧ stamp * 1000 ≠ alreadyExpiredMs ∧ now < stamp * 1000 ∧
        (|(stamp * 1000 : Int) - deadline| ≤ 500 ∨ stamp * 1000 ≤ now + 1000)) ∧
    (∀ reading (deadline : Int), deadline ≤ now →
      storedDeadline reading deadline now ≠ never ∧
        storedDeadline reading deadline now ≤ now) ∧
    ∀ reading reading' (deadline deadline' : Int), IsI64 deadline → IsI64 deadline' →
      deadline ≤ deadline' →
        storedDeadline reading deadline now ≤ storedDeadline reading' deadline' now := by
  refine ⟨fun command domain deadline small requests translated =>
    translate_carries small requests translated, ?_, ?_, ?_⟩
  · intro reading deadline future ceiling
    have high := i64Max_eq
    have low := i64Min_eq
    have most := ceilingMs_eq
    have fits : IsI64 deadline := by
      unfold IsI64
      omega
    obtain ⟨stamp, large⟩ := storedDeadline_future reading fits past future
    have near := storedDeadline_near reading past future ceiling
    rw [stamp] at near
    refine ⟨keptSecond deadline now, stamp, large, ?_, ?_, near.1, ?_⟩
    · unfold never
      omega
    · unfold alreadyExpiredMs
      omega
    · simpa using near.2
  · intro reading deadline gone
    rw [storedDeadline_past reading gone]
    unfold never alreadyExpiredMs
    omega
  · intro reading reading' deadline deadline' fits fits' le
    exact storedDeadline_mono reading reading' fits fits' past le

theorem deadlines_survive_today : maxTtlSecs < 1700000000250 / 1000 ∧
    storedDeadline 0 1700000009750 1700000000250 = 1700000010000 ∧
    ∃ stamp, storedDeadline 0 1700000009750 1700000000250 = stamp * 1000 ∧ maxTtlSecs < stamp ∧
      stamp * 1000 ≠ never ∧ stamp * 1000 ≠ alreadyExpiredMs ∧ 1700000000250 < stamp * 1000 ∧
      (|(stamp * 1000 : Int) - 1700000009750| ≤ 500 ∨ stamp * 1000 ≤ 1700000000250 + 1000) :=
  ⟨by decide, by decide, (deadlines_survive 1700000000250 (by decide)).2.1 0 1700000009750
    (by decide) (by decide)⟩

/-! ### The deadline a `SET` leaves, as `TTL` reports it -/

/-- `SET key value EX seconds`. -/
def setEx (key value : Bytes) (seconds : Nat) : Resp.Command :=
  .set ⟨key, value, .always, .after (seconds * 1000), false, [], false⟩

section Parsed

variable (floats : FloatOps) {seconds : Nat}

theorem expiry_ex (positive : 0 < seconds) (fits : (seconds * 1000 : Int) ≤ i64Max) :
    Options.expiry "set" true (ascii "EX") [decimal seconds] =
      .ok (some (.after (seconds * 1000), [])) := by
  have high := i64Max_eq
  have low := i64Min_eq
  have read : parseInt (decimal seconds) = some (seconds : Int) :=
    parseInt_decimalInt (n := seconds) ⟨by omega, by omega⟩
  have checked : checkedI64 ((seconds : Int) * 1000) = some ((seconds : Int) * 1000) :=
    if_pos ⟨by omega, fits⟩
  have steps : Options.expiry "set" true (ascii "EX") [decimal seconds] = (do
      let value ← required ErrorReply.notAnInteger (parseInt (decimal seconds))
      let millis ← required (ErrorReply.invalidExpire "set")
        ((checkedI64 (value * 1000)).filter fun millis => decide (millis > 0))
      return some (Expiry.after millis, [])) := rfl
  have step : required ErrorReply.notAnInteger (some (seconds : Int)) = .ok (seconds : Int) := rfl
  rw [steps, read, step]
  change (do
    let millis ← required (ErrorReply.invalidExpire "set")
      ((checkedI64 ((seconds : Int) * 1000)).filter fun millis => decide (millis > 0))
    return some (Expiry.after millis, [])) = _
  rw [checked, Option.filter_some_pos (by simpa using positive)]
  rfl

theorem parseArgs_setEx (key value : Bytes) (positive : 0 < seconds)
    (fits : (seconds * 1000 : Int) ≤ i64Max) :
    parseArgs floats [ascii "SET", key, value, ascii "EX", decimal seconds] =
      .ok (setEx key value seconds) := by
  have start : parseArgs floats [ascii "SET", key, value, ascii "EX", decimal seconds] = (do
      let set ← Options.walk (setOption "set") 2 ⟨key, value, .always, .unset, false, [], false⟩
        [ascii "EX", decimal seconds]
      return .set set) := rfl
  have option : setOption "set" ⟨key, value, .always, .unset, false, [], false⟩ (ascii "EX")
      [decimal seconds] =
        .ok (⟨key, value, .always, .after (seconds * 1000), false, [], false⟩, []) := by
    change (Options.expiry "set" true (ascii "EX") [decimal seconds] >>= _) = _
    rw [expiry_ex positive fits]
    rfl
  rw [start, Options.walk, option]
  rfl

end Parsed

/-- A record without tags is stored with the deadline and the epoch it was prepared at. -/
def Lives (now : Nat) (eng : Engine) (set : SetRequest) (r : Record) : Prop :=
  (∀ ttlSecs, set.ttl = .set ttlSecs → r.header.expiresAtMs = expiryFromTtl now ttlSecs) ∧
    r.header.epoch = eng.epoch ∧ (set.tags = [] → r.tags = [])

theorem prepares_living {now : Nat} : PreparesAs (Standing now) (Lives now) := by
  intro clock sh set p stands prepared
  rw [stands 0] at prepared
  have stamped := of_prepareOn prepared
  refine ⟨stamped.key, fun cas e => ⟨?_, ?_, ?_⟩⟩
  · exact fun ttlSecs ttl => p.finish_settled (stamped.settled ttlSecs ttl) cas e
  · rw [p.finish_epoch, stamped.epoch]
  · intro untagged
    have tags := stamped.tags
    rw [untagged] at tags
    rw [p.finish_tags]
    exact (Except.ok.inj tags).symm

section Reports

variable {n : Nat} [NeZero n] {node : VashStore n} {now seconds : Nat} {key value : Bytes}

/-- What a served write leaves under its key. -/
theorem served_lives {set : SetRequest} (mode : set.mode = .set) {call : NodeCall n Reply}
    (serves : Serves node (.set set) call) (parties : Fin n → Shard) :
    call.Ensures submit (Standing now)
      (fun reply parties' => reply.wrote = true →
        ∃ r, (parties' (forKey node.hash set.key)).tables.main.get set.key = some r ∧
          Lives now (parties' (forKey node.hash set.key)).engine set r)
      (fun _ _ => True) parties := by
  cases serves with
  | executed same =>
    obtain rfl := Option.some.inj same
    refine (store_stores prepares_living node (by rw [mode]; rfl) parties).seq ?_
    rintro ⟨outcome, previous⟩ parties' stored
    split <;> intro wrote <;> cases outcome with
    | stored cas => exact stored cas rfl
    | _ => cases wrote
  | flushed mem held once =>
    refine (setMany_stores prepares_living node _ parties).seq ?_
    intro cas parties' stored _
    exact stored set.key set (lastSet_of_nodup mem once arrange_items_perm)

/-- The deadline `SET … EX` is stored with, to the nearest second of the clock. -/
theorem storedDeadline_setEx (past : maxTtlSecs < now / 1000) (positive : 1 ≤ seconds)
    (ceiling : now + seconds * 1000 + 500 ≤ ceilingMs) (reading : Nat) :
    storedDeadline reading (now + seconds * 1000) now = ((now + 500) / 1000 + seconds) * 1000 := by
  have top := u32Max_eq
  have most := ceilingMs_eq
  have high := i64Max_eq
  have low := i64Min_eq
  have fits : IsI64 (now + seconds * 1000 : Int) := by
    unfold IsI64
    omega
  rw [(storedDeadline_future reading fits past (by omega)).1]
  have rounded : ((now + seconds * 1000 + 500 : Int) / 1000).toNat =
      (now + 500) / 1000 + seconds := by
    clear high low
    omega
  have inside : (now + seconds * 1000 + 500 : Int) ≤ i64Max := by omega
  have later : now / 1000 + 1 ≤ (now + 500) / 1000 + seconds := by omega
  have below : (now + 500) / 1000 + seconds ≤ u32Max - 1 := by omega
  rw [keptSecond, min_eq_left inside, rounded, max_eq_left later, min_eq_left below]

/-- What `TTL` answers for that deadline: the two roundings add up at half a second. -/
theorem ttlAnswer_setEx (past : maxTtlSecs < now / 1000)
    (ceiling : now + seconds * 1000 + 500 ≤ ceilingMs) :
    ttlAnswer now (some (((now + 500) / 1000 + seconds) * 1000)) =
      if now % 1000 = 500 then (seconds : Int) + 1 else seconds := by
  have limit := maxTtlSecs_eq
  have most := ceilingMs_eq
  have finite : ((now + 500) / 1000 + seconds) * 1000 ≠ never := by
    unfold never
    omega
  have small : asI64 (((now + 500) / 1000 + seconds) * 1000 - now) =
      (((now + 500) / 1000 + seconds) * 1000 - now : Nat) :=
    Int.bmod_eq_of_le (by omega) (by omega)
  simp only [ttlAnswer, if_neg finite, remainingSeconds, small]
  rw [Int.tdiv_eq_ediv_of_nonneg (by omega)]
  split <;> omega

/-- The bytes of an integer tell which it is. -/
theorem integer_inj {a b : Int} (small : IsI64 a) (small' : IsI64 b)
    (same : Encode.integer a = Encode.integer b) : a = b := by
  have text : decimalInt a = decimalInt b :=
    List.append_cancel_right (List.cons.inj same).2
  have read := parseInt_decimalInt small
  rw [text, parseInt_decimalInt small'] at read
  exact (Option.some.inj read).symm

/-- What `TTL` answers while the clock stands at the reading of the write before it. -/
theorem ttl_answers {floats : FloatOps} {infoText : Sections → List (Bytes × Bytes) → Bytes}
    {version : Version} {sh : Fin n → Shard} {r : Record} {set : SetRequest} {ttlSecs : Nat}
    (valid : keyOf key = .ok key)
    (found : (sh (forKey node.hash key)).tables.main.get key = some r)
    (lives : Lives now (sh (forKey node.hash key)).engine set r) (untagged : set.tags = [])
    (ttl : set.ttl = .set ttlSecs) (ahead : now < expiryFromTtl now ttlSecs) :
    ∃ call, runRecord floats infoText node now version (.ttl key) = some call ∧
      ∀ clocks, (∀ k, Standing now (clocks k)) → call.run submit clocks sh =
        (.ok (.ok (Encode.integer (ttlAnswer now (some (expiryFromTtl now ttlSecs))))), sh) := by
  have alive : r.isAlive now (sh (forKey node.hash key)).engine.epoch
      (sh (forKey node.hash key)).engine.registry.generation = true := by
    have deadline := lives.1 ttlSecs ttl
    have unexpired : ¬ r.header.expiresAtMs ≤ now := by omega
    simp [Record.isAlive, Record.isExpired, Record.isFlushed, Record.tagsAlive, lives.2.1,
      lives.2.2 untagged, unexpired]
  have read : (sh (forKey node.hash key)).deadlines now [key] =
      [some (expiryFromTtl now ttlSecs)] := by
    rw [Shard.deadlines, List.map_singleton]
    exact congrArg (fun answer => [answer])
      (readAlive_eq_some_iff.mpr ⟨r, found, alive, lives.1 ttlSecs ttl⟩)
  have translated : translate now (.ttl key) = .ok (.deadline key) := by
    rw [translate, valid]
    rfl
  refine ⟨do
    let deadline ← node.deadline key
    return render floats infoText now version (.ttl key) (.reply (.deadline deadline)), ?_, ?_⟩
  · rw [runRecord, translated]
    rfl
  · intro clocks stands
    have reads : clocks 0 0 = now := stands 0 0
    change (Except.ok (render floats infoText now version (.ttl key) (.reply (.deadline
      ((sh (forKey node.hash key)).deadlines (clocks 0 0) [key]).head?.join))), sh) = _
    rw [reads, read]
    rfl

/-- `TTL` reports the seconds `SET` asked for, at the same reading of the clock and whichever
way the write was served, unless the clock stands at half a second. -/
theorem ttl_reports_set_iff (floats : FloatOps)
    (infoText : Sections → List (Bytes × Bytes) → Bytes) (version : Version)
    (past : maxTtlSecs < now / 1000) (positive : 1 ≤ seconds)
    (ceiling : now + seconds * 1000 + 500 ≤ ceilingMs) {domain : Command}
    (translated : translate now (setEx key value seconds) = .ok domain) {call : NodeCall n Reply}
    (serves : Serves node domain call) {clocks : Nat → Nat → Nat}
    (stands : ∀ k, Standing now (clocks k)) {parties parties' : Fin n → Shard} {reply : Reply}
    (ran : call.run submit clocks parties = (.ok reply, parties')) (wrote : reply.wrote = true) :
    parseArgs floats [ascii "SET", key, value, ascii "EX", decimal seconds] =
        .ok (setEx key value seconds) ∧
      parseArgs floats [ascii "TTL", key] = .ok (.ttl key) ∧
      ∃ ttl, runRecord floats infoText node now version (.ttl key) = some ttl ∧
        ∀ clocks', (∀ k, Standing now (clocks' k)) →
          (ttl.run submit clocks' parties' = (.ok (.ok (Encode.integer seconds)), parties') ↔
            now % 1000 ≠ 500) := by
  have top := ceilingMs_eq
  have high := i64Max_eq
  have low := i64Min_eq
  refine ⟨parseArgs_setEx floats key value positive (by omega), rfl, ?_⟩
  have small : IsI64 now := by
    unfold IsI64
    omega
  have clock : asI64 now = now := asI64_of_isI64 small
  -- What is served is the write of the deadline.
  obtain ⟨key', valid, translated⟩ := bind_eq_ok_iff.mp translated
  rw [clock, ttlChangeFor_names (.after (by unfold IsI64; omega))] at translated
  obtain rfl := keyOf_eq valid
  cases translated
  obtain ⟨r, found, lives⟩ := (served_lives rfl serves parties).run stands ran wrote
  have stored := storedDeadline_setEx past positive ceiling now
  rw [storedDeadline] at stored
  obtain ⟨ttl, runs, answers⟩ := ttl_answers valid found lives rfl rfl (by omega)
  refine ⟨ttl, runs, fun clocks' stands' => ?_⟩
  rw [answers clocks' stands', stored, ttlAnswer_setEx past ceiling]
  constructor
  · intro same half
    rw [if_pos half] at same
    have equal := integer_inj (a := seconds + 1) (b := seconds) (by unfold IsI64; omega)
      (by unfold IsI64; omega) (Except.ok.inj (Except.ok.inj (Prod.mk.inj same).1))
    omega
  · intro half
    rw [if_neg half]

end Reports

/-- `SET 7 1 EX 10` and then `TTL 7` on a new store of one shard, while the clock stands. -/
def setThenTtl (now : Nat) : Option (Except StoreError (Except Failure Bytes) ×
    Except StoreError (Except Failure Bytes)) := do
  let store := oneShardStore (.stable 1)
  let set ← runRecord noFloats (fun _ _ => []) store now .resp2 (setEx [7] [1] 10)
  let ttl ← runRecord noFloats (fun _ _ => []) store now .resp2 (.ttl [7])
  let (answer, parties) := set.run submit (fun _ _ => now) newShard
  return (answer, (ttl.run submit (fun _ _ => now) parties).1)

/-- At a quarter past the second it is the ten seconds asked for. -/
theorem ttl_reports_set_quarter :
    ∃ call reply parties' ttl,
      executeRecord (oneShardStore (.stable 1)) (.set ⟨[7], [1], .set 1700000010, 0, [], .set,
        false⟩) = some call ∧
      call.run submit (fun _ _ => 1700000000250) newShard = (.ok reply, parties') ∧
      runRecord noFloats (fun _ _ => []) (oneShardStore (.stable 1)) 1700000000250 .resp2
        (.ttl [7]) = some ttl ∧
      ttl.run submit (fun _ _ => 1700000000250) parties' =
        (.ok (.ok (Encode.integer 10)), parties') := by
  obtain ⟨call, same⟩ : ∃ call, executeRecord (oneShardStore (.stable 1)) (.set ⟨[7], [1],
      .set 1700000010, 0, [], .set, false⟩) = some call := ⟨_, rfl⟩
  have answer : ((executeRecord (oneShardStore (.stable 1)) (.set ⟨[7], [1], .set 1700000010, 0, [],
      .set, false⟩)).map fun call => (call.run submit (fun _ _ => 1700000000250) newShard).1) =
        some (.ok (.stored (.stored 1))) := by decide +kernel
  rw [same] at answer
  have ran : call.run submit (fun _ _ => 1700000000250) newShard = (.ok (.stored (.stored 1)),
      (call.run submit (fun _ _ => 1700000000250) newShard).2) := by
    rw [← Option.some.inj answer]
  have translated : translate 1700000000250 (setEx [7] [1] 10) =
      .ok (.set ⟨[7], [1], .set 1700000010, 0, [], .set, false⟩) := rfl
  obtain ⟨-, -, ttl, runs, reports⟩ := ttl_reports_set_iff noFloats (fun _ _ => []) .resp2
    (by decide) (by decide) (by decide) translated (.executed same) (fun _ _ => rfl) ran rfl
  exact ⟨call, _, _, ttl, same, ran, runs, (reports _ fun _ _ => rfl).mpr (by decide)⟩

/-- At half past the second `TTL` reports eleven seconds for the ten asked for. -/
theorem ttl_at_half_a_second :
    parseArgs noFloats [ascii "SET", [7], [1], ascii "EX", ascii "10"] = .ok (setEx [7] [1] 10) ∧
      parseArgs noFloats [ascii "TTL", [7]] = .ok (.ttl [7]) ∧
      maxTtlSecs < 1700000000500 / 1000 ∧ 1700000000500 + 10 * 1000 + 500 ≤ ceilingMs ∧
      setThenTtl 1700000000500 =
        some (.ok (.ok Encode.ok), .ok (.ok (Encode.integer 11))) :=
  ⟨by decide +kernel, by decide +kernel, by decide, by decide, by decide +kernel⟩

end Vash.Server.Resp
