import Vash.Library.Slices
import Vash.Proto.RespSafety

/-!
# The Redis dialect: framing is exact

What `frame` makes of a rendered command, of any buffer seen by `peek` and by `parse`,
and of a buffer that grows.

* `framing_exact_and_stable` — a rendered command is framed as it was rendered, `peek` and
  `parse` agree where the parser does not panic, and a verdict other than waiting stands.
-/

namespace Vash.Resp

open Library

/-! ### The argument buffer -/

/-- A pushed argument is the last, on whichever side of the boundary it falls. -/
theorem Args.deref_push (arg : Bytes) (args : Args) :
    (args.push arg).deref = args.deref ++ [arg] := by
  cases args with
  | heap args => rfl
  | inline buf len =>
    simp only [push]
    split
    · rename_i room
      have size : len < buf.toList.length := by simpa using room
      simp only [deref, Vector.toList_setIfInBounds]
      rw [List.take_add_one, List.take_set_of_le le_rfl, List.getElem?_set_self size]
      rfl
    · rfl

@[simp] theorem Args.deref_withCapacity (count : Nat) : (withCapacity count).deref = [] := by
  unfold withCapacity
  split <;> simp [deref]

/-! ### Headers -/

/-- A header line without its kind and its carriage return. -/
def headerText (line : Bytes) : Bytes :=
  (if line.getLast? = some 13 then line.dropLast else line).drop 1

theorem readHeader_line {kind : UInt8} {detail : String} {line : Bytes} (single : 10 ∉ line)
    (begins : line.head? = some kind) (rest : Bytes) :
    readHeader kind detail (line ++ 10 :: rest) = (parseI64 (headerText line)).elim
      (.error ⟨detail⟩) fun value => .ok (some (value, rest)) := by
  have front : (line ++ 10 :: rest).head? = some kind := by
    rw [List.head?_append, begins]
    rfl
  have after : (line ++ 10 :: rest).drop (line.length + 1) = rest := by simp
  unfold readHeader newlineAt
  rw [front, findIdx?_line single]
  simp only [ne_eq, not_true_eq_false, if_false, after]
  rcases List.eq_nil_or_concat line with rfl | ⟨before, b, rfl⟩
  · cases begins
  · have last : (before.concat b ++ 10 :: rest)[(before.concat b).length - 1]? = some b := by
      simp
    rw [last]
    have text : (before ++ b :: 10 :: rest).take (before.length + 1) = before ++ [b] := by
      simp [List.take_append]
    by_cases cr : b = 13
    · subst cr
      simp only [headerText]
      simp
      cases parseI64 before.tail <;> rfl
    · simp [headerText, cr, text]
      cases parseI64 (before ++ [b]).tail <;> rfl

/-- A first line that is no longer than a header may be. -/
def LineShort (rest : Bytes) : Prop := (rest.takeWhile (· ≠ 10)).length ≤ maxHeaderLen

/-- What was read, with more behind it. -/
def extend {α : Type} (more : Bytes) :
    Except Fatal (Option (α × Bytes)) → Except Fatal (Option (α × Bytes))
  | .ok (some (a, rest)) => .ok (some (a, rest ++ more))
  | verdict => verdict

theorem readHeader_append {kind : UInt8} (notNewline : kind ≠ 10) (detail : String)
    {rest : Bytes} (short : LineShort rest) (decided : readHeader kind detail rest ≠ .ok none)
    (more : Bytes) :
    readHeader kind detail (rest ++ more) = extend more (readHeader kind detail rest) := by
  cases rest with
  | nil => exact absurd rfl decided
  | cons first tail =>
    by_cases begins : first = kind
    · subst begins
      rcases line_cases 10 (first :: tail) with none | ⟨line, after, single, eq⟩
      · -- without a newline the header is waited for, since it is short
        have all : (first :: tail).takeWhile (· ≠ 10) = first :: tail := by
          rw [List.takeWhile_eq_self_iff]
          intro b mem
          exact decide_eq_true fun same => none (same ▸ mem)
        rw [LineShort, all] at short
        refine absurd ?_ decided
        simp only [readHeader, newlineAt, findIdx?_of_not_mem none, List.head?_cons, ne_eq,
          not_true_eq_false, if_false]
        rw [if_neg (by omega)]
      · have head : line.head? = some first := by
          cases line with
          | nil =>
            cases eq
            exact absurd rfl notNewline
          | cons b line =>
            cases eq
            rfl
        rw [eq, List.append_assoc, List.cons_append, readHeader_line single head,
          readHeader_line single head]
        cases parseI64 (headerText line) <;> rfl
    · simp [readHeader, begins, extend]

/-! ### Arguments -/

theorem readPayload_append {len : Int} {body : Bytes} (decided : readPayload len body ≠ .ok none)
    (more : Bytes) : readPayload len (body ++ more) = extend more (readPayload len body) := by
  unfold readPayload at decided ⊢
  by_cases bad : len < 0 ∨ len.toNat > maxBulkLen
  · simp only [if_pos bad, extend]
  · by_cases waits : body.length < len.toNat + 2
    · rw [if_neg bad, if_pos waits] at decided
      exact absurd rfl decided
    · have here : (body ++ more).take len.toNat = body.take len.toNat :=
        List.take_append_of_le_length (by omega)
      have behind : ∀ n, n ≤ body.length → (body ++ more).drop n = body.drop n ++ more :=
        fun n le => List.drop_append_of_le_length le
      have ending : ((body ++ more).drop len.toNat).take 2 = (body.drop len.toNat).take 2 := by
        rw [behind _ (by omega), List.take_append_of_le_length]
        rw [List.length_drop]
        omega
      rw [if_neg bad, if_neg (by simp; omega), ending, here, behind _ (by omega), if_neg bad,
        if_neg waits]
      split <;> rfl

theorem readBulk_append {rest : Bytes} (short : LineShort rest)
    (decided : readBulk rest ≠ .ok none) (more : Bytes) :
    readBulk (rest ++ more) = extend more (readBulk rest) := by
  have header : readHeader 36 "invalid bulk length" rest ≠ .ok none → _ := fun decided =>
    readHeader_append (by decide) "invalid bulk length" short decided more
  unfold readBulk at decided ⊢
  rcases read : readHeader 36 "invalid bulk length" rest with fatal | _ | ⟨len, body⟩
  · rw [header (by simp [read]), read]
    rfl
  · rw [read] at decided
    exact absurd rfl decided
  · rw [header (by simp [read]), read]
    rw [read] at decided
    exact readPayload_append decided more

/-! ### Where headers are read -/

/-- One header of the walk and the next one, each with the number of arguments that are
still to come, none at the header of an array. -/
inductive NextHeader : Nat × Bytes → Nat × Bytes → Prop where
  | empty {rest body : Bytes}
      (read : readHeader 42 "invalid multibulk length" rest = .ok (some (0, body))) :
      NextHeader (0, rest) (0, body)
  | first {rest body : Bytes} {count : Nat}
      (read : readHeader 42 "invalid multibulk length" rest = .ok (some (↑(count + 1), body)))
      (few : count + 1 ≤ maxArgs) : NextHeader (0, rest) (count + 1, body)
  | next {rest after arg : Bytes} {left : Nat} (read : readBulk rest = .ok (some (arg, after))) :
      NextHeader (left + 2, rest) (left + 1, after)

/-- Every header line of the walk is short. -/
def HeadersShort (start : Nat × Bytes) : Prop :=
  ∀ reached, Relation.ReflTransGen NextHeader start reached → LineShort reached.2

theorem HeadersShort.line {left : Nat} {rest : Bytes} (short : HeadersShort (left, rest)) :
    LineShort rest :=
  short _ .refl

theorem HeadersShort.step {here next : Nat × Bytes} (short : HeadersShort here)
    (step : NextHeader here next) : HeadersShort next :=
  fun _ reached => short _ (.head step reached)

theorem readArgs_append {count : Nat} {args : Args} {rest : Bytes}
    (short : 0 < count → HeadersShort (count, rest)) (decided : readArgs count args rest ≠ .ok none)
    (more : Bytes) :
    readArgs count args (rest ++ more) = extend more (readArgs count args rest) := by
  induction count generalizing args rest with
  | zero => rfl
  | succ count ih =>
    have here := short (Nat.succ_pos _)
    unfold readArgs at decided ⊢
    rcases read : readBulk rest with fatal | _ | ⟨arg, after⟩
    · rw [readBulk_append here.line (by simp [read]), read]
      rfl
    · rw [read] at decided
      exact absurd rfl decided
    · rw [readBulk_append here.line (by simp [read]), read]
      rw [read] at decided
      refine ih (fun left => ?_) decided
      obtain ⟨left, rfl⟩ : ∃ n, count = n + 1 := ⟨count - 1, by omega⟩
      exact here.step (.next read)

/-! ### The walk -/

/-- A header is followed by less than what it begins. -/
theorem readHeader_shorter {kind : UInt8} {detail : String} {rest body : Bytes} {value : Int}
    (read : readHeader kind detail rest = .ok (some (value, body))) :
    body.length < rest.length := by
  unfold readHeader at read
  cases rest with
  | nil => cases read
  | cons first tail =>
    simp only [List.head?_cons] at read
    split at read
    · cases read
    · split at read
      · split at read <;> cases read
      · split at read
        · cases read
        · cases read
          simp only [List.length_drop, List.length_cons]
          omega

theorem frameWith_append {fuel fuel' : Nat} {rest : Bytes} (short : HeadersShort (0, rest))
    (enough : rest.length < fuel) (more : Bytes) (enough' : (rest ++ more).length < fuel')
    (decided : frameWith fuel rest ≠ .ok none) :
    frameWith fuel' (rest ++ more) = extend more (frameWith fuel rest) := by
  induction fuel generalizing rest fuel' with
  | zero => omega
  | succ fuel ih =>
    obtain ⟨fuel', rfl⟩ : ∃ n, fuel' = n + 1 := ⟨fuel' - 1, by omega⟩
    have header : readHeader 42 "invalid multibulk length" rest ≠ .ok none → _ :=
      fun decided => readHeader_append (by decide) _ short.line decided more
    unfold frameWith at decided ⊢
    rcases read : readHeader 42 "invalid multibulk length" rest with fatal | _ | ⟨count, body⟩
    · rw [header (by simp [read]), read]
      rfl
    · rw [read] at decided
      exact absurd rfl decided
    · rw [header (by simp [read]), read]
      rw [read] at decided
      have less := readHeader_shorter read
      simp only [extend, bind, Except.bind] at decided ⊢
      split
      · rfl
      · rename_i sound
        rw [if_neg sound] at decided
        split
        · rename_i zero
          subst zero
          rw [if_pos rfl] at decided
          simp only [List.length_append] at enough'
          exact ih (short.step (.empty read)) (by omega) (by simp; omega) decided
        · rename_i positive
          rw [if_neg positive] at decided
          refine readArgs_append (fun _ => ?_) decided more
          obtain ⟨n, rfl⟩ : ∃ n : Nat, count = ↑(n + 1) := ⟨count.toNat - 1, by omega⟩
          exact short.step (.first read (by omega))

theorem frame_eq {ρ : Type} (buf : Bytes) (f : List Bytes → Nat → ρ) :
    frame buf f = (frameWith (buf.length + 1) buf).map
      (Option.map fun found => f found.1 (buf.length - found.2.length)) := by
  unfold frame
  rcases frameWith (buf.length + 1) buf with fatal | _ | found <;> rfl

/-- What arrives later does not change a verdict other than waiting. -/
theorem frame_append {ρ : Type} {buf : Bytes} (short : HeadersShort (0, buf))
    {f : List Bytes → Nat → ρ} (decided : frame buf f ≠ .ok none) (more : Bytes) :
    frame (buf ++ more) f = frame buf f := by
  rw [frame_eq] at decided
  rw [frame_eq, frame_eq, frameWith_append short (Nat.lt_succ_self _) more (Nat.lt_succ_self _)]
  · rcases frameWith (buf.length + 1) buf with fatal | _ | ⟨args, rest⟩
    · rfl
    · rfl
    · have same : (buf ++ more).length - (rest ++ more).length = buf.length - rest.length := by
        simp only [List.length_append]
        omega
      simp only [extend, Except.map, Option.map, same]
  · intro waits
    rw [waits] at decided
    exact decided rfl

/-! ### Rendered commands -/

section Rendered
open Encode

theorem readHeader_rendered {kind : UInt8} (notNewline : kind ≠ 10) (detail : String) {n : Nat}
    (fits : (n : Int) ≤ i64Max) (more : Bytes) :
    readHeader kind detail (kind :: decimal n ++ crlf ++ more) = .ok (some ((n : Int), more)) := by
  have single : (10 : UInt8) ∉ kind :: decimal n ++ [13] := by
    have digits := all_isDigit_decimal n
    simp only [List.cons_append, List.mem_cons, List.mem_append, List.not_mem_nil, or_false]
    rintro (same | digit | cr)
    · exact notNewline same.symm
    · exact absurd (List.all_eq_true.mp digits 10 digit) (by decide)
    · exact absurd cr (by decide)
  have text : headerText (kind :: decimal n ++ [13]) = decimal n := by
    rw [headerText, List.getLast?_concat, if_pos rfl, List.dropLast_concat]
    rfl
  have split : kind :: decimal n ++ crlf ++ more = kind :: decimal n ++ [13] ++ 10 :: more := by
    simp [crlf]
  rw [split, readHeader_line single rfl, text, parseI64_decimal fits]
  rfl

theorem readPayload_rendered {arg : Bytes} (short : arg.length ≤ maxBulkLen) (more : Bytes) :
    readPayload arg.length (arg ++ crlf ++ more) = .ok (some (arg, more)) := by
  unfold readPayload
  rw [if_neg (by simp; exact short), if_neg (by simp [crlf]), if_neg (by simp [crlf])]
  simp [crlf]

theorem readBulk_bulk {arg : Bytes} (short : arg.length ≤ maxBulkLen) (more : Bytes) :
    readBulk (bulk arg ++ more) = .ok (some (arg, more)) := by
  have fits : (arg.length : Int) ≤ i64Max := by
    unfold maxBulkLen absoluteMaxValueLen at short
    unfold i64Max
    omega
  have split : bulk arg ++ more = 36 :: decimal arg.length ++ crlf ++ (arg ++ crlf ++ more) := by
    simp [bulk]
  unfold readBulk
  rw [split, readHeader_rendered (by decide) _ fits]
  exact readPayload_rendered short more

theorem readArgs_bulks {args : List Bytes} (short : ∀ arg ∈ args, arg.length ≤ maxBulkLen)
    (held : Args) (more : Bytes) : readArgs args.length held (args.flatMap bulk ++ more) =
      .ok (some (held.deref ++ args, more)) := by
  induction args generalizing held with
  | nil => simp [readArgs]
  | cons arg args ih =>
    rw [List.flatMap_cons, List.append_assoc, List.length_cons, readArgs,
      readBulk_bulk (short arg List.mem_cons_self)]
    change readArgs args.length (held.push arg) _ = _
    rw [ih (fun arg mem => short arg (List.mem_cons_of_mem _ mem)), Args.deref_push,
      List.append_assoc]
    rfl

/-- A number of empty arrays. -/
def emptyArrays (count : Nat) : Bytes := (List.replicate count (array 0)).flatten

theorem frameWith_multibulk {args : List Bytes} (some : 1 ≤ args.length)
    (few : args.length ≤ maxArgs) (short : ∀ arg ∈ args, arg.length ≤ maxBulkLen)
    (empties : Nat) (more : Bytes) {fuel : Nat} (enough : empties < fuel) :
    frameWith fuel (emptyArrays empties ++ multibulk args ++ more) =
      .ok (Option.some (args, more)) := by
  induction empties generalizing fuel with
  | zero =>
    obtain ⟨fuel, rfl⟩ : ∃ n, fuel = n + 1 := ⟨fuel - 1, by omega⟩
    have fits : (args.length : Int) ≤ i64Max := by
      unfold maxArgs maxBatchItems at few
      unfold i64Max
      omega
    have split : emptyArrays 0 ++ multibulk args ++ more =
        42 :: decimal args.length ++ crlf ++ (args.flatMap bulk ++ more) := by
      simp [emptyArrays, multibulk, array]
    unfold frameWith
    rw [split, readHeader_rendered (by decide) _ fits]
    simp only [bind, Except.bind]
    rw [if_neg (by simp; omega), if_neg (by omega)]
    simp only [Int.toNat_natCast]
    rw [readArgs_bulks short]
    simp
  | succ empties ih =>
    obtain ⟨fuel, rfl⟩ : ∃ n, fuel = n + 1 := ⟨fuel - 1, by omega⟩
    have split : emptyArrays (empties + 1) ++ multibulk args ++ more =
        42 :: decimal 0 ++ crlf ++ (emptyArrays empties ++ multibulk args ++ more) := by
      simp [emptyArrays, List.replicate_succ, array]
    unfold frameWith
    rw [split, readHeader_rendered (by decide) _ (by decide)]
    exact ih (by omega)

/-- A rendered command is framed as it was rendered. -/
theorem frame_multibulk {args : List Bytes} (some : 1 ≤ args.length)
    (few : args.length ≤ maxArgs) (short : ∀ arg ∈ args, arg.length ≤ maxBulkLen)
    (empties : Nat) (more : Bytes) {ρ : Type} (f : List Bytes → Nat → ρ) :
    frame (emptyArrays empties ++ multibulk args ++ more) f =
      .ok (Option.some (f args (emptyArrays empties ++ multibulk args).length)) := by
  have enough : empties ≤ (emptyArrays empties).length := by
    have one : 1 ≤ (array 0).length := by simp [array]
    simp only [emptyArrays, List.length_flatten, List.map_replicate, List.sum_replicate,
      smul_eq_mul]
    exact Nat.le_mul_of_pos_right _ one
  have length : (emptyArrays empties ++ multibulk args ++ more).length - more.length =
      (emptyArrays empties ++ multibulk args).length := by
    simp only [List.length_append]
    omega
  rw [frame_eq, frameWith_multibulk some few short empties more (by simp; omega)]
  simp only [Except.map, Option.map, length]

end Rendered

/-! ### Looking and parsing -/

/-- A framed command has its arguments. -/
theorem readArgs_length {count : Nat} {held : Args} {rest after : Bytes} {args : List Bytes}
    (read : readArgs count held rest = .ok (some (args, after))) :
    args.length = held.deref.length + count := by
  induction count generalizing held rest with
  | zero =>
    cases read
    rfl
  | succ count ih =>
    unfold readArgs at read
    rcases bulk : readBulk rest with fatal | _ | ⟨arg, next⟩
    · rw [bulk] at read
      cases read
    · rw [bulk] at read
      cases read
    · rw [bulk] at read
      have length := ih read
      rw [Args.deref_push, List.length_append, List.length_singleton] at length
      omega

theorem frameWith_ne_nil {fuel : Nat} {rest after : Bytes} {args : List Bytes}
    (read : frameWith fuel rest = .ok (some (args, after))) : args ≠ [] := by
  induction fuel generalizing rest with
  | zero => cases read
  | succ fuel ih =>
    unfold frameWith at read
    rcases header : readHeader 42 "invalid multibulk length" rest with fatal | _ | ⟨count, body⟩
    · rw [header] at read
      cases read
    · rw [header] at read
      cases read
    · rw [header] at read
      simp only [bind, Except.bind] at read
      split at read
      · cases read
      · split at read
        · exact ih read
        · have length := readArgs_length read
          rw [Args.deref_withCapacity, List.length_nil] at length
          exact List.ne_nil_of_length_pos (by omega)

/-! ### Where a command ends -/

/-- What was read of a header is a line. -/
theorem readHeader_eq_some {kind : UInt8} (notNewline : kind ≠ 10) {detail : String}
    {rest after : Bytes} {value : Int}
    (read : readHeader kind detail rest = .ok (some (value, after))) :
    ∃ line, 10 ∉ line ∧ line.head? = some kind ∧ rest = line ++ 10 :: after ∧
      parseI64 (headerText line) = some value := by
  rcases line_cases 10 rest with none | ⟨line, body, single, rfl⟩
  · unfold readHeader newlineAt at read
    rw [findIdx?_of_not_mem none] at read
    split at read
    · cases read
    · split at read
      · cases read
      · dsimp only at read
        split at read <;> cases read
  · have begins : line.head? = some kind := by
      cases line with
      | nil => simp [readHeader, notNewline.symm] at read
      | cons first line =>
        by_contra other
        have differs : first ≠ kind := fun same => other (by simp [same])
        simp [readHeader, differs] at read
    rw [readHeader_line single begins] at read
    cases parsed : parseI64 (headerText line) with
    | none => simp [parsed] at read
    | some found =>
      rw [parsed] at read
      cases read
      exact ⟨line, single, begins, rfl, parsed⟩

/-- A reader that stops at the same place whatever follows. -/
def Exact {α : Type} (read : Bytes → Except Fatal (Option (α × Bytes))) : Prop :=
  ∀ rest a after, read rest = .ok (some (a, after)) →
    ∃ used, rest = used ++ after ∧ ∀ more, read (used ++ more) = .ok (some (a, more))

theorem exact_readHeader {kind : UInt8} (notNewline : kind ≠ 10) (detail : String) :
    Exact (readHeader kind detail) := by
  intro rest value after read
  obtain ⟨line, single, begins, rfl, parsed⟩ := readHeader_eq_some notNewline read
  refine ⟨line ++ [10], by simp, fun more => ?_⟩
  rw [List.append_assoc, List.singleton_append, readHeader_line single begins, parsed]
  rfl

theorem exact_readPayload (len : Int) : Exact (readPayload len) := by
  intro body arg after read
  unfold readPayload at read
  split at read
  · cases read
  split at read
  · cases read
  split at read
  · cases read
  cases read
  rename_i fits there ends
  refine ⟨body.take (len.toNat + 2), (List.take_append_drop _ _).symm, fun more => ?_⟩
  have long : (body.take (len.toNat + 2)).length = len.toNat + 2 := by
    rw [List.length_take]
    omega
  have data : (body.take (len.toNat + 2) ++ more).take len.toNat = body.take len.toNat := by
    rw [List.take_append_of_le_length (by omega), List.take_take, Nat.min_eq_left (by omega)]
  have terminator : ((body.take (len.toNat + 2) ++ more).drop len.toNat).take 2 =
      (body.drop len.toNat).take 2 := by
    rw [List.drop_append_of_le_length (by omega), List.drop_take, Nat.add_sub_cancel_left,
      List.take_append_of_le_length (by rw [List.length_take, List.length_drop]; omega),
      List.take_take, Nat.min_self]
  unfold readPayload
  rw [if_neg fits, if_neg (by rw [List.length_append]; omega), terminator, if_neg ends, data,
    List.drop_left' long]

theorem exact_readBulk : Exact readBulk := by
  intro rest arg after read
  unfold readBulk at read
  rcases header : readHeader 36 "invalid bulk length" rest with fatal | _ | ⟨len, body⟩
  · rw [header] at read
    cases read
  · rw [header] at read
    cases read
  · rw [header] at read
    obtain ⟨line, rfl, again⟩ := exact_readHeader (by decide) _ _ _ _ header
    obtain ⟨used, rfl, again'⟩ := exact_readPayload _ _ _ _ read
    refine ⟨line ++ used, by simp, fun more => ?_⟩
    unfold readBulk
    rw [List.append_assoc, again]
    exact again' more

theorem exact_readArgs (count : Nat) (args : Args) : Exact (readArgs count args) := by
  induction count generalizing args with
  | zero =>
    intro rest found after read
    cases read
    exact ⟨[], rfl, fun more => rfl⟩
  | succ count ih =>
    intro rest found after read
    unfold readArgs at read
    rcases bulk : readBulk rest with fatal | _ | ⟨arg, next⟩
    · rw [bulk] at read
      cases read
    · rw [bulk] at read
      cases read
    · rw [bulk] at read
      obtain ⟨first, rfl, again⟩ := exact_readBulk _ _ _ bulk
      obtain ⟨used, rfl, again'⟩ := ih (args.push arg) _ _ _ read
      refine ⟨first ++ used, by simp, fun more => ?_⟩
      unfold readArgs
      rw [List.append_assoc, again]
      exact again' more

/-- The walk stops behind the same bytes whatever follows them, given steps enough for
these. -/
theorem exact_frameWith {fuel : Nat} {rest after : Bytes} {args : List Bytes}
    (read : frameWith fuel rest = .ok (some (args, after))) :
    ∃ used, rest = used ++ after ∧ 0 < used.length ∧ ∀ fuel' more, used.length ≤ fuel' →
      frameWith fuel' (used ++ more) = .ok (some (args, more)) := by
  induction fuel generalizing rest with
  | zero => cases read
  | succ fuel ih =>
    unfold frameWith at read
    rcases header : readHeader 42 "invalid multibulk length" rest with fatal | _ | ⟨count, body⟩
    · rw [header] at read
      cases read
    · rw [header] at read
      cases read
    · rw [header] at read
      have shorter := readHeader_shorter header
      obtain ⟨line, rfl, again⟩ := exact_readHeader (by decide) _ _ _ _ header
      simp only [bind, Except.bind] at read
      split at read
      · cases read
      rename_i sound
      rw [List.length_append] at shorter
      obtain ⟨used, rfl, later⟩ : ∃ used, body = used ++ after ∧
          ∀ fuel' more, used.length ≤ fuel' →
            (if count = 0 then frameWith fuel' (used ++ more)
              else readArgs count.toNat (.withCapacity count.toNat) (used ++ more)) =
              .ok (some (args, more)) := by
        split at read
        · rename_i zero
          obtain ⟨used, front, -, later⟩ := ih read
          exact ⟨used, front, by simpa only [if_pos zero] using later⟩
        · rename_i positive
          obtain ⟨used, front, later⟩ := exact_readArgs _ _ _ _ _ read
          exact ⟨used, front, fun _ more _ => by rw [if_neg positive, later]⟩
      refine ⟨line ++ used, by simp, by simp; omega, fun fuel' more enough => ?_⟩
      rw [List.length_append] at enough
      obtain ⟨fuel', rfl⟩ : ∃ n, fuel' = n + 1 := ⟨fuel' - 1, by omega⟩
      unfold frameWith
      rw [List.append_assoc, again]
      simp only [bind, Except.bind, if_neg sound]
      exact later fuel' more (by omega)

/-- A command is framed by its own bytes. -/
theorem frame_exact {ρ : Type} {buf : Bytes} {args : List Bytes} {consumed : Nat}
    (framed : frame buf Prod.mk = .ok (some (args, consumed))) (f : List Bytes → Nat → ρ) :
    (0 < consumed ∧ consumed ≤ buf.length) ∧
      ∀ more, frame (buf.take consumed ++ more) f = .ok (some (f args consumed)) := by
  rw [frame_eq] at framed
  rcases read : frameWith (buf.length + 1) buf with fatal | _ | ⟨found, after⟩
  · rw [read] at framed
    cases framed
  · rw [read] at framed
    cases framed
  · rw [read] at framed
    cases framed
    obtain ⟨used, rfl, some, again⟩ := exact_frameWith read
    have length : (used ++ after).length - after.length = used.length := by simp
    dsimp only
    rw [length, List.take_left]
    refine ⟨⟨some, by simp⟩, fun more => ?_⟩
    rw [frame_eq, again _ more (by rw [List.length_append]; omega)]
    simp [Except.map]

section Verdicts
variable (floats : FloatOps) {τ : Type} (classify : List Bytes → τ)

/-- `peek` and `parse` agree on incompleteness, on fatal errors and on how many bytes a
command takes up. -/
def Agree (buf : Bytes) : Prop :=
  match peek buf classify with
  | .error fatal => parse floats buf = .error (.fatal fatal.detail)
  | .ok .incomplete => parse floats buf = .outcome .incomplete
  | .ok (.command _ consumed) =>
    (∃ command, parse floats buf = .outcome (.command ⟨command, consumed⟩)) ∨
      ∃ reply, parse floats buf = .error (.recoverable reply consumed)

/-- The command at the front of the buffer is an `MSETTAGS` without its `numtags`. -/
def FramesOutOfTags (buf : Bytes) : Prop :=
  ∃ args consumed, frame buf Prod.mk = .ok (some (args, consumed)) ∧ OutOfTags args

theorem agree_iff (buf : Bytes) : Agree floats classify buf ↔ ¬ FramesOutOfTags buf := by
  unfold Agree FramesOutOfTags parse peek
  rw [frame_eq, frame_eq, frame_eq]
  rcases framed : frameWith (buf.length + 1) buf with fatal | _ | ⟨args, rest⟩
  · simp [Except.map, bind, Except.bind]
  · simp [Except.map, bind, Except.bind, pure, Except.pure]
  · have safe := safe_parseArgs_iff floats (frameWith_ne_nil framed)
    simp only [Except.map, Option.map, bind, Except.bind, pure, Except.pure, Except.ok.injEq,
      Option.some.injEq, Prod.mk.injEq]
    have same : (∃ args' consumed, (args = args' ∧ buf.length - rest.length = consumed) ∧
        OutOfTags args') ↔ OutOfTags args := by
      constructor
      · rintro ⟨_, _, ⟨rfl, -⟩, out⟩
        exact out
      · exact fun out => ⟨args, _, ⟨rfl, rfl⟩, out⟩
    rw [same, ← safe, Safe, parseCommand]
    rcases parseArgs floats args with (reply | _) | command <;> simp

end Verdicts

/-- A command of the given arguments, rendered behind empty arrays and followed by any
bytes, is framed as those arguments with the length it was rendered to; `peek` and `parse`
agree on a buffer exactly when it does not begin with an `MSETTAGS` without its `numtags`;
and a verdict other than waiting on a buffer with short header lines is not changed by
what arrives later. -/
theorem framing_exact_and_stable (floats : FloatOps) {τ : Type} (classify : List Bytes → τ) :
    (∀ (args : List Bytes) (empties : Nat) (more : Bytes), 1 ≤ args.length →
      args.length ≤ maxArgs → (∀ arg ∈ args, arg.length ≤ maxBulkLen) →
      frame (emptyArrays empties ++ Encode.multibulk args ++ more) Prod.mk =
        .ok (some (args, (emptyArrays empties ++ Encode.multibulk args).length))) ∧
    (∀ buf, Agree floats classify buf ↔ ¬ FramesOutOfTags buf) ∧
    (∀ buf more, HeadersShort (0, buf) →
      (peek buf classify ≠ .ok .incomplete → peek (buf ++ more) classify = peek buf classify) ∧
      (parse floats buf ≠ .outcome .incomplete →
        parse floats (buf ++ more) = parse floats buf)) := by
  refine ⟨?_, agree_iff floats classify, ?_⟩
  · intro args empties more some few short
    exact frame_multibulk some few short empties more Prod.mk
  · intro buf more short
    constructor
    · intro decided
      unfold peek at decided ⊢
      rw [frame_append short]
      intro waits
      rw [waits] at decided
      exact decided rfl
    · intro decided
      unfold parse at decided ⊢
      rw [frame_append short]
      intro waits
      rw [waits] at decided
      exact decided rfl

/-- `MSETTAGS 2 k v k v`. -/
def pairsOnly : List Bytes := [ascii "MSETTAGS", [50], [107], [118], [107], [118]]

/-- Operations on doubles for commands that have none. -/
def noFloats : FloatOps := ⟨fun x _ => x, fun x _ => x, fun _ => none, fun _ => []⟩

/-- It frames, and the parser panics on it. -/
theorem msettags_without_numtags_panics :
    peek (Encode.multibulk pairsOnly) (fun _ => ()) =
        .ok (.command () (Encode.multibulk pairsOnly).length) ∧
      parse noFloats (Encode.multibulk pairsOnly) = .panicked := by
  decide +kernel

/-! ### The commands of a stream -/

/-- Whatever is made of a command, it is the same command that is framed. -/
theorem frame_map {ρ : Type} (buf : Bytes) (f : List Bytes → Nat → ρ) :
    frame buf f = (frame buf Prod.mk).map (Option.map fun found => f found.1 found.2) := by
  rw [frame_eq, frame_eq]
  rcases frameWith (buf.length + 1) buf with fatal | _ | ⟨args, rest⟩ <;> rfl

/-- A command that is framed has a verb. -/
theorem frame_ne_nil {buf : Bytes} {args : List Bytes} {n : Nat}
    (framed : frame buf Prod.mk = .ok (some (args, n))) : args ≠ [] := by
  rw [frame_eq] at framed
  rcases read : frameWith (buf.length + 1) buf with fatal | _ | ⟨found, after⟩
  · simp [read, Except.map] at framed
  · simp [read, Except.map] at framed
  · rw [read] at framed
    cases framed
    exact frameWith_ne_nil read

/-- What the executor meets: a command, or an error to answer with. -/
inductive Event where
  | command (command : Command)
  | refused (reply : ErrorReply)
  deriving DecidableEq, Repr

/-- Why the executor goes no further. -/
inductive Stop where
  | fatal (detail : String)
  | panicked
  deriving DecidableEq, Repr

/-- A command that was framed, and how long it is. -/
theorem framed_iff {args args' : List Bytes} {consumed n : Nat} :
    (Except.ok (some (args, consumed)) : Except Fatal _) = .ok (some (args', n)) ↔
      args = args' ∧ consumed = n := by
  simp

/-- A verdict of the parser, as the executor takes it. -/
def verdictOf : Verdict → Library.Verdict Event Stop
  | .outcome .incomplete => .wait
  | .outcome (.command parsed) => .take (.command parsed.command) parsed.consumed
  | .error (.recoverable reply consumed) => .take (.refused reply) consumed
  | .error (.fatal detail) => .stop (.fatal detail)
  | .panicked => .stop .panicked

/-- What comes of the arguments of a command, but for a panic. -/
def eventOf : ParseM Command → Option Event
  | .ok command => some (.command command)
  | .error (.refused reply) => some (.refused reply)
  | .error .panicked => none

theorem exists_eventOf_of_safe {parsed : ParseM Command} (safe : Safe parsed) :
    ∃ event, eventOf parsed = some event := by
  rcases parsed with (reply | _) | command
  · exact ⟨_, rfl⟩
  · exact absurd rfl safe
  · exact ⟨_, rfl⟩

theorem verdictOf_parse_eq_take_iff {floats : FloatOps} {buf : Bytes} {event : Event} {n : Nat} :
    verdictOf (parse floats buf) = .take event n ↔
      ∃ args, frame buf Prod.mk = .ok (some (args, n)) ∧
        eventOf (parseArgs floats args) = some event := by
  unfold parse
  rw [frame_map]
  rcases frame buf Prod.mk with fatal | _ | ⟨args, consumed⟩
  · simp [Except.map, verdictOf]
  · simp [Except.map, verdictOf]
  · simp only [framed_iff, and_assoc, exists_eq_left', Except.map, Option.map, parseCommand]
    rcases parseArgs floats args with (reply | _) | command <;>
      simp [verdictOf, eventOf, and_comm]

/-- The loop of the executor. -/
def commands (floats : FloatOps) : Framer UInt8 Event Stop where
  next buf := verdictOf (parse floats buf)
  next_nil := rfl
  take_le := by
    intro buf event n taken
    obtain ⟨args, framed, -⟩ := verdictOf_parse_eq_take_iff.mp taken
    exact (frame_exact framed Prod.mk).1

/-- A verdict of `peek`, as the measuring walk takes it. -/
def verdictOfPeek {τ : Type} : Except Fatal (Framed τ) → Library.Verdict τ Fatal
  | .ok .incomplete => .wait
  | .ok (.command classified consumed) => .take classified consumed
  | .error fatal => .stop fatal

theorem verdictOfPeek_eq_take_iff {τ : Type} {classify : List Bytes → τ} {buf : Bytes} {kind : τ}
    {n : Nat} :
    verdictOfPeek (peek buf classify) = .take kind n ↔
      ∃ args, frame buf Prod.mk = .ok (some (args, n)) ∧ classify args = kind := by
  unfold peek
  rw [frame_map]
  rcases frame buf Prod.mk with fatal | _ | ⟨args, consumed⟩
  · simp [Except.map, verdictOfPeek, bind, Except.bind]
  · simp [Except.map, verdictOfPeek, bind, Except.bind, pure, Except.pure]
  · simp only [framed_iff, and_assoc, exists_eq_left', Except.map, Option.map]
    simp [verdictOfPeek, bind, Except.bind, pure, Except.pure, and_comm]

/-- The loop of `measure_resp`. -/
def headers {τ : Type} (classify : List Bytes → τ) : Framer UInt8 τ Fatal where
  next buf := verdictOfPeek (peek buf classify)
  next_nil := rfl
  take_le := by
    intro buf kind n taken
    obtain ⟨args, framed, -⟩ := verdictOfPeek_eq_take_iff.mp taken
    exact (frame_exact framed Prod.mk).1

/-- A command has the same arguments and length in every buffer that begins with it. -/
theorem frame_append_of_framed {buf more : Bytes} {args : List Bytes} {n : Nat}
    (framed : frame buf Prod.mk = .ok (some (args, n))) :
    frame (buf ++ more) Prod.mk = .ok (some (args, n)) := by
  have again := (frame_exact framed Prod.mk).2 (buf.drop n ++ more)
  rwa [← List.append_assoc, List.take_append_drop] at again

theorem frame_take_of_framed {buf : Bytes} {args : List Bytes} {n m : Nat}
    (framed : frame buf Prod.mk = .ok (some (args, n))) (le : n ≤ m) :
    frame (buf.take m) Prod.mk = .ok (some (args, n)) := by
  have again := (frame_exact framed Prod.mk).2 ((buf.take m).drop n)
  rwa [← Nat.min_eq_left le, ← List.take_take, Nat.min_eq_left le, List.take_append_drop] at again

theorem commands_grows (floats : FloatOps) : (commands floats).Grows := by
  intro buf more event n taken
  obtain ⟨args, framed, same⟩ := verdictOf_parse_eq_take_iff.mp taken
  exact verdictOf_parse_eq_take_iff.mpr ⟨args, frame_append_of_framed framed, same⟩

/-- The executor meets a command that the walk found, in any slice that holds it, unless it
panics. -/
theorem commands_take_iff (floats : FloatOps) {τ : Type} {classify : List Bytes → τ} {buf : Bytes}
    {kind : τ} {n m : Nat} (measured : (headers classify).next buf = .take kind n) (le : n ≤ m) :
    (∃ event, (commands floats).next (buf.take m) = .take event n) ↔ ¬ FramesOutOfTags buf := by
  obtain ⟨args, framed, -⟩ := verdictOfPeek_eq_take_iff.mp measured
  have framed' := frame_take_of_framed framed le
  have out : FramesOutOfTags buf ↔ OutOfTags args := by
    simp [FramesOutOfTags, framed]
  have verb := frame_ne_nil framed
  rw [out, ← safe_parseArgs_iff floats verb]
  constructor
  · rintro ⟨event, taken⟩ panics
    obtain ⟨args', framed'', same⟩ := verdictOf_parse_eq_take_iff.mp taken
    obtain ⟨rfl, -⟩ := framed_iff.mp (framed'.symm.trans framed'')
    rw [panics] at same
    cases same
  · intro safe
    obtain ⟨event, met⟩ := exists_eventOf_of_safe safe
    exact ⟨event, verdictOf_parse_eq_take_iff.mpr ⟨args, framed', met⟩⟩

end Vash.Resp
