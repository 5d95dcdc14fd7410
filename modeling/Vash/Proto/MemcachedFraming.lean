/-
# Memcached framing

Where a memcached command ends. A line is found by its newline; once it is, only a
data block can still be missing, so a verdict changes with the bytes that follow in
two ways only: a line that is refused for its length before its newline has come
(`Overlong`), and the block of an `ms` that is refused for its mode.

* `parse_stands_iff` and `verdicts_stand_iff_bounded` — what arrives later changes no
  verdict, overlong lines apart.
* `block_skipped_iff` — a storage command takes its block with it, whatever is wrong
  with it, except for an `ms` whose key, flags or mode are refused.
-/

import Vash.Library.Stream
import Vash.Proto.Memcached

namespace Vash.Memcached

open Library

/-! ### Lines -/

/-- A line without its carriage return. -/
def withoutCr (line : Bytes) : Bytes := if line.getLast? = some 13 then line.dropLast else line

theorem parse_of_no_newline {buf : Bytes} (none : 10 ∉ buf) :
    parse buf = if buf.length > maxLineLen then
      .error (.fatal "command line exceeded the maximum length") else .ok .incomplete := by
  unfold parse findLine
  rw [findIdx?_of_not_mem none]
  by_cases long : buf.length > maxLineLen
  · simp only [if_pos long]
  · simp only [if_neg long]

/-- A buffer with a newline is its first line and what follows. -/
theorem parse_line {line : Bytes} (single : 10 ∉ line) (rest : Bytes) :
    parse (line ++ 10 :: rest) =
      parseLine (withoutCr line) (line.length + 1) (line ++ 10 :: rest) := by
  unfold parse findLine
  rw [findIdx?_line single]
  dsimp only
  rcases List.eq_nil_or_concat line with rfl | ⟨front, b, rfl⟩
  · simp [withoutCr, lineTerminatorLen]
  · have last : (front.concat b ++ 10 :: rest)[(front.concat b).length - 1]? = some b := by
      simp
    rw [last]
    by_cases cr : b = 13
    · subst cr
      simp [withoutCr, lineTerminatorLen]
    · have line : (front ++ b :: 10 :: rest).take (front.length + 1) = front ++ [b] := by
        simp [List.take_append]
      simp [withoutCr, lineTerminatorLen, cr, line]

/-! ### What a line asks of the bytes behind it -/

/-- The length a storage line announces. -/
def announced (line : Bytes) : Option Nat :=
  match metaVerb (verbOf line) with
  | some .ms => (tokensOf line)[2]?.bind parseNumber
  | some _ => none
  | none =>
    if (textVerb (verbOf line)).stores then (tokensOf line)[4]?.bind parseNumber else none

/-- A verdict that took `consumed` bytes. -/
def Took (consumed : Nat) (verdict : Except ProtocolError Outcome) : Prop :=
  ∃ understood, verdict = at_ consumed understood

theorem Took.command {consumed : Nat} {parsed : Parsed} (same : parsed.consumed = consumed) :
    Took consumed (.ok (.command parsed)) := by
  subst same
  exact ⟨.ok ⟨parsed.command, parsed.noreply, parsed.style⟩, rfl⟩

theorem Took.error (response : ErrorKind) (consumed : Nat) :
    Took consumed (.error (.recoverable response consumed)) :=
  ⟨.error response, rfl⟩

/-- What `parseLine` makes of the bytes behind a line. -/
inductive Shape (line : Bytes) (afterLine : Nat) : Prop where
  /-- The line says it all. -/
  | whole (understood : Except ErrorKind Understood)
      (parses : ∀ buf, parseLine line afterLine buf = at_ afterLine understood)
  /-- A block of the announced length follows, and goes with the line. -/
  | block (bytes : Nat) (body : Bytes → Bytes → Except ProtocolError Outcome)
      (length : announced line = some bytes)
      (took : ∀ data terminator, Took (afterLine + bytes + 2) (body data terminator))
      (parses : ∀ buf, parseLine line afterLine buf = withBlock buf afterLine bytes body)
  /-- An `ms` without a mode: its block is waited for, and then left where it is. -/
  | stray (setLine : SetLine) (verb : metaVerb (verbOf line) = some .ms)
      (parsed : parseSetLine ((tokensOf line).drop 1) = .ok setLine)
      (unusable : setModeOf setLine.flags.mode setLine.flags.cas = none)
      (parses : ∀ buf, parseLine line afterLine buf =
        withBlock buf afterLine setLine.bytes (metaSetBody setLine afterLine))

theorem required_eq_ok {α : Type} {absent : ErrorKind} {value : Option α} {a : α}
    (accepted : required absent value = .ok a) : value = some a := by
  cases value with
  | none => cases accepted
  | some value =>
    cases accepted
    rfl

theorem parseLine_storage {line : Bytes} {bytes : Nat} (text : metaVerb (verbOf line) = none)
    (stores : (textVerb (verbOf line)).stores = true)
    (length : (tokensOf line)[4]?.bind parseNumber = some bytes) (afterLine : Nat) (buf : Bytes) :
    parseLine line afterLine buf =
      withBlock buf afterLine bytes fun data terminator => at_ (afterLine + bytes + 2)
        (storageCommand (textVerb (verbOf line)) (tokensOf line) data terminator) := by
  simp only [parseLine, text, parseText, stores, if_true]
  rw [parseStorage, length]

theorem parseLine_metaSet {line : Bytes} (verb : metaVerb (verbOf line) = some .ms)
    (afterLine : Nat) (buf : Bytes) :
    parseLine line afterLine buf = parseMetaSet ((tokensOf line).drop 1) afterLine buf := by
  simp only [parseLine, verb, parseMeta, if_true]

theorem shape_of_storage {line : Bytes} {afterLine : Nat} (text : metaVerb (verbOf line) = none)
    (stores : (textVerb (verbOf line)).stores = true) : Shape line afterLine := by
  cases length : (tokensOf line)[4]?.bind parseNumber with
  | none =>
    refine .whole (.error badLine) fun buf => ?_
    simp only [parseLine, text, parseText, stores, if_true]
    rw [parseStorage, length]
    rfl
  | some bytes =>
    refine .block bytes _ ?_ ?_ (parseLine_storage text stores length afterLine)
    · simp only [announced, text, stores, if_true, length]
    · exact fun data terminator => ⟨_, rfl⟩

theorem parseSetLine_bytes {tokens : List Bytes} {setLine : SetLine}
    (parsed : parseSetLine tokens = .ok setLine) :
    tokens[1]?.bind parseNumber = some setLine.bytes := by
  obtain ⟨key, -, afterKey⟩ := bind_eq_ok_iff.mp parsed
  obtain ⟨bytes, length, afterLength⟩ := bind_eq_ok_iff.mp afterKey
  obtain ⟨flags, -, same⟩ := bind_eq_ok_iff.mp afterLength
  cases same
  exact required_eq_ok length

theorem announced_metaSet {line : Bytes} {setLine : SetLine}
    (verb : metaVerb (verbOf line) = some .ms)
    (parsed : parseSetLine ((tokensOf line).drop 1) = .ok setLine) :
    announced line = some setLine.bytes := by
  simpa [announced, verb] using parseSetLine_bytes parsed

/-- A block that ends as it should is taken, if the mode is one. -/
theorem metaSetBody_took {setLine : SetLine} (afterLine : Nat)
    (usable : (setModeOf setLine.flags.mode setLine.flags.cas).isSome = true)
    (data terminator : Bytes) :
    Took (afterLine + setLine.bytes + 2) (metaSetBody setLine afterLine data terminator) := by
  obtain ⟨mode, usable⟩ := Option.isSome_iff_exists.mp usable
  unfold metaSetBody
  dsimp only
  split
  · exact Took.error _ _
  · simp only [usable]
    exact Took.command rfl

theorem shape_of_metaSet {line : Bytes} {afterLine : Nat}
    (verb : metaVerb (verbOf line) = some .ms) : Shape line afterLine := by
  cases parsed : parseSetLine ((tokensOf line).drop 1) with
  | error response =>
    refine .whole (.error response) fun buf => ?_
    rw [parseLine_metaSet verb, parseMetaSet, parsed]
    rfl
  | ok setLine =>
    have length := announced_metaSet verb parsed
    have body : ∀ buf, parseLine line afterLine buf =
        withBlock buf afterLine setLine.bytes (metaSetBody setLine afterLine) := by
      intro buf
      rw [parseLine_metaSet verb, parseMetaSet, parsed]
    cases mode : setModeOf setLine.flags.mode setLine.flags.cas with
    | none => exact .stray setLine verb parsed mode body
    | some _ => exact .block _ _ length (metaSetBody_took afterLine (by simp [mode])) body

theorem shape (line : Bytes) (afterLine : Nat) : Shape line afterLine := by
  cases verb : metaVerb (verbOf line) with
  | some verb' =>
    by_cases set : verb' = .ms
    · exact shape_of_metaSet (set ▸ verb)
    · refine .whole (metaLine verb' ((tokensOf line).drop 1)) fun buf => ?_
      simp only [parseLine, verb, parseMeta, if_neg set]
  | none =>
    by_cases stores : (textVerb (verbOf line)).stores = true
    · exact shape_of_storage verb stores
    · refine .whole (textLine (textVerb (verbOf line)) ((tokensOf line).drop 1)) fun buf => ?_
      simp only [parseLine, verb, parseText, if_neg stores]

/-! ### Blocks -/

/-- What stands behind a line. -/
theorem drop_line (line rest : Bytes) (n : Nat) :
    (line ++ 10 :: rest).drop (line.length + 1 + n) = rest.drop n := by
  rw [List.append_cons, ← List.drop_drop, List.drop_left' (by simp)]

section Block

variable {buf : Bytes} {afterLine bytes : Nat}
  {body : Bytes → Bytes → Except ProtocolError Outcome}

theorem withBlock_missing (allowed : bytes ≤ absoluteMaxValueLen)
    (short : buf.length < afterLine + bytes + 2) :
    withBlock buf afterLine bytes body = .ok .incomplete := by
  rw [withBlock, if_neg (by omega)]
  exact if_pos short

theorem withBlock_present (allowed : bytes ≤ absoluteMaxValueLen)
    (there : afterLine + bytes + 2 ≤ buf.length) :
    withBlock buf afterLine bytes body =
      body ((buf.drop afterLine).take bytes) ((buf.drop (afterLine + bytes)).take 2) := by
  rw [withBlock, if_neg (by omega)]
  exact if_neg (by omega)

/-- A verdict on a block does not change with what follows it. -/
theorem withBlock_append (more : Bytes)
    (decided : withBlock buf afterLine bytes body ≠ .ok .incomplete) :
    withBlock (buf ++ more) afterLine bytes body = withBlock buf afterLine bytes body := by
  by_cases allowed : bytes ≤ absoluteMaxValueLen
  · by_cases there : afterLine + bytes + 2 ≤ buf.length
    · rw [withBlock_present allowed there,
        withBlock_present allowed (by rw [List.length_append]; omega),
        List.drop_append_of_le_length (by omega), List.drop_append_of_le_length (by omega),
        List.take_append_of_le_length (by rw [List.length_drop]; omega),
        List.take_append_of_le_length (by rw [List.length_drop]; omega)]
    · exact absurd (withBlock_missing allowed (by omega)) decided
  · rw [withBlock, withBlock, if_pos (by omega), if_pos (by omega)]

end Block

/-- Once its newline is there, a line's verdict does not change with what follows. -/
theorem parseLine_append {line buf : Bytes} {afterLine : Nat} (more : Bytes)
    (decided : parseLine line afterLine buf ≠ .ok .incomplete) :
    parseLine line afterLine (buf ++ more) = parseLine line afterLine buf := by
  cases shape line afterLine with
  | whole understood parses => rw [parses, parses]
  | block bytes body _ _ parses =>
    rw [parses] at decided
    rw [parses, parses, withBlock_append more decided]
  | stray setLine _ _ _ parses =>
    rw [parses] at decided
    rw [parses, parses, withBlock_append more decided]

/-! ### Verdicts as bytes arrive -/

/-- A buffer that is refused although its line may still end. -/
def Overlong (buf : Bytes) : Prop := 10 ∉ buf ∧ maxLineLen < buf.length

instance decidableOverlong (buf : Bytes) : Decidable (Overlong buf) :=
  inferInstanceAs (Decidable (_ ∧ _))

/-- The refusal of a line for its length. -/
def lineTooLong : Except ProtocolError Outcome :=
  .error (.fatal "command line exceeded the maximum length")

theorem parse_append {buf : Bytes} (bounded : ¬ Overlong buf) (more : Bytes)
    (decided : parse buf ≠ .ok .incomplete) : parse (buf ++ more) = parse buf := by
  rcases line_cases 10 buf with none | ⟨line, rest, single, rfl⟩
  · rw [parse_of_no_newline none, if_neg fun long => bounded ⟨none, long⟩] at decided
    exact absurd rfl decided
  · rw [parse_line single] at decided ⊢
    rw [List.append_assoc, List.cons_append, parse_line single, ← parseLine_append more decided,
      List.append_assoc, List.cons_append]

/-- No line that has ended is refused for its length. -/
theorem parseLine_ne_lineTooLong (line buf : Bytes) (afterLine : Nat) :
    parseLine line afterLine buf ≠ lineTooLong := by
  have took : ∀ {consumed verdict}, Took consumed verdict → verdict ≠ lineTooLong := by
    rintro consumed _ ⟨understood, rfl⟩
    cases understood <;> simp [at_, lineTooLong]
  have blocked : ∀ {bytes body}, (∀ data terminator, body data terminator ≠ lineTooLong) →
      withBlock buf afterLine bytes body ≠ lineTooLong := by
    intro bytes body bodies
    unfold withBlock
    split
    · simp [lineTooLong]
    · dsimp only
      split
      · simp [lineTooLong]
      · exact bodies _ _
  cases shape line afterLine with
  | whole understood parses => exact parses buf ▸ took ⟨understood, rfl⟩
  | block bytes body _ taken parses =>
    exact parses buf ▸ blocked fun data terminator => took (taken data terminator)
  | stray setLine _ _ unusable parses =>
    refine parses buf ▸ blocked fun data terminator => ?_
    unfold metaSetBody
    dsimp only
    split
    · simp [lineTooLong]
    · simp [unusable, lineTooLong]

/-- What follows a buffer changes no verdict but waiting, unless the verdict is on a line
that has not ended. -/
theorem parse_stands_iff (buf : Bytes) :
    (∀ more, parse buf ≠ .ok .incomplete → parse (buf ++ more) = parse buf) ↔ ¬ Overlong buf := by
  constructor
  · rintro stands ⟨none, long⟩
    have refused : parse buf = lineTooLong := by
      rw [parse_of_no_newline none, if_pos long]
      rfl
    have ended : parse (buf ++ [10]) = lineTooLong := by
      rw [stands [10] (by simp [refused, lineTooLong]), refused]
    rw [parse_line none] at ended
    exact parseLine_ne_lineTooLong _ _ _ ended
  · intro bounded more
    exact parse_append bounded more

/-! ### The commands of a stream -/

theorem Took.unique {n m : Nat} {verdict : Except ProtocolError Outcome} (took : Took n verdict)
    (took' : Took m verdict) : n = m := by
  obtain ⟨understood, rfl⟩ := took
  obtain ⟨understood', same⟩ := took'
  cases understood <;> cases understood' <;> simp [at_] at same
  · exact same.2
  · exact same.2.1

theorem not_took_incomplete {n : Nat} : ¬ Took n (.ok .incomplete) := by
  rintro ⟨understood, same⟩
  cases understood <;> cases same

theorem not_took_fatal {n : Nat} {detail : String} : ¬ Took n (.error (.fatal detail)) := by
  rintro ⟨understood, same⟩
  cases understood <;> cases same

/-- A block counts its line, or its line and itself. -/
theorem withBlock_bounds {buf : Bytes} {afterLine bytes n : Nat}
    {body : Bytes → Bytes → Except ProtocolError Outcome} (within : afterLine ≤ buf.length)
    (bodies : ∀ data terminator, Took (afterLine + bytes + 2) (body data terminator) ∨
      Took afterLine (body data terminator))
    (took : Took n (withBlock buf afterLine bytes body)) : afterLine ≤ n ∧ n ≤ buf.length := by
  unfold withBlock at took
  split at took
  · exact absurd took not_took_fatal
  · dsimp only at took
    split at took
    · exact absurd took not_took_incomplete
    · rcases bodies _ _ with whole | line
      · have := took.unique whole
        omega
      · have := took.unique line
        omega

/-- Without a mode, a block that ends as it should is left behind. -/
theorem metaSetBody_took_line {setLine : SetLine} (afterLine : Nat)
    (unusable : setModeOf setLine.flags.mode setLine.flags.cas = none) (data : Bytes) :
    Took afterLine (metaSetBody setLine afterLine data [13, 10]) := by
  unfold metaSetBody
  simp only [unusable]
  exact Took.error _ _

theorem metaSetBody_took_either (setLine : SetLine) (afterLine : Nat) (data terminator : Bytes) :
    Took (afterLine + setLine.bytes + 2) (metaSetBody setLine afterLine data terminator) ∨
      Took afterLine (metaSetBody setLine afterLine data terminator) := by
  cases mode : setModeOf setLine.flags.mode setLine.flags.cas with
  | some mode' => exact .inl (metaSetBody_took afterLine (by simp [mode]) data terminator)
  | none =>
    by_cases ended : terminator = [13, 10]
    · subst ended
      exact .inr (metaSetBody_took_line afterLine mode data)
    · unfold metaSetBody
      dsimp only
      rw [if_pos ended]
      exact .inl (Took.error _ _)

theorem took_bounds {buf : Bytes} {n : Nat} (took : Took n (parse buf)) :
    0 < n ∧ n ≤ buf.length := by
  rcases line_cases 10 buf with none | ⟨line, rest, single, rfl⟩
  · rw [parse_of_no_newline none] at took
    split at took
    · exact absurd took not_took_fatal
    · exact absurd took not_took_incomplete
  · rw [parse_line single] at took
    have within : line.length + 1 ≤ (line ++ 10 :: rest).length := by simp
    suffices bounds : line.length + 1 ≤ n ∧ n ≤ (line ++ 10 :: rest).length by
      exact ⟨by omega, bounds.2⟩
    cases shape (withoutCr line) (line.length + 1) with
    | whole understood parses =>
      rw [parses] at took
      have := took.unique ⟨understood, rfl⟩
      omega
    | block bytes body _ taken parses =>
      rw [parses] at took
      exact withBlock_bounds within (fun data terminator => .inl (taken data terminator)) took
    | stray setLine _ _ _ parses =>
      rw [parses] at took
      exact withBlock_bounds within (metaSetBody_took_either setLine _) took

/-- What the executor meets: a command, or an error to answer with. -/
inductive Event where
  | command (command : Command) (noreply : Bool) (style : ResponseStyle)
  | refused (response : ErrorKind)
  deriving DecidableEq, Repr

/-- A verdict of the parser, as the walks over a buffer take it. -/
def verdictOf : Except ProtocolError Outcome → Verdict Event String
  | .ok .incomplete => .wait
  | .ok (.command parsed) =>
    .take (.command parsed.command parsed.noreply parsed.style) parsed.consumed
  | .error (.recoverable response consumed) => .take (.refused response) consumed
  | .error (.fatal detail) => .stop detail

theorem took_of_verdictOf {verdict : Except ProtocolError Outcome} {event : Event} {n : Nat}
    (take : verdictOf verdict = .take event n) : Took n verdict := by
  match verdict with
  | .ok .incomplete => cases take
  | .ok (.command parsed) =>
    cases take
    exact Took.command rfl
  | .error (.recoverable response consumed) =>
    cases take
    exact Took.error _ _
  | .error (.fatal detail) => cases take

theorem verdictOf_eq_wait_iff {verdict : Except ProtocolError Outcome} :
    verdictOf verdict = .wait ↔ verdict = .ok .incomplete := by
  match verdict with
  | .ok .incomplete => simp [verdictOf]
  | .ok (.command parsed) => simp [verdictOf]
  | .error (.recoverable response consumed) => simp [verdictOf]
  | .error (.fatal detail) => simp [verdictOf]

/-- The loop of `measure_memcached`, and of the executor behind it. -/
def commands : Framer UInt8 Event String where
  next buf := verdictOf (parse buf)
  next_nil := rfl
  take_le := fun taken => took_bounds (took_of_verdictOf taken)

/-- Every line of the stream that begins where a command ends is within the limit, or
never ends. -/
def ShortLines (stream : Bytes) : Prop :=
  ∀ rest, commands.Boundary stream rest → 10 ∈ rest → 10 ∈ rest.take (maxLineLen + 1)

theorem ShortLines.steady {stream : Bytes} (short : ShortLines stream) :
    commands.Steady stream := by
  intro rest boundary front mid before within decided
  have decided' : parse front ≠ .ok .incomplete := fun waits =>
    decided (verdictOf_eq_wait_iff.mpr waits)
  obtain ⟨more, rfl⟩ := before
  by_cases overlong : Overlong front
  · -- The line never ends, or the limit would have been met with its newline there.
    obtain ⟨none, long⟩ := overlong
    have never : 10 ∉ rest := by
      intro newline
      have early := short rest boundary newline
      obtain ⟨others, rfl⟩ := within
      rw [List.append_assoc, List.take_append_of_le_length long] at early
      exact none (List.mem_of_mem_take early)
    have none' : 10 ∉ front ++ more := fun mem => never (within.mem mem)
    simp only [commands]
    rw [parse_of_no_newline none, parse_of_no_newline none', if_pos long,
      if_pos (by rw [List.length_append]; omega)]
  · exact congrArg verdictOf (parse_append overlong more decided')

/-- A verdict other than waiting stands whatever arrives behind it, exactly when it is not on
an unfinished line past the limit; and a stream without such lines shows the same commands,
errors and end however it is cut into reads. -/
theorem verdicts_stand_iff_bounded (buf : Bytes) :
    ((∀ more, parse buf ≠ .ok .incomplete → parse (buf ++ more) = parse buf) ↔
      ¬ Overlong buf) ∧
    (ShortLines buf → ∀ reads reads' : List Bytes, reads.flatten = buf → reads'.flatten = buf →
      (commands.serve reads).seen = (commands.serve reads').seen) := by
  refine ⟨parse_stands_iff buf, ?_⟩
  intro short reads reads' cut cut'
  have steady := short.steady
  rw [Framer.serve_seen (cut ▸ steady), Framer.serve_seen (cut' ▸ steady), cut, cut']

/-- A word longer than every word of a table is not in it. -/
theorem lookup_eq_none_of_long {α : Type} {table : List (Bytes × α)} {word : Bytes}
    (long : ∀ entry ∈ table, entry.1.length < word.length) : table.lookup word = none := by
  rw [List.lookup_eq_none_iff]
  intro entry mem
  have shorter := long entry mem
  simp only [ne_eq, bne_iff_ne]
  rintro rfl
  omega

/-- An ended line without spaces that is longer than any verb is no command. -/
theorem parse_of_long_word {line : Bytes} (single : 10 ∉ line) (noCr : 13 ∉ line)
    (spaceless : 32 ∉ line) (long : 13 < line.length) (rest : Bytes) :
    parse (line ++ 10 :: rest) = .error (.recoverable .error (line.length + 1)) := by
  have bare : withoutCr line = line := by
    refine if_neg fun cr => noCr ?_
    exact List.mem_of_getLast? cr
  have word : verbOf line = line := by
    rw [verbOf, List.splitOn_eq_singleton spaceless]
    rfl
  have metaTable : ∀ entry ∈ metaVerbs, entry.1.length ≤ 13 := by decide
  have textTable : ∀ entry ∈ textVerbs, entry.1.length ≤ 13 := by decide
  have noMeta : metaVerb line = none :=
    lookup_eq_none_of_long fun entry mem => (metaTable entry mem).trans_lt long
  have noText : textVerb line = .unknown := by
    rw [textVerb, lookup_eq_none_of_long fun entry mem => (textTable entry mem).trans_lt long]
    rfl
  rw [parse_line single, bare]
  simp only [parseLine, word, noMeta, parseText, noText]
  rfl

/-- A line of letters one byte past the limit: refused for good, unless its newline comes
with it. -/
theorem long_line_in_two_reads :
    let line : Bytes := List.replicate (maxLineLen + 1) 97
    parse line = .error (.fatal "command line exceeded the maximum length") ∧
      parse (line ++ [10]) = .error (.recoverable .error (maxLineLen + 2)) ∧
      (commands.serve [line, [10]]).seen ≠ (commands.serve [line ++ [10]]).seen := by
  intro line
  have absent : ∀ b : UInt8, b ≠ 97 → b ∉ line := fun b other mem =>
    other (List.eq_of_mem_replicate mem)
  have long : line.length = maxLineLen + 1 := List.length_replicate
  clear_value line
  have refused : parse line = .error (.fatal "command line exceeded the maximum length") := by
    rw [parse_of_no_newline (absent 10 (by decide)), if_pos (by omega)]
  have unknown : parse (line ++ [10]) = .error (.recoverable .error (maxLineLen + 2)) := by
    rw [parse_of_long_word (absent 10 (by decide)) (absent 13 (by decide))
      (absent 32 (by decide)) (by rw [long]; decide), long]
  refine ⟨refused, unknown, ?_⟩
  have stops : commands.next line = .stop "command line exceeded the maximum length" :=
    congrArg verdictOf refused
  have takes : commands.next (line ++ [10]) = .take (.refused .error) (maxLineLen + 2) :=
    congrArg verdictOf unknown
  have apart : (commands.serve [line, [10]]).items = [] := by
    simp [Framer.serve, Framer.receive, Framer.drain_stop stops]
  have together : (commands.serve [line ++ [10]]).items ≠ [] := by
    simp [Framer.serve, Framer.receive, Framer.drain_take takes, Drained.after]
  intro same
  exact together ((congrArg Prod.fst same).symm.trans apart)

/-! ### Refused storage commands -/

/-- The block behind a line is waited for and goes with the line, whatever is in it. -/
def SkipsBlock (line : Bytes) (bytes : Nat) : Prop :=
  ∀ rest : Bytes,
    (rest.length < bytes + 2 → parse (line ++ 10 :: rest) = .ok .incomplete) ∧
    (bytes + 2 ≤ rest.length → Took (line.length + 1 + bytes + 2) (parse (line ++ 10 :: rest)))

/-- An `ms` line that is not refused before its block is looked at, with a mode to store
under. -/
def Settable (tokens : List Bytes) : Prop :=
  ∃ setLine, parseSetLine tokens = .ok setLine ∧
    (setModeOf setLine.flags.mode setLine.flags.cas).isSome = true

theorem skipsBlock_of_body {line : Bytes} (single : 10 ∉ line) {bytes : Nat}
    (allowed : bytes ≤ absoluteMaxValueLen)
    {body : Bytes → Bytes → Except ProtocolError Outcome}
    (took : ∀ data terminator, Took (line.length + 1 + bytes + 2) (body data terminator))
    (parses : ∀ buf, parseLine (withoutCr line) (line.length + 1) buf =
      withBlock buf (line.length + 1) bytes body) : SkipsBlock line bytes := by
  intro rest
  have total : (line ++ 10 :: rest).length = line.length + 1 + rest.length := by
    simp only [List.length_append, List.length_cons]
    omega
  rw [parse_line single, parses]
  constructor
  · intro short
    exact withBlock_missing allowed (by omega)
  · intro there
    rw [withBlock_present allowed (by omega)]
    exact took _ _

/-- A storage line takes the block it announces with it, whatever is wrong with it, unless it
is an `ms` whose key, flags or mode are refused. -/
theorem block_skipped_iff (line : Bytes) (single : 10 ∉ line) (bytes : Nat)
    (length : announced (withoutCr line) = some bytes) (allowed : bytes ≤ absoluteMaxValueLen) :
    SkipsBlock line bytes ↔
      (metaVerb (verbOf (withoutCr line)) = some .ms →
        Settable ((tokensOf (withoutCr line)).drop 1)) := by
  constructor
  · intro skips verb
    cases parsed : parseSetLine ((tokensOf (withoutCr line)).drop 1) with
    | error response =>
      -- Refused before a byte of the block has come.
      have early := (skips []).1 (by simp)
      rw [parse_line single, parseLine_metaSet verb, parseMetaSet, parsed] at early
      cases early
    | ok setLine =>
      refine ⟨setLine, parsed, ?_⟩
      obtain rfl : setLine.bytes = bytes :=
        Option.some.inj ((announced_metaSet verb parsed).symm.trans length)
      cases mode : setModeOf setLine.flags.mode setLine.flags.cas with
      | some mode' => rfl
      | none =>
        -- A well-formed block: the refusal of the mode leaves it behind.
        have late := (skips (List.replicate setLine.bytes 0 ++ [13, 10])).2 (by simp)
        rw [parse_line single, parseLine_metaSet verb, parseMetaSet, parsed] at late
        dsimp only at late
        rw [withBlock_present allowed (by simp; omega)] at late
        have terminator : ((line ++ 10 :: (List.replicate setLine.bytes 0 ++ [13, 10])).drop
            (line.length + 1 + setLine.bytes)).take 2 = [13, 10] := by
          rw [drop_line, List.drop_left' (by simp)]
          rfl
        rw [terminator] at late
        have refused : ∀ data, metaSetBody setLine (line.length + 1) data [13, 10] =
            .error (.recoverable (.client "invalid mode for ms") (line.length + 1)) := by
          intro data
          simp [metaSetBody, mode]
        rw [refused] at late
        have := late.unique (Took.error _ _)
        omega
  · intro settable
    cases verb : metaVerb (verbOf (withoutCr line)) with
    | some verb' =>
      by_cases set : verb' = .ms
      · subst set
        obtain ⟨setLine, parsed, usable⟩ := settable verb
        obtain rfl : setLine.bytes = bytes :=
          Option.some.inj ((announced_metaSet verb parsed).symm.trans length)
        refine skipsBlock_of_body single allowed (metaSetBody_took _ usable) fun buf => ?_
        rw [parseLine_metaSet verb, parseMetaSet, parsed]
      · simp only [announced, verb] at length
        cases verb' <;> simp_all
    | none =>
      simp only [announced, verb] at length
      split at length
      · rename_i stores
        exact skipsBlock_of_body single allowed (fun data terminator => ⟨_, rfl⟩)
          (parseLine_storage verb stores length _)
      · cases length

/-- A `set` line, whose block is skipped whatever it holds. -/
theorem set_skips_block : SkipsBlock (ascii "set k x y 2\r") 2 :=
  (block_skipped_iff (ascii "set k x y 2\r") (by decide +kernel) 2 (by decide +kernel)
    (by decide)).2 fun verb => absurd verb (by decide +kernel)

/-- A value that reads as a command, behind an `ms` with an unknown mode and behind one with
an unknown flag: only the line is counted, so the value is what is parsed next. -/
theorem refused_set_leaves_block :
    announced (ascii "ms k 5 MX") = some 5 ∧ announced (ascii "ms k 5 Z") = some 5 ∧
      parse (ascii "ms k 5 MX\r\nget a\r\n") =
        .error (.recoverable (.client "invalid mode for ms") 11) ∧
      parse (ascii "ms k 5 Z\r\n") = .error (.recoverable (.client "invalid flag") 10) ∧
      parse ((ascii "ms k 5 MX\r\nget a\r\n").drop 11) =
        .ok (.command ⟨.getMany [ascii "a"], 7, false, .retrieval false⟩) ∧
      ¬ SkipsBlock (ascii "ms k 5 MX\r") 5 ∧ ¬ SkipsBlock (ascii "ms k 5 Z\r") 5 := by
  refine ⟨by decide +kernel, by decide +kernel, by decide +kernel, by decide +kernel,
    by decide +kernel, ?_, ?_⟩
  · intro skips
    have late := (skips (ascii "get a\r\n")).2 (by decide +kernel)
    have refused : parse (ascii "ms k 5 MX\r" ++ 10 :: ascii "get a\r\n") =
        .error (.recoverable (.client "invalid mode for ms") 11) := by decide +kernel
    rw [refused] at late
    exact absurd (late.unique (Took.error _ _)) (by decide +kernel)
  · intro skips
    have early := (skips []).1 (by decide)
    exact absurd early (by decide +kernel)

end Vash.Memcached
