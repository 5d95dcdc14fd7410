import Vash.Proto.MemcachedFraming
import Vash.Proto.RespFraming
import Vash.Proto.VcpFraming
import Vash.Server.Dispatch

/-!
# Measuring a buffer

The walks of `conn.rs` that find how much of a buffer is whole commands and which runs these
form. A run is handed on as a slice and parsed again there, by the dialect's executor.

* `runs_reparse_iff` — the executors are faithful to the walks, but for such an `ms` whose
  block is not in its run, and for commands the Redis parser panics on.
-/

namespace Vash.Server

open Library

/-! ### Kinds of runs -/

/-- `RunKind`. -/
inductive RunKind where
  | reads
  | writes
  | other
  deriving DecidableEq, Repr

/-- `Command::inline_safe`. -/
def inlineSafe : Command → Bool
  | .hello _ | .ping | .stats | .version | .quit => true
  | .cluster => true
  | .get _ | .getMany _ | .deadline _ | .deadlines _ => true
  | _ => false

/-- `awaitable_set`. -/
def awaitableSet (set : SetRequest) : Bool :=
  decide (set.mode = .set) && !set.returnPrevious && set.tags.isEmpty

/-- `awaitable`: an unconditional write that registers no tag. -/
def awaitable (command : Command) : Bool := (batchable command).any awaitableSet

/-- `Measured`, with the commands that `Run::extend` was called for. -/
structure Measured where
  entries : List (RunKind × Nat)
  fatal : Option String
  reserve : Nat
  deriving DecidableEq, Repr

namespace Measured

/-- The bytes that form complete commands. -/
def complete (measured : Measured) : Nat := Framer.size measured.entries

def runs (measured : Measured) : List (Run RunKind) := Run.runsOf measured.entries

end Measured

/-! ### The walks -/

/-- `PRE_AUTH_MAX_BUFFERED`. -/
def preAuthMaxBuffered : Nat := 4096

/-- `Opcode::inline_safe`. -/
def opcodeInlineSafe (opcode : Vcp.Opcode) : Bool :=
  opcode ∈ [Vcp.Opcode.hello, .ping, .get, .getMany, .cluster, .stats]

/-- `is_read_only_frame`. -/
def isReadOnlyFrame (frame : Bytes) : Bool :=
  (frame.head?.bind Vcp.Opcode.fromU8).any opcodeInlineSafe

def frameKind (frame : Bytes) : RunKind := if isReadOnlyFrame frame then .reads else .other

/-- What `measure_vcp` makes of a frame that is not there in full. -/
def vcpEnd (gated : Bool) : Vcp.FrameLen → Option String × Nat
  | .complete _ => (none, 0)
  | .incomplete needed =>
    if gated ∧ needed > preAuthMaxBuffered then (some "unauthenticated frame is too large", 0)
    else (none, needed)
  | .tooLarge => (some "frame length exceeds the maximum", 0)

/-- `measure_vcp`. -/
def measureVcp (buf : Bytes) (gated : Bool) : Measured :=
  let ending := vcpEnd gated (Vcp.peekFrameLen (Vcp.frames.drain buf).left)
  ⟨Vcp.frames.entries frameKind buf, ending.1, ending.2⟩

/-- The kind of a text command, or of an error in its place. -/
def textKind : Memcached.Event → RunKind
  | .command command _ style =>
    if inlineSafe command then .reads
    else if style = .storage ∧ awaitable command then .writes
    else .other
  | .refused _ => .other

/-- `measure_memcached`. -/
def measureMemcached (buf : Bytes) : Measured :=
  ⟨Memcached.commands.entries textKind buf, (Memcached.commands.drain buf).stopped, 0⟩

/-- The verbs of `classify` that only read. -/
def readVerbs : List Bytes :=
  [ascii "GET", ascii "MGET", ascii "EXISTS", ascii "TYPE", ascii "TTL", ascii "PING",
    ascii "HELLO", ascii "AUTH", ascii "QUIT", ascii "INFO"]

/-- `plainly_batchable`. -/
def plainlyBatchable (args : List Bytes) : Bool :=
  decide (3 ≤ args.length) && !(args.drop 3).any fun token =>
    Resp.eqIgnoreCase token (ascii "NX") || Resp.eqIgnoreCase token (ascii "XX") ||
      Resp.eqIgnoreCase token (ascii "GET")

/-- `resp::classify`. -/
def classify (args : List Bytes) : RunKind :=
  match args.head? with
  | none => .other
  | some rawVerb =>
    let verb := Resp.upperVerb rawVerb
    if readVerbs.contains verb then .reads
    else if verb = ascii "SET" ∧ plainlyBatchable args then .writes
    else .other

/-- `measure_resp`. -/
def measureResp (buf : Bytes) : Measured :=
  ⟨(Resp.headers classify).entries id buf,
    ((Resp.headers classify).drain buf).stopped.map Resp.Fatal.detail, 0⟩

end Vash.Server

/-! ### Text commands in a slice -/

namespace Vash.Memcached

open Library

theorem commands_grows : commands.Grows := by
  intro buf more event n taken
  have took := took_of_verdictOf taken
  have decided : parse buf ≠ .ok .incomplete := fun waits => not_took_incomplete (waits ▸ took)
  have bounded : ¬ Overlong buf := by
    rintro ⟨none, long⟩
    rw [parse_of_no_newline none, if_pos long] at took
    exact not_took_fatal took
  simp only [commands] at taken ⊢
  rw [parse_append bounded more decided, taken]

/-- A block that was not refused for its length is there, and its body is what took it. -/
theorem withBlock_took {buf : Bytes} {afterLine bytes n : Nat}
    {body : Bytes → Bytes → Except ProtocolError Outcome}
    (took : Took n (withBlock buf afterLine bytes body)) :
    bytes ≤ absoluteMaxValueLen ∧ afterLine + bytes + 2 ≤ buf.length ∧
      Took n (body ((buf.drop afterLine).take bytes) ((buf.drop (afterLine + bytes)).take 2)) := by
  by_cases allowed : bytes ≤ absoluteMaxValueLen
  · by_cases there : afterLine + bytes + 2 ≤ buf.length
    · rw [withBlock_present allowed there] at took
      exact ⟨allowed, there, took⟩
    · rw [withBlock_missing allowed (by omega)] at took
      exact absurd took not_took_incomplete
  · rw [withBlock, if_pos (by omega)] at took
    exact absurd took not_took_fatal

/-- The buffer begins with an `ms` whose mode is none, and behind the line there is a block of
the announced length that ends as it should. -/
def Strays (buf : Bytes) (bytes : Nat) : Prop :=
  ∃ line rest setLine, 10 ∉ line ∧ buf = line ++ 10 :: rest ∧
    metaVerb (verbOf (withoutCr line)) = some .ms ∧
    parseSetLine ((tokensOf (withoutCr line)).drop 1) = .ok setLine ∧ setLine.bytes = bytes ∧
    setModeOf setLine.flags.mode setLine.flags.cas = none ∧ bytes ≤ absoluteMaxValueLen ∧
    (rest.drop bytes).take 2 = [13, 10]

/-- A buffer has one first line. -/
theorem line_unique {line line' rest rest' : Bytes} (single : 10 ∉ line) (single' : 10 ∉ line')
    (same : line ++ 10 :: rest = line' ++ 10 :: rest') : line = line' ∧ rest = rest' := by
  have first := findIdx?_line single rest
  rw [same, findIdx?_line single'] at first
  obtain ⟨sameLine, sameRest⟩ := List.append_inj same (Option.some.inj first).symm
  exact ⟨sameLine, (List.cons.inj sameRest).2⟩

/-- An `ms` that strays waits for its block and is then taken without it. -/
theorem Strays.taken {line rest : Bytes} (single : 10 ∉ line) {bytes : Nat}
    (strays : Strays (line ++ 10 :: rest) bytes) : announced (withoutCr line) = some bytes ∧
      parse (line ++ [10]) = .ok .incomplete ∧
      Took (line.length + 1) (parse (line ++ 10 :: rest)) := by
  obtain ⟨line', rest', setLine, single', same, verb, parsed, rfl, unusable, allowed, ended⟩ :=
    strays
  obtain ⟨rfl, rfl⟩ := line_unique single single' same
  have there : setLine.bytes + 2 ≤ rest.length := by
    have := congrArg List.length ended
    simp only [List.length_take, List.length_drop, List.length_cons, List.length_nil] at this
    omega
  refine ⟨announced_metaSet verb parsed, ?_, ?_⟩
  · rw [parse_line single, parseLine_metaSet verb, parseMetaSet, parsed]
    exact withBlock_missing allowed (by simp; omega)
  · rw [parse_line single, parseLine_metaSet verb, parseMetaSet, parsed]
    dsimp only
    rw [withBlock_present allowed (by simp; omega), drop_line, ended]
    exact metaSetBody_took_line _ unusable _

/-- A block reads the same in a slice that holds it. -/
theorem withBlock_take {buf : Bytes} {afterLine bytes m : Nat}
    {body : Bytes → Bytes → Except ProtocolError Outcome} (allowed : bytes ≤ absoluteMaxValueLen)
    (there : afterLine + bytes + 2 ≤ buf.length) (held : afterLine + bytes + 2 ≤ m) :
    withBlock (buf.take m) afterLine bytes body = withBlock buf afterLine bytes body := by
  have within : ∀ start count, start + count ≤ m →
      ((buf.take m).drop start).take count = (buf.drop start).take count := by
    intro start count le
    rw [List.drop_take, List.take_take, Nat.min_eq_left (by omega)]
  rw [withBlock_present allowed there,
    withBlock_present allowed (by rw [List.length_take]; omega), within _ _ (by omega),
    within _ _ (by omega)]

/-- A text command that is taken is taken in every slice that holds it, unless it strays: then
the slice must hold the block as well. -/
theorem take_slice_iff {buf : Bytes} {event : Event} {n m : Nat}
    (taken : commands.next buf = .take event n) (le : n ≤ m) :
    (∃ event', commands.next (buf.take m) = .take event' n) ↔
      ∀ bytes, Strays buf bytes → n + (bytes + 2) ≤ m := by
  have took := took_of_verdictOf taken
  rcases line_cases 10 buf with none | ⟨line, rest, single, rfl⟩
  · rw [parse_of_no_newline none] at took
    split at took
    · exact absurd took not_took_fatal
    · exact absurd took not_took_incomplete
  -- the verdict on the slice is one on the same line
  have slice : line.length + 1 ≤ n → parse ((line ++ 10 :: rest).take m) =
      parseLine (withoutCr line) (line.length + 1) ((line ++ 10 :: rest).take m) := by
    intro first
    obtain ⟨k, rfl⟩ : ∃ k, m = line.length + 1 + k := ⟨m - (line.length + 1), by omega⟩
    have cut : (line ++ 10 :: rest).take (line.length + 1 + k) = line ++ 10 :: rest.take k := by
      rw [Nat.add_assoc, List.take_length_add_append, Nat.add_comm 1 k, List.take_succ_cons]
    rw [cut, parse_line single]
  have same : parse ((line ++ 10 :: rest).take m) = parse (line ++ 10 :: rest) →
      ∃ event', commands.next ((line ++ 10 :: rest).take m) = .take event' n := by
    intro same
    exact ⟨event, (congrArg verdictOf same).trans taken⟩
  rw [parse_line single] at took
  -- a block that goes with its line is in the slice
  have kept : ∀ bytes body, (∀ buf, parseLine (withoutCr line) (line.length + 1) buf =
        withBlock buf (line.length + 1) bytes body) → n = line.length + 1 + bytes + 2 →
      ((∃ event', commands.next ((line ++ 10 :: rest).take m) = .take event' n) ↔
        ∀ bytes, Strays (line ++ 10 :: rest) bytes → n + (bytes + 2) ≤ m) := by
    intro bytes body parses whole
    rw [parses] at took
    obtain ⟨allowed, there, -⟩ := withBlock_took took
    refine iff_of_true (same ?_) ?_
    · rw [slice (by omega), parse_line single, parses, parses,
        withBlock_take allowed there (by omega)]
    · intro bytes' strays
      have left := (strays.taken single).2.2
      rw [parse_line single, parses] at left
      have := took.unique left
      omega
  cases shape (withoutCr line) (line.length + 1) with
  | whole understood parses =>
    rw [parses] at took
    have here := took.unique ⟨understood, rfl⟩
    refine iff_of_true (same ?_) ?_
    · rw [slice (by omega), parse_line single, parses, parses]
    · intro bytes strays
      have waits := (strays.taken single).2.1
      rw [parse_line single, parses] at waits
      exact absurd ⟨understood, waits.symm⟩ not_took_incomplete
  | block bytes body _ bodies parses =>
    rw [parses] at took
    exact kept bytes body parses ((withBlock_took took).2.2.unique (bodies _ _))
  | stray setLine verb parsed unusable parses =>
    rw [parses] at took
    obtain ⟨allowed, there, taken'⟩ := withBlock_took took
    rw [drop_line] at taken'
    by_cases ended : (rest.drop setLine.bytes).take 2 = [13, 10]
    · rw [ended] at taken'
      have here := taken'.unique (metaSetBody_took_line _ unusable _)
      have strays : Strays (line ++ 10 :: rest) setLine.bytes :=
        ⟨line, rest, setLine, single, rfl, verb, parsed, rfl, unusable, allowed, ended⟩
      constructor
      · rintro ⟨event', again⟩ bytes' strays'
        cases (strays.taken single).1.symm.trans (strays'.taken single).1
        have took' := took_of_verdictOf again
        rw [slice (by omega), parses] at took'
        have held := (withBlock_took took').2.1
        rw [List.length_take] at held
        omega
      · intro holds
        have held := holds setLine.bytes strays
        apply same
        rw [slice (by omega), parse_line single, parses, parses,
          withBlock_take allowed there (by omega)]
    · rw [metaSetBody, if_pos ended] at taken'
      exact kept setLine.bytes _ parses (taken'.unique (Took.error _ _))

end Vash.Memcached

namespace Vash.Server

open Library

/-! ### Executing what was measured -/

/-- A frame is complete in every slice that holds it. -/
theorem peekFrameLen_take {buf : Bytes} {len more : Nat}
    (complete : Vcp.peekFrameLen buf = .complete len) (held : len ≤ more) :
    Vcp.peekFrameLen (buf.take more) = .complete len := by
  have bounds := Vcp.peekFrameLen_complete complete
  rcases Vcp.refFromPrefix_cases buf with ⟨short, -⟩ | ⟨header, rest, rfl⟩
  · rw [Vcp.peekFrameLen_short short] at complete
    cases complete
  · obtain ⟨k, rfl⟩ : ∃ k, more = Vcp.headerLen + k := ⟨more - Vcp.headerLen, by omega⟩
    have cut : (header.asBytes ++ rest).take (Vcp.headerLen + k) =
        header.asBytes ++ rest.take k := by
      rw [← Vcp.length_asBytes header, List.take_length_add_append]
    rw [cut, Vcp.peekFrameLen_append]
    rw [Vcp.peekFrameLen_append] at complete
    split at complete
    · cases complete
    · rename_i fits
      split at complete
      · cases complete
      · cases complete
        rw [if_neg fits, if_neg (by rw [List.length_take]; omega)]

theorem frames_isLocal : Vcp.frames.Local := by
  intro buf item length more taken held
  cases verdict : Vcp.peekFrameLen buf with
  | incomplete needed => simp [Vcp.frames, verdict] at taken
  | tooLarge => simp [Vcp.frames, verdict] at taken
  | complete len =>
    simp only [Vcp.frames, verdict, Verdict.take.injEq] at taken
    obtain ⟨rfl, rfl⟩ := taken
    simp [Vcp.frames, peekFrameLen_take verdict held, List.take_take, Nat.min_eq_left held]

/-- Every `ms` that leaves its block behind has it in its run. -/
def BlocksInRuns (buf : Bytes) : Prop :=
  ∀ before entry after, Run.Placed (measureMemcached buf).entries before entry after →
    ∀ bytes, Memcached.Strays (buf.drop (Framer.size before)) bytes →
      bytes + 2 ≤ Framer.size after

/-- No command that was measured is an `MSETTAGS` without its `numtags`. -/
def TagsCounted (buf : Bytes) : Prop :=
  ∀ before entry after, (measureResp buf).entries = before ++ entry :: after →
    ¬ Resp.FramesOutOfTags (buf.drop (Framer.size before))

theorem memcached_takesInRuns_iff (buf : Bytes) :
    Memcached.commands.TakesInRuns (measureMemcached buf).entries buf ↔ BlocksInRuns buf := by
  have inSlice : ∀ before entry after,
      Run.Placed (measureMemcached buf).entries before entry after →
      ((∃ event, Memcached.commands.next ((buf.drop (Framer.size before)).take
          (entry.2 + Framer.size after)) = .take event entry.2) ↔
        ∀ bytes, Memcached.Strays (buf.drop (Framer.size before)) bytes →
          bytes + 2 ≤ Framer.size after) := by
    intro before entry after placed
    obtain ⟨others, split⟩ := placed.split
    obtain ⟨event, -, taken⟩ := Framer.next_of_entries split
    rw [Memcached.take_slice_iff taken (Nat.le_add_right _ _)]
    simp only [Nat.add_le_add_iff_left]
  exact forall_congr' fun before => forall_congr' fun entry => forall_congr' fun after =>
    forall_congr' fun placed => inSlice before entry after placed

theorem resp_takesInRuns_iff (floats : FloatOps) (buf : Bytes) :
    (Resp.commands floats).TakesInRuns (measureResp buf).entries buf ↔ TagsCounted buf := by
  have inSlice : ∀ before entry after others,
      (measureResp buf).entries = before ++ entry :: others →
      ((∃ event, (Resp.commands floats).next ((buf.drop (Framer.size before)).take
          (entry.2 + after)) = .take event entry.2) ↔
        ¬ Resp.FramesOutOfTags (buf.drop (Framer.size before))) := by
    intro before entry after others split
    obtain ⟨kind, -, measured⟩ := Framer.next_of_entries split
    exact Resp.commands_take_iff floats measured (Nat.le_add_right _ _)
  constructor
  · intro taken before entry others split
    obtain ⟨after, _, placed, rfl⟩ := Run.exists_placed split
    exact (inSlice _ _ _ _ split).mp (taken _ _ _ placed)
  · intro counted before entry after placed
    obtain ⟨others, split⟩ := placed.split
    exact (inSlice _ _ _ _ split).mpr (counted _ _ _ split)

/-- The runs of a walk have positive lengths that add up to what it calls complete, and the
slice of any consecutive runs shows the executor the commands and errors it finds in the whole
buffer and is used up by them: always in the binary protocol, for text commands exactly when
every `ms` that leaves its block behind has it in its run, and for Redis commands exactly when
none is one the parser panics on. -/
theorem runs_reparse_iff (floats : FloatOps) (buf : Bytes) :
    (∀ gated, Vcp.frames.Faithful (measureVcp buf gated).entries buf) ∧
      (Memcached.commands.Faithful (measureMemcached buf).entries buf ↔ BlocksInRuns buf) ∧
      ((Resp.commands floats).Faithful (measureResp buf).entries buf ↔ TagsCounted buf) := by
  refine ⟨fun gated => ?_, ?_, ?_⟩
  · exact (Framer.faithful_iff Vcp.frames_stable.grows Framer.entries_pos
      (Framer.size_entries_le _ _)).mpr (frames_isLocal.takesInRuns _ _)
  · rw [← memcached_takesInRuns_iff]
    exact Framer.faithful_iff Memcached.commands_grows Framer.entries_pos
      (Framer.size_entries_le _ _)
  · rw [← resp_takesInRuns_iff floats]
    exact Framer.faithful_iff (Resp.commands_grows floats) Framer.entries_pos
      (Framer.size_entries_le _ _)

/-- An `ms` with an unknown mode in front of a value that reads as a command: the line is a run
of its own, and on its own it is incomplete. And an `MSETTAGS` without its `numtags` is measured
as a command, on which the executor panics. -/
theorem runs_do_not_reparse :
    (measureMemcached (ascii "ms k 5 MX\r\nget a\r\n")).runs = [⟨11, 1, .other⟩, ⟨7, 1, .reads⟩] ∧
      Memcached.parse (ascii "ms k 5 MX\r\n") = .ok .incomplete ∧
      ¬ Memcached.commands.Faithful (measureMemcached (ascii "ms k 5 MX\r\nget a\r\n")).entries
        (ascii "ms k 5 MX\r\nget a\r\n") ∧
      (measureResp (Resp.Encode.multibulk Resp.pairsOnly)).complete =
        (Resp.Encode.multibulk Resp.pairsOnly).length ∧
      ¬ (Resp.commands Resp.noFloats).Faithful
        (measureResp (Resp.Encode.multibulk Resp.pairsOnly)).entries
        (Resp.Encode.multibulk Resp.pairsOnly) := by
  have runs : (measureMemcached (ascii "ms k 5 MX\r\nget a\r\n")).runs =
      [⟨11, 1, .other⟩, ⟨7, 1, .reads⟩] := by decide +kernel
  have respRuns : (measureResp (Resp.Encode.multibulk Resp.pairsOnly)).runs =
      [⟨(Resp.Encode.multibulk Resp.pairsOnly).length, 1, .other⟩] := by decide +kernel
  refine ⟨runs, by decide +kernel, ?_, by decide +kernel, ?_⟩
  · intro faithful
    have slice := (faithful.slices [] [⟨11, 1, .other⟩] [⟨7, 1, .reads⟩] runs).1
    have left := congrArg Drained.left slice
    exact absurd left (by decide +kernel)
  · intro faithful
    have slice := (faithful.slices [] _ [] (by rw [List.append_nil]; exact respRuns)).1
    have left := congrArg Drained.left slice
    exact absurd left (by decide +kernel)

end Vash.Server
