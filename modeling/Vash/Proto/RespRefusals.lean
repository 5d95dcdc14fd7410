import Vash.Proto.RespFraming

/-!
# The Redis dialect: refusals fit on a line

A refusal may quote the client: the verb, or the subcommand, that is unknown. The quote is
escaped and the other words are fixed, so a refusal is read as one error, and nothing a
client sends makes the server write a second reply.

* `refusals_are_error_lines` — whatever the buffer, what is said of a command that is
  refused, or of framing that is broken, is one error line.
-/

namespace Vash.Resp

open Encode

/-! ### What is wrong with the framing -/

/-- The words about broken framing fit on a line. -/
def Fatal.Plain (fatal : Fatal) : Prop := Clean (ascii fatal.detail)

instance : DecidablePred Fatal.Plain := fun fatal =>
  inferInstanceAs (Decidable (Clean (ascii fatal.detail)))

theorem plain_readHeader {detail : String} (plain : Clean (ascii detail)) (kind : UInt8)
    (rest : Bytes) : Fails Fatal.Plain (readHeader kind detail rest) := by
  have fatal : Fatal.Plain ⟨detail⟩ := plain
  unfold readHeader
  split
  · simp
  · simp only [fails_ite, fails_error, fatal, implies_true, true_and]
    intro _
    split
    · simp [fatal]
    · split <;> simp [fatal]

theorem plain_readPayload (len : Int) (body : Bytes) :
    Fails Fatal.Plain (readPayload len body) := by
  simp +decide [readPayload]

theorem plain_readBulk (rest : Bytes) : Fails Fatal.Plain (readBulk rest) := by
  have plain : Clean (ascii "invalid bulk length") := by decide
  simp only [readBulk, fails_bind, plain_readHeader plain, true_and]
  rintro (_ | ⟨len, body⟩) _
  · simp
  · exact plain_readPayload len body

theorem plain_readArgs (count : Nat) (args : Args) (rest : Bytes) :
    Fails Fatal.Plain (readArgs count args rest) := by
  induction count generalizing args rest with
  | zero => simp [readArgs]
  | succ count ih =>
    simp only [readArgs, fails_bind, plain_readBulk, true_and]
    rintro (_ | ⟨arg, next⟩) _
    · simp
    · exact ih _ _

theorem plain_frameWith (fuel : Nat) (rest : Bytes) :
    Fails Fatal.Plain (frameWith fuel rest) := by
  have plain : Clean (ascii "invalid multibulk length") := by decide
  induction fuel generalizing rest with
  | zero => simp [frameWith]
  | succ fuel ih =>
    simp only [frameWith, fails_bind, plain_readHeader plain, true_and]
    rintro (_ | ⟨count, body⟩) _
    · simp
    · simp +decide [ih, plain_readArgs]

theorem plain_frame {ρ : Type} (buf : Bytes) (f : List Bytes → Nat → ρ) :
    Fails Fatal.Plain (frame buf f) := by
  simp only [frame, fails_bind, plain_frameWith, true_and]
  rintro (_ | ⟨args, rest⟩) _ <;> simp

/-! ### What is written -/

/-- A panic says nothing. -/
def Halt.Plain : Halt → Prop
  | .refused reply => reply.Plain
  | .panicked => True

/-- A reply in plain words is one error line, whatever it quotes. -/
theorem ErrorReply.Plain.line {reply : ErrorReply} (plain : reply.Plain) :
    ErrorLine (errorReply reply) := by
  have err : Clean (ascii "ERR") := by decide
  have ends : Clean (ascii "' command") := by decide
  cases reply with
  | unknownCommand name =>
    refine ⟨ascii "ERR unknown command '" ++ (escape name ++ ascii "'"), ?_, ?_⟩
    · exact clean_append.mpr ⟨by decide, clean_append.mpr ⟨escape_clean name, by decide⟩⟩
    · rw [errorReply, show ascii "-ERR unknown command '" = 45 :: ascii "ERR unknown command '"
        by decide]
      simp
  | wrongArity name =>
    exact error_line err (clean_append.mpr ⟨clean_append.mpr ⟨by decide, plain⟩, ends⟩)
  | invalidExpire name =>
    exact error_line err (clean_append.mpr ⟨clean_append.mpr ⟨by decide, plain⟩, ends⟩)
  | unknownSubcommand container sub =>
    refine ⟨ascii "ERR unknown subcommand '" ++ (escape sub ++ (ascii "'. Try " ++
      (ascii container ++ ascii " HELP."))), ?_, ?_⟩
    · have rest : Clean (ascii container ++ ascii " HELP.") := clean_append.mpr ⟨plain, by decide⟩
      exact clean_append.mpr ⟨by decide, clean_append.mpr ⟨escape_clean sub,
        clean_append.mpr ⟨by decide, rest⟩⟩⟩
    · rw [errorReply, show ascii "-ERR unknown subcommand '" =
        45 :: ascii "ERR unknown subcommand '" by decide]
      simp
  | err message => exact error_line err plain
  | coded code message => exact error_line plain.1 plain.2

theorem Fatal.Plain.line {fatal : Fatal} (plain : fatal.Plain) :
    ErrorLine (protocolError fatal.detail) :=
  error_line (by decide) (clean_append.mpr ⟨by decide, plain⟩)

/-- What is written for an error of the parser: `error_reply`, and `protocol_error` before
the connection is closed. -/
def ProtocolError.bytes : ProtocolError → Bytes
  | .recoverable reply _ => errorReply reply
  | .fatal detail => protocolError detail

section Parse
variable (floats : FloatOps)

theorem parseCommand_line {args : List Bytes} (verb : args ≠ []) {consumed : Nat}
    {failure : ProtocolError} (failed : parseCommand floats args consumed = .error failure) :
    ErrorLine failure.bytes := by
  have fails : Fails Halt.Plain (parseArgs floats args) :=
    (fails_parseArgs_iff (fun _ plain => plain) floats verb).mpr fun _ => trivial
  unfold parseCommand at failed
  split at failed
  · cases failed
  · rename_i reply refused
    cases failed
    have plain : reply.Plain := fails _ refused
    exact plain.line
  · cases failed

theorem parse_line {buf : Bytes} {failure : ProtocolError}
    (failed : parse floats buf = .error failure) : ErrorLine failure.bytes := by
  rw [parse, frame_map] at failed
  rcases framed : frame buf Prod.mk with fatal | _ | ⟨args, consumed⟩
  all_goals rw [framed] at failed
  · cases failed
    exact (plain_frame buf _ fatal framed).line
  · cases failed
  · exact parseCommand_line floats (frame_ne_nil framed) failed

/-- What is said of a command that is refused, or of framing that is broken, is one error
line and one value to the client, whatever the client sent. -/
theorem refusals_are_error_lines (buf : Bytes) {failure : ProtocolError}
    (failed : parse floats buf = .error failure) :
    ErrorLine failure.bytes ∧ IsValue failure.bytes :=
  have line := parse_line floats failed
  ⟨line, line.isValue⟩

end Parse

/-- A verb that would end the line it is quoted on, and go on with a reply of its own. -/
def forgedVerb : Bytes := [13, 10] ++ ascii "+OK"

theorem refusals_are_error_lines_quoting :
    parse noFloats (multibulk [forgedVerb]) =
        .error (.recoverable (.unknownCommand forgedVerb) 15) ∧
      ErrorLine (errorReply (.unknownCommand forgedVerb)) :=
  have failed : parse noFloats (multibulk [forgedVerb]) =
      .error (.recoverable (.unknownCommand forgedVerb) 15) := by decide +kernel
  ⟨failed, (refusals_are_error_lines noFloats _ failed).1⟩

end Vash.Resp
