import Vash.Proto.Memcached

/-!
# The Redis dialect: framing

`vash_proto::resp`: a request is an array of bulk strings. The framing walk finds the
arguments of one command at the front of a buffer, without looking at what they mean;
`parse` and `peek` share it.

The source walks by positions in the buffer; here the walk hands on what is left of it,
and the number of bytes consumed is the difference. A decimal header is UTF-8 if it is
anything at all, so the check for it is part of reading the number.
-/

namespace Vash.Resp

/-- `MAX_BULK_LEN`. -/
def maxBulkLen : Nat := absoluteMaxValueLen

/-- `MAX_ARGS`. -/
def maxArgs : Nat := 2 * maxBatchItems + 8

/-- `MAX_HEADER_LEN`. -/
def maxHeaderLen : Nat := 32

/-- `Version`. -/
inductive Version where
  | resp2
  | resp3
  deriving DecidableEq, Repr

/-- `ErrorReply`. -/
inductive ErrorReply where
  | unknownCommand (name : Bytes)
  | wrongArity (name : String)
  | invalidExpire (name : String)
  | unknownSubcommand (container : String) (sub : Bytes)
  | err (message : String)
  | coded (code message : String)
  deriving DecidableEq, Repr

namespace ErrorReply

/-- `NOT_AN_INTEGER`. -/
def notAnInteger : ErrorReply := .err "value is not an integer or out of range"

/-- `NOT_A_FLOAT`. -/
def notAFloat : ErrorReply := .err "value is not a valid float"

/-- `SYNTAX`. -/
def syntaxError : ErrorReply := .err "syntax error"

/-- `OVERFLOW`. -/
def overflow : ErrorReply := .err "increment or decrement would overflow"

end ErrorReply

/-- `Fatal`. -/
structure Fatal where
  detail : String
  deriving DecidableEq, Repr

/-! ### The argument buffer -/

/-- `INLINE_ARGS`. -/
def inlineArgs : Nat := 8

/-- `Args`. -/
inductive Args where
  | inline (buf : Vector Bytes inlineArgs) (len : Nat)
  | heap (args : List Bytes)
  deriving DecidableEq, Repr

namespace Args

def withCapacity (count : Nat) : Args :=
  if count ≤ inlineArgs then .inline (.replicate inlineArgs []) 0 else .heap []

/-- `deref`: the arguments held. -/
def deref : Args → List Bytes
  | .inline buf len => buf.toList.take len
  | .heap args => args

def push (arg : Bytes) : Args → Args
  | .inline buf len =>
    if len < inlineArgs then .inline (buf.setIfInBounds len arg) (len + 1)
    -- promoted rather than indexed past the end
    else .heap (buf.toList.take len ++ [arg])
  | .heap args => .heap (args ++ [arg])

end Args

/-! ### The walk -/

/-- Where the first line ends, its newline left out. -/
def newlineAt (rest : Bytes) : Option Nat := rest.findIdx? (· = 10)

/-- `read_header`: the number of a `<kind><decimal>\r\n` line, and what follows it. -/
def readHeader (kind : UInt8) (detail : String) (rest : Bytes) :
    Except Fatal (Option (Int × Bytes)) :=
  match rest.head? with
  | none => .ok none
  | some first =>
    if first ≠ kind then .error ⟨detail⟩
    else match newlineAt rest with
    | none => if rest.length > maxHeaderLen then .error ⟨detail⟩ else .ok none
    | some newline =>
      let lineEnd := if newline > 0 ∧ rest[newline - 1]? = some 13 then newline - 1 else newline
      match parseI64 ((rest.take lineEnd).drop 1) with
      | none => .error ⟨detail⟩
      | some value => .ok (some (value, rest.drop (newline + 1)))

/-- The payload behind the header of an argument, and what follows it. -/
def readPayload (len : Int) (body : Bytes) : Except Fatal (Option (Bytes × Bytes)) :=
  if len < 0 ∨ len.toNat > maxBulkLen then .error ⟨"invalid bulk length"⟩
  else if body.length < len.toNat + 2 then .ok none
  else if (body.drop len.toNat).take 2 ≠ [13, 10] then .error ⟨"expected '\\r\\n'"⟩
  else .ok (some (body.take len.toNat, body.drop (len.toNat + 2)))

/-- `read_bulk`: one argument, and what follows it. -/
def readBulk (rest : Bytes) : Except Fatal (Option (Bytes × Bytes)) := do
  match ← readHeader 36 "invalid bulk length" rest with
  | none => return none
  | some (len, body) => readPayload len body

/-- The loop over the arguments of one command. -/
def readArgs : Nat → Args → Bytes → Except Fatal (Option (List Bytes × Bytes))
  | 0, args, rest => .ok (some (args.deref, rest))
  | count + 1, args, rest => do
    match ← readBulk rest with
    | none => return none
    | some (arg, next) => readArgs count (args.push arg) next

/-- The loop over empty arrays, in a buffer of fewer than `fuel` bytes. -/
def frameWith : Nat → Bytes → Except Fatal (Option (List Bytes × Bytes))
  | 0, _ => .ok none
  | fuel + 1, rest => do
    match ← readHeader 42 "invalid multibulk length" rest with
    | none => return none
    | some (count, body) =>
      if count < 0 ∨ count.toNat > maxArgs then throw ⟨"invalid multibulk length"⟩
      else if count = 0 then frameWith fuel body
      else readArgs count.toNat (.withCapacity count.toNat) body

/-- `frame`: the arguments of the command at the front of the buffer, and how many bytes
it takes up. -/
def frame {ρ : Type} (buf : Bytes) (classify : List Bytes → Nat → ρ) :
    Except Fatal (Option ρ) := do
  match ← frameWith (buf.length + 1) buf with
  | none => return none
  | some (args, rest) => return some (classify args (buf.length - rest.length))

/-- `Framed`. -/
inductive Framed (τ : Type) where
  | incomplete
  | command (classified : τ) (consumed : Nat)
  deriving DecidableEq, Repr

/-- `peek`. -/
def peek {τ : Type} (buf : Bytes) (classify : List Bytes → τ) : Except Fatal (Framed τ) := do
  match ← frame buf fun args consumed => Framed.command (classify args) consumed with
  | none => return .incomplete
  | some framed => return framed

end Vash.Resp
