/-
# Counters

`vash_core::arith`: the arithmetic a counter operation performs on the text a
record holds. Integers and memcached counters are computed here; a double is its
bit pattern, compared here, while its addition, parsing and printing are the
standard library's and come in as `FloatOps`.
-/

import Vash.Core.Record

namespace Vash

/-! ### Doubles -/

/-- An `f64`, as its bits. -/
structure F64 where
  bits : UInt64
  deriving DecidableEq, Repr

namespace F64

def magnitude (x : F64) : Nat := x.bits.toNat % 2 ^ 63

def isNegative (x : F64) : Bool := x.bits.toNat ≥ 2 ^ 63

/-- The bits of positive infinity. -/
def infinityBits : Nat := 0x7FF0000000000000

def isFinite (x : F64) : Bool := x.magnitude < infinityBits

def isNan (x : F64) : Bool := x.magnitude > infinityBits

/-- Doubles that are not NaN are ordered by sign and magnitude, both zeros equal. -/
def rank (x : F64) : Int := if x.isNegative then -x.magnitude else x.magnitude

def le (x y : F64) : Bool := !x.isNan && !y.isNan && x.rank ≤ y.rank

def lt (x y : F64) : Bool := !x.isNan && !y.isNan && x.rank < y.rank

def zero : F64 := ⟨0⟩

end F64

/-- The operations on doubles that the standard library provides. -/
structure FloatOps where
  add : F64 → F64 → F64
  sub : F64 → F64 → F64
  /-- `str::parse::<f64>` on the bytes of a text. -/
  parse : Bytes → Option F64
  /-- The `Display` of a double. -/
  display : F64 → Bytes

/-! ### Texts -/

/-- The decimal digits of a number, most significant first. -/
def decimal (n : Nat) : Bytes :=
  if n = 0 then [48] else ((Nat.digits 10 n).reverse.map fun d => (48 + d).toUInt8)

/-- `i64::to_string`. -/
def decimalInt (n : Int) : Bytes := if n < 0 then 45 :: decimal n.natAbs else decimal n.toNat

def isDigit (b : UInt8) : Bool := 48 ≤ b ∧ b ≤ 57

/-- The number a run of digits stands for. -/
def digitsValue (digits : Bytes) : Nat := digits.foldl (fun n d => n * 10 + (d.toNat - 48)) 0

/-- `str::parse::<u64>`: digits, with an optional leading plus, that fit. -/
def parseU64 (text : Bytes) : Option Nat :=
  let digits := match text with
    | 43 :: rest => rest
    | _ => text
  if digits ≠ [] ∧ digits.all isDigit ∧ digitsValue digits ≤ u64Max then some (digitsValue digits)
  else none

/-- The UTF-8 encodings of the characters `str::trim` removes, as a leading run. -/
def trimStart : Bytes → Bytes
  | 0xC2 :: b :: rest => if b = 0x85 ∨ b = 0xA0 then trimStart rest else 0xC2 :: b :: rest
  | 0xE1 :: 0x9A :: 0x80 :: rest => trimStart rest
  | 0xE2 :: 0x80 :: b :: rest =>
    if 0x80 ≤ b ∧ b ≤ 0x8A ∨ b = 0xA8 ∨ b = 0xA9 ∨ b = 0xAF then trimStart rest
    else 0xE2 :: 0x80 :: b :: rest
  | 0xE2 :: 0x81 :: 0x9F :: rest => trimStart rest
  | 0xE3 :: 0x80 :: 0x80 :: rest => trimStart rest
  | b :: rest => if 9 ≤ b ∧ b ≤ 13 ∨ b = 32 then trimStart rest else b :: rest
  | [] => []

/-- The same characters, met backwards. -/
def trimStartReversed : Bytes → Bytes
  | 0x80 :: 0x9A :: 0xE1 :: rest => trimStartReversed rest
  | 0x9F :: 0x81 :: 0xE2 :: rest => trimStartReversed rest
  | 0x80 :: 0x80 :: 0xE3 :: rest => trimStartReversed rest
  | b :: 0x80 :: 0xE2 :: rest =>
    if 0x80 ≤ b ∧ b ≤ 0x8A ∨ b = 0xA8 ∨ b = 0xA9 ∨ b = 0xAF then trimStartReversed rest
    else b :: 0x80 :: 0xE2 :: rest
  | b :: 0xC2 :: rest =>
    if b = 0x85 ∨ b = 0xA0 then trimStartReversed rest else b :: 0xC2 :: rest
  | b :: rest => if 9 ≤ b ∧ b ≤ 13 ∨ b = 32 then trimStartReversed rest else b :: rest
  | [] => []

/-- `str::trim`. -/
def trim (text : Bytes) : Bytes := (trimStartReversed (trimStart text).reverse).reverse

/-- `parse_counter`: a memcached counter, whitespace around it ignored. -/
def parseCounter (stored : Bytes) : Except CoreError Nat :=
  match parseU64 (trim stored) with
  | some n => .ok n
  | none => .error .notAnInteger

/-- `parse_int`: the canonical decimal text of an `i64`. -/
def parseInt (token : Bytes) : Option Int :=
  if token = [48] then some 0
  else
    let (negative, digits) := match token with
      | 45 :: rest => (true, rest)
      | _ => (false, token)
    if digits = [] ∨ digits.head? = some 48 ∨ ¬ digits.all isDigit then none
    else
      let magnitude := digitsValue digits
      if negative then if magnitude ≤ 2 ^ 63 then some (-magnitude) else none
      else if magnitude ≤ i64Max then some magnitude else none

/-- `parse_float`: a text without surrounding whitespace that is not NaN. -/
def parseFloat (floats : FloatOps) (token : Bytes) : Option F64 :=
  if token = [] ∨ trim token ≠ token then none
  else (floats.parse token).filter fun value => !value.isNan

/-- `format_float`: a whole number is written without its trailing `.0`. -/
def formatFloat (floats : FloatOps) (value : F64) : Bytes :=
  let text := floats.display value
  if [46, 48].isSuffixOf text then text.take (text.length - 2) else text

/-! ### The operation -/

inductive Number where
  | int (value : Int)
  | float (value : F64)
  | counter (value : Nat)
  deriving DecidableEq, Repr

def Number.toText (floats : FloatOps) : Number → Bytes
  | .int value => decimalInt value
  | .counter value => decimal value
  | .float value => formatFloat floats value

inductive Delta where
  | counter (delta : Nat) (decrement : Bool)
  | int (delta lower upper : Int)
  | float (delta lower upper : F64)
  deriving DecidableEq, Repr

/-- What to do when a result leaves the bounds. -/
inductive OnBound where
  | fail
  | skip
  | clamp
  deriving DecidableEq, Repr

/-- What to do when the key is absent. -/
inductive Missing where
  | fail
  | createAtZero
  deriving DecidableEq, Repr

structure Arithmetic where
  key : Bytes
  delta : Delta
  onBound : OnBound
  missing : Missing
  ttl : TtlChange
  deriving DecidableEq, Repr

structure Applied where
  value : Number
  applied : Number
  wrote : Bool
  deriving DecidableEq, Repr

inductive Outcome where
  | missing
  | unchanged (applied : Applied)
  | store (text : Bytes) (applied : Applied)
  deriving DecidableEq, Repr

/-- `stored_at`. -/
def storedAt (floats : FloatOps) (value applied : Number) : Outcome :=
  .store (value.toText floats) ⟨value, applied, true⟩

/-- `i64::checked_add` and `checked_sub`, on the exact result. -/
def checkedI64 (n : Int) : Option Int := if i64Min ≤ n ∧ n ≤ i64Max then some n else none

/-- The `Delta::Counter` arm of `evaluate`: decrements stop at zero, increments wrap. -/
def evaluateCounter (floats : FloatOps) (current delta : Nat) (decrement : Bool) : Outcome :=
  let updated := if decrement then current - delta else wrappingAdd64 current delta
  storedAt floats (.counter updated) (.counter (wrappingSub64 updated current))

/-- The `Delta::Int` arm of `evaluate`. -/
def evaluateInt (floats : FloatOps) (onBound : OnBound) (current delta lower upper : Int) :
    Except CoreError Outcome :=
  let candidate := checkedI64 (current + delta)
  match candidate.filter fun value => decide (lower ≤ value ∧ value ≤ upper) with
  | some updated => .ok (storedAt floats (.int updated) (.int delta))
  | none =>
    match onBound with
    | .fail => .error .overflow
    | .skip => .ok (.unchanged ⟨.int current, .int 0, false⟩)
    | .clamp =>
      let clamped := match candidate with
        | some updated => if updated > upper then upper else lower
        | none => if delta > 0 then upper else lower
      match checkedI64 (clamped - current) with
      | some applied => .ok (storedAt floats (.int clamped) (.int applied))
      | none => .error .overflow

/-- The `Delta::Float` arm of `evaluate`. -/
def evaluateFloat (floats : FloatOps) (onBound : OnBound) (current delta lower upper : F64) :
    Except CoreError Outcome :=
  let updated := floats.add current delta
  if updated.isFinite && lower.le updated && updated.le upper then
    .ok (storedAt floats (.float updated) (.float delta))
  else
    match onBound with
    | .fail => .error .notFinite
    | .skip => .ok (.unchanged ⟨.float current, .float .zero, false⟩)
    | .clamp =>
      let clamped :=
        if upper.lt updated || (!updated.isFinite && F64.zero.lt delta) then upper else lower
      let applied := floats.sub clamped current
      if applied.isFinite then .ok (storedAt floats (.float clamped) (.float applied))
      else .error .notFinite

/-- `Arithmetic::evaluate`. -/
def Arithmetic.evaluate (floats : FloatOps) (op : Arithmetic) (stored : Option Bytes) :
    Except CoreError Outcome :=
  match stored, op.missing with
  | none, .fail => .ok .missing
  | current, _ =>
    match op.delta with
    | .counter delta decrement =>
      match current with
      | none => .ok (evaluateCounter floats 0 delta decrement)
      | some bytes => do
        let current ← parseCounter bytes
        return evaluateCounter floats current delta decrement
    | .int delta lower upper =>
      match current with
      | none => evaluateInt floats op.onBound 0 delta lower upper
      | some bytes =>
        match parseInt bytes with
        | none => .error .notAnInteger
        | some current => evaluateInt floats op.onBound current delta lower upper
    | .float delta lower upper =>
      match current with
      | none => evaluateFloat floats op.onBound .zero delta lower upper
      | some bytes =>
        match (parseFloat floats bytes).filter F64.isFinite with
        | none => .error .notAFloat
        | some current => evaluateFloat floats op.onBound current delta lower upper

end Vash
