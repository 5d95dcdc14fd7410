import Vash.Proto.RespCommand
import Vash.Proto.RespEncode
import Vash.Server.Dispatch

/-!
# Serving the Redis dialect

`resp.rs`: a parsed command is translated into a command of the shared boundary, executed
there, and its reply rendered in the words of this dialect. Deadlines are stated in
milliseconds here and in seconds below; `ttlFromDeadline` goes from the one to the other.

The reading of the clock a function of the source makes is an argument.
-/

namespace Vash.Server.Resp

open Vash.Resp

/-! ### Failures -/

/-- `Failure`, as the client sees it. -/
structure Failure where
  code : String
  message : String
  deriving DecidableEq, Repr

namespace Failure

def client (message : String) : Failure := ⟨"ERR", message⟩

def internal : Failure := ⟨"ERR", "internal error"⟩

end Failure

/-- The statuses `to_failed` tells apart. -/
inductive Status where
  | capacityFull
  | overloaded
  | unsupported
  | unauthorized
  | tooLarge
  | notNumeric
  | badRequest
  | internal
  deriving DecidableEq, Repr

/-- `Failed`. -/
structure Failed where
  status : Status
  cause : Option CoreError
  deriving DecidableEq, Repr

/-- `to_failed`. -/
def toFailed : Store.StoreError → Failed
  | .capacityFull => ⟨.capacityFull, none⟩
  | .tagLimit _ => ⟨.capacityFull, none⟩
  | .core (.valueTooLarge len max) => ⟨.tooLarge, some (.valueTooLarge len max)⟩
  | .core (.keyTooLong len max) => ⟨.tooLarge, some (.keyTooLong len max)⟩
  | .core .notAnInteger => ⟨.notNumeric, some .notAnInteger⟩
  | .core .notAFloat => ⟨.notNumeric, some .notAFloat⟩
  | .core .overflow => ⟨.notNumeric, some .overflow⟩
  | .core .notFinite => ⟨.notNumeric, some .notFinite⟩
  | .core cause => ⟨.badRequest, some cause⟩
  | _ => ⟨.internal, none⟩

/-- The message of a cause Redis has words for. -/
def causeMessage : CoreError → Option String
  | .notAnInteger => some "value is not an integer or out of range"
  | .notAFloat => some "value is not a valid float"
  | .overflow => some "increment or decrement would overflow"
  | .notFinite => some "increment would produce NaN or Infinity"
  | .emptyKey => some "invalid key"
  | .keyTooLong _ _ => some "invalid key"
  | .valueTooLarge _ _ => some "string exceeds maximum allowed size"
  | .tooManyTags _ _ => some "too many tags"
  | .tagTooLong _ _ => some "invalid tag"
  | _ => none

/-- `resp_error`. -/
def respError (failed : Failed) : Failure :=
  match failed.cause.bind causeMessage with
  | some message => .client message
  | none =>
    match failed.status with
    | .capacityFull => ⟨"OOM", "command not allowed when used memory > 'maxmemory'"⟩
    | .overloaded => .client "server is overloaded, try again"
    | .unsupported => .client "unsupported operation"
    | .unauthorized => .client "command disabled by configuration"
    | .internal => .internal
    | _ => .client "invalid argument"

/-- `key_of`. -/
def keyOf (bytes : Bytes) : Except Failure Bytes :=
  match Key.new bytes with
  | .ok key => .ok key
  | .error _ => .error (.client "invalid key")

/-! ### Deadlines -/

/-- `u64 as i64`. -/
def asI64 (n : Nat) : Int := (n : Int).bmod (2 ^ 64)

/-- `i64::saturating_add` and `saturating_mul`: a result past the range is its end. -/
def saturate (n : Int) : Int := max i64Min (min n i64Max)

/-- `ttl_from_deadline`. -/
def ttlFromDeadline (deadlineMs now : Int) : Nat :=
  if deadlineMs ≤ now then ttlAlreadyExpired
  else
    let rounded := (saturate (deadlineMs + 500)).tdiv 1000
    let seconds := if saturate (rounded * 1000) ≤ now then now.tdiv 1000 + 1 else rounded
    if seconds ≤ maxTtlSecs then ttlAlreadyExpired
    else min (if seconds ≤ u32Max then seconds.toNat else u32Max) (u32Max - 1)

/-- `ttl_change_for`. -/
def ttlChangeFor (expiry : Expiry) (now : Int) (invalidExpire : String) :
    Except Failure TtlChange :=
  match expiry with
  | .unset => .ok (.set 0)
  | .persist => .ok (.set 0)
  | .keep => .ok .keep
  | .after millis =>
    match checkedI64 (now + millis) with
    | some deadline => .ok (.set (ttlFromDeadline deadline now))
    | none => .error (.client invalidExpire)
  | .at_ millis => .ok (.set (ttlFromDeadline millis now))

/-- The deadline of `EXPIRE` and `EXPIREAT`. -/
def expireDeadline (expiry : Expiry) (now : Int) : Int :=
  match expiry with
  | .after millis => saturate (now + millis)
  | .at_ millis => millis
  | _ => now

/-! ### Translation -/

/-- `delta_of`. -/
def deltaOf : Resp.Number → Delta
  | .int value => .int value i64Min i64Max
  | .float value => .float value ⟨0xFFEFFFFFFFFFFFFF⟩ ⟨0x7FEFFFFFFFFFFFFF⟩

/-- `bound_int`. -/
def boundInt (bound : Option Resp.Number) (default : Int) : Except Failure Int :=
  match bound with
  | none => .ok default
  | some (.int value) => .ok value
  | some (.float _) => .error (.client "value is not an integer or out of range")

/-- `bound_float`. -/
def boundFloat (bound : Option Resp.Number) (default : F64) : F64 :=
  match bound with
  | none => default
  | some (.int value) => F64.ofInt value
  | some (.float value) => value

/-- The lifetime an `INCREX` asks for. -/
def incrExTtl (op : IncrEx) (now : Int) : Except Failure TtlChange :=
  match op.expiry with
  | none => .ok .keep
  | some .persist => .ok (.set 0)
  | some .unset => .ok .keep
  | some .keep => .ok .keep
  | some expiry => do
    match ← ttlChangeFor expiry now "invalid expire time in 'increx' command" with
    | .set ttlSecs =>
      return if op.onlyIfPersistent then .setIfPersistent ttlSecs else .set ttlSecs
    | _ => throw .internal

/-- The step and the bounds of an `INCREX`. -/
def incrExDelta (op : IncrEx) : Except Failure Delta :=
  match op.delta with
  | .int delta => do
    let lower ← boundInt op.lower i64Min
    let upper ← boundInt op.upper i64Max
    return .int delta lower upper
  | .float delta => .ok (.float delta (boundFloat op.lower ⟨0xFFEFFFFFFFFFFFFF⟩)
      (boundFloat op.upper ⟨0x7FEFFFFFFFFFFFFF⟩))

/-- `translate_increx`. -/
def translateIncrEx (op : IncrEx) (now : Int) : Except Failure Arithmetic := do
  let delta ← incrExDelta op
  let ttl ← incrExTtl op now
  return ⟨← keyOf op.key, delta, if op.saturate then .clamp else .skip, .createAtZero, ttl⟩

/-- The mode of a conditional write. -/
def setMode : Condition → SetMode
  | .always => .set
  | .ifAbsent => .add
  | .ifPresent => .replace

/-- The guard of a conditional batch. -/
def batchGuard : Condition → BatchGuard
  | .always => .always
  | .ifAbsent => .ifAllAbsent
  | .ifPresent => .ifAllPresent

/-- The guard of a conditional `EXPIRE`. -/
def expireGuard : ExpireCondition → ExpireGuard
  | .always => .always
  | .ifPersistent => .ifPersistent
  | .ifVolatile => .ifVolatile
  | .ifLater => .ifLater
  | .ifEarlier => .ifEarlier

/-- The message of an expiry that `SET` or `SETTAGS` cannot represent. -/
def invalidExpireSet (tagged : Bool) : String :=
  if tagged then "invalid expire time in 'settags' command"
  else "invalid expire time in 'set' command"

/-- The message of an expiry that `MSETEX` or `MSETTAGS` cannot represent. -/
def invalidExpireMSetEx (tagged : Bool) : String :=
  if tagged then "invalid expire time in 'msettags' command"
  else "invalid expire time in 'msetex' command"

/-- `translate`, with the clock at `now`. -/
def translate (now : Nat) : Resp.Command → Except Failure Command
  | .ping _ => return .ping
  | .get key => return .get (← keyOf key)
  | .mGet keys => return .getMany (← keys.mapM keyOf)
  | .exists_ keys => return .deadlines (← keys.mapM keyOf)
  | .type key => return .deadline (← keyOf key)
  | .ttl key => return .deadline (← keyOf key)
  | .delete keys => return .deleteMany (← keys.mapM keyOf)
  | .set set => do
    let key ← keyOf set.key
    let ttl ← ttlChangeFor set.expiry (asI64 now) (invalidExpireSet set.tagged)
    return .set ⟨key, set.value, ttl, 0, set.tags, setMode set.condition, set.returnPrevious⟩
  | .mSet pairs => do
    let sets ← pairs.mapM fun pair => do
      return ⟨← keyOf pair.1, pair.2, .set 0, 0, [], .set, false⟩
    return .setMany sets .always
  | .mSetEx pairs condition expiry tags tagged => do
    let ttl ← ttlChangeFor expiry (asI64 now) (invalidExpireMSetEx tagged)
    let sets ← pairs.mapM fun pair => do
      return ⟨← keyOf pair.1, pair.2, ttl, 0, tags, .set, false⟩
    return .setMany sets (batchGuard condition)
  | .append key value => return .append (← keyOf key) value
  | .expire key expiry condition => do
    let deadline := expireDeadline expiry (asI64 now)
    return .expire (← keyOf key) (.set (ttlFromDeadline deadline (asI64 now)))
      (expireGuard condition)
  | .persist key => return .expire (← keyOf key) (.set 0) .ifVolatile
  | .incr key delta => return .arithmetic ⟨← keyOf key, deltaOf delta, .fail, .createAtZero, .keep⟩
  | .incrEx op => return .arithmetic (← translateIncrEx op (asI64 now))
  | .info _ => return .stats
  -- answered before they get here
  | .quit => throw .internal
  | .auth _ => throw .internal
  | .hello _ _ => throw .internal
  | .scan _ => throw .internal
  | .slowlog _ => throw .internal
  | .delByTag _ => throw .internal

/-! ### Rendering -/

/-- `TTL_MISSING`. -/
def ttlMissing : Int := -2

/-- `TTL_PERSISTENT`. -/
def ttlPersistent : Int := -1

/-- The remaining seconds of a deadline, as `TTL` answers them at `now`. -/
def remainingSeconds (now deadline : Nat) : Int := (asI64 (deadline - now) + 500).tdiv 1000

/-- What `TTL` answers for a deadline. -/
def ttlAnswer (now : Nat) : Option Nat → Int
  | none => ttlMissing
  | some deadline => if deadline = never then ttlPersistent else remainingSeconds now deadline

/-- `number_of`. -/
def numberOf : Number → Except Failure Resp.Number
  | .int value => .ok (.int value)
  | .float value => .ok (.float value)
  | .counter _ => .error .internal

/-- What the shared executor answers. -/
inductive Answer where
  | pong
  | stats (counters : List (Bytes × Bytes))
  | reply (reply : Reply)
  deriving DecidableEq, Repr

section Render
variable (floats : FloatOps) (infoText : Sections → List (Bytes × Bytes) → Bytes)

/-- One number of the answer of `INCREX`. -/
def renderNumber (version : Version) : Resp.Number → Bytes
  | .int value => Encode.integer value
  | .float value => Encode.double floats value version

/-- A value, or the null of the dialect. -/
def renderValue (version : Version) : Option Value → Bytes
  | some value => Encode.bulk value.data
  | none => Encode.null version

/-- `render`: what is appended to the output. The text of `INFO` comes in as
`infoText`. -/
def render (now : Nat) (version : Version) : Resp.Command → Answer → Except Failure Bytes
  | .ping (some message), _ => .ok (Encode.bulk message)
  | .ping none, _ => .ok (Encode.simple (ascii "PONG"))
  | .info sections, .stats counters => .ok (Encode.verbatim (infoText sections counters) version)
  | _, .reply (.value value) => .ok (Encode.bulk value.data)
  | .get _, .reply .notFound => .ok (Encode.null version)
  | _, .reply (.values values) =>
    .ok (Encode.array values.length ++ values.flatMap (renderValue version))
  | .exists_ _, .reply (.deadlines found) => .ok (Encode.integer (found.countP Option.isSome))
  | .type _, .reply (.deadline deadline) =>
    .ok (Encode.simple (if deadline.isSome then ascii "string" else ascii "none"))
  | .ttl _, .reply (.deadline deadline) => .ok (Encode.integer (ttlAnswer now deadline))
  | .delete _, .reply (.deletedMany hits) => .ok (Encode.integer (hits.countP id))
  | .set _, .reply (.swapped _ previous) => .ok (renderValue version previous)
  | .set _, .reply (.stored (.stored _)) => .ok Encode.ok
  | .set _, .reply (.stored _) => .ok (Encode.null version)
  | .mSet _, .reply (.storedMany _) => .ok Encode.ok
  | .mSetEx .., .reply (.storedMany _) => .ok (Encode.integer 1)
  | .mSetEx .., .reply (.stored .notStored) => .ok (Encode.integer 0)
  | .append _ _, .reply (.length length) => .ok (Encode.integer length)
  | .expire .., .reply (.applied applied) => .ok (Encode.integer applied.toNat)
  | .persist _, .reply (.applied applied) => .ok (Encode.integer applied.toNat)
  | .incr _ _, .reply (.arithmetic applied) => do
    match ← numberOf applied.value with
    | .int value => return Encode.integer value
    | .float value => return Encode.bulk (formatFloat floats value)
  | .incrEx _, .reply (.arithmetic applied) => do
    let value ← numberOf applied.value
    let moved ← numberOf applied.applied
    return Encode.array 2 ++ renderNumber floats version value ++
      renderNumber floats version moved
  | _, _ => .error .internal

section Run
variable {n : Nat} [NeZero n] (node : Node.VashStore n)

/-- The last arm of `run`, for the commands that read or write records: translated, executed
and rendered. A failure of the store ends the call, in the words of `respError`. -/
def runRecord (now : Nat) (version : Version) (command : Resp.Command) :
    Option (Node.NodeCall n (Except Failure Bytes)) :=
  match translate now command with
  | .error failure => some (return .error failure)
  | .ok domain => (executeRecord node domain).map fun call => do
    return render floats infoText now version command (.reply (← call))

end Run

end Render

end Vash.Server.Resp
