import Vash.Proto.Resp
import Vash.Core.Rounding

/-!
# The Redis dialect: commands

`parse_command` reads the arguments of a framed command. The helpers of the source carry
the number of consumed bytes along only to put it into their errors; here they return the
error, and the count is attached at the end (`parseCommand`).

An index or a slice out of range panics in the source; `index` and `slice` say so.
-/

namespace Vash.Resp

/-! ### What the arguments become -/

/-- `Number`. -/
inductive Number where
  | int (value : Int)
  | float (value : F64)
  deriving DecidableEq, Repr

/-- `Condition`. -/
inductive Condition where
  | always
  | ifAbsent
  | ifPresent
  deriving DecidableEq, Repr

/-- `ExpireCondition`. -/
inductive ExpireCondition where
  | always
  | ifPersistent
  | ifVolatile
  | ifLater
  | ifEarlier
  deriving DecidableEq, Repr

/-- `Expiry`, in milliseconds. -/
inductive Expiry where
  | unset
  | after (millis : Int)
  | at_ (millis : Int)
  | keep
  | persist
  deriving DecidableEq, Repr

/-- `Credential`. -/
structure Credential where
  name : Option Bytes
  secret : Bytes
  deriving DecidableEq, Repr

/-- `Set`. -/
structure SetArgs where
  key : Bytes
  value : Bytes
  condition : Condition
  expiry : Expiry
  returnPrevious : Bool
  tags : List Bytes
  tagged : Bool
  deriving DecidableEq, Repr

/-- `IncrEx`. -/
structure IncrEx where
  key : Bytes
  delta : Number
  lower : Option Number
  upper : Option Number
  saturate : Bool
  expiry : Option Expiry
  onlyIfPersistent : Bool
  deriving DecidableEq, Repr

/-- `Scan`. -/
structure Scan where
  token : Nat
  pattern : Bytes
  count : Nat
  onlyStrings : Bool
  deriving DecidableEq, Repr

/-- `SlowlogSub`. -/
inductive SlowlogSub where
  | get (count : Option Int)
  | len
  | reset
  | help
  deriving DecidableEq, Repr

/-- `Section`, in the order `INFO` prints them. -/
inductive InfoSection where
  | server
  | clients
  | memory
  | persistence
  | stats
  | replication
  | cluster
  | keyspace
  | vash
  deriving DecidableEq, Repr

namespace InfoSection

/-- `Section::ALL`. -/
def all : List InfoSection :=
  [.server, .clients, .memory, .persistence, .stats, .replication, .cluster, .keyspace, .vash]

def title : InfoSection → String
  | .server => "Server"
  | .clients => "Clients"
  | .memory => "Memory"
  | .persistence => "Persistence"
  | .stats => "Stats"
  | .replication => "Replication"
  | .cluster => "Cluster"
  | .keyspace => "Keyspace"
  | .vash => "Vash"

end InfoSection

/-- `Sections`: a bit for each section. -/
structure Sections where
  bits : Nat
  deriving DecidableEq, Repr

namespace Sections

/-- `Sections::NONE`. -/
def none : Sections := ⟨0⟩

/-- `Sections::DEFAULT`. -/
def default : Sections := ⟨0b11111111⟩

/-- `Sections::ALL`. -/
def all : Sections := ⟨0b111111111⟩

/-- `Sections::with`. -/
def add (sections : Sections) (part : InfoSection) : Sections :=
  ⟨sections.bits ||| 1 <<< part.ctorIdx⟩

end Sections

/-- `Command`. -/
inductive Command where
  | hello (version : Option Int) (auth : Option Credential)
  | ping (message : Option Bytes)
  | quit
  | auth (credential : Credential)
  | get (key : Bytes)
  | set (set : SetArgs)
  | delete (keys : List Bytes)
  | mGet (keys : List Bytes)
  | mSet (pairs : List (Bytes × Bytes))
  | mSetEx (pairs : List (Bytes × Bytes)) (condition : Condition) (expiry : Expiry)
      (tags : List Bytes) (tagged : Bool)
  | exists_ (keys : List Bytes)
  | type (key : Bytes)
  | append (key value : Bytes)
  | delByTag (tags : List Bytes)
  | expire (key : Bytes) (expiry : Expiry) (condition : ExpireCondition)
  | persist (key : Bytes)
  | ttl (key : Bytes)
  | incr (key : Bytes) (delta : Number)
  | incrEx (op : IncrEx)
  | scan (scan : Scan)
  | info (sections : Sections)
  | slowlog (sub : SlowlogSub)
  deriving DecidableEq, Repr

/-- Why no command comes out. -/
inductive Halt where
  | refused (reply : ErrorReply)
  | panicked
  deriving DecidableEq, Repr

abbrev ParseM := Except Halt

/-- Ends with an error reply. -/
def refuse {α : Type} (reply : ErrorReply) : ParseM α := throw (.refused reply)

/-- A value, or the error of its absence. -/
def required {α : Type} (absent : ErrorReply) : Option α → ParseM α
  | some value => return value
  | none => refuse absent

/-! ### Arguments -/

/-- `args[i]`. -/
def index (args : List Bytes) (i : Nat) : ParseM Bytes :=
  match args[i]? with
  | some arg => return arg
  | none => throw .panicked

/-- `args[first..last]`. -/
def slice (args : List Bytes) (first last : Nat) : ParseM (List Bytes) :=
  if first ≤ last ∧ last ≤ args.length then return (args.take last).drop first
  else throw .panicked

/-- `args[first..]`. -/
def sliceFrom (args : List Bytes) (first : Nat) : ParseM (List Bytes) :=
  slice args first args.length

def exactly (args : List Bytes) (count : Nat) (name : String) : ParseM Unit :=
  if args.length ≠ count then refuse (.wrongArity name) else return

def atLeast (args : List Bytes) (count : Nat) (name : String) : ParseM Unit :=
  if args.length < count then refuse (.wrongArity name) else return

/-- `pairs`. -/
def pairs : List Bytes → List (Bytes × Bytes)
  | key :: value :: rest => (key, value) :: pairs rest
  | _ => []

/-- `u8::to_ascii_uppercase`. -/
def upper (b : UInt8) : UInt8 := if 97 ≤ b ∧ b ≤ 122 then b - 32 else b

/-- `eq_ignore_ascii_case`, and `eq`. -/
def eqIgnoreCase (token name : Bytes) : Bool := token.map upper = name.map upper

/-- `MAX_VERB_LEN`. -/
def maxVerbLen : Nat := 16

/-- `upper_verb`: a name too long to be a verb comes back empty. -/
def upperVerb (raw : Bytes) : Bytes := if raw.length > maxVerbLen then [] else raw.map upper

/-- `Sections::named`. -/
def Sections.named (name : Bytes) : Option InfoSection :=
  InfoSection.all.find? fun part => eqIgnoreCase name (ascii part.title)

/-! ### Options -/

/-- The loop over the option tokens of a command, which number at most `fuel`. The step
gets what follows its token and hands on what it leaves. -/
def Options.walk {σ : Type} (step : σ → Bytes → List Bytes → ParseM (σ × List Bytes)) :
    Nat → σ → List Bytes → ParseM σ
  | _, s, [] => return s
  | 0, s, _ :: _ => return s
  | fuel + 1, s, token :: rest => do
    let (s, rest) ← step s token rest
    walk step fuel s rest

/-- `Options::argument`: the value of the option just met. -/
def Options.argument : List Bytes → ParseM (Bytes × List Bytes)
  | [] => refuse .syntaxError
  | token :: rest => return (token, rest)

/-- `Options::set_condition`. -/
def Options.setCondition (slot value : Condition) : ParseM Condition :=
  if slot ≠ .always then refuse .syntaxError else return value

/-- `Options::set_expiry`. -/
def Options.setExpiry (slot value : Expiry) : ParseM Expiry :=
  if slot ≠ .unset then refuse .syntaxError else return value

/-- The unit of an expiry option in milliseconds, and whether it is a stamp. -/
def expiryUnit (token : Bytes) : Option (Int × Bool) :=
  if eqIgnoreCase token (ascii "EX") then some (1000, false)
  else if eqIgnoreCase token (ascii "PX") then some (1, false)
  else if eqIgnoreCase token (ascii "EXAT") then some (1000, true)
  else if eqIgnoreCase token (ascii "PXAT") then some (1, true)
  else none

/-- `Options::expiry`. -/
def Options.expiry (name : String) (keepTtl : Bool) (token : Bytes) (rest : List Bytes) :
    ParseM (Option (Expiry × List Bytes)) :=
  if keepTtl ∧ eqIgnoreCase token (ascii "KEEPTTL") then return some (.keep, rest)
  else match expiryUnit token with
  | none => return none
  | some (unitMs, absolute) => do
    let (raw, rest) ← argument rest
    let value ← required .notAnInteger (parseInt raw)
    let millis ← required (.invalidExpire name)
      ((checkedI64 (value * unitMs)).filter fun millis => decide (millis > 0))
    return some (if absolute then .at_ millis else .after millis, rest)

/-! ### The commands with options -/

/-- `check_tag`. -/
def checkTag (tag : Bytes) : ParseM Bytes :=
  if tag = [] ∨ tag.length > maxTagLen then refuse (.err "invalid tag") else return tag

/-- `tag_list`: the tags counted from `at_` on, and where the options begin. -/
def tagList (args : List Bytes) (at_ : Nat) (tagged : Bool) (name : String) :
    ParseM (List Bytes × Nat) := do
  if !tagged then return ([], at_)
  let count ← required .notAnInteger (parseInt (← index args at_))
  if count < 0 then refuse (.err "numtags should be greater than or equal to 0")
  if count.toNat > absoluteMaxTags then refuse (.err "too many tags")
  let first := at_ + 1
  let last := first + count.toNat
  if args.length < last then refuse (.wrongArity name)
  let tags ← (← slice args first last).mapM checkTag
  return (tags, last)

/-- One option of `SET` and `SETTAGS`. -/
def setOption (name : String) (set : SetArgs) (token : Bytes) (rest : List Bytes) :
    ParseM (SetArgs × List Bytes) := do
  if eqIgnoreCase token (ascii "NX") then
    return ({ set with condition := ← Options.setCondition set.condition .ifAbsent }, rest)
  else if eqIgnoreCase token (ascii "XX") then
    return ({ set with condition := ← Options.setCondition set.condition .ifPresent }, rest)
  else if eqIgnoreCase token (ascii "GET") then
    return ({ set with returnPrevious := true }, rest)
  else match ← Options.expiry name true token rest with
  | some (expiry, rest) =>
    return ({ set with expiry := ← Options.setExpiry set.expiry expiry }, rest)
  | none =>
    if eqIgnoreCase token (ascii "IFEQ") ∨ eqIgnoreCase token (ascii "IFNE") ∨
        eqIgnoreCase token (ascii "IFDEQ") ∨ eqIgnoreCase token (ascii "IFDNE") then
      refuse (.err "SET value conditions (IFEQ, IFNE, IFDEQ, IFDNE) are not supported")
    else refuse .syntaxError

/-- `parse_set`. -/
def parseSet (args : List Bytes) (tagged : Bool) : ParseM Command := do
  let name := if tagged then "settags" else "set"
  atLeast args (if tagged then 4 else 3) name
  let (tags, optionsAt) ← tagList args 3 tagged name
  let set : SetArgs := ⟨← index args 1, ← index args 2, .always, .unset, false, tags, tagged⟩
  let options ← sliceFrom args optionsAt
  return .set (← Options.walk (setOption name) options.length set options)

/-- One option of `MSETEX` and `MSETTAGS`. -/
def mSetOption (name : String) (state : Condition × Expiry) (token : Bytes)
    (rest : List Bytes) : ParseM ((Condition × Expiry) × List Bytes) := do
  if eqIgnoreCase token (ascii "NX") then
    return ((← Options.setCondition state.1 .ifAbsent, state.2), rest)
  else if eqIgnoreCase token (ascii "XX") then
    return ((← Options.setCondition state.1 .ifPresent, state.2), rest)
  else match ← Options.expiry name true token rest with
  | some (expiry, rest) => return ((state.1, ← Options.setExpiry state.2 expiry), rest)
  | none => refuse .syntaxError

/-- `parse_msetex`. -/
def parseMSetEx (args : List Bytes) (tagged : Bool) : ParseM Command := do
  let name := if tagged then "msettags" else "msetex"
  atLeast args (if tagged then 5 else 4) name
  let count ← required .notAnInteger (parseInt (← index args 1))
  if count ≤ 0 then refuse (.err "numkeys should be greater than 0")
  if count.toNat > maxBatchItems then refuse (.err "too many keys")
  let body := 2 + count.toNat * 2
  if args.length < body then refuse (.wrongArity name)
  let (tags, optionsAt) ← tagList args body tagged name
  let options ← sliceFrom args optionsAt
  let (condition, expiry) ← Options.walk (mSetOption name) options.length (.always, .unset) options
  return .mSetEx (pairs (← slice args 2 body)) condition expiry tags tagged

/-- `parse_expire`. -/
def parseExpire (args : List Bytes) (name : String) (absolute : Bool) : ParseM Command := do
  atLeast args 3 name
  let value ← required .notAnInteger (parseInt (← index args 2))
  let millis ← required (.invalidExpire name) (checkedI64 (value * 1000))
  let expiry := if absolute then Expiry.at_ millis else Expiry.after millis
  let condition ← match args[3]? with
    | none => pure ExpireCondition.always
    | some token =>
      if args.length > 4 then refuse .syntaxError
      else if eqIgnoreCase token (ascii "NX") then pure .ifPersistent
      else if eqIgnoreCase token (ascii "XX") then pure .ifVolatile
      else if eqIgnoreCase token (ascii "GT") then pure .ifLater
      else if eqIgnoreCase token (ascii "LT") then pure .ifEarlier
      else refuse .syntaxError
  return .expire (← index args 1) expiry condition

/-- `as_float`. -/
def asFloat : Number → F64
  | .int value => F64.ofInt value
  | .float value => value

section Floats
variable (floats : FloatOps)

/-- What the options of `INCREX` have said so far. -/
structure IncrExOptions where
  delta : Option Number := none
  lowerToken : Option Bytes := none
  upperToken : Option Bytes := none
  saturate : Bool := false
  expiry : Option Expiry := none
  onlyIfPersistent : Bool := false
  deriving DecidableEq, Repr

/-- One option of `INCREX`. -/
def incrExOption (o : IncrExOptions) (token : Bytes) (rest : List Bytes) :
    ParseM (IncrExOptions × List Bytes) := do
  if eqIgnoreCase token (ascii "BYINT") ∨ eqIgnoreCase token (ascii "BYFLOAT") then
    if o.delta.isSome then refuse .syntaxError
    let (value, rest) ← Options.argument rest
    let delta ← if eqIgnoreCase token (ascii "BYINT") then
        Number.int <$> required .notAnInteger (parseInt value)
      else Number.float <$> required .notAFloat (parseFloat floats value)
    return ({ o with delta := some delta }, rest)
  else if eqIgnoreCase token (ascii "LBOUND") then
    let (value, rest) ← Options.argument rest
    return ({ o with lowerToken := some value }, rest)
  else if eqIgnoreCase token (ascii "UBOUND") then
    let (value, rest) ← Options.argument rest
    return ({ o with upperToken := some value }, rest)
  else if eqIgnoreCase token (ascii "SATURATE") then
    return ({ o with saturate := true }, rest)
  else if eqIgnoreCase token (ascii "ENX") then
    return ({ o with onlyIfPersistent := true }, rest)
  else if eqIgnoreCase token (ascii "PERSIST") then
    if o.expiry.isSome then refuse .syntaxError
    return ({ o with expiry := some .persist }, rest)
  else match ← Options.expiry "increx" false token rest with
  | some (expiry, rest) =>
    if o.expiry.isSome then refuse .syntaxError
    return ({ o with expiry := some expiry }, rest)
  | none => refuse .syntaxError

/-- A bound, read in the mode of the increment. -/
def readBound (delta : Number) : Option Bytes → ParseM (Option Number)
  | none => return none
  | some token =>
    match delta with
    | .int _ => (some ∘ Number.int) <$> required .notAnInteger (parseInt token)
    | .float _ => (some ∘ Number.float) <$> required .notAFloat (parseFloat floats token)

/-- The bounds are in the wrong order, as floating-point numbers. -/
def boundsCrossed : Option Number → Option Number → Bool
  | some low, some high => (asFloat high).lt (asFloat low)
  | _, _ => false

/-- Whether an expiry option names a deadline. -/
def isDeadline : Option Expiry → Bool
  | some (.after _) => true
  | some (.at_ _) => true
  | _ => false

/-- `parse_increx`. -/
def parseIncrEx (args : List Bytes) : ParseM Command := do
  atLeast args 2 "increx"
  let options ← sliceFrom args 2
  let o ← Options.walk (incrExOption floats) options.length {} options
  let delta := o.delta.getD (.int 1)
  let lower ← readBound floats delta o.lowerToken
  let upper ← readBound floats delta o.upperToken
  if boundsCrossed lower upper then refuse (.err "LBOUND must be less than or equal to UBOUND")
  if o.onlyIfPersistent ∧ ¬ isDeadline o.expiry then refuse .syntaxError
  return .incrEx ⟨← index args 1, delta, lower, upper, o.saturate, o.expiry, o.onlyIfPersistent⟩

/-- `has_unescaped_class`. -/
def hasUnescapedClass : Bytes → Bool
  | [] => false
  | b :: rest =>
    if b = globEscape then
      match rest with
      | [] => false
      | _ :: rest => hasUnescapedClass rest
    else if b = 91 then true
    else hasUnescapedClass rest

/-- One option of `SCAN`. -/
def scanOption (scan : Scan) (token : Bytes) (rest : List Bytes) :
    ParseM (Scan × List Bytes) := do
  if eqIgnoreCase token (ascii "MATCH") then
    let (pattern, rest) ← Options.argument rest
    if hasUnescapedClass pattern then
      refuse (.err "character classes are not supported in MATCH")
    match globValidate pattern with
    | .error _ => refuse (.err "invalid MATCH pattern")
    | .ok _ => return ({ scan with pattern }, rest)
  else if eqIgnoreCase token (ascii "COUNT") then
    let (raw, rest) ← Options.argument rest
    let count ← required .notAnInteger (parseInt raw)
    if count ≤ 0 then refuse .syntaxError
    return ({ scan with count := min count.toNat maxListLimit }, rest)
  else if eqIgnoreCase token (ascii "TYPE") then
    let (kind, rest) ← Options.argument rest
    return ({ scan with onlyStrings := eqIgnoreCase kind (ascii "string") }, rest)
  else refuse .syntaxError

/-- `parse_scan`. -/
def parseScan (args : List Bytes) : ParseM Command := do
  atLeast args 2 "scan"
  let token ← required (.err "invalid cursor") (parseU64 (← index args 1))
  let options ← sliceFrom args 2
  return .scan (← Options.walk scanOption options.length ⟨token, [], 10, true⟩ options)

/-- `parse_slowlog`. -/
def parseSlowlog (args : List Bytes) : ParseM Command := do
  match args[1]? with
  | none => refuse (.wrongArity "slowlog")
  | some sub =>
    let only (name : String) (parsed : SlowlogSub) : ParseM Command :=
      if args.length = 2 then return .slowlog parsed else refuse (.wrongArity name)
    if eqIgnoreCase sub (ascii "GET") then
      if args.length = 2 then return .slowlog (.get none)
      else if args.length = 3 then
        let count ← required (.err "count should be greater than or equal to -1")
          ((parseInt (← index args 2)).filter fun n => decide (n ≥ -1))
        return .slowlog (.get (some count))
      else refuse (.wrongArity "slowlog|get")
    else if eqIgnoreCase sub (ascii "LEN") then only "slowlog|len" .len
    else if eqIgnoreCase sub (ascii "RESET") then only "slowlog|reset" .reset
    else if eqIgnoreCase sub (ascii "HELP") then only "slowlog|help" .help
    else refuse (.unknownSubcommand "SLOWLOG" sub)

/-! ### The verbs -/

/-- `HELLO`. -/
def parseHello (args : List Bytes) : ParseM Command := do
  let version ← match args[1]? with
    | none => pure none
    | some token =>
      some <$> required (.coded "NOPROTO" "unsupported protocol version") (parseInt token)
  if args.length ≤ 2 then return .hello version none
  else
    let option ← index args 2
    if args.length = 5 ∧ eqIgnoreCase option (ascii "AUTH") then
      return .hello version (some ⟨some (← index args 3), ← index args 4⟩)
    else refuse (.err ("HELLO option SETNAME is not supported, and AUTH takes a username " ++
      "and a password"))

/-- `AUTH`. -/
def parseAuth (args : List Bytes) : ParseM Command := do
  if args.length = 2 then return .auth ⟨none, ← index args 1⟩
  else if args.length = 3 then return .auth ⟨some (← index args 1), ← index args 2⟩
  else if args.length = 1 then refuse (.wrongArity "auth")
  else refuse .syntaxError

/-- `PING`. -/
def parsePing (args : List Bytes) : ParseM Command := do
  if args.length = 1 then return .ping none
  else if args.length = 2 then return .ping (some (← index args 1))
  else refuse (.wrongArity "ping")

/-- The verbs that take one key. -/
def oneKey (name : String) (make : Bytes → Command) (args : List Bytes) : ParseM Command := do
  exactly args 2 name
  return make (← index args 1)

/-- The verbs that take a list of keys. -/
def someKeys (name : String) (make : List Bytes → Command) (args : List Bytes) :
    ParseM Command := do
  atLeast args 2 name
  return make (← sliceFrom args 1)

/-- `MSET`. -/
def parseMSet (args : List Bytes) : ParseM Command := do
  atLeast args 3 "mset"
  if args.length % 2 ≠ 1 then refuse (.wrongArity "mset")
  return .mSet (pairs (← sliceFrom args 1))

/-- `DELBYTAG`. -/
def parseDelByTag (args : List Bytes) : ParseM Command := do
  atLeast args 2 "delbytag"
  return .delByTag (← (← sliceFrom args 1).mapM checkTag)

/-- `APPEND`. -/
def parseAppend (args : List Bytes) : ParseM Command := do
  exactly args 3 "append"
  return .append (← index args 1) (← index args 2)

/-- `INCRBY` and `DECRBY`. -/
def parseIncrBy (name : String) (negate : Bool) (args : List Bytes) : ParseM Command := do
  exactly args 3 name
  let magnitude ← required .notAnInteger (parseInt (← index args 2))
  let delta ← if negate then required .overflow (checkedI64 (-magnitude)) else pure magnitude
  return .incr (← index args 1) (.int delta)

/-- `INCRBYFLOAT`. -/
def parseIncrByFloat (args : List Bytes) : ParseM Command := do
  exactly args 3 "incrbyfloat"
  let delta ← required .notAFloat (parseFloat floats (← index args 2))
  return .incr (← index args 1) (.float delta)

/-- `INFO`. -/
def parseInfo (args : List Bytes) : ParseM Command := do
  let names ← sliceFrom args 1
  let start := if args.length = 1 then Sections.default else Sections.none
  return .info (names.foldl (fun sections name =>
    if eqIgnoreCase name (ascii "all") ∨ eqIgnoreCase name (ascii "everything") then .all
    else (Sections.named name).elim sections sections.add) start)

/-- The parsers of the verbs. -/
def verbs : List (Bytes × (List Bytes → ParseM Command)) :=
  [(ascii "HELLO", parseHello),
   (ascii "AUTH", parseAuth),
   (ascii "PING", parsePing),
   (ascii "QUIT", fun _ => return .quit),
   (ascii "GET", oneKey "get" .get),
   (ascii "SET", fun args => parseSet args false),
   (ascii "SETTAGS", fun args => parseSet args true),
   (ascii "DEL", someKeys "del" .delete),
   (ascii "UNLINK", someKeys "unlink" .delete),
   (ascii "MGET", someKeys "mget" .mGet),
   (ascii "MSET", parseMSet),
   (ascii "MSETEX", fun args => parseMSetEx args false),
   (ascii "MSETTAGS", fun args => parseMSetEx args true),
   (ascii "DELBYTAG", parseDelByTag),
   (ascii "EXISTS", someKeys "exists" .exists_),
   (ascii "TYPE", oneKey "type" .type),
   (ascii "APPEND", parseAppend),
   (ascii "EXPIRE", fun args => parseExpire args "expire" false),
   (ascii "EXPIREAT", fun args => parseExpire args "expireat" true),
   (ascii "PERSIST", oneKey "persist" .persist),
   (ascii "TTL", oneKey "ttl" .ttl),
   (ascii "INCR", oneKey "incr" fun key => .incr key (.int 1)),
   (ascii "DECR", oneKey "decr" fun key => .incr key (.int (-1))),
   (ascii "INCRBY", parseIncrBy "incrby" false),
   (ascii "DECRBY", parseIncrBy "decrby" true),
   (ascii "INCRBYFLOAT", parseIncrByFloat floats),
   (ascii "INCREX", parseIncrEx floats),
   (ascii "SCAN", parseScan),
   (ascii "SLOWLOG", parseSlowlog),
   (ascii "INFO", parseInfo)]

/-- The command the arguments stand for. -/
def parseArgs (args : List Bytes) : ParseM Command := do
  let rawVerb ← index args 0
  match (verbs floats).lookup (upperVerb rawVerb) with
  | some parser => parser args
  | none => refuse (.unknownCommand rawVerb)

/-! ### The verdicts -/

/-- `ProtocolError`. -/
inductive ProtocolError where
  | recoverable (reply : ErrorReply) (consumed : Nat)
  | fatal (detail : String)
  deriving DecidableEq, Repr

/-- `Parsed`. -/
structure Parsed where
  command : Command
  consumed : Nat
  deriving DecidableEq, Repr

/-- `Outcome`. -/
inductive Outcome where
  | incomplete
  | command (parsed : Parsed)
  deriving DecidableEq, Repr

/-- What a parse comes to. -/
inductive Verdict where
  | outcome (outcome : Outcome)
  | error (error : ProtocolError)
  | panicked
  deriving DecidableEq, Repr

/-- `parse_command`. -/
def parseCommand (args : List Bytes) (consumed : Nat) : Verdict :=
  match parseArgs floats args with
  | .ok command => .outcome (.command ⟨command, consumed⟩)
  | .error (.refused reply) => .error (.recoverable reply consumed)
  | .error .panicked => .panicked

/-- `parse`. -/
def parse (buf : Bytes) : Verdict :=
  match frame buf (parseCommand floats) with
  | .error fatal => .error (.fatal fatal.detail)
  | .ok none => .outcome .incomplete
  | .ok (some verdict) => verdict

end Floats

end Vash.Resp
