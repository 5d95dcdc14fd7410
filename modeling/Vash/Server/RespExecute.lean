import Vash.Proto.RespSafety
import Vash.Server.Auth
import Vash.Server.Resp
import Vash.Store.Listing

/-!
# Executing one Redis command

`resp::execute` from the gate to the reply, over a server whose store may answer anything and
may fail at any point of a read, also after it handed values out to be rendered.

* `execute_one_value_iff` — one value is appended, unless a fused read fails where what is
  already written and the error after it do not make one.
-/

namespace Vash.Server.Resp

open Vash.Resp

/-! ### The server a command meets -/

/-- What one `get_with` does: it renders the live value, finds none, or fails, perhaps with the
value already rendered. -/
inductive GetRead where
  | hit (value : Value)
  | miss
  | failed (rendered : Option Value) (error : Store.StoreError)

/-- What one `get_many_with` does over `count` keys: it renders them in order, all of them
unless it fails on the way. -/
structure BatchRead (count : Nat) where
  rendered : List (Option Value)
  failure : Option Store.StoreError
  atMost : rendered.length ≤ count
  whole : failure = none → rendered.length = count

/-- What `dispatch::execute` replies. -/
inductive Executed where
  | answer (answer : Answer)
  | listing (page : Listing)
  | invalidated (hit : Bool)

/-- `slowlog::Entry`, as much as is rendered of it. -/
structure SlowlogEntry where
  id : Nat
  timestamp : Nat
  queueUs : Nat
  execUs : Nat
  command : Bytes
  key : Bytes
  digest : Nat
  peer : Bytes

/-- The slowlog as it stands. -/
structure Slowlog where
  len : Nat
  entries : Nat → List SlowlogEntry

/-- `ServerState`, as one command meets it. A command that reaches the executor more than once
is answered by the number of the call. A build without introspection has no slowlog. -/
structure ServerState where
  auth : AuthState
  getWith : Bytes → GetRead
  getManyWith : (keys : List Bytes) → BatchRead keys.length
  execute : Nat → Command → Except Failed Executed
  resolve : Nat → Option Bytes
  issue : Bytes → Nat
  slowlog : Option Slowlog
  listingEnabled : Bool
  translatedAt : Nat
  renderedAt : Nat

/-! ### The gate -/

/-- `roles_for`, with the name a refusal gives. -/
def rolesFor : Resp.Command → Roles × String
  | .hello _ _ => (.none, "hello")
  | .ping _ => (.none, "ping")
  | .quit => (.none, "quit")
  | .auth _ => (.none, "auth")
  | .info _ => (.none, "info")
  | .get _ => (.read, "get")
  | .mGet _ => (.read, "mget")
  | .exists_ _ => (.read, "exists")
  | .type _ => (.read, "type")
  | .ttl _ => (.read, "ttl")
  | .set set => (if set.returnPrevious then .readWrite else .write, "set")
  | .mSet _ => (.write, "mset")
  | .mSetEx .. => (.write, "msetex")
  | .delete _ => (.write, "del")
  | .append _ _ => (.write, "append")
  | .expire .. => (.write, "expire")
  | .persist _ => (.write, "persist")
  | .incr _ _ => (.readWrite, "incr")
  | .incrEx _ => (.readWrite, "incrby")
  | .delByTag _ => (.invalidate, "delbytag")
  | .scan _ => (.list, "scan")
  | .slowlog (.get _) => (.list, "slowlog")
  | .slowlog .reset => (.list, "slowlog")
  | .slowlog .len => (.none, "slowlog")
  | .slowlog .help => (.none, "slowlog")

/-- `HELLO_UNAUTHENTICATED`. -/
def helloUnauthenticated : String :=
  "HELLO must be called with the client already " ++
    "authenticated, otherwise the HELLO <proto> AUTH <user> <pass> option can be used to " ++
    "authenticate the client and select the RESP protocol version at the same time"

/-- `refusal`. -/
def refusal (auth : AuthState) (conn : ConnAuth) (command : Resp.Command) : Option Failure :=
  if conn.isAuthenticated || !auth.required then none
  else
    match command with
    | .auth _ => none
    | .quit => none
    | .hello _ (some _) => none
    | .hello _ none => some ⟨"NOAUTH", helloUnauthenticated⟩
    | _ => some ⟨"NOAUTH", "Authentication required."⟩

/-- `denial`. -/
def denial (auth : AuthState) (conn : ConnAuth) (command : Resp.Command) :
    Option (Roles × String) :=
  match auth.refusal conn (rolesFor command).1 with
  | some (.missing missing) => some (missing, (rolesFor command).2)
  | _ => none

/-- What `execute` answers a denied command. -/
def notPermitted (name : String) : Failure :=
  ⟨"NOPERM", "this user has no permissions to run the '" ++ name ++ "' command"⟩

/-! ### The commands about the conversation -/

/-- `WRONGPASS`. -/
def wrongPass : Failure := ⟨"WRONGPASS", "invalid username-password pair or user is disabled."⟩

/-- `authenticate`. -/
def authenticate (auth : AuthState) (conn : ConnAuth) (credential : Resp.Credential) :
    ConnAuth × Except Failure Unit :=
  if !auth.configured then
    (conn, .error (.client ("AUTH <password> called without any password configured for the " ++
      "default user. Are you sure your configuration is correct?")))
  else
    let name := credential.name.getD (Text.bytes AuthState.defaultName)
    match auth.verify name credential.secret with
    | some identity => (conn.succeed identity, .ok ())
    | none => (conn.fail, .error wrongPass)

/-- The version a `HELLO` asks for. -/
def negotiate (version : Version) : Option Int → Except Failure Version
  | none => .ok version
  | some 2 => .ok .resp2
  | some 3 => .ok .resp3
  | some _ => .error ⟨"NOPROTO", "unsupported protocol version"⟩

/-- `authenticate`, where there is a credential. -/
def authenticateIf (auth : AuthState) (conn : ConnAuth) :
    Option Resp.Credential → ConnAuth × Except Failure Unit
  | none => (conn, .ok ())
  | some credential => authenticate auth conn credential

/-! ### The commands with answers of their own -/

/-- The lines of `SLOWLOG HELP`. -/
def slowlogHelp : List String :=
  ["SLOWLOG <subcommand> [<arg> ...]. Subcommands are:",
    "GET [<count>]",
    "    Return top <count> entries from the slowlog (default: 10).",
    "    Entries are made of:",
    "    id, timestamp, time in microseconds, arguments array,",
    "    client IP and port, client name.",
    "LEN",
    "    Return the length of the slowlog.",
    "RESET",
    "    Reset the slowlog.",
    "HELP",
    "    Print this help."]

/-- How many entries a `SLOWLOG GET` asks for. -/
def slowlogCount : Option Int → Nat
  | none => 10
  | some n => if n < 0 then 1024 else min n.toNat 1024

/-- `{:016x}`. -/
def hex16 (n : Nat) : Bytes :=
  (List.range 16).reverse.flatMap fun i => (Encode.hexDigits (n / 16 ^ i % 16).toUInt8).drop 1

/-- One entry of `SLOWLOG GET`. -/
def renderSlowlogEntry (listingEnabled : Bool) (entry : SlowlogEntry) : Bytes :=
  Encode.array 6 ++ Encode.integer (asI64 entry.id) ++ Encode.integer (asI64 entry.timestamp) ++
    Encode.integer (asI64 (saturatingAdd64 entry.queueUs entry.execUs)) ++
    (Encode.array 2 ++ Encode.bulk entry.command ++
      Encode.bulk (if listingEnabled then entry.key else ascii "xxh3:" ++ hex16 entry.digest)) ++
    Encode.bulk entry.peer ++ Encode.bulk []

/-- `run_slowlog`, for either build. -/
def runSlowlog (server : ServerState) (sub : SlowlogSub) : Except Failure Bytes :=
  match server.slowlog with
  | none => .error (.client "the slowlog needs a build with --features introspect")
  | some log =>
    match sub with
    | .len => .ok (Encode.integer (asI64 log.len))
    | .reset => .ok Encode.ok
    | .help =>
      .ok (Encode.array slowlogHelp.length ++
        slowlogHelp.flatMap fun line => Encode.simple (ascii line))
    | .get count =>
      let entries := log.entries (slowlogCount count)
      .ok (Encode.array entries.length ++
        entries.flatMap (renderSlowlogEntry server.listingEnabled))

/-- `answer_scan`. -/
def answerScan (cursor : Nat) (entries : List ListEntry) : Bytes :=
  Encode.array 2 ++ Encode.bulk (decimal cursor) ++
    (Encode.array entries.length ++ entries.flatMap fun entry => Encode.bulk entry.name)

/-- Where a `SCAN` starts. -/
def scanFrom (server : ServerState) (token : Nat) : Except Failure Bytes :=
  if token = 0 then .ok []
  else
    match server.resolve token with
    | some cursor => .ok cursor
    | none => .error (.client "scan cursor expired; restart the iteration from 0")

/-- The token of the position after a page. -/
def nextToken (server : ServerState) : Option Bytes → Nat
  | some position => server.issue position
  | none => 0

/-- `run_scan`. -/
def runScan (server : ServerState) (scan : Scan) : Except Failure Bytes :=
  if !scan.onlyStrings then .ok (answerScan 0 [])
  else do
    let cursor ← scanFrom server scan.token
    match server.execute 0 (.listKeys ⟨scan.count, cursor, scan.pattern⟩) with
    | .error failed => .error (respError failed)
    | .ok (.listing page) => .ok (answerScan (nextToken server page.cursor) page.entries)
    | .ok _ => .error .internal

/-- The loop of `run_del_by_tag`. -/
def delByTags (execute : Nat → Command → Except Failed Executed) :
    List Bytes → Nat → Int → Except Failure Int
  | [], _, registered => .ok registered
  | tag :: rest, call, registered =>
    match execute call (.deleteByTag tag) with
    | .error failed => .error (respError failed)
    | .ok (.invalidated hit) => delByTags execute rest (call + 1) (registered + hit.toNat)
    | .ok _ => .error .internal

/-- `run_del_by_tag`. -/
def runDelByTag (server : ServerState) (tags : List Bytes) : Except Failure Bytes :=
  (delByTags server.execute tags 0 0).map Encode.integer

/-! ### Running a command -/

/-- What `run` leaves: the connection, and what it wrote before it answered. -/
structure Ran where
  conn : ConnAuth
  version : Version
  out : Bytes
  result : Except Failure Unit

section Run

variable (floats : FloatOps) (infoText : Sections → List (Bytes × Bytes) → Bytes)
  (server : ServerState)

/-- `render`, of whatever the executor replied. A listing or an invalidation is, as a pong is,
no reply of the commands that come here. -/
def renderExecuted (version : Version) (command : Resp.Command) :
    Executed → Except Failure Bytes
  | .answer answer => render floats infoText server.renderedAt version command answer
  | _ => render floats infoText server.renderedAt version command .pong

/-- The last arm of `run`. -/
def runStorage (version : Version) (command : Resp.Command) : Except Failure Bytes := do
  let domain ← translate server.translatedAt command
  match server.execute 0 domain with
  | .error failed => .error (respError failed)
  | .ok executed => renderExecuted floats infoText server version command executed

/-- What a command wrote that writes its reply at once, or nothing. -/
def answered (conn : ConnAuth) (version : Version) : Except Failure Bytes → Ran
  | .ok out => ⟨conn, version, out, .ok ()⟩
  | .error failure => ⟨conn, version, [], .error failure⟩

/-- A `GET`. A value goes out while the store still reads. -/
def runGet (version : Version) (read : GetRead) : Bytes × Except Failure Unit :=
  match read with
  | .hit value => (Encode.bulk value.data, .ok ())
  | .miss => (Encode.null version, .ok ())
  | .failed rendered error =>
    (match rendered with
      | some value => Encode.bulk value.data
      | none => [],
      .error (respError (toFailed error)))

/-- An `MGET`. The header goes out before the first value. -/
def runMGet (version : Version) {count : Nat} (read : BatchRead count) :
    Bytes × Except Failure Unit :=
  (Encode.array count ++ read.rendered.flatMap (renderValue version),
    match read.failure with
    | none => .ok ()
    | some error => .error (respError (toFailed error)))

/-- `HELLO`, once the version is known. -/
def runHello (conn : ConnAuth) (version negotiated : Version) (auth : Option Resp.Credential) :
    Ran :=
  match authenticateIf server.auth conn auth with
  | (conn, .ok ()) => ⟨conn, negotiated, Encode.hello negotiated, .ok ()⟩
  | (conn, .error failure) => ⟨conn, version, [], .error failure⟩

/-- `run`. -/
def run (conn : ConnAuth) (version : Version) (command : Resp.Command) : Ran :=
  match command with
  | .quit => ⟨conn, version, Encode.ok, .ok ()⟩
  | .auth credential =>
    match authenticate server.auth conn credential with
    | (conn, .ok ()) => ⟨conn, version, Encode.ok, .ok ()⟩
    | (conn, .error failure) => ⟨conn, version, [], .error failure⟩
  | .hello requested auth =>
    match negotiate version requested with
    | .error failure => ⟨conn, version, [], .error failure⟩
    | .ok negotiated => runHello server conn version negotiated auth
  | .scan scan => answered conn version (runScan server scan)
  | .slowlog sub => answered conn version (runSlowlog server sub)
  | .delByTag tags => answered conn version (runDelByTag server tags)
  | .get key =>
    match keyOf key with
    | .error failure => ⟨conn, version, [], .error failure⟩
    | .ok key => ⟨conn, version, (runGet version (server.getWith key)).1,
        (runGet version (server.getWith key)).2⟩
  | .mGet keys =>
    match keys.mapM keyOf with
    | .error failure => ⟨conn, version, [], .error failure⟩
    | .ok keys => ⟨conn, version, (runMGet version (server.getManyWith keys)).1,
        (runMGet version (server.getManyWith keys)).2⟩
  | storage => answered conn version (runStorage floats infoText server version storage)

/-- `encode::error`, of a failure. -/
def Failure.bytes (failure : Failure) : Bytes :=
  Encode.error (ascii failure.code) (ascii failure.message)

/-- What `execute` leaves. -/
structure Served where
  conn : ConnAuth
  version : Version
  out : Bytes
  closing : Bool

/-- The error of a failed run, if it failed. -/
def errorOf : Except Failure Unit → Bytes
  | .ok () => []
  | .error failure => failure.bytes

/-- `execute`. -/
def execute (conn : ConnAuth) (version : Version) (command : Resp.Command) : Served :=
  if command = .quit then ⟨conn, version, Encode.ok, true⟩
  else
    match refusal server.auth conn command with
    | some failure => ⟨conn, version, failure.bytes, false⟩
    | none =>
      match denial server.auth conn command with
      | some (_, name) => ⟨conn, version, (notPermitted name).bytes, false⟩
      | none =>
        let ran := run floats infoText server conn version command
        ⟨ran.conn, ran.version, ran.out ++ errorOf ran.result, false⟩

end Run

/-! ### Errors fit on a line -/

/-- An error whose words fit on a line. -/
def Failure.OneLine (failure : Failure) : Prop :=
  Clean (ascii failure.code) ∧ Clean (ascii failure.message)

/-- A text of two pieces that fit on a line. -/
theorem clean_ascii_append {text text' : String} (clean : Clean (ascii text))
    (clean' : Clean (ascii text')) : Clean (ascii (text ++ text')) := by
  rw [ascii, String.toList_append, List.map_append]
  exact clean_append.mpr ⟨clean, clean'⟩

/-- Whatever a computation fails with fits on a line. -/
def FailsClean {α : Type} (x : Except Failure α) : Prop :=
  ∀ failure, x = .error failure → failure.OneLine

theorem Failure.OneLine.isValue {failure : Failure} (line : failure.OneLine) :
    IsValue failure.bytes := error_isValue line.1 line.2

theorem Failure.client_oneLine {message : String} (clean : Clean (ascii message)) :
    (Failure.client message).OneLine :=
  ⟨show Clean (ascii "ERR") by decide, clean⟩

theorem Failure.internal_oneLine : Failure.internal.OneLine := by
  exact ⟨by decide, by decide⟩

section FailsClean

variable {α β : Type}

theorem failsClean_ok (a : α) : FailsClean (.ok a) := fails_ok a

theorem failsClean_error {failure : Failure} (line : failure.OneLine) :
    FailsClean (.error failure : Except Failure α) := (fails_error failure).mpr line

theorem FailsClean.bind {x : Except Failure α} {next : α → Except Failure β} (first : FailsClean x)
    (then_ : ∀ a, FailsClean (next a)) : FailsClean (x >>= next) :=
  (fails_bind x next).mpr ⟨first, fun a _ => then_ a⟩

theorem FailsClean.map {x : Except Failure α} (first : FailsClean x) (f : α → β) :
    FailsClean (x.map f) := (fails_map x f).mpr first

theorem FailsClean.mapM {f : α → Except Failure β} (each : ∀ a, FailsClean (f a)) (as : List α) :
    FailsClean (as.mapM f) := fails_mapM each as

end FailsClean

theorem keyOf_failsClean (key : Bytes) : FailsClean (keyOf key) := by
  unfold keyOf
  cases Key.new key with
  | ok key => exact failsClean_ok key
  | error cause => exact failsClean_error (Failure.client_oneLine (by decide))

theorem ttlChangeFor_failsClean (expiry : Expiry) (now : Int) {invalidExpire : String}
    (clean : Clean (ascii invalidExpire)) : FailsClean (ttlChangeFor expiry now invalidExpire) := by
  cases expiry with
  | after millis =>
    simp only [ttlChangeFor]
    cases checkedI64 (now + millis) with
    | some deadline => exact failsClean_ok _
    | none => exact failsClean_error (Failure.client_oneLine clean)
  | _ => exact failsClean_ok _

theorem boundInt_failsClean (bound : Option Resp.Number) (default : Int) :
    FailsClean (boundInt bound default) := by
  cases bound with
  | none => exact failsClean_ok _
  | some number =>
    cases number with
    | int value => exact failsClean_ok _
    | float value => exact failsClean_error (Failure.client_oneLine (by decide))

theorem incrExDelta_failsClean (op : IncrEx) : FailsClean (incrExDelta op) := by
  unfold incrExDelta
  cases op.delta with
  | int delta =>
    exact (boundInt_failsClean _ _).bind fun _ =>
      (boundInt_failsClean _ _).bind fun _ => failsClean_ok _
  | float delta => exact failsClean_ok _

theorem incrExTtl_failsClean (op : IncrEx) (now : Int) : FailsClean (incrExTtl op now) := by
  unfold incrExTtl
  split
  · exact failsClean_ok _
  · exact failsClean_ok _
  · exact failsClean_ok _
  · exact failsClean_ok _
  · refine (ttlChangeFor_failsClean _ _ (by decide)).bind fun change => ?_
    cases change with
    | set ttlSecs => exact failsClean_ok _
    | _ => exact failsClean_error Failure.internal_oneLine

theorem translate_failsClean (now : Nat) (command : Resp.Command) :
    FailsClean (translate now command) := by
  have key := keyOf_failsClean
  have keys := fun keys => FailsClean.mapM key keys
  have internal : FailsClean (throw .internal : Except Failure Command) :=
    failsClean_error Failure.internal_oneLine
  cases command with
  | ping message => exact failsClean_ok _
  | get name | type name | ttl name | persist name =>
    exact (key name).bind fun _ => failsClean_ok _
  | mGet names | exists_ names | delete names => exact (keys names).bind fun _ => failsClean_ok _
  | set set =>
    refine (key set.key).bind fun _ => ?_
    refine (ttlChangeFor_failsClean _ _ ?_).bind fun _ => failsClean_ok _
    cases set.tagged <;> decide
  | mSet pairs =>
    refine (FailsClean.mapM (fun pair => ?_) pairs).bind fun _ => failsClean_ok _
    exact (key pair.1).bind fun _ => failsClean_ok _
  | mSetEx pairs condition expiry tags tagged =>
    refine (ttlChangeFor_failsClean _ _ ?_).bind fun _ => ?_
    · cases tagged <;> decide
    · refine (FailsClean.mapM (fun pair => ?_) pairs).bind fun _ => failsClean_ok _
      exact (key pair.1).bind fun _ => failsClean_ok _
  | append name value | incr name value => exact (key name).bind fun _ => failsClean_ok _
  | expire name expiry condition => exact (key name).bind fun _ => failsClean_ok _
  | incrEx op =>
    refine FailsClean.bind ?_ fun _ => failsClean_ok _
    exact (incrExDelta_failsClean op).bind fun _ => (incrExTtl_failsClean op _).bind fun _ =>
      (key op.key).bind fun _ => failsClean_ok _
  | info sections => exact failsClean_ok _
  -- served before the storage layer, and never translated
  | quit | auth _ | hello _ _ | scan _ | slowlog _ | delByTag _ => exact internal

theorem causeMessage_clean {cause : CoreError} {message : String}
    (worded : causeMessage cause = some message) : Clean (ascii message) := by
  cases cause <;> simp only [causeMessage, reduceCtorEq, Option.some.injEq] at worded <;>
    subst worded <;> decide

theorem respError_oneLine (failed : Failed) : (respError failed).OneLine := by
  unfold respError
  cases worded : failed.cause.bind causeMessage with
  | some message =>
    obtain ⟨cause, -, worded⟩ := Option.bind_eq_some_iff.mp worded
    exact Failure.client_oneLine (causeMessage_clean worded)
  | none =>
    dsimp only
    cases failed.status with
    | capacityFull => exact ⟨by decide, by decide⟩
    | _ => exact ⟨by decide, by decide⟩

theorem numberOf_failsClean (number : Number) : FailsClean (numberOf number) := by
  cases number with
  | counter value => exact failsClean_error Failure.internal_oneLine
  | _ => exact failsClean_ok _

/-! ### Answers -/

/-- A computation that answers one value, or fails on a line. -/
def Answers (x : Except Failure Bytes) : Prop := FailsClean x ∧ ∀ out, x = .ok out → IsValue out

theorem answers_ok {out : Bytes} (value : IsValue out) : Answers (.ok out) :=
  ⟨failsClean_ok out, fun _ same => Except.ok.inj same ▸ value⟩

theorem answers_error {failure : Failure} (line : failure.OneLine) : Answers (.error failure) :=
  ⟨failsClean_error line, nofun⟩

theorem Answers.bind {α : Type} {x : Except Failure α} {next : α → Except Failure Bytes}
    (first : FailsClean x) (then_ : ∀ a, Answers (next a)) : Answers (x >>= next) := by
  refine ⟨first.bind fun a => (then_ a).1, fun out made => ?_⟩
  obtain ⟨a, -, made⟩ := bind_eq_ok_iff.mp made
  exact (then_ a).2 out made

/-- An array of rendered items. -/
theorem array_flatMap_isValue {α : Type} {items : List α} {f : α → Bytes}
    (each : ∀ item ∈ items, IsValue (f item)) :
    IsValue (Encode.array items.length ++ items.flatMap f) := by
  have value : IsValue (Encode.array (items.map f).length ++ (items.map f).flatten) :=
    array_isValue (by simpa using each)
  rwa [List.length_map, ← List.flatMap_def] at value

theorem renderValue_isValue (version : Version) (value : Option Value) :
    IsValue (renderValue version value) := by
  cases value with
  | none => exact null_isValue version
  | some value => exact bulk_isValue _

section Render

variable {floats : FloatOps} (printable : Printable floats)
  (infoText : Sections → List (Bytes × Bytes) → Bytes)

include printable in
theorem renderNumber_isValue (version : Version) (number : Resp.Number) :
    IsValue (renderNumber floats version number) := by
  cases number with
  | int value => exact integer_isValue value
  | float value => exact double_isValue printable value version

include printable in
theorem render_answers (now : Nat) (version : Version) (command : Resp.Command) (answer : Answer) :
    Answers (render floats infoText now version command answer) := by
  unfold render
  split
  · exact answers_ok (bulk_isValue _)
  · exact answers_ok (simple_isValue (by decide))
  · exact answers_ok (verbatim_isValue _ _)
  · exact answers_ok (bulk_isValue _)
  · exact answers_ok (null_isValue _)
  · exact answers_ok (array_flatMap_isValue fun value _ => renderValue_isValue version value)
  · exact answers_ok (integer_isValue _)
  · rename_i deadline
    refine answers_ok (simple_isValue ?_)
    split <;> decide
  · exact answers_ok (integer_isValue _)
  · exact answers_ok (integer_isValue _)
  · exact answers_ok (renderValue_isValue version _)
  · exact answers_ok ok_isValue
  · exact answers_ok (null_isValue _)
  · exact answers_ok ok_isValue
  · exact answers_ok (integer_isValue _)
  · exact answers_ok (integer_isValue _)
  · exact answers_ok (integer_isValue _)
  · exact answers_ok (integer_isValue _)
  · exact answers_ok (integer_isValue _)
  · refine Answers.bind (numberOf_failsClean _) fun number => ?_
    cases number with
    | int value => exact answers_ok (integer_isValue value)
    | float value => exact answers_ok (bulk_isValue _)
  · refine Answers.bind (numberOf_failsClean _) fun value => ?_
    refine Answers.bind (numberOf_failsClean _) fun moved => answers_ok ?_
    have each : ∀ item ∈ [renderNumber floats version value, renderNumber floats version moved],
        IsValue item := by simp [renderNumber_isValue printable]
    simpa using array_isValue each
  · exact answers_error Failure.internal_oneLine

end Render

section Commands

variable (server : ServerState)

theorem authenticate_failsClean (auth : AuthState) (conn : ConnAuth)
    (credential : Resp.Credential) : FailsClean (authenticate auth conn credential).2 := by
  unfold authenticate
  split
  · exact failsClean_error (Failure.client_oneLine (clean_ascii_append (by decide) (by decide)))
  · dsimp only
    split
    · exact failsClean_ok _
    · exact failsClean_error ⟨by decide, by decide⟩

theorem authenticateIf_failsClean (auth : AuthState) (conn : ConnAuth)
    (credential : Option Resp.Credential) : FailsClean (authenticateIf auth conn credential).2 := by
  cases credential with
  | none => exact failsClean_ok _
  | some credential => exact authenticate_failsClean auth conn credential

theorem negotiate_failsClean (version : Version) (requested : Option Int) :
    FailsClean (negotiate version requested) := by
  unfold negotiate
  split
  · exact failsClean_ok _
  · exact failsClean_ok _
  · exact failsClean_ok _
  · exact failsClean_error ⟨by decide, by decide⟩

theorem answerScan_isValue (cursor : Nat) (entries : List ListEntry) :
    IsValue (answerScan cursor entries) := by
  have names : IsValue (Encode.array entries.length ++
      entries.flatMap fun entry => Encode.bulk entry.name) :=
    array_flatMap_isValue fun entry _ => bulk_isValue entry.name
  have each : ∀ item ∈ [Encode.bulk (decimal cursor), Encode.array entries.length ++
      entries.flatMap fun entry => Encode.bulk entry.name], IsValue item := by
    simp [bulk_isValue, names]
  simpa [answerScan] using array_isValue each

theorem runScan_answers (scan : Scan) : Answers (runScan server scan) := by
  unfold runScan
  split
  · exact answers_ok (answerScan_isValue _ _)
  · refine Answers.bind ?_ fun cursor => ?_
    · unfold scanFrom
      split
      · exact failsClean_ok _
      · split
        · exact failsClean_ok _
        · exact failsClean_error (Failure.client_oneLine (by decide))
    · split
      · exact answers_error (respError_oneLine _)
      · exact answers_ok (answerScan_isValue _ _)
      · exact answers_error Failure.internal_oneLine

theorem renderSlowlogEntry_isValue (listingEnabled : Bool) (entry : SlowlogEntry) :
    IsValue (renderSlowlogEntry listingEnabled entry) := by
  have arguments : ∀ item ∈ [Encode.bulk entry.command, Encode.bulk (if listingEnabled
      then entry.key else ascii "xxh3:" ++ hex16 entry.digest)], IsValue item := by
    simp [bulk_isValue]
  have pair := array_isValue arguments
  have each : ∀ item ∈ [Encode.integer (asI64 entry.id), Encode.integer (asI64 entry.timestamp),
      Encode.integer (asI64 (saturatingAdd64 entry.queueUs entry.execUs)), Encode.array 2 ++
        [Encode.bulk entry.command, Encode.bulk (if listingEnabled then entry.key
          else ascii "xxh3:" ++ hex16 entry.digest)].flatten,
      Encode.bulk entry.peer, Encode.bulk []], IsValue item := by
    simp only [List.forall_mem_cons, integer_isValue, bulk_isValue, true_and]
    exact ⟨pair, nofun⟩
  simpa [renderSlowlogEntry] using array_isValue each

theorem runSlowlog_answers (sub : SlowlogSub) : Answers (runSlowlog server sub) := by
  unfold runSlowlog
  split
  · exact answers_error (Failure.client_oneLine (by decide))
  · split
    · exact answers_ok (integer_isValue _)
    · exact answers_ok ok_isValue
    · have lines : ∀ line ∈ slowlogHelp, Clean (ascii line) := by decide
      exact answers_ok (array_flatMap_isValue fun line mem => simple_isValue (lines line mem))
    · exact answers_ok (array_flatMap_isValue fun entry _ => renderSlowlogEntry_isValue _ entry)

theorem delByTags_failsClean (execute : Nat → Command → Except Failed Executed) (tags : List Bytes)
    (call : Nat) (registered : Int) : FailsClean (delByTags execute tags call registered) := by
  induction tags generalizing call registered with
  | nil => exact failsClean_ok _
  | cons tag rest ih =>
    unfold delByTags
    split
    · exact failsClean_error (respError_oneLine _)
    · exact ih _ _
    · exact failsClean_error Failure.internal_oneLine

theorem runDelByTag_answers (tags : List Bytes) : Answers (runDelByTag server tags) := by
  refine ⟨(delByTags_failsClean _ tags 0 0).map _, fun out made => ?_⟩
  unfold runDelByTag at made
  cases counted : delByTags server.execute tags 0 0 with
  | error failure =>
    rw [counted] at made
    cases made
  | ok registered =>
    rw [counted] at made
    exact Except.ok.inj made ▸ integer_isValue registered

variable {floats : FloatOps} (printable : Printable floats)
  (infoText : Sections → List (Bytes × Bytes) → Bytes)

include printable in
theorem runStorage_answers (version : Version) (command : Resp.Command) :
    Answers (runStorage floats infoText server version command) := by
  refine Answers.bind (translate_failsClean _ command) fun domain => ?_
  split
  · exact answers_error (respError_oneLine _)
  · rename_i executed _
    cases executed <;> exact render_answers printable infoText _ version command _

end Commands

/-! ### One value -/

theorem answered_isValue (conn : ConnAuth) (version : Version) {x : Except Failure Bytes}
    (answers : Answers x) :
    IsValue ((answered conn version x).out ++ errorOf (answered conn version x).result) := by
  cases x with
  | ok out => simpa [answered, errorOf] using answers.2 out rfl
  | error failure => simpa [answered, errorOf] using (answers.1 failure rfl).isValue

theorem errorOf_isValue {failure : Failure} (line : failure.OneLine) :
    IsValue ([] ++ errorOf (.error failure)) := line.isValue

/-- A `GET` is answered by one value, unless the store fails with the value out. -/
theorem runGet_isValue_iff (version : Version) (read : GetRead) :
    IsValue ((runGet version read).1 ++ errorOf (runGet version read).2) ↔
      ¬ ∃ value error, read = .failed (some value) error := by
  cases read with
  | hit value => simpa [runGet, errorOf] using bulk_isValue value.data
  | miss => simpa [runGet, errorOf] using null_isValue version
  | failed rendered error =>
    have line := (respError_oneLine (toFailed error)).isValue
    cases rendered with
    | none => simpa [runGet, errorOf] using line
    | some value =>
      simp only [runGet, errorOf, GetRead.failed.injEq, exists_and_left, exists_eq', and_true,
        Option.some.injEq, not_true_eq_false, iff_false]
      intro both
      obtain ⟨-, rest⟩ := isValue_selfDelimiting _ _ _ [] (bulk_isValue value.data) both
        (List.append_nil _).symm
      rw [rest] at line
      exact isValue_ne_nil line

/-- An `MGET` is answered by one value, unless the store fails elsewhere than before the last
key. -/
theorem runMGet_isValue_iff (version : Version) {count : Nat} (read : BatchRead count) :
    IsValue ((runMGet version read).1 ++ errorOf (runMGet version read).2) ↔
      ¬ (read.failure ≠ none ∧ read.rendered.length + 1 ≠ count) := by
  have each : ∀ item ∈ read.rendered.map (renderValue version), IsValue item := by
    simpa using fun value _ => renderValue_isValue version value
  unfold runMGet
  cases failed : read.failure with
  | none =>
    have whole : IsValue (Encode.array count ++
        (read.rendered.map (renderValue version)).flatten) :=
      (array_iff each).mpr (by simpa using read.whole failed)
    simpa [errorOf, List.flatMap_def] using whole
  | some error =>
    have line := (respError_oneLine (toFailed error)).isValue
    have all : ∀ item ∈ read.rendered.map (renderValue version) ++
        [(respError (toFailed error)).bytes], IsValue item := by
      simp only [List.mem_append, List.mem_singleton]
      rintro item (mem | rfl)
      · exact each item mem
      · exact line
    have counted : IsValue (Encode.array count ++ _) ↔ _ := array_iff all
    simp only [List.flatten_append, List.length_append, List.length_map, List.length_singleton,
      List.flatten_singleton, ← List.flatMap_def] at counted
    simp only [errorOf, List.append_assoc, counted, ne_eq, reduceCtorEq, not_false_eq_true,
      true_and, not_not]

section Execute

variable (server : ServerState)

/-- The command is let through. -/
def Admitted (conn : ConnAuth) (command : Resp.Command) : Prop :=
  refusal server.auth conn command = none ∧ denial server.auth conn command = none

/-- A fused read that fails where the reply it began cannot be completed by the error. -/
def Torn (conn : ConnAuth) (command : Resp.Command) : Prop :=
  Admitted server conn command ∧
    match command with
    | .get key => IsKey key ∧ ∃ value error, server.getWith key = .failed (some value) error
    | .mGet keys => (∀ key ∈ keys, IsKey key) ∧ (server.getManyWith keys).failure ≠ none ∧
        (server.getManyWith keys).rendered.length + 1 ≠ keys.length
    | _ => False

theorem keyOf_eq_ok_iff {bytes key : Bytes} :
    keyOf bytes = .ok key ↔ IsKey bytes ∧ key = bytes := by
  rw [← Key.new_eq_ok_iff, keyOf]
  cases Key.new bytes with
  | ok other => simp
  | error cause => simp

theorem mapM_keyOf_eq_ok_iff {names keys : List Bytes} :
    names.mapM keyOf = .ok keys ↔ (∀ name ∈ names, IsKey name) ∧ keys = names := by
  induction names generalizing keys with
  | nil => simp [eq_comm, pure, Except.pure]
  | cons name rest ih =>
    rw [List.mapM_cons, bind_eq_ok_iff]
    constructor
    · rintro ⟨key, valid, made⟩
      obtain ⟨others, valids, joined⟩ := bind_eq_ok_iff.mp made
      obtain ⟨isKey, rfl⟩ := keyOf_eq_ok_iff.mp valid
      obtain ⟨areKeys, same⟩ := ih.mp valids
      rw [same] at joined
      exact ⟨List.forall_mem_cons.mpr ⟨isKey, areKeys⟩, (Except.ok.inj joined).symm⟩
    · rintro ⟨areKeys, rfl⟩
      obtain ⟨isKey, areKeys⟩ := List.forall_mem_cons.mp areKeys
      exact ⟨name, keyOf_eq_ok_iff.mpr ⟨isKey, rfl⟩,
        bind_eq_ok_iff.mpr ⟨rest, ih.mpr ⟨areKeys, rfl⟩, rfl⟩⟩

theorem refusal_oneLine {auth : AuthState} {conn : ConnAuth} {command : Resp.Command}
    {failure : Failure} (refused : refusal auth conn command = some failure) : failure.OneLine := by
  unfold refusal at refused
  split at refused
  · cases refused
  · split at refused
    · cases refused
    · cases refused
    · cases refused
    · obtain rfl := Option.some.inj refused
      exact ⟨by decide, clean_ascii_append (clean_ascii_append (by decide) (by decide)) (by decide)⟩
    · obtain rfl := Option.some.inj refused
      exact ⟨by decide, by decide⟩

/-- The names a refusal gives. -/
def commandNames : List String :=
  ["hello", "ping", "quit", "auth", "info", "get", "mget", "exists", "type", "ttl", "set", "mset",
    "msetex", "del", "append", "expire", "persist", "incr", "incrby", "delbytag", "scan", "slowlog"]

theorem rolesFor_mem (command : Resp.Command) : (rolesFor command).2 ∈ commandNames := by
  cases command with
  | slowlog sub => cases sub <;> simp [rolesFor, commandNames]
  | _ => simp [rolesFor, commandNames]

theorem notPermitted_oneLine (command : Resp.Command) :
    (notPermitted (rolesFor command).2).OneLine := by
  have names : ∀ name ∈ commandNames, Clean (ascii name) := by decide
  have named := names _ (rolesFor_mem command)
  exact ⟨show Clean (ascii "NOPERM") by decide,
    clean_ascii_append (clean_ascii_append (by decide) named) (by decide)⟩

variable {floats : FloatOps} (printable : Printable floats)
  (infoText : Sections → List (Bytes × Bytes) → Bytes)

include printable in
/-- What a command that is let through appends is one value, unless it is torn. -/
theorem run_isValue_iff (conn : ConnAuth) (version : Version) (command : Resp.Command)
    (admitted : Admitted server conn command) :
    IsValue ((run floats infoText server conn version command).out ++
        errorOf (run floats infoText server conn version command).result) ↔
      ¬ Torn server conn command := by
  have storage := fun command => answered_isValue conn version
    (runStorage_answers server printable infoText version command)
  cases command with
  | get name =>
    simp only [run, Torn, admitted, true_and]
    cases valid : keyOf name with
    | error failure =>
      have invalid : ¬ IsKey name := fun isKey => by
        cases (keyOf_eq_ok_iff.mpr ⟨isKey, rfl⟩).symm.trans valid
      simpa [invalid] using errorOf_isValue (keyOf_failsClean name failure valid)
    | ok key =>
      obtain ⟨isKey, rfl⟩ := keyOf_eq_ok_iff.mp valid
      simpa only [isKey, true_and] using runGet_isValue_iff version (server.getWith key)
  | mGet names =>
    simp only [run, Torn, admitted, true_and]
    cases valid : names.mapM keyOf with
    | error failure =>
      have invalid : ¬ ∀ name ∈ names, IsKey name := fun areKeys => by
        cases (mapM_keyOf_eq_ok_iff.mpr ⟨areKeys, rfl⟩).symm.trans valid
      have line := FailsClean.mapM keyOf_failsClean names failure valid
      simp only [invalid, false_and, not_false_eq_true, iff_true]
      exact errorOf_isValue line
    | ok keys =>
      obtain ⟨areKeys, rfl⟩ := mapM_keyOf_eq_ok_iff.mp valid
      rw [and_iff_right areKeys]
      exact runMGet_isValue_iff version (server.getManyWith keys)
  | quit => simpa [Torn, run, errorOf] using ok_isValue
  | auth credential =>
    simp only [Torn, and_false, not_false_eq_true, iff_true, run]
    have fails := authenticate_failsClean server.auth conn credential
    split
    · simpa [errorOf] using ok_isValue
    · rename_i failed
      exact errorOf_isValue (fails _ (by rw [failed]))
  | hello requested auth =>
    simp only [Torn, and_false, not_false_eq_true, iff_true, run]
    split
    · rename_i failed
      exact errorOf_isValue (negotiate_failsClean version requested _ failed)
    · have fails := authenticateIf_failsClean server.auth conn auth
      unfold runHello
      split
      · simpa [errorOf] using hello_isValue _
      · rename_i failed
        exact errorOf_isValue (fails _ (by rw [failed]))
  | scan scan => simpa [Torn, run] using answered_isValue conn version (runScan_answers server scan)
  | slowlog sub =>
    simpa [Torn, run] using answered_isValue conn version (runSlowlog_answers server sub)
  | delByTag tags =>
    simpa [Torn, run] using answered_isValue conn version (runDelByTag_answers server tags)
  | ping message => simpa [Torn, run] using storage _
  | set set => simpa [Torn, run] using storage _
  | delete keys => simpa [Torn, run] using storage _
  | mSet pairs => simpa [Torn, run] using storage _
  | mSetEx pairs condition expiry tags tagged => simpa [Torn, run] using storage _
  | exists_ keys => simpa [Torn, run] using storage _
  | type key => simpa [Torn, run] using storage _
  | append key value => simpa [Torn, run] using storage _
  | expire key expiry condition => simpa [Torn, run] using storage _
  | persist key => simpa [Torn, run] using storage _
  | ttl key => simpa [Torn, run] using storage _
  | incr key delta => simpa [Torn, run] using storage _
  | incrEx op => simpa [Torn, run] using storage _
  | info sections => simpa [Torn, run] using storage _

include printable in
/-- Every command is answered by exactly one value, unless it is torn. -/
theorem execute_one_value_iff (conn : ConnAuth) (version : Version) (command : Resp.Command) :
    IsValue (execute floats infoText server conn version command).out ↔
      ¬ Torn server conn command := by
  unfold execute
  split
  · rename_i quit
    subst quit
    simpa [Torn] using ok_isValue
  · cases refused : refusal server.auth conn command with
    | some failure =>
      simpa [Torn, Admitted, refused] using (refusal_oneLine refused).isValue
    | none =>
      cases denied : denial server.auth conn command with
      | some denied' =>
        obtain ⟨missing, name⟩ := denied'
        have named : name = (rolesFor command).2 := by
          unfold denial at denied
          split at denied
          · exact (Prod.mk.inj (Option.some.inj denied)).2.symm
          · cases denied
        have line := named ▸ notPermitted_oneLine command
        simpa [Torn, Admitted, denied] using line.isValue
      | none =>
        have admitted : Admitted server conn command := ⟨refused, denied⟩
        exact run_isValue_iff server printable infoText conn version command admitted

end Execute

/-- A batch that fails before its first key. -/
def BatchRead.failed (error : Store.StoreError) (count : Nat) : BatchRead count where
  rendered := []
  failure := some error
  atMost := Nat.zero_le count
  whole := fun none => absurd none (Option.some_ne_none error)

/-- A server that asks nobody for credentials and whose store fails every read. -/
def failingServer : ServerState where
  auth := ⟨false, ∅, id⟩
  getWith := fun _ => .failed none (.engine "read failed")
  getManyWith := fun keys => .failed (.engine "read failed") keys.length
  execute := fun _ _ => .error ⟨.internal, none⟩
  resolve := fun _ => none
  issue := fun _ => 0
  slowlog := none
  listingEnabled := false
  translatedAt := 0
  renderedAt := 0

/-- Doubles that are all written as zero. -/
def zeroFloats : FloatOps := ⟨fun a _ => a, fun a _ => a, fun _ => none, fun _ => [48]⟩

theorem zeroFloats_printable : Printable zeroFloats :=
  ⟨fun _ => show Clean [48] by decide, fun _ => ⟨48, [], rfl, by decide⟩⟩

/-- An `MGET` of one key is answered by an array that holds the error. -/
theorem execute_one_value_single : IsValue (execute zeroFloats (fun _ _ => []) failingServer
    ⟨none, 0⟩ .resp2 (.mGet [[97]])).out :=
  (execute_one_value_iff failingServer zeroFloats_printable (fun _ _ => []) _ _ _).mpr
    fun torn => torn.2.2.2 rfl

/-- An `MGET` of two keys whose read fails: an array of two is announced, and one error is all
that follows. -/
theorem mget_error_inside_array :
    (execute zeroFloats (fun _ _ => []) failingServer ⟨none, 0⟩ .resp2 (.mGet [[97], [98]])).out =
        ascii "*2\r\n-ERR internal error\r\n" ∧
      ¬ IsValue (execute zeroFloats (fun _ _ => []) failingServer ⟨none, 0⟩ .resp2
        (.mGet [[97], [98]])).out := by
  have out : (execute zeroFloats (fun _ _ => []) failingServer ⟨none, 0⟩ .resp2
      (.mGet [[97], [98]])).out = Encode.array 2 ++ [Failure.internal.bytes].flatten := by rfl
  have line : ∀ item ∈ [Failure.internal.bytes], IsValue item := by
    simpa using Failure.internal_oneLine.isValue
  rw [out, array_iff line]
  exact ⟨by decide, by decide⟩

end Vash.Server.Resp
