/-
# The memcached dialect

`vash_proto::memcached`: the parser of the classic text commands and of the meta
commands. A command is a line; a storage command announces a data block of a given
length behind its line. What is wrong with a line is answered with an error line,
and the parser says how many bytes the refused command took up.

The helpers of the source carry that count along only to put it into their errors;
here they return the error kind, and the count is attached where the source fixes
it (`at_`). Texts are written as their ASCII bytes.
-/

import Vash.Core.Glob
import Vash.Core.Decimal

namespace Vash

/-- `Arithmetic::counter`: unsigned, never creates, never touches the deadline. -/
def Arithmetic.counter (key : Bytes) (delta : Nat) (decrement : Bool) : Arithmetic :=
  ⟨key, .counter delta decrement, .fail, .fail, .keep⟩

/-- `str::parse::<i64>`: digits, with an optional sign, that fit. -/
def parseI64 (text : Bytes) : Option Int :=
  let (negative, digits) := match text with
    | 45 :: rest => (true, rest)
    | 43 :: rest => (false, rest)
    | _ => (false, text)
  if digits = [] ∨ ¬ digits.all isDigit then none
  else
    let value : Int := if negative then -digitsValue digits else digitsValue digits
    if i64Min ≤ value ∧ value ≤ i64Max then some value else none

theorem parseI64_decimal {n : Nat} (fits : (n : Int) ≤ i64Max) :
    parseI64 (decimal n) = some (n : Int) := by
  have digits := all_isDigit_decimal n
  have value := digitsValue_decimal n
  unfold parseI64
  split
  rename_i negative text sign
  split at sign
  · rename_i rest minus
    exact absurd minus (decimal_ne_cons (by decide))
  · rename_i rest plus
    exact absurd plus (decimal_ne_cons (by decide))
  · cases sign
    rw [if_neg (by simp [digits, decimal_ne_nil]), value]
    exact if_pos ⟨by simp [i64Min], fits⟩

/-- The bytes of an ASCII text. -/
def ascii (text : String) : Bytes := text.toList.map fun c => c.toNat.toUInt8

namespace Memcached

/-- `MAX_KEY_LEN` of this dialect. -/
def maxKeyLen : Nat := 250

/-- `MAX_LINE_LEN`. -/
def maxLineLen : Nat := 16 * 1024

/-- `IMMEDIATELY_EXPIRED`. -/
def immediatelyExpired : Nat := u32Max

/-! ### What a line becomes -/

inductive StatsSection where
  | general
  | settings
  | items
  | slabs
  | conns
  | sizes
  | empty
  deriving DecidableEq, Repr

structure CacheDump where
  selected : Bool
  limit : Nat
  deriving DecidableEq, Repr

/-- `DumpStyle`. -/
inductive DumpStyle where
  | metadump
  | mgdump
  deriving DecidableEq, Repr

structure Dump where
  style : DumpStyle
  selected : Bool
  deriving DecidableEq, Repr

/-- `MetaFlags`: what a meta command asked to be told. -/
structure MetaFlags where
  wantValue : Bool := false
  wantClientFlags : Bool := false
  wantCas : Bool := false
  wantTtl : Bool := false
  wantSize : Bool := false
  wantKey : Bool := false
  echoed : Option Bytes := none
  quiet : Bool := false
  deriving DecidableEq, Repr

inductive MetaStyle where
  | get (flags : MetaFlags)
  | set (flags : MetaFlags)
  | delete (flags : MetaFlags)
  | arithmetic (flags : MetaFlags)
  | noOp
  | debug
  deriving DecidableEq, Repr

/-- `ResponseStyle`. -/
inductive ResponseStyle where
  | retrieval (withCas : Bool)
  | storage
  | deleted
  | touched
  | counter
  | ok
  | stats (part : StatsSection)
  | version
  | quit
  | metaReply (style : MetaStyle)
  | dump (dump : Dump)
  | cacheDump (dump : CacheDump)
  deriving DecidableEq, Repr

structure Parsed where
  command : Command
  consumed : Nat
  noreply : Bool
  style : ResponseStyle
  deriving DecidableEq, Repr

inductive Outcome where
  | incomplete
  | command (parsed : Parsed)
  deriving DecidableEq, Repr

inductive ErrorKind where
  | error
  | client (detail : String)
  | server (detail : String)
  deriving DecidableEq, Repr

inductive ProtocolError where
  | recoverable (response : ErrorKind) (consumed : Nat)
  | fatal (detail : String)
  deriving DecidableEq, Repr

/-- A parsed command before its length is known. -/
structure Understood where
  command : Command
  noreply : Bool
  style : ResponseStyle
  deriving DecidableEq, Repr

/-- A verdict that took `consumed` bytes. -/
def at_ (consumed : Nat) : Except ErrorKind Understood → Except ProtocolError Outcome
  | .ok understood =>
    .ok (.command ⟨understood.command, consumed, understood.noreply, understood.style⟩)
  | .error response => .error (.recoverable response consumed)

/-! ### Lines and tokens -/

/-- `find_line`: where the first line ends, its terminator left out. -/
def findLine (buf : Bytes) : Except ProtocolError (Option Nat) :=
  match buf.findIdx? (· = 10) with
  | some newline =>
    .ok (some (if newline > 0 ∧ buf[newline - 1]? = some 13 then newline - 1 else newline))
  | none =>
    if buf.length > maxLineLen then
      .error (.fatal "command line exceeded the maximum length")
    else .ok none

/-- `line_terminator_len`. -/
def lineTerminatorLen (buf : Bytes) (lineEnd : Nat) : Nat :=
  if buf[lineEnd]? = some 13 then 2 else 1

/-- The first word of a line, which may be empty. -/
def verbOf (line : Bytes) : Bytes := (line.splitOn 32).headD line

/-- The words of a line. -/
def tokensOf (line : Bytes) : List Bytes := (line.splitOn 32).filter (· ≠ [])

/-- `parse_u64` of `text.rs`, and `parse_u64` and `parse_usize` of `meta.rs`. -/
def parseNumber (token : Bytes) : Option Nat := parseU64 (trim token)

/-- The deadline of `parse_exptime` and `parse_ttl`. -/
def parseSeconds (token : Bytes) : Option Nat := do
  let seconds ← parseI64 (trim token)
  return if seconds < 0 then immediatelyExpired else min seconds.toNat u32Max

/-- `BAD_LINE`. -/
def badLine : ErrorKind := .client "bad command line format"

/-- `SHORT_LINE`. -/
def shortLine : ErrorKind := .client "bad command line"

/-- A value or the error of its absence. -/
def required {α : Type} (absent : ErrorKind) : Option α → Except ErrorKind α
  | some value => .ok value
  | none => .error absent

/-- The two `parse_key`s, which differ in what they answer. -/
def checkKey (missing invalid control : ErrorKind) (token : Option Bytes) :
    Except ErrorKind Bytes := do
  let token ← required missing token
  if token = [] ∨ token.length > maxKeyLen then throw invalid
  if token.any fun b => decide (b ≤ 32 ∨ b = 127) then throw control
  match Key.new token with
  | .ok key => return key
  | .error _ => throw invalid

/-- `parse_key` of `text.rs`. -/
def parseKey (token : Option Bytes) : Except ErrorKind Bytes :=
  checkKey badLine badLine badLine token

/-- The keys behind the second one. -/
def moreKeys (keys : List Bytes) : List Bytes → Except ErrorKind (List Bytes)
  | [] => return keys
  | token :: tokens => do
    if keys.length ≥ maxBatchItems then throw (.client "too many keys")
    let key ← parseKey (some token)
    moreKeys (keys ++ [key]) tokens

/-- `parse_keys`. -/
def parseKeys : List Bytes → Except ErrorKind (List Bytes)
  | [] => throw badLine
  | [token] => do return [← parseKey (some token)]
  | first :: second :: tokens => do
    let first ← parseKey (some first)
    let second ← parseKey (some second)
    moreKeys [first, second] tokens

/-- `parse_exptime`. -/
def parseExptime (token : Option Bytes) : Except ErrorKind Nat :=
  required badLine (token.bind parseSeconds)

/-- `has_noreply`. -/
def hasNoreply (tokens : List Bytes) : Bool := tokens.any (· = ascii "noreply")

/-- The tag of `delete_by_tag` and `mdt`. -/
def parseTag (token : Option Bytes) : Except ErrorKind Bytes := do
  let tag ← required (.client "missing tag") token
  if tag = [] ∨ tag.length > maxTagLen then throw (.client "invalid tag")
  return tag

/-! ### Classic commands -/

/-- The verbs of `text.rs`. -/
inductive TextVerb where
  | set
  | add
  | replace
  | append
  | prepend
  | cas
  | get
  | gets
  | gat
  | gats
  | delete
  | touch
  | incr
  | decr
  | flushAll
  | deleteByTag
  | stats
  | lruCrawler
  | version
  | quit
  | verbosity
  | empty
  | unknown
  deriving DecidableEq, Repr

def textVerbs : List (Bytes × TextVerb) :=
  [(ascii "set", .set), (ascii "add", .add), (ascii "replace", .replace),
    (ascii "append", .append), (ascii "prepend", .prepend), (ascii "cas", .cas),
    (ascii "get", .get), (ascii "gets", .gets), (ascii "gat", .gat), (ascii "gats", .gats),
    (ascii "delete", .delete), (ascii "touch", .touch), (ascii "incr", .incr),
    (ascii "decr", .decr), (ascii "flush_all", .flushAll),
    (ascii "delete_by_tag", .deleteByTag), (ascii "stats", .stats),
    (ascii "lru_crawler", .lruCrawler), (ascii "version", .version), (ascii "quit", .quit),
    (ascii "verbosity", .verbosity), ([], .empty)]

def textVerb (verb : Bytes) : TextVerb := (textVerbs.lookup verb).getD .unknown

/-- The mode a storage verb stands for; `cas` reads it from the line. -/
def storageMode (verb : TextVerb) (tokens : List Bytes) : Except ErrorKind SetMode :=
  match verb with
  | .add => .ok .add
  | .replace => .ok .replace
  | .append => .ok .append
  | .prepend => .ok .prepend
  | .cas => do return .cas (← required badLine (tokens[5]?.bind parseNumber))
  | _ => .ok .set

/-- `parse_storage` once the block is there: `terminator` is the two bytes behind it. -/
def storageCommand (verb : TextVerb) (tokens : List Bytes) (data terminator : Bytes) :
    Except ErrorKind Understood := do
  if terminator ≠ [13, 10] then throw (.client "bad data chunk")
  let key ← parseKey tokens[1]?
  let mcFlags ← required badLine ((tokens[2]?.bind parseNumber).filter (· ≤ u32Max))
  let ttlSecs ← parseExptime tokens[3]?
  let mode ← storageMode verb tokens
  return ⟨.set ⟨key, data, .set ttlSecs, mcFlags, [], mode, false⟩, hasNoreply tokens, .storage⟩

/-- The length check both grammars make before they take a data block, and the block. -/
def withBlock (buf : Bytes) (afterLine bytes : Nat)
    (body : Bytes → Bytes → Except ProtocolError Outcome) : Except ProtocolError Outcome :=
  if bytes > absoluteMaxValueLen then .error (.fatal "declared value length is implausible")
  else
    let dataEnd := afterLine + bytes
    if buf.length < dataEnd + 2 then .ok .incomplete
    else body ((buf.drop afterLine).take bytes) ((buf.drop dataEnd).take 2)

/-- `parse_storage`. -/
def parseStorage (verb : TextVerb) (line : Bytes) (afterLine : Nat) (buf : Bytes) :
    Except ProtocolError Outcome :=
  let tokens := tokensOf line
  match tokens[4]?.bind parseNumber with
  | none => .error (.recoverable badLine afterLine)
  | some bytes =>
    withBlock buf afterLine bytes fun data terminator =>
      at_ (afterLine + bytes + 2) (storageCommand verb tokens data terminator)

/-- `DUMP_CLASS`. -/
def dumpClass : Bytes := ascii "1"

/-- A listing from its beginning, unfiltered. -/
def wholeListing (limit : Nat) : Command := .listKeys ⟨limit, [], []⟩

/-- `parse_cachedump`. -/
def parseCachedump (tokens : List Bytes) : Except ErrorKind Understood := do
  let slabClass ← required shortLine tokens[0]?
  let limit ← required shortLine tokens[1]?
  let limit ← required badLine (parseNumber limit)
  let _ ← required badLine (parseNumber slabClass)
  let limit := if limit = 0 then maxListLimit else min limit maxListLimit
  return ⟨wholeListing limit, false, .cacheDump ⟨slabClass = dumpClass, limit⟩⟩

def statsSections : List (Bytes × StatsSection) :=
  [(ascii "settings", .settings), (ascii "items", .items), (ascii "slabs", .slabs),
    (ascii "conns", .conns), (ascii "sizes", .sizes), (ascii "extstore", .empty),
    (ascii "proxy", .empty)]

/-- A `stats` that takes no further argument. -/
def statsPart (part : StatsSection) (tokens : List Bytes) : Except ErrorKind Understood := do
  if tokens ≠ [] then throw badLine
  return ⟨.stats, false, .stats part⟩

/-- `parse_stats`. -/
def parseStats : List Bytes → Except ErrorKind Understood
  | [] => statsPart .general []
  | name :: tokens =>
    match statsSections.lookup name with
    | some part => statsPart part tokens
    | none =>
      if name = ascii "reset" then throw (.client "stats reset is not implemented")
      else if name = ascii "cachedump" then parseCachedump tokens
      else if name = ascii "detail" then throw (.client "stats detail is not implemented")
      else throw .error

/-- The refusals of `lru_crawler` that have a text. -/
def crawlerRefusals : List (Bytes × String) :=
  [(ascii "enable", "lru_crawler enable is not implemented"),
    (ascii "disable", "lru_crawler disable is not implemented"),
    (ascii "sleep", "lru_crawler sleep is not implemented"),
    (ascii "tocrawl", "lru_crawler tocrawl is not implemented"),
    (ascii "crawl", "lru_crawler crawl is not implemented")]

def crawlerStyle (name : Bytes) : Except ErrorKind DumpStyle :=
  if name = ascii "metadump" then .ok .metadump
  else if name = ascii "mgdump" then .ok .mgdump
  else
    match crawlerRefusals.lookup name with
    | some detail => .error (.client detail)
    | none => .error .error

/-- `parse_lru_crawler`. -/
def parseLruCrawler : List Bytes → Except ErrorKind Understood
  | [] => throw .error
  | name :: tokens => do
    let style ← crawlerStyle name
    let slabClass ← required .error tokens[0]?
    let selected := slabClass = ascii "all" ∨ slabClass = ascii "hash" ∨ slabClass = dumpClass
    return ⟨wholeListing maxListLimit, false, .dump ⟨style, selected⟩⟩

/-- The commands of `text.rs` that are their line, from the words behind the verb. -/
def textLine (verb : TextVerb) (tokens : List Bytes) : Except ErrorKind Understood :=
  match verb with
  | .get => do return ⟨.getMany (← parseKeys tokens), false, .retrieval false⟩
  | .gets => do return ⟨.getMany (← parseKeys tokens), false, .retrieval true⟩
  | .gat => do
    let ttlSecs ← parseExptime tokens[0]?
    return ⟨.getAndTouch (← parseKeys (tokens.drop 1)) ttlSecs, false, .retrieval false⟩
  | .gats => do
    let ttlSecs ← parseExptime tokens[0]?
    return ⟨.getAndTouch (← parseKeys (tokens.drop 1)) ttlSecs, false, .retrieval true⟩
  | .delete => do
    let key ← parseKey tokens[0]?
    return ⟨.delete key, hasNoreply (tokens.drop 1), .deleted⟩
  | .touch => do
    let key ← parseKey tokens[0]?
    let ttlSecs ← parseExptime tokens[1]?
    return ⟨.touch key ttlSecs, hasNoreply (tokens.drop 2), .touched⟩
  | .incr => do
    let key ← parseKey tokens[0]?
    let delta ← required (.client "invalid numeric delta argument") (tokens[1]?.bind parseNumber)
    return ⟨.arithmetic (.counter key delta false), hasNoreply (tokens.drop 2), .counter⟩
  | .decr => do
    let key ← parseKey tokens[0]?
    let delta ← required (.client "invalid numeric delta argument") (tokens[1]?.bind parseNumber)
    return ⟨.arithmetic (.counter key delta true), hasNoreply (tokens.drop 2), .counter⟩
  | .flushAll => return ⟨.flush, hasNoreply tokens, .ok⟩
  | .deleteByTag => do
    let tag ← parseTag tokens[0]?
    return ⟨.deleteByTag tag, hasNoreply (tokens.drop 1), .deleted⟩
  | .stats => parseStats tokens
  | .lruCrawler => parseLruCrawler tokens
  | .version => return ⟨.version, false, .version⟩
  | .quit => return ⟨.quit, false, .quit⟩
  | .verbosity => do
    let level ← required .error (tokens[0]?.filter (· ≠ ascii "noreply"))
    let _ ← required badLine (parseNumber level)
    return ⟨.version, hasNoreply (tokens.drop 1), .ok⟩
  | .empty => throw badLine
  | _ => throw .error

/-- The verbs that carry a data block. -/
def TextVerb.stores : TextVerb → Bool
  | .set | .add | .replace | .append | .prepend | .cas => true
  | _ => false

/-- `text::parse`. -/
def parseText (verb line : Bytes) (afterLine : Nat) (buf : Bytes) : Except ProtocolError Outcome :=
  if (textVerb verb).stores then parseStorage (textVerb verb) line afterLine buf
  else at_ afterLine (textLine (textVerb verb) ((tokensOf line).drop 1))

/-! ### Meta commands -/

inductive MetaVerb where
  | mg
  | ms
  | md
  | mn
  | ma
  | me
  | mdt
  deriving DecidableEq, Repr

def metaVerbs : List (Bytes × MetaVerb) :=
  [(ascii "mg", .mg), (ascii "ms", .ms), (ascii "md", .md), (ascii "mn", .mn), (ascii "ma", .ma),
    (ascii "me", .me), (ascii "mdt", .mdt)]

/-- `is_meta_verb`, with the verb. -/
def metaVerb (verb : Bytes) : Option MetaVerb := metaVerbs.lookup verb

/-- `parse_key` of `meta.rs`. -/
def parseMetaKey (token : Option Bytes) : Except ErrorKind Bytes :=
  checkKey (.client "missing key") (.client "invalid key")
    (.client "key contains a control character") token

/-- What a flag letter means. -/
inductive Flag where
  | wantValue
  | wantClientFlags
  | wantCas
  | wantTtl
  | wantSize
  | wantKey
  | quiet
  | ignored
  | echo
  | ttl
  | clientFlags
  | compare
  | delta
  | mode
  | tags
  | unsupported
  | invalid
  deriving DecidableEq, Repr

def flagLetters : List (Bytes × Flag) :=
  [(ascii "v", .wantValue), (ascii "f", .wantClientFlags), (ascii "c", .wantCas),
    (ascii "t", .wantTtl), (ascii "s", .wantSize), (ascii "k", .wantKey), (ascii "q", .quiet),
    (ascii "u", .ignored), (ascii "O", .echo), (ascii "T", .ttl), (ascii "F", .clientFlags),
    (ascii "C", .compare), (ascii "D", .delta), (ascii "M", .mode), (ascii "G", .tags),
    (ascii "b", .unsupported), (ascii "h", .unsupported), (ascii "l", .unsupported),
    (ascii "x", .unsupported), (ascii "I", .unsupported), (ascii "E", .unsupported),
    (ascii "R", .unsupported), (ascii "N", .unsupported)]

def flagOf (letter : UInt8) : Flag := (flagLetters.lookup [letter]).getD .invalid

/-- `Collected`. -/
structure Collected where
  asked : MetaFlags := {}
  ttl : Option Nat := none
  clientFlags : Option Nat := none
  cas : Option Nat := none
  mode : Option UInt8 := none
  delta : Option Nat := none
  tags : List Bytes := []
  deriving DecidableEq, Repr

/-- The names of a `G` flag, pushed one by one. -/
def collectTags (tags : List Bytes) : List Bytes → Except ErrorKind (List Bytes)
  | [] => return tags
  | name :: names => do
    if name.length > maxTagLen then throw (.client "tag name too long")
    if tags.length ≥ absoluteMaxTags then throw (.client "too many tags")
    collectTags (tags ++ [name]) names

/-- One flag of `collect`, from its letter and its argument. -/
def collectFlag (out : Collected) (letter : UInt8) (arg : Bytes) : Except ErrorKind Collected :=
  match flagOf letter with
  | .wantValue => return { out with asked := { out.asked with wantValue := true } }
  | .wantClientFlags => return { out with asked := { out.asked with wantClientFlags := true } }
  | .wantCas => return { out with asked := { out.asked with wantCas := true } }
  | .wantTtl => return { out with asked := { out.asked with wantTtl := true } }
  | .wantSize => return { out with asked := { out.asked with wantSize := true } }
  | .wantKey => return { out with asked := { out.asked with wantKey := true } }
  | .quiet => return { out with asked := { out.asked with quiet := true } }
  | .ignored => return out
  | .echo => return { out with asked := { out.asked with echoed := some arg } }
  | .ttl => do return { out with ttl := ← required (.client "bad TTL flag") (parseSeconds arg) }
  | .clientFlags => do
    let flags ← required (.client "bad flags token") ((parseNumber arg).filter (· ≤ u32Max))
    return { out with clientFlags := flags }
  | .compare => do
    return { out with cas := ← required (.client "bad CAS token") (parseNumber arg) }
  | .delta => do
    return { out with delta := ← required (.client "bad delta token") (parseNumber arg) }
  | .mode => do return { out with mode := ← required (.client "empty mode flag") arg.head? }
  | .tags => do
    return { out with tags := ← collectTags out.tags ((arg.splitOn 44).filter (· ≠ [])) }
  | .unsupported => throw (.client "unsupported flag")
  | .invalid => throw (.client "invalid flag")

/-- The loop of `collect`. -/
def collectFrom (out : Collected) : List Bytes → Except ErrorKind Collected
  | [] => return out
  | [] :: _ => throw (.client "empty flag")
  | (letter :: arg) :: tokens => do collectFrom (← collectFlag out letter arg) tokens

/-- `collect`. -/
def collect (tokens : List Bytes) : Except ErrorKind Collected := collectFrom {} tokens

/-- The mode of an `ms`: a token to compare against overrides the letter. -/
def setModeOf (mode : Option UInt8) (cas : Option Nat) : Option SetMode :=
  match cas, mode with
  | some cas, _ => some (.cas cas)
  | none, none => some .set
  | none, some letter =>
    [(ascii "E", SetMode.add), (ascii "A", .append), (ascii "P", .prepend), (ascii "R", .replace),
      (ascii "S", .set)].lookup [letter]

/-- An `ms` line before its block is looked at. -/
structure SetLine where
  key : Bytes
  bytes : Nat
  flags : Collected
  deriving DecidableEq, Repr

def parseSetLine (tokens : List Bytes) : Except ErrorKind SetLine := do
  let key ← parseMetaKey tokens[0]?
  let bytes ← required (.client "bad data length") (tokens[1]?.bind parseNumber)
  let flags ← collect (tokens.drop 2)
  return ⟨key, bytes, flags⟩

/-- An `ms` once its block is there. An invalid mode counts the line only. -/
def metaSetBody (setLine : SetLine) (afterLine : Nat) (data terminator : Bytes) :
    Except ProtocolError Outcome :=
  let ⟨key, bytes, flags⟩ := setLine
  let consumed := afterLine + bytes + 2
  if terminator ≠ [13, 10] then .error (.recoverable (.client "bad data chunk") consumed)
  else
    match setModeOf flags.mode flags.cas with
    | none => .error (.recoverable (.client "invalid mode for ms") afterLine)
    | some mode =>
      .ok (.command ⟨.set ⟨key, data, .set (flags.ttl.getD 0), flags.clientFlags.getD 0, flags.tags,
        mode, false⟩, consumed, flags.asked.quiet, .metaReply (.set flags.asked)⟩)

/-- The `ms` arm of `meta::parse`. -/
def parseMetaSet (tokens : List Bytes) (afterLine : Nat) (buf : Bytes) :
    Except ProtocolError Outcome :=
  match parseSetLine tokens with
  | .error response => .error (.recoverable response afterLine)
  | .ok setLine => withBlock buf afterLine setLine.bytes (metaSetBody setLine afterLine)

/-- A mode letter that makes an `ma` subtract. -/
def decrements (mode : Option UInt8) : Bool :=
  (mode.map fun letter => decide ([letter] = ascii "D" ∨ [letter] = ascii "-")).getD false

/-- The arms of `meta::parse` that are their line, from the words behind the verb. -/
def metaLine (verb : MetaVerb) (tokens : List Bytes) : Except ErrorKind Understood :=
  match verb with
  | .mn => return ⟨.ping, false, .metaReply .noOp⟩
  | .mg => do
    let key ← parseMetaKey tokens[0]?
    let flags ← collect (tokens.drop 1)
    let command := match flags.ttl with
      | some ttlSecs => Command.getAndTouch [key] ttlSecs
      | none => Command.get key
    return ⟨command, flags.asked.quiet, .metaReply (.get flags.asked)⟩
  | .md => do
    let key ← parseMetaKey tokens[0]?
    let flags ← collect (tokens.drop 1)
    return ⟨.delete key, flags.asked.quiet, .metaReply (.delete flags.asked)⟩
  | .ma => do
    let key ← parseMetaKey tokens[0]?
    let flags ← collect (tokens.drop 1)
    return ⟨.arithmetic (.counter key (flags.delta.getD 1) (decrements flags.mode)),
      flags.asked.quiet, .metaReply (.arithmetic flags.asked)⟩
  | .me => do
    let key ← parseMetaKey tokens[0]?
    return ⟨.get key, false, .metaReply .debug⟩
  | .mdt => do
    let tag ← parseTag tokens[0]?
    let flags ← collect (tokens.drop 1)
    return ⟨.deleteByTag tag, flags.asked.quiet, .metaReply (.delete flags.asked)⟩
  | .ms => throw .error

/-- `meta::parse`. -/
def parseMeta (verb : MetaVerb) (line : Bytes) (afterLine : Nat) (buf : Bytes) :
    Except ProtocolError Outcome :=
  let tokens := (tokensOf line).drop 1
  if verb = .ms then parseMetaSet tokens afterLine buf else at_ afterLine (metaLine verb tokens)

/-! ### The parser -/

/-- `parse` once the line is found. -/
def parseLine (line : Bytes) (afterLine : Nat) (buf : Bytes) : Except ProtocolError Outcome :=
  let verb := verbOf line
  match metaVerb verb with
  | some verb => parseMeta verb line afterLine buf
  | none => parseText verb line afterLine buf

/-- `parse`. -/
def parse (buf : Bytes) : Except ProtocolError Outcome :=
  match findLine buf with
  | .error error => .error error
  | .ok none => .ok .incomplete
  | .ok (some lineEnd) =>
    parseLine (buf.take lineEnd) (lineEnd + lineTerminatorLen buf lineEnd) buf

example : parse (ascii "set k 1 0 2 noreply\r\nhi\r\nrest") =
    .ok (.command ⟨.set ⟨ascii "k", ascii "hi", .set 0, 1, [], .set, false⟩, 25, true,
      .storage⟩) := by decide +kernel

example : parse (ascii "ms k 5 MX\r\nget a\r\n") =
    .error (.recoverable (.client "invalid mode for ms") 11) := by decide +kernel

end Memcached

end Vash
