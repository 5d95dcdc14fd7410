import Vash.Proto.RespCommand
import Vash.Proto.RespValue

/-!
# The Redis dialect: what the parser fails with

The parser indexes into the arguments of a command after checking how many there are, and
refuses in words that are fixed but for what they quote. `fails_parseArgs_iff` goes through
the verbs once for both: whatever a command is refused with fits on a line, and only an
`MSETTAGS` that ends after its pairs is indexed out of range, where its `numtags` would be.
-/

namespace Vash.Resp

/-- Every error of the computation is of the kind. -/
def Fails {ε α : Type} (kind : ε → Prop) (x : Except ε α) : Prop := ∀ e, x = .error e → kind e

section Fails
variable {ε α β : Type} {kind : ε → Prop}

@[simp] theorem fails_ok (a : α) : Fails kind (.ok a) := by simp [Fails]

@[simp] theorem fails_pure (a : α) : Fails kind (pure a : Except ε α) := fails_ok a

@[simp] theorem fails_error (e : ε) : Fails kind (.error e : Except ε α) ↔ kind e := by
  simp [Fails]

@[simp] theorem fails_throw (e : ε) : Fails kind (throw e : Except ε α) ↔ kind e := fails_error e

@[simp] theorem fails_bind (x : Except ε α) (f : α → Except ε β) :
    Fails kind (x >>= f) ↔ Fails kind x ∧ ∀ a, x = .ok a → Fails kind (f a) := by
  cases x <;> simp [Fails, bind, Except.bind]

@[simp] theorem fails_map (x : Except ε α) (f : α → β) : Fails kind (f <$> x) ↔ Fails kind x := by
  cases x <;> simp [Fails, Functor.map, Except.map]

@[simp] theorem fails_ite (c : Prop) [Decidable c] (x y : Except ε α) :
    Fails kind (if c then x else y) ↔ (c → Fails kind x) ∧ (¬ c → Fails kind y) := by
  split <;> simp [*]

theorem fails_mapM {f : α → Except ε β} (each : ∀ a, Fails kind (f a)) (as : List α) :
    Fails kind (as.mapM f) := by
  induction as with
  | nil => simp
  | cons a as ih => simp [each, ih]

end Fails

/-! ### The ways a parser fails -/

/-- No index was out of range. -/
def Safe {α : Type} (m : ParseM α) : Prop := m ≠ .error .panicked

theorem safe_iff_fails {α : Type} {m : ParseM α} : Safe m ↔ Fails (· ≠ .panicked) m :=
  ⟨fun safe _ same panic => safe (panic ▸ same), fun fails same => fails _ same rfl⟩

/-- The words of a reply that are not quoted fit on a line. -/
def ErrorReply.Plain : ErrorReply → Prop
  | .unknownCommand _ => True
  | .wrongArity name => Clean (ascii name)
  | .invalidExpire name => Clean (ascii name)
  | .unknownSubcommand container _ => Clean (ascii container)
  | .err message => Clean (ascii message)
  | .coded code message => Clean (ascii code) ∧ Clean (ascii message)

instance : DecidablePred ErrorReply.Plain
  | .unknownCommand _ => inferInstanceAs (Decidable True)
  | .wrongArity name => inferInstanceAs (Decidable (Clean (ascii name)))
  | .invalidExpire name => inferInstanceAs (Decidable (Clean (ascii name)))
  | .unknownSubcommand container _ => inferInstanceAs (Decidable (Clean (ascii container)))
  | .err message => inferInstanceAs (Decidable (Clean (ascii message)))
  | .coded code message =>
    inferInstanceAs (Decidable (Clean (ascii code) ∧ Clean (ascii message)))

@[simp] theorem plain_syntaxError : ErrorReply.syntaxError.Plain := by decide

@[simp] theorem plain_notAnInteger : ErrorReply.notAnInteger.Plain := by decide

@[simp] theorem plain_notAFloat : ErrorReply.notAFloat.Plain := by decide

@[simp] theorem plain_overflow : ErrorReply.overflow.Plain := by decide

section Steps
variable {α β : Type} {kind : Halt → Prop}

@[simp] theorem fails_refuse (reply : ErrorReply) :
    Fails kind (refuse reply : ParseM α) ↔ kind (.refused reply) := fails_error _

@[simp] theorem refuse_ne_ok (reply : ErrorReply) (a : α) : (refuse reply : ParseM α) ≠ .ok a := by
  simp [refuse, throw, throwThe, MonadExceptOf.throw]

@[simp] theorem refuse_bind (reply : ErrorReply) (f : α → ParseM β) :
    (refuse reply >>= f) = refuse reply := rfl

/-- A check that was passed. -/
theorem ite_eq_ok {c : Prop} [Decidable c] {reply : ErrorReply} {m : ParseM α} {a : α} :
    (if c then refuse reply else m) = .ok a ↔ ¬ c ∧ m = .ok a := by
  split <;> simp [*]

@[simp] theorem fails_required (reply : ErrorReply) (o : Option α) :
    Fails kind (required reply o) ↔ (o = none → kind (.refused reply)) := by
  cases o <;> simp [required]

@[simp] theorem required_eq_ok {reply : ErrorReply} {o : Option α} {a : α} :
    required reply o = .ok a ↔ o = some a := by
  cases o <;> simp [required, pure, Except.pure]

@[simp] theorem fails_index (args : List Bytes) (i : Nat) :
    Fails kind (index args i) ↔ (args.length ≤ i → kind .panicked) := by
  unfold index
  cases found : args[i]? with
  | none => simp [List.getElem?_eq_none_iff.mp found]
  | some arg => simp [(List.getElem?_eq_some_iff.mp found).1]

@[simp] theorem index_eq_ok {args : List Bytes} {i : Nat} {arg : Bytes} :
    index args i = .ok arg ↔ args[i]? = some arg := by
  unfold index
  split <;> simp_all [throw, throwThe, MonadExceptOf.throw, pure, Except.pure]

@[simp] theorem fails_slice (args : List Bytes) (first last : Nat) :
    Fails kind (slice args first last) ↔
      (¬ (first ≤ last ∧ last ≤ args.length) → kind .panicked) := by
  simp only [slice, fails_ite, fails_pure, fails_throw, implies_true, true_and]

@[simp] theorem exactly_eq_ok {args : List Bytes} {count : Nat} {name : String} {u : Unit} :
    exactly args count name = .ok u ↔ args.length = count := by
  unfold exactly
  split <;> simp_all [refuse, throw, throwThe, MonadExceptOf.throw, pure, Except.pure]

@[simp] theorem atLeast_eq_ok {args : List Bytes} {count : Nat} {name : String} {u : Unit} :
    atLeast args count name = .ok u ↔ count ≤ args.length := by
  unfold atLeast
  split <;> simp_all [refuse, throw, throwThe, MonadExceptOf.throw, pure, Except.pure]

theorem fails_walk {σ : Type} {step : σ → Bytes → List Bytes → ParseM (σ × List Bytes)}
    (each : ∀ s token rest, Fails kind (step s token rest)) (fuel : Nat) (s : σ)
    (tokens : List Bytes) : Fails kind (Options.walk step fuel s tokens) := by
  induction fuel generalizing s tokens with
  | zero => cases tokens <;> simp [Options.walk]
  | succ fuel ih =>
    cases tokens with
    | nil => simp [Options.walk]
    | cons token rest => simp [Options.walk, each, ih]

end Steps

/-- The options begin within the arguments. -/
theorem tagList_le {args : List Bytes} {at_ : Nat} {tagged : Bool} {name : String}
    {tags : List Bytes} {optionsAt : Nat}
    (read : tagList args at_ tagged name = .ok (tags, optionsAt)) (le : at_ ≤ args.length) :
    optionsAt ≤ args.length := by
  unfold tagList at read
  cases tagged
  · cases read
    exact le
  · obtain ⟨raw, -, read⟩ := bind_eq_ok_iff.mp read
    obtain ⟨count, -, read⟩ := bind_eq_ok_iff.mp read
    simp only [refuse_bind, ite_eq_ok] at read
    obtain ⟨-, -, room, read⟩ := read
    obtain ⟨names, -, read⟩ := bind_eq_ok_iff.mp read
    obtain ⟨tags, -, read⟩ := bind_eq_ok_iff.mp read
    cases read
    exact Nat.not_lt.mp room

/-- The pairs use up the arguments, and no `numtags` is left. -/
def NumtagsMissing (args : List Bytes) : Prop :=
  ∃ raw count, args[1]? = some raw ∧ parseInt raw = some count ∧ 2 ≤ count ∧
    count ≤ maxBatchItems ∧ args.length = 2 + count.toNat * 2

/-- The verb that panics. -/
def OutOfTags (args : List Bytes) : Prop :=
  args.head?.map upperVerb = some (ascii "MSETTAGS") ∧ NumtagsMissing args

/-! ### The verbs -/

section Verbs
variable {kind : Halt → Prop} (words : ∀ reply : ErrorReply, reply.Plain → kind (.refused reply))
include words

theorem fails_argument (rest : List Bytes) : Fails kind (Options.argument rest) := by
  cases rest <;> simp [Options.argument, words]

theorem fails_setCondition (slot value : Condition) :
    Fails kind (Options.setCondition slot value) := by simp [Options.setCondition, words]

theorem fails_setExpiry (slot value : Expiry) : Fails kind (Options.setExpiry slot value) := by
  simp [Options.setExpiry, words]

theorem fails_checkTag (tag : Bytes) : Fails kind (checkTag tag) := by
  have invalid := words (.err "invalid tag") (by decide)
  simp [checkTag, invalid]

section Named
variable {name : String} (plain : Clean (ascii name))
include plain

theorem fails_exactly (args : List Bytes) (count : Nat) :
    Fails kind (exactly args count name) := by
  simp [exactly, words (.wrongArity name) plain]

theorem fails_atLeast (args : List Bytes) (count : Nat) :
    Fails kind (atLeast args count name) := by
  simp [atLeast, words (.wrongArity name) plain]

theorem fails_expiry (keepTtl : Bool) (token : Bytes) (rest : List Bytes) :
    Fails kind (Options.expiry name keepTtl token rest) := by
  unfold Options.expiry
  split
  · simp
  · split <;> simp [words, fails_argument words, words (.invalidExpire name) plain]

theorem fails_setOption (set : SetArgs) (token : Bytes) (rest : List Bytes) :
    Fails kind (setOption name set token rest) := by
  have conditions := words
    (.err "SET value conditions (IFEQ, IFNE, IFDEQ, IFDNE) are not supported") (by decide)
  unfold setOption
  simp [fails_expiry words plain, fails_setCondition words]
  intros
  split <;> simp [words, conditions, fails_setExpiry words]

theorem fails_mSetOption (state : Condition × Expiry) (token : Bytes) (rest : List Bytes) :
    Fails kind (mSetOption name state token rest) := by
  unfold mSetOption
  simp [fails_expiry words plain, fails_setCondition words]
  intros
  split <;> simp [words, fails_setExpiry words]

theorem fails_tagList (args : List Bytes) (at_ : Nat) (tagged : Bool) :
    Fails kind (tagList args at_ tagged name) ↔
      (tagged = true → args.length ≤ at_ → kind .panicked) := by
  have negative := words (.err "numtags should be greater than or equal to 0") (by decide)
  have many := words (.err "too many tags") (by decide)
  unfold tagList
  cases tagged
  · simp
  · simp [words, negative, many, words (.wrongArity name) plain,
      fails_mapM (fails_checkTag words)]
    omega

end Named

theorem fails_parseSet (args : List Bytes) (tagged : Bool) : Fails kind (parseSet args tagged) := by
  have plain : Clean (ascii (if tagged then "settags" else "set")) := by
    cases tagged <;> decide
  unfold parseSet
  simp only [fails_bind, fails_atLeast words plain, atLeast_eq_ok, fails_tagList words plain,
    fails_index, sliceFrom, fails_slice, fails_pure, fails_walk (fails_setOption words plain),
    true_and, implies_true, and_true, le_rfl]
  intro _ enough
  have longer : 3 ≤ args.length ∧ (tagged = true → 3 < args.length) := by
    cases tagged <;> simp at enough <;> simp <;> omega
  refine ⟨fun isTagged short => absurd (longer.2 isTagged) (by omega), fun read taken => ?_⟩
  have within := tagList_le taken longer.1
  exact ⟨by omega, fun _ _ => ⟨by omega, fun _ _ outside => absurd within outside⟩⟩

theorem fails_parseMSetEx (args : List Bytes) (tagged : Bool) :
    Fails kind (parseMSetEx args tagged) ↔
      (tagged = true ∧ NumtagsMissing args → kind .panicked) := by
  have plain : Clean (ascii (if tagged then "msettags" else "msetex")) := by
    cases tagged <;> decide
  have few := words (.err "numkeys should be greater than 0") (by decide)
  have many := words (.err "too many keys") (by decide)
  have arity := words (.wrongArity (if tagged then "msettags" else "msetex")) plain
  have integer := words .notAnInteger plain_notAnInteger
  unfold parseMSetEx
  simp only [refuse_bind, fails_bind, fails_atLeast words plain, atLeast_eq_ok,
    fails_tagList words plain, fails_index, index_eq_ok, required_eq_ok, sliceFrom, fails_slice,
    fails_pure, fails_walk (fails_mSetOption words plain), fails_ite, fails_refuse, fails_required,
    few, many, arity, integer, true_and, implies_true, and_true, le_rfl]
  constructor
  · rintro safe ⟨rfl, raw, count, first, number, two, few, used⟩
    have read := (safe () (by simp; omega)).2 raw first count number (by omega)
      (by simp; omega) (by omega)
    exact read.1 rfl (by omega)
  · intro counted _ enough
    have four : 4 ≤ args.length := by
      split at enough <;> omega
    refine ⟨by omega, fun raw first count number positive few room => ?_⟩
    refine ⟨fun isTagged short => ?_, fun read taken => ?_⟩
    · subst isTagged
      simp only [if_true] at enough
      exact counted ⟨rfl, raw, count, first, number, by omega, by omega, by omega⟩
    · have within := tagList_le taken (by omega)
      exact ⟨fun outside => absurd within outside, fun _ _ _ _ => by omega⟩

theorem fails_parseExpire {name : String} (plain : Clean (ascii name)) (args : List Bytes)
    (absolute : Bool) : Fails kind (parseExpire args name absolute) := by
  have expire := words (.invalidExpire name) plain
  unfold parseExpire
  simp only [fails_bind, fails_atLeast words plain, atLeast_eq_ok, fails_index, fails_required,
    words, expire, plain_notAnInteger, implies_true, true_and]
  intro _ enough
  refine ⟨by omega, fun _ _ _ _ _ _ => ?_⟩
  split
  · simp
    omega
  · simp [words]
    grind

theorem fails_incrExOption (floats : FloatOps) (o : IncrExOptions) (token : Bytes)
    (rest : List Bytes) : Fails kind (incrExOption floats o token rest) := by
  have plain : Clean (ascii "increx") := by decide
  unfold incrExOption
  simp [fails_expiry words plain, fails_argument words, words]
  intros
  split <;> simp [words]

theorem fails_readBound (floats : FloatOps) (delta : Number) (token : Option Bytes) :
    Fails kind (readBound floats delta token) := by
  unfold readBound
  split
  · simp
  · split <;> simp [words]

theorem fails_scanOption (scan : Scan) (token : Bytes) (rest : List Bytes) :
    Fails kind (scanOption scan token rest) := by
  have classes := words (.err "character classes are not supported in MATCH") (by decide)
  have pattern := words (.err "invalid MATCH pattern") (by decide)
  unfold scanOption
  simp [fails_argument words, words, classes]
  intros
  split <;> simp [pattern]

section Args
variable (args : List Bytes)

theorem fails_parseIncrEx (floats : FloatOps) : Fails kind (parseIncrEx floats args) := by
  have plain : Clean (ascii "increx") := by decide
  have crossed := words (.err "LBOUND must be less than or equal to UBOUND") (by decide)
  unfold parseIncrEx
  simp [sliceFrom, fails_atLeast words plain, fails_walk (fails_incrExOption words floats),
    fails_readBound words, words, crossed]
  grind

theorem fails_parseScan : Fails kind (parseScan args) := by
  have plain : Clean (ascii "scan") := by decide
  have cursor := words (.err "invalid cursor") (by decide)
  unfold parseScan
  simp [sliceFrom, fails_atLeast words plain, fails_walk (fails_scanOption words), cursor]
  grind

theorem fails_parseSlowlog : Fails kind (parseSlowlog args) := by
  have count := words (.err "count should be greater than or equal to -1") (by decide)
  have unknown (sub : Bytes) := words (.unknownSubcommand "SLOWLOG" sub)
    (show Clean (ascii "SLOWLOG") by decide)
  have arity := words (.wrongArity "slowlog") (by decide)
  have get := words (.wrongArity "slowlog|get") (by decide)
  have len := words (.wrongArity "slowlog|len") (by decide)
  have reset := words (.wrongArity "slowlog|reset") (by decide)
  have help := words (.wrongArity "slowlog|help") (by decide)
  unfold parseSlowlog
  split
  · simpa using arity
  · simp [count, unknown, get, len, reset, help]
    grind

theorem fails_parseHello : Fails kind (parseHello args) := by
  have version := words (.coded "NOPROTO" "unsupported protocol version") (by decide)
  have option := words (.err ("HELLO option SETNAME is not supported, and AUTH takes a username "
    ++ "and a password")) (by decide +kernel)
  unfold parseHello
  cases args[1]?
  all_goals
    simp only [fails_bind, fails_ite, fails_pure, fails_refuse, fails_index, fails_map,
      fails_required, version, option]
    grind

theorem fails_parseAuth : Fails kind (parseAuth args) := by
  have arity := words (.wrongArity "auth") (by decide)
  unfold parseAuth
  simp [words, arity]
  grind

theorem fails_parsePing : Fails kind (parsePing args) := by
  have arity := words (.wrongArity "ping") (by decide)
  unfold parsePing
  simp [arity]
  grind

theorem fails_oneKey {name : String} (plain : Clean (ascii name)) (make : Bytes → Command) :
    Fails kind (oneKey name make args) := by
  unfold oneKey
  simp [fails_exactly words plain]
  grind

theorem fails_someKeys {name : String} (plain : Clean (ascii name))
    (make : List Bytes → Command) : Fails kind (someKeys name make args) := by
  unfold someKeys
  simp [sliceFrom, fails_atLeast words plain]
  grind

theorem fails_parseMSet : Fails kind (parseMSet args) := by
  have plain : Clean (ascii "mset") := by decide
  unfold parseMSet
  simp [sliceFrom, fails_atLeast words plain, words (.wrongArity "mset") plain]
  grind

theorem fails_parseDelByTag : Fails kind (parseDelByTag args) := by
  have plain : Clean (ascii "delbytag") := by decide
  unfold parseDelByTag
  simp [sliceFrom, fails_atLeast words plain, fails_mapM (fails_checkTag words)]
  grind

theorem fails_parseAppend : Fails kind (parseAppend args) := by
  have plain : Clean (ascii "append") := by decide
  unfold parseAppend
  simp [fails_exactly words plain]
  grind

theorem fails_parseIncrBy {name : String} (plain : Clean (ascii name)) (negate : Bool) :
    Fails kind (parseIncrBy name negate args) := by
  unfold parseIncrBy
  simp [fails_exactly words plain, words]
  grind

theorem fails_parseIncrByFloat (floats : FloatOps) : Fails kind (parseIncrByFloat floats args) := by
  have plain : Clean (ascii "incrbyfloat") := by decide
  unfold parseIncrByFloat
  simp [fails_exactly words plain, words]
  grind

omit words in
theorem fails_parseInfo (some : 1 ≤ args.length) : Fails kind (parseInfo args) := by
  unfold parseInfo
  simp [sliceFrom]
  grind

end Args

/-- Every verb but one is parsed without a panic, and refuses in words that fit on a line. -/
theorem fails_verbs (floats : FloatOps) {args : List Bytes} (verb : args ≠ [])
    {entry : Bytes × (List Bytes → ParseM Command)} (mem : entry ∈ verbs floats)
    (other : entry.1 ≠ ascii "MSETTAGS") : Fails kind (entry.2 args) := by
  have untagged := (fails_parseMSetEx words args false).mpr (by simp)
  have info : Fails kind (parseInfo args) := fails_parseInfo args (List.length_pos_iff.mpr verb)
  simp only [verbs, List.mem_cons, List.not_mem_nil, or_false] at mem
  rcases mem with rfl | rfl | rfl | rfl | rfl | rfl | rfl | rfl | rfl | rfl | rfl | rfl | rfl |
    rfl | rfl | rfl | rfl | rfl | rfl | rfl | rfl | rfl | rfl | rfl | rfl | rfl | rfl | rfl |
    rfl | rfl
  all_goals first
    | exact absurd rfl other
    | exact untagged
    | exact info
    | exact fails_oneKey words args (by decide) _
    | exact fails_someKeys words args (by decide) _
    | exact fails_parseExpire words (by decide) args _
    | exact fails_parseIncrBy words args (by decide) _
    | simp only [fails_pure, fails_parseHello words, fails_parseAuth words, fails_parsePing words,
        fails_parseSet words, fails_parseMSet words, fails_parseDelByTag words,
        fails_parseAppend words, fails_parseIncrByFloat words, fails_parseIncrEx words,
        fails_parseScan words, fails_parseSlowlog words]

/-- A command with a verb is refused in words that fit on a line, and panics just when it is
an `MSETTAGS` without its `numtags`. -/
theorem fails_parseArgs_iff (floats : FloatOps) {args : List Bytes} (verb : args ≠ []) :
    Fails kind (parseArgs floats args) ↔ (OutOfTags args → kind .panicked) := by
  obtain ⟨raw, rest, rfl⟩ := List.exists_cons_of_ne_nil verb
  have parsed : ∀ found, (verbs floats).lookup (upperVerb raw) = found →
      parseArgs floats (raw :: rest) =
        found.elim (refuse (.unknownCommand raw)) fun parser => parser (raw :: rest) := by
    rintro (_ | parser) found <;>
      simp only [parseArgs, index, List.getElem?_cons_zero, pure_bind, found, Option.elim]
  by_cases tagged : upperVerb raw = ascii "MSETTAGS"
  · have found : (verbs floats).lookup (ascii "MSETTAGS") =
        some fun args => parseMSetEx args true := rfl
    rw [parsed _ (tagged ▸ found)]
    simp [fails_parseMSetEx words, OutOfTags, tagged]
  · have never : ¬ OutOfTags (raw :: rest) := fun out => tagged (by simpa using out.1)
    refine iff_of_true ?_ fun out => absurd out never
    cases found : (verbs floats).lookup (upperVerb raw) with
    | some parser =>
      rw [parsed _ found]
      obtain ⟨before, after, eq, -⟩ := List.lookup_eq_some_iff.mp found
      have listed : (upperVerb raw, parser) ∈ verbs floats := by simp [eq]
      exact fails_verbs words floats verb listed tagged
    | none =>
      rw [parsed _ found]
      exact (fails_refuse _).mpr (words _ trivial)

end Verbs

/-- A command with a verb is parsed without a panic, unless it is an `MSETTAGS` without
its `numtags`. -/
theorem safe_parseArgs_iff (floats : FloatOps) {args : List Bytes} (verb : args ≠ []) :
    Safe (parseArgs floats args) ↔ ¬ OutOfTags args := by
  have safe : Fails (· ≠ .panicked) (parseArgs floats args) ↔ (OutOfTags args →
      Halt.panicked ≠ .panicked) := fails_parseArgs_iff (by simp) floats verb
  simpa [safe_iff_fails] using safe

end Vash.Resp
