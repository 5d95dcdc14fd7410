import Vash.Proto.MemcachedFraming

/-!
# The flags of meta commands

One collector reads the flags of every meta command, whatever its verb, and each verb
takes what it uses from what was collected.

* `collect_eq` — of the flags of one letter, the last is what is collected.
* `becomes_of_accepted` — the command an accepted `mg`, `ms`, `md` or `ma` line becomes,
  in terms of what was collected.
-/

namespace Vash.Memcached

/-- The arguments of the flags with a letter, as `read` reads them. -/
def flagged {α : Type} (letter : UInt8) (read : Bytes → Option α) (flags : List Bytes) : List α :=
  flags.filterMap fun flag => if flag.head? = some letter then read flag.tail else none

/-- The tokens of the `C` flags. -/
def casFlags : List Bytes → List Nat := flagged 67 parseNumber

/-- The deadlines of the `T` flags. -/
def ttlFlags : List Bytes → List Nat := flagged 84 parseSeconds

/-- The letters of the `M` flags. -/
def modeFlags : List Bytes → List UInt8 := flagged 77 List.head?

/-! ### The collector -/

theorem flagOf_compare_iff (letter : UInt8) : flagOf letter = .compare ↔ letter = 67 := by
  revert letter
  decide +kernel

theorem flagOf_ttl_iff (letter : UInt8) : flagOf letter = .ttl ↔ letter = 84 := by
  revert letter
  decide +kernel

theorem flagOf_mode_iff (letter : UInt8) : flagOf letter = .mode ↔ letter = 77 := by
  revert letter
  decide +kernel

/-- What one flag does to the three fields that later decide what is done. -/
theorem collectFlag_fields {out out' : Collected} {letter : UInt8} {arg : Bytes}
    (ran : collectFlag out letter arg = .ok out') :
    out'.cas = (if letter = 67 then parseNumber arg else none).or out.cas ∧
      out'.ttl = (if letter = 84 then parseSeconds arg else none).or out.ttl ∧
      out'.mode = (if letter = 77 then arg.head? else none).or out.mode := by
  simp only [← flagOf_compare_iff, ← flagOf_ttl_iff, ← flagOf_mode_iff]
  unfold collectFlag at ran
  cases flag : flagOf letter <;> rw [flag] at ran <;> dsimp only at ran
  case ttl | compare | mode =>
    obtain ⟨value, read, rest⟩ := bind_eq_ok_iff.mp ran
    cases rest
    simp [required_eq_ok read]
  case clientFlags | delta | tags =>
    obtain ⟨value, -, rest⟩ := bind_eq_ok_iff.mp ran
    cases rest
    simp
  case unsupported | invalid => cases ran
  all_goals
    cases ran
    simp

/-- A field that the flags of one letter set, and no others, holds the last of them. -/
theorem collectFrom_last {α : Type} {field : Collected → Option α} {letter : UInt8}
    {read : Bytes → Option α}
    (step : ∀ {out out' : Collected} {b : UInt8} {arg : Bytes}, collectFlag out b arg = .ok out' →
      field out' = (if b = letter then read arg else none).or (field out))
    {flags : List Bytes} {out out' : Collected} (ran : collectFrom out flags = .ok out') :
    field out' = (flagged letter read flags).getLast?.or (field out) := by
  induction flags generalizing out with
  | nil =>
    cases ran
    rfl
  | cons flag rest ih =>
    cases flag with
    | nil => cases ran
    | cons b arg =>
      obtain ⟨next, taken, more⟩ := bind_eq_ok_iff.mp ran
      rw [ih more, step taken]
      by_cases named : b = letter
      · cases found : read arg with
        | none => simp [flagged, named, found]
        | some a =>
          cases last : (flagged letter read rest).getLast? <;>
            simp_all [flagged, List.getLast?_cons]
      · simp [flagged, named]

/-- What is collected of the `C`, `T` and `M` flags is the last of each. -/
theorem collect_eq {flags : List Bytes} {out : Collected} (ran : collect flags = .ok out) :
    out.cas = (casFlags flags).getLast? ∧ out.ttl = (ttlFlags flags).getLast? ∧
      out.mode = (modeFlags flags).getLast? := by
  have cas := @collectFrom_last _ Collected.cas 67 parseNumber
    (fun taken => (collectFlag_fields taken).1) _ _ _ ran
  have ttl := @collectFrom_last _ Collected.ttl 84 parseSeconds
    (fun taken => (collectFlag_fields taken).2.1) _ _ _ ran
  have mode := @collectFrom_last _ Collected.mode 77 List.head?
    (fun taken => (collectFlag_fields taken).2.2) _ _ _ ran
  exact ⟨cas.trans Option.or_none, ttl.trans Option.or_none, mode.trans Option.or_none⟩

/-! ### Accepted lines -/

/-- What an `mg`, `ms`, `md` or `ma` of `key` becomes with the flags collected. -/
inductive Becomes (out : Collected) (key : Bytes) : MetaVerb → Command → Prop
  | get (keep : out.ttl = none) : Becomes out key .mg (.get key)
  | touch {ttlSecs : Nat} (renew : out.ttl = some ttlSecs) :
      Becomes out key .mg (.getAndTouch [key] ttlSecs)
  | set {mode : SetMode} (usable : setModeOf out.mode out.cas = some mode) (data : Bytes) :
      Becomes out key .ms (.set ⟨key, data, .set (out.ttl.getD 0), out.clientFlags.getD 0, out.tags,
        mode, false⟩)
  | delete : Becomes out key .md (.delete key)
  | count : Becomes out key .ma
      (.arithmetic (.counter key (out.delta.getD 1) (decrements out.mode)))

/-- The flags of a meta line, from its words. -/
def flagWords (verb : MetaVerb) (words : List Bytes) : List Bytes :=
  words.drop (if verb = .ms then 3 else 2)

theorem key_of_parseMetaKey {token : Option Bytes} {key : Bytes}
    (parsed : parseMetaKey token = .ok key) : token = some key := by
  obtain ⟨word, present, rest⟩ := bind_eq_ok_iff.mp parsed
  rw [required_eq_ok present]
  dsimp only at rest
  split at rest
  · cases rest
  · split at rest
    · cases rest
    · cases made : Key.new word with
      | error e =>
        rw [made] at rest
        cases rest
      | ok key' =>
        rw [made] at rest
        cases rest
        exact congrArg some (Key.new_eq_ok_iff.mp made).2.symm

/-- An `ms` line becomes the write of what it announced. -/
theorem becomes_of_metaSet {words : List Bytes} {afterLine : Nat} {buf : Bytes} {parsed : Parsed}
    (accepted : parseMetaSet words afterLine buf = .ok (.command parsed)) :
    ∃ key out, words[0]? = some key ∧ collect (words.drop 2) = .ok out ∧
      Becomes out key .ms parsed.command := by
  unfold parseMetaSet at accepted
  cases read : parseSetLine words with
  | error response =>
    rw [read] at accepted
    cases accepted
  | ok setLine =>
    rw [read] at accepted
    obtain ⟨key, named, more⟩ := bind_eq_ok_iff.mp read
    obtain ⟨bytes, -, more⟩ := bind_eq_ok_iff.mp more
    obtain ⟨out, collected, made⟩ := bind_eq_ok_iff.mp more
    cases made
    refine ⟨key, out, key_of_parseMetaKey named, collected, ?_⟩
    unfold withBlock metaSetBody at accepted
    dsimp only at accepted
    repeat' split at accepted
    all_goals cases accepted
    rename_i usable
    exact .set usable _

/-- So do the lines without a block. -/
theorem becomes_of_metaLine {verb : MetaVerb} (heeding : verb = .mg ∨ verb = .md ∨ verb = .ma)
    {words : List Bytes} {understood : Understood} (read : metaLine verb words = .ok understood) :
    ∃ key out, words[0]? = some key ∧ collect (words.drop 1) = .ok out ∧
      Becomes out key verb understood.command := by
  rcases heeding with rfl | rfl | rfl
  all_goals
    obtain ⟨key, token, read⟩ := bind_eq_ok_iff.mp read
    obtain ⟨out, collected, read⟩ := bind_eq_ok_iff.mp read
    cases read
    refine ⟨key, out, key_of_parseMetaKey token, collected, ?_⟩
  · cases ttl : out.ttl with
    | none => exact .get ttl
    | some ttlSecs => exact .touch ttl
  · exact .delete
  · exact .count

/-- The command of an accepted line, in terms of its key and the flags collected. -/
theorem becomes_of_accepted {line rest : Bytes} (single : 10 ∉ line) {verb : MetaVerb}
    (named : metaVerb (verbOf (withoutCr line)) = some verb)
    (heeding : verb = .mg ∨ verb = .ms ∨ verb = .md ∨ verb = .ma) {parsed : Parsed}
    (accepted : parse (line ++ 10 :: rest) = .ok (.command parsed)) :
    ∃ key out, (tokensOf (withoutCr line))[1]? = some key ∧
      collect (flagWords verb (tokensOf (withoutCr line))) = .ok out ∧
      Becomes out key verb parsed.command := by
  rw [parse_line single, parseLine, named] at accepted
  dsimp only [parseMeta] at accepted
  generalize tokensOf (withoutCr line) = words at accepted ⊢
  by_cases stores : verb = .ms
  · subst stores
    rw [if_pos rfl] at accepted
    obtain ⟨key, out, token, collected, becomes⟩ := becomes_of_metaSet accepted
    exact ⟨key, out, by simpa using token, by simpa [flagWords] using collected, becomes⟩
  · rw [if_neg stores] at accepted
    cases read : metaLine verb (words.drop 1) with
    | error response =>
      rw [read] at accepted
      cases accepted
    | ok understood =>
      rw [read] at accepted
      cases accepted
      obtain ⟨key, out, token, collected, becomes⟩ := becomes_of_metaLine (by tauto) read
      exact ⟨key, out, by simpa using token, by simpa [flagWords, stores] using collected,
        becomes⟩

end Vash.Memcached
