/-
# Listing patterns

`vash_core::glob`: the pattern a listing filters on. The matcher walks pattern
and candidate with two positions and remembers the last star only; on a mismatch
it gives that star one more byte. `globMatches_eq_true_iff` shows that this
decides the grammar of the tokens.

A walk holds what is left of the pattern and of the candidate in place of the
two positions, and a star holds the pattern behind it and the candidate from the
byte it was last tried at. That a walk is never behind its star is what makes it
end, and is carried by `Walk`.
-/

import Vash.Core.Request
import Vash.Library.Wildcard

namespace Vash

open Library

/-- `STAR`. -/
def globStar : UInt8 := 42

/-- `QUESTION`. -/
def globQuestion : UInt8 := 63

/-! ### The matcher -/

/-- What the token at the front of a pattern does with a byte. -/
inductive GlobMove where
  | star (rest : Bytes)
  | advance (rest : Bytes)
  | stuck
  deriving DecidableEq, Repr

/-- The `match` on the token in `glob::matches`. -/
def globMove : Bytes → UInt8 → GlobMove
  | [], _ => .stuck
  | token :: rest, b =>
    if token = globStar then .star rest
    else if token = globQuestion then .advance rest
    else if token = globEscape then
      match rest with
      | [] => .stuck
      | literal :: rest => if literal = b then .advance rest else .stuck
    else if token = b then .advance rest
    else .stuck

/-- The last star: the pattern after it, and the candidate from where it was last
tried. -/
structure GlobRetry where
  after : Bytes
  retry : Bytes
  deriving DecidableEq, Repr

/-- The variables of the loop in `glob::matches`. -/
structure GlobWalk where
  pattern : Bytes
  candidate : Bytes
  star : Option GlobRetry
  ahead : ∀ last ∈ star, pattern.length ≤ last.after.length ∧ candidate.length ≤ last.retry.length

theorem globMove_star {pattern rest : Bytes} {b : UInt8} (move : globMove pattern b = .star rest) :
    rest.length < pattern.length := by
  unfold globMove at move
  repeat' split at move
  all_goals cases move
  simp

theorem globMove_advance {pattern rest : Bytes} {b : UInt8}
    (move : globMove pattern b = .advance rest) : rest.length < pattern.length := by
  unfold globMove at move
  repeat' split at move
  all_goals cases move
  all_goals simp

namespace GlobWalk

/-- How far the last star still is from the end of the pattern. -/
def starsLeft (w : GlobWalk) : Nat :=
  match w.star with
  | none => w.pattern.length + 1
  | some last => last.after.length

/-- How often the last star can still be given a byte. -/
def triesLeft (w : GlobWalk) : Nat :=
  match w.star with
  | none => 0
  | some last => last.retry.length

/-- A star is met: it is remembered, and takes nothing at first. -/
def meetStar (candidate rest : Bytes) : GlobWalk :=
  ⟨rest, candidate, some ⟨rest, candidate⟩, by
    rintro _ ⟨⟩
    exact ⟨le_rfl, le_rfl⟩⟩

/-- The token takes the byte. -/
def advance (w : GlobWalk) (pattern candidate : Bytes) (shorter : pattern.length < w.pattern.length)
    (taken : candidate.length < w.candidate.length) : GlobWalk :=
  ⟨pattern, candidate, w.star, fun last mem =>
    ⟨shorter.le.trans (w.ahead last mem).1, taken.le.trans (w.ahead last mem).2⟩⟩

/-- The last star takes one byte more, and the walk resumes after it. -/
def backtrack (last : GlobRetry) : GlobWalk :=
  ⟨last.after, last.retry.tail, some ⟨last.after, last.retry.tail⟩, by
    rintro _ ⟨⟩
    exact ⟨le_rfl, le_rfl⟩⟩

/-- The loop of `glob::matches`. -/
def run (w : GlobWalk) : Bool :=
  match bytes : w.candidate with
  | [] => w.pattern.all (· = globStar)
  | b :: candidate =>
    match move : globMove w.pattern b with
    | .star rest => run (meetStar (b :: candidate) rest)
    | .advance rest =>
      run (w.advance rest candidate (globMove_advance move) (by simp [bytes]))
    | .stuck =>
      match remembered : w.star with
      | none => false
      | some last => run (backtrack last)
termination_by (w.starsLeft, w.triesLeft, w.candidate.length)
decreasing_by
  · -- The star lies behind the one before.
    have shorter := globMove_star move
    apply Prod.Lex.left
    unfold starsLeft meetStar
    cases remembered : w.star with
    | none => exact Nat.lt_succ_of_lt shorter
    | some last => exact shorter.trans_le (w.ahead last remembered).1
  · have shorter := globMove_advance move
    cases remembered : w.star with
    | none =>
      apply Prod.Lex.left
      simp only [starsLeft, advance, remembered]
      omega
    | some last =>
      simp only [starsLeft, triesLeft, advance, remembered, bytes]
      exact Prod.Lex.right _ (Prod.Lex.right _ (by simp))
  · -- The star has been tried with one byte more.
    have tried := (w.ahead last remembered).2
    rw [bytes] at tried
    simp only [starsLeft, triesLeft, backtrack, remembered]
    refine Prod.Lex.right _ (Prod.Lex.left _ _ ?_)
    simp only [List.length_cons, List.length_tail] at tried ⊢
    omega

end GlobWalk

/-- `glob::matches`. -/
def globMatches (pattern candidate : Bytes) : Bool :=
  if pattern.isEmpty then true else (GlobWalk.mk pattern candidate none (by simp)).run

/-- `ListRequest::matches`. -/
def ListRequest.matches (request : ListRequest) (name : Bytes) : Bool :=
  globMatches request.pattern name

/-! ### The grammar -/

/-- The tokens of a pattern. An escape with no byte after it stands for nothing. -/
def globTokens : Bytes → List (Wild UInt8)
  | [] => []
  | token :: rest =>
    if token = globStar then .run :: globTokens rest
    else if token = globQuestion then .one :: globTokens rest
    else if token = globEscape then
      match rest with
      | [] => [.dangling]
      | literal :: rest => .exactly literal :: globTokens rest
    else .exactly token :: globTokens rest

theorem globTokens_cons (token : UInt8) (rest : Bytes) :
    globTokens (token :: rest) =
      if token = globStar then .run :: globTokens rest
      else if token = globQuestion then .one :: globTokens rest
      else if token = globEscape then
        if rest = [] then [.dangling] else .exactly (rest.headD 0) :: globTokens rest.tail
      else .exactly token :: globTokens rest := by
  rw [globTokens.eq_def]
  cases rest <;> rfl

theorem globTokens_star {pattern rest : Bytes} {b : UInt8}
    (move : globMove pattern b = .star rest) : globTokens pattern = .run :: globTokens rest := by
  unfold globMove at move
  repeat' split at move
  all_goals cases move
  rename_i star
  rw [globTokens_cons, if_pos star]

theorem globTokens_advance {pattern rest : Bytes} {b : UInt8}
    (move : globMove pattern b = .advance rest) :
    ∃ token, token ≠ .run ∧ token.Accepts b ∧ globTokens pattern = token :: globTokens rest := by
  unfold globMove at move
  repeat' split at move
  all_goals cases move
  · rename_i notStar question
    exact ⟨.one, by simp, trivial, by rw [globTokens_cons, if_neg notStar, if_pos question]⟩
  · rename_i notStar notQuestion escape _ literal same
    refine ⟨.exactly literal, by simp, same, ?_⟩
    rw [globTokens_cons, if_neg notStar, if_neg notQuestion, if_pos escape, if_neg (by simp)]
    rfl
  · rename_i token notStar notQuestion notEscape same
    refine ⟨.exactly token, by simp, same, ?_⟩
    rw [globTokens_cons, if_neg notStar, if_neg notQuestion, if_neg notEscape]

theorem globTokens_stuck {pattern : Bytes} {b : UInt8} (move : globMove pattern b = .stuck)
    (candidate : Bytes) : ¬ Wild.Matches (globTokens pattern) (b :: candidate) := by
  -- A token of fixed width that does not accept the byte.
  have refuses : ∀ (token : Wild UInt8) (tokens : List (Wild UInt8)), token ≠ .run →
      ¬ token.Accepts b → ¬ Wild.Matches (token :: tokens) (b :: candidate) := by
    intro token tokens fixed refused matched
    obtain ⟨a, rest, same, accepted, -⟩ := (Wild.matches_cons fixed).mp matched
    cases same
    exact refused accepted
  unfold globMove at move
  repeat' split at move
  all_goals cases move
  · exact List.cons_ne_nil b candidate
  · rename_i notStar notQuestion escape _
    rw [globTokens_cons, if_neg notStar, if_neg notQuestion, if_pos escape, if_pos rfl]
    exact refuses _ _ (by simp) id
  · rename_i notStar notQuestion escape _ _ literal other
    rw [globTokens_cons, if_neg notStar, if_neg notQuestion, if_pos escape, if_neg (by simp)]
    exact refuses _ _ (by simp) other
  · rename_i token notStar notQuestion notEscape other
    rw [globTokens_cons, if_neg notStar, if_neg notQuestion, if_neg notEscape]
    exact refuses _ _ (by simp) other

/-- What is left of the pattern is stars exactly if its tokens are. -/
theorem all_globStar_iff (pattern : Bytes) :
    pattern.all (· = globStar) = true ↔ Wild.Matches (globTokens pattern) [] := by
  rw [Wild.matches_nil]
  induction pattern with
  | nil => simp [globTokens]
  | cons token rest ih =>
    rw [globTokens_cons]
    by_cases star : token = globStar
    · simpa [star] using ih
    · rw [if_neg star]
      have first : ¬ (token :: rest).all (· = globStar) = true := by simp [star]
      refine iff_of_false first fun all => ?_
      split at all
      · simp at all
      · split at all
        · split at all
          · simp at all
          · simp at all
        · simp at all

/-! ### The walk decides the grammar -/

namespace GlobWalk

/-- What the walk is still to decide: the rest matches as it stands, or the last star
can take more. -/
def Open (w : GlobWalk) : Prop :=
  Wild.Matches (globTokens w.pattern) w.candidate ∨
    ∃ last ∈ w.star, ∃ skipped rest, skipped ≠ [] ∧ last.retry = skipped ++ rest ∧
      Wild.Matches (globTokens last.after) rest

/-- Since the last star the walk has passed tokens of fixed width, a byte each. -/
def Tracks (w : GlobWalk) : Prop :=
  ∀ last ∈ w.star, ∃ fixed taken, (∀ token ∈ fixed, token ≠ .run) ∧
    globTokens last.after = fixed ++ globTokens w.pattern ∧
    last.retry = taken ++ w.candidate ∧ taken.length = fixed.length

/-- What the last star could match by taking more lies behind where the walk is. -/
theorem Tracks.later {w : GlobWalk} (tracks : w.Tracks) {last : GlobRetry}
    (remembered : last ∈ w.star) {skipped rest : Bytes} (more : skipped ≠ [])
    (retry : last.retry = skipped ++ rest)
    (matched : Wild.Matches (globTokens last.after) rest) :
    ∃ later, later <:+ w.candidate ∧ later.length < w.candidate.length ∧
      Wild.Matches (globTokens w.pattern) later := by
  obtain ⟨fixed, taken, width, tokens, tried, length⟩ := tracks last remembered
  rw [tokens] at matched
  obtain ⟨front, later, rfl, sameLength, matched⟩ := matched.skip width
  have shorter : later.length < w.candidate.length := by
    have total := congrArg List.length (tried.symm.trans retry)
    have positive := List.length_pos_iff.mpr more
    simp only [List.length_append] at total
    omega
  refine ⟨later, ?_, shorter, matched⟩
  have behind : later <:+ last.retry := ⟨skipped ++ front, by rw [retry]; simp⟩
  have here : w.candidate <:+ last.retry := ⟨taken, tried.symm⟩
  exact List.suffix_of_suffix_length_le behind here shorter.le

theorem open_meetStar {w : GlobWalk} (tracks : w.Tracks) {b : UInt8} {rest : Bytes}
    (move : globMove w.pattern b = .star rest) :
    (meetStar w.candidate rest).Open ↔ w.Open := by
  have tokens := globTokens_star move
  constructor
  · rintro (matched | ⟨last, remembered, skipped, rest', -, retry, matched⟩)
    · exact .inl (tokens ▸ Wild.matches_run.mpr ⟨[], _, rfl, matched⟩)
    · cases remembered
      exact .inl (tokens ▸ Wild.matches_run.mpr ⟨skipped, rest', retry, matched⟩)
  · intro isOpen
    have here : Wild.Matches (.run :: globTokens rest) w.candidate := by
      rw [← tokens]
      rcases isOpen with matched | ⟨last, remembered, skipped, rest', more, retry, matched⟩
      · exact matched
      · -- The exchange: what the old star would take, the new one takes.
        obtain ⟨later, behind, -, matched⟩ := tracks.later remembered more retry matched
        rw [tokens] at matched ⊢
        exact matched.absorb behind
    obtain ⟨skipped, rest', split, matched⟩ := here
    rcases eq_or_ne skipped [] with rfl | more
    · exact .inl (split ▸ matched)
    · exact .inr ⟨_, rfl, skipped, rest', more, split, matched⟩

theorem open_advance {w : GlobWalk} {b : UInt8} {candidate rest : Bytes}
    (bytes : w.candidate = b :: candidate) (move : globMove w.pattern b = .advance rest)
    (shorter : rest.length < w.pattern.length) (taken : candidate.length < w.candidate.length) :
    (w.advance rest candidate shorter taken).Open ↔ w.Open := by
  obtain ⟨token, fixed, accepts, tokens⟩ := globTokens_advance move
  have here : Wild.Matches (globTokens w.pattern) w.candidate ↔
      Wild.Matches (globTokens rest) candidate := by
    rw [tokens, bytes, Wild.matches_cons fixed]
    constructor
    · rintro ⟨a, rest', same, -, matched⟩
      cases same
      exact matched
    · intro matched
      exact ⟨b, candidate, rfl, accepts, matched⟩
  exact or_congr here.symm Iff.rfl

theorem tracks_advance {w : GlobWalk} (tracks : w.Tracks) {b : UInt8} {candidate rest : Bytes}
    (bytes : w.candidate = b :: candidate) (move : globMove w.pattern b = .advance rest)
    (shorter : rest.length < w.pattern.length) (taken : candidate.length < w.candidate.length) :
    (w.advance rest candidate shorter taken).Tracks := by
  intro last remembered
  obtain ⟨token, fixed, -, tokens⟩ := globTokens_advance move
  obtain ⟨passed, front, width, behind, retry, length⟩ := tracks last remembered
  refine ⟨passed ++ [token], front ++ [b], ?_, ?_, ?_, by simp [length]⟩
  · simpa [or_imp, forall_and] using ⟨width, fixed⟩
  · rw [behind, tokens, List.append_assoc]
    rfl
  · rw [retry, bytes, List.append_assoc]
    rfl

theorem open_backtrack {w : GlobWalk} {b : UInt8} {candidate : Bytes} {last : GlobRetry}
    (bytes : w.candidate = b :: candidate) (move : globMove w.pattern b = .stuck)
    (remembered : w.star = some last) : (backtrack last).Open ↔ w.Open := by
  have stuck : ¬ Wild.Matches (globTokens w.pattern) w.candidate :=
    bytes ▸ globTokens_stuck move candidate
  obtain ⟨c, retry, tried⟩ : ∃ c retry, last.retry = c :: retry := by
    have tried := (w.ahead last remembered).2
    rw [bytes] at tried
    cases bytes' : last.retry with
    | nil => simp [bytes'] at tried
    | cons c retry => exact ⟨c, retry, rfl⟩
  constructor
  · rintro (matched | ⟨_, ⟨⟩, skipped, rest, -, split, matched⟩)
    · refine .inr ⟨last, remembered, [c], retry, by simp, tried, ?_⟩
      simpa [backtrack, tried] using matched
    · refine .inr ⟨last, remembered, c :: skipped, rest, by simp, ?_, matched⟩
      have split : retry = skipped ++ rest := by simpa [tried] using split
      rw [tried, split]
      rfl
  · rintro (matched | ⟨last', remembered', skipped, rest, more, split, matched⟩)
    · exact absurd matched stuck
    · obtain rfl : last' = last := Option.some.inj (remembered'.symm.trans remembered)
      obtain ⟨d, skipped, rfl⟩ := List.exists_cons_of_ne_nil more
      have split : retry = skipped ++ rest := by
        rw [tried] at split
        exact (List.cons.inj split).2
      rcases eq_or_ne skipped [] with rfl | more
      · refine .inl ?_
        simpa [backtrack, tried, split] using matched
      · exact .inr ⟨_, rfl, skipped, rest, more, by simpa [tried] using split, matched⟩

/-- A walk that has come to the end of the candidate has no star to give more to. -/
theorem open_end {w : GlobWalk} (tracks : w.Tracks) (ended : w.candidate = []) :
    w.Open ↔ Wild.Matches (globTokens w.pattern) [] := by
  constructor
  · rintro (matched | ⟨last, remembered, skipped, rest, more, retry, matched⟩)
    · exact ended ▸ matched
    · obtain ⟨later, -, shorter, -⟩ := tracks.later remembered more retry matched
      simp [ended] at shorter
  · intro matched
    exact .inl (ended ▸ matched)

theorem tracks_of_star {pattern candidate : Bytes} (ahead) :
    (GlobWalk.mk pattern candidate (some ⟨pattern, candidate⟩) ahead).Tracks := by
  rintro _ ⟨⟩
  exact ⟨[], [], by simp, rfl, rfl, rfl⟩

theorem run_eq_true_iff (w : GlobWalk) (tracks : w.Tracks) : w.run = true ↔ w.Open := by
  fun_induction run w with
  | case1 w ended => rw [open_end tracks ended, all_globStar_iff]
  | case2 w b candidate bytes rest move ih =>
    rw [ih (tracks_of_star _), ← bytes, open_meetStar tracks move]
  | case3 w b candidate bytes rest move ih =>
    rw [ih (tracks_advance tracks bytes move _ _), open_advance bytes move]
  | case4 w b candidate bytes move forgotten =>
    refine iff_of_false (by simp) ?_
    rintro (matched | ⟨last, remembered, -⟩)
    · exact globTokens_stuck move candidate (bytes ▸ matched)
    · rw [forgotten] at remembered
      cases remembered
  | case5 w b candidate bytes move last remembered ih =>
    rw [ih (tracks_of_star _), open_backtrack bytes move remembered]

end GlobWalk

/-! ### What the matcher and its check decide -/

theorem globMatches_eq_true_iff (pattern candidate : Bytes) :
    globMatches pattern candidate = true ↔
      pattern = [] ∨ Wild.Matches (globTokens pattern) candidate := by
  unfold globMatches
  split
  · rename_i empty
    simp [List.isEmpty_iff.mp empty]
  · rename_i nonempty
    have some : pattern ≠ [] := by simpa using nonempty
    rw [GlobWalk.run_eq_true_iff _ (by rintro _ ⟨⟩)]
    simp [GlobWalk.Open, some]

/-- `glob::validate` refuses a pattern whose last token is an escape of nothing. -/
theorem globValidate_eq_error_iff (pattern : Bytes) :
    globValidate pattern = .error .badPattern ↔
      (globTokens pattern).getLast? = some .dangling := by
  -- A token in front is the last one only if no other follows.
  have cons : ∀ (token : Wild UInt8) (tokens : List (Wild UInt8)), token ≠ .dangling →
      ((token :: tokens).getLast? = some .dangling ↔ tokens.getLast? = some .dangling) := by
    intro token tokens other
    cases tokens with
    | nil => simpa using other
    | cons => simp
  fun_induction globValidate pattern with
  | case1 => simp [globTokens]
  | case2 => simp [globTokens_cons, globEscape, globStar, globQuestion]
  | case3 literal rest ih =>
    refine ih.trans ?_
    rw [globTokens_cons, if_neg (by decide), if_neg (by decide), if_pos rfl, if_neg (by simp)]
    exact (cons _ _ (by simp)).symm
  | case4 token rest notEscape ih =>
    refine ih.trans ?_
    rw [globTokens_cons]
    split
    · exact (cons _ _ (by simp)).symm
    · split
      · exact (cons _ _ (by simp)).symm
      · exact (cons _ _ (by simp)).symm

theorem globValidate_cases (pattern : Bytes) :
    globValidate pattern = .ok () ∨ globValidate pattern = .error .badPattern := by
  fun_induction globValidate pattern with
  | case1 => exact .inl rfl
  | case2 => exact .inr rfl
  | case3 _ _ ih => exact ih
  | case4 _ _ _ ih => exact ih

/-- The matcher decides whether the candidate is in the language of the pattern's
tokens, and the check refuses just the patterns that end in a lone escape. -/
theorem glob_decides_grammar (pattern : Bytes) :
    (globValidate pattern ≠ .ok () ↔ (globTokens pattern).getLast? = some .dangling) ∧
      ∀ candidate, globMatches pattern candidate = true ↔
        pattern = [] ∨ Wild.Matches (globTokens pattern) candidate := by
  refine ⟨?_, globMatches_eq_true_iff pattern⟩
  rw [← globValidate_eq_error_iff]
  rcases globValidate_cases pattern with valid | refused
  · simp [valid]
  · simp [refused]

end Vash
