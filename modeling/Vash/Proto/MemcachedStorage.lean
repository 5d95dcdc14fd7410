/-
# Classic storage lines

The other direction of the classic parser: a storage command as a client writes
it, and what the parser makes of it. Words are found by position and the block by
its length, so both come back as they were written; only `noreply` is looked for
among all words of the line, the key included (`storage_parses_iff`).
-/

import Vash.Proto.MemcachedFraming

namespace Vash.Memcached

/-! ### What is written -/

/-- The verbs of `parse_storage`, `cas` with the token behind it. -/
inductive StorageVerb where
  | set
  | add
  | replace
  | append
  | prepend
  | cas (token : Nat)
  deriving DecidableEq, Repr

namespace StorageVerb

def word : StorageVerb → Bytes
  | set => ascii "set"
  | add => ascii "add"
  | replace => ascii "replace"
  | append => ascii "append"
  | prepend => ascii "prepend"
  | cas _ => ascii "cas"

def mode : StorageVerb → SetMode
  | set => .set
  | add => .add
  | replace => .replace
  | append => .append
  | prepend => .prepend
  | cas token => .cas token

/-- The token of a `cas`, as the last of the numbers. -/
def extra : StorageVerb → List Bytes
  | cas token => [decimal token]
  | _ => []

/-- The verb the parser reads. -/
def textVerb : StorageVerb → TextVerb
  | set => .set
  | add => .add
  | replace => .replace
  | append => .append
  | prepend => .prepend
  | cas _ => .cas

end StorageVerb

/-- A byte a key may hold. -/
def IsKeyByte (b : UInt8) : Prop := 32 < b ∧ b ≠ 127

instance decidableIsKeyByte (b : UInt8) : Decidable (IsKeyByte b) :=
  inferInstanceAs (Decidable (_ ∧ _))

/-- A storage command a client may send. -/
structure StorageRequest where
  verb : StorageVerb
  key : Bytes
  flags : Nat
  exptime : Nat
  data : Bytes
  noreply : Bool
  key_ne_nil : key ≠ []
  key_length : key.length ≤ maxKeyLen
  key_bytes : ∀ b ∈ key, IsKeyByte b
  flags_fit : flags < 2 ^ 32
  exptime_fits : exptime < 2 ^ 32
  token_fits : ∀ token, verb = .cas token → token < 2 ^ 64
  data_length : data.length ≤ absoluteMaxValueLen

namespace StorageRequest

variable (request : StorageRequest)

/-- The words of the line. -/
def words : List Bytes :=
  [request.verb.word, request.key, decimal request.flags, decimal request.exptime,
    decimal request.data.length] ++ request.verb.extra ++
    if request.noreply then [ascii "noreply"] else []

/-- The line, ended with a newline or with a carriage return before it. -/
def line (crlf : Bool) : Bytes :=
  [32].intercalate request.words ++ if crlf then [13] else []

/-- The command as it is sent: the block always ends with both. -/
def render (crlf : Bool) : Bytes := request.line crlf ++ 10 :: (request.data ++ [13, 10])

/-- What the line says, with the reply left out if `noreply` is. -/
def parsed (crlf noreply : Bool) : Parsed :=
  ⟨.set ⟨request.key, request.data, .set request.exptime, request.flags, [], request.verb.mode,
    false⟩, (request.render crlf).length, noreply, .storage⟩

end StorageRequest

/-! ### Words -/

/-- A byte that ends or splits a line. -/
def IsBreak (b : UInt8) : Prop := b = 10 ∨ b = 13 ∨ b = 32

instance decidableIsBreak (b : UInt8) : Decidable (IsBreak b) :=
  inferInstanceAs (Decidable (_ ∨ _))

theorem not_isBreak_of_isKeyByte {b : UInt8} (clean : IsKeyByte b) : ¬ IsBreak b := by
  rintro (rfl | rfl | rfl) <;> exact absurd clean (by decide)

theorem not_isBreak_of_digit {b : UInt8} (digit : isDigit b = true) : ¬ IsBreak b := by
  rintro (rfl | rfl | rfl) <;> cases digit

/-- A word: bytes that do not end it. -/
def IsWord (word : Bytes) : Prop := word ≠ [] ∧ ∀ b ∈ word, ¬ IsBreak b

instance decidableIsWord (word : Bytes) : Decidable (IsWord word) :=
  inferInstanceAs (Decidable (_ ∧ _))

theorem isWord_decimal (n : Nat) : IsWord (decimal n) :=
  ⟨decimal_ne_nil n, fun b mem =>
    not_isBreak_of_digit (List.all_eq_true.mp (all_isDigit_decimal n) b mem)⟩

theorem isWord_ascii_noreply : IsWord (ascii "noreply") := by
  decide +kernel

theorem StorageVerb.isWord_word (verb : StorageVerb) : IsWord verb.word := by
  cases verb <;> (dsimp only [word]; decide +kernel)

theorem mem_intercalate {b : UInt8} {words : List Bytes} (mem : b ∈ [32].intercalate words) :
    b = 32 ∨ ∃ word ∈ words, b ∈ word := by
  induction words with
  | nil => simp at mem
  | cons word words ih =>
    cases words with
    | nil =>
      rw [List.intercalate_singleton] at mem
      exact .inr ⟨word, List.mem_singleton_self _, mem⟩
    | cons next words =>
      rw [List.intercalate_cons_cons] at mem
      simp only [List.append_assoc, List.mem_append, List.mem_singleton] at mem
      rcases mem with here | space | later
      · exact .inr ⟨word, List.mem_cons_self, here⟩
      · exact .inl space
      · rcases ih later with space | ⟨other, mem, there⟩
        · exact .inl space
        · exact .inr ⟨other, List.mem_cons_of_mem _ mem, there⟩

namespace StorageRequest

variable (request : StorageRequest)

theorem isWord_key : IsWord request.key :=
  ⟨request.key_ne_nil, fun b mem => not_isBreak_of_isKeyByte (request.key_bytes b mem)⟩

theorem isWord_of_mem : ∀ word ∈ request.words, IsWord word := by
  have extra : ∀ word ∈ request.verb.extra, IsWord word := by
    cases request.verb with
    | cas token =>
      intro word mem
      rw [List.mem_singleton.mp mem]
      exact isWord_decimal token
    | _ => simp [StorageVerb.extra]
  have silent : ∀ word ∈ (if request.noreply then [ascii "noreply"] else []), IsWord word := by
    intro word mem
    split at mem
    · rw [List.mem_singleton.mp mem]
      exact isWord_ascii_noreply
    · cases mem
  intro word mem
  simp only [words, List.append_assoc, List.mem_append, List.mem_cons, List.not_mem_nil,
    or_false] at mem
  rcases mem with (rfl | rfl | rfl | rfl | rfl) | mem | mem
  · exact request.verb.isWord_word
  · exact request.isWord_key
  · exact isWord_decimal _
  · exact isWord_decimal _
  · exact isWord_decimal _
  · exact extra word mem
  · exact silent word mem

theorem words_ne_nil : request.words ≠ [] := by simp [words]

theorem not_mem_text {b : UInt8} (breaks : b = 10 ∨ b = 13) :
    b ∉ [32].intercalate request.words := by
  intro mem
  rcases mem_intercalate mem with rfl | ⟨word, mem, there⟩
  · exact absurd breaks (by decide)
  · exact (request.isWord_of_mem word mem).2 b there (breaks.imp_right .inl)

theorem not_mem_line (crlf : Bool) : 10 ∉ request.line crlf := by
  have text := request.not_mem_text (.inl rfl)
  rw [line, List.mem_append]
  rintro (mem | mem)
  · exact text mem
  · cases crlf <;> simp at mem

theorem withoutCr_line (crlf : Bool) :
    withoutCr (request.line crlf) = [32].intercalate request.words := by
  cases crlf with
  | true => simp [line, withoutCr]
  | false =>
    refine (if_neg fun last => ?_).trans (List.append_nil _)
    rw [line, if_neg (by decide), List.append_nil] at last
    exact request.not_mem_text (.inr rfl) (List.mem_of_getLast? last)

theorem splitOn_text : ([32].intercalate request.words).splitOn 32 = request.words :=
  List.splitOn_intercalate 32
    (fun word mem space => (request.isWord_of_mem word mem).2 32 space (by decide))
    request.words_ne_nil

theorem tokensOf_line (crlf : Bool) : tokensOf (withoutCr (request.line crlf)) = request.words := by
  rw [tokensOf, withoutCr_line, splitOn_text, List.filter_eq_self]
  intro word mem
  exact decide_eq_true (request.isWord_of_mem word mem).1

theorem verbOf_line (crlf : Bool) :
    verbOf (withoutCr (request.line crlf)) = request.verb.word := by
  rw [verbOf, withoutCr_line, splitOn_text]
  rfl

end StorageRequest

/-! ### What is read -/

theorem parseNumber_decimal {n : Nat} (fits : n ≤ u64Max) : parseNumber (decimal n) = some n :=
  parseU64_trim_decimal fits

theorem parseSeconds_decimal {n : Nat} (fits : n < 2 ^ 32) : parseSeconds (decimal n) = some n := by
  have small : (n : Int) ≤ i64Max := by simp only [i64Max]; omega
  have kept : min (n : Int).toNat u32Max = n := by simp only [u32Max]; omega
  rw [parseSeconds, trim_of_digits (all_isDigit_decimal n), parseI64_decimal small]
  simp only [Option.bind_eq_bind, Option.bind_some, Option.pure_def]
  rw [if_neg (by omega), kept]

theorem parseKey_clean {key : Bytes} (nonempty : key ≠ []) (short : key.length ≤ maxKeyLen)
    (clean : ∀ b ∈ key, IsKeyByte b) : parseKey (some key) = .ok key := by
  have length : ¬ (key = [] ∨ key.length > maxKeyLen) := by
    rintro (empty | long)
    · exact nonempty empty
    · omega
  have control : key.any (fun b => decide (b ≤ 32 ∨ b = 127)) = false := by
    rw [List.any_eq_false]
    intro b mem
    have := clean b mem
    simp only [IsKeyByte, UInt8.lt_iff_toNat_lt] at this
    simp only [decide_eq_true_eq, UInt8.le_iff_toNat_le, not_or]
    exact ⟨by omega, this.2⟩
  have accepted : Key.new key = .ok key := by
    refine Key.new_eq_ok_iff.mpr ⟨⟨List.length_pos_iff.mpr nonempty, short.trans (by decide)⟩, rfl⟩
  change (if key = [] ∨ key.length > maxKeyLen then _ else _) = _
  rw [if_neg length]
  rw [control, if_neg Bool.false_ne_true, accepted]
  rfl

namespace StorageRequest

variable (request : StorageRequest)

theorem textVerb_word (verb : StorageVerb) : Memcached.textVerb verb.word = verb.textVerb := by
  cases verb <;> (dsimp only [StorageVerb.word, StorageVerb.textVerb]; decide +kernel)

theorem metaVerb_word (verb : StorageVerb) : metaVerb verb.word = none := by
  cases verb <;> (dsimp only [StorageVerb.word]; decide +kernel)

theorem stores_textVerb (verb : StorageVerb) : verb.textVerb.stores = true := by
  cases verb <;> rfl

theorem storageMode_words :
    storageMode request.verb.textVerb request.words = .ok request.verb.mode := by
  cases verb : request.verb with
  | cas token =>
    have fits := request.token_fits token verb
    have number : request.words[5]?.bind parseNumber = some token := by
      have place : request.words[5]? = some (decimal token) := by simp [words, verb,
        StorageVerb.extra]
      rw [place]
      exact parseNumber_decimal (by simp only [u64Max]; omega)
    simp only [storageMode, StorageVerb.textVerb, number]
    rfl
  | _ => rfl

theorem hasNoreply_words :
    hasNoreply request.words = (request.noreply || decide (request.key = ascii "noreply")) := by
  have verb : request.verb.word ≠ ascii "noreply" := by
    cases request.verb <;> (dsimp only [StorageVerb.word]; decide +kernel)
  have number : ∀ n, decimal n ≠ ascii "noreply" := fun n =>
    decimal_ne_cons (by decide)
  have extra : hasNoreply request.verb.extra = false := by
    cases request.verb <;> simp [hasNoreply, StorageVerb.extra, number]
  have last : hasNoreply (if request.noreply then [ascii "noreply"] else []) = request.noreply := by
    cases request.noreply <;> simp [hasNoreply]
  unfold hasNoreply at extra last ⊢
  rw [words, List.any_append, List.any_append, extra, last]
  simp [verb, number, Bool.or_comm]

theorem storageCommand_words (crlf : Bool) :
    storageCommand request.verb.textVerb request.words request.data [13, 10] =
      .ok ⟨(request.parsed crlf true).command,
        request.noreply || decide (request.key = ascii "noreply"), .storage⟩ := by
  have key : parseKey request.words[1]? = .ok request.key :=
    parseKey_clean request.key_ne_nil request.key_length request.key_bytes
  have flags : (request.words[2]?.bind parseNumber).filter (· ≤ u32Max) = some request.flags := by
    have fit := request.flags_fit
    have number : request.words[2]?.bind parseNumber = some request.flags :=
      parseNumber_decimal (by simp only [u64Max]; omega)
    rw [number, Option.filter_some, if_pos (decide_eq_true (by simp only [u32Max]; omega))]
  have exptime : parseExptime request.words[3]? = .ok request.exptime := by
    have seconds : request.words[3]?.bind parseSeconds = some request.exptime :=
      parseSeconds_decimal request.exptime_fits
    rw [parseExptime, seconds]
    rfl
  rw [storageCommand, key, flags, exptime, storageMode_words, hasNoreply_words]
  rfl

/-- A storage command is read as it was written, but for a key named like the last word. -/
theorem parse_render (crlf : Bool) (rest : Bytes) :
    parse (request.render crlf ++ rest) = .ok (.command (request.parsed crlf
      (request.noreply || decide (request.key = ascii "noreply")))) := by
  have length : (tokensOf (withoutCr (request.line crlf)))[4]?.bind parseNumber =
      some request.data.length := by
    have allowed := request.data_length
    rw [tokensOf_line]
    refine parseNumber_decimal (allowed.trans (by decide))
  have whole : request.render crlf ++ rest =
      request.line crlf ++ 10 :: (request.data ++ 13 :: 10 :: rest) := by simp [render]
  have stores : (textVerb (verbOf (withoutCr (request.line crlf)))).stores = true := by
    rw [verbOf_line, textVerb_word, stores_textVerb]
  have text : metaVerb (verbOf (withoutCr (request.line crlf))) = none := by
    rw [verbOf_line, metaVerb_word]
  rw [whole, parse_line (request.not_mem_line crlf), parseLine_storage text stores length,
    withBlock_present request.data_length (by simp; omega)]
  have data : ((request.line crlf ++ 10 :: (request.data ++ 13 :: 10 :: rest)).drop
      ((request.line crlf).length + 1)).take request.data.length = request.data := by
    rw [← Nat.add_zero (_ + 1), drop_line, List.drop_zero, List.take_left]
  have terminator : ((request.line crlf ++ 10 :: (request.data ++ 13 :: 10 :: rest)).drop
      ((request.line crlf).length + 1 + request.data.length)).take 2 = [13, 10] := by
    rw [drop_line, List.drop_left]
    rfl
  rw [data, terminator, verbOf_line, textVerb_word, tokensOf_line,
    request.storageCommand_words crlf]
  have consumed : (request.line crlf).length + 1 + request.data.length + 2 =
      (request.render crlf).length := by
    simp [render]
    omega
  rw [consumed]
  rfl

/-- The reply is wanted as the line says exactly when the key is not taken for the word
that says so. -/
theorem storage_parses_iff (crlf : Bool) (rest : Bytes) :
    parse (request.render crlf ++ rest) = .ok (.command (request.parsed crlf request.noreply)) ↔
      (request.key = ascii "noreply" → request.noreply = true) := by
  rw [parse_render]
  by_cases named : request.key = ascii "noreply"
  · cases silent : request.noreply <;> simp [named, parsed]
  · simp [named]

/-- A key named `noreply`: the record is stored and no reply is sent. -/
def namedNoreply : StorageRequest where
  verb := .set
  key := ascii "noreply"
  flags := 0
  exptime := 0
  data := []
  noreply := false
  key_ne_nil := by decide
  key_length := by decide
  key_bytes := by decide +kernel
  flags_fit := by decide
  exptime_fits := by decide
  token_fits := by rintro token ⟨⟩
  data_length := by decide

theorem key_taken_for_noreply :
    namedNoreply.render true = ascii "set noreply 0 0 0\r\n\r\n" ∧
      parse (namedNoreply.render true) = .ok (.command (namedNoreply.parsed true true)) ∧
      namedNoreply.noreply = false := by
  refine ⟨by decide +kernel, ?_, rfl⟩
  have parsed := namedNoreply.parse_render true []
  rw [List.append_nil] at parsed
  exact parsed

end StorageRequest

end Vash.Memcached
