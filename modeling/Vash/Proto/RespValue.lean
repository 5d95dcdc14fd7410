import Vash.Library.Codes
import Vash.Proto.RespEncode

/-!
# The Redis dialect: the values a client reads

The grammar of replies in both versions of the protocol, written from the protocol and not
from the writers, and that a client which follows it knows where a value ends.

* `isValue_selfDelimiting` — no value begins another.
* `array_iff` — a header and a row of values are one value just when the header counts them.
* The writers of `Encode` each append one value.
-/

namespace Vash.Resp

open Library Encode

/-- A text that fits on a line. -/
def Clean (text : Bytes) : Prop := 13 ∉ text ∧ 10 ∉ text

instance (text : Bytes) : Decidable (Clean text) := inferInstanceAs (Decidable (_ ∧ _))

theorem clean_append {text text' : Bytes} :
    Clean (text ++ text') ↔ Clean text ∧ Clean text' := by
  simp only [Clean, List.mem_append, not_or]
  tauto

/-- What may stand on the line of a simple string, an error, an integer, a double or a null. -/
def LineText (kind : UInt8) (text : Bytes) : Prop :=
  kind = 43 ∧ Clean text ∨ kind = 45 ∧ Clean text ∨ kind = 58 ∧ (∃ n, text = decimalInt n) ∨
    kind = 44 ∧ Clean text ∧ text ≠ [] ∨ kind = 95 ∧ text = [] ∨ kind = 36 ∧ text = [45, 49]

/-- One complete value. -/
inductive IsValue : Bytes → Prop
  /-- A simple string, an error, an integer, a double or a null. -/
  | line {kind : UInt8} {text : Bytes} (fits : LineText kind text) :
      IsValue (kind :: text ++ [13, 10])
  /-- A bulk string, or a verbatim string, which begins with its format. -/
  | blob {kind : UInt8} {data : Bytes} (fits : kind = 36 ∨
      kind = 61 ∧ ∃ format text, format.length = 3 ∧ data = format ++ 58 :: text) :
      IsValue (kind :: decimal data.length ++ [13, 10] ++ (data ++ [13, 10]))
  /-- An array of the announced number of values, or a map of as many pairs. -/
  | aggregate {kind : UInt8} {count : Nat} {items : List Bytes}
      (announced : kind = 42 ∧ items.length = count ∨ kind = 37 ∧ items.length = 2 * count)
      (each : ∀ item ∈ items, IsValue item) :
      IsValue (kind :: decimal count ++ [13, 10] ++ items.flatten)

/-! ### Where a value ends -/

theorem decimal_clean (n : Nat) : Clean (decimal n) := by
  have digits := List.all_eq_true.mp (all_isDigit_decimal n)
  exact ⟨fun mem => absurd (digits _ mem) (by decide), fun mem => absurd (digits _ mem) (by decide)⟩

theorem decimal_inj {m n : Nat} (same : decimal m = decimal n) : m = n := by
  rw [← digitsValue_decimal m, same, digitsValue_decimal]

theorem decimalInt_clean (n : Int) : Clean (decimalInt n) := by
  rcases lt_or_ge n 0 with negative | nonneg
  · rw [decimalInt_of_neg negative]
    obtain ⟨cr, lf⟩ := decimal_clean n.natAbs
    exact ⟨by simpa using cr, by simpa using lf⟩
  · rw [decimalInt_of_nonneg nonneg]
    exact decimal_clean _

theorem LineText.clean {kind : UInt8} {text : Bytes} (fits : LineText kind text) : Clean text := by
  rcases fits with ⟨-, clean⟩ | ⟨-, clean⟩ | ⟨-, n, rfl⟩ | ⟨-, clean, -⟩ | ⟨-, rfl⟩ | ⟨-, rfl⟩
  · exact clean
  · exact clean
  · exact decimalInt_clean n
  · exact clean
  · decide
  · decide

/-- A line ends at its first end of line. -/
theorem line_inj {text text' x y : Bytes} (clean : Clean text) (clean' : Clean text')
    (same : text ++ 13 :: x = text' ++ 13 :: y) : text = text' ∧ x = y := by
  have left := List.append_eq_append_iff.mp same
  rcases left with ⟨more, rfl, rest⟩ | ⟨more, rfl, rest⟩
  · cases more with
    | nil => simpa using rest
    | cons b more =>
      obtain ⟨rfl, -⟩ := List.cons.inj rest
      exact absurd (List.mem_append_right _ List.mem_cons_self) clean'.1
  · cases more with
    | nil => simpa using rest.symm
    | cons b more =>
      obtain ⟨rfl, -⟩ := List.cons.inj rest
      exact absurd (List.mem_append_right _ List.mem_cons_self) clean.1

/-- Two values that begin the same begin with the same kind and the same line. -/
theorem header_inj {kind kind' : UInt8} {text text' rest rest' : Bytes} (clean : Clean text)
    (clean' : Clean text')
    (same : kind :: (text ++ 13 :: 10 :: rest) = kind' :: (text' ++ 13 :: 10 :: rest')) :
    kind = kind' ∧ text = text' ∧ rest = rest' := by
  obtain ⟨kinds, lines⟩ := List.cons.inj same
  obtain ⟨texts, left⟩ := line_inj clean clean' lines
  exact ⟨kinds, texts, (List.cons.inj left).2⟩

/-- A line is told from the header of a longer value by its kind. -/
theorem LineText.kind_of_decimal {kind : UInt8} {n : Nat} (fits : LineText kind (decimal n)) :
    kind = 43 ∨ kind = 45 ∨ kind = 58 ∨ kind = 44 := by
  rcases fits with ⟨k, -⟩ | ⟨k, -⟩ | ⟨k, -⟩ | ⟨k, -⟩ | ⟨-, empty⟩ | ⟨-, minus⟩
  · exact .inl k
  · exact .inr (.inl k)
  · exact .inr (.inr (.inl k))
  · exact .inr (.inr (.inr k))
  · exact absurd empty (decimal_ne_nil n)
  · exact absurd minus (decimal_ne_cons (by decide))

theorem LineText.kind_ne {kind : UInt8} {n : Nat} (fits : LineText kind (decimal n)) :
    kind ≠ 36 ∧ kind ≠ 61 ∧ kind ≠ 42 ∧ kind ≠ 37 := by
  rcases fits.kind_of_decimal with rfl | rfl | rfl | rfl <;> decide

theorem isValue_delimits {u : Bytes} (value : IsValue u) :
    ∀ v x y, IsValue v → u ++ x = v ++ y → u = v ∧ x = y := by
  induction value with
  | @line kind text fits =>
    intro v x y value same
    cases value with
    | @line kind' text' fits' =>
      simp only [List.cons_append, List.append_assoc, List.nil_append] at same
      obtain ⟨rfl, rfl, rest⟩ := header_inj fits.clean fits'.clean same
      exact ⟨rfl, rest⟩
    | @blob kind' data fits' =>
      simp only [List.cons_append, List.append_assoc, List.nil_append] at same
      obtain ⟨rfl, rfl, -⟩ := header_inj fits.clean (decimal_clean _) same
      exact absurd fits' (by simp [fits.kind_ne])
    | @aggregate kind' count items announced each =>
      simp only [List.cons_append, List.append_assoc, List.nil_append] at same
      obtain ⟨rfl, rfl, -⟩ := header_inj fits.clean (decimal_clean _) same
      exact absurd announced (by simp [fits.kind_ne])
  | @blob kind data fits =>
    intro v x y value same
    cases value with
    | @line kind' text' fits' =>
      simp only [List.cons_append, List.append_assoc, List.nil_append] at same
      obtain ⟨rfl, rfl, -⟩ := header_inj (decimal_clean _) fits'.clean same
      exact absurd fits (by simp [fits'.kind_ne])
    | @blob kind' data' fits' =>
      simp only [List.cons_append, List.append_assoc, List.nil_append] at same
      obtain ⟨rfl, length, rest⟩ := header_inj (decimal_clean _) (decimal_clean _) same
      obtain ⟨rfl, left⟩ := List.append_inj rest (decimal_inj length)
      exact ⟨rfl, (List.cons.inj (List.cons.inj left).2).2⟩
    | @aggregate kind' count items announced each =>
      simp only [List.cons_append, List.append_assoc, List.nil_append] at same
      obtain ⟨rfl, -, -⟩ := header_inj (decimal_clean _) (decimal_clean _) same
      rcases fits with rfl | ⟨rfl, -⟩ <;> simp at announced
  | @aggregate kind count items announced each ih =>
    intro v x y value same
    cases value with
    | @line kind' text' fits' =>
      simp only [List.cons_append, List.append_assoc, List.nil_append] at same
      obtain ⟨rfl, rfl, -⟩ := header_inj (decimal_clean _) fits'.clean same
      exact absurd announced (by simp [fits'.kind_ne])
    | @blob kind' data' fits' =>
      simp only [List.cons_append, List.append_assoc, List.nil_append] at same
      obtain ⟨rfl, -, -⟩ := header_inj (decimal_clean _) (decimal_clean _) same
      rcases fits' with rfl | ⟨rfl, -⟩ <;> simp at announced
    | @aggregate kind' count' items' announced' each' =>
      simp only [List.cons_append, List.append_assoc, List.nil_append] at same
      obtain ⟨rfl, length, rest⟩ := header_inj (decimal_clean _) (decimal_clean _) same
      obtain rfl := decimal_inj length
      have counts : items.length = items'.length := by
        rcases announced with ⟨rfl, long⟩ | ⟨rfl, long⟩ <;> simp at announced' <;> omega
      obtain ⟨rfl, left⟩ := flatten_append_inj
        (fun item mem item' mem' x y => ih item mem item' x y (each' item' mem')) counts rest
      exact ⟨rfl, left⟩

/-- No value begins another. -/
theorem isValue_selfDelimiting : SelfDelimiting IsValue :=
  fun _ v x y value value' same => isValue_delimits value v x y value' same

theorem isValue_ne_nil : ¬ IsValue [] := by
  intro value
  cases value

/-- A header and a row of values are one value just when the header counts them. -/
theorem array_iff {count : Nat} {items : List Bytes} (each : ∀ item ∈ items, IsValue item) :
    IsValue (array count ++ items.flatten) ↔ items.length = count := by
  constructor
  · generalize whole : array count ++ items.flatten = bytes
    intro value
    rw [array, crlf] at whole
    cases value with
    | @line kind text fits =>
      simp only [List.cons_append, List.append_assoc, List.nil_append] at whole
      obtain ⟨rfl, rfl, -⟩ := header_inj (decimal_clean _) fits.clean whole
      exact absurd rfl fits.kind_ne.2.2.1
    | @blob kind data fits =>
      simp only [List.cons_append, List.append_assoc, List.nil_append] at whole
      obtain ⟨rfl, -, -⟩ := header_inj (decimal_clean _) (decimal_clean _) whole
      simp at fits
    | @aggregate kind count' items' announced each' =>
      simp only [List.cons_append, List.append_assoc, List.nil_append] at whole
      obtain ⟨rfl, length, rest⟩ := header_inj (decimal_clean _) (decimal_clean _) whole
      obtain rfl := decimal_inj length
      rw [isValue_selfDelimiting.flatten_inj isValue_ne_nil each each' rest]
      simpa using announced
  · rintro rfl
    have value := IsValue.aggregate (.inl ⟨rfl, rfl⟩) each
    rwa [array, crlf]

/-! ### The writers -/

theorem simple_isValue {text : Bytes} (clean : Clean text) : IsValue (simple text) :=
  .line (.inl ⟨rfl, clean⟩)

theorem ok_isValue : IsValue ok := simple_isValue (by decide)

/-- An error, and nothing after its line. -/
def ErrorLine (bytes : Bytes) : Prop := ∃ text, Clean text ∧ bytes = 45 :: text ++ crlf

theorem ErrorLine.isValue {bytes : Bytes} (line : ErrorLine bytes) : IsValue bytes := by
  obtain ⟨text, clean, rfl⟩ := line
  exact .line (.inr (.inl ⟨rfl, clean⟩))

theorem error_line {code message : Bytes} (clean : Clean code) (clean' : Clean message) :
    ErrorLine (error code message) := by
  have space : Clean [32] := by decide
  refine ⟨code ++ ([32] ++ message), ?_, by simp [error]⟩
  exact clean_append.mpr ⟨clean, clean_append.mpr ⟨space, clean'⟩⟩

theorem error_isValue {code message : Bytes} (clean : Clean code) (clean' : Clean message) :
    IsValue (error code message) := (error_line clean clean').isValue

theorem integer_isValue (n : Int) : IsValue (integer n) :=
  .line (.inr (.inr (.inl ⟨rfl, n, rfl⟩)))

theorem bulk_isValue (data : Bytes) : IsValue (bulk data) := by
  have value : IsValue (36 :: decimal data.length ++ [13, 10] ++ (data ++ [13, 10])) :=
    .blob (.inl rfl)
  simpa [bulk, crlf] using value

theorem null_isValue (version : Version) : IsValue (null version) := by
  cases version with
  | resp2 => exact .line (.inr (.inr (.inr (.inr (.inr ⟨rfl, rfl⟩)))))
  | resp3 => exact .line (.inr (.inr (.inr (.inr (.inl ⟨rfl, rfl⟩)))))

theorem verbatim_isValue (text : Bytes) (version : Version) : IsValue (verbatim text version) := by
  cases version with
  | resp2 => exact bulk_isValue text
  | resp3 =>
    have format : ascii "txt:" = ascii "txt" ++ [58] := by decide
    have value : IsValue (61 :: decimal (ascii "txt" ++ 58 :: text).length ++ [13, 10] ++
        (ascii "txt" ++ 58 :: text ++ [13, 10])) :=
      .blob (.inr ⟨rfl, ascii "txt", text, rfl, rfl⟩)
    have long : (ascii "txt" ++ 58 :: text).length = text.length + 4 := by
      simp [ascii]
    rw [long] at value
    simpa [verbatim, crlf, format] using value

theorem array_isValue {items : List Bytes} (each : ∀ item ∈ items, IsValue item) :
    IsValue (array items.length ++ items.flatten) := (array_iff each).mpr rfl

theorem map_isValue {count : Nat} {items : List Bytes} (announced : items.length = 2 * count)
    (each : ∀ item ∈ items, IsValue item) : IsValue (map count ++ items.flatten) := by
  have value := IsValue.aggregate (.inr ⟨rfl, announced⟩) each
  rwa [map, crlf]

/-- What the formatting of doubles is taken to give: a text on one line that does not begin with
the point. -/
structure Printable (floats : FloatOps) : Prop where
  clean : ∀ value, Clean (floats.display value)
  begins : ∀ value, ∃ b rest, floats.display value = b :: rest ∧ b ≠ 46

theorem formatFloat_line {floats : FloatOps} (printable : Printable floats) (value : F64) :
    Clean (formatFloat floats value) ∧ formatFloat floats value ≠ [] := by
  obtain ⟨cr, lf⟩ := printable.clean value
  obtain ⟨b, rest, text, notPoint⟩ := printable.begins value
  unfold formatFloat
  dsimp only
  split
  · rename_i whole
    have inside : ∀ n, Clean ((floats.display value).take n) := fun n =>
      ⟨fun mem => cr (List.mem_of_mem_take mem), fun mem => lf (List.mem_of_mem_take mem)⟩
    refine ⟨inside _, ?_⟩
    obtain ⟨front, joined⟩ := List.isSuffixOf_iff_suffix.mp whole
    rw [text] at joined ⊢
    intro none
    have short : front = [] := by
      have long := congrArg List.length joined
      have zero := congrArg List.length none
      simp only [List.length_append, List.length_cons, List.length_nil,
        List.length_take] at long zero
      exact List.length_eq_zero_iff.mp (by omega)
    rw [short, List.nil_append] at joined
    exact notPoint (List.cons.inj joined).1.symm
  · rw [text]
    exact ⟨text ▸ ⟨cr, lf⟩, List.cons_ne_nil _ _⟩

theorem double_isValue {floats : FloatOps} (printable : Printable floats) (value : F64)
    (version : Version) : IsValue (double floats value version) := by
  cases version with
  | resp2 => exact bulk_isValue _
  | resp3 =>
    obtain ⟨clean, some⟩ := formatFloat_line printable value
    exact .line (.inr (.inr (.inr (.inl ⟨rfl, clean, some⟩))))

/-- The pairs of the answer to `HELLO`. -/
def helloItems (proto : Int) : List Bytes :=
  [bulk (ascii "server"), bulk (ascii "redis"), bulk (ascii "version"), bulk (ascii version),
    bulk (ascii "proto"), integer proto, bulk (ascii "id"), integer 0, bulk (ascii "mode"),
    bulk (ascii "standalone"), bulk (ascii "role"), bulk (ascii "master"),
    bulk (ascii "modules"), array 0]

theorem helloItems_isValue (proto : Int) : ∀ item ∈ helloItems proto, IsValue item := by
  have none : IsValue (array 0) := by simpa using array_isValue (List.forall_mem_nil IsValue)
  simp [helloItems, bulk_isValue, integer_isValue, none]

theorem hello_isValue (v : Version) : IsValue (hello v) := by
  cases v with
  | resp2 =>
    have value := array_isValue (helloItems_isValue 2)
    simpa [hello, helloItems] using value
  | resp3 =>
    have value : IsValue (map 7 ++ (helloItems 3).flatten) :=
      map_isValue rfl (helloItems_isValue 3)
    simpa [hello, helloItems] using value

/-- No byte that came off the wire ends a line. -/
theorem escape_clean (name : Bytes) : Clean (escape name) := by
  have each : ∀ b : UInt8, Clean (if b = 13 then ascii "\\r"
      else if b = 10 then ascii "\\n"
      else if b = 39 ∨ b = 92 then [92, b]
      else if 32 ≤ b ∧ b ≤ 126 then [b]
      else ascii "\\x" ++ hexDigits b) := by decide +kernel
  constructor
  · intro mem
    obtain ⟨b, -, here⟩ := List.mem_flatMap.mp mem
    exact (each b).1 here
  · intro mem
    obtain ⟨b, -, here⟩ := List.mem_flatMap.mp mem
    exact (each b).2 here

end Vash.Resp
