/-
# Decimal texts

The texts a counter is kept as. `decimal` writes a number without leading zeros
and `parse_int` accepts exactly what `decimalInt` writes of an `i64`, so that
reading and writing are inverse to each other in both directions:

* `digitsValue_decimal` and `decimal_digitsValue`, for the digits of a number;
* `parseInt_eq_some_iff`, for the text of a signed one;
* `parseU64_trim_decimal`, for the lenient reader of the memcached dialect.
-/

import Vash.Core.Arith

namespace Vash

/-- The byte of a digit. -/
def digitByte (d : Nat) : UInt8 := (48 + d).toUInt8

theorem digitByte_toNat {d : Nat} (small : d < 10) : (digitByte d).toNat = 48 + d := by
  simp only [digitByte, Nat.toUInt8_eq, UInt8.toNat_ofNat']
  omega

theorem isDigit_iff {b : UInt8} : isDigit b = true ↔ 48 ≤ b.toNat ∧ b.toNat ≤ 57 := by
  simp only [isDigit, decide_eq_true_eq, UInt8.le_iff_toNat_le]
  exact Iff.rfl

theorem isDigit_digitByte {d : Nat} (small : d < 10) : isDigit (digitByte d) = true := by
  rw [isDigit_iff, digitByte_toNat small]
  omega

theorem digitByte_sub {b : UInt8} (digit : isDigit b = true) : digitByte (b.toNat - 48) = b := by
  obtain ⟨low, high⟩ := isDigit_iff.mp digit
  apply UInt8.toNat_inj.mp
  rw [digitByte_toNat (by omega)]
  omega

/-! ### The digits of a number -/

theorem decimal_of_lt {n : Nat} (small : n < 10) : decimal n = [digitByte n] := by
  interval_cases n <;> simp [decimal, digitByte]

/-- The last digit stands apart from the others. -/
theorem decimal_of_le {n : Nat} (large : 10 ≤ n) :
    decimal n = decimal (n / 10) ++ [digitByte (n % 10)] := by
  have positive : n / 10 ≠ 0 := by omega
  have digits : Nat.digits 10 n = n % 10 :: Nat.digits 10 (n / 10) :=
    Nat.digits_def' (by omega) (by omega)
  rw [decimal, if_neg (by omega), decimal, if_neg positive, digits]
  simp [digitByte]

theorem decimal_ne_nil (n : Nat) : decimal n ≠ [] := by
  rcases lt_or_ge n 10 with small | large
  · simp [decimal_of_lt small]
  · simp [decimal_of_le large]

theorem all_isDigit_decimal (n : Nat) : (decimal n).all isDigit = true := by
  induction n using Nat.strong_induction_on with
  | _ n ih =>
    rcases lt_or_ge n 10 with small | large
    · simp [decimal_of_lt small, isDigit_digitByte small]
    · have last : isDigit (digitByte (n % 10)) = true := isDigit_digitByte (Nat.mod_lt _ (by omega))
      simp [decimal_of_le large, ih (n / 10) (by omega), last]

theorem digitsValue_append (digits : Bytes) (d : UInt8) :
    digitsValue (digits ++ [d]) = digitsValue digits * 10 + (d.toNat - 48) := by
  simp [digitsValue]

theorem digitsValue_decimal (n : Nat) : digitsValue (decimal n) = n := by
  induction n using Nat.strong_induction_on with
  | _ n ih =>
    rcases lt_or_ge n 10 with small | large
    · simp [decimal_of_lt small, digitsValue, digitByte_toNat small]
    · rw [decimal_of_le large, digitsValue_append, ih (n / 10) (by omega),
        digitByte_toNat (Nat.mod_lt _ (by omega))]
      omega

theorem decimal_head_ne_zero {n : Nat} (positive : n ≠ 0) : (decimal n).head? ≠ some 48 := by
  induction n using Nat.strong_induction_on with
  | _ n ih =>
    rcases lt_or_ge n 10 with small | large
    · have digit : digitByte n ≠ 48 := by
        intro same
        have := congrArg UInt8.toNat same
        rw [digitByte_toNat small] at this
        have : 48 + n = 48 := this
        omega
      simpa [decimal_of_lt small] using digit
    · rw [decimal_of_le large, List.head?_append_of_ne_nil _ (decimal_ne_nil _)]
      exact ih (n / 10) (by omega) (by omega)

/-- Digits without a leading zero are the text of their value. -/
theorem decimal_digitsValue {digits : Bytes} (nonempty : digits ≠ [])
    (canonical : digits.head? ≠ some 48) (all : digits.all isDigit = true) :
    decimal (digitsValue digits) = digits ∧ digitsValue digits ≠ 0 := by
  induction digits using List.reverseRecOn with
  | nil => exact absurd rfl nonempty
  | append_singleton front d ih =>
    simp only [List.all_append, List.all_cons, List.all_nil, Bool.and_true, Bool.and_eq_true] at all
    obtain ⟨low, high⟩ := isDigit_iff.mp all.2
    rcases eq_or_ne front [] with rfl | more
    · have value : digitsValue [d] = d.toNat - 48 := by simp [digitsValue]
      have nonzero : d.toNat ≠ 48 := by
        intro zero
        exact canonical (congrArg some (UInt8.toNat_inj.mp zero))
      rw [List.nil_append, value, decimal_of_lt (by omega), digitByte_sub all.2]
      exact ⟨rfl, by omega⟩
    · rw [List.head?_append_of_ne_nil _ more] at canonical
      obtain ⟨text, positive⟩ := ih more canonical all.1
      have shift : (digitsValue front * 10 + (d.toNat - 48)) / 10 = digitsValue front := by omega
      have last : (digitsValue front * 10 + (d.toNat - 48)) % 10 = d.toNat - 48 := by omega
      rw [digitsValue_append, decimal_of_le (by omega), shift, last, text, digitByte_sub all.2]
      exact ⟨rfl, by omega⟩

/-! ### Signed texts -/

/-- The sign is no digit. -/
theorem decimal_head_ne_of_not_digit {n : Nat} {b : UInt8} (other : isDigit b = false) :
    (decimal n).head? ≠ some b := by
  intro head
  have digit := List.all_eq_true.mp (all_isDigit_decimal n) b (List.mem_of_head? head)
  simp [other] at digit

theorem decimalInt_of_neg {n : Int} (negative : n < 0) : decimalInt n = 45 :: decimal n.natAbs :=
  if_pos negative

theorem decimalInt_of_nonneg {n : Int} (nonneg : 0 ≤ n) : decimalInt n = decimal n.toNat :=
  if_neg (by omega)

/-- `parse_int` on a text that does not begin with the sign. -/
theorem parseInt_unsigned {token : Bytes} (unsigned : token.head? ≠ some 45) :
    parseInt token =
      if token = [48] then some 0
      else if token = [] ∨ token.head? = some 48 ∨ ¬ token.all isDigit then none
      else if (digitsValue token : Int) ≤ i64Max then some (digitsValue token : Int) else none := by
  unfold parseInt
  match token with
  | [] => simp
  | b :: rest =>
    have other : b ≠ 45 := by simpa using unsigned
    split
    · rfl
    · split
      rename_i negative digits sign
      split at sign
      · rename_i same
        cases same
        exact absurd rfl other
      · cases sign
        rfl

/-- `parse_int` after the sign. -/
theorem parseInt_signed (digits : Bytes) :
    parseInt (45 :: digits) =
      if digits = [] ∨ digits.head? = some 48 ∨ ¬ digits.all isDigit then none
      else if digitsValue digits ≤ 2 ^ 63 then some (-(digitsValue digits : Int)) else none := by
  unfold parseInt
  rw [if_neg (by simp)]
  simp

/-- The integers an `i64` holds. -/
def IsI64 (n : Int) : Prop := i64Min ≤ n ∧ n ≤ i64Max

instance decidableIsI64 (n : Int) : Decidable (IsI64 n) :=
  inferInstanceAs (Decidable (_ ∧ _))

theorem parseInt_decimalInt {n : Int} (fits : IsI64 n) : parseInt (decimalInt n) = some n := by
  obtain ⟨low, high⟩ := fits
  rcases lt_or_ge n 0 with negative | nonneg
  · have magnitude : n.natAbs ≤ 2 ^ 63 := by
      simp only [i64Min] at low
      omega
    rw [decimalInt_of_neg negative, parseInt_signed, if_neg, digitsValue_decimal, if_pos magnitude]
    · exact congrArg some (by omega)
    · rintro (empty | zero | digits)
      · exact decimal_ne_nil _ empty
      · exact decimal_head_ne_zero (by omega) zero
      · exact digits (all_isDigit_decimal _)
  · rw [decimalInt_of_nonneg nonneg, parseInt_unsigned (decimal_head_ne_of_not_digit (by decide))]
    rcases eq_or_ne n 0 with rfl | positive
    · rfl
    · have head := decimal_head_ne_zero (n := n.toNat) (by omega)
      rw [if_neg, if_neg, digitsValue_decimal, if_pos (by omega)]
      · exact congrArg some (by omega)
      · rintro (empty | zero | digits)
        · exact decimal_ne_nil _ empty
        · exact head zero
        · exact digits (all_isDigit_decimal _)
      · intro zero
        rw [zero] at head
        exact head rfl

/-- `parse_int` accepts the canonical texts of the `i64`s and no others. -/
theorem parseInt_eq_some_iff {token : Bytes} {n : Int} :
    parseInt token = some n ↔ IsI64 n ∧ token = decimalInt n := by
  constructor
  · intro parsed
    rcases eq_or_ne (token.head?) (some 45) with signed | unsigned
    · obtain ⟨digits, rfl⟩ : ∃ digits, token = 45 :: digits := by
        cases token with
        | nil => simp at signed
        | cons b digits => exact ⟨digits, by rw [Option.some.inj signed]⟩
      rw [parseInt_signed] at parsed
      split at parsed
      · cases parsed
      · rename_i canonical
        push Not at canonical
        obtain ⟨text, positive⟩ :=
          decimal_digitsValue canonical.1 canonical.2.1 canonical.2.2
        split at parsed
        · rename_i fits
          cases parsed
          refine ⟨⟨by simp only [i64Min]; omega, by simp only [i64Max]; omega⟩, ?_⟩
          rw [decimalInt_of_neg (by omega), Int.natAbs_neg, Int.natAbs_natCast, text]
        · cases parsed
    · rw [parseInt_unsigned unsigned] at parsed
      split at parsed
      · rename_i zero
        cases parsed
        exact ⟨by decide, by rw [zero]; rfl⟩
      · split at parsed
        · cases parsed
        · rename_i canonical
          push Not at canonical
          obtain ⟨text, positive⟩ :=
            decimal_digitsValue canonical.1 canonical.2.1 canonical.2.2
          split at parsed
          · rename_i fits
            cases parsed
            refine ⟨⟨by simp only [i64Min]; omega, fits⟩, ?_⟩
            rw [decimalInt_of_nonneg (by omega), Int.toNat_natCast, text]
          · cases parsed
  · rintro ⟨fits, rfl⟩
    exact parseInt_decimalInt fits

/-! ### Texts with blanks around them -/

theorem not_blank_of_digit {b : UInt8} (digit : isDigit b = true) :
    ¬ (9 ≤ b ∧ b ≤ 13 ∨ b = 32) := by
  have bounds := isDigit_iff.mp digit
  rw [UInt8.le_iff_toNat_le, UInt8.le_iff_toNat_le, ← UInt8.toNat_inj]
  simp
  omega

theorem trimStart_of_digit {b : UInt8} {rest : Bytes} (digit : isDigit b = true) :
    trimStart (b :: rest) = b :: rest := by
  rw [trimStart, if_neg (not_blank_of_digit digit)]
  all_goals
    intros
    subst_vars
    cases digit

theorem trimStartReversed_of_digits {text : Bytes} (digits : text.all isDigit = true) :
    trimStartReversed text = text := by
  cases text with
  | nil => rfl
  | cons b rest =>
    obtain ⟨digit, others⟩ := Bool.and_eq_true_iff.mp digits
    rw [trimStartReversed, if_neg (not_blank_of_digit digit)]
    -- No digit is part of a longer encoding.
    all_goals
      intros
      subst_vars
      first | cases digit | cases others

/-- Digits have no blanks around them. -/
theorem trim_of_digits {text : Bytes} (digits : text.all isDigit = true) : trim text = text := by
  have start : trimStart text = text := by
    cases text with
    | nil => rfl
    | cons b rest => exact trimStart_of_digit (Bool.and_eq_true_iff.mp digits).1
  rw [trim, start, trimStartReversed_of_digits (by rw [List.all_reverse]; exact digits),
    List.reverse_reverse]

theorem decimal_ne_cons {n : Nat} {b : UInt8} {rest : Bytes} (other : isDigit b = false) :
    decimal n ≠ b :: rest := fun same =>
  decimal_head_ne_of_not_digit other (n := n) (by rw [same]; rfl)

theorem parseU64_trim_decimal {n : Nat} (fits : n ≤ u64Max) :
    parseU64 (trim (decimal n)) = some n := by
  have digits := all_isDigit_decimal n
  have value := digitsValue_decimal n
  rw [trim_of_digits digits, parseU64,
    if_pos ⟨decimal_ne_nil n, digits, by rw [value]; exact fits⟩, value]
  intro rest plus
  exact decimal_ne_cons (by decide) plus

end Vash
