/-
# Bytes, machine words and the core errors

The vocabulary every other module shares: byte strings with the engine's key
order, the bounds of the fixed-width integers the records are made of, and the
errors of `vash-core`.
-/

import Mathlib

namespace Vash

/-- Bytes in the order an engine compares them, as unsigned numbers. -/
instance byteLinearOrder : LinearOrder UInt8 where
  le_refl _ := UInt8.le_refl _
  le_trans _ _ _ := UInt8.le_trans
  le_antisymm _ _ := UInt8.le_antisymm
  le_total := UInt8.le_total
  lt_iff_le_not_ge a b := by
    rw [UInt8.lt_iff_toNat_lt, UInt8.le_iff_toNat_le, UInt8.le_iff_toNat_le]
    omega
  toDecidableLE := inferInstance
  toDecidableEq := inferInstance
  toDecidableLT := inferInstance

/-- Keys, values and tag names. -/
abbrev Bytes := List UInt8

/-! ### Fixed-width integers -/

/-- `u32::MAX`. -/
def u32Max : Nat := 2 ^ 32 - 1

/-- `u64::MAX`. -/
def u64Max : Nat := 2 ^ 64 - 1

/-- `i64::MIN`. -/
def i64Min : Int := -2 ^ 63

/-- `i64::MAX`. -/
def i64Max : Int := 2 ^ 63 - 1

/-- `u32::wrapping_add`, and the counter an `AtomicU32::fetch_add` leaves. -/
def wrappingAdd32 (a b : Nat) : Nat := (a + b) % 2 ^ 32

/-- `u64::wrapping_add`, which is also what `+` computes in a release build. -/
def wrappingAdd64 (a b : Nat) : Nat := (a + b) % 2 ^ 64

/-- `u64::wrapping_sub`. -/
def wrappingSub64 (a b : Nat) : Nat := (a + (2 ^ 64 - b % 2 ^ 64)) % 2 ^ 64

/-- `u64::saturating_add`. -/
def saturatingAdd64 (a b : Nat) : Nat := min (a + b) u64Max

theorem wrappingAdd32_of_lt {a b : Nat} (fits : a + b < 2 ^ 32) : wrappingAdd32 a b = a + b :=
  Nat.mod_eq_of_lt fits

theorem wrappingAdd64_of_lt {a b : Nat} (fits : a + b < 2 ^ 64) : wrappingAdd64 a b = a + b :=
  Nat.mod_eq_of_lt fits

/-! ### Errors -/

/-- The errors of `vash-core` that the modelled operations raise. -/
inductive CoreError where
  | emptyKey
  | keyTooLong (len max : Nat)
  | valueTooLarge (len max : Nat)
  | tooManyTags (count max : Nat)
  | tagTooLong (len max : Nat)
  | badLimit (limit max : Nat)
  | badPattern
  | badCursor (detail : String)
  | notAnInteger
  | notAFloat
  | overflow
  | notFinite
  | malformedRecord (detail : String)
  | recordVersion (found expected : Nat)
  deriving DecidableEq, Repr

/-- The `Display` of a core error. -/
def CoreError.message : CoreError → String
  | .emptyKey => "key is empty"
  | .keyTooLong len max => "key is " ++ toString len ++ " bytes, limit is " ++ toString max
  | .valueTooLarge len max => "value is " ++ toString len ++ " bytes, limit is " ++ toString max
  | .tooManyTags count max => toString count ++ " tags supplied, limit is " ++ toString max
  | .tagTooLong len max => "tag name is " ++ toString len ++ " bytes, limit is " ++ toString max
  | .badLimit limit max =>
    "listing limit is " ++ toString limit ++ ", must be 1..=" ++ toString max
  | .badPattern => "pattern ends in an unterminated escape"
  | .badCursor detail => "listing cursor is malformed: " ++ detail
  | .notAnInteger => "value is not an integer"
  | .notAFloat => "value is not a valid float"
  | .overflow => "increment or decrement would overflow"
  | .notFinite => "increment would produce NaN or Infinity"
  | .malformedRecord detail => "malformed record: " ++ detail
  | .recordVersion found expected =>
    "unsupported record version " ++ toString found ++ ", this build understands " ++
      toString expected

/-- A step before an accepted one was accepted. -/
theorem bind_eq_ok_iff {ε α β : Type} {first : Except ε α} {next : α → Except ε β} {b : β} :
    (first >>= next) = .ok b ↔ ∃ a, first = .ok a ∧ next a = .ok b := by
  cases first with
  | error refusal => exact ⟨nofun, nofun⟩
  | ok a => exact ⟨fun ok => ⟨a, rfl, ok⟩, fun ⟨_, same, ok⟩ => Except.ok.inj same ▸ ok⟩

/-- A value longer than the configured limit is refused. -/
def validateValue (value : Bytes) (max : Nat) : Except CoreError Unit :=
  if value.length > max then .error (.valueTooLarge value.length max) else .ok ()

end Vash
