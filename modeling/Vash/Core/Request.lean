/-
# The commands of every dialect

`vash_core`'s `Key`, `ListRequest` and `Command`: what the three protocol adapters
decode their bytes to, and what the dispatcher executes.
-/

import Vash.Core.Command

namespace Vash

/-! ### Limits -/

/-- `MAX_KEY_LEN`. -/
def maxKeyLen : Nat := 511

/-- `MAX_BATCH_ITEMS`. -/
def maxBatchItems : Nat := 4096

/-- `MAX_TAG_SYNC_ENTRIES`. -/
def maxTagSyncEntries : Nat := 8192

/-- `MAX_LIST_LIMIT`. -/
def maxListLimit : Nat := 1024

/-- `MAX_LIST_CURSOR_LEN`. -/
def maxListCursorLen : Nat := maxKeyLen + 8

/-- `ABSOLUTE_MAX_VALUE_LEN`: no configuration admits a longer value. -/
def absoluteMaxValueLen : Nat := 64 * 1024 * 1024

/-! ### Keys -/

/-- A key every dialect can name: not empty, and short enough for the engine. -/
def IsKey (bytes : Bytes) : Prop := 0 < bytes.length ∧ bytes.length ≤ maxKeyLen

instance decidableIsKey (bytes : Bytes) : Decidable (IsKey bytes) :=
  inferInstanceAs (Decidable (_ ∧ _))

/-- `Key::new`. -/
def Key.new (bytes : Bytes) : Except CoreError Bytes :=
  if bytes.isEmpty then .error .emptyKey
  else if bytes.length > maxKeyLen then .error (.keyTooLong bytes.length maxKeyLen)
  else .ok bytes

theorem Key.new_eq_ok_iff {bytes key : Bytes} :
    Key.new bytes = .ok key ↔ IsKey bytes ∧ key = bytes := by
  unfold Key.new IsKey
  split
  · rename_i empty
    simp [List.isEmpty_iff.mp empty]
  · rename_i notEmpty
    have positive : 0 < bytes.length := by
      simpa [List.length_pos_iff] using notEmpty
    split
    · simp only [reduceCtorEq, false_iff]
      rintro ⟨⟨-, short⟩, -⟩
      omega
    · constructor
      · intro same
        cases same
        exact ⟨⟨positive, by omega⟩, rfl⟩
      · rintro ⟨-, rfl⟩
        rfl

/-! ### Listings -/

/-- The escape byte of a listing pattern, a backslash. -/
def globEscape : UInt8 := 92

/-- `glob::validate`: an escape must have a byte to escape. -/
def globValidate : Bytes → Except CoreError Unit
  | [] => .ok ()
  | b :: others =>
    if b = globEscape then
      match others with
      | [] => .error .badPattern
      | _ :: after => globValidate after
    else globValidate others

structure ListRequest where
  limit : Nat
  cursor : Bytes
  pattern : Bytes
  deriving DecidableEq, Repr

/-- `ListRequest::validate`. -/
def ListRequest.validate (request : ListRequest) : Except CoreError Unit :=
  if request.limit = 0 ∨ request.limit > maxListLimit then
    .error (.badLimit request.limit maxListLimit)
  else globValidate request.pattern

/-! ### Commands -/

/-- `Command`. A list of keys is a list whether the source holds one inline or not. -/
inductive Command where
  | hello (protocolVersion : Nat)
  | ping
  | get (key : Bytes)
  | getMany (keys : List Bytes)
  | set (request : SetRequest)
  | setMany (sets : List SetRequest) (guard : BatchGuard)
  | delete (key : Bytes)
  | deleteMany (keys : List Bytes)
  | deadline (key : Bytes)
  | deadlines (keys : List Bytes)
  | expire (key : Bytes) (ttl : TtlChange) (guard : ExpireGuard)
  | append (key suffix : Bytes)
  | touch (key : Bytes) (ttlSecs : Nat)
  | deleteByTag (tag : Bytes)
  | flush
  | getAndTouch (keys : List Bytes) (ttlSecs : Nat)
  | arithmetic (op : Arithmetic)
  | tagSync (full : Bool) (entries : List (Bytes × Nat))
  | cluster
  | listKeys (request : ListRequest)
  | listTags (request : ListRequest)
  | stats
  | version
  | quit
  deriving DecidableEq, Repr

end Vash
