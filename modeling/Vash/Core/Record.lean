/-
# Records and deadlines

What the store keeps under a key, when a client is still served it, and how a
time to live becomes a deadline. A record is held as its decoded fields; the tag
table is bounded by its `u8` count, which `encodeRecord` enforces and the
structure carries.
-/

import Vash.Core.Basic

namespace Vash

/-! ### The record -/

/-- `ABSOLUTE_MAX_TAGS`: the tag count of a record is a `u8`. -/
def absoluteMaxTags : Nat := 255

/-- `MAX_TAG_LEN`. -/
def maxTagLen : Nat := 255

/-- `NEVER`: the `expires_at_ms` of a record without a deadline. -/
def never : Nat := 0

/-- A record's reference to one of its tags, with the generation the tag had when
the reference was resolved. -/
structure TagRef where
  tagId : Nat
  generation : Nat
  deriving DecidableEq, Repr

/-- The header fields a write supplies. -/
structure RecordMeta where
  epoch : Nat
  mcFlags : Nat
  expiresAtMs : Nat
  cas : Nat
  deriving DecidableEq, Repr

/-- A stored record. -/
structure Record where
  header : RecordMeta
  tags : List TagRef
  value : Bytes
  tags_le : tags.length ≤ absoluteMaxTags
  deriving DecidableEq, Repr

/-- `validate_tags`. -/
def validateTags (count max : Nat) : Except CoreError Unit :=
  if count > max then .error (.tooManyTags count max) else .ok ()

/-- Build a record, refusing a tag table the format cannot write down. -/
def encodeRecord (header : RecordMeta) (tags : List TagRef) (value : Bytes) :
    Except CoreError Record :=
  if fits : tags.length ≤ absoluteMaxTags then .ok ⟨header, tags, value, fits⟩
  else .error (.tooManyTags tags.length absoluteMaxTags)

namespace Record

/-- The deadline has passed. -/
def isExpired (r : Record) (nowMs : Nat) : Bool :=
  r.header.expiresAtMs ≠ never ∧ r.header.expiresAtMs ≤ nowMs

/-- A flush has happened since the record was written. -/
def isFlushed (r : Record) (currentEpoch : Nat) : Bool := r.header.epoch ≠ currentEpoch

/-- Every tag is still at the generation the record was written with; a tag the
registry does not know counts as invalidated. -/
def tagsAlive (r : Record) (currentGeneration : Nat → Option Nat) : Bool :=
  r.tags.all fun t => currentGeneration t.tagId = some t.generation

/-- `needs_tag_registry`: the liveness check consults the registry at all. -/
def needsTagRegistry (r : Record) : Bool := !r.tags.isEmpty

/-- The full liveness check. -/
def isAlive (r : Record) (nowMs currentEpoch : Nat) (currentGeneration : Nat → Option Nat) : Bool :=
  !r.isExpired nowMs && !r.isFlushed currentEpoch && r.tagsAlive currentGeneration

/-- `patch_cas`. -/
def patchCas (r : Record) (cas : Nat) : Record := { r with header := { r.header with cas } }

/-- `patch_expiry`. -/
def patchExpiry (r : Record) (expiresAtMs : Nat) : Record :=
  { r with header := { r.header with expiresAtMs } }

/-- The ids of the tag table, in its order. -/
def tagIds (r : Record) : List Nat := r.tags.map TagRef.tagId

@[simp] theorem patchCas_expiresAtMs (r : Record) (cas : Nat) :
    (r.patchCas cas).header.expiresAtMs = r.header.expiresAtMs := rfl

/-- A live record's references are all current. -/
theorem generation_of_isAlive {r : Record} {nowMs epoch : Nat} {generation : Nat → Option Nat}
    (alive : r.isAlive nowMs epoch generation = true) {t : TagRef} (mem : t ∈ r.tags) :
    generation t.tagId = some t.generation := by
  simp only [isAlive, tagsAlive, Bool.and_eq_true, List.all_eq_true] at alive
  exact of_decide_eq_true (alive.2 t mem)

theorem isExpired_mono {r : Record} {nowMs laterMs : Nat} (later : nowMs ≤ laterMs)
    (expired : r.isExpired nowMs = true) : r.isExpired laterMs = true := by
  simp only [isExpired, decide_eq_true_eq] at expired ⊢
  exact ⟨expired.1, expired.2.trans later⟩

/-- A dead record stays dead as time goes by. -/
theorem not_isAlive_mono {r : Record} {nowMs laterMs epoch : Nat} {generation : Nat → Option Nat}
    (later : nowMs ≤ laterMs) (dead : r.isAlive nowMs epoch generation = false) :
    r.isAlive laterMs epoch generation = false := by
  simp only [isAlive, Bool.and_eq_false_iff, Bool.not_eq_false'] at dead ⊢
  exact dead.imp_left (Or.imp_left (isExpired_mono later))

end Record

theorem encodeRecord_eq_ok_iff {header : RecordMeta} {tags : List TagRef} {value : Bytes}
    {r : Record} :
    encodeRecord header tags value = .ok r ↔ r.header = header ∧ r.tags = tags ∧
      r.value = value := by
  unfold encodeRecord
  split
  · constructor
    · intro h
      cases h
      exact ⟨rfl, rfl, rfl⟩
    · rintro ⟨rfl, rfl, rfl⟩
      rfl
  · rename_i tooMany
    simp only [reduceCtorEq, false_iff]
    rintro ⟨-, rfl, -⟩
    exact tooMany r.tags_le

/-! ### Deadlines -/

/-- `MAX_TTL_SECS`: thirty days. -/
def maxTtlSecs : Nat := 60 * 60 * 24 * 30

/-- `TTL_ALREADY_EXPIRED`. -/
def ttlAlreadyExpired : Nat := u32Max

/-- `ALREADY_EXPIRED_MS`. -/
def alreadyExpiredMs : Nat := 1

/-- `Clock::expiry_from_ttl` at the reading `nowMs`: zero never expires, the
sentinel already has, an offset beyond thirty days is a stamp. -/
def expiryFromTtl (nowMs ttlSecs : Nat) : Nat :=
  if ttlSecs = 0 then never
  else if ttlSecs = ttlAlreadyExpired then alreadyExpiredMs
  else if ttlSecs > maxTtlSecs then ttlSecs * 1000
  else wrappingAdd64 nowMs (ttlSecs * 1000)

/-- `Clock::ttl_from_offset` at the reading `nowMs`: an offset past thirty days is
handed on as the stamp it means, rounded up to the second. -/
def ttlFromOffset (nowMs offsetSecs : Nat) : Nat :=
  if offsetSecs ≤ maxTtlSecs then offsetSecs
  else
    let stamp := (nowMs + 999) / 1000 + offsetSecs
    min (if stamp ≤ u32Max then stamp else u32Max) (u32Max - 1)

/-- `TtlChange`: what a write does to the deadline. -/
inductive TtlChange where
  | keep
  | set (ttlSecs : Nat)
  | setIfPersistent (ttlSecs : Nat)
  deriving DecidableEq, Repr

/-- `deadline_after`: the deadline a rewrite lands on at the reading `nowMs`. -/
def deadlineAfter (nowMs : Nat) (change : TtlChange) (current : Nat) : Nat :=
  match change with
  | .keep => current
  | .set ttlSecs => expiryFromTtl nowMs ttlSecs
  | .setIfPersistent ttlSecs => if current = never then expiryFromTtl nowMs ttlSecs else current

end Vash
