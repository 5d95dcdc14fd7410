/-
# The record format

The bytes a record is stored as: a packed header of 28 bytes, a table of tag
references of 12 bytes each, and the value as the rest. `encode_record` writes
them, `RecordRef::parse` overlays them, and `patch_cas` and `patch_expiry`
overwrite one field of the header in place.

Every byte string of at least 28 bytes begins with the header of exactly one
`RecordHeader`, and likewise for the table (`exists_header`, `exists_tags`), so
that `RecordRef.parse_eq_ok_iff` says what the parser does on every input. Over it
stand the results: nothing is lost either way, and a patch of the bytes is a patch
of the record (`Record.parse_asBytes`, `Record.patchCas_asBytes`).
-/

import Vash.Core.Record
import Vash.Library.Wire

namespace Vash

open Library

/-- `RECORD_VERSION`. -/
def recordVersion : UInt8 := 1

/-- `RECORD_HEADER_LEN`. -/
def recordHeaderLen : Nat := 28

/-- `TAG_REF_LEN`. -/
def tagRefLen : Nat := 12

/-- `RECORD_EXPIRES_AT_OFFSET`. -/
def recordExpiresAtOffset : Nat := 12

/-- `RECORD_CAS_OFFSET`. -/
def recordCasOffset : Nat := 20

/-! ### Layout -/

structure RecordHeader where
  version : UInt8
  tagCount : UInt8
  reserved : UInt16
  epoch : UInt32
  mcFlags : UInt32
  expiresAtMs : UInt64
  cas : UInt64
  deriving DecidableEq, Repr

namespace RecordHeader

/-- The bytes of a header, in the order of its fields. -/
def asBytes (header : RecordHeader) : Bytes :=
  leBytes 1 header.version.toNat ++ (leBytes 1 header.tagCount.toNat ++
    (leBytes 2 header.reserved.toNat ++ (leBytes 4 header.epoch.toNat ++
      (leBytes 4 header.mcFlags.toNat ++ (leBytes 8 header.expiresAtMs.toNat ++
        leBytes 8 header.cas.toNat)))))

/-- `RecordHeader::ref_from_prefix`. -/
def read : Reader CoreError RecordHeader := do
  let short := CoreError.malformedRecord "shorter than the header"
  let version ← Reader.number 1 short
  let tagCount ← Reader.number 1 short
  let reserved ← Reader.number 2 short
  let epoch ← Reader.number 4 short
  let mcFlags ← Reader.number 4 short
  let expiresAtMs ← Reader.number 8 short
  let cas ← Reader.number 8 short
  return ⟨version.toUInt8, tagCount.toUInt8, reserved.toUInt16, epoch.toUInt32, mcFlags.toUInt32,
    expiresAtMs.toUInt64, cas.toUInt64⟩

/-- The fields a write supplies. -/
def toMeta (header : RecordHeader) : RecordMeta :=
  ⟨header.epoch.toNat, header.mcFlags.toNat, header.expiresAtMs.toNat, header.cas.toNat⟩

end RecordHeader

namespace TagRef

/-- The bytes of a tag reference. -/
def asBytes (tag : TagRef) : Bytes := leBytes 4 tag.tagId ++ leBytes 8 tag.generation

def read : Reader CoreError TagRef := do
  let short := CoreError.malformedRecord "tag table extends past the record"
  let tagId ← Reader.number 4 short
  let generation ← Reader.number 8 short
  return ⟨tagId, generation⟩

/-- The id is a `u32` and the generation a `u64`. -/
def Fits (tag : TagRef) : Prop := tag.tagId ≤ u32Max ∧ tag.generation ≤ u64Max

end TagRef

/-- The fields are of the widths they are stored in. -/
structure RecordMeta.Fits (header : RecordMeta) : Prop where
  epoch : header.epoch ≤ u32Max
  mcFlags : header.mcFlags ≤ u32Max
  expiresAtMs : header.expiresAtMs ≤ u64Max
  cas : header.cas ≤ u64Max

/-! ### Parsing and encoding -/

structure RecordRef where
  header : RecordHeader
  tags : List TagRef
  value : Bytes
  deriving DecidableEq, Repr

/-- The steps of `RecordRef::parse`. -/
def RecordRef.read : Reader CoreError RecordRef := do
  let header ← RecordHeader.read
  Reader.ensure (header.version = recordVersion)
    (.recordVersion header.version.toNat recordVersion.toNat)
  let tags ← TagRef.read.times header.tagCount.toNat
  let value ← Reader.rest
  return ⟨header, tags, value⟩

/-- `RecordRef::parse`. -/
def RecordRef.parse (buf : Bytes) : Except CoreError RecordRef := RecordRef.read.parse buf

/-- The header `encode_record` writes. -/
def headerFor (header : RecordMeta) (tagCount : Nat) : RecordHeader :=
  ⟨recordVersion, tagCount.toUInt8, 0, header.epoch.toUInt32, header.mcFlags.toUInt32,
    header.expiresAtMs.toUInt64, header.cas.toUInt64⟩

/-- `encode_record`. -/
def encodeRecordBytes (header : RecordMeta) (tags : List TagRef) (value : Bytes) :
    Except CoreError Bytes := do
  validateTags tags.length absoluteMaxTags
  return (headerFor header tags.length).asBytes ++ (tags.flatMap TagRef.asBytes ++ value)

/-- `patch_u64`. -/
def patchU64 (record : Bytes) (offset : Nat) (value : UInt64) : Except CoreError Bytes :=
  if record.length < offset + 8 then
    .error (.malformedRecord "record is shorter than its header")
  else .ok (record.take offset ++ (leBytes 8 value.toNat ++ record.drop (offset + 8)))

/-- `patch_cas`. -/
def patchCas (record : Bytes) (cas : UInt64) : Except CoreError Bytes :=
  patchU64 record recordCasOffset cas

/-- `patch_expiry`. -/
def patchExpiry (record : Bytes) (expiresAtMs : UInt64) : Except CoreError Bytes :=
  patchU64 record recordExpiresAtOffset expiresAtMs

/-! ### Every record is laid out -/

theorem reads_recordHeader (header : RecordHeader) :
    Reads RecordHeader.read header.asBytes header := by
  have version : header.version.toNat < 256 ^ 1 := header.version.toNat_lt
  have tagCount : header.tagCount.toNat < 256 ^ 1 := header.tagCount.toNat_lt
  have reserved : header.reserved.toNat < 256 ^ 2 := header.reserved.toNat_lt
  have epoch : header.epoch.toNat < 256 ^ 4 := header.epoch.toNat_lt
  have mcFlags : header.mcFlags.toNat < 256 ^ 4 := header.mcFlags.toNat_lt
  have expiresAtMs : header.expiresAtMs.toNat < 256 ^ 8 := header.expiresAtMs.toNat_lt
  have cas : header.cas.toNat < 256 ^ 8 := header.cas.toNat_lt
  unfold RecordHeader.read RecordHeader.asBytes
  refine (Reads.number _ version).bind ?_
  refine (Reads.number _ tagCount).bind ?_
  refine (Reads.number _ reserved).bind ?_
  refine (Reads.number _ epoch).bind ?_
  refine (Reads.number _ mcFlags).bind ?_
  refine (Reads.number _ expiresAtMs).bind ?_
  refine (Reads.number _ cas).last ?_
  simpa using Reads.pure (ε := CoreError) header

@[simp] theorem RecordHeader.length_asBytes (header : RecordHeader) :
    header.asBytes.length = recordHeaderLen := by
  simp [asBytes, recordHeaderLen]

/-- Any 28 bytes are a header. -/
theorem exists_header {buf : Bytes} (long : recordHeaderLen ≤ buf.length) :
    ∃ (header : RecordHeader) (rest : Bytes), buf = header.asBytes ++ rest := by
  have total : 28 ≤ buf.length := long
  obtain ⟨version, fits₁, rest₁, rfl, left₁⟩ := exists_leBytes 1 (by omega : 1 ≤ buf.length)
  obtain ⟨tagCount, fits₂, rest₂, rfl, left₂⟩ := exists_leBytes 1 (by omega : 1 ≤ rest₁.length)
  obtain ⟨reserved, fits₃, rest₃, rfl, left₃⟩ := exists_leBytes 2 (by omega : 2 ≤ rest₂.length)
  obtain ⟨epoch, fits₄, rest₄, rfl, left₄⟩ := exists_leBytes 4 (by omega : 4 ≤ rest₃.length)
  obtain ⟨mcFlags, fits₅, rest₅, rfl, left₅⟩ := exists_leBytes 4 (by omega : 4 ≤ rest₄.length)
  obtain ⟨expires, fits₆, rest₆, rfl, left₆⟩ := exists_leBytes 8 (by omega : 8 ≤ rest₅.length)
  obtain ⟨cas, fits₇, rest₇, rfl, -⟩ := exists_leBytes 8 (by omega : 8 ≤ rest₆.length)
  refine ⟨⟨version.toUInt8, tagCount.toUInt8, reserved.toUInt16, epoch.toUInt32, mcFlags.toUInt32,
    expires.toUInt64, cas.toUInt64⟩, rest₇, ?_⟩
  simp only [RecordHeader.asBytes, Nat.toUInt8_eq, Nat.toUInt16_eq, Nat.toUInt32_eq,
    Nat.toUInt64_eq, UInt8.toNat_ofNat_of_lt' fits₁, UInt8.toNat_ofNat_of_lt' fits₂,
    UInt16.toNat_ofNat_of_lt' fits₃, UInt32.toNat_ofNat_of_lt' fits₄,
    UInt32.toNat_ofNat_of_lt' fits₅, UInt64.toNat_ofNat_of_lt' fits₆,
    UInt64.toNat_ofNat_of_lt' fits₇, List.append_assoc]

theorem reads_tagRef {tag : TagRef} (fits : tag.Fits) : Reads TagRef.read tag.asBytes tag := by
  have tagId : tag.tagId < 256 ^ 4 := Nat.lt_succ_of_le fits.1
  have generation : tag.generation < 256 ^ 8 := Nat.lt_succ_of_le fits.2
  unfold TagRef.read TagRef.asBytes
  refine (Reads.number _ tagId).bind ?_
  exact (Reads.number _ generation).last (Reads.pure tag)

@[simp] theorem TagRef.length_asBytes (tag : TagRef) : tag.asBytes.length = tagRefLen := by
  simp [asBytes, tagRefLen]

theorem length_flatMap_tags (tags : List TagRef) :
    (tags.flatMap TagRef.asBytes).length = tagRefLen * tags.length := by
  induction tags with
  | nil => rfl
  | cons tag tags ih => simp [ih, Nat.mul_succ, Nat.add_comm]

/-- Any bytes that are enough for them are tag references. -/
theorem exists_tags (count : Nat) {buf : Bytes} (long : tagRefLen * count ≤ buf.length) :
    ∃ (tags : List TagRef) (value : Bytes), tags.length = count ∧ (∀ tag ∈ tags, tag.Fits) ∧
      buf = tags.flatMap TagRef.asBytes ++ value := by
  induction count generalizing buf with
  | zero => exact ⟨[], buf, rfl, by simp, rfl⟩
  | succ count ih =>
    have total : 12 * (count + 1) ≤ buf.length := long
    obtain ⟨tagId, fits₁, rest₁, rfl, left₁⟩ := exists_leBytes 4 (by omega : 4 ≤ buf.length)
    obtain ⟨generation, fits₂, rest₂, rfl, left₂⟩ := exists_leBytes 8 (by omega : 8 ≤ rest₁.length)
    have more : tagRefLen * count ≤ rest₂.length := by
      simp only [tagRefLen]
      omega
    obtain ⟨tags, value, rfl, fits, rfl⟩ := ih more
    refine ⟨⟨tagId, generation⟩ :: tags, value, rfl, ?_, by simp [TagRef.asBytes]⟩
    rw [List.forall_mem_cons]
    exact ⟨⟨Nat.le_of_lt_succ fits₁, Nat.le_of_lt_succ fits₂⟩, fits⟩

/-! ### What the parser accepts -/

/-- The bytes of a record view. -/
def RecordRef.asBytes (ref : RecordRef) : Bytes :=
  ref.header.asBytes ++ (ref.tags.flatMap TagRef.asBytes ++ ref.value)

/-- A view that can have been parsed: the version is this build's and the table has
the length the header gives it. -/
structure RecordRef.Whole (ref : RecordRef) : Prop where
  version : ref.header.version = recordVersion
  tagCount : ref.tags.length = ref.header.tagCount.toNat
  tags : ∀ tag ∈ ref.tags, tag.Fits

theorem RecordRef.Whole.parse {ref : RecordRef} (whole : ref.Whole) :
    RecordRef.parse ref.asBytes = .ok ref := by
  apply Closes.parse
  unfold RecordRef.read RecordRef.asBytes
  refine (reads_recordHeader ref.header).bind_closes ?_
  refine (Reads.ensure _ whole.version).skip_closes ?_
  rw [← whole.tagCount]
  refine (Reads.times fun tag mem => reads_tagRef (whole.tags tag mem)).bind_closes ?_
  exact (Closes.rest ref.value).bind rfl

theorem consumes_recordHeader : Consumes RecordHeader.read recordHeaderLen := by
  have total : recordHeaderLen = 1 + (1 + (2 + (4 + (4 + (8 + 8))))) := rfl
  rw [total]
  unfold RecordHeader.read
  refine (Consumes.number 1 _).bind fun _ => ?_
  refine (Consumes.number 1 _).bind fun _ => ?_
  refine (Consumes.number 2 _).bind fun _ => ?_
  refine (Consumes.number 4 _).bind fun _ => ?_
  refine (Consumes.number 4 _).bind fun _ => ?_
  refine (Consumes.number 8 _).bind fun _ => ?_
  exact (Consumes.number 8 _).last fun _ => .pure _

theorem consumes_tagRef : Consumes TagRef.read tagRefLen :=
  (Consumes.number 4 _).bind fun _ => (Consumes.number 8 _).last fun _ => .pure _

/-- The parser accepts the bytes of a whole view and nothing else. -/
theorem RecordRef.parse_eq_ok_iff {buf : Bytes} {ref : RecordRef} :
    RecordRef.parse buf = .ok ref ↔ ref.Whole ∧ buf = ref.asBytes := by
  constructor
  · intro parsed
    obtain ⟨left, read⟩ : ∃ left, RecordRef.read buf = .ok (ref, left) := by
      unfold RecordRef.parse Reader.parse at parsed
      cases read : RecordRef.read buf with
      | error => simp [read, Except.map] at parsed
      | ok result =>
        rw [read] at parsed
        cases parsed
        exact ⟨result.2, rfl⟩
    obtain ⟨header, rest, readHeader, afterHeader⟩ := Reader.bind_eq_ok_iff.mp read
    obtain ⟨_, rest', checked, afterCheck⟩ := Reader.bind_eq_ok_iff.mp afterHeader
    obtain ⟨version, same⟩ := Reader.ensure_eq_ok_iff.mp checked
    rw [same] at afterCheck
    obtain ⟨tags, value, readTags, afterTags⟩ := Reader.bind_eq_ok_iff.mp afterCheck
    cases afterTags
    -- The header and the table are there in full, so they are the ones laid out.
    have long : recordHeaderLen ≤ buf.length := by
      rw [consumes_recordHeader _ _ _ readHeader]
      exact Nat.le_add_right _ _
    obtain ⟨header', rest', rfl⟩ := exists_header long
    rw [reads_recordHeader header' rest'] at readHeader
    cases readHeader
    have table : tagRefLen * header.tagCount.toNat ≤ rest.length := by
      rw [consumes_tagRef.times _ _ _ _ readTags]
      exact Nat.le_add_right _ _
    obtain ⟨tags', value', count, fits, rfl⟩ := exists_tags header.tagCount.toNat table
    rw [← count, Reads.times (fun tag mem => reads_tagRef (fits tag mem)) value'] at readTags
    cases readTags
    exact ⟨⟨version, count, fits⟩, rfl⟩
  · rintro ⟨whole, rfl⟩
    exact whole.parse

/-- What `RecordRef::parse` refuses. -/
def Unreadable (buf : Bytes) : Prop :=
  buf.length < recordHeaderLen ∨ buf.head? ≠ some recordVersion ∨
    buf.length < recordHeaderLen + tagRefLen * (buf.getD 1 0).toNat

@[simp] theorem RecordRef.head?_asBytes (ref : RecordRef) :
    ref.asBytes.head? = some ref.header.version := by
  simp [asBytes, RecordHeader.asBytes, leBytes]

@[simp] theorem RecordRef.getD_one_asBytes (ref : RecordRef) :
    ref.asBytes.getD 1 0 = ref.header.tagCount := by
  simp [asBytes, RecordHeader.asBytes, leBytes]

theorem RecordRef.length_asBytes (ref : RecordRef) :
    ref.asBytes.length = recordHeaderLen + tagRefLen * ref.tags.length + ref.value.length := by
  simp only [asBytes, List.length_append, RecordHeader.length_asBytes, length_flatMap_tags,
    Nat.add_assoc]

theorem exists_whole_iff (buf : Bytes) :
    (∃ ref : RecordRef, ref.Whole ∧ buf = ref.asBytes) ↔ ¬ Unreadable buf := by
  constructor
  · rintro ⟨ref, whole, rfl⟩ unreadable
    unfold Unreadable at unreadable
    rw [ref.length_asBytes, ref.head?_asBytes, ref.getD_one_asBytes, whole.version,
      whole.tagCount] at unreadable
    rcases unreadable with short | version | short
    · omega
    · exact version rfl
    · omega
  · intro readable
    unfold Unreadable at readable
    push Not at readable
    obtain ⟨long, version, table⟩ := readable
    obtain ⟨header, rest, rfl⟩ := exists_header long
    have announced : (header.asBytes ++ rest).getD 1 0 = header.tagCount := by
      simp [RecordHeader.asBytes, leBytes]
    rw [announced, List.length_append, header.length_asBytes] at table
    have table : tagRefLen * header.tagCount.toNat ≤ rest.length := by omega
    obtain ⟨tags, value, count, fits, rfl⟩ := exists_tags header.tagCount.toNat table
    have version : header.version = recordVersion := by
      simpa [RecordHeader.asBytes, leBytes] using version
    exact ⟨⟨header, tags, value⟩, ⟨version, count, fits⟩, rfl⟩

/-- The parser refuses what is shorter than its header or its table and what another
version wrote, and nothing else. -/
theorem RecordRef.parse_refuses_iff (buf : Bytes) :
    (∃ error, RecordRef.parse buf = .error error) ↔ Unreadable buf := by
  rw [← not_iff_not, ← exists_whole_iff]
  cases parsed : RecordRef.parse buf with
  | error error =>
    refine iff_of_false (by simp) ?_
    rintro ⟨ref, whole⟩
    rw [RecordRef.parse_eq_ok_iff.mpr whole] at parsed
    cases parsed
  | ok ref => exact iff_of_true (by simp) ⟨ref, RecordRef.parse_eq_ok_iff.mp parsed⟩

/-! ### Encoding -/

theorem encodeRecordBytes_eq_ok_iff {header : RecordMeta} {tags : List TagRef}
    {value bytes : Bytes} :
    encodeRecordBytes header tags value = .ok bytes ↔ tags.length ≤ absoluteMaxTags ∧
      bytes = (RecordRef.mk (headerFor header tags.length) tags value).asBytes := by
  unfold encodeRecordBytes validateTags
  split
  · rename_i many
    refine iff_of_false (by rintro ⟨⟩) ?_
    rintro ⟨few, -⟩
    omega
  · rename_i few
    constructor
    · intro encoded
      cases encoded
      exact ⟨by omega, rfl⟩
    · rintro ⟨-, rfl⟩
      rfl

theorem headerFor_toMeta {header : RecordMeta} (fits : header.Fits) (count : Nat) :
    (headerFor header count).toMeta = header := by
  have epoch := Nat.lt_succ_of_le fits.epoch
  have mcFlags := Nat.lt_succ_of_le fits.mcFlags
  have expiresAtMs := Nat.lt_succ_of_le fits.expiresAtMs
  have cas := Nat.lt_succ_of_le fits.cas
  simp only [headerFor, RecordHeader.toMeta, Nat.toUInt32_eq, Nat.toUInt64_eq,
    UInt32.toNat_ofNat_of_lt' epoch, UInt32.toNat_ofNat_of_lt' mcFlags,
    UInt64.toNat_ofNat_of_lt' expiresAtMs, UInt64.toNat_ofNat_of_lt' cas]

/-- What `encode_record` writes is whole. -/
theorem whole_of_fits (header : RecordMeta) {tags : List TagRef} (value : Bytes)
    (few : tags.length ≤ absoluteMaxTags) (fits : ∀ tag ∈ tags, tag.Fits) :
    (RecordRef.mk (headerFor header tags.length) tags value).Whole where
  version := rfl
  tagCount := by
    have small : tags.length < 2 ^ 8 := Nat.lt_succ_of_le few
    simp only [headerFor, Nat.toUInt8_eq, UInt8.toNat_ofNat_of_lt' small]
  tags := fits

/-- A whole view with zero reserved bytes has the header `encode_record` writes. -/
theorem RecordRef.Whole.header_eq {ref : RecordRef} (whole : ref.Whole)
    (reserved : ref.header.reserved = 0) :
    headerFor ref.header.toMeta ref.tags.length = ref.header := by
  obtain ⟨⟨version, tagCount, _, epoch, mcFlags, expiresAtMs, cas⟩, tags, value⟩ := ref
  cases reserved
  have count := whole.tagCount
  have version := whole.version
  dsimp only at count version
  simp [headerFor, RecordHeader.toMeta, count, version]

/-! ### Patches -/

theorem patchU64_append (front back : Bytes) (old value : UInt64) :
    patchU64 (front ++ (leBytes 8 old.toNat ++ back)) front.length value =
      .ok (front ++ (leBytes 8 value.toNat ++ back)) := by
  have behind : (front ++ (leBytes 8 old.toNat ++ back)).drop (front.length + 8) = back := by
    rw [← List.append_assoc, List.drop_left' (by simp)]
  rw [patchU64, if_neg (by simp), List.take_left, behind]

namespace RecordRef

variable (ref : RecordRef)

/-- The view with another token. -/
def withCas (cas : UInt64) : RecordRef := { ref with header := { ref.header with cas } }

/-- The view with another deadline. -/
def withExpiry (expiresAtMs : UInt64) : RecordRef :=
  { ref with header := { ref.header with expiresAtMs } }

theorem patchCas_asBytes (cas : UInt64) :
    patchCas ref.asBytes cas = .ok (ref.withCas cas).asBytes := by
  have patched := patchU64_append
    (leBytes 1 ref.header.version.toNat ++ (leBytes 1 ref.header.tagCount.toNat ++
      (leBytes 2 ref.header.reserved.toNat ++ (leBytes 4 ref.header.epoch.toNat ++
        (leBytes 4 ref.header.mcFlags.toNat ++ leBytes 8 ref.header.expiresAtMs.toNat)))))
    (ref.tags.flatMap TagRef.asBytes ++ ref.value) ref.header.cas cas
  simpa [patchCas, recordCasOffset, asBytes, withCas, RecordHeader.asBytes] using patched

theorem patchExpiry_asBytes (expiresAtMs : UInt64) :
    patchExpiry ref.asBytes expiresAtMs = .ok (ref.withExpiry expiresAtMs).asBytes := by
  have patched := patchU64_append
    (leBytes 1 ref.header.version.toNat ++ (leBytes 1 ref.header.tagCount.toNat ++
      (leBytes 2 ref.header.reserved.toNat ++ (leBytes 4 ref.header.epoch.toNat ++
        leBytes 4 ref.header.mcFlags.toNat))))
    (leBytes 8 ref.header.cas.toNat ++ (ref.tags.flatMap TagRef.asBytes ++ ref.value))
    ref.header.expiresAtMs expiresAtMs
  simpa [patchExpiry, recordExpiresAtOffset, asBytes, withExpiry, RecordHeader.asBytes]
    using patched

variable {ref}

theorem Whole.withCas (whole : ref.Whole) (cas : UInt64) : (ref.withCas cas).Whole :=
  ⟨whole.version, whole.tagCount, whole.tags⟩

theorem Whole.withExpiry (whole : ref.Whole) (expiresAtMs : UInt64) :
    (ref.withExpiry expiresAtMs).Whole :=
  ⟨whole.version, whole.tagCount, whole.tags⟩

end RecordRef

/-! ### The format -/

/-- The format loses nothing, has one writing for each record, and its patches touch one
field each. -/
theorem record_format_exact :
    (∀ header tags value, header.Fits → (∀ tag ∈ tags, TagRef.Fits tag) →
      tags.length ≤ absoluteMaxTags →
      ∃ bytes ref, encodeRecordBytes header tags value = .ok bytes ∧
        RecordRef.parse bytes = .ok ref ∧ ref.header.toMeta = header ∧ ref.tags = tags ∧
        ref.value = value ∧ ref.header.reserved = 0) ∧
    (∀ bytes ref, RecordRef.parse bytes = .ok ref → ref.header.reserved = 0 →
      encodeRecordBytes ref.header.toMeta ref.tags ref.value = .ok bytes) ∧
    (∀ bytes, (∃ error, RecordRef.parse bytes = .error error) ↔ Unreadable bytes) ∧
    ∀ bytes ref, RecordRef.parse bytes = .ok ref → ∀ cas expiresAtMs,
      ∃ stamped dated both, patchCas bytes cas = .ok stamped ∧
        RecordRef.parse stamped = .ok (ref.withCas cas) ∧
        patchExpiry bytes expiresAtMs = .ok dated ∧
        RecordRef.parse dated = .ok (ref.withExpiry expiresAtMs) ∧
        patchExpiry stamped expiresAtMs = .ok both ∧ patchCas dated cas = .ok both ∧
        RecordRef.parse both = .ok ((ref.withCas cas).withExpiry expiresAtMs) := by
  refine ⟨?_, ?_, RecordRef.parse_refuses_iff, ?_⟩
  · intro header tags value fits tagsFit few
    exact ⟨_, _, encodeRecordBytes_eq_ok_iff.mpr ⟨few, rfl⟩,
      (whole_of_fits header value few tagsFit).parse, headerFor_toMeta fits _, rfl, rfl, rfl⟩
  · intro bytes ref parsed reserved
    obtain ⟨whole, rfl⟩ := RecordRef.parse_eq_ok_iff.mp parsed
    have few : ref.tags.length ≤ absoluteMaxTags := by
      rw [whole.tagCount]
      exact Nat.le_of_lt_succ ref.header.tagCount.toNat_lt
    refine encodeRecordBytes_eq_ok_iff.mpr ⟨few, ?_⟩
    rw [whole.header_eq reserved]
  · intro bytes ref parsed cas expiresAtMs
    obtain ⟨whole, rfl⟩ := RecordRef.parse_eq_ok_iff.mp parsed
    exact ⟨_, _, _, ref.patchCas_asBytes cas, (whole.withCas cas).parse,
      ref.patchExpiry_asBytes expiresAtMs, (whole.withExpiry expiresAtMs).parse,
      (ref.withCas cas).patchExpiry_asBytes expiresAtMs,
      (ref.withExpiry expiresAtMs).patchCas_asBytes cas,
      ((whole.withCas cas).withExpiry expiresAtMs).parse⟩

/-! ### The records the store holds -/

namespace Record

/-- The bytes a record is stored as. -/
def asBytes (r : Record) : Bytes :=
  (RecordRef.mk (headerFor r.header r.tags.length) r.tags r.value).asBytes

/-- A record built from its fields is stored as `encode_record` writes them. -/
theorem encodeRecordBytes_of_ok {header : RecordMeta} {tags : List TagRef} {value : Bytes}
    {r : Record} (built : encodeRecord header tags value = .ok r) :
    encodeRecordBytes header tags value = .ok r.asBytes := by
  obtain ⟨rfl, rfl, rfl⟩ := encodeRecord_eq_ok_iff.mp built
  exact encodeRecordBytes_eq_ok_iff.mpr ⟨r.tags_le, rfl⟩

/-- What is read back of a stored record is the record. -/
theorem parse_asBytes {r : Record} (fits : r.header.Fits) (tagsFit : ∀ tag ∈ r.tags, tag.Fits) :
    ∃ ref, RecordRef.parse r.asBytes = .ok ref ∧ ref.header.toMeta = r.header ∧
      ref.tags = r.tags ∧ ref.value = r.value :=
  ⟨_, (whole_of_fits r.header r.value r.tags_le tagsFit).parse, headerFor_toMeta fits _, rfl, rfl⟩

theorem patchCas_asBytes (r : Record) (cas : UInt64) :
    Vash.patchCas r.asBytes cas = .ok (r.patchCas cas.toNat).asBytes := by
  unfold asBytes
  rw [RecordRef.patchCas_asBytes]
  simp [RecordRef.withCas, headerFor, patchCas]

theorem patchExpiry_asBytes (r : Record) (expiresAtMs : UInt64) :
    Vash.patchExpiry r.asBytes expiresAtMs = .ok (r.patchExpiry expiresAtMs.toNat).asBytes := by
  unfold asBytes
  rw [RecordRef.patchExpiry_asBytes]
  simp [RecordRef.withExpiry, headerFor, patchExpiry]

end Record

end Vash
