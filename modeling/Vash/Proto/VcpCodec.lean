/-
# The request codec is lossless

Every message the format can carry, framed by the encoders of `Vash.Proto.Vcp`,
decodes to itself. `Carried` lists the messages with the opcode and the body a
client sends for each, and the limits of the format are its side conditions. Each
body has one lemma, a walk through its decoder's fields with the rules of `Reads`;
the frame is then decoded once for all of them.
-/

import Vash.Proto.Vcp

namespace Vash.Vcp

open Library

/-! ### Fields -/

theorem decodeKey_of_isKey {key : Bytes} (isKey : IsKey key) : decodeKey key = .ok key := by
  rw [decodeKey, Key.new_eq_ok_iff.mpr ⟨isKey, rfl⟩]

/-- A tag name the format carries. -/
def IsTagName (name : Bytes) : Prop := 0 < name.length ∧ name.length ≤ maxTagLen

theorem reads_header (header : FrameHeader) : Reads FrameHeader.read header.asBytes header := by
  have opcode : header.opcode.toNat < 256 ^ 1 := header.opcode.toNat_lt
  have flags : header.flags.toNat < 256 ^ 1 := header.flags.toNat_lt
  have status : header.status.toNat < 256 ^ 2 := header.status.toNat_lt
  have requestId : header.requestId.toNat < 256 ^ 4 := header.requestId.toNat_lt
  have bodyLen : header.bodyLen.toNat < 256 ^ 4 := header.bodyLen.toNat_lt
  unfold FrameHeader.read FrameHeader.asBytes
  refine (Reads.number () opcode).bind ?_
  refine (Reads.number () flags).bind ?_
  refine (Reads.number () status).bind ?_
  refine (Reads.number () requestId).bind ?_
  refine (Reads.number () bodyLen).last ?_
  simpa using Reads.pure (ε := Unit) header

theorem reads_listedKey {key : Bytes} (isKey : IsKey key) :
    Reads decodeListedKey (encodeNamed key) key := by
  have fits : key.length < 256 ^ 2 := lt_of_le_of_lt isKey.2 (by decide)
  unfold decodeListedKey encodeNamed
  refine (Reads.number _ fits).bind ?_
  refine (Reads.take _ rfl).last ?_
  exact Reads.lift (decodeKey_of_isKey isKey)

theorem reads_tagName (truncatedLength : String) {name : Bytes} (isName : IsTagName name) :
    Reads (decodeTagName truncatedLength) (encodeNamed name) name := by
  have fits : name.length < 256 ^ 2 := lt_of_le_of_lt isName.2 (by decide)
  have notEmpty : name ≠ [] := List.length_pos_iff.mp isName.1
  unfold decodeTagName encodeNamed
  refine (Reads.number _ fits).bind ?_
  refine (Reads.take _ rfl).last ?_
  refine (Reads.ensure _ notEmpty).skip ?_
  exact (Reads.ensure _ isName.2).skip (Reads.pure name)

theorem reads_count {count : Nat} (few : count ≤ maxBatchItems) :
    Reads decodeCount (leBytes 4 count) count := by
  have fits : count < 256 ^ 4 := lt_of_le_of_lt few (by decide)
  unfold decodeCount
  refine (Reads.number _ fits).last ?_
  exact (Reads.ensure _ few).skip (Reads.pure count)

/-! ### Bodies -/

theorem reads_keyList {keys : List Bytes} (few : keys.length ≤ maxBatchItems)
    (each : ∀ key ∈ keys, IsKey key) : Reads decodeKeyList (encodeKeyListBody keys) keys :=
  (reads_count few).bind (Reads.times fun key mem => reads_listedKey (each key mem))

/-- A write as `SET` can say it. -/
structure PlainSet (set : SetRequest) : Prop where
  key : IsKey set.key
  ttl : ∃ ttlSecs < 2 ^ 32, set.ttl = .set ttlSecs
  mcFlags : set.mcFlags = 0
  mode : set.mode = .set
  returnPrevious : set.returnPrevious = false
  tagCount : set.tags.length ≤ absoluteMaxTags
  tagNames : ∀ name ∈ set.tags, IsTagName name

/-- The body of one write. -/
def encodeSet (set : SetRequest) : Bytes :=
  encodeSetBody set.key set.value (encodeTtlChange set.ttl).2 set.tags

theorem ofBytes_setHeader {ttlSecs keyLen tagCount valueLen : Nat} (ttl : ttlSecs < 256 ^ 4)
    (key : keyLen < 256 ^ 2) (tags : tagCount < 256 ^ 1) (value : valueLen < 256 ^ 4) :
    SetBodyHeader.ofBytes (leBytes 4 ttlSecs ++ (leBytes 2 keyLen ++ (leBytes 1 tagCount ++
      (leBytes 1 0 ++ leBytes 4 valueLen)))) = ⟨ttlSecs, keyLen, tagCount, valueLen⟩ := by
  simp [SetBodyHeader.ofBytes, List.drop_append, List.drop_of_length_le,
    leValue_leBytes_of_lt ttl, leValue_leBytes_of_lt key, leValue_leBytes_of_lt tags,
    leValue_leBytes_of_lt value]

theorem PlainSet.eq_plainSet {set : SetRequest} (plain : PlainSet set) {ttlSecs : Nat}
    (ttl : set.ttl = .set ttlSecs) : plainSet set.key set.value ttlSecs set.tags = set := by
  obtain ⟨key, value, asked, mcFlags, tags, mode, returnPrevious⟩ := set
  obtain rfl : asked = .set ttlSecs := ttl
  obtain rfl : mcFlags = 0 := plain.mcFlags
  obtain rfl : mode = .set := plain.mode
  obtain rfl : returnPrevious = false := plain.returnPrevious
  rfl

theorem reads_set {set : SetRequest} (plain : PlainSet set) (value : set.value.length < 2 ^ 32) :
    Reads decodeSet (encodeSet set) set := by
  obtain ⟨ttlSecs, ttlFits, ttl⟩ := plain.ttl
  have keyFits : set.key.length < 256 ^ 2 := lt_of_le_of_lt plain.key.2 (by decide)
  have tagsFit : set.tags.length < 256 ^ 1 := lt_of_le_of_lt plain.tagCount (by decide)
  unfold decodeSet encodeSet encodeSetBody
  refine (Reads.take _ (by simp [setBodyHeaderLen])).bind ?_
  rw [ttl, encodeTtlChange, ofBytes_setHeader ttlFits keyFits tagsFit value]
  refine (Reads.take _ rfl).bind ?_
  refine (Reads.lift (decodeKey_of_isKey plain.key)).skip ?_
  refine (Reads.take _ rfl).bind ?_
  refine (Reads.times fun name mem => reads_tagName _ (plain.tagNames name mem)).last ?_
  simpa only [plain.eq_plainSet ttl] using Reads.pure set

theorem length_value_le_encodeSet (set : SetRequest) :
    set.value.length ≤ (encodeSet set).length := by
  simp only [encodeSet, encodeSetBody, List.length_append]
  omega

/-- The body of a batch of writes. -/
def encodeSetMany (sets : List SetRequest) : Bytes :=
  encodeBatchCount sets.length ++ sets.flatMap encodeSet

theorem length_value_le_encodeSetMany {sets : List SetRequest} {set : SetRequest}
    (mem : set ∈ sets) : set.value.length ≤ (encodeSetMany sets).length := by
  have part : encodeSet set <:+: sets.flatMap encodeSet := by
    rw [List.flatMap_def]
    exact List.infix_of_mem_flatten (List.mem_map_of_mem mem)
  have whole := part.length_le
  have own := length_value_le_encodeSet set
  simp only [encodeSetMany, List.length_append]
  omega

theorem reads_setMany {sets : List SetRequest} (few : sets.length ≤ maxBatchItems)
    (each : ∀ set ∈ sets, PlainSet set) (values : ∀ set ∈ sets, set.value.length < 2 ^ 32) :
    Reads decodeSetMany (encodeSetMany sets) sets :=
  (reads_count few).bind (Reads.times fun set mem => reads_set (each set mem) (values set mem))

theorem closes_touch {key : Bytes} {ttlSecs : Nat} (isKey : IsKey key) (ttl : ttlSecs < 2 ^ 32) :
    Closes decodeTouch (encodeTouchBody key ttlSecs) (.touch key ttlSecs) := by
  have fits : ttlSecs < 256 ^ 4 := ttl
  unfold decodeTouch encodeTouchBody
  refine (Reads.number _ fits).bind_closes ?_
  refine (Closes.rest key).bind ?_
  refine (Reads.lift (decodeKey_of_isKey isKey)).skip_closes ?_
  exact (Reads.pure _).closes

/-- An entry of a tag table the format carries. -/
def IsTagEntry (entry : Bytes × Nat) : Prop := IsTagName entry.1 ∧ entry.2 < 2 ^ 64

theorem reads_tagEntry {entry : Bytes × Nat} (isEntry : IsTagEntry entry) :
    Reads decodeTagEntry (pushNamedEntry entry) entry := by
  have fits : entry.2 < 256 ^ 8 := isEntry.2
  unfold decodeTagEntry pushNamedEntry
  refine (Reads.number _ fits).bind ?_
  exact (reads_tagName _ isEntry.1).last (Reads.pure entry)

theorem decodeTagSyncKind_toNat (full : Bool) : decodeTagSyncKind full.toNat = .ok full := by
  cases full <;> rfl

theorem reads_tagSync {full : Bool} {entries : List (Bytes × Nat)}
    (few : entries.length ≤ maxTagSyncEntries) (each : ∀ entry ∈ entries, IsTagEntry entry) :
    Reads decodeTagSync (encodeTagSyncBody full entries) (full, entries) := by
  have fits : entries.length < 256 ^ 4 := lt_of_le_of_lt few (by decide)
  have kind : full.toNat < 256 ^ 1 := by cases full <;> decide
  have kindField : leValue ((leBytes 1 full.toNat ++ ([0, 0, 0] ++
      leBytes 4 entries.length)).take 1) = full.toNat := by
    simp [leValue_leBytes_of_lt kind]
  have countField : leValue ((leBytes 1 full.toNat ++ ([0, 0, 0] ++
      leBytes 4 entries.length)).drop 4) = entries.length := by
    simp [List.drop_append, List.drop_of_length_le, leValue_leBytes_of_lt fits]
  unfold decodeTagSync encodeTagSyncBody
  refine (Reads.take _ (by simp [tagSyncHeaderLen])).bind ?_
  rw [kindField, countField]
  refine (Reads.lift (decodeTagSyncKind_toNat full)).skip ?_
  refine (Reads.ensure _ few).skip ?_
  exact (Reads.times fun entry mem => reads_tagEntry (each entry mem)).last (Reads.pure _)

/-- A listing request within the format's limits. -/
structure IsListing (request : ListRequest) : Prop where
  cursor : request.cursor.length ≤ maxListCursorLen
  pattern : request.pattern.length ≤ maxKeyLen
  valid : request.validate = .ok ()

theorem IsListing.limit_le {request : ListRequest} (listing : IsListing request) :
    request.limit ≤ maxListLimit := by
  by_contra large
  have valid := listing.valid
  rw [ListRequest.validate, if_pos (.inr (not_le.mp large))] at valid
  cases valid

theorem closes_listRequest {request : ListRequest} (listing : IsListing request) :
    Closes decodeListRequest (encodeListBody request) request := by
  have limit : request.limit < 256 ^ 4 := lt_of_le_of_lt listing.limit_le (by decide)
  have cursor : request.cursor.length < 256 ^ 2 := lt_of_le_of_lt listing.cursor (by decide)
  have pattern : request.pattern.length < 256 ^ 2 := lt_of_le_of_lt listing.pattern (by decide)
  have valid : request.validate.mapError listingRefusal = .ok () := by
    rw [listing.valid]
    rfl
  unfold decodeListRequest encodeListBody
  refine (Reads.number _ limit).bind_closes ?_
  refine (Reads.number _ cursor).bind_closes ?_
  refine (Reads.number _ pattern).bind_closes ?_
  refine (Reads.take _ (length_leBytes 4 0)).bind_closes ?_
  refine (Reads.ensure _ listing.cursor).skip_closes ?_
  refine (Reads.ensure _ listing.pattern).skip_closes ?_
  refine (Reads.take _ rfl).bind_closes ?_
  refine (Reads.take _ rfl).closes.bind ?_
  refine (Closes.rest []).bind ?_
  refine (Reads.ensure _ rfl).skip_closes ?_
  refine (Reads.lift valid).skip_closes ?_
  exact (Reads.pure request).closes

/-- A credential within the format's limits. -/
structure IsCredential (auth : AuthRequest) : Prop where
  name : auth.name.length ≤ maxAuthNameLen
  secret : auth.secret.length ≤ maxAuthSecretLen

theorem closes_auth {auth : AuthRequest} (credential : IsCredential auth) :
    Closes decodeAuth (encodeAuthBody auth) auth := by
  have mechanism : auth.mechanism.toNat < 256 ^ 1 := auth.mechanism.toNat_lt
  have name : auth.name.length < 256 ^ 1 := lt_of_le_of_lt credential.name (by decide)
  have secret : auth.secret.length < 256 ^ 2 := lt_of_le_of_lt credential.secret (by decide)
  unfold decodeAuth encodeAuthBody
  generalize same : leBytes 1 auth.mechanism.toNat ++ (leBytes 1 auth.name.length ++
    leBytes 2 auth.secret.length) = header
  have mechanismField : leValue (header.take 1) = auth.mechanism.toNat := by
    simp [← same, leValue_leBytes_of_lt mechanism]
  have nameField : leValue ((header.drop 1).take 1) = auth.name.length := by
    simp [← same, leValue_leBytes_of_lt name]
  have secretField : leValue (header.drop 2) = auth.secret.length := by
    simp [← same, List.drop_append, List.drop_of_length_le, leValue_leBytes_of_lt secret]
  refine (Reads.take _ (by simp [← same, authBodyHeaderLen])).bind_closes ?_
  rw [mechanismField, nameField, secretField]
  refine (Reads.ensure _ credential.name).skip_closes ?_
  refine (Reads.ensure _ credential.secret).skip_closes ?_
  refine (Reads.take _ rfl).bind_closes ?_
  refine (Reads.take _ rfl).closes.bind ?_
  refine (Closes.rest []).bind ?_
  refine (Reads.ensure _ rfl).skip_closes ?_
  simpa using (Reads.pure auth).closes

/-! ### Arithmetic -/

/-- Whether an integer is an `i64`. -/
def IsI64 (n : Int) : Prop := i64Min ≤ n ∧ n ≤ i64Max

theorem ofI64_lt (n : Int) : ofI64 n < 256 ^ 8 := by
  unfold ofI64
  omega

theorem toI64_ofI64 {n : Int} (isI64 : IsI64 n) : toI64 (ofI64 n) = n := by
  simp only [IsI64, i64Min, i64Max] at isI64
  unfold toI64 ofI64
  split <;> omega

/-- Whether a delta's numbers are of the widths the source holds them in. -/
def DeltaFits : Delta → Prop
  | .counter delta _ => delta < 2 ^ 64
  | .int delta lower upper => IsI64 delta ∧ IsI64 lower ∧ IsI64 upper
  | .float _ _ _ => True

/-- Whether a change of deadline is of the width the source holds it in. -/
def TtlFits (change : TtlChange) : Prop := (encodeTtlChange change).2 < 2 ^ 32

structure ArithmeticFits (op : Arithmetic) : Prop where
  key : IsKey op.key
  delta : DeltaFits op.delta
  ttl : TtlFits op.ttl

theorem decodeOnBound_encodeOnBound (onBound : OnBound) :
    decodeOnBound (encodeOnBound onBound) = .ok onBound := by
  cases onBound <;> rfl

theorem decodeTtlChange_encodeTtlChange (change : TtlChange) :
    decodeTtlChange (encodeTtlChange change).1 (encodeTtlChange change).2 = .ok change := by
  cases change <;> rfl

theorem arithmeticFlags_createAtZero (missing : Missing) (decrement : Bool) :
    (if arithmeticFlags missing decrement &&& createAtZeroFlag ≠ 0 then
      Missing.createAtZero else .fail) = missing := by
  cases missing <;> cases decrement <;> decide

theorem arithmeticFlags_decrement (missing : Missing) (decrement : Bool) :
    decide (arithmeticFlags missing decrement &&& decrementFlag ≠ 0) = decrement := by
  cases missing <;> cases decrement <;> decide

theorem decodeDelta_encodeDelta {delta : Delta} (fits : DeltaFits delta) (missing : Missing) :
    decodeDelta (encodeDelta delta).mode (arithmeticFlags missing (encodeDelta delta).decrement)
      (encodeDelta delta).delta (encodeDelta delta).lower (encodeDelta delta).upper =
        .ok delta := by
  cases delta with
  | counter delta decrement =>
    exact congrArg (fun d => Except.ok (Delta.counter delta d))
      (arithmeticFlags_decrement missing decrement)
  | int delta lower upper =>
    simp only [encodeDelta, decodeDelta, toI64_ofI64 fits.1, toI64_ofI64 fits.2.1,
      toI64_ofI64 fits.2.2]
  | float delta lower upper =>
    simp [encodeDelta, decodeDelta]

/-- The fields of a delta that fits are of the format's widths. -/
structure DeltaFields.Fit (fields : DeltaFields) : Prop where
  mode : fields.mode < 256 ^ 1
  delta : fields.delta < 256 ^ 8
  lower : fields.lower < 256 ^ 8
  upper : fields.upper < 256 ^ 8

theorem DeltaFits.fields {delta : Delta} (fits : DeltaFits delta) : (encodeDelta delta).Fit := by
  cases delta with
  | counter delta decrement =>
    exact ⟨Nat.zero_lt_succ _, fits, Nat.zero_lt_succ _, Nat.zero_lt_succ _⟩
  | int delta lower upper =>
    exact ⟨Nat.one_lt_succ_succ _, ofI64_lt delta, ofI64_lt lower, ofI64_lt upper⟩
  | float delta lower upper =>
    exact ⟨show 2 < 256 ^ 1 by decide, delta.bits.toNat_lt, lower.bits.toNat_lt,
      upper.bits.toNat_lt⟩

theorem closes_arithmetic {op : Arithmetic} (fits : ArithmeticFits op) :
    Closes decodeArithmetic (encodeArithmeticBody op) op := by
  have fields := fits.delta.fields
  have flags : (arithmeticFlags op.missing (encodeDelta op.delta).decrement).toNat < 256 ^ 1 :=
    UInt8.toNat_lt _
  have onBound : encodeOnBound op.onBound < 256 ^ 1 := by cases op.onBound <;> decide
  have ttlKind : (encodeTtlChange op.ttl).1 < 256 ^ 1 := by
    cases op.ttl <;> simp [encodeTtlChange]
  have ttlSecs : (encodeTtlChange op.ttl).2 < 256 ^ 4 := fits.ttl
  unfold decodeArithmetic encodeArithmeticBody
  refine (Reads.number _ fields.mode).bind_closes ?_
  refine (Reads.number _ flags).bind_closes ?_
  refine (Reads.number _ onBound).bind_closes ?_
  refine (Reads.number _ ttlKind).bind_closes ?_
  refine (Reads.number _ ttlSecs).bind_closes ?_
  refine (Reads.number _ fields.delta).bind_closes ?_
  refine (Reads.number _ fields.lower).bind_closes ?_
  refine (Reads.number _ fields.upper).bind_closes ?_
  simp only [Nat.toUInt8_eq, UInt8.ofNat_toNat]
  refine (Reads.lift (decodeDelta_encodeDelta fits.delta op.missing)).skip_closes ?_
  refine (Reads.lift (decodeOnBound_encodeOnBound op.onBound)).skip_closes ?_
  refine (Reads.lift (decodeTtlChange_encodeTtlChange op.ttl)).skip_closes ?_
  refine (Closes.rest op.key).bind ?_
  refine (Reads.lift (decodeKey_of_isKey fits.key)).skip_closes ?_
  rw [arithmeticFlags_createAtZero]
  exact (Reads.pure op).closes

/-! ### Frames -/

/-- The messages the format carries, each with its opcode and the body sent for it. -/
inductive Carried : Message → Opcode → Bytes → Prop
  | hello {version : Nat} (fits : version < 2 ^ 16) :
      Carried (.command (.hello version)) .hello (encodeHelloBody version)
  | ping : Carried (.command .ping) .ping []
  | cluster : Carried (.command .cluster) .cluster []
  | flush : Carried (.command .flush) .flush []
  | get {key : Bytes} (isKey : IsKey key) : Carried (.command (.get key)) .get key
  | delete {key : Bytes} (isKey : IsKey key) : Carried (.command (.delete key)) .delete key
  | deleteByTag {tag : Bytes} (isName : IsTagName tag) :
      Carried (.command (.deleteByTag tag)) .deleteByTag tag
  | set {set : SetRequest} (plain : PlainSet set) :
      Carried (.command (.set set)) .set (encodeSet set)
  | setMany {sets : List SetRequest} (few : sets.length ≤ maxBatchItems)
      (each : ∀ set ∈ sets, PlainSet set) :
      Carried (.command (.setMany sets .always)) .setMany (encodeSetMany sets)
  | touch {key : Bytes} {ttlSecs : Nat} (isKey : IsKey key) (ttl : ttlSecs < 2 ^ 32) :
      Carried (.command (.touch key ttlSecs)) .touch (encodeTouchBody key ttlSecs)
  | arithmetic {op : Arithmetic} (fits : ArithmeticFits op) :
      Carried (.command (.arithmetic op)) .arithmetic (encodeArithmeticBody op)
  | getMany {keys : List Bytes} (few : keys.length ≤ maxBatchItems)
      (each : ∀ key ∈ keys, IsKey key) :
      Carried (.command (.getMany keys)) .getMany (encodeKeyListBody keys)
  | deleteMany {keys : List Bytes} (few : keys.length ≤ maxBatchItems)
      (each : ∀ key ∈ keys, IsKey key) :
      Carried (.command (.deleteMany keys)) .deleteMany (encodeKeyListBody keys)
  | tagSync {full : Bool} {entries : List (Bytes × Nat)}
      (few : entries.length ≤ maxTagSyncEntries) (each : ∀ entry ∈ entries, IsTagEntry entry) :
      Carried (.command (.tagSync full entries)) .tagSync (encodeTagSyncBody full entries)
  | listKeys {request : ListRequest} (listing : IsListing request) :
      Carried (.command (.listKeys request)) .listKeys (encodeListBody request)
  | listTags {request : ListRequest} (listing : IsListing request) :
      Carried (.command (.listTags request)) .listTags (encodeListBody request)
  | auth {auth : AuthRequest} (credential : IsCredential auth) :
      Carried (.auth auth) .auth (encodeAuthBody auth)

theorem decodeHello_encodeHelloBody {version : Nat} (fits : version < 2 ^ 16) :
    decodeHello (encodeHelloBody version) = .ok (.hello version) := by
  have field : leValue (leBytes 2 version) = version := leValue_leBytes_of_lt fits
  simp [decodeHello, encodeHelloBody, helloBodyLen, field]

theorem decodeDeleteByTag_of_isTagName {tag : Bytes} (isName : IsTagName tag) :
    decodeDeleteByTag tag = .ok (.deleteByTag tag) := by
  have notEmpty : tag ≠ [] := List.length_pos_iff.mp isName.1
  rw [decodeDeleteByTag, if_neg (by simpa using notEmpty), if_neg (not_lt.mpr isName.2)]

/-- The body of every message decodes to it. -/
theorem Carried.decodeBody_eq {message : Message} {opcode : Opcode} {body : Bytes}
    (carried : Carried message opcode body) (fits : body.length ≤ maxBodyLen) :
    decodeBody opcode body = .ok message := by
  have narrow : maxBodyLen < 2 ^ 32 := by decide
  cases carried with
  | hello version => rw [decodeBody, decodeHello_encodeHelloBody version]; rfl
  | ping | cluster | flush => rfl
  | get isKey | delete isKey => rw [decodeBody, decodeKey_of_isKey isKey]; rfl
  | deleteByTag isName => rw [decodeBody, decodeDeleteByTag_of_isTagName isName]; rfl
  | @set set plain =>
    have value := length_value_le_encodeSet set
    rw [decodeBody, (reads_set plain (by omega)).closes.parse]
    rfl
  | @setMany sets few each =>
    have values : ∀ set ∈ sets, set.value.length < 2 ^ 32 := fun set mem =>
      lt_of_le_of_lt ((length_value_le_encodeSetMany mem).trans fits) narrow
    rw [decodeBody, (reads_setMany few each values).closes.parse]
    rfl
  | touch isKey ttl => rw [decodeBody, (closes_touch isKey ttl).parse]; rfl
  | arithmetic opFits => rw [decodeBody, (closes_arithmetic opFits).parse]; rfl
  | getMany few each | deleteMany few each =>
    rw [decodeBody, (reads_keyList few each).closes.parse]
    rfl
  | tagSync few each => rw [decodeBody, (reads_tagSync few each).closes.parse]; rfl
  | listKeys listing | listTags listing =>
    rw [decodeBody, (closes_listRequest listing).parse]
    rfl
  | auth credential => rw [decodeBody, (closes_auth credential).parse]; rfl

theorem length_asBytes (header : FrameHeader) : header.asBytes.length = headerLen := by
  simp [FrameHeader.asBytes, headerLen]

theorem length_encodeRequest (opcode : Opcode) (requestId : UInt32) (body : Bytes) :
    (encodeRequest opcode requestId body).length = headerLen + body.length := by
  rw [encodeRequest, List.length_append, length_asBytes]

theorem refFromPrefix_asBytes (header : FrameHeader) (rest : Bytes) :
    FrameHeader.refFromPrefix (header.asBytes ++ rest) = some (header, rest) := by
  rw [FrameHeader.refFromPrefix, reads_header header rest]
  rfl

theorem noReply_request (opcode : Opcode) (requestId bodyLen : UInt32) :
    (FrameHeader.request opcode requestId bodyLen).noReply = false := by
  simp [FrameHeader.noReply, FrameHeader.request]

/-- A whole frame decodes to what its body holds, whatever follows it. -/
theorem decode_frame {header : FrameHeader} {body : Bytes}
    (length : header.bodyLen.toNat = body.length) (fits : body.length ≤ maxBodyLen) (rest : Bytes) :
    decode (header.asBytes ++ (body ++ rest)) = decodeFrame header body := by
  have whole : ¬ (body ++ rest).length < header.bodyLen.toNat := by
    rw [length, List.length_append]
    omega
  rw [decode, refFromPrefix_asBytes]
  simp only [if_neg (not_lt.mpr (length.trans_le fits)), if_neg whole]
  rw [length, List.take_left']
  rfl

/-- Every message the format carries is decoded from its frame exactly as it was
sent, whatever bytes follow the frame. -/
theorem decode_encodeRequest {message : Message} {opcode : Opcode} {body : Bytes}
    (carried : Carried message opcode body) (fits : body.length ≤ maxBodyLen)
    (requestId : UInt32) (rest : Bytes) :
    decode (encodeRequest opcode requestId body ++ rest) =
      .ok (message.decoded requestId opcode false
        (encodeRequest opcode requestId body).length) := by
  have length : body.length.toUInt32.toNat = body.length := by
    have narrow : maxBodyLen < 2 ^ 32 := by decide
    simp only [Nat.toUInt32_eq, UInt32.toNat_ofNat']
    omega
  rw [length_encodeRequest, encodeRequest, List.append_assoc]
  rw [decode_frame (by exact length) fits]
  simp only [decodeFrame, noReply_request]
  simp only [FrameHeader.request, Opcode.fromU8_toU8, carried.decodeBody_eq fits, length]

/-- A write of `v` under `k` for five minutes, tagged `a`. -/
def taggedSet : SetRequest := plainSet [107] [118] 300 [[97]]

theorem decode_encodeRequest_taggedSet :
    decode (encodeRequest .set 7 (encodeSet taggedSet) ++ [255]) =
      .ok (.request ⟨7, .set, false, .set taggedSet⟩ 29) := by
  have plain : PlainSet taggedSet :=
    { key := by decide
      ttl := ⟨300, by decide, rfl⟩
      mcFlags := rfl
      mode := rfl
      returnPrevious := rfl
      tagCount := by decide
      tagNames := by simp [taggedSet, plainSet, IsTagName, maxTagLen] }
  exact decode_encodeRequest (.set plain) (by decide) 7 [255]

end Vash.Vcp
