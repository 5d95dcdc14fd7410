/-
# VCP requests

The binary dialect's request format: `vash_proto::vcp`'s frame header, the decoder
of a request frame with every one of its refusals, and the encoders a client
builds its bodies with. The decoders read a body through a cursor, the library's
`Reader`; an encoder's output is the bytes it appends.
-/

import Vash.Core.Request
import Vash.Library.Wire

namespace Vash.Vcp

open Library

/-! ### Frames -/

inductive Opcode where
  | hello
  | ping
  | auth
  | stats
  | cluster
  | get
  | set
  | delete
  | touch
  | arithmetic
  | getMany
  | setMany
  | deleteMany
  | deleteByTag
  | flush
  | tagSync
  | listKeys
  | listTags
  deriving DecidableEq, Repr

/-- The byte of an opcode. -/
def Opcode.toU8 : Opcode → UInt8
  | .hello => 0x01
  | .ping => 0x02
  | .auth => 0x03
  | .stats => 0x04
  | .cluster => 0x05
  | .get => 0x10
  | .set => 0x11
  | .delete => 0x12
  | .touch => 0x13
  | .arithmetic => 0x14
  | .getMany => 0x20
  | .setMany => 0x21
  | .deleteMany => 0x22
  | .deleteByTag => 0x30
  | .flush => 0x31
  | .tagSync => 0x40
  | .listKeys => 0x50
  | .listTags => 0x51

/-- `Opcode::from_u8`. -/
def Opcode.fromU8 (v : UInt8) : Option Opcode :=
  match v.toNat with
  | 0x01 => some .hello
  | 0x02 => some .ping
  | 0x03 => some .auth
  | 0x04 => some .stats
  | 0x05 => some .cluster
  | 0x10 => some .get
  | 0x11 => some .set
  | 0x12 => some .delete
  | 0x13 => some .touch
  | 0x14 => some .arithmetic
  | 0x20 => some .getMany
  | 0x21 => some .setMany
  | 0x22 => some .deleteMany
  | 0x30 => some .deleteByTag
  | 0x31 => some .flush
  | 0x40 => some .tagSync
  | 0x50 => some .listKeys
  | 0x51 => some .listTags
  | _ => none

theorem Opcode.fromU8_toU8 (opcode : Opcode) : Opcode.fromU8 opcode.toU8 = some opcode := by
  cases opcode <;> rfl

/-- The statuses of a response. -/
inductive Status where
  | ok
  | notFound
  | exists
  | badRequest
  | tooLarge
  | unauthorized
  | overloaded
  | capacityFull
  | unsupported
  | internal
  | notStored
  | notNumeric
  deriving DecidableEq, Repr

/-- `HEADER_LEN`. -/
def headerLen : Nat := 12

/-- `MAX_BODY_LEN`. -/
def maxBodyLen : Nat := 64 * 1024 * 1024

/-- `flags::NO_REPLY`. -/
def noReplyFlag : UInt8 := 2

structure FrameHeader where
  opcode : UInt8
  flags : UInt8
  status : UInt16
  requestId : UInt32
  bodyLen : UInt32
  deriving DecidableEq, Repr

namespace FrameHeader

/-- `FrameHeader::request`. -/
def request (opcode : Opcode) (requestId bodyLen : UInt32) : FrameHeader :=
  ⟨opcode.toU8, 0, 0, requestId, bodyLen⟩

def noReply (header : FrameHeader) : Bool := header.flags &&& noReplyFlag ≠ 0

/-- The twelve bytes of a header. -/
def asBytes (header : FrameHeader) : Bytes :=
  leBytes 1 header.opcode.toNat ++ (leBytes 1 header.flags.toNat ++
    (leBytes 2 header.status.toNat ++ (leBytes 4 header.requestId.toNat ++
      leBytes 4 header.bodyLen.toNat)))

/-- The fields of a header in their order; it refuses only bytes that are too few. -/
def read : Reader Unit FrameHeader := do
  let opcode ← Reader.number 1 ()
  let flags ← Reader.number 1 ()
  let status ← Reader.number 2 ()
  let requestId ← Reader.number 4 ()
  let bodyLen ← Reader.number 4 ()
  return ⟨opcode.toUInt8, flags.toUInt8, status.toUInt16, requestId.toUInt32, bodyLen.toUInt32⟩

/-- `FrameHeader::ref_from_prefix`. -/
def refFromPrefix (buf : Bytes) : Option (FrameHeader × Bytes) := (read buf).toOption

end FrameHeader

/-! ### What a frame decodes to -/

structure AuthRequest where
  mechanism : UInt8
  name : Bytes
  secret : Bytes
  deriving DecidableEq, Repr

/-- What a body holds: `AUTH` alone is not a domain command. -/
inductive Message where
  | command (command : Command)
  | auth (auth : AuthRequest)
  deriving DecidableEq, Repr

structure Request where
  requestId : UInt32
  opcode : Opcode
  noReply : Bool
  command : Command
  deriving DecidableEq, Repr

inductive Decoded where
  | incomplete (needed : Nat)
  | request (request : Request) (consumed : Nat)
  | auth (requestId : UInt32) (auth : AuthRequest) (consumed : Nat)
  deriving DecidableEq, Repr

inductive DecodeError where
  | fatal (detail : String)
  | body (requestId : UInt32) (opcode : UInt8) (consumed : Nat) (status : Status)
      (detail : String)
  deriving DecidableEq, Repr

/-- A body's refusal: the status answered and why. -/
abbrev Refusal := Status × String

/-- `FrameLen`. -/
inductive FrameLen where
  | incomplete (needed : Nat)
  | complete (len : Nat)
  | tooLarge
  deriving DecidableEq, Repr

/-! ### Decoding -/

/-- `decode_key`. -/
def decodeKey (bytes : Bytes) : Except Refusal Bytes :=
  match Key.new bytes with
  | .ok key => .ok key
  | .error .emptyKey => .error (.badRequest, "key is empty")
  | .error (.keyTooLong _ _) => .error (.tooLarge, "key exceeds the maximum length")
  | .error _ => .error (.badRequest, "invalid key")

/-- `decode_count`. -/
def decodeCount : Reader Refusal Nat := do
  let count ← Reader.number 4 (.badRequest, "batch is missing its item count")
  Reader.ensure (count ≤ maxBatchItems) (.badRequest, "batch exceeds the maximum item count")
  return count

/-- One key of a list, behind its length. -/
def decodeListedKey : Reader Refusal Bytes := do
  let len ← Reader.number 2 (.badRequest, "truncated key length")
  let bytes ← Reader.take len (.badRequest, "truncated key")
  Reader.lift (decodeKey bytes)

/-- `decode_key_list`. -/
def decodeKeyList : Reader Refusal (List Bytes) := do
  let count ← decodeCount
  decodeListedKey.times count

/-- A tag name behind its length, with the text a short length is refused with. -/
def decodeTagName (truncatedLength : String) : Reader Refusal Bytes := do
  let len ← Reader.number 2 (.badRequest, truncatedLength)
  let name ← Reader.take len (.badRequest, "truncated tag name")
  Reader.ensure (name ≠ []) (.badRequest, "tag name is empty")
  Reader.ensure (name.length ≤ maxTagLen) (.badRequest, "tag name is too long")
  return name

/-- One entry of a tag table: a name and its generation. -/
def decodeTagEntry : Reader Refusal (Bytes × Nat) := do
  let generation ← Reader.number 8 (.badRequest, "truncated tag generation")
  let name ← decodeTagName "truncated tag name length"
  return (name, generation)

/-- The kind byte of a `TAG_SYNC`: whether the table is the sender's whole one. -/
def decodeTagSyncKind (kind : Nat) : Except Refusal Bool :=
  match kind with
  | 0 => .ok false
  | 1 => .ok true
  | _ => .error (.badRequest, "unknown tag sync kind")

/-- The refusal of a `TAG_SYNC` shorter than its header. -/
def shortTagSync : Refusal := (.badRequest, "tag sync body is shorter than its header")

/-- `TAG_SYNC_HEADER_LEN`. -/
def tagSyncHeaderLen : Nat := 8

/-- `decode_tag_sync`. -/
def decodeTagSync : Reader Refusal (Bool × List (Bytes × Nat)) := do
  let header ← Reader.take tagSyncHeaderLen shortTagSync
  let full ← Reader.lift (decodeTagSyncKind (leValue (header.take 1)))
  let count := leValue (header.drop 4)
  Reader.ensure (count ≤ maxTagSyncEntries)
    (.badRequest, "tag sync exceeds the maximum entry count")
  let entries ← decodeTagEntry.times count
  return (full, entries)

/-- The refusal of a listing shorter than its header. -/
def shortListing : Refusal := (.badRequest, "listing body is shorter than its header")

/-- The answer to a listing request that does not validate. -/
def listingRefusal : CoreError → Refusal
  | .badLimit _ _ => (.badRequest, "listing limit is out of range")
  | _ => (.badRequest, "listing pattern is malformed")

/-- `decode_list_request`. -/
def decodeListRequest : Reader Refusal ListRequest := do
  let limit ← Reader.number 4 shortListing
  let cursorLen ← Reader.number 2 shortListing
  let patternLen ← Reader.number 2 shortListing
  let _reserved ← Reader.take 4 shortListing
  Reader.ensure (cursorLen ≤ maxListCursorLen) (.badRequest, "listing cursor is too long")
  Reader.ensure (patternLen ≤ maxKeyLen) (.badRequest, "listing pattern is too long")
  let cursor ← Reader.take cursorLen (.badRequest, "truncated listing cursor")
  let pattern ← Reader.take patternLen (.badRequest, "truncated listing pattern")
  let trailing ← Reader.rest
  Reader.ensure (trailing = []) (.badRequest, "trailing bytes after the listing body")
  let request : ListRequest := ⟨limit, cursor, pattern⟩
  Reader.lift (request.validate.mapError listingRefusal)
  return request

/-- `AUTH_BODY_HEADER_LEN`. -/
def authBodyHeaderLen : Nat := 4

/-- `MAX_AUTH_NAME_LEN`. -/
def maxAuthNameLen : Nat := 64

/-- `MAX_AUTH_SECRET_LEN`. -/
def maxAuthSecretLen : Nat := 512

/-- `decode_auth`. -/
def decodeAuth : Reader Refusal AuthRequest := do
  let header ← Reader.take authBodyHeaderLen
    (.badRequest, "auth body is shorter than its header")
  let mechanism := (leValue (header.take 1)).toUInt8
  let nameLen := leValue ((header.drop 1).take 1)
  let secretLen := leValue (header.drop 2)
  Reader.ensure (nameLen ≤ maxAuthNameLen)
    (.badRequest, "auth name exceeds the maximum length")
  Reader.ensure (secretLen ≤ maxAuthSecretLen)
    (.badRequest, "auth secret exceeds the maximum length")
  let name ← Reader.take nameLen (.badRequest, "auth body is shorter than its name")
  let secret ← Reader.take secretLen (.badRequest, "auth body is shorter than its secret")
  let trailing ← Reader.rest
  Reader.ensure (trailing = []) (.badRequest, "auth body has trailing bytes")
  return ⟨mechanism, name, secret⟩

/-- `SET_BODY_HEADER_LEN`. -/
def setBodyHeaderLen : Nat := 12

/-- `SetBodyHeader`, without its reserved byte. -/
structure SetBodyHeader where
  ttlSecs : Nat
  keyLen : Nat
  tagCount : Nat
  valueLen : Nat
  deriving DecidableEq, Repr

/-- `SetBodyHeader::ref_from_bytes`, on twelve bytes. -/
def SetBodyHeader.ofBytes (raw : Bytes) : SetBodyHeader :=
  ⟨leValue (raw.take 4), leValue ((raw.drop 4).take 2), leValue ((raw.drop 6).take 1),
    leValue (raw.drop 8)⟩

/-- The write a `SET` asks for: unconditional, with no flags. -/
def plainSet (key value : Bytes) (ttlSecs : Nat) (tags : List Bytes) : SetRequest where
  key := key
  value := value
  ttl := .set ttlSecs
  mcFlags := 0
  tags := tags
  mode := .set
  returnPrevious := false

/-- `decode_set`. -/
def decodeSet : Reader Refusal SetRequest := do
  let raw ← Reader.take setBodyHeaderLen (.badRequest, "set body is shorter than its header")
  let header := SetBodyHeader.ofBytes raw
  let keyBytes ← Reader.take header.keyLen
    (.badRequest, "set body is shorter than its declared key")
  let key ← Reader.lift (decodeKey keyBytes)
  let value ← Reader.take header.valueLen
    (.badRequest, "set body is shorter than its declared value")
  let tags ← (decodeTagName "truncated tag length").times header.tagCount
  return plainSet key value header.ttlSecs tags

/-- The body of a `SET_MANY`: a count and as many sets. -/
def decodeSetMany : Reader Refusal (List SetRequest) := do
  let count ← decodeCount
  decodeSet.times count

/-- The body of a `TOUCH`. -/
def decodeTouch : Reader Refusal Command := do
  let ttlSecs ← Reader.number 4 (.badRequest, "touch body is too short")
  let bytes ← Reader.rest
  let key ← Reader.lift (decodeKey bytes)
  return .touch key ttlSecs

/-- `u64 as i64`. -/
def toI64 (bits : Nat) : Int := if bits < 2 ^ 63 then bits else bits - 2 ^ 64

/-- `i64 as u64`. -/
def ofI64 (n : Int) : Nat := (n % 2 ^ 64).toNat

/-- `arithmetic_flags::CREATE_AT_ZERO`. -/
def createAtZeroFlag : UInt8 := 1

/-- `arithmetic_flags::DECREMENT`. -/
def decrementFlag : UInt8 := 2

/-- The three numbers of an `ARITHMETIC`, read as its mode says. -/
def decodeDelta (mode : Nat) (flags : UInt8) (delta lower upper : Nat) : Except Refusal Delta :=
  match mode with
  | 0 => .ok (.counter delta (flags &&& decrementFlag ≠ 0))
  | 1 => .ok (.int (toI64 delta) (toI64 lower) (toI64 upper))
  | 2 => .ok (.float ⟨delta.toUInt64⟩ ⟨lower.toUInt64⟩ ⟨upper.toUInt64⟩)
  | _ => .error (.badRequest, "unknown arithmetic mode")

def decodeOnBound (onBound : Nat) : Except Refusal OnBound :=
  match onBound with
  | 0 => .ok .fail
  | 1 => .ok .skip
  | 2 => .ok .clamp
  | _ => .error (.badRequest, "unknown arithmetic bound policy")

def decodeTtlChange (ttlKind ttlSecs : Nat) : Except Refusal TtlChange :=
  match ttlKind with
  | 0 => .ok .keep
  | 1 => .ok (.set ttlSecs)
  | 2 => .ok (.setIfPersistent ttlSecs)
  | _ => .error (.badRequest, "unknown arithmetic ttl policy")

/-- The refusal of an `ARITHMETIC` shorter than its numbers. -/
def shortArithmetic : Refusal := (.badRequest, "arithmetic body is too short")

/-- `decode_arithmetic`. -/
def decodeArithmetic : Reader Refusal Arithmetic := do
  let mode ← Reader.number 1 shortArithmetic
  let flags := (← Reader.number 1 shortArithmetic).toUInt8
  let onBound ← Reader.number 1 shortArithmetic
  let ttlKind ← Reader.number 1 shortArithmetic
  let ttlSecs ← Reader.number 4 shortArithmetic
  let delta ← Reader.number 8 shortArithmetic
  let lower ← Reader.number 8 shortArithmetic
  let upper ← Reader.number 8 shortArithmetic
  let delta ← Reader.lift (decodeDelta mode flags delta lower upper)
  let onBound ← Reader.lift (decodeOnBound onBound)
  let ttl ← Reader.lift (decodeTtlChange ttlKind ttlSecs)
  let bytes ← Reader.rest
  let key ← Reader.lift (decodeKey bytes)
  return {
    key
    delta
    onBound
    missing := if flags &&& createAtZeroFlag ≠ 0 then .createAtZero else .fail
    ttl
  }

/-- `HELLO_BODY_LEN`. -/
def helloBodyLen : Nat := 4

/-- The body of a `HELLO`: the first two bytes are the version. -/
def decodeHello (body : Bytes) : Except Refusal Command :=
  if body.length < helloBodyLen then .error (.badRequest, "hello body is too short")
  else .ok (.hello (leValue (body.take 2)))

/-- The body of a `DELETE_BY_TAG`, all of it the name. -/
def decodeDeleteByTag (body : Bytes) : Except Refusal Command :=
  if body.isEmpty then .error (.badRequest, "tag name is empty")
  else if body.length > maxTagLen then .error (.tooLarge, "tag name is too long")
  else .ok (.deleteByTag body)

/-- The dispatch of `decode` on the opcode. -/
def decodeBody (opcode : Opcode) (body : Bytes) : Except Refusal Message :=
  match opcode with
  | .auth => (decodeAuth.parse body).map .auth
  | .ping => .ok (.command .ping)
  | .hello => (decodeHello body).map .command
  | .get => (decodeKey body).map fun key => .command (.get key)
  | .delete => (decodeKey body).map fun key => .command (.delete key)
  | .set => (decodeSet.parse body).map fun set => .command (.set set)
  | .arithmetic => (decodeArithmetic.parse body).map fun op => .command (.arithmetic op)
  | .touch => (decodeTouch.parse body).map .command
  | .getMany => (decodeKeyList.parse body).map fun keys => .command (.getMany keys)
  | .deleteMany => (decodeKeyList.parse body).map fun keys => .command (.deleteMany keys)
  | .setMany => (decodeSetMany.parse body).map fun sets => .command (.setMany sets .always)
  | .deleteByTag => (decodeDeleteByTag body).map .command
  | .flush => .ok (.command .flush)
  | .tagSync =>
    (decodeTagSync.parse body).map fun (full, entries) => .command (.tagSync full entries)
  | .cluster => .ok (.command .cluster)
  | .listKeys => (decodeListRequest.parse body).map fun request => .command (.listKeys request)
  | .listTags => (decodeListRequest.parse body).map fun request => .command (.listTags request)
  | .stats => .error (.unsupported, "opcode not implemented yet")

/-- The result of a frame whose body decoded to `message`. -/
def Message.decoded (requestId : UInt32) (opcode : Opcode) (noReply : Bool) (consumed : Nat) :
    Message → Decoded
  | .command asked => .request ⟨requestId, opcode, noReply, asked⟩ consumed
  | .auth offered => .auth requestId offered consumed

/-- A frame whose header has arrived whole and announces an admissible length. -/
def decodeFrame (header : FrameHeader) (body : Bytes) : Except DecodeError Decoded :=
  let consumed := headerLen + header.bodyLen.toNat
  let fail : Refusal → DecodeError := fun (status, detail) =>
    .body header.requestId header.opcode consumed status detail
  match Opcode.fromU8 header.opcode with
  | none => .error (fail (.unsupported, "unknown opcode"))
  | some opcode =>
    match decodeBody opcode body with
    | .error refusal => .error (fail refusal)
    | .ok message => .ok (message.decoded header.requestId opcode header.noReply consumed)

/-- `decode`. -/
def decode (buf : Bytes) : Except DecodeError Decoded :=
  match FrameHeader.refFromPrefix buf with
  | none => .ok (.incomplete headerLen)
  | some (header, rest) =>
    let bodyLen := header.bodyLen.toNat
    if bodyLen > maxBodyLen then .error (.fatal "body_len exceeds the maximum frame size")
    else if rest.length < bodyLen then .ok (.incomplete (headerLen + bodyLen))
    else decodeFrame header (rest.take bodyLen)

/-- `peek_frame_len`. -/
def peekFrameLen (buf : Bytes) : FrameLen :=
  match FrameHeader.refFromPrefix buf with
  | none => .incomplete headerLen
  | some (header, _) =>
    let bodyLen := header.bodyLen.toNat
    if bodyLen > maxBodyLen then .tooLarge
    else
      let total := headerLen + bodyLen
      if buf.length < total then .incomplete total else .complete total

/-! ### Encoding -/

/-- `encode_request`. The header's length is the low 32 bits of the body's. -/
def encodeRequest (opcode : Opcode) (requestId : UInt32) (body : Bytes) : Bytes :=
  (FrameHeader.request opcode requestId body.length.toUInt32).asBytes ++ body

/-- The body a client greets with. -/
def encodeHelloBody (protocolVersion : Nat) : Bytes := leBytes 2 protocolVersion ++ leBytes 2 0

/-- A byte string behind its length. -/
def encodeNamed (name : Bytes) : Bytes := leBytes 2 name.length ++ name

/-- `encode_key_list_body`. -/
def encodeKeyListBody (keys : List Bytes) : Bytes :=
  leBytes 4 keys.length ++ keys.flatMap encodeNamed

/-- `encode_set_body`. -/
def encodeSetBody (key value : Bytes) (ttlSecs : Nat) (tags : List Bytes) : Bytes :=
  (leBytes 4 ttlSecs ++ (leBytes 2 key.length ++ (leBytes 1 tags.length ++ (leBytes 1 0 ++
    leBytes 4 value.length)))) ++ (key ++ (value ++ tags.flatMap encodeNamed))

/-- `encode_batch_count`. -/
def encodeBatchCount (count : Nat) : Bytes := leBytes 4 count

/-- `encode_touch_body`. -/
def encodeTouchBody (key : Bytes) (ttlSecs : Nat) : Bytes := leBytes 4 ttlSecs ++ key

/-- `push_named_entry`. -/
def pushNamedEntry (entry : Bytes × Nat) : Bytes := leBytes 8 entry.2 ++ encodeNamed entry.1

/-- `encode_tag_sync_body`. -/
def encodeTagSyncBody (full : Bool) (entries : List (Bytes × Nat)) : Bytes :=
  (leBytes 1 full.toNat ++ ([0, 0, 0] ++ leBytes 4 entries.length)) ++
    entries.flatMap pushNamedEntry

/-- `encode_list_body`. -/
def encodeListBody (request : ListRequest) : Bytes :=
  leBytes 4 request.limit ++ (leBytes 2 request.cursor.length ++
    (leBytes 2 request.pattern.length ++ (leBytes 4 0 ++ (request.cursor ++ request.pattern))))

/-- `encode_auth_body`. -/
def encodeAuthBody (auth : AuthRequest) : Bytes :=
  (leBytes 1 auth.mechanism.toNat ++ (leBytes 1 auth.name.length ++
    leBytes 2 auth.secret.length)) ++ (auth.name ++ auth.secret)

/-- The numbers of a delta as the format carries them. -/
structure DeltaFields where
  mode : Nat
  delta : Nat
  lower : Nat
  upper : Nat
  decrement : Bool
  deriving DecidableEq, Repr

def encodeDelta : Delta → DeltaFields
  | .counter delta decrement => ⟨0, delta, 0, 0, decrement⟩
  | .int delta lower upper => ⟨1, ofI64 delta, ofI64 lower, ofI64 upper, false⟩
  | .float delta lower upper => ⟨2, delta.bits.toNat, lower.bits.toNat, upper.bits.toNat, false⟩

/-- The flags byte of an `ARITHMETIC`. -/
def arithmeticFlags (missing : Missing) (decrement : Bool) : UInt8 :=
  (if missing = .createAtZero then createAtZeroFlag else 0) |||
    (if decrement then decrementFlag else 0)

def encodeOnBound : OnBound → Nat
  | .fail => 0
  | .skip => 1
  | .clamp => 2

def encodeTtlChange : TtlChange → Nat × Nat
  | .keep => (0, 0)
  | .set secs => (1, secs)
  | .setIfPersistent secs => (2, secs)

/-- `encode_arithmetic_body`. -/
def encodeArithmeticBody (op : Arithmetic) : Bytes :=
  let fields := encodeDelta op.delta
  let ttl := encodeTtlChange op.ttl
  leBytes 1 fields.mode ++ (leBytes 1 (arithmeticFlags op.missing fields.decrement).toNat ++
    (leBytes 1 (encodeOnBound op.onBound) ++ (leBytes 1 ttl.1 ++ (leBytes 4 ttl.2 ++
      (leBytes 8 fields.delta ++ (leBytes 8 fields.lower ++ (leBytes 8 fields.upper ++
        op.key)))))))

end Vash.Vcp
