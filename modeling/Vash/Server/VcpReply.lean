import Vash.Proto.VcpCodec
import Vash.Server.Cluster
import Vash.Server.Dispatch
import Vash.Store.Listing

/-!
# VCP replies

The reply side of the binary dialect: `encode_reply`, the frame a batch of values is
streamed into while it is read, and the decoders a client reads a body with.

* `streamed_is_buffered` — a streamed batch is the buffered one byte for byte, and a frame
  that is given up leaves no trace in the buffer.
* `clients_read_back` — every decoder returns what was encoded, and refuses every strict
  initial part of it.
-/

namespace Vash.Vcp

open Library Store Server

/-! ### Frames -/

/-- The number of a status. -/
def Status.toU16 : Status → UInt16
  | .ok => 0
  | .notFound => 1
  | .exists => 2
  | .badRequest => 3
  | .tooLarge => 4
  | .unauthorized => 5
  | .overloaded => 6
  | .capacityFull => 7
  | .unsupported => 8
  | .internal => 9
  | .notStored => 10
  | .notNumeric => 11

/-- `flags::RESPONSE`. -/
def responseFlag : UInt8 := 1

/-- `FrameHeader::response`. -/
def FrameHeader.response (opcode : Opcode) (requestId : UInt32) (status : Status)
    (bodyLen : UInt32) : FrameHeader :=
  ⟨opcode.toU8, responseFlag, status.toU16, requestId, bodyLen⟩

/-- `encode_response`: the bytes appended. -/
def encodeResponse (opcode : Opcode) (requestId : UInt32) (status : Status) (body : Bytes) :
    Bytes :=
  (FrameHeader.response opcode requestId status body.length.toUInt32).asBytes ++ body

/-! ### Replies -/

/-- `ServerInfo`. -/
structure ServerInfo where
  protocolVersion : Nat
  shards : Nat
  maxKeyLen : Nat
  maxValueLen : Nat
  capabilities : Nat
  maxTagsPerRecord : Nat
  deriving DecidableEq, Repr

/-- `PeerInfo`. -/
structure PeerInfo where
  addr : String
  reachable : Bool
  deriving DecidableEq

/-- `ClusterInfo`. -/
structure ClusterInfo where
  mode : ClusterMode
  peers : List PeerInfo
  deriving DecidableEq

/-- `Reply`, with what the commands on records are answered as one case. What the last case
carries has no form in this dialect. -/
inductive Reply where
  | record (reply : Server.Reply)
  | hello (info : ServerInfo)
  | pong
  | invalidated (existed : Bool)
  | flushed (epoch : Nat)
  | tagSync (entries : List (Bytes × Nat))
  | cluster (info : ClusterInfo)
  | listing (listing : Listing)
  | other

/-- `ClusterMode as u8`. -/
def clusterModeU8 : ClusterMode → Nat
  | .localOnly => 0
  | .fanout => 1
  | .fanoutSync => 2

/-- `ClusterMode::from_u8`. -/
def clusterModeFromU8 : Nat → Option ClusterMode
  | 0 => some .localOnly
  | 1 => some .fanout
  | 2 => some .fanoutSync
  | _ => none

/-- `list_flags::TRUNCATED`. -/
def truncatedFlag : UInt8 := 1

/-- `LIST_RESPONSE_HEADER_LEN`. -/
def listResponseHeaderLen : Nat := 20

/-- `CLUSTER_HEADER_LEN`. -/
def clusterHeaderLen : Nat := 4

/-- `NAMED_ENTRY_PREFIX_LEN`. -/
def namedEntryHeadLen : Nat := 10

/-- A live value: `mc_flags | cas` and the data. -/
def encodeValueBody (value : Value) : Bytes :=
  leBytes 4 value.mcFlags ++ (leBytes 8 value.cas ++ value.data)

/-- One entry of a batch of values. -/
def encodeValueEntry : Option Value → Bytes
  | some value => [1] ++ (leBytes 4 value.mcFlags ++ (leBytes 8 value.cas ++
      (leBytes 4 value.data.length ++ value.data)))
  | none => [0]

/-- The body of `Reply::Values`. -/
def encodeValuesBody (values : List (Option Value)) : Bytes :=
  leBytes 4 values.length ++ values.flatMap encodeValueEntry

/-- The body of `Reply::StoredMany`. -/
def encodeTokensBody (tokens : List Nat) : Bytes :=
  leBytes 4 tokens.length ++ tokens.flatMap (leBytes 8)

/-- The body of `Reply::DeletedMany`. -/
def encodeHitsBody (hits : List Bool) : Bytes :=
  leBytes 4 hits.length ++ hits.flatMap fun hit => leBytes 1 hit.toNat

/-- The body of `Reply::Hello`. -/
def encodeHelloReply (info : ServerInfo) : Bytes :=
  leBytes 2 info.protocolVersion ++ (leBytes 2 info.shards ++ (leBytes 4 info.maxKeyLen ++
    (leBytes 4 info.maxValueLen ++ (leBytes 4 info.capabilities ++
      leBytes 2 info.maxTagsPerRecord))))

/-- The mode of a counter's answer and its two numbers, where they are of one kind. -/
def encodeNumbers : Number → Number → Option (Nat × Nat × Nat)
  | .counter value, .counter moved => some (0, value, moved)
  | .int value, .int moved => some (1, ofI64 value, ofI64 moved)
  | .float value, .float moved => some (2, value.bits.toNat, moved.bits.toNat)
  | _, _ => none

/-- The body of `Reply::Listing`. -/
def encodeListingBody (listing : Listing) : Bytes :=
  let cursor := listing.cursor.getD []
  let flags := if listing.truncated then truncatedFlag else 0
  (leBytes 4 listing.entries.length ++ (leBytes 1 flags.toNat ++ ([0, 0, 0] ++
    (leBytes 8 listing.scanned ++ (leBytes 2 cursor.length ++ leBytes 2 0))))) ++
    (cursor ++ listing.entries.flatMap fun entry => pushNamedEntry (entry.name, entry.version))

/-- One peer of a cluster view. -/
def encodePeer (peer : PeerInfo) : Bytes :=
  leBytes 2 peer.addr.toUTF8.data.toList.length ++
    (peer.addr.toUTF8.data.toList ++ leBytes 1 peer.reachable.toNat)

/-- The body of `Reply::Cluster`. -/
def encodeClusterBody (info : ClusterInfo) : Bytes :=
  (leBytes 1 (clusterModeU8 info.mode) ++ ([0] ++ leBytes 2 info.peers.length)) ++
    info.peers.flatMap encodePeer

/-- The status and the body of the frame for a reply. -/
def encodeReplyBody : Reply → Status × Bytes
  | .pong => (.ok, [])
  | .record .deleted => (.ok, [])
  | .record .touched => (.ok, [])
  | .record .notFound => (.notFound, [])
  | .invalidated existed => (if existed then .ok else .notFound, [])
  | .flushed epoch => (.ok, leBytes 4 epoch)
  | .record (.values values) => (.ok, encodeValuesBody values)
  | .record (.storedMany tokens) => (.ok, encodeTokensBody tokens)
  | .record (.deletedMany hits) => (.ok, encodeHitsBody hits)
  | .hello info => (.ok, encodeHelloReply info)
  | .record (.stored (.stored cas)) => (.ok, leBytes 8 cas)
  | .record (.stored .notStored) => (.notStored, [])
  | .record (.stored .keyExists) => (.exists, [])
  | .record (.stored .notFound) => (.notFound, [])
  | .record (.arithmetic applied) =>
    match encodeNumbers applied.value applied.applied with
    | some (mode, value, moved) => (.ok, leBytes 1 mode ++ (leBytes 1 applied.wrote.toNat ++
        ([0, 0] ++ (leBytes 8 value ++ leBytes 8 moved))))
    | none => (.internal, [])
  | .tagSync entries => (.ok, encodeTagSyncBody false entries)
  | .listing listing => (.ok, encodeListingBody listing)
  | .cluster info => (.ok, encodeClusterBody info)
  | .record (.value value) => (.ok, encodeValueBody value)
  -- the answers of other dialects have no opcode here
  | .record (.swapped _ _) => (.unsupported, [])
  | .record (.applied _) => (.unsupported, [])
  | .record (.length _) => (.unsupported, [])
  | .record (.deadline _) => (.unsupported, [])
  | .record (.deadlines _) => (.unsupported, [])
  | .other => (.unsupported, [])

/-- `encode_reply`: the bytes appended. -/
def encodeReply (opcode : Opcode) (requestId : UInt32) (reply : Reply) : Bytes :=
  encodeResponse opcode requestId (encodeReplyBody reply).1 (encodeReplyBody reply).2

/-! ### The frame of a streamed batch -/

/-- `TooLarge`. -/
inductive TooLarge where
  | tooLarge
  deriving DecidableEq, Repr

/-- `ValuesFrame`: where its header begins in the buffer. -/
structure ValuesFrame where
  start : Nat
  deriving DecidableEq, Repr

namespace ValuesFrame

/-- `open`: the header with a length to be patched, and the count. -/
def open_ (out : Bytes) (opcode : Opcode) (requestId count : UInt32) : ValuesFrame × Bytes :=
  (⟨out.length⟩, out ++ (FrameHeader.response opcode requestId .ok 0).asBytes ++
    leBytes 4 count.toNat)

/-- `hit`. -/
def hit (out : Bytes) (value : Value) : Bytes :=
  out ++ [1] ++ leBytes 4 value.mcFlags ++ leBytes 8 value.cas ++ leBytes 4 value.data.length ++
    value.data

/-- `miss`. -/
def miss (out : Bytes) : Bytes := out ++ [0]

/-- One value of a batch, in request order. -/
def entry (out : Bytes) : Option Value → Bytes
  | some value => hit out value
  | none => miss out

/-- `finish`: the length is written over the last four bytes of the header. -/
def finish (frame : ValuesFrame) (out : Bytes) : Except TooLarge Unit × Bytes :=
  let bodyLen := out.length - frame.start - headerLen
  if bodyLen > maxBodyLen then (.error .tooLarge, out.take frame.start)
  else
    let at_ := frame.start + headerLen - 4
    (.ok (), out.take at_ ++ leBytes 4 bodyLen ++ out.drop (at_ + 4))

/-- `abandon`. -/
def abandon (frame : ValuesFrame) (out : Bytes) : Bytes := out.take frame.start

end ValuesFrame

/-! ### Decoders -/

/-- `ListEntry::new`. -/
def listEntry (name : Bytes) (version : Nat) : ListEntry := ⟨name, version, none⟩

/-- One entry of a listing. -/
def decodeNamedEntry : Reader Unit ListEntry := do
  let version ← Reader.number 8 ()
  let len ← Reader.number 2 ()
  let name ← Reader.take len ()
  return listEntry name version

/-- `decode_listing`. -/
def decodeListing : Reader Unit Listing := do
  let header ← Reader.take listResponseHeaderLen ()
  let count := leValue (header.take 4)
  let flags := (leValue ((header.drop 4).take 1)).toUInt8
  let scanned := leValue ((header.drop 8).take 8)
  let cursorLen := leValue ((header.drop 16).take 2)
  let cursor ← Reader.take cursorLen ()
  Reader.room count namedEntryHeadLen ()
  let entries ← decodeNamedEntry.times count
  return ⟨entries, scanned, if cursor = [] then none else some cursor, flags &&& truncatedFlag ≠ 0⟩

/-- `std::str::from_utf8`. -/
def fromUtf8 (bytes : Bytes) : Except Unit String :=
  match String.fromUTF8? ⟨bytes.toArray⟩ with
  | some text => .ok text
  | none => .error ()

/-- One peer of a cluster view. -/
def decodePeer : Reader Unit PeerInfo := do
  let len ← Reader.number 2 ()
  let bytes ← Reader.take len ()
  let addr ← Reader.lift (fromUtf8 bytes)
  let reachable ← Reader.number 1 ()
  return ⟨addr, reachable ≠ 0⟩

/-- A mode, or the refusal of a byte that is none. -/
def decodeClusterMode (raw : Nat) : Except Unit ClusterMode :=
  match clusterModeFromU8 raw with
  | some mode => .ok mode
  | none => .error ()

/-- `decode_cluster_response`. -/
def decodeClusterResponse : Reader Unit ClusterInfo := do
  let header ← Reader.take clusterHeaderLen ()
  let mode ← Reader.lift (decodeClusterMode (leValue (header.take 1)))
  let peers ← decodePeer.times (leValue (header.drop 2))
  return ⟨mode, peers⟩

/-- What the client's `Reader` refuses a short body with. -/
def bodyTruncated : String := "response body was truncated"

/-- One value of `Client::get_many`. -/
def readValueEntry : Reader String (Option Value) := do
  if (← Reader.number 1 bodyTruncated) = 0 then return none
  else
    let mcFlags ← Reader.number 4 bodyTruncated
    let cas ← Reader.number 8 bodyTruncated
    let len ← Reader.number 4 bodyTruncated
    let data ← Reader.take len bodyTruncated
    return some ⟨data, mcFlags, cas, none⟩

/-- The reader of `Client::get_many`. -/
def readValues : Reader String (List (Option Value)) := do
  let count ← Reader.number 4 bodyTruncated
  readValueEntry.times count

/-- The reader of `Client::set_many`. -/
def readTokens : Reader String (List Nat) := do
  let count ← Reader.number 4 bodyTruncated
  (Reader.number 8 bodyTruncated).times count

/-- The reader of `Client::delete_many`. -/
def readHits : Reader String (List Bool) := do
  let count ← Reader.number 4 bodyTruncated
  Reader.times (do return (← Reader.number 1 bodyTruncated) ≠ 0) count

/-! ### Streaming is buffering -/

section Streamed

variable (opcode : Opcode) (requestId : UInt32)

/-- The header up to its length. -/
def responseHead : Bytes :=
  leBytes 1 opcode.toU8.toNat ++ (leBytes 1 responseFlag.toNat ++
    (leBytes 2 Status.ok.toU16.toNat ++ leBytes 4 requestId.toNat))

theorem length_responseHead : (responseHead opcode requestId).length = headerLen - 4 := by
  simp [responseHead, headerLen]

theorem asBytes_response (bodyLen : Nat) :
    (FrameHeader.response opcode requestId .ok bodyLen.toUInt32).asBytes =
      responseHead opcode requestId ++ leBytes 4 bodyLen := by
  have low : leBytes 4 bodyLen.toUInt32.toNat = leBytes 4 bodyLen := by
    simpa using leBytes_mod 4 bodyLen
  simp only [FrameHeader.asBytes, FrameHeader.response, responseHead, low, List.append_assoc]

theorem entry_eq (out : Bytes) (value : Option Value) :
    ValuesFrame.entry out value = out ++ encodeValueEntry value := by
  cases value with
  | none => rfl
  | some value =>
    simp only [ValuesFrame.entry, ValuesFrame.hit, encodeValueEntry, List.append_assoc]

theorem foldl_entry (out : Bytes) (values : List (Option Value)) :
    values.foldl ValuesFrame.entry out = out ++ values.flatMap encodeValueEntry := by
  induction values generalizing out with
  | nil => simp
  | cons value values ih =>
    rw [List.foldl_cons, ih, entry_eq, List.flatMap_cons, List.append_assoc]

/-- The buffer after an open frame has taken some entries. -/
theorem written_eq (out : Bytes) (count : Nat) (values : List (Option Value)) :
    values.foldl ValuesFrame.entry
        (ValuesFrame.open_ out opcode requestId count.toUInt32).2 =
      out ++ (responseHead opcode requestId ++ (leBytes 4 0 ++
        (leBytes 4 count ++ values.flatMap encodeValueEntry))) := by
  have low : leBytes 4 count.toUInt32.toNat = leBytes 4 count := by
    simpa using leBytes_mod 4 count
  have header := asBytes_response opcode requestId 0
  rw [foldl_entry]
  simp only [ValuesFrame.open_]
  rw [show (0 : UInt32) = (0 : Nat).toUInt32 from rfl, header, low]
  simp only [List.append_assoc]

/-- A batch streamed into an open frame appends what the buffered reply appends, as long as
a frame may carry it; a frame that may not, or that is given up after any entries, leaves
the buffer as it was. -/
theorem streamed_is_buffered (out : Bytes) (values : List (Option Value)) :
    let opened := ValuesFrame.open_ out opcode requestId values.length.toUInt32
    let written := values.foldl ValuesFrame.entry opened.2
    ((encodeValuesBody values).length ≤ maxBodyLen → opened.1.finish written =
      (.ok (), out ++ encodeReply opcode requestId (.record (.values values)))) ∧
    (maxBodyLen < (encodeValuesBody values).length →
      opened.1.finish written = (.error .tooLarge, out)) ∧
    ∀ entries : List (Option Value),
      opened.1.abandon (entries.foldl ValuesFrame.entry opened.2) = out := by
  intro opened written
  have start : opened.1.start = out.length := rfl
  have head := length_responseHead opcode requestId
  have long : headerLen = 12 := rfl
  have whole : written = out ++ (responseHead opcode requestId ++ (leBytes 4 0 ++
      encodeValuesBody values)) := written_eq opcode requestId out values.length values
  have bodyLen : written.length - opened.1.start - headerLen =
      (encodeValuesBody values).length := by
    rw [whole, start]
    simp only [List.length_append, head, length_leBytes]
    omega
  have front : written.take opened.1.start = out := by
    rw [whole, start, List.take_left]
  refine ⟨fun small => ?_, fun large => ?_, fun entries => ?_⟩
  · have at_ : out.length + headerLen - 4 = (out ++ responseHead opcode requestId).length := by
      rw [List.length_append, head]
      omega
    have patched : written.take (out.length + headerLen - 4) =
        out ++ responseHead opcode requestId := by
      rw [whole, at_, ← List.append_assoc, List.take_left]
    have after : written.drop (out.length + headerLen - 4 + 4) = encodeValuesBody values := by
      rw [whole, ← List.append_assoc, ← List.append_assoc, List.drop_left']
      rw [at_, List.length_append, length_leBytes]
    rw [ValuesFrame.finish, bodyLen, if_neg small.not_gt]
    dsimp only
    rw [start, patched, after]
    simp only [encodeReply, encodeReplyBody, encodeResponse, asBytes_response, List.append_assoc]
  · rw [ValuesFrame.finish, bodyLen, if_pos large, front]
  · rw [ValuesFrame.abandon, start]
    have any := written_eq opcode requestId out values.length entries
    rw [any, List.take_left]

end Streamed

/-- A hit and a miss behind a byte that was in the buffer before. -/
theorem streamed_is_buffered_two :
    (ValuesFrame.mk 1).finish ([some ⟨[7], 0, 3, some 0⟩, none].foldl ValuesFrame.entry
      (ValuesFrame.open_ [9] .getMany 5 2).2) = (.ok (), [9] ++ encodeReply .getMany 5
        (.record (.values [some ⟨[7], 0, 3, some 0⟩, none]))) :=
  (streamed_is_buffered .getMany 5 [9] [some ⟨[7], 0, 3, some 0⟩, none]).1 (by decide)

/-! ### What is read back -/

/-- A value as a client has it: the format carries no deadline. -/
def wireValue (value : Value) : Value := { value with expiresAtMs := none }

/-- A listing as a client has it. -/
def wireListing (listing : Listing) : Listing :=
  { listing with entries := listing.entries.map fun entry => listEntry entry.name entry.version }

/-- The numbers of a value fit their fields. -/
def ValueFits (value : Value) : Prop := value.mcFlags < 2 ^ 32 ∧ value.cas < 2 ^ 64

/-- A listing as the server makes them. -/
structure ListingFits (listing : Listing) : Prop where
  few : listing.entries.length ≤ maxListLimit
  names : ∀ entry ∈ listing.entries, IsKey entry.name ∧ entry.version < 2 ^ 64
  scanned : listing.scanned < 2 ^ 64
  cursor : ∀ cursor ∈ listing.cursor, cursor ≠ [] ∧ cursor.length < 65536

/-- A cluster view the format carries. -/
structure ClusterFits (info : ClusterInfo) : Prop where
  few : info.peers.length < 65536
  addrs : ∀ peer ∈ info.peers, peer.addr.toUTF8.data.toList.length < 65536

section Listings

theorem reads_namedEntry {name : Bytes} {version : Nat} (short : name.length < 256 ^ 2)
    (fits : version < 256 ^ 8) :
    Reads decodeNamedEntry (pushNamedEntry (name, version)) (listEntry name version) := by
  unfold decodeNamedEntry pushNamedEntry encodeNamed
  refine (Reads.number _ fits).bind ?_
  refine (Reads.number _ short).bind ?_
  exact (Reads.take _ rfl).last (Reads.pure _)

theorem persists_namedEntry : Persists decodeNamedEntry :=
  (Persists.number _ _).bind fun _ => (Persists.number _ _).bind fun _ =>
    (Persists.take _ _).bind fun _ => .pure _

theorem persists_listing : Persists decodeListing :=
  (Persists.take _ _).bind fun _ => (Persists.take _ _).bind fun _ =>
    (Persists.room _ _ _).bind fun _ => (persists_namedEntry.times _).bind fun _ => .pure _

/-- Every entry takes at least the bytes its count is checked against. -/
theorem length_entries (entries : List ListEntry) : entries.length * namedEntryHeadLen ≤
    (entries.flatMap fun entry => pushNamedEntry (entry.name, entry.version)).length := by
  induction entries with
  | nil => simp
  | cons entry entries ih =>
    simp only [List.flatMap_cons, List.length_append, List.length_cons, pushNamedEntry,
      encodeNamed, length_leBytes, namedEntryHeadLen] at ih ⊢
    omega

/-- The header of a listing, and the fields it is read as. -/
theorem listing_fields {count scanned cursorLen : Nat} {flags : UInt8} {header : Bytes}
    (is : header = leBytes 4 count ++ (leBytes 1 flags.toNat ++ ([0, 0, 0] ++
      (leBytes 8 scanned ++ (leBytes 2 cursorLen ++ leBytes 2 0))))) (few : count < 256 ^ 4)
    (work : scanned < 256 ^ 8) (short : cursorLen < 256 ^ 2) :
    leValue (header.take 4) = count ∧ (leValue ((header.drop 4).take 1)).toUInt8 = flags ∧
      leValue ((header.drop 8).take 8) = scanned ∧
      leValue ((header.drop 16).take 2) = cursorLen := by
  have byte : flags.toNat < 256 ^ 1 := flags.toNat_lt
  subst is
  simp [List.drop_append, List.drop_of_length_le, leValue_leBytes_of_lt few,
    leValue_leBytes_of_lt byte, leValue_leBytes_of_lt work, leValue_leBytes_of_lt short]

theorem closes_listing {listing : Listing} (fits : ListingFits listing) :
    Closes decodeListing (encodeListingBody listing) (wireListing listing) := by
  have few : listing.entries.length < 256 ^ 4 := lt_of_le_of_lt fits.few (by decide)
  have short : (listing.cursor.getD []).length < 256 ^ 2 := by
    cases same : listing.cursor with
    | none => decide
    | some cursor => exact (fits.cursor cursor same).2
  obtain ⟨count, flags, scanned, cursorLen⟩ := listing_fields rfl few fits.scanned short
  unfold decodeListing encodeListingBody
  dsimp only
  refine (Reads.take _ (by simp [listResponseHeaderLen])).bind_closes ?_
  rw [count, flags, scanned, cursorLen]
  refine (Reads.take _ rfl).bind_closes ?_
  have room : listing.entries.length ≤ (listing.entries.flatMap fun entry =>
      pushNamedEntry (entry.name, entry.version)).length / namedEntryHeadLen :=
    (Nat.le_div_iff_mul_le (by decide)).mpr (length_entries listing.entries)
  refine Closes.room _ room ?_
  have entries : Reads (decodeNamedEntry.times listing.entries.length)
      (listing.entries.flatMap fun entry => pushNamedEntry (entry.name, entry.version))
      (wireListing listing).entries :=
    Reads.times_map fun entry mem => reads_namedEntry
      ((fits.names entry mem).1.2.trans_lt (by decide)) (fits.names entry mem).2
  refine (entries.last ?_).closes
  have cursor : (if listing.cursor.getD [] = [] then none else some (listing.cursor.getD [])) =
      listing.cursor := by
    cases same : listing.cursor with
    | none => rfl
    | some cursor => exact if_neg (fits.cursor cursor same).1
  have truncated : decide ((if listing.truncated then truncatedFlag else 0) &&& truncatedFlag ≠ 0) =
      listing.truncated := by
    cases listing.truncated <;> rfl
  rw [cursor, truncated]
  exact Reads.pure _

end Listings

section Views

theorem fromUtf8_toUTF8 (text : String) : fromUtf8 text.toUTF8.data.toList = .ok text := by
  have read : String.fromUTF8? ⟨text.toUTF8.data.toList.toArray⟩ = some text := by
    simp only [Array.toArray_toList, String.fromUTF8?]
    exact dif_pos text.isValidUTF8
  rw [fromUtf8, read]

theorem reads_peer {peer : PeerInfo} (short : peer.addr.toUTF8.data.toList.length < 256 ^ 2) :
    Reads decodePeer (encodePeer peer) peer := by
  have flag : peer.reachable.toNat < 256 ^ 1 := by cases peer.reachable <;> decide
  unfold decodePeer encodePeer
  refine (Reads.number _ short).bind ?_
  refine (Reads.take _ rfl).bind ?_
  refine (Reads.lift (fromUtf8_toUTF8 _)).skip ?_
  refine (Reads.number _ flag).last ?_
  have same : (⟨peer.addr, decide (peer.reachable.toNat ≠ 0)⟩ : PeerInfo) = peer := by
    cases peer with
    | mk addr reachable => cases reachable <;> rfl
  rw [same]
  exact Reads.pure peer

theorem persists_cluster : Persists decodeClusterResponse := by
  have peer : Persists decodePeer :=
    (Persists.number _ _).bind fun _ => (Persists.take _ _).bind fun _ =>
      (Persists.lift _).bind fun _ => (Persists.number _ _).bind fun _ => .pure _
  exact (Persists.take _ _).bind fun _ => (Persists.lift _).bind fun _ =>
    (peer.times _).bind fun _ => .pure _

theorem closes_cluster {info : ClusterInfo} (fits : ClusterFits info) :
    Closes decodeClusterResponse (encodeClusterBody info) info := by
  have few : info.peers.length < 256 ^ 2 := fits.few
  have mode : clusterModeU8 info.mode < 256 ^ 1 := by cases info.mode <;> decide
  have modeField : leValue ((leBytes 1 (clusterModeU8 info.mode) ++ ([0] ++
      leBytes 2 info.peers.length)).take 1) = clusterModeU8 info.mode := by
    simp [leValue_leBytes_of_lt mode]
  have countField : leValue ((leBytes 1 (clusterModeU8 info.mode) ++ ([0] ++
      leBytes 2 info.peers.length)).drop 2) = info.peers.length := by
    simp [List.drop_append, List.drop_of_length_le, leValue_leBytes_of_lt few]
  have known : decodeClusterMode (clusterModeU8 info.mode) = .ok info.mode := by
    cases info.mode <;> rfl
  unfold decodeClusterResponse encodeClusterBody
  refine ((Reads.take _ (by simp [clusterHeaderLen])).bind ?_).closes
  rw [modeField, countField]
  refine (Reads.lift known).skip ?_
  exact (Reads.times fun peer mem => reads_peer (fits.addrs peer mem)).last (Reads.pure _)

end Views

theorem persists_tagSync : Persists decodeTagSync := by
  have name : ∀ text, Persists (decodeTagName text) := fun text =>
    (Persists.number _ _).bind fun _ => (Persists.take _ _).bind fun _ =>
      (Persists.ensure _ _).bind fun _ => (Persists.ensure _ _).bind fun _ => .pure _
  have entry : Persists decodeTagEntry :=
    (Persists.number _ _).bind fun _ => (name _).bind fun _ => .pure _
  exact (Persists.take _ _).bind fun _ => (Persists.lift _).bind fun _ =>
    (Persists.ensure _ _).bind fun _ => (entry.times _).bind fun _ => .pure _

section Batches

theorem reads_valueEntry {value : Option Value} (fits : ∀ v ∈ value, ValueFits v)
    (short : ∀ v ∈ value, v.data.length < 256 ^ 4) :
    Reads readValueEntry (encodeValueEntry value) (value.map wireValue) := by
  unfold readValueEntry
  cases value with
  | none =>
    have kind : Reads (Reader.number 1 bodyTruncated) (encodeValueEntry none) 0 :=
      Reads.number _ (by decide)
    exact kind.last (Reads.pure _)
  | some value =>
    have kind : Reads (Reader.number 1 bodyTruncated) [1] 1 :=
      Reads.number (n := 1) _ (by decide)
    refine kind.bind ?_
    rw [if_neg (by decide)]
    refine (Reads.number _ (fits value rfl).1).bind ?_
    refine (Reads.number _ (fits value rfl).2).bind ?_
    refine (Reads.number _ (short value rfl)).bind ?_
    exact (Reads.take _ rfl).last (Reads.pure _)

theorem persists_values : Persists readValues := by
  have entry : Persists readValueEntry := by
    refine (Persists.number _ _).bind fun kind => ?_
    split
    · exact .pure _
    · exact (Persists.number _ _).bind fun _ => (Persists.number _ _).bind fun _ =>
        (Persists.number _ _).bind fun _ => (Persists.take _ _).bind fun _ => .pure _
  exact (Persists.number _ _).bind fun _ => entry.times _

/-- Items that take at least a byte are no more than the bytes they take. -/
theorem length_le_flatMap {α : Type} {encode : α → Bytes} (each : ∀ a, 0 < (encode a).length)
    (items : List α) : items.length ≤ (items.flatMap encode).length := by
  induction items with
  | nil => simp
  | cons first others ih =>
    have := each first
    simp only [List.flatMap_cons, List.length_append, List.length_cons]
    omega

/-- A batch behind its count, as long as a frame may carry it. -/
theorem closes_batch {ε α β : Type} {item : Reader ε β} {encode : α → Bytes} {carried : α → β}
    {items : List α} (short : ε) (each : ∀ a ∈ items, Reads item (encode a) (carried a))
    (long : ∀ a, 0 < (encode a).length)
    (fits : (leBytes 4 items.length ++ items.flatMap encode).length ≤ maxBodyLen) :
    Closes (do
      let count ← Reader.number 4 short
      item.times count) (leBytes 4 items.length ++ items.flatMap encode) (items.map carried) := by
  have few : items.length < 256 ^ 4 := by
    have bytes := length_le_flatMap long items
    have most : maxBodyLen < 256 ^ 4 := by decide
    rw [List.length_append] at fits
    omega
  exact ((Reads.number short few).bind (Reads.times_map each)).closes

theorem closes_values {values : List (Option Value)} (fits : ∀ v, some v ∈ values → ValueFits v)
    (small : (encodeValuesBody values).length ≤ maxBodyLen) :
    Closes readValues (encodeValuesBody values) (values.map (Option.map wireValue)) := by
  refine closes_batch _ (fun value mem => reads_valueEntry ?_ ?_) ?_ small
  · rintro v rfl
    exact fits v mem
  · rintro v rfl
    have part : encodeValueEntry (some v) <:+: values.flatMap encodeValueEntry := by
      rw [List.flatMap_def]
      exact List.infix_of_mem_flatten (List.mem_map_of_mem mem)
    have within := part.length_le
    have most : maxBodyLen < 256 ^ 4 := by decide
    simp only [encodeValuesBody, encodeValueEntry, List.length_append] at within small
    omega
  · intro value
    cases value <;> simp [encodeValueEntry]

theorem closes_tokens {tokens : List Nat} (fits : ∀ cas ∈ tokens, cas < 2 ^ 64)
    (small : (encodeTokensBody tokens).length ≤ maxBodyLen) :
    Closes readTokens (encodeTokensBody tokens) tokens := by
  have closes : Closes readTokens (encodeTokensBody tokens) (tokens.map id) :=
    closes_batch _ (fun cas mem => Reads.number _ (fits cas mem)) (by simp) small
  rwa [List.map_id] at closes

theorem closes_hits {hits : List Bool} (small : (encodeHitsBody hits).length ≤ maxBodyLen) :
    Closes readHits (encodeHitsBody hits) hits := by
  have closes : Closes readHits (encodeHitsBody hits) (hits.map id) := by
    refine closes_batch _ (fun hit _ => ?_) (by simp) small
    have flag : hit.toNat < 256 ^ 1 := by cases hit <;> decide
    refine (Reads.number _ flag).last ?_
    cases hit <;> exact Reads.pure _
  rwa [List.map_id] at closes

end Batches

/-- A client reads back what the server wrote, and refuses every strict initial part of it. -/
theorem clients_read_back :
    (∀ listing, ListingFits listing →
      ReadsWhole decodeListing (encodeReplyBody (.listing listing)).2 (wireListing listing)) ∧
    (∀ info, ClusterFits info →
      ReadsWhole decodeClusterResponse (encodeReplyBody (.cluster info)).2 info) ∧
    (∀ entries, entries.length ≤ maxTagSyncEntries → (∀ entry ∈ entries, IsTagEntry entry) →
      ReadsWhole decodeTagSync (encodeReplyBody (.tagSync entries)).2 (false, entries)) ∧
    (∀ values, (∀ v, some v ∈ values → ValueFits v) →
      (encodeReplyBody (.record (.values values))).2.length ≤ maxBodyLen →
      ReadsWhole readValues (encodeReplyBody (.record (.values values))).2
        (values.map (Option.map wireValue))) ∧
    (∀ tokens, (∀ cas ∈ tokens, cas < 2 ^ 64) →
      (encodeReplyBody (.record (.storedMany tokens))).2.length ≤ maxBodyLen →
      ReadsWhole readTokens (encodeReplyBody (.record (.storedMany tokens))).2 tokens) ∧
    ∀ hits, (encodeReplyBody (.record (.deletedMany hits))).2.length ≤ maxBodyLen →
      ReadsWhole readHits (encodeReplyBody (.record (.deletedMany hits))).2 hits := by
  refine ⟨?_, ?_, ?_, ?_, ?_, ?_⟩
  · exact fun listing fits => (closes_listing fits).whole persists_listing
  · exact fun info fits => (closes_cluster fits).whole persists_cluster
  · exact fun entries few each => (reads_tagSync few each).closes.whole persists_tagSync
  · exact fun values fits small => (closes_values fits small).whole persists_values
  · intro tokens fits small
    exact (closes_tokens fits small).whole
      ((Persists.number _ _).bind fun _ => (Persists.number _ _).times _)
  · intro hits small
    have flag : Persists (do return (← Reader.number 1 bodyTruncated) ≠ 0 : Reader String Bool) :=
      (Persists.number _ _).bind fun _ => .pure _
    exact (closes_hits small).whole ((Persists.number _ _).bind fun _ => flag.times _)

/-- A page with one key on it and a cursor to go on from. -/
theorem clients_read_back_page :
    ReadsWhole decodeListing
      (encodeReplyBody (.listing ⟨[⟨[7], 3, some 5⟩], 4, some [9], true⟩)).2
      ⟨[⟨[7], 3, none⟩], 4, some [9], true⟩ :=
  clients_read_back.1 ⟨[⟨[7], 3, some 5⟩], 4, some [9], true⟩
    ⟨by decide, by simp [IsKey, maxKeyLen], by decide, by simp⟩

end Vash.Vcp
