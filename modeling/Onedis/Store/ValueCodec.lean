import Onedis.Infra.Codec
import Onedis.Store.WriteBatch

/-!
# main record の符号化

`value_entry_codec.rs`、`value_meta_codec.rs`、`json_value_codec.rs`、`stream_key_codec.rs` の写し。main
record は期限、version、型の 17 byte に中身が続く。list と stream の meta は、長さと magic で見分ける。
-/

namespace Onedis.Store.Codec

open Infra Reader

/-! ## 固定幅の整数 -/

def beU64 (n : UInt64) : Bytes := toBe 8 n.toNat

def beI64 (n : Int64) : Bytes := beU64 n.toUInt64

/-- `u64::from_be_bytes(raw[at..at + 8])` -/
def u64At (raw : Bytes) (offset : Nat) : UInt64 := UInt64.ofNat (ofBe ((raw.drop offset).take 8))

def i64At (raw : Bytes) (offset : Nat) : Int64 := (u64At raw offset).toInt64

@[simp] theorem length_beU64 (n : UInt64) : (beU64 n).length = 8 := length_toBe ..

@[simp] theorem length_beI64 (n : Int64) : (beI64 n).length = 8 := length_beU64 _

theorem ofBe_beU64 (n : UInt64) : ofBe (beU64 n) = n.toNat := ofBe_toBe n.toNat_lt

theorem slice_append {pre mid : Bytes} {offset width : Nat} (hpre : pre.length = offset)
    (hmid : mid.length = width) (rest : Bytes) :
    ((pre ++ (mid ++ rest)).drop offset).take width = mid := by
  rw [List.drop_left' hpre, List.take_left' hmid]

theorem u64At_append {pre : Bytes} {offset : Nat} (h : pre.length = offset) (n : UInt64)
    (rest : Bytes) : u64At (pre ++ (beU64 n ++ rest)) offset = n := by
  rw [u64At, slice_append h (length_beU64 n), ofBe_beU64, UInt64.ofNat_toNat]

theorem i64At_append {pre : Bytes} {offset : Nat} (h : pre.length = offset) (n : Int64)
    (rest : Bytes) : i64At (pre ++ (beI64 n ++ rest)) offset = n := by
  rw [i64At, beI64, u64At_append h, Int64.toInt64_toUInt64]

/-! ## header -/

def regular (expireMs ver : UInt64) (typeTag : TypeTag) (body : Bytes) : Bytes :=
  beU64 expireMs ++ (beU64 ver ++ typeTag.code :: body)

def encodeRawString (value : Bytes) (expireMs : UInt64) : Bytes := regular expireMs 0 .string value

def decodeStringBytes (raw : Bytes) : Option Bytes :=
  if 17 ≤ raw.length ∧ raw[16]? = some TypeTag.string.code then some (raw.drop 17) else none

/-- 期限の 8 byte を書き換える。位置は `decode_meta_header` と同じ条件で決まる。 -/
def patchMetaExpireMs (raw : Bytes) (expireMs : UInt64) : Option Bytes :=
  if (raw.length = 36 ∧ raw.take 4 = listMetaMagic) ∨
      (raw.length = 52 ∧ raw.take 4 = streamMetaMagic) then
    some (raw.take 4 ++ (beU64 expireMs ++ raw.drop 12))
  else if raw.length < 8 then none
  else some (beU64 expireMs ++ raw.drop 8)

def isPackedRaw (headerLen : Nat) (typeTag : TypeTag) (magic raw : Bytes) : Bool :=
  decide (headerLen ≤ raw.length) && (raw[16]? == some typeTag.code) &&
    ((raw.drop 17).take 4 == magic)

/-- 符号化した長さ。一項目でも幅に収まらないか、合計が `usize` を超えれば `none`。 -/
def encodedLen {ι : Type} (fits : ι → Bool) (size : ι → Nat) (headerLen : Nat) (items : List ι) :
    Option Nat :=
  items.foldlM (fun len item =>
    if fits item ∧ len + size item < 256 ^ 8 then some (len + size item) else none) headerLen

def encodePacked {ι : Type} (maxItems maxBytes headerLen : Nat) (fits : ι → Bool) (size : ι → Nat)
    (items : List ι) (body : Bytes) : Option Bytes :=
  if maxItems < items.length then none
  else
    match encodedLen fits size headerLen items with
    | none => none
    | some len => if maxBytes < len then none else some body

/-! ## hash -/

structure HashMeta where
  expireMs : UInt64
  version : UInt64
  mayHaveFieldTtl : Bool
  packed : Bool
  deriving DecidableEq, Repr

def hashMetaFlagMayHaveFieldTtl : UInt8 := 0x01

def hashMetaFlagPacked : UInt8 := 0x02

/-- `[0xf1, b'H', b'P', 1]` -/
def packedHashMagic : Bytes := [0xf1, 0x48, 0x50, 0x01]

def encodeHashMetaWithFieldTtlFlag (expireMs ver : UInt64) (mayHaveFieldTtl : Bool) : Bytes :=
  regular expireMs ver .hash [if mayHaveFieldTtl then hashMetaFlagMayHaveFieldTtl else 0]

/-- field と value。整列した写像 `BTreeMap<String, Vec<u8>>` の一項目である。 -/
def encodeHashItem (item : Bytes × Bytes) : Bytes :=
  toBe 2 item.1.length ++ (toBe 4 item.2.length ++ (item.1 ++ item.2))

def encodePackedHash (expireMs : UInt64) (fields : List (Bytes × Bytes)) : Option Bytes :=
  encodePacked 128 8192 24 (fun item => item.1.length < 256 ^ 2 && item.2.length < 256 ^ 4)
    (fun item => 6 + item.1.length + item.2.length) fields
    (regular expireMs 0 .hash (hashMetaFlagPacked ::
      (packedHashMagic ++ (toBe 2 fields.length ++ fields.flatMap encodeHashItem))))

def isPackedHashRaw (raw : Bytes) : Bool :=
  decide (24 ≤ raw.length) && (raw[16]? == some TypeTag.hash.code) &&
    (raw.getD 17 0 &&& hashMetaFlagPacked != 0) && ((raw.drop 18).take 4 == packedHashMagic)

def readHashItem (fields : List (Bytes × Bytes)) : Reader (List (Bytes × Bytes)) := do
  let fieldLen ← be 2
  let valueLen ← be 4
  let field ← take fieldLen
  require (validUtf8 field)
  let value ← take valueLen
  ofOption (insertNew field value fields)

def decodePackedHash (raw : Bytes) : Option (List (Bytes × Bytes)) :=
  if isPackedHashRaw raw then
    parseAll (do
      let count ← be 2
      require (count ≤ 128)
      iterate readHashItem count []) (raw.drop 22)
  else none

/-- `decode_hash_meta` -/
def decodeHashMeta (raw : Bytes) : Option HashMeta :=
  match decodeMetaHeader raw with
  | none => none
  | some hdr =>
    if hdr.typeTag = TypeTag.hash.code then
      let packed := isPackedHashRaw raw
      some ⟨UInt64.ofNat hdr.expireMs, UInt64.ofNat hdr.version,
        if packed then false
        else if raw.length = 18 then raw.getD 17 0 &&& hashMetaFlagMayHaveFieldTtl != 0
        else true, packed⟩
    else none

/-! ## set -/

structure SetMeta where
  expireMs : UInt64
  version : UInt64
  len : UInt64
  packed : Bool
  deriving DecidableEq, Repr

/-- `[0xf1, b'S', b'P', 1]` -/
def packedSetMagic : Bytes := [0xf1, 0x53, 0x50, 0x01]

def encodeSetMeta (expireMs ver len : UInt64) : Bytes := regular expireMs ver .set (beU64 len)

/-- `BTreeSet<String>` は、値を持たない写像として扱う。 -/
def encodeSetItem (item : Bytes × Unit) : Bytes := toBe 4 item.1.length ++ item.1

def encodePackedSet (expireMs : UInt64) (members : List (Bytes × Unit)) : Option Bytes :=
  encodePacked 128 8192 23 (fun item => item.1.length < 256 ^ 4) (fun item => 4 + item.1.length)
    members (regular expireMs 0 .set
      (packedSetMagic ++ (toBe 2 members.length ++ members.flatMap encodeSetItem)))

def readSetItem (members : List (Bytes × Unit)) : Reader (List (Bytes × Unit)) := do
  let member ← lengthPrefixed 4
  require (validUtf8 member)
  ofOption (insertNew member () members)

def isPackedSetRaw : Bytes → Bool := isPackedRaw 23 .set packedSetMagic

def decodePackedSet (raw : Bytes) : Option (List (Bytes × Unit)) :=
  if isPackedSetRaw raw then
    parseAll (do
      let count ← be 2
      require (count ≤ 128)
      iterate readSetItem count []) (raw.drop 21)
  else none

/-- `decode_set_meta` -/
def decodeSetMeta (raw : Bytes) : Option SetMeta :=
  match decodeMetaHeader raw with
  | none => none
  | some hdr =>
    if hdr.typeTag = TypeTag.set.code then
      match decodePackedSet raw with
      | some members => some ⟨UInt64.ofNat hdr.expireMs, 0, UInt64.ofNat members.length, true⟩
      | none =>
        if raw.length = 25 then
          some ⟨UInt64.ofNat hdr.expireMs, UInt64.ofNat hdr.version, u64At raw 17, false⟩
        else none
    else none

/-! ## sorted set -/

/-- `[0xf1, b'Z', b'P', 1]` -/
def packedZsetMagic : Bytes := [0xf1, 0x5a, 0x50, 0x01]

/-- 空の `Structure::SortedSet` を bincode で書いた列。variant の番号と要素の数である。 -/
def encodeZsetMeta (expireMs ver : UInt64) : Bytes := regular expireMs ver .sortedSet [2, 0]

/-- `f64` の bit 列が NaN を表す。指数がすべて 1 で、仮数が 0 でない。 -/
def scoreIsNan (bits : UInt64) : Bool :=
  bits.toNat / 2 ^ 52 % 2 ^ 11 == 2 ^ 11 - 1 && bits.toNat % 2 ^ 52 != 0

def encodeZsetItem (item : Bytes × UInt64) : Bytes :=
  toBe 4 item.1.length ++ (beU64 item.2 ++ item.1)

/-- score は `f64` の bit 列のまま持つ。 -/
def encodePackedZset (expireMs : UInt64) (entries : List (Bytes × UInt64)) : Option Bytes :=
  if entries.any fun item => scoreIsNan item.2 then none
  else encodePacked 64 8192 23 (fun item => item.1.length < 256 ^ 4)
    (fun item => 12 + item.1.length) entries (regular expireMs 0 .sortedSet
      (packedZsetMagic ++ (toBe 2 entries.length ++ entries.flatMap encodeZsetItem)))

def readZsetItem (entries : List (Bytes × UInt64)) : Reader (List (Bytes × UInt64)) := do
  let memberLen ← be 4
  let score ← u64
  require (!scoreIsNan score)
  let member ← take memberLen
  require (validUtf8 member)
  ofOption (insertNew member score entries)

def isPackedZsetRaw : Bytes → Bool := isPackedRaw 23 .sortedSet packedZsetMagic

def decodePackedZset (raw : Bytes) : Option (List (Bytes × UInt64)) :=
  if isPackedZsetRaw raw then
    parseAll (do
      let count ← be 2
      require (count ≤ 64)
      iterate readZsetItem count []) (raw.drop 21)
  else none

/-- `zset_expire_ms` が record から読む期限と version。 -/
def decodeZsetMeta (raw : Bytes) : Option (UInt64 × UInt64) :=
  match decodeMetaHeader raw with
  | none => none
  | some hdr =>
    if hdr.typeTag = TypeTag.sortedSet.code then
      some (UInt64.ofNat hdr.expireMs, UInt64.ofNat hdr.version)
    else none

/-! ## list -/

structure ListMeta where
  expireMs : UInt64
  version : UInt64
  head : Int64
  tail : Int64
  deriving DecidableEq, Repr

/-- `[0xf1, b'L', b'P', 1]` -/
def packedListMagic : Bytes := [0xf1, 0x4c, 0x50, 0x01]

def encodeListMeta (expireMs ver : UInt64) (head tail : Int64) : Bytes :=
  listMetaMagic ++ (beU64 expireMs ++ (beU64 ver ++ (beI64 head ++ beI64 tail)))

def encodeListItem (item : Bytes) : Bytes := toBe 4 item.length ++ item

def encodePackedList (expireMs : UInt64) (items : List Bytes) : Option Bytes :=
  encodePacked 64 8192 23 (fun item => item.length < 256 ^ 4) (fun item => 4 + item.length) items
    (regular expireMs 0 .list
      (packedListMagic ++ (toBe 2 items.length ++ items.flatMap encodeListItem)))

def readListItem (items : List Bytes) : Reader (List Bytes) := do
  return items ++ [← lengthPrefixed 4]

def isPackedListRaw : Bytes → Bool := isPackedRaw 23 .list packedListMagic

def decodePackedList (raw : Bytes) : Option (List Bytes) :=
  if isPackedListRaw raw then
    parseAll (do
      let count ← be 2
      require (count ≤ 64)
      iterate readListItem count []) (raw.drop 21)
  else none

def decodeListMeta (raw : Bytes) : Option ListMeta :=
  match decodePackedList raw with
  | some items => some ⟨u64At raw 0, 0, 0, Int64.ofNat items.length⟩
  | none =>
    if raw.length = 36 ∧ raw.take 4 = listMetaMagic then
      some ⟨u64At raw 4, u64At raw 12, i64At raw 20, i64At raw 28⟩
    else none

/-! ## stream -/

structure StreamId where
  ms : UInt64
  seq : UInt64
  deriving DecidableEq, Repr

/-- 導出された順序。`ms`、`seq` の順に比べる。 -/
def StreamId.lt (a b : StreamId) : Bool := a.ms < b.ms || (a.ms == b.ms && a.seq < b.seq)

structure StreamMeta where
  expireMs : UInt64
  version : UInt64
  lastId : StreamId
  length : UInt64
  entriesAdded : UInt64
  deriving DecidableEq, Repr

/-- `[0xf1, b'X', b'P', 1]` -/
def packedStreamMagic : Bytes := [0xf1, 0x58, 0x50, 0x01]

def StreamId.bytes (id : StreamId) : Bytes := beU64 id.ms ++ beU64 id.seq

def encodeStreamMeta (m : StreamMeta) : Bytes :=
  streamMetaMagic ++ (beU64 m.expireMs ++ (beU64 m.version ++ (beU64 m.lastId.ms ++
    (beU64 m.lastId.seq ++ (beU64 m.length ++ beU64 m.entriesAdded)))))

def readString : Reader Bytes := do
  let bytes ← lengthPrefixed 4
  require (validUtf8 bytes)
  return bytes

def readStreamField (fields : List (Bytes × Bytes)) : Reader (List (Bytes × Bytes)) := do
  let field ← readString
  let value ← readString
  return fields ++ [(field, value)]

def decodeStreamEntry (raw : Bytes) : Option (List (Bytes × Bytes)) :=
  parseAll (do iterate readStreamField (← be 4) []) raw

def streamIdInOrder (lastId : StreamId) (previous : Option StreamId) (id : StreamId) : Bool :=
  previous.all (·.lt id) && !lastId.lt id

def encodeStreamItem (item : StreamId × Bytes) : Bytes :=
  item.1.bytes ++ (toBe 4 item.2.length ++ item.2)

/-- `encode_packed_stream` の畳み込み。直前の id と、ここまでの長さを受け渡す。 -/
def packedStreamLen (lastId : StreamId) :
    List (StreamId × Bytes) → Option StreamId → Nat → Option Nat
  | [], _, len => some len
  | (id, value) :: rest, previous, len =>
    if streamIdInOrder lastId previous id ∧ (decodeStreamEntry value).isSome ∧
        value.length < 256 ^ 4 ∧ len + (20 + value.length) < 256 ^ 8 then
      packedStreamLen lastId rest (some id) (len + (20 + value.length))
    else none

def encodePackedStream (m : StreamMeta) (entries : List (StreamId × Bytes)) : Option Bytes :=
  if 32 < entries.length ∨ m.length ≠ UInt64.ofNat entries.length ∨ m.entriesAdded < m.length then
    none
  else
    match packedStreamLen m.lastId entries none 55 with
    | none => none
    | some len =>
      if 8192 < len then none
      else some (regular m.expireMs 0 .stream (packedStreamMagic ++ (m.lastId.bytes ++
        (beU64 m.length ++ (beU64 m.entriesAdded ++
          (toBe 2 entries.length ++ entries.flatMap encodeStreamItem))))))

def readStreamId : Reader StreamId := do
  let ms ← u64
  let seq ← u64
  return ⟨ms, seq⟩

def readStreamItem (lastId : StreamId) (state : Option StreamId × List (StreamId × Bytes)) :
    Reader (Option StreamId × List (StreamId × Bytes)) := do
  let id ← readStreamId
  require (streamIdInOrder lastId state.1 id)
  let value ← lengthPrefixed 4
  require (decodeStreamEntry value).isSome
  return (some id, state.2 ++ [(id, value)])

def isPackedStreamRaw : Bytes → Bool := isPackedRaw 55 .stream packedStreamMagic

def readPackedStream : Reader (StreamId × UInt64 × UInt64 × List (StreamId × Bytes)) := do
  let lastId ← readStreamId
  let length ← u64
  let entriesAdded ← u64
  let count ← be 2
  require (count ≤ 32 && length == UInt64.ofNat count && !decide (entriesAdded < length))
  let state ← iterate (readStreamItem lastId) count (none, [])
  return (lastId, length, entriesAdded, state.2)

def decodePackedStream (raw : Bytes) : Option (StreamMeta × List (StreamId × Bytes)) :=
  if isPackedStreamRaw raw then
    (parseAll readPackedStream (raw.drop 21)).map
      fun (lastId, length, entriesAdded, entries) =>
        (⟨u64At raw 0, 0, lastId, length, entriesAdded⟩, entries)
  else none

def decodeStreamMeta (raw : Bytes) : Option StreamMeta :=
  match decodePackedStream raw with
  | some (m, _) => some m
  | none =>
    if raw.length = 52 ∧ raw.take 4 = streamMetaMagic then
      some ⟨u64At raw 4, u64At raw 12, ⟨u64At raw 20, u64At raw 28⟩, u64At raw 36, u64At raw 44⟩
    else none

/-! ## 期限 -/

def decodeExpireMs (raw : Bytes) : UInt64 :=
  match decodeListMeta raw with
  | some m => m.expireMs
  | none =>
    match decodeStreamMeta raw with
    | some m => m.expireMs
    | none => if raw.length < 8 then 0 else u64At raw 0

/-! ## JSON と、型を問わない復号 -/

def typeParsingError : String := "Type parsing error"

def wrongTypeError : String := "WRONGTYPE Operation against a key holding the wrong kind of value"

/-- `serde_json::Value`。数は字面のまま持つ。 -/
inductive JsonValue
  | null
  | bool (value : Bool)
  | number (text : Bytes)
  | string (text : Bytes)
  | array (values : List JsonValue)
  | object (fields : List (Bytes × JsonValue))

mutual

def JsonValue.nodeCount : JsonValue → Nat
  | .array values => 1 + nodeCounts values
  | .object fields => 1 + fieldNodeCounts fields
  | _ => 1

def JsonValue.nodeCounts : List JsonValue → Nat
  | [] => 0
  | value :: values => value.nodeCount + nodeCounts values

def JsonValue.fieldNodeCounts : List (Bytes × JsonValue) → Nat
  | [] => 0
  | (_, value) :: fields => value.nodeCount + fieldNodeCounts fields

end

/-- `Structure`。vector の中身は使わない。 -/
inductive Structure
  | string (value : Bytes)
  | hash (fields : List (Bytes × Bytes))
  | sortedSet (entries : List (Bytes × UInt64))
  | vectorCollection
  | set (members : List Bytes)
  | list (items : List Bytes)
  | stream (entries : List (StreamId × List (Bytes × Bytes)))
  | json (text : Bytes)

/-- `b"__onedis_json_indexed_v2__"` -/
def jsonIndexedMarker : Bytes :=
  [0x5f, 0x5f, 0x6f, 0x6e, 0x65, 0x64, 0x69, 0x73, 0x5f, 0x6a, 0x73, 0x6f, 0x6e, 0x5f, 0x69, 0x6e,
    0x64, 0x65, 0x78, 0x65, 0x64, 0x5f, 0x76, 0x32, 0x5f, 0x5f]

/-- marker の `Structure::Json` を bincode で書いた列。variant の番号、長さ、文字列である。 -/
def jsonMarkerBody : Bytes := 7 :: 26 :: jsonIndexedMarker

/-- `serde_json` と `bincode` の読み書き。 -/
structure Serde where
  jsonToVec : JsonValue → Option Bytes
  jsonFromSlice : Bytes → Option JsonValue
  bincodeDecode : Bytes → Option Structure
  bincodeDecode_marker : bincodeDecode jsonMarkerBody = some (.json jsonIndexedMarker)

/-- `[0xf1, b'J', b'P', 1]` -/
def packedJsonMagic : Bytes := [0xf1, 0x4a, 0x50, 0x01]

/-- `encode_entry(&Structure::Json(JSON_INDEXED_MARKER), ..)` -/
def encodeJsonMeta (expireMs ver : UInt64) : Bytes := regular expireMs ver .json jsonMarkerBody

def isPackedJsonRaw : Bytes → Bool := isPackedRaw 25 .json packedJsonMagic

namespace Serde

variable (serde : Serde)

def encodePackedJson (expireMs : UInt64) (value : JsonValue) : Option Bytes :=
  if 256 < value.nodeCount then none
  else
    match serde.jsonToVec value with
    | none => none
    | some payload =>
      if 256 ^ 8 ≤ 25 + payload.length ∨ 16384 < 25 + payload.length then none
      else some (regular expireMs 0 .json
        (packedJsonMagic ++ (toBe 4 payload.length ++ payload)))

def decodePackedJson (raw : Bytes) : Option JsonValue :=
  if isPackedJsonRaw raw then
    match parseAll (lengthPrefixed 4) (raw.drop 21) with
    | none => none
    | some payload => serde.jsonFromSlice payload
  else none

/-- `decode_entry`。型の tag で読み方を選ぶ。 -/
def decodeEntry (raw : Bytes) : Option (UInt64 × UInt64 × Structure) :=
  match decodePackedList raw with
  | some items => if items.all validUtf8 then some (decodeExpireMs raw, 0, .list items) else none
  | none =>
  if (decodeListMeta raw).isSome then none else
  match decodePackedStream raw with
  | some (m, entries) =>
    (entries.mapM fun entry => (decodeStreamEntry entry.2).map (entry.1, ·)).map
      fun entries => (m.expireMs, 0, .stream entries)
  | none =>
  if (decodeStreamMeta raw).isSome then none else
  if (decodeHashMeta raw).any (·.packed) then
    (decodePackedHash raw).map fun fields =>
      (((decodeHashMeta raw).map (·.expireMs)).getD 0, 0,
        .hash (fields.filter fun field => validUtf8 field.2))
  else
  match decodePackedSet raw with
  | some members => some (decodeExpireMs raw, 0, .set (members.map (·.1)))
  | none =>
  match decodePackedZset raw with
  | some entries => some (decodeExpireMs raw, 0, .sortedSet entries)
  | none =>
  match serde.decodePackedJson raw with
  | some value => (serde.jsonToVec value).map fun text => (decodeExpireMs raw, 0, .json text)
  | none =>
  if raw.length < 17 then none
  else if raw[16]? = some TypeTag.string.code then
    if validUtf8 (raw.drop 17) then some (u64At raw 0, u64At raw 8, .string (raw.drop 17)) else none
  else
    (serde.bincodeDecode (raw.drop 17)).map fun value => (u64At raw 0, u64At raw 8, value)

/-- `decode_json_meta` -/
def decodeJsonMeta (raw : Bytes) : Except String (UInt64 × UInt64) :=
  match decodeMetaHeader raw with
  | none => .error typeParsingError
  | some hdr =>
    if hdr.typeTag ≠ TypeTag.json.code then .error wrongTypeError
    else if isPackedJsonRaw raw then
      match serde.decodePackedJson raw with
      | some _ => .ok (UInt64.ofNat hdr.expireMs, 0)
      | none => .error typeParsingError
    else
      match serde.decodeEntry raw with
      | some (expireMs, ver, .json text) =>
        if text = jsonIndexedMarker then .ok (expireMs, ver) else .error typeParsingError
      | _ => .error typeParsingError

end Serde

/-! ## 書かれる値 -/

/-- `BTreeMap<String, V>`。key の byte 列の順に並ぶ。 -/
structure PackedMap (V : Type) where
  entries : List (Bytes × V)
  sorted : entries.Pairwise fun a b => bytesLt a.1 b.1 = true
  valid : ∀ entry ∈ entries, validUtf8 entry.1 = true

/-- main record に書く値。 -/
inductive StoredValue
  | string (value : Bytes)
  | hashMeta (ver : UInt64) (mayHaveFieldTtl : Bool)
  | packedHash (fields : PackedMap Bytes)
  | setMeta (ver len : UInt64)
  | packedSet (members : PackedMap Unit)
  | zsetMeta (ver : UInt64)
  | packedZset (entries : PackedMap UInt64)
  | listMeta (ver : UInt64) (head tail : Int64)
  | packedList (items : List Bytes)
  | streamMeta (ver : UInt64) (lastId : StreamId) (length entriesAdded : UInt64)
  | packedStream (lastId : StreamId) (length entriesAdded : UInt64)
      (entries : List (StreamId × Bytes))
  | jsonMeta (ver : UInt64)
  | packedJson (value : JsonValue)

namespace StoredValue

def typeTag : StoredValue → TypeTag
  | string _ => .string
  | hashMeta .. | packedHash _ => .hash
  | setMeta .. | packedSet _ => .set
  | zsetMeta _ | packedZset _ => .sortedSet
  | listMeta .. | packedList _ => .list
  | streamMeta .. | packedStream .. => .stream
  | jsonMeta _ | packedJson _ => .json

def version : StoredValue → UInt64
  | hashMeta ver _ | setMeta ver _ | zsetMeta ver | listMeta ver _ _
  | streamMeta ver _ _ _ | jsonMeta ver => ver
  | _ => 0

/-- 期限 `expireMs` を付けて書く。収まらない packed な値は書かれない。 -/
def encode (serde : Serde) (expireMs : UInt64) : StoredValue → Option Bytes
  | string value => some (encodeRawString value expireMs)
  | hashMeta ver flag => some (encodeHashMetaWithFieldTtlFlag expireMs ver flag)
  | packedHash fields => encodePackedHash expireMs fields.entries
  | setMeta ver len => some (encodeSetMeta expireMs ver len)
  | packedSet members => encodePackedSet expireMs members.entries
  | zsetMeta ver => some (encodeZsetMeta expireMs ver)
  | packedZset entries => encodePackedZset expireMs entries.entries
  | listMeta ver head tail => some (encodeListMeta expireMs ver head tail)
  | packedList items => encodePackedList expireMs items
  | streamMeta ver lastId length entriesAdded =>
    some (encodeStreamMeta ⟨expireMs, ver, lastId, length, entriesAdded⟩)
  | packedStream lastId length entriesAdded entries =>
    encodePackedStream ⟨expireMs, 0, lastId, length, entriesAdded⟩ entries
  | jsonMeta ver => some (encodeJsonMeta expireMs ver)
  | packedJson value => serde.encodePackedJson expireMs value

/-- その型の復号が、書いた中身を期限 `expireMs` とともに返す。 -/
def Decodes (serde : Serde) (expireMs : UInt64) (raw : Bytes) : StoredValue → Prop
  | string value => decodeStringBytes raw = some value
  | hashMeta ver flag => decodeHashMeta raw = some ⟨expireMs, ver, flag, false⟩
  | packedHash fields => decodeHashMeta raw = some ⟨expireMs, 0, false, true⟩ ∧
      decodePackedHash raw = some fields.entries
  | setMeta ver len => decodeSetMeta raw = some ⟨expireMs, ver, len, false⟩
  | packedSet members =>
      decodeSetMeta raw = some ⟨expireMs, 0, UInt64.ofNat members.entries.length, true⟩ ∧
      decodePackedSet raw = some members.entries
  | zsetMeta ver => decodeZsetMeta raw = some (expireMs, ver) ∧ decodePackedZset raw = none
  | packedZset entries => decodeZsetMeta raw = some (expireMs, 0) ∧
      decodePackedZset raw = some entries.entries
  | listMeta ver head tail => decodeListMeta raw = some ⟨expireMs, ver, head, tail⟩ ∧
      decodePackedList raw = none
  | packedList items =>
      decodeListMeta raw = some ⟨expireMs, 0, 0, Int64.ofNat items.length⟩ ∧
      decodePackedList raw = some items
  | streamMeta ver lastId length entriesAdded =>
      decodeStreamMeta raw = some ⟨expireMs, ver, lastId, length, entriesAdded⟩ ∧
      decodePackedStream raw = none
  | packedStream lastId length entriesAdded entries =>
      decodeStreamMeta raw = some ⟨expireMs, 0, lastId, length, entriesAdded⟩ ∧
      decodePackedStream raw = some (⟨expireMs, 0, lastId, length, entriesAdded⟩, entries)
  | jsonMeta ver => serde.decodeJsonMeta raw = .ok (expireMs, ver)
  | packedJson value => serde.decodeJsonMeta raw = .ok (expireMs, 0) ∧
      serde.decodePackedJson raw = some value

/-- **record が、書いたとおりに読める。** -/
structure Faithful (serde : Serde) (v : StoredValue) (expireMs : UInt64) (raw : Bytes) : Prop where
  header : decodeMetaHeader raw = some ⟨expireMs.toNat, v.version.toNat, v.typeTag.code⟩
  expire : decodeExpireMs raw = expireMs
  payload : v.Decodes serde expireMs raw

end StoredValue

end Onedis.Store.Codec
