import Onedis.Store.Keyspace

/-!
# 文字列の command

文字列を書き換える command の写し。期限の来た key を消してから record を読み、一つの batch を書く。

返事の文面と、期限を残すか消すかは、command ごとに source のとおりである。
-/

namespace Onedis.Store

open Infra Codec Keyspace

/-! ## 読み方 -/

def liveRaw (now : UInt64) (raw : Option Bytes) : Option Bytes :=
  raw.filter fun raw => !due (recordExpire raw) now

/-- `u64::saturating_add` -/
def saturatingAdd (a b : UInt64) : UInt64 :=
  if a.toNat + b.toNat < 256 ^ 8 then a + b else .ofNat maxU64

def readString (raw : Option Bytes) : Except String (UInt64 × Bytes) :=
  match raw with
  | none => .ok (0, [])
  | some raw =>
    match decodeMetaHeader raw with
    | none => .error wrongTypeError
    | some hdr =>
      if hdr.typeTag ≠ TypeTag.string.code then .error wrongTypeError
      else
        match decodeStringBytes raw with
        | none => .error wrongTypeError
        | some value => .ok (.ofNat hdr.expireMs, value)

/-! ## SET -/

/-- SET の期限の扱い。 -/
inductive SetExpiration
  | clear
  | keepTtl
  | at (expireMs : UInt64)
  deriving DecidableEq, Repr

inductive SetCondition
  | always | nx | xx
  deriving DecidableEq, Repr

/-- SET の結果。 -/
inductive SetOutcome
  | set (oldValue : Option Bytes)
  | notSet
  deriving DecidableEq, Repr

def SetCondition.admits (condition : SetCondition) (present : Bool) : Bool :=
  match condition with
  | .always => true
  | .nx => !present
  | .xx => present

/-- `SET ... GET` が返す元の値。 -/
def readOldValue (raw : Option Bytes) : Except String (Option Bytes) :=
  match raw with
  | none => .ok none
  | some raw =>
    match decodeMetaHeader raw with
    | none => .error wrongTypeError
    | some hdr =>
      if hdr.typeTag ≠ TypeTag.string.code then .error wrongTypeError
      else
        match decodeStringBytes raw with
        | none => .error typeParsingError
        | some value => .ok (some value)

def SetExpiration.resolve (expiration : SetExpiration) (old : Option Bytes) : UInt64 :=
  match expiration with
  | .clear => 0
  | .keepTtl => (old.map recordExpire).getD 0
  | .at expireMs => expireMs

/-- 期限がすでに来ている `SET` は、書く代わりに key を消す。 -/
def setBatch (now : UInt64) (ref : DbKeyRef) (value : Bytes) (expireMs : UInt64)
    (old : Option Bytes) : KeyBatch :=
  if due expireMs now then deleteMainKeyWithTtlToBatch ref ((old.map recordExpire).getD 0)
  else writeStringValueToBatch ref value expireMs old

namespace Keyspace

/-- `set_string_bytes_async` -/
def setStringBytes (s : Keyspace) (now : UInt64) (ref : DbKeyRef) (value : Bytes)
    (expiration : SetExpiration) (condition : SetCondition) (returnOld : Bool) :
    Except String SetOutcome × Keyspace :=
  let s := s.expireIfNeeded now ref
  let old := s.main ref
  if condition.admits (old.bind decodeMetaHeader).isSome then
    match if returnOld then readOldValue old else .ok none with
    | .error msg => (.error msg, s)
    | .ok oldValue =>
      (.ok (.set oldValue), s.write (setBatch now ref value (expiration.resolve old) old))
  else (.ok .notSet, s)

/-- 値を `mutation` で書き換える。期限は変えない。`mutation` は返り値、新しい値、変化の有無を返す。 -/
def mutateStringBytesIfChanged {α : Type} (s : Keyspace) (now : UInt64) (ref : DbKeyRef)
    (mutation : Bytes → Except String (α × Bytes × Bool)) : Except String α × Keyspace :=
  let s := s.expireIfNeeded now ref
  match readString (s.main ref) with
  | .error msg => (.error msg, s)
  | .ok (expireMs, value) =>
    match mutation value with
    | .error msg => (.error msg, s)
    | .ok (result, value', changed) =>
      if changed then
        (.ok result, s.write (writeStringValueToBatch ref value' expireMs (s.main ref)))
      else (.ok result, s)

/-- `getdel_string_bytes_async` -/
def getdelStringBytes (s : Keyspace) (now : UInt64) (ref : DbKeyRef) :
    Except String (Option Bytes) × Keyspace :=
  let s := s.expireIfNeeded now ref
  match s.main ref with
  | none => (.ok none, s)
  | some raw =>
    match readString (some raw) with
    | .error msg => (.error msg, s)
    | .ok (expireMs, value) =>
      (.ok (some value), s.write (deleteMainKeyWithTtlToBatch ref expireMs))

end Keyspace

/-! ## byte 列の書き換え -/

/-- `MAX_BULK_STRING_BYTES` -/
def maxBulkStringBytes : Nat := 64 * 1024 * 1024

def stringTooLargeError : String := "ERR string exceeds maximum allowed size"

def appendBytes (bytes suffix : Bytes) : Except String Bytes :=
  if bytes.length + suffix.length ≤ maxBulkStringBytes then .ok (bytes ++ suffix)
  else .error stringTooLargeError

def padTo (bytes : Bytes) (length : Nat) : Bytes :=
  bytes ++ List.replicate (length - bytes.length) 0

def resizeBitmap (bytes : Bytes) (required : Nat) : Except String Bytes :=
  if required ≤ bytes.length then .ok bytes
  else if maxBulkStringBytes < required then .error stringTooLargeError
  else .ok (padTo bytes required)

def setBitBytes (bytes : Bytes) (offset : Nat) (bit : UInt8) : Except String (UInt8 × Bytes) :=
  match resizeBitmap bytes (offset / 8 + 1) with
  | .error msg => .error msg
  | .ok bytes =>
    let mask : UInt8 := 1 <<< (UInt8.ofNat (7 - offset % 8))
    let byte := bytes.getD (offset / 8) 0
    .ok (if byte &&& mask != 0 then 1 else 0,
      bytes.set (offset / 8) (if bit = 1 then byte ||| mask else byte &&& ~~~mask))

def setRangeBytes (bytes : Bytes) (offset : Nat) (value : Bytes) :
    Except String (Nat × Bytes × Bool) :=
  if value = [] then .ok (bytes.length, bytes, false)
  else if offset + value.length ≤ maxBulkStringBytes then
    let bytes := padTo bytes (offset + value.length)
    .ok (bytes.length, bytes.take offset ++ value ++ bytes.drop (offset + value.length), true)
  else .error stringTooLargeError

/-! ## pipeline に載る command -/

/-- `StringBatchMutation`。command を読む側が確かめる条件を、構成子の引数に持たせる。 -/
inductive StringBatchMutation
  | append (key value : Bytes) (fits : value.length ≤ maxBulkStringBytes)
  | getSet (key value : Bytes)
  | getDel (key : Bytes)
  | setNx (key value : Bytes)
  | setBit (key : Bytes) (offset : Nat) (bit : UInt8) (fits : offset < maxBulkStringBytes * 8)
  | setRange (key : Bytes) (offset : Nat) (value : Bytes)
  | psetex (key : Bytes) (ttlMs : UInt64) (value : Bytes) (pos : 0 < ttlMs)

inductive StringBatchReply
  | bulk (value : Option Bytes)
  | integer (value : Int)
  | ok
  deriving DecidableEq, Repr

namespace StringBatchMutation

def key : StringBatchMutation → Bytes
  | append key _ _ | getSet key _ | getDel key | setNx key _ | setBit key _ _ _
  | setRange key _ _ | psetex key _ _ _ => key

def exec (s : Keyspace) (now : UInt64) (db : UInt16) (m : StringBatchMutation) :
    Except String StringBatchReply × Keyspace :=
  let ref : DbKeyRef := ⟨db, m.key⟩
  match m with
  | append _ value _ =>
    s.mutateStringBytesIfChanged now ref fun bytes =>
      (appendBytes bytes value).map fun bytes => (.integer bytes.length, bytes, true)
  | getSet _ value =>
    let (result, s) := s.setStringBytes now ref value .clear .always true
    (result.map fun
      | .set oldValue => .bulk oldValue
      | .notSet => .bulk none, s)
  | getDel _ =>
    let (result, s) := s.getdelStringBytes now ref
    (result.map .bulk, s)
  | setNx _ value =>
    let (result, s) := s.setStringBytes now ref value .clear .nx false
    (result.map fun
      | .set _ => .integer 1
      | .notSet => .integer 0, s)
  | setBit _ offset bit _ =>
    s.mutateStringBytesIfChanged now ref fun bytes =>
      (setBitBytes bytes offset bit).map fun (old, bytes) => (.integer old.toNat, bytes, true)
  | setRange _ offset value =>
    s.mutateStringBytesIfChanged now ref fun bytes =>
      (setRangeBytes bytes offset value).map fun (len, bytes, changed) =>
        (.integer len, bytes, changed)
  | psetex _ ttlMs value _ =>
    let (result, s) := s.setStringBytes now ref value (.at (saturatingAdd now ttlMs)) .always false
    (result.map fun _ => .ok, s)

end StringBatchMutation

/-! ## 一つの command が読み書きするもの -/

def Keyspace.liveMain (s : Keyspace) (now : UInt64) (ref : DbKeyRef) : Option Bytes :=
  liveRaw now (s.main ref)

section

variable (s : Keyspace) (now : UInt64) (ref r : DbKeyRef)

@[simp] theorem liveRaw_none : liveRaw now none = none := rfl

theorem liveRaw_some (raw : Bytes) :
    liveRaw now (some raw) = if due (recordExpire raw) now then none else some raw := by
  unfold liveRaw
  cases h : due (recordExpire raw) now <;> simp [Option.filter, h]

@[simp] theorem liveRaw_liveRaw (raw : Option Bytes) :
    liveRaw now (liveRaw now raw) = liveRaw now raw := by
  cases raw with
  | none => rfl
  | some raw =>
    rw [liveRaw_some]
    split
    · rfl
    · next h => rw [liveRaw_some, if_neg h]

theorem write_deleteMain_main (e : UInt64) :
    (s.write (deleteMainKeyWithTtlToBatch ref e)).main r = if r = ref then none else s.main r := by
  unfold deleteMainKeyWithTtlToBatch
  rw [write_cons, write_removeKnownToBatch_main, delete_main]

theorem write_replace_main (old : Option Bytes) (raw : Bytes) (e : UInt64) :
    (s.write (replaceToBatch ref old raw e)).main r = if r = ref then some raw else s.main r := by
  unfold replaceToBatch
  rw [write_append, write_cons, write_addToBatch_main,
    put_main, write_removeOldToBatch_main]

theorem expireIfNeeded_main :
    (s.expireIfNeeded now ref).main r = if r = ref then s.liveMain now ref else s.main r := by
  unfold expireIfNeeded liveMain
  split
  · next raw hraw =>
    rw [hraw, liveRaw_some]
    by_cases hdue : due (recordExpire raw) now = true
    · rw [if_pos hdue, if_pos hdue, write_deleteMain_main]
    · rw [if_neg hdue, if_neg hdue]
      split
      · next h => rw [h, hraw]
      · rfl
  · next hraw =>
    rw [hraw, liveRaw_none]
    split
    · next h => rw [h, hraw]
    · rfl

@[simp] theorem expireIfNeeded_main_self :
    (s.expireIfNeeded now ref).main ref = s.liveMain now ref := by
  rw [expireIfNeeded_main, if_pos rfl]

end

end Onedis.Store
