import Mathlib.Data.List.Dedup
import Onedis.Store.KeyCopy

/-!
# 期限を変える command と DEL

`key_expire_persist_ops.rs` と `GETEX` の写し。期限の 8 byte と index を一つの batch で書き直す。
-/

namespace Onedis.Store

open Infra Codec

inductive ExpireCondition
  | always | nx | xx | gt | lt | xxGt | xxLt
  deriving DecidableEq, Repr

def expireConditionMatches (current expireMs : UInt64) : ExpireCondition → Bool
  | .always => true
  | .nx => current == 0
  | .xx => 0 < current
  | .gt => 0 < current && current < expireMs
  | .lt => current == 0 || expireMs < current
  | .xxGt => 0 < current && current < expireMs
  | .xxLt => 0 < current && expireMs < current

def corruptExpirationError : String := "ERR corrupt key expiration metadata"

def invalidStringError : String := "ERR invalid string metadata"

inductive StringExpireUpdate
  | persist
  | relativeMs (ttlMs : UInt64)
  | absoluteMs (expireMs : UInt64)
  deriving DecidableEq, Repr

namespace Keyspace

/-- `expire_with_condition_async`。TTL が 0 なら key は消える。 -/
def expireWithCondition (s : Keyspace) (now : UInt64) (ref : DbKeyRef) (ttlMs : UInt64)
    (condition : ExpireCondition) : Bool × Keyspace :=
  let s := s.expireIfNeeded now ref
  let expireMs := saturatingAdd now ttlMs
  match s.main ref with
  | none => (false, s)
  | some raw =>
    match decodeMetaHeader raw with
    | none => (false, s)
    | some _ =>
      if expireConditionMatches (recordExpire raw) expireMs condition then
        if ttlMs = 0 then (true, s.write (deleteMainKeyWithTtlToBatch ref (recordExpire raw)))
        else
          match patchMetaExpireMs raw expireMs with
          | none => (false, s)
          | some patched => (true, s.write (replaceToBatch ref (some raw) patched expireMs))
      else (false, s)

/-- `persist_async` -/
def persist (s : Keyspace) (now : UInt64) (ref : DbKeyRef) : Except String Bool × Keyspace :=
  let s := s.expireIfNeeded now ref
  match s.main ref with
  | none => (.ok false, s)
  | some raw =>
    match decodeMetaHeader raw with
    | none => (.error corruptExpirationError, s)
    | some _ =>
      if recordExpire raw = 0 then (.ok false, s)
      else
        match patchMetaExpireMs raw 0 with
        | none => (.ok false, s)
        | some patched => (.ok true, s.write (replaceToBatch ref (some raw) patched 0))

/-- `GETEX` が record に加える書き込み。書き換えられない record は失敗になる。 -/
def getexBatch (now : UInt64) (ref : DbKeyRef) (raw : Bytes) (update : StringExpireUpdate) :
    Except String KeyBatch :=
  let replace (expireMs : UInt64) :=
    match patchMetaExpireMs raw expireMs with
    | none => .error invalidStringError
    | some patched => .ok (replaceToBatch ref (some raw) patched expireMs)
  match update with
  | .persist => if recordExpire raw = 0 then .ok [] else replace 0
  | .relativeMs ttlMs =>
    if ttlMs = 0 then .ok (deleteMainKeyWithTtlToBatch ref (recordExpire raw))
    else replace (saturatingAdd now ttlMs)
  | .absoluteMs expireMs =>
    if expireMs ≤ now then .ok (deleteMainKeyWithTtlToBatch ref (recordExpire raw))
    else replace expireMs

/-- `getex_string_bytes_async` -/
def getexStringBytes (s : Keyspace) (now : UInt64) (ref : DbKeyRef) (update : StringExpireUpdate) :
    Except String (Option Bytes) × Keyspace :=
  let s := s.expireIfNeeded now ref
  match s.main ref with
  | none => (.ok none, s)
  | some raw =>
    match decodeStringBytes raw with
    | none => (.error wrongTypeError, s)
    | some value =>
      match decodeMetaHeader raw with
      | none => (.error invalidStringError, s)
      | some _ =>
        match getexBatch now ref raw update with
        | .error msg => (.error msg, s)
        | .ok batch => (.ok (some value), s.write batch)

end Keyspace

/-! ## pipeline に載った command -/

inductive KeyExpirationMutation
  | expire (key : Bytes) (ttlMs : UInt64)
  | persist (key : Bytes)
  deriving DecidableEq, Repr

namespace KeyExpirationMutation

def key : KeyExpirationMutation → Bytes
  | expire key _ | persist key => key

/-- key の record の上での一つの command。書き換えなければ `none`。 -/
def patch (now : UInt64) (m : KeyExpirationMutation) (raw : Option Bytes) : Option Bytes :=
  raw.bind fun raw =>
    match decodeMetaHeader raw with
    | none => none
    | some _ =>
      match m with
      | .expire _ ttlMs => patchMetaExpireMs raw (saturatingAdd now ttlMs)
      | .persist _ => if recordExpire raw = 0 then none else patchMetaExpireMs raw 0

end KeyExpirationMutation

abbrev ExpirationStates := Bytes → Option Bytes × Bool

def patchStates (now : UInt64) (states : ExpirationStates) (m : KeyExpirationMutation) :
    ExpirationStates :=
  match m.patch now (states m.key).1 with
  | none => states
  | some patched => fun key => if key = m.key then (some patched, true) else states key

def patchAll (now : UInt64) :
    ExpirationStates → List KeyExpirationMutation → List Int × ExpirationStates
  | states, [] => ([], states)
  | states, m :: ms =>
    let rest := patchAll now (patchStates now states m) ms
    ((if (m.patch now (states m.key).1).isSome then 1 else 0) :: rest.1, rest.2)

/-- 書き換えた key の record と index を書く。期限は `decode_expire_ms` で読み直す。 -/
def expirationToBatch (ref : DbKeyRef) (initial : Option Bytes) (final : Option Bytes × Bool) :
    KeyBatch :=
  match initial, final with
  | some old, (some raw, true) =>
    .put ref raw :: ((if decodeExpireMs old = decodeExpireMs raw then []
      else removeKnownToBatch (decodeExpireMs old) ref) ++ addToBatch (decodeExpireMs raw) ref)
  | _, _ => []

namespace Keyspace

/-- `apply_key_expiration_batch_async`。書き換えがあった key だけを書く。 -/
def applyKeyExpirationBatch (s : Keyspace) (now : UInt64) (db : UInt16)
    (ms : List KeyExpirationMutation) : List Int × Keyspace :=
  let keys := (ms.map (·.key)).dedup
  let live key := s.liveMain now ⟨db, key⟩
  let (replies, states) := patchAll now (fun key => (live key, false)) ms
  let s := keys.foldl (fun s key => s.expireIfNeeded now ⟨db, key⟩) s
  (replies, s.write (keys.flatMap fun key =>
    expirationToBatch ⟨db, key⟩ (live key) (states key)))

/-- `delete_keys_async`。header の読めない record は残す。 -/
def deleteKeys (s : Keyspace) (now : UInt64) (db : UInt16) (keys : List Bytes) :
    Nat × Keyspace :=
  let s := keys.dedup.foldl (fun s key => s.expireIfNeeded now ⟨db, key⟩) s
  let stored (key : Bytes) := (s.main ⟨db, key⟩).filter fun raw => (decodeMetaHeader raw).isSome
  let deleted := keys.dedup.filter fun key => (stored key).isSome
  (deleted.length, s.write (deleted.flatMap fun key =>
    ((stored key).map (dropSourceToBatch ⟨db, key⟩)).getD []))

end Keyspace

end Onedis.Store
