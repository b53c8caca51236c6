import Onedis.Store.TtlIndex
import Onedis.Store.ValueCodec

/-!
# key ごとの record と、それを書く batch

main record、期限の index、sub record を、それぞれ一つの表に置く。main record は byte 列のまま持つ。raw key の
上でそれらが混ざらないことは `mainKey_separate_iff` と `subKey_exact` による。
-/

namespace Onedis.Store

open Infra Codec

/-! ## 状態 -/

/-- `DbKeyRef`。db の番号と key の組。 -/
structure DbKeyRef where
  dbIndex : UInt16
  key : Bytes
  deriving DecidableEq, Repr

abbrev Records := Namespace → Bytes → Option Bytes

/-- key の main record、期限の index、sub record、version の counter。 -/
structure Keyspace where
  main : DbKeyRef → Option Bytes
  index : Bytes → Bool
  sub : DbKeyRef → UInt64 → Records
  counter : UInt64

namespace Keyspace

def empty : Keyspace := ⟨fun _ => none, fun _ => false, fun _ _ _ _ => none, 0⟩

end Keyspace

/-! ## batch -/

/-- batch の一項目。`putAll` は走査で見つけた record をまとめて書く。 -/
inductive KeyWrite
  | put (ref : DbKeyRef) (raw : Bytes)
  | delete (ref : DbKeyRef)
  | putIndex (indexKey : Bytes)
  | deleteIndex (indexKey : Bytes)
  | putAll (ref : DbKeyRef) (ver : UInt64) (ns : Namespace) (found : Bytes → Option Bytes)
  | deleteSub (ref : DbKeyRef) (ver : UInt64) (ns : Namespace) (suffix : Bytes)
  | deleteRange (ref : DbKeyRef) (ver : UInt64) (ns : Namespace)

abbrev KeyBatch := List KeyWrite

def Records.modify (records : Records) (ns : Namespace)
    (f : (Bytes → Option Bytes) → Bytes → Option Bytes) : Records :=
  fun n => if n = ns then f (records n) else records n

namespace Keyspace

def modifySub (s : Keyspace) (ref : DbKeyRef) (ver : UInt64) (ns : Namespace)
    (f : (Bytes → Option Bytes) → Bytes → Option Bytes) : Keyspace :=
  { s with sub := fun r v =>
      if r = ref ∧ v = ver then (s.sub r v).modify ns f else s.sub r v }

/-- batch の一項目を書く。 -/
def apply (s : Keyspace) : KeyWrite → Keyspace
  | .put ref raw => { s with main := fun r => if r = ref then some raw else s.main r }
  | .delete ref => { s with main := fun r => if r = ref then none else s.main r }
  | .putIndex indexKey => { s with index := fun k => k == indexKey || s.index k }
  | .deleteIndex indexKey => { s with index := fun k => k != indexKey && s.index k }
  | .putAll ref ver ns found =>
    s.modifySub ref ver ns fun old suffix => (found suffix).or (old suffix)
  | .deleteSub ref ver ns suffix =>
    s.modifySub ref ver ns fun old x => if x = suffix then none else old x
  | .deleteRange ref ver ns => s.modifySub ref ver ns fun _ _ => none

def write (s : Keyspace) (batch : KeyBatch) : Keyspace := batch.foldl apply s

variable (s : Keyspace)

@[simp] theorem write_nil : s.write [] = s := rfl

@[simp] theorem write_cons (w : KeyWrite) (batch : KeyBatch) :
    s.write (w :: batch) = (s.apply w).write batch := rfl

@[simp] theorem write_append (batch batch' : KeyBatch) :
    s.write (batch ++ batch') = (s.write batch).write batch' := List.foldl_append ..

/-- `VersionCounter::next`。時計の下限を割らず、使い切れば panic する。 -/
def nextVersion (s : Keyspace) (floor : UInt64) : Option (UInt64 × Keyspace) :=
  let next := max (if s.counter = .ofNat maxU64 then s.counter else s.counter + 1) floor
  if s.counter < next then some (next, { s with counter := next }) else none

theorem nextVersion_eq_some {s s' : Keyspace} {floor ver : UInt64}
    (h : s.nextVersion floor = some (ver, s')) :
    s.counter < ver ∧ s' = { s with counter := ver } := by
  unfold nextVersion at h
  generalize max _ floor = next at h
  by_cases hlt : s.counter < next
  · rw [if_pos hlt] at h
    cases h
    exact ⟨hlt, rfl⟩
  · rw [if_neg hlt] at h
    cases h

end Keyspace

/-! ## main record の期限 -/

def recordExpire (raw : Bytes) : UInt64 :=
  match decodeMetaHeader raw with
  | some hdr => .ofNat hdr.expireMs
  | none => 0

def MetaHeader.versionU64 (hdr : MetaHeader) : UInt64 := .ofNat hdr.version

def due (expireMs now : UInt64) : Bool := expireMs != 0 && expireMs ≤ now

/-! ## 期限の index -/

/-- `ttl_index_key(expire_ms, db_index, key)` -/
def indexKey (expireMs : UInt64) (ref : DbKeyRef) : Bytes :=
  ttlIndexKey expireMs.toNat ref.dbIndex.toNat ref.key

theorem indexKey_inj {e e' : UInt64} {ref ref' : DbKeyRef} :
    indexKey e ref = indexKey e' ref' ↔ e = e' ∧ ref = ref' := by
  constructor
  · intro h
    unfold indexKey at h
    rw [ttlIndexKey_eq, ttlIndexKey_eq] at h
    obtain ⟨hdb, hrest⟩ := List.append_inj (List.append_cancel_left h) (by simp)
    obtain ⟨he, hkey⟩ := List.append_inj hrest (by simp)
    have hdb' := toBe_injective (by exact ref.dbIndex.toNat_lt) (by exact ref'.dbIndex.toNat_lt) hdb
    have he' := toBe_injective (by exact e.toNat_lt) (by exact e'.toNat_lt) he
    refine ⟨UInt64.toNat_inj.mp he', ?_⟩
    cases ref
    cases ref'
    simp_all [UInt16.toNat_inj]
  · rintro ⟨rfl, rfl⟩
    rfl

/-- `add_to_batch`。期限のない key は index に載せない。 -/
def addToBatch (expireMs : UInt64) (ref : DbKeyRef) : KeyBatch :=
  if expireMs = 0 then [] else [.putIndex (indexKey expireMs ref)]

def removeKnownToBatch (expireMs : UInt64) (ref : DbKeyRef) : KeyBatch :=
  if expireMs = 0 then [] else [.deleteIndex (indexKey expireMs ref)]

def removeOldToBatch (ref : DbKeyRef) (old : Option Bytes) (expireMs : UInt64) : KeyBatch :=
  match old with
  | some raw =>
    if recordExpire raw = expireMs then [] else removeKnownToBatch (recordExpire raw) ref
  | none => []

/--
main record を期限 `expireMs` の `raw` に置き換える。`write_string_value_to_batch`、`write_structure`、
`expire_with_condition`、`GETEX` に共通の形。
-/
def replaceToBatch (ref : DbKeyRef) (old : Option Bytes) (raw : Bytes) (expireMs : UInt64) :
    KeyBatch :=
  removeOldToBatch ref old expireMs ++ .put ref raw :: addToBatch expireMs ref

def writeStringValueToBatch (ref : DbKeyRef) (value : Bytes) (expireMs : UInt64)
    (old : Option Bytes) : KeyBatch :=
  replaceToBatch ref old (encodeRawString value expireMs) expireMs

def deleteMainKeyWithTtlToBatch (ref : DbKeyRef) (expireMs : UInt64) : KeyBatch :=
  .delete ref :: removeKnownToBatch expireMs ref

/-! ## 期限の来た key -/

/-- `delete_sub_keys_to_batch`。JSON の始端の record は範囲に含めて消す。 -/
def deleteSubKeys (ref : DbKeyRef) (ver : UInt64) (typeTag : UInt8) : KeyBatch :=
  (subKeyNamespaces typeTag).map (.deleteRange ref ver)

/-- `delete_structure_for_db_to_batch` -/
def deleteStructureToBatch (ref : DbKeyRef) (raw : Bytes) : KeyBatch :=
  .delete ref :: match decodeMetaHeader raw with
    | some hdr => deleteSubKeys ref hdr.versionU64 hdr.typeTag
    | none => []

namespace Keyspace

/-- `expire_if_needed`。main record と index の entry だけを消す。 -/
def expireIfNeeded (s : Keyspace) (now : UInt64) (ref : DbKeyRef) : Keyspace :=
  match s.main ref with
  | some raw =>
    if due (recordExpire raw) now then s.write (deleteMainKeyWithTtlToBatch ref (recordExpire raw))
    else s
  | none => s

/-- `load_live_raw_for_db_with_backend`。期限が来ていれば sub record も消すが、index の entry は残る。 -/
def loadLiveRaw (s : Keyspace) (now : UInt64) (ref : DbKeyRef) : Option Bytes × Keyspace :=
  match s.main ref with
  | some raw =>
    if due (decodeExpireMs raw) now then (none, s.write (deleteStructureToBatch ref raw))
    else (some raw, s)
  | none => (none, s)

end Keyspace

/-! ## 一項目ずつの効果 -/

namespace Keyspace

variable (s : Keyspace) (ref r : DbKeyRef) (raw : Bytes) (ver v : UInt64) (ns : Namespace)

theorem put_main : (s.apply (.put ref raw)).main r = if r = ref then some raw else s.main r := rfl

theorem delete_main : (s.apply (.delete ref)).main r = if r = ref then none else s.main r := rfl

theorem modifySub_sub (f : (Bytes → Option Bytes) → Bytes → Option Bytes) :
    (s.modifySub ref ver ns f).sub r v =
      if r = ref ∧ v = ver then (s.sub r v).modify ns f else s.sub r v := rfl

@[simp] theorem write_addToBatch_main (e : UInt64) :
    (s.write (addToBatch e ref)).main = s.main := by
  unfold addToBatch
  split <;> rfl

@[simp] theorem write_removeKnownToBatch_main (e : UInt64) :
    (s.write (removeKnownToBatch e ref)).main = s.main := by
  unfold removeKnownToBatch
  split <;> rfl

@[simp] theorem write_removeOldToBatch_main (old : Option Bytes) (e : UInt64) :
    (s.write (removeOldToBatch ref old e)).main = s.main := by
  unfold removeOldToBatch
  split
  · split
    · rfl
    · rw [write_removeKnownToBatch_main]
  · rfl

@[simp] theorem write_addToBatch_sub (e : UInt64) : (s.write (addToBatch e ref)).sub = s.sub := by
  unfold addToBatch
  split <;> rfl

@[simp] theorem write_removeKnownToBatch_sub (e : UInt64) :
    (s.write (removeKnownToBatch e ref)).sub = s.sub := by
  unfold removeKnownToBatch
  split <;> rfl

theorem write_addToBatch_index (e : UInt64) (k : Bytes) : (s.write (addToBatch e ref)).index k =
      (decide (e ≠ 0 ∧ k = indexKey e ref) || s.index k) := by
  unfold addToBatch
  split
  · next h => simp [h]
  · next h => simp [h, apply, beq_eq_decide]

theorem write_deleteSubKeys (typeTag : UInt8) :
    (s.write (deleteSubKeys ref ver typeTag)).main = s.main ∧
      (s.write (deleteSubKeys ref ver typeTag)).index = s.index := by
  unfold deleteSubKeys
  induction subKeyNamespaces typeTag generalizing s with
  | nil => exact ⟨rfl, rfl⟩
  | cons ns rest ih => exact ih (s.apply (.deleteRange ref ver ns))

@[simp] theorem write_deleteStructureToBatch_main :
    (s.write (deleteStructureToBatch ref raw)).main r = if r = ref then none else s.main r := by
  unfold deleteStructureToBatch
  rw [write_cons]
  split
  · rw [(write_deleteSubKeys _ ref _ _).1, delete_main]
  · rw [write_nil, delete_main]

end Keyspace

end Onedis.Store
