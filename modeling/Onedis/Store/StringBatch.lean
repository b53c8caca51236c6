import Mathlib.Data.List.Dedup
import Onedis.Infra.Run
import Onedis.Store.StringWrite
import Onedis.Store.ValueRoundtrip

/-!
# pipeline に載った文字列の command

`apply_string_batch_mutations_async` は、並んだ command を key ごとの状態の上で順に実行し、変わった key を最後に
一度だけ書く。一つずつ実行すると、そのたびに record を符号化して読み直す。

* `stringBatch_matches_iff` — 二つの結果は、`Misread` が起きないことと同値に一致する
-/

namespace Onedis.Store

open Infra Codec List

/-! ## key の状態 -/

inductive StringBatchValue
  | missing
  | string (value : Bytes)
  | other
  deriving DecidableEq, Repr

/-- pipeline の途中の、一つの key の状態。 -/
structure StringBatchState where
  value : StringBatchValue
  expireMs : UInt64
  dirty : Bool
  deriving DecidableEq, Repr

namespace StringBatchState

def fromRaw (raw : Option Bytes) : StringBatchState :=
  match raw with
  | none => ⟨.missing, 0, false⟩
  | some raw =>
    match decodeMetaHeader raw with
    | some hdr =>
      if hdr.typeTag = TypeTag.string.code then
        ⟨.string ((decodeStringBytes raw).getD []), .ofNat hdr.expireMs, false⟩
      else ⟨.other, .ofNat hdr.expireMs, false⟩
    | none => ⟨.other, 0, false⟩

/-- 書き込みの対象になる列。文字列でなければ `WRONGTYPE`。 -/
def bytes (st : StringBatchState) : Except String Bytes :=
  match st.value with
  | .missing => .ok []
  | .string bytes => .ok bytes
  | .other => .error wrongTypeError

/-- 返すべき元の値。文字列でなければ `WRONGTYPE`。 -/
def oldValue (st : StringBatchState) : Except String (Option Bytes) :=
  match st.value with
  | .missing => .ok none
  | .string bytes => .ok (some bytes)
  | .other => .error wrongTypeError

def store (st : StringBatchState) (bytes : Bytes) : StringBatchState :=
  { st with value := .string bytes, dirty := true }

end StringBatchState

/-- `apply_string_batch_mutation`。失敗しても状態は前のままである。 -/
def applyStringBatchMutation (now : UInt64) (st : StringBatchState) (m : StringBatchMutation) :
    Except String (StringBatchReply × Bool) × StringBatchState :=
  match m with
  | .append _ value _ =>
    match st.bytes with
    | .error msg => (.error msg, st)
    | .ok bytes =>
      match appendBytes bytes value with
      | .error msg => (.error msg, st)
      | .ok bytes => (.ok (.integer bytes.length, true), st.store bytes)
  | .getSet _ value =>
    match st.oldValue with
    | .error msg => (.error msg, st)
    | .ok old => (.ok (.bulk old, true), ⟨.string value, 0, true⟩)
  | .getDel _ =>
    match st.value with
    | .missing => (.ok (.bulk none, false), st)
    | .string old => (.ok (.bulk (some old), true), ⟨.missing, 0, true⟩)
    | .other => (.error wrongTypeError, st)
  | .setNx _ value =>
    match st.value with
    | .missing => (.ok (.integer 1, true), ⟨.string value, 0, true⟩)
    | _ => (.ok (.integer 0, false), st)
  | .setBit _ offset bit _ =>
    match st.bytes with
    | .error msg => (.error msg, st)
    | .ok bytes =>
      match setBitBytes bytes offset bit with
      | .error msg => (.error msg, st)
      | .ok (old, bytes) => (.ok (.integer old.toNat, true), st.store bytes)
  | .setRange _ offset value =>
    match st.bytes with
    | .error msg => (.error msg, st)
    | .ok bytes =>
      match setRangeBytes bytes offset value with
      | .error msg => (.error msg, st)
      | .ok (len, bytes, changed) =>
        (.ok (.integer len, changed), if changed then st.store bytes else st)
  | .psetex _ ttlMs value _ => (.ok (.ok, true), ⟨.string value, saturatingAdd now ttlMs, true⟩)

/-! ## command の列 -/

abbrev StringReplies := List (Except String StringBatchReply)

def stepStates (now : UInt64) (states : Bytes → StringBatchState) (m : StringBatchMutation) :
    Bytes → StringBatchState :=
  fun key => if key = m.key then (applyStringBatchMutation now (states m.key) m).2 else states key

def applyAll (now : UInt64) :
    (Bytes → StringBatchState) → List StringBatchMutation →
      StringReplies × (Bytes → StringBatchState)
  | states, [] => ([], states)
  | states, m :: ms =>
    let rest := applyAll now (stepStates now states m) ms
    ((applyStringBatchMutation now (states m.key) m).1.map Prod.fst :: rest.1, rest.2)

def StringBatchState.toBatch (st : StringBatchState) (ref : DbKeyRef) (old : Option Bytes) :
    KeyBatch :=
  if st.dirty then
    match st.value with
    | .string value => writeStringValueToBatch ref value st.expireMs old
    | _ => deleteMainKeyWithTtlToBatch ref ((old.map recordExpire).getD 0)
  else []

namespace Keyspace

/-- `apply_string_batch_mutations_async`。状態は、期限の来た key を消した後の record から作る。 -/
def applyStringBatchMutations (s : Keyspace) (now : UInt64) (db : UInt16)
    (ms : List StringBatchMutation) : StringReplies × Keyspace :=
  let keys := (ms.map (·.key)).dedup
  let live key := s.liveMain now ⟨db, key⟩
  let (replies, states) := applyAll now (fun key => .fromRaw (live key)) ms
  let s := keys.foldl (fun s key => s.expireIfNeeded now ⟨db, key⟩) s
  (replies, s.write (keys.flatMap fun key => (states key).toBatch ⟨db, key⟩ (live key)))

def execAll (now : UInt64) (db : UInt16) :
    Keyspace → List StringBatchMutation → StringReplies × Keyspace
  | s, [] => ([], s)
  | s, m :: ms =>
    let head := m.exec s now db
    let rest := execAll now db head.2 ms
    (head.1 :: rest.1, rest.2)

/-- まとめた実行と一つずつの実行で、返事と残る record が等しい。 -/
structure StringBatchMatches (s : Keyspace) (now : UInt64) (db : UInt16)
    (ms : List StringBatchMutation) : Prop where
  replies : (s.applyStringBatchMutations now db ms).1 = (execAll now db s ms).1
  records : ∀ ref, (s.applyStringBatchMutations now db ms).2.liveMain now ref =
    (execAll now db s ms).2.liveMain now ref

end Keyspace
open Keyspace

/-! ## 読み直しで壊れる record -/

namespace StringBatchState

def record (st : StringBatchState) (old : Option Bytes) : Option Bytes :=
  if st.dirty then
    match st.value with
    | .string value => some (encodeRawString value st.expireMs)
    | _ => none
  else old

end StringBatchState

/-- record `raw` が別の型に見えるとき、command の結果が変わる。 -/
def StringBatchMutation.Notices (now : UInt64) (raw : Bytes) : StringBatchMutation → Prop
  | .psetex .. => False
  | .setNx .. => due (recordExpire raw) now = true
  | .setRange _ offset value =>
    value = [] ∨ offset + value.length ≤ maxBulkStringBytes ∨ due (recordExpire raw) now = false
  | _ => True

/-- この pipeline が書いた文字列の record が list か stream の meta に見えて、次の command がそれに気づく。 -/
def Misread (now : UInt64) (states : Bytes → StringBatchState) (m : StringBatchMutation) : Prop :=
  (states m.key).dirty = true ∧ ∃ value, (states m.key).value = .string value ∧
    MagicClash (states m.key).expireMs (17 + value.length) ∧
    m.Notices now (encodeRawString value (states m.key).expireMs)

/-! ## 状態と record の対応 -/

open StringBatchState

section Read

variable {raw : Bytes} {now : UInt64}

theorem decodeStringBytes_of_header {hdr : MetaHeader} (h : decodeMetaHeader raw = some hdr)
    (htag : hdr.typeTag = TypeTag.string.code) : decodeStringBytes raw = some (raw.drop 17) := by
  unfold decodeMetaHeader at h
  split at h
  · cases h
    exact absurd (show TypeTag.list.code = _ from htag) (by decide)
  · split at h
    · cases h
      exact absurd (show TypeTag.stream.code = _ from htag) (by decide)
    · obtain ⟨hlen, h⟩ := Option.ite_none_left_eq_some.mp h
      cases h
      rw [decodeStringBytes, if_pos]
      refine ⟨by omega, ?_⟩
      rw [getElem?_eq_getElem (by omega)]
      simpa [getD_eq_getElem?_getD, getElem?_eq_getElem (show 16 < raw.length by omega)]
        using htag

theorem fromRaw_cases (raw : Bytes) :
    (decodeMetaHeader raw = none ∧ fromRaw (some raw) = ⟨.other, 0, false⟩) ∨
      ∃ hdr, decodeMetaHeader raw = some hdr ∧
        ((hdr.typeTag = TypeTag.string.code ∧ decodeStringBytes raw = some (raw.drop 17) ∧
            fromRaw (some raw) =
              ⟨.string (raw.drop 17), .ofNat hdr.expireMs, false⟩) ∨
          (hdr.typeTag ≠ TypeTag.string.code ∧
            fromRaw (some raw) = ⟨.other, .ofNat hdr.expireMs, false⟩)) := by
  unfold fromRaw
  dsimp only
  cases hhdr : decodeMetaHeader raw with
  | none => exact .inl ⟨rfl, rfl⟩
  | some hdr =>
    refine .inr ⟨hdr, rfl, ?_⟩
    by_cases htag : hdr.typeTag = TypeTag.string.code
    · have hdecode := decodeStringBytes_of_header hhdr htag
      exact .inl ⟨htag, hdecode, by simp [htag, hdecode]⟩
    · exact .inr ⟨htag, by simp [htag]⟩

variable (raw : Option Bytes)

theorem readString_eq :
    readString raw = (fromRaw raw).bytes.map
      ((fromRaw raw).expireMs, ·) := by
  cases raw with
  | none => rfl
  | some raw =>
    rcases fromRaw_cases raw with ⟨hhdr, h⟩ | ⟨hdr, hhdr, h | h⟩ <;>
      simp [readString, hhdr, h, bytes, Except.map]

theorem readOldValue_eq :
    readOldValue raw = (fromRaw raw).oldValue := by
  cases raw with
  | none => rfl
  | some raw =>
    rcases fromRaw_cases raw with ⟨hhdr, h⟩ | ⟨hdr, hhdr, h | h⟩ <;>
      simp [readOldValue, hhdr, h, oldValue]

theorem fromRaw_missing_iff :
    (fromRaw raw).value = .missing ↔ raw = none := by
  cases raw with
  | none => simp [fromRaw]
  | some raw => rcases fromRaw_cases raw with ⟨-, h⟩ | ⟨hdr, -, h | h⟩ <;> simp [h]

theorem fromRaw_expireMs :
    (fromRaw raw).expireMs = (raw.map recordExpire).getD 0 := by
  cases raw with
  | none => rfl
  | some raw =>
    rcases fromRaw_cases raw with ⟨hhdr, h⟩ | ⟨hdr, hhdr, h | h⟩ <;> simp [recordExpire, hhdr, h]

theorem fromRaw_dirty : (fromRaw raw).dirty = false := by
  cases raw with
  | none => rfl
  | some raw => rcases fromRaw_cases raw with ⟨-, h⟩ | ⟨hdr, -, h | h⟩ <;> simp [h]

theorem fromRaw_encodeRawString {value : Bytes} {e : UInt64}
    (h : ¬ MagicClash e (17 + value.length)) :
    fromRaw (some (encodeRawString value e)) = ⟨.string value, e, false⟩ := by
  have hhdr : decodeMetaHeader (encodeRawString value e) =
      some ⟨e.toNat, (0 : UInt64).toNat, TypeTag.string.code⟩ := decodeMetaHeader_regular h
  simp [fromRaw, hhdr, decodeStringBytes_encode]

theorem recordExpire_encodeRawString {value : Bytes} {e : UInt64}
    (h : ¬ MagicClash e (17 + value.length)) : recordExpire (encodeRawString value e) = e := by
  have hexpire := fromRaw_expireMs (some (encodeRawString value e))
  rw [fromRaw_encodeRawString h] at hexpire
  exact hexpire.symm

theorem fromRaw_clash {value : Bytes} {e : UInt64} (h : MagicClash e (17 + value.length)) :
    fromRaw (some (encodeRawString value e)) =
      ⟨.other, recordExpire (encodeRawString value e), false⟩ := by
  obtain ⟨hdr, hhdr, htag⟩ := @decodeMetaHeader_clash e 0 .string value h
  have hne : hdr.typeTag ≠ TypeTag.string.code := by
    rcases htag with ⟨-, htag, -⟩ | ⟨-, htag⟩ <;> rw [htag] <;> decide
  rw [← encodeRawString] at hhdr
  simp [fromRaw, recordExpire, hhdr, hne]

end Read

/-! ## 一つの command -/

structure StringBatchState.Reads (st : StringBatchState) (live : Option Bytes) : Prop where
  value : st.value = (fromRaw live).value
  expireMs : st.expireMs = (fromRaw live).expireMs

def StringBatchState.written (st : StringBatchState) : Option Bytes :=
  match st.value with
  | .string value => some (encodeRawString value st.expireMs)
  | _ => none

/-- 状態の上で、文字列を `mutation` で書き換える。 -/
def StringBatchState.mutate (st : StringBatchState)
    (mutation : Bytes → Except String (StringBatchReply × Bytes × Bool)) :
    Except String (StringBatchReply × Bool) × StringBatchState :=
  match st.bytes with
  | .error msg => (.error msg, st)
  | .ok bytes =>
    match mutation bytes with
    | .error msg => (.error msg, st)
    | .ok (reply, bytes', changed) =>
      (.ok (reply, changed), if changed then st.store bytes' else st)

def changedReply (result : Except String (StringBatchReply × Bool)) : Bool :=
  match result with
  | .ok (_, changed) => changed
  | .error _ => false

theorem saturatingAdd_not_due {now ttlMs : UInt64} (hnow : now ≠ .ofNat maxU64) (h : 0 < ttlMs) :
    due (saturatingAdd now ttlMs) now = false := by
  have hlt : now < saturatingAdd now ttlMs := by
    rw [UInt64.lt_iff_toNat_lt]
    have hpos : 0 < ttlMs.toNat := UInt64.lt_iff_toNat_lt.mp h
    unfold saturatingAdd
    split
    · next hsum =>
      rw [UInt64.toNat_add, Nat.mod_eq_of_lt (by simpa using hsum)]
      omega
    · have hmax : now.toNat ≠ maxU64 := fun heq => hnow (by rw [← heq, UInt64.ofNat_toNat])
      have hbound := now.toNat_lt
      have hofNat : (UInt64.ofNat maxU64).toNat = maxU64 := by decide
      rw [hofNat]
      unfold maxU64 at hmax ⊢
      omega
  simp only [due, Bool.and_eq_false_iff, decide_eq_false_iff_not]
  exact .inr (UInt64.not_le.mpr hlt)

section Step

variable {s : Keyspace} {now : UInt64} {ref r : DbKeyRef} {st : StringBatchState}

/-- 文字列を書き換える三つの command は `mutate` で書ける。 -/
theorem applyStringBatchMutation_mutate (now : UInt64) (st : StringBatchState) (key : Bytes) :
    (∀ value fits, applyStringBatchMutation now st (.append key value fits) =
      st.mutate fun bytes => (appendBytes bytes value).map fun bytes =>
        (.integer bytes.length, bytes, true)) ∧
    (∀ offset bit fits, applyStringBatchMutation now st (.setBit key offset bit fits) =
      st.mutate fun bytes => (setBitBytes bytes offset bit).map fun (old, bytes) =>
        (.integer old.toNat, bytes, true)) ∧
    ∀ offset value, applyStringBatchMutation now st (.setRange key offset value) =
      st.mutate fun bytes => (setRangeBytes bytes offset value).map fun (len, bytes, changed) =>
        (.integer len, bytes, changed) := by
  unfold mutate
  simp only [applyStringBatchMutation]
  cases st.bytes with
  | error msg => simp
  | ok bytes =>
    refine ⟨fun value fits => ?_, fun offset bit fits => ?_, fun offset value => ?_⟩
    · dsimp only
      cases appendBytes bytes value <;> rfl
    · dsimp only
      cases setBitBytes bytes offset bit <;> rfl
    · dsimp only
      cases setRangeBytes bytes offset value <;> rfl

theorem write_writeStringValue_main (value : Bytes) (e : UInt64) (old : Option Bytes) :
    ((s.expireIfNeeded now ref).write (writeStringValueToBatch ref value e old)).main r =
      if r = ref then some (encodeRawString value e) else s.main r := by
  rw [writeStringValueToBatch, write_replace_main, expireIfNeeded_main]
  split <;> simp [*]

/-- 返事と、書いた後の main record が、状態の上の結果 `result` と一致する。 -/
structure StringBatchState.Agrees (s : Keyspace) (now : UInt64) (ref : DbKeyRef)
    (executed : Except String StringBatchReply × Keyspace)
    (result : Except String (StringBatchReply × Bool) × StringBatchState) : Prop where
  reply : executed.1 = result.1.map Prod.fst
  main : ∀ r, executed.2.main r =
    if r = ref then if changedReply result.1 then result.2.written else s.liveMain now ref
    else s.main r

theorem mutate_agrees (h : st.Reads (s.liveMain now ref))
    (f : Bytes → Except String (StringBatchReply × Bytes × Bool)) :
    Agrees s now ref (s.mutateStringBytesIfChanged now ref f) (st.mutate f) := by
  have hbytes : st.bytes = (fromRaw (s.liveMain now ref)).bytes := by
    unfold bytes
    rw [h.value]
  unfold mutateStringBytesIfChanged mutate
  dsimp only
  rw [expireIfNeeded_main_self, readString_eq, ← hbytes, ← h.expireMs]
  cases st.bytes with
  | error msg => exact ⟨rfl, expireIfNeeded_main s now ref⟩
  | ok bytes =>
    simp only [Except.map]
    cases f bytes with
    | error msg => exact ⟨rfl, expireIfNeeded_main s now ref⟩
    | ok result =>
      obtain ⟨reply, bytes', changed⟩ := result
      cases changed with
      | false => exact ⟨rfl, expireIfNeeded_main s now ref⟩
      | true => exact ⟨rfl, fun r => write_writeStringValue_main ..⟩

theorem StringBatchState.Agrees.of_error {executed : Except String StringBatchReply × Keyspace}
    {result result' : Except String (StringBatchReply × Bool) × StringBatchState} {msg : String}
    (h : Agrees s now ref executed result) (herror : result.1 = .error msg)
    (herror' : result'.1 = .error msg) :
    Agrees s now ref executed result' := by
  refine ⟨by rw [h.reply, herror, herror'], fun r => ?_⟩
  simp [h.main, herror, herror', changedReply]

theorem psetex_agrees (hnow : now ≠ .ofNat maxU64) (key value : Bytes) (ttlMs : UInt64)
    (pos : 0 < ttlMs) :
    Agrees s now ref
      ((s.setStringBytes now ref value (.at (saturatingAdd now ttlMs)) .always false).1.map
        fun _ => .ok,
        (s.setStringBytes now ref value (.at (saturatingAdd now ttlMs)) .always false).2)
      (applyStringBatchMutation now st (.psetex key ttlMs value pos)) := by
  simp only [setStringBytes, SetCondition.admits, if_true, SetExpiration.resolve, setBatch,
    saturatingAdd_not_due hnow pos]
  exact ⟨rfl, fun r => write_writeStringValue_main ..⟩

theorem setNx_agrees (key value : Bytes)
    (hmissing : st.value = .missing ↔ s.liveMain now ref = none)
    (hhdr : ∀ raw, s.liveMain now ref = some raw → (decodeMetaHeader raw).isSome) :
    Agrees s now ref ((s.setStringBytes now ref value .clear .nx false).1.map fun
        | .set _ => .integer 1
        | .notSet => .integer 0, (s.setStringBytes now ref value .clear .nx false).2)
      (applyStringBatchMutation now st (.setNx key value)) := by
  have hpresent : ((s.liveMain now ref).bind decodeMetaHeader).isSome =
      decide (st.value ≠ .missing) := by
    simp only [ne_eq, hmissing]
    cases hlive : s.liveMain now ref with
    | none => rfl
    | some raw => simpa using hhdr raw hlive
  simp only [setStringBytes, expireIfNeeded_main_self, hpresent, SetCondition.admits,
    SetExpiration.resolve, applyStringBatchMutation]
  cases hvalue : st.value with
  | missing => exact ⟨rfl, fun r => write_writeStringValue_main ..⟩
  | string old | other => exact ⟨rfl, expireIfNeeded_main s now _⟩

theorem getSet_agrees (key value : Bytes) (h : st.Reads (s.liveMain now ref)) :
    Agrees s now ref
      ((s.setStringBytes now ref value .clear .always true).1.map fun
        | .set oldValue => .bulk oldValue
        | .notSet => .bulk none, (s.setStringBytes now ref value .clear .always true).2)
      (applyStringBatchMutation now st (.getSet key value)) := by
  have hold : readOldValue (s.liveMain now ref) = st.oldValue := by
    rw [readOldValue_eq, oldValue, ← h.value, oldValue]
  simp only [setStringBytes, expireIfNeeded_main_self, SetCondition.admits, if_true,
    SetExpiration.resolve, applyStringBatchMutation, hold]
  cases st.oldValue with
  | error msg => exact ⟨rfl, expireIfNeeded_main s now _⟩
  | ok old => exact ⟨rfl, fun r => write_writeStringValue_main ..⟩

theorem getdel_agrees (key : Bytes) (h : st.Reads (s.liveMain now ref)) :
    Agrees s now ref
      ((s.getdelStringBytes now ref).1.map .bulk, (s.getdelStringBytes now ref).2)
      (applyStringBatchMutation now st (.getDel key)) := by
  have hmissing : st.value = .missing ↔ s.liveMain now ref = none := by
    rw [h.value, fromRaw_missing_iff]
  have hread := readString_eq (s.liveMain now ref)
  rw [bytes, ← h.value] at hread
  unfold getdelStringBytes
  dsimp only [applyStringBatchMutation]
  rw [expireIfNeeded_main_self]
  cases hlive : s.liveMain now ref with
  | none =>
    rw [hmissing.mpr hlive]
    exact ⟨rfl, expireIfNeeded_main s now ref⟩
  | some raw =>
    rw [hlive] at hread
    cases hvalue : st.value with
    | missing => exact absurd (hmissing.mp hvalue) (by simp [hlive])
    | string old =>
      rw [hvalue] at hread
      simp only [hread, Except.map]
      refine ⟨rfl, fun r => ?_⟩
      rw [write_deleteMain_main, expireIfNeeded_main]
      split <;> simp [*, changedReply, written]
    | other =>
      rw [hvalue] at hread
      simp only [hread, Except.map]
      refine ⟨rfl, fun r => ?_⟩
      rw [expireIfNeeded_main]
      rfl

theorem mutate_changed (st : StringBatchState)
    (f : Bytes → Except String (StringBatchReply × Bytes × Bool)) :
    (changedReply (st.mutate f).1 = true → (st.mutate f).2.dirty = true) ∧
      (changedReply (st.mutate f).1 = false → (st.mutate f).2 = st) := by
  unfold mutate
  cases st.bytes with
  | error => simp [changedReply]
  | ok bytes =>
    dsimp only
    cases f bytes with
    | error => simp [changedReply]
    | ok result =>
      obtain ⟨reply, bytes', changed⟩ := result
      cases changed <;> simp [changedReply, store]

theorem applyStringBatchMutation_changed (now : UInt64) (st : StringBatchState)
    (m : StringBatchMutation) :
    (changedReply (applyStringBatchMutation now st m).1 = true →
      (applyStringBatchMutation now st m).2.dirty = true) ∧
    (changedReply (applyStringBatchMutation now st m).1 = false →
      (applyStringBatchMutation now st m).2 = st) := by
  cases m with
  | append | setBit | setRange =>
    simp only [applyStringBatchMutation_mutate]
    exact mutate_changed ..
  | getSet key value =>
    simp only [applyStringBatchMutation]
    cases st.oldValue <;> simp [changedReply]
  | getDel key =>
    simp only [applyStringBatchMutation]
    cases st.value <;> simp [changedReply]
  | setNx key value =>
    simp only [applyStringBatchMutation]
    cases st.value <;> simp [changedReply]
  | psetex key ttlMs value pos => simp [applyStringBatchMutation, changedReply]

/-- **状態が record のとおりなら、command の返事も書く record も一致する。** -/
theorem exec_agrees {db : UInt16} {m : StringBatchMutation} (hnow : now ≠ .ofNat maxU64)
    (href : ref = ⟨db, m.key⟩) (h : st.Reads (s.liveMain now ref))
    (hhdr : ∀ raw, s.liveMain now ref = some raw → (decodeMetaHeader raw).isSome) :
    Agrees s now ref (m.exec s now db) (applyStringBatchMutation now st m) := by
  subst href
  cases m with
  | append | setBit | setRange =>
    simp only [applyStringBatchMutation_mutate]
    exact mutate_agrees h _
  | getSet key value => exact getSet_agrees key value h
  | getDel key => exact getdel_agrees key h
  | setNx key value => exact setNx_agrees key value (by rw [h.value, fromRaw_missing_iff]) hhdr
  | psetex key ttlMs value pos => exact psetex_agrees hnow key value ttlMs pos

end Step

/-! ## 状態が取る形 -/

/-- 途中の状態。`base` は、始めに読んだ生きている record である。 -/
structure StringBatchState.Sound (now : UInt64) (base : Option Bytes) (st : StringBatchState) :
    Prop where
  clean : st.dirty = false → st = .fromRaw base
  dirty : st.dirty = true →
    (st.value = .missing ∧ st.expireMs = 0) ∨ ∃ value, st.value = .string value
  alive : due st.expireMs now = false

section Sound

variable {now : UInt64} {base : Option Bytes} {st : StringBatchState}

theorem due_zero (now : UInt64) : due 0 now = false := rfl

theorem sound_fromRaw (h : liveRaw now base = base) :
    (fromRaw base).Sound now base := by
  refine ⟨fun _ => rfl, fun hdirty => ?_, ?_⟩
  · rw [fromRaw_dirty] at hdirty
    cases hdirty
  · rw [fromRaw_expireMs]
    cases base with
    | none => exact due_zero now
    | some raw =>
      rw [liveRaw_some] at h
      split at h
      · cases h
      · next hdue => simpa using hdue

theorem StringBatchState.Sound.mutate (h : st.Sound now base)
    (f : Bytes → Except String (StringBatchReply × Bytes × Bool)) :
    (st.mutate f).2.Sound now base := by
  unfold StringBatchState.mutate
  split
  · exact h
  · split
    · exact h
    · next changed _ =>
      cases changed with
      | false => exact h
      | true => exact ⟨fun hclean => (by cases hclean), fun _ => .inr ⟨_, rfl⟩, h.alive⟩

theorem StringBatchState.Sound.step (hnow : now ≠ .ofNat maxU64) (h : st.Sound now base)
    (m : StringBatchMutation) :
    (applyStringBatchMutation now st m).2.Sound now base := by
  have hstring : ∀ value e, due e now = false →
      (⟨.string value, e, true⟩ : StringBatchState).Sound now base := fun value e he =>
    ⟨fun hclean => (by cases hclean), fun _ => .inr ⟨value, rfl⟩, he⟩
  cases m with
  | append | setBit | setRange =>
    simp only [applyStringBatchMutation_mutate]
    exact h.mutate _
  | getSet key value =>
    simp only [applyStringBatchMutation]
    split
    · exact h
    · exact hstring value 0 (due_zero now)
  | getDel key =>
    simp only [applyStringBatchMutation]
    split
    · exact h
    · exact ⟨fun hclean => (by cases hclean), fun _ => .inl ⟨rfl, rfl⟩, due_zero now⟩
    · exact h
  | setNx key value =>
    simp only [applyStringBatchMutation]
    split
    · exact hstring value 0 (due_zero now)
    · exact h
  | psetex key ttlMs value pos => exact hstring value _ (saturatingAdd_not_due hnow pos)

def StringBatchState.Clashes (st : StringBatchState) : Prop :=
  st.dirty = true ∧ ∃ value, st.value = .string value ∧ MagicClash st.expireMs (17 + value.length)

theorem StringBatchState.Sound.reads (h : st.Sound now base) (hbase : liveRaw now base = base)
    (hclash : ¬ st.Clashes) : st.Reads (liveRaw now (st.record base)) := by
  unfold record
  by_cases hdirty : st.dirty = true
  · rw [if_pos hdirty]
    rcases h.dirty hdirty with ⟨hvalue, hexpire⟩ | ⟨value, hvalue⟩
    · rw [hvalue]
      exact ⟨hvalue, hexpire⟩
    · have hno : ¬ MagicClash st.expireMs (17 + value.length) := fun hc =>
        hclash ⟨hdirty, value, hvalue, hc⟩
      have hfrom := fromRaw_encodeRawString hno
      rw [hvalue]
      dsimp only
      rw [liveRaw_some, recordExpire_encodeRawString hno, h.alive, if_neg (by decide)]
      exact ⟨by rw [hfrom, hvalue], by rw [hfrom]⟩
  · rw [if_neg hdirty, hbase]
    have hst := h.clean (by simpa using hdirty)
    exact ⟨by rw [← hst], by rw [← hst]⟩

end Sound

/-! ## 壊れた record に気づく command -/

section Notice

variable {now : UInt64} {st : StringBatchState} {value : Bytes} {m : StringBatchMutation}
  {e : UInt64}

theorem liveRaw_encodeRawString_ne (value value' : Bytes) (he : e ≠ 0) :
    liveRaw now (some (encodeRawString value e)) ≠
      liveRaw now (some (encodeRawString value' 0)) := by
  have hno : ¬ MagicClash 0 (17 + value'.length) := by
    rintro (⟨-, h⟩ | ⟨-, h⟩) <;> exact absurd h (by decide)
  rw [liveRaw_some now (encodeRawString value' 0), recordExpire_encodeRawString hno, due_zero,
    if_neg (by decide), liveRaw_some]
  split
  · simp
  · intro h
    have hu64 := congrArg (u64At · 0) (Option.some.inj h)
    simp only [encodeRawString, u64At_regular_expire] at hu64
    exact he hu64

theorem clash_ne_zero {length : Nat} (h : MagicClash e length) : e ≠ 0 := by
  rintro rfl
  rcases h with ⟨-, h⟩ | ⟨-, h⟩ <;> exact absurd h (by decide)

theorem fromRaw_liveRaw_clash (h : MagicClash e (17 + value.length)) :
    fromRaw (liveRaw now (some (encodeRawString value e))) =
      if due (recordExpire (encodeRawString value e)) now then ⟨.missing, 0, false⟩
      else ⟨.other, recordExpire (encodeRawString value e), false⟩ := by
  rw [liveRaw_some]
  split
  · rfl
  · rw [fromRaw_clash h]

def Differs (now : UInt64)
    (result result' : Except String (StringBatchReply × Bool) × StringBatchState) : Prop :=
  result.1.map Prod.fst ≠ result'.1.map Prod.fst ∨
    changedReply result.1 = true ∧ changedReply result'.1 = true ∧
      liveRaw now result.2.written ≠ liveRaw now result'.2.written

theorem resizeBitmap_ok (bytes : Bytes) {offset : Nat} (h : offset < maxBulkStringBytes * 8) :
    ∃ bytes', resizeBitmap bytes (offset / 8 + 1) = .ok bytes' := by
  unfold resizeBitmap
  split
  · exact ⟨_, rfl⟩
  · rw [if_neg (by omega)]
    exact ⟨_, rfl⟩

variable (hst : st.value = .string value)
include hst

theorem differs_missing (hclash : MagicClash st.expireMs (17 + value.length))
    (hdue : due (recordExpire (encodeRawString value st.expireMs)) now = true)
    (hm : m.Notices now (encodeRawString value st.expireMs)) :
    Differs now (applyStringBatchMutation now st m)
      (applyStringBatchMutation now ⟨.missing, 0, false⟩ m) := by
  have hvalue : value ≠ [] := by
    rintro rfl
    rcases hclash with ⟨h, -⟩ | ⟨h, -⟩ <;> cases h
  have hexpire := clash_ne_zero hclash
  have hbytes : st.bytes = .ok value := by simp [bytes, hst]
  have hnil : (⟨.missing, 0, false⟩ : StringBatchState).bytes = .ok [] := rfl
  cases m with
  | append key suffix fits =>
    refine .inl ?_
    by_cases hfit : value.length + suffix.length ≤ maxBulkStringBytes
    · simp [applyStringBatchMutation, hbytes, hnil, appendBytes, fits, hfit, hvalue, Except.map]
    · simp [applyStringBatchMutation, hbytes, hnil, appendBytes, fits, hfit, Except.map]
  | getSet key new =>
    refine .inl ?_
    simp [applyStringBatchMutation, oldValue, hst, Except.map]
  | getDel key | setNx key new =>
    refine .inl ?_
    simp [applyStringBatchMutation, hst, Except.map]
  | setBit key offset bit fits =>
    refine .inr ?_
    obtain ⟨bytes, hresize⟩ := resizeBitmap_ok value fits
    obtain ⟨bytes', hresize'⟩ := resizeBitmap_ok [] fits
    simp only [applyStringBatchMutation, hbytes, hnil, setBitBytes, hresize, hresize']
    exact ⟨rfl, rfl, liveRaw_encodeRawString_ne _ _ hexpire⟩
  | setRange key offset part =>
    by_cases hpart : part = []
    · refine .inl ?_
      simp [applyStringBatchMutation, hbytes, hnil, setRangeBytes, hpart, hvalue, Except.map]
    · have hfits : offset + part.length ≤ maxBulkStringBytes := by
        rcases hm with hm | hm | hm
        · exact absurd hm hpart
        · exact hm
        · rw [hdue] at hm
          cases hm
      refine .inr ?_
      simp only [applyStringBatchMutation, hbytes, hnil, setRangeBytes, if_neg hpart, if_pos hfits]
      exact ⟨rfl, rfl, liveRaw_encodeRawString_ne _ _ hexpire⟩
  | psetex key ttlMs new pos => exact hm.elim

theorem differs_other (hdue : due (recordExpire (encodeRawString value st.expireMs)) now = false)
    (hm : m.Notices now (encodeRawString value st.expireMs)) :
    Differs now (applyStringBatchMutation now st m)
      (applyStringBatchMutation now ⟨.other, e, false⟩ m) := by
  have hbytes : st.bytes = .ok value := by simp [bytes, hst]
  have hother : (⟨.other, e, false⟩ : StringBatchState).bytes = .error wrongTypeError := rfl
  have hne : stringTooLargeError ≠ wrongTypeError := by decide
  refine .inl ?_
  cases m with
  | append key suffix fits =>
    by_cases hfit : value.length + suffix.length ≤ maxBulkStringBytes <;>
      simp [applyStringBatchMutation, hbytes, hother, appendBytes, hfit, hne, Except.map]
  | getSet key new => simp [applyStringBatchMutation, oldValue, hst, Except.map]
  | getDel key => simp [applyStringBatchMutation, hst, Except.map]
  | setNx key new =>
    rw [StringBatchMutation.Notices, hdue] at hm
    cases hm
  | setBit key offset bit fits =>
    obtain ⟨bytes, hresize⟩ := resizeBitmap_ok value fits
    simp [applyStringBatchMutation, hbytes, hother, setBitBytes, hresize, Except.map]
  | setRange key offset part =>
    by_cases hpart : part = []
    · simp [applyStringBatchMutation, hbytes, hother, setRangeBytes, hpart, Except.map]
    · by_cases hfits : offset + part.length ≤ maxBulkStringBytes <;>
        simp [applyStringBatchMutation, hbytes, hother, setRangeBytes, hpart, hfits, hne,
          Except.map]
  | psetex key ttlMs new pos => exact hm.elim

/-- **壊れた record に気づく command は、目に見える違いを残す。** -/
theorem differs_clash (hclash : MagicClash st.expireMs (17 + value.length))
    (hm : m.Notices now (encodeRawString value st.expireMs)) :
    Differs now (applyStringBatchMutation now st m) (applyStringBatchMutation now
      (.fromRaw (liveRaw now (some (encodeRawString value st.expireMs)))) m) := by
  rw [fromRaw_liveRaw_clash hclash]
  by_cases hdue : due (recordExpire (encodeRawString value st.expireMs)) now = true
  · rw [if_pos hdue]
    exact differs_missing hst hclash hdue hm
  · rw [if_neg hdue]
    exact differs_other hst (by simpa using hdue) hm

end Notice

/-! ## 列全体 -/

section Run

variable {s t : Keyspace} {now : UInt64} {db : UInt16} {states : Bytes → StringBatchState}
variable {m : StringBatchMutation}

def recordOf (s : Keyspace) (now : UInt64) (db : UInt16) (states : Bytes → StringBatchState)
    (ref : DbKeyRef) : Option Bytes :=
  if ref.dbIndex = db then (states ref.key).record (s.liveMain now ref) else s.main ref

structure Synced (s : Keyspace) (now : UInt64) (db : UInt16)
    (states : Bytes → StringBatchState) (t : Keyspace) : Prop where
  sound : ∀ key, (states key).Sound now (s.liveMain now ⟨db, key⟩)
  live : ∀ ref, t.liveMain now ref = liveRaw now (recordOf s now db states ref)

def Keyspace.Headed (s : Keyspace) : Prop :=
  ∀ ref raw, s.main ref = some raw → (decodeMetaHeader raw).isSome

theorem encodeRawString_headed (value : Bytes) (e : UInt64) :
    (decodeMetaHeader (encodeRawString value e)).isSome := by
  by_cases hclash : MagicClash e (17 + value.length)
  · obtain ⟨hdr, hhdr, -⟩ := @decodeMetaHeader_clash e 0 .string value hclash
    rw [encodeRawString, hhdr]
    rfl
  · rw [encodeRawString, decodeMetaHeader_regular hclash]
    rfl

theorem liveRaw_eq_some {raw : Option Bytes} {found : Bytes} (h : liveRaw now raw = some found) :
    raw = some found := (Option.filter_eq_some_iff.mp h).1

theorem Synced.headed (h : Synced s now db states t) (hs : s.Headed) (key : Bytes) :
    ∀ raw, t.liveMain now ⟨db, key⟩ = some raw → (decodeMetaHeader raw).isSome := by
  intro raw hraw
  rw [h.live] at hraw
  have hrecord := liveRaw_eq_some hraw
  rw [recordOf, if_pos rfl, record] at hrecord
  split at hrecord
  · split at hrecord
    · cases hrecord
      exact encodeRawString_headed ..
    · cases hrecord
  · exact hs _ raw (liveRaw_eq_some hrecord)

theorem written_of_string {st : StringBatchState} {value : Bytes} (h : st.value = .string value) :
    st.written = some (encodeRawString value st.expireMs) := by
  rw [written, h]

theorem record_of_dirty {st : StringBatchState} (h : st.dirty = true) (old : Option Bytes) :
    st.record old = st.written := by
  rw [record, if_pos h]
  rfl

theorem stepStates_self (now : UInt64) (states : Bytes → StringBatchState)
    (m : StringBatchMutation) :
    stepStates now states m m.key = (applyStringBatchMutation now (states m.key) m).2 := if_pos rfl

variable (hnow : now ≠ .ofNat maxU64)
include hnow

theorem Synced.of_agrees (h : Synced s now db states t)
    (hagrees : Agrees t now ⟨db, m.key⟩ (m.exec t now db)
      (applyStringBatchMutation now (states m.key) m)) :
    Synced s now db (stepStates now states m) (m.exec t now db).2 := by
  refine ⟨fun key => ?_, fun ref => ?_⟩
  · unfold stepStates
    split
    · next hkey =>
      rw [hkey]
      exact (h.sound m.key).step hnow m
    · exact h.sound key
  · rw [liveMain, hagrees.main]
    by_cases href : ref = ⟨db, m.key⟩
    · subst href
      have hchanged := applyStringBatchMutation_changed now (states m.key) m
      rw [if_pos rfl, recordOf, if_pos rfl, stepStates_self]
      split
      · next hc => rw [record_of_dirty (hchanged.1 hc)]
      · next hc =>
        rw [hchanged.2 (by simpa using hc), liveMain, liveRaw_liveRaw]
        exact (h.live _).trans (by rw [recordOf, if_pos rfl])
    · rw [if_neg href]
      have hstep : recordOf s now db (stepStates now states m) ref =
          recordOf s now db states ref := by
        unfold recordOf
        split
        · next hdb =>
          have hkey : ref.key ≠ m.key := fun hkey => href (by rw [← hdb, ← hkey])
          rw [stepStates, if_neg hkey]
        · rfl
      rw [hstep]
      exact h.live ref

theorem quiet_agrees {value : Bytes} {ref : DbKeyRef} {st : StringBatchState}
    (href : ref = ⟨db, m.key⟩) (hvalue : st.value = .string value)
    (hlive : t.liveMain now ref = liveRaw now (some (encodeRawString value st.expireMs)))
    (hquiet : ¬ m.Notices now (encodeRawString value st.expireMs)) :
    Agrees t now ref (m.exec t now db) (applyStringBatchMutation now st m) := by
  subst href
  rw [liveRaw_some] at hlive
  cases m with
  | append key suffix fits | getSet key new | getDel key | setBit key offset bit fits =>
    exact absurd trivial hquiet
  | setNx key new =>
    simp only [StringBatchMutation.Notices] at hquiet
    rw [if_neg hquiet] at hlive
    refine setNx_agrees key new (by simp [hvalue, hlive]) fun raw hraw => ?_
    rw [hlive] at hraw
    cases hraw
    exact encodeRawString_headed ..
  | setRange key offset part =>
    simp only [StringBatchMutation.Notices, not_or, Bool.not_eq_false] at hquiet
    obtain ⟨hpart, hlarge, hdue⟩ := hquiet
    rw [if_pos hdue] at hlive
    have herror : ∀ st' bytes, StringBatchState.bytes st' = .ok bytes →
        (applyStringBatchMutation now st' (.setRange key offset part)).1 =
          .error stringTooLargeError := by
      intro st' bytes hbytes
      simp [applyStringBatchMutation, hbytes, setRangeBytes, hpart, hlarge]
    have hempty : StringBatchState.Reads ⟨.missing, 0, false⟩ none := ⟨rfl, rfl⟩
    have hexec := exec_agrees (m := .setRange key offset part) hnow rfl (hlive ▸ hempty)
      (by simp only [hlive, reduceCtorEq, false_implies, implies_true])
    have hbytes : st.bytes = .ok value := by rw [bytes, hvalue]
    exact hexec.of_error (herror _ [] rfl) (herror st value hbytes)
  | psetex key ttlMs new pos => exact psetex_agrees hnow key new ttlMs pos

omit hnow in
theorem Synced.live_key (h : Synced s now db states t) (key : Bytes) : t.liveMain now ⟨db, key⟩ =
      liveRaw now ((states key).record (s.liveMain now ⟨db, key⟩)) := by
  rw [h.live, recordOf, if_pos rfl]

/-- **壊れた record に気づかないかぎり、command は一つずつ実行しても同じである。** -/
theorem Synced.agrees (hs : s.Headed) (h : Synced s now db states t) (hno : ¬ Misread now states m)
    :
    Agrees t now ⟨db, m.key⟩ (m.exec t now db)
      (applyStringBatchMutation now (states m.key) m) := by
  have hlive := h.live_key m.key
  by_cases hclash : (states m.key).Clashes
  · obtain ⟨hdirty, value, hvalue, hmagic⟩ := hclash
    rw [record_of_dirty hdirty, written_of_string hvalue] at hlive
    exact quiet_agrees hnow rfl hvalue hlive fun hn => hno ⟨hdirty, value, hvalue, hmagic, hn⟩
  · refine exec_agrees hnow rfl ?_ (h.headed hs m.key)
    rw [hlive]
    exact (h.sound m.key).reads (liveRaw_liveRaw now _) hclash

theorem Synced.breaks (hs : s.Headed) (h : Synced s now db states t)
    (hmisread : Misread now states m)
    (hreply : (applyStringBatchMutation now (states m.key) m).1.map Prod.fst = (m.exec t now db).1)
    (hlive : ∀ ref, liveRaw now (recordOf s now db (stepStates now states m) ref) =
      (m.exec t now db).2.liveMain now ref) : False := by
  obtain ⟨hdirty, value, hvalue, hmagic, hn⟩ := hmisread
  have hbefore := h.live_key m.key
  rw [record_of_dirty hdirty, written_of_string hvalue] at hbefore
  -- 一つずつ実行する側は、壊れた record を読み直した状態から進む
  have hexec := @exec_agrees t now ⟨db, m.key⟩ _ db m hnow rfl ⟨rfl, rfl⟩
    (h.headed hs m.key)
  rw [hbefore] at hexec
  rcases differs_clash hvalue hmagic hn with hdiff | ⟨hchanged, hchanged', hdiff⟩
  · exact hdiff (hreply.trans hexec.reply)
  · have hafter := hlive ⟨db, m.key⟩
    rw [liveMain, hexec.main, if_pos rfl, if_pos hchanged', recordOf, if_pos rfl,
      stepStates_self, record_of_dirty
        ((applyStringBatchMutation_changed now (states m.key) m).1 hchanged)] at hafter
    exact hdiff hafter

def LockStep (s : Keyspace) (now : UInt64) (db : UInt16) (states : Bytes → StringBatchState)
    (t : Keyspace) (ms : List StringBatchMutation) : Prop :=
  (applyAll now states ms).1 = (execAll now db t ms).1 ∧
    ∀ ref, liveRaw now (recordOf s now db (applyAll now states ms).2 ref) =
      (execAll now db t ms).2.liveMain now ref

omit hnow in
theorem lockStep_cons (hreply : (applyStringBatchMutation now (states m.key) m).1.map Prod.fst =
      (m.exec t now db).1) (ms : List StringBatchMutation) :
    LockStep s now db states t (m :: ms) ↔
      LockStep s now db (stepStates now states m) (m.exec t now db).2 ms := by
  simp only [LockStep, applyAll, execAll, hreply, cons.injEq, true_and]

theorem lockStep_prefixes_iff (hs : s.Headed) (ms : List StringBatchMutation)
    (h : Synced s now db states t) :
    (∀ n, LockStep s now db states t (ms.take n)) ↔
      ¬ Sometime (fun states m => some (stepStates now states m)) (Misread now) states ms := by
  have hstart : LockStep s now db states t [] := ⟨rfl, fun ref => (h.live ref).symm⟩
  induction ms generalizing states t with
  | nil => simpa [Sometime] using hstart
  | cons m ms ih =>
    by_cases hmisread : Misread now states m
    · refine iff_of_false (fun hall => ?_) (fun hno => hno (.inl hmisread))
      obtain ⟨hreply, hlive⟩ := hall 1
      simp only [take_succ_cons, take_zero, applyAll, execAll, cons.injEq,
        and_true] at hreply hlive
      exact h.breaks hnow hs hmisread hreply hlive
    · have hagrees := h.agrees hnow hs hmisread
      have hsynced := h.of_agrees hnow hagrees
      have hcons := fun ms => lockStep_cons (s := s) hagrees.reply.symm ms
      rw [Sometime, or_iff_right hmisread]
      simp only [Option.some.injEq, exists_eq_left']
      refine Iff.trans ?_ (ih hsynced ⟨rfl, fun ref => (hsynced.live ref).symm⟩)
      constructor
      · intro hall n
        exact (hcons _).mp (hall (n + 1))
      · intro hall n
        cases n with
        | zero => exact hstart
        | succ n => exact (hcons _).mpr (hall n)

end Run

/-! ## 最後の書き込み -/

section Final

variable (s : Keyspace) (now : UInt64) (db : UInt16) (ref : DbKeyRef)

theorem mem_cons_iff_of_ne {key : Bytes} {keys : List Bytes} (href : ref ≠ ⟨db, key⟩) :
    (ref.dbIndex = db ∧ ref.key ∈ key :: keys) ↔ ref.dbIndex = db ∧ ref.key ∈ keys := by
  refine and_congr_right fun hdb => ⟨fun h => ?_, mem_cons_of_mem _⟩
  exact (mem_cons.mp h).resolve_left fun hkey => href (by rw [← hdb, ← hkey])

theorem foldl_expireIfNeeded_main (keys : List Bytes) :
    (keys.foldl (fun s key => s.expireIfNeeded now ⟨db, key⟩) s).main ref =
      if ref.dbIndex = db ∧ ref.key ∈ keys then s.liveMain now ref else s.main ref := by
  induction keys generalizing s with
  | nil => simp
  | cons key keys ih =>
    rw [foldl_cons, ih, liveMain, expireIfNeeded_main]
    by_cases href : ref = ⟨db, key⟩
    · subst href
      simp [liveMain]
    · simp only [if_neg href, mem_cons_iff_of_ne _ _ href, liveMain]

theorem write_toBatch_main (st : StringBatchState) (r : DbKeyRef) (old : Option Bytes) :
    (s.write (st.toBatch r old)).main ref =
      if ref = r then st.record (s.main ref) else s.main ref := by
  unfold toBatch record
  by_cases hdirty : st.dirty = true
  · simp only [if_pos hdirty]
    cases st.value with
    | string value => exact write_replace_main ..
    | missing | other => exact write_deleteMain_main ..
  · simp [if_neg hdirty]

theorem record_record (st : StringBatchState) (old : Option Bytes) :
    st.record (st.record old) = st.record old := by
  by_cases hdirty : st.dirty = true
  · rw [record_of_dirty hdirty, record_of_dirty hdirty]
  · simp [record, if_neg hdirty]

variable (states : Bytes → StringBatchState)

theorem write_flatMap_toBatch_main (old : Bytes → Option Bytes)
    (keys : List Bytes) :
    (s.write (keys.flatMap fun key => (states key).toBatch ⟨db, key⟩ (old key))).main ref =
      if ref.dbIndex = db ∧ ref.key ∈ keys then (states ref.key).record (s.main ref)
      else s.main ref := by
  induction keys generalizing s with
  | nil => simp
  | cons key keys ih =>
    rw [flatMap_cons, write_append, ih, write_toBatch_main]
    by_cases href : ref = ⟨db, key⟩
    · subst href
      simp [record_record]
    · simp only [if_neg href, mem_cons_iff_of_ne _ _ href]

theorem applyAll_of_not_mem (ms : List StringBatchMutation)
    {key : Bytes} (h : key ∉ ms.map (·.key)) : (applyAll now states ms).2 key = states key := by
  induction ms generalizing states with
  | nil => rfl
  | cons m ms ih =>
    rw [map_cons, mem_cons, not_or] at h
    rw [applyAll, ih _ h.2, stepStates, if_neg h.1]

variable (ms : List StringBatchMutation)

theorem applyStringBatchMutations_live :
    (s.applyStringBatchMutations now db ms).2.liveMain now ref = liveRaw now (recordOf s now db
        (applyAll now (fun key => .fromRaw (s.liveMain now ⟨db, key⟩)) ms).2 ref) := by
  simp only [applyStringBatchMutations, liveMain, write_flatMap_toBatch_main,
    foldl_expireIfNeeded_main, recordOf, mem_dedup]
  by_cases hdb : ref.dbIndex = db
  · by_cases hmem : ref.key ∈ ms.map (·.key)
    · simp [hdb, hmem]
    · rw [if_neg fun h => hmem h.2, if_neg fun h => hmem h.2, if_pos hdb,
        applyAll_of_not_mem now _ ms hmem, record, fromRaw_dirty,
        if_neg (by decide), liveRaw_liveRaw]
  · simp [hdb]

theorem stringBatchMatches_iff_lockStep :
    s.StringBatchMatches now db ms ↔
      LockStep s now db (fun key => .fromRaw (s.liveMain now ⟨db, key⟩)) s ms := by
  constructor
  · rintro ⟨hreplies, hrecords⟩
    exact ⟨hreplies, fun ref => by rw [← applyStringBatchMutations_live, hrecords]⟩
  · rintro ⟨hreplies, hrecords⟩
    exact ⟨hreplies, fun ref => by rw [applyStringBatchMutations_live, hrecords]⟩

theorem synced_start : Synced s now db (fun key => .fromRaw (s.liveMain now ⟨db, key⟩)) s := by
  refine ⟨fun key => sound_fromRaw (liveRaw_liveRaw now _), fun ref => ?_⟩
  unfold recordOf
  split
  · next hdb =>
    rw [record, fromRaw_dirty, if_neg (by decide), liveMain,
      liveRaw_liveRaw]
  · rfl

/--
**pipeline の結果と、一つずつ実行した結果の比較。** どこまでで区切っても一致することは、書いたばかりの
record が list か stream の meta に見えて、次の command がそれに気づくことがないことと同値である。
-/
theorem stringBatch_matches_iff (hnow : now ≠ .ofNat maxU64) (hs : s.Headed)
    (ms : List StringBatchMutation) :
    (∀ n, s.StringBatchMatches now db (ms.take n)) ↔
      ¬ Sometime (fun states m => some (stepStates now states m)) (Misread now)
        (fun key => .fromRaw (s.liveMain now ⟨db, key⟩)) ms := by
  simp only [stringBatchMatches_iff_lockStep]
  exact lockStep_prefixes_iff hnow hs ms (synced_start s now db)

end Final

/-! ## 一致しない列と、一致する列 -/

namespace ReadBack

def key : Bytes := [0x6b]

def now : UInt64 := 1700000000000

/-- 19 byte の値。期限の上位 4 byte が `ULST` なら、record は list の meta に見える。 -/
def value : Bytes := replicate 19 0x61

/-- `PSETEX k 6146377511696242688 aaaaaaaaaaaaaaaaaaa` と `APPEND k x` を並べる。 -/
def pipeline : List StringBatchMutation :=
  [.psetex key 6146377511696242688 value (by decide), .append key [0x78] (by decide)]

theorem append_after_psetex :
    (empty.applyStringBatchMutations now 0 pipeline).1 = [.ok .ok, .ok (.integer 20)] ∧
      (execAll now 0 empty pipeline).1 = [.ok .ok, .error wrongTypeError] ∧
      ¬ empty.StringBatchMatches now 0 pipeline := by
  have hbatch : (empty.applyStringBatchMutations now 0 pipeline).1 =
      [.ok .ok, .ok (.integer 20)] := rfl
  have hexec : (execAll now 0 empty pipeline).1 =
      [.ok .ok, .error wrongTypeError] := rfl
  refine ⟨hbatch, hexec, fun h => ?_⟩
  have := h.replies
  rw [hbatch, hexec] at this
  simp at this

def dailyPipeline : List StringBatchMutation :=
  [.psetex key 86400000 value (by decide), .append key [0x78] (by decide)]

theorem append_after_daily_psetex :
    empty.StringBatchMatches now 0 (dailyPipeline.take 2) := by
  refine (stringBatch_matches_iff empty now 0 (by decide) nofun
    dailyPipeline).mpr ?_ 2
  rintro (⟨hdirty, -⟩ | ⟨states, hstep, ⟨-, written, hvalue, hclash, -⟩ | ⟨_, -, h⟩⟩)
  · exact absurd hdirty (by decide)
  · cases hstep
    cases hvalue
    exact absurd hclash (by decide)
  · exact h

end ReadBack

end Onedis.Store
