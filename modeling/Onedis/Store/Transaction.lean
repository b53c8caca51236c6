import Onedis.Infra.Run
import Onedis.Store.ListRecords

/-!
# transaction の view と commit

書き込みは engine の transaction に積まれ、変えた logical key は `pending` に積まれる。`commitTransaction` は
**`pending` が空なら engine の transaction を捨てて成功を返す**。`pending` は batch の raw key を復号して作るので、
持ち主を復号できない record だけを書いた transaction は消える。
-/

namespace Onedis.Store

open Infra Function

/-! ## engine の transaction -/

abbrev Tables := Nat → Bytes → Option Bytes

/-- transaction に溜める書き込み。 -/
inductive TxnOp
  | put (key value : Bytes)
  | delete (key : Bytes)
  | deleteRange (start stop : Bytes)
  deriving DecidableEq, Repr

def TxnOp.apply : TxnOp → (Bytes → Option Bytes) → Bytes → Option Bytes
  | put key value, t => update t key (some value)
  | delete key, t => update t key none
  | deleteRange start stop, t =>
    fun key => if !bytesLt key start && bytesLt key stop then none else t key

def applyStaged (ops : List (Nat × TxnOp)) (tables : Tables) : Tables :=
  ops.foldl (fun t op => update t op.1 (op.2.apply (t op.1))) tables

theorem TxnOp.apply_congr (op : TxnOp) {t t' : Bytes → Option Bytes} {key : Bytes}
    (h : t key = t' key) : op.apply t key = op.apply t' key := by
  cases op with
  | put k value | delete k =>
    by_cases hk : key = k
    · simp [apply, hk]
    · simp [apply, update_of_ne hk, h]
  | deleteRange start stop => simp [apply, h]

theorem applyStaged_congr (ops : List (Nat × TxnOp)) {tables tables' : Tables} {db : Nat}
    {key : Bytes} (h : tables db key = tables' db key) :
    applyStaged ops tables db key = applyStaged ops tables' db key := by
  unfold applyStaged
  induction ops generalizing tables tables' with
  | nil => exact h
  | cons op ops ih =>
    refine ih ?_
    show update tables op.1 _ db key = update tables' op.1 _ db key
    by_cases hd : db = op.1
    · subst hd
      rw [update_self, update_self]
      exact op.2.apply_congr h
    · rw [update_of_ne hd, update_of_ne hd, h]

/-- engine の commit。失敗してよいが、成功したなら積まれた操作をすべて適用する。 -/
structure TxnEngine where
  commitMany : Tables → List (Nat × TxnOp) → Except Status Tables
  commit_applies : ∀ {tables ops tables'},
    commitMany tables ops = .ok tables' → tables' = applyStaged ops tables

/-! ## view -/

/-- commit の後で WATCH に知らせる key と db。 -/
structure PendingMutations where
  keys : List (Nat × Bytes)
  dbs : List Nat
  deriving DecidableEq, Repr

def PendingMutations.append (p q : PendingMutations) : PendingMutations :=
  ⟨p.keys ++ q.keys, p.dbs ++ q.dbs⟩

/-- transaction の始めの snapshot と、溜めた書き込み。 -/
structure TxnView where
  layout : KeyEncodingLayout
  dbIndex : Nat
  snapshot : Tables
  staged : List (Nat × TxnOp)
  pending : PendingMutations
open TxnView

def transactionalView (layout : KeyEncodingLayout) (db : Nat) (tables : Tables) : TxnView :=
  ⟨layout, db, tables, [], ⟨[], []⟩⟩

namespace TxnView

def get (v : TxnView) (db : Nat) (key : Bytes) : Option Bytes :=
  applyStaged v.staged v.snapshot db key

end TxnView

/-- batch を engine の transaction に積む。 -/
def stageBatchInTransaction : WriteBatch → List TxnOp × Except Status Unit
  | [] => ([], .ok ())
  | op :: batch =>
    match op.writeType with
    | .put | .putBlobMedium | .putBlobExternal =>
      (.put op.key op.value :: (stageBatchInTransaction batch).1, (stageBatchInTransaction batch).2)
    | .delete => (.delete op.key :: (stageBatchInTransaction batch).1,
        (stageBatchInTransaction batch).2)
    | .rangeDelete => (.deleteRange op.key op.value :: (stageBatchInTransaction batch).1,
        (stageBatchInTransaction batch).2)
    | .merge =>
      ([], .error (.unsupported "merge is not supported by onedis transaction write batches"))

/-- record が期待の値のままであること。 -/
structure CompareCondition where
  key : Bytes
  expected : Option Bytes
  deriving DecidableEq, Repr

namespace TxnView

def storeWriteBatch (v : TxnView) (db : Nat) (batch : WriteBatch) :
    TxnView × Except Status Unit :=
  let r := stageBatchInTransaction batch
  ({ v with staged := v.staged ++ r.1.map (db, ·) }, r.2)

def storeCompareAndWriteBatch (v : TxnView) (conditions : List CompareCondition)
    (batch : WriteBatch) : TxnView × Except Status Unit :=
  if conditions.all fun c => v.get v.dbIndex c.key == c.expected then
    v.storeWriteBatch v.dbIndex batch
  else (v, .error (.conditionFailed "compare_and_write condition failed"))

def collected (v : TxnView) (batch : WriteBatch) : PendingMutations :=
  let muts := collectLogicalMutations v.layout v.dbIndex batch
  ⟨muts.1.map (v.dbIndex, ·), muts.2⟩

def knownKeys (v : TxnView) (logicalKeys : List Key) : PendingMutations :=
  ⟨logicalKeys.map fun k => (v.dbIndex, v.layout.mainKeyBytes v.dbIndex k.bytes), []⟩

def record (v : TxnView) (muts : PendingMutations) : TxnView :=
  { v with pending := v.pending.append muts }

def recordMutations (v : TxnView) (batch : WriteBatch) : TxnView := v.record (v.collected batch)

def recordKnownKeyMutations (v : TxnView) (logicalKeys : List Key) : TxnView :=
  v.record (v.knownKeys logicalKeys)

def recordExternalKeyMutation (v : TxnView) (db : Nat) (key : Bytes) : TxnView :=
  v.record ⟨[(db, key)], []⟩

/-! ## 書き込みの入口 -/

/-- 書き込みに成功したら `record` で変更を記録する。失敗しても積まれた操作は残る。 -/
def finishWrite (record : TxnView → TxnView) : TxnView × Except Status Unit →
    TxnView × Except Status Unit
  | (v, .ok ()) => (record v, .ok ())
  | (v, .error e) => (v, .error e)

/-- `write_batch_if_not_empty` とその非同期版、plain string 用の版。 -/
def writeBatchIfNotEmpty (v : TxnView) (batch : WriteBatch) : TxnView × Except Status Unit :=
  if batch = [] then (v, .ok ())
  else
    let batch := appendVersionOwnerMarkers v.layout v.dbIndex batch
    finishWrite (·.recordMutations batch) (v.storeWriteBatch v.dbIndex batch)

def writeBatchWithLogicalKeysIfNotEmpty (v : TxnView) (batch : WriteBatch)
    (logicalKeys : List Key) : TxnView × Except Status Unit :=
  if batch = [] then (v, .ok ())
  else
    finishWrite (·.recordKnownKeyMutations logicalKeys)
      (v.storeWriteBatch v.dbIndex (appendVersionOwnerMarkers v.layout v.dbIndex batch))

def writeExistingVersionBatchIfNotEmpty (v : TxnView) (batch : WriteBatch) :
    TxnView × Except Status Unit :=
  if batch = [] then (v, .ok ())
  else finishWrite (·.recordMutations batch) (v.storeWriteBatch v.dbIndex batch)

def writePlainStringBatchWithoutWatchPublish (v : TxnView) (batch : WriteBatch) :
    TxnView × Except Status Unit :=
  if batch = [] then (v, .ok ()) else v.storeWriteBatch v.dbIndex batch

/-- 条件が崩れていれば、何も書かずに `false` を返す。 -/
def compareAndWriteBatchIfNotEmpty (v : TxnView) (conditions : List CompareCondition)
    (batch : WriteBatch) : TxnView × Except Status Bool :=
  if batch = [] then (v, .ok true)
  else
    let batch := appendVersionOwnerMarkers v.layout v.dbIndex batch
    match v.storeCompareAndWriteBatch conditions batch with
    | (v', .ok ()) => (v'.recordMutations batch, .ok true)
    | (v', .error (.conditionFailed _)) | (v', .error (.writeConflict _)) => (v', .ok false)
    | (v', .error e) => (v', .error e)

end TxnView

/-- command が store に出す書き込み。 -/
inductive WriteCall
  | writeBatch (batch : WriteBatch)
  | writeBatchWithLogicalKeys (batch : WriteBatch) (logicalKeys : List Key)
  | writeExistingVersionBatch (batch : WriteBatch)
  | writeWithoutWatchPublish (batch : WriteBatch)
  | compareAndWriteBatch (conditions : List CompareCondition) (batch : WriteBatch)
  | storeWriteBatch (db : Nat) (batch : WriteBatch)
  | recordExternalKeyMutation (db : Nat) (key : Bytes)
open WriteCall

namespace WriteCall

def exec (v : TxnView) : WriteCall → TxnView
  | writeBatch batch => (v.writeBatchIfNotEmpty batch).1
  | writeBatchWithLogicalKeys batch keys => (v.writeBatchWithLogicalKeysIfNotEmpty batch keys).1
  | writeExistingVersionBatch batch => (v.writeExistingVersionBatchIfNotEmpty batch).1
  | writeWithoutWatchPublish batch => (v.writePlainStringBatchWithoutWatchPublish batch).1
  | compareAndWriteBatch conditions batch => (v.compareAndWriteBatchIfNotEmpty conditions batch).1
  | storeWriteBatch db batch => (v.storeWriteBatch db batch).1
  | recordExternalKeyMutation db key => v.recordExternalKeyMutation db key

def step (v : TxnView) (call : WriteCall) : Option TxnView := some (call.exec v)

def stageAll (layout : KeyEncodingLayout) (db : Nat) (snapshot : Tables)
    (calls : List WriteCall) : TxnView :=
  calls.foldl (fun v call => call.exec v) (transactionalView layout db snapshot)

end WriteCall

/-! ## commit -/

/--
`commit_transaction`。`pending` が空なら engine の transaction を捨てる。成功すれば、新しい table と公開する
変更を返す。
-/
def TxnView.commitTransaction (engine : TxnEngine) (v : TxnView) (tables : Tables) :
    Except Status (Tables × PendingMutations) :=
  if v.pending.keys = [] ∧ v.pending.dbs = [] then .ok (tables, ⟨[], []⟩)
  else
    match engine.commitMany tables v.staged with
    | .ok tables' => .ok (tables', v.pending)
    | .error e => .error e

/-! ## 記録される呼び出し -/

def WriteBatch.stageable (batch : WriteBatch) : Bool := batch.all fun op => op.writeType != .merge

/--
この呼び出しが変更を記録する条件。記録されるのは、main record、hash の field、zset の member と rank、JSON の
node に触れる batch と、呼び手が key を渡す呼び出しだけである。
-/
def WriteCall.notes (v : TxnView) : WriteCall → Bool
  | writeBatch batch | writeExistingVersionBatch batch =>
    batch.stageable && batch.any (·.isTracked v.layout v.dbIndex)
  | writeBatchWithLogicalKeys batch keys => batch.stageable && !batch.isEmpty && !keys.isEmpty
  | writeWithoutWatchPublish _ | storeWriteBatch _ _ => false
  | compareAndWriteBatch conditions batch =>
    batch.stageable && (conditions.all fun c => v.get v.dbIndex c.key == c.expected) &&
      batch.any (·.isTracked v.layout v.dbIndex)
  | recordExternalKeyMutation _ _ => true

def PendingMutations.Empty (p : PendingMutations) : Prop := p.keys = [] ∧ p.dbs = []

theorem stageBatchInTransaction_eq_ok_iff (batch : WriteBatch) :
    (stageBatchInTransaction batch).2 = .ok () ↔ batch.stageable = true := by
  induction batch with
  | nil => simp [stageBatchInTransaction, WriteBatch.stageable]
  | cons op batch ih =>
    simp only [WriteBatch.stageable] at ih ⊢
    cases hw : op.writeType <;> simp [stageBatchInTransaction, hw, ih]

theorem stageable_appendVersionOwnerMarkers (layout : KeyEncodingLayout) (db : Nat)
    (batch : WriteBatch) :
    (appendVersionOwnerMarkers layout db batch).stageable = batch.stageable := by
  obtain ⟨markers, he, hput, -⟩ := appendVersionOwnerMarkers_eq layout db batch
  have hm : markers.all (fun op => op.writeType != .merge) = true := by
    rw [List.all_eq_true]
    intro op hop
    simp [(hput op hop).1]
  rw [he]
  simp only [WriteBatch.stageable] at *
  rw [List.all_append, hm, Bool.and_true]

theorem isTracked_of_versionOwnerOfOp {layout : KeyEncodingLayout} {db : Nat} {op : BatchOp}
    (h : (versionOwnerOfOp layout db op).isSome) : op.isTracked layout db = true := by
  have hmain : op.writeType ≠ .rangeDelete ∧
      (layout.logicalMainKeyFromRawKey db op.key).isSome := by
    unfold versionOwnerOfOp at h
    cases hw : op.writeType <;> simp only [hw] at h <;> try cases h
    all_goals
      refine ⟨by simp, ?_⟩
      split at h
      · cases h
      · split at h
        · cases h
        · simpa using h
  have hs := logicalKeyOfOp_isSome layout db op hmain.1
  have hsome : (logicalKeyOfOp layout db op).isSome = true := by
    obtain ⟨key, hkey⟩ := Option.isSome_iff_exists.mp hmain.2
    unfold logicalKeyOfOp
    cases hw : op.writeType <;> simp_all
  unfold BatchOp.isTracked
  cases hw : op.writeType <;> simp_all

theorem any_isTracked_appendVersionOwnerMarkers (layout : KeyEncodingLayout) (db : Nat)
    (batch : WriteBatch) :
    (appendVersionOwnerMarkers layout db batch).any (·.isTracked layout db) =
      batch.any (·.isTracked layout db) := by
  obtain ⟨markers, he, -, hne⟩ := appendVersionOwnerMarkers_eq layout db batch
  rw [he, List.any_append]
  by_cases hm : markers = []
  · simp [hm]
  · obtain ⟨op, hop, hsome⟩ := hne hm
    have : batch.any (·.isTracked layout db) = true :=
      List.any_eq_true.mpr ⟨op, hop, isTracked_of_versionOwnerOfOp hsome⟩
    rw [this, Bool.true_or]

/-! ## 一回の呼び出しと `pending` -/

/-- この呼び出しが `pending` に積む変更。 -/
def WriteCall.recorded (v : TxnView) : WriteCall → PendingMutations
  | writeBatch batch =>
    if batch.stageable then v.collected (appendVersionOwnerMarkers v.layout v.dbIndex batch)
    else ⟨[], []⟩
  | writeBatchWithLogicalKeys batch keys =>
    if batch.stageable && !batch.isEmpty then v.knownKeys keys else ⟨[], []⟩
  | writeExistingVersionBatch batch => if batch.stageable then v.collected batch else ⟨[], []⟩
  | writeWithoutWatchPublish _ | storeWriteBatch _ _ => ⟨[], []⟩
  | compareAndWriteBatch conditions batch =>
    if batch.stageable && conditions.all fun c => v.get v.dbIndex c.key == c.expected then
      v.collected (appendVersionOwnerMarkers v.layout v.dbIndex batch)
    else ⟨[], []⟩
  | recordExternalKeyMutation db key => ⟨[(db, key)], []⟩

@[simp] theorem PendingMutations.append_empty (p : PendingMutations) : p.append ⟨[], []⟩ = p := by
  simp [append]

namespace TxnView

theorem finishWrite_storeWriteBatch (v : TxnView) (db : Nat) (batch : WriteBatch)
    (record : TxnView → TxnView) :
    (finishWrite record (v.storeWriteBatch db batch)).1 =
      if batch.stageable then record (v.storeWriteBatch db batch).1
      else (v.storeWriteBatch db batch).1 := by
  have hok := stageBatchInTransaction_eq_ok_iff batch
  simp only [storeWriteBatch]
  cases hr : (stageBatchInTransaction batch).2 with
  | ok u => rw [if_pos (hok.mp hr)]; rfl
  | error e =>
    have hn : ¬ batch.stageable = true := fun h => by
      rw [hok.mpr h] at hr
      cases hr
    rw [if_neg hn]
    rfl

variable {conditions : List CompareCondition} {batch : WriteBatch}

theorem compareAndWriteBatchIfNotEmpty_of_holds {v : TxnView} (hb : batch ≠ [])
    (hc : (conditions.all fun c => v.get v.dbIndex c.key == c.expected) = true) :
    (v.compareAndWriteBatchIfNotEmpty conditions batch).1 = (v.writeBatchIfNotEmpty batch).1 := by
  simp only [compareAndWriteBatchIfNotEmpty, writeBatchIfNotEmpty, if_neg hb,
    storeCompareAndWriteBatch, if_pos hc]
  cases v.storeWriteBatch v.dbIndex (appendVersionOwnerMarkers v.layout v.dbIndex batch) with
  | mk v' r =>
    cases r with
    | ok u => rfl
    | error e => cases e <;> rfl

theorem compareAndWriteBatchIfNotEmpty_of_not_holds {v : TxnView}
    (hc : ¬ (conditions.all fun c => v.get v.dbIndex c.key == c.expected) = true) :
    (v.compareAndWriteBatchIfNotEmpty conditions batch).1 = v := by
  unfold compareAndWriteBatchIfNotEmpty
  split
  · rfl
  · simp [storeCompareAndWriteBatch, hc]

end TxnView

namespace WriteCall

/-- 記録を含めて、`v` に積み足した view。 -/
def extendView (v : TxnView) (ops : List (Nat × TxnOp)) (muts : PendingMutations) : TxnView :=
  { v with staged := v.staged ++ ops, pending := v.pending.append muts }

variable (v : TxnView)

theorem extendView_nil : extendView v [] ⟨[], []⟩ = v := by simp [extendView]

theorem finishWrite_record_eq (db : Nat) (batch : WriteBatch)
    (muts : PendingMutations) :
    (TxnView.finishWrite (·.record muts) (v.storeWriteBatch db batch)).1 =
      extendView v ((stageBatchInTransaction batch).1.map (db, ·))
        (if batch.stageable then muts else ⟨[], []⟩) := by
  rw [finishWrite_storeWriteBatch]
  split
  · rfl
  · simp [TxnView.storeWriteBatch, extendView]

theorem exec_writeBatch_eq (batch : WriteBatch) :
    ∃ ops, (v.writeBatchIfNotEmpty batch).1 = extendView v ops ((writeBatch batch).recorded v) := by
  unfold writeBatchIfNotEmpty
  split
  · next hb =>
    refine ⟨[], ?_⟩
    rw [hb, recorded]
    exact (extendView_nil v).symm
  · have hr : ∀ b : WriteBatch, (finishWrite (·.recordMutations b)
        (v.storeWriteBatch v.dbIndex b)).1 =
        (finishWrite (·.record (v.collected b)) (v.storeWriteBatch v.dbIndex b)).1 := by
      intro b
      rw [finishWrite_storeWriteBatch, finishWrite_storeWriteBatch]
      rfl
    exact ⟨_, by rw [hr, finishWrite_record_eq, stageable_appendVersionOwnerMarkers]; rfl⟩

/-- **一回の呼び出しは、操作を積み足し、`recorded` だけを `pending` に積む。** -/
theorem exec_eq (call : WriteCall) :
    ∃ ops, call.exec v = extendView v ops (call.recorded v) := by
  cases call with
  | writeBatch batch => exact exec_writeBatch_eq v batch
  | writeBatchWithLogicalKeys batch keys =>
    simp only [exec, writeBatchWithLogicalKeysIfNotEmpty]
    split
    · next hb =>
      refine ⟨[], ?_⟩
      rw [hb, recorded]
      exact (extendView_nil v).symm
    · next hb =>
      have he : batch.isEmpty = false := by simpa using hb
      refine ⟨(stageBatchInTransaction
        (appendVersionOwnerMarkers v.layout v.dbIndex batch)).1.map (v.dbIndex, ·), ?_⟩
      have hf := finishWrite_record_eq v v.dbIndex
        (appendVersionOwnerMarkers v.layout v.dbIndex batch) (v.knownKeys keys)
      rw [stageable_appendVersionOwnerMarkers] at hf
      rw [recorded, he, Bool.not_false, Bool.and_true, ← hf, finishWrite_storeWriteBatch,
        finishWrite_storeWriteBatch]
      rfl
  | writeExistingVersionBatch batch =>
    simp only [exec, writeExistingVersionBatchIfNotEmpty]
    split
    · next hb =>
      refine ⟨[], ?_⟩
      rw [hb, recorded]
      exact (extendView_nil v).symm
    · refine ⟨(stageBatchInTransaction batch).1.map (v.dbIndex, ·), ?_⟩
      rw [recorded, ← finishWrite_record_eq, finishWrite_storeWriteBatch,
        finishWrite_storeWriteBatch]
      rfl
  | writeWithoutWatchPublish batch =>
    simp only [exec, writePlainStringBatchWithoutWatchPublish]
    split
    · exact ⟨[], (extendView_nil v).symm⟩
    · exact ⟨_, by simp [extendView, recorded]; rfl⟩
  | compareAndWriteBatch conditions batch =>
    simp only [exec, recorded]
    by_cases hc : (conditions.all fun c => v.get v.dbIndex c.key == c.expected) = true
    · rw [hc, Bool.and_true]
      by_cases hb : batch = []
      · refine ⟨[], ?_⟩
        subst hb
        exact (extendView_nil v).symm
      · rw [compareAndWriteBatchIfNotEmpty_of_holds hb hc]
        exact exec_writeBatch_eq v batch
    · refine ⟨[], ?_⟩
      rw [compareAndWriteBatchIfNotEmpty_of_not_holds hc,
        Bool.eq_false_of_not_eq_true hc, Bool.and_false]
      exact (extendView_nil v).symm
  | storeWriteBatch db batch =>
    exact ⟨_, by simp [exec, extendView, recorded]; rfl⟩
  | recordExternalKeyMutation db key =>
    exact ⟨[], by simp [exec, extendView, recorded, TxnView.recordExternalKeyMutation,
      record]⟩

theorem exec_pending (call : WriteCall) :
    (call.exec v).pending = v.pending.append (call.recorded v) := by
  obtain ⟨ops, he⟩ := exec_eq v call
  rw [he, extendView]

theorem exec_layout (call : WriteCall) : (call.exec v).layout = v.layout := by
  obtain ⟨ops, he⟩ := exec_eq v call
  rw [he, extendView]

theorem exec_snapshot (call : WriteCall) : (call.exec v).snapshot = v.snapshot := by
  obtain ⟨ops, he⟩ := exec_eq v call
  rw [he, extendView]

theorem exec_staged (call : WriteCall) : v.staged <+: (call.exec v).staged := by
  obtain ⟨ops, he⟩ := exec_eq v call
  rw [he, extendView]
  exact List.prefix_append _ _

theorem collected_empty_iff (batch : WriteBatch) :
    (v.collected batch).Empty ↔ batch.any (·.isTracked v.layout v.dbIndex) = false := by
  rw [List.any_eq_false]
  simp only [collected, PendingMutations.Empty, List.map_eq_nil_iff, Bool.not_eq_true]
  rw [← collectLogicalMutations_eq_nil_iff, Prod.ext_iff]

theorem recorded_empty_iff (call : WriteCall) :
    (call.recorded v).Empty ↔ call.notes v = false := by
  have hnil : PendingMutations.Empty ⟨[], []⟩ := ⟨rfl, rfl⟩
  cases call with
  | writeBatch batch | compareAndWriteBatch conditions batch =>
    simp only [recorded, notes]
    split <;> simp_all [collected_empty_iff, any_isTracked_appendVersionOwnerMarkers]
  | writeBatchWithLogicalKeys batch keys =>
    simp only [recorded, notes]
    split <;> simp_all [knownKeys, PendingMutations.Empty]
  | writeExistingVersionBatch batch =>
    simp only [recorded, notes]
    split <;> simp_all [collected_empty_iff]
  | writeWithoutWatchPublish batch | storeWriteBatch db batch => simpa [recorded, notes] using hnil
  | recordExternalKeyMutation db key => simp [recorded, notes, PendingMutations.Empty]

theorem exec_pending_empty (call : WriteCall) :
    (call.exec v).pending.Empty ↔ v.pending.Empty ∧ call.notes v = false := by
  rw [← recorded_empty_iff, exec_pending]
  simp only [PendingMutations.Empty, PendingMutations.append, List.append_eq_nil_iff]
  tauto

theorem foldl_exec_pending_empty (calls : List WriteCall) (v : TxnView) :
    (calls.foldl (fun v call => call.exec v) v).pending.Empty ↔
      v.pending.Empty ∧ ¬ Sometime step (fun v c => c.notes v = true) v calls := by
  induction calls generalizing v with
  | nil => simp [Sometime]
  | cons call calls ih =>
    rw [List.foldl_cons, ih, exec_pending_empty]
    simp [Sometime, step, and_assoc]

end WriteCall

/-! ## commit が残すもの -/

/--
**commit が積んだ書き込みを残すのは、呼び出しのどれかが変更を記録したか、適用しても table が変わらない
ときである。**
-/
theorem commitTransaction_keeps_staged_iff (engine : TxnEngine) (layout : KeyEncodingLayout)
    (db : Nat) (snapshot tables : Tables) (calls : List WriteCall) :
    (∀ tables' published, (stageAll layout db snapshot calls).commitTransaction engine tables =
            .ok (tables', published) →
          tables' = applyStaged (stageAll layout db snapshot calls).staged tables) ↔
      (Sometime step (fun v c => c.notes v = true)
          (transactionalView layout db snapshot) calls ∨
        applyStaged (stageAll layout db snapshot calls).staged tables = tables) := by
  have hp := foldl_exec_pending_empty calls (transactionalView layout db snapshot)
  rw [← stageAll] at hp
  generalize stageAll layout db snapshot calls = v at hp ⊢
  have hinit : (transactionalView layout db snapshot).pending.Empty := ⟨rfl, rfl⟩
  constructor
  · intro h
    by_cases hs : Sometime step (fun v c => c.notes v = true)
        (transactionalView layout db snapshot) calls
    · exact Or.inl hs
    · -- 何も記録されなければ、commit は table に触れずに成功する
      have hempty : v.pending.keys = [] ∧ v.pending.dbs = [] := hp.mpr ⟨hinit, hs⟩
      have hc : v.commitTransaction engine tables = .ok (tables, ⟨[], []⟩) := if_pos hempty
      exact Or.inr (h tables _ hc).symm
  · intro h tables' published hc
    unfold commitTransaction at hc
    split at hc
    · next hempty =>
      have hnot := (hp.mp hempty).2
      cases hc
      exact (h.resolve_left hnot).symm
    · split at hc
      · next hcommit =>
        cases hc
        exact engine.commit_applies hcommit
      · cases hc

/-! ## LSET -/

def listItemKey (db : Nat) (key : Key) (ver : Nat) (index : Int) : Bytes :=
  subKey .current db .listItem key.bytes ver (toBeI64 index)

def listSetBatch (db : Nat) (key : Key) (listMeta : ListMeta) (index : Int) (value : Bytes) :
    Except String WriteBatch :=
  match resolveListIndex listMeta index with
  | none => .error "ERR index out of range"
  | some storageIndex =>
    .ok (WriteBatch.put [] (listItemKey db key listMeta.version storageIndex) value)

/-- `ULST` 形式の list の main record。 -/
def encodeListMeta (listMeta : ListMeta) : Bytes :=
  listMetaMagic ++ toBe 8 listMeta.expireMs ++ toBe 8 listMeta.version ++
    toBeI64 listMeta.head ++ toBeI64 listMeta.tail

namespace LostListSet

def key : Key := ⟨[0x6b], by decide, by decide, by decide⟩

def listMeta : ListMeta := ⟨0, 7, 0, 1⟩

/-- 要素ひとつの list `k` だけを持つ db 0。 -/
def tables : Tables := fun db rawKey =>
  if db = 0 then
    if rawKey = key.bytes then some (encodeListMeta listMeta)
    else if rawKey = listItemKey 0 key 7 0 then some [0x61]
    else none
  else none

def engine : TxnEngine where
  commitMany tables ops := .ok (applyStaged ops tables)
  commit_applies := by
    intro tables ops tables' h
    cases h
    rfl

/-- `LSET k 0 b` -/
def calls : List WriteCall := [.writeBatch [⟨.put, listItemKey 0 key 7 0, [0x62]⟩]]

theorem committed_list_unchanged :
    listSetBatch 0 key listMeta 0 [0x62] = .ok [⟨.put, listItemKey 0 key 7 0, [0x62]⟩] ∧
    (stageAll .current 0 tables calls).commitTransaction engine tables = .ok (tables, ⟨[], []⟩) ∧
    tables 0 (listItemKey 0 key 7 0) = some [0x61] ∧
    applyStaged (stageAll .current 0 tables calls).staged tables 0
      (listItemKey 0 key 7 0) = some [0x62] := by
  refine ⟨rfl, ?_, by decide, by decide⟩
  exact if_pos (by decide)

end LostListSet

end Onedis.Store
