import Mathlib.Data.List.AList
import Onedis.Store.TtlIndex
import Onedis.Store.Transaction

/-!
# WATCH と変更の公開

WATCH は key ごとの版で変更を見つける。版は、監視されている key の変更が**公開**されるたびに時計の値に置き
換わる。公開は commit の後の別の step で、内容は batch の raw key を復号して得た logical key である。

* `watchVersionChanged_iff` — 変更が見つかるのは、ちょうど監視の後に commit された書き込みが key を報告したとき
-/

namespace Onedis.Store

open Infra Function KeyEncodingLayout WriteCall List

/-! ## 版の表 -/

/-- 見られている key の version と、見ている接続の数。 -/
structure WatchedKeyMutation where
  version : Nat
  watchers : Nat
  deriving DecidableEq, Repr

abbrev WatchKey := Nat × Bytes

/-- `KeyMutationTracker`。version は一つの clock から配る。 -/
structure KeyMutationTracker where
  clock : Nat
  keyVersions : AList (fun _ : WatchKey => WatchedKeyMutation)
  dbVersions : Nat → Option Nat
  keyWaiters : Nat
open KeyMutationTracker

namespace KeyMutationTracker

def registerKey (t : KeyMutationTracker) (k : WatchKey) : KeyMutationTracker :=
  match t.keyVersions.lookup k with
  | some e => { t with keyVersions := t.keyVersions.insert k { e with watchers := e.watchers + 1 } }
  | none => { t with keyVersions := t.keyVersions.insert k ⟨t.clock, 1⟩ }

def unregisterKey (t : KeyMutationTracker) (k : WatchKey) : KeyMutationTracker :=
  match t.keyVersions.lookup k with
  | some e =>
    if e.watchers > 1 then
      { t with keyVersions := t.keyVersions.insert k { e with watchers := e.watchers - 1 } }
    else { t with keyVersions := t.keyVersions.erase k }
  | none => t

def bumpKey (t : KeyMutationTracker) (k : WatchKey) : KeyMutationTracker :=
  match t.keyVersions.lookup k with
  | some e =>
    { t with
      clock := t.clock + 1
      keyVersions := t.keyVersions.insert k { e with version := t.clock + 1 } }
  | none => t

def bumpDb (t : KeyMutationTracker) (db : Nat) : KeyMutationTracker :=
  { t with
    clock := t.clock + 1
    dbVersions := update t.dbVersions db (some (t.clock + 1)) }

def hasObservers (t : KeyMutationTracker) : Bool :=
  !t.keyVersions.entries.isEmpty || t.keyWaiters != 0

def keyVersion (t : KeyMutationTracker) (k : WatchKey) : Nat :=
  ((t.keyVersions.lookup k).map (·.version)).getD 0

def dbVersion (t : KeyMutationTracker) (db : Nat) : Nat := (t.dbVersions db).getD 0

end KeyMutationTracker

/-! ## 公開される変更 -/

/-- 書き込みの知らせ。 -/
inductive Note
  | key (k : WatchKey)
  | db (dbIndex : Nat)
  deriving DecidableEq, Repr

/-- `k` の監視が反応する変更。 -/
def Note.touches (k : WatchKey) : Note → Bool
  | key k' => k' = k
  | db i => i = k.1

def KeyMutationTracker.publish (t : KeyMutationTracker) : Note → KeyMutationTracker
  | .key k => t.bumpKey k
  | .db i => t.bumpDb i

def PendingMutations.notes (p : PendingMutations) : List Note :=
  p.keys.dedup.map .key ++ p.dbs.dedup.map .db

/-! ## transaction の外の書き込み -/

section Direct

variable (mergeFn : Bytes → Option Bytes → Bytes → Option Bytes)

def BatchOp.applyDirect (op : BatchOp) (t : Bytes → Option Bytes) : Bytes → Option Bytes :=
  match op.writeType with
  | .put | .putBlobMedium | .putBlobExternal => update t op.key (some op.value)
  | .delete => update t op.key none
  | .merge => update t op.key (mergeFn op.key (t op.key) op.value)
  | .rangeDelete => (TxnOp.deleteRange op.key op.value).apply t

def applyBatchDirect (tables : Tables) (db : Nat) (batch : WriteBatch) : Tables :=
  update tables db
    (batch.foldl (fun t op => op.applyDirect mergeFn t) (tables db))

def WriteCall.direct (tables : Tables) (db : Nat) : WriteCall → Tables × List Note
  | writeBatch batch =>
    let batch' := appendVersionOwnerMarkers .current db batch
    (applyBatchDirect mergeFn tables db batch', collected batch')
  | writeBatchWithLogicalKeys batch keys =>
    if batch = [] then (tables, [])
    else
      (applyBatchDirect mergeFn tables db
          (appendVersionOwnerMarkers .current db batch),
        keys.map fun k => .key (db, current.mainKeyBytes db k.bytes))
  | writeExistingVersionBatch batch => (applyBatchDirect mergeFn tables db batch, collected batch)
  | writeWithoutWatchPublish batch => (applyBatchDirect mergeFn tables db batch, [])
  | compareAndWriteBatch conditions batch =>
    if conditions.all fun c => tables db c.key == c.expected then
      let batch' := appendVersionOwnerMarkers .current db batch
      (applyBatchDirect mergeFn tables db batch', collected batch')
    else (tables, [])
  | storeWriteBatch db' batch => (applyBatchDirect mergeFn tables db' batch, [])
  | recordExternalKeyMutation db' key => (tables, [.key (db', key)])
where
  collected (batch : WriteBatch) : List Note :=
    let m := collectLogicalMutations .current db batch
    PendingMutations.notes ⟨m.1.map (db, ·), m.2⟩

end Direct

/-! ## 状態と event -/

/-- 全体の状態。`failed` は、表に登録した後で失敗した WATCH の key である。 -/
structure WatchState where
  tables : Tables
  tracker : KeyMutationTracker
  unpublished : List Note
  watches : List (Nat × WatchKey)
  failed : List WatchKey
open WatchState

def WatchState.init (tables : Tables) : WatchState :=
  ⟨tables, ⟨0, ∅, fun _ => none, 0⟩, [], [], []⟩

/-- `k` を表に登録した WATCH の数。失敗したものは、接続の側に残らない。 -/
def WatchState.registered (s : WatchState) (k : WatchKey) : Nat :=
  s.watches.countP (·.2 = k) + s.failed.count k

/-- 一つの event。`watchFails` は、登録の後の期限の確認が storage の失敗で終わる WATCH である。 -/
inductive WatchEvent
  | write (db : Nat) (call : WriteCall)
  | commit (db : Nat) (snapshot : Tables) (calls : List WriteCall)
  | publish (note : Note)
  | skipPublish (note : Note)
  | watch (conn : Nat) (k : WatchKey)
  | watchFails (k : WatchKey)
  | release (conn : Nat) (k : WatchKey)
  | addWaiter
  | removeWaiter

def commitEffect (tables : Tables) (db : Nat) (snapshot : Tables) (calls : List WriteCall) :
    Tables × List Note :=
  let v := stageAll .current db snapshot calls
  if v.pending.keys = [] ∧ v.pending.dbs = [] then (tables, [])
  else (applyStaged v.staged tables, v.pending.notes)

namespace WatchEvent

variable (mergeFn : Bytes → Option Bytes → Bytes → Option Bytes)

def effect (s : WatchState) : WatchEvent → Tables × List Note
  | write db call => call.direct mergeFn s.tables db
  | commit db snapshot calls => commitEffect s.tables db snapshot calls
  | _ => (s.tables, [])

/-- 一つの出来事で移る。commit と公開は別の step である。 -/
def step (s : WatchState) (ev : WatchEvent) : Option WatchState :=
  match ev with
  | write _ _ | commit _ _ _ =>
    let e := ev.effect mergeFn s
    some { s with tables := e.1, unpublished := s.unpublished ++ e.2 }
  | publish note =>
    if note ∈ s.unpublished then
      some { s with tracker := s.tracker.publish note, unpublished := s.unpublished.erase note }
    else none
  | skipPublish note =>
    if note ∈ s.unpublished ∧ s.tracker.hasObservers = false then
      some { s with unpublished := s.unpublished.erase note }
    else none
  | watch conn k =>
    if (conn, k) ∈ s.watches then none
    else some { s with tracker := s.tracker.registerKey k, watches := (conn, k) :: s.watches }
  | watchFails k => some { s with tracker := s.tracker.registerKey k, failed := k :: s.failed }
  | release conn k =>
    if (conn, k) ∈ s.watches then
      some { s with tracker := s.tracker.unregisterKey k, watches := s.watches.erase (conn, k) }
    else none
  | addWaiter =>
    some { s with tracker := { s.tracker with keyWaiters := s.tracker.keyWaiters + 1 } }
  | removeWaiter =>
    some { s with tracker := { s.tracker with keyWaiters := s.tracker.keyWaiters - 1 } }

end WatchEvent

/-! ## どの書き込みが key を報告するか -/

def WriteCall.stageable : WriteCall → Bool
  | writeBatch batch | writeBatchWithLogicalKeys batch _ | writeExistingVersionBatch batch
  | writeWithoutWatchPublish batch | compareAndWriteBatch _ batch | storeWriteBatch _ batch =>
    batch.stageable
  | recordExternalKeyMutation _ _ => true

/--
db `db` の view での呼び出しが `k` を報告する条件。`read` は compare-and-write の条件を読む table である。
list、set、stream の sub record だけの batch は報告しない。
-/
def WriteCall.reports (read : Bytes → Option Bytes) (db : Nat) (k : WatchKey) :
    WriteCall → Bool
  | writeBatch batch | writeExistingVersionBatch batch =>
    decide (db = k.1) && batch.any (·.reports db k.2)
  | writeBatchWithLogicalKeys batch keys =>
    !batch.isEmpty && decide (db = k.1) && keys.any fun key => key.bytes == k.2
  | writeWithoutWatchPublish _ | storeWriteBatch _ _ => false
  | compareAndWriteBatch conditions batch =>
    (conditions.all fun c => read c.key == c.expected) && decide (db = k.1) &&
      batch.any (·.reports db k.2)
  | recordExternalKeyMutation db' key => decide ((db', key) = k)

/-- この event が commit する書き込みが `k` を報告する。 -/
def WatchEvent.Reports (k : WatchKey) (s : WatchState) : WatchEvent → Prop
  | write db call => call.reports (s.tables db) db k = true
  | commit db snapshot calls =>
    Sometime WriteCall.step
      (fun v c => (c.stageable && c.reports (v.get v.dbIndex) v.dbIndex k) = true)
      (transactionalView .current db snapshot) calls
  | _ => False

open Note

theorem PendingMutations.exists_notes_touches (p : PendingMutations) (k : WatchKey) :
    (∃ n ∈ p.notes, n.touches k = true) ↔ k ∈ p.keys ∨ k.1 ∈ p.dbs := by
  simp only [notes, mem_append, mem_map, mem_dedup]
  constructor
  · rintro ⟨n, ⟨k', hk, rfl⟩ | ⟨d, hd, rfl⟩, ht⟩
    · exact Or.inl (by simpa [touches] using (of_decide_eq_true ht) ▸ hk)
    · exact Or.inr (by simpa [touches] using (of_decide_eq_true ht) ▸ hd)
  · rintro (h | h)
    · exact ⟨.key k, Or.inl ⟨k, h, rfl⟩, by simp [touches]⟩
    · exact ⟨.db k.1, Or.inr ⟨k.1, h, rfl⟩, by simp [touches]⟩

theorem collected_touches (db : Nat) (batch : WriteBatch) (k : WatchKey) :
    (k ∈ (collectLogicalMutations .current db batch).1.map (db, ·) ∨
        k.1 ∈ (collectLogicalMutations .current db batch).2) ↔
      db = k.1 ∧ batch.any (·.reports db k.2) = true := by
  rw [← collectLogicalMutations_touches_iff]
  constructor
  · rintro (h | h)
    · obtain ⟨key, hk, rfl⟩ := mem_map.mp h
      exact ⟨rfl, Or.inl hk⟩
    · have he := eq_of_mem_collectLogicalMutations_dbs h
      exact ⟨he.symm, Or.inr (he ▸ h)⟩
  · rintro ⟨rfl, h | h⟩
    · exact Or.inl (mem_map.mpr ⟨k.2, h, rfl⟩)
    · exact Or.inr h

theorem knownKeys_touches (db : Nat) (keys : List Key) (k : WatchKey) :
    k ∈ keys.map (fun key => (db, current.mainKeyBytes db key.bytes)) ↔
      db = k.1 ∧ (keys.any fun key => key.bytes == k.2) = true := by
  simp only [mem_map, any_eq_true, beq_iff_eq, mainKeyBytes,
    current, dbPrefix, nil_append]
  constructor
  · rintro ⟨key, hmem, rfl⟩
    exact ⟨rfl, key, hmem, rfl⟩
  · rintro ⟨rfl, key, hmem, hk⟩
    exact ⟨key, hmem, by rw [hk]⟩

theorem touches_ite {c : Prop} [Decidable c] {p : PendingMutations} {k : WatchKey} :
    (k ∈ (if c then p else ⟨[], []⟩).keys ∨ k.1 ∈ (if c then p else ⟨[], []⟩).dbs) ↔
      c ∧ (k ∈ p.keys ∨ k.1 ∈ p.dbs) := by
  split <;> simp [*]

theorem WriteCall.recorded_touches {v : TxnView} (hl : v.layout = .current) (call : WriteCall)
    (k : WatchKey) :
    (k ∈ (call.recorded v).keys ∨ k.1 ∈ (call.recorded v).dbs) ↔
      (call.stageable && call.reports (v.get v.dbIndex) v.dbIndex k) = true := by
  have hcol : ∀ batch : WriteBatch,
      (k ∈ (v.collected batch).keys ∨ k.1 ∈ (v.collected batch).dbs) ↔
        v.dbIndex = k.1 ∧ batch.any (·.reports v.dbIndex k.2) = true := by
    intro batch
    simp only [TxnView.collected, hl]
    exact collected_touches v.dbIndex batch k
  cases call with
  | writeBatch batch =>
    rw [recorded, touches_ite, hcol, hl, any_reports_appendVersionOwnerMarkers]
    simp [stageable, reports]
  | writeBatchWithLogicalKeys batch keys =>
    have hk := knownKeys_touches v.dbIndex keys k
    rw [recorded, touches_ite]
    simp [stageable, reports, TxnView.knownKeys, hl, hk, and_assoc]
  | writeExistingVersionBatch batch =>
    rw [recorded, touches_ite, hcol]
    simp [stageable, reports]
  | writeWithoutWatchPublish batch | storeWriteBatch db batch => simp [recorded, reports]
  | compareAndWriteBatch conditions batch =>
    rw [recorded, touches_ite, hcol, hl, any_reports_appendVersionOwnerMarkers]
    simp [stageable, reports, and_assoc]
  | recordExternalKeyMutation db key => simp [recorded, stageable, reports, eq_comm]

theorem WriteCall.foldl_pending_touches (k : WatchKey) :
    ∀ (calls : List WriteCall) (v : TxnView), v.layout = .current →
      ((k ∈ (calls.foldl (fun v c => c.exec v) v).pending.keys ∨
          k.1 ∈ (calls.foldl (fun v c => c.exec v) v).pending.dbs) ↔
        (k ∈ v.pending.keys ∨ k.1 ∈ v.pending.dbs) ∨ Sometime step
            (fun v c => (c.stageable && c.reports (v.get v.dbIndex) v.dbIndex k) = true) v calls)
  | [], v, _ => by simp [Sometime]
  | call :: calls, v, hl => by
    rw [foldl_cons, foldl_pending_touches k calls _ ((exec_layout v call).trans hl)]
    simp only [Sometime, step, Option.some.injEq, exists_eq_left', exec_pending,
      PendingMutations.append, mem_append]
    rw [← recorded_touches hl call k]
    tauto

/-- **書き込みの event が公開すべき変更は、報告の条件と一致する。** -/
theorem WatchEvent.effect_touches
    (mergeFn : Bytes → Option Bytes → Bytes → Option Bytes) (s : WatchState) (ev : WatchEvent)
    (k : WatchKey) :
    (∃ n ∈ (ev.effect mergeFn s).2, n.touches k = true) ↔ ev.Reports k s := by
  have hcol : ∀ (db : Nat) (batch : WriteBatch),
      (∃ n ∈ direct.collected db batch, n.touches k = true) ↔
        db = k.1 ∧ batch.any (·.reports db k.2) = true := by
    intro db batch
    rw [← collected_touches]
    exact PendingMutations.exists_notes_touches _ k
  cases ev with
  | write db call =>
    simp only [effect, Reports]
    cases call with
    | writeBatch batch =>
      simp [direct, reports, hcol, any_reports_appendVersionOwnerMarkers]
    | writeBatchWithLogicalKeys batch keys =>
      have hk := knownKeys_touches db keys k
      simp only [mem_map] at hk
      simp only [direct, reports]
      split
      · simp_all
      · next hb =>
        simp only [mem_map, exists_exists_and_eq_and, touches, decide_eq_true_eq]
        simp_all
    | writeExistingVersionBatch batch => simp [direct, reports, hcol]
    | writeWithoutWatchPublish batch => simp [direct, reports]
    | compareAndWriteBatch conditions batch =>
      simp only [direct, reports]
      split
      · next hc =>
        rw [hcol, any_reports_appendVersionOwnerMarkers, hc]
        simp
      · next hc => simp [hc]
    | storeWriteBatch db batch => simp [direct, reports]
    | recordExternalKeyMutation db key => simp [direct, reports, touches]
  | commit db snapshot calls =>
    have ht := foldl_pending_touches k calls (transactionalView .current db snapshot)
      rfl
    simp only [effect, Reports, commitEffect]
    have hinit : ¬ (k ∈ (transactionalView .current db snapshot).pending.keys ∨
        k.1 ∈ (transactionalView .current db snapshot).pending.dbs) := by
      simp [transactionalView]
    rw [or_iff_right hinit, ← stageAll] at ht
    rw [← ht]
    split
    · next he => simp [he.1, he.2]
    · exact PendingMutations.exists_notes_touches _ k
  | _ => simp [effect, Reports]

/-! ## 表の不変条件 -/

/-- 表の不変条件。登録の数 `n` は表の `watchers` と一致し、時計はどの版よりも遅れない。 -/
structure TrackerInv (t : KeyMutationTracker) (n : WatchKey → Nat) : Prop where
  count : ∀ k, ((t.keyVersions.lookup k).map (·.watchers)).getD 0 = n k
  positive : ∀ k e, t.keyVersions.lookup k = some e → 0 < e.watchers
  keyLe : ∀ k e, t.keyVersions.lookup k = some e → e.version ≤ t.clock
  dbLe : ∀ d v, t.dbVersions d = some v → v ≤ t.clock

namespace TrackerInv

variable {t : KeyMutationTracker} {n n' : WatchKey → Nat} {k : WatchKey}

theorem insert (h : TrackerInv t n) {clock' : Nat} {e : WatchedKeyMutation}
    (hclock : t.clock ≤ clock') (hcount : e.watchers = n' k) (hother : ∀ k', k' ≠ k → n' k' = n k')
    (hpos : 0 < e.watchers) (hle : e.version ≤ clock') :
    TrackerInv { t with clock := clock', keyVersions := t.keyVersions.insert k e } n' := by
  have hlookup : ∀ k', (t.keyVersions.insert k e).lookup k' =
      if k' = k then some e else t.keyVersions.lookup k' := by
    intro k'
    by_cases hk : k' = k
    · subst hk
      rw [if_pos rfl, AList.lookup_insert]
    · rw [if_neg hk, AList.lookup_insert_ne hk]
  have hentry : ∀ k' e', (t.keyVersions.insert k e).lookup k' = some e' →
      0 < e'.watchers ∧ e'.version ≤ clock' := by
    intro k' e' he
    rw [hlookup] at he
    split at he
    · cases he
      exact ⟨hpos, hle⟩
    · exact ⟨h.positive k' e' he, (h.keyLe k' e' he).trans hclock⟩
  refine ⟨fun k' => ?_, fun k' e' he => (hentry k' e' he).1, fun k' e' he => (hentry k' e' he).2,
    fun d v hv => (h.dbLe d v hv).trans hclock⟩
  rw [hlookup]
  by_cases hk : k' = k
  · subst hk
    simpa using hcount
  · rw [if_neg hk, hother k' hk]
    exact h.count k'

theorem registerKey (h : TrackerInv t n) (hself : n' k = n k + 1)
    (hother : ∀ k', k' ≠ k → n' k' = n k') : TrackerInv (t.registerKey k) n' := by
  have hc := h.count k
  unfold KeyMutationTracker.registerKey
  cases hl : t.keyVersions.lookup k with
  | some e =>
    rw [hl, Option.map_some, Option.getD_some] at hc
    exact h.insert (Nat.le_refl _) (by rw [hself, ← hc]) hother (Nat.succ_pos _) (h.keyLe k e hl)
  | none =>
    rw [hl, Option.map_none, Option.getD_none] at hc
    exact h.insert (Nat.le_refl _) (by rw [hself, ← hc]) hother Nat.one_pos (Nat.le_refl _)

theorem exists_lookup (h : TrackerInv t n) (hpos : 0 < n k) :
    ∃ e, t.keyVersions.lookup k = some e ∧ e.watchers = n k := by
  have hc := h.count k
  cases hl : t.keyVersions.lookup k with
  | some e =>
    rw [hl] at hc
    exact ⟨e, rfl, hc⟩
  | none =>
    rw [hl, Option.map_none, Option.getD_none] at hc
    omega

theorem unregisterKey (h : TrackerInv t n) (hself : n' k + 1 = n k)
    (hother : ∀ k', k' ≠ k → n' k' = n k') : TrackerInv (t.unregisterKey k) n' := by
  have hpos : 0 < n k := by omega
  obtain ⟨e, hl, hc⟩ := h.exists_lookup hpos
  simp only [KeyMutationTracker.unregisterKey, hl]
  split
  · next hgt =>
    exact h.insert (Nat.le_refl _) (by simp only; omega) hother (Nat.sub_pos_of_lt hgt)
      (h.keyLe k e hl)
  · next hle =>
    have hlookup : ∀ k', (t.keyVersions.erase k).lookup k' =
        if k' = k then none else t.keyVersions.lookup k' := by
      intro k'
      by_cases hk : k' = k
      · subst hk
        rw [if_pos rfl, AList.lookup_erase]
      · rw [if_neg hk, AList.lookup_erase_ne hk]
    refine ⟨fun k' => ?_, fun k' e' he => ?_, fun k' e' he => ?_, h.dbLe⟩
    · rw [hlookup]
      by_cases hk : k' = k
      · subst hk
        simp only [if_true, Option.map_none, Option.getD_none]
        omega
      · rw [if_neg hk, hother k' hk]
        exact h.count k'
    · rw [hlookup] at he
      split at he
      · cases he
      · exact h.positive k' e' he
    · rw [hlookup] at he
      split at he
      · cases he
      · exact h.keyLe k' e' he

theorem publish (h : TrackerInv t n) (note : Note) : TrackerInv (t.publish note) n := by
  cases note with
  | key k =>
    simp only [KeyMutationTracker.publish, KeyMutationTracker.bumpKey]
    cases hl : t.keyVersions.lookup k with
    | none => exact h
    | some e =>
      have hc := h.count k
      rw [hl, Option.map_some, Option.getD_some] at hc
      exact h.insert (Nat.le_succ _) hc (fun _ _ => rfl) (h.positive k e hl) (Nat.le_refl _)
  | db d =>
    refine ⟨h.count, h.positive, fun k' e' he => Nat.le_succ_of_le (h.keyLe k' e' he),
      fun d' v hv => ?_⟩
    by_cases hd : d' = d
    · subst hd
      simp only [KeyMutationTracker.publish, KeyMutationTracker.bumpDb, update_self,
        Option.some.injEq] at hv
      exact Nat.le_of_eq hv.symm
    · simp only [KeyMutationTracker.publish, KeyMutationTracker.bumpDb,
        update_of_ne hd] at hv
      exact Nat.le_succ_of_le (h.dbLe d' v hv)

end TrackerInv

/-- 表は、登録した WATCH を数えている。 -/
def WatchInv (s : WatchState) : Prop := TrackerInv s.tracker s.registered

theorem WatchInv.init (tables : Tables) : WatchInv (WatchState.init tables) where
  count k := by simp [WatchState.init, registered]
  positive k e h := by simp [WatchState.init] at h
  keyLe k e h := by simp [WatchState.init] at h
  dbLe d v h := by simp [WatchState.init] at h

open TrackerInv

theorem countP_erase {watches : List (Nat × WatchKey)} {conn : Nat} {k : WatchKey}
    (hmem : (conn, k) ∈ watches) (k' : WatchKey) :
    (watches.erase (conn, k)).countP (·.2 = k') + (if k' = k then 1 else 0) =
      watches.countP (·.2 = k') := by
  have hpos : 0 < watches.countP (·.2 = k) := countP_pos_iff.mpr ⟨(conn, k), hmem, by simp⟩
  rw [List.countP_erase]
  by_cases hk : k' = k
  · subst hk
    simp only [hmem, decide_true, and_self, if_true]
    omega
  · simp [hk, Ne.symm hk]

theorem WatchState.registered_pos {s : WatchState} {conn : Nat} {k : WatchKey}
    (hmem : (conn, k) ∈ s.watches) : 0 < s.registered k :=
  Nat.add_pos_left (countP_pos_iff.mpr ⟨(conn, k), hmem, by simp⟩) _

variable {mergeFn : Bytes → Option Bytes → Bytes → Option Bytes}

/-- **どの event も表の不変条件を保つ。** -/
theorem WatchInv.step {s s' : WatchState} {ev : WatchEvent} (hi : WatchInv s)
    (hs : ev.step mergeFn s = some s') : WatchInv s' := by
  cases ev with
  | write db call | commit db snapshot calls => cases hs; exact hi
  | publish note =>
    obtain ⟨-, hs⟩ := Option.ite_none_right_eq_some.mp hs
    cases hs; exact publish hi note
  | skipPublish note =>
    obtain ⟨-, hs⟩ := Option.ite_none_right_eq_some.mp hs
    cases hs; exact hi
  | watch conn k =>
    obtain ⟨-, hs⟩ := Option.ite_none_left_eq_some.mp hs
    cases hs
    refine registerKey hi ?_ fun k' hk => ?_
    · simp only [registered, countP_cons_of_pos, decide_true]
      omega
    · simp [registered, Ne.symm hk]
  | watchFails k =>
    cases hs
    refine registerKey hi ?_ fun k' hk => ?_
    · simp only [registered, count_cons_self]
      omega
    · simp [registered, Ne.symm hk]
  | release conn k =>
    obtain ⟨hmem, hs⟩ := Option.ite_none_right_eq_some.mp hs
    cases hs
    refine unregisterKey hi ?_ fun k' hk => ?_
    · have := countP_erase hmem k
      simp only [registered, if_true] at this ⊢
      omega
    · have := countP_erase hmem k'
      simp only [registered, if_neg hk] at this ⊢
      omega
  | addWaiter | removeWaiter => cases hs; exact ⟨hi.count, hi.positive, hi.keyLe, hi.dbLe⟩

open WatchEvent

theorem WatchInv.run {tables : Tables} {s : WatchState} {evs : List WatchEvent}
    (h : run (WatchEvent.step mergeFn) (WatchState.init tables) evs = some s) :
    WatchInv s :=
  run_induction (fun _ _ _ hi _ hs => WatchInv.step hi hs) (WatchInv.init tables)
    (.of_forall fun _ _ => trivial) h

/--
**表は登録を過不足なく数える。** event がどう交錯しても、entry の `watchers` は、監視している接続の数と、登録の後で
失敗した WATCH の数の和である。失敗した WATCH の分は、監視がすべて解かれても残る。
-/
theorem watchers_exact {tables : Tables} {evs : List WatchEvent} {s : WatchState}
    (h : run (WatchEvent.step mergeFn) (init tables) evs = some s) (k : WatchKey) (n : Nat) :
    (s.tracker.keyVersions.lookup k).map (·.watchers) = some n ↔
      0 < n ∧ s.watches.countP (·.2 = k) + s.failed.count k = n := by
  have hinv : TrackerInv s.tracker s.registered := WatchInv.run h
  have hcount := hinv.count k
  rw [registered] at hcount
  rw [← hcount]
  cases he : s.tracker.keyVersions.lookup k with
  | none =>
    simp
    omega
  | some e =>
    have hpos := hinv.positive k e he
    simp only [Option.map_some, Option.some.injEq, Option.getD_some]
    exact ⟨fun hn => ⟨hn ▸ hpos, hn⟩, And.right⟩

/-- 二つの接続が監視し、三つ目の WATCH は失敗し、はじめの二つが解く。 -/
def allLeave : List WatchEvent :=
  [.watch 0 (0, []), .watch 1 (0, []), .watchFails (0, []), .release 0 (0, []), .release 1 (0, [])]

theorem one_entry_left : ∃ s, run (WatchEvent.step fun _ _ _ => none) (init fun _ _ => none)
    allLeave = some s ∧ s.watches = [] ∧
      (s.tracker.keyVersions.lookup (0, [])).map (·.watchers) = some 1 :=
  ⟨_, rfl, rfl, (@watchers_exact (fun _ _ _ => none) _ allLeave _ rfl _ 1).mpr (by decide)⟩

/-! ## 監視の開始と確認 -/

def expirationDeleteBatch (db : Nat) (key : Key) (hdr : MetaHeader) : WriteBatch :=
  (WriteBatch.delete [] (current.mainKeyBytes db key.bytes)).delete
    (ttlIndexKey hdr.expireMs db key.bytes)

def expiredHeader (table : Bytes → Option Bytes) (db : Nat) (key : Key) (now : Nat) :
    Option (Bytes × MetaHeader) :=
  match table (current.mainKeyBytes db key.bytes) with
  | none => none
  | some raw =>
    match decodeMetaHeader raw with
    | none => none
    | some hdr => if hdr.expireMs = 0 ∨ now < hdr.expireMs then none else some (raw, hdr)

namespace WatchState

variable (mergeFn : Bytes → Option Bytes → Bytes → Option Bytes)

def expireIfNeeded (s : WatchState) (db : Nat) (key : Key) (now : Nat) : WatchState :=
  match expiredHeader (s.tables db) db key now with
  | none => s
  | some (raw, hdr) =>
    let call := compareAndWriteBatch
      [⟨current.mainKeyBytes db key.bytes, some raw⟩]
      (expirationDeleteBatch db key hdr)
    let e := call.direct mergeFn s.tables db
    { s with
      tables := e.1
      tracker := if s.tracker.hasObservers then e.2.foldl publish s.tracker
        else s.tracker }

def versions (s : WatchState) (k : WatchKey) : Nat × Nat :=
  (s.tracker.keyVersion k, s.tracker.dbVersion k.1)

def watchVersionSnapshot (s : WatchState) (conn db : Nat) (key : Key) (now : Nat) :
    Option (WatchState × (Nat × Nat)) :=
  ((watch conn (db, key.bytes)).step mergeFn s).map fun s' =>
    let s'' := s'.expireIfNeeded mergeFn db key now
    (s'', s''.versions (db, key.bytes))

def watchVersionChanged (s : WatchState) (db : Nat) (key : Key) (snapshot : Nat × Nat)
    (now : Nat) : Bool :=
  let s' := s.expireIfNeeded mergeFn db key now
  s'.tracker.keyVersion (db, key.bytes) != snapshot.1 ||
    s'.tracker.dbVersion db != snapshot.2

end WatchState

/-! ## logical な値 -/

def Namespace.holdsData : Namespace → Bool
  | hashField | listItem | setMember | zsetMember | streamEntry => true
  | _ => false

/-- key の logical な値。main record と、その version の sub record からなる。 -/
def logicalValue (tables : Tables) (db : Nat) (key : Key) :
    Option (Bytes × (Namespace → Bytes → Option Bytes)) :=
  (tables db (current.mainKeyBytes db key.bytes)).map fun raw =>
    (raw, fun ns suffix =>
      if ns.holdsData then
        tables db (subKey .current db ns key.bytes
          (((decodeMetaHeader raw).map (·.version)).getD 0) suffix)
      else none)

def WatchEvent.ChangesValue (mergeFn : Bytes → Option Bytes → Bytes → Option Bytes)
    (db : Nat) (key : Key) (s : WatchState) (ev : WatchEvent) : Prop :=
  logicalValue (ev.effect mergeFn s).1 db key ≠ logicalValue s.tables db key

/-! ## 監視の間に成り立つこと -/

section Detection

variable {mergeFn : Bytes → Option Bytes → Bytes → Option Bytes}
variable {conn : Nat} {k : WatchKey} {snap : Nat × Nat}

def WatchState.Detected (k : WatchKey) (snap : Nat × Nat) (s : WatchState) : Prop :=
  s.versions k ≠ snap

/-- `k` に触れる変更が、公開を待っている。 -/
def WatchState.Awaiting (k : WatchKey) (s : WatchState) : Prop :=
  ∃ n ∈ s.unpublished, n.touches k = true

/-- 接続 `conn` が `k` を監視しており、版は控えた値から下がっていない。 -/
structure Watching (conn : Nat) (k : WatchKey) (snap : Nat × Nat) (s : WatchState) : Prop where
  inv : WatchInv s
  held : (conn, k) ∈ s.watches
  keyLe : snap.1 ≤ s.tracker.keyVersion k
  dbLe : snap.2 ≤ s.tracker.dbVersion k.1

variable {t : KeyMutationTracker} {e : WatchedKeyMutation}

theorem KeyMutationTracker.publish_keyVersion (hl : t.keyVersions.lookup k = some e) (note : Note) :
    (t.publish note).keyVersion k = if note = .key k then t.clock + 1 else t.keyVersion k := by
  cases note with
  | db d => rfl
  | key k' =>
    by_cases hk : k' = k
    · subst hk
      simp [publish, bumpKey, hl, keyVersion]
    · have hne : key k' ≠ key k := fun h => hk (key.inj h)
      rw [if_neg hne]
      simp only [publish, bumpKey]
      split
      · simp [keyVersion, AList.lookup_insert_ne (Ne.symm hk)]
      · rfl

theorem KeyMutationTracker.publish_dbVersion (t : KeyMutationTracker) (note : Note) (d : Nat) :
    (t.publish note).dbVersion d = if note = .db d then t.clock + 1 else t.dbVersion d := by
  cases note with
  | key k' =>
    rw [if_neg (fun h => Note.noConfusion h)]
    simp only [publish, bumpKey]
    split <;> rfl
  | db d' =>
    by_cases hd : d' = d
    · subst hd
      simp [publish, bumpDb, dbVersion]
    · have hne : Note.db d' ≠ Note.db d := fun h => hd (Note.db.inj h)
      rw [if_neg hne]
      simp [publish, bumpDb, dbVersion, update_of_ne (Ne.symm hd)]

variable {n : WatchKey → Nat}

theorem TrackerInv.keyVersion_le (h : TrackerInv t n) (k : WatchKey) :
    t.keyVersion k ≤ t.clock := by
  unfold keyVersion
  cases hl : t.keyVersions.lookup k with
  | none => exact Nat.zero_le _
  | some e => exact h.keyLe k e hl

theorem TrackerInv.dbVersion_le (h : TrackerInv t n) (d : Nat) : t.dbVersion d ≤ t.clock := by
  unfold dbVersion
  cases hd : t.dbVersions d with
  | none => exact Nat.zero_le _
  | some v => exact h.dbLe d v hd

variable {s : WatchState}

/-- **公開は、触れる監視をすべて起こし、ほかの監視を起こさない。** -/
theorem Watching.publish (h : Watching conn k snap s) (note : Note) (unpublished : List Note) :
    Watching conn k snap { s with tracker := s.tracker.publish note, unpublished := unpublished } ∧
      (WatchState.Detected k snap
          { s with tracker := s.tracker.publish note, unpublished := unpublished } ↔
        WatchState.Detected k snap s ∨ note.touches k = true) := by
  obtain ⟨e, hl, -⟩ := exists_lookup h.inv (registered_pos h.held)
  have hk := publish_keyVersion hl note
  have hd := publish_dbVersion s.tracker note k.1
  have hkc := keyVersion_le h.inv k
  have hdc := dbVersion_le h.inv k.1
  have hkle := h.keyLe
  have hdle := h.dbLe
  refine ⟨⟨TrackerInv.publish h.inv note, h.held, ?_, ?_⟩, ?_⟩
  · rw [hk]; split <;> omega
  · rw [hd]; split <;> omega
  · simp only [WatchState.Detected, versions, ne_eq, Prod.ext_iff, hk, hd]
    cases note with
    | key k' =>
      by_cases hkk : k' = k
      · subst hkk
        simp only [if_true, touches, decide_true, or_true, iff_true]
        omega
      · simp [touches, hkk]
    | db d =>
      by_cases hdd : d = k.1
      · subst hdd
        simp only [if_true, touches, decide_true, or_true, iff_true]
        omega
      · simp [touches, hdd]

theorem KeyMutationTracker.hasObservers_of_lookup (hl : t.keyVersions.lookup k = some e) :
    t.hasObservers = true := by
  have hmem : k ∈ t.keyVersions := AList.lookup_isSome.mp (by simp [hl])
  have hne : t.keyVersions.entries ≠ [] := by
    intro he
    have : k ∈ t.keyVersions.keys := AList.mem_keys.mp hmem
    simp [AList.keys, he, keys] at this
  simp [hasObservers, hne]

theorem WatchState.awaiting_erase {note : Note} (hmem : note ∈ s.unpublished)
    (tracker : KeyMutationTracker) :
    Awaiting k s ↔ note.touches k = true ∨ Awaiting k
        { s with tracker := tracker, unpublished := s.unpublished.erase note } := by
  constructor
  · rintro ⟨n, hn, ht⟩
    by_cases he : n = note
    · exact Or.inl (he ▸ ht)
    · exact Or.inr ⟨n, (mem_erase_of_ne he).mpr hn, ht⟩
  · rintro (ht | ⟨n, hn, ht⟩)
    · exact ⟨note, hmem, ht⟩
    · exact ⟨n, mem_of_mem_erase hn, ht⟩

theorem KeyMutationTracker.registerKey_keyVersion (hl : t.keyVersions.lookup k = some e)
    (k' : WatchKey) :
    (t.registerKey k').keyVersion k = t.keyVersion k := by
  by_cases hk : k = k'
  · subst hk
    simp [registerKey, keyVersion, hl]
  · unfold registerKey
    split <;> simp [keyVersion, AList.lookup_insert_ne hk]

theorem KeyMutationTracker.registerKey_dbVersion (t : KeyMutationTracker) (k' : WatchKey)
    (d : Nat) : (t.registerKey k').dbVersion d = t.dbVersion d := by
  unfold registerKey
  split <;> rfl

theorem KeyMutationTracker.unregisterKey_keyVersion {k' : WatchKey}
    (hl : t.keyVersions.lookup k = some e) (hw : k' = k → 1 < e.watchers) :
    (t.unregisterKey k').keyVersion k = t.keyVersion k := by
  by_cases hk : k = k'
  · subst hk
    simp [unregisterKey, keyVersion, hl, hw rfl]
  · unfold unregisterKey
    split
    · split
      · simp [keyVersion, AList.lookup_insert_ne hk]
      · simp [keyVersion, AList.lookup_erase_ne hk]
    · rfl

theorem KeyMutationTracker.unregisterKey_dbVersion (t : KeyMutationTracker) (k' : WatchKey)
    (d : Nat) : (t.unregisterKey k').dbVersion d = t.dbVersion d := by
  unfold unregisterKey
  split
  · split <;> rfl
  · rfl

theorem two_le_countP {watches : List (Nat × WatchKey)} {conn conn' : Nat}
    (hne : conn' ≠ conn) (h : (conn, k) ∈ watches)
    (h' : (conn', k) ∈ watches) :
    1 < watches.countP (·.2 = k) := by
  have hmem : (conn, k) ∈ watches.erase (conn', k) :=
    (mem_erase_of_ne (by simp [Ne.symm hne])).mpr h
  have hpos : 0 < (watches.erase (conn', k)).countP (·.2 = k) :=
    countP_pos_iff.mpr ⟨_, hmem, by simp⟩
  have herase := countP_erase h' k
  rw [if_pos rfl] at herase
  omega

theorem Watching.of_versions {s' : WatchState} (h : Watching conn k snap s) (hinv : WatchInv s')
    (hheld : (conn, k) ∈ s'.watches) (hv : s'.versions k = s.versions k) :
    Watching conn k snap s' ∧ (Detected k snap s' ↔ Detected k snap s) := by
  obtain ⟨hk, hd⟩ := Prod.ext_iff.mp hv
  refine ⟨⟨hinv, hheld, ?_, ?_⟩, ?_⟩
  · exact h.keyLe.trans_eq hk.symm
  · exact h.dbLe.trans_eq hd.symm
  · rw [Detected, hv, Detected]

/--
**一歩の補題。** 自分の監視を解かない event の後も監視は続き、変更が見つかったか公開を待つ状態になるのは、
前からそうだったか、その event が `k` を報告したときに限る。
-/
theorem Watching.step {s' : WatchState} {ev : WatchEvent} (h : Watching conn k snap s)
    (hs : ev.step mergeFn s = some s') (hkeep : ev ≠ .release conn k) :
    Watching conn k snap s' ∧ (s'.Detected k snap ∨ s'.Awaiting k ↔
        (s.Detected k snap ∨ s.Awaiting k) ∨ ev.Reports k s) := by
  have hinv := WatchInv.step h.inv hs
  obtain ⟨e, hl, hcount⟩ := exists_lookup h.inv (registered_pos h.held)
  have hquiet : ∀ (hw : (conn, k) ∈ s'.watches) (hv : s'.versions k = s.versions k)
      (hu : s'.unpublished = s.unpublished) (hr : ¬ ev.Reports k s),
      Watching conn k snap s' ∧ (s'.Detected k snap ∨ s'.Awaiting k ↔
        (s.Detected k snap ∨ s.Awaiting k) ∨ ev.Reports k s) := by
    intro hw hv hu hr
    obtain ⟨hw', hdet⟩ := h.of_versions hinv hw hv
    refine ⟨hw', ?_⟩
    rw [hdet, or_iff_left hr, WatchState.Awaiting, hu, WatchState.Awaiting]
  cases ev with
  | write db call | commit db snapshot calls =>
    cases hs
    obtain ⟨hw, hdet⟩ := h.of_versions hinv h.held rfl
    refine ⟨hw, ?_⟩
    rw [hdet, ← WatchEvent.effect_touches mergeFn s _ k]
    simp [WatchState.Awaiting, or_and_right, exists_or, or_assoc]
  | publish note =>
    obtain ⟨hmem, hs⟩ := Option.ite_none_right_eq_some.mp hs
    cases hs
    obtain ⟨hw, hdet⟩ := h.publish note (s.unpublished.erase note)
    refine ⟨hw, ?_⟩
    have hawait := awaiting_erase (k := k) hmem (s.tracker.publish note)
    rw [hdet, hawait]
    simp [WatchEvent.Reports, or_assoc]
  | skipPublish note =>
    -- 監視があるあいだ、公開は省かれない
    simp only [WatchEvent.step, hasObservers_of_lookup hl] at hs
    simp at hs
  | watch conn' k' =>
    obtain ⟨-, hs⟩ := Option.ite_none_left_eq_some.mp hs
    cases hs
    refine hquiet (mem_cons_of_mem _ h.held) ?_ rfl id
    simp [versions, registerKey_keyVersion hl, registerKey_dbVersion]
  | watchFails k' =>
    cases hs
    refine hquiet h.held ?_ rfl id
    simp [versions, registerKey_keyVersion hl, registerKey_dbVersion]
  | release conn' k' =>
    obtain ⟨hmem, hs⟩ := Option.ite_none_right_eq_some.mp hs
    cases hs
    have hne : (conn', k') ≠ (conn, k) := by
      intro he
      cases he
      exact hkeep rfl
    have hw : k' = k → 1 < e.watchers := by
      rintro rfl
      rw [hcount]
      exact Nat.lt_add_right _ (two_le_countP (fun he => hne (by rw [he])) h.held hmem)
    refine hquiet ((mem_erase_of_ne (Ne.symm hne)).mpr h.held) ?_ rfl id
    simp [versions, unregisterKey_keyVersion hl hw, unregisterKey_dbVersion]
  | addWaiter | removeWaiter => cases hs; exact hquiet h.held rfl rfl id

/-- **実行の補題。** 監視が解かれない実行の全体について。 -/
theorem Watching.run : ∀ {evs : List WatchEvent} {s s' : WatchState}, Watching conn k snap s →
    run (WatchEvent.step mergeFn) s evs = some s' →
    (∀ ev ∈ evs, ev ≠ .release conn k) →
    Watching conn k snap s' ∧ (s'.Detected k snap ∨ s'.Awaiting k ↔
        (s.Detected k snap ∨ s.Awaiting k) ∨
          Sometime (WatchEvent.step mergeFn) (fun s ev => ev.Reports k s) s evs)
  | [], s, s', h, hr, _ => by
    cases hr
    simp [h, Sometime]
  | ev :: evs, s, s', h, hr, hkeep => by
    obtain ⟨m, hs, hr⟩ := run_cons_eq_some.mp hr
    obtain ⟨hm, hstep⟩ := h.step hs (hkeep ev mem_cons_self)
    obtain ⟨hw, hrest⟩ := hm.run hr fun ev' hev => hkeep ev' (mem_cons_of_mem _ hev)
    refine ⟨hw, ?_⟩
    rw [hrest, hstep]
    simp [Sometime, hs, or_assoc]

/-! ## 期限切れの確認をはさむ -/

theorem recordFamily_mainKey (db : Nat) (key : Key) :
    recordFamily .current db (current.mainKeyBytes db key.bytes) = .main key.bytes := by
  have hpre : (current.internalPrefix db).isPrefixOf? key.bytes = none := by
    have hhead := key.headNotInternal
    cases hb : key.bytes with
    | nil => rfl
    | cons b bs =>
      have hne : b ≠ 0x80 := by simpa [hb] using hhead
      simp [current, internalPrefix, tableLocalInternalPrefix,
        isPrefixOf?, Ne.symm hne]
  show recordFamily .current db key.bytes = .main key.bytes
  unfold recordFamily
  rw [hpre]
  rfl

theorem Watching.foldl_publish : ∀ (notes : List Note) {s : WatchState}, Watching conn k snap s →
    Watching conn k snap { s with tracker := notes.foldl KeyMutationTracker.publish s.tracker } ∧
      (WatchState.Detected k snap
          { s with tracker := notes.foldl KeyMutationTracker.publish s.tracker } ↔
        s.Detected k snap ∨ ∃ n ∈ notes, n.touches k = true)
  | [], s, h => by simp [h]
  | note :: notes, s, h => by
    obtain ⟨hw, hdet⟩ := h.publish note s.unpublished
    obtain ⟨hw', hdet'⟩ := hw.foldl_publish notes
    refine ⟨hw', ?_⟩
    simp only [foldl_cons]
    rw [hdet', hdet]
    simp [or_assoc]

theorem expirationDeleteBatch_reports (db : Nat) (key : Key) (hdr : MetaHeader) :
    (expirationDeleteBatch db key hdr).any (·.reports db key.bytes) = true := by
  simp [expirationDeleteBatch, WriteBatch.delete, BatchOp.reports, recordFamily_mainKey,
    RecordFamily.reportedKey]

variable {db : Nat} {key : Key}

/-- **期限の確認は、期限が過ぎていたときにだけ監視を起こす。** -/
theorem Watching.expireIfNeeded (h : Watching conn (db, key.bytes) snap s)
    (mergeFn : Bytes → Option Bytes → Bytes → Option Bytes) (now : Nat) :
    Watching conn (db, key.bytes) snap (s.expireIfNeeded mergeFn db key now) ∧
      ((s.expireIfNeeded mergeFn db key now).Detected (db, key.bytes) snap ↔
        s.Detected (db, key.bytes) snap ∨
          (expiredHeader (s.tables db) db key now).isSome = true) := by
  unfold WatchState.expireIfNeeded
  cases he : expiredHeader (s.tables db) db key now with
  | none => simp [h]
  | some rh =>
    obtain ⟨raw, hdr⟩ := rh
    have hraw : s.tables db (current.mainKeyBytes db key.bytes) =
        some raw := by
      unfold expiredHeader at he
      split at he
      · cases he
      · next r hr =>
        split at he
        · cases he
        · split at he
          · cases he
          · cases he; exact hr
    obtain ⟨e, hl, -⟩ := exists_lookup h.inv (registered_pos h.held)
    have htouch := (effect_touches mergeFn s
      (.write db (.compareAndWriteBatch
        [⟨current.mainKeyBytes db key.bytes, some raw⟩]
        (expirationDeleteBatch db key hdr))) (db, key.bytes)).mpr (by
          simp only [WatchEvent.Reports, reports, expirationDeleteBatch_reports]
          simp [hraw])
    simp only [hasObservers_of_lookup hl, if_true, Option.isSome_some, or_true,
      iff_true]
    obtain ⟨hw, hdet⟩ := h.foldl_publish ((compareAndWriteBatch
        [⟨current.mainKeyBytes db key.bytes, some raw⟩]
        (expirationDeleteBatch db key hdr)).direct mergeFn s.tables db).2
    exact ⟨⟨hw.inv, hw.held, hw.keyLe, hw.dbLe⟩, hdet.mpr (Or.inr htouch)⟩

theorem Watching.of_snapshot {s₀ : WatchState} {now : Nat} (hi : WatchInv s)
    (h : s.watchVersionSnapshot mergeFn conn db key now = some (s₀, snap)) :
    Watching conn (db, key.bytes) snap s₀ ∧ snap = s₀.versions (db, key.bytes) := by
  unfold watchVersionSnapshot at h
  obtain ⟨s', hs, he⟩ := Option.map_eq_some_iff.mp h
  have hheld : (conn, (db, key.bytes)) ∈ s'.watches := by
    obtain ⟨-, hs⟩ := Option.ite_none_left_eq_some.mp hs
    cases hs
    exact mem_cons_self
  have hw : Watching conn (db, key.bytes) (s'.versions (db, key.bytes)) s' :=
    ⟨WatchInv.step hi hs, hheld, Nat.le_refl _, Nat.le_refl _⟩
  obtain ⟨hw', -⟩ := hw.expireIfNeeded mergeFn now
  cases he
  exact ⟨⟨hw'.inv, hw'.held, Nat.le_refl _, Nat.le_refl _⟩, rfl⟩

/--
**変更が見つかる条件。** 自分の監視が解かれず、`key` に触れる変更の公開がすべて済んでいるとする。変更が
見つかるのは、監視の前に commit された変更の公開がずれ込んだか、監視の後の書き込みが `key` を報告したか、確認の
時点で期限が過ぎているときに限る。
-/
theorem watchVersionChanged_iff {tables : Tables} {pre evs : List WatchEvent} {s₀ s₁ : WatchState}
    {now now' : Nat}
    (hpre : run (WatchEvent.step mergeFn) (init tables) pre = some s)
    (hsnap : s.watchVersionSnapshot mergeFn conn db key now = some (s₀, snap))
    (hrun : run (WatchEvent.step mergeFn) s₀ evs = some s₁)
    (hkeep : ∀ ev ∈ evs, ev ≠ .release conn (db, key.bytes))
    (hquiet : ¬ s₁.Awaiting (db, key.bytes)) :
    s₁.watchVersionChanged mergeFn db key snap now' = true ↔ s₀.Awaiting (db, key.bytes) ∨
      Sometime (WatchEvent.step mergeFn)
        (fun s ev => ev.Reports (db, key.bytes) s) s₀ evs ∨
      (expiredHeader (s₁.tables db) db key now').isSome = true := by
  obtain ⟨hw₀, hv⟩ := Watching.of_snapshot (WatchInv.run hpre) hsnap
  obtain ⟨hw₁, hrep⟩ := hw₀.run hrun hkeep
  obtain ⟨-, hexp⟩ := hw₁.expireIfNeeded mergeFn now'
  have hdet₀ : ¬ s₀.Detected (db, key.bytes) snap := fun hd => hd hv.symm
  rw [or_iff_left hquiet, or_iff_right hdet₀] at hrep
  have hchanged : s₁.watchVersionChanged mergeFn db key snap now' = true ↔
      (s₁.expireIfNeeded mergeFn db key now').Detected (db, key.bytes) snap := by
    simp only [watchVersionChanged, Detected, versions,
      Bool.or_eq_true, bne_iff_ne, ne_eq, Prod.ext_iff]
    tauto
  rw [hchanged, hexp, hrep, or_assoc]

/--
**logical な値の変更が見つかるのは、ちょうど書き込みが key を報告したときである。** list、set、stream の
sub record だけを変える書き込みは、値が変わっても見つからない。
-/
theorem watch_detects_change_iff {tables : Tables} {pre evs : List WatchEvent}
    {s s₀ s₁ : WatchState} {db : Nat} {key : Key} {now now' : Nat}
    (hpre : run (fun s ev => step mergeFn s ev) (init tables) pre =
      some s)
    (hsnap : s.watchVersionSnapshot mergeFn conn db key now = some (s₀, snap))
    (hrun : run (fun s ev => step mergeFn s ev) s₀ evs = some s₁)
    (hkeep : ∀ ev ∈ evs, ev ≠ .release conn (db, key.bytes))
    (hquiet : ¬ s₁.Awaiting (db, key.bytes)) :
    (Sometime (fun s ev => step mergeFn s ev)
        (fun s ev => ev.ChangesValue mergeFn db key s) s₀ evs →
      s₁.watchVersionChanged mergeFn db key snap now' = true) ↔
    (Sometime (fun s ev => step mergeFn s ev)
        (fun s ev => ev.ChangesValue mergeFn db key s) s₀ evs →
      s₀.Awaiting (db, key.bytes) ∨
      Sometime (fun s ev => step mergeFn s ev)
        (fun s ev => ev.Reports (db, key.bytes) s) s₀ evs ∨
      (expiredHeader (s₁.tables db) db key now').isSome = true) := by
  rw [watchVersionChanged_iff hpre hsnap hrun hkeep hquiet]

end Detection

namespace UnseenListSet

open LostListSet (key tables)

def keepValue : Bytes → Option Bytes → Bytes → Option Bytes := fun _ value _ => value

/-- `LSET k 0 b` -/
def listSet : WatchEvent := .write 0 (.writeBatch [⟨.put, listItemKey 0 key 7 0, [0x62]⟩])

/-- 接続 1 が `k` を監視した直後。 -/
def watched : WatchState :=
  (((init tables).watchVersionSnapshot keepValue 1 0 key 0).map (·.1)).getD
    (init tables)

def snapshot : Nat × Nat := watched.versions (0, key.bytes)

def written : WatchState := ((listSet.step keepValue watched).getD watched)

theorem listSet_changes_value : listSet.ChangesValue keepValue 0 key watched := by
  intro h
  have := congrArg (fun v => v.bind fun p => p.2 .listItem (toBeI64 0)) h
  revert this
  decide

theorem listSet_not_detected : (init tables).watchVersionSnapshot keepValue 1 0 key 0 =
      some (watched, snapshot) ∧
    listSet.step keepValue watched = some written ∧
    listSet.ChangesValue keepValue 0 key watched ∧
    written.unpublished = [] ∧
    written.watchVersionChanged keepValue 0 key snapshot 0 = false :=
  ⟨rfl, rfl, listSet_changes_value, rfl, by decide⟩

theorem listSet_iff_instance : ¬ (Sometime (fun s ev => WatchEvent.step keepValue s ev)
        (fun s ev => ev.ChangesValue keepValue 0 key s) watched [listSet] →
      watched.Awaiting (0, key.bytes) ∨
      Sometime (fun s ev => WatchEvent.step keepValue s ev)
        (fun s ev => ev.Reports (0, key.bytes) s) watched [listSet] ∨
      (expiredHeader (written.tables 0) 0 key 0).isSome = true) := by
  have hpre : run (WatchEvent.step keepValue) (init tables) [] = some (init tables) := rfl
  have hsnap : (init tables).watchVersionSnapshot keepValue 1 0 key 0 =
      some (watched, snapshot) := rfl
  have hrun : run (WatchEvent.step keepValue) watched [listSet] = some written := rfl
  have hkeep : ∀ ev ∈ [listSet], ev ≠ .release 1 (0, key.bytes) := by
    intro ev hev
    rw [mem_singleton.mp hev]
    exact WatchEvent.noConfusion
  have hquiet : ¬ written.Awaiting (0, key.bytes) := by
    rintro ⟨n, hn, -⟩
    exact absurd hn not_mem_nil
  rw [← watch_detects_change_iff hpre hsnap hrun hkeep hquiet]
  intro h
  exact absurd (h (Or.inl listSet_changes_value)) (by decide)

end UnseenListSet

end Onedis.Store
