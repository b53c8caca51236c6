import Onedis.Store.Watch

/-!
# MULTI / EXEC の手順

`server/transaction_run.rs` と `server/transaction_state_watch.rs` の写し。一つの接続が WATCH、MULTI、
予約、EXEC を行い、ほかの接続がその間に書き込む。EXEC は確認、実行、commit に分かれ、どの間にもほかの
commit が入りうる。commit は、自分が書いた raw key をほかの commit が書いていたときだけ失敗する。

* `exec_commit_respects_watch` — commit した EXEC までの間に、監視した key は変わっていない
* `exec_reads_current` — EXEC の読みは、受け取った時の table に自分の書き込みを重ねたものである
-/

namespace Onedis.Server

open Infra Store Function List Option

/-! ## engine の衝突検出 -/

def pointKey : Nat × TxnOp → Option (Nat × Bytes)
  | (db, .put key _) => some (db, key)
  | (db, .delete key) => some (db, key)
  | (_, .deleteRange _ _) => none

def pointKeys (staged : List (Nat × TxnOp)) : List (Nat × Bytes) := staged.filterMap pointKey

/-- 積んだ操作のどれかが raw key `raw` を書く。 -/
def WritesRaw (staged : List (Nat × TxnOp)) (raw : Nat × Bytes) : Prop :=
  raw ∈ pointKeys staged ∨
    ∃ start stop, (raw.1, TxnOp.deleteRange start stop) ∈ staged ∧
      (!bytesLt raw.2 start && bytesLt raw.2 stop) = true

/-- engine の衝突検出。`writes` は、transaction を開いた後にほかの commit が書いた raw key。 -/
structure ConflictOracle where
  conflicts : List (Nat × TxnOp) → List (Nat × Bytes) → Bool
  onlyOnWritten : ∀ {staged writes}, conflicts staged writes = true →
    ∃ raw ∈ writes, WritesRaw staged raw
  detects : ∀ {staged writes raw}, raw ∈ writes → raw ∈ pointKeys staged →
    conflicts staged writes = true

/-! ## 書き込みが触れる raw key -/

def batchKeys (db : Nat) (batch : WriteBatch) : List (Nat × Bytes) :=
  batch.filterMap fun op => if op.writeType = .rangeDelete then none else some (db, op.key)

def writtenByCall (tables : Tables) (db : Nat) : WriteCall → List (Nat × Bytes)
  | .writeBatch batch | .writeBatchWithLogicalKeys batch _ =>
    batchKeys db (appendVersionOwnerMarkers .current db batch)
  | .writeExistingVersionBatch batch | .writeWithoutWatchPublish batch => batchKeys db batch
  | .compareAndWriteBatch conditions batch =>
    if conditions.all fun c => tables db c.key == c.expected then
      batchKeys db (appendVersionOwnerMarkers .current db batch)
    else []
  | .storeWriteBatch db' batch => batchKeys db' batch
  | .recordExternalKeyMutation _ _ => []

def writtenByEvent (s : WatchState) : WatchEvent → List (Nat × Bytes)
  | .write db call => writtenByCall s.tables db call
  | .commit db snapshot calls =>
    let v := WriteCall.stageAll .current db snapshot calls
    if v.pending.keys = [] ∧ v.pending.dbs = [] then [] else pointKeys v.staged
  | _ => []

/-! ## 接続の状態 -/

/-- 待ち行列の command。実行時の view から書き込みの列を作る。 -/
structure QueuedCommand where
  calls : TxnView → List WriteCall

def QueuedCommand.exec (c : QueuedCommand) (v : TxnView) : TxnView :=
  (c.calls v).foldl (fun v call => call.exec v) v

def execAll (queue : List QueuedCommand) (v : TxnView) : TxnView :=
  queue.foldl (fun v c => c.exec v) v

/-- WATCH が控えた key と、そのときの二つの version。 -/
structure WatchedKey where
  dbIndex : Nat
  key : Key
  keyVersion : Nat
  dbVersion : Nat
  deriving DecidableEq

def WatchedKey.id (w : WatchedKey) : WatchKey := (w.dbIndex, w.key.bytes)

def WatchedKey.snapshot (w : WatchedKey) : Nat × Nat := (w.keyVersion, w.dbVersion)

/-- 接続の段階。EXEC は WATCH の検査、command の実行、commit に分かれる。 -/
inductive Phase
  | idle
  | queueing (view : TxnView) (queue : List QueuedCommand)
  | checking (view : TxnView) (queue : List QueuedCommand) (received : Tables)
      (remaining : List WatchedKey)
  | executing (view : TxnView) (received : Tables) (remaining : List QueuedCommand)

/-- EXEC の結末。 -/
inductive Outcome
  | committed
  | null
  | aborted
  deriving DecidableEq, Repr

/-- 接続の状態と store。`changed` は WATCH の後に変わった key の記録である。 -/
structure ServerState where
  store : WatchState
  watched : List WatchedKey
  phase : Phase
  dirty : Bool
  foreignWrites : List (Nat × Bytes)
  outcome : Option Outcome
  changed : Nat → Key → Prop
open ServerState

def ServerState.init (tables : Tables) : ServerState :=
  ⟨WatchState.init tables, [], .idle, false, [], none, fun _ _ => False⟩

def client : Nat := 0

/-- store が動いたことを `changed` に書き足す。 -/
def ServerState.setStore (s : ServerState) (store : WatchState) : ServerState :=
  { s with
    store := store
    changed := fun db key => s.changed db key ∨
      logicalValue store.tables db key ≠ logicalValue s.store.tables db key }

def ServerState.addWatch (s : ServerState) (db : Nat) (key : Key) (store : WatchState)
    (snapshot : Nat × Nat) : ServerState :=
  { s.setStore store with
    watched := s.watched ++ [⟨db, key, snapshot.1, snapshot.2⟩]
    changed := fun d k =>
      if d = db ∧ k = key then False else (s.setStore store).changed d k }

def releaseAll (mergeFn : Bytes → Option Bytes → Bytes → Option Bytes) (store : WatchState)
    (watched : List WatchedKey) : WatchState :=
  watched.foldl (fun st w => ((WatchEvent.release client w.id).step mergeFn st).getD st) store

/-- `clear_transaction_and_watches` -/
def ServerState.clear (mergeFn : Bytes → Option Bytes → Bytes → Option Bytes) (s : ServerState)
    (outcome : Option Outcome) : ServerState :=
  { s with
    store := releaseAll mergeFn s.store s.watched
    watched := []
    phase := .idle
    dirty := false
    outcome := outcome }

/-- 一歩ごとの出来事。`foreign` はほかの接続の書き込みである。 -/
inductive ServerEvent
  | foreign (ev : WatchEvent)
  | watch (db : Nat) (key : Key) (now : Nat)
  | unwatch
  | multi (db : Nat)
  | queue (command : QueuedCommand)
  | queueError
  | discard
  | exec
  | execReject
  | check (now : Nat)
  | runCommand
  | commit

def ownsWatch : WatchEvent → Bool
  | .watch conn _ | .release conn _ => conn = client
  | _ => false

section Step

variable (mergeFn : Bytes → Option Bytes → Bytes → Option Bytes) (engine : ConflictOracle)

def stepWatch (s : ServerState) (db : Nat) (key : Key) (now : Nat) : Option ServerState :=
  match s.phase with
  | .idle =>
    if s.watched.any fun w => decide (w.dbIndex = db ∧ w.key = key) then some s
    else
      (s.store.watchVersionSnapshot mergeFn client db key now).map fun r =>
        s.addWatch db key r.1 r.2
  | _ => none

/-- `watched_keys_modified` の一件。変わっていれば EXEC は null を返す。 -/
def stepCheck (s : ServerState) (now : Nat) : Option ServerState :=
  match s.phase with
  | .checking view queue received (w :: remaining) =>
    let s' := s.setStore (s.store.expireIfNeeded mergeFn w.dbIndex w.key now)
    if s.store.watchVersionChanged mergeFn w.dbIndex w.key w.snapshot now then
      some (s'.clear mergeFn (some .null))
    else some { s' with phase := .checking view queue received remaining }
  | .checking view queue received [] => some { s with phase := .executing view received queue }
  | _ => none

def stepCommit (s : ServerState) : Option ServerState :=
  match s.phase with
  | .executing view _ [] =>
    if view.pending.keys = [] ∧ view.pending.dbs = [] then some (s.clear mergeFn (some .committed))
    else if engine.conflicts view.staged s.foreignWrites then some (s.clear mergeFn (some .aborted))
    else
      let s' := { s with store := { s.store with
        tables := applyStaged view.staged s.store.tables
        unpublished := s.store.unpublished ++ view.pending.notes } }
      some (s'.clear mergeFn (some .committed))
  | _ => none

/-- 接続の一歩。 -/
def step (s : ServerState) : ServerEvent → Option ServerState
  | .foreign ev =>
    if ownsWatch ev then none
    else (ev.step mergeFn s.store).map fun store =>
      { s.setStore store with foreignWrites := s.foreignWrites ++ writtenByEvent s.store ev }
  | .watch db key now => stepWatch mergeFn s db key now
  | .unwatch =>
    match s.phase with
    | .idle => some (s.clear mergeFn s.outcome)
    | _ => none
  | .multi db =>
    match s.phase with
    | .idle => some { s with
        phase := .queueing (transactionalView .current db s.store.tables) []
        foreignWrites := [] }
    | _ => none
  | .queue command =>
    match s.phase with
    | .queueing view queue => some { s with phase := .queueing view (queue ++ [command]) }
    | _ => none
  | .queueError =>
    match s.phase with
    | .queueing _ _ => some { s with dirty := true }
    | _ => none
  | .discard =>
    match s.phase with
    | .queueing _ _ => some (s.clear mergeFn none)
    | _ => none
  | .exec =>
    match s.phase with
    | .queueing view queue =>
      if s.dirty then some (s.clear mergeFn (some .aborted))
      else some { s with phase := .checking view queue s.store.tables s.watched }
    | _ => none
  | .execReject =>
    match s.phase with
    | .queueing _ _ | .executing _ _ (_ :: _) => some (s.clear mergeFn (some .aborted))
    | _ => none
  | .check now => stepCheck mergeFn s now
  | .runCommand =>
    match s.phase with
    | .executing view received (c :: remaining) =>
      some { s with phase := .executing (c.exec view) received remaining }
    | _ => none
  | .commit => stepCommit mergeFn engine s

end Step

/-! ## 積まれた操作は増えるだけである -/

/-- `v'` は `v` に操作と記録を積み足した view である。 -/
structure Extends (v v' : TxnView) : Prop where
  staged : v.staged <+: v'.staged
  keys : v.pending.keys <+: v'.pending.keys
  dbs : v.pending.dbs <+: v'.pending.dbs

theorem Extends.refl (v : TxnView) : Extends v v := ⟨prefix_rfl, prefix_rfl, prefix_rfl⟩

theorem Extends.trans {u v w : TxnView} (h : Extends u v) (h' : Extends v w) : Extends u w :=
  ⟨h.staged.trans h'.staged, h.keys.trans h'.keys, h.dbs.trans h'.dbs⟩

theorem extends_exec (v : TxnView) (call : WriteCall) : Extends v (call.exec v) := by
  have hp := WriteCall.exec_pending v call
  refine ⟨WriteCall.exec_staged v call, ?_, ?_⟩
  · rw [hp]; exact prefix_append _ _
  · rw [hp]; exact prefix_append _ _

theorem extends_command (c : QueuedCommand) (v : TxnView) : Extends v (c.exec v) := by
  have hfold : ∀ (calls : List WriteCall) (v : TxnView),
      Extends v (calls.foldl (fun v call => call.exec v) v) := by
    intro calls
    induction calls with
    | nil => exact Extends.refl
    | cons call calls ih => exact fun v => (extends_exec v call).trans (ih _)
  exact hfold _ v

/-! ## これから書く raw key -/

/-- view が commit で書く raw key。何も記録していない transaction は書かない。 -/
def committedKeys (v : TxnView) : List (Nat × Bytes) :=
  if v.pending.keys = [] ∧ v.pending.dbs = [] then [] else pointKeys v.staged

theorem Extends.committedKeys_subset {v v' : TxnView} (h : Extends v v') {raw : Nat × Bytes}
    (hr : raw ∈ committedKeys v) : raw ∈ committedKeys v' := by
  unfold committedKeys at hr ⊢
  split at hr
  · cases hr
  · next hne =>
    have hne' : ¬ (v'.pending.keys = [] ∧ v'.pending.dbs = []) := by
      rintro ⟨hk, hd⟩
      exact hne ⟨prefix_nil.mp (hk ▸ h.keys), prefix_nil.mp (hd ▸ h.dbs)⟩
    rw [if_neg hne']
    exact (h.staged.sublist.filterMap pointKey).subset hr

def ServerState.plannedWrites (s : ServerState) : List (Nat × Bytes) :=
  match s.phase with
  | .idle => []
  | .queueing view queue | .checking view queue _ _ => committedKeys (execAll queue view)
  | .executing view _ remaining => committedKeys (execAll remaining view)

def ServerState.Meets (s : ServerState) (writes : List (Nat × Bytes)) : Prop :=
  ∃ raw ∈ writes, raw ∈ s.plannedWrites

/-- 監視 `w` の確認がまだ済んでいない。 -/
def ServerState.Unchecked (s : ServerState) (w : WatchedKey) : Prop :=
  match s.phase with
  | .idle | .queueing _ _ => True
  | .checking _ _ _ remaining => w ∈ remaining
  | .executing _ _ _ => False

/-! ## 監視が守られる条件 -/

/--
step の条件。監視中の key を変える書き込みは、確認の前に報告されるか、この接続が書く raw key を書く。
確認する時には、その key の変更の公開が済んでいる。
-/
def GuardsWatch (mergeFn : Bytes → Option Bytes → Bytes → Option Bytes) (s : ServerState) :
    ServerEvent → Prop
  | .foreign ev => ∀ w ∈ s.watched, ev.ChangesValue mergeFn w.dbIndex w.key s.store →
      (s.Unchecked w ∧ ev.Reports w.id s.store) ∨ s.Meets (writtenByEvent s.store ev)
  | .check _ =>
    match s.phase with
    | .checking _ _ _ (w :: _) => ¬ s.store.Awaiting w.id
    | _ => True
  | _ => True

/-! ## 期限切れの削除が触れるもの -/

section Frame

variable {mergeFn : Bytes → Option Bytes → Bytes → Option Bytes} {s : WatchState}

theorem expireIfNeeded_tables {db : Nat} {key : Key} {now d : Nat} {raw : Bytes}
    (h : d = db → raw ≠ key.bytes ∧ ∀ expireMs, raw ≠ ttlIndexKey expireMs d key.bytes) :
    (s.expireIfNeeded mergeFn db key now).tables d raw = s.tables d raw := by
  unfold WatchState.expireIfNeeded
  split
  · rfl
  · next raw' hdr _ =>
    simp only [WriteCall.direct]
    split
    · have hmark : appendVersionOwnerMarkers .current db
          (expirationDeleteBatch db key hdr) = expirationDeleteBatch db key hdr := rfl
      show applyBatchDirect mergeFn s.tables db (appendVersionOwnerMarkers .current db
        (expirationDeleteBatch db key hdr)) d raw = s.tables d raw
      rw [hmark, applyBatchDirect]
      by_cases hd : d = db
      · subst hd
        obtain ⟨hmain, httl⟩ := h rfl
        have hmain' : raw ≠ KeyEncodingLayout.current.mainKeyBytes d key.bytes := hmain
        rw [update_self]
        simp [expirationDeleteBatch, WriteBatch.delete, BatchOp.applyDirect,
          update_of_ne hmain', update_of_ne (httl _)]
      · rw [update_of_ne hd]
    · rfl

theorem logicalValue_congr {tables tables' : Tables} {db : Nat} {key : Key}
    (hmain : tables' db key.bytes = tables db key.bytes)
    (hsub : ∀ ns ver suffix, tables' db (subKey .current db ns key.bytes ver suffix)
      = tables db (subKey .current db ns key.bytes ver suffix)) :
    logicalValue tables' db key = logicalValue tables db key := by
  have hmk : KeyEncodingLayout.current.mainKeyBytes db key.bytes = key.bytes := rfl
  unfold logicalValue
  rw [hmk, hmain]
  simp [hsub]

/-- **期限切れの削除は、ほかの key の値を変えない。** -/
theorem expireIfNeeded_logicalValue {db d : Nat} {key k : Key} {now : Nat}
    (hne : ¬ (d = db ∧ k = key)) :
    logicalValue (s.expireIfNeeded mergeFn db key now).tables d k = logicalValue s.tables d k := by
  refine logicalValue_congr (expireIfNeeded_tables fun hd => ⟨?_, ?_⟩) ?_
  · intro he
    exact hne ⟨hd, Key.ext_bytes he⟩
  · -- 期限の索引の key には `0xff` が現れる
    intro expireMs he
    refine k.noMarker ?_
    rw [he]
    simp [ttlIndexKey, ttlIndexPrefix]
  · intro ns ver suffix
    have hhead : (subKey .current d ns k.bytes ver suffix).head? = some 0x80 := by
      rw [subKey_eq]
      rfl
    refine expireIfNeeded_tables fun _ => ⟨?_, ?_⟩
    · intro he
      exact key.headNotInternal (he ▸ hhead)
    · intro expireMs he
      rw [he] at hhead
      exact absurd hhead (by simp [ttlIndexKey, ttlIndexPrefix])

theorem step_tables {s s' : WatchState} {ev : WatchEvent} (h : ev.step mergeFn s = some s') :
    s'.tables = (ev.effect mergeFn s).1 := by
  cases ev with
  | write db call | commit db snapshot calls | watchFails k | addWaiter | removeWaiter =>
    cases h; rfl
  | publish note | skipPublish note | release conn k =>
    obtain ⟨-, h⟩ := ite_none_right_eq_some.mp h
    cases h; rfl
  | watch conn k =>
    obtain ⟨-, h⟩ := ite_none_left_eq_some.mp h
    cases h; rfl

theorem watching_expireIfNeeded (m : Bytes → Option Bytes → Bytes → Option Bytes) {conn : Nat}
    {k : WatchKey} {snap : Nat × Nat} (h : Watching conn k snap s) (db : Nat) (key : Key)
    (now : Nat) :
    Watching conn k snap (s.expireIfNeeded m db key now) ∧ (s.Detected k snap ∨ s.Awaiting k →
        (s.expireIfNeeded m db key now).Detected k snap ∨
        (s.expireIfNeeded m db key now).Awaiting k) := by
  unfold WatchState.expireIfNeeded
  split
  · exact ⟨h, id⟩
  · next raw hdr _ =>
    obtain ⟨e, hl, -⟩ := TrackerInv.exists_lookup h.inv (WatchState.registered_pos h.held)
    simp only [KeyMutationTracker.hasObservers_of_lookup hl, if_true]
    obtain ⟨hw, hdet⟩ := h.foldl_publish ((WriteCall.compareAndWriteBatch
      [⟨KeyEncodingLayout.current.mainKeyBytes db key.bytes, some raw⟩]
      (expirationDeleteBatch db key hdr)).direct m s.tables db).2
    refine ⟨⟨hw.inv, hw.held, hw.keyLe, hw.dbLe⟩, ?_⟩
    rintro (hd | ha)
    · exact Or.inl (hdet.mpr (Or.inl hd))
    · exact Or.inr ha

theorem watchInv_releaseAll (watched : List WatchedKey) {st : WatchState} (h : WatchInv st) :
    WatchInv (releaseAll mergeFn st watched) := by
  unfold releaseAll
  induction watched generalizing st with
  | nil => exact h
  | cons w watched ih =>
    rw [foldl_cons]
    refine ih ?_
    cases hs : (WatchEvent.release client w.id).step mergeFn st with
    | none => exact h
    | some st' => exact WatchInv.step h hs

end Frame

/-! ## 監視の不変条件 -/

def ServerState.Conflict (s : ServerState) : Prop := s.Meets s.foreignWrites

def ServerState.Covered (s : ServerState) (w : WatchedKey) : Prop :=
  s.Conflict ∨ (s.Unchecked w ∧ (s.store.Detected w.id w.snapshot ∨ s.store.Awaiting w.id))

/-- 実行を通じて成り立つこと。 -/
structure ExecInv (s : ServerState) : Prop where
  store : WatchInv s.store
  watching : ∀ w ∈ s.watched, Watching client w.id w.snapshot s.store
  remaining : ∀ view queue received remaining,
    s.phase = .checking view queue received remaining → ∀ w ∈ remaining, w ∈ s.watched
  covered : ∀ w ∈ s.watched, s.changed w.dbIndex w.key → s.Covered w

theorem ExecInv.init (tables : Tables) : ExecInv (init tables) where
  store := WatchInv.init tables
  watching w hw := absurd hw not_mem_nil
  remaining view queue received remaining h := by cases h
  covered w hw := absurd hw not_mem_nil

open ExecInv

section Invariant

variable {mergeFn : Bytes → Option Bytes → Bytes → Option Bytes} {engine : ConflictOracle}
variable {s s' : ServerState}

theorem ExecInv.clear (h : WatchInv s.store) (outcome : Option Outcome) :
    ExecInv (s.clear mergeFn outcome) where
  store := watchInv_releaseAll s.watched h
  watching w hw := absurd hw not_mem_nil
  remaining view queue received remaining he := by cases he
  covered w hw := absurd hw not_mem_nil

/-- 段階を進めても、書く raw key が減らず、未確認の監視が未確認のままなら、不変条件は保たれる。 -/
theorem ExecInv.setPhase (h : ExecInv s) {phase : Phase} {foreignWrites : List (Nat × Bytes)}
    (hrem : ∀ view queue received remaining,
      phase = .checking view queue received remaining → ∀ w ∈ remaining, w ∈ s.watched)
    (hplan : ∀ raw ∈ s.plannedWrites, raw ∈ s.foreignWrites → raw ∈ foreignWrites ∧
      raw ∈ plannedWrites { s with phase := phase })
    (hun : ∀ w ∈ s.watched, s.Unchecked w → Unchecked { s with phase := phase } w) :
    ExecInv { s with phase := phase, foreignWrites := foreignWrites } where
  store := h.store
  watching := h.watching
  remaining := hrem
  covered w hw hc := by
    rcases h.covered w hw hc with ⟨raw, hmem, hraw⟩ | ⟨hw', hd⟩
    · exact .inl ⟨raw, hplan raw hraw hmem⟩
    · exact .inr ⟨hun w hw hw', hd⟩

/-- **ほかの接続の event は、条件を満たす限り不変条件を保つ。** -/
theorem ExecInv.foreign {ev : WatchEvent} {store : WatchState} (h : ExecInv s)
    (hown : ownsWatch ev = false) (hs : ev.step mergeFn s.store = some store)
    (hok : GuardsWatch mergeFn s (.foreign ev)) :
    ExecInv { s.setStore store with
      foreignWrites := s.foreignWrites ++ writtenByEvent s.store ev } := by
  have hstep : ∀ w ∈ s.watched, Watching client w.id w.snapshot store ∧
      (store.Detected w.id w.snapshot ∨ store.Awaiting w.id ↔
        (s.store.Detected w.id w.snapshot ∨ s.store.Awaiting w.id) ∨ ev.Reports w.id s.store) := by
    intro w hw
    refine (h.watching w hw).step hs ?_
    rintro rfl
    simp [ownsWatch] at hown
  refine ⟨WatchInv.step h.store hs, fun w hw => (hstep w hw).1, h.remaining, ?_⟩
  intro w hw hc
  have hdet := (hstep w hw).2
  rcases hc with hc | hne
  · -- 前からの変更は、見つかる手段が失われない
    rcases h.covered w hw hc with ⟨raw, hmem, hplan⟩ | ⟨hun, hd⟩
    · exact Or.inl ⟨raw, mem_append_left _ hmem, hplan⟩
    · exact Or.inr ⟨hun, hdet.mpr (Or.inl hd)⟩
  · -- この event による変更は、step の条件が引き受ける
    have hch : ev.ChangesValue mergeFn w.dbIndex w.key s.store := by
      rw [step_tables hs] at hne
      exact hne
    rcases hok w hw hch with ⟨hun, hr⟩ | ⟨raw, hmem, hplan⟩
    · exact Or.inr ⟨hun, hdet.mpr (Or.inr hr)⟩
    · exact Or.inl ⟨raw, mem_append_right _ hmem, hplan⟩

theorem ExecInv.watch {db : Nat} {key : Key} {now : Nat} (h : ExecInv s)
    (hs : stepWatch mergeFn s db key now = some s') : ExecInv s' := by
  obtain ⟨store₀, watched, phase, dirty, foreignWrites, outcome, changed⟩ := s
  cases phase <;> try cases hs
  simp only [stepWatch] at hs
  split at hs
  · cases hs; exact h
  · next hnew =>
    obtain ⟨⟨store, snap⟩, hsnap, rfl⟩ := map_eq_some_iff.mp hs
    obtain ⟨hw₀, -⟩ := Watching.of_snapshot h.store hsnap
    have hne : ∀ w ∈ watched, ¬ (w.dbIndex = db ∧ w.key = key) := by
      intro w hw he
      exact hnew (any_eq_true.mpr ⟨w, hw, decide_eq_true he⟩)
    -- WATCH は、監視の登録と期限の確認の二段である
    obtain ⟨st, hst, he⟩ := map_eq_some_iff.mp hsnap
    obtain rfl : _ = store := congrArg Prod.fst he
    have hold : ∀ w ∈ watched, Watching client w.id w.snapshot
        (st.expireIfNeeded mergeFn db key now) ∧
        (store₀.Detected w.id w.snapshot ∨ store₀.Awaiting w.id →
          (st.expireIfNeeded mergeFn db key now).Detected w.id w.snapshot ∨
          (st.expireIfNeeded mergeFn db key now).Awaiting w.id) := by
      intro w hw
      obtain ⟨hwst, hiff⟩ := (h.watching w hw).step hst WatchEvent.noConfusion
      obtain ⟨hwex, hmono⟩ := watching_expireIfNeeded mergeFn hwst db key now
      exact ⟨hwex, fun hd => hmono (hiff.mpr (Or.inl hd))⟩
    refine ⟨hw₀.inv, forall_mem_concat (fun w hw => (hold w hw).1) hw₀, nofun, ?_⟩
    refine forall_mem_concat (fun w hw hc => ?_) fun hc => ?_
    · simp only [addWatch, setStore, if_neg (hne w hw)] at hc
      have hc' : changed w.dbIndex w.key := by
        refine hc.resolve_right fun hlv => hlv ?_
        rw [expireIfNeeded_logicalValue (hne w hw), step_tables hst]
        rfl
      rcases h.covered w hw hc' with ⟨raw, -, hplan⟩ | ⟨-, hd⟩
      · cases hplan
      · exact Or.inr ⟨trivial, (hold w hw).2 hd⟩
    · simp [addWatch] at hc

theorem expireIfNeeded_of_unchanged {st : WatchState} {w : WatchedKey} {now : Nat}
    (hw : Watching client w.id w.snapshot st)
    (hc : st.watchVersionChanged mergeFn w.dbIndex w.key w.snapshot now = false) :
    st.expireIfNeeded mergeFn w.dbIndex w.key now = st ∧ ¬ st.Detected w.id w.snapshot := by
  have hiff := (hw.expireIfNeeded mergeFn now).2
  have hnot : ¬ (st.expireIfNeeded mergeFn w.dbIndex w.key now).Detected w.id w.snapshot := by
    simp only [WatchState.watchVersionChanged, Bool.or_eq_false_iff, bne_eq_false_iff_eq] at hc
    intro hd
    exact hd (Prod.ext hc.1 hc.2)
  have hnone : expiredHeader (st.tables w.dbIndex) w.dbIndex w.key now = none := by
    rw [← not_isSome_iff_eq_none]
    intro hsome
    exact hnot (hiff.mpr (Or.inr hsome))
  refine ⟨?_, fun hd => hnot (hiff.mpr (Or.inl hd))⟩
  unfold WatchState.expireIfNeeded
  rw [hnone]

/-- **確認の step は、公開が済んでいる限り不変条件を保つ。** -/
theorem ExecInv.check {now : Nat} (h : ExecInv s) (hok : GuardsWatch mergeFn s (.check now))
    (hs : stepCheck mergeFn s now = some s') : ExecInv s' := by
  obtain ⟨store, watched, phase, dirty, foreignWrites, outcome, changed⟩ := s
  simp only [stepCheck] at hs
  split at hs
  · next view queue received w remaining =>
    have hw : w ∈ watched := h.remaining _ _ _ _ rfl w mem_cons_self
    split at hs
    · cases hs
      refine clear ?_ _
      exact (watching_expireIfNeeded mergeFn (h.watching w hw) w.dbIndex w.key now).1.inv
    · next hc =>
      obtain ⟨hst, hnd⟩ := expireIfNeeded_of_unchanged (h.watching w hw)
        (Bool.eq_false_of_not_eq_true hc)
      cases hs
      rw [hst]
      refine ⟨h.store, h.watching, ?_, ?_⟩
      · intro _ _ _ remaining' he w' hw'
        cases he
        exact h.remaining _ _ _ _ rfl w' (mem_cons_of_mem _ hw')
      · intro w' hw' hc'
        rcases h.covered w' hw' (hc'.resolve_right fun hne => hne rfl) with hconf | ⟨hun, hd⟩
        · exact Or.inl hconf
        · -- いま確認した監視なら、見つかっていないことと公開が済んでいることに反する
          rcases mem_cons.mp hun with rfl | hun
          · exact absurd hd (not_or_intro hnd hok)
          · exact Or.inr ⟨hun, hd⟩
  · cases hs
    exact h.setPhase nofun (fun raw hraw hmem => ⟨hmem, hraw⟩) nofun
  · cases hs

theorem ExecInv.commit (h : ExecInv s) (hs : stepCommit mergeFn engine s = some s') :
    ExecInv s' := by
  unfold stepCommit at hs
  split at hs
  · split at hs
    · cases hs; exact clear h.store _
    · split at hs
      · cases hs; exact clear h.store _
      · cases hs
        refine clear ?_ _
        exact ⟨h.store.count, h.store.positive, h.store.keyLe, h.store.dbLe⟩
  · cases hs

/-- **一歩の補題。** 条件を満たす step は、監視の不変条件を保つ。 -/
theorem ExecInv.step {ev : ServerEvent} (h : ExecInv s) (hok : GuardsWatch mergeFn s ev)
    (hs : Server.step mergeFn engine s ev = some s') : ExecInv s' := by
  obtain ⟨store, watched, phase, dirty, foreignWrites, outcome, changed⟩ := s
  cases ev with
  | foreign ev =>
    obtain ⟨hown, hs⟩ := ite_none_left_eq_some.mp hs
    obtain ⟨store, hst, rfl⟩ := map_eq_some_iff.mp hs
    exact h.foreign (Bool.eq_false_of_not_eq_true hown) hst hok
  | watch db key now => exact h.watch hs
  | unwatch | discard =>
    cases phase <;> cases hs
    exact clear h.store _
  | multi db =>
    cases phase <;> cases hs
    exact h.setPhase nofun nofun fun _ _ _ => trivial
  | queue command =>
    cases phase <;> cases hs
    refine h.setPhase nofun (fun raw hraw hmem => ⟨hmem, ?_⟩) fun _ _ _ => trivial
    -- 予約が増えても、書く raw key は減らない
    simp only [plannedWrites, execAll, foldl_append]
    exact (extends_command command _).committedKeys_subset hraw
  | queueError =>
    cases phase <;> cases hs
    exact ⟨h.store, h.watching, h.remaining, h.covered⟩
  | exec =>
    cases phase <;> try cases hs
    simp only [Server.step] at hs
    split at hs
    · cases hs; exact clear h.store _
    · cases hs
      refine h.setPhase ?_ (fun raw hraw hmem => ⟨hmem, hraw⟩) fun _ hw _ => hw
      intro _ _ _ _ he w hw
      cases he
      exact hw
  | execReject =>
    simp only [Server.step] at hs
    split at hs
    · cases hs; exact clear h.store _
    · cases hs; exact clear h.store _
    · cases hs
  | check now => exact h.check hok hs
  | runCommand =>
    simp only [Server.step] at hs
    split at hs
    · cases hs
      exact h.setPhase nofun (fun raw hraw hmem => ⟨hmem, hraw⟩) fun _ _ => id
    · cases hs
  | commit => exact h.commit hs

/--
**監視は、条件を満たすどの実行でも守られる。** EXEC が予約を commit したなら、監視していたどの key も、
WATCH からその commit までの間にほかの commit で変わっていない。
-/
theorem exec_commit_respects_watch (mergeFn : Bytes → Option Bytes → Bytes → Option Bytes)
    (engine : ConflictOracle) (tables : Tables) (evs : List ServerEvent) (s s' : ServerState)
    (hrun : run (Server.step mergeFn engine) (ServerState.init tables) evs = some s)
    (hok : Obeys (Server.step mergeFn engine) (GuardsWatch mergeFn) (ServerState.init tables) evs)
    (hs : Server.step mergeFn engine s .commit = some s')
    (hout : s'.outcome = some .committed) :
    ∀ w ∈ s.watched, ¬ s.changed w.dbIndex w.key := by
  have hinv : ExecInv s :=
    run_induction (fun _ _ _ hi ho hst => ExecInv.step hi ho hst) (ExecInv.init tables) hok hrun
  intro w hw hc
  obtain ⟨store, watched, phase, dirty, foreignWrites, outcome, changed⟩ := s
  simp only [Server.step, stepCommit] at hs
  split at hs
  · next view received =>
    rcases hinv.covered w hw hc with ⟨raw, hmem, hplan⟩ | ⟨⟨⟩, -⟩
    -- 重なりがあれば engine が衝突を見つけ、commit は失敗する
    have hplan' : raw ∈ committedKeys view := hplan
    unfold committedKeys at hplan'
    by_cases hempty : view.pending.keys = [] ∧ view.pending.dbs = []
    · rw [if_pos hempty] at hplan'
      cases hplan'
    · rw [if_neg hempty] at hplan'
      rw [if_neg hempty, if_pos (engine.detects hmem hplan')] at hs
      cases hs
      cases hout
  · cases hs

end Invariant

/-! ## 確認の後に入る書き込み -/

namespace LateWrite

def engine : ConflictOracle where
  conflicts staged writes := writes.any fun raw => (pointKeys staged).contains raw
  onlyOnWritten := by
    intro staged writes h
    obtain ⟨raw, hmem, hc⟩ := any_eq_true.mp h
    exact ⟨raw, hmem, Or.inl (by simpa using hc)⟩
  detects := by
    intro staged writes raw hmem hp
    exact any_eq_true.mpr ⟨raw, hmem, by simpa using hp⟩

def keepValue : Bytes → Option Bytes → Bytes → Option Bytes := fun _ value _ => value

def tables : Tables := fun _ _ => none

/-- 監視する key `k`。 -/
def watchedKey : Key := LostListSet.key

/-- 予約した command が書く key `o`。 -/
def otherKey : Key := ⟨[0x6f], by decide, by decide, by decide⟩

/-- ほかの接続が書く key `p`。 -/
def thirdKey : Key := ⟨[0x70], by decide, by decide, by decide⟩

def encodeString (text : Bytes) : Bytes := toBe 8 0 ++ toBe 8 0 ++ TypeTag.string.code :: text

def setCall (key : Key) (text : Bytes) : WriteCall :=
  .writeBatch [⟨.put, key.bytes, encodeString text⟩]

/-- `SET o 1` -/
def setOther : QueuedCommand := ⟨fun _ => [setCall otherKey [0x31]]⟩

def untilChecked : List ServerEvent :=
  [.watch 0 watchedKey 0, .multi 0, .queue setOther, .exec, .check 0, .check 0]

/-- 確認の後に、ほかの接続が `SET k 2` を commit し、公開する。 -/
def lateWrite : List ServerEvent :=
  untilChecked ++ [.foreign (.write 0 (setCall watchedKey [0x32])),
    .foreign (.publish (.key (0, watchedKey.bytes))), .runCommand]

/-- 確認の後に、ほかの接続が監視していない key `p` を書き、公開する。 -/
def undisturbed : List ServerEvent :=
  untilChecked ++ [.foreign (.write 0 (setCall thirdKey [0x32])),
    .foreign (.publish (.key (0, thirdKey.bytes))), .runCommand]

def stateAfter (evs : List ServerEvent) : ServerState :=
  (run (step keepValue engine) (init tables) evs).getD (init tables)

def committedAfter (evs : List ServerEvent) : ServerState :=
  (step keepValue engine (stateAfter evs) .commit).getD (stateAfter evs)

theorem changed_by_lateWrite : (stateAfter lateWrite).changed 0 watchedKey := by
  refine Or.inl (Or.inr fun h => ?_)
  have := congrArg isSome h
  revert this
  decide

theorem commit_after_lateWrite : run (step keepValue engine) (init tables) lateWrite =
      some (stateAfter lateWrite) ∧
    step keepValue engine (stateAfter lateWrite) .commit = some (committedAfter lateWrite) ∧
    (committedAfter lateWrite).outcome = some .committed ∧
    ∃ w ∈ (stateAfter lateWrite).watched, (stateAfter lateWrite).changed w.dbIndex w.key :=
  ⟨rfl, rfl, rfl, ⟨0, watchedKey, 0, 0⟩, mem_singleton.mpr rfl, changed_by_lateWrite⟩

theorem undisturbed_obeys :
    Obeys (step keepValue engine) (GuardsWatch keepValue) (init tables) undisturbed := by
  have hquiet :
      ¬ (stateAfter [.watch 0 watchedKey 0, .multi 0, .queue setOther, .exec]).store.Awaiting
      (0, watchedKey.bytes) := by
    rintro ⟨n, hn, -⟩
    exact absurd hn not_mem_nil
  refine ⟨trivial, fun s₁ h₁ => ⟨trivial, fun s₂ h₂ => ⟨trivial, fun s₃ h₃ => ⟨trivial,
    fun s₄ h₄ => ?_⟩⟩⟩⟩
  cases h₁; cases h₂; cases h₃; cases h₄
  refine ⟨hquiet, fun s₅ h₅ => ?_⟩
  cases h₅
  refine ⟨trivial, fun s₆ h₆ => ?_⟩
  cases h₆
  refine ⟨fun w hw hchanges => ?_, fun s₇ h₇ => ?_⟩
  · obtain rfl := mem_singleton.mp hw
    exact absurd rfl hchanges
  · cases h₇
    refine ⟨fun w _ hchanges => absurd rfl hchanges, fun s₈ h₈ => ?_⟩
    cases h₈
    exact ⟨trivial, fun _ _ => trivial⟩

theorem undisturbed_respects_watch : (stateAfter undisturbed).watched = [⟨0, watchedKey, 0, 0⟩] ∧
    ∀ w ∈ (stateAfter undisturbed).watched, ¬ (stateAfter undisturbed).changed w.dbIndex w.key :=
  ⟨rfl, exec_commit_respects_watch keepValue engine tables undisturbed (stateAfter undisturbed)
    (committedAfter undisturbed) rfl undisturbed_obeys rfl rfl⟩

end LateWrite

/-! ## EXEC の読み -/

section Reads

variable {mergeFn : Bytes → Option Bytes → Bytes → Option Bytes} {engine : ConflictOracle}

theorem command_snapshot (c : QueuedCommand) (v : TxnView) : (c.exec v).snapshot = v.snapshot := by
  have hfold : ∀ (calls : List WriteCall) (v : TxnView),
      (calls.foldl (fun v call => call.exec v) v).snapshot = v.snapshot := by
    intro calls
    induction calls with
    | nil => exact fun _ => rfl
    | cons call calls ih =>
      intro v
      rw [foldl_cons, ih, WriteCall.exec_snapshot]
  exact hfold _ v

/-- step の条件。MULTI から EXEC を受け取るまで、予約した command の読む record（`reads`）は変わらない。 -/
def KeepsReads (mergeFn : Bytes → Option Bytes → Bytes → Option Bytes)
    (reads : Nat → Bytes → Prop) (s : ServerState) : ServerEvent → Prop
  | .foreign ev =>
    match s.phase with
    | .queueing _ _ => ∀ db raw, reads db raw →
        (ev.effect mergeFn s.store).1 db raw = s.store.tables db raw
    | _ => True
  | _ => True

/-- view の snapshot が、EXEC を受け取った時の table と `reads` の上で一致する。 -/
def SnapshotCurrent (reads : Nat → Bytes → Prop) (s : ServerState) : Prop :=
  match s.phase with
  | .idle => True
  | .queueing view _ => ∀ db raw, reads db raw →
      view.snapshot db raw = s.store.tables db raw
  | .checking view _ received _ | .executing view received _ => ∀ db raw, reads db raw →
      view.snapshot db raw = received db raw

theorem SnapshotCurrent.step {reads : Nat → Bytes → Prop} {s s' : ServerState} {ev : ServerEvent}
    (h : SnapshotCurrent reads s) (hok : KeepsReads mergeFn reads s ev)
    (hs : Server.step mergeFn engine s ev = some s') : SnapshotCurrent reads s' := by
  have hclear : ∀ (t : ServerState) (outcome : Option Outcome),
      SnapshotCurrent reads (t.clear mergeFn outcome) := fun _ _ => trivial
  obtain ⟨store, watched, phase, dirty, foreignWrites, outcome, changed⟩ := s
  cases ev with
  | foreign ev =>
    obtain ⟨-, hs⟩ := ite_none_left_eq_some.mp hs
    obtain ⟨store', hst, rfl⟩ := map_eq_some_iff.mp hs
    cases phase with
    | idle => trivial
    | queueing view queue =>
      intro db raw hr
      exact (h db raw hr).trans ((step_tables hst ▸ hok db raw hr).symm)
    | checking view queue received remaining => exact h
    | executing view received remaining => exact h
  | watch db key now =>
    cases phase <;> try cases hs
    simp only [Server.step, stepWatch] at hs
    split at hs
    · cases hs; exact h
    · obtain ⟨r, -, rfl⟩ := map_eq_some_iff.mp hs
      trivial
  | unwatch | discard =>
    cases phase <;> cases hs
    exact hclear _ _
  | multi db =>
    cases phase <;> cases hs
    exact fun _ _ _ => rfl
  | queue command | queueError =>
    cases phase <;> cases hs
    exact h
  | exec =>
    cases phase <;> try cases hs
    simp only [Server.step] at hs
    split at hs
    · cases hs; exact hclear _ _
    · cases hs; exact h
  | execReject =>
    simp only [Server.step] at hs
    split at hs
    · cases hs; exact hclear _ _
    · cases hs; exact hclear _ _
    · cases hs
  | check now =>
    simp only [Server.step, stepCheck] at hs
    split at hs
    · split at hs
      · cases hs; exact hclear _ _
      · cases hs; exact h
    · cases hs; exact h
    · cases hs
  | runCommand =>
    simp only [Server.step] at hs
    split at hs
    · cases hs
      intro db raw hr
      rw [command_snapshot]
      exact h db raw hr
    · cases hs
  | commit =>
    simp only [Server.step, stepCommit] at hs
    split at hs
    · split at hs
      · cases hs; exact hclear _ _
      · split at hs
        · cases hs; exact hclear _ _
        · cases hs; exact hclear _ _
    · cases hs

/--
**MULTI と EXEC の間に読む record が変わらなければ、EXEC の読みは最新である。** どの command の読みも、
EXEC を受け取った時の table に自分の書き込みを重ねた値である。
-/
theorem exec_reads_current (mergeFn : Bytes → Option Bytes → Bytes → Option Bytes)
    (engine : ConflictOracle) (reads : Nat → Bytes → Prop) (tables : Tables)
    (evs : List ServerEvent) (s : ServerState) (view : TxnView) (received : Tables)
    (remaining : List QueuedCommand)
    (hrun : run (Server.step mergeFn engine) (init tables) evs = some s)
    (hok : Obeys (Server.step mergeFn engine) (KeepsReads mergeFn reads)
      (init tables) evs)
    (hphase : s.phase = .executing view received remaining) :
    ∀ db raw, reads db raw → view.get db raw = applyStaged view.staged received db raw := by
  have hinit : SnapshotCurrent reads (init tables) := trivial
  have hcur : SnapshotCurrent reads s :=
    run_induction (fun _ _ _ hi ho hst => SnapshotCurrent.step hi ho hst) hinit hok hrun
  simp only [SnapshotCurrent, hphase] at hcur
  intro db raw hr
  exact applyStaged_congr view.staged (hcur db raw hr)

end Reads

namespace StaleRead

open LateWrite (engine keepValue watchedKey setCall encodeString)

/-- `k` が `1` の db。 -/
def tables : Tables := fun db raw =>
  if db = 0 ∧ raw = watchedKey.bytes then some (encodeString [0x31]) else none

/-- `GET k`。書き込みをしない。 -/
def getCommand : QueuedCommand := ⟨fun _ => []⟩

/-- MULTI の後、EXEC の前に、ほかの接続が `SET k 2` を終える。 -/
def overwritten : List ServerEvent :=
  [.multi 0, .queue getCommand, .foreign (.write 0 (setCall watchedKey [0x32])), .exec, .check 0]

def settled : List ServerEvent :=
  [.foreign (.write 0 (setCall watchedKey [0x32])), .multi 0, .queue getCommand, .exec, .check 0]

def stateAfter (evs : List ServerEvent) : ServerState :=
  (run (step keepValue engine) (init tables) evs).getD (init tables)

def viewOf (s : ServerState) : TxnView :=
  match s.phase with
  | .executing view _ _ => view
  | _ => transactionalView .current 0 tables

def receivedOf (s : ServerState) : Tables :=
  match s.phase with
  | .executing _ received _ => received
  | _ => tables

theorem reads_overwritten_value :
    run (step keepValue engine) (init tables) overwritten =
      some (stateAfter overwritten) ∧
    (stateAfter overwritten).phase = .executing (viewOf (stateAfter overwritten))
      (receivedOf (stateAfter overwritten)) [getCommand] ∧
    receivedOf (stateAfter overwritten) 0 watchedKey.bytes = some (encodeString [0x32]) ∧
    (viewOf (stateAfter overwritten)).staged = [] ∧
    (viewOf (stateAfter overwritten)).get 0 watchedKey.bytes = some (encodeString [0x31]) :=
  ⟨rfl, rfl, by decide, rfl, by decide⟩

theorem settled_obeys : Obeys (step keepValue engine)
    (KeepsReads keepValue fun db raw => db = 0 ∧ raw = watchedKey.bytes)
    (init tables) settled := by
  refine ⟨trivial, fun s₁ h₁ => ⟨trivial, fun s₂ h₂ => ⟨trivial, fun s₃ h₃ => ⟨trivial,
    fun s₄ h₄ => ⟨trivial, fun _ _ => trivial⟩⟩⟩⟩⟩

theorem settled_read_current : (viewOf (stateAfter settled)).get 0 watchedKey.bytes =
      applyStaged (viewOf (stateAfter settled)).staged (receivedOf (stateAfter settled)) 0
        watchedKey.bytes ∧
    (viewOf (stateAfter settled)).get 0 watchedKey.bytes = some (encodeString [0x32]) :=
  ⟨exec_reads_current keepValue engine (fun db raw => db = 0 ∧ raw = watchedKey.bytes)
    tables settled (stateAfter settled) (viewOf (stateAfter settled))
    (receivedOf (stateAfter settled)) [getCommand] rfl settled_obeys rfl 0 watchedKey.bytes
    ⟨rfl, rfl⟩, by decide⟩

end StaleRead

end Onedis.Server
