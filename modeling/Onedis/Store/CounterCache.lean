import Onedis.Infra.Run
import Onedis.Infra.Tasks
import Onedis.Infra.Decimal

/-!
# counter cache を通る INCR / DECR

文字列 key 一つを、任意個の task が並行に操作する。差分 `1` と `-1` の加算は cache から返事を決めて merge を
送り、ほかの加算は比較つき書き込みをし、上書きは構造 lock を握る。仕様 `replay` は、command を一列に
並べて実行したときの返事と値である。
-/

namespace Onedis.Store

open Infra

/-! ## 一列の仕様 -/

/-- 文字列 key から見える内容。`poisoned` は、溢れた merge が残って読むたびに失敗する値。 -/
inductive Content where
  | int (value : Int)
  | text
  | container
  | poisoned
  deriving DecidableEq, Repr

/-- 文字列の record の中身と期限。 -/
structure StoredString where
  content : Content
  expireMs : Nat
  deriving DecidableEq, Repr

/-- INCRBY の失敗。 -/
inductive CounterError where
  | wrongType
  | notAnInteger
  | wouldOverflow
  | sequenceExhausted
  | writeConflict
  | mergeFailed
  deriving DecidableEq, Repr

/-- counter を通らない書き込み。 -/
inductive Overwrite where
  | set (value : StoredString)
  | del
  | expire (expireMs : Nat)
  deriving DecidableEq, Repr

def Overwrite.apply : Overwrite → Option StoredString → Option StoredString
  | .set value, _ => some value
  | .del, _ => none
  | .expire expireMs, stored => stored.map fun value => { value with expireMs }

/-- task の実行する命令。 -/
inductive CounterOp where
  | incr (delta : Int)
  | overwrite (w : Overwrite)
  deriving DecidableEq, Repr

def CounterOp.delta : CounterOp → Option Int
  | .incr delta => some delta
  | .overwrite _ => none

def decodeIntegerStringForUpdate : Option StoredString → Except CounterError (Nat × Int)
  | none => .ok (0, 0)
  | some ⟨.int value, expireMs⟩ => .ok (expireMs, value)
  | some ⟨.text, _⟩ => .error .notAnInteger
  | some ⟨.container, _⟩ => .error .wrongType
  | some ⟨.poisoned, _⟩ => .error .mergeFailed

/-- 加算後の TTL と値。`update_integer_string` と cache の初期化に共通の計算。 -/
def nextInteger (stored : Option StoredString) (delta : Int) :
    Except CounterError (Nat × Int) :=
  match decodeIntegerStringForUpdate stored with
  | .error e => .error e
  | .ok (expireMs, current) =>
    match checkedAdd current delta with
    | some next => .ok (expireMs, next)
    | none => .error .wouldOverflow

/-- command を一つだけ実行したときの値と返事。失敗する加算は `none`。 -/
def CounterOp.apply : CounterOp → Option StoredString → Option (Option StoredString × Option Int)
  | .incr delta, stored =>
    match nextInteger stored delta with
    | .ok (expireMs, next) => some (some ⟨.int next, expireMs⟩, some next)
    | .error _ => none
  | .overwrite w, stored => some (w.apply stored, none)

/-- 効果が確定した command とその返事。`task` がないものは期限切れ。 -/
structure LogEntry where
  task : Option Nat
  op : CounterOp
  reply : Option Int
  deriving DecidableEq, Repr

def replay : Option StoredString → List LogEntry → Option (Option StoredString)
  | stored, [] => some stored
  | stored, e :: log =>
    match e.op.apply stored with
    | some (stored', reply) => if reply = e.reply then replay stored' log else none
    | none => none

variable {stored : Option StoredString}

theorem replay_append {start : Option StoredString} {log : List LogEntry} {e : LogEntry}
    {stored' : Option StoredString} (h : replay start log = some stored)
    (he : e.op.apply stored = some (stored', e.reply)) :
    replay start (log ++ [e]) = some stored' := by
  induction log generalizing start with
  | nil =>
    cases h
    simp [replay, he]
  | cons x log ih =>
    simp only [List.cons_append, replay] at h ⊢
    split at h
    · next stored₁ reply hx =>
      split at h
      · next hr => rw [if_pos hr]; exact ih h
      · cases h
    · cases h

/-! ## cache と commit の進み -/

/-- sequence ごとの commit の進み具合。 -/
structure CounterCommitState where
  committedSequence : Nat
  completed : List Nat
  failure : Bool
  deriving DecidableEq, Repr

def CounterCommitState.fresh : CounterCommitState := ⟨0, [], false⟩

open CounterCommitState

/-- 連続して終わっている番号だけ `committedSequence` を進める。 -/
def CounterCommitState.advance : Nat → CounterCommitState → CounterCommitState
  | 0, c => c
  | fuel + 1, c =>
    if c.committedSequence + 1 ∈ c.completed then
      advance fuel
        { c with
          committedSequence := c.committedSequence + 1
          completed := c.completed.filter (· ≠ c.committedSequence + 1) }
    else c

def CounterCommitState.complete (c : CounterCommitState) (sequence : Nat) : CounterCommitState :=
  advance (c.completed.length + 1)
    { c with completed := sequence :: c.completed }

theorem CounterCommitState.advance_failure (fuel : Nat) (c : CounterCommitState) :
    (advance fuel c).failure = c.failure := by
  induction fuel generalizing c with
  | zero => rfl
  | succ fuel ih =>
    unfold advance
    split
    · rw [ih]
    · rfl

theorem CounterCommitState.modify_complete_failure {states : List CounterCommitState}
    {commitState sequence : Nat} (h : ∀ state ∈ states, state.failure = false) :
    ∀ state ∈ states.modify commitState (·.complete sequence), state.failure = false := by
  intro state hstate
  obtain ⟨j, hj⟩ := List.mem_iff_getElem?.mp hstate
  rw [List.getElem?_modify] at hj
  obtain ⟨old, hold, rfl⟩ := Option.map_eq_some_iff.mp hj
  have hfailure := h old (List.mem_of_getElem? hold)
  split
  · rw [complete, advance_failure]
    exact hfailure
  · exact hfailure

def CounterCommitState.fail (c : CounterCommitState) : CounterCommitState :=
  { c with failure := true }

/-- `commitState` は `Arc` の代わりの番号。 -/
structure CounterCacheEntry where
  value : Int
  nextSequence : Nat
  commitState : Nat
  deriving DecidableEq, Repr

/-! ## task と共有状態 -/

/-- INCRBY の段階。cache を使う速い道と、record を読む遅い道がある。 -/
inductive CounterPhase where
  | fast
  | slow
  | recheck
  | base (current : Int)
  | merging (exclusive : Bool) (next : Int) (sequence commitState : Nat)
  | merged (exclusive : Bool) (next : Int) (sequence commitState : Nat)
  | waiting (next : Int) (sequence commitState : Nat)
  | update (held : Bool) (tries : Nat)
  | observed (held : Bool) (tries : Nat) (value : Option StoredString)
  | updated (held : Bool) (next : Int)
  | overwrite
  | overwriting
  | overwritten
  | acked (reply : Option Int)
  | failed (error : CounterError)
  deriving DecidableEq, Repr

/-- 実行中の命令。 -/
structure CounterTask where
  op : CounterOp
  phase : CounterPhase
  deriving DecidableEq, Repr

def CounterTask.guard (t : CounterTask) : Guard :=
  match t.phase with
  | .recheck | .base _ | .update true _ | .observed true _ _ | .updated true _ => .write
  | .merging exclusive _ _ _ | .merged exclusive _ _ _ => if exclusive then .write else .read
  | .overwriting | .overwritten => .write
  | _ => .free

def CounterTask.pending (t : CounterTask) : Option Int :=
  match t.phase with
  | .merging _ _ _ _ => t.op.delta
  | _ => none

def CounterTask.Stale (t : CounterTask) : Prop :=
  match t.phase with
  | .updated _ _ | .overwritten => True
  | _ => False

def CounterTask.Initializing (t : CounterTask) : Prop :=
  match t.phase with
  | .base _ => True
  | _ => False

instance (t : CounterTask) : Decidable t.Initializing := by
  unfold CounterTask.Initializing
  split <;> infer_instance

def CounterTask.Unflushed (t : CounterTask) : Prop :=
  match t.phase with
  | .updated false _ => True
  | _ => False

instance (t : CounterTask) : Decidable t.Unflushed := by
  unfold CounterTask.Unflushed
  split <;> infer_instance

/-- task が番号 `i` で記録に残した効果。 -/
def CounterTask.effect (i : Nat) (t : CounterTask) : Option LogEntry :=
  match t.phase with
  | .merging _ next _ _ | .merged _ next _ _ | .waiting next _ _ | .updated _ next =>
    some ⟨some i, t.op, some next⟩
  | .overwritten => some ⟨some i, t.op, none⟩
  | .acked reply => some ⟨some i, t.op, reply⟩
  | _ => none

/-- task の外にある状態。`log` は効果が確定した順の記録で、実行に影響しない。 -/
structure Counter where
  stored : Option StoredString
  entry : Option CounterCacheEntry
  commitStates : List CounterCommitState
  log : List LogEntry
  deriving DecidableEq, Repr

def Counter.record (c : Counter) (i : Nat) (op : CounterOp) (reply : Option Int) : Counter :=
  { c with log := c.log ++ [⟨some i, op, reply⟩] }

/-- 一つの counter と、それを使う task。 -/
structure CounterSystem where
  counter : Counter
  tasks : List CounterTask
  deriving DecidableEq, Repr

def CounterSystem.start (stored : Option StoredString) : CounterSystem :=
  ⟨⟨stored, none, [], []⟩, []⟩

/-! ## 一歩 -/

def mergeDelta (stored : Option StoredString) (delta : Int) : Option StoredString :=
  match nextInteger stored delta with
  | .ok (expireMs, next) => some ⟨.int next, expireMs⟩
  | .error _ => stored.map fun value => { value with content := .poisoned }

def Counter.commitFailed (c : Counter) (commitState : Nat) : Bool :=
  (c.commitStates[commitState]?.map (·.failure)).getD false

def Counter.assignCachedCounter (c : Counter) (delta : Int) :
    Except CounterError (Option CounterCacheEntry) :=
  match c.entry with
  | none => .ok none
  | some entry =>
    if c.commitFailed entry.commitState then .error .mergeFailed
    else
      match checkedAdd entry.value delta with
      | none => .error .wouldOverflow
      | some next =>
        if entry.nextSequence + 1 < 2 ^ 64 then
          .ok (some { entry with value := next, nextSequence := entry.nextSequence + 1 })
        else .error .sequenceExhausted

def Counter.spawnMerge (c : Counter) (i : Nat) (op : CounterOp) (exclusive : Bool)
    (entry : CounterCacheEntry) : Counter × CounterPhase :=
  ({ c with entry := some entry }.record i op (some entry.value),
    .merging exclusive entry.value entry.nextSequence entry.commitState)

def Counter.addCommitState (c : Counter) : Counter :=
  { c with commitStates := c.commitStates ++ [fresh] }

def updateAttempts : Nat := 64

def Counter.readBase (c : Counter) : CounterPhase :=
  match decodeIntegerStringForUpdate c.stored with
  | .error e => .failed e
  | .ok (expireMs, current) => if expireMs > 0 then .update true updateAttempts else .base current

/-- task `i` の次の動き。進めない task は `none` である。 -/
def Counter.advance (c : Counter) (tasks : List CounterTask) (i : Nat) (op : CounterOp) :
    CounterPhase → Option (Counter × CounterPhase)
  | .fast =>
    match op with
    | .overwrite _ => none
    | .incr delta =>
      if CanRead CounterTask.guard tasks then
        match c.assignCachedCounter delta with
        | .error e => some (c, .failed e)
        | .ok (some entry) => some (c.spawnMerge i op false entry)
        | .ok none => some (c, .slow)
      else none
  | .slow => if CanWrite CounterTask.guard tasks then some (c, .recheck) else none
  | .recheck =>
    match op with
    | .overwrite _ => none
    | .incr delta =>
      match c.assignCachedCounter delta with
      | .error e => some (c, .failed e)
      | .ok (some entry) => some (c.spawnMerge i op true entry)
      | .ok none => some (c, c.readBase)
  | .base current =>
    match op with
    | .overwrite _ => none
    | .incr delta =>
      match checkedAdd current delta with
      | none => some (c, .failed .wouldOverflow)
      | some next => some (c.addCommitState.spawnMerge i op true ⟨next, 1, c.commitStates.length⟩)
  | .merging exclusive next sequence commitState =>
    match op with
    | .overwrite _ => none
    | .incr delta =>
      some ({ c with stored := mergeDelta c.stored delta },
        .merged exclusive next sequence commitState)
  | .merged _ next sequence commitState =>
    some ({ c with commitStates := c.commitStates.modify commitState (·.complete sequence) },
      .waiting next sequence commitState)
  | .waiting next sequence commitState =>
    match c.commitStates[commitState]? with
    | none => none
    | some state =>
      if state.failure then some (c, .failed .mergeFailed)
      else if sequence ≤ state.committedSequence then some (c, .acked (some next))
      else none
  | .update _ 0 => some (c, .failed .writeConflict)
  | .update held (tries + 1) =>
    match op with
    | .overwrite _ => none
    | .incr delta =>
      match nextInteger c.stored delta with
      | .error e => some (c, .failed e)
      | .ok _ => some (c, .observed held tries c.stored)
  | .observed held tries value =>
    match op with
    | .overwrite _ => none
    | .incr delta =>
      if c.stored = value then
        match nextInteger value delta with
        | .error e => some (c, .failed e)
        | .ok (expireMs, next) =>
          some ({ c with stored := some ⟨.int next, expireMs⟩ }.record i op (some next),
            .updated held next)
      else some (c, .update held tries)
  | .updated _ next => some ({ c with entry := none }, .acked (some next))
  | .overwrite => if CanWrite CounterTask.guard tasks then some (c, .overwriting) else none
  | .overwriting =>
    match op with
    | .incr _ => none
    | .overwrite w => some ({ c with stored := w.apply c.stored }.record i op none, .overwritten)
  | .overwritten => some ({ c with entry := none }, .acked none)
  | .acked _ | .failed _ => none

/-- 差分が `1` と `-1` の加算だけが cache の経路に入る。 -/
def CounterTask.start : CounterOp → CounterTask
  | .incr delta =>
    ⟨.incr delta, if delta = 1 ∨ delta = -1 then .fast else .update false updateAttempts⟩
  | .overwrite w => ⟨.overwrite w, .overwrite⟩

/-- 一歩ごとの出来事。`expire` は record の期限切れ、`evict` は cache の追い出しである。 -/
inductive CounterEvent where
  | invoke (op : CounterOp)
  | advance (i : Nat)
  | conflict (i : Nat)
  | mergeFails (i : Nat)
  | expire
  | evict
  deriving DecidableEq, Repr

/-- 一つの出来事で移る。 -/
def CounterSystem.step (s : CounterSystem) : CounterEvent → Option CounterSystem
  | .invoke op => some { s with tasks := s.tasks ++ [CounterTask.start op] }
  | .advance i =>
    match s.tasks[i]? with
    | none => none
    | some t =>
      match s.counter.advance s.tasks i t.op t.phase with
      | none => none
      | some (counter, phase) => some ⟨counter, s.tasks.set i ⟨t.op, phase⟩⟩
  | .conflict i =>
    match s.tasks[i]? with
    | some ⟨op, .observed held tries _⟩ =>
      some { s with tasks := s.tasks.set i ⟨op, .update held tries⟩ }
    | _ => none
  | .mergeFails i =>
    match s.tasks[i]? with
    | some ⟨op, .merging _ next sequence commitState⟩ =>
      some ⟨{ s.counter with
          entry := none
          commitStates := s.counter.commitStates.modify commitState (·.fail) },
        s.tasks.set i ⟨op, .waiting next sequence commitState⟩⟩
    | _ => none
  | .expire =>
    match s.counter.stored with
    | some value =>
      if 0 < value.expireMs then
        some { s with
          counter :=
            { s.counter with
              stored := none
              log := s.counter.log ++ [⟨none, .overwrite .del, none⟩] } }
      else none
    | none => none
  | .evict => some { s with counter := { s.counter with entry := none } }

/-! ## 返事の済んだ差分を込めた値 -/

def CounterSystem.pending (s : CounterSystem) : List Int := s.tasks.filterMap CounterTask.pending

/-- 整数として読んだ値。key がなければ `0` である。 -/
def baseInteger : Option StoredString → Int
  | some ⟨.int value, _⟩ => value
  | _ => 0

def withPending (stored : Option StoredString) (pending : List Int) : Option StoredString :=
  if pending = [] then stored else some ⟨.int (baseInteger stored + pending.sum), 0⟩

def Plain (stored : Option StoredString) : Prop :=
  stored = none ∨ stored = some ⟨.int (baseInteger stored), 0⟩

theorem withPending_perm {xs ys : List Int} (h : xs.Perm ys) :
    withPending stored xs = withPending stored ys := by
  unfold withPending
  rw [h.sum_eq]
  by_cases hx : xs = []
  · subst hx
    rw [if_pos rfl, if_pos (List.nil_perm.mp h)]
  · have hy : ys ≠ [] := by
      rintro rfl
      exact hx (List.perm_nil.mp h)
    rw [if_neg hx, if_neg hy]

variable {delta : Int}

variable (h : Plain stored)
include h

theorem Plain.nextInteger (hr : InI64 (baseInteger stored + delta)) :
    nextInteger stored delta = .ok (0, baseInteger stored + delta) := by
  have hadd := checkedAdd_of_inI64 hr
  rcases h with rfl | h
  · simp only [Store.nextInteger, decodeIntegerStringForUpdate]
    rw [show baseInteger none = 0 from rfl] at hadd ⊢
    simp [hadd]
  · obtain ⟨value, rfl⟩ : ∃ value, stored = some ⟨.int value, 0⟩ := ⟨_, h⟩
    rw [show baseInteger (some ⟨.int value, 0⟩) = value from rfl] at hadd ⊢
    simp [Store.nextInteger, decodeIntegerStringForUpdate, hadd]

omit h in
theorem plain_of_decode {expireMs : Nat} {current : Int}
    (h : decodeIntegerStringForUpdate stored = .ok (expireMs, current)) (he : expireMs = 0) :
    Plain stored ∧ baseInteger stored = current := by
  rcases stored with _ | ⟨content, expire⟩
  · cases h
    exact ⟨.inl rfl, rfl⟩
  · cases content with
    | int value =>
      cases h
      subst he
      exact ⟨.inr rfl, rfl⟩
    | _ => cases h

theorem Plain.withPending (pending : List Int) :
    Plain (withPending stored pending) ∧
      baseInteger (Store.withPending stored pending) = baseInteger stored + pending.sum := by
  unfold Store.withPending
  split
  · next hp => subst hp; exact ⟨h, by simp⟩
  · exact ⟨.inr rfl, rfl⟩

theorem Plain.apply_incr {pending : List Int}
    (hr : InI64 (baseInteger stored + pending.sum + delta)) :
    (CounterOp.incr delta).apply (Store.withPending stored pending) =
      some (Store.withPending stored (delta :: pending),
        some (baseInteger stored + pending.sum + delta)) := by
  obtain ⟨hplain, hbase⟩ := h.withPending pending
  have hnext := hplain.nextInteger (hbase ▸ hr)
  rw [hbase] at hnext
  have hcons : Store.withPending stored (delta :: pending) =
      some ⟨.int (baseInteger stored + pending.sum + delta), 0⟩ := by
    simp only [Store.withPending, reduceCtorEq, if_false, List.sum_cons]
    congr 3
    omega
  simp [CounterOp.apply, hnext, hcons]

theorem Plain.mergeDelta (hr : InI64 (baseInteger stored + delta)) :
    Store.mergeDelta stored delta = some ⟨.int (baseInteger stored + delta), 0⟩ := by
  simp [Store.mergeDelta, h.nextInteger hr]

theorem Plain.withPending_mergeDelta (hr : InI64 (baseInteger stored + delta)) (pending : List Int)
    :
    Store.withPending (Store.mergeDelta stored delta) pending =
      Store.withPending stored (delta :: pending) := by
  rw [h.mergeDelta hr]
  simp only [Store.withPending, reduceCtorEq, if_false, List.sum_cons, baseInteger]
  split
  · next hp => subst hp; simp
  · congr 3
    omega

end Onedis.Store
