import Onedis.Store.CounterCache
import Mathlib.Data.List.Permutation

/-!
# 並行な加算の返事

* `counter_replies_sequential` — `Separated` を満たす実行では、記録の順が求める一列の順序になる
* `StaleCache.replies_not_sequential` — lock を取らない書き込みが cache の経路と重なると、どの順序でも
  説明できない返事が出る

記録は、命令が効果を持った順に返事を並べたものである。cache の値、保留の merge、record の三つが記録と合うことを
不変条件とする。
-/

namespace Onedis.Store

open Infra List CounterTask
open CounterSystem (start step)

/-! ## 不変条件 -/

def CounterSystem.Settled (s : CounterSystem) : Prop := ∀ t ∈ s.tasks, ¬ t.Stale

/--
実行の間つねに成り立つこと。`legal` が中心で、記録を実行し直すと、反映待ちを込めた値になる。`cache` は、
書いた側が cache を落とし終えた状態についてだけ述べる。
-/
structure CounterInv (start : Option StoredString) (s : CounterSystem) : Prop where
  exclusive : Exclusive guard s.tasks
  legal : replay start s.counter.log = some (withPending s.counter.stored s.pending)
  plain : s.pending ≠ [] → Plain s.counter.stored
  base : ∀ t ∈ s.tasks, ∀ current, t.phase = .base current →
    Plain s.counter.stored ∧ baseInteger s.counter.stored = current
  cache : s.Settled → ∀ entry, s.counter.entry = some entry →
    Plain s.counter.stored ∧ entry.value = baseInteger s.counter.stored + s.pending.sum
  logged : Logged LogEntry.task effect s.counter.log s.tasks
  unfailed : ∀ state ∈ s.counter.commitStates, state.failure = false

theorem CounterInv.start (stored : Option StoredString) :
    CounterInv stored (CounterSystem.start stored) where
  exclusive := Exclusive.nil
  legal := rfl
  plain := fun h => absurd rfl h
  base := fun t ht => absurd ht not_mem_nil
  cache := nofun
  logged := fun i => by simp [CounterSystem.start]
  unfailed := fun state h => absurd h not_mem_nil

variable {delta : Int}

theorem CounterTask.guard_ne_free {t : CounterTask} (h : t.pending = some delta) :
    t.guard ≠ .free := by
  obtain ⟨op, phase⟩ := t
  cases phase with
  | merging exclusive next sequence commitState => cases exclusive <;> exact nofun
  | _ => cases h

variable {s : CounterSystem}

theorem pending_eq_nil_of_free (h : ∀ t ∈ s.tasks, t.pending ≠ none → t.guard = .free) :
    s.pending = [] := by
  refine filterMap_eq_nil_iff.mpr fun t ht => ?_
  cases hp : t.pending with
  | none => rfl
  | some delta => exact absurd (h t ht (by simp [hp])) (guard_ne_free hp)

theorem CounterInv.pending_eq_nil {start : Option StoredString} (h : CounterInv start s) {i : Nat}
    {p : CounterTask} (hp : s.tasks[i]? = some p) (hw : p.guard = .write)
    (hnone : p.pending = none) : s.pending = [] := by
  refine pending_eq_nil_of_free fun t ht hsome => ?_
  by_contra hheld
  obtain rfl := h.exclusive.holder (mem_of_getElem? hp) hw ht hheld
  exact hsome hnone

theorem CounterInv.not_initializing {start : Option StoredString} (h : CounterInv start s) {i : Nat}
    {p : CounterTask} (hp : s.tasks[i]? = some p) (hw : p.guard = .write) (hi : ¬ p.Initializing) :
    ∀ t ∈ s.tasks, ¬ t.Initializing := by
  intro t ht hinit
  have hguard : t.guard = .write := by
    obtain ⟨op, phase⟩ := t
    cases phase with
    | base current => rfl
    | _ => exact absurd hinit id
  obtain rfl := h.exclusive.holder ht hguard (mem_of_getElem? hp) (by simp [hw])
  exact hi hinit

/-! ## 動きの種類ごとの保存 -/

section

variable {start : Option StoredString} {s : CounterSystem} {i : Nat} {p q : CounterTask}
  {c' : Counter}

variable (h : CounterInv start s)
include h

variable (hp : s.tasks[i]? = some p)
include hp

variable (hg : GuardMove guard s.tasks p q)
include hg

theorem CounterInv.quiet (hpp : p.pending = none) (hpq : q.pending = none)
    (he : q.effect i = p.effect i) (hbase : ∀ current, q.phase = .base current →
      Plain s.counter.stored ∧ baseInteger s.counter.stored = current)
    (hs : c'.stored = s.counter.stored) (hl : c'.log = s.counter.log)
    (hc : (c'.entry = s.counter.entry ∧ ¬ p.Stale) ∨ c'.entry = none)
    (hu : ∀ state ∈ c'.commitStates, state.failure = false) :
    CounterInv start ⟨c', s.tasks.set i q⟩ := by
  cases c'
  subst hs hl
  have hperm : (CounterSystem.mk s.counter (s.tasks.set i q)).pending.Perm s.pending := by
    have hset := filterMap_set_perm pending q hp
    rwa [hpp, hpq] at hset
  refine ⟨h.exclusive.set hp hg, h.legal.trans (congrArg some (withPending_perm hperm).symm), ?_,
    forall_mem_set h.base hbase, ?_, h.logged.set_keep hp he, hu⟩
  · intro hne
    refine h.plain fun hnil => hne ?_
    rw [hnil] at hperm
    exact perm_nil.mp hperm
  · intro hsettled entry hentry
    rcases hc with ⟨hc, hstale⟩ | hc
    · obtain ⟨hplain, hvalue⟩ := h.cache (forall_mem_of_set hp hstale hsettled) entry (hc ▸ hentry)
      exact ⟨hplain, hvalue.trans (congrArg _ hperm.sum_eq.symm)⟩
    · cases hc.symm.trans hentry

theorem CounterInv.pass (hpp : p.pending = none := by rfl) (hpq : q.pending = none := by rfl)
    (he : q.effect i = p.effect i := by rfl)
    (hq : ∀ current, q.phase ≠ .base current := by rintro _ ⟨⟩)
    (hstale : ¬ p.Stale := by exact id) :
    CounterInv start ⟨s.counter, s.tasks.set i q⟩ :=
  h.quiet hp hg hpp hpq he (fun current hc => absurd hc (hq current)) rfl rfl
    (.inl ⟨rfl, hstale⟩) h.unfailed

theorem CounterInv.assign (hpp : p.pending = none) (hpe : p.effect i = none) {delta value : Int}
    (hpq : q.pending = some delta)
    (he : q.effect i = some ⟨some i, .incr delta, some (value + delta)⟩)
    (hplain : Plain s.counter.stored)
    (hvalue : value = baseInteger s.counter.stored + s.pending.sum) (hr : InI64 (value + delta))
    (hs : c'.stored = s.counter.stored)
    (hl : c'.log = s.counter.log ++ [⟨some i, .incr delta, some (value + delta)⟩])
    (hc : ∀ entry, c'.entry = some entry → entry.value = value + delta)
    (hu : ∀ state ∈ c'.commitStates, state.failure = false) :
    CounterInv start ⟨c', s.tasks.set i q⟩ := by
  cases c'
  subst hs hl hvalue
  have hperm : (CounterSystem.mk s.counter (s.tasks.set i q)).pending.Perm
      (delta :: s.pending) := by
    have hset := filterMap_set_perm pending q hp
    rwa [hpp, hpq] at hset
  refine ⟨h.exclusive.set hp hg, (replay_append h.legal (hplain.apply_incr hr)).trans
      (congrArg some (withPending_perm hperm).symm), fun _ => hplain,
    forall_mem_set h.base fun current hphase => by simp [pending, hphase] at hpq,
    fun _ entry hentry => ⟨hplain, ?_⟩, h.logged.set_record hp hpe he rfl, hu⟩
  rw [hc entry hentry]
  refine Eq.trans ?_ (congrArg _ hperm.sum_eq.symm)
  rw [sum_cons]
  dsimp only
  omega

theorem CounterInv.merge (hpp : p.pending = some delta) (hpq : q.pending = none)
    (he : q.effect i = p.effect i) (hq : ∀ current, q.phase ≠ .base current) (hstale : ¬ p.Stale)
    (hr : InI64 (baseInteger s.counter.stored + delta)) :
    CounterInv start
      ⟨{ s.counter with stored := mergeDelta s.counter.stored delta }, s.tasks.set i q⟩ := by
  have hperm : s.pending.Perm
      (delta :: (CounterSystem.mk s.counter (s.tasks.set i q)).pending) := by
    have hset := (filterMap_set_perm pending q hp).symm
    rwa [hpp, hpq] at hset
  have hplain : Plain s.counter.stored := by
    refine h.plain fun hnil => ?_
    rw [hnil] at hperm
    exact absurd (nil_perm.mp hperm) (cons_ne_nil _ _)
  have hmerged := hplain.mergeDelta hr
  have hplain' : Plain (mergeDelta s.counter.stored delta) := by
    rw [hmerged]
    exact .inr rfl
  refine ⟨h.exclusive.set hp hg, ?_, fun _ => hplain', ?_, ?_, h.logged.set_keep hp he, h.unfailed⟩
  · show replay start s.counter.log = some (withPending (mergeDelta _ _) _)
    rw [hplain.withPending_mergeDelta hr]
    rw [h.legal, withPending_perm hperm]
    rfl
  · -- cache を作っている task は書きの guard を握るので、merge の途中には現れない
    refine forall_mem_set (fun t ht current hphase => ?_)
      fun current hphase => absurd hphase (hq current)
    obtain rfl := h.exclusive.holder ht (by simp [CounterTask.guard, hphase])
      (mem_of_getElem? hp) (guard_ne_free hpp)
    simp [pending, hphase] at hpp
  · intro hsettled entry hentry
    obtain ⟨-, hvalue⟩ := h.cache (forall_mem_of_set hp hstale hsettled) entry hentry
    refine ⟨hplain', ?_⟩
    rw [hperm.sum_eq, sum_cons] at hvalue
    show entry.value = baseInteger (mergeDelta _ _) + _
    rw [hmerged, hvalue]
    show _ = baseInteger s.counter.stored + delta + _
    rw [add_assoc]
    rfl

theorem CounterInv.commit (hpp : p.pending = none) (hpq : q.pending = none) {e : LogEntry}
    (hpe : p.effect i = none) (he : q.effect i = some e) (hei : e.task = some i)
    (hnil : s.pending = []) (hbase : ∀ t ∈ s.tasks, ¬ t.Initializing) (hstale : q.Stale)
    (happly : e.op.apply s.counter.stored = some (c'.stored, e.reply))
    (hl : c'.log = s.counter.log ++ [e]) (hu : c'.commitStates = s.counter.commitStates) :
    CounterInv start ⟨c', s.tasks.set i q⟩ := by
  have hnil' : (CounterSystem.mk c' (s.tasks.set i q)).pending = [] := by
    have hset := filterMap_set_perm pending q hp
    rw [hpp, hpq] at hset
    exact perm_nil.mp (hset.trans (.of_eq hnil))
  have hlegal := h.legal
  rw [hnil] at hlegal
  refine ⟨h.exclusive.set hp hg, ?_, fun hne => absurd hnil' hne, ?_, ?_, ?_, hu ▸ h.unfailed⟩
  · show replay start c'.log = some (withPending c'.stored _)
    rw [hl, hnil']
    exact replay_append hlegal happly
  · exact forall_mem_set
      (fun t ht current hphase => absurd (by simp [CounterTask.Initializing, hphase]) (hbase t ht))
      fun current hphase => by simp [CounterTask.Stale, hphase] at hstale
  · exact fun hsettled => absurd hstale (hsettled q (mem_set_self hp))
  · show Logged _ _ c'.log _
    rw [hl]
    exact h.logged.set_record hp hpe he hei

end

/-! ## 一歩と実行 -/

/--
一歩についての条件。

* lock なしの書き込みは、反映待ちの差分も作りかけの cache もないときに commit する
* その commit から cache を落とすまで、cache から返事を決めない
* merge は成功し、反映した値は 64 bit に収まる
-/
def CounterSystem.Separated (s : CounterSystem) : CounterEvent → Prop
  | .advance i =>
    match s.tasks[i]? with
    | some ⟨_, .observed false _ value⟩ =>
      s.counter.stored = value → s.pending = [] ∧ ∀ t ∈ s.tasks, ¬ t.Initializing
    | some ⟨_, .fast⟩ | some ⟨_, .recheck⟩ => s.counter.entry ≠ none → ∀ t ∈ s.tasks, ¬ t.Unflushed
    | some ⟨.incr delta, .merging _ _ _ _⟩ => InI64 (baseInteger s.counter.stored + delta)
    | _ => True
  | .mergeFails _ => False
  | _ => True

theorem assignCachedCounter_some {c : Counter} {entry' : CounterCacheEntry}
    (h : c.assignCachedCounter delta = .ok (some entry')) :
    ∃ entry, c.entry = some entry ∧ InI64 (entry.value + delta) ∧
      entry'.value = entry.value + delta := by
  unfold Counter.assignCachedCounter at h
  cases hentry : c.entry with
  | none => simp [hentry] at h
  | some entry =>
    refine ⟨entry, rfl, ?_⟩
    simp only [hentry] at h
    split at h
    · cases h
    · by_cases hr : InI64 (entry.value + delta)
      · rw [checkedAdd_of_inI64 hr] at h
        simp only at h
        split at h
        · cases h
          exact ⟨hr, rfl⟩
        · cases h
      · rw [checkedAdd_of_not_inI64 hr] at h
        cases h

theorem CounterSystem.settled_of_unflushed (hflush : ∀ t ∈ s.tasks, ¬ t.Unflushed)
    (hheld : ∀ t ∈ s.tasks, t.Stale → t.guard ≠ .write) :
    s.Settled := by
  intro t ht hstale
  have hu := hflush t ht
  have hw := hheld t ht hstale
  obtain ⟨op, phase⟩ := t
  cases phase with
  | updated held next =>
    cases held with
    | false => exact hu trivial
    | true => exact hw rfl
  | overwritten => exact hw rfl
  | _ => exact hstale

section

variable {start : Option StoredString} {s : CounterSystem} {i : Nat}

variable {phase : CounterPhase}

section

variable (h : CounterInv start s)

include h

theorem CounterInv.spawnMerge {exclusive : Bool} {entry' : CounterCacheEntry}
    (hp : s.tasks[i]? = some ⟨.incr delta, phase⟩) (hsettled : s.counter.entry ≠ none → s.Settled)
    (hassign : s.counter.assignCachedCounter delta = .ok (some entry'))
    (hg : GuardMove guard s.tasks ⟨.incr delta, phase⟩
      ⟨.incr delta, (s.counter.spawnMerge i (.incr delta) exclusive entry').2⟩)
    (hpp : pending ⟨.incr delta, phase⟩ = none)
    (hpe : effect i ⟨.incr delta, phase⟩ = none) :
    CounterInv start ⟨(s.counter.spawnMerge i (.incr delta) exclusive entry').1,
      s.tasks.set i ⟨.incr delta, (s.counter.spawnMerge i (.incr delta) exclusive entry').2⟩⟩ := by
  obtain ⟨entry, hentry, hr, hvalue⟩ := assignCachedCounter_some hassign
  obtain ⟨hplain, hcached⟩ := h.cache (hsettled (by simp [hentry])) entry hentry
  refine h.assign hp hg hpp hpe rfl ?_ hplain hcached hr rfl ?_ ?_ h.unfailed
  · rw [← hvalue]
    rfl
  · rw [← hvalue]
    rfl
  · intro e he
    cases he
    exact hvalue

variable {op : CounterOp} {c' : Counter}

theorem CounterInv.advance_fast (hp : s.tasks[i]? = some ⟨op, .fast⟩)
    (hok : s.Separated (.advance i))
    (ha : s.counter.advance s.tasks i op .fast = some (c', phase)) :
    CounterInv start ⟨c', s.tasks.set i ⟨op, phase⟩⟩ := by
  simp only [CounterSystem.Separated, hp] at hok
  cases op with
  | overwrite w => cases ha
  | incr delta =>
    obtain ⟨hread, ha⟩ := Option.ite_none_right_eq_some.mp ha
    split at ha
    · cases ha
      exact h.pass hp (.release rfl)
    · next entry' hassign =>
      cases ha
      exact h.spawnMerge hp (fun hne => CounterSystem.settled_of_unflushed (hok hne)
        fun t ht _ => hread t ht) hassign (.read rfl hread) rfl rfl
    · cases ha
      exact h.pass hp (.release rfl)

theorem CounterInv.advance_recheck (hp : s.tasks[i]? = some ⟨op, .recheck⟩)
    (hok : s.Separated (.advance i))
    (ha : s.counter.advance s.tasks i op .recheck = some (c', phase)) :
    CounterInv start ⟨c', s.tasks.set i ⟨op, phase⟩⟩ := by
  simp only [CounterSystem.Separated, hp] at hok
  cases op with
  | overwrite w => cases ha
  | incr delta =>
    simp only [Counter.advance] at ha
    split at ha
    · cases ha
      exact h.pass hp (.release rfl)
    · next entry' hassign =>
      cases ha
      refine h.spawnMerge hp (fun hne => ?_) hassign (.keep rfl) rfl rfl
      -- 書きの guard はこの task が握っているので、他に握る task はない
      refine CounterSystem.settled_of_unflushed (hok hne) fun t ht hstale hw => ?_
      obtain rfl := h.exclusive.holder ht hw (mem_of_getElem? hp) nofun
      exact hstale
    · cases ha
      unfold Counter.readBase
      cases hdecode : decodeIntegerStringForUpdate s.counter.stored with
      | error e => exact h.pass hp (.release rfl)
      | ok r =>
        obtain ⟨expireMs, current⟩ := r
        by_cases hexpire : expireMs > 0
        · simp only [if_pos hexpire]
          exact h.pass hp (.keep rfl)
        · simp only [if_neg hexpire]
          refine h.quiet hp (.keep rfl) rfl rfl rfl (fun _ hc => ?_) rfl rfl
            (.inl ⟨rfl, id⟩) h.unfailed
          cases hc
          exact plain_of_decode hdecode (by omega)

theorem CounterInv.advance_base {current : Int} (hp : s.tasks[i]? = some ⟨op, .base current⟩)
    (ha : s.counter.advance s.tasks i op (.base current) = some (c', phase)) :
    CounterInv start ⟨c', s.tasks.set i ⟨op, phase⟩⟩ := by
  cases op with
  | overwrite w => cases ha
  | incr delta =>
    simp only [Counter.advance] at ha
    by_cases hr : InI64 (current + delta)
    · rw [checkedAdd_of_inI64 hr] at ha
      cases ha
      obtain ⟨hplain, hcurrent⟩ := h.base _ (mem_of_getElem? hp) current rfl
      have hnil := h.pending_eq_nil hp rfl rfl
      refine h.assign hp (.keep rfl) rfl rfl rfl rfl hplain ?_ hr rfl rfl ?_ ?_
      · rw [hnil, hcurrent]
        simp
      · intro entry hentry
        cases hentry
        rfl
      · exact forall_mem_concat h.unfailed rfl
    · rw [checkedAdd_of_not_inI64 hr] at ha
      cases ha
      exact h.pass hp (.release rfl)

theorem CounterInv.advance_observed {held : Bool} {tries : Nat} {value : Option StoredString}
    (hp : s.tasks[i]? = some ⟨op, .observed held tries value⟩) (hok : s.Separated (.advance i))
    (ha : s.counter.advance s.tasks i op (.observed held tries value) = some (c', phase)) :
    CounterInv start ⟨c', s.tasks.set i ⟨op, phase⟩⟩ := by
  have hquiet : s.counter.stored = value → s.pending = [] ∧ ∀ t ∈ s.tasks, ¬ t.Initializing := by
    cases held with
    | false => simpa only [CounterSystem.Separated, hp] using hok
    | true =>
      intro _
      exact ⟨h.pending_eq_nil hp rfl rfl, h.not_initializing hp rfl (fun hc => hc)⟩
  cases op with
  | overwrite w => cases ha
  | incr delta =>
    simp only [Counter.advance] at ha
    split at ha
    · next hstored =>
      obtain ⟨hnil, hbase⟩ := hquiet hstored
      cases hnext : nextInteger value delta with
      | error e =>
        rw [hnext] at ha
        cases ha
        exact h.pass hp (.release rfl)
      | ok r =>
        obtain ⟨expireMs, next⟩ := r
        rw [hnext] at ha
        cases ha
        refine h.commit hp (.keep (by cases held <;> rfl)) rfl rfl rfl rfl rfl hnil hbase trivial
          ?_ rfl rfl
        simp only [CounterOp.apply, hstored, hnext]
        rfl
    · cases ha
      exact h.pass hp (.keep (by cases held <;> rfl))

theorem CounterInv.advance_overwriting (hp : s.tasks[i]? = some ⟨op, .overwriting⟩)
    (ha : s.counter.advance s.tasks i op .overwriting = some (c', phase)) :
    CounterInv start ⟨c', s.tasks.set i ⟨op, phase⟩⟩ := by
  cases op with
  | incr delta => cases ha
  | overwrite w =>
    cases ha
    exact h.commit hp (.keep rfl) rfl rfl rfl rfl rfl (h.pending_eq_nil hp rfl rfl)
      (h.not_initializing hp rfl (fun hc => hc)) trivial rfl rfl rfl

theorem CounterInv.advance_merged {exclusive : Bool} {next : Int} {sequence commitState : Nat}
    (hp : s.tasks[i]? = some ⟨op, .merged exclusive next sequence commitState⟩) :
    CounterInv start ⟨{ s.counter with
        commitStates := s.counter.commitStates.modify commitState (·.complete sequence) },
      s.tasks.set i ⟨op, .waiting next sequence commitState⟩⟩ :=
  h.quiet hp (.release rfl) rfl rfl rfl nofun rfl rfl (.inl ⟨rfl, id⟩)
    (CounterCommitState.modify_complete_failure h.unfailed)

theorem CounterInv.advance {before : CounterPhase} (hp : s.tasks[i]? = some ⟨op, before⟩)
    (hok : s.Separated (.advance i)) {after : CounterPhase}
    (ha : s.counter.advance s.tasks i op before = some (c', after)) :
    CounterInv start ⟨c', s.tasks.set i ⟨op, after⟩⟩ := by
  cases before with
  | fast => exact h.advance_fast hp hok ha
  | slow | overwrite =>
    obtain ⟨hfree, ha⟩ := Option.ite_none_right_eq_some.mp ha
    cases ha
    exact h.pass hp (.write rfl hfree)
  | recheck => exact h.advance_recheck hp hok ha
  | base current => exact h.advance_base hp ha
  | merging exclusive next sequence commitState =>
    cases op with
    | overwrite w => cases ha
    | incr delta =>
      cases ha
      simp only [CounterSystem.Separated, hp] at hok
      exact h.merge hp (.keep (by cases exclusive <;> rfl)) rfl rfl rfl nofun id hok
  | merged exclusive next sequence commitState =>
    cases ha
    exact h.advance_merged hp
  | waiting next sequence commitState =>
    simp only [Counter.advance] at ha
    split at ha
    · cases ha
    · next state hstate =>
      rw [if_neg (by simp [h.unfailed state (mem_of_getElem? hstate)])] at ha
      split at ha
      · cases ha
        exact h.pass hp (.release rfl)
      · cases ha
  | update held tries =>
    cases tries with
    | zero =>
      cases ha
      exact h.pass hp (.release rfl)
    | succ tries =>
      cases op with
      | overwrite w => cases ha
      | incr delta =>
        simp only [Counter.advance] at ha
        split at ha
        · cases ha
          exact h.pass hp (.release rfl)
        · cases ha
          exact h.pass hp (.keep (by cases held <;> rfl))
  | observed held tries value => exact h.advance_observed hp hok ha
  | updated held next | overwritten =>
    cases ha
    exact h.quiet hp (.release rfl) rfl rfl rfl nofun rfl rfl (.inr rfl)
      h.unfailed
  | overwriting => exact h.advance_overwriting hp ha
  | acked reply | failed error => cases ha

theorem CounterInv.invoke (op : CounterOp) :
    CounterInv start { s with tasks := s.tasks ++ [CounterTask.start op] } := by
  have hfresh : (CounterTask.start op).guard = .free ∧ (CounterTask.start op).pending = none ∧
      (∀ j, (CounterTask.start op).effect j = none) ∧ ¬ (CounterTask.start op).Initializing := by
    cases op with
    | overwrite w => exact ⟨rfl, rfl, fun _ => rfl, id⟩
    | incr delta =>
      unfold CounterTask.start
      by_cases hunit : delta = 1 ∨ delta = -1
      · simp only [if_pos hunit]
        exact ⟨rfl, rfl, fun _ => rfl, id⟩
      · simp only [if_neg hunit]
        exact ⟨rfl, rfl, fun _ => rfl, id⟩
  obtain ⟨hguard, hpending, heffect, hinit⟩ := hfresh
  have hsame : (CounterSystem.mk s.counter (s.tasks ++ [CounterTask.start op])).pending =
      s.pending := by
    simp [CounterSystem.pending, filterMap_append, hpending]
  refine ⟨h.exclusive.push hguard, ?_, ?_, ?_, ?_, h.logged.push heffect, h.unfailed⟩
  · rw [hsame]
    exact h.legal
  · rw [hsame]
    exact h.plain
  · refine forall_mem_concat h.base fun current hphase => ?_
    exact absurd (by simp [CounterTask.Initializing, hphase]) hinit
  · rw [hsame]
    exact fun hsettled => h.cache fun t ht => hsettled t (mem_append_left _ ht)

theorem CounterInv.expire {value : StoredString} (hstored : s.counter.stored = some value)
    (hexpire : 0 < value.expireMs) :
    CounterInv start { s with
      counter :=
        { s.counter with
          stored := none
          log := s.counter.log ++ [⟨none, .overwrite .del, none⟩] } } := by
  have hnot : ¬ Plain s.counter.stored := by
    rintro (hc | hc)
    · rw [hstored] at hc
      cases hc
    · rw [hstored] at hc
      have hzero : value.expireMs = 0 := congrArg StoredString.expireMs (Option.some.inj hc)
      omega
  have hnil : s.pending = [] := by
    by_contra hne
    exact hnot (h.plain hne)
  have hlegal := h.legal
  rw [hnil] at hlegal
  refine ⟨h.exclusive, ?_, fun hne => absurd hnil hne, ?_, ?_, h.logged.anonymous rfl, h.unfailed⟩
  · show replay start _ = some (withPending none s.pending)
    rw [hnil]
    exact replay_append hlegal rfl
  · exact fun t ht current hphase => absurd (h.base t ht current hphase).1 hnot
  · exact fun hsettled entry hentry => absurd (h.cache hsettled entry hentry).1 hnot

theorem CounterInv.step {event : CounterEvent} {s' : CounterSystem} (hok : s.Separated event)
    (hs : s.step event = some s') : CounterInv start s' := by
  cases event with
  | invoke op =>
    cases hs
    exact h.invoke op
  | advance i =>
    simp only [CounterSystem.step] at hs
    split at hs
    · cases hs
    · next t hp =>
      split at hs
      · cases hs
      · next counter phase ha =>
        cases hs
        exact h.advance hp hok ha
  | conflict i =>
    simp only [CounterSystem.step] at hs
    split at hs
    · next op held tries value hp =>
      cases hs
      exact h.pass hp (.keep (by cases held <;> rfl))
    · cases hs
  | mergeFails i => exact absurd hok id
  | expire =>
    simp only [CounterSystem.step] at hs
    split at hs
    · next value hstored =>
      split at hs
      · next hexpire =>
        cases hs
        exact h.expire hstored hexpire
      · cases hs
    · cases hs
  | evict =>
    cases hs
    exact ⟨h.exclusive, h.legal, h.plain, h.base, fun _ _ hc => (by cases hc), h.logged,
      h.unfailed⟩

end

end

/--
**並行な加算は一列に並べられる。** どの step も `Separated` を満たす実行では、`log` がその順序である。
記録を実行し直すと、返事はすべて一致し、反映待ちを込めた値で終わる。返事の済んだ task は、ちょうど一度だけ
記録に現れる。
-/
theorem counter_replies_sequential {stored : Option StoredString} {events : List CounterEvent}
    {s : CounterSystem} (hok : Obeys step CounterSystem.Separated
      (start stored) events)
    (hrun : run step (start stored) events = some s) :
    replay stored s.counter.log = some (withPending s.counter.stored s.pending) ∧
      (∀ i op reply, s.tasks[i]? = some ⟨op, .acked reply⟩ →
        s.counter.log.filter (fun e => e.task = some i) = [⟨some i, op, reply⟩]) ∧
      (s.pending = [] → replay stored s.counter.log = some s.counter.stored) ∧
      (s.Settled → ∀ entry, s.counter.entry = some entry →
        entry.value = baseInteger s.counter.stored + s.pending.sum) := by
  have h : CounterInv stored s :=
    run_induction (fun _ _ _ hi ho hs => hi.step ho hs) (CounterInv.start stored) hok hrun
  refine ⟨h.legal, ?_, ?_, fun hsettled entry hentry => (h.cache hsettled entry hentry).2⟩
  · intro i op reply hi
    rw [h.logged i, hi]
    rfl
  · intro hnil
    have hlegal := h.legal
    rw [hnil] at hlegal
    exact hlegal

/-! ## 比較つき書き込みと cache が重なる実行 -/

instance (s : CounterSystem) (event : CounterEvent) : Decidable (s.Separated event) := by
  unfold CounterSystem.Separated
  split
  · split <;> infer_instance
  · infer_instance
  · infer_instance

namespace StaleCache

def five : Option StoredString := some ⟨.int 5, 0⟩

/-- `INCR` が cache を作り、返事 6 を受け取るまで。 -/
def warmUp : List CounterEvent := .invoke (.incr 1) :: replicate 7 (.advance 0)

/-- `INCRBY 10` が commit し、cache を落とす前に、次の `INCR` が古い cache から返事を決める。 -/
def overlap : List CounterEvent :=
  [.invoke (.incr 10), .advance 1, .advance 1,
    .invoke (.incr 1), .advance 2, .advance 2, .advance 2, .advance 2,
    .advance 1]

/-- `INCRBY 10` が cache を落としてから、次の `INCR` が来る。 -/
def apart : List CounterEvent :=
  [.invoke (.incr 10), .advance 1, .advance 1, .advance 1, .invoke (.incr 1)] ++
    replicate 7 (.advance 2)

def after (events : List CounterEvent) : CounterSystem :=
  (run step (start five) (warmUp ++ events)).getD
    (start five)

def acknowledged : List LogEntry :=
  [⟨some 0, .incr 1, some 6⟩, ⟨some 1, .incr 10, some 16⟩, ⟨some 2, .incr 1, some 7⟩]

theorem replies_not_sequential :
    run step (start five) (warmUp ++ overlap) = some (after overlap) ∧
      (after overlap).tasks = acknowledged.map (fun e => ⟨e.op, .acked e.reply⟩) ∧
      (after overlap).pending = [] ∧
      ∀ order : List LogEntry, order.Perm acknowledged → replay five order = none := by
  refine ⟨rfl, rfl, rfl, fun order horder => ?_⟩
  have hall : ∀ order ∈ acknowledged.permutations', replay five order = none := by decide
  exact hall order (mem_permutations'.mpr horder)

theorem apart_sequential :
    (after apart).tasks = [⟨.incr 1, .acked (some 6)⟩, ⟨.incr 10, .acked (some 16)⟩,
        ⟨.incr 1, .acked (some 17)⟩] ∧
      replay five (after apart).counter.log = some (some ⟨.int 17, 0⟩) := by
  have hok : Obeys step CounterSystem.Separated (start five)
      (warmUp ++ apart) := by
    decide
  have hrun : run step (start five) (warmUp ++ apart) =
      some (after apart) := rfl
  exact ⟨rfl, (counter_replies_sequential hok hrun).2.2.1 rfl⟩

end StaleCache

end Onedis.Store
