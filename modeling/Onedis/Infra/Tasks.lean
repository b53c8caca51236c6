import Mathlib.Algebra.BigOperators.Group.List.Basic
import Mathlib.Data.List.Perm.Basic

/-!
# 並行に進む task と読み書き lock

task の集まりを局所状態の列で表す。lock は、どの task がどの `Guard` を握るかだけで表す。

* `Exclusive` — 書きの guard を握る task があれば、他の task は何も握っていない
* `Logged` — 記録が、効果の確定した task の分をちょうど一度ずつ持つこと
-/

namespace Onedis.Infra

open List

/-- task の握る lock。 -/
inductive Guard where
  | free
  | read
  | write
  deriving DecidableEq, Repr

variable {φ β : Type*}

def CanRead (guard : φ → Guard) (tasks : List φ) : Prop := ∀ p ∈ tasks, guard p ≠ .write

def CanWrite (guard : φ → Guard) (tasks : List φ) : Prop := ∀ p ∈ tasks, guard p = .free

instance (guard : φ → Guard) (tasks : List φ) : Decidable (CanRead guard tasks) :=
  inferInstanceAs (Decidable (∀ p ∈ tasks, guard p ≠ .write))

instance (guard : φ → Guard) (tasks : List φ) : Decidable (CanWrite guard tasks) :=
  inferInstanceAs (Decidable (∀ p ∈ tasks, guard p = .free))

def Exclusive (guard : φ → Guard) (tasks : List φ) : Prop :=
  ∀ (i j : Nat) (p q : φ), tasks[i]? = some p → tasks[j]? = some q → i ≠ j →
    guard p = .write → guard q = .free

/-- lock の持ち替え。取るには、ほかの task が邪魔をしていてはならない。 -/
inductive GuardMove (guard : φ → Guard) (tasks : List φ) (p q : φ) : Prop
  | keep (h : guard q = guard p)
  | release (h : guard q = .free)
  | read (h : guard q = .read) (hc : CanRead guard tasks)
  | write (h : guard q = .write) (hc : CanWrite guard tasks)

theorem guardMove_iff {guard : φ → Guard} {tasks : List φ} {p q : φ} :
    GuardMove guard tasks p q ↔ guard q = guard p ∨ guard q = .free ∨
      (guard q = .read ∧ CanRead guard tasks) ∨ (guard q = .write ∧ CanWrite guard tasks) := by
  constructor
  · rintro (h | h | ⟨h, hc⟩ | ⟨h, hc⟩)
    · exact .inl h
    · exact .inr (.inl h)
    · exact .inr (.inr (.inl ⟨h, hc⟩))
    · exact .inr (.inr (.inr ⟨h, hc⟩))
  · rintro (h | h | ⟨h, hc⟩ | ⟨h, hc⟩)
    · exact .keep h
    · exact .release h
    · exact .read h hc
    · exact .write h hc

instance (guard : φ → Guard) (tasks : List φ) (p q : φ) : Decidable (GuardMove guard tasks p q) :=
  decidable_of_iff' _ guardMove_iff

section

variable {guard : φ → Guard} {tasks : List φ} {i : Nat} {p q : φ}

theorem Exclusive.nil : Exclusive guard [] := by
  intro i j p q hp
  simp at hp

theorem getElem?_set_cases {j : Nat} {r : φ} (h : (tasks.set i q)[j]? = some r) :
    (j = i ∧ r = q) ∨ (j ≠ i ∧ tasks[j]? = some r) := by
  rw [getElem?_set] at h
  split at h
  · next hij =>
    split at h
    · exact .inl ⟨hij.symm, (Option.some.inj h).symm⟩
    · cases h
  · next hij => exact .inr ⟨fun hc => hij hc.symm, h⟩

section

variable (h : Exclusive guard tasks)
include h

theorem Exclusive.set (hp : tasks[i]? = some p) (hm : GuardMove guard tasks p q) :
    Exclusive guard (tasks.set i q) := by
  intro a b x y hx hy hab hw
  rcases getElem?_set_cases hx with ⟨rfl, rfl⟩ | ⟨hai, hx'⟩
  · -- 進んだ task が書きの guard を握る側である場合
    rcases getElem?_set_cases hy with ⟨rfl, -⟩ | ⟨-, hy⟩
    · exact absurd rfl hab
    · cases hm with
      | keep hk => exact h a b p y hp hy hab (hk ▸ hw)
      | release hf => rw [hf] at hw; cases hw
      | read hr _ => rw [hr] at hw; cases hw
      | write _ hc => exact hc y (mem_of_getElem? hy)
  · rcases getElem?_set_cases hy with ⟨rfl, rfl⟩ | ⟨-, hy⟩
    · cases hm with
      | keep hk => rw [hk]; exact h a b x p hx' hp hai hw
      | release hf => exact hf
      | read _ hc => exact absurd hw (hc x (mem_of_getElem? hx'))
      | write _ hc =>
        rw [hc x (mem_of_getElem? hx')] at hw
        cases hw
    · exact h a b x y hx' hy hab hw

theorem Exclusive.push (hq : guard q = .free) : Exclusive guard (tasks ++ [q]) := by
  have hcases : ∀ {j : Nat} {r : φ}, (tasks ++ [q])[j]? = some r → tasks[j]? = some r ∨ r = q := by
    intro j r hr
    rw [getElem?_append] at hr
    split at hr
    · exact .inl hr
    · exact .inr (mem_singleton.mp (mem_of_getElem? hr))
  intro a b x y hx hy hab hw
  rcases hcases hx with hx | rfl
  · rcases hcases hy with hy | rfl
    · exact h a b x y hx hy hab hw
    · exact hq
  · rw [hq] at hw; cases hw

theorem Exclusive.eq_of_held (hp : tasks[i]? = some p) (hw : guard p = .write) {j : Nat}
    (hq : tasks[j]? = some q) (hheld : guard q ≠ .free) : j = i := by
  by_contra hne
  exact hheld (h i j p q hp hq (fun hc => hne hc.symm) hw)

/-- 書きの guard を握る task のほかに、何かを握る task はない。 -/
theorem Exclusive.holder (hp : p ∈ tasks) (hw : guard p = .write) (hq : q ∈ tasks)
    (hheld : guard q ≠ .free) : q = p := by
  obtain ⟨i, hi⟩ := mem_iff_getElem?.mp hp
  obtain ⟨j, hj⟩ := mem_iff_getElem?.mp hq
  obtain rfl := h.eq_of_held hi hw hj hheld
  exact Option.some.inj (hj.symm.trans hi)

end

theorem forall_mem_set {P : φ → Prop} (h : ∀ t ∈ tasks, P t) (hq : P q) :
    ∀ t ∈ tasks.set i q, P t := by
  intro t ht
  rcases mem_or_eq_of_mem_set ht with ht | rfl
  · exact h t ht
  · exact hq

theorem mem_set_self (hp : tasks[i]? = some p) : q ∈ tasks.set i q :=
  mem_set (List.getElem?_eq_some_iff.mp hp).1 q

theorem forall_mem_of_set {P : φ → Prop} (hp : tasks[i]? = some p) (hP : P p)
    (h : ∀ t ∈ tasks.set i q, P t) : ∀ t ∈ tasks, P t := by
  intro t ht
  obtain ⟨j, hj⟩ := mem_iff_getElem?.mp ht
  by_cases hij : i = j
  · subst hij
    exact Option.some.inj (hp.symm.trans hj) ▸ hP
  · refine h t (mem_of_getElem? (i := j) ?_)
    rw [getElem?_set_ne hij]
    exact hj

end

/-! ## task から集めた値 -/

theorem filterMap_set_perm (f : φ → Option β) {tasks : List φ} {i : Nat} {p : φ} (q : φ)
    (hp : tasks[i]? = some p) :
    ((f p).toList ++ (tasks.set i q).filterMap f).Perm ((f q).toList ++ tasks.filterMap f) := by
  obtain ⟨hi, rfl⟩ := List.getElem?_eq_some_iff.mp hp
  have hcons : ∀ a l, filterMap f (a :: l) = (f a).toList ++ filterMap f l := by
    intro a l
    rw [filterMap_cons]
    cases f a <;> rfl
  have hold := (getElem_cons_eraseIdx_perm hi).filterMap f
  have hnew := (set_perm_cons_eraseIdx hi q).filterMap f
  rw [hcons] at hold hnew
  exact (hnew.append_left _).trans ((perm_append_comm_assoc ..).trans (hold.append_left _))

/-! ## task と記録の対応 -/

section

variable {ε : Type*} {owner : ε → Option Nat} {effect : Nat → φ → Option ε} {log : List ε}
  {tasks : List φ} {i : Nat} {p q : φ}

def Logged (owner : ε → Option Nat) (effect : Nat → φ → Option ε) (log : List ε)
    (tasks : List φ) : Prop :=
  ∀ i, log.filter (fun e => owner e = some i) = ((tasks[i]?).bind (effect i)).toList

variable (h : Logged owner effect log tasks)
include h

theorem Logged.push (hq : ∀ j, effect j q = none) : Logged owner effect log (tasks ++ [q]) := by
  intro j
  rw [h j]
  rcases Nat.lt_trichotomy j tasks.length with hlt | rfl | hgt
  · rw [getElem?_append_left hlt]
  · simp [hq]
  · have hout : (tasks ++ [q])[j]? = none := by
      rw [getElem?_eq_none_iff, length_append, length_singleton]
      omega
    rw [hout, getElem?_eq_none_iff.mpr (by omega)]

theorem Logged.set_keep (hp : tasks[i]? = some p) (he : effect i q = effect i p) :
    Logged owner effect log (tasks.set i q) := by
  intro j
  rw [h j]
  by_cases hj : i = j
  · subst hj
    rw [List.getElem?_set_self (List.getElem?_eq_some_iff.mp hp).1, hp]
    simp [he]
  · rw [getElem?_set_ne hj]

theorem Logged.set_record (hp : tasks[i]? = some p) {e : ε} (hnone : effect i p = none)
    (he : effect i q = some e) (ht : owner e = some i) :
    Logged owner effect (log ++ [e]) (tasks.set i q) := by
  intro j
  rw [filter_append, h j]
  by_cases hj : i = j
  · subst hj
    rw [List.getElem?_set_self (List.getElem?_eq_some_iff.mp hp).1, hp]
    simp [he, hnone, ht]
  · rw [getElem?_set_ne hj]
    have hne : ¬ owner e = some j := by
      rw [ht]
      exact fun hc => hj (Option.some.inj hc)
    simp [hne]

theorem Logged.anonymous {e : ε} (ht : owner e = none) :
    Logged owner effect (log ++ [e]) tasks := by
  intro j
  rw [filter_append, h j]
  simp [ht]

end

end Onedis.Infra
