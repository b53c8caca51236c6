import Mathlib.Data.List.Basic
import Mathlib.Tactic

/-!
# 両端から取り出す列

取り出す個数の上限が分かっていれば、両端の窓だけを手元に置けば足りる。

* `Windowed.popEnd` — 上限の範囲で取り出す限り、窓は全体と同じものを返す
-/

namespace Onedis.Infra

open List

variable {α : Type*}

def oriented (front : Bool) (l : List α) : List α := if front then l else l.reverse

@[simp] theorem oriented_true (l : List α) : oriented true l = l := rfl

@[simp] theorem oriented_false (l : List α) : oriented false l = l.reverse := rfl

@[simp] theorem oriented_oriented (front : Bool) (l : List α) :
    oriented front (oriented front l) = l := by
  cases front <;> simp

@[simp] theorem mem_oriented {front : Bool} {l : List α} {a : α} :
    a ∈ oriented front l ↔ a ∈ l := by
  cases front <;> simp

@[simp] theorem length_oriented (front : Bool) (l : List α) :
    (oriented front l).length = l.length := by
  cases front <;> simp

@[simp] theorem oriented_nil (front : Bool) : oriented front ([] : List α) = [] := by
  cases front <;> rfl

@[simp] theorem oriented_eq_nil {front : Bool} {l : List α} : oriented front l = [] ↔ l = [] := by
  cases front <;> simp

variable {front : Bool} {l : List α}

theorem nodup_oriented : (oriented front l).Nodup ↔ l.Nodup := by
  cases front <;> simp

def popEnd (front : Bool) (count : Nat) (l : List α) : List α × List α :=
  ((oriented front l).take count, oriented front ((oriented front l).drop count))

@[simp] theorem popEnd_zero (front : Bool) (l : List α) : popEnd front 0 l = ([], l) := by
  simp [popEnd]

@[simp] theorem popEnd_nil (front : Bool) (count : Nat) :
    popEnd front count ([] : List α) = ([], []) := by
  simp [popEnd]

theorem popEnd_append (front : Bool) (count : Nat) (l : List α) :
    (popEnd front count l).1 ++ oriented front (popEnd front count l).2 = oriented front l := by
  simp [popEnd]

theorem popEnd_true (count : Nat) (l : List α) :
    popEnd true count l = (l.take count, l.drop count) := rfl

theorem popEnd_false (count : Nat) (l : List α) :
    popEnd false count l = ((l.drop (l.length - count)).reverse, l.take (l.length - count)) := by
  simp only [popEnd, oriented_false]
  rw [take_reverse, drop_reverse, reverse_reverse]

theorem popEnd_min (front : Bool) (count : Nat) (l : List α) :
    popEnd front (min count l.length) l = popEnd front count l := by
  rcases Nat.le_total count l.length with h | h
  · rw [Nat.min_eq_left h]
  · rw [Nat.min_eq_right h]
    have hlen : (oriented front l).length = l.length := length_oriented front l
    unfold popEnd
    rw [take_of_length_le hlen.le, take_of_length_le (hlen.trans_le h),
      drop_of_length_le hlen.le, drop_of_length_le (hlen.trans_le h)]

theorem popEnd_rest_of_nil {count : Nat} (h : (popEnd front count l).1 = []) :
    (popEnd front count l).2 = l := by
  have happ := popEnd_append front count l
  rw [h, nil_append] at happ
  rw [← oriented_oriented front (popEnd front count l).2, happ, oriented_oriented]

theorem mem_popEnd_rest {count : Nat} (h : l.Nodup) {a : α} :
    a ∈ (popEnd front count l).2 ↔ a ∈ l ∧ a ∉ (popEnd front count l).1 := by
  have happ := popEnd_append front count l
  have hnodup : ((popEnd front count l).1 ++ oriented front (popEnd front count l).2).Nodup := by
    rw [happ]
    exact nodup_oriented.mpr h
  have hmem : a ∈ l ↔ a ∈ (popEnd front count l).1 ∨ a ∈ (popEnd front count l).2 := by
    rw [← @mem_oriented α front, ← happ, mem_append, mem_oriented]
  have hdisj := disjoint_of_nodup_append hnodup
  constructor
  · intro ha
    exact ⟨hmem.mpr (.inr ha), fun h' => hdisj h' (mem_oriented.mpr ha)⟩
  · rintro ⟨ha, hnot⟩
    exact (hmem.mp ha).resolve_left hnot

theorem popEnd_fst_subset {count : Nat} {a : α} (h : a ∈ (popEnd front count l).1) : a ∈ l :=
  mem_oriented.mp (mem_of_mem_take h)

theorem popEnd_rest_sublist (front : Bool) (count : Nat) (l : List α) :
    (popEnd front count l).2.Sublist l := by
  cases front with
  | true => exact drop_sublist count l
  | false =>
    have hsub : ((l.reverse.drop count).reverse).Sublist l.reverse.reverse :=
      (drop_sublist count l.reverse).reverse
    rwa [reverse_reverse] at hsub

/-! ## 窓 -/

/--
手元の列 `w` は全体 `l` に等しいか、間の部分だけを欠く。欠くときは、前から `a` 個、後ろから `b` 個を
取り出しても、なお `p` 個と `q` 個が残る。
-/
def Windowed (a b p q : Nat) (w l : List α) : Prop :=
  w = l ∨ ∃ x m y, w = x ++ y ∧ l = x ++ (m ++ y) ∧ a + p ≤ x.length ∧ b + q ≤ y.length

namespace Windowed

variable {a b p q : Nat} {w l : List α}

theorem reverse (h : Windowed a b p q w l) : Windowed b a q p w.reverse l.reverse := by
  rcases h with rfl | ⟨x, m, y, rfl, rfl, hx, hy⟩
  · exact .inl rfl
  · exact .inr ⟨y.reverse, m.reverse, x.reverse, by simp, by simp, by simpa, by simpa⟩

theorem popFront {c : Nat} (h : Windowed (a + c) b p q w l) :
    w.take c = l.take c ∧ Windowed a b p q (w.drop c) (l.drop c) := by
  rcases h with rfl | ⟨x, m, y, rfl, rfl, hx, hy⟩
  · exact ⟨rfl, .inl rfl⟩
  · have hc : c ≤ x.length := by omega
    rw [take_append_of_le_length hc, take_append_of_le_length hc,
      drop_append_of_le_length hc, drop_append_of_le_length hc]
    refine ⟨rfl, .inr ⟨x.drop c, m, y, rfl, rfl, ?_, hy⟩⟩
    rw [length_drop]
    omega

/-- **上限の範囲で取り出す限り、窓は全体と同じものを返す。** -/
theorem popEnd {c : Nat}
    (h : Windowed (if front then a + c else a) (if front then b else b + c) p q w l) :
    (popEnd front c w).1 = (Infra.popEnd front c l).1 ∧
      Windowed a b p q (Infra.popEnd front c w).2 (Infra.popEnd front c l).2 := by
  cases front with
  | true => exact h.popFront
  | false =>
    obtain ⟨hpop, hrest⟩ := (reverse h).popFront
    exact ⟨hpop, hrest.reverse⟩

theorem eq_nil_iff (h : Windowed a b p q w l) (hpq : 0 < p + q) : w = [] ↔ l = [] := by
  rcases h with rfl | ⟨x, m, y, rfl, rfl, hx, hy⟩
  · exact Iff.rfl
  · have hlen : 0 < x.length + y.length := by omega
    constructor
    · intro hw
      have hzero := congrArg length hw
      rw [length_append, length_nil] at hzero
      omega
    · intro hl
      have hzero := congrArg length hl
      simp only [length_append, length_nil] at hzero
      omega

end Windowed

/-- 前の `i` 個と後ろの `j` 個からなる部分列。重なるなら全体である。 -/
def bothEnds (i j : Nat) (l : List α) : List α :=
  if l.length ≤ i + j then l else l.take i ++ l.drop (l.length - j)

theorem mem_bothEnds {i j : Nat} {a : α} :
    a ∈ bothEnds i j l ↔ a ∈ l.take i ∨ a ∈ l.reverse.take j := by
  have hlast : a ∈ l.reverse.take j ↔ a ∈ l.drop (l.length - j) := by rw [take_reverse, mem_reverse]
  rw [bothEnds, hlast]
  split
  · next h =>
    constructor
    · intro ha
      rw [← take_append_drop i l] at ha
      refine (mem_append.mp ha).imp_right fun hdrop => ?_
      have hsub : l.drop i <:+ l.drop (l.length - j) := by
        rw [show i = (l.length - j) + (i - (l.length - j)) by omega, ← drop_drop]
        exact drop_suffix ..
      exact hsub.subset hdrop
    · rintro (ha | ha)
      · exact mem_of_mem_take ha
      · exact mem_of_mem_drop ha
  · exact mem_append

theorem bothEnds_sublist (i j : Nat) (l : List α) : (bothEnds i j l).Sublist l := by
  unfold bothEnds
  split
  · exact Sublist.refl l
  · next h =>
    conv_rhs => rw [← take_append_drop i l]
    refine (Sublist.refl _).append ?_
    rw [show l.length - j = i + (l.length - j - i) by omega, ← drop_drop]
    exact drop_sublist ..

theorem windowed_bothEnds (a b p q : Nat) (l : List α) :
    Windowed a b p q (bothEnds (a + p) (b + q) l) l := by
  unfold bothEnds
  split
  · exact .inl rfl
  · next h =>
    refine .inr ⟨l.take (a + p), (l.drop (a + p)).take (l.length - (b + q) - (a + p)),
      l.drop (l.length - (b + q)), rfl, ?_, ?_, ?_⟩
    · conv_lhs => rw [← take_append_drop (a + p) l,
        ← take_append_drop (l.length - (b + q) - (a + p)) (l.drop (a + p))]
      rw [drop_drop, show a + p + (l.length - (b + q) - (a + p)) = l.length - (b + q) by omega]
    · rw [length_take]
      omega
    · rw [length_drop]
      omega

end Onedis.Infra
