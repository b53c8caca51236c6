import Mathlib.Order.Bounds.Basic

/-!
# 編集距離

`fulltext_edit_distance` は表の行を二つだけ持つ。行の中身は、先頭から読んだ部分どうしの `lev` である。

* `editDistance_minimal` — 返る値は、一文字の編集を重ねて移るのに要る最小の回数で、距離の公理を満たす
-/

namespace Onedis.Store

open List

/-! ## 表を埋める -/

/-- 内側の loop。`diag` は `prev[j]`、`left` は `curr[j]` で、残りの `prev` は `prev[j + 1]` から始まる。 -/
def editCells (leftCh : Char) : Nat → Nat → List Char → List Nat → List Nat
  | diag, left, rightCh :: right, up :: prev =>
    let cell := min (min (up + 1) (left + 1)) (diag + if leftCh ≠ rightCh then 1 else 0)
    cell :: editCells leftCh up cell right prev
  | _, _, _, _ => []

/-- 外側の loop。`i` は `left` のうち読み終えた文字の数である。 -/
def editRows (right : List Char) : Nat → List Nat → List Char → List Nat
  | i, diag :: prev, leftCh :: left =>
    editRows right (i + 1) ((i + 1) :: editCells leftCh diag (i + 1) right prev) left
  | _, row, _ => row

def fulltextEditDistance (left right : String) : Nat :=
  (editRows right.toList 0 (range (right.toList.length + 1)) left.toList).getLastD 0

/-! ## 一文字の編集 -/

variable {α : Type*}

/-- 末尾の一文字の挿入、削除、置き換え。`append` は末尾より前での編集である。 -/
inductive EditStep : List α → List α → Prop
  | insert (l : List α) (x : α) : EditStep l (l ++ [x])
  | delete (l : List α) (x : α) : EditStep (l ++ [x]) l
  | substitute (l : List α) (x y : α) : EditStep (l ++ [x]) (l ++ [y])
  | append {l l' : List α} (h : EditStep l l') (x : α) : EditStep (l ++ [x]) (l' ++ [x])

/-- `n` 回の編集で移る。 -/
def Edits : Nat → List α → List α → Prop
  | 0, l, l' => l = l'
  | n + 1, l, l' => ∃ m, EditStep l m ∧ Edits n m l'

variable {l l' : List α} {m n : Nat}

theorem EditStep.symm (h : EditStep l l') : EditStep l' l := by
  induction h with
  | insert l x => exact .delete l x
  | delete l x => exact .insert l x
  | substitute l x y => exact .substitute l y x
  | append _ x ih => exact .append ih x

namespace Edits

theorem trans {l'' : List α} (h : Edits m l l') (h' : Edits n l' l'') : Edits (m + n) l l'' := by
  induction m generalizing l with
  | zero =>
    cases h
    rwa [Nat.zero_add]
  | succ m ih =>
    obtain ⟨k, hstep, hrest⟩ := h
    rw [Nat.succ_add]
    exact ⟨k, hstep, ih hrest⟩

theorem single (h : EditStep l l') : Edits 1 l l' := ⟨l', h, rfl⟩

theorem min (h : Edits m l l') (h' : Edits n l l') : Edits (min m n) l l' := by
  rw [Nat.min_def]
  split
  · exact h
  · exact h'

theorem append (h : Edits n l l') (x : α) : Edits n (l ++ [x]) (l' ++ [x]) := by
  induction n generalizing l with
  | zero =>
    cases h
    rfl
  | succ n ih =>
    obtain ⟨k, hstep, hrest⟩ := h
    exact ⟨k ++ [x], .append hstep x, ih hrest⟩

theorem symm (h : Edits n l l') : Edits n l' l := by
  induction n generalizing l with
  | zero => exact Eq.symm h
  | succ n ih =>
    obtain ⟨k, hstep, hrest⟩ := h
    exact (ih hrest).trans (single hstep.symm)

end Edits

/-! ## 再帰で書いた距離 -/

variable [DecidableEq α]

def lev : List α → List α → Nat
  | [], l' => l'.length
  | l, [] => l.length
  | x :: l, y :: l' =>
    min (min (lev l (y :: l') + 1) (lev (x :: l) l' + 1)) (lev l l' + if x ≠ y then 1 else 0)

@[simp] theorem lev_nil_left (l : List α) : lev [] l = l.length := by rw [lev]

@[simp] theorem lev_nil_right (l : List α) : lev l [] = l.length := by cases l <;> simp [lev]

theorem lev_cons_cons (x y : α) (l l' : List α) : lev (x :: l) (y :: l') =
    min (min (lev l (y :: l') + 1) (lev (x :: l) l' + 1)) (lev l l' + if x ≠ y then 1 else 0) := by
  rw [lev]

theorem lev_cons_left_le (x : α) (l l' : List α) : lev (x :: l) l' ≤ lev l l' + 1 := by
  cases l' with
  | nil => simp
  | cons y l' =>
    rw [lev_cons_cons]
    omega

theorem lev_cons_right_le (y : α) (l l' : List α) : lev l (y :: l') ≤ lev l l' + 1 := by
  cases l with
  | nil => simp
  | cons x l =>
    rw [lev_cons_cons]
    omega

/-- 一回の編集は距離を高々 1 しか縮めない。 -/
theorem EditStep.lev_le (h : EditStep l l') (t : List α) :
    lev l.reverse t ≤ lev l'.reverse t + 1 := by
  induction h generalizing t with
  | delete l x =>
    rw [reverse_concat]
    exact lev_cons_left_le x l.reverse t
  | insert l x =>
    rw [reverse_concat]
    induction t with
    | nil => simp; omega
    | cons z t ih =>
      have := lev_cons_right_le z l.reverse t
      rw [lev_cons_cons]
      omega
  | substitute l x y =>
    rw [reverse_concat, reverse_concat]
    induction t with
    | nil => simp
    | cons z t ih =>
      rw [lev_cons_cons, lev_cons_cons]
      split <;> split <;> omega
  | @append l l' _ x ihl =>
    rw [reverse_concat, reverse_concat]
    induction t with
    | nil => simpa using ihl []
    | cons z t ih =>
      have := ihl (z :: t)
      have := ihl t
      rw [lev_cons_cons, lev_cons_cons]
      omega

theorem lev_self (l : List α) : lev l l = 0 := by
  induction l with
  | nil => simp
  | cons x l ih => simp [lev_cons_cons, ih]

theorem Edits.lev_le (h : Edits n l l') : lev l.reverse l'.reverse ≤ n := by
  induction n generalizing l with
  | zero =>
    cases h
    exact (lev_self _).le
  | succ n ih =>
    obtain ⟨k, hstep, hrest⟩ := h
    exact (hstep.lev_le _).trans (Nat.succ_le_succ (ih hrest))

theorem edits_lev (l l' : List α) : Edits (lev l l') l.reverse l'.reverse := by
  induction l, l' using lev.induct with
  | case1 l' =>
    rw [lev_nil_left]
    induction l' with
    | nil => rfl
    | cons y l' ih =>
      rw [reverse_cons]
      exact ih.trans (.single (.insert _ y))
  | case2 l hl =>
    rw [lev_nil_right]
    clear hl
    induction l with
    | nil => rfl
    | cons x l ih =>
      rw [reverse_cons]
      exact ⟨_, .delete _ x, ih⟩
  | case3 x l y l' ihd ihi ihs =>
    rw [lev_cons_cons]
    -- 三つの候補のどれも、その回数の編集で実現できる。
    refine .min (.min ?_ ?_) ?_
    · rw [reverse_cons]
      exact ⟨_, .delete _ x, ihd⟩
    · rw [reverse_cons (a := y)]
      exact ihi.trans (.single (.insert _ y))
    · rw [reverse_cons, reverse_cons]
      refine (ihs.append x).trans ?_
      split
      · exact .single (.substitute _ x y)
      · next heq =>
        rw [not_not.mp heq]
        rfl

/-! ## 表の中身 -/

/-- `acc` に続けて `right` を読むあいだの `lev`。読んだ部分は逆順に持つ。 -/
def levCells (l : List α) : List α → List α → List Nat
  | _, [] => []
  | acc, y :: right => lev l (y :: acc) :: levCells l (y :: acc) right

theorem editCells_eq (c : Char) (l acc right : List Char) :
    editCells c (lev l acc) (lev (c :: l) acc) right (levCells l acc right) =
      levCells (c :: l) acc right := by
  induction right generalizing acc with
  | nil => rfl
  | cons y right ih =>
    simp only [editCells, levCells]
    rw [← lev_cons_cons, ih]

theorem editRows_eq (right left l : List Char) :
    editRows right l.length (lev l [] :: levCells l [] right) left =
      lev (left.reverse ++ l) [] :: levCells (left.reverse ++ l) [] right := by
  induction left generalizing l with
  | nil => rfl
  | cons c left ih =>
    have hfirst : l.length + 1 = lev (c :: l) [] := by simp
    simp only [editRows, reverse_cons, append_assoc, singleton_append]
    rw [hfirst, editCells_eq, ← ih]
    simp

theorem levCells_nil (acc right : List Char) :
    acc.length :: levCells [] acc right = range' acc.length (right.length + 1) := by
  induction right generalizing acc with
  | nil => rfl
  | cons y right ih =>
    rw [levCells, lev_nil_left, ih (y :: acc), length_cons, length_cons, range'_succ (n := _ + 1)]

theorem getLastD_levCells (l acc right : List Char) (d : Nat) :
    (lev l acc :: levCells l acc right).getLastD d = lev l (right.reverse ++ acc) := by
  induction right generalizing acc d with
  | nil => rfl
  | cons y right ih =>
    rw [levCells, getLastD_cons, ih]
    simp

theorem fulltextEditDistance_eq (left right : String) :
    fulltextEditDistance left right = lev left.toList.reverse right.toList.reverse := by
  have hrow : range (right.toList.length + 1) =
      lev [] ([] : List Char) :: levCells [] [] right.toList := by
    rw [lev_nil_left, levCells_nil, range_eq_range']
    rfl
  rw [fulltextEditDistance, hrow]
  have hrows := editRows_eq right.toList left.toList []
  rw [length_nil] at hrows
  rw [hrows, append_nil, getLastD_levCells, append_nil]

/--
**返る値は最小の編集回数である。** 挿入、削除、置き換えを重ねて一方を他方に変える回数の最小であり、したがって
文字列の距離になる。
-/
theorem editDistance_minimal (left right : String) :
    IsLeast {n | Edits n left.toList right.toList} (fulltextEditDistance left right) ∧
      (fulltextEditDistance left right = 0 ↔ left = right) ∧
      fulltextEditDistance left right = fulltextEditDistance right left ∧
      ∀ middle, fulltextEditDistance left right ≤
        fulltextEditDistance left middle + fulltextEditDistance middle right := by
  have hedits : ∀ s t : String, Edits (fulltextEditDistance s t) s.toList t.toList := by
    intro s t
    rw [fulltextEditDistance_eq]
    simpa using edits_lev s.toList.reverse t.toList.reverse
  have hle : ∀ {s t : String} {n}, Edits n s.toList t.toList → fulltextEditDistance s t ≤ n := by
    intro s t n h
    rw [fulltextEditDistance_eq]
    exact h.lev_le
  refine ⟨⟨hedits left right, fun n => hle⟩, ⟨fun hzero => ?_, ?_⟩, ?_, fun middle => ?_⟩
  · have h := hedits left right
    rw [hzero] at h
    exact String.toList_inj.mp h
  · rintro rfl
    exact Nat.le_zero.mp (hle (n := 0) rfl)
  · exact le_antisymm (hle (hedits right left).symm) (hle (hedits left right).symm)
  · exact hle ((hedits left middle).trans (hedits middle right))

end Onedis.Store
