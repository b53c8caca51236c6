import Onedis.Infra.Run
import Onedis.Infra.Scan

/-!
# 位置による頁送り

並んだ列を少しずつ読む走査。頁は cursor の位置から先を順に見て、途中で止まれば次の位置を、終われば 0 を
返す。頁と頁の間に、列は変わってよい。

* `Walk.covers` — 位置より前の要素が残り続ければ、ずっとある要素は必ず返される
-/

namespace Onedis.Infra

open List

/-! ## 並んだ列の位置 -/

section

variable {α : Type*} {lt : α → α → Prop}

theorem pairwise_split {l : List α} (hsorted : l.Pairwise lt) {k : Nat} {p : α}
    (hp : l[k]? = some p) :
    (∀ q ∈ l.take k, lt q p) ∧ ∀ q ∈ l.drop k, q = p ∨ lt p q := by
  have hdrop : l.drop k = p :: l.drop (k + 1) := by
    obtain ⟨hk, rfl⟩ := List.getElem?_eq_some_iff.mp hp
    exact drop_eq_getElem_cons hk
  rw [← take_append_drop k l, hdrop, pairwise_append] at hsorted
  obtain ⟨-, hrest, hlt⟩ := hsorted
  refine ⟨fun q hq => hlt q hq p mem_cons_self, fun q hq => ?_⟩
  rw [hdrop] at hq
  exact (mem_cons.mp hq).imp_right fun hq => (pairwise_cons.mp hrest).1 q hq

/-- **位置より前の要素がすべて残れば、位置から先の要素は位置より前に来ない。** -/
theorem position_kept [IsTrans α lt] [Std.Irrefl lt] {l l' : List α} (hl : l.Pairwise lt)
    (hl' : l'.Pairwise lt) {c : Nat} (hkept : ∀ y ∈ l.take c, y ∈ l') {x : α} {i j : Nat}
    (hi : l[i]? = some x) (hc : c ≤ i) (hj : l'[j]? = some x) : c ≤ j := by
  have hlen : c ≤ l.length := hc.trans (List.getElem?_eq_some_iff.mp hi).1.le
  have hbefore : ∀ y ∈ l.take c, y ∈ l'.take j := by
    intro y hy
    have hlt : lt y x := (pairwise_split hl hi).1 y
      ((take_sublist_take_left hc).subset hy)
    have hmem := hkept y hy
    rw [← take_append_drop j l', mem_append] at hmem
    refine hmem.resolve_right fun hdrop => ?_
    rcases (pairwise_split hl' hj).2 y hdrop with rfl | hgt
    · exact Std.Irrefl.irrefl y hlt
    · exact Std.Irrefl.irrefl y (IsTrans.trans y x y hlt hgt)
  have hnodup : (l.take c).Nodup := by
    refine List.Pairwise.imp ?_ (hl.sublist (take_sublist c l))
    rintro a b hab rfl
    exact Std.Irrefl.irrefl a hab
  have hcard := (hnodup.subperm hbefore).length_le
  rw [length_take, length_take] at hcard
  omega

end

/-! ## 順に見る -/

section

variable {α σ : Type*} (visit : σ → α → Bool × σ)

def visitWhile : σ → List α → Bool × σ
  | s, [] => (true, s)
  | s, a :: l =>
    match visit s a with
    | (true, s) => visitWhile s l
    | (false, s) => (false, s)

theorem visitWhile_append (s : σ) (l l' : List α) : visitWhile visit s (l ++ l') =
      match visitWhile visit s l with
      | (true, s) => visitWhile visit s l'
      | (false, s) => (false, s) := by
  induction l generalizing s with
  | nil => rfl
  | cons a l ih =>
    simp only [cons_append, visitWhile]
    match visit s a with
    | (true, s) => exact ih s
    | (false, s) => rfl

end

namespace Table

variable {t : Table} {lower : Bytes} {upper : Option Bytes}

theorem eq_of_key_eq {r r' : Bytes × Bytes} (hr : r ∈ t.records) (hr' : r' ∈ t.records)
    (hkey : r.1 = r'.1) : r = r' := by
  have hnodup : (t.records.map Prod.fst).Nodup := by
    refine pairwise_map.mpr (t.ascending.imp fun {a b} hlt heq => ?_)
    rw [heq, bytesLt_irrefl] at hlt
    cases hlt
  exact inj_on_of_nodup_map hnodup hr hr' hkey

theorem scanRange_ascending (t : Table) (lower : Bytes) (upper : Option Bytes) :
    (t.scanRange lower upper).Pairwise fun r r' => bytesLt r.1 r'.1 = true := t.ascending.filter _

/-- 走査の `k` 番目の key より小さい key は、はじめの `k` 個のものである。 -/
theorem filter_key {k : Nat} {r : Bytes × Bytes} (h : (t.scanRange lower upper)[k]? = some r) :
    ((t.scanRange lower upper).filter fun q => bytesLt q.1 r.1) =
        (t.scanRange lower upper).take k ∧
      ((t.scanRange lower upper).filter fun q => !bytesLt q.1 r.1) =
        (t.scanRange lower upper).drop k := by
  obtain ⟨hbefore, hafter⟩ := pairwise_split (t.scanRange_ascending lower upper) h
  rw [← filter_eq_self] at hbefore
  have hdrop : ((t.scanRange lower upper).drop k).filter (fun q => !bytesLt q.1 r.1) =
      (t.scanRange lower upper).drop k := by
    refine filter_eq_self.mpr fun q hq => ?_
    rcases hafter q hq with rfl | hlt
    · rw [bytesLt_irrefl, Bool.not_false]
    · rw [bytesLt_asymm hlt, Bool.not_false]
  constructor
  · conv_lhs => rw [← take_append_drop k (t.scanRange lower upper), ← hdrop]
    simp [filter_append, hbefore, filter_filter]
  · conv_lhs => rw [← take_append_drop k (t.scanRange lower upper), ← hbefore]
    simp [filter_append, hdrop, filter_filter]

/-- 区間の途中の key を下端にすると、その record から先を読む。 -/
theorem scanRange_from {k : Nat} {r : Bytes × Bytes} (h : (t.scanRange lower upper)[k]? = some r) :
    t.scanRange r.1 upper = (t.scanRange lower upper).drop k := by
  have hr : bytesLt r.1 lower = false := by
    have hw := (mem_scanRange.mp (mem_of_getElem? h)).2
    simp only [within, Bool.and_eq_true, Bool.not_eq_true'] at hw
    exact hw.1
  have hfilter : t.scanRange r.1 upper =
      (t.scanRange lower upper).filter fun q => !bytesLt q.1 r.1 := by
    unfold scanRange
    rw [filter_filter]
    refine filter_congr fun q _ => ?_
    unfold within
    cases hq : bytesLt q.1 r.1 with
    | true => simp
    | false =>
      have hlow : bytesLt q.1 lower = false := Bool.eq_false_iff.mpr fun hlt => by
        rw [bytesLt_of_le_of_lt hq hlt] at hr
        cases hr
      simp [hlow]
  exact hfilter.trans (filter_key h).2

/-- `scan_range_raw_start_at_offset`。0 番目は、record がなくても区間の下端である。 -/
def startAtOffset (t : Table) (lower : Bytes) (upper : Option Bytes) (offset : Nat) :
    Option Bytes :=
  if offset = 0 then some lower else (t.scanRange lower upper)[offset]?.map Prod.fst

theorem scanRange_startAtOffset {offset : Nat} {start : Bytes}
    (h : t.startAtOffset lower upper offset = some start) :
    t.scanRange start upper = (t.scanRange lower upper).drop offset := by
  unfold startAtOffset at h
  split at h
  · next hzero =>
    cases h
    rw [hzero, drop_zero]
  · obtain ⟨r, hr, rfl⟩ := Option.map_eq_some_iff.mp h
    exact scanRange_from hr

theorem length_le_of_startAtOffset {offset : Nat} (h : t.startAtOffset lower upper offset = none) :
    (t.scanRange lower upper).length ≤ offset := by
  unfold startAtOffset at h
  split at h
  · cases h
  · exact getElem?_eq_none_iff.mp (Option.map_eq_none_iff.mp h)

theorem le_length_of_startAtOffset {offset : Nat} {start : Bytes}
    (h : t.startAtOffset lower upper offset = some start) :
    offset ≤ (t.scanRange lower upper).length := by
  unfold startAtOffset at h
  split at h
  · omega
  · obtain ⟨r, hr, -⟩ := Option.map_eq_some_iff.mp h
    exact (List.getElem?_eq_some_iff.mp hr).1.le

section

variable {σ : Type*} (visit : σ → Bytes × Bytes → Bool × σ) (limitOf : σ → Nat)

/-- 区間を小分けに読む。次の区間は、最後に読んだ key に `0x00` を足した key から始まる。 -/
def visitBatches (t : Table) (upper : Option Bytes) : Nat → Bytes → σ → Bool × σ
  | 0, _, s => (true, s)
  | fuel + 1, lower, s =>
    let entries := t.scanRangeLimited lower upper false (limitOf s)
    match entries.getLast? with
    | none => (true, s)
    | some last =>
      match visitWhile visit s entries with
      | (false, s') => (false, s')
      | (true, s') =>
        if entries.length < limitOf s then (true, s')
        else if upper.any fun u => !bytesLt (last.1 ++ [0]) u then (true, s')
        else visitBatches t upper fuel (last.1 ++ [0]) s'

theorem scanRange_after {k : Nat} {last : Bytes × Bytes}
    (h : (t.scanRange lower upper)[k]? = some last) :
    t.scanRange (last.1 ++ [0]) upper = (t.scanRange lower upper).drop (k + 1) := by
  have hnext : t.scanRange (last.1 ++ [0]) upper =
      (t.scanRange last.1 upper).filter fun q => bytesLt last.1 q.1 := by
    unfold scanRange
    rw [filter_filter]
    refine filter_congr fun q _ => ?_
    unfold within
    rw [bytesLt_snoc_zero, Bool.not_not]
    cases hq : bytesLt last.1 q.1 with
    | false => simp
    | true => simp [bytesLt_asymm hq]
  have hdrop : (t.scanRange lower upper).drop k =
      last :: (t.scanRange lower upper).drop (k + 1) := by
    obtain ⟨hk, rfl⟩ := List.getElem?_eq_some_iff.mp h
    exact drop_eq_getElem_cons hk
  have hsorted := (t.scanRange_ascending lower upper).sublist (drop_sublist k _)
  rw [hdrop, pairwise_cons] at hsorted
  rw [hnext, scanRange_from h, hdrop, filter_cons, bytesLt_irrefl, if_neg Bool.false_ne_true]
  exact filter_eq_self.mpr fun q hq => hsorted.1 q hq

theorem scanRange_eq_nil (h : (upper.any fun u => !bytesLt lower u) = true) :
    t.scanRange lower upper = [] := by
  cases upper with
  | none => cases h
  | some u =>
    refine filter_eq_nil_iff.mpr fun q _ hw => ?_
    simp only [Option.any_some, within, Option.all_some, Bool.and_eq_true,
      Bool.not_eq_true'] at hw h
    rw [bytesLt_of_le_of_lt hw.1 hw.2] at h
    cases h

/-- **小分けの走査は、区間の全体を順に見る。** 残りの record の数についての帰納法。 -/
theorem visitBatches_eq (hlimit : ∀ s, 0 < limitOf s) {fuel : Nat} {lower : Bytes}
    (hfuel : (t.scanRange lower upper).length < fuel) (s : σ) :
    visitBatches visit limitOf t upper fuel lower s =
      visitWhile visit s (t.scanRange lower upper) := by
  induction fuel generalizing lower s with
  | zero => exact absurd hfuel (Nat.not_lt_zero _)
  | succ fuel ih =>
    have hbatch : t.scanRangeLimited lower upper false (limitOf s) =
        (t.scanRange lower upper).take (limitOf s) := rfl
    rw [visitBatches, hbatch]
    generalize hl : t.scanRange lower upper = l at hfuel
    have hpos := hlimit s
    cases hlast : (l.take (limitOf s)).getLast? with
    | none =>
      rw [getLast?_eq_none_iff, take_eq_nil_iff] at hlast
      rcases hlast with h | rfl
      · omega
      · rfl
    | some last =>
      dsimp only
      have hall := visitWhile_append visit s (l.take (limitOf s)) (l.drop (limitOf s))
      rw [take_append_drop] at hall
      rw [hall]
      match visitWhile visit s (l.take (limitOf s)) with
      | (false, s') => rfl
      | (true, s') =>
        dsimp only
        split
        · next hshort =>
          rw [length_take] at hshort
          rw [drop_eq_nil_of_le (by omega)]
          rfl
        · next hfull =>
          rw [length_take, Nat.not_lt] at hfull
          have hlen : limitOf s ≤ l.length := by omega
          have hk : (t.scanRange lower upper)[limitOf s - 1]? = some last := by
            rw [getLast?_eq_getElem?, length_take, Nat.min_eq_left hlen,
              getElem?_take_of_lt (by omega)] at hlast
            rw [hl, hlast]
          have hafter := scanRange_after hk
          rw [hl, Nat.sub_add_cancel hpos] at hafter
          rw [← hafter]
          split
          · next hend =>
            -- 上端を超えたので、残りはない。
            rw [scanRange_eq_nil hend]
            rfl
          · refine ih ?_ s'
            rw [hafter, length_drop]
            omega

end

end Table

/-! ## 一つの頁 -/

/-- 頁を作る走査が一つの record をどう扱うか。 -/
inductive Seen (γ : Type*)
  | uncounted
  | skipped
  | offered (cost : Nat) (item : γ)

/-- `u64` の上限。 -/
def u64Limit : Nat := 2 ^ 64 - 1

/-- `saturating_add(1)` -/
def satSucc (n : Nat) : Nat := min (n + 1) u64Limit

/-- 頁の途中の状態。位置、使った byte 数、集めたもの、止まったかどうか。 -/
structure PageState (γ : Type*) where
  position : Nat
  bytes : Nat
  found : List γ
  stopped : Bool
  refused : Bool

namespace PageState

variable {γ : Type*}

/-- `bytes` は、応答の決まった部分の長さである。 -/
def start (cursor bytes : Nat) : PageState γ := ⟨cursor, bytes, [], false, false⟩

/-- 要素を一つ見る。応答が `budget` を超えるなら、既に返すものがあれば手前で止まり、なければ失敗する。 -/
def visit (budget count : Nat) (seen : Seen γ) (st : PageState γ) : Bool × PageState γ :=
  match seen with
  | .uncounted => (true, st)
  | .skipped => (true, { st with position := satSucc st.position })
  | .offered cost item =>
    if budget < st.bytes + cost then
      if st.found.isEmpty then
        (false, { st with position := satSucc st.position, stopped := true, refused := true })
      else (false, { st with position := satSucc st.position - 1, stopped := true })
    else
      let full := decide (count ≤ st.found.length + 1)
      (!full, ⟨satSucc st.position, st.bytes + cost, st.found ++ [item], full, st.refused⟩)

def finish (st : PageState γ) : Option (Nat × List γ) :=
  if st.refused then none else some (if st.stopped then st.position else 0, st.found)

def visitAll {α : Type*} (budget count : Nat) (see : α → Seen γ) (st : PageState γ) (l : List α) :
    PageState γ :=
  (visitWhile (fun st a => visit budget count (see a) st) st l).2

end PageState

section

variable {α γ : Type*} {budget count : Nat} {see : α → Seen γ}

open PageState

theorem visitAll_cons (st : PageState γ) (a : α) (l : List α) :
    visitAll budget count see st (a :: l) = if (visit budget count (see a) st).1 then
        visitAll budget count see (visit budget count (see a) st).2 l
      else (visit budget count (see a) st).2 := by
  unfold visitAll
  rw [visitWhile]
  match visit budget count (see a) st with
  | (true, _) => rfl
  | (false, _) => rfl

/-- 一つの record を訪れた結果の場合分け。 -/
inductive VisitOutcome (budget count : Nat) (st : PageState γ) :
    Seen γ → Bool × PageState γ → Prop
  | uncounted : VisitOutcome budget count st .uncounted (true, st)
  | skipped : VisitOutcome budget count st .skipped
      (true, { st with position := satSucc st.position })
  | refused (cost : Nat) (item : γ) (hcost : budget < st.bytes + cost) (hfound : st.found = []) :
      VisitOutcome budget count st (.offered cost item)
        (false, { st with position := satSucc st.position, stopped := true, refused := true })
  | held (cost : Nat) (item : γ) (hfound : st.found ≠ []) :
      VisitOutcome budget count st (.offered cost item)
        (false, { st with position := satSucc st.position - 1, stopped := true })
  | taken (cost : Nat) (item : γ) (full : Bool) :
      VisitOutcome budget count st (.offered cost item)
        (!full, ⟨satSucc st.position, st.bytes + cost, st.found ++ [item], full, st.refused⟩)

theorem visit_outcome (seen : Seen γ) (st : PageState γ) :
    VisitOutcome budget count st seen (visit budget count seen st) := by
  cases seen with
  | uncounted => exact .uncounted
  | skipped => exact .skipped
  | offered cost item =>
    unfold visit
    dsimp only
    split
    · next hcost =>
      split
      · next hempty => exact .refused cost item hcost (isEmpty_iff.mp hempty)
      · next hempty => exact .held cost item fun h => hempty (isEmpty_iff.mpr h)
    · exact .taken cost item _

theorem found_subset_visitAll (st : PageState γ) (l : List α) :
    st.found ⊆ (visitAll budget count see st l).found := by
  induction l generalizing st with
  | nil => exact Subset.refl _
  | cons a l ih =>
    rw [visitAll_cons]
    have hvisit := @visit_outcome γ budget count (see a) st
    generalize visit budget count (see a) st = out at hvisit ⊢
    generalize see a = seen at hvisit
    cases hvisit with
    | uncounted => exact ih st
    | skipped => exact ih { st with position := satSucc st.position }
    | refused cost item hcost hfound => exact Subset.refl _
    | held cost item hfound => exact Subset.refl _
    | taken cost item full =>
      have happend : st.found ⊆ st.found ++ [item] := subset_append_left _ _
      cases full with
      | true => exact happend
      | false => exact Subset.trans happend (ih ⟨_, _, st.found ++ [item], _, _⟩)

/-- **頁が見た要素。** 返そうとする要素は、返されるか、次の位置から先にある。 -/
theorem visitAll_covers {st : PageState γ} {l : List α}
    (hok : (visitAll budget count see st l).refused = false) {i cost : Nat} {a : α} {item : γ}
    (hi : l[i]? = some a) (hsee : see a = .offered cost item) :
    item ∈ (visitAll budget count see st l).found ∨
      ((visitAll budget count see st l).stopped = true ∧
        (visitAll budget count see st l).position ≤ st.position + i) := by
  induction l generalizing st i with
  | nil => cases hi
  | cons b l ih =>
    have hsub := @found_subset_visitAll α γ budget count see
    rw [visitAll_cons] at hok ⊢
    have hvisit := @visit_outcome γ budget count (see b) st
    generalize visit budget count (see b) st = out at hvisit hok ⊢
    generalize hb : see b = seen at hvisit
    -- 先頭の要素か、後ろの要素かで分ける。
    have hcases : (i = 0 ∧ seen = .offered cost item) ∨ ∃ j, i = j + 1 ∧ l[j]? = some a := by
      cases i with
      | zero =>
        cases hi
        exact .inl ⟨rfl, hb.symm.trans hsee⟩
      | succ j => exact .inr ⟨j, rfl, hi⟩
    have hsucc : satSucc st.position ≤ st.position + 1 := Nat.min_le_left _ _
    cases hvisit with
    | uncounted =>
      rcases hcases with ⟨-, h⟩ | ⟨j, rfl, hj⟩
      · cases h
      · refine (ih hok hj).imp_right fun h => ⟨h.1, h.2.trans ?_⟩
        show st.position + j ≤ _
        omega
    | skipped =>
      rcases hcases with ⟨-, h⟩ | ⟨j, rfl, hj⟩
      · cases h
      · refine (ih hok hj).imp_right fun h => ⟨h.1, h.2.trans ?_⟩
        show satSucc st.position + j ≤ _
        omega
    | refused cost' item' hcost hfound => cases hok
    | held cost' item' hfound =>
      refine .inr ⟨rfl, ?_⟩
      show satSucc st.position - 1 ≤ st.position + i
      omega
    | taken cost' item' full =>
      cases full with
      | true =>
        rcases hcases with ⟨-, h⟩ | ⟨j, rfl, -⟩
        · cases h
          exact .inl (mem_append_right _ mem_cons_self)
        · refine .inr ⟨rfl, ?_⟩
          show satSucc st.position ≤ _
          omega
      | false =>
        rcases hcases with ⟨-, h⟩ | ⟨j, rfl, hj⟩
        · cases h
          exact .inl (hsub _ _ (mem_append_right _ mem_cons_self))
        · refine (ih hok hj).imp_right fun h => ⟨h.1, h.2.trans ?_⟩
          show satSucc st.position + j ≤ _
          omega

theorem visitAll_progress {st : PageState γ} {l : List α} {c : Nat}
    (hroom : st.position + l.length ≤ u64Limit) (hle : c ≤ st.position)
    (hfound : st.found ≠ [] → c < st.position) (hstopped : st.stopped = false)
    (hstop : (visitAll budget count see st l).stopped = true)
    (hok : (visitAll budget count see st l).refused = false) :
    c < (visitAll budget count see st l).position := by
  induction l generalizing st with
  | nil =>
    have : st.stopped = true := hstop
    rw [hstopped] at this
    cases this
  | cons b l ih =>
    rw [length_cons] at hroom
    rw [visitAll_cons] at hstop hok ⊢
    have hvisit := @visit_outcome γ budget count (see b) st
    have hsucc : satSucc st.position = st.position + 1 := Nat.min_eq_left (by omega)
    generalize visit budget count (see b) st = out at hvisit hstop hok ⊢
    generalize see b = seen at hvisit
    cases hvisit with
    | uncounted =>
      refine ih ?_ hle hfound hstopped hstop hok
      show st.position + l.length ≤ u64Limit
      omega
    | skipped =>
      refine ih ?_ ?_ ?_ hstopped hstop hok
      · dsimp only
        omega
      · dsimp only
        omega
      · intro _
        dsimp only
        omega
    | refused cost item hcost hempty => cases hok
    | held cost item hsome =>
      show c < satSucc st.position - 1
      have := hfound hsome
      omega
    | taken cost item full =>
      cases full with
      | true =>
        show c < satSucc st.position
        omega
      | false =>
        refine ih ?_ ?_ ?_ rfl hstop hok
        · dsimp only
          omega
        · dsimp only
          omega
        · intro _
          dsimp only
          omega

end

/-! ### 列の位置から始める頁 -/

section

variable {α γ : Type*} {budget count bytes cursor next : Nat} {see : α → Seen γ} {l : List α}
  {found : List γ}

open PageState

theorem finish_eq_some {st : PageState γ} (h : st.finish = some (next, found)) :
    st.refused = false ∧ next = (if st.stopped then st.position else 0) ∧ found = st.found := by
  obtain ⟨hok, h⟩ := Option.ite_none_left_eq_some.mp h
  cases h
  exact ⟨Bool.eq_false_iff.mpr hok, rfl, rfl⟩

/-- 位置から先の返そうとする要素は、返されるか、次の位置から先にある。 -/
theorem page_covers (hsize : l.length ≤ u64Limit)
    (h : (visitAll budget count see (.start cursor bytes) (l.drop cursor)).finish =
      some (next, found)) {i cost : Nat} {a : α} {item : γ} (hi : l[i]? = some a) (hle : cursor ≤ i)
    (hsee : see a = .offered cost item) : item ∈ found ∨ (next ≠ 0 ∧ next ≤ i) := by
  obtain ⟨hok, hnext, hfound⟩ := finish_eq_some h
  have hlen : i < l.length := (List.getElem?_eq_some_iff.mp hi).1
  have hi' : (l.drop cursor)[i - cursor]? = some a := by
    rw [List.getElem?_drop, Nat.add_sub_cancel' hle]
    exact hi
  rw [hfound]
  refine (visitAll_covers hok hi' hsee).imp_right fun hstop => ?_
  have hprogress := visitAll_progress (c := cursor) (by
    rw [length_drop]
    show cursor + (l.length - cursor) ≤ u64Limit
    omega) le_rfl (fun h => absurd rfl h) rfl hstop.1 hok
  have hposition := hstop.2
  rw [hnext, if_pos hstop.1]
  have hstart : (start cursor bytes : PageState γ).position = cursor := rfl
  rw [hstart] at hposition
  omega

end

/-! ## 頁送りの全体 -/

/-- 頁送りの途中。`state` は列を持つ store、`returned` はこれまでに返した要素である。 -/
structure Walk (σ γ : Type*) where
  state : σ
  cursor : Nat
  returned : List γ
  finished : Bool

/-- 頁の要求と、その間の store の変化。 -/
inductive WalkEvent (σ ρ : Type*)
  | page (request : ρ)
  | change (next : σ)

namespace Walk

variable {σ ρ γ α : Type*}

def start (s : σ) : Walk σ γ := ⟨s, 0, [], false⟩

section

variable (page : σ → ρ → Nat → Option (Nat × List γ)) (label : γ → α) (order : σ → List α)
  (wanted : σ → α → Prop)

def step (w : Walk σ γ) : WalkEvent σ ρ → Option (Walk σ γ)
  | .change s => some { w with state := s }
  | .page request =>
    if w.finished then none
    else
      (page w.state request w.cursor).map fun out =>
        ⟨w.state, out.1, w.returned ++ out.2, out.1 == 0⟩

def PageCovers : Prop :=
  ∀ s request c next found, page s request c = some (next, found) →
    ∀ i x, (order s)[i]? = some x → c ≤ i → wanted s x →
      x ∈ found.map label ∨ (next ≠ 0 ∧ next ≤ i)

/-- `x` は求める要素として、いつも列にある。 -/
def Present (x : α) (w : Walk σ γ) : WalkEvent σ ρ → Prop
  | .page _ => x ∈ order w.state ∧ wanted w.state x
  | .change s => x ∈ order w.state ∧ x ∈ order s

def Kept (w : Walk σ γ) : WalkEvent σ ρ → Prop
  | .page _ => True
  | .change s => ∀ y ∈ (order w.state).take w.cursor, y ∈ order s

end

variable {page : σ → ρ → Nat → Option (Nat × List γ)} {label : γ → α} {order : σ → List α}
  {wanted : σ → α → Prop}

/-- `x` は返されたか、頁送りがまだ終わらず、`x` は位置から先にある。 -/
def Ahead (label : γ → α) (order : σ → List α) (x : α) (w : Walk σ γ) : Prop :=
  x ∈ w.returned.map label ∨
    (w.finished = false ∧ ∀ i, (order w.state)[i]? = some x → w.cursor ≤ i)

theorem Ahead.step {lt : α → α → Prop} [IsTrans α lt] [Std.Irrefl lt]
    (hsorted : ∀ s, (order s).Pairwise lt) (hpage : PageCovers page label order wanted) {x : α}
    {w w' : Walk σ γ} {ev : WalkEvent σ ρ} (hw : Ahead label order x w)
    (hok : Present order wanted x w ev ∧ Kept order w ev) (hstep : w.step page ev = some w') :
    Ahead label order x w' := by
  obtain ⟨hpresent, hkept⟩ := hok
  cases ev with
  | change s' =>
    cases hstep
    refine hw.imp_right fun h => ⟨h.1, fun j hj => ?_⟩
    obtain ⟨i, hi⟩ := mem_iff_getElem?.mp hpresent.1
    exact position_kept (hsorted w.state) (hsorted s') hkept hi (h.2 i hi) hj
  | page request =>
    unfold Walk.step at hstep
    obtain ⟨hopen, hstep⟩ := Option.ite_none_left_eq_some.mp hstep
    obtain ⟨⟨next, found⟩, hout, rfl⟩ := Option.map_eq_some_iff.mp hstep
    by_cases hfound : x ∈ w.returned.map label ∨ x ∈ found.map label
    · left
      rw [map_append, mem_append]
      exact hfound
    · right
      rw [not_or] at hfound
      have hold := hw.resolve_left hfound.1
      have hnext : ∀ i, (order w.state)[i]? = some x → next ≠ 0 ∧ next ≤ i := fun i hi =>
        (hpage w.state request w.cursor next found hout i x hi (hold.2 i hi)
          hpresent.2).resolve_left hfound.2
      obtain ⟨i, hi⟩ := mem_iff_getElem?.mp hpresent.1
      exact ⟨beq_eq_false_iff_ne.mpr (hnext i hi).1, fun i hi => (hnext i hi).2⟩

/--
**ずっとある要素は必ず返される。** 位置より前の要素がなくならなければ、始めから終わりまで列にある
要素は、cursor 0 に戻るまでに返される。
-/
theorem covers {lt : α → α → Prop} [IsTrans α lt] [Std.Irrefl lt]
    (hsorted : ∀ s, (order s).Pairwise lt) (hpage : PageCovers page label order wanted) {x : α}
    {s : σ} {events : List (WalkEvent σ ρ)} {w : Walk σ γ}
    (hobeys : Obeys (step page) (fun w ev => Present order wanted x w ev ∧ Kept order w ev)
      (start s) events)
    (hrun : run (step page) (start s) events = some w) (hfinished : w.finished = true) :
    x ∈ w.returned.map label := by
  have hstart : Ahead label order x (start s : Walk σ γ) := .inr ⟨rfl, fun i _ => Nat.zero_le i⟩
  have hahead : Ahead label order x w :=
    run_induction (fun _ _ _ h hok hs => h.step hsorted hpage hok hs) hstart hobeys hrun
  refine hahead.resolve_right fun h => ?_
  rw [h.1] at hfinished
  cases hfinished

end Walk

end Onedis.Infra
