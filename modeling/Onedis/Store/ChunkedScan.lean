import Onedis.Infra.Paging

/-!
# 小分けの走査

`scan_range_raw_visit_chunked_async` と、その逆順の `scan_range_raw_visit_reverse_async` の写し。どちらも、最後に
読んだ key から次の区間を決める。

* `chunkedScan_eq` — 小分けの走査は、区間の record を一度ずつ順に、visitor が止めるまで見る
-/

namespace Onedis.Store

open Infra List

section

variable {σ : Type*} (visit : σ → Bytes × Bytes → Bool × σ)

/-- visitor に渡した record を数える。 -/
def countSeen (st : Nat × σ) (r : Bytes × Bytes) : Bool × (Nat × σ) :=
  ((visit st.2 r).1, st.1 + 1, (visit st.2 r).2)

/-- 次に読む区間。`none` は、残りがないとき。 -/
def nextBounds (lower : Bytes) (upper : Option Bytes) (last : Bytes) :
    Bool → Option (Bytes × Option Bytes)
  | true => if !bytesLt lower last then none else some (lower, some last)
  | false =>
    if upper.any fun u => !bytesLt (last ++ [0]) u then none else some (last ++ [0], upper)

/-- 区間を小分けに読む loop。`fuel` が尽きたら `none` を返す。 -/
def visitChunks (t : Table) (reverse : Bool) (limit batchSize : Nat) :
    Nat → Bytes → Option Bytes → Nat × σ → Option (Nat × σ)
  | 0, _, _, _ => none
  | fuel + 1, lower, upper, st =>
    if limit ≤ st.1 then some st
    else
      let batchLimit := min (limit - st.1) (max batchSize 1)
      let entries := t.scanRangeLimited lower upper reverse batchLimit
      match entries.getLast? with
      | none => some st
      | some last =>
        match visitWhile (countSeen visit) st entries with
        | (false, st') => some st'
        | (true, st') =>
          if entries.length < batchLimit then some st'
          else
            match nextBounds lower upper last.1 reverse with
            | none => some st'
            | some bounds => visitChunks t reverse limit batchSize fuel bounds.1 bounds.2 st'

/-- 見た record の数と、visitor の状態。繰り返しの回数は record の数を超えない。 -/
def scanRangeRawVisitChunked (t : Table) (reverse : Bool) (lower : Bytes) (upper : Option Bytes)
    (limit batchSize : Nat) (s : σ) : Option (Nat × σ) :=
  visitChunks visit t reverse limit batchSize ((t.scanRange lower upper).length + 1) lower upper
    (0, s)

/--
visitor に `records` を先頭から一つずつ渡し、visitor が止めるか、尽きたら終わる。渡したのは `n` 個で、visitor の状態は
`s` から `s'` になる。
-/
inductive Visits : σ → List (Bytes × Bytes) → Nat → σ → Prop
  | done (s : σ) : Visits s [] 0 s
  | stop {s : σ} {r : Bytes × Bytes} (rest : List (Bytes × Bytes))
      (h : (visit s r).1 = false) : Visits s (r :: rest) 1 (visit s r).2
  | next {s s' : σ} {r : Bytes × Bytes} {rest : List (Bytes × Bytes)} {n : Nat}
      (h : (visit s r).1 = true) (later : Visits (visit s r).2 rest n s') :
      Visits s (r :: rest) (n + 1) s'

end

variable {t : Table} {lower : Bytes} {upper : Option Bytes} {reverse : Bool} {k : Nat}
  {last : Bytes × Bytes}

/-- 区間の record を、読む向きに並べたもの。 -/
def windowRecords (t : Table) (reverse : Bool) (lower : Bytes) (upper : Option Bytes) :
    List (Bytes × Bytes) :=
  if reverse then (t.scanRange lower upper).reverse else t.scanRange lower upper

theorem scanRange_before (h : (t.scanRange lower upper)[k]? = some last) :
    t.scanRange lower (some last.1) = (t.scanRange lower upper).take k := by
  have hlast := (Table.mem_scanRange.mp (mem_of_getElem? h)).2
  have hfilter : t.scanRange lower (some last.1) =
      (t.scanRange lower upper).filter fun q => bytesLt q.1 last.1 := by
    unfold Table.scanRange
    rw [filter_filter]
    refine filter_congr fun q _ => ?_
    unfold within at hlast ⊢
    cases hq : bytesLt q.1 last.1 with
    | false => simp [hq]
    | true =>
      have hupper : upper.all (bytesLt q.1) = true := by
        cases upper with
        | none => rfl
        | some u => exact bytesLt_trans hq (Bool.and_eq_true_iff.mp hlast).2
      simp [hq, hupper]
  exact hfilter.trans (Table.filter_key h).1

/-- 次の区間の走査は、いまの走査の残りである。 -/
theorem windowRecords_next (h : (windowRecords t reverse lower upper)[k]? = some last) :
    (match nextBounds lower upper last.1 reverse with
      | none => []
      | some bounds => windowRecords t reverse bounds.1 bounds.2) =
      (windowRecords t reverse lower upper).drop (k + 1) := by
  cases reverse with
  | false =>
    rw [nextBounds]
    have hafter := Table.scanRange_after h
    split_ifs with hend
    · exact (Table.scanRange_eq_nil hend).symm.trans hafter
    · exact hafter
  | true =>
    rw [windowRecords, if_pos rfl] at h ⊢
    have hk := (List.getElem?_eq_some_iff.mp h).1
    rw [length_reverse] at hk
    rw [getElem?_reverse hk] at h
    have hbefore : (t.scanRange lower (some last.1)).reverse =
        (t.scanRange lower upper).reverse.drop (k + 1) := by
      rw [scanRange_before h, reverse_take]
      congr 1
      omega
    rw [nextBounds]
    split_ifs with hend
    · rw [← hbefore, @Table.scanRange_eq_nil t lower (some last.1) hend]
      rfl
    · exact hbefore

theorem visitWhile_countSeen {σ : Type*} {visit : σ → Bytes × Bytes → Bool × σ} {st st' : Nat × σ}
    {l : List (Bytes × Bytes)} (h : visitWhile (countSeen visit) st l = (true, st')) :
    st'.1 = st.1 + l.length := by
  induction l generalizing st with
  | nil =>
    cases h
    rfl
  | cons r l ih =>
    rw [visitWhile, countSeen] at h
    cases hr : (visit st.2 r).1 with
    | false =>
      rw [hr] at h
      cases h
    | true =>
      rw [hr] at h
      rw [ih h, length_cons]
      omega

theorem visitChunks_eq {σ : Type*} (visit : σ → Bytes × Bytes → Bool × σ) (limit batchSize : Nat)
    {fuel : Nat} (hfuel : (windowRecords t reverse lower upper).length < fuel) (st : Nat × σ) :
    visitChunks visit t reverse limit batchSize fuel lower upper st =
      some (visitWhile (countSeen visit) st
        ((windowRecords t reverse lower upper).take (limit - st.1))).2 := by
  induction fuel generalizing lower upper st with
  | zero => exact absurd hfuel (Nat.not_lt_zero _)
  | succ fuel ih =>
    rw [visitChunks]
    split
    · next hdone =>
      rw [Nat.sub_eq_zero_of_le hdone]
      rfl
    · next hmore =>
      have hpos : 0 < min (limit - st.1) (max batchSize 1) := by omega
      have hle := Nat.min_le_left (limit - st.1) (max batchSize 1)
      generalize min (limit - st.1) (max batchSize 1) = batch at hpos hle ⊢
      have hbatch : t.scanRangeLimited lower upper reverse batch =
          (windowRecords t reverse lower upper).take batch := rfl
      generalize hw : windowRecords t reverse lower upper = window at hbatch hfuel ⊢
      have hall : window.take (limit - st.1) =
          window.take batch ++ (window.drop batch).take (limit - st.1 - batch) := by
        rw [← take_add, Nat.add_sub_of_le hle]
      rw [hall, visitWhile_append]
      simp only [hbatch]
      cases hlast : (window.take batch).getLast? with
      | none =>
        rw [getLast?_eq_none_iff] at hlast
        have hnil : window = [] := (take_eq_nil_iff.mp hlast).resolve_left hpos.ne'
        simp [hnil, visitWhile]
      | some last =>
        cases hvisit : visitWhile (countSeen visit) st (window.take batch) with
        | mk go st' =>
        cases go with
        | false => rfl
        | true =>
          have hseen := visitWhile_countSeen hvisit
          rw [length_take] at hseen
          dsimp only
          rw [length_take]
          split
          · next hshort =>
            rw [drop_eq_nil_of_le (by omega)]
            simp [visitWhile]
          · next hfull =>
            have hk : (windowRecords t reverse lower upper)[batch - 1]? = some last := by
              rw [getLast?_eq_getElem?, length_take, getElem?_take_of_lt (by omega)] at hlast
              rw [hw, ← hlast]
              congr 1
              omega
            have hnext := windowRecords_next hk
            rw [hw, Nat.sub_add_cancel hpos] at hnext
            rw [← hnext]
            cases hbounds : nextBounds lower upper last.1 reverse with
            | none => simp [visitWhile]
            | some bounds =>
              rw [hbounds] at hnext
              dsimp only at hnext ⊢
              rw [ih (by rw [hnext, length_drop]; omega), hnext]
              congr 4
              omega

theorem visits_visitWhile {σ : Type*} (visit : σ → Bytes × Bytes → Bool × σ)
    (l : List (Bytes × Bytes)) (seen : Nat) (s : σ) :
    ∃ n s', (visitWhile (countSeen visit) (seen, s) l).2 = (seen + n, s') ∧
      Visits visit s l n s' := by
  induction l generalizing seen s with
  | nil => exact ⟨0, s, rfl, .done s⟩
  | cons r rest ih =>
    rw [visitWhile, countSeen]
    cases hr : (visit s r).1 with
    | false => exact ⟨1, (visit s r).2, rfl, .stop rest hr⟩
    | true =>
      obtain ⟨n, s', hrest, hvisits⟩ := ih (seen + 1) (visit s r).2
      exact ⟨n + 1, s', hrest.trans (by rw [Nat.add_right_comm, Nat.add_assoc]), .next hr hvisits⟩

/--
**小分けの走査は一度の走査に等しい。** どちらの向きでも、loop は終わり、区間の record を端から高々 `limit` 個、一度ずつ
順に、visitor が止めるまで見る。
-/
theorem chunkedScan_eq {σ : Type*} (visit : σ → Bytes × Bytes → Bool × σ) (t : Table)
    (reverse : Bool) (lower : Bytes) (upper : Option Bytes) (limit batchSize : Nat) (s : σ) :
    ∃ n s', scanRangeRawVisitChunked visit t reverse lower upper limit batchSize s =
        some (n, s') ∧
      Visits visit s (List.take limit ((if reverse then List.reverse else id)
        (t.records.filter fun r => !bytesLt r.1 lower && upper.all (bytesLt r.1)))) n s' := by
  have hwindow : windowRecords t reverse lower upper = (if reverse then List.reverse else id)
      (t.records.filter fun r => !bytesLt r.1 lower && upper.all (bytesLt r.1)) := by
    cases reverse <;> rfl
  obtain ⟨n, s', hvisited, hvisits⟩ :=
    visits_visitWhile visit ((windowRecords t reverse lower upper).take limit) 0 s
  rw [Nat.zero_add] at hvisited
  refine ⟨n, s', ?_, hwindow ▸ hvisits⟩
  rw [← hvisited]
  exact visitChunks_eq visit limit batchSize (by cases reverse <;> simp [windowRecords]) (0, s)

end Onedis.Store
