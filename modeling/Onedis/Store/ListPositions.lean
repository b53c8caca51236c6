import Onedis.Store.ListCommands

/-!
# 番地の計算と列

命令が計算する番地と record の書き換えが、列の上の操作と合うことを示す。

LREM は残る要素（`survivors`）を近い方の端へ詰め、LINSERT は近い方の端を一つ伸ばす。どちらも、`head` から並ぶ列を
別の `head` から並ぶ列に直す。
-/

namespace Onedis.Store

open Infra List

/-! ## 添字 -/

section

variable {m : ListMeta} {content : List Bytes}

theorem resolveListIndex_eq (htail : m.tail = m.head + content.length) (index : Int) :
    resolveListIndex m index = (indexIn content.length index).map fun n : Nat => m.head + n := by
  have hlen : m.tail - m.head = content.length := by omega
  unfold resolveListIndex indexIn
  rw [hlen]
  change (if (content.length : Int) ≤ 0 then none
    else if fromEnd content.length index < 0 ∨ fromEnd content.length index ≥ content.length
      then none else some (m.head + fromEnd content.length index)) = _
  by_cases hin : 0 ≤ fromEnd content.length index ∧ fromEnd content.length index < content.length
  · rw [if_neg (by omega), if_neg (by omega), if_pos hin, Option.map_some]
    exact congrArg some (by omega)
  · rw [if_neg hin, Option.map_none]
    split_ifs
    · rfl
    · rfl
    · omega

theorem resolveListRange_spec (htail : m.tail = m.head + content.length) (start stop : Int) :
    resolveListRange m start stop = none ∧ sliceOf start stop content = [] ∨
      ∃ a b : Nat, resolveListRange m start stop = some (m.head + a, m.head + b) ∧ a ≤ b ∧
        b < content.length ∧ sliceOf start stop content = (content.drop a).take (b + 1 - a) := by
  have hlen : m.tail - m.head = content.length := by omega
  have hslice : sliceOf start stop content =
      (content.drop (fromEnd content.length start).toNat).take
        ((fromEnd content.length stop + 1).toNat - (fromEnd content.length start).toNat) :=
    drop_take
  have hresolve : resolveListRange m start stop =
      if (content.length : Int) ≤ 0 then none
      else if min (fromEnd content.length stop) (content.length - 1) <
          max (fromEnd content.length start) 0 ∨
          (content.length : Int) ≤ max (fromEnd content.length start) 0 ∨
          min (fromEnd content.length stop) (content.length - 1) < 0
        then none else some (m.head + max (fromEnd content.length start) 0,
          m.head + min (fromEnd content.length stop) (content.length - 1)) := by
    unfold resolveListRange
    rw [hlen]
    rfl
  rw [hslice, hresolve]
  generalize fromEnd content.length start = first
  generalize fromEnd content.length stop = last
  by_cases hempty : (content.length : Int) ≤ 0
  · have hnil : content = [] := eq_nil_of_length_eq_zero (by omega)
    exact .inl ⟨if_pos hempty, by simp [hnil]⟩
  rw [if_neg hempty]
  split_ifs with hout
  · refine .inl ⟨rfl, ?_⟩
    rw [take_eq_nil_iff, drop_eq_nil_iff]
    omega
  · refine .inr ⟨first.toNat, (min last (content.length - 1)).toNat, ?_, by omega, by omega, ?_⟩
    · rw [show m.head + max first 0 = m.head + first.toNat by omega,
        show m.head + min last (content.length - 1) =
          m.head + (min last (content.length - 1)).toNat by omega]
    · rw [take_eq_take_iff, length_drop]
      omega

end

/-! ## LREM -/

def matchPositions (target : Bytes) : Nat → List Bytes → List Nat
  | _, [] => []
  | pos, a :: rest =>
    if a = target then pos :: matchPositions target (pos + 1) rest
    else matchPositions target (pos + 1) rest

section

variable {target : Bytes}

theorem matchPositions_bounds {pos : Nat} {l : List Bytes} {p : Nat}
    (hp : p ∈ matchPositions target pos l) : pos ≤ p ∧ p < pos + l.length := by
  induction l generalizing pos with
  | nil => cases hp
  | cons a rest ih =>
    rw [length_cons]
    unfold matchPositions at hp
    split at hp
    · rcases mem_cons.mp hp with rfl | hp
      · omega
      · have := ih hp
        omega
    · have := ih hp
      omega

theorem pairwise_matchPositions (pos : Nat) (l : List Bytes) :
    (matchPositions target pos l).Pairwise (· < ·) := by
  induction l generalizing pos with
  | nil => exact .nil
  | cons a rest ih =>
    unfold matchPositions
    split
    · exact pairwise_cons.mpr ⟨fun p hp => (matchPositions_bounds hp).1, ih (pos + 1)⟩
    · exact ih (pos + 1)

theorem append_take_cons {α : Type} {limit : Nat} {found l : List α} {a : α}
    (h : found.length < limit) : found ++ (a :: l).take (limit - found.length) =
      found ++ [a] ++ l.take (limit - (found ++ [a]).length) := by
  rw [length_append, length_singleton,
    show limit - found.length = limit - (found.length + 1) + 1 by omega, take_succ_cons,
    append_assoc]
  rfl

theorem visitMatches_eq {limit pos : Nat} {found : List Nat} (l : List Bytes)
    (hle : found.length ≤ limit) :
    visitMatches target limit pos found l =
      found ++ (matchPositions target pos l).take (limit - found.length) := by
  induction l generalizing pos found with
  | nil => simp [visitMatches, matchPositions]
  | cons a rest ih =>
    unfold visitMatches matchPositions
    by_cases hfull : found.length = limit
    · rw [if_pos hfull, hfull, Nat.sub_self, take_zero, append_nil]
    rw [if_neg hfull]
    by_cases ha : a = target
    · simp only [if_pos ha]
      have hlen : (found ++ [pos]).length = found.length + 1 := length_append
      rw [append_take_cons (by omega)]
      split_ifs with hmore
      · exact ih (by omega)
      · rw [show limit - (found ++ [pos]).length = 0 by omega, take_zero, append_nil]
    · simp only [if_neg ha]
      rw [if_pos hfull]
      exact ih hle

theorem visitMatchesReverse_eq {limit pos k : Nat} {found : List Nat} (l : List Bytes)
    (hle : found.length ≤ limit) (hpos : l.length ≤ pos) :
    visitMatchesReverse target limit pos found l =
      found ++ ((matchPositions target k l).take (limit - found.length)).map
        fun j => pos + k - 1 - j := by
  induction l generalizing pos k found with
  | nil => simp [visitMatchesReverse, matchPositions]
  | cons a rest ih =>
    rw [length_cons] at hpos
    unfold visitMatchesReverse matchPositions
    by_cases hfull : found.length = limit
    · rw [if_pos hfull, hfull, Nat.sub_self, take_zero, map_nil, append_nil]
    rw [if_neg hfull]
    have hshift : pos - 1 + (k + 1) - 1 = pos + k - 1 := by omega
    by_cases ha : a = target
    · simp only [if_pos ha]
      have hlen : (found ++ [pos - 1]).length = found.length + 1 := length_append
      rw [map_take, map_cons, append_take_cons (by omega), ← map_take,
        show pos + k - 1 - k = pos - 1 by omega]
      split_ifs with hmore
      · rw [← hshift]
        exact ih (by omega) (by omega)
      · rw [show limit - (found ++ [pos - 1]).length = 0 by omega, take_zero, map_nil,
          append_nil]
    · simp only [if_neg ha]
      rw [if_pos hfull, ← hshift]
      exact ih hle (by omega)

theorem survivors_matchPositions (n pos : Nat) (l : List Bytes) :
    survivors ((matchPositions target pos l).take n) pos l = removeFirst target n l := by
  induction l generalizing n pos with
  | nil => cases n <;> rfl
  | cons a rest ih =>
    cases n with
    | zero =>
      rw [take_zero]
      exact survivors_eq_self nofun
    | succ n =>
      have hlater : ∀ {k p}, p ∈ (matchPositions target (pos + 1) rest).take k → pos < p :=
        fun hp => (matchPositions_bounds (mem_of_mem_take hp)).1
      unfold matchPositions removeFirst survivors
      by_cases ha : a = target
      · rw [if_pos ha, if_pos ha, take_succ_cons, if_pos mem_cons_self, ← ih n (pos + 1)]
        refine survivors_congr fun p hp _ => ?_
        rw [mem_cons]
        exact or_iff_right (by omega)
      · rw [if_neg ha, if_neg ha, if_neg fun hmem => lt_irrefl _ (hlater hmem), ih (n + 1)]

theorem removeFirst_of_length_le {n : Nat} {l : List Bytes} (hle : l.length ≤ n) :
    removeFirst target n l = l.filter (· ≠ target) := by
  induction l generalizing n with
  | nil => cases n <;> rfl
  | cons a rest ih =>
    rw [length_cons] at hle
    obtain ⟨n, rfl⟩ : ∃ k, n = k + 1 := ⟨n - 1, by omega⟩
    unfold removeFirst
    by_cases ha : a = target
    · rw [if_pos ha, ih (by omega), filter_cons_of_neg (by simp [ha])]
    · rw [if_neg ha, ih (by omega), filter_cons_of_pos (by simp [ha])]

theorem removalPositions_spec (target : Bytes) (count : Int) {content : List Bytes}
    (hlen : content.length ≤ usizeMax) :
    (removalPositions target count content).Pairwise (· < ·) ∧
      (∀ p ∈ removalPositions target count content, p < content.length) ∧
      survivors (removalPositions target count content) 0 content =
        removeMatches target count content := by
  unfold removalPositions removeMatches
  by_cases hneg : count < 0
  · have hzero : count ≠ 0 := by omega
    rw [if_pos hneg, if_neg hzero, if_neg hzero,
      @visitMatchesReverse_eq target count.natAbs content.length 0 [] content.reverse
        (Nat.zero_le _) length_reverse.le]
    simp only [nil_append, length_nil, Nat.sub_zero, Nat.add_zero]
    have hbound : ∀ {j}, j ∈ (matchPositions target 0 content.reverse).take count.natAbs →
        j < content.length := fun hj => by
      have := (matchPositions_bounds (mem_of_mem_take hj)).2
      rwa [length_reverse, Nat.zero_add] at this
    refine ⟨?_, ?_, ?_⟩
    · rw [pairwise_reverse, pairwise_map]
      refine ((pairwise_matchPositions 0 _).sublist (take_sublist ..)).imp_of_mem ?_
      intro i j _ hj hij
      have := hbound hj
      omega
    · intro p hp
      obtain ⟨j, hj, rfl⟩ := mem_map.mp (mem_reverse.mp hp)
      have := hbound hj
      omega
    · rw [show decide (0 < count) = false by simp; omega, oriented_false, oriented_false,
        ← survivors_matchPositions _ 0]
      have hmirror := @survivors_reverse _
        ((matchPositions target 0 content.reverse).take count.natAbs)
        ((((matchPositions target 0 content.reverse).take count.natAbs).map
          fun j => content.length - 1 - j).reverse) 0 content.reverse ?_
      · rwa [reverse_reverse] at hmirror
      · intro j hj
        rw [length_reverse] at hj
        rw [mem_reverse, mem_map, length_reverse, Nat.zero_add]
        constructor
        · rintro ⟨i, hi, rfl⟩
          have := hbound hi
          rwa [show content.length - 1 - (content.length - 1 - i) = i by omega]
        · exact fun hmem => ⟨_, hmem, by omega⟩
  · rw [if_neg hneg, visitMatches_eq content (Nat.zero_le _)]
    simp only [nil_append, length_nil, Nat.sub_zero]
    refine ⟨(pairwise_matchPositions 0 _).sublist (take_sublist ..), fun p hp => ?_, ?_⟩
    · have := (matchPositions_bounds (mem_of_mem_take hp)).2
      omega
    · rw [survivors_matchPositions]
      by_cases hzero : count = 0
      · rw [if_pos hzero, if_pos hzero, removeFirst_of_length_le hlen]
      · rw [if_neg hzero, if_neg hzero, show decide (0 < count) = true by simp; omega]
        rfl

end

/-! ## 分けた list の書き換え -/

theorem mem_le_getLastD {first : Nat} {more : List Nat} (h : (first :: more).Pairwise (· < ·))
    {p : Nat} (hp : p ∈ first :: more) : p ≤ more.getLastD first := by
  induction more generalizing first p with
  | nil => exact (mem_singleton.mp hp).le
  | cons b rest ih =>
    obtain ⟨hfirst, hrest⟩ := pairwise_cons.mp h
    rw [getLastD_cons]
    rcases mem_cons.mp hp with rfl | hp
    · exact (hfirst b mem_cons_self).le.trans (ih hrest mem_cons_self)
    · exact ih hrest hp

/-- 分けた list の record。要素は `head` から並ぶ。 -/
structure SplitList (recs : ListRecords) (m : ListMeta) (content : List Bytes) : Prop where
  main : recs.main = some (.split m.expireMs m.version ⟨m.head, m.tail⟩)
  pos : 0 < m.version
  items : recs.items m.version = spread m.head content
  tail : m.tail = m.head + content.length

namespace SplitList

variable {recs : ListRecords} {m : ListMeta} {content : List Bytes}

theorem range (h : SplitList recs m content) {lo hi : Int} (hlo : m.head ≤ lo) (hle : lo ≤ hi + 1) :
    listRangeValues recs m.version lo hi =
      (content.drop (lo - m.head).toNat).take (hi + 1 - lo).toNat := by
  rw [listRangeValues_split recs h.pos hle, h.items, scan_spread hlo]

theorem range_all (h : SplitList recs m content) :
    listRangeValues recs m.version m.head (m.tail - 1) = content := by
  have htail := h.tail
  rw [h.range le_rfl (by omega), take_of_length_le]
  · simp
  · rw [length_drop]
    omega

end SplitList

variable {content : List Bytes} {m : ListMeta} {recs : ListRecords}

section Compact

variable {found : List Nat} {first last : Nat}

/-- 最初の位置より前の要素は残る。 -/
theorem survivors_take_append (hfirst : ∀ p ∈ found, first ≤ p) (hle : first ≤ content.length) :
    survivors found 0 content =
      content.take first ++ survivors found first (content.drop first) := by
  have hself : survivors found 0 (content.take first) = content.take first :=
    survivors_eq_self fun p hp => .inr (by
      have := hfirst p hp
      rw [length_take]
      omega)
  conv_lhs => rw [← take_append_drop first content]
  rw [survivors_append, hself, length_take_of_le hle, Nat.zero_add]

/-- 最後の位置より後の要素は残る。 -/
theorem survivors_append_drop (hlast : ∀ p ∈ found, p ≤ last) (hlt : last < content.length) :
    survivors found 0 content =
      survivors found 0 (content.take (last + 1)) ++ content.drop (last + 1) := by
  have hself : survivors found (last + 1) (content.drop (last + 1)) = content.drop (last + 1) :=
    survivors_eq_self fun p hp => .inl (Nat.lt_succ_of_le (hlast p hp))
  conv_lhs => rw [← take_append_drop (last + 1) content]
  rw [survivors_append, length_take_of_le (by omega), Nat.zero_add, hself]

/-- 後ろの要素を左へ詰める。 -/
theorem compactLeft_spread (h : SplitList recs m content) (hfirst : ∀ p ∈ found, first ≤ p)
    (hlt : first < content.length)
    (hlen : (survivors found 0 content).length + found.length = content.length) :
    deleteListRange (Slots.compactLeft found m.head (spread m.head content) first (m.head + first)
      (listRangeValues recs m.version (m.head + first) (m.tail - 1))) (m.tail - found.length)
        m.tail = spread m.head (survivors found 0 content) := by
  have htail := h.tail
  have hvalues : listRangeValues recs m.version (m.head + first) (m.tail - 1) =
      content.drop first := by
    rw [h.range (by omega) (by omega), show (m.head + first - m.head).toNat = first by omega,
      take_of_length_le (by rw [length_drop]; omega)]
  have hstored : ∀ n : Nat, n < (content.drop first).length →
      (spread m.head content).get (m.head + first + n) = (content.drop first)[n]? := by
    intro n _
    rw [getElem?_drop, show m.head + first + n = m.head + (first + n : Nat) by omega,
      get_spread_add]
  have hkeep := survivors_take_append hfirst hlt.le
  have hkeepLen : (survivors found 0 content).length =
      first + (survivors found first (content.drop first)).length := by
    rw [hkeep, length_append, length_take_of_le hlt.le]
  have hstop : m.tail - found.length =
      m.head + first + (survivors found first (content.drop first)).length := by omega
  rw [hvalues, Slots.compactLeft_eq le_rfl hstored, deleteListRange_eq, hstop, htail,
    erase_writeFrom_back m.head content (by omega), ← hkeep]

/-- 前の要素を右へ詰める。 -/
theorem compactRight_spread (h : SplitList recs m content) (hsorted : found.Pairwise (· < ·))
    (hlast : ∀ p ∈ found, p ≤ last) (hlt : last < content.length) :
    deleteListRange (Slots.compactRight m.head (spread m.head content) found.reverse
      (m.head + last + 1) (listRangeValues recs m.version m.head (m.head + last)).reverse) m.head
        (m.head + found.length) = spread (m.head + found.length) (survivors found 0 content) := by
  have hvalues : listRangeValues recs m.version m.head (m.head + last) =
      content.take (last + 1) := by
    rw [h.range le_rfl (by omega), show (m.head - m.head).toNat = 0 by omega, drop_zero,
      show (m.head + last + 1 - m.head).toNat = last + 1 by omega]
  have htake : (content.take (last + 1)).length = last + 1 := length_take_of_le (by omega)
  have hstored : ∀ n : Nat, n < (content.take (last + 1)).reverse.length →
      (spread m.head content).get (m.head + n) =
        (content.take (last + 1)).reverse.reverse[n]? := by
    intro n hn
    rw [length_reverse, htake] at hn
    rw [reverse_reverse, get_spread_add, getElem?_take_of_lt (by omega)]
  have hmem : survivors found.reverse 0 (content.take (last + 1)) =
      survivors found 0 (content.take (last + 1)) :=
    survivors_congr fun p _ _ => mem_reverse
  -- 消す位置はどれも `last` までにあるので、詰めた後の先頭は消した数だけ右に動く
  have hkept : (survivors found 0 (content.take (last + 1))).length + found.length =
      last + 1 := by
    rw [length_survivors hsorted (fun p _ => Nat.zero_le p) fun p hp => ?_, htake]
    have := hlast p hp
    omega
  have hbound : ∀ p ∈ found.reverse, p < (content.take (last + 1)).reverse.length := by
    intro p hp
    rw [length_reverse, htake]
    exact Nat.lt_succ_of_le (hlast p (mem_reverse.mp hp))
  have hstart : m.head + (last : Int) + 1 -
      ((survivors found 0 (content.take (last + 1))).length : Int) = m.head + found.length := by
    omega
  rw [hvalues, Slots.compactRight_eq (pairwise_reverse.mpr hsorted) hbound
      (by rw [length_reverse, htake]; omega) hstored, reverse_reverse, hmem, deleteListRange_eq,
    hstart, erase_writeFrom_front,
    show found.length + (survivors found 0 (content.take (last + 1))).length = last + 1 by omega,
    ← survivors_append_drop hlast hlt]

end Compact

theorem compactList_spec (h : SplitList recs m content) {first : Nat} {more : List Nat}
    (hsorted : (first :: more).Pairwise (· < ·)) (hbound : ∀ p ∈ first :: more, p < content.length)
    :
    ∃ head : Int, compactList recs m (first :: more) first (more.getLastD first) =
      ({ m with head := head, tail := head + (survivors (first :: more) 0 content).length },
        spread head (survivors (first :: more) 0 content)) := by
  have hfirst : ∀ p ∈ first :: more, first ≤ p := by
    intro p hp
    rcases mem_cons.mp hp with rfl | hp
    · exact le_rfl
    · exact ((pairwise_cons.mp hsorted).1 p hp).le
  have hlast : ∀ p ∈ first :: more, p ≤ more.getLastD first :=
    fun p hp => mem_le_getLastD hsorted hp
  have hlastLt := hbound _ getLastD_mem_cons
  have htail := h.tail
  have hlen : (survivors (first :: more) 0 content).length + (first :: more).length =
      content.length :=
    length_survivors hsorted (fun p _ => Nat.zero_le p) (by simpa using hbound)
  unfold compactList
  rw [h.items]
  dsimp only
  split
  · refine ⟨m.head, ?_⟩
    rw [compactLeft_spread h hfirst (hbound first mem_cons_self) hlen]
    congr 2
    omega
  · refine ⟨m.head + (first :: more).length, ?_⟩
    rw [compactRight_spread h hsorted hlast hlastLt]
    congr 2
    omega

theorem insertIntoList_spec (h : SplitList recs m content)
    (hroom : i64Min < m.head ∨ m.tail < i64Max) {index : Nat} (hindex : index ≤ content.length)
    (element : Bytes) :
    ∃ head : Int, insertIntoList recs m content index element =
      .ok ({ m with head := head, tail := head + (content.length + 1) },
        spread head (content.take index ++ element :: content.drop index)) := by
  have htail := h.tail
  unfold insertIntoList
  dsimp only
  rw [if_neg (by simpa [not_lt, imp_iff_not_or] using hroom), h.items]
  split
  · refine ⟨m.head - 1, ?_⟩
    rw [put_writeFrom_left m.head element hindex,
      show m.tail = m.head - 1 + (content.length + 1) by omega]
  · refine ⟨m.head, ?_⟩
    rw [put_writeFrom_right m.head element hindex,
      show m.tail + 1 = m.head + (content.length + 1) by omega]

/-! ## 端の要素 -/

theorem ListMeta.popOne_spec (left : Bool) (hne : content ≠ [])
    (htail : m.tail = m.head + content.length) :
    ∃ value, (popEnd left 1 content).1 = [value] ∧
      (spread m.head content).get (m.popOne left).1 = some value ∧
      (spread m.head content).remove (m.popOne left).1 =
        spread (m.popOne left).2.head (popEnd left 1 content).2 ∧
      (m.popOne left).2.tail = (m.popOne left).2.head + (popEnd left 1 content).2.length := by
  have hpos : 0 < content.length := length_pos_of_ne_nil hne
  cases left with
  | true =>
    obtain ⟨a, rest, rfl⟩ := exists_cons_of_ne_nil hne
    refine ⟨a, rfl, get_spread_add m.head (a :: rest) 0 |>.trans rfl |> fun h => ?_, ?_, ?_⟩
    · simpa [ListMeta.popOne] using h
    · rw [Slots.remove_eq_erase]
      exact erase_spread_front m.head (a :: rest) 1
    · show m.tail = m.head + 1 + (rest.length : Int)
      rw [htail, length_cons]
      omega
  | false =>
    rw [popEnd_false]
    have hlast : m.tail - 1 = m.head + (content.length - 1 : Nat) := by omega
    refine ⟨content.getLast hne, ?_, ?_, ?_, ?_⟩
    · rw [drop_length_sub_one hne]
      rfl
    · show (spread m.head content).get (m.tail - 1) = _
      rw [hlast, get_spread_add, getLast_eq_getElem]
      exact getElem?_eq_getElem _
    · show (spread m.head content).remove (m.tail - 1) = spread m.head _
      rw [Slots.remove_eq_erase, show m.tail - 1 + 1 = m.head + content.length by omega, hlast]
      exact erase_spread_back m.head content _
    · show m.tail - 1 = m.head + ((content.take (content.length - 1)).length : Int)
      rw [length_take]
      omega

theorem ListMeta.pushOne_spec (left : Bool) (htail : m.tail = m.head + content.length)
    (value : Bytes) :
    (spread m.head content).put (m.pushOne left).1 value =
        spread (m.pushOne left).2.head (pushEnd left value content) ∧
      (m.pushOne left).2.tail = (m.pushOne left).2.head + (pushEnd left value content).length := by
  cases left with
  | true =>
    refine ⟨put_spread_front m.head value content, ?_⟩
    show m.tail = m.head - 1 + ((value :: content).length : Int)
    rw [length_cons]
    omega
  | false =>
    refine ⟨?_, ?_⟩
    · show (spread m.head content).put m.tail value = _
      rw [htail]
      exact put_spread_back m.head value content
    · show m.tail + 1 = m.head + ((content ++ [value]).length : Int)
      rw [length_append, length_singleton]
      omega

theorem pushEnd_ne_nil (left : Bool) (value : Bytes) (l : List Bytes) :
    pushEnd left value l ≠ [] := by
  cases left <;> simp [pushEnd]

/-! ## LPOS -/

/-- `count` が許す個数だけ取る。`taken` はすでに集めた個数である。 -/
def lposTake (count : Option Nat) (taken : Nat) (found : List Nat) : List Nat :=
  match count with
  | none => found.take (1 - taken)
  | some 0 => found
  | some limit => found.take (limit - taken)

theorem lposTake_nil (count : Option Nat) (taken : Nat) : lposTake count taken [] = [] := by
  unfold lposTake
  split <;> simp

theorem lposTake_cons {count : Option Nat} {taken : Nat}
    (hopen : taken = 0 ∨ matchesLposCount count taken = false) (p : Nat) (found : List Nat) :
    lposTake count taken (p :: found) =
      p :: if matchesLposCount count (taken + 1) then [] else lposTake count (taken + 1) found := by
  match count with
  | none =>
    obtain rfl : taken = 0 := hopen.resolve_right (by simp [matchesLposCount])
    rfl
  | some 0 => rfl
  | some (limit + 1) =>
    have hlt : taken < limit + 1 := by
      rcases hopen with rfl | hopen
      · omega
      · simpa [matchesLposCount] using hopen
    show (p :: found).take (limit + 1 - taken) = p :: if decide (limit + 1 ≤ taken + 1) then []
      else found.take (limit + 1 - (taken + 1))
    rw [show limit + 1 - taken = limit - taken + 1 by omega, take_succ_cons,
      show limit + 1 - (taken + 1) = limit - taken by omega]
    split
    · next hfull => rw [show limit - taken = 0 by simp at hfull; omega, take_zero]
    · rfl

theorem lposLoop_eq {element : Bytes} {delta : Int} {reached : Int → Bool} {count : Option Nat}
    (skip : Int → Nat) (hreached : ∀ seen, reached (seen + delta) = true ↔ skip seen = 0)
    (hskip : ∀ seen, skip (seen + delta) = skip seen - 1) (seen : Int) {found : List Nat}
    (hopen : found = [] ∨ matchesLposCount count found.length = false)
    (l : List (Bytes × Nat)) :
    lposLoop element delta reached count seen found l = found ++ lposTake count found.length
        (((l.filter fun p => p.1 = element).map Prod.snd).drop (skip seen)) := by
  induction l generalizing seen found with
  | nil => simp [lposLoop, lposTake_nil]
  | cons p rest ih =>
    obtain ⟨value, position⟩ := p
    unfold lposLoop
    by_cases hvalue : value = element
    · rw [if_pos hvalue, filter_cons_of_pos (by simpa using hvalue), map_cons]
      dsimp only
      by_cases hzero : skip seen = 0
      · have hopen' : found.length = 0 ∨ matchesLposCount count found.length = false :=
          hopen.imp_left fun h => by rw [h]; rfl
        rw [if_pos ((hreached seen).mpr hzero), hzero, drop_zero, lposTake_cons hopen',
          length_append, length_singleton]
        split
        · rfl
        · next hmore =>
          have hnext := @ih (seen + delta) (found ++ [position])
            (.inr (by rw [length_append, length_singleton]; simpa using hmore))
          rw [hskip, hzero, length_append, length_singleton, Nat.zero_sub,
            drop_zero] at hnext
          rw [hnext, append_assoc]
          rfl
      · rw [if_neg fun h => hzero ((hreached seen).mp h), ih (seen + delta) hopen, hskip]
        obtain ⟨n, hn⟩ : ∃ n, skip seen = n + 1 := ⟨skip seen - 1, by omega⟩
        rw [hn, drop_succ_cons, Nat.add_sub_cancel]
    · rw [if_neg hvalue, filter_cons_of_neg (by simpa using hvalue), ih seen hopen]

/-- **LPOS の走査。** -/
theorem lposLoop_positionsOf (element : Bytes) (rank : Int) (count maxlen : Option Nat)
    {items : List Bytes} (hlen : items.length ≤ usizeMax) :
    (if 0 < rank then
      lposLoop element 1 (rank ≤ ·) count 0 [] (items.zipIdx.take (maxlen.getD usizeMax))
    else lposLoop element (-1) (· ≤ rank) count 0 []
      (items.zipIdx.reverse.take (maxlen.getD usizeMax))) =
      positionsOf element rank count maxlen items := by
  have hlimit : ∀ l : List (Bytes × Nat), l.length = items.length →
      (maxlen.map fun n => l.take n).getD l = l.take (maxlen.getD usizeMax) := by
    intro l hl
    cases maxlen with
    | some n => rfl
    | none => exact (take_of_length_le (hl.trans_le hlen)).symm
  have htake : ∀ found : List Nat, lposTake count 0 found =
      match count with
      | none => found.take 1
      | some 0 => found
      | some n => found.take n := by
    intro found
    unfold lposTake
    split <;> rfl
  unfold positionsOf
  dsimp only
  split_ifs with hrank
  · rw [lposLoop_eq (fun seen => (rank - seen - 1).toNat) (fun seen => by simp; omega)
      (fun seen => by omega) 0 (.inl rfl), hlimit _ (by simp), nil_append, length_nil,
      htake, show (rank - 0 - 1).toNat = rank.natAbs - 1 by omega, decide_eq_true hrank]
    rfl
  · rw [lposLoop_eq (fun seen => (seen - rank - 1).toNat) (fun seen => by simp; omega)
      (fun seen => by omega) 0 (.inl rfl), hlimit _ (by simp), nil_append, length_nil,
      htake, show (0 - rank - 1).toNat = rank.natAbs - 1 by omega, decide_eq_false hrank]
    rfl

end Onedis.Store
