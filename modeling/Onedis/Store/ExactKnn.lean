import Mathlib.Data.List.Sort
import Mathlib.Data.Prod.Lex
import Mathlib.Data.String.Basic
import Onedis.Store.KeyRecords

/-!
# FLAT の索引での KNN

`fulltext_vector_hits` の写し。近い順に `k` 個を選んだ後で、期限の切れた document と別の型の document を落とす。

* `exactKnn_iff` — 近い順に `k` 個の生きた document を返すための必要十分条件
* `DeadNearest.hides_live` — 最も近い document の期限が切れていると、次に近いものも返らない
-/

namespace Onedis.Store

open Infra List

/-! ## 写し -/

/-- `VectorSearchResult`。距離、id の順に比べる。 -/
abbrev VectorSearchResult (α : Type) := α ×ₗ String

section

variable {α : Type} [LinearOrder α]

def VectorSearchResult.id (r : VectorSearchResult α) : String := (ofLex r).2

/-- `TopKVectorResults::push`。heap は近い順に並べた list で表す。 -/
def pushTopK (k : Nat) (heap : List (VectorSearchResult α)) (r : VectorSearchResult α) :
    List (VectorSearchResult α) :=
  if k ≤ heap.length ∧ heap.getLast?.any (· ≤ r) then heap
  else (if k ≤ heap.length then heap.dropLast else heap).orderedInsert (· ≤ ·) r

def vectorExactDistanceResults (allow : String → Bool) (k : Nat)
    (stored : List (VectorSearchResult α)) : List (VectorSearchResult α) :=
  if k = 0 then []
  else (stored.foldl (fun heap r => if allow r.id then pushTopK k heap r else heap) []).take k

/-- 検索の条件。`filter` は索引の答え、`source` は source を読み直した結果で、読み直さないときは `none`。 -/
structure KnnQuery where
  k : Nat
  now : Nat
  expectedType : TypeTag
  filter : Option (String → Bool)
  inKeys : Option (List String)
  source : Option (String → Bool)

namespace KnnQuery

variable (q : KnnQuery)

def allows (id : String) : Bool := q.filter.all (· id) && q.inKeys.all (id ∈ ·)

def isLive (raw : Option Bytes) : Bool := (raw.bind decodeMetaHeader).any fun header =>
  header.typeTag == q.expectedType.code && !expireDue q.now header.expireMs

def fulltextVectorHits (raws : String → Option Bytes) (stored : List (VectorSearchResult α)) :
    List (VectorSearchResult α) :=
  ((vectorExactDistanceResults q.allows q.k stored).filter fun r =>
    q.isLive (raws r.id) && q.allows r.id && q.inKeys.all (r.id ∈ ·) &&
      q.source.all (· r.id)).take q.k

/-- 生きていて条件を満たす document を、近い順に `k` 個。 -/
def nearestLive (raws : String → Option Bytes) (stored : List (VectorSearchResult α)) :
    List (VectorSearchResult α) :=
  ((stored.filter fun r => q.isLive (raws r.id) && q.allows r.id).insertionSort (· ≤ ·)).take q.k

def byDistance (stored : List (VectorSearchResult α)) : List (VectorSearchResult α) :=
  (stored.filter (q.allows ·.id)).insertionSort (· ≤ ·)

end KnnQuery

/-! ## 上位 k 個 -/

/-- `heap` は、見たものの近い方から `k` 個を近い順に並べたものである。 -/
structure TopK (k : Nat) (seen heap : List (VectorSearchResult α)) : Prop where
  sorted : heap.Pairwise (· ≤ ·)
  length_le : heap.length ≤ k
  split : ∃ rest, heap ++ rest ~ seen ∧ (∀ x ∈ heap, ∀ y ∈ rest, x ≤ y) ∧
    (heap.length < k → rest = [])

variable {k : Nat} {seen heap : List (VectorSearchResult α)}

theorem TopK.eq_take (h : TopK k seen heap) : heap = (seen.insertionSort (· ≤ ·)).take k := by
  obtain ⟨rest, hperm, hle, hshort⟩ := h.split
  have hsort : seen.insertionSort (· ≤ ·) = heap ++ rest.insertionSort (· ≤ ·) :=
    ((perm_insertionSort ..).trans (hperm.symm.trans
      ((perm_insertionSort (· ≤ ·) rest).symm.append_left heap))).eq_of_pairwise'
        (pairwise_insertionSort ..) (pairwise_append.mpr ⟨h.sorted, pairwise_insertionSort ..,
          by simpa using hle⟩)
  rw [hsort]
  rcases h.length_le.lt_or_eq with hlt | rfl
  · simp [hshort hlt, take_of_length_le h.length_le]
  · rw [take_left]

theorem TopK.push (hk : k ≠ 0) (h : TopK k seen heap) (r : VectorSearchResult α) :
    TopK k (seen ++ [r]) (pushTopK k heap r) := by
  obtain ⟨rest, hperm, hle, hshort⟩ := h.split
  have hseen := (hperm.cons r).trans (perm_append_singleton r seen).symm
  unfold pushTopK
  by_cases hfull : k ≤ heap.length
  · rcases eq_nil_or_concat' heap with rfl | ⟨init, worst, rfl⟩
    · exact absurd (Nat.le_zero.mp hfull) hk
    obtain ⟨hinit, -, hworst⟩ := pairwise_append.mp h.sorted
    have hlen := h.length_le
    by_cases hr : worst ≤ r
    · rw [if_pos ⟨hfull, by simpa using hr⟩]
      exact ⟨h.sorted, hlen, r :: rest, perm_middle.trans hseen, by grind, by omega⟩
    · rw [if_neg (by simpa using fun _ => not_le.mp hr), if_pos hfull, dropLast_concat]
      have hins := perm_orderedInsert (· ≤ ·) r init
      refine ⟨hinit.orderedInsert .., by simpa [orderedInsert_length] using hlen, worst :: rest,
        (hins.append_right _).trans (by simpa using hseen), ?_, ?_⟩
      · grind
      · simp_all [orderedInsert_length]
  · rw [if_neg (by simp [hfull]), if_neg hfull]
    cases hshort (by omega)
    refine ⟨h.sorted.orderedInsert .., ?_, [], ?_, by simp, fun _ => rfl⟩
    · rw [orderedInsert_length]
      omega
    · simpa using (perm_orderedInsert ..).trans (append_nil heap ▸ hseen)

theorem vectorExactDistanceResults_eq (allow : String → Bool) (k : Nat)
    (stored : List (VectorSearchResult α)) : vectorExactDistanceResults allow k stored =
      ((stored.filter (allow ·.id)).insertionSort (· ≤ ·)).take k := by
  unfold vectorExactDistanceResults
  split
  · next hk => simp [hk]
  · next hk =>
    suffices h : TopK k (stored.filter (allow ·.id)) (stored.foldl
        (fun heap r => if allow r.id then pushTopK k heap r else heap) []) by
      rw [take_of_length_le h.length_le, h.eq_take]
    induction stored using reverseRecOn with
    | nil => exact ⟨.nil, Nat.zero_le k, [], .nil, nofun, fun _ => rfl⟩
    | append_singleton stored r ih =>
      rw [foldl_concat, filter_append]
      by_cases hr : allow r.id = true
      · simpa [hr] using ih.push hk r
      · simpa [hr] using ih

/-! ## 選んだ後に落とすもの -/

/-- 上位 `k` 個から選ぶのと、選んだ上位 `k` 個が一致するのは、落ちるものがないか、補うものがないときである。 -/
theorem filter_take_iff {β : Type} (p : β → Bool) (k : Nat) (l : List β) :
    (l.take k).filter p = (l.filter p).take k ↔
      (∀ x ∈ l.take k, p x = true) ∨ ∀ x ∈ l.drop k, ¬ p x = true := by
  have hle : ((l.take k).filter p).length ≤ k := (length_filter_le ..).trans (length_take_le ..)
  have hsplit : (l.filter p).take k =
      (l.take k).filter p ++ ((l.drop k).filter p).take (k - ((l.take k).filter p).length) := by
    conv_lhs => rw [← take_append_drop k l, filter_append, take_append, take_of_length_le hle]
  rw [hsplit, self_eq_append_right, take_eq_nil_iff, filter_eq_nil_iff, Nat.sub_eq_zero_iff_le,
    ← length_filter_eq_length_iff]
  by_cases hl : l.length ≤ k
  · simp [drop_eq_nil_of_le hl]
  · rw [length_take, Nat.min_eq_left (by omega)]
    exact or_congr_left ⟨hle.antisymm, Eq.ge⟩

/--
**FLAT の索引での KNN が、近い順に `k` 個の生きた document を返す条件。** 条件を満たすものの近い順に `k` 個が
どれも生きているか、その先に生きたものがないとき、またそのときに限る。
-/
theorem exactKnn_iff (q : KnnQuery) (raws : String → Option Bytes)
    (stored : List (VectorSearchResult α))
    (hsource : ∀ r ∈ stored, q.isLive (raws r.id) = true → q.allows r.id = true →
      q.source.all (· r.id) = true) :
    q.fulltextVectorHits raws stored = q.nearestLive raws stored ↔
      (∀ r ∈ (q.byDistance stored).take q.k, q.isLive (raws r.id) = true) ∨
        ∀ r ∈ (q.byDistance stored).drop q.k, ¬ q.isLive (raws r.id) = true := by
  have hhits : q.fulltextVectorHits raws stored =
      ((q.byDistance stored).take q.k).filter fun r => q.isLive (raws r.id) := by
    rw [KnnQuery.fulltextVectorHits, vectorExactDistanceResults_eq, ← KnnQuery.byDistance,
      take_of_length_le ((length_filter_le ..).trans (length_take_le ..))]
    refine filter_congr fun r hr => ?_
    obtain ⟨hmem, hallow⟩ := mem_filter.mp ((mem_insertionSort _).mp (mem_of_mem_take hr))
    have hkeys := (Bool.and_eq_true_iff.mp hallow).2
    cases hlive : q.isLive (raws r.id) with
    | false => rfl
    | true => simp [hallow, hkeys, hsource r hmem hlive hallow]
  have hnearest : q.nearestLive raws stored =
      ((q.byDistance stored).filter fun r => q.isLive (raws r.id)).take q.k := by
    rw [KnnQuery.nearestLive, KnnQuery.byDistance]
    have hperm := ((perm_insertionSort (· ≤ ·) (stored.filter (q.allows ·.id))).filter
      fun r => q.isLive (raws r.id)).symm
    rw [filter_filter] at hperm
    exact congrArg (take q.k) (((perm_insertionSort ..).trans hperm).eq_of_pairwise'
      (pairwise_insertionSort ..) ((pairwise_insertionSort ..).filter _))
  rw [hhits, hnearest]
  exact filter_take_iff _ q.k (q.byDistance stored)

end

namespace DeadNearest

/-- `a` の期限は `5` で、`b` に期限はない。 -/
def raws (id : String) : Option Bytes :=
  some (replicate 7 0 ++ [if id = "a" then 5 else 0] ++ replicate 8 0 ++ [TypeTag.hash.code])

def query (k : Nat) : KnnQuery := ⟨k, 10, .hash, none, none, none⟩

def stored : List (VectorSearchResult Nat) := [toLex (2, "b"), toLex (1, "a")]

theorem hides_live : (query 1).fulltextVectorHits raws stored = [] ∧
    (query 1).nearestLive raws stored = [toLex (2, "b")] := by decide

theorem both_requested :
    (query 2).fulltextVectorHits raws stored = (query 2).nearestLive raws stored := by
  refine (exactKnn_iff (query 2) raws stored fun _ _ _ _ => rfl).mpr (.inr ?_)
  decide

end DeadNearest

end Onedis.Store
