import Onedis.Store.ExactKnn

/-!
# 近い順に選ぶ

`vector_search_results.rs` の `TopKVectorResults` と `reduce_vector_candidates` の写し。同じ id の候補をまとめる比較
だけが `total_cmp` でなく `<` なので、`0.0` と `-0.0`、NaN のときは、先に来た方が残る。

* `vectorTopK_iff` — 選び方は正確で、まとめ方が順序によらず正確であるのは、`<` が区別するときに限る
* `ZeroDistances.order_decides` — `0.0` が先に来ると、`-0.0` は残らない
-/

namespace Onedis.Store

open Infra List VectorSearchResult

/-! ## 距離 -/

/-- `f32` の bit 列。 -/
structure F32 where
  bits : UInt32
  deriving DecidableEq

namespace F32

def isNan (x : F32) : Bool := 0x7f800000 < x.bits.toNat % 2 ^ 31

/-- 符号と絶対値から、大小だけを写した整数。 -/
def magnitude (x : F32) : Int :=
  if x.bits.toNat < 2 ^ 31 then x.bits.toNat else -(x.bits.toNat - 2 ^ 31 : Nat)

/-- `a < b`。 -/
def lt (a b : F32) : Bool := !a.isNan && !b.isNan && decide (a.magnitude < b.magnitude)

/-- `total_cmp` が比べる整数。 -/
def totalKey (x : F32) : Int :=
  if x.bits.toNat < 2 ^ 31 then x.bits.toNat else -(x.bits.toNat - 2 ^ 31 : Nat) - 1

theorem totalKey_injective : Function.Injective totalKey := by
  rintro ⟨a⟩ ⟨b⟩ h
  refine congrArg mk (UInt32.toNat_inj.mp ?_)
  simp only [totalKey] at h
  split at h <;> split at h <;> omega

instance : LinearOrder F32 := LinearOrder.lift' totalKey totalKey_injective

end F32

/-! ## 上位 k 個 -/

/-- 近い方から残す heap と、使った memory。 -/
structure TopKVectorResults where
  heap : List (VectorSearchResult F32)
  memoryUsed : Nat

namespace TopKVectorResults

variable (k budget : Nat) (bytes : VectorSearchResult F32 → Nat)

/-- `bytes` は `estimated_vector_result_bytes` である。 -/
def push (st : TopKVectorResults) (r : VectorSearchResult F32) : Option TopKVectorResults :=
  if k = 0 then some st
  else if k ≤ st.heap.length ∧ st.heap.getLast?.any (· ≤ r) then some st
  else
    let used := if k ≤ st.heap.length then st.memoryUsed - (st.heap.getLast?.map bytes).getD 0
      else st.memoryUsed
    if budget < min (used + bytes r) (2 ^ 64 - 1) then none
    else some ⟨pushTopK k st.heap r, min (used + bytes r) (2 ^ 64 - 1)⟩

def intoSorted (st : TopKVectorResults) : List (VectorSearchResult F32) :=
  (st.heap.insertionSort (· ≤ ·)).take k

variable {k budget bytes} {st st' : TopKVectorResults}

theorem push_heap {r : VectorSearchResult F32} (hk : k ≠ 0)
    (h : st.push k budget bytes r = some st') : st'.heap = pushTopK k st.heap r := by
  rw [push, if_neg hk] at h
  split at h
  · next hskip =>
    cases h
    rw [pushTopK, if_pos hskip]
  · obtain ⟨-, h⟩ := Option.ite_none_left_eq_some.mp h
    cases h
    rfl

theorem topK_of_pushed {pushed seen : List (VectorSearchResult F32)} (hk : k ≠ 0)
    (hst : TopK k seen st.heap) (h : pushed.foldlM (push k budget bytes) st = some st') :
    TopK k (seen ++ pushed) st'.heap := by
  induction pushed generalizing st seen with
  | nil =>
    cases h
    rwa [append_nil]
  | cons r pushed ih =>
    obtain ⟨next, hpush, h⟩ := Option.bind_eq_some_iff.mp h
    rw [append_cons]
    exact ih (push_heap hk hpush ▸ hst.push hk r) h

theorem intoSorted_eq {pushed results : List (VectorSearchResult F32)} (hperm : pushed ~ results)
    (h : pushed.foldlM (push k budget bytes) ⟨[], 0⟩ = some st) :
    st.intoSorted k = (results.insertionSort (· ≤ ·)).take k := by
  by_cases hk : k = 0
  · simp [intoSorted, hk]
  · obtain ⟨hsorted, hle, rest, hsplit, hrest⟩ :=
      @topK_of_pushed k budget bytes ⟨[], 0⟩ st pushed [] hk
        ⟨.nil, Nat.zero_le k, [], .nil, nofun, fun _ => rfl⟩ h
    rw [intoSorted, hsorted.insertionSort_eq, take_of_length_le hle]
    exact TopK.eq_take ⟨hsorted, hle, rest, hsplit.trans hperm, hrest⟩

end TopKVectorResults

/-! ## 候補のまとめ -/

structure VectorCandidate where
  id : String
  docVersion : Nat
  distance : F32
  deriving DecidableEq

namespace VectorCandidate

/-- 同じ id の候補 `cur` を `c` で置き換えるか。 -/
def replaces (c cur : VectorCandidate) : Bool :=
  cur.docVersion < c.docVersion || c.docVersion == cur.docVersion && c.distance.lt cur.distance

def keepLatest (c : VectorCandidate) : Option VectorCandidate → Option VectorCandidate
  | none => some c
  | some cur => some (if c.replaces cur then c else cur)

def rank (c : VectorCandidate) : F32 ×ₗ String := toLex (c.distance, c.id)

variable (cs : List VectorCandidate)

def latestById : String → Option VectorCandidate :=
  (runKeyed id (fun c cur => ((), c.keepLatest cur)) (fun _ => none) cs).2

def reduceVectorCandidates (limit : Nat) : List VectorCandidate :=
  (((cs.map id).dedup.filterMap (latestById cs)).insertionSort (rank · ≤ rank ·)).take limit

/-- 同じ id の候補のうち、最も新しい version の、最も近いものである。 -/
def Best (c : VectorCandidate) : Prop := ∀ d ∈ cs, d.id = c.id →
  d.docVersion < c.docVersion ∨ d.docVersion = c.docVersion ∧ c.distance ≤ d.distance

instance (c : VectorCandidate) : Decidable (Best cs c) :=
  inferInstanceAs (Decidable (∀ d ∈ cs, _))

def nearest (limit : Nat) : List VectorCandidate :=
  ((cs.filter (Best cs)).dedup.insertionSort (rank · ≤ rank ·)).take limit

/-- 残すべき候補は、同じ version のほかの候補より `<` でも近い。 -/
def Distinguished : Prop := ∀ a ∈ cs, Best cs a → ∀ b ∈ cs, b.id = a.id →
  b.docVersion = a.docVersion → b.distance ≠ a.distance → a.distance.lt b.distance = true

variable {cs} {a b c : VectorCandidate}

theorem replaces_irrefl (c : VectorCandidate) : c.replaces c = false := by
  simp [replaces, F32.lt]

theorem replaces_trans (hab : a.replaces b = true) (hbc : b.replaces c = true) :
    a.replaces c = true := by
  simp only [replaces, F32.lt, Bool.or_eq_true, Bool.and_eq_true, decide_eq_true_eq,
    beq_iff_eq] at hab hbc ⊢
  rcases hab with hab | ⟨hab, ⟨ha, hb⟩, hlt⟩ <;> rcases hbc with hbc | ⟨hbc, ⟨hb', hc⟩, hlt'⟩
  · exact .inl (hbc.trans hab)
  · exact .inl (hbc ▸ hab)
  · exact .inl (hab ▸ hbc)
  · exact .inr ⟨hab.trans hbc, ⟨ha, hc⟩, hlt.trans hlt'⟩

theorem foldl_keepLatest (l : List VectorCandidate) :
    match l.foldl (fun cur c => c.keepLatest cur) none with
    | none => l = []
    | some r => r ∈ l ∧ ∀ c ∈ l, ¬ c.replaces r = true := by
  induction l using reverseRecOn with
  | nil => rfl
  | append_singleton l c ih =>
    rw [foldl_concat]
    cases hcur : l.foldl (fun cur c => c.keepLatest cur) none with
    | none =>
      rw [hcur] at ih
      simp [keepLatest, ih, replaces_irrefl]
    | some cur =>
      rw [hcur] at ih
      simp only [keepLatest]
      split
      · next hnew =>
        refine ⟨by simp, fun d hd hd' => ?_⟩
        rcases mem_append.mp hd with hd | hd
        · exact ih.2 d hd (replaces_trans hd' hnew)
        · rw [mem_singleton.mp hd, replaces_irrefl] at hd'
          cases hd'
      · next hold =>
        refine ⟨mem_append_left _ ih.1, fun d hd => ?_⟩
        rcases mem_append.mp hd with hd | hd
        · exact ih.2 d hd
        · rwa [mem_singleton.mp hd]

/-- 置き換えられない候補から始めると、`a` は残らない。 -/
theorem foldl_keepLatest_ne (l : List VectorCandidate) {cur : VectorCandidate} (hne : cur ≠ a)
    (h : ¬ a.replaces cur = true) :
    l.foldl (fun cur c => c.keepLatest cur) (some cur) ≠ some a := by
  induction l generalizing cur with
  | nil => simpa using hne
  | cons c l ih =>
    rw [foldl_cons, keepLatest]
    split
    · next hc =>
      refine ih ?_ fun hac => h (replaces_trans hac hc)
      rintro rfl
      exact h hc
    · exact ih hne h

theorem latestById_eq (cs : List VectorCandidate) (key : String) : latestById cs key =
    (addressedTo id key cs).foldl (fun cur c => c.keepLatest cur) none :=
  runKeyed_state ..

theorem mem_addressedTo {key : String} : c ∈ addressedTo id key cs ↔ c ∈ cs ∧ c.id = key := by
  simp [addressedTo]

theorem latestById_spec {key : String} (h : latestById cs key = some c) :
    (c ∈ cs ∧ c.id = key) ∧ ∀ d ∈ cs, d.id = key → ¬ d.replaces c = true := by
  have hfold := foldl_keepLatest (addressedTo id key cs)
  rw [← latestById_eq, h] at hfold
  exact ⟨mem_addressedTo.mp hfold.1, fun d hd hid => hfold.2 d (mem_addressedTo.mpr ⟨hd, hid⟩)⟩

theorem mem_kept : c ∈ (cs.map id).dedup.filterMap (latestById cs) ↔
    latestById cs c.id = some c := by
  rw [mem_filterMap]
  constructor
  · rintro ⟨key, -, h⟩
    rwa [← (latestById_spec h).1.2] at h
  · exact fun h => ⟨c.id, mem_dedup.mpr (mem_map_of_mem (latestById_spec h).1.1), h⟩

theorem exists_best (hc : c ∈ cs) : ∃ a ∈ cs, a.id = c.id ∧ Best cs a := by
  obtain ⟨a, ha, hmin⟩ := Finset.exists_min_image (cs.filter (·.id = c.id)).toFinset
    (fun d => toLex (OrderDual.toDual d.docVersion, d.distance)) ⟨c, by simp [hc]⟩
  simp only [mem_toFinset, mem_filter, decide_eq_true_eq] at ha hmin
  refine ⟨a, ha.1, ha.2, fun d hd hid => ?_⟩
  rcases Prod.Lex.le_iff.mp (hmin d ⟨hd, hid.trans ha.2⟩) with hlt | ⟨heq, hle⟩
  · exact .inl hlt
  · exact .inr ⟨heq.symm, hle⟩

theorem latestById_best (h : Distinguished cs) {cs' : List VectorCandidate} (hperm : cs' ~ cs)
    (hc : c ∈ cs) (hbest : Best cs c) : latestById cs' c.id = some c := by
  cases hlatest : latestById cs' c.id with
  | none =>
    have hfold := foldl_keepLatest (addressedTo id c.id cs')
    rw [← latestById_eq, hlatest] at hfold
    exact absurd (mem_addressedTo.mpr ⟨hperm.mem_iff.mpr hc, rfl⟩) (by simp [hfold])
  | some r =>
    obtain ⟨⟨hr, hid⟩, hkeep⟩ := latestById_spec hlatest
    have hnot := hkeep c (hperm.mem_iff.mpr hc) rfl
    simp only [replaces, Bool.or_eq_true, Bool.and_eq_true, decide_eq_true_eq, beq_iff_eq,
      not_or, not_and] at hnot
    rcases hbest r (hperm.mem_iff.mp hr) hid with hlt | ⟨hver, -⟩
    · exact absurd hlt hnot.1
    · have hdist : r.distance = c.distance := by
        by_contra hne
        exact hnot.2 hver.symm (h c hc hbest r (hperm.mem_iff.mp hr) hid hver hne)
      obtain ⟨rid, rver, rdist⟩ := r
      obtain ⟨cid, cver, cdist⟩ := c
      simp_all

theorem reduce_eq_nearest (h : Distinguished cs) {cs' : List VectorCandidate} (hperm : cs' ~ cs)
    (limit : Nat) : reduceVectorCandidates cs' limit = nearest cs limit := by
  have hmem : ∀ c, c ∈ (cs'.map id).dedup.filterMap (latestById cs') ↔
      c ∈ (cs.filter (Best cs)).dedup := by
    intro c
    rw [mem_kept, mem_dedup, mem_filter, decide_eq_true_eq]
    refine ⟨fun hc => ?_, fun hc => latestById_best h hperm hc.1 hc.2⟩
    obtain ⟨a, ha, hid, hbest⟩ := exists_best (hperm.mem_iff.mp (latestById_spec hc).1.1)
    have hlatest := latestById_best h hperm ha hbest
    rw [hid, hc] at hlatest
    cases hlatest
    exact ⟨ha, hbest⟩
  have hnodup : ((cs'.map id).dedup.filterMap (latestById cs')).Nodup :=
    (nodup_dedup _).filterMap fun key key' c hkey hkey' =>
      (latestById_spec hkey).1.2.symm.trans (latestById_spec hkey').1.2
  have hsort := (perm_ext_iff_of_nodup hnodup (nodup_dedup _)).mpr hmem
  refine congrArg (take limit) ?_
  have : Std.Total fun a b : VectorCandidate => rank a ≤ rank b := ⟨fun _ _ => le_total _ _⟩
  have : IsTrans VectorCandidate fun a b => rank a ≤ rank b := ⟨fun _ _ _ => le_trans⟩
  refine ((perm_insertionSort ..).trans (hsort.trans (perm_insertionSort ..).symm)).eq_of_pairwise
    ?_ (pairwise_insertionSort ..) (pairwise_insertionSort ..)
  -- 残った候補の id は互いに異なるので、距離と id の順で並びが決まる
  intro a b ha hb hab hba
  have hid : a.id = b.id := congrArg (fun r => (ofLex r).2) (hab.antisymm hba)
  have ha' := mem_kept.mp ((perm_insertionSort ..).mem_iff.mp ha)
  have hb' := mem_kept.mp ((hmem b).mpr ((perm_insertionSort ..).mem_iff.mp hb))
  rw [hid, hb'] at ha'
  cases ha'
  rfl

theorem distinguished_of_exact
    (h : ∀ cs', cs' ~ cs → ∀ limit, reduceVectorCandidates cs' limit = nearest cs limit) :
    Distinguished cs := by
  intro a ha hbest b hb hid hver hne
  by_contra hlt
  have hnear : a ∈ nearest cs
      ((cs.filter (Best cs)).dedup.insertionSort (rank · ≤ rank ·)).length := by
    rw [nearest, take_length]
    simp [ha, hbest]
  rw [← h _ (perm_cons_erase hb).symm] at hnear
  have hlatest := mem_kept.mp ((perm_insertionSort ..).mem_iff.mp (mem_of_mem_take hnear))
  rw [latestById_eq, ← hid, addressedTo_cons_self, foldl_cons] at hlatest
  refine foldl_keepLatest_ne _ ?_ ?_ hlatest
  · rintro rfl
    exact hne rfl
  · simp [replaces, hver, hlt]

end VectorCandidate

open TopKVectorResults VectorCandidate

/--
**近い順の選択の正確さ。** `TopKVectorResults` は、どの順に入れても、予算の誤りがなければ近い方から `k` 個を返す。
`reduce_vector_candidates` がどの順の候補からも正しい候補を返すのは、`Distinguished` のとき、またそのときに限る。
-/
theorem vectorTopK_iff (k budget : Nat) (bytes : VectorSearchResult F32 → Nat)
    (cs : List VectorCandidate) :
    (∀ results pushed st, pushed ~ results →
      pushed.foldlM (push k budget bytes) ⟨[], 0⟩ = some st →
      st.intoSorted k = (results.insertionSort (· ≤ ·)).take k) ∧
    ((∀ cs', cs' ~ cs → ∀ limit, reduceVectorCandidates cs' limit = nearest cs limit) ↔
      Distinguished cs) :=
  ⟨fun _ _ _ => intoSorted_eq, distinguished_of_exact,
    fun h _ hperm limit => reduce_eq_nearest h hperm limit⟩

namespace ZeroDistances

/-- 同じ id と version の二つの候補。距離は `0.0` と `-0.0` である。 -/
def candidates : List VectorCandidate := [⟨"a", 1, ⟨0⟩⟩, ⟨"a", 1, ⟨0x80000000⟩⟩]

theorem order_decides : reduceVectorCandidates candidates 1 = [⟨"a", 1, ⟨0⟩⟩] ∧
    reduceVectorCandidates candidates.reverse 1 = [⟨"a", 1, ⟨0x80000000⟩⟩] ∧
    nearest candidates 1 = [⟨"a", 1, ⟨0x80000000⟩⟩] := by
  decide

end ZeroDistances

end Onedis.Store
