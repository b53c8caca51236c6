import Onedis.Infra.Paging

/-!
# 探索の予算の配分

`distribute_vector_budget` は、graph ごとの node の数に比例して予算を切り上げで配り、後に残る graph のために一つずつ
取っておく。残りの予算が残りの graph の数以上、残りの node の数以下であることが、繰り返しの不変条件である。

* `vectorBudget_exact` — どの graph も node の数以下で一つ以上を受け取り、合計は求めた量に一致する
-/

namespace Onedis.Store

open Infra List

/-- 一つの graph の取り分。 -/
def vectorShare (remainingBudget remainingNodes remainingGraphs nodes : Nat) : Nat :=
  let product := min (remainingBudget * nodes) u64Limit
  let proportional := (product + (max remainingNodes 1 - 1)) / max remainingNodes 1
  min (min (max proportional 1) nodes) (max (remainingBudget - (remainingGraphs - 1)) 1)

def spreadVectorBudget : Nat → Nat → Nat → List Nat → List Nat
  | _, _, _, [] => []
  | remainingBudget, remainingNodes, remainingGraphs, nodes :: rest =>
    if nodes = 0 then 0 :: spreadVectorBudget remainingBudget remainingNodes remainingGraphs rest
    else
      let budget := vectorShare remainingBudget remainingNodes remainingGraphs nodes
      budget :: spreadVectorBudget (remainingBudget - budget) (remainingNodes - nodes)
        (remainingGraphs - 1) rest

def activeGraphs (nodeCounts : List Nat) : Nat := nodeCounts.countP (0 < ·)

def distributeVectorBudget (nodeCounts : List Nat) (requested : Nat) : List Nat :=
  if nodeCounts.sum = 0 then replicate nodeCounts.length 0
  else spreadVectorBudget (min (max requested (activeGraphs nodeCounts)) nodeCounts.sum)
    nodeCounts.sum (activeGraphs nodeCounts) nodeCounts

/-- 空の graph は何も受け取らず、ほかは一つ以上、node の数以下を受け取る。 -/
def BudgetFits (nodes budget : Nat) : Prop := min 1 nodes ≤ budget ∧ budget ≤ nodes

variable {budget total graphs nodes : Nat}

theorem add_le_of_ceilDiv (htotal : 0 < total) (hbudget : budget ≤ total) (hnodes : nodes ≤ total) :
    budget + nodes ≤ total + (budget * nodes + (total - 1)) / total := by
  obtain ⟨spare, rfl⟩ := Nat.exists_eq_add_of_le hbudget
  obtain ⟨others, hothers⟩ := Nat.exists_eq_add_of_le hnodes
  have hceil := Nat.lt_div_mul_add (a := budget * nodes + (budget + spare - 1)) htotal
  generalize (budget * nodes + (budget + spare - 1)) / (budget + spare) = share at hceil ⊢
  by_contra hlt
  have hshare : share + 1 + spare ≤ nodes := by omega
  -- 比例の取り分が小さすぎると、余りの積 `spare * others` が負になる
  nlinarith

theorem vectorShare_spec (hnodes : 0 < nodes) (hgraphs : graphs + 1 ≤ budget)
    (hbudget : budget ≤ nodes + total) (hothers : graphs ≤ total)
    (hproduct : budget * nodes ≤ u64Limit) :
    let share := vectorShare budget (nodes + total) (graphs + 1) nodes
    BudgetFits nodes share ∧ graphs ≤ budget - share ∧ budget - share ≤ total ∧
      share ≤ budget := by
  have htotal : max (nodes + total) 1 = nodes + total := by omega
  have hceil := add_le_of_ceilDiv (by omega) hbudget (Nat.le_add_right nodes total)
  simp only [BudgetFits, vectorShare, htotal, min_eq_left hproduct]
  omega

theorem activeGraphs_le_sum (nodeCounts : List Nat) : activeGraphs nodeCounts ≤ nodeCounts.sum := by
  induction nodeCounts with
  | nil => exact Nat.zero_le _
  | cons nodes rest ih =>
    simp only [activeGraphs, countP_cons, sum_cons, decide_eq_true_eq] at ih ⊢
    split <;> omega

theorem spreadVectorBudget_spec {nodeCounts : List Nat} (hactive : activeGraphs nodeCounts ≤ budget)
    (hbudget : budget ≤ nodeCounts.sum)
    (hproduct : ∀ nodes ∈ nodeCounts, budget * nodes ≤ u64Limit) :
    let budgets := spreadVectorBudget budget nodeCounts.sum (activeGraphs nodeCounts) nodeCounts
    Forall₂ BudgetFits nodeCounts budgets ∧ budgets.sum = budget := by
  induction nodeCounts generalizing budget with
  | nil =>
    rw [sum_nil, Nat.le_zero] at hbudget
    exact ⟨.nil, hbudget.symm⟩
  | cons nodes rest ih =>
    obtain ⟨hnodes, hrest⟩ := forall_mem_cons.mp hproduct
    unfold spreadVectorBudget
    split
    · next hzero =>
      subst hzero
      have hactive' : activeGraphs (0 :: rest) = activeGraphs rest := by simp [activeGraphs]
      rw [hactive'] at hactive ⊢
      rw [sum_cons, Nat.zero_add] at hbudget ⊢
      obtain ⟨hfits, hsum⟩ := ih hactive hbudget hrest
      exact ⟨.cons ⟨by simp, Nat.le_refl 0⟩ hfits, by rw [sum_cons, hsum, Nat.zero_add]⟩
    · next hpos =>
      have hactive' : activeGraphs (nodes :: rest) = activeGraphs rest + 1 := by
        simp [activeGraphs, Nat.pos_of_ne_zero hpos]
      rw [hactive'] at hactive ⊢
      rw [sum_cons] at hbudget ⊢
      obtain ⟨hfit, hlow, hhigh, hshare⟩ := vectorShare_spec (Nat.pos_of_ne_zero hpos) hactive
        hbudget (activeGraphs_le_sum rest) hnodes
      obtain ⟨hfits, hsum⟩ := ih hlow hhigh fun n hn =>
        (Nat.mul_le_mul_right n (Nat.sub_le ..)).trans (hrest n hn)
      simp only [Nat.add_sub_cancel, Nat.add_sub_cancel_left]
      exact ⟨.cons hfit hfits, by rw [sum_cons, hsum, Nat.add_sub_of_le hshare]⟩

/--
**予算の配分。** node のある graph は一つ以上、node の数以下を、空の graph は 0 を受け取る。合計は、求めた量を node の
ある graph の数まで引き上げ、node の総数で抑えたものである。積は `usize` に収まるとする。
-/
theorem vectorBudget_exact (nodeCounts : List Nat) (requested : Nat)
    (hproduct : ∀ nodes ∈ nodeCounts,
      min (max requested (activeGraphs nodeCounts)) nodeCounts.sum * nodes ≤ u64Limit) :
    Forall₂ BudgetFits nodeCounts (distributeVectorBudget nodeCounts requested) ∧
      (distributeVectorBudget nodeCounts requested).sum =
        min (max requested (activeGraphs nodeCounts)) nodeCounts.sum := by
  unfold distributeVectorBudget
  split
  · next hzero =>
    rw [← eq_replicate_of_mem (List.sum_eq_zero_iff.mp hzero)]
    exact ⟨forall₂_same.mpr fun nodes _ => ⟨Nat.min_le_right .., Nat.le_refl _⟩,
      by rw [hzero, Nat.min_zero]⟩
  · exact spreadVectorBudget_spec (le_min (le_max_right ..) (activeGraphs_le_sum _))
      (Nat.min_le_right ..) hproduct

theorem threeGraphs_exact : (distributeVectorBudget [3, 0, 5] 4).sum = 4 :=
  (vectorBudget_exact [3, 0, 5] 4 (by decide)).2

end Onedis.Store
