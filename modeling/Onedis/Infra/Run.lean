import Mathlib.Data.List.Basic

/-!
# 部分遷移系の実行

`step : σ → α → Option σ` を action の列に沿って走らせる。`none` は、その action が起こらないこと。

* `run_induction` — 一歩が保つ性質は、条件を満たす実行の全体で保たれる
-/

namespace Onedis.Infra

variable {σ τ α β : Type*}

def run (step : σ → α → Option σ) : σ → List α → Option σ
  | s, [] => some s
  | s, a :: as => (step s a).bind fun s' => run step s' as

/-- 実行の各 step が、その step の直前の状態で `ok` を満たす。 -/
def Obeys (step : σ → α → Option σ) (ok : σ → α → Prop) : σ → List α → Prop
  | _, [] => True
  | s, a :: as => ok s a ∧ ∀ s', step s a = some s' → Obeys step ok s' as

/-- 実行のどこかの step が、その直前の状態で `p` を満たす。 -/
def Sometime (step : σ → α → Option σ) (p : σ → α → Prop) : σ → List α → Prop
  | _, [] => False
  | s, a :: as => p s a ∨ ∃ s', step s a = some s' ∧ Sometime step p s' as

variable (step : σ → α → Option σ)

@[simp] theorem run_cons (s : σ) (a : α) (as : List α) :
    run step s (a :: as) = (step s a).bind fun s' => run step s' as := rfl

theorem run_append (s : σ) (as bs : List α) :
    run step s (as ++ bs) = (run step s as).bind fun s' => run step s' bs := by
  induction as generalizing s with
  | nil => rfl
  | cons a as ih =>
    simp only [List.cons_append, run_cons, Option.bind_assoc]
    congr 1
    funext s'
    exact ih s'

variable {step : σ → α → Option σ}

theorem run_cons_eq_some {s s' : σ} {a : α} {as : List α} :
    run step s (a :: as) = some s' ↔ ∃ m, step s a = some m ∧ run step m as = some s' := by
  rw [run_cons, Option.bind_eq_some_iff]

theorem run_append_eq_some {s s' : σ} {as bs : List α} :
    run step s (as ++ bs) = some s' ↔ ∃ m, run step s as = some m ∧ run step m bs = some s' := by
  rw [run_append, Option.bind_eq_some_iff]

instance Obeys.decidable (step : σ → α → Option σ) (ok : σ → α → Prop)
    [∀ s a, Decidable (ok s a)] : ∀ (s : σ) (as : List α), Decidable (Obeys step ok s as)
  | _, [] => .isTrue trivial
  | s, a :: as =>
    match hs : step s a with
    | none =>
      decidable_of_iff (ok s a)
        ⟨fun h => ⟨h, fun s' hc => absurd (hs.symm.trans hc) (by simp)⟩, And.left⟩
    | some m =>
      have := Obeys.decidable step ok m as
      decidable_of_iff (ok s a ∧ Obeys step ok m as)
        ⟨fun h => ⟨h.1, fun s' hc => Option.some.inj (hs.symm.trans hc) ▸ h.2⟩,
          fun h => ⟨h.1, h.2 m hs⟩⟩

/-- **実行の帰納法。** `ok` を満たす一歩が `Inv` を保つなら、`ok` を満たす実行が着く状態でも成り立つ。 -/
theorem run_induction {ok : σ → α → Prop} {Inv : σ → Prop}
    (hstep : ∀ s a s', Inv s → ok s a → step s a = some s' → Inv s') :
    ∀ {as : List α} {s s' : σ}, Inv s → Obeys step ok s as → run step s as = some s' → Inv s'
  | [], _, _, hi, _, hr => by cases hr; exact hi
  | a :: as, s, s', hi, ho, hr => by
    obtain ⟨m, hs, hr⟩ := run_cons_eq_some.mp hr
    exact run_induction hstep (hstep s a m hi ho.1 hs) (ho.2 m hs) hr

theorem Obeys.of_forall {ok : σ → α → Prop} (h : ∀ s a, ok s a) :
    ∀ {as : List α} {s : σ}, Obeys step ok s as
  | [], _ => trivial
  | _ :: _, _ => ⟨h _ _, fun _ _ => of_forall h⟩

theorem forall_mem_concat {P : α → Prop} {l : List α} {a : α} (h : ∀ x ∈ l, P x) (ha : P a) :
    ∀ x ∈ l ++ [a], P x :=
  List.forall_mem_append.mpr ⟨h, List.forall_mem_singleton.mpr ha⟩

theorem Obeys.mono {ok ok' : σ → α → Prop} (h : ∀ s a, ok s a → ok' s a) :
    ∀ {as : List α} {s : σ}, Obeys step ok s as → Obeys step ok' s as
  | [], _, _ => trivial
  | _ :: _, _, ho => ⟨h _ _ ho.1, fun s' hs => (ho.2 s' hs).mono h⟩

end Onedis.Infra
