import Mathlib.Data.List.Basic
import Mathlib.Logic.Function.Basic

/-!
# key ごとの状態を持つ command の列

一つの key だけを読み書きする command の列を、key ごとの状態の表の上で順に実行する。

* `runKeyed_simulates` — 一つの command が保つ関係は、列の全体で保たれ、返事も等しい
* `runKeyed_state` — ある key の最後の状態は、その key への command だけで決まる
* `Numbered.execAll_refines` — 一つの command の仕様から、列の全体の仕様を得る
* `oneByOne_refines` — 長さ 1 の列の仕様から、一つずつ当てた列の全体の仕様を得る
-/

namespace Onedis.Infra

open Function List

variable {κ σ τ γ ρ : Type*} [DecidableEq κ]

/-! ## key ごとの実行 -/

def runKeyed (key : γ → κ) (step : γ → σ → ρ × σ) : (κ → σ) → List γ → List ρ × (κ → σ)
  | states, [] => ([], states)
  | states, c :: cs =>
    let out := step c (states (key c))
    let rest := runKeyed key step (update states (key c) out.2) cs
    (out.1 :: rest.1, rest.2)

def addressedTo (key : γ → κ) (k : κ) (cs : List γ) : List γ := cs.filter fun c => key c = k

section

variable {key : γ → κ} {step : γ → σ → ρ × σ} {step' : γ → τ → ρ × τ}

@[simp] theorem addressedTo_nil (k : κ) : addressedTo key k [] = [] := rfl

theorem addressedTo_cons_self (c : γ) (cs : List γ) :
    addressedTo key (key c) (c :: cs) = c :: addressedTo key (key c) cs := by
  simp [addressedTo]

variable {k : κ}

theorem addressedTo_cons_of_ne {c : γ} (h : key c ≠ k) (cs : List γ) :
    addressedTo key k (c :: cs) = addressedTo key k cs := by
  simp [addressedTo, h]

variable {cs : List γ}

theorem mem_addressedTo {c : γ} : c ∈ addressedTo key k cs ↔ c ∈ cs ∧ key c = k := by
  simp [addressedTo]

theorem addressedTo_append (k : κ) (cs ds : List γ) :
    addressedTo key k (cs ++ ds) = addressedTo key k cs ++ addressedTo key k ds :=
  filter_append ..

theorem addressedTo_eq_nil : addressedTo key k cs = [] ↔ k ∉ cs.map key := by
  simp [addressedTo]

/-- ある key の最後の状態は、その key に宛てた command を順に当てたものである。 -/
theorem runKeyed_state (states : κ → σ) (cs : List γ) (k : κ) : (runKeyed key step states cs).2 k =
      (addressedTo key k cs).foldl (fun s c => (step c s).2) (states k) := by
  induction cs generalizing states with
  | nil => rfl
  | cons c cs ih =>
    simp only [runKeyed, ih]
    by_cases hk : key c = k
    · subst hk
      rw [addressedTo_cons_self, update_self]
      rfl
    · rw [addressedTo_cons_of_ne hk, update_of_ne (Ne.symm hk)]

theorem runKeyed_untouched (h : k ∉ cs.map key) (states : κ → σ) :
    (runKeyed key step states cs).2 k = states k := by
  rw [runKeyed_state, addressedTo_eq_nil.mpr h]
  rfl

theorem runKeyed_map {ρ' : Type*} (key : γ → κ) (step : γ → σ → ρ × σ) (g : ρ → ρ')
    (states : κ → σ) (cs : List γ) :
    runKeyed key (fun c s => (g (step c s).1, (step c s).2)) states cs =
      ((runKeyed key step states cs).1.map g, (runKeyed key step states cs).2) := by
  induction cs generalizing states with
  | nil => rfl
  | cons c cs ih => simp [runKeyed, ih]

variable {states : κ → σ}

/-- どの返事も、それより前の command を実行した状態で、ある command が返したものである。 -/
theorem mem_runKeyed {r : ρ} :
    r ∈ (runKeyed key step states cs).1 ↔ ∃ done c rest, cs = done ++ c :: rest ∧
      (step c ((runKeyed key step states done).2 (key c))).1 = r := by
  induction cs generalizing states with
  | nil => simp [runKeyed]
  | cons c cs ih =>
    simp only [runKeyed, mem_cons, ih]
    constructor
    · rintro (rfl | ⟨done, d, rest, rfl, hr⟩)
      · exact ⟨[], c, cs, rfl, rfl⟩
      · exact ⟨c :: done, d, rest, rfl, hr⟩
    · rintro ⟨done, d, rest, heq, hr⟩
      cases done with
      | nil =>
        cases heq
        exact .inl hr.symm
      | cons c' done =>
        cases heq
        exact .inr ⟨done, d, rest, rfl, hr⟩

variable {states' : κ → τ} {R : κ → σ → τ → Prop}

/-- 一つの key を同時に書き換えても、ほかの key の関係は変わらない。 -/
theorem update_rel {s : σ} {t : τ} (hself : R k s t) (h : ∀ j ≠ k, R j (states j) (states' j))
    (j : κ) : R j (update states k s j) (update states' k t j) := by
  by_cases hj : j = k
  · subst hj
    simpa only [update_self] using hself
  · simpa only [update_of_ne hj] using h j hj

/-- 関係が残りの command に依存する場合。`R k rest` は、`k` への command が `rest` だけ残るときの関係。 -/
theorem runKeyed_simulates_rest {R : κ → List γ → σ → τ → Prop}
    (hstep : ∀ c ∈ cs, ∀ rest s t, R (key c) (c :: rest) s t →
      (step c s).1 = (step' c t).1 ∧ R (key c) rest (step c s).2 (step' c t).2)
    (hinit : ∀ k, R k (addressedTo key k cs) (states k) (states' k)) :
    (runKeyed key step states cs).1 = (runKeyed key step' states' cs).1 ∧
      ∀ k, R k [] ((runKeyed key step states cs).2 k) ((runKeyed key step' states' cs).2 k) := by
  induction cs generalizing states states' with
  | nil => exact ⟨rfl, hinit⟩
  | cons c cs ih =>
    have hhead := hinit (key c)
    rw [addressedTo_cons_self] at hhead
    obtain ⟨hreply, hnext⟩ := hstep c mem_cons_self _ _ _ hhead
    obtain ⟨hreplies, hfinal⟩ := ih (fun d hd => hstep d (mem_cons_of_mem c hd))
      (update_rel hnext fun k hk => by
        have hother := hinit k
        rwa [addressedTo_cons_of_ne (Ne.symm hk)] at hother)
    exact ⟨congrArg₂ cons hreply hreplies, hfinal⟩

theorem runKeyed_simulates (hstep : ∀ c ∈ cs, ∀ s t, R (key c) s t →
      (step c s).1 = (step' c t).1 ∧ R (key c) (step c s).2 (step' c t).2)
    (hinit : ∀ k, R k (states k) (states' k)) :
    (runKeyed key step states cs).1 = (runKeyed key step' states' cs).1 ∧
      ∀ k, R k ((runKeyed key step states cs).2 k) ((runKeyed key step' states' cs).2 k) :=
  runKeyed_simulates_rest (R := fun k _ => R k) (fun c hc _ => hstep c hc) hinit

/-- 関係を、列に出てくる key についてだけ求める場合。 -/
theorem runKeyed_simulates_on {keys : List κ} (hkeys : ∀ c ∈ cs, key c ∈ keys)
    (hstep : ∀ c ∈ cs, ∀ s t, R (key c) s t →
      (step c s).1 = (step' c t).1 ∧ R (key c) (step c s).2 (step' c t).2)
    (hinit : ∀ k ∈ keys, R k (states k) (states' k)) :
    (runKeyed key step states cs).1 = (runKeyed key step' states' cs).1 ∧ ∀ k ∈ keys,
      R k ((runKeyed key step states cs).2 k) ((runKeyed key step' states' cs).2 k) := by
  refine runKeyed_simulates (R := fun k s t => k ∈ keys → R k s t) (fun c hc s t h => ?_) hinit
  obtain ⟨hreply, hnext⟩ := hstep c hc s t (h (hkeys c hc))
  exact ⟨hreply, fun _ => hnext⟩

def runOne (step : γ → σ → ρ × σ) : σ → List γ → List ρ × σ
  | s, [] => ([], s)
  | s, c :: cs => ((step c s).1 :: (runOne step (step c s).2 cs).1, (runOne step (step c s).2 cs).2)

theorem runOne_snd (s : σ) (cs : List γ) :
    (runOne step s cs).2 = cs.foldl (fun s c => (step c s).2) s := by
  induction cs generalizing s with
  | nil => rfl
  | cons c cs ih => exact ih _

theorem runOne_fixed {r : γ → ρ} {s : σ} (h : ∀ c, step c s = (r c, s)) (cs : List γ) :
    runOne step s cs = (cs.map r, s) := by
  induction cs with
  | nil => rfl
  | cons c cs ih => simp [runOne, h, ih]

theorem runKeyed_snd (states : κ → σ) (cs : List γ) (k : κ) :
    (runKeyed key step states cs).2 k = (runOne step (states k) (addressedTo key k cs)).2 := by
  rw [runKeyed_state, runOne_snd]

theorem runOne_simulates {R : σ → τ → Prop} {cs : List γ} {s : σ} {t : τ}
    (hstep : ∀ c s t, R s t → (step c s).1 = (step' c t).1 ∧ R (step c s).2 (step' c t).2)
    (h : R s t) :
    (runOne step s cs).1 = (runOne step' t cs).1 ∧
      R (runOne step s cs).2 (runOne step' t cs).2 := by
  induction cs generalizing s t with
  | nil => exact ⟨rfl, h⟩
  | cons c cs ih =>
    obtain ⟨hreply, hnext⟩ := hstep c s t h
    obtain ⟨hreplies, hfinal⟩ := ih hnext
    exact ⟨congrArg₂ cons hreply hreplies, hfinal⟩

theorem runKeyed_replies_eq_iff :
    (runKeyed key step states cs).1 = (runKeyed key step' states' cs).1 ↔
      ∀ k, (runOne step (states k) (addressedTo key k cs)).1 =
        (runOne step' (states' k) (addressedTo key k cs)).1 := by
  induction cs generalizing states states' with
  | nil => simp [runKeyed, runOne]
  | cons c cs ih =>
    simp only [runKeyed, cons.injEq, ih]
    constructor
    · rintro ⟨hhead, hrest⟩ k
      have hk := hrest k
      by_cases heq : key c = k
      · subst heq
        rw [update_self, update_self] at hk
        rw [addressedTo_cons_self]
        exact congrArg₂ cons hhead hk
      · rw [update_of_ne (Ne.symm heq), update_of_ne (Ne.symm heq)] at hk
        rw [addressedTo_cons_of_ne heq]
        exact hk
    · intro h
      have hself := h (key c)
      rw [addressedTo_cons_self] at hself
      obtain ⟨hhead, htail⟩ := cons.inj hself
      refine ⟨hhead, fun k => ?_⟩
      by_cases heq : key c = k
      · subst heq
        rw [update_self, update_self]
        exact htail
      · have hk := h k
        rw [addressedTo_cons_of_ne heq] at hk
        rw [update_of_ne (Ne.symm heq), update_of_ne (Ne.symm heq)]
        exact hk

theorem runKeyed_congr {states states' : κ → σ} {cs : List γ}
    (h : ∀ k ∈ cs.map key, states k = states' k) :
    (runKeyed key step states cs).1 = (runKeyed key step states' cs).1 ∧
      ∀ k ∈ cs.map key, (runKeyed key step states cs).2 k = (runKeyed key step states' cs).2 k := by
  refine ⟨runKeyed_replies_eq_iff.mpr fun k => ?_, fun k hk => ?_⟩
  · by_cases hk : k ∈ cs.map key
    · rw [h k hk]
    · rw [addressedTo_eq_nil.mpr hk]
      rfl
  · rw [runKeyed_snd, runKeyed_snd, h k hk]

end

/-- 実行の結果は、`view` で見ると `spec` の返事と中身であり、`Inv` を満たす。 -/
structure Meets (view : σ → τ) (Inv : σ → Prop) (out : ρ × σ) (spec : ρ × τ) : Prop where
  reply : out.1 = spec.1
  seen : view out.2 = spec.2
  inv : Inv out.2

/-! ## 一つずつの実行 -/

section

variable {S : Type*} {batch : List γ → S → List ρ × S} {Inv : S → Prop} {view : S → κ → τ}
  {key : γ → κ} {spec : γ → τ → ρ × τ}

/-- まとめて実行する `batch` を、長さ 1 の列に一つずつ当てる。 -/
def oneByOne (batch : List γ → S → List ρ × S) : List γ → S → List ρ × S
  | [], s => ([], s)
  | c :: cs, s =>
    let first := batch [c] s
    let rest := oneByOne batch cs first.2
    (first.1 ++ rest.1, rest.2)

variable (view) in
/-- 長さ 1 の列が `spec` どおりに働くなら、一つずつ当てた列の全体も `spec` どおりに働く。 -/
theorem oneByOne_refines (hsingle : ∀ c s, Inv s →
      (batch [c] s).1 = [(spec c (view s (key c))).1] ∧ Inv (batch [c] s).2 ∧
        view (batch [c] s).2 = update (view s) (key c) (spec c (view s (key c))).2)
    (cs : List γ) {s : S} (h : Inv s) :
    (oneByOne batch cs s).1 = (runKeyed key spec (view s) cs).1 ∧
      view (oneByOne batch cs s).2 = (runKeyed key spec (view s) cs).2 := by
  induction cs generalizing s with
  | nil => exact ⟨rfl, rfl⟩
  | cons c cs ih =>
    obtain ⟨hreply, hinv, hview⟩ := hsingle c s h
    obtain ⟨hreplies, hfinal⟩ := ih hinv
    rw [hview] at hreplies hfinal
    refine ⟨?_, hfinal⟩
    simp only [oneByOne, hreply, hreplies]
    rfl

end

/-! ## 番号を配る表 -/

/-- key ごとの状態と、version を配る counter。 -/
structure Numbered (κ σ : Type*) where
  slots : κ → σ
  counter : Nat

namespace Numbered

def exec (key : γ → κ) (op : γ → Nat → σ → ρ × σ) (s : Numbered κ σ) (c : γ) :
    ρ × Numbered κ σ :=
  let out := op c (s.counter + 1) (s.slots (key c))
  (out.1, ⟨update s.slots (key c) out.2, s.counter + 1⟩)

def execAll (key : γ → κ) (op : γ → Nat → σ → ρ × σ) : Numbered κ σ → List γ →
    List ρ × Numbered κ σ
  | s, [] => ([], s)
  | s, c :: cs =>
    let out := exec key op s c
    let rest := execAll key op out.2 cs
    (out.1 :: rest.1, rest.2)

/-- どの key の状態も、最後に配った番号について `Inv` を満たす。 -/
def Satisfies (Inv : Nat → σ → Prop) (s : Numbered κ σ) : Prop := ∀ k, Inv s.counter (s.slots k)

/-- key ごとの結果についての `Meets`。 -/
structure Runs (view : σ → τ) (Inv : Nat → σ → Prop) (out : List ρ × Numbered κ σ)
    (spec : List ρ × (κ → τ)) : Prop where
  replies : out.1 = spec.1
  seen : ∀ k, view (out.2.slots k) = spec.2 k
  inv : out.2.Satisfies Inv

variable {key : γ → κ} {op : γ → Nat → σ → ρ × σ} {spec : γ → τ → ρ × τ} {view : σ → τ}
  {Inv : Nat → σ → Prop}

/-- 一つの command が `spec` どおりに働き、番号についての不変条件を保つなら、列の全体も `spec` どおりに働く。 -/
theorem execAll_refines {s : Numbered κ σ} (hs : s.Satisfies Inv)
    (hmono : ∀ n m t, Inv n t → n ≤ m → Inv m t)
    (hop : ∀ c n t, Inv n t → Meets view (Inv (n + 1)) (op c (n + 1) t) (spec c (view t)))
    (cs : List γ) : Runs view Inv (execAll key op s cs)
      (runKeyed key spec (fun k => view (s.slots k)) cs) := by
  induction cs generalizing s with
  | nil => exact ⟨rfl, fun _ => rfl, hs⟩
  | cons c cs ih =>
    obtain ⟨hreply, hview, hinv⟩ := hop c s.counter (s.slots (key c)) (hs (key c))
    have hnext : (exec key op s c).2.Satisfies Inv := by
      intro k
      by_cases hk : k = key c
      · subst hk
        simpa only [exec, update_self] using hinv
      · simpa only [exec, update_of_ne hk] using hmono _ _ _ (hs k) (Nat.le_succ _)
    have hviews : (fun k => view ((exec key op s c).2.slots k)) =
        update (fun k => view (s.slots k)) (key c)
          (spec c (view (s.slots (key c)))).2 := by
      funext k
      by_cases hk : k = key c
      · subst hk
        simpa only [exec, update_self] using hview
      · simp [exec, update_of_ne hk]
    obtain ⟨hreplies, hfinal, hsat⟩ := ih hnext
    rw [hviews] at hreplies hfinal
    exact ⟨congrArg₂ cons hreply hreplies, hfinal, hsat⟩

end Numbered

end Onedis.Infra
