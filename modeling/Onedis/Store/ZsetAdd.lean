import Mathlib.Algebra.Order.BigOperators.Group.Finset
import Onedis.Store.ZsetBatch

/-!
# ZADD

ZADD は score と member の組を後ろから見て、member ごとに最後の組だけを使う。

* `zadd_leftToRight_iff` — 組を一つずつ左から適用した結果に等しくなる条件
-/

namespace Onedis.Store

open Infra KeyRecords List
open Codec (wrongTypeError)

/-! ## 一つの組 -/

/-- ZADD の選択肢。 -/
structure ZsetAddOptions where
  nx : Bool
  xx : Bool
  gt : Bool
  lt : Bool
  increment : Bool
  deriving DecidableEq

def ZsetAddOptions.default : ZsetAddOptions := ⟨false, false, false, false, false⟩

/-- ZADD の結果。 -/
structure ZsetAddOutcome where
  added : Nat
  changed : Nat
  applied : Bool
  score : Option Score
  deriving DecidableEq

def ZsetAddOutcome.start : ZsetAddOutcome := ⟨0, 0, false, none⟩

def nanResultError : String := "ERR resulting score is not a number (NaN)"

def zsetAddConditionMatches (previous : Option Score) (score : Score) (o : ZsetAddOptions) :
    Bool :=
  match previous with
  | some p => !o.nx && (!o.gt || F64.lt p.bits score.bits) && (!o.lt || F64.lt score.bits p.bits)
  | none => !o.xx

/-- 書こうとする score。加算の結果が NaN なら `none`。 -/
def zsetAddTarget (add : UInt64 → UInt64 → UInt64) (o : ZsetAddOptions) (previous : Option Score)
    (input : Score) : Option Score :=
  if o.increment then Score.ofBits? (add (previous.getD .zero).bits input.bits) else some input

def zsetAddStep (o : ZsetAddOptions) (previous : Option Score) (score : Score)
    (out : ZsetAddOutcome) : ZsetAddOutcome × Option Score :=
  if zsetAddConditionMatches previous score o then
    let out := { out with
      applied := true
      score := if o.increment then some score else none
      added := out.added + if previous.isNone then 1 else 0 }
    if previous.any (·.same score) then (out, none)
    else ({ out with changed := out.changed + 1 }, some score)
  else (out, none)

/-! ## 組の列 -/

/-- `score` と member の組。 -/
abbrev ScorePair := Score × Text

def keepFirst (seen : List Text) : List ScorePair → List ScorePair
  | [] => []
  | pair :: rest =>
    if pair.2 ∈ seen then keepFirst seen rest else pair :: keepFirst (pair.2 :: seen) rest

def lastPairs (pairs : List ScorePair) : List ScorePair := keepFirst [] pairs.reverse

/-- 組を順に適用する。`lookup` と `put` は、いまの score の読み方と新しい score の書き方である。 -/
def zsetAddPairs {σ : Type} (lookup : σ → Text → Option Score) (put : σ → Text → Score → σ)
    (add : UInt64 → UInt64 → UInt64) (o : ZsetAddOptions) :
    List ScorePair → ZsetAddOutcome × σ → Except String (ZsetAddOutcome × σ)
  | [], st => .ok st
  | (input, m) :: rest, (out, s) =>
    match zsetAddTarget add o (lookup s m) input with
    | none => .error nanResultError
    | some score =>
      let step := zsetAddStep o (lookup s m) score out
      zsetAddPairs lookup put add o rest (step.1, step.2.elim s (put s m))

def addPairsToScores : (UInt64 → UInt64 → UInt64) → ZsetAddOptions →
    List ScorePair → ZsetAddOutcome × Scores → Except String (ZsetAddOutcome × Scores) :=
  zsetAddPairs (fun scores m => scores.lookup m) fun scores m s => scores.insert m s

def addPairsToItems : (UInt64 → UInt64 → UInt64) → ZsetAddOptions →
    List ScorePair → ZsetAddOutcome × ZsetItems → Except String (ZsetAddOutcome × ZsetItems) :=
  zsetAddPairs (fun items m => items.members.lookup m) ZsetItems.put

/-! ## 一つの ZADD -/

section

variable (add : UInt64 → UInt64 → UInt64) (now : Nat)

def putSmallZset (recs : ZsetRecords) (e ver : Nat) (scores : Scores) : ZsetRecords :=
  if packedZsetFits scores then recs.setMain (some (.packed e scores))
  else (recs.setItems ver ((recs.items ver).putAll scores)).setMain
    (some (.split e ver ()))

/-- `try_zset_add_packed_async` のうち、詰めた zset か key のない場合。 -/
def addToPackedZset (pairs : List ScorePair) (o : ZsetAddOptions) (ver e : Nat)
    (scores : Scores) (recs : ZsetRecords) : Except String ZsetAddOutcome × ZsetRecords :=
  match addPairsToScores add o (lastPairs pairs) (.start, scores) with
  | .error msg => (.error msg, recs)
  | .ok (out, scores') =>
    if out.changed = 0 then (.ok out, recs)
    else (.ok out, putSmallZset recs e ver scores')

/-- `zset_add_with_options_async`。 -/
def zsetAdd (pairs : List ScorePair) (o : ZsetAddOptions) (ver : Nat) (stored : ZsetRecords) :
    Except String ZsetAddOutcome × ZsetRecords :=
  let recs := stored.expireIfNeeded now
  match recs.main with
  | some (.foreign _ _) => (.error wrongTypeError, recs)
  | none => addToPackedZset add pairs o ver 0 ∅ recs
  | some (.packed e scores) => addToPackedZset add pairs o ver e scores recs
  | some (.split _ v _) =>
    match addPairsToItems add o (lastPairs pairs) (.start, recs.items v) with
    | .error msg => (.error msg, recs)
    | .ok (out, items) =>
      if out.changed = 0 then (.ok out, recs) else (.ok out, recs.setItems v items)

end

/-! ## 見える中身の上の仕様 -/

def afterAdd (v : Visible Scores) (e : Nat) (changed : Nat) (scores : Scores) : Visible Scores :=
  if changed = 0 then v else .value e scores

def addSpec (add : UInt64 → UInt64 → UInt64) (pairs : List ScorePair) (o : ZsetAddOptions)
    (v : Visible Scores) : Except String ZsetAddOutcome × Visible Scores :=
  match v.parts ∅ with
  | none => (.error wrongTypeError, v)
  | some (e, scores) =>
    match addPairsToScores add o (lastPairs pairs) (.start, scores) with
    | .error msg => (.error msg, v)
    | .ok (out, scores') => (.ok out, afterAdd v e out.changed scores')

section

variable {add : UInt64 → UInt64 → UInt64} {o : ZsetAddOptions}

theorem addPairsToItems_members (pairs : List ScorePair) (out : ZsetAddOutcome)
    (items : ZsetItems) :
    (addPairsToItems add o pairs (out, items)).map (fun r => (r.1, r.2.members)) =
      addPairsToScores add o pairs (out, items.members) := by
  induction pairs generalizing out items with
  | nil => rfl
  | cons pair pairs ih =>
    obtain ⟨input, m⟩ := pair
    simp only [addPairsToItems, addPairsToScores, zsetAddPairs] at ih ⊢
    cases zsetAddTarget add o (items.members.lookup m) input with
    | none => rfl
    | some score =>
      dsimp only
      rw [ih]
      cases (zsetAddStep o (items.members.lookup m) score out).2 <;> rfl

theorem indexed_addPairsToItems {pairs : List ScorePair} {out out' : ZsetAddOutcome}
    {items items' : ZsetItems} (hitems : items.Indexed)
    (h : addPairsToItems add o pairs (out, items) = .ok (out', items')) : items'.Indexed := by
  induction pairs generalizing out items with
  | nil =>
    cases h
    exact hitems
  | cons pair pairs ih =>
    obtain ⟨input, m⟩ := pair
    simp only [addPairsToItems, zsetAddPairs] at ih h
    split at h
    · cases h
    · next score hscore =>
      refine ih ?_ h
      cases (zsetAddStep o (items.members.lookup m) score out).2 with
      | none => exact hitems
      | some s => exact hitems.put m s

section

variable (now : Nat) {n m ver : Nat} {recs : ZsetRecords}

theorem putSmallZset_spec {e : Nat} {scores : Scores} (hok : ZsetOk n recs) (hlt : n < ver)
    (hle : ver ≤ m) (hdue : expireDue now e = false) :
    (putSmallZset recs e ver scores).view zsetLayout now = .value e scores ∧
      ZsetOk m (putSmallZset recs e ver scores) := by
  have hm := hok.mono (hlt.le.trans hle)
  unfold putSmallZset
  split
  · next hfits => exact ⟨view_packed rfl hdue, hm.setMain_packed e hfits⟩
  · rw [hok.fresh.items_empty hlt, ZsetItems.putAll_empty]
    exact ⟨view_setSplit hdue .., (hm.setItems hle
      (ZsetItems.indexed_ofScores scores)).setMain_split hle e⟩

theorem addToPackedZset_spec {e : Nat} {scores : Scores} (pairs : List ScorePair)
    (hok : ZsetOk n recs) (hparts : (recs.view zsetLayout now).parts ∅ = some (e, scores))
    (hdue : expireDue now e = false) :
    Meets (view zsetLayout now) (ZsetOk (n + 1)) (addToPackedZset add pairs o (n + 1) e scores recs)
      (addSpec add pairs o (recs.view zsetLayout now)) := by
  simp only [addToPackedZset, addSpec, hparts]
  cases addPairsToScores add o (lastPairs pairs) (.start, scores) with
  | error msg => exact ⟨rfl, rfl, hok.mono (Nat.le_succ n)⟩
  | ok r =>
    obtain ⟨out, scores'⟩ := r
    dsimp [afterAdd]
    split
    · exact ⟨rfl, rfl, hok.mono (Nat.le_succ n)⟩
    · obtain ⟨hview, hok'⟩ := @putSmallZset_spec now n (n + 1) (n + 1) recs e scores' hok
        (Nat.lt_succ_self n) le_rfl hdue
      exact ⟨rfl, hview, hok'⟩

/-- **一つの ZADD は、どちらの layout でも見える中身の上の仕様どおりに働く。** -/
theorem zsetAdd_spec (pairs : List ScorePair) (hok : ZsetOk n recs) :
    Meets (view zsetLayout now) (ZsetOk (n + 1)) (zsetAdd add now pairs o (n + 1) recs)
      (addSpec add pairs o (recs.view zsetLayout now)) := by
  rw [← view_expireIfNeeded]
  unfold zsetAdd
  have hok' := hok.expireIfNeeded now
  have hdue := unexpired_expireIfNeeded now recs
  generalize recs.expireIfNeeded now = live at hok' hdue ⊢
  cases hmain : live.main with
  | none =>
    simp only [hmain]
    refine addToPackedZset_spec now pairs hok' ?_ (expireDue_zero now)
    rw [view_missing hmain]
    rfl
  | some record =>
    have hlive := hdue record hmain
    cases record with
    | foreign e raw =>
      simp only [hmain]
      rw [view_foreign hmain hlive]
      exact ⟨rfl, view_foreign hmain hlive, hok'.mono (Nat.le_succ n)⟩
    | packed e scores =>
      simp only [hmain]
      refine addToPackedZset_spec now pairs hok' ?_ hlive
      rw [view_packed hmain hlive]
      rfl
    | split e v info =>
      simp only [hmain]
      rw [view_split hmain hlive]
      have hmembers := @addPairsToItems_members add o (lastPairs pairs) .start (live.items v)
      simp only [addSpec, Visible.parts, zsetLayout, ← hmembers]
      cases hrun : addPairsToItems add o (lastPairs pairs) (.start, live.items v) with
      | error msg => exact ⟨rfl, view_split hmain hlive, hok'.mono (Nat.le_succ n)⟩
      | ok r =>
        obtain ⟨out, items⟩ := r
        dsimp [Except.map, afterAdd]
        split
        · exact ⟨rfl, view_split hmain hlive, hok'.mono (Nat.le_succ n)⟩
        · refine ⟨rfl, ?_, (hok'.setItems (hok'.fresh.version_le hmain)
            (indexed_addPairsToItems (hok'.indexed v) hrun)).mono (Nat.le_succ n)⟩
          have hmain' : (live.setItems v items).main = some (.split e v info) := hmain
          rw [view_split hmain' hlive, setItems_items_self]

end

end

/-! ## member ごとの結果 -/

def supplied (m : Text) (pairs : List ScorePair) : List Score :=
  pairs.filterMap fun pair => if pair.2 = m then some pair.1 else none

/-- 一つの member に渡された score を順に当てた結果。 -/
structure MemberRun where
  final : Option Score
  added : Nat
  changed : Nat
  deriving DecidableEq

def addRun (o : ZsetAddOptions) : Option Score → List Score → MemberRun
  | p, [] => ⟨p, 0, 0⟩
  | p, s :: rest =>
    let step := zsetAddStep o p s .start
    let run := addRun o (step.2.or p) rest
    ⟨run.final, step.1.added + run.added, step.1.changed + run.changed⟩

@[simp] theorem supplied_nil (m : Text) : supplied m [] = [] := rfl

theorem supplied_cons (m : Text) (pair : ScorePair) (pairs : List ScorePair) :
    supplied m (pair :: pairs) =
      if pair.2 = m then pair.1 :: supplied m pairs else supplied m pairs := by
  by_cases h : pair.2 = m <;> simp [supplied, h]

theorem supplied_append (m : Text) (pairs pairs' : List ScorePair) :
    supplied m (pairs ++ pairs') = supplied m pairs ++ supplied m pairs' :=
  filterMap_append

theorem supplied_eq_nil {m : Text} {pairs : List ScorePair} :
    supplied m pairs = [] ↔ m ∉ pairs.map Prod.snd := by
  rw [supplied, filterMap_eq_nil_iff]
  grind

theorem supplied_keepFirst (m : Text) (seen : List Text) (pairs : List ScorePair) :
    supplied m (keepFirst seen pairs) =
      if m ∈ seen then [] else (supplied m pairs).head?.toList := by
  induction pairs generalizing seen with
  | nil => simp [keepFirst]
  | cons pair pairs ih =>
    rw [keepFirst]
    by_cases hseen : pair.2 ∈ seen
    · rw [if_pos hseen, ih, supplied_cons]
      by_cases hm : pair.2 = m
      · rw [if_pos (hm ▸ hseen), if_pos (hm ▸ hseen)]
      · rw [if_neg hm]
    · rw [if_neg hseen, supplied_cons, supplied_cons, ih]
      by_cases hm : pair.2 = m
      · rw [if_pos hm, if_pos hm, if_pos (hm ▸ mem_cons_self), if_neg (hm ▸ hseen)]
        rfl
      · rw [if_neg hm, if_neg hm]
        exact if_congr (by rw [mem_cons, or_iff_right (Ne.symm hm)]) rfl rfl

theorem supplied_lastPairs (m : Text) (pairs : List ScorePair) :
    supplied m (lastPairs pairs) = (supplied m pairs).getLast?.toList := by
  have hreverse : supplied m pairs.reverse = (supplied m pairs).reverse := filterMap_reverse
  rw [lastPairs, supplied_keepFirst, if_neg not_mem_nil, hreverse, head?_reverse]

theorem mem_members_lastPairs {m : Text} {pairs : List ScorePair} :
    m ∈ (lastPairs pairs).map Prod.snd ↔ m ∈ pairs.map Prod.snd := by
  rw [← not_iff_not, ← supplied_eq_nil, ← supplied_eq_nil, supplied_lastPairs]
  cases hl : supplied m pairs <;> simp

open ZsetAddOutcome

open Finset

section

variable {o : ZsetAddOptions}

variable (p : Option Score)

theorem zsetAddStep_start (s : Score) (out : ZsetAddOutcome) :
    (zsetAddStep o p s out).1.added = out.added + (zsetAddStep o p s .start).1.added ∧
      (zsetAddStep o p s out).1.changed = out.changed + (zsetAddStep o p s .start).1.changed ∧
      (zsetAddStep o p s out).2 = (zsetAddStep o p s .start).2 := by
  unfold zsetAddStep
  split
  · dsimp only
    split <;> simp [start]
  · simp [start]

theorem addRun_append (l l' : List Score) : addRun o p (l ++ l') =
      ⟨(addRun o (addRun o p l).final l').final,
        (addRun o p l).added + (addRun o (addRun o p l).final l').added,
        (addRun o p l).changed + (addRun o (addRun o p l).final l').changed⟩ := by
  induction l generalizing p with
  | nil => simp [addRun]
  | cons s l ih => simp [addRun, ih, Nat.add_assoc]

theorem zsetAddStep_changed (s : Score) :
    (zsetAddStep o p s .start).1.changed =
      if (zsetAddStep o p s .start).2.isSome then 1 else 0 := by
  unfold zsetAddStep
  split
  · dsimp only
    split <;> simp [start]
  · simp [start]

theorem addRun_final_of_changed_eq_zero {p : Option Score} {l : List Score}
    (h : (addRun o p l).changed = 0) : (addRun o p l).final = p := by
  induction l generalizing p with
  | nil => rfl
  | cons s l ih =>
    simp only [addRun, Nat.add_eq_zero_iff, zsetAddStep_changed] at h
    have hnone : (zsetAddStep o p s .start).2 = none := by
      cases hstep : (zsetAddStep o p s .start).2 with
      | none => rfl
      | some t => simp [hstep] at h
    simp only [addRun, hnone, Option.none_or] at h ⊢
    exact ih h.2

theorem addRun_isSome {p : Option Score} {l : List Score}
    (h : p.isSome = true ∨ (addRun o p l).changed ≠ 0) : (addRun o p l).final.isSome = true := by
  induction l generalizing p with
  | nil => exact h.resolve_right fun hne => hne rfl
  | cons s l ih =>
    simp only [addRun]
    refine ih ?_
    cases hstep : (zsetAddStep o p s .start).2 with
    | some t => exact .inl rfl
    | none =>
      rcases h with h | h
      · exact .inl h
      · refine .inr ?_
        simpa [addRun, zsetAddStep_changed, hstep] using h

theorem addRun_added (p : Option Score) (l : List Score) :
    (addRun o p l).added = if p.isNone && !l.isEmpty && !o.xx then 1 else 0 := by
  induction l generalizing p with
  | nil => simp [addRun]
  | cons s l ih =>
    simp only [addRun, ih]
    cases p with
    | some c =>
      have hadded : (zsetAddStep o (some c) s .start).1.added = 0 := by
        unfold zsetAddStep
        split
        · dsimp only
          split <;> rfl
        · rfl
      simp [hadded]
    | none =>
      cases hxx : o.xx <;> simp [zsetAddStep, zsetAddConditionMatches, hxx, start]

theorem addRun_last_changed_le (p : Option Score) (l : List Score) :
    (addRun o p l.getLast?.toList).changed ≤ (addRun o p l).changed := by
  rcases eq_nil_or_concat l with rfl | ⟨init, s, rfl⟩
  · exact le_rfl
  · rw [concat_eq_append, getLast?_concat, addRun_append]
    by_cases hinit : (addRun o p init).changed = 0
    · rw [addRun_final_of_changed_eq_zero hinit]
      exact Nat.le_add_left ..
    · have hone : (addRun o p [s]).changed ≤ 1 := by
        change (zsetAddStep o p s .start).1.changed ≤ 1
        rw [zsetAddStep_changed]
        split <;> omega
      have hle : (addRun o p (some s).toList).changed ≤ 1 := hone
      dsimp only
      omega

structure AddsUp (o : ZsetAddOptions) (scores : Scores) (pairs : List ScorePair)
    (added changed : Nat) (scores' : Scores) : Prop where
  lookup_eq : ∀ m, scores'.lookup m = (addRun o (scores.lookup m) (supplied m pairs)).final
  added_eq : ∀ F : Finset Text, (∀ pair ∈ pairs, pair.2 ∈ F) →
    added = ∑ m ∈ F, (addRun o (scores.lookup m) (supplied m pairs)).added
  changed_eq : ∀ F : Finset Text, (∀ pair ∈ pairs, pair.2 ∈ F) →
    changed = ∑ m ∈ F, (addRun o (scores.lookup m) (supplied m pairs)).changed

namespace AddsUp

variable {scores scores' scores'' : Scores} {pairs pairs' : List ScorePair}
  {added changed added' changed' : Nat}

theorem nil (scores : Scores) : AddsUp o scores [] 0 0 scores where
  lookup_eq _ := rfl
  added_eq _ _ := (Finset.sum_eq_zero fun _ _ => rfl).symm
  changed_eq _ _ := (Finset.sum_eq_zero fun _ _ => rfl).symm

theorem append (h : AddsUp o scores pairs added changed scores')
    (h' : AddsUp o scores' pairs' added' changed' scores'') :
    AddsUp o scores (pairs ++ pairs') (added + added') (changed + changed') scores'' where
  lookup_eq m := by rw [supplied_append, addRun_append, h'.lookup_eq, h.lookup_eq]
  added_eq F hF := by
    rw [h.added_eq F fun pair hp => hF pair (mem_append_left _ hp),
      h'.added_eq F fun pair hp => hF pair (mem_append_right _ hp), ← sum_add_distrib]
    refine sum_congr rfl fun m _ => ?_
    rw [supplied_append, addRun_append, h.lookup_eq]
  changed_eq F hF := by
    rw [h.changed_eq F fun pair hp => hF pair (mem_append_left _ hp),
      h'.changed_eq F fun pair hp => hF pair (mem_append_right _ hp),
      ← sum_add_distrib]
    refine sum_congr rfl fun m _ => ?_
    rw [supplied_append, addRun_append, h.lookup_eq]

theorem single (scores : Scores) (pair : ScorePair) :
    let step := zsetAddStep o (scores.lookup pair.2) pair.1 .start
    AddsUp o scores [pair] step.1.added step.1.changed
      (step.2.elim scores fun s => scores.insert pair.2 s) := by
  intro step
  have hrun : ∀ m, addRun o (scores.lookup m) (supplied m [pair]) =
      if m = pair.2 then ⟨step.2.or (scores.lookup pair.2), step.1.added, step.1.changed⟩
      else ⟨scores.lookup m, 0, 0⟩ := by
    intro m
    rw [supplied_cons]
    by_cases hm : pair.2 = m
    · subst hm
      rw [if_pos rfl, if_pos rfl]
      rfl
    · rw [if_neg hm, if_neg (Ne.symm hm)]
      rfl
  refine ⟨fun m => ?_, fun F hF => ?_, fun F hF => ?_⟩
  · rw [hrun]
    by_cases hm : m = pair.2
    · subst hm
      rw [if_pos rfl]
      cases step.2 with
      | none => rfl
      | some s => exact Finmap.lookup_insert scores
    · rw [if_neg hm]
      cases step.2 with
      | none => rfl
      | some s => exact Finmap.lookup_insert_of_ne scores hm
  · have hmem := hF pair mem_cons_self
    simp [hrun, apply_ite MemberRun.added, hmem]
  · have hmem := hF pair mem_cons_self
    simp [hrun, apply_ite MemberRun.changed, hmem]

end AddsUp

/-- **加算を伴わない組の列は必ず成功し、結果は member ごとの結果を集めたものである。** -/
theorem addPairsToScores_eq (hincr : o.increment = false) (add : UInt64 → UInt64 → UInt64)
    (pairs : List ScorePair) (out : ZsetAddOutcome) (scores : Scores) :
    ∃ out' scores' added changed, addPairsToScores add o pairs (out, scores) = .ok (out', scores') ∧
        out'.added = out.added + added ∧ out'.changed = out.changed + changed ∧
        AddsUp o scores pairs added changed scores' := by
  induction pairs generalizing out scores with
  | nil => exact ⟨out, scores, 0, 0, rfl, rfl, rfl, .nil scores⟩
  | cons pair pairs ih =>
    obtain ⟨hadded, hchanged, hwrite⟩ := @zsetAddStep_start o (scores.lookup pair.2) pair.1 out
    obtain ⟨out', scores', added, changed, hrun, ha, hc, hup⟩ :=
      ih (zsetAddStep o (scores.lookup pair.2) pair.1 out).1
        ((zsetAddStep o (scores.lookup pair.2) pair.1 out).2.elim scores
          fun s => scores.insert pair.2 s)
    refine ⟨out', scores', _, _, ?_, ?_, ?_, (AddsUp.single scores pair).append (hwrite ▸ hup)⟩
    · simp only [addPairsToScores, zsetAddPairs, zsetAddTarget, hincr] at hrun ⊢
      exact hrun
    · omega
    · omega

end

/-! ## 組を一つずつ適用する -/

def zaddCount (ch : Bool) (out : ZsetAddOutcome) : Nat := if ch then out.changed else out.added

section

variable (add : UInt64 → UInt64 → UInt64) (now : Nat) (o : ZsetAddOptions) (ch : Bool)

def zadd (pairs : List ScorePair) (ver : Nat) (recs : ZsetRecords) :
    Except String Nat × ZsetRecords :=
  let r := zsetAdd add now pairs o ver recs
  (r.1.map (zaddCount ch), r.2)

def zaddOneByOne : List ScorePair → Nat → ZsetRecords → Except String Nat × ZsetRecords
  | [], _, recs => (.ok 0, recs)
  | pair :: rest, n, recs =>
    let first := zadd add now o ch [pair] (n + 1) recs
    let others := zaddOneByOne rest (n + 1) first.2
    (first.1.bind fun k => others.1.map (k + ·), others.2)

def ZaddLeftToRight (pairs : List ScorePair) (n : Nat) (recs : ZsetRecords) : Prop :=
  (zadd add now o ch pairs (n + 1) recs).1 = (zaddOneByOne add now o ch pairs n recs).1 ∧
    (zadd add now o ch pairs (n + 1) recs).2.view zsetLayout now =
      (zaddOneByOne add now o ch pairs n recs).2.view zsetLayout now

/-- 宛てられた score を左から適用した結果が、最後の score だけのものに等しい。CH では変わった回数も等しい。 -/
def MemberAgrees (p : Option Score) (l : List Score) : Prop :=
  (addRun o p l).final = (addRun o p l.getLast?.toList).final ∧
    (ch = true → (addRun o p l).changed = (addRun o p l.getLast?.toList).changed)

end

section

variable {o : ZsetAddOptions} {ch : Bool} {v : Visible Scores} {e : Nat}
  {scores scores' : Scores} {pairs : List ScorePair} {added changed : Nat}

theorem AddsUp.count_eq_iff {added' changed' : Nat} {scores'' : Scores}
    (h : AddsUp o scores (lastPairs pairs) added changed scores')
    (h' : AddsUp o scores pairs added' changed' scores'') :
    (if ch then changed else added) = (if ch then changed' else added') ↔
      ∀ m, ch = true → (addRun o (scores.lookup m) (supplied m pairs)).changed =
        (addRun o (scores.lookup m) (supplied m pairs).getLast?.toList).changed := by
  have hall : ∀ pair ∈ pairs, pair.2 ∈ (pairs.map Prod.snd).toFinset := fun pair hp =>
    mem_toFinset.mpr (mem_map_of_mem hp)
  have hlast : ∀ pair ∈ lastPairs pairs, pair.2 ∈ (pairs.map Prod.snd).toFinset := fun pair hp =>
    mem_toFinset.mpr (mem_members_lastPairs.mp (mem_map_of_mem hp))
  cases ch with
  | false =>
    refine iff_of_true ?_ nofun
    show added = added'
    rw [h.added_eq _ hlast, h'.added_eq _ hall]
    refine sum_congr rfl fun m _ => ?_
    rw [addRun_added, addRun_added, supplied_lastPairs]
    cases hm : supplied m pairs <;> simp
  | true =>
    show changed = changed' ↔ _
    rw [h.changed_eq _ hlast, h'.changed_eq _ hall]
    simp only [supplied_lastPairs]
    rw [sum_eq_sum_iff_of_le fun m _ => addRun_last_changed_le _ _]
    constructor
    · intro hF m _
      by_cases hm : m ∈ pairs.map Prod.snd
      · exact (hF m (mem_toFinset.mpr hm)).symm
      · rw [supplied_eq_nil.mpr hm]
        rfl
    · exact fun hall m _ => (hall m trivial).symm

theorem AddsUp.eq_of_changed_eq_zero (h : AddsUp o scores pairs added 0 scores') :
    scores' = scores := by
  refine Finmap.ext_lookup fun m => ?_
  rw [h.lookup_eq]
  by_cases hm : m ∈ pairs.map Prod.snd
  · have hsum := h.changed_eq (pairs.map Prod.snd).toFinset fun pair hp =>
      mem_toFinset.mpr (mem_map_of_mem hp)
    exact addRun_final_of_changed_eq_zero
      (sum_eq_zero_iff.mp hsum.symm m (mem_toFinset.mpr hm))
  · rw [supplied_eq_nil.mpr hm]
    rfl

theorem AddsUp.ne_empty (h : AddsUp o scores pairs added changed scores') (hne : changed ≠ 0) :
    scores' ≠ ∅ := by
  rintro rfl
  refine hne ?_
  rw [h.changed_eq (pairs.map Prod.snd).toFinset fun pair hp =>
    mem_toFinset.mpr (mem_map_of_mem hp)]
  refine Finset.sum_eq_zero fun m _ => ?_
  by_contra hm
  have hsome := addRun_isSome (.inr hm)
  rw [← h.lookup_eq, Finmap.lookup_empty] at hsome
  cases hsome

theorem AddsUp.afterAdd_eq (h : AddsUp o scores pairs added changed scores')
    (hparts : v.parts ∅ = some (e, scores)) : afterAdd v e changed scores' = v.extend scores' := by
  unfold afterAdd
  split
  · next hzero =>
    subst hzero
    rw [h.eq_of_changed_eq_zero, Visible.extend_self hparts]
  · next hne => exact (Visible.extend_of_ne_empty hparts (h.ne_empty hne)).symm

end

section

variable {add : UInt64 → UInt64 → UInt64} (now : Nat) {o : ZsetAddOptions} (ch : Bool)
  {n : Nat} {recs : ZsetRecords}

theorem zadd_eq {e : Nat} {scores : Scores} (hincr : o.increment = false) (hok : ZsetOk n recs)
    (hparts : (recs.view zsetLayout now).parts ∅ = some (e, scores)) (pairs : List ScorePair) :
    ∃ scores' added changed, AddsUp o scores (lastPairs pairs) added changed scores' ∧
      Meets (view zsetLayout now) (ZsetOk (n + 1)) (zadd add now o ch pairs (n + 1) recs)
        (.ok (if ch then changed else added),
          afterAdd (recs.view zsetLayout now) e changed scores') := by
  obtain ⟨hreply, hview, hok'⟩ := @zsetAdd_spec add o now n recs pairs hok
  obtain ⟨out, scores', added, changed, hrun, hadded, hchanged, hup⟩ :=
    addPairsToScores_eq hincr add (lastPairs pairs) .start scores
  have hout : out.added = added ∧ out.changed = changed := by
    simpa [start] using And.intro hadded hchanged
  refine ⟨scores', added, changed, hup, ?_, ?_, hok'⟩
  · simp only [zadd, hreply, addSpec, hparts, hrun]
    rw [Except.map, zaddCount, hout.1, hout.2]
  · simp [zadd, hview, addSpec, hparts, hrun, hout.2]

theorem zadd_foreign {e : Nat} {raw : Bytes} (hok : ZsetOk n recs)
    (hview : recs.view zsetLayout now = .foreign e raw) (pairs : List ScorePair) :
    Meets (view zsetLayout now) (ZsetOk (n + 1)) (zadd add now o ch pairs (n + 1) recs)
      (.error wrongTypeError, .foreign e raw) := by
  obtain ⟨hreply, hview', hok'⟩ := @zsetAdd_spec add o now n recs pairs hok
  rw [hview] at hreply hview'
  refine ⟨?_, hview', hok'⟩
  simp only [zadd, hreply]
  rfl

theorem zaddOneByOne_eq {e : Nat} {scores : Scores} (hincr : o.increment = false)
    (hok : ZsetOk n recs) (hparts : (recs.view zsetLayout now).parts ∅ = some (e, scores))
    (pairs : List ScorePair) :
    ∃ scores' added changed, AddsUp o scores pairs added changed scores' ∧
      (zaddOneByOne add now o ch pairs n recs).1 = .ok (if ch then changed else added) ∧
      (zaddOneByOne add now o ch pairs n recs).2.view zsetLayout now =
        afterAdd (recs.view zsetLayout now) e changed scores' := by
  induction pairs generalizing n recs scores with
  | nil =>
    refine ⟨scores, 0, 0, .nil scores, ?_, rfl⟩
    cases ch <;> rfl
  | cons pair pairs ih =>
    obtain ⟨scores₁, added₁, changed₁, hup₁, hreply₁, hview₁, hok₁⟩ :=
      @zadd_eq add now o ch n recs e scores hincr hok hparts [pair]
    have hparts₁ := Visible.parts_extend hparts scores₁
    rw [← hup₁.afterAdd_eq hparts] at hparts₁
    obtain ⟨scores₂, added₂, changed₂, hup₂, hreply₂, hview₂⟩ :=
      ih hok₁ ((congrArg (Visible.parts ∅) hview₁).trans hparts₁)
    refine ⟨scores₂, _, _, AddsUp.append hup₁ hup₂, ?_, ?_⟩
    · simp only [zaddOneByOne, hreply₁, hreply₂]
      cases ch <;> rfl
    · simp only [zaddOneByOne, hview₂, hview₁]
      by_cases hc : changed₂ = 0
      · subst hc
        rw [hup₂.eq_of_changed_eq_zero, afterAdd, if_pos rfl, Nat.add_zero]
      · rw [afterAdd, if_neg hc, afterAdd, if_neg fun h => hc (Nat.add_eq_zero_iff.mp h).2]

theorem zaddOneByOne_foreign {e : Nat} {raw : Bytes} (hok : ZsetOk n recs)
    (hview : recs.view zsetLayout now = .foreign e raw) (pairs : List ScorePair) :
    (pairs ≠ [] → (zaddOneByOne add now o ch pairs n recs).1 = .error wrongTypeError) ∧
      (zaddOneByOne add now o ch pairs n recs).2.view zsetLayout now = .foreign e raw := by
  induction pairs generalizing n recs with
  | nil => exact ⟨fun h => absurd rfl h, hview⟩
  | cons pair pairs ih =>
    obtain ⟨hreply, hview', hok'⟩ := @zadd_foreign add now o ch n recs e raw hok hview [pair]
    refine ⟨fun _ => ?_, (ih hok' hview').2⟩
    simp only [zaddOneByOne, hreply]
    rfl

/--
**ZADD が組を一つずつ左から適用した結果に等しいのは、どの member についても、最後の score だけを適用した
結果が左から順に適用した結果に等しいときに限る。** 別の型の key ではどちらも失敗する。
-/
theorem zadd_leftToRight_iff (hincr : o.increment = false) (hok : ZsetOk n recs)
    {pairs : List ScorePair} (hne : pairs ≠ []) :
    ZaddLeftToRight add now o ch pairs n recs ↔
      ∀ e scores, (recs.view zsetLayout now).parts ∅ = some (e, scores) →
        ∀ m, MemberAgrees o ch (scores.lookup m) (supplied m pairs) := by
  unfold ZaddLeftToRight
  cases hparts : (recs.view zsetLayout now).parts ∅ with
  | none =>
    obtain ⟨e, raw, hview⟩ := Visible.parts_eq_none.mp hparts
    obtain ⟨hreply, hview₁, -⟩ := @zadd_foreign add now o ch n recs e raw hok hview pairs
    obtain ⟨hreply', hview₂⟩ := @zaddOneByOne_foreign add now o ch n recs e raw hok hview pairs
    rw [hreply, hreply' hne, hview₁, hview₂]
    simp
  | some p =>
    obtain ⟨e, scores⟩ := p
    obtain ⟨scores₁, added₁, changed₁, hup₁, hreply₁, hview₁, -⟩ :=
      @zadd_eq add now o ch n recs e scores hincr hok hparts pairs
    obtain ⟨scores₂, added₂, changed₂, hup₂, hreply₂, hview₂⟩ :=
      @zaddOneByOne_eq add now o ch n recs e scores hincr hok hparts pairs
    have hscores : scores₁ = scores₂ ↔ ∀ m, (addRun o (scores.lookup m) (supplied m pairs)).final =
        (addRun o (scores.lookup m) (supplied m pairs).getLast?.toList).final := by
      constructor
      · rintro rfl m
        rw [← supplied_lastPairs, ← hup₁.lookup_eq, ← hup₂.lookup_eq]
      · intro h
        refine Finmap.ext_lookup fun m => ?_
        rw [hup₁.lookup_eq, hup₂.lookup_eq, supplied_lastPairs, h m]
    have hcount : (if ch then changed₁ else added₁) = (if ch then changed₂ else added₂) ↔
        ∀ m, ch = true → (addRun o (scores.lookup m) (supplied m pairs)).changed =
          (addRun o (scores.lookup m) (supplied m pairs).getLast?.toList).changed :=
      hup₁.count_eq_iff hup₂
    rw [hreply₁, hreply₂, hview₁, hview₂, hup₁.afterAdd_eq hparts, hup₂.afterAdd_eq hparts,
      Visible.extend_eq_iff hparts, hscores, Except.ok.injEq, hcount]
    constructor
    · rintro ⟨hchanged, hfinal⟩ e' scores' heq m
      cases heq
      exact ⟨hfinal m, hchanged m⟩
    · intro h
      have hall := h e scores rfl
      exact ⟨fun m => (hall m).2, fun m => (hall m).1⟩

end

/-! ## 同じ member を繰り返す ZADD -/

namespace RepeatedMember

def a : Text := .ofByte 97 (Eq.refl true)

def b : Text := .ofByte 98 (Eq.refl true)

def one : Score := ⟨0x3ff0000000000000, Eq.refl false⟩

def two : Score := ⟨0x4000000000000000, Eq.refl false⟩

def three : Score := ⟨0x4008000000000000, by decide⟩

def nx : ZsetAddOptions := ⟨true, false, false, false, false⟩

def gt : ZsetAddOptions := ⟨false, false, true, false, false⟩

def missing : ZsetRecords := ⟨none, fun _ => ∅⟩

/-- version 1 に分けた zset `{a: 1}`。 -/
def split : ZsetRecords :=
  ⟨some (.split 0 1 ()), fun v => if v = 1 then .ofScores ((∅ : Scores).insert a one) else ∅⟩

def noAdd (x _ : UInt64) : UInt64 := x

theorem last_pair_wins :
    (zadd noAdd 1000 nx false [(one, a), (two, a)] 1 missing).2.view zsetLayout 1000 =
        .value 0 ((∅ : Scores).insert a two) ∧
      (zaddOneByOne noAdd 1000 nx false [(one, a), (two, a)] 0 missing).2.view zsetLayout 1000 =
        .value 0 ((∅ : Scores).insert a one) ∧
      (zadd noAdd 1000 gt false [(three, a), (two, a)] 2 split).2.view zsetLayout 1000 =
        .value 0 ((∅ : Scores).insert a two) ∧
      (zaddOneByOne noAdd 1000 gt false [(three, a), (two, a)] 1 split).2.view zsetLayout 1000 =
        .value 0 ((∅ : Scores).insert a three) ∧
      (zadd noAdd 1000 .default true [(two, a), (three, a)] 2 split).1 = .ok 1 ∧
      (zaddOneByOne noAdd 1000 .default true [(two, a), (three, a)] 1 split).1 = .ok 2 := by
  decide

theorem missing_ok : ZsetOk 0 missing where
  fresh := ⟨nofun, fun _ => rfl⟩
  packed_fits h := by cases h
  indexed _ := ZsetItems.indexed_empty

theorem distinct_members_agree :
    ZaddLeftToRight noAdd 1000 nx true [(one, a), (two, b)] 0 missing := by
  refine (zadd_leftToRight_iff 1000 true rfl missing_ok (by simp)).mpr fun e scores _ m => ?_
  have hshort : (supplied m [(one, a), (two, b)]).getLast?.toList =
      supplied m [(one, a), (two, b)] := by
    by_cases ha : a = m
    · subst ha
      decide
    · by_cases hb : b = m
      · subst hb
        decide
      · simp [supplied_cons, ha, hb]
  rw [MemberAgrees, hshort]
  exact ⟨rfl, fun _ => rfl⟩

end RepeatedMember

end Onedis.Store
