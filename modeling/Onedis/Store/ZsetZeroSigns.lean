import Onedis.Store.ZsetPipeline

/-!
# 零の符号と、まとめて実行する ZINCRBY

一つずつの ZINCRBY は、分けた sorted set では、数として等しい score を書かない。まとめた ZINCRBY は、手元の score
を必ず進め、数として変わった member だけを書く。二つが食い違うのは、−0 に +0 を足したときだけである。

* `scoreAgrees_iff` — 一つの member で二つの実行が一致する条件を、もとの score と足す数だけで述べる
* `zsetPipelines_match_iff` — まとめた ZADD と ZINCRBY が、一つずつの実行と一致するための必要十分条件
-/

namespace Onedis.Store

open Infra Function Visible List ZsetBatchKind

/-- 零を含む加算の結果。最近接丸めの `f64` の加算は、これを満たす。 -/
structure ZeroAddition (add : UInt64 → UInt64 → UInt64) : Prop where
  zero_add : ∀ z x : Score, z.same .zero = true → x.same .zero = false →
    add z.bits x.bits = x.bits
  zeros : ∀ z w : Score, z.same .zero = true → w.same .zero = true →
    add z.bits w.bits = if z = .negZero ∧ w = .negZero then F64.negZero else F64.posZero
  eq_negZero : ∀ x y : Score, add x.bits y.bits = F64.negZero → x = .negZero ∧ y = .negZero

/-! ## 一つの member -/

/-- 一つずつ実行するときに、分けてあるかどうかと、命令。 -/
abbrev PlacedIncr := Bool × ZsetIncrCommand

section

variable (add : UInt64 → UInt64 → UInt64)

def nextScore (increment : Score) (prev : Option Score) : Option Score :=
  Score.ofBits? (add (prev.getD .zero).bits increment.bits)

/-- まとめた実行。手元の score を必ず進める。 -/
def incrWrite (x : PlacedIncr) (prev : Option Score) : Except String Score × Option Score :=
  match nextScore add x.2.increment prev with
  | none => (.error nanResultError, prev)
  | some next => (.ok next, some next)

/-- 一つずつの実行。分けた後は、数として等しい score を書かない。 -/
def incrWriteChanged (x : PlacedIncr) (prev : Option Score) :
    Except String Score × Option Score :=
  match nextScore add x.2.increment prev with
  | none => (.error nanResultError, prev)
  | some next => (.ok next, if x.1 && prev.any (·.same next) then prev else some next)

/-- どれかの命令で、score が数として変わる。 -/
def incrChanges : Option Score → List PlacedIncr → Bool
  | _, [] => false
  | prev, x :: xs =>
    (nextScore add x.2.increment prev).any (fun next => !prev.any (·.same next)) ||
      incrChanges (incrWrite add x prev).2 xs

/-- まとめた実行の返事と残る score が、一つずつの実行と同じである。 -/
def ScoreAgrees (stored : Option Score) (xs : List PlacedIncr) : Prop :=
  (runOne (incrWrite add) stored xs).1 = (runOne (incrWriteChanged add) stored xs).1 ∧
    (if incrChanges add stored xs then (runOne (incrWrite add) stored xs).2 else stored) =
      (runOne (incrWriteChanged add) stored xs).2

variable {add} {x : PlacedIncr} {prev : Option Score}

theorem incrSteps_none (h : nextScore add x.2.increment prev = none) (xs : List PlacedIncr) :
    incrWrite add x prev = (.error nanResultError, prev) ∧
      incrWriteChanged add x prev = (.error nanResultError, prev) ∧
      incrChanges add prev (x :: xs) = incrChanges add prev xs := by
  simp [incrChanges, incrWrite, incrWriteChanged, h]

theorem incrSteps_some {next : Score} (h : nextScore add x.2.increment prev = some next)
    (xs : List PlacedIncr) : incrWrite add x prev = (.ok next, some next) ∧
      incrWriteChanged add x prev =
        (.ok next, if x.1 && prev.any (·.same next) then prev else some next) ∧
      incrChanges add prev (x :: xs) =
        (!prev.any (·.same next) || incrChanges add (some next) xs) := by
  simp [incrChanges, incrWrite, incrWriteChanged, h]

end

/--
−0 の score の符号が食い違う。初めて +0 を足したとき、詰めてあったなら、その後に足すのは零だけである。分けて
あったなら、その後に、零だけをはさんで −0 を足す。
-/
def Resigned (xs : List PlacedIncr) : Prop :=
  ∃ pre x post, xs = pre ++ x :: post ∧ (∀ y ∈ pre, y.2.increment = .negZero) ∧
    x.2.increment = .zero ∧
    if x.1 then ∃ mid y rest, post = mid ++ y :: rest ∧ (∀ z ∈ mid, z.2.increment = .zero) ∧
      y.2.increment = .negZero
    else ∀ y ∈ post, y.2.increment.same .zero = true

theorem resigned_cons_neg {x : PlacedIncr} {xs : List PlacedIncr}
    (hx : x.2.increment = .negZero) : Resigned (x :: xs) ↔ Resigned xs := by
  constructor
  · rintro ⟨pre, y, post, heq, hpre, hzero, hrest⟩
    cases pre with
    | nil =>
      cases heq
      rw [hx] at hzero
      exact absurd hzero (by decide)
    | cons z pre =>
      cases heq
      exact ⟨pre, y, post, rfl, fun w hw => hpre w (mem_cons_of_mem _ hw), hzero, hrest⟩
  · rintro ⟨pre, y, post, rfl, hpre, hrest⟩
    exact ⟨x :: pre, y, post, rfl, forall_mem_cons.mpr ⟨hx, hpre⟩, hrest⟩

theorem resigned_cons_of_ne {x : PlacedIncr} {xs : List PlacedIncr}
    (hx : x.2.increment ≠ .negZero) : Resigned (x :: xs) ↔ x.2.increment = .zero ∧
      if x.1 then ∃ mid y rest, xs = mid ++ y :: rest ∧ (∀ z ∈ mid, z.2.increment = .zero) ∧
        y.2.increment = .negZero
      else ∀ y ∈ xs, y.2.increment.same .zero = true := by
  constructor
  · rintro ⟨pre, y, post, heq, hpre, hrest⟩
    cases pre with
    | nil =>
      cases heq
      exact hrest
    | cons z pre =>
      cases heq
      exact absurd (hpre x mem_cons_self) hx
  · exact fun h => ⟨[], x, xs, rfl, nofun, h⟩

section

variable {add : UInt64 → UInt64 → UInt64} (hadd : ZeroAddition add)
include hadd

theorem nextScore_ne_negZero {prev : Option Score} (h : prev ≠ some .negZero) (increment : Score) :
    nextScore add increment prev ≠ some .negZero := by
  intro hnext
  have hbits : add (prev.getD .zero).bits increment.bits = F64.negZero := by
    unfold nextScore Score.ofBits? at hnext
    split at hnext
    · exact congrArg Score.bits (Option.some.inj hnext)
    · cases hnext
  obtain ⟨hprev, -⟩ := hadd.eq_negZero _ _ hbits
  cases prev with
  | none => exact absurd hprev (by decide)
  | some s => exact h (congrArg some hprev)

theorem nextScore_of_zero {z : Score} (increment : Score) (hz : z.same .zero = true) :
    nextScore add increment (some z) = some (if increment.same .zero = false then increment
      else if z = .negZero ∧ increment = .negZero then .negZero else .zero) := by
  unfold nextScore Score.ofBits?
  simp only [Option.getD_some]
  cases hincrement : increment.same .zero with
  | false =>
    simp only [hadd.zero_add z increment hz hincrement, increment.notNan, dite_true, if_true]
  | true =>
    simp only [hadd.zeros z increment hz hincrement, Bool.true_eq_false, if_false]
    split <;> rfl

/-- −0 でない score からは、数として等しければ bit 列も等しい。二つの実行は同じで、−0 にはならない。 -/
theorem runs_of_ne_negZero (xs : List PlacedIncr) {prev : Option Score}
    (h : prev ≠ some .negZero) :
    runOne (incrWrite add) prev xs = runOne (incrWriteChanged add) prev xs ∧
      (runOne (incrWrite add) prev xs).2 ≠ some .negZero ∧
      (incrChanges add prev xs = false → (runOne (incrWrite add) prev xs).2 = prev) := by
  induction xs generalizing prev with
  | nil => exact ⟨rfl, h, fun _ => rfl⟩
  | cons x xs ih =>
    cases hnext : nextScore add x.2.increment prev with
    | none =>
      obtain ⟨hwrite, hkeep, hchanges⟩ := incrSteps_none hnext xs
      obtain ⟨hrun, hfinal, hclean⟩ := ih h
      simp only [runOne, hwrite, hkeep, hchanges, ← hrun]
      exact ⟨trivial, hfinal, hclean⟩
    | some next =>
      have hne : some next ≠ some Score.negZero := hnext ▸ nextScore_ne_negZero hadd h _
      have hsame : prev.any (·.same next) = true → prev = some next := by
        intro hs
        cases prev with
        | none => cases hs
        | some s =>
          change s.same next = true at hs
          cases hzero : s.same .zero with
          | false => exact congrArg some (Score.eq_of_same hs hzero)
          | true =>
            have hs' := (Score.same_zero_iff.mp hzero).resolve_right fun heq => h (heq ▸ rfl)
            rw [hs', Score.same_comm] at hs
            have hnext' := (Score.same_zero_iff.mp hs).resolve_right fun heq => hne (heq ▸ rfl)
            rw [hs', hnext']
      have hwritten : (if x.1 && prev.any (·.same next) then prev else some next) = some next := by
        split
        · next hcond => exact hsame (Bool.and_eq_true_iff.mp hcond).2
        · rfl
      obtain ⟨hwrite, hkeep, hchanges⟩ := incrSteps_some hnext xs
      obtain ⟨hrun, hfinal, hclean⟩ := ih hne
      simp only [runOne, hwrite, hkeep, hwritten, hchanges, ← hrun]
      refine ⟨trivial, hfinal, fun hunchanged => ?_⟩
      obtain ⟨hhead, htail⟩ := Bool.or_eq_false_iff.mp hunchanged
      have hany : prev.any (·.same next) = true := by simpa using hhead
      exact (hclean htail).trans (hsame hany).symm

theorem scoreAgrees_of_ne_negZero (xs : List PlacedIncr) {stored : Option Score}
    (h : stored ≠ some .negZero) : ScoreAgrees add stored xs := by
  obtain ⟨hrun, -, hclean⟩ := runs_of_ne_negZero hadd xs h
  refine ⟨congrArg Prod.fst hrun, ?_⟩
  rw [← hrun]
  split
  · rfl
  · next hchanges => exact (hclean (Bool.eq_false_iff.mpr hchanges)).symm

/-- +0 の score は、零でない数を足すまで、数として変わらない。 -/
theorem incrChanges_zero (xs : List PlacedIncr) : incrChanges add (some .zero) xs = false ↔
    ∀ x ∈ xs, x.2.increment.same .zero = true := by
  induction xs with
  | nil => simp [incrChanges]
  | cons x xs ih =>
    have hnext := nextScore_of_zero hadd x.2.increment (Score.same_refl .zero)
    obtain ⟨-, -, hchanges⟩ := incrSteps_some hnext xs
    rw [forall_mem_cons, hchanges, Bool.or_eq_false_iff]
    cases hincrement : x.2.increment.same .zero with
    | false => simp [Score.same_comm .zero, hincrement]
    | true => simp [ih, (by decide : Score.zero ≠ .negZero)]

/-- 手元は +0、一つずつの実行は −0 である。−0 を足すと返事が違い、零でない数を足すと二つは揃う。 -/
theorem agrees_of_split (xs : List PlacedIncr) (hsplit : ∀ x ∈ xs, x.1 = true) :
    ((runOne (incrWrite add) (some .zero) xs).1 =
        (runOne (incrWriteChanged add) (some .negZero) xs).1 ∧
      (if incrChanges add (some .zero) xs then (runOne (incrWrite add) (some .zero) xs).2
        else some .negZero) = (runOne (incrWriteChanged add) (some .negZero) xs).2) ↔
    ¬ ∃ mid y rest, xs = mid ++ y :: rest ∧ (∀ z ∈ mid, z.2.increment = .zero) ∧
      y.2.increment = .negZero := by
  induction xs with
  | nil => simp [runOne, incrChanges]
  | cons x xs ih =>
    obtain ⟨hx, hxs⟩ := forall_mem_cons.mp hsplit
    have hpos := nextScore_of_zero hadd x.2.increment (Score.same_refl .zero)
    have hneg := nextScore_of_zero hadd (z := .negZero) x.2.increment (by decide)
    have hcons : (∃ mid y rest, x :: xs = mid ++ y :: rest ∧
        (∀ z ∈ mid, z.2.increment = .zero) ∧ y.2.increment = Score.negZero) ↔
        x.2.increment = .negZero ∨ x.2.increment = .zero ∧ ∃ mid y rest, xs = mid ++ y :: rest ∧
          (∀ z ∈ mid, z.2.increment = .zero) ∧ y.2.increment = .negZero := by
      constructor
      · rintro ⟨mid, y, rest, heq, hmid, hy⟩
        cases mid with
        | nil =>
          cases heq
          exact .inl hy
        | cons z mid =>
          cases heq
          exact .inr ⟨hmid x mem_cons_self, mid, y, rest, rfl,
            fun w hw => hmid w (mem_cons_of_mem _ hw), hy⟩
      · rintro (h | ⟨h, mid, y, rest, rfl, hmid, hy⟩)
        · exact ⟨[], x, xs, rfl, forall_mem_nil _, h⟩
        · exact ⟨x :: mid, y, rest, rfl, forall_mem_cons.mpr ⟨h, hmid⟩, hy⟩
    rw [hcons]
    obtain ⟨hwrite, -, hchanges⟩ := incrSteps_some hpos xs
    obtain ⟨-, hkeep, -⟩ := incrSteps_some hneg xs
    simp only [runOne, hwrite, hkeep, hchanges, hx]
    cases hincrement : x.2.increment.same .zero with
    | false =>
      have hne : some x.2.increment ≠ some Score.negZero := by
        intro h
        rw [Option.some.inj h] at hincrement
        exact absurd hincrement (by decide)
      have hne' : x.2.increment ≠ .zero := by
        intro h
        rw [h] at hincrement
        exact absurd hincrement (by decide)
      have hdiff := (Score.negZero_same x.2.increment).trans hincrement
      obtain ⟨hrun, -, -⟩ := runs_of_ne_negZero hadd xs hne
      have hdiff' : Score.zero.same x.2.increment = false :=
        (Score.same_comm _ _).trans hincrement
      simp only [if_true, Option.any_some, hdiff, hdiff', Bool.and_false, Bool.false_eq_true,
        if_false, Bool.not_false, Bool.true_or, ← hrun]
      exact iff_of_true ⟨trivial, trivial⟩ fun h => h.elim (fun h => hne (congrArg some h))
        fun h => hne' h.1
    | true =>
      rcases Score.same_zero_iff.mp hincrement with h | h
      · have hkept : (Score.negZero.same .zero) = true := by decide
        simp only [h, hkept, (by decide : Score.zero ≠ .negZero), Bool.true_eq_false, if_false,
          and_false, Option.any_some, Score.same_refl, Bool.not_true, Bool.false_or, Bool.and_self,
          if_true, cons.injEq, true_and, false_or]
        exact ih hxs
      · rw [h]
        refine iff_of_false (fun hagree => ?_) fun hnot => hnot (.inl rfl)
        have := (cons.inj hagree.1).1
        exact absurd this (by decide)

/-- **一つの member で二つの実行が一致するのは、−0 の符号が食い違わないときに限る。** -/
theorem scoreAgrees_iff (xs : List PlacedIncr)
    (hmono : xs.Pairwise fun x y => x.1 = true → y.1 = true) (stored : Option Score) :
    ScoreAgrees add stored xs ↔ (stored = some .negZero → ¬ Resigned xs) := by
  by_cases hstored : stored = some .negZero
  swap
  · exact iff_of_true (scoreAgrees_of_ne_negZero hadd xs hstored) fun h => absurd h hstored
  subst hstored
  rw [imp_iff_right rfl]
  induction xs with
  | nil =>
    refine iff_of_true ⟨rfl, rfl⟩ ?_
    rintro ⟨pre, x, post, heq, -⟩
    cases pre <;> cases heq
  | cons x xs ih =>
    obtain ⟨hhead, htail⟩ := pairwise_cons.mp hmono
    have hnext := nextScore_of_zero hadd (z := .negZero) x.2.increment (by decide)
    by_cases hneg : x.2.increment = .negZero
    · rw [resigned_cons_neg hneg, ← ih htail]
      have hnext' : nextScore add x.2.increment (some .negZero) = some .negZero := by
        rw [hnext, hneg]
        rfl
      obtain ⟨hwrite, hkeep, hchanges⟩ := incrSteps_some hnext' xs
      simp [ScoreAgrees, runOne, hwrite, hkeep, hchanges]
    rw [resigned_cons_of_ne hneg]
    by_cases hzero : x.2.increment = .zero
    · have hnext' : nextScore add x.2.increment (some .negZero) = some .zero := by
        rw [hnext, hzero]
        rfl
      have hsame : Score.negZero.same .zero = true := by decide
      obtain ⟨hwrite, hkeep, hchanges⟩ := incrSteps_some hnext' xs
      simp only [ScoreAgrees, runOne, hwrite, hkeep, hchanges, Option.any_some, hsame,
        Bool.not_true, Bool.false_or, Bool.and_true, cons.injEq, true_and]
      rw [and_iff_right hzero]
      cases hx : x.1 with
      | true =>
        simp only [if_true]
        exact agrees_of_split hadd xs fun y hy => hhead y hy hx
      | false =>
        -- 詰めてあれば、手元の +0 は一つずつの実行でも書かれている
        obtain ⟨hrun, hfinal, -⟩ := runs_of_ne_negZero hadd xs
          (show some Score.zero ≠ some .negZero by decide)
        simp only [Bool.false_eq_true, if_false, ← hrun, true_and]
        rw [← incrChanges_zero hadd, Bool.not_eq_false]
        cases incrChanges add (some .zero) xs with
        | true => simp
        | false => exact iff_of_false (fun h => hfinal h.symm) (by decide)
    · have hother : x.2.increment.same .zero = false := by
        rw [← Bool.not_eq_true]
        exact fun h => (Score.same_zero_iff.mp h).elim hzero hneg
      have hnext' : nextScore add x.2.increment (some .negZero) = some x.2.increment := by
        rw [hnext, hother]
        rfl
      have hdiff := (Score.negZero_same x.2.increment).trans hother
      obtain ⟨hrun, -, -⟩ := runs_of_ne_negZero hadd xs
        (show some x.2.increment ≠ some .negZero from fun h => hneg (Option.some.inj h))
      obtain ⟨hwrite, hkeep, hchanges⟩ := incrSteps_some hnext' xs
      simp only [ScoreAgrees, runOne, hwrite, hkeep, hchanges, Option.any_some, hdiff,
        Bool.and_false, Bool.false_eq_true, if_false, Bool.not_false, Bool.true_or, ← hrun]
      exact iff_of_true ⟨trivial, if_pos trivial⟩ fun h => hzero h.1

end

/-! ## member ごとの列 -/

/-- 一つずつ実行するときに、その時点で分けてあるかどうかを、命令に添える。 -/
def placed (split : Bool) (stored : Scores) : List ZsetIncrCommand → List PlacedIncr
  | [] => []
  | c :: cs =>
    let grown := stored.insert c.member c.increment
    (split, c) :: placed (split || !packedZsetFits grown) grown cs

def PlacedIncr.member (x : PlacedIncr) : Text := x.2.member

theorem placed_monotone (split : Bool) (stored : Scores) (cs : List ZsetIncrCommand) :
    (placed split stored cs).Pairwise (fun x y => x.1 = true → y.1 = true) ∧
      (split = true → ∀ x ∈ placed split stored cs, x.1 = true) := by
  induction cs generalizing split stored with
  | nil => exact ⟨.nil, nofun⟩
  | cons c cs ih =>
    obtain ⟨hpairs, hall⟩ := ih (split || !packedZsetFits (stored.insert c.member c.increment))
      (stored.insert c.member c.increment)
    have hrest : split = true →
        ∀ x ∈ placed _ (stored.insert c.member c.increment) cs, x.1 = true :=
      fun hsplit => hall (by rw [hsplit, Bool.true_or])
    exact ⟨pairwise_cons.mpr ⟨fun y hy hsplit => hrest hsplit y hy, hpairs⟩,
      fun hsplit => forall_mem_cons.mpr ⟨hsplit, hrest hsplit⟩⟩

theorem map_snd_placed (split : Bool) (stored : Scores) (cs : List ZsetIncrCommand) :
    (placed split stored cs).map Prod.snd = cs := by
  induction cs generalizing split stored with
  | nil => rfl
  | cons c cs ih => exact congrArg (c :: ·) (ih ..)

section

variable (add : UInt64 → UInt64 → UInt64)

theorem lookup_insert_eq_update (scores : Scores) (m : Text) (s : Score) :
    (scores.insert m s).lookup = update scores.lookup m (some s) := by
  funext n
  by_cases hn : n = m
  · subst hn
    rw [update_self, Finmap.lookup_insert]
  · rw [update_of_ne hn, Finmap.lookup_insert_of_ne _ hn]

variable (scores : Scores) (x : PlacedIncr)

theorem incrAlways_eq : (incrAlways add x.2 scores).1 =
        (incrWrite add x (scores.lookup x.member)).1 ∧
      (incrAlways add x.2 scores).2.lookup =
        update scores.lookup x.member (incrWrite add x (scores.lookup x.member)).2 := by
  have hnext : incrNext add x.2 scores = nextScore add x.2.increment (scores.lookup x.member) := rfl
  simp only [incrAlways, incrWrite, hnext]
  cases nextScore add x.2.increment (scores.lookup x.member) with
  | none => exact ⟨rfl, (update_eq_self ..).symm⟩
  | some next => exact ⟨rfl, lookup_insert_eq_update ..⟩

theorem incrEachStep_eq : (incrEachStep add x.2 (scores, x.1)).1 =
        (incrWriteChanged add x (scores.lookup x.member)).1 ∧
      (incrEachStep add x.2 (scores, x.1)).2.1.lookup =
        update scores.lookup x.member (incrWriteChanged add x (scores.lookup x.member)).2 := by
  have hnext : incrNext add x.2 scores = nextScore add x.2.increment (scores.lookup x.member) := rfl
  simp only [incrEachStep, incrWriteChanged, hnext]
  cases nextScore add x.2.increment (scores.lookup x.member) with
  | none => exact ⟨rfl, (update_eq_self ..).symm⟩
  | some next =>
    refine ⟨rfl, ?_⟩
    dsimp only
    change (fun m => (if x.1 && (scores.lookup x.member).any (·.same next) then scores
      else scores.insert x.member next).lookup m) = _
    split
    · exact (update_eq_self ..).symm
    · exact lookup_insert_eq_update ..

/-- まとめた実行は、member ごとの実行である。 -/
theorem runOne_incrAlways_eq (scores : Scores) (xs : List PlacedIncr) :
    (runOne (incrAlways add) scores (xs.map Prod.snd)).1 =
        (runKeyed PlacedIncr.member (incrWrite add) scores.lookup xs).1 ∧
      (runOne (incrAlways add) scores (xs.map Prod.snd)).2.lookup =
        (runKeyed PlacedIncr.member (incrWrite add) scores.lookup xs).2 := by
  induction xs generalizing scores with
  | nil => exact ⟨rfl, rfl⟩
  | cons x xs ih =>
    obtain ⟨hreply, hlookup⟩ := incrAlways_eq add scores x
    obtain ⟨hreplies, hfinal⟩ := ih (incrAlways add x.2 scores).2
    rw [hlookup] at hreplies hfinal
    exact ⟨congrArg₂ cons hreply hreplies, hfinal⟩

theorem incr_splitStep (c : ZsetIncrCommand) (scores : Scores) :
    ((incrKind add).splitStep c scores).2.1 = (incrAlways add c scores).2 :=
  congrArg Prod.snd (congrFun (congrFun (incr_splitScores add) c) scores)

/-- 書く member は、数として score の変わるものである。 -/
theorem mem_incrTouches (scores : Scores) (xs : List PlacedIncr) (m : Text) :
    m ∈ incrTouches add scores (xs.map Prod.snd) ↔
      incrChanges add (scores.lookup m) (addressedTo PlacedIncr.member m xs) = true := by
  induction xs generalizing scores with
  | nil => simp [incrTouches, touches, incrChanges]
  | cons x xs ih =>
    have htouch : m ∈ ((incrKind add).splitStep x.2 scores).2.2 ↔ m = x.member ∧
        (nextScore add x.2.increment (scores.lookup x.member)).any
          (fun next => !(scores.lookup x.member).any (·.same next)) = true := by
      have hnext : incrNext add x.2 scores =
        nextScore add x.2.increment (scores.lookup x.member) := rfl
      simp only [incrKind, hnext]
      cases nextScore add x.2.increment (scores.lookup x.member) with
      | none => simp
      | some next =>
        change m ∈ (if (scores.lookup x.member).any (·.same next) then [] else [x.member]) ↔ _
        cases hsame : (scores.lookup x.member).any (·.same next) <;> simp [hsame]
    obtain ⟨-, hlookup⟩ := incrAlways_eq add scores x
    have hrest := ih (incrAlways add x.2 scores).2
    rw [congrFun hlookup m, ← incr_splitStep] at hrest
    change m ∈ ((incrKind add).splitStep x.2 scores).2.2 ++ incrTouches add _ _ ↔ _
    rw [mem_append, htouch, hrest]
    by_cases hm : x.member = m
    · subst hm
      rw [addressedTo_cons_self, update_self, incrChanges, Bool.or_eq_true, and_iff_right rfl]
    · rw [addressedTo_cons_of_ne hm, update_of_ne (Ne.symm hm)]
      exact or_iff_right fun h => hm h.1.symm

variable {add} (hadd : ZeroAddition add)
include hadd

/-- 新しい member への ZINCRBY は失敗しない。 -/
theorem nextScore_none_ne_none (increment : Score) : nextScore add increment none ≠ none := by
  have hsome := nextScore_of_zero hadd increment (Score.same_refl .zero)
  change nextScore add increment (some .zero) ≠ none
  rw [hsome]
  exact Option.some_ne_none _

/-- 一つずつの実行が分けてあるかどうかは、member の集まりだけで決まる。 -/
theorem incrEachStep_placed {split : Bool} {scores grown : Scores}
    (hkeys : scores.keys = grown.keys) (hfits : split = false → packedZsetFits grown = true)
    (c : ZsetIncrCommand) :
    (incrEachStep add c (scores, split)).2.1.keys = (grown.insert c.member c.increment).keys ∧
      (incrEachStep add c (scores, split)).2.2 =
        (split || !packedZsetFits (grown.insert c.member c.increment)) := by
  have hinsert : ∀ next, (scores.insert c.member next).keys =
      (grown.insert c.member c.increment).keys := by
    intro next
    ext m
    rw [Finmap.mem_keys, Finmap.mem_keys, Finmap.mem_insert, Finmap.mem_insert, ← Finmap.mem_keys,
      ← Finmap.mem_keys, hkeys]
  have hmember : scores.lookup c.member ≠ none →
      scores.keys = (grown.insert c.member c.increment).keys := by
    intro hold
    rw [← hinsert .zero]
    ext m
    rw [Finmap.mem_keys, Finmap.mem_keys, Finmap.mem_insert, iff_or_self]
    rintro rfl
    exact Finmap.mem_iff.mpr (Option.ne_none_iff_exists'.mp hold)
  unfold incrEachStep
  cases hnext : incrNext add c (scores, split).1 with
  | none =>
    have hold : scores.lookup c.member ≠ none := by
      intro hnone
      have hfails : nextScore add c.increment (scores.lookup c.member) = none := hnext
      rw [hnone] at hfails
      exact nextScore_none_ne_none hadd c.increment hfails
    refine ⟨hmember hold, ?_⟩
    rw [← packedZsetFits_congr (hmember hold), packedZsetFits_congr hkeys]
    cases split with
    | true => rfl
    | false => rw [hfits rfl]; rfl
  | some next =>
    refine ⟨?_, congrArg (fun fits => split || !fits) (packedZsetFits_congr (hinsert next))⟩
    dsimp only
    split
    · next hkept =>
      refine hmember fun hnone => ?_
      rw [hnone] at hkept
      simp at hkept
    · exact hinsert next

/-- 一つずつの実行も、member ごとの実行である。 -/
theorem runOne_incrEachStep_eq (cs : List ZsetIncrCommand) {split : Bool} {scores grown : Scores}
    (hkeys : scores.keys = grown.keys) (hfits : split = false → packedZsetFits grown = true) :
    (runOne (incrEachStep add) (scores, split) cs).1 = (runKeyed PlacedIncr.member
        (incrWriteChanged add) scores.lookup (placed split grown cs)).1 ∧
      (runOne (incrEachStep add) (scores, split) cs).2.1.lookup = (runKeyed PlacedIncr.member
        (incrWriteChanged add) scores.lookup (placed split grown cs)).2 := by
  induction cs generalizing split scores grown with
  | nil => exact ⟨rfl, rfl⟩
  | cons c cs ih =>
    obtain ⟨hreply, hlookup⟩ := incrEachStep_eq add scores (split, c)
    obtain ⟨hkeys', hsplit'⟩ := incrEachStep_placed hadd hkeys hfits c
    have hstate : (incrEachStep add c (scores, split)).2 =
        ((incrEachStep add c (scores, split)).2.1,
          split || !packedZsetFits (grown.insert c.member c.increment)) := Prod.ext rfl hsplit'
    have hfits' : (split || !packedZsetFits (grown.insert c.member c.increment)) = false →
        packedZsetFits (grown.insert c.member c.increment) = true :=
      fun h => by simpa using (Bool.or_eq_false_iff.mp h).2
    obtain ⟨hreplies, hfinal⟩ := ih hkeys' hfits'
    rw [← hstate, hlookup] at hreplies hfinal
    exact ⟨congrArg₂ cons hreply hreplies, hfinal⟩

/-- ある member の符号が食い違わない。 -/
def IncrKeepsSigns (split : Bool) (stored : Scores) (cs : List ZsetIncrCommand) : Prop :=
  ∀ m, stored.lookup m = some .negZero →
    ¬ Resigned (addressedTo PlacedIncr.member m (placed split stored cs))

/-- **一つの key への列が一致するのは、−0 の符号が食い違わないときに限る。** -/
theorem incrAgrees_iff (split : Bool) {stored : Scores}
    (hfits : split = false → packedZsetFits stored = true) (cs : List ZsetIncrCommand) :
    IncrAgrees add split stored cs ↔ IncrKeepsSigns split stored cs := by
  obtain ⟨hreplies, hfinal⟩ := runOne_incrEachStep_eq hadd cs (Eq.refl stored.keys) hfits
  obtain ⟨hreplies', hfinal'⟩ := runOne_incrAlways_eq add stored (placed split stored cs)
  have htouches := mem_incrTouches add stored (placed split stored cs)
  rw [map_snd_placed] at hreplies' hfinal' htouches
  have hagrees : IncrAgrees add split stored cs ↔ ∀ m, ScoreAgrees add (stored.lookup m)
      (addressedTo PlacedIncr.member m (placed split stored cs)) := by
    unfold IncrAgrees ScoreAgrees
    rw [hreplies, hreplies', runKeyed_replies_eq_iff, ← forall_and]
    refine forall_congr' fun m => and_congr_right fun _ => ?_
    rw [congrFun hfinal m, congrFun hfinal' m, runKeyed_snd, runKeyed_snd,
      if_congr (htouches m) rfl rfl]
  rw [hagrees]
  exact forall_congr' fun m => scoreAgrees_iff hadd _
    ((placed_monotone split stored cs).1.sublist filter_sublist) _

end

/-! ## 二つの実行の比較 -/

section

variable (add : UInt64 → UInt64 → UInt64) (now : Nat) {s : ZsetStore}

/--
**まとめた ZADD と ZINCRBY が一つずつの実行と一致するための必要十分条件。** ZADD は、詰めたまま書くときに零の
符号を書き換えなければよい。ZINCRBY は、分けて書くときに、−0 の符号が食い違わなければよい。
-/
theorem zsetPipelines_match_iff (hadd : ZeroAddition add) (adds : List ZsetAddCommand)
    (incrs : List ZsetIncrCommand) (hs : s.Satisfies ZsetOk) :
    (ZaddRunsAgree add now adds s ↔ (zaddKind.takesPacked now adds s = true → ∀ key e scores,
        ((s.slots key).view zsetLayout now).parts ∅ = some (e, scores) →
          ¬ ResignedZero scores (addressedTo ZsetAddCommand.key key adds))) ∧
    (ZincrRunsAgree add now incrs s ↔
      ((incrKind add).takesPacked now incrs s = false → ∀ key e scores,
        ((s.slots key).view zsetLayout now).parts ∅ = some (e, scores) →
          IncrKeepsSigns (isSplitZset now (s.slots key)) scores
            (addressedTo ZsetIncrCommand.key key incrs))) := by
  refine ⟨zaddRuns_agree_iff add now adds hs, (zincrRuns_agree_iff add now incrs hs).trans ?_⟩
  refine forall_congr' fun _ => forall_congr' fun key => forall_congr' fun e =>
    forall_congr' fun scores => forall_congr' fun hparts => ?_
  exact incrAgrees_iff hadd _ (fun hsplit => fits_of_not_split now (hs key) hsplit hparts) _

end

/-! ## 零の符号 -/

namespace SignedZero

def a : Text := .ofByte 97 (Eq.refl true)

def b : Text := .ofByte 98 (Eq.refl true)

def one : Score := ⟨0x3ff0000000000000, Eq.refl false⟩

/-- 零を足すときだけ `f64` の加算に等しい演算。 -/
def addZeros (x y : UInt64) : UInt64 :=
  if x = F64.negZero then y
  else if x = F64.posZero then (if y = F64.negZero then F64.posZero else y)
  else x

theorem addZeros_zeroAddition : ZeroAddition addZeros where
  zero_add z x hz hx := by
    have hne : x.bits ≠ F64.negZero := by
      intro h
      rw [show x = .negZero from Score.ext_bits h] at hx
      exact absurd hx (by decide)
    rcases Score.same_zero_iff.mp hz with rfl | rfl
    · exact (if_neg (by decide)).trans ((if_pos rfl).trans (if_neg hne))
    · exact if_pos rfl
  zeros z w hz hw := by
    rcases Score.same_zero_iff.mp hz with rfl | rfl <;>
      rcases Score.same_zero_iff.mp hw with rfl | rfl <;> decide
  eq_negZero x y h := by
    unfold addZeros at h
    split at h
    · next hx => exact ⟨Score.ext_bits hx, Score.ext_bits h⟩
    · next hx =>
      split at h
      · split at h
        · exact absurd h (by decide)
        · next hy => exact absurd h hy
      · exact absurd h hx

/-- 詰めた zset `{a: +0}` を持つ key `k`。 -/
def packedStore : ZsetStore :=
  ⟨fun key => ⟨if key = [107] then some (.packed 0 ((∅ : Scores).insert a .zero)) else none,
    fun _ => ∅⟩, 0⟩

/-- version 1 に分けた zset `{a: -0}` を持つ key `k`。 -/
def splitStore : ZsetStore :=
  ⟨fun key => ⟨if key = [107] then some (.split 0 1 ()) else none,
    fun v => if key = [107] ∧ v = 1 then .ofScores ((∅ : Scores).insert a .negZero) else ∅⟩, 1⟩

theorem pipelines_differ :
    ((zaddKind.run 1000 [⟨[107], [(.negZero, a)]⟩, ⟨[107], [(one, b)]⟩] packedStore).2.slots
        [107]).view zsetLayout 1000 =
      .value 0 (((∅ : Scores).insert a .negZero).insert b one) ∧
    ((runZadds addZeros 1000 [⟨[107], [(.negZero, a)]⟩, ⟨[107], [(one, b)]⟩] packedStore).2.slots
        [107]).view zsetLayout 1000 =
      .value 0 (((∅ : Scores).insert a .zero).insert b one) ∧
    ((incrKind addZeros).run 1000 [⟨[107], .zero, a⟩, ⟨[107], .negZero, a⟩] splitStore).1 =
      [.ok .zero, .ok .zero] ∧
    (runZincrs addZeros 1000 [⟨[107], .zero, a⟩, ⟨[107], .negZero, a⟩] splitStore).1 =
      [.ok .zero, .ok .negZero] := by
  decide

theorem splitStore_ok : splitStore.Satisfies ZsetOk := by
  intro key
  refine ⟨⟨?_, ?_⟩, ?_, ?_⟩
  · intro e ver info h
    obtain ⟨-, h⟩ := Option.ite_none_right_eq_some.mp h
    cases h
    exact le_rfl
  · intro ver hlt
    have hne : ver ≠ 1 := Nat.ne_of_gt hlt
    simp [splitStore, hne]
  · intro e scores h
    simp only [splitStore] at h
    split at h <;> cases h
  · intro ver
    simp only [splitStore]
    split
    · exact ZsetItems.indexed_ofScores _
    · exact ZsetItems.indexed_empty

theorem pipelines_agree :
    ZaddRunsAgree addZeros 1000 [⟨[106], [(one, a)]⟩, ⟨[106], [(.zero, a)]⟩] splitStore ∧
      ZincrRunsAgree addZeros 1000 [⟨[107], .negZero, a⟩, ⟨[107], .zero, a⟩] splitStore := by
  have hmatch := zsetPipelines_match_iff addZeros 1000 addZeros_zeroAddition
    [⟨[106], [(one, a)]⟩, ⟨[106], [(.zero, a)]⟩] [⟨[107], .negZero, a⟩, ⟨[107], .zero, a⟩]
    splitStore_ok
  refine ⟨hmatch.1.mpr fun _ key e scores hparts => ?_,
    hmatch.2.mpr fun _ key e scores hparts => ?_⟩
  · by_cases hkey : key = [106]
    · subst hkey
      cases hparts
      rintro ⟨-, m, hm⟩
      by_cases ha : a = m
      · subst ha
        exact hm (by decide)
      · exact hm
          (by simp [supplied_cons, batchPairs, addressedTo, lastPairs, keepFirst, ha, addRun])
    · have hnil : addressedTo ZsetAddCommand.key key
          [⟨[106], [(one, a)]⟩, ⟨[106], [(.zero, a)]⟩] = [] := by
        simp [addressedTo, Ne.symm hkey]
      rw [hnil]
      rintro ⟨⟨m, hm⟩, -⟩
      exact hm rfl
  · intro m hm
    by_cases hkey : key = [107]
    · subst hkey
      cases hparts
      by_cases ha : m = a
      · subst ha
        have hplaced : addressedTo PlacedIncr.member a (placed true ((∅ : Scores).insert a .negZero)
            [⟨[107], .negZero, a⟩, ⟨[107], .zero, a⟩]) =
            [(true, ⟨[107], .negZero, a⟩), (true, ⟨[107], .zero, a⟩)] := by decide
        change ¬ Resigned (addressedTo PlacedIncr.member a (placed true
          ((∅ : Scores).insert a .negZero) [⟨[107], .negZero, a⟩, ⟨[107], .zero, a⟩]))
        rw [hplaced, resigned_cons_neg rfl, resigned_cons_of_ne (by decide)]
        rintro ⟨-, mid, y, rest, heq, -⟩
        cases mid <;> cases heq
      · have hempty : (∅ : Scores).lookup m = some .negZero :=
          (Finmap.lookup_insert_of_ne _ ha).symm.trans hm
        cases hempty
    · have hnil : addressedTo ZsetIncrCommand.key key
          [⟨[107], .negZero, a⟩, ⟨[107], .zero, a⟩] = [] := by
        simp [addressedTo, Ne.symm hkey]
      rw [hnil]
      rintro ⟨pre, x, post, heq, -⟩
      cases pre <;> cases heq

end SignedZero

end Onedis.Store
