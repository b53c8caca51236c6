import Onedis.Store.ZsetAdd

/-!
# まとめて実行する ZADD と ZINCRBY

`zset_add_batch_async` と `zset_increment_batch_async` は、手元の表を順に書き換え、最後に一度だけ書く。どちらも、
一つずつの実行との違いは、+0 と −0 を数として等しいと見なす判定から生じる。

* `zaddRuns_agree_iff` — まとめた ZADD が一つずつの ZADD と一致する条件
* `zincrRuns_agree_iff` — まとめた ZINCRBY が一つずつの ZINCRBY と一致することを、key ごとの列に帰着する
-/

namespace Onedis.Store

open Infra Function Visible List
open Codec (wrongTypeError)

/-! ## まとめての ZADD -/

/-- pipeline の一つの ZADD。 -/
structure ZsetAddCommand where
  key : Bytes
  pairs : List ScorePair
  deriving DecidableEq

/-- 一つの命令の途中。`touched` は、数として変わった member である。 -/
structure ZsetTally where
  added : Nat
  scores : Scores
  touched : List Text

/-- 一つの組。`force` なら、数として等しい score も書く。 -/
def tallyPair (force : Bool) (t : ZsetTally) (pair : ScorePair) : ZsetTally :=
  let previous := t.scores.lookup pair.2
  let same := previous.any (·.same pair.1)
  { added := t.added + if previous.isNone then 1 else 0
    scores := if same && !force then t.scores else t.scores.insert pair.2 pair.1
    touched := if same then t.touched else t.touched ++ [pair.2] }

def tallyPairs (force : Bool) (pairs : List ScorePair) (scores : Scores) : ZsetTally :=
  (lastPairs pairs).foldl (tallyPair force) ⟨0, scores, []⟩

def zaddKind : ZsetBatchKind ZsetAddCommand Nat where
  key := ZsetAddCommand.key
  packedStep c scores :=
    let t := tallyPairs true c.pairs scores
    (.ok t.added, t.scores, !t.touched.isEmpty)
  splitStep c scores :=
    let t := tallyPairs false c.pairs scores
    (.ok t.added, t.scores, t.touched)

/-- `zset_add_async` を一つずつ順に実行する。 -/
def runZadds (add : UInt64 → UInt64 → UInt64) (now : Nat) (cmds : List ZsetAddCommand)
    (s : ZsetStore) : List (Except String Nat) × ZsetStore :=
  s.execAll ZsetAddCommand.key (fun c => zadd add now .default false c.pairs) cmds

/-! ## まとめての ZINCRBY -/

/-- pipeline の一つの ZINCRBY。 -/
structure ZsetIncrCommand where
  key : Bytes
  increment : Score
  member : Text
  deriving DecidableEq

/-- 足した後の score。NaN なら `none`。 -/
def incrNext (add : UInt64 → UInt64 → UInt64) (c : ZsetIncrCommand) (scores : Scores) :
    Option Score :=
  Score.ofBits? (add ((scores.lookup c.member).getD .zero).bits c.increment.bits)

def incrKind (add : UInt64 → UInt64 → UInt64) : ZsetBatchKind ZsetIncrCommand Score where
  key := ZsetIncrCommand.key
  packedStep c scores :=
    match incrNext add c scores with
    | none => (.error nanResultError, scores, false)
    | some next => (.ok next, scores.insert c.member next, true)
  splitStep c scores :=
    match incrNext add c scores with
    | none => (.error nanResultError, scores, [])
    | some next => (.ok next, scores.insert c.member next,
        if (scores.lookup c.member).any (·.same next) then [] else [c.member])

def runZincrs (add : UInt64 → UInt64 → UInt64) (now : Nat) (cmds : List ZsetIncrCommand)
    (s : ZsetStore) : List (Except String Score) × ZsetStore :=
  oneByOne ((incrKind add).run now) cmds s

/-! ## ZADD の途中の表 -/

section

variable {t u : ZsetTally} {pairs : List ScorePair}

def SameScores (a b : Scores) : Prop :=
  ∀ m, Option.Rel (fun s t => Score.same s t = true) (a.lookup m) (b.lookup m)

theorem SameScores.refl (a : Scores) : SameScores a a := by
  intro m
  cases a.lookup m with
  | none => exact .none
  | some s => exact .some (Score.same_refl s)

variable {a b : Scores}

theorem SameScores.isNone_eq (h : SameScores a b) (m : Text) :
    (a.lookup m).isNone = (b.lookup m).isNone := by
  have hm := h m
  generalize a.lookup m = x at hm ⊢
  generalize b.lookup m = y at hm ⊢
  cases hm <;> rfl

theorem SameScores.any_same_eq (h : SameScores a b) (m : Text) (s : Score) :
    (a.lookup m).any (·.same s) = (b.lookup m).any (·.same s) := by
  have hm := h m
  generalize a.lookup m = x at hm ⊢
  generalize b.lookup m = y at hm ⊢
  cases hm with
  | none => rfl
  | @some x y hxy =>
    show x.same s = y.same s
    rw [Bool.eq_iff_iff]
    exact ⟨fun hx => Score.same_trans (Score.same_comm x y ▸ hxy) hx, Score.same_trans hxy⟩

theorem SameScores.insert (h : SameScores a b) (m : Text) (s : Score) :
    SameScores (a.insert m s) (if (b.lookup m).any (·.same s) then b else b.insert m s) := by
  intro n
  by_cases hn : n = m
  · rw [hn, Finmap.lookup_insert]
    split
    · next hsame =>
      cases hb : b.lookup m with
      | none =>
        rw [hb] at hsame
        cases hsame
      | some old =>
        rw [hb] at hsame
        exact .some ((Score.same_comm s old).trans hsame)
    · rw [Finmap.lookup_insert]
      exact .some (Score.same_refl s)
  · rw [Finmap.lookup_insert_of_ne _ hn]
    split
    · exact h n
    · rw [Finmap.lookup_insert_of_ne _ hn]
      exact h n

structure TallyRel (t u : ZsetTally) : Prop where
  added : t.added = u.added
  touched : t.touched = u.touched
  scores : SameScores t.scores u.scores

theorem TallyRel.step (h : TallyRel t u) (pair : ScorePair) :
    TallyRel (tallyPair true t pair) (tallyPair false u pair) where
  added := by simp [tallyPair, h.added, h.scores.isNone_eq]
  touched := by simp [tallyPair, h.touched, h.scores.any_same_eq]
  scores := by
    have hinsert := h.scores.insert pair.2 pair.1
    simpa only [tallyPair, Bool.not_true, Bool.and_false, Bool.false_eq_true, if_false,
      Bool.not_false, Bool.and_true] using hinsert

theorem TallyRel.foldl (h : TallyRel t u) (pairs : List ScorePair) :
    TallyRel (pairs.foldl (tallyPair true) t) (pairs.foldl (tallyPair false) u) := by
  induction pairs generalizing t u with
  | nil => exact h
  | cons pair pairs ih => exact ih (h.step pair)

theorem tallyPairs_rel (h : SameScores a b) (pairs : List ScorePair) :
    TallyRel (tallyPairs true pairs a) (tallyPairs false pairs b) :=
  @TallyRel.foldl ⟨0, a, []⟩ ⟨0, b, []⟩ ⟨rfl, rfl, h⟩ (lastPairs pairs)

theorem lookup_foldl_force (m : Text) (pairs : List ScorePair) (t : ZsetTally) :
    (pairs.foldl (tallyPair true) t).scores.lookup m =
      (supplied m pairs).getLast?.or (t.scores.lookup m) := by
  induction pairs generalizing t with
  | nil => rfl
  | cons pair pairs ih =>
    have hstep : (tallyPair true t pair).scores = t.scores.insert pair.2 pair.1 := by
      simp [tallyPair]
    rw [foldl_cons, ih, hstep, supplied_cons]
    by_cases hm : pair.2 = m
    · subst hm
      rw [if_pos rfl, Finmap.lookup_insert, getLast?_cons]
      cases (supplied pair.2 pairs).getLast? <;> rfl
    · rw [if_neg hm, Finmap.lookup_insert_of_ne _ (Ne.symm hm)]

theorem lookup_tallyPair_ne {force : Bool} {m : Text} (pair : ScorePair)
    (h : m ∈ t.touched → t.scores.lookup m ≠ none) :
    (m ∈ (tallyPair force t pair).touched ∨ t.scores.lookup m ≠ none →
      (tallyPair force t pair).scores.lookup m ≠ none) := by
  have hold : t.scores.lookup m ≠ none → (tallyPair force t pair).scores.lookup m ≠ none := by
    intro hm
    unfold tallyPair
    dsimp only
    split
    · exact hm
    · exact Scores.lookup_insert_ne.mpr (.inr hm)
  rintro (hm | hm)
  · cases hsame : (t.scores.lookup pair.2).any (·.same pair.1) with
    | true => exact hold (h (by simpa [tallyPair, hsame] using hm))
    | false =>
      simp only [tallyPair, hsame, Bool.false_and, Bool.false_eq_true, if_false, mem_append,
        mem_singleton] at hm ⊢
      exact Scores.lookup_insert_ne.mpr (hm.symm.imp_right h)
  · exact hold hm

theorem lookup_tallyPairs_ne {force : Bool} {scores : Scores} {m : Text}
    (h : m ∈ (tallyPairs force pairs scores).touched ∨ scores.lookup m ≠ none) :
    (tallyPairs force pairs scores).scores.lookup m ≠ none := by
  have hrun : ∀ (l : List ScorePair) (t : ZsetTally), (m ∈ t.touched → t.scores.lookup m ≠ none) →
      (m ∈ (l.foldl (tallyPair force) t).touched ∨ t.scores.lookup m ≠ none →
        (l.foldl (tallyPair force) t).scores.lookup m ≠ none) := by
    intro l
    induction l with
    | nil => exact fun t ht h => h.elim ht id
    | cons pair l ih =>
      intro t ht h
      refine ih _ (fun hm => lookup_tallyPair_ne pair ht (.inl hm)) ?_
      exact h.imp_right fun hm => lookup_tallyPair_ne pair ht (.inr hm)
  exact hrun _ _ (fun hm => absurd hm not_mem_nil) h

theorem addPairsToScores_default (add : UInt64 → UInt64 → UInt64) (pairs : List ScorePair)
    (out : ZsetAddOutcome) (hadded : out.added = t.added)
    (hchanged : out.changed = t.touched.length) :
    ∃ out', addPairsToScores add .default pairs (out, t.scores) =
        .ok (out', (pairs.foldl (tallyPair false) t).scores) ∧
      out'.added = (pairs.foldl (tallyPair false) t).added ∧
      out'.changed = (pairs.foldl (tallyPair false) t).touched.length := by
  induction pairs generalizing out t with
  | nil => exact ⟨out, rfl, hadded, hchanged⟩
  | cons pair pairs ih =>
    have hmatch : zsetAddConditionMatches (t.scores.lookup pair.2) pair.1 .default = true := by
      cases t.scores.lookup pair.2 <;> rfl
    have htarget : zsetAddTarget add .default (t.scores.lookup pair.2) pair.1 = some pair.1 := rfl
    simp only [addPairsToScores, zsetAddPairs, htarget, zsetAddStep, hmatch, if_true] at ih ⊢
    cases hsame : (t.scores.lookup pair.2).any (·.same pair.1) with
    | true =>
      have hnext : (tallyPair false t pair).scores = t.scores := by simp [tallyPair, hsame]
      dsimp [Option.elim]
      nth_rewrite 3 [← hnext]
      refine ih _ ?_ ?_
      · simp [tallyPair, hadded]
      · simp [tallyPair, hsame, hchanged]
    | false =>
      have hnext : (tallyPair false t pair).scores = t.scores.insert pair.2 pair.1 := by
        simp [tallyPair, hsame]
      dsimp [Option.elim]
      rw [← hnext]
      refine ih _ ?_ ?_
      · simp [tallyPair, hadded]
      · simp [tallyPair, hsame, hchanged]

theorem addsUp_tallyPairs (pairs : List ScorePair) (scores : Scores) :
    AddsUp .default scores (lastPairs pairs) (tallyPairs false pairs scores).added
      (tallyPairs false pairs scores).touched.length (tallyPairs false pairs scores).scores := by
  obtain ⟨out, scores', added, changed, hrun, hadded, hchanged, hup⟩ :=
    @addPairsToScores_eq .default rfl (fun x _ => x) (lastPairs pairs) .start scores
  obtain ⟨out', hrun', hadded', hchanged'⟩ := @addPairsToScores_default ⟨0, scores, []⟩
    (fun x _ => x) (lastPairs pairs) .start rfl rfl
  rw [hrun'] at hrun
  cases hrun
  rw [hadded', ZsetAddOutcome.start, Nat.zero_add] at hadded
  rw [hchanged', ZsetAddOutcome.start, Nat.zero_add] at hchanged
  subst hadded hchanged
  exact hup

end

/-! ## 一つずつの ZADD -/

def zaddSpec (add : UInt64 → UInt64 → UInt64) (c : ZsetAddCommand) (v : Visible Scores) :
    Except String Nat × Visible Scores :=
  ((addSpec add c.pairs .default v).1.map (zaddCount false), (addSpec add c.pairs .default v).2)

theorem zaddSpec_foreign (add : UInt64 → UInt64 → UInt64) (c : ZsetAddCommand) (e : Nat)
    (raw : Bytes) : zaddSpec add c (.foreign e raw) = (.error wrongTypeError, .foreign e raw) := rfl

section

variable (add : UInt64 → UInt64 → UInt64) {v : Visible Scores} {e : Nat} {scores : Scores}

theorem zaddSpec_eq (c : ZsetAddCommand) (hparts : v.parts ∅ = some (e, scores)) :
    zaddSpec add c v = (.ok (tallyPairs false c.pairs scores).added,
      v.extend (tallyPairs false c.pairs scores).scores) := by
  obtain ⟨out, hrun, hadded, hchanged⟩ := @addPairsToScores_default ⟨0, scores, []⟩
    add (lastPairs c.pairs) .start rfl rfl
  have hup := addsUp_tallyPairs c.pairs scores
  simp only [zaddSpec, addSpec, hparts]
  rw [hrun]
  exact Prod.ext (congrArg Except.ok hadded) ((hchanged ▸ hup).afterAdd_eq hparts)

theorem zaddKind_grows : zaddKind.Grows where
  packed_ne {c scores} h := by
    have hsome : ∃ m, m ∈ (tallyPairs true c.pairs scores).touched ∨ scores.lookup m ≠ none := by
      rcases h with h | h
      · obtain ⟨m, hm⟩ := exists_mem_of_ne_nil (tallyPairs true c.pairs scores).touched
          (by simpa [zaddKind] using h)
        exact ⟨m, .inl hm⟩
      · obtain ⟨m, hm⟩ := Scores.ne_empty_iff.mp h
        exact ⟨m, .inr hm⟩
    obtain ⟨m, hm⟩ := hsome
    exact Scores.ne_empty_iff.mpr ⟨m, lookup_tallyPairs_ne hm⟩
  split_some h := lookup_tallyPairs_ne h

theorem runOne_zaddSpec (hparts : v.parts ∅ = some (e, scores)) (cs : List ZsetAddCommand) :
    runOne (zaddSpec add) v cs = ((runOne zaddKind.splitScores scores cs).1,
      v.extend (runOne zaddKind.splitScores scores cs).2) := by
  induction cs generalizing v scores with
  | nil => simp [runOne, extend_self hparts]
  | cons c cs ih =>
    simp only [runOne, zaddSpec_eq add c hparts]
    rw [ih (parts_extend hparts _), extend_extend zaddKind_grows.runOne_split_ne]
    rfl

end

/-! ## 一つの key への ZADD の列 -/

def batchPairs (cs : List ZsetAddCommand) : List ScorePair := cs.flatMap fun c => lastPairs c.pairs

/-- 何かが数として変わり、しかもある member で、数として等しい score を書くかどうかで、残る score が違う。 -/
def ResignedZero (stored : Scores) (cs : List ZsetAddCommand) : Prop :=
  (∃ m, (addRun .default (stored.lookup m) (supplied m (batchPairs cs))).changed ≠ 0) ∧
    ∃ m, (addRun .default (stored.lookup m) (supplied m (batchPairs cs))).final ≠
      (supplied m (batchPairs cs)).getLast?.or (stored.lookup m)

open ZsetBatchKind

section

variable {stored : Scores}

theorem addsUp_splitScores (scores : Scores) (cs : List ZsetAddCommand) :
    ∃ added, AddsUp .default scores (batchPairs cs) added (zaddKind.touches scores cs).length
      (runOne zaddKind.splitScores scores cs).2 := by
  induction cs generalizing scores with
  | nil => exact ⟨0, .nil scores⟩
  | cons c cs ih =>
    obtain ⟨added, hup⟩ := ih (tallyPairs false c.pairs scores).scores
    have happend := (addsUp_tallyPairs c.pairs scores).append hup
    rw [← length_append] at happend
    exact ⟨_, happend⟩

theorem touches_ne_nil_iff (scores : Scores) (cs : List ZsetAddCommand) :
    zaddKind.touches scores cs ≠ [] ↔
      ∃ m, (addRun .default (scores.lookup m) (supplied m (batchPairs cs))).changed ≠ 0 := by
  obtain ⟨added, hup⟩ := addsUp_splitScores scores cs
  have hsum := hup.changed_eq ((batchPairs cs).map Prod.snd).toFinset fun pair hp =>
    mem_toFinset.mpr (mem_map_of_mem hp)
  rw [← length_pos_iff_ne_nil, Nat.pos_iff_ne_zero, hsum, Ne, Finset.sum_eq_zero_iff]
  push Not
  refine ⟨fun ⟨m, _, hm⟩ => ⟨m, hm⟩, fun ⟨m, hm⟩ => ⟨m, ?_, hm⟩⟩
  by_contra hnot
  rw [supplied_eq_nil.mpr fun h => hnot (mem_toFinset.mpr h)] at hm
  exact hm rfl

theorem lookup_foldl_of_notMem_touched {m : Text} (pairs : List ScorePair) (t : ZsetTally)
    (h : m ∉ (pairs.foldl (tallyPair false) t).touched) :
    m ∉ t.touched ∧ (pairs.foldl (tallyPair false) t).scores.lookup m = t.scores.lookup m := by
  induction pairs generalizing t with
  | nil => exact ⟨h, rfl⟩
  | cons pair pairs ih =>
    obtain ⟨hnot, hlookup⟩ := ih _ h
    rw [foldl_cons, hlookup]
    cases hsame : (t.scores.lookup pair.2).any (·.same pair.1) with
    | true =>
      simp only [tallyPair, hsame, if_true, Bool.not_false, Bool.and_self] at hnot ⊢
      exact ⟨hnot, trivial⟩
    | false =>
      simp only [tallyPair, hsame, Bool.false_eq_true, if_false, Bool.false_and, mem_append,
        mem_singleton, not_or] at hnot ⊢
      exact ⟨hnot.1, Finmap.lookup_insert_of_ne _ hnot.2⟩

theorem settle_splitScores (scores : Scores) (cs : List ZsetAddCommand) :
    settle scores (runOne zaddKind.splitScores scores cs).2 (zaddKind.touches scores cs) =
      (runOne zaddKind.splitScores scores cs).2 := by
  have huntouched : ∀ (cs : List ZsetAddCommand) (scores : Scores) (m : Text),
      m ∉ zaddKind.touches scores cs →
        (runOne zaddKind.splitScores scores cs).2.lookup m = scores.lookup m := by
    intro cs
    induction cs with
    | nil => exact fun _ _ _ => rfl
    | cons c cs ih =>
      intro scores m hm
      obtain ⟨hhead, htail⟩ := not_or.mp fun h => hm (mem_append.mpr h)
      exact (ih _ m htail).trans (lookup_foldl_of_notMem_touched _ _ hhead).2
  exact settle_eq_current (fun m hm => zaddKind_grows.runOne_split_some (.inl hm))
    (huntouched cs scores)

theorem packedScores_rel {a b : Scores} (h : SameScores a b) (cs : List ZsetAddCommand) :
    (runOne zaddKind.packedScores a cs).1 = (runOne zaddKind.splitScores b cs).1 ∧
      (zaddKind.dirties a cs = true ↔ zaddKind.touches b cs ≠ []) := by
  induction cs generalizing a b with
  | nil => simp [runOne, dirties, touches]
  | cons c cs ih =>
    have hrel := tallyPairs_rel h c.pairs
    obtain ⟨hreplies, hdirty⟩ := ih hrel.scores
    refine ⟨congrArg₂ cons (congrArg Except.ok hrel.added) hreplies, ?_⟩
    simp only [dirties, touches, Bool.or_eq_true, Ne,
      append_eq_nil_iff, not_and_or]
    refine or_congr ?_ hdirty
    simp [zaddKind, hrel.touched]

theorem lookup_packedScores (scores : Scores) (cs : List ZsetAddCommand) (m : Text) :
    (runOne zaddKind.packedScores scores cs).2.lookup m =
      (supplied m (batchPairs cs)).getLast?.or (scores.lookup m) := by
  induction cs generalizing scores with
  | nil => rfl
  | cons c cs ih =>
    refine (ih _).trans ?_
    have hhead : (zaddKind.packedScores c scores).2.lookup m =
        (supplied m (lastPairs c.pairs)).getLast?.or (scores.lookup m) :=
      lookup_foldl_force m (lastPairs c.pairs) ⟨0, scores, []⟩
    have hpairs : batchPairs (c :: cs) = lastPairs c.pairs ++ batchPairs cs := rfl
    rw [hhead, hpairs, supplied_append, getLast?_append, Option.or_assoc]

/-- **詰めたままの ZADD の列が一つずつの実行と同じ表を残すのは、零の符号を書き換えないときである。** -/
theorem packed_eq_split_iff (stored : Scores) (cs : List ZsetAddCommand) :
    (if zaddKind.dirties stored cs then (runOne zaddKind.packedScores stored cs).2 else stored) =
        (runOne zaddKind.splitScores stored cs).2 ↔ ¬ ResignedZero stored cs := by
  obtain ⟨added, hup⟩ := addsUp_splitScores stored cs
  have hdirty := (packedScores_rel (SameScores.refl stored) cs).2
  rw [touches_ne_nil_iff] at hdirty
  rw [ResignedZero, ← hdirty, not_and]
  split
  · next h =>
    rw [imp_iff_right h, not_exists]
    constructor
    · intro heq m
      rw [not_not, ← hup.lookup_eq, ← heq, lookup_packedScores]
    · intro hall
      refine Finmap.ext_lookup fun m => ?_
      rw [lookup_packedScores, hup.lookup_eq, not_not.mp (hall m)]
  · next h =>
    refine iff_of_true ?_ fun h' => absurd h' h
    have hnil : zaddKind.touches stored cs = [] := by
      by_contra hne
      exact h (hdirty.mpr ((touches_ne_nil_iff stored cs).mp hne))
    rw [hnil] at hup
    exact hup.eq_of_changed_eq_zero.symm

end

/-! ## ZADD の列の比較 -/

section

variable (add : UInt64 → UInt64 → UInt64) (now : Nat) (cmds : List ZsetAddCommand)
  {s : ZsetStore}

def ZaddRunsAgree (s : ZsetStore) : Prop :=
  (zaddKind.run now cmds s).1 = (runZadds add now cmds s).1 ∧
    ∀ key, ((zaddKind.run now cmds s).2.slots key).view zsetLayout now =
      ((runZadds add now cmds s).2.slots key).view zsetLayout now

theorem runZadds_refines (hs : s.Satisfies ZsetOk) :
    Numbered.Runs (KeyRecords.view zsetLayout now) ZsetOk (runZadds add now cmds s)
      (runKeyed ZsetAddCommand.key (zaddSpec add) (fun key => (s.slots key).view zsetLayout now)
        cmds) :=
  Numbered.execAll_refines hs (fun _ _ _ h hle => h.mono hle)
    (fun c n recs hok => by
      obtain ⟨hreply, hview, hok'⟩ := @zsetAdd_spec add .default now n recs c.pairs hok
      exact ⟨congrArg (Except.map (zaddCount false)) hreply, hview, hok'⟩) cmds

theorem zadd_key_runs (v : Visible Scores) (cs : List ZsetAddCommand) :
    (runOne zaddKind.packedBatchStep (packedStart v) cs).1 = (runOne (zaddSpec add) v cs).1 ∧
      (runOne zaddKind.splitBatchStep (splitStart v) cs).1 = (runOne (zaddSpec add) v cs).1 ∧
      splitResult v (runOne zaddKind.splitBatchStep (splitStart v) cs).2 =
        (runOne (zaddSpec add) v cs).2 ∧
      (packedResult v (runOne zaddKind.packedBatchStep (packedStart v) cs).2 =
          (runOne (zaddSpec add) v cs).2 ↔
        ∀ e scores, v.parts ∅ = some (e, scores) → ¬ ResignedZero scores cs) := by
  cases hparts : v.parts ∅ with
  | none =>
    obtain ⟨e, raw, rfl⟩ := parts_eq_none.mp hparts
    obtain ⟨hpacked, hsplit⟩ := zaddKind.runOne_foreign e raw cs
    rw [hpacked, hsplit, runOne_fixed fun c => zaddSpec_foreign add c e raw]
    exact ⟨rfl, rfl, rfl, iff_of_true rfl nofun⟩
  | some p =>
    obtain ⟨e, stored⟩ := p
    rw [runOne_zaddSpec add hparts, zaddKind_grows.packedResult_eq hparts,
      zaddKind_grows.splitResult_eq hparts, settle_splitScores]
    refine ⟨?_, ?_, rfl, ?_⟩
    · simp only [packedStart, hparts, runOne_packedBatchStep]
      exact (packedScores_rel (SameScores.refl stored) cs).1
    · simp [splitStart, hparts, runOne_splitBatchStep]
    · rw [extend_eq_iff hparts, packed_eq_split_iff]
      simp

/-- **まとめた ZADD が一つずつの ZADD と一致する条件。** -/
theorem zaddRuns_agree_iff (hs : s.Satisfies ZsetOk) : ZaddRunsAgree add now cmds s ↔
      (zaddKind.takesPacked now cmds s = true → ∀ key e scores,
        ((s.slots key).view zsetLayout now).parts ∅ = some (e, scores) →
          ¬ ResignedZero scores (addressedTo ZsetAddCommand.key key cmds)) := by
  obtain ⟨hreplies, hviews, -⟩ := runZadds_refines add now cmds hs
  have hkey : ∀ key, _ := fun key => zadd_key_runs add ((s.slots key).view zsetLayout now)
    (addressedTo ZsetAddCommand.key key cmds)
  unfold ZaddRunsAgree
  rw [hreplies]
  simp only [hviews, runKeyed_snd]
  cases htakes : zaddKind.takesPacked now cmds s with
  | false =>
    obtain ⟨hreplies', -, hviews'⟩ := zaddKind.run_of_not_takesPacked now cmds hs htakes
    refine iff_of_true ⟨?_, fun key => ?_⟩ fun h => by cases h
    · rw [hreplies']
      exact runKeyed_replies_eq_iff.mpr fun key => (hkey key).2.1
    · rw [(hviews' key).1, splitRun, runKeyed_snd]
      exact (hkey key).2.2.1
  | true =>
    obtain ⟨hreplies', -, hviews'⟩ := zaddKind.run_of_takesPacked now cmds hs htakes
    rw [hreplies']
    simp only [(hviews' _).1, packedRun, runKeyed_snd, forall_const]
    refine (and_iff_right ?_).trans (forall_congr' fun key => (hkey key).2.2.2)
    exact runKeyed_replies_eq_iff.mpr fun key => (hkey key).1

end

/-! ## 一つずつの実行 -/

namespace ZsetBatchKind

variable {γ ρ : Type} (kind : ZsetBatchKind γ ρ)

def eachStep (c : γ) (st : Visible Scores × Bool) : Except String ρ × (Visible Scores × Bool) :=
  let packed := kind.packedBatchStep c (packedStart st.1)
  if st.2 || overflowed packed.2 then
    let split := kind.splitBatchStep c (splitStart st.1)
    (split.1, splitResult st.1 split.2, (splitResult st.1 split.2).isValue)
  else (packed.1, packedResult st.1 packed.2, st.2)

theorem eachStep_eq {kind : ZsetBatchKind γ ρ} (hgrow : kind.Grows) {v : Visible Scores} {e : Nat}
    {scores : Scores} (hparts : v.parts ∅ = some (e, scores)) (c : γ) (split : Bool) :
    kind.eachStep c (v, split) = if split || !packedZsetFits (kind.packedStep c scores).2.1 then
        let next := v.extend (settle scores (kind.splitStep c scores).2.1
          (kind.splitStep c scores).2.2)
        ((kind.splitStep c scores).1, next, next.isValue)
      else ((kind.packedStep c scores).1, v.extend (if (kind.packedStep c scores).2.2 then
        (kind.packedStep c scores).2.1 else scores), split) := by
  have hpacked := hgrow.packedResult_eq hparts [c]
  have hsplit := hgrow.splitResult_eq hparts [c]
  simp only [runOne, dirties, touches, Bool.or_false, append_nil] at hpacked hsplit
  have hover : overflowed (kind.packedBatchStep c (packedStart v)).2 =
      !packedZsetFits (kind.packedStep c scores).2.1 := by
    simp [packedStart, hparts, packedBatchStep, overflowed]
  have hreply : (kind.packedBatchStep c (packedStart v)).1 = (kind.packedStep c scores).1 := by
    simp [packedStart, hparts, packedBatchStep]
  have hreply' : (kind.splitBatchStep c (splitStart v)).1 = (kind.splitStep c scores).1 := by
    simp [splitStart, hparts, splitBatchStep]
  simp only [eachStep, hover, hreply, hreply', hpacked, hsplit]
  rfl

def shape (now : Nat) (s : ZsetStore) (key : Bytes) : Visible Scores × Bool :=
  ((s.slots key).view zsetLayout now, isSplitZset now (s.slots key))

theorem takesPacked_single (now : Nat) (c : γ) (s : ZsetStore) :
    kind.takesPacked now [c] s = !((shape now s (kind.key c)).2 ||
      overflowed (kind.packedBatchStep c (packedStart (shape now s (kind.key c)).1)).2) := by
  simp [takesPacked, keys, packedRun, runKeyed, shape, update_self, Bool.not_or]

theorem run_single (now : Nat) {s : ZsetStore} (hs : s.Satisfies ZsetOk) (c : γ) :
    (kind.run now [c] s).1 = [(kind.eachStep c (shape now s (kind.key c))).1] ∧
      (kind.run now [c] s).2.Satisfies ZsetOk ∧
      shape now (kind.run now [c] s).2 = update (shape now s) (kind.key c)
        (kind.eachStep c (shape now s (kind.key c))).2 := by
  have hmem : ∀ key, key ∈ kind.keys [c] ↔ key = kind.key c := by simp [keys]
  have hsingle := kind.takesPacked_single now c s
  unfold eachStep
  dsimp only
  split
  · next hsplits =>
    obtain ⟨hreplies, hok, hviews⟩ := kind.run_of_not_takesPacked now [c] hs
      (hsingle.trans (congrArg Bool.not hsplits))
    refine ⟨hreplies, hok, funext fun key => ?_⟩
    by_cases hkey : key = kind.key c
    · subst hkey
      obtain ⟨hview, hvalue, -⟩ := hviews (kind.key c)
      have hstate : (kind.splitRun now [c] s).2 (kind.key c) =
          (kind.splitBatchStep c (splitStart (shape now s (kind.key c)).1)).2 := by
        simp [splitRun, runKeyed, shape]
      rw [update_self, shape, hvalue ((hmem _).mpr rfl), hview, hstate]
      rfl
    · rw [update_of_ne hkey, shape, (hviews key).2.2 fun h => hkey ((hmem key).mp h)]
      rfl
  · next hkeeps =>
    obtain ⟨hreplies, hok, hviews⟩ := kind.run_of_takesPacked now [c] hs
      (hsingle.trans (congrArg Bool.not (Bool.eq_false_iff.mpr hkeeps)))
    refine ⟨hreplies, hok, funext fun key => ?_⟩
    obtain ⟨hview, hsplit⟩ := hviews key
    rw [shape, hview, hsplit]
    by_cases hkey : key = kind.key c
    · subst hkey
      have hstate : (kind.packedRun now [c] s).2 (kind.key c) =
          (kind.packedBatchStep c (packedStart (shape now s (kind.key c)).1)).2 := by
        simp [packedRun, runKeyed, shape]
      rw [update_self, hstate]
      rfl
    · have hstate : (kind.packedRun now [c] s).2 key =
          packedStart ((s.slots key).view zsetLayout now) := by
        simp [packedRun, runKeyed, hkey]
      rw [update_of_ne hkey, hstate, packedResult_start]
      rfl

end ZsetBatchKind
open ZsetBatchKind

/-! ## 一つの key への ZINCRBY の列 -/

/--
一つの key への ZINCRBY を一つずつ実行する。詰めた間は score を必ず書き、分けた後は数として等しい score を
書かない。
-/
def incrEachStep (add : UInt64 → UInt64 → UInt64) (c : ZsetIncrCommand) (st : Scores × Bool) :
    Except String Score × (Scores × Bool) :=
  match incrNext add c st.1 with
  | none => (.error nanResultError, st)
  | some next =>
    (.ok next,
      if st.2 && (st.1.lookup c.member).any (·.same next) then st.1
        else st.1.insert c.member next,
      st.2 || !packedZsetFits (st.1.insert c.member next))

def incrAlways (add : UInt64 → UInt64 → UInt64) (c : ZsetIncrCommand) (scores : Scores) :
    Except String Score × Scores :=
  match incrNext add c scores with
  | none => (.error nanResultError, scores)
  | some next => (.ok next, scores.insert c.member next)

def incrTouches (add : UInt64 → UInt64 → UInt64) : Scores → List ZsetIncrCommand → List Text :=
  (incrKind add).touches

/-- 手元の score を必ず進めた返事が一つずつの返事に等しく、数として変わった member だけを書いた表も等しい。 -/
def IncrAgrees (add : UInt64 → UInt64 → UInt64) (split : Bool) (stored : Scores)
    (cs : List ZsetIncrCommand) : Prop :=
  (runOne (incrAlways add) stored cs).1 = (runOne (incrEachStep add) (stored, split) cs).1 ∧
    ∀ m, (if m ∈ incrTouches add stored cs then (runOne (incrAlways add) stored cs).2.lookup m
        else stored.lookup m) =
      (runOne (incrEachStep add) (stored, split) cs).2.1.lookup m

section

variable (add : UInt64 → UInt64 → UInt64)

theorem incr_packedScores : (incrKind add).packedScores = incrAlways add := by
  funext c scores
  unfold packedScores incrKind incrAlways
  dsimp only
  split <;> rfl

theorem incr_packedStep (c : ZsetIncrCommand) (scores : Scores) :
    ((incrKind add).packedStep c scores).2.1 = (incrAlways add c scores).2 :=
  congrArg Prod.snd (congrFun (congrFun (incr_packedScores add) c) scores)

theorem incr_splitScores : (incrKind add).splitScores = incrAlways add := by
  funext c scores
  unfold splitScores incrKind incrAlways
  dsimp only
  split <;> rfl

theorem incrKind_grows : (incrKind add).Grows where
  packed_ne {c scores} h := by
    unfold incrKind at h ⊢
    dsimp only at h ⊢
    split
    · next hnext =>
      rw [hnext] at h
      exact h.resolve_left Bool.false_ne_true
    · exact Scores.ne_empty_iff.mpr ⟨c.member, by simp⟩
  split_some {c scores m} h := by
    unfold incrKind at h ⊢
    dsimp only at h ⊢
    split
    · next hnext =>
      rw [hnext] at h
      exact h.resolve_left not_mem_nil
    · next next hnext =>
      rw [hnext] at h
      refine Scores.lookup_insert_ne.mpr (h.imp_left fun hmem => ?_)
      dsimp only at hmem
      split at hmem
      · cases hmem
      · exact mem_singleton.mp hmem

theorem packedZsetFits_congr {scores scores' : Scores} (h : scores.keys = scores'.keys) :
    packedZsetFits scores = packedZsetFits scores' := by
  have hkeys : scores.entries.map Sigma.fst = scores'.entries.map Sigma.fst := congrArg Finset.val h
  have hfits : ∀ scores : Scores, packedZsetFits scores = packedFits 64 8192 23
      (fun m => decide (m.bytes.length < 256 ^ 4)) (fun m => 12 + m.bytes.length)
      (scores.entries.map Sigma.fst) := by
    intro scores
    simp only [packedZsetFits, packedFits, decide_eq_true_eq, Multiset.card_map,
      Multiset.map_map, Multiset.forall_mem_map_iff]
    rfl
  rw [hfits, hfits, hkeys]

theorem packedZsetFits_insert_of_mem {scores : Scores} {m : Text} (h : scores.lookup m ≠ none)
    (s : Score) : packedZsetFits (scores.insert m s) = packedZsetFits scores := by
  refine packedZsetFits_congr (Finset.ext fun n => ?_)
  rw [Finmap.mem_keys, Finmap.mem_keys, Finmap.mem_insert, or_iff_right_iff_imp]
  rintro rfl
  exact Finmap.mem_iff.mpr (Option.ne_none_iff_exists'.mp h)

structure IncrRel (v₀ : Visible Scores) (st : Visible Scores × Bool) (t : Scores × Bool) :
    Prop where
  view : st.1 = v₀.extend t.1
  split : st.2 = t.2
  fits : t.2 = false → packedZsetFits t.1 = true
  value : t.2 = true → st.1.isValue = true

theorem incrEachStep_rel {v₀ : Visible Scores} {e : Nat} {stored : Scores}
    (hparts : v₀.parts ∅ = some (e, stored)) (c : ZsetIncrCommand) {st : Visible Scores × Bool}
    {t : Scores × Bool} (h : IncrRel v₀ st t) :
    ((incrKind add).eachStep c st).1 = (incrEachStep add c t).1 ∧
      IncrRel v₀ ((incrKind add).eachStep c st).2 (incrEachStep add c t).2 := by
  obtain ⟨v, split⟩ := st
  obtain ⟨scores, split'⟩ := t
  obtain ⟨hview, hsplit, hfits, hvalue⟩ := h
  dsimp only at hview hsplit hfits hvalue
  subst hsplit
  have hv : v.parts ∅ = some (e, scores) := hview ▸ parts_extend hparts scores
  have hextend : ∀ next, v.extend (scores.insert c.member next) =
      .value e (scores.insert c.member next) ∧
      v₀.extend (scores.insert c.member next) = .value e (scores.insert c.member next) := by
    intro next
    have hne : scores.insert c.member next ≠ ∅ := Scores.ne_empty_iff.mpr ⟨c.member, by simp⟩
    exact ⟨extend_of_ne_empty hv hne, extend_of_ne_empty hparts hne⟩
  rw [eachStep_eq (incrKind_grows add) hv]
  cases hnext : incrNext add c scores with
  | none =>
    -- 失敗した命令は何も変えない
    have hpacked : (incrKind add).packedStep c scores = (.error nanResultError, scores, false) := by
      simp [incrKind, hnext]
    have hsplit : (incrKind add).splitStep c scores = (.error nanResultError, scores, []) := by
      simp [incrKind, hnext]
    have heach : incrEachStep add c (scores, split) = (.error nanResultError, scores, split) := by
      simp [incrEachStep, hnext]
    rw [hpacked, hsplit, heach]
    have hsame : v.extend scores = v := extend_self hv
    cases split with
    | true => exact ⟨rfl, hsame.trans hview, (congrArg _ hsame).trans (hvalue rfl), hfits,
        fun h => (congrArg _ hsame).trans (hvalue h)⟩
    | false =>
      rw [hfits rfl]
      exact ⟨rfl, hsame.trans hview, rfl, hfits, nofun⟩
  | some next =>
    have hpacked : (incrKind add).packedStep c scores =
        (.ok next, scores.insert c.member next, true) := by
      simp [incrKind, hnext]
    have hsplit : (incrKind add).splitStep c scores = (.ok next, scores.insert c.member next,
        if (scores.lookup c.member).any (·.same next) then [] else [c.member]) := by
      simp [incrKind, hnext]
    have hsettle : settle scores (scores.insert c.member next) [c.member] =
        scores.insert c.member next := by
      simp [settle]
    rw [hpacked, hsplit]
    simp only [incrEachStep, hnext, if_true]
    cases split with
    | true =>
      cases (scores.lookup c.member).any (·.same next) with
      | true =>
        have hsame : v.extend scores = v := extend_self hv
        exact ⟨rfl, hsame.trans hview, (congrArg _ hsame).trans (hvalue rfl), nofun,
          fun _ => (congrArg _ hsame).trans (hvalue rfl)⟩
      | false =>
        simp only [Bool.true_or, if_true, Bool.false_eq_true, if_false, Bool.and_false, hsettle,
          (hextend next).1]
        exact ⟨trivial, (hextend next).2.symm, rfl, nofun, fun _ => rfl⟩
    | false =>
      cases hover : packedZsetFits (scores.insert c.member next) with
      | true =>
        simp only [Bool.not_true, Bool.or_false, Bool.false_eq_true, if_false, Bool.false_and,
          (hextend next).1]
        exact ⟨trivial, (hextend next).2.symm, rfl, fun _ => hover, fun _ => rfl⟩
      | false =>
        -- 収まらなくなったのだから、member は新しい
        have hnew : scores.lookup c.member = none := by
          by_contra hold
          rw [packedZsetFits_insert_of_mem hold, hfits rfl] at hover
          cases hover
        simp only [hnew, Option.any_none, Bool.not_false, Bool.or_true, if_true,
          Bool.false_eq_true, if_false, Bool.false_and, hsettle, (hextend next).1]
        exact ⟨trivial, (hextend next).2.symm, rfl, nofun, fun _ => rfl⟩

theorem runOne_incrEachStep_packed (cs : List ZsetIncrCommand) (scores : Scores)
    (h : (incrKind add).overflows scores cs = false) :
    runOne (incrEachStep add) (scores, false) cs =
      ((runOne (incrAlways add) scores cs).1, (runOne (incrAlways add) scores cs).2, false) := by
  induction cs generalizing scores with
  | nil => rfl
  | cons c cs ih =>
    obtain ⟨hfits, hrest⟩ := Bool.or_eq_false_iff.mp h
    have hstep : incrEachStep add c (scores, false) =
        ((incrAlways add c scores).1, (incrAlways add c scores).2, false) := by
      simp only [incrKind, incrEachStep, incrAlways] at hfits ⊢
      cases hnext : incrNext add c scores with
      | none => rfl
      | some next =>
        rw [hnext] at hfits
        simp [hfits]
    rw [incr_packedStep] at hrest
    simp [runOne, hstep, ih _ hrest]

theorem runOne_incrAlways_of_clean (cs : List ZsetIncrCommand) (scores : Scores)
    (h : (incrKind add).dirties scores cs = false) :
    (runOne (incrAlways add) scores cs).2 = scores := by
  induction cs generalizing scores with
  | nil => rfl
  | cons c cs ih =>
    obtain ⟨hclean, hrest⟩ := Bool.or_eq_false_iff.mp h
    simp only [incrKind] at hclean
    cases hnext : incrNext add c scores with
    | some next =>
      rw [hnext] at hclean
      cases hclean
    | none =>
      have hsame : (incrAlways add c scores).2 = scores := by simp [incrAlways, hnext]
      rw [incr_packedStep, hsame] at hrest
      simp [runOne, hsame, ih _ hrest]

theorem settle_eq_iff (stored : Scores) (cs : List ZsetIncrCommand) (scores : Scores) :
    settle stored (runOne (incrAlways add) stored cs).2 ((incrKind add).touches stored cs) =
        scores ↔
      ∀ m, (if m ∈ incrTouches add stored cs then (runOne (incrAlways add) stored cs).2.lookup m
        else stored.lookup m) = scores.lookup m := by
  have hlookup := fun m => @lookup_settle_of_some stored (runOne (incrAlways add) stored cs).2
    ((incrKind add).touches stored cs) (fun n hn => incr_splitScores add ▸
      (incrKind_grows add).runOne_split_some (.inl hn)) m
  refine ⟨fun h m => (hlookup m).symm.trans (h ▸ rfl), fun h => ?_⟩
  exact Finmap.ext_lookup fun m => (hlookup m).trans (h m)

theorem incr_key_runs {v : Visible Scores} {split : Bool} (hsplit : split = true → v.isValue = true)
    (hfits : ∀ e scores, v.parts ∅ = some (e, scores) → split = false →
      packedZsetFits scores = true) (cs : List ZsetIncrCommand) :
    ((runOne (incrKind add).splitBatchStep (splitStart v) cs).1 =
          (runOne (incrKind add).eachStep (v, split) cs).1 ∧
        splitResult v (runOne (incrKind add).splitBatchStep (splitStart v) cs).2 =
          (runOne (incrKind add).eachStep (v, split) cs).2.1 ↔
      ∀ e scores, v.parts ∅ = some (e, scores) → IncrAgrees add split scores cs) ∧
    (split = false → overflowed
        (runOne (incrKind add).packedBatchStep (packedStart v) cs).2 = false →
      (runOne (incrKind add).packedBatchStep (packedStart v) cs).1 =
          (runOne (incrKind add).eachStep (v, split) cs).1 ∧
        packedResult v (runOne (incrKind add).packedBatchStep (packedStart v) cs).2 =
          (runOne (incrKind add).eachStep (v, split) cs).2.1) := by
  cases hparts : v.parts ∅ with
  | none =>
    obtain ⟨e, raw, rfl⟩ := parts_eq_none.mp hparts
    obtain rfl : split = false := Bool.eq_false_iff.mpr fun h => by (cases hsplit h)
    have heach : ∀ c, (incrKind add).eachStep c (.foreign e raw, false) =
      (.error wrongTypeError, .foreign e raw, false) := fun _ => rfl
    obtain ⟨hpacked, hsplit⟩ := (incrKind add).runOne_foreign e raw cs
    rw [hpacked, hsplit, runOne_fixed heach]
    exact ⟨iff_of_true ⟨rfl, rfl⟩ nofun, fun _ _ => ⟨rfl, rfl⟩⟩
  | some p =>
    obtain ⟨e, stored⟩ := p
    obtain ⟨hreplies, hrel⟩ := @runOne_simulates _ _ _ _ (incrKind add).eachStep (incrEachStep add)
      (IncrRel v) cs (v, split) (stored, split)
      (fun c st t h => incrEachStep_rel add hparts c h)
      ⟨(extend_self hparts).symm, rfl, hfits e stored hparts, hsplit⟩
    rw [hreplies, hrel.view, (incrKind_grows add).packedResult_eq hparts,
      (incrKind_grows add).splitResult_eq hparts, incr_splitScores, incr_packedScores]
    refine ⟨?_, fun hnot hover => ?_⟩
    · rw [extend_eq_iff hparts, settle_eq_iff]
      simp [splitStart, hparts, runOne_splitBatchStep, incr_splitScores, IncrAgrees]
    · simp only [packedStart, hparts, runOne_packedBatchStep, incr_packedScores,
        overflowed, Bool.false_or] at hover ⊢
      rw [hnot, runOne_incrEachStep_packed add cs stored hover]
      refine ⟨rfl, congrArg v.extend ?_⟩
      cases hdirty : (incrKind add).dirties stored cs with
      | true => exact if_pos rfl
      | false => exact (runOne_incrAlways_of_clean add cs stored hdirty).symm

end

/-! ## ZINCRBY の列の比較 -/

section

variable (add : UInt64 → UInt64 → UInt64) (now : Nat) {s : ZsetStore}

def ZincrRunsAgree (cmds : List ZsetIncrCommand) (s : ZsetStore) : Prop :=
  ((incrKind add).run now cmds s).1 = (runZincrs add now cmds s).1 ∧
    ∀ key, (((incrKind add).run now cmds s).2.slots key).view zsetLayout now =
      ((runZincrs add now cmds s).2.slots key).view zsetLayout now

theorem isSplitZset_isValue {recs : ZsetRecords} (h : isSplitZset now recs = true) :
    (recs.view zsetLayout now).isValue = true := by
  unfold isSplitZset at h
  split at h
  · next hlive =>
    rw [KeyRecords.view, hlive]
    rfl
  · cases h

theorem fits_of_not_split {n e : Nat} {recs : ZsetRecords} {scores : Scores} (hok : ZsetOk n recs)
    (h : isSplitZset now recs = false)
    (hparts : (recs.view zsetLayout now).parts ∅ = some (e, scores)) :
    packedZsetFits scores = true := by
  unfold KeyRecords.view at hparts
  unfold isSplitZset at h
  cases hlive : recs.live now with
  | none =>
    rw [hlive] at hparts
    cases hparts
    rfl
  | some record =>
    rw [hlive] at hparts h
    cases record with
    | packed e scores =>
      cases hparts
      exact hok.packed_fits (KeyRecords.live_eq_some.mp hlive).1
    | split e ver info => cases h
    | foreign e raw => cases hparts

/-- **まとめた ZINCRBY が一つずつの ZINCRBY と一致する条件。** -/
theorem zincrRuns_agree_iff (cmds : List ZsetIncrCommand) (hs : s.Satisfies ZsetOk) :
    ZincrRunsAgree add now cmds s ↔ ((incrKind add).takesPacked now cmds s = false → ∀ key e scores,
        ((s.slots key).view zsetLayout now).parts ∅ = some (e, scores) →
          IncrAgrees add (isSplitZset now (s.slots key)) scores
            (addressedTo ZsetIncrCommand.key key cmds)) := by
  obtain ⟨hreplies, hshape⟩ := oneByOne_refines (shape now)
    (fun c s hs => (incrKind add).run_single now (s := s) hs c) cmds hs
  have hviews : ∀ key, ((runZincrs add now cmds s).2.slots key).view zsetLayout now =
      (runOne (incrKind add).eachStep (shape now s key)
        (addressedTo ZsetIncrCommand.key key cmds)).2.1 := by
    intro key
    rw [← runKeyed_snd]
    exact congrArg Prod.fst (congrFun hshape key)
  have hkey : ∀ key, _ := fun key => @incr_key_runs add ((s.slots key).view zsetLayout now)
    (isSplitZset now (s.slots key)) (isSplitZset_isValue now)
    (fun e scores hparts hnot => fits_of_not_split now (hs key) hnot hparts)
    (addressedTo ZsetIncrCommand.key key cmds)
  unfold ZincrRunsAgree
  simp only [hviews]
  rw [runZincrs, hreplies]
  cases htakes : (incrKind add).takesPacked now cmds s with
  | false =>
    obtain ⟨hreplies', -, hviews'⟩ := (incrKind add).run_of_not_takesPacked now cmds hs htakes
    rw [hreplies']
    simp only [(hviews' _).1, splitRun, runKeyed_snd, forall_const]
    rw [runKeyed_replies_eq_iff, ← forall_and]
    exact forall_congr' fun key => (hkey key).1
  | true =>
    obtain ⟨hreplies', -, hviews'⟩ := (incrKind add).run_of_takesPacked now cmds hs htakes
    refine iff_of_true ?_ fun h => by cases h
    rw [hreplies']
    simp only [(hviews' _).1, packedRun, runKeyed_snd]
    rw [runKeyed_replies_eq_iff, ← forall_and]
    intro key
    by_cases hmem : key ∈ (incrKind add).keys cmds
    · have hkeep := all_eq_true.mp htakes key hmem
      rw [Bool.and_eq_true, Bool.not_eq_true', Bool.not_eq_true', packedRun,
        runKeyed_snd] at hkeep
      exact (hkey key).2 hkeep.1 hkeep.2
    · have hnil : addressedTo ZsetIncrCommand.key key cmds = [] :=
        addressedTo_eq_nil.mpr fun h => hmem ((incrKind add).mem_keys.mpr h)
      have hnil' : addressedTo (incrKind add).key key cmds = [] := hnil
      rw [hnil, hnil']
      exact ⟨rfl, packedResult_start _⟩

end

end Onedis.Store
