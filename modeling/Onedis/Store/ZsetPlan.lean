import Onedis.Store.ZsetHistory

/-!
# 並行に実行する zset の命令の判定

一つの命令が、何を読んで、返事と書く内容をどう決めるか。

* `ZsetPut.split_congr` — 分けた zset での判定は、命令に出てくる member の score だけで決まる

命令は読んだ値から書く内容を決め、書くときには読んだ値が変わっていないことだけを確かめる。だから、判定が何に
よるかを述べておけば、間に入るほかの task の書き込みを無視できる。
-/

namespace Onedis.Store

open Infra List KeyRecords Visible Prod
open Codec (wrongTypeError)

/-! ## 選択肢つきの ZADD -/

structure ZsetAddRequest where
  key : Bytes
  pairs : List ScorePair
  options : ZsetAddOptions
  deriving DecidableEq

def addPairsRecording : (UInt64 → UInt64 → UInt64) → ZsetAddOptions → List ScorePair →
    ZsetAddOutcome × Scores × List Text → Except String (ZsetAddOutcome × Scores × List Text) :=
  zsetAddPairs (fun s m => s.1.lookup m) fun s m score => (s.1.insert m score, s.2 ++ [m])

def addKind (add : UInt64 → UInt64 → UInt64) : ZsetBatchKind ZsetAddRequest ZsetAddOutcome where
  key := ZsetAddRequest.key
  packedStep c scores :=
    match addPairsToScores add c.options (lastPairs c.pairs) (.start, scores) with
    | .error msg => (.error msg, scores, false)
    | .ok (out, scores') => (.ok out, scores', out.changed != 0)
  splitStep c scores :=
    match addPairsRecording add c.options (lastPairs c.pairs) (.start, scores, []) with
    | .error msg => (.error msg, scores, [])
    | .ok (out, scores', touched) => (.ok out, scores', touched)

/-! ## 一つの key への命令の列 -/

def AgreeOn (members : List Text) (a b : Scores) : Prop := ∀ m ∈ members, a.lookup m = b.lookup m

instance (members : List Text) (a b : Scores) : Decidable (AgreeOn members a b) :=
  inferInstanceAs (Decidable (∀ m ∈ members, _))

namespace ZsetBatchKind

variable {γ ρ : Type} (kind : ZsetBatchKind γ ρ)

def packedPlan (cs : List γ) (content : Scores) : List (Except String ρ) × Scores × Bool :=
  ((runOne kind.packedScores content cs).1, (runOne kind.packedScores content cs).2,
    kind.dirties content cs)

def splitPlan (cs : List γ) (content : Scores) : List (Except String ρ) × Scores × List Text :=
  ((runOne kind.splitScores content cs).1, (runOne kind.splitScores content cs).2,
    kind.touches content cs)

structure Local (members : γ → List Text) : Prop where
  touched_mem : ∀ {c scores m}, m ∈ (kind.splitStep c scores).2.2 → m ∈ members c
  congr : ∀ {c a b} {all : List Text}, (∀ m ∈ members c, m ∈ all) → AgreeOn all a b →
    (kind.splitStep c a).1 = (kind.splitStep c b).1 ∧
      (kind.splitStep c a).2.2 = (kind.splitStep c b).2.2 ∧
      AgreeOn all (kind.splitStep c a).2.1 (kind.splitStep c b).2.1

section

variable {kind} {members : γ → List Text} (h : kind.Local members) {cs : List γ} {a b : Scores}

include h

theorem Local.touches_mem {m : Text} (hm : m ∈ kind.touches a cs) : m ∈ cs.flatMap members := by
  induction cs generalizing a with
  | nil => cases hm
  | cons c cs ih =>
    rw [flatMap_cons, mem_append]
    exact (mem_append.mp hm).imp h.touched_mem ih

theorem Local.splitPlan_congr {all : List Text} (hall : ∀ m ∈ cs.flatMap members, m ∈ all)
    (hab : AgreeOn all a b) :
    (kind.splitPlan cs a).1 = (kind.splitPlan cs b).1 ∧
      (kind.splitPlan cs a).2.2 = (kind.splitPlan cs b).2.2 ∧
      AgreeOn all (kind.splitPlan cs a).2.1 (kind.splitPlan cs b).2.1 := by
  induction cs generalizing a b with
  | nil => exact ⟨rfl, rfl, hab⟩
  | cons c cs ih =>
    rw [flatMap_cons] at hall
    obtain ⟨hreply, htouched, hnext⟩ := h.congr (fun m hm => hall m (mem_append_left _ hm)) hab
    obtain ⟨hreplies, htouches, hfinal⟩ := ih (fun m hm => hall m (mem_append_right _ hm)) hnext
    exact ⟨congrArg₂ cons hreply hreplies, congrArg₂ (· ++ ·) htouched htouches, hfinal⟩

end

end ZsetBatchKind
open ZsetBatchKind

section

variable {all : List Text} {a b : Scores}

theorem AgreeOn.insert (h : AgreeOn all a b) (m : Text) (s : Score) :
    AgreeOn all (a.insert m s) (b.insert m s) := by
  intro n hn
  by_cases hm : n = m
  · rw [hm, Finmap.lookup_insert, Finmap.lookup_insert]
  · rw [Finmap.lookup_insert_of_ne _ hm, Finmap.lookup_insert_of_ne _ hm]
    exact h n hn

end

/-! ## ZADD の判定が読む member -/

section

variable {add : UInt64 → UInt64 → UInt64} {o : ZsetAddOptions}

theorem addPairsRecording_scores (pairs : List ScorePair) (out : ZsetAddOutcome) (scores : Scores)
    (touched : List Text) :
    (addPairsRecording add o pairs (out, scores, touched)).map (fun r => (r.1, r.2.1)) =
      addPairsToScores add o pairs (out, scores) := by
  induction pairs generalizing out scores touched with
  | nil => rfl
  | cons pair pairs ih =>
    obtain ⟨input, m⟩ := pair
    simp only [addPairsRecording, addPairsToScores, zsetAddPairs] at ih ⊢
    cases zsetAddTarget add o (scores.lookup m) input with
    | none => rfl
    | some score =>
      dsimp only
      cases (zsetAddStep o (scores.lookup m) score out).2 with
      | none => exact ih _ _ _
      | some s => exact ih _ _ _

structure Recorded (scores : Scores) (touched : List Text) (scores' : Scores)
    (touched' : List Text) : Prop where
  untouched : ∀ m, m ∉ touched' → m ∉ touched ∧ scores'.lookup m = scores.lookup m
  touched : ∀ m, m ∈ touched' → m ∈ touched ∨ scores'.lookup m ≠ none
  kept : ∀ m, scores.lookup m ≠ none → scores'.lookup m ≠ none

theorem Recorded.refl (scores : Scores) (touched : List Text) :
    Recorded scores touched scores touched :=
  ⟨fun _ h => ⟨h, rfl⟩, fun _ h => .inl h, fun _ h => h⟩

theorem Recorded.trans {a b c : Scores} {l l' l'' : List Text} (h : Recorded a l b l')
    (h' : Recorded b l' c l'') : Recorded a l c l'' where
  untouched m hm := by
    obtain ⟨hl, hb⟩ := h'.untouched m hm
    obtain ⟨hl', ha⟩ := h.untouched m hl
    exact ⟨hl', hb.trans ha⟩
  touched m hm := by
    rcases h'.touched m hm with hl | hc
    · exact (h.touched m hl).imp_right (h'.kept m)
    · exact .inr hc
  kept m hm := h'.kept m (h.kept m hm)

theorem Recorded.insert (scores : Scores) (touched : List Text) (m : Text) (s : Score) :
    Recorded scores touched (scores.insert m s) (touched ++ [m]) where
  untouched n hn := by
    obtain ⟨hl, hm⟩ := not_or.mp fun h => hn (mem_append.mpr h)
    exact ⟨hl, Finmap.lookup_insert_of_ne _ fun h => hm (mem_singleton.mpr h)⟩
  touched n hn := by
    refine (mem_append.mp hn).imp_right fun hm => ?_
    exact Scores.lookup_insert_ne.mpr (.inl (mem_singleton.mp hm))
  kept n hn := Scores.lookup_insert_ne.mpr (.inr hn)

variable {pairs : List ScorePair}

theorem addPairsRecording_recorded {out out' : ZsetAddOutcome} {scores scores' : Scores}
    {touched touched' : List Text}
    (h : addPairsRecording add o pairs (out, scores, touched) = .ok (out', scores', touched')) :
    Recorded scores touched scores' touched' ∧
      out'.changed + touched.length = out.changed + touched'.length ∧
      ∀ m ∈ touched', m ∈ touched ∨ m ∈ pairs.map snd := by
  induction pairs generalizing out scores touched with
  | nil =>
    cases h
    exact ⟨.refl _ _, rfl, fun m hm => .inl hm⟩
  | cons pair pairs ih =>
    obtain ⟨input, m⟩ := pair
    simp only [addPairsRecording, zsetAddPairs] at ih h
    split at h
    · cases h
    · next score hscore =>
      obtain ⟨-, hchanged, hwrite⟩ := @zsetAddStep_start o (scores.lookup m) score out
      rw [zsetAddStep_changed, ← hwrite] at hchanged
      cases hstep : (zsetAddStep o (scores.lookup m) score out).2 with
      | none =>
        rw [hstep] at h hchanged
        obtain ⟨hrec, hlen, hmem⟩ := ih h
        refine ⟨hrec, by simp at hchanged; omega, fun n hn => (hmem n hn).imp_right fun hp => ?_⟩
        exact mem_cons_of_mem m hp
      | some s =>
        rw [hstep] at h hchanged
        obtain ⟨hrec, hlen, hmem⟩ := ih h
        refine ⟨(Recorded.insert scores touched m s).trans hrec, ?_, fun n hn => ?_⟩
        · simp at hchanged hlen
          omega
        · rcases hmem n hn with hn | hn
          · rcases mem_append.mp hn with hn | hn
            · exact .inl hn
            · rw [mem_singleton.mp hn]
              exact .inr mem_cons_self
          · exact .inr (mem_cons_of_mem m hn)

theorem addPairsRecording_congr {pairs : List ScorePair} {all : List Text} {a b : Scores}
    (hall : ∀ pair ∈ pairs, pair.2 ∈ all) (hab : AgreeOn all a b) (out : ZsetAddOutcome)
    (touched : List Text) :
    Except.map (fun r => (r.1, r.2.2)) (addPairsRecording add o pairs (out, a, touched)) =
        Except.map (fun r => (r.1, r.2.2)) (addPairsRecording add o pairs (out, b, touched)) ∧
      ∀ r r', addPairsRecording add o pairs (out, a, touched) = .ok r →
        addPairsRecording add o pairs (out, b, touched) = .ok r' → AgreeOn all r.2.1 r'.2.1 := by
  induction pairs generalizing out a b touched with
  | nil =>
    refine ⟨rfl, fun r r' hr hr' => ?_⟩
    cases hr
    cases hr'
    exact hab
  | cons pair pairs ih =>
    obtain ⟨input, m⟩ := pair
    have hm : a.lookup m = b.lookup m := hab m (hall _ mem_cons_self)
    have hrest := fun pair hp => hall pair (mem_cons_of_mem (input, m) hp)
    simp only [addPairsRecording, zsetAddPairs, hm] at ih ⊢
    cases zsetAddTarget add o (b.lookup m) input with
    | none => exact ⟨rfl, fun r r' hr => by (cases hr)⟩
    | some score =>
      dsimp only
      cases (zsetAddStep o (b.lookup m) score out).2 with
      | none => exact ih hrest hab _ _
      | some s => exact ih hrest (hab.insert m s) _ _

variable (add : UInt64 → UInt64 → UInt64)

theorem addKind_local :
    (addKind add).Local fun c => c.pairs.map snd where
  touched_mem {c scores m} hm := by
    simp only [addKind] at hm
    split at hm
    · cases hm
    · next hrun =>
      obtain ⟨-, -, hmem⟩ := addPairsRecording_recorded hrun
      exact mem_members_lastPairs.mp ((hmem m hm).resolve_left not_mem_nil)
  congr {c a b all} hall hab := by
    obtain ⟨hsame, hagree⟩ := @addPairsRecording_congr add c.options (lastPairs c.pairs) all a b
      (fun pair hp => hall pair.2 (mem_members_lastPairs.mp (mem_map_of_mem hp))) hab .start []
    simp only [addKind]
    cases ha : addPairsRecording add c.options (lastPairs c.pairs) (.start, a, []) with
    | error msg =>
      cases hb : addPairsRecording add c.options (lastPairs c.pairs) (.start, b, []) <;>
        rw [ha, hb] at hsame <;> cases hsame
      exact ⟨rfl, rfl, hab⟩
    | ok r =>
      cases hb : addPairsRecording add c.options (lastPairs c.pairs) (.start, b, []) with
      | error message' =>
        rw [ha, hb] at hsame
        cases hsame
      | ok r' =>
        rw [ha, hb] at hsame
        obtain ⟨hout, htouched⟩ := mk.inj (Except.ok.inj hsame)
        exact ⟨congrArg Except.ok hout, htouched, hagree r r' ha hb⟩

theorem addKind_split_eq (c : ZsetAddRequest) (content : Scores) :
    (addKind add).splitScores c content = (addKind add).packedScores c content ∧
      ((addKind add).dirties content [c] = true ↔ (addKind add).touches content [c] ≠ []) ∧
      settle content ((addKind add).splitScores c content).2 ((addKind add).touches content [c]) =
        ((addKind add).splitScores c content).2 := by
  have hscores := @addPairsRecording_scores add c.options (lastPairs c.pairs) .start content []
  simp only [splitScores, packedScores, dirties,
    touches, addKind, ← hscores, Bool.or_false, append_nil]
  cases hrun : addPairsRecording add c.options (lastPairs c.pairs) (.start, content, []) with
  | error msg => exact ⟨rfl, by simp [Except.map], rfl⟩
  | ok r =>
    obtain ⟨out, scores', touched⟩ := r
    obtain ⟨hrec, hlen, -⟩ := addPairsRecording_recorded hrun
    refine ⟨rfl, ?_, ?_⟩
    · have hlen' : out.changed = touched.length := by simpa [ZsetAddOutcome.start] using hlen
      simp [Except.map, hlen']
    · exact settle_eq_current (fun m hm => (hrec.touched m hm).resolve_left not_mem_nil)
        fun m hm => (hrec.untouched m hm).2

/-! ## まとめた命令の判定が読む member -/

theorem foldl_tallyPair_congr {all : List Text} {pairs : List ScorePair} {t u : ZsetTally}
    (hall : ∀ pair ∈ pairs, pair.2 ∈ all) (hadded : t.added = u.added)
    (htouched : t.touched = u.touched) (hab : AgreeOn all t.scores u.scores) :
    (pairs.foldl (tallyPair false) t).added = (pairs.foldl (tallyPair false) u).added ∧
      (pairs.foldl (tallyPair false) t).touched = (pairs.foldl (tallyPair false) u).touched ∧
      AgreeOn all (pairs.foldl (tallyPair false) t).scores
        (pairs.foldl (tallyPair false) u).scores := by
  induction pairs generalizing t u with
  | nil => exact ⟨hadded, htouched, hab⟩
  | cons pair pairs ih =>
    have hm := hab pair.2 (hall pair mem_cons_self)
    refine ih (fun p hp => hall p (mem_cons_of_mem pair hp)) ?_ ?_ ?_
    · simp [tallyPair, hm, hadded]
    · simp only [tallyPair, hm, htouched]
    · simp only [tallyPair, hm]
      split
      · exact hab
      · exact hab.insert pair.2 pair.1

theorem touched_foldl_mem {t : ZsetTally} {m : Text}
    (h : m ∈ (pairs.foldl (tallyPair false) t).touched) :
    m ∈ t.touched ∨ m ∈ pairs.map snd := by
  induction pairs generalizing t with
  | nil => exact .inl h
  | cons pair pairs ih =>
    rw [map_cons, mem_cons]
    rcases ih h with hm | hm
    · simp only [tallyPair] at hm
      split at hm
      · exact .inl hm
      · rcases mem_append.mp hm with hm | hm
        · exact .inl hm
        · exact .inr (.inl (mem_singleton.mp hm))
    · exact .inr (.inr hm)

theorem zaddKind_local : zaddKind.Local fun c => c.pairs.map snd where
  touched_mem {c scores m} hm :=
    mem_members_lastPairs.mp ((touched_foldl_mem hm).resolve_left not_mem_nil)
  congr {c a b all} hall hab := by
    obtain ⟨ha, ht, hs⟩ := @foldl_tallyPair_congr all (lastPairs c.pairs) ⟨0, a, []⟩ ⟨0, b, []⟩
      (fun pair hp => hall pair.2 (mem_members_lastPairs.mp (mem_map_of_mem hp))) rfl rfl hab
    exact ⟨congrArg Except.ok ha, ht, hs⟩

theorem incrKind_local (add : UInt64 → UInt64 → UInt64) :
    (incrKind add).Local fun c => [c.member] where
  touched_mem {c scores m} hm := by
    simp only [incrKind] at hm
    split at hm
    · cases hm
    · dsimp only at hm
      split at hm
      · cases hm
      · exact hm
  congr {c a b all} hall hab := by
    have hm := hab c.member (hall c.member mem_cons_self)
    have hnext : incrNext add c a = incrNext add c b := by simp [incrNext, hm]
    simp only [incrKind, hnext, hm]
    cases incrNext add c b with
    | none => exact ⟨rfl, rfl, hab⟩
    | some next => exact ⟨rfl, rfl, hab.insert c.member next⟩

end

/-! ## score を書く命令 -/

inductive ZsetReply
  | outcomes (replies : List (Except String ZsetAddOutcome))
  | counts (replies : List (Except String Nat))
  | scores (replies : List (Except String Score))
  | removed (reply : Except String Nat)
  | popped (reply : Except String (List ZsetEntry))
  deriving DecidableEq

/-- score を書く命令。 -/
inductive ZsetPut
  | add (request : ZsetAddRequest)
  | addBatch (cmds : List ZsetAddCommand)
  | incrBatch (cmds : List ZsetIncrCommand)
  deriving DecidableEq

def incrSpec (add : UInt64 → UInt64 → UInt64) (c : ZsetIncrCommand) (v : Visible Scores) :
    Except String Score × Visible Scores :=
  match v.parts ∅ with
  | none => (.error wrongTypeError, v)
  | some (_, scores) => ((incrAlways add c scores).1, v.extend (incrAlways add c scores).2)

namespace ZsetPut

variable (add : UInt64 → UInt64 → UInt64)

def members : ZsetPut → List Text
  | .add request => request.pairs.map snd
  | .addBatch cmds => cmds.flatMap fun c => c.pairs.map snd
  | .incrBatch cmds => cmds.map ZsetIncrCommand.member

def wrongType : ZsetPut → ZsetReply
  | .add _ => .outcomes [.error wrongTypeError]
  | .addBatch cmds => .counts (cmds.map fun _ => .error wrongTypeError)
  | .incrBatch cmds => .scores (cmds.map fun _ => .error wrongTypeError)

def packed : ZsetPut → Scores → ZsetReply × Scores × Bool
  | .add request, content =>
    let out := (addKind add).packedPlan [request] content
    (.outcomes out.1, out.2)
  | .addBatch cmds, content =>
    let out := zaddKind.packedPlan cmds content
    (.counts out.1, out.2)
  | .incrBatch cmds, content =>
    let out := (incrKind add).packedPlan cmds content
    (.scores out.1, out.2)

def overflows : ZsetPut → Scores → Bool
  | .add _, _ => false
  | .addBatch cmds, content => zaddKind.overflows content cmds
  | .incrBatch cmds, content => (incrKind add).overflows content cmds

def split : ZsetPut → Scores → ZsetReply × Scores × List Text
  | .add request, content =>
    let out := (addKind add).splitPlan [request] content
    (.outcomes out.1, out.2)
  | .addBatch cmds, content =>
    let out := zaddKind.splitPlan cmds content
    (.counts out.1, out.2)
  | .incrBatch cmds, content =>
    let out := (incrKind add).splitPlan cmds content
    (.scores out.1, out.2)

def spec : ZsetPut → Visible Scores → ZsetReply × Visible Scores
  | .add request, v =>
    let out := addSpec add request.pairs request.options v
    (.outcomes [out.1], out.2)
  | .addBatch cmds, v =>
    let out := runOne (zaddSpec add) v cmds
    (.counts out.1, out.2)
  | .incrBatch cmds, v =>
    let out := runOne (incrSpec add) v cmds
    (.scores out.1, out.2)

def result : ZsetPut → Scores → Scores
  | .add request, content => ((addKind add).packedScores request content).2
  | .addBatch cmds, content => (runOne zaddKind.splitScores content cmds).2
  | .incrBatch cmds, content => (runOne (incrAlways add) content cmds).2

/-- 詰めたままの判定が、一つずつの実行と同じ中身を残す。まとめた ZADD は数として等しい score も書く。 -/
def PackedExact : ZsetPut → Scores → Prop
  | .addBatch cmds, content =>
    (if zaddKind.dirties content cmds then (runOne zaddKind.packedScores content cmds).2
      else content) = (runOne zaddKind.splitScores content cmds).2
  | _, _ => True

/-- 分けての判定が、一つずつの実行と同じ中身を残す。まとめた ZINCRBY は数として等しい score を書かない。 -/
def SplitExact : ZsetPut → Scores → Prop
  | .incrBatch cmds, content =>
    settle content (runOne (incrAlways add) content cmds).2
      ((incrKind add).touches content cmds) = (runOne (incrAlways add) content cmds).2
  | _, _ => True

instance (p : ZsetPut) (content : Scores) : Decidable (p.PackedExact content) := by
  unfold PackedExact
  split <;> infer_instance

instance (p : ZsetPut) (content : Scores) : Decidable (p.SplitExact add content) := by
  unfold SplitExact
  split <;> infer_instance

end ZsetPut

section

variable {add : UInt64 → UInt64 → UInt64} {p : ZsetPut} {v : Visible Scores} {e : Nat}
  {content : Scores}

theorem ZsetPut.spec_foreign (p : ZsetPut) (e : Nat) (raw : Bytes) :
    p.spec add (.foreign e raw) = (p.wrongType, .foreign e raw) := by
  cases p with
  | add request => rfl
  | addBatch cmds => simp [spec, wrongType, runOne_fixed fun c => zaddSpec_foreign add c e raw]
  | incrBatch cmds =>
    have h : ∀ c, incrSpec add c (.foreign e raw) = (.error wrongTypeError, .foreign e raw) :=
      fun _ => rfl
    simp [spec, wrongType, runOne_fixed h]

theorem runOne_incrSpec (hparts : v.parts ∅ = some (e, content)) (cs : List ZsetIncrCommand) :
    runOne (incrSpec add) v cs = ((runOne (incrAlways add) content cs).1,
      v.extend (runOne (incrAlways add) content cs).2) := by
  induction cs generalizing v content with
  | nil => simp [runOne, extend_self hparts]
  | cons c cs ih =>
    have hgrow : (incrAlways add c content).2 ≠ ∅ →
        (runOne (incrAlways add) (incrAlways add c content).2 cs).2 ≠ ∅ := by
      intro h
      rw [← incr_packedScores]
      exact (incrKind_grows add).runOne_packed_ne (.inr (incr_packedScores add ▸ h))
    simp only [runOne, incrSpec, hparts]
    rw [ih (parts_extend hparts _), extend_extend hgrow]

/-! 選択肢つきの ZADD は member を消さない。 -/

theorem addKind_grows (add : UInt64 → UInt64 → UInt64) : (addKind add).Grows := by
  have hsome : ∀ {c scores m}, m ∈ ((addKind add).splitStep c scores).2.2 ∨
      scores.lookup m ≠ none → ((addKind add).splitStep c scores).2.1.lookup m ≠ none := by
    intro c scores m h
    simp only [addKind] at h ⊢
    cases hrun : addPairsRecording add c.options (lastPairs c.pairs) (.start, scores, []) with
    | error msg =>
      rw [hrun] at h
      exact h.resolve_left not_mem_nil
    | ok r =>
      rw [hrun] at h
      have hrec := (addPairsRecording_recorded hrun).1
      rcases h with h | h
      · exact (hrec.touched m h).resolve_left not_mem_nil
      · exact hrec.kept m h
  refine ⟨fun {c scores} h => ?_, hsome⟩
  obtain ⟨hsame, hdirty, -⟩ := addKind_split_eq add c scores
  have hscores : ((addKind add).packedStep c scores).2.1 = ((addKind add).splitStep c scores).2.1 :=
    (congrArg snd hsame).symm
  simp only [dirties, touches, Bool.or_false, append_nil] at hdirty
  rw [hscores, Scores.ne_empty_iff]
  rcases h with h | h
  · obtain ⟨m, hm⟩ := exists_mem_of_ne_nil _ (hdirty.mp h)
    exact ⟨m, hsome (.inl hm)⟩
  · obtain ⟨m, hm⟩ := Scores.ne_empty_iff.mp h
    exact ⟨m, hsome (.inr hm)⟩

theorem addKind_clean {c : ZsetAddRequest} (h : ¬ (addKind add).dirties content [c] = true) :
    ((addKind add).packedScores c content).2 = content := by
  obtain ⟨hsame, hdirty, hsettle⟩ := addKind_split_eq add c content
  have hnil : (addKind add).touches content [c] = [] := by
    by_contra hne
    exact h (hdirty.mpr hne)
  rw [hnil, hsame] at hsettle
  exact hsettle.symm

namespace ZsetPut

theorem split_reply (p : ZsetPut) (content : Scores) :
    (p.split add content).1 = (p.packed add content).1 := by
  cases p with
  | add request =>
    exact congrArg (fun r => ZsetReply.outcomes [r])
      (congrArg fst (addKind_split_eq add request content).1)
  | addBatch cmds =>
    exact congrArg ZsetReply.counts (packedScores_rel (SameScores.refl content) cmds).1.symm
  | incrBatch cmds =>
    simp [split, packed, splitPlan, packedPlan, incr_splitScores, incr_packedScores]

/-- **一つずつの実行の結果は、判定の返事と `result` の表である。** -/
theorem spec_eq (hparts : v.parts ∅ = some (e, content)) :
    p.spec add v = ((p.packed add content).1, v.extend (p.result add content)) := by
  cases p with
  | add request =>
    have hclean := @addKind_clean add content request
    have hgrow := @Grows.packed_ne _ _ _ (addKind_grows add) request content
    simp only [spec, packed, result, addSpec, hparts, packedPlan, runOne,
      packedScores, dirties, addKind] at hclean hgrow ⊢
    cases hrun : addPairsToScores add request.options (lastPairs request.pairs)
        (.start, content) with
    | error msg => simp [extend_self hparts]
    | ok r =>
      obtain ⟨out, scores'⟩ := r
      rw [hrun] at hclean hgrow
      simp only [afterAdd]
      split
      · next hzero =>
        have hkeep : scores' = content := hclean (by simp [hzero])
        rw [hkeep, extend_self hparts]
      · next hne => rw [extend_of_ne_empty hparts (hgrow (.inl (by simpa using hne)))]
  | addBatch cmds =>
    simp [spec, packed, result, runOne_zaddSpec add hparts, packedPlan,
      (packedScores_rel (SameScores.refl content) cmds).1]
  | incrBatch cmds =>
    simp [spec, packed, result, runOne_incrSpec hparts, packedPlan, incr_packedScores]

theorem packed_exact (h : p.PackedExact content) :
    (if (p.packed add content).2.2 then (p.packed add content).2.1 else content) =
      p.result add content := by
  cases p with
  | add request =>
    show (if (addKind add).dirties content [request] then
      ((addKind add).packedScores request content).2 else content) = _
    split
    · rfl
    · next hclean => exact (addKind_clean hclean).symm
  | addBatch cmds => exact h
  | incrBatch cmds =>
    simp only [packed, result, packedPlan, incr_packedScores]
    split
    · rfl
    · next hclean =>
      -- どの命令も失敗したのだから、表は変わっていない
      exact (runOne_incrAlways_of_clean add cmds content (Bool.eq_false_iff.mpr hclean)).symm

theorem split_exact (h : p.SplitExact add content) :
    settle content (p.split add content).2.1 (p.split add content).2.2 = p.result add content := by
  cases p with
  | add request =>
    obtain ⟨hsame, -, hsettle⟩ := addKind_split_eq add request content
    rw [hsame] at hsettle
    simp only [split, result, splitPlan, runOne, hsame]
    exact hsettle
  | addBatch cmds => exact settle_splitScores content cmds
  | incrBatch cmds =>
    simp only [split, result, splitPlan, incr_splitScores]
    exact h

theorem packed_ne_empty (h : (p.packed add content).2.2 = true) :
    (p.packed add content).2.1 ≠ ∅ := by
  cases p with
  | add request => exact (addKind_grows add).runOne_packed_ne (.inl h)
  | addBatch cmds => exact zaddKind_grows.runOne_packed_ne (.inl h)
  | incrBatch cmds => exact (incrKind_grows add).runOne_packed_ne (.inl h)

theorem split_touched_some {m : Text} (h : m ∈ (p.split add content).2.2) :
    (p.split add content).2.1.lookup m ≠ none := by
  cases p with
  | add request => exact (addKind_grows add).runOne_split_some (.inl h)
  | addBatch cmds => exact zaddKind_grows.runOne_split_some (.inl h)
  | incrBatch cmds => exact (incrKind_grows add).runOne_split_some (.inl h)

theorem settle_ne_empty (h : (p.split add content).2.2 ≠ []) (stored : Scores) :
    settle stored (p.split add content).2.1 (p.split add content).2.2 ≠ ∅ :=
  settle_ne_empty_of (fun _ hm => split_touched_some hm) h

/-- **分けての判定は、命令に出てくる member の score だけで決まる。** -/
theorem split_congr {a b : Scores} (h : AgreeOn p.members a b) :
    (p.split add a).1 = (p.split add b).1 ∧ (p.split add a).2.2 = (p.split add b).2.2 ∧
      ∀ stored, settle stored (p.split add a).2.1 (p.split add a).2.2 =
        settle stored (p.split add b).2.1 (p.split add b).2.2 := by
  have hfrom : ∀ {scores scores' : Scores} {touched touched' : List Text},
      (∀ m ∈ touched', m ∈ p.members) → touched = touched' → AgreeOn p.members scores scores' →
        ∀ stored, settle stored scores touched = settle stored scores' touched' := by
    rintro scores scores' touched _ hmem rfl hagree stored
    refine Finmap.ext_lookup fun m => ?_
    rw [lookup_settle, lookup_settle]
    split
    · next hm => rw [hagree m (hmem m hm)]
    · rfl
  cases p with
  | add request =>
    have hall : ∀ m ∈ [request].flatMap (fun c => c.pairs.map snd),
        m ∈ request.pairs.map snd := by simp
    obtain ⟨hreply, htouched, hagree⟩ := (addKind_local add).splitPlan_congr hall h
    exact ⟨congrArg ZsetReply.outcomes hreply, htouched,
      hfrom (fun m hm => hall m ((addKind_local add).touches_mem hm)) htouched hagree⟩
  | addBatch cmds =>
    obtain ⟨hreply, htouched, hagree⟩ := zaddKind_local.splitPlan_congr (fun m hm => hm) h
    exact ⟨congrArg ZsetReply.counts hreply, htouched,
      hfrom (fun m hm => zaddKind_local.touches_mem hm) htouched hagree⟩
  | incrBatch cmds =>
    have hall : ∀ m ∈ cmds.flatMap (fun c => [c.member]),
        m ∈ cmds.map ZsetIncrCommand.member := by
      rintro m hm
      obtain ⟨c, hc, hmem⟩ := mem_flatMap.mp hm
      exact mem_singleton.mp hmem ▸ mem_map_of_mem hc
    obtain ⟨hreply, htouched, hagree⟩ := (incrKind_local add).splitPlan_congr hall h
    exact ⟨congrArg ZsetReply.scores hreply, htouched,
      hfrom (fun m hm => hall m ((incrKind_local add).touches_mem hm)) htouched hagree⟩

end ZsetPut

end

/-! ## 加わる member と残る member -/

/-- この返事は、member `m` が zset にあることを約束する。XX のない ZADD と、成功した ZINCRBY である。 -/
def ZsetPut.Adds (m : Text) : ZsetPut → ZsetReply → Prop
  | .add request, .outcomes replies =>
    request.options.xx = false ∧ m ∈ request.pairs.map snd ∧ ∃ out, .ok out ∈ replies
  | .addBatch cmds, .counts replies =>
    ∃ c count, (c, .ok count) ∈ cmds.zip replies ∧ m ∈ c.pairs.map snd
  | .incrBatch cmds, .scores replies => ∃ c score, (c, .ok score) ∈ cmds.zip replies ∧ c.member = m
  | _, _ => False

section

variable {add : UInt64 → UInt64 → UInt64} {o : ZsetAddOptions} {p : ZsetPut} {content : Scores}
  {m : Text} {pairs : List ScorePair}

theorem addPairsRecording_mem (hxx : o.xx = false) {out out' : ZsetAddOutcome}
    {scores scores' : Scores} {touched touched' : List Text}
    (h : addPairsRecording add o pairs (out, scores, touched) = .ok (out', scores', touched'))
    (hm : m ∈ pairs.map snd) : scores'.lookup m ≠ none := by
  induction pairs generalizing out scores touched with
  | nil => cases hm
  | cons pair pairs ih =>
    obtain ⟨input, n⟩ := pair
    simp only [addPairsRecording, zsetAddPairs] at ih h
    split at h
    · cases h
    · next score hscore =>
      rcases mem_cons.mp hm with rfl | hm
      · refine (addPairsRecording_recorded h).1.kept m ?_
        cases hstep : (zsetAddStep o (scores.lookup m) score out).2 with
        | none =>
          -- まだない member は必ず書くので、前からあったことになる
          intro hold
          rw [show scores.lookup m = none from hold] at hstep
          simp [zsetAddStep, zsetAddConditionMatches, hxx] at hstep
        | some s => exact fun hnone => by simp at hnone
      · exact ih h hm

theorem runOne_incrAlways_mem {cs : List ZsetIncrCommand} {scores : Scores} {c : ZsetIncrCommand}
    {score : Score} (h : (c, .ok score) ∈ cs.zip (runOne (incrAlways add) scores cs).1) :
    (runOne (incrAlways add) scores cs).2.lookup c.member ≠ none := by
  induction cs generalizing scores with
  | nil => cases h
  | cons d cs ih =>
    simp only [runOne, zip_cons_cons, mem_cons] at h ⊢
    rcases h with h | h
    · obtain ⟨rfl, hok⟩ := mk.inj h
      rw [← incr_splitScores]
      refine (incrKind_grows add).runOne_split_some (.inr ?_)
      rw [incr_splitScores]
      unfold incrAlways at hok ⊢
      split at hok
      · cases hok
      · simp
    · exact ih h

namespace ZsetPut

theorem result_kept (p : ZsetPut) (h : content.lookup m ≠ none) :
    (p.result add content).lookup m ≠ none := by
  cases p with
  | add request =>
    simp only [result, ← (addKind_split_eq add request content).1]
    exact (addKind_grows add).split_some (.inr h)
  | addBatch cmds => exact zaddKind_grows.runOne_split_some (.inr h)
  | incrBatch cmds =>
    simp only [result, ← incr_splitScores]
    exact (incrKind_grows add).runOne_split_some (.inr h)

theorem result_adds (h : p.Adds m (p.packed add content).1) :
    (p.result add content).lookup m ≠ none := by
  cases p with
  | add request =>
    obtain ⟨hxx, hm, out, hout⟩ := h
    have hsame := (addKind_split_eq add request content).1
    simp only [packedPlan, runOne, mem_singleton, ← hsame] at hout
    simp only [result, ← hsame]
    simp only [splitScores, addKind] at hout ⊢
    cases hrun : addPairsRecording add request.options (lastPairs request.pairs)
        (.start, content, []) with
    | error msg =>
      rw [hrun] at hout
      cases hout
    | ok r => exact addPairsRecording_mem hxx hrun (mem_members_lastPairs.mpr hm)
  | addBatch cmds =>
    obtain ⟨c, count, hc, hm⟩ := h
    obtain ⟨added, hup⟩ := addsUp_splitScores content cmds
    have hsupplied : supplied m (batchPairs cmds) ≠ [] := by
      rw [Ne, supplied_eq_nil, not_not, batchPairs, map_flatMap, mem_flatMap]
      exact ⟨c, (of_mem_zip hc).1, mem_members_lastPairs.mpr hm⟩
    rw [result, hup.lookup_eq, ← Option.isSome_iff_ne_none]
    refine addRun_isSome ?_
    cases hold : content.lookup m with
    | some s => exact .inl rfl
    | none =>
      obtain ⟨s, l, hl⟩ := exists_cons_of_ne_nil hsupplied
      refine .inr ?_
      simp [hl, addRun, zsetAddStep, zsetAddConditionMatches, ZsetAddOptions.default,
        ZsetAddOutcome.start]
  | incrBatch cmds =>
    obtain ⟨c, score, hc, rfl⟩ := h
    simp only [packedPlan, incr_packedScores] at hc
    exact runOne_incrAlways_mem hc

theorem not_adds_wrongType (p : ZsetPut) : ¬ p.Adds m p.wrongType := by
  have hzip : ∀ {γ ρ : Type} {cs : List γ} {c : γ} {r : ρ}, (c, Except.ok r) ∉
      cs.zip (cs.map fun _ => (.error wrongTypeError : Except String ρ)) := by
    intro γ ρ cs c r h
    obtain ⟨_, _, hr⟩ := mem_map.mp (of_mem_zip h).2
    cases hr
  cases p with
  | add request =>
    rintro ⟨-, -, out, hout⟩
    cases mem_singleton.mp hout
  | addBatch cmds =>
    rintro ⟨c, count, hc, -⟩
    exact hzip hc
  | incrBatch cmds =>
    rintro ⟨c, score, hc, -⟩
    exact hzip hc

end ZsetPut

end

/-! ## member を取り除く命令 -/

/-- member を取り除く命令。 -/
inductive ZsetTake
  | remove (members : List Text)
  | pop (min : Bool) (count : Nat)
  deriving DecidableEq

def afterRemove (e : Nat) (content : Scores) (found : List Text) : Visible Scores :=
  if found = [] then .value e content
  else
    let rest := found.foldl (fun scores m => scores.erase m) content
    if rest = ∅ then .missing else .value e rest

def removeSpec (members : List Text) : Visible Scores → Except String Nat × Visible Scores
  | .foreign e raw => (.error wrongTypeError, .foreign e raw)
  | .missing => (.ok 0, .missing)
  | .value e content =>
    let found := presentMembers members content
    (.ok found.length, afterRemove e content found)

namespace ZsetTake

def plan : ZsetTake → ZsetItems → ZsetReply × List Text
  | .remove members, items =>
    let found := presentMembers members items.members
    (.removed (.ok found.length), found)
  | .pop min count, items =>
    let popped := (oriented min (ranked items.ranks)).take count
    (.popped (.ok popped), popped.map fst)

def nothing : ZsetTake → ZsetReply
  | .remove _ => .removed (.ok 0)
  | .pop _ _ => .popped (.ok [])

def wrongType : ZsetTake → ZsetReply
  | .remove _ => .removed (.error wrongTypeError)
  | .pop _ _ => .popped (.error wrongTypeError)

def idle : ZsetTake → Bool
  | .remove _ => false
  | .pop _ count => count == 0

/-- 分けた zset に書く。読んだときの record `seen` から、取り除く member を決めてある。 -/
def commit (recs : ZsetRecords) (ver : Nat) (seen : ZsetItems) : ZsetTake → ZsetRecords
  | .remove members => removeFound recs ver (presentMembers members seen.members)
  | .pop min count =>
    (popRanked recs ver ((oriented min (ranked seen.ranks)).take (count + 1)) count).2

def spec : ZsetTake → Visible Scores → ZsetReply × Visible Scores
  | .remove members, v =>
    let out := removeSpec members v
    (.removed out.1, out.2)
  | .pop min count, v =>
    let out := popSpec ⟨[], min, count⟩ v
    (.popped out.1, out.2)

end ZsetTake

section

variable {now n e ver : Nat} {content : Scores} {recs : ZsetRecords}

theorem afterPop_eq (popped : List ZsetEntry) :
    afterPop e content popped = afterRemove e content (popped.map fst) := by
  have hrest : (popped.map fst).foldl (fun scores m => scores.erase m) content =
      eraseMembers popped content := foldl_map
  by_cases hnil : popped = []
  · rw [hnil]
    rfl
  · simp [afterPop, afterRemove, hrest, if_neg hnil]

theorem presentMembers_spec (members : List Text) (content : Scores) :
    (presentMembers members content).Nodup ∧
      ∀ m ∈ presentMembers members content, content.lookup m ≠ none := by
  induction members generalizing content with
  | nil => exact ⟨nodup_nil, nofun⟩
  | cons t members ih =>
    rw [presentMembers]
    split
    · next ht =>
      obtain ⟨hnodup, hsome⟩ := ih (content.erase t)
      refine ⟨nodup_cons.mpr ⟨fun hmem => hsome t hmem (Finmap.lookup_erase t content), hnodup⟩,
        fun m hm => ?_⟩
      rcases mem_cons.mp hm with rfl | hm
      · exact Option.isSome_iff_ne_none.mp ht
      · have hne := hsome m hm
        by_cases hmt : m = t
        · rw [hmt, Finmap.lookup_erase] at hne
          exact absurd rfl hne
        · rwa [Finmap.lookup_erase_ne hmt] at hne
    · exact ih content

theorem mem_of_mem_presentMembers {members : List Text} {m : Text}
    (h : m ∈ presentMembers members content) : m ∈ members := by
  induction members generalizing content with
  | nil => cases h
  | cons t members ih =>
    rw [presentMembers] at h
    split at h
    · rcases mem_cons.mp h with rfl | h
      · exact mem_cons_self
      · exact mem_cons_of_mem t (ih h)
    · exact mem_cons_of_mem t (ih h)

variable {found : List Text}

theorem foldl_erase_eq_empty_iff (hnodup : found.Nodup)
    (hsome : ∀ m ∈ found, content.lookup m ≠ none) :
    found.foldl (fun scores m => scores.erase m) content = ∅ ↔
      content.keys.card = found.length := by
  have hsub : found.toFinset ⊆ content.keys := by
    intro m hm
    rw [Finmap.mem_keys, Finmap.mem_iff]
    exact Option.ne_none_iff_exists'.mp (hsome m (mem_toFinset.mp hm))
  have hcard : found.toFinset.card = found.length := toFinset_card_of_nodup hnodup
  constructor
  · intro hempty
    have hall : content.keys ⊆ found.toFinset := by
      intro m hm
      rw [Finmap.mem_keys, Finmap.mem_iff] at hm
      obtain ⟨s, hs⟩ := hm
      have hnone : (found.foldl (fun scores m => scores.erase m) content).lookup m = none := by
        rw [hempty, Finmap.lookup_empty]
      rw [lookup_foldl_erase] at hnone
      by_contra hnot
      rw [if_neg fun h => hnot (mem_toFinset.mpr h), hs] at hnone
      cases hnone
    rw [← hcard, Finset.Subset.antisymm hall hsub]
  · intro hlen
    have heq : found.toFinset = content.keys := Finset.eq_of_subset_of_card_le hsub (by omega)
    refine Finmap.ext_lookup fun m => ?_
    rw [lookup_foldl_erase, Finmap.lookup_empty]
    split
    · rfl
    · next hm =>
      rw [← mem_toFinset, heq, Finmap.mem_keys] at hm
      exact Finmap.lookup_eq_none.mpr hm

theorem members_foldl_erase (items : ZsetItems) (found : List Text) :
    (found.foldl ZsetItems.erase items).members =
      found.foldl (fun scores m => scores.erase m) items.members := by
  induction found generalizing items with
  | nil => rfl
  | cons m found ih => exact ih (items.erase m)

theorem view_removeFound (hmain : recs.main = some (.split e ver ()))
    (hdue : expireDue now e = false) (hnodup : found.Nodup)
    (hsome : ∀ m ∈ found, (recs.items ver).members.lookup m ≠ none) (hne : found ≠ []) :
    (removeFound recs ver found).view zsetLayout now =
      afterRemove e (recs.items ver).members found := by
  have hempty := foldl_erase_eq_empty_iff hnodup hsome
  have hcount : min (recs.items ver).members.keys.card (found.length + 1) = found.length ↔
      (recs.items ver).members.keys.card = found.length := by omega
  simp only [removeFound, afterRemove, if_neg hne, hcount, hempty]
  split
  · exact view_missing rfl
  · have hmain' : (recs.setItems ver (found.foldl ZsetItems.erase (recs.items ver))).main =
        some (.split e ver ()) := hmain
    rw [view_split hmain' hdue, setItems_items_self]
    exact congrArg (value e) (members_foldl_erase _ found)

theorem view_setRest (hdue : expireDue now e = false) (hne : found ≠ []) :
    let rest := found.foldl (fun scores m => scores.erase m) content
    (recs.setMain (if rest = ∅ then none else some (.packed e rest))).view zsetLayout now =
      afterRemove e content found := by
  intro rest
  simp only [afterRemove, if_neg hne]
  split
  · exact view_missing rfl
  · exact view_packed rfl hdue

namespace ZsetTake

variable {t : ZsetTake}

theorem plan_indexed {items : ZsetItems} (h : items.Indexed) :
    t.plan items = t.plan (.ofScores items.members) := by
  cases t with
  | remove members => rfl
  | pop min count =>
    have hranks : items.ranks = (ZsetItems.ofScores items.members).ranks := h.ranks_eq
    simp [plan, hranks]

theorem spec_value (t : ZsetTake) (e : Nat) (content : Scores) : t.spec (.value e content) =
      ((t.plan (.ofScores content)).1, afterRemove e content (t.plan (.ofScores content)).2) := by
  cases t with
  | remove members => rfl
  | pop min count => exact Prod.ext rfl (afterPop_eq _)

theorem spec_foreign (h : t.idle = false) (e : Nat) (raw : Bytes) :
    t.spec (.foreign e raw) = (t.wrongType, .foreign e raw) := by
  cases t with
  | remove members => rfl
  | pop min count =>
    have hcount : count ≠ 0 := by simpa [idle] using h
    simp [spec, popSpec, if_neg hcount, wrongType]

theorem spec_idle (h : t.idle = true) (v : Visible Scores) : t.spec v = (t.nothing, v) := by
  cases t with
  | remove members => cases h
  | pop min count =>
    have hcount : count = 0 := by simpa [idle] using h
    subst hcount
    cases v <;> simp [spec, popSpec, nothing]

/-- **分けた zset への書き込みは、読んだ record が変わっていなければ、仕様どおりに取り除く。** -/
theorem commit_spec (hok : ZsetOk n recs) (hmain : recs.main = some (.split e ver ()))
    (hdue : expireDue now e = false) (hne : (t.plan (recs.items ver)).2 ≠ []) :
    (t.commit recs ver (recs.items ver)).view zsetLayout now =
        afterRemove e (recs.items ver).members (t.plan (recs.items ver)).2 ∧
      ZsetOk n (t.commit recs ver (recs.items ver)) := by
  cases t with
  | remove members =>
    obtain ⟨hnodup, hsome⟩ := presentMembers_spec members (recs.items ver).members
    exact ⟨view_removeFound hmain hdue hnodup hsome hne,
      removeFound_ok _ hok (hok.fresh.version_le hmain)⟩
  | pop min count =>
    obtain ⟨-, hview, hok'⟩ := @popRanked_spec now n recs e ver min count hok hmain hdue
    refine ⟨hview.trans ?_, hok'⟩
    rw [afterPop_eq, plan_indexed (hok.indexed ver)]
    rfl

end ZsetTake

end

end Onedis.Store
