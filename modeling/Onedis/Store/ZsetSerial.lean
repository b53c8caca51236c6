import Onedis.Store.ZsetTasks

/-!
# 並行に実行した zset の命令は一列に並べられる

* `zsetTasks_serial` — `ZsetWriters.Calm` を満たす実行では、返事をした命令が一列に並ぶ
* `LostAddition.acknowledged_but_invisible` — 加えたと返事をした member が見えない実行

返事の効果は、書くと決めた命令では書き込みのときに、書くもののない命令では読み出しのときに確定する。

返事をした命令の列（log）に、今の中身がその列の順の実行の結果であることを添えて、一歩ずつ延ばす。
-/

namespace Onedis.Store

open Infra KeyRecords ZsetPut List ZsetWriter Visible

/-! ## 書き込みの仕様 -/

def packedParts : Option ZsetMain → Option (Nat × Scores)
  | none => some (0, ∅)
  | some (.packed e content) => some (e, content)
  | _ => none

section

variable {add : UInt64 → UInt64 → UInt64} {now n e ver : Nat} {recs : ZsetRecords}
  {content next : Scores} {reply : ZsetReply} {p : ZsetPut} {t : ZsetTake}

theorem view_packedParts (hdue : recs.Unexpired now)
    (h : packedParts recs.main = some (e, content)) :
    (recs.view zsetLayout now).parts ∅ = some (e, content) ∧ expireDue now e = false := by
  rw [view, hdue.live_eq]
  cases hmain : recs.main with
  | none =>
    rw [hmain] at h
    cases h
    exact ⟨rfl, rfl⟩
  | some record =>
    rw [hmain] at h
    cases record with
    | packed e' content' =>
      cases h
      exact ⟨rfl, hdue _ hmain⟩
    | split | foreign => cases h

theorem unexpired_setMain {record : Option ZsetMain}
    (h : ∀ r, record = some r → expireDue now r.expireMs = false) :
    (recs.setMain record).Unexpired now := h

theorem unexpired_putSmallZset (hdue : expireDue now e = false) (ver : Nat) :
    (putSmallZset recs e ver next).Unexpired now := by
  unfold putSmallZset
  split
  all_goals
    refine unexpired_setMain fun r hr => ?_
    cases hr
    exact hdue

theorem settle_dedup (stored current : Scores) (touched : List Text) :
    settle stored current touched.dedup = settle stored current touched := by
  refine Finmap.ext_lookup fun m => ?_
  simp [lookup_settle]

namespace ZsetPut

section

variable (hparts : (recs.view zsetLayout now).parts ∅ = some (e, content))
include hparts

theorem spec_of_clean (hexact : p.PackedExact content) (hclean : (p.packed add content).2.2 = false)
    :
    p.spec add (recs.view zsetLayout now) =
      ((p.packed add content).1, recs.view zsetLayout now) := by
  have hresult := @packed_exact add p content hexact
  rw [hclean, if_neg Bool.false_ne_true] at hresult
  rw [spec_eq hparts, ← hresult, extend_self hparts]

theorem spec_of_writing (hexact : p.PackedExact content)
    (hdirty : (p.packed add content).2.2 = true) :
    p.spec add (recs.view zsetLayout now) =
      ((p.packed add content).1, .value e (p.packed add content).2.1) := by
  have hresult := @packed_exact add p content hexact
  rw [hdirty, if_pos rfl] at hresult
  rw [spec_eq hparts, ← hresult, extend_of_ne_empty hparts (packed_ne_empty hdirty)]

omit hparts in
theorem splitExact_empty (add : UInt64 → UInt64 → UInt64) (p : ZsetPut) : p.SplitExact add ∅ := by
  cases p with
  | add request | addBatch cmds => trivial
  | incrBatch cmds =>
    have huntouched : ∀ (cs : List ZsetIncrCommand) (scores : Scores) (m : Text),
        m ∉ (incrKind add).touches scores cs → scores.lookup m = none →
          (runOne (incrAlways add) scores cs).2.lookup m = none := by
      intro cs
      induction cs with
      | nil => exact fun _ _ _ h => h
      | cons c cs ih =>
        intro scores m hm hnone
        obtain ⟨hhead, htail⟩ := not_or.mp fun h => hm (mem_append.mpr h)
        simp only [incrKind, runOne, incrAlways] at hhead htail ih ⊢
        cases hnext : incrNext add c scores with
        | none =>
          rw [hnext] at htail
          exact ih scores m htail hnone
        | some next =>
          rw [hnext] at hhead htail
          refine ih _ m htail ?_
          by_cases heq : m = c.member
          · -- まだない member なので、触らずに済むことはない
            subst heq
            simp [hnone] at hhead
          · rw [Finmap.lookup_insert_of_ne _ heq]
            exact hnone
    refine Finmap.ext_lookup fun m => ?_
    rw [lookup_settle, Finmap.lookup_empty, Option.or_none]
    split
    · rfl
    · next hm => exact (huntouched cmds ∅ m hm (Finmap.lookup_empty m)).symm

theorem spec_of_untouched (hexact : p.SplitExact add content)
    (hnil : (p.split add content).2.2 = []) :
    p.spec add (recs.view zsetLayout now) =
      ((p.split add content).1, recs.view zsetLayout now) := by
  have hresult := split_exact hexact
  rw [hnil] at hresult
  rw [spec_eq hparts, ← split_reply, ← hresult]
  exact congrArg (Prod.mk _) (extend_self hparts)

theorem spec_of_touched (hexact : p.SplitExact add content) (hne : (p.split add content).2.2 ≠ []) :
    p.spec add (recs.view zsetLayout now) = ((p.split add content).1,
      .value e (settle content (p.split add content).2.1 (p.split add content).2.2)) := by
  rw [spec_eq hparts, ← split_reply, ← split_exact hexact,
    extend_of_ne_empty hparts (settle_ne_empty hne content)]

end

theorem commitNew_spec {k : ZsetKey} (hok : ZsetOk k.counter k.recs) (hmain : k.recs.main = none)
    (hne : (p.split add ∅).2.2 ≠ []) :
    p.spec add (k.recs.view zsetLayout now) =
        ((p.split add ∅).1, (p.commitNew add k).recs.view zsetLayout now) ∧
      ZsetOk (p.commitNew add k).counter (p.commitNew add k).recs ∧
      (p.commitNew add k).recs.Unexpired now := by
  have hview := @view_missing _ _ _ _ zsetLayout now _ hmain
  have hparts : (k.recs.view zsetLayout now).parts ∅ = some (0, ∅) := by
    rw [hview]
    rfl
  refine ⟨?_, ?_, ?_⟩
  · rw [spec_of_touched hparts (splitExact_empty add p) hne]
    simp only [commitNew]
    rw [view_setSplit (expireDue_zero now)]
    refine Prod.ext rfl (congrArg (value 0) ?_)
    show _ = (putTouched _ _ _).members
    rw [hok.fresh.items_empty (Nat.lt_succ_self _), putTouched_members, settle_dedup]
    rfl
  · have hok' := hok.mono (Nat.le_succ k.counter)
    exact (hok'.setItems le_rfl (indexed_putTouched (hok'.indexed _) _ _)).setMain_split le_rfl 0
  · refine unexpired_setMain fun r hr => ?_
    cases hr
    rfl

theorem commitMembers_spec {k : ZsetKey} {seen : ZsetItems} (hok : ZsetOk k.counter k.recs)
    (hdue : k.recs.Unexpired now) (hmain : k.recs.main = some (.split e ver ()))
    (hne : (p.split add seen.members).2.2 ≠ [])
    (hagree : AgreeOn p.members seen.members (k.recs.items ver).members)
    (hexact : p.SplitExact add (k.recs.items ver).members) :
    p.spec add (k.recs.view zsetLayout now) = ((p.split add seen.members).1,
        (p.commitMembers add ver seen k).recs.view zsetLayout now) ∧
      ZsetOk (p.commitMembers add ver seen k).counter (p.commitMembers add ver seen k).recs ∧
      (p.commitMembers add ver seen k).recs.Unexpired now := by
  have hlive := hdue _ hmain
  obtain ⟨hreply, htouched, hsettle⟩ := @split_congr add p _ _ hagree
  have hparts : (k.recs.view zsetLayout now).parts ∅ =
      some (e, (k.recs.items ver).members) := by
    rw [view_split hmain hlive]
    rfl
  have hmain' : (p.commitMembers add ver seen k).recs.main = some (.split e ver ()) := hmain
  refine ⟨?_, ?_, hdue⟩
  · rw [spec_of_touched hparts hexact (htouched ▸ hne), view_split hmain' hlive]
    simp only [commitMembers, setItems_items_self]
    refine Prod.ext hreply.symm (congrArg (value e) ?_)
    show _ = (putTouched _ _ _).members
    rw [putTouched_members, settle_dedup, hsettle]
  · exact hok.setItems (hok.fresh.version_le hmain) (indexed_putTouched (hok.indexed _) _ _)

end ZsetPut

theorem unexpired_promotePackedZset (hdue : recs.Unexpired now) (ver : Nat) :
    (promotePackedZset ver recs).Unexpired now := by
  unfold promotePackedZset
  split
  · next e scores hmain =>
    refine unexpired_setMain fun r hr => ?_
    cases hr
    exact hdue (.packed e scores) hmain
  · exact hdue

theorem unexpired_commit (hdue : recs.Unexpired now) (seen : ZsetItems) (t : ZsetTake) :
    (t.commit recs ver seen).Unexpired now := by
  cases t with
  | remove members =>
    simp only [ZsetTake.commit, removeFound]
    split
    · exact unexpired_setMain fun r hr => by cases hr
    · exact hdue
  | pop min count =>
    simp only [ZsetTake.commit, popRanked]
    split
    · exact hdue
    · dsimp only
      split
      · exact unexpired_setMain fun r hr => by cases hr
      · exact hdue

end

/-! ## 不変条件 -/

def IsSplit (recs : ZsetRecords) (ver : Nat) : Prop := ∃ e, recs.main = some (.split e ver ())

def ZsetWriter.Valid (add : UInt64 → UInt64 → UInt64) (recs : ZsetRecords) (t : ZsetWriter) :
    Prop :=
  match t.op, t.phase with
  | .put p, .writing observed e next reply =>
    ∃ content, packedParts observed = some (e, content) ∧ p.PackedExact content ∧
      p.packed add content = (reply, next, true)
  | .take k, .writing observed e next reply =>
    ∃ content, observed = some (.packed e content) ∧ (k.plan (.ofScores content)).1 = reply ∧
      (k.plan (.ofScores content)).2 ≠ [] ∧
      next = (k.plan (.ofScores content)).2.foldl (fun scores m => scores.erase m) content
  | .take k, .promoting => k.idle = false
  | .take k, .promote _ _ => k.idle = false
  | .take k, .locked exclusive => exclusive = true ∧ k.idle = false
  | .put _, .versioned _ ver => IsSplit recs ver
  | .take _, .versioned exclusive ver => exclusive = true ∧ IsSplit recs ver
  | .put p, .creating _ => (p.split add ∅).2.2 ≠ []
  | .put p, .seen _ ver items => IsSplit recs ver ∧ (p.split add items.members).2.2 ≠ []
  | .take k, .seen exclusive ver items =>
    exclusive = true ∧ IsSplit recs ver ∧ items = recs.items ver ∧ (k.plan items).2 ≠ []
  | _, _ => True

section

variable {add : UInt64 → UInt64 → UInt64} {recs recs' : ZsetRecords} {t : ZsetWriter}

/-- 手元の情報は、guard を握る間に version が残り、書きで握る間に member も変わらなければ、正しいままである。 -/
theorem ZsetWriter.Valid.of_split (h : t.Valid add recs)
    (hs : t.guard ≠ .free → ∀ v, IsSplit recs v →
      IsSplit recs' v ∧ (t.guard = .write → recs'.items v = recs.items v)) : t.Valid add recs' := by
  obtain ⟨op, phase⟩ := t
  have hheld : ∀ x : Bool, (if x then Guard.write else Guard.read) ≠ .free := by
    intro x
    cases x <;> simp
  cases op with
  | put p =>
    cases phase with
    | versioned x v => exact (hs (hheld x) v h).1
    | seen x v items => exact ⟨(hs (hheld x) v h.1).1, h.2⟩
    | _ => exact h
  | take k =>
    cases phase with
    | versioned x v => exact ⟨h.1, (hs (hheld x) v h.2).1⟩
    | seen x v items =>
      obtain ⟨rfl, hsplit, hitems, hne⟩ := h
      obtain ⟨hsplit', heq⟩ := hs nofun v hsplit
      exact ⟨rfl, hsplit', hitems.trans (heq rfl).symm, hne⟩
    | _ => exact h

end

/-- 実行の不変条件。返事をした命令は、はじめの中身 `start` からの一列の実行になっている。 -/
structure ZsetWritersInv (add : UInt64 → UInt64 → UInt64) (now : Nat) (start : Visible Scores)
    (s : ZsetWriters) : Prop where
  ok : ZsetOk s.key.counter s.key.recs
  unexpired : s.key.recs.Unexpired now
  lock : Exclusive guard s.tasks
  valid : ∀ t ∈ s.tasks, t.Valid add s.key.recs
  serial : ∃ log, Logged (fun entry : ZsetDone => some entry.task) effect log s.tasks ∧
    Serial add log start (s.key.recs.view zsetLayout now)

namespace ZsetWritersInv

variable {add : UInt64 → UInt64 → UInt64} {now : Nat} {start : Visible Scores} {s : ZsetWriters}
  {i : Nat} {op : ZsetWrite} {phase phase' : ZsetWritePhase} {k : ZsetKey}

def Spares (add : UInt64 → UInt64 → UInt64) (s : ZsetWriters) (i : Nat) (k : ZsetKey) : Prop :=
  ∀ (j : Nat) (u : ZsetWriter), j ≠ i → s.tasks[j]? = some u → u.Valid add s.key.recs →
    u.Valid add k.recs

/-- 命令 `i` が次の段階に進むことを lock が許すなら、record を変えずに進んでも不変条件が保たれる。 -/
def Advances (add : UInt64 → UInt64 → UInt64) (now : Nat) (start : Visible Scores)
    (s : ZsetWriters) (i : Nat) (op : ZsetWrite) (phase phase' : ZsetWritePhase) : Prop :=
  GuardMove guard s.tasks ⟨op, phase⟩ ⟨op, phase'⟩ →
    ZsetWritersInv add now start ⟨s.key, s.tasks.set i ⟨op, phase'⟩⟩

theorem valid_set {q : ZsetWriter} (h : ∀ t ∈ s.tasks, t.Valid add s.key.recs)
    (hspares : Spares add s i k) (hq : q.Valid add k.recs) :
    ∀ t ∈ s.tasks.set i q, t.Valid add k.recs := by
  intro t ht
  obtain ⟨j, hj⟩ := mem_iff_getElem?.mp ht
  rcases getElem?_set_cases hj with ⟨-, rfl⟩ | ⟨hne, hj⟩
  · exact hq
  · exact hspares j t hne hj (h t (mem_of_getElem? hj))

section

variable (h : ZsetWritersInv add now start s)
include h

section

variable (ht : s.tasks[i]? = some ⟨op, phase⟩)
include ht

theorem quiet (hguard : GuardMove guard s.tasks ⟨op, phase⟩ ⟨op, phase'⟩)
    (hok : ZsetOk k.counter k.recs) (hdue : k.recs.Unexpired now) (hspares : Spares add s i k)
    (hvalid : Valid add k.recs ⟨op, phase'⟩)
    (hbefore : effect i ⟨op, phase⟩ = none)
    (hafter : effect i ⟨op, phase'⟩ = none)
    (hview : k.recs.view zsetLayout now = s.key.recs.view zsetLayout now) :
    ZsetWritersInv add now start ⟨k, s.tasks.set i ⟨op, phase'⟩⟩ where
  ok := hok
  unexpired := hdue
  lock := h.lock.set ht hguard
  valid := valid_set h.valid hspares hvalid
  serial := by
    obtain ⟨log, hlog, hserial⟩ := h.serial
    exact ⟨log, hlog.set_keep ht (hafter.trans hbefore.symm), hview ▸ hserial⟩

theorem keep (hvalid : Valid add s.key.recs ⟨op, phase'⟩)
    (hbefore : effect i ⟨op, phase⟩ = none)
    (hafter : effect i ⟨op, phase'⟩ = none) :
    Advances add now start s i op phase phase' := fun hguard =>
  h.quiet ht hguard h.ok h.unexpired (fun _ _ _ _ hu => hu) hvalid hbefore hafter rfl

/-- **返事をする一歩。** その命令を一つ実行したのと同じ返事と中身になるなら、記録の末尾に加えられる。 -/
theorem answer {reply : ZsetReply} (hok : ZsetOk k.counter k.recs) (hdue : k.recs.Unexpired now)
    (hspares : Spares add s i k) (hbefore : effect i ⟨op, phase⟩ = none)
    (hspec : op.spec add (s.key.recs.view zsetLayout now) = (reply, k.recs.view zsetLayout now)) :
    ZsetWritersInv add now start ⟨k, s.tasks.set i ⟨op, .done reply⟩⟩ where
  ok := hok
  unexpired := hdue
  lock := h.lock.set ht (.release rfl)
  valid := valid_set h.valid hspares (by cases op <;> trivial)
  serial := by
    obtain ⟨log, hlog, hserial⟩ := h.serial
    have happend := hserial.append ⟨i, op, reply⟩ (congrArg Prod.fst hspec)
    rw [hspec] at happend
    exact ⟨log ++ [⟨i, op, reply⟩], hlog.set_record ht hbefore rfl rfl, happend⟩

theorem answerNow {reply : ZsetReply} (hbefore : effect i ⟨op, phase⟩ = none)
    (hspec : op.spec add (s.key.recs.view zsetLayout now) =
      (reply, s.key.recs.view zsetLayout now)) :
    Advances add now start s i op phase (.done reply) := fun _ =>
  h.answer ht h.ok h.unexpired (fun _ _ _ _ hu => hu) hbefore hspec

end

omit h in
theorem spares_of_not_split (hns : ∀ v, ¬ IsSplit s.key.recs v) : Spares add s i k :=
  fun _ _ _ _ hu => hu.of_split fun _ v hv => absurd hv (hns v)

theorem spares_of_held (ht : s.tasks[i]? = some ⟨op, phase⟩)
    (hheld : guard ⟨op, phase⟩ ≠ .free) (hmain : k.recs.main = s.key.recs.main) :
    Spares add s i k := by
  intro j u hj hu hvalid
  refine hvalid.of_split fun _ v ⟨e, he⟩ => ⟨⟨e, hmain.trans he⟩, fun hw => ?_⟩
  exact absurd (h.lock.eq_of_held hu hw ht hheld).symm hj

end

theorem not_split_of_parts {recs : ZsetRecords} {observed : Option ZsetMain} {r : Nat × Scores}
    (hmain : recs.main = observed) (hparts : packedParts observed = some r) (v : Nat) :
    ¬ IsSplit recs v := by
  rintro ⟨e, he⟩
  rw [← hmain, he] at hparts
  cases hparts

/-! ## score を書く命令の一歩 -/

section

variable {p : ZsetPut} {e : Nat}

section

variable (h : ZsetWritersInv add now start s)

include h

variable (ht : s.tasks[i]? = some ⟨.put p, phase⟩)
include ht

section

variable (hbefore : effect i ⟨.put p, phase⟩ = none)
include hbefore

theorem putForeign {raw : Bytes} (hmain : s.key.recs.main = some (.foreign e raw)) :
    Advances add now start s i (.put p) phase (.done p.wrongType) := by
  refine h.answerNow ht hbefore ?_
  rw [view_foreign hmain (h.unexpired _ hmain)]
  exact p.spec_foreign e raw

theorem putDecide {content : Scores} (hparts : packedParts s.key.recs.main = some (e, content))
    (hexact : p.PackedExact content) :
    Advances add now start s i (.put p) phase (p.decidePacked add s.key.recs.main e content) := by
  have hview := (view_packedParts h.unexpired hparts).1
  unfold decidePacked
  split
  · exact h.keep ht trivial hbefore rfl
  · dsimp only
    split
    · next hdirty =>
      refine h.keep ht ⟨content, hparts, hexact, ?_⟩ hbefore rfl
      rw [← hdirty]
    · next hdirty =>
      exact h.answerNow ht hbefore (spec_of_clean hview hexact (Bool.eq_false_iff.mpr hdirty))

theorem putReadMain
    (hexact : ∀ e content,
      packedParts s.key.recs.main = some (e, content) → p.PackedExact content) :
    Advances add now start s i (.put p) phase (p.readMain add s.key.recs.main) := by
  cases hmain : s.key.recs.main with
  | none =>
    have hparts : packedParts s.key.recs.main = some (0, ∅) := by
      rw [hmain]
      rfl
    have hdecide := h.putDecide ht hbefore hparts (hexact _ _ hparts)
    rwa [hmain] at hdecide
  | some record =>
    cases record with
    | packed e content =>
      have hparts : packedParts s.key.recs.main = some (e, content) := by
        rw [hmain]
        rfl
      have hdecide := h.putDecide ht hbefore hparts (hexact _ _ hparts)
      rwa [hmain] at hdecide
    | split e ver info =>
      simp only [readMain]
      split
      · exact h.keep ht trivial hbefore rfl
      · exact h.keep ht trivial hbefore rfl
    | foreign e raw => exact h.putForeign ht hbefore hmain

end

omit ht in
theorem putWriting {observed : Option ZsetMain} {next : Scores} {reply : ZsetReply}
    (ht : s.tasks[i]? = some ⟨.put p, .writing observed e next reply⟩)
    (hmain : s.key.recs.main = observed) :
    ZsetWritersInv add now start ⟨⟨putSmallZset s.key.recs e (s.key.counter + 1) next,
      s.key.counter + 1⟩, s.tasks.set i ⟨.put p, .done reply⟩⟩ := by
  obtain ⟨content, hparts, hexact, hpacked⟩ := h.valid _ (mem_of_getElem? ht)
  obtain ⟨hview, hdue⟩ := view_packedParts h.unexpired (hmain ▸ hparts)
  have hdirty : (p.packed add content).2.2 = true := congrArg (fun r => r.2.2) hpacked
  have hspec := spec_of_writing hview hexact hdirty
  rw [hpacked] at hspec
  obtain ⟨hwritten, hok⟩ := putSmallZset_spec now h.ok (Nat.lt_succ_self _) le_rfl hdue
  refine h.answer ht hok (unexpired_putSmallZset hdue _)
    (spares_of_not_split (not_split_of_parts hmain hparts)) rfl ?_
  rw [hwritten]
  exact hspec

omit ht in
theorem promoted {e : Nat} {content : Scores} (ht : s.tasks[i]? = some ⟨op, .promote e content⟩)
    (hmain : s.key.recs.main = some (.packed e content))
    (hguard : GuardMove guard s.tasks ⟨op, .promote e content⟩ ⟨op, phase'⟩)
    (hvalid : ∀ recs, Valid add recs ⟨op, phase'⟩)
    (hafter : effect i ⟨op, phase'⟩ = none) :
    ZsetWritersInv add now start ⟨⟨promotePackedZset (s.key.counter + 1) s.key.recs,
      s.key.counter + 1⟩, s.tasks.set i ⟨op, phase'⟩⟩ :=
  h.quiet ht hguard (h.ok.promote (Nat.lt_succ_self _) le_rfl)
    (unexpired_promotePackedZset h.unexpired _)
    (spares_of_not_split (@not_split_of_parts s.key.recs _ (e, content) hmain rfl)) (hvalid _) rfl
    hafter (view_promotePackedZset h.ok.fresh (Nat.lt_succ_self _) now)

variable {exclusive : Bool}

omit ht in
theorem putReadLocked (ht : s.tasks[i]? = some ⟨.put p, .locked exclusive⟩)
    (hcalm : ∀ e content, s.key.recs.main ≠ some (.packed e content)) :
    Advances add now start s i (.put p) (.locked exclusive)
      (p.readLocked add exclusive s.key.recs.main) := by
  cases hmain : s.key.recs.main with
  | none =>
    have hparts : packedParts s.key.recs.main = some (0, ∅) := by
      rw [hmain]
      rfl
    have hview := (view_packedParts h.unexpired hparts).1
    simp only [readLocked]
    split
    · next hnil =>
      exact h.answerNow ht rfl (spec_of_untouched hview (splitExact_empty add p) hnil)
    · next hne => exact h.keep ht hne rfl rfl
  | some record =>
    cases record with
    | packed e content => exact absurd hmain (hcalm e content)
    | split e ver info => exact h.keep ht ⟨e, hmain⟩ rfl rfl
    | foreign e raw => exact h.putForeign ht rfl hmain

omit ht in
theorem putReadMembers {ver : Nat} (ht : s.tasks[i]? = some ⟨.put p, .versioned exclusive ver⟩)
    (hcalm : (p.split add (s.key.recs.items ver).members).2.2 = [] →
      p.SplitExact add (s.key.recs.items ver).members) :
    Advances add now start s i (.put p) (.versioned exclusive ver)
      (p.readMembers add exclusive ver (s.key.recs.items ver)) := by
  have hsplit : IsSplit s.key.recs ver := h.valid _ (mem_of_getElem? ht)
  obtain ⟨e, hmain⟩ := hsplit
  have hparts : (s.key.recs.view zsetLayout now).parts ∅ =
      some (e, (s.key.recs.items ver).members) := by
    rw [view_split hmain (h.unexpired _ hmain)]
    rfl
  simp only [readMembers]
  split
  · next hnil => exact h.answerNow ht rfl (spec_of_untouched hparts (hcalm hnil) hnil)
  · next hne => exact h.keep ht ⟨⟨e, hmain⟩, hne⟩ rfl rfl

theorem keepConflict (hbefore : effect i ⟨.put p, phase⟩ = none) :
    Advances add now start s i (.put p) phase (p.conflict exclusive) := by
  unfold conflict
  split
  · exact h.keep ht trivial hbefore rfl
  · exact h.keep ht trivial hbefore rfl

omit ht in
theorem putSeen {ver : Nat} {items : ZsetItems}
    (ht : s.tasks[i]? = some ⟨.put p, .seen exclusive ver items⟩)
    (hagree : AgreeOn p.members items.members (s.key.recs.items ver).members)
    (hexact : p.SplitExact add (s.key.recs.items ver).members) :
    ZsetWritersInv add now start ⟨p.commitMembers add ver items s.key,
      s.tasks.set i ⟨.put p, .done (p.split add items.members).1⟩⟩ := by
  obtain ⟨⟨e, hmain⟩, hne⟩ := h.valid _ (mem_of_getElem? ht)
  obtain ⟨hspec, hok, hdue⟩ := commitMembers_spec h.ok h.unexpired hmain hne hagree hexact
  refine h.answer ht hok hdue (h.spares_of_held ht ?_ rfl) rfl hspec
  cases exclusive <;> simp [ZsetWriter.guard]

theorem putGuarded (hbefore : effect i ⟨.put p, phase⟩ = none)
    (hcalm : ZsetWriter.Calm add s.key ⟨.put p, .guarded⟩) :
    Advances add now start s i (.put p) phase (p.readMain add s.key.recs.main) := by
  refine h.putReadMain ht hbefore fun e content hparts => ?_
  simp only [ZsetWriter.Calm] at hcalm
  cases hmain : s.key.recs.main with
  | none =>
    rw [hmain] at hcalm hparts
    cases hparts
    exact hcalm
  | some record =>
    rw [hmain] at hcalm hparts
    cases record with
    | packed e' content' =>
      cases hparts
      exact hcalm
    | split e' v info | foreign e' raw => cases hparts

/-- lock を取らずに読むのは、一つの命令の `ZADD` だけである。 -/
theorem putUnguarded (hbefore : effect i ⟨.put p, phase⟩ = none) (hfree : p.lockFree = true) :
    Advances add now start s i (.put p) phase (p.readMain add s.key.recs.main) := by
  refine h.putReadMain ht hbefore fun _ content _ => ?_
  cases p with
  | add request => trivial
  | addBatch cmds | incrBatch cmds => cases hfree

omit ht in
theorem putCreating (ht : s.tasks[i]? = some ⟨.put p, .creating exclusive⟩)
    (hmain : s.key.recs.main = none) :
    ZsetWritersInv add now start
      ⟨p.commitNew add s.key, s.tasks.set i ⟨.put p, .done (p.split add ∅).1⟩⟩ := by
  have hne : (p.split add ∅).2.2 ≠ [] := h.valid _ (mem_of_getElem? ht)
  obtain ⟨hspec, hok, hdue⟩ := @commitNew_spec add now p s.key h.ok hmain hne
  exact h.answer ht hok hdue
    (spares_of_not_split (@not_split_of_parts s.key.recs _ (0, ∅) hmain rfl)) rfl hspec

/-- **score を書く命令の一歩は、不変条件を保つ。** -/
theorem putStep {alternate : Bool} (hcalm : ZsetWriter.Calm add s.key ⟨.put p, phase⟩)
    (hadv : p.advance add alternate s.key phase = some (k, phase'))
    (hguard : GuardMove guard s.tasks ⟨.put p, phase⟩ ⟨.put p, phase'⟩) :
    ZsetWritersInv add now start ⟨k, s.tasks.set i ⟨.put p, phase'⟩⟩ := by
  cases phase with
  | start =>
    cases hadv
    split_ifs at hguard ⊢ with hfree
    · exact h.putUnguarded ht rfl hfree hguard
    · exact h.keep ht trivial rfl rfl hguard
  | guarded =>
    cases hadv
    exact h.putGuarded ht rfl hcalm hguard
  | writing observed e next reply =>
    simp only [advance] at hadv
    split at hadv
    · next hmain =>
      cases hadv
      exact h.putWriting ht hmain
    · split at hadv
      · cases hadv
        exact h.keep ht trivial rfl rfl hguard
      · cases hadv
        split_ifs at hguard ⊢
        · exact h.keep ht trivial rfl rfl hguard
        · exact h.keep ht trivial rfl rfl hguard
  | promoting =>
    simp only [advance] at hadv
    split at hadv
    all_goals
      cases hadv
      exact h.keep ht trivial rfl rfl hguard
  | promote e content =>
    simp only [advance] at hadv
    split at hadv
    · next hmain =>
      cases hadv
      exact h.promoted ht hmain hguard (fun _ => trivial) rfl
    · cases hadv
      exact h.keep ht trivial rfl rfl hguard
  | between =>
    cases hadv
    exact h.keep ht trivial rfl rfl hguard
  | locked exclusive =>
    cases hadv
    refine h.putReadLocked ht (fun e content hmain => ?_) hguard
    simp only [ZsetWriter.Calm, hmain] at hcalm
  | versioned exclusive ver =>
    cases hadv
    exact h.putReadMembers ht hcalm hguard
  | creating exclusive =>
    simp only [advance] at hadv
    split at hadv
    · next hmain =>
      cases hadv
      exact h.putCreating ht hmain
    · cases hadv
      exact h.keepConflict ht rfl hguard
  | seen exclusive ver items =>
    simp only [advance] at hadv
    split at hadv
    · next hsame =>
      cases hadv
      obtain ⟨hagree, hexact⟩ := hcalm hsame
      exact h.putSeen ht hagree hexact
    · cases hadv
      exact h.keepConflict ht rfl hguard
  | done reply | abandoned => cases hadv

end

end

/-! ## 取り除く命令の一歩 -/

section

variable {t : ZsetTake}

section

variable (h : ZsetWritersInv add now start s)

include h

section

variable (ht : s.tasks[i]? = some ⟨.take t, phase⟩)
  (hbefore : effect i ⟨.take t, phase⟩ = none)
include ht hbefore

theorem takeForeign (hidle : t.idle = false) {e : Nat} {raw : Bytes}
    (hmain : s.key.recs.main = some (.foreign e raw)) :
    Advances add now start s i (.take t) phase (.done t.wrongType) := by
  refine h.answerNow ht hbefore ?_
  rw [view_foreign hmain (h.unexpired _ hmain)]
  exact ZsetTake.spec_foreign hidle e raw

theorem takeMissing (hmain : s.key.recs.main = none) :
    Advances add now start s i (.take t) phase (.done t.nothing) := by
  refine h.answerNow ht hbefore ?_
  rw [view_missing hmain]
  cases t <;> rfl

end

omit h in
theorem spec_of_nothing {e : Nat} {content : Scores} (hnil : (t.plan (.ofScores content)).2 = []) :
    t.spec (.value e content) = ((t.plan (.ofScores content)).1, .value e content) := by
  rw [t.spec_value, hnil]
  rfl

theorem takeReadMain (ht : s.tasks[i]? = some ⟨.take t, .guarded⟩) (hidle : t.idle = false) :
    Advances add now start s i (.take t) .guarded (t.readMain s.key.recs.main) := by
  cases hmain : s.key.recs.main with
  | none => exact h.takeMissing ht rfl hmain
  | some record =>
    cases record with
    | packed e content =>
      simp only [ZsetTake.readMain]
      split
      · next hnil =>
        refine h.answerNow ht rfl ?_
        rw [view_packed hmain (h.unexpired _ hmain)]
        exact spec_of_nothing hnil
      · next hne => exact h.keep ht ⟨content, rfl, rfl, hne, rfl⟩ rfl rfl
    | split e ver info => exact h.keep ht ⟨rfl, hidle⟩ rfl rfl
    | foreign e raw => exact h.takeForeign ht rfl hidle hmain

theorem takeWriting {observed : Option ZsetMain} {e : Nat} {next : Scores} {reply : ZsetReply}
    (ht : s.tasks[i]? = some ⟨.take t, .writing observed e next reply⟩)
    (hmain : s.key.recs.main = observed) :
    ZsetWritersInv add now start
      ⟨⟨s.key.recs.setMain (if next = ∅ then none else some (.packed e next)), s.key.counter⟩,
        s.tasks.set i ⟨.take t, .done reply⟩⟩ := by
  obtain ⟨content, hobserved, hreply, hne, hnext⟩ := h.valid _ (mem_of_getElem? ht)
  have hpacked := hmain.trans hobserved
  have hdue : expireDue now e = false := h.unexpired _ hpacked
  subst hnext hreply
  refine h.answer ht ?_ (unexpired_setMain fun r hr => ?_)
    (spares_of_not_split (@not_split_of_parts s.key.recs _ (e, content) hpacked rfl)) rfl ?_
  · dsimp only
    split
    · exact h.ok.setMain_none
    · exact h.ok.setMain_packed e (packedZsetFits_foldl_erase (h.ok.packed_fits hpacked) _)
  · split at hr
    · cases hr
    · cases hr
      exact hdue
  · dsimp only
    rw [view_setRest hdue hne, view_packed hpacked hdue]
    exact t.spec_value e content

variable {exclusive : Bool}

theorem takeReadLocked (ht : s.tasks[i]? = some ⟨.take t, .locked exclusive⟩)
    (hcalm : ∀ e content, s.key.recs.main ≠ some (.packed e content)) :
    Advances add now start s i (.take t) (.locked exclusive)
      (t.readLocked exclusive s.key.recs.main) := by
  obtain ⟨hexclusive, hidle⟩ := h.valid _ (mem_of_getElem? ht)
  cases hmain : s.key.recs.main with
  | none => exact h.takeMissing ht rfl hmain
  | some record =>
    cases record with
    | packed e content => exact absurd hmain (hcalm e content)
    | split e ver info => exact h.keep ht ⟨hexclusive, e, hmain⟩ rfl rfl
    | foreign e raw => exact h.takeForeign ht rfl hidle hmain

theorem takeReadMembers {ver : Nat} (ht : s.tasks[i]? = some ⟨.take t, .versioned exclusive ver⟩) :
    Advances add now start s i (.take t) (.versioned exclusive ver)
      (t.readMembers exclusive ver (s.key.recs.items ver)) := by
  obtain ⟨hexclusive, e, hmain⟩ := h.valid _ (mem_of_getElem? ht)
  simp only [ZsetTake.readMembers]
  split
  · next hnil =>
    refine h.answerNow ht rfl ?_
    have hplan := @ZsetTake.plan_indexed t _ (h.ok.indexed ver)
    rw [hplan] at hnil ⊢
    rw [view_split hmain (h.unexpired _ hmain)]
    exact spec_of_nothing hnil
  · next hne => exact h.keep ht ⟨hexclusive, ⟨e, hmain⟩, rfl, hne⟩ rfl rfl

theorem takeSeen {ver : Nat} {items : ZsetItems}
    (ht : s.tasks[i]? = some ⟨.take t, .seen exclusive ver items⟩) :
    ZsetWritersInv add now start ⟨⟨t.commit s.key.recs ver items, s.key.counter⟩,
      s.tasks.set i ⟨.take t, .done (t.plan items).1⟩⟩ := by
  obtain ⟨hexclusive, ⟨e, hmain⟩, hitems, hne⟩ := h.valid _ (mem_of_getElem? ht)
  have hdue := h.unexpired _ hmain
  subst hitems hexclusive
  obtain ⟨hview, hok⟩ := ZsetTake.commit_spec h.ok hmain hdue hne
  refine h.answer ht hok (unexpired_commit h.unexpired _ t)
    (fun _ _ hj hu hvalid => hvalid.of_split fun hc =>
      absurd (h.lock _ _ _ _ ht hu (Ne.symm hj) rfl) hc) rfl ?_
  rw [hview, ZsetTake.plan_indexed (h.ok.indexed ver), view_split hmain hdue]
  exact t.spec_value e _

/-- **取り除く命令の一歩は、不変条件を保つ。** -/
theorem takeStep {alternate : Bool} (ht : s.tasks[i]? = some ⟨.take t, phase⟩)
    (hcalm : ZsetWriter.Calm add s.key ⟨.take t, phase⟩)
    (hadv : t.advance alternate s.key phase = some (k, phase'))
    (hguard : GuardMove guard s.tasks ⟨.take t, phase⟩ ⟨.take t, phase'⟩) :
    ZsetWritersInv add now start ⟨k, s.tasks.set i ⟨.take t, phase'⟩⟩ := by
  cases phase with
  | start =>
    cases hadv
    exact h.keep ht trivial rfl rfl hguard
  | guarded =>
    cases hadv
    split_ifs at hguard ⊢ with hidle
    · exact h.answerNow ht rfl (ZsetTake.spec_idle hidle _) hguard
    · exact h.takeReadMain ht (Bool.eq_false_iff.mpr hidle) hguard
  | writing observed e next reply =>
    simp only [ZsetTake.advance] at hadv
    split at hadv
    · next hmain =>
      cases hadv
      exact h.takeWriting ht hmain
    · cases hadv
      split_ifs at hguard ⊢ with hpromotes
      · refine h.keep ht ?_ rfl rfl hguard
        cases t with
        | remove members => rfl
        | pop min count => simp [ZsetTake.promotes] at hpromotes
      · exact h.keep ht trivial rfl rfl hguard
  | promoting =>
    have hidle : t.idle = false := h.valid _ (mem_of_getElem? ht)
    simp only [ZsetTake.advance] at hadv
    split at hadv
    · cases hadv
      exact h.keep ht hidle rfl rfl hguard
    · cases hadv
      exact h.keep ht ⟨rfl, hidle⟩ rfl rfl hguard
  | promote e content =>
    have hidle : t.idle = false := h.valid _ (mem_of_getElem? ht)
    simp only [ZsetTake.advance] at hadv
    split at hadv
    · next hmain =>
      cases hadv
      exact h.promoted ht hmain hguard (fun _ => ⟨rfl, hidle⟩) rfl
    · cases hadv
      exact h.keep ht hidle rfl rfl hguard
  | locked exclusive =>
    cases hadv
    refine h.takeReadLocked ht (fun e content hmain => ?_) hguard
    simp only [ZsetWriter.Calm, hmain] at hcalm
  | versioned exclusive ver =>
    cases hadv
    exact h.takeReadMembers ht hguard
  | seen exclusive ver items =>
    cases hadv
    exact h.takeSeen ht
  | between | creating exclusive | done reply | abandoned => cases hadv

end

end

/-! ## 全体の一歩 -/

theorem spawn (h : ZsetWritersInv add now start s) (op : ZsetWrite) :
    ZsetWritersInv add now start { s with tasks := s.tasks ++ [⟨op, .start⟩] } where
  ok := h.ok
  unexpired := h.unexpired
  lock := h.lock.push rfl
  valid := forall_mem_concat h.valid (by cases op <;> trivial)
  serial := by
    obtain ⟨log, hlog, hserial⟩ := h.serial
    exact ⟨log, hlog.push fun _ => rfl, hserial⟩

theorem step {s' : ZsetWriters} {event : ZsetWriterEvent} (h : ZsetWritersInv add now start s)
    (hcalm : s.Calm add event) (hstep : s.step add event = some s') :
    ZsetWritersInv add now start s' := by
  cases event with
  | spawn op =>
    cases hstep
    exact h.spawn op
  | advance i alternate =>
    obtain ⟨⟨op, phase⟩, ht, hstep⟩ := Option.bind_eq_some_iff.mp hstep
    obtain ⟨⟨k, phase'⟩, hadv, hmove⟩ := Option.bind_eq_some_iff.mp hstep
    obtain ⟨hguard, hmove⟩ := Option.ite_none_right_eq_some.mp hmove
    cases hmove
    cases op with
    | put p => exact h.putStep ht (hcalm _ ht) hadv hguard
    | take t => exact h.takeStep ht (hcalm _ ht) hadv hguard
  | abandon i =>
    obtain ⟨⟨op, phase⟩, ht, hstep⟩ := Option.bind_eq_some_iff.mp hstep
    have hvalid : Valid add s.key.recs ⟨op, .abandoned⟩ := by cases op <;> trivial
    cases phase with
    | done reply => cases hstep
    | _ =>
      obtain ⟨-, hstep⟩ := Option.ite_none_right_eq_some.mp hstep
      cases hstep
      exact h.keep ht hvalid rfl rfl (.release rfl)

end ZsetWritersInv

/-! ## 加えた member は残る -/

def Visible.Shows (v : Visible Scores) (m : Text) : Prop :=
  ∃ e content, v = .value e content ∧ content.lookup m ≠ none

namespace ZsetDone

/-- 返事が、member `m` のあることを約束している。 -/
def Adds (m : Text) (entry : ZsetDone) : Prop :=
  match entry.op with
  | .put p => p.Adds m entry.reply
  | .take _ => False

/-- member `m` を取り除く命令である。 -/
def Removes (m : Text) (entry : ZsetDone) : Prop :=
  match entry.op, entry.reply with
  | .take (.remove members), _ => m ∈ members
  | .take (.pop _ _), .popped (.ok popped) => m ∈ popped.map Prod.fst
  | _, _ => False

end ZsetDone

section

variable {add : UInt64 → UInt64 → UInt64} {m : Text} {v v' : Visible Scores}

theorem Visible.shows_extend {e : Nat} {stored scores : Scores}
    (hparts : v.parts ∅ = some (e, stored)) (h : scores.lookup m ≠ none) :
    (v.extend scores).Shows m :=
  ⟨e, scores, extend_of_ne_empty hparts (Scores.ne_empty_iff.mpr ⟨m, h⟩), h⟩

theorem shows_afterRemove {e : Nat} {content : Scores} {found : List Text}
    (h : content.lookup m ≠ none) (hm : m ∉ found) : (afterRemove e content found).Shows m := by
  have hrest : (found.foldl (fun scores m => scores.erase m) content).lookup m ≠ none := by
    rwa [lookup_foldl_erase, if_neg hm]
  unfold afterRemove
  split
  · exact ⟨e, content, rfl, h⟩
  · dsimp only
    rw [if_neg (Scores.ne_empty_iff.mpr ⟨m, hrest⟩)]
    exact ⟨e, _, rfl, hrest⟩

variable {entry : ZsetDone}

theorem spec_adds (hreply : (entry.op.spec add v).1 = entry.reply) (h : entry.Adds m) :
    (entry.op.spec add v).2.Shows m := by
  obtain ⟨task, op, reply⟩ := entry
  dsimp only at hreply ⊢
  subst hreply
  cases op with
  | take t => exact h.elim
  | put p =>
    show (p.spec add v).2.Shows m
    have hadds : p.Adds m (p.spec add v).1 := h
    cases hparts : v.parts ∅ with
    | none =>
      obtain ⟨e, raw, rfl⟩ := parts_eq_none.mp hparts
      rw [p.spec_foreign] at hadds
      exact absurd hadds p.not_adds_wrongType
    | some r =>
      rw [spec_eq hparts] at hadds ⊢
      exact shows_extend hparts (result_adds hadds)

theorem spec_keeps (hreply : (entry.op.spec add v).1 = entry.reply) (hshows : v.Shows m)
    (hnot : ¬ entry.Removes m) : (entry.op.spec add v).2.Shows m := by
  obtain ⟨e, content, rfl, hm⟩ := hshows
  obtain ⟨task, op, reply⟩ := entry
  dsimp only at hreply ⊢
  subst hreply
  cases op with
  | put p =>
    show (p.spec add _).2.Shows m
    have hparts : (value e content).parts ∅ = some (e, content) := rfl
    rw [spec_eq hparts]
    exact shows_extend hparts (p.result_kept hm)
  | take t =>
    show (t.spec _).2.Shows m
    have hkept : m ∉ (t.plan (.ofScores content)).2 := by
      cases t with
      | remove members => exact fun hfound => hnot (mem_of_mem_presentMembers hfound)
      | pop min count => exact hnot
    rw [t.spec_value]
    exact shows_afterRemove hm hkept

theorem Serial.shows {before after : List ZsetDone} (h : Serial add (before ++ entry :: after) v v')
    (hadds : entry.Adds m) (hafter : ∀ later ∈ after, ¬ later.Removes m) : v'.Shows m := by
  have hkeep : ∀ (log : List ZsetDone) (v : Visible Scores), (∀ later ∈ log, ¬ later.Removes m) →
      v.Shows m → Serial add log v v' → v'.Shows m := by
    intro log
    induction log with
    | nil =>
      intro v _ hshows hserial
      cases hserial
      exact hshows
    | cons first log ih =>
      intro v hlog hshows hserial
      exact ih _ (fun later hl => hlog later (mem_cons_of_mem first hl))
        (spec_keeps hserial.1 hshows (hlog first mem_cons_self)) hserial.2
  induction before generalizing v with
  | nil => exact hkeep after _ hafter (spec_adds h.1 hadds) h.2
  | cons first before ih => exact ih h.2

/-! ## 一列の順序 -/

/--
**条件を満たすどの実行でも、返事をした命令はある順に並び、その順に一つずつ実行したときと返事も中身も等しい。**
とくに、加えたと返事をした member は、並びの中でその後の命令が取り除かない限り見える。
-/
theorem zsetTasks_serial {now counter : Nat} {recs : ZsetRecords} {events : List ZsetWriterEvent}
    {s : ZsetWriters} (hok : ZsetOk counter recs) (hdue : recs.Unexpired now)
    (hcalm : Obeys (ZsetWriters.step add) (ZsetWriters.Calm add) ⟨⟨recs, counter⟩, []⟩ events)
    (hrun : run (ZsetWriters.step add) ⟨⟨recs, counter⟩, []⟩ events = some s) :
    ∃ log : List ZsetDone,
      Logged (fun entry : ZsetDone => some entry.task) effect log s.tasks ∧
        Serial add log (recs.view zsetLayout now) (s.key.recs.view zsetLayout now) ∧
        ∀ before entry after m, log = before ++ entry :: after → ZsetDone.Adds m entry →
          (∀ later ∈ after, ¬ later.Removes m) → (s.key.recs.view zsetLayout now).Shows m := by
  have hinit : ZsetWritersInv add now (recs.view zsetLayout now) ⟨⟨recs, counter⟩, []⟩ :=
    { ok := hok
      unexpired := hdue
      lock := .nil
      valid := nofun
      serial := ⟨[], fun _ => rfl, rfl⟩ }
  have hinv := run_induction (fun s a s' hi hc hs => ZsetWritersInv.step hi hc hs) hinit hcalm hrun
  obtain ⟨log, hlog, hserial⟩ := hinv.serial
  refine ⟨log, hlog, hserial, ?_⟩
  rintro before entry after m rfl hadds hafter
  exact hserial.shows hadds hafter

end

/-! ## 失われる書き込み -/

namespace LostAddition

open RepeatedMember (a b one two three noAdd missing split)

def c : Text := ⟨[99], by decide, by decide⟩

def zero : Score := ⟨0, by decide⟩

def five : Score := ⟨0x4014000000000000, by decide⟩

def zadd (pairs : List ScorePair) : ZsetWrite := .put (.add ⟨[], pairs, .default⟩)

def zrem (members : List Text) : ZsetWrite := .take (.remove members)

def outcome (start : ZsetKey) (events : List ZsetWriterEvent) :
    Option (List (Option ZsetReply) × Visible Scores) :=
  (run (ZsetWriters.step noAdd) ⟨start, []⟩ events).map fun s =>
    (s.tasks.map fun t => (t.effect 0).map ZsetDone.reply, s.key.recs.view zsetLayout 1000)

/--
task 0 の `ZADD k 2 b` は分けた zset を見た後、guard を取る前に止まる。task 1 の `ZREM k a` が key を消し、
task 2 の `ZADD k 3 c` が詰めた形で作り直す。
-/
def recreated : List ZsetWriterEvent :=
  [.spawn (zadd [(two, b)]), .spawn (zrem [a]), .spawn (zadd [(three, c)]),
    .advance 0 false,
    .advance 1 false, .advance 1 false, .advance 1 false, .advance 1 false, .advance 1 false,
    .advance 2 false, .advance 2 false,
    .advance 0 false, .advance 0 false, .advance 0 false, .advance 0 false]

/-- version 1 に分けた zset `{a: 1, b: 0}`。 -/
def pair : ZsetRecords :=
  ⟨some (.split 0 1 ()), fun v =>
    if v = 1 then .ofScores (((∅ : Scores).insert a one).insert b zero) else ∅⟩

/-- `ZADD k 1 a 2 b` と `ZADD k 5 a 0 b` が、どちらも書く前に読む。 -/
def crossed : List ZsetWriterEvent :=
  [.spawn (zadd [(one, a), (two, b)]), .spawn (zadd [(five, a), (zero, b)]),
    .advance 0 false, .advance 0 false, .advance 0 false, .advance 0 false,
    .advance 1 false, .advance 1 false, .advance 1 false, .advance 1 false,
    .advance 0 false, .advance 1 false]

/--
**加えたと返事をした `b` は、どの命令も取り除かないのに見えない。** 作り直された詰めた record の version 0 に
書くからである。また、二つの ZADD が互いの書かない member を書くと、どちらの順でも得られない中身が残る。
-/
theorem acknowledged_but_invisible : outcome ⟨split, 1⟩ recreated =
        some ([some (.outcomes [.ok ⟨1, 1, true, none⟩]), some (.removed (.ok 1)),
          some (.outcomes [.ok ⟨1, 1, true, none⟩])], .value 0 ((∅ : Scores).insert c three)) ∧
      outcome ⟨pair, 1⟩ crossed =
        some ([some (.outcomes [.ok ⟨0, 1, true, none⟩]),
          some (.outcomes [.ok ⟨0, 1, true, none⟩])],
          .value 0 (((∅ : Scores).insert b two).insert a five)) := by
  decide

/-- `ZADD k 1 a` が key のないことを見てから書くまでの間に、`ZREM k b` が割り込む。 -/
def interleaved : List ZsetWriterEvent :=
  [.spawn (zadd [(one, a)]), .advance 0 false, .spawn (zrem [b]), .advance 1 false,
    .advance 1 false, .advance 0 false]

theorem interleaved_serial :
    ∃ s log, run (ZsetWriters.step noAdd) ⟨⟨missing, 0⟩, []⟩ interleaved = some s ∧
      Logged (fun entry : ZsetDone => some entry.task) effect log s.tasks ∧
      Serial noAdd log (missing.view zsetLayout 1000) (s.key.recs.view zsetLayout 1000) := by
  have hcalm : Obeys (ZsetWriters.step noAdd) (ZsetWriters.Calm noAdd) ⟨⟨missing, 0⟩, []⟩
      interleaved := by decide
  obtain ⟨s, hrun⟩ : ∃ s, run (ZsetWriters.step noAdd) ⟨⟨missing, 0⟩, []⟩ interleaved = some s :=
    Option.isSome_iff_exists.mp (by decide)
  obtain ⟨log, hlog, hserial, -⟩ := @zsetTasks_serial noAdd 1000 0 missing interleaved s
    RepeatedMember.missing_ok nofun hcalm hrun
  exact ⟨s, log, hrun, hlog, hserial⟩

end LostAddition

end Onedis.Store
