import Onedis.Infra.TwoEnds
import Onedis.Store.ZsetRecords

/-!
# まとめて実行する ZPOPMIN / ZPOPMAX

`zset_pop_batch_async` は、key ごとに rank の両端だけを一度ずつ読み、命令をその窓の上で順に実行し、最後に一度
だけ書く。RESP2 の ZPOPMIN / ZPOPMAX は、一つだけのときもこの関数を通る。`zset_pop_async_unlocked` は、
RESP3 と MULTI と Lua の入口である。

* `zsetPopBatch_matches` — まとめた実行は、一つずつの実行に等しい
-/

namespace Onedis.Store

open Infra Function KeyRecords List
open Codec (wrongTypeError)

abbrev ZsetEntry := Text × Score

/-- pipeline の一つの ZPOPMIN か ZPOPMAX。 -/
structure ZsetPopCommand where
  key : Bytes
  min : Bool
  count : Nat
  deriving DecidableEq

/-! ## 一つずつの実行 -/

def popPacked (recs : ZsetRecords) (e : Nat) (scores : Scores) (selected : List ZsetEntry) :
    Except String (List ZsetEntry) × ZsetRecords :=
  if selected = [] then (.ok [], recs)
  else
    let rest := eraseMembers selected scores
    (.ok selected, recs.setMain (if rest = ∅ then none else some (.packed e rest)))

/-- `prepare_ranked_zset_removal`。一つ余分に読み、残りがなければ main record も消す。 -/
def popRanked (recs : ZsetRecords) (ver : Nat) (rows : List ZsetEntry) (count : Nat) :
    Except String (List ZsetEntry) × ZsetRecords :=
  let entries := rows.take count
  if entries = [] then (.ok [], recs)
  else
    let erased := recs.setItems ver ((recs.items ver).eraseEntries entries)
    (.ok entries, if rows.length ≤ count then erased.setMain none else erased)

/-- `zset_pop_async_unlocked`。個数が 0 なら key を見ずに返す。 -/
def zsetPop (now : Nat) (min : Bool) (count : Nat) (stored : ZsetRecords) :
    Except String (List ZsetEntry) × ZsetRecords :=
  if count = 0 then (.ok [], stored)
  else
    let recs := stored.expireIfNeeded now
    match recs.main with
    | none => (.ok [], recs)
    | some (.foreign _ _) => (.error wrongTypeError, recs)
    | some (.packed e scores) =>
      popPacked recs e scores ((oriented min (ranked scores.pairs)).take count)
    | some (.split _ ver _) =>
      popRanked recs ver
        ((oriented min (ranked (recs.items ver).ranks)).take (count + 1)) count

/-! ## まとめての実行 -/

/-- 取り出しの候補と、取り出したもの。 -/
structure ZsetPopBatchState where
  version : Option Nat
  candidates : List ZsetEntry
  removed : List ZsetEntry

def requested (min : Bool) (cmds : List ZsetPopCommand) : Nat :=
  ((cmds.filter fun c => c.min = min).map ZsetPopCommand.count).sum

def popWindow (min : Bool) (cmds : List ZsetPopCommand) (ranks : Finset ZsetEntry) :
    List ZsetEntry :=
  if 0 < requested min cmds then (oriented min (ranked ranks)).take (requested min cmds + 1)
  else []

/-- `ZsetPopBatchState::from_raw` と候補の読み出し。詰めた record の version は 0 である。 -/
def loadPopState (cmds : List ZsetPopCommand) (recs : ZsetRecords) :
    Except String ZsetPopBatchState :=
  let candidates := fun ver =>
    let ranks := (recs.items ver).ranks
    ranked (popWindow true cmds ranks ++ popWindow false cmds ranks).toFinset
  match recs.main with
  | none => .ok ⟨none, [], []⟩
  | some (.foreign _ _) => .error wrongTypeError
  | some (.packed _ _) => .ok ⟨some 0, candidates 0, []⟩
  | some (.split _ ver _) => .ok ⟨some ver, candidates ver, []⟩

def popBatchStep (c : ZsetPopCommand) :
    Except String ZsetPopBatchState →
      Except String (List ZsetEntry) × Except String ZsetPopBatchState
  | .error msg => (.error msg, .error msg)
  | .ok state =>
    let out := popEnd c.min c.count state.candidates
    (.ok out.1, .ok { state with candidates := out.2, removed := state.removed ++ out.1 })

def writePopState (recs : ZsetRecords) : Except String ZsetPopBatchState → ZsetRecords
  | .error _ => recs
  | .ok state =>
    match state.version with
    | none => recs
    | some ver =>
      if state.removed = [] then recs
      else
        let erased := recs.setItems ver ((recs.items ver).eraseEntries state.removed)
        if state.candidates = [] then erased.setMain none else erased

def preparedZset (now : Nat) (keys : List Bytes) (s : ZsetStore) (key : Bytes) : ZsetRecords :=
  ((promoteZsets keys s).slots key).expireIfNeeded now

/-- `zset_pop_batch_async`。 -/
def zsetPopBatch (now : Nat) (cmds : List ZsetPopCommand) (s : ZsetStore) :
    List (Except String (List ZsetEntry)) × ZsetStore :=
  let keys := (cmds.map ZsetPopCommand.key).dedup
  let prepared := preparedZset now keys s
  let states := fun key =>
    loadPopState (addressedTo ZsetPopCommand.key key cmds) (prepared key)
  let out := runKeyed ZsetPopCommand.key popBatchStep states cmds
  (out.1,
    { slots := fun key =>
        if key ∈ keys then writePopState (prepared key) (out.2 key) else s.slots key
      counter := (promoteZsets keys s).counter })

/-! ## 見える中身の上の仕様 -/

def afterPop (e : Nat) (scores : Scores) (popped : List ZsetEntry) : Visible Scores :=
  if popped = [] then .value e scores
  else if eraseMembers popped scores = ∅ then .missing
  else .value e (eraseMembers popped scores)

def popSpec (c : ZsetPopCommand) :
    Visible Scores → Except String (List ZsetEntry) × Visible Scores
  | .foreign e raw => (if c.count = 0 then .ok [] else .error wrongTypeError, .foreign e raw)
  | .missing => (.ok [], .missing)
  | .value e scores =>
    let popped := (popEnd c.min c.count (ranked scores.pairs)).1
    (.ok popped, afterPop e scores popped)

def popBatchSpec (c : ZsetPopCommand) :
    Visible Scores → Except String (List ZsetEntry) × Visible Scores
  | .foreign e raw => (.error wrongTypeError, .foreign e raw)
  | v => popSpec c v

@[simp] theorem afterPop_nil (e : Nat) (scores : Scores) : afterPop e scores [] = .value e scores :=
  if_pos rfl

theorem ranked_eraseMembers (min : Bool) (count : Nat) (scores : Scores) :
    ranked (eraseMembers (popEnd min count (ranked scores.pairs)).1 scores).pairs =
      (popEnd min count (ranked scores.pairs)).2 := by
  symm
  refine eq_ranked ((pairwise_ranked _).sublist (popEnd_rest_sublist ..)) fun a => ?_
  rw [mem_popEnd_rest (nodup_ranked _), mem_ranked, mem_pairs_eraseMembers]
  exact fun b hb => mem_ranked.mp (popEnd_fst_subset hb)

variable {scores : Scores} {e : Nat}

theorem afterPop_append {l l' : List ZsetEntry}
    (h : afterPop e scores l = .value e (eraseMembers l scores)) :
    afterPop e scores (l ++ l') = afterPop e (eraseMembers l scores) l' := by
  by_cases hl' : l' = []
  · rw [hl', append_nil, afterPop_nil, h]
  · have hne : l ++ l' ≠ [] := by simp [hl']
    simp only [afterPop, if_neg hl', if_neg hne, eraseMembers_append]

theorem eraseMembers_eq_empty_of_afterPop {l : List ZsetEntry}
    (h : afterPop e scores l ≠ .value e (eraseMembers l scores)) :
    l ≠ [] ∧ eraseMembers l scores = ∅ ∧ afterPop e scores l = .missing := by
  unfold afterPop at h ⊢
  split at h
  · next hl =>
    rw [hl] at h
    exact absurd rfl h
  · next hl =>
    split at h
    · next hempty => exact ⟨hl, hempty, by rw [if_neg hl, if_pos hempty]⟩
    · exact absurd rfl h

theorem popBatchSpec_afterPop (c : ZsetPopCommand) (e : Nat) (scores : Scores)
    (l : List ZsetEntry) :
    popBatchSpec c (afterPop e scores l) =
      (.ok (popEnd c.min c.count (ranked (eraseMembers l scores).pairs)).1, afterPop e scores
          (l ++ (popEnd c.min c.count (ranked (eraseMembers l scores).pairs)).1)) := by
  by_cases h : afterPop e scores l = .value e (eraseMembers l scores)
  · rw [afterPop_append h, h]
    rfl
  · obtain ⟨-, hempty, hmissing⟩ := eraseMembers_eq_empty_of_afterPop h
    rw [ranked_eq_nil.mpr hempty, popEnd_nil, append_nil, hmissing]
    rfl

/-! ## 一つの命令 -/

section

variable (now : Nat) {n : Nat} {recs : ZsetRecords}

theorem popPacked_spec {selected : List ZsetEntry} (hok : ZsetOk n recs)
    (hmain : recs.main = some (.packed e scores)) (hdue : expireDue now e = false) :
    Meets (view zsetLayout now) (ZsetOk n) (popPacked recs e scores selected)
      (.ok selected, afterPop e scores selected) := by
  unfold popPacked afterPop
  split
  · next h =>
    rw [h]
    exact ⟨rfl, view_packed hmain hdue, hok⟩
  · dsimp only
    by_cases hrest : eraseMembers selected scores = ∅
    · rw [if_pos hrest, if_pos hrest]
      exact ⟨rfl, view_missing rfl, hok.setMain_none⟩
    · rw [if_neg hrest, if_neg hrest]
      exact ⟨rfl, view_packed rfl hdue,
        hok.setMain_packed e (packedZsetFits_eraseMembers (hok.packed_fits hmain) selected)⟩

theorem eraseEntries_spec {e ver : Nat} {entries : List ZsetEntry} {last : Prop} [Decidable last]
    (hok : ZsetOk n recs) (hmain : recs.main = some (.split e ver ()))
    (hdue : expireDue now e = false) (hne : entries ≠ [])
    (hsub : ∀ a ∈ entries, a ∈ (recs.items ver).members.pairs)
    (hlast : last ↔ eraseMembers entries (recs.items ver).members = ∅) :
    let erased := recs.setItems ver ((recs.items ver).eraseEntries entries)
    (if last then erased.setMain none else erased).view zsetLayout now =
        afterPop e (recs.items ver).members entries ∧
      ZsetOk n (if last then erased.setMain none else erased) := by
  intro erased
  have hmain' : erased.main = some (.split e ver ()) := hmain
  have herased : ZsetOk n erased := hok.setItems (hok.fresh.version_le hmain)
    ((hok.indexed ver).eraseEntries fun a ha => (hok.indexed ver).ranks_eq ▸ hsub a ha)
  rw [afterPop, if_neg hne]
  by_cases hrest : eraseMembers entries (recs.items ver).members = ∅
  · rw [if_pos (hlast.mpr hrest), if_pos hrest]
    exact ⟨view_missing rfl, herased.setMain_none⟩
  · rw [if_neg (mt hlast.mp hrest), if_neg hrest, view_split hmain' hdue, setItems_items_self]
    exact ⟨rfl, herased⟩

theorem popRanked_spec {e ver : Nat} {min : Bool} {count : Nat} (hok : ZsetOk n recs)
    (hmain : recs.main = some (.split e ver ())) (hdue : expireDue now e = false) :
    let rows := (oriented min (ranked (recs.items ver).ranks)).take (count + 1)
    let popped := (popEnd min count (ranked (recs.items ver).members.pairs)).1
    Meets (view zsetLayout now) (ZsetOk n) (popRanked recs ver rows count)
      (.ok popped, afterPop e (recs.items ver).members popped) := by
  intro rows popped
  have hranks := (hok.indexed ver).ranks_eq
  have hpopped : rows.take count = popped := by
    show (take (count + 1) _).take count = _
    rw [take_take, hranks, Nat.min_eq_left (Nat.le_succ count)]
    rfl
  unfold popRanked
  simp only [hpopped]
  by_cases hnil : popped = []
  · rw [if_pos hnil, hnil, afterPop_nil]
    exact ⟨rfl, view_split hmain hdue, hok⟩
  · -- 一つ余分に読めなかったことと、残りが空であることは同じである
    have hmore : rows.length ≤ count ↔
        eraseMembers popped (recs.items ver).members = ∅ := by
      rw [← ranked_eq_nil, ranked_eraseMembers, ← @oriented_eq_nil _ min]
      show _ ↔ oriented min (oriented min _) = []
      rw [oriented_oriented, drop_eq_nil_iff, hranks.symm]
      simp only [rows, length_take]
      omega
    rw [if_neg hnil]
    obtain ⟨hview, hok'⟩ := eraseEntries_spec now hok hmain hdue hnil
      (fun a ha => mem_ranked.mp (popEnd_fst_subset ha)) hmore
    exact ⟨rfl, hview, hok'⟩

theorem zsetPop_spec (c : ZsetPopCommand) (hok : ZsetOk n recs) :
    Meets (view zsetLayout now) (ZsetOk n) (zsetPop now c.min c.count recs)
      (popSpec c (recs.view zsetLayout now)) := by
  unfold zsetPop
  by_cases hcount : c.count = 0
  · rw [if_pos hcount]
    refine ⟨?_, ?_, hok⟩ <;> cases recs.view zsetLayout now <;> simp [popSpec, hcount]
  · rw [if_neg hcount, ← view_expireIfNeeded]
    have hok' := hok.expireIfNeeded now
    have hdue := unexpired_expireIfNeeded now recs
    generalize recs.expireIfNeeded now = live at hok' hdue ⊢
    cases hmain : live.main with
    | none =>
      simp only [hmain]
      rw [view_missing hmain]
      exact ⟨rfl, view_missing hmain, hok'⟩
    | some record =>
      have hlive := hdue record hmain
      cases record with
      | foreign e raw =>
        simp only [hmain]
        rw [view_foreign hmain hlive, popSpec, if_neg hcount]
        exact ⟨rfl, view_foreign hmain hlive, hok'⟩
      | packed e scores =>
        simp only [hmain]
        rw [view_packed hmain hlive]
        exact popPacked_spec now hok' hmain hlive
      | split e ver info =>
        simp only [hmain]
        rw [view_split hmain hlive]
        exact popRanked_spec now hok' hmain hlive

end

/-! ## 手元の状態 -/

/--
手元の状態が、残りの命令 `rest` を実行する前の見える中身 `v` に対応している。窓は、残りの要求を満たした後に
も、要求のあった側に一つ以上の候補を残す。
-/
def TracksPops (recs : ZsetRecords) (rest : List ZsetPopCommand) (state : ZsetPopBatchState)
    (v : Visible Scores) : Prop :=
  (recs.main = none ∧ state = ⟨none, [], []⟩ ∧ v = .missing) ∨
  ∃ e ver p q, recs.main = some (.split e ver ()) ∧ state.version = some ver ∧
    (∀ a ∈ state.removed, a ∈ (recs.items ver).members.pairs) ∧
    v = afterPop e (recs.items ver).members state.removed ∧
    Windowed (requested true rest) (requested false rest) p q state.candidates
      (ranked (eraseMembers state.removed (recs.items ver).members).pairs) ∧
    (0 < requested true rest → 0 < p) ∧ (0 < requested false rest → 0 < q) ∧
    (state.removed ≠ [] → 0 < p + q)

def PopStateRel (recs : ZsetRecords) (rest : List ZsetPopCommand) :
    Except String ZsetPopBatchState → Visible Scores → Prop
  | .error msg, v =>
    msg = wrongTypeError ∧ ∃ e raw, recs.main = some (.foreign e raw) ∧ v = .foreign e raw
  | .ok state, v => TracksPops recs rest state v

theorem requested_cons (min : Bool) (c : ZsetPopCommand) (rest : List ZsetPopCommand) :
    requested min (c :: rest) = (if c.min = min then c.count else 0) + requested min rest := by
  by_cases h : c.min = min <;> simp [requested, h]

theorem ranked_popWindow (cmds : List ZsetPopCommand) (ranks : Finset ZsetEntry) :
    ranked (popWindow true cmds ranks ++ popWindow false cmds ranks).toFinset =
      bothEnds (if 0 < requested true cmds then requested true cmds + 1 else 0)
        (if 0 < requested false cmds then requested false cmds + 1 else 0)
        (ranked ranks) := by
  symm
  refine eq_ranked ((pairwise_ranked ranks).sublist (bothEnds_sublist ..)) fun a => ?_
  have hwindow : ∀ min, popWindow min cmds ranks = (oriented min (ranked ranks)).take
      (if 0 < requested min cmds then requested min cmds + 1 else 0) := by
    intro min
    unfold popWindow
    split
    · rfl
    · exact (take_zero).symm
  rw [mem_bothEnds, mem_toFinset, mem_append, hwindow, hwindow]
  rfl

section

variable {now n : Nat} {recs : ZsetRecords}

theorem loadPopState_rel (hok : ZsetOk n recs) (hdue : recs.Unexpired now)
    (hsplit : ∀ e scores, recs.main ≠ some (.packed e scores)) (cmds : List ZsetPopCommand) :
    PopStateRel recs cmds (loadPopState cmds recs) (recs.view zsetLayout now) := by
  unfold loadPopState view
  rw [hdue.live_eq]
  cases hmain : recs.main with
  | none => exact .inl ⟨hmain, rfl, rfl⟩
  | some record =>
    cases record with
    | packed e scores => exact absurd hmain (hsplit e scores)
    | foreign e raw => exact ⟨rfl, e, raw, hmain, rfl⟩
    | split e ver info =>
      refine .inr ⟨e, ver, if 0 < requested true cmds then 1 else 0,
        if 0 < requested false cmds then 1 else 0, hmain, rfl, by simp, ?_, ?_, ?_, ?_, ?_⟩
      · exact (afterPop_nil e _).symm
      · have hpad : ∀ k, (if 0 < k then k + 1 else 0) = k + if 0 < k then 1 else 0 := by
          intro k
          split <;> omega
        dsimp only
        rw [ranked_popWindow, (hok.indexed ver).ranks_eq, hpad, hpad]
        exact windowed_bothEnds ..
      · intro h
        rw [if_pos h]
        exact Nat.one_pos
      · intro h
        rw [if_pos h]
        exact Nat.one_pos
      · intro h
        exact absurd rfl h

variable {state : Except String ZsetPopBatchState} {v : Visible Scores}

theorem popBatchStep_rel {c : ZsetPopCommand} {rest : List ZsetPopCommand}
    (h : PopStateRel recs (c :: rest) state v) :
    (popBatchStep c state).1 = (popBatchSpec c v).1 ∧
      PopStateRel recs rest (popBatchStep c state).2 (popBatchSpec c v).2 := by
  cases state with
  | error msg =>
    obtain ⟨rfl, e, raw, hmain, rfl⟩ := h
    exact ⟨rfl, rfl, e, raw, hmain, rfl⟩
  | ok state =>
    rcases h with ⟨hmain, rfl, rfl⟩ |
      ⟨e, ver, p, q, hmain, hversion, hsub, rfl, hwin, hp, hq, hpq⟩
    · simp only [popBatchStep, popEnd_nil]
      exact ⟨rfl, .inl ⟨hmain, rfl, rfl⟩⟩
    · have hwin' : Windowed
          (if c.min then requested true rest + c.count else requested true rest)
          (if c.min then requested false rest else requested false rest + c.count) p q
          state.candidates
          (ranked (eraseMembers state.removed (recs.items ver).members).pairs) := by
        cases hmin : c.min <;> simpa [requested_cons, hmin, Nat.add_comm] using hwin
      obtain ⟨hpopped, hnext⟩ := hwin'.popEnd
      rw [← ranked_eraseMembers, ← eraseMembers_append, ← hpopped] at hnext
      rw [popBatchSpec_afterPop, ← hpopped]
      refine ⟨rfl, .inr ⟨e, ver, p, q, hmain, hversion, ?_, rfl, hnext, ?_, ?_, ?_⟩⟩
      · intro a ha
        rcases mem_append.mp ha with ha | ha
        · exact hsub a ha
        · rw [hpopped] at ha
          exact ((mem_pairs_eraseMembers hsub a).mp (mem_ranked.mp (popEnd_fst_subset ha))).1
      · intro h
        exact hp (by rw [requested_cons]; omega)
      · intro h
        exact hq (by rw [requested_cons]; omega)
      · intro hne
        by_cases hcount : c.count = 0
        · refine hpq fun hremoved => hne ?_
          simp [hremoved, hcount]
        · -- 取り出した側には要求があったので、余りが残る
          cases hmin : c.min with
          | true =>
            have hpos := hp (by rw [requested_cons, if_pos hmin]; omega)
            omega
          | false =>
            have hpos := hq (by rw [requested_cons, if_pos hmin]; omega)
            omega

theorem writePopState_spec (hok : ZsetOk n recs) (hdue : recs.Unexpired now)
    (h : PopStateRel recs [] state v) :
    (writePopState recs state).view zsetLayout now = v ∧ ZsetOk n (writePopState recs state) := by
  cases state with
  | error msg =>
    obtain ⟨-, e, raw, hmain, rfl⟩ := h
    exact ⟨view_foreign hmain (hdue _ hmain), hok⟩
  | ok state =>
    rcases h with ⟨hmain, rfl, rfl⟩ | ⟨e, ver, p, q, hmain, hversion, hsub, rfl, hwin, -, -, hpq⟩
    · exact ⟨view_missing hmain, hok⟩
    · have hlive : expireDue now e = false := hdue _ hmain
      simp only [writePopState, hversion]
      split
      · next hnil =>
        rw [hnil, afterPop_nil]
        exact ⟨view_split hmain hlive, hok⟩
      · next hnil =>
        refine eraseEntries_spec now hok hmain hlive hnil hsub ?_
        rw [hwin.eq_nil_iff (hpq hnil), ranked_eq_nil]

end

/-! ## 命令の列 -/

section

variable (now : Nat) (cmds : List ZsetPopCommand) {s : ZsetStore}

section

variable (hs : s.Satisfies ZsetOk)
include hs

theorem preparedZset_ok (keys : List Bytes) (key : Bytes) :
    ZsetOk (promoteZsets keys s).counter (preparedZset now keys s key) ∧
      (preparedZset now keys s key).view zsetLayout now = (s.slots key).view zsetLayout now := by
  obtain ⟨hok, hview⟩ := promoteZsets_spec now hs keys key
  exact ⟨hok.expireIfNeeded now, (view_expireIfNeeded ..).trans hview⟩

omit hs in
theorem preparedZset_main_ne_packed {keys : List Bytes} {key : Bytes} (hkey : key ∈ keys)
    (e : Nat) (scores : Scores) : (preparedZset now keys s key).main ≠ some (.packed e scores) := by
  intro hmain
  rw [preparedZset, KeyRecords.expireIfNeeded_main] at hmain
  have hpromoted := (live_eq_some.mp hmain).1
  simp only [promoteZsets, if_pos hkey] at hpromoted
  exact promotePackedZset_main_ne_packed e scores hpromoted

theorem popBatch_states : let keys := (cmds.map ZsetPopCommand.key).dedup
    let states := fun key => loadPopState (addressedTo ZsetPopCommand.key key cmds)
      (preparedZset now keys s key)
    let views := fun key => (s.slots key).view zsetLayout now
    (runKeyed ZsetPopCommand.key popBatchStep states cmds).1 =
        (runKeyed ZsetPopCommand.key popBatchSpec views cmds).1 ∧
      ∀ key ∈ keys, PopStateRel (preparedZset now keys s key) []
        ((runKeyed ZsetPopCommand.key popBatchStep states cmds).2 key)
        ((runKeyed ZsetPopCommand.key popBatchSpec views cmds).2 key) := by
  intro keys states views
  refine runKeyed_simulates_rest (R := fun key rest state v =>
    key ∈ keys → PopStateRel (preparedZset now keys s key) rest state v)
    (fun c hc rest state v hrel => ?_) fun key hkey => ?_
  · obtain ⟨hreply, hnext⟩ := popBatchStep_rel (hrel (mem_dedup.mpr (mem_map_of_mem hc)))
    exact ⟨hreply, fun _ => hnext⟩
  · obtain ⟨hok, hview⟩ := preparedZset_ok now hs keys key
    show PopStateRel _ _ _ ((s.slots key).view zsetLayout now)
    rw [← hview]
    exact loadPopState_rel hok (unexpired_expireIfNeeded now _)
      (preparedZset_main_ne_packed now hkey) _

theorem zsetPopBatch_refines :
    Numbered.Runs (view zsetLayout now) ZsetOk (zsetPopBatch now cmds s)
      (runKeyed ZsetPopCommand.key popBatchSpec (fun key => (s.slots key).view zsetLayout now)
        cmds) := by
  obtain ⟨hreplies, hstates⟩ := popBatch_states now cmds hs
  have hwrite : ∀ key ∈ (cmds.map ZsetPopCommand.key).dedup, _ := fun key hkey =>
    writePopState_spec (preparedZset_ok now hs _ key).1
      (unexpired_expireIfNeeded now _) (hstates key hkey)
  refine ⟨hreplies, fun key => ?_, fun key => ?_⟩
  · simp only [zsetPopBatch]
    split
    · next hkey => exact (hwrite key hkey).1
    · next hkey => rw [runKeyed_untouched fun h => hkey (mem_dedup.mpr h)]
  · simp only [zsetPopBatch]
    split
    · next hkey => exact (hwrite key hkey).2
    · exact (hs key).mono (Nat.le_add_right ..)

theorem zsetPopBatch_single (c : ZsetPopCommand) :
    (zsetPopBatch now [c] s).1 = [(popBatchSpec c ((s.slots c.key).view zsetLayout now)).1] ∧
      (zsetPopBatch now [c] s).2.Satisfies ZsetOk ∧
      (fun key => ((zsetPopBatch now [c] s).2.slots key).view zsetLayout now) =
        update (fun key => (s.slots key).view zsetLayout now) c.key
          (popBatchSpec c ((s.slots c.key).view zsetLayout now)).2 := by
  obtain ⟨hreply, hview, hok⟩ := zsetPopBatch_refines now [c] hs
  exact ⟨hreply, hok, funext hview⟩

end

/-! ## 命令の列の返事と残り -/

/-- 返事の列のうち、`key` から取り出したもの。 -/
def poppedFrom (key : Bytes) (cs : List ZsetPopCommand)
    (replies : List (Except String (List ZsetEntry))) : List ZsetEntry :=
  (cs.zip replies).flatMap fun r => if r.1.key = key then (r.2.toOption).getD [] else []

theorem popRuns_afterPop {views : Bytes → Visible Scores} {cs : List ZsetPopCommand} {key : Bytes}
    {done : List ZsetEntry} (h : views key = afterPop e scores done) :
    (runKeyed ZsetPopCommand.key popBatchSpec views cs).2 key =
      afterPop e scores (done ++ poppedFrom key cs
        (runKeyed ZsetPopCommand.key popBatchSpec views cs).1) := by
  induction cs generalizing views done with
  | nil => simpa [runKeyed, poppedFrom] using h
  | cons c cs ih =>
    simp only [runKeyed, poppedFrom, zip_cons_cons, flatMap_cons]
    by_cases hkey : c.key = key
    · subst hkey
      rw [if_pos rfl, h, popBatchSpec_afterPop, ← append_assoc]
      refine ih ?_
      rw [update_self]
      rfl
    · rw [if_neg hkey, nil_append]
      refine ih ?_
      rw [update_of_ne (Ne.symm hkey)]
      exact h

/-- sorted set でない key は変わらない。 -/
theorem popRuns_fixed {views : Bytes → Visible Scores} {key : Bytes}
    (h : ∀ c, (popBatchSpec c (views key)).2 = views key) :
    (runKeyed ZsetPopCommand.key popBatchSpec views cmds).2 key = views key := by
  rw [runKeyed_state]
  exact foldl_fixed' h _

/-- `popped` を除いた残り。key は、何かを取り出して空になったときに限って消える。 -/
def Remains (popped : List ZsetEntry) : Visible Scores → Visible Scores → Prop
  | .value e scores, after => ∃ rest : Scores,
      (∀ m, rest.lookup m = if m ∈ popped.map Prod.fst then none else scores.lookup m) ∧
        after = if popped ≠ [] ∧ rest = ∅ then .missing else .value e rest
  | before, after => after = before

theorem remains_afterPop (e : Nat) (scores : Scores) (popped : List ZsetEntry) :
    Remains popped (.value e scores) (afterPop e scores popped) := by
  refine ⟨eraseMembers popped scores, lookup_eraseMembers popped scores, ?_⟩
  by_cases hnil : popped = []
  · subst hnil
    simp
  · simp [afterPop, hnil]

/--
**まとめた ZPOPMIN / ZPOPMAX は、一つずつの実行に等しい。** 一つの命令は rank の端から数えた個数を返し、
残りは取り出した member を除いたものである。
-/
theorem zsetPopBatch_matches (hs : s.Satisfies ZsetOk) :
    ((zsetPopBatch now cmds s).1 = (oneByOne (zsetPopBatch now) cmds s).1 ∧
      ∀ key, ((zsetPopBatch now cmds s).2.slots key).view zsetLayout now =
        ((oneByOne (zsetPopBatch now) cmds s).2.slots key).view zsetLayout now) ∧
    (∀ c, (zsetPopBatch now [c] s).1 = [match (s.slots c.key).view zsetLayout now with
      | .foreign _ _ => .error wrongTypeError
      | .missing => .ok []
      | .value _ scores => .ok ((if c.min then ranked scores.pairs
          else (ranked scores.pairs).reverse).take c.count)]) ∧
    ∀ key, Remains (poppedFrom key cmds (zsetPopBatch now cmds s).1)
      ((s.slots key).view zsetLayout now)
      (((zsetPopBatch now cmds s).2.slots key).view zsetLayout now) := by
  obtain ⟨hreplies, hviews, -⟩ := zsetPopBatch_refines now cmds hs
  obtain ⟨hreplies', hviews'⟩ := oneByOne_refines
    (fun (s : ZsetStore) key => (s.slots key).view zsetLayout now)
    (fun c s hs => zsetPopBatch_single now (s := s) hs c) cmds hs
  refine ⟨⟨hreplies.trans hreplies'.symm, fun key =>
    (hviews key).trans (congrFun hviews' key).symm⟩, fun c => ?_, fun key => ?_⟩
  · rw [(zsetPopBatch_single now hs c).1]
    cases (s.slots c.key).view zsetLayout now <;> rfl
  · rw [hreplies, hviews]
    cases hview : (s.slots key).view zsetLayout now with
    | missing | foreign e raw =>
      exact (popRuns_fixed cmds fun c => by rw [hview]; rfl).trans hview
    | value e scores =>
      rw [popRuns_afterPop (hview.trans (afterPop_nil e scores).symm), nil_append]
      exact remains_afterPop ..

end

namespace BothEnds

def a : Text := .ofByte 97 (Eq.refl true)

def b : Text := .ofByte 98 (Eq.refl true)

def c : Text := .ofByte 99 (Eq.refl true)

def one : Score := ⟨0x3ff0000000000000, Eq.refl false⟩

def two : Score := ⟨0x4000000000000000, Eq.refl false⟩

def negOne : Score := ⟨0xbff0000000000000, Eq.refl false⟩

def full : Scores := (((∅ : Scores).insert a one).insert b negOne).insert c two

/-- `ZADD k 1 a -1 b 2 c` の後の key `k`。 -/
def store : ZsetStore :=
  ⟨fun key => ⟨if key = [107] then some (.packed 0 full) else none, fun _ => ∅⟩, 0⟩

theorem store_ok : store.Satisfies ZsetOk := by
  intro key
  refine ⟨⟨?_, fun _ => rfl⟩, ?_, fun _ => ZsetItems.indexed_empty⟩
  · intro e ver info h
    simp only [store] at h
    split at h <;> cases h
  · intro e scores h
    obtain ⟨-, h⟩ := Option.ite_none_right_eq_some.mp h
    cases h
    decide

theorem ranked_full : ranked full.pairs = [(b, negOne), (a, one), (c, two)] := by
  have hpairs : full.pairs = [(b, negOne), (a, one), (c, two)].toFinset := by decide
  refine (eq_ranked (by decide) fun x => ?_).symm
  rw [hpairs, mem_toFinset]

def cmds : List ZsetPopCommand := [⟨[107], true, 1⟩, ⟨[107], false, 1⟩]

theorem both_ends_popped :
    (zsetPopBatch 1000 cmds store).1 = [.ok [(b, negOne)], .ok [(c, two)]] ∧
      (oneByOne (zsetPopBatch 1000) cmds store).1 = [.ok [(b, negOne)], .ok [(c, two)]] := by
  rw [← (zsetPopBatch_matches 1000 cmds store_ok).1.1, and_self,
    (zsetPopBatch_refines 1000 cmds store_ok).replies]
  have hview : (store.slots [107]).view zsetLayout 1000 = .value 0 full := rfl
  have hfirst : popBatchSpec ⟨[107], true, 1⟩ (.value 0 full) =
      (.ok [(b, negOne)], afterPop 0 full [(b, negOne)]) := by
    simp only [popBatchSpec, popSpec, ranked_full]
    rfl
  have hrest : ranked (eraseMembers [(b, negOne)] full).pairs = [(a, one), (c, two)] := by
    have h := ranked_eraseMembers true 1 full
    rwa [ranked_full] at h
  simp only [cmds, runKeyed, hview, hfirst, update_self, popBatchSpec_afterPop, hrest]
  rfl

end BothEnds

end Onedis.Store
