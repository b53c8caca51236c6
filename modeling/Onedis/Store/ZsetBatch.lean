import Onedis.Store.ZsetRecords

/-!
# まとめて実行する zset の命令

ZADD と ZINCRBY のまとめての実行。出てくる key のどれも分けた形でなく、途中の結果がすべて詰めた形に収まるなら、
詰めたまま書く。そうでなければ、key をすべて分け、命令を手元で順に実行し、触った member だけを最後に書く。

二つの命令の違いは `ZsetBatchKind` の一歩だけにあり、詰めたままの試みと分けての実行は、その一歩について一度だけ示す。
-/

namespace Onedis.Store

open Infra KeyRecords Visible List
open Codec (wrongTypeError)

theorem Scores.ne_empty_iff {scores : Scores} : scores ≠ ∅ ↔ ∃ m, scores.lookup m ≠ none := by
  refine ⟨fun h => ?_, fun ⟨m, hm⟩ hempty => hm (hempty ▸ Finmap.lookup_empty m)⟩
  by_contra hnone
  exact h (Finmap.ext_lookup fun m => by simpa using not_exists.mp hnone m)

theorem Scores.lookup_insert_ne {scores : Scores} {m n : Text} {s : Score} :
    (scores.insert m s).lookup n ≠ none ↔ n = m ∨ scores.lookup n ≠ none := by
  rw [Ne, Ne, Finmap.lookup_eq_none, Finmap.lookup_eq_none, not_not, not_not, Finmap.mem_insert]

/-! ## 手元の状態 -/

/-- 命令の種類。返事、新しい表と、詰めたままなら変わったかを、分けてなら触った member を返す。 -/
structure ZsetBatchKind (γ ρ : Type) where
  key : γ → Bytes
  packedStep : γ → Scores → Except String ρ × Scores × Bool
  splitStep : γ → Scores → Except String ρ × Scores × List Text

/-- 詰めたまま書く試みの途中の状態。 -/
structure PackedZsetState where
  expireMs : Nat
  entries : Scores
  dirty : Bool
  overflow : Bool

/-- 分けた zset の途中の score と、書き換えた member。 -/
structure SplitZsetState where
  scores : Scores
  touched : List Text

def isSplitZset (now : Nat) (recs : ZsetRecords) : Bool :=
  match recs.live now with
  | some (.split _ _ _) => true
  | _ => false

def loadPackedZset (recs : ZsetRecords) : Except String PackedZsetState :=
  match recs.main with
  | none => .ok ⟨0, ∅, false, false⟩
  | some (.foreign _ _) => .error wrongTypeError
  | some (.packed e scores) => .ok ⟨e, scores, false, false⟩
  | some (.split e _ _) => .ok ⟨e, ∅, false, false⟩

def writePackedZset (recs : ZsetRecords) : Except String PackedZsetState → ZsetRecords
  | .error _ => recs
  | .ok state =>
    if state.dirty then recs.setMain (some (.packed state.expireMs state.entries)) else recs

def zsetBatchVersion (now fresh : Nat) (recs : ZsetRecords) : Except String (Nat × Bool) :=
  match recs.live now with
  | none => .ok (fresh, false)
  | some (.foreign _ _) => .error wrongTypeError
  | some (.packed _ _) => .ok (0, true)
  | some (.split _ ver _) => .ok (ver, true)

def loadSplitZset (now fresh : Nat) (recs : ZsetRecords) : Except String SplitZsetState :=
  (zsetBatchVersion now fresh recs).map fun r => ⟨(recs.items r.1).members, []⟩

def putTouched (items : ZsetItems) (scores : Scores) (touched : List Text) : ZsetItems :=
  touched.foldl (fun items m => (scores.lookup m).elim items (items.put m)) items

def writeSplitZset (now fresh : Nat) (recs : ZsetRecords) :
    Except String SplitZsetState → ZsetRecords
  | .error _ => recs
  | .ok state =>
    match zsetBatchVersion now fresh recs with
    | .error _ => recs
    | .ok (ver, existed) =>
      if state.touched = [] then recs
      else
        let written := recs.setItems ver
          (putTouched (recs.items ver) state.scores state.touched.dedup)
        if existed then written else written.setMain (some (.split 0 ver ()))

def expireZsets (now : Nat) (keys : List Bytes) (s : ZsetStore) : ZsetStore :=
  { s with slots := fun key =>
      if key ∈ keys then (s.slots key).expireIfNeeded now else s.slots key }

/-! ## まとめての実行 -/

namespace ZsetBatchKind

variable {γ ρ : Type} (kind : ZsetBatchKind γ ρ)

def keys (cs : List γ) : List Bytes := (cs.map kind.key).dedup

def packedBatchStep (c : γ) :
    Except String PackedZsetState → Except String ρ × Except String PackedZsetState
  | .error msg => (.error msg, .error msg)
  | .ok state =>
    let out := kind.packedStep c state.entries
    (out.1, .ok { state with
      entries := out.2.1
      dirty := state.dirty || out.2.2
      overflow := state.overflow || !packedZsetFits out.2.1 })

def splitBatchStep (c : γ) :
    Except String SplitZsetState → Except String ρ × Except String SplitZsetState
  | .error msg => (.error msg, .error msg)
  | .ok state =>
    let out := kind.splitStep c state.scores
    (out.1, .ok ⟨out.2.1, state.touched ++ out.2.2⟩)

def overflowed : Except String PackedZsetState → Bool
  | .error _ => false
  | .ok state => state.overflow

/-- `try_zset_add_batch_packed_async` と `try_zset_increment_batch_packed_async`。 -/
def tryPacked (now : Nat) (cs : List γ) (s : ZsetStore) :
    Option (List (Except String ρ) × ZsetStore) :=
  if (kind.keys cs).any (fun key => isSplitZset now (s.slots key)) then none
  else
    let out := runKeyed kind.key kind.packedBatchStep (fun key => loadPackedZset (s.slots key)) cs
    if (kind.keys cs).any (fun key => overflowed (out.2 key)) then none
    else some (out.1,
      { slots := fun key =>
          if key ∈ kind.keys cs then writePackedZset (s.slots key) (out.2 key) else s.slots key
        counter := s.counter })

def splitBatch (now : Nat) (cs : List γ) (s : ZsetStore) :
    List (Except String ρ) × ZsetStore :=
  let absent := (kind.keys cs).filter fun key => ((s.slots key).live now).isNone
  let out := runKeyed kind.key kind.splitBatchStep
    (fun key => loadSplitZset now (batchVersion s.counter absent key) (s.slots key)) cs
  (out.1,
    { slots := fun key =>
        if key ∈ kind.keys cs then
          writeSplitZset now (batchVersion s.counter absent key) (s.slots key) (out.2 key)
        else s.slots key
      counter := s.counter + absent.length })

/-- `zset_add_batch_async` と `zset_increment_batch_async`。 -/
def run (now : Nat) (cs : List γ) (s : ZsetStore) : List (Except String ρ) × ZsetStore :=
  let live := expireZsets now (kind.keys cs) s
  match kind.tryPacked now cs live with
  | some out => out
  | none => kind.splitBatch now cs (promoteZsets (kind.keys cs) live)

end ZsetBatchKind

/-! ## 見える中身の上の仕様 -/

def packedStart (v : Visible Scores) : Except String PackedZsetState :=
  match v.parts ∅ with
  | none => .error wrongTypeError
  | some (e, scores) => .ok ⟨e, scores, false, false⟩

def packedResult (v : Visible Scores) : Except String PackedZsetState → Visible Scores
  | .error _ => v
  | .ok state => if state.dirty then .value state.expireMs state.entries else v

def splitStart (v : Visible Scores) : Except String SplitZsetState :=
  match v.parts ∅ with
  | none => .error wrongTypeError
  | some (_, scores) => .ok ⟨scores, []⟩

def settle (stored current : Scores) (touched : List Text) : Scores :=
  touched.foldl (fun scores m => (current.lookup m).elim scores (scores.insert m)) stored

def splitResult (v : Visible Scores) : Except String SplitZsetState → Visible Scores
  | .error _ => v
  | .ok state =>
    match v.parts ∅ with
    | none => v
    | some (e, scores) =>
      if state.touched = [] then v else .value e (settle scores state.scores state.touched.dedup)

def Visible.isValue : Visible Scores → Bool
  | .value _ _ => true
  | _ => false

def Visible.extend (v : Visible Scores) (scores : Scores) : Visible Scores :=
  match v with
  | .foreign e raw => .foreign e raw
  | .missing => if scores = ∅ then .missing else .value 0 scores
  | .value e _ => .value e scores

section

variable {v : Visible Scores} {e : Nat} {stored scores scores' : Scores}

section

variable (h : v.parts ∅ = some (e, stored))
include h

theorem Visible.extend_self : v.extend stored = v := by
  cases v with
  | foreign e raw => cases h
  | missing =>
    cases h
    simp [extend]
  | value e content =>
    cases h
    rfl

theorem Visible.parts_extend (scores : Scores) : (v.extend scores).parts ∅ = some (e, scores) := by
  cases v with
  | foreign e raw => cases h
  | missing =>
    cases h
    unfold extend
    dsimp only
    split
    · next hempty =>
      rw [hempty]
      rfl
    · rfl
  | value e content =>
    cases h
    rfl

theorem Visible.extend_of_ne_empty (hne : scores ≠ ∅) : v.extend scores = .value e scores := by
  cases v with
  | foreign e raw => cases h
  | missing =>
    cases h
    simp [extend, if_neg hne]
  | value e content =>
    cases h
    rfl

theorem Visible.extend_eq_iff : v.extend scores = v.extend scores' ↔ scores = scores' := by
  refine ⟨fun heq => ?_, fun heq => heq ▸ rfl⟩
  have hparts := parts_extend h scores
  rw [heq, parts_extend h] at hparts
  exact (Prod.mk.inj (Option.some.inj hparts)).2.symm

end

theorem Visible.extend_extend (hgrow : scores ≠ ∅ → scores' ≠ ∅) :
    (v.extend scores).extend scores' = v.extend scores' := by
  cases v with
  | foreign e raw | value e content => rfl
  | missing =>
    by_cases h : scores = ∅
    · rw [h]
      rfl
    · simp [extend, if_neg h, if_neg (hgrow h)]

end

theorem lookup_settle (stored current : Scores) (touched : List Text) (m : Text) :
    (settle stored current touched).lookup m =
      if m ∈ touched then (current.lookup m).or (stored.lookup m) else stored.lookup m := by
  induction touched generalizing stored with
  | nil => rfl
  | cons t touched ih =>
    rw [show settle stored current (t :: touched) =
      settle ((current.lookup t).elim stored (stored.insert t)) current touched from rfl, ih]
    by_cases hm : m = t
    · rw [hm, if_pos mem_cons_self]
      cases hc : current.lookup t with
      | none => simp
      | some s => simp
    · have hother : ((current.lookup t).elim stored (stored.insert t)).lookup m =
          stored.lookup m := by
        cases current.lookup t with
        | none => rfl
        | some s => exact Finmap.lookup_insert_of_ne stored hm
      rw [hother]
      exact if_congr (by rw [mem_cons, or_iff_right hm]) rfl rfl

section

variable {stored current : Scores} {touched : List Text}
  (hsome : ∀ m ∈ touched, current.lookup m ≠ none)
include hsome

theorem lookup_settle_of_some (m : Text) : (settle stored current touched).lookup m =
    if m ∈ touched then current.lookup m else stored.lookup m := by
  rw [lookup_settle]
  refine if_ctx_congr Iff.rfl (fun hm => ?_) fun _ => rfl
  obtain ⟨s, hs⟩ := Option.ne_none_iff_exists'.mp (hsome m hm)
  rw [hs, Option.some_or]

theorem settle_eq_current (h : ∀ m ∉ touched, current.lookup m = stored.lookup m) :
    settle stored current touched = current := by
  refine Finmap.ext_lookup fun m => ?_
  rw [lookup_settle_of_some hsome]
  split
  · rfl
  · next hm => exact (h m hm).symm

theorem settle_ne_empty_of (h : touched ≠ []) : settle stored current touched ≠ ∅ := by
  obtain ⟨m, hm⟩ := exists_mem_of_ne_nil _ h
  refine Scores.ne_empty_iff.mpr ⟨m, ?_⟩
  rw [lookup_settle_of_some hsome, if_pos hm]
  exact hsome m hm

end

theorem putTouched_members (items : ZsetItems) (scores : Scores) (touched : List Text) :
    (putTouched items scores touched).members = settle items.members scores touched := by
  induction touched generalizing items with
  | nil => rfl
  | cons t touched ih =>
    refine (ih _).trans ?_
    have hstep : ((scores.lookup t).elim items (items.put t)).members =
        (scores.lookup t).elim items.members (items.members.insert t) := by
      cases scores.lookup t <;> rfl
    exact congrArg (settle · scores touched) hstep

theorem indexed_putTouched {items : ZsetItems} (h : items.Indexed) (scores : Scores)
    (touched : List Text) : (putTouched items scores touched).Indexed := by
  induction touched generalizing items with
  | nil => exact h
  | cons t touched ih =>
    refine ih ?_
    show ((scores.lookup t).elim items (items.put t)).Indexed
    cases scores.lookup t with
    | none => exact h
    | some s => exact h.put t s

/-! ## 詰めたままの実行 -/

section

variable {now n : Nat} {recs : ZsetRecords}

theorem isSplitZset_expireIfNeeded (now : Nat) (recs : ZsetRecords) :
    isSplitZset now (recs.expireIfNeeded now) = isSplitZset now recs := by
  have hlive : (recs.expireIfNeeded now).live now = recs.live now := by
    cases h : recs.live now with
    | some record => rw [expireIfNeeded_of_live h, h]
    | none => exact live_eq_none_of_main ((KeyRecords.expireIfNeeded_main now recs).trans h)
  rw [isSplitZset, hlive, isSplitZset]

theorem loadPackedZset_eq (hdue : recs.Unexpired now) (hsplit : isSplitZset now recs = false) :
    loadPackedZset recs = packedStart (recs.view zsetLayout now) := by
  unfold loadPackedZset packedStart view
  unfold isSplitZset at hsplit
  rw [hdue.live_eq] at hsplit ⊢
  generalize recs.main = main at hsplit ⊢
  cases main with
  | none => rfl
  | some record =>
    cases record with
    | foreign | packed => rfl
    | split => cases hsplit

structure PackedStateOk (now : Nat) (state : PackedZsetState) : Prop where
  due : expireDue now state.expireMs = false
  fits : state.overflow = false → packedZsetFits state.entries = true

theorem packedStart_ok (hok : ZsetOk n recs) (hdue : recs.Unexpired now)
    (hsplit : isSplitZset now recs = false) {state : PackedZsetState}
    (h : packedStart (recs.view zsetLayout now) = .ok state) : PackedStateOk now state := by
  rw [← loadPackedZset_eq hdue hsplit] at h
  unfold loadPackedZset at h
  split at h
  · cases h
    exact ⟨rfl, fun _ => rfl⟩
  · cases h
  · next hmain =>
    cases h
    exact ⟨hdue _ hmain, fun _ => hok.packed_fits hmain⟩
  · next hmain =>
    rw [isSplitZset, live_of_main hmain (hdue _ hmain)] at hsplit
    cases hsplit

theorem runOne_packed_ok {γ ρ : Type} (kind : ZsetBatchKind γ ρ) (cs : List γ)
    {start : Except String PackedZsetState} {final : PackedZsetState}
    (hstart : ∀ st, start = .ok st → PackedStateOk now st)
    (h : (runOne kind.packedBatchStep start cs).2 = .ok final) : PackedStateOk now final := by
  induction cs generalizing start with
  | nil => exact hstart final h
  | cons c cs ih =>
    refine ih ?_ h
    intro st hst
    cases start with
    | error msg => cases hst
    | ok prev =>
      cases hst
      refine ⟨(hstart prev rfl).due, fun hov => ?_⟩
      simpa using (Bool.or_eq_false_iff.mp hov).2

theorem writePackedZset_spec (hok : ZsetOk n recs) (hsplit : isSplitZset now recs = false)
    {state : Except String PackedZsetState}
    (hstate : ∀ st, state = .ok st → PackedStateOk now st)
    (hfits : ZsetBatchKind.overflowed state = false) :
    (writePackedZset recs state).view zsetLayout now =
        packedResult (recs.view zsetLayout now) state ∧
      isSplitZset now (writePackedZset recs state) = false ∧
      ZsetOk n (writePackedZset recs state) := by
  cases state with
  | error msg => exact ⟨rfl, hsplit, hok⟩
  | ok st =>
    obtain ⟨hdue, hst⟩ := hstate st rfl
    unfold writePackedZset packedResult
    dsimp only
    split
    · refine ⟨view_packed rfl hdue, ?_, hok.setMain_packed _ (hst hfits)⟩
      rw [isSplitZset, live_of_main (setMain_main ..) hdue]
    · exact ⟨rfl, hsplit, hok⟩

end

/-! ## 分けての実行 -/

section

variable {now n m fresh : Nat} {recs : ZsetRecords}

/-- 期限内で、詰めた形でない。 -/
structure Unpacked (now : Nat) (recs : ZsetRecords) : Prop where
  due : recs.Unexpired now
  main_ne : ∀ e scores, recs.main ≠ some (.packed e scores)

variable (hrecs : Unpacked now recs)
include hrecs

theorem loadSplitZset_eq (hok : ZsetOk n recs) (hfresh : recs.main = none → n < fresh) :
    loadSplitZset now fresh recs = splitStart (recs.view zsetLayout now) := by
  unfold loadSplitZset zsetBatchVersion splitStart view
  rw [hrecs.due.live_eq]
  cases hmain : recs.main with
  | none =>
    dsimp [Except.map]
    rw [hok.fresh.items_empty (hfresh hmain)]
    rfl
  | some record =>
    cases record with
    | packed e scores => exact absurd hmain (hrecs.main_ne e scores)
    | foreign | split => rfl

theorem isSplitZset_eq_isValue :
    isSplitZset now recs = (recs.view zsetLayout now).isValue := by
  unfold isSplitZset view
  rw [hrecs.due.live_eq]
  cases hmain : recs.main with
  | none => rfl
  | some record =>
    cases record with
    | packed e scores => exact absurd hmain (hrecs.main_ne e scores)
    | foreign | split => rfl

theorem writeSplitZset_unpacked (state : Except String SplitZsetState) :
    Unpacked now (writeSplitZset now fresh recs state) := by
  unfold writeSplitZset
  split
  · exact hrecs
  · split
    · exact hrecs
    · split
      · exact hrecs
      · dsimp only
        split
        · exact ⟨hrecs.due, hrecs.main_ne⟩
        · refine ⟨fun record h => ?_, fun e scores h => ?_⟩
          · cases h
            rfl
          · cases h

theorem writeSplitZset_spec (hok : ZsetOk n recs)
    (hfresh : recs.main = none → n < fresh ∧ fresh ≤ m) (hle : n ≤ m)
    (state : Except String SplitZsetState) :
    (writeSplitZset now fresh recs state).view zsetLayout now =
        splitResult (recs.view zsetLayout now) state ∧
      ZsetOk m (writeSplitZset now fresh recs state) := by
  cases state with
  | error msg => exact ⟨rfl, hok.mono hle⟩
  | ok st =>
    unfold writeSplitZset zsetBatchVersion splitResult
    cases hmain : recs.main with
    | none =>
      obtain ⟨hlt, hle'⟩ := hfresh hmain
      rw [live_eq_none_of_main hmain, view_missing hmain]
      dsimp [parts]
      split
      · exact ⟨view_missing hmain, hok.mono hle⟩
      · rw [hok.fresh.items_empty hlt]
        refine ⟨?_, ((hok.mono hle).setItems hle'
          (indexed_putTouched ZsetItems.indexed_empty _ _)).setMain_split hle' 0⟩
        exact (view_setSplit (expireDue_zero now) ..).trans
          (congrArg (value 0) (putTouched_members ..))
    | some record =>
      have hlive := hrecs.due record hmain
      rw [live_of_main hmain hlive]
      cases record with
      | packed e scores => exact absurd hmain (hrecs.main_ne e scores)
      | foreign e raw =>
        dsimp only
        rw [view_foreign hmain hlive]
        exact ⟨rfl, hok.mono hle⟩
      | split e ver info =>
        rw [view_split hmain hlive]
        dsimp only [parts]
        split
        · exact ⟨view_split hmain hlive, hok.mono hle⟩
        · refine ⟨?_, (hok.setItems (hok.fresh.version_le hmain)
            (indexed_putTouched (hok.indexed ver) _ _)).mono hle⟩
          rw [if_pos rfl]
          have hmain' : ∀ items, (recs.setItems ver items).main =
            some (.split e ver info) := fun _ => hmain
          rw [view_split (hmain' _) hlive, setItems_items_self]
          exact congrArg (value e) (putTouched_members ..)

end

/-! ## 表の全体 -/

theorem expireZsets_spec {s : ZsetStore} (hs : s.Satisfies ZsetOk) (now : Nat) (keys : List Bytes) :
    (expireZsets now keys s).Satisfies ZsetOk ∧
      ∀ key, ((expireZsets now keys s).slots key).view zsetLayout now =
          (s.slots key).view zsetLayout now ∧
        isSplitZset now ((expireZsets now keys s).slots key) = isSplitZset now (s.slots key) ∧
        (key ∈ keys → ((expireZsets now keys s).slots key).Unexpired now) := by
  refine ⟨fun key => ?_, fun key => ?_⟩
  · simp only [expireZsets]
    split
    · exact (hs key).expireIfNeeded now
    · exact hs key
  · simp only [expireZsets]
    split
    · exact ⟨view_expireIfNeeded .., isSplitZset_expireIfNeeded .., fun _ =>
        unexpired_expireIfNeeded now _⟩
    · next hkey => exact ⟨rfl, rfl, fun h => absurd h hkey⟩

theorem promoteZsets_unpacked {s : ZsetStore} {now : Nat} {keys : List Bytes} {key : Bytes}
    (hkey : key ∈ keys) (hdue : (s.slots key).Unexpired now) :
    Unpacked now ((promoteZsets keys s).slots key) := by
  simp only [promoteZsets, if_pos hkey]
  refine ⟨?_, promotePackedZset_main_ne_packed⟩
  unfold promotePackedZset
  split
  · next e scores hmain =>
    intro record h
    cases h
    exact hdue (.packed e scores) hmain
  · exact hdue

namespace ZsetBatchKind

variable {γ ρ : Type} (kind : ZsetBatchKind γ ρ) (now : Nat) (cs : List γ) {s : ZsetStore}

theorem mem_keys {key : Bytes} {cs : List γ} : key ∈ kind.keys cs ↔ key ∈ cs.map kind.key :=
  mem_dedup

def packedRun (s : ZsetStore) : List (Except String ρ) × (Bytes → Except String PackedZsetState) :=
  runKeyed kind.key kind.packedBatchStep
    (fun key => packedStart ((s.slots key).view zsetLayout now)) cs

def splitRun (s : ZsetStore) : List (Except String ρ) × (Bytes → Except String SplitZsetState) :=
  runKeyed kind.key kind.splitBatchStep
    (fun key => splitStart ((s.slots key).view zsetLayout now)) cs

def takesPacked (s : ZsetStore) : Bool :=
  (kind.keys cs).all fun key =>
    !isSplitZset now (s.slots key) && !overflowed ((kind.packedRun now cs s).2 key)

theorem packedResult_start (v : Visible Scores) : packedResult v (packedStart v) = v := by
  unfold packedStart
  split <;> rfl

theorem splitResult_start (v : Visible Scores) : splitResult v (splitStart v) = v := by
  cases v <;> rfl

theorem runs_congr {s s' : ZsetStore}
    (h : ∀ key, (s.slots key).view zsetLayout now = (s'.slots key).view zsetLayout now) :
    kind.packedRun now cs s = kind.packedRun now cs s' ∧
      kind.splitRun now cs s = kind.splitRun now cs s' := by
  simp [packedRun, splitRun, h]

theorem takesPacked_expireZsets (hs : s.Satisfies ZsetOk) :
    kind.takesPacked now cs (expireZsets now (kind.keys cs) s) = kind.takesPacked now cs s := by
  obtain ⟨-, hlive⟩ := expireZsets_spec hs now (kind.keys cs)
  unfold takesPacked
  rw [(kind.runs_congr now cs fun key => (hlive key).1).1]
  simp [(hlive _).2.1]

section

variable (hs : s.Satisfies ZsetOk)

section

variable (hdue : ∀ key ∈ kind.keys cs, (s.slots key).Unexpired now)
include hdue

theorem packedRun_eq (hsplit : ∀ key ∈ kind.keys cs, isSplitZset now (s.slots key) = false) :
    let out := runKeyed kind.key kind.packedBatchStep (fun key => loadPackedZset (s.slots key)) cs
    out.1 = (kind.packedRun now cs s).1 ∧
      ∀ key ∈ kind.keys cs, out.2 key = (kind.packedRun now cs s).2 key := by
  have hload : ∀ key ∈ cs.map kind.key, loadPackedZset (s.slots key) =
      packedStart ((s.slots key).view zsetLayout now) := fun key hkey =>
    loadPackedZset_eq (hdue key (kind.mem_keys.mpr hkey)) (hsplit key (kind.mem_keys.mpr hkey))
  obtain ⟨hreplies, hstates⟩ := @runKeyed_congr _ _ _ _ _ kind.key kind.packedBatchStep _ _ cs hload
  exact ⟨hreplies, fun key hkey => hstates key (kind.mem_keys.mp hkey)⟩

include hs

theorem packedRun_ok {key : Bytes} (hkey : key ∈ kind.keys cs)
    (hsplit : isSplitZset now (s.slots key) = false) {state : PackedZsetState}
    (h : (kind.packedRun now cs s).2 key = .ok state) : PackedStateOk now state := by
  rw [packedRun, runKeyed_snd] at h
  exact runOne_packed_ok kind _ (fun st hst => packedStart_ok (hs key) (hdue key hkey) hsplit hst) h

theorem tryPacked_spec : (kind.takesPacked now cs s = false → kind.tryPacked now cs s = none) ∧
    (kind.takesPacked now cs s = true → ∃ s', kind.tryPacked now cs s =
        some ((kind.packedRun now cs s).1, s') ∧ s'.Satisfies ZsetOk ∧
      ∀ key, (s'.slots key).view zsetLayout now = packedResult ((s.slots key).view zsetLayout now)
          ((kind.packedRun now cs s).2 key) ∧
        isSplitZset now (s'.slots key) = isSplitZset now (s.slots key)) := by
  unfold tryPacked
  by_cases hany : (kind.keys cs).any (fun key => isSplitZset now (s.slots key)) = true
  · rw [if_pos hany]
    refine ⟨fun _ => rfl, fun htakes => ?_⟩
    obtain ⟨key, hkey, hsplit⟩ := any_eq_true.mp hany
    have hkeep := all_eq_true.mp htakes key hkey
    simp [hsplit] at hkeep
  · have hsplit : ∀ key ∈ kind.keys cs, isSplitZset now (s.slots key) = false := fun key hkey =>
      Bool.eq_false_iff.mpr fun h => hany (any_eq_true.mpr ⟨key, hkey, h⟩)
    obtain ⟨hreplies, hstates⟩ := kind.packedRun_eq now cs hdue hsplit
    rw [if_neg hany]
    dsimp only
    rw [hreplies]
    by_cases hover : (kind.keys cs).any (fun key => overflowed ((runKeyed kind.key
        kind.packedBatchStep (fun key => loadPackedZset (s.slots key)) cs).2 key)) = true
    · rw [if_pos hover]
      refine ⟨fun _ => rfl, fun htakes => ?_⟩
      obtain ⟨key, hkey, hfull⟩ := any_eq_true.mp hover
      have hkeep := all_eq_true.mp htakes key hkey
      rw [hstates key hkey] at hfull
      simp [hfull] at hkeep
    · have hfits : ∀ key ∈ kind.keys cs, overflowed ((kind.packedRun now cs s).2 key) = false :=
        fun key hkey => Bool.eq_false_iff.mpr fun h => hover
          (any_eq_true.mpr ⟨key, hkey, (hstates key hkey).symm ▸ h⟩)
      have hwrite : ∀ key (hkey : key ∈ kind.keys cs), _ := fun key hkey =>
        writePackedZset_spec (hs key) (hsplit key hkey)
          (fun st hst => kind.packedRun_ok now cs hs hdue hkey (hsplit key hkey) hst)
          (hfits key hkey)
      rw [if_neg hover]
      refine ⟨fun htakes => ?_, fun _ => ⟨_, rfl, fun key => ?_, fun key => ?_⟩⟩
      · refine absurd (all_eq_true.mpr fun key hkey => ?_) (Bool.eq_false_iff.mp htakes)
        simp [hsplit key hkey, hfits key hkey]
      · dsimp only
        split
        · next hkey =>
          rw [hstates key hkey]
          exact (hwrite key hkey).2.2
        · exact hs key
      · dsimp only
        split
        · next hkey =>
          rw [hstates key hkey, hsplit key hkey]
          exact (hwrite key hkey).imp_right And.left
        · next hkey =>
          refine ⟨?_, rfl⟩
          rw [packedRun, runKeyed_untouched fun h => hkey (kind.mem_keys.mpr h), packedResult_start]

end

include hs in
theorem splitBatch_spec (hrecs : ∀ key ∈ kind.keys cs, Unpacked now (s.slots key)) :
    (kind.splitBatch now cs s).1 = (kind.splitRun now cs s).1 ∧
      (kind.splitBatch now cs s).2.Satisfies ZsetOk ∧
      ∀ key, ((kind.splitBatch now cs s).2.slots key).view zsetLayout now =
          splitResult ((s.slots key).view zsetLayout now) ((kind.splitRun now cs s).2 key) ∧
        isSplitZset now ((kind.splitBatch now cs s).2.slots key) = if key ∈ kind.keys cs then
            (((kind.splitBatch now cs s).2.slots key).view zsetLayout now).isValue
          else isSplitZset now (s.slots key) := by
  have hfresh : ∀ key ∈ kind.keys cs, (s.slots key).main = none → s.counter < batchVersion s.counter
        ((kind.keys cs).filter fun key => ((s.slots key).live now).isNone) key ∧
      batchVersion s.counter
        ((kind.keys cs).filter fun key => ((s.slots key).live now).isNone) key ≤ s.counter +
        ((kind.keys cs).filter fun key => ((s.slots key).live now).isNone).length := by
    intro key hkey hmain
    refine batchVersion_mem s.counter (mem_filter.mpr ⟨hkey, ?_⟩)
    rw [live_eq_none_of_main hmain]
    rfl
  unfold splitBatch
  dsimp only
  generalize (kind.keys cs).filter (fun key => ((s.slots key).live now).isNone) = absent at hfresh ⊢
  have hload : ∀ key ∈ cs.map kind.key,
      loadSplitZset now (batchVersion s.counter absent key) (s.slots key) =
        splitStart ((s.slots key).view zsetLayout now) := fun key hkey =>
    loadSplitZset_eq (hrecs key (kind.mem_keys.mpr hkey)) (hs key)
      fun hmain => (hfresh key (kind.mem_keys.mpr hkey) hmain).1
  obtain ⟨hreplies, hstates⟩ := @runKeyed_congr _ _ _ _ _ kind.key kind.splitBatchStep _ _ cs hload
  have hwrite : ∀ key (hkey : key ∈ kind.keys cs), _ := fun key hkey =>
    writeSplitZset_spec (hrecs key hkey) (hs key) (hfresh key hkey) (Nat.le_add_right ..)
  refine ⟨hreplies, fun key => ?_, fun key => ?_⟩
  · show ZsetOk _ (if key ∈ kind.keys cs then _ else _)
    split
    · next hkey => exact (hwrite key hkey _).2
    · exact (hs key).mono (Nat.le_add_right ..)
  · split
    · next hkey =>
      rw [hstates key (kind.mem_keys.mp hkey)]
      exact ⟨(hwrite key hkey _).1,
        isSplitZset_eq_isValue (writeSplitZset_unpacked (hrecs key hkey) _)⟩
    · next hkey =>
      refine ⟨?_, rfl⟩
      rw [splitRun, runKeyed_untouched fun h => hkey (kind.mem_keys.mpr h), splitResult_start]

end

/-- **詰めたまま書けるときの、まとめての実行。** -/
theorem run_of_takesPacked (hs : s.Satisfies ZsetOk) (h : kind.takesPacked now cs s = true) :
    (kind.run now cs s).1 = (kind.packedRun now cs s).1 ∧ (kind.run now cs s).2.Satisfies ZsetOk ∧
      ∀ key, ((kind.run now cs s).2.slots key).view zsetLayout now =
          packedResult ((s.slots key).view zsetLayout now) ((kind.packedRun now cs s).2 key) ∧
        isSplitZset now ((kind.run now cs s).2.slots key) = isSplitZset now (s.slots key) := by
  obtain ⟨hok, hlive⟩ := expireZsets_spec hs now (kind.keys cs)
  obtain ⟨s', htry, hok', hviews⟩ := (kind.tryPacked_spec now cs hok fun key => (hlive key).2.2).2
    ((kind.takesPacked_expireZsets now cs hs).trans h)
  rw [(kind.runs_congr now cs fun key => (hlive key).1).1] at htry hviews
  unfold run
  dsimp only
  rw [htry]
  refine ⟨rfl, hok', fun key => ?_⟩
  rw [(hviews key).1, (hviews key).2, (hlive key).1, (hlive key).2.1]
  exact ⟨rfl, rfl⟩

/-- **分けて書くときの、まとめての実行。** -/
theorem run_of_not_takesPacked (hs : s.Satisfies ZsetOk) (h : kind.takesPacked now cs s = false) :
    (kind.run now cs s).1 = (kind.splitRun now cs s).1 ∧ (kind.run now cs s).2.Satisfies ZsetOk ∧
      ∀ key, ((kind.run now cs s).2.slots key).view zsetLayout now =
          splitResult ((s.slots key).view zsetLayout now) ((kind.splitRun now cs s).2 key) ∧
        (key ∈ kind.keys cs → isSplitZset now ((kind.run now cs s).2.slots key) =
          (((kind.run now cs s).2.slots key).view zsetLayout now).isValue) ∧
        (key ∉ kind.keys cs → (kind.run now cs s).2.slots key = s.slots key) := by
  obtain ⟨hok, hlive⟩ := expireZsets_spec hs now (kind.keys cs)
  have htry := (kind.tryPacked_spec now cs hok fun key => (hlive key).2.2).1
    ((kind.takesPacked_expireZsets now cs hs).trans h)
  have hpromoted := promoteZsets_spec now hok (kind.keys cs)
  obtain ⟨hreplies, hsat, hviews⟩ := kind.splitBatch_spec now cs (fun key => (hpromoted key).1)
    fun key hkey => promoteZsets_unpacked hkey ((hlive key).2.2 hkey)
  have hsame : ∀ key, ((promoteZsets (kind.keys cs)
      (expireZsets now (kind.keys cs) s)).slots key).view zsetLayout now =
        (s.slots key).view zsetLayout now := fun key => (hpromoted key).2.trans (hlive key).1
  rw [(kind.runs_congr now cs hsame).2] at hreplies hviews
  unfold run
  dsimp only
  rw [htry]
  refine ⟨hreplies, hsat, fun key => ⟨?_, fun hkey => ?_, fun hkey => ?_⟩⟩
  · rw [(hviews key).1, hsame]
  · rw [(hviews key).2, if_pos hkey]
  · simp [splitBatch, promoteZsets, expireZsets, if_neg hkey]

theorem run_ok (hs : s.Satisfies ZsetOk) : (kind.run now cs s).2.Satisfies ZsetOk := by
  cases h : kind.takesPacked now cs s with
  | true => exact (kind.run_of_takesPacked now cs hs h).2.1
  | false => exact (kind.run_of_not_takesPacked now cs hs h).2.1

/-! ## key ごとの結果 -/

def packedScores (c : γ) (scores : Scores) : Except String ρ × Scores :=
  ((kind.packedStep c scores).1, (kind.packedStep c scores).2.1)

def splitScores (c : γ) (scores : Scores) : Except String ρ × Scores :=
  ((kind.splitStep c scores).1, (kind.splitStep c scores).2.1)

def dirties : Scores → List γ → Bool
  | _, [] => false
  | scores, c :: cs => (kind.packedStep c scores).2.2 || dirties (kind.packedStep c scores).2.1 cs

def overflows : Scores → List γ → Bool
  | _, [] => false
  | scores, c :: cs =>
    !packedZsetFits (kind.packedStep c scores).2.1 || overflows (kind.packedStep c scores).2.1 cs

def touches : Scores → List γ → List Text
  | _, [] => []
  | scores, c :: cs => (kind.splitStep c scores).2.2 ++ touches (kind.splitStep c scores).2.1 cs

theorem runOne_packedBatchStep (state : PackedZsetState) (cs : List γ) :
    runOne kind.packedBatchStep (.ok state) cs = ((runOne kind.packedScores state.entries cs).1,
        .ok ⟨state.expireMs, (runOne kind.packedScores state.entries cs).2,
          state.dirty || kind.dirties state.entries cs,
          state.overflow || kind.overflows state.entries cs⟩) := by
  induction cs generalizing state with
  | nil => simp [runOne, dirties, overflows]
  | cons c cs ih =>
    simp only [runOne, packedBatchStep, ih, dirties, overflows, Bool.or_assoc]
    rfl

theorem runOne_splitBatchStep (state : SplitZsetState) (cs : List γ) :
    runOne kind.splitBatchStep (.ok state) cs = ((runOne kind.splitScores state.scores cs).1,
        .ok ⟨(runOne kind.splitScores state.scores cs).2,
          state.touched ++ kind.touches state.scores cs⟩) := by
  induction cs generalizing state with
  | nil => simp [runOne, touches]
  | cons c cs ih =>
    simp only [runOne, splitBatchStep, ih, touches, append_assoc]
    rfl

structure Grows : Prop where
  packed_ne : ∀ {c scores}, (kind.packedStep c scores).2.2 = true ∨ scores ≠ ∅ →
    (kind.packedStep c scores).2.1 ≠ ∅
  split_some : ∀ {c scores m}, m ∈ (kind.splitStep c scores).2.2 ∨ scores.lookup m ≠ none →
    (kind.splitStep c scores).2.1.lookup m ≠ none

section

variable {kind} (hgrow : kind.Grows) {scores : Scores} {cs : List γ}

include hgrow

theorem Grows.runOne_packed_ne (h : kind.dirties scores cs = true ∨ scores ≠ ∅) :
    (runOne kind.packedScores scores cs).2 ≠ ∅ := by
  induction cs generalizing scores with
  | nil => exact h.resolve_left (by simp [dirties])
  | cons c cs ih =>
    refine ih ?_
    rcases h with h | h
    · rcases Bool.or_eq_true_iff.mp h with h | h
      · exact .inr (hgrow.packed_ne (.inl h))
      · exact .inl h
    · exact .inr (hgrow.packed_ne (.inr h))

theorem Grows.runOne_split_some {m : Text}
    (h : m ∈ kind.touches scores cs ∨ scores.lookup m ≠ none) :
    (runOne kind.splitScores scores cs).2.lookup m ≠ none := by
  induction cs generalizing scores with
  | nil => exact h.resolve_left (by simp [touches])
  | cons c cs ih =>
    refine ih ?_
    rcases h with h | h
    · rcases mem_append.mp h with h | h
      · exact .inr (hgrow.split_some (.inl h))
      · exact .inl h
    · exact .inr (hgrow.split_some (.inr h))

theorem Grows.runOne_split_ne (h : scores ≠ ∅) : (runOne kind.splitScores scores cs).2 ≠ ∅ := by
  obtain ⟨m, hm⟩ := Scores.ne_empty_iff.mp h
  exact Scores.ne_empty_iff.mpr ⟨m, hgrow.runOne_split_some (.inr hm)⟩

variable {v : Visible Scores} {e : Nat} {stored : Scores}

theorem Grows.packedResult_eq (hparts : v.parts ∅ = some (e, stored)) (cs : List γ) :
    packedResult v (runOne kind.packedBatchStep (packedStart v) cs).2 =
      v.extend (if kind.dirties stored cs then (runOne kind.packedScores stored cs).2
        else stored) := by
  simp only [packedStart, hparts, runOne_packedBatchStep, packedResult, Bool.false_or]
  split
  · next h => exact (extend_of_ne_empty hparts (hgrow.runOne_packed_ne (.inl h))).symm
  · exact (extend_self hparts).symm

theorem Grows.splitResult_eq (hparts : v.parts ∅ = some (e, stored)) (cs : List γ) :
    splitResult v (runOne kind.splitBatchStep (splitStart v) cs).2 =
      v.extend (settle stored (runOne kind.splitScores stored cs).2 (kind.touches stored cs)) := by
  simp only [splitStart, hparts, runOne_splitBatchStep, splitResult, nil_append]
  have hdedup : settle stored (runOne kind.splitScores stored cs).2 (kind.touches stored cs).dedup =
      settle stored (runOne kind.splitScores stored cs).2 (kind.touches stored cs) := by
    refine Finmap.ext_lookup fun m => ?_
    simp [lookup_settle]
  rw [hdedup]
  split
  · next h =>
    rw [h]
    exact (extend_self hparts).symm
  · next h =>
    exact (extend_of_ne_empty hparts
      (settle_ne_empty_of (fun m hm => hgrow.runOne_split_some (.inl hm)) h)).symm

omit hgrow

theorem runOne_foreign (kind : ZsetBatchKind γ ρ) (e : Nat) (raw : Bytes) (cs : List γ) :
    runOne kind.packedBatchStep (packedStart (.foreign e raw)) cs =
        (cs.map fun _ => .error wrongTypeError, .error wrongTypeError) ∧
      runOne kind.splitBatchStep (splitStart (.foreign e raw)) cs =
        (cs.map fun _ => .error wrongTypeError, .error wrongTypeError) :=
  ⟨@runOne_fixed _ _ _ kind.packedBatchStep _ _ (fun _ => rfl) cs,
    @runOne_fixed _ _ _ kind.splitBatchStep _ _ (fun _ => rfl) cs⟩

end

end ZsetBatchKind

end Onedis.Store
