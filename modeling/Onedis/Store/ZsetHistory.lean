import Onedis.Store.ZsetPipeline
import Onedis.Store.ZsetPop
import Onedis.Store.ZsetRange

/-!
# member record と rank record の対応

* `zsetHistory_bijective` — どの履歴の後でも、member record と rank record は一対一に対応する

命令はどれも `ZsetOk` を保つ。一つの命令について示し、履歴の長さについての帰納法で全体へ進む。
-/

namespace Onedis.Store

open Infra Function
open Codec (wrongTypeError)

/-! ## 取り除く命令 -/

def presentMembers : List Text → Scores → List Text
  | [], _ => []
  | m :: rest, scores =>
    if (scores.lookup m).isSome then m :: presentMembers rest (scores.erase m)
    else presentMembers rest scores

/-- `try_zset_remove_packed_async` のうち、詰めた zset の場合。 -/
def removePacked (recs : ZsetRecords) (e : Nat) (scores : Scores) (members : List Text) :
    Nat × ZsetRecords :=
  let found := presentMembers members scores
  if found = [] then (0, recs)
  else
    let rest := found.foldl (fun scores m => scores.erase m) scores
    (found.length, recs.setMain (if rest = ∅ then none else some (.packed e rest)))

def removeFound (recs : ZsetRecords) (ver : Nat) (found : List Text) : ZsetRecords :=
  let erased := recs.setItems ver (found.foldl ZsetItems.erase (recs.items ver))
  let existing := min (recs.items ver).members.keys.card (found.length + 1)
  if existing = found.length then erased.setMain none else erased

def removeSplit (recs : ZsetRecords) (ver : Nat) (members : List Text) : Nat × ZsetRecords :=
  let found := presentMembers members (recs.items ver).members
  if found = [] then (0, recs) else (found.length, removeFound recs ver found)

/-- `zset_remove_async_unlocked`。 -/
def zsetRemove (now : Nat) (members : List Text) (stored : ZsetRecords) :
    Except String Nat × ZsetRecords :=
  let recs := stored.expireIfNeeded now
  match recs.main with
  | none => (.ok 0, recs)
  | some (.foreign _ _) => (.error wrongTypeError, recs)
  | some (.packed e scores) =>
    let out := removePacked recs e scores members
    (.ok out.1, out.2)
  | some (.split _ ver _) =>
    let out := removeSplit recs ver members
    (.ok out.1, out.2)

def normalizedRange (start stop : Int) (entries : List ZsetEntry) : List ZsetEntry :=
  let len : Int := entries.length
  let first := max (if start < 0 then len + start else start) 0
  let last := min (if stop < 0 then len + stop else stop) (len - 1)
  if len = 0 ∨ last < first ∨ len ≤ first ∨ last < 0 then []
  else (entries.take (last.toNat + 1)).drop first.toNat

/-- `zset_range_async`。分けた zset では、負でない範囲は先頭から必要な数だけ読む。 -/
def zsetRange (split : Bool) (start stop : Int) (entries : List ZsetEntry) : List ZsetEntry :=
  if split ∧ 0 ≤ start ∧ 0 ≤ stop ∧ stop + 1 < 2 ^ 63 then
    if stop < start then [] else (entries.take (stop.toNat + 1)).drop start.toNat
  else normalizedRange start stop entries

inductive ZsetRemoveRange
  | rank (start stop : Int)
  | score (range : ScoreRange)
  | lex (min max : LexBound)

/--
範囲に入る member。score の範囲は rank record を、辞書式の範囲は member record を走査する。走査が条件に合う
record をちょうど返すことは `scoreScan_exact` と `lexScan_exact` による。
-/
def rangeMembers (split : Bool) (ranks : Finset ZsetEntry) (members : Scores) :
    ZsetRemoveRange → List Text
  | .rank start stop => (zsetRange split start stop (ranked ranks)).map Prod.fst
  | .score range => ((ranked ranks).filter fun a => range.contains a.2.bits).map Prod.fst
  | .lex min max =>
    ((membersInOrder members).filter fun a => zsetMemberInLexRange a.1.bytes min max).map Prod.fst

/-- `zset_remove_range_by_rank_async`, `_by_score_async`, `_by_lex_async`。 -/
def zsetRemoveRange (now : Nat) (range : ZsetRemoveRange) (stored : ZsetRecords) :
    Except String Nat × ZsetRecords :=
  let recs := stored.expireIfNeeded now
  match recs.main with
  | none => (.ok 0, recs)
  | some (.foreign _ _) => (.error wrongTypeError, recs)
  | some (.packed _ scores) => zsetRemove now (rangeMembers false scores.pairs scores range) recs
  | some (.split _ ver _) =>
    let items := recs.items ver
    zsetRemove now (rangeMembers true items.ranks items.members range) recs

/-! ## COPY と RENAME -/

def ZsetItems.copyInto (target source : ZsetItems) : ZsetItems where
  members := source.members ∪ target.members
  ranks := target.ranks ∪ source.ranks

/--
`copy_structure_between_dbs_to_batch_async`。詰めた zset は main record だけを写す。別の型の record の写し方は
`Onedis.Store.KeyCopy` が扱う。
-/
def copyStructure (fresh : Nat) (source target : ZsetRecords) : ZsetRecords :=
  match source.main with
  | none => target
  | some (.packed e scores) => target.setMain (some (.packed e scores))
  | some (.foreign e raw) => target.setMain (some (.foreign e raw))
  | some (.split e ver _) =>
    (target.setItems fresh ((target.items fresh).copyInto (source.items ver))).setMain
      (some (.split e fresh ()))

/-- `copy_key_between_dbs_async`。期限の来た record は、ないものとして扱う。 -/
def copyZset (now : Nat) (source target : Bytes) (replace : Bool) (s : ZsetStore) : ZsetStore :=
  if source = target ∨ ((s.slots source).live now).isNone ∨
      (((s.slots target).live now).isSome ∧ replace = false) then s
  else
    let cleared := if ((s.slots target).live now).isSome then (s.slots target).delete
      else s.slots target
    ⟨update s.slots target (copyStructure (s.counter + 1) (s.slots source) cleared),
      s.counter + 1⟩

/-- `rename_key_async_unlocked`。はじめに両方の期限を調べる。 -/
def renameZset (now : Nat) (old new : Bytes) (replace : Bool) (s : ZsetStore) : ZsetStore :=
  if old = new then s
  else
    let slots := update (update s.slots old ((s.slots old).expireIfNeeded now)) new
      ((s.slots new).expireIfNeeded now)
    if (slots old).main.isNone ∨ ((slots new).main.isSome ∧ replace = false) then ⟨slots, s.counter⟩
    else
      let written := update slots new
        (copyStructure (s.counter + 1) (slots old) (slots new).delete)
      ⟨update written old (slots old).delete, s.counter + 1⟩

/-! ## 命令 -/

/-- zset を書く命令。 -/
inductive ZsetCommand
  | add (key : Bytes) (pairs : List ScorePair) (options : ZsetAddOptions)
  | addBatch (cmds : List ZsetAddCommand)
  | incrBatch (cmds : List ZsetIncrCommand)
  | remove (key : Bytes) (members : List Text)
  | removeRange (key : Bytes) (range : ZsetRemoveRange)
  | pop (command : ZsetPopCommand)
  | popBatch (cmds : List ZsetPopCommand)
  | promote (keys : List Bytes)
  | copy (source target : Bytes) (replace : Bool)
  | rename (old new : Bytes) (replace : Bool)

namespace ZsetCommand

def onKey (s : ZsetStore) (key : Bytes) (f : Nat → ZsetRecords → ZsetRecords) : ZsetStore :=
  ⟨update s.slots key (f (s.counter + 1) (s.slots key)), s.counter + 1⟩

def exec (add : UInt64 → UInt64 → UInt64) (now : Nat) (s : ZsetStore) : ZsetCommand → ZsetStore
  | .add key pairs options => onKey s key fun ver recs => (zsetAdd add now pairs options ver recs).2
  | .addBatch cmds => (zaddKind.run now cmds s).2
  | .incrBatch cmds => ((incrKind add).run now cmds s).2
  | .remove key members => onKey s key fun _ recs => (zsetRemove now members recs).2
  | .removeRange key range => onKey s key fun _ recs => (zsetRemoveRange now range recs).2
  | .pop c => onKey s c.key fun _ recs => (zsetPop now c.min c.count recs).2
  | .popBatch cmds => (zsetPopBatch now cmds s).2
  | .promote keys => promoteZsets keys s
  | .copy source target replace => copyZset now source target replace s
  | .rename old new replace => renameZset now old new replace s

end ZsetCommand

def runHistory (add : UInt64 → UInt64 → UInt64) (history : List (Nat × ZsetCommand))
    (s : ZsetStore) : ZsetStore :=
  history.foldl (fun s event => event.2.exec add event.1 s) s

def freshStore (others : Bytes → Option (Nat × Bytes)) : ZsetStore where
  slots key := ⟨(others key).map fun r => .foreign r.1 r.2, fun _ => ∅⟩
  counter := 0

/-! ## 取り除く命令は対応を保つ -/

section

variable {n : Nat} {recs : ZsetRecords}

theorem lookup_foldl_erase (members : List Text) (scores : Scores) (m : Text) :
    (members.foldl (fun scores m => scores.erase m) scores).lookup m =
      if m ∈ members then none else scores.lookup m := by
  induction members generalizing scores with
  | nil => simp
  | cons t members ih =>
    rw [List.foldl_cons, ih]
    by_cases hm : m = t
    · rw [hm, Finmap.lookup_erase, if_pos List.mem_cons_self, ite_self]
    · rw [Finmap.lookup_erase_ne hm]
      exact (if_congr (by rw [List.mem_cons, or_iff_right hm]) rfl rfl).symm

theorem packedZsetFits_foldl_erase {scores : Scores} (h : packedZsetFits scores = true)
    (members : List Text) :
    packedZsetFits (members.foldl (fun scores m => scores.erase m) scores) = true := by
  refine packedZsetFits_mono (fun m s hs => ?_) h
  rw [lookup_foldl_erase] at hs
  split at hs
  · cases hs
  · exact hs

theorem removePacked_ok {e : Nat} {scores : Scores} (members : List Text) (hok : ZsetOk n recs)
    (hmain : recs.main = some (.packed e scores)) :
    ZsetOk n (removePacked recs e scores members).2 := by
  unfold removePacked
  dsimp only
  split
  · exact hok
  · dsimp only
    split
    · exact hok.setMain_none
    · exact hok.setMain_packed e (packedZsetFits_foldl_erase (hok.packed_fits hmain) _)

theorem indexed_foldl_erase {items : ZsetItems} (h : items.Indexed) (members : List Text) :
    (members.foldl ZsetItems.erase items).Indexed := by
  induction members generalizing items with
  | nil => exact h
  | cons m members ih => exact ih (h.erase m)

theorem removeFound_ok {ver : Nat} (found : List Text) (hok : ZsetOk n recs)
    (hle : ver ≤ n) : ZsetOk n (removeFound recs ver found) := by
  have herased := hok.setItems hle (indexed_foldl_erase (hok.indexed ver) found)
  unfold removeFound
  dsimp only
  split
  · exact herased.setMain_none
  · exact herased

theorem zsetRemove_ok (now : Nat) (members : List Text) (hok : ZsetOk n recs) :
    ZsetOk n (zsetRemove now members recs).2 := by
  have hok' := hok.expireIfNeeded now
  unfold zsetRemove
  dsimp only
  split
  · exact hok'
  · exact hok'
  · next hmain => exact removePacked_ok members hok' hmain
  · next hmain =>
      unfold removeSplit
      dsimp only
      split
      · exact hok'
      · exact removeFound_ok _ hok' (hok'.fresh.version_le hmain)

theorem zsetRemoveRange_ok (now : Nat) (range : ZsetRemoveRange) (hok : ZsetOk n recs) :
    ZsetOk n (zsetRemoveRange now range recs).2 := by
  have hok' := hok.expireIfNeeded now
  unfold zsetRemoveRange
  dsimp only
  split
  · exact hok'
  · exact hok'
  · exact zsetRemove_ok now _ hok'
  · exact zsetRemove_ok now _ hok'

end

/-! ## COPY と RENAME は対応を保つ -/

theorem ZsetItems.copyInto_empty (source : ZsetItems) :
    (∅ : ZsetItems).copyInto source = source := by
  show ZsetItems.mk (source.members ∪ ∅) (∅ ∪ source.ranks) = source
  rw [Finset.empty_union, Finmap.union_empty]

theorem copyStructure_ok {n : Nat} {source target : ZsetRecords} (hs : ZsetOk n source)
    (ht : ZsetOk n target) : ZsetOk (n + 1) (copyStructure (n + 1) source target) := by
  have ht' := ht.mono (Nat.le_succ n)
  unfold copyStructure
  split
  · exact ht'
  · next hmain => exact ht'.setMain_packed _ (hs.packed_fits hmain)
  · exact ⟨⟨nofun, ht'.fresh.items_empty⟩, nofun, ht'.indexed⟩
  · rw [ht.fresh.items_empty (Nat.lt_succ_self n), ZsetItems.copyInto_empty]
    exact (ht'.setItems le_rfl (hs.indexed _)).setMain_split le_rfl _

section

variable {s : ZsetStore}

theorem satisfies_update {m : Nat} {recs : ZsetRecords} {key : Bytes} (hs : s.Satisfies ZsetOk)
    (hle : s.counter ≤ m) (hrecs : ZsetOk m recs) :
    Numbered.Satisfies ZsetOk ⟨update s.slots key recs, m⟩ := by
  intro k
  by_cases hk : k = key
  · subst hk
    simpa only [update_self] using hrecs
  · simpa only [update_of_ne hk] using (hs k).mono hle

theorem copyZset_ok (now : Nat) (source target : Bytes) (replace : Bool)
    (hs : s.Satisfies ZsetOk) : (copyZset now source target replace s).Satisfies ZsetOk := by
  unfold copyZset
  split
  · exact hs
  · refine satisfies_update hs (Nat.le_succ _) (copyStructure_ok (hs source) ?_)
    split
    · exact (hs target).delete
    · exact hs target

theorem renameZset_ok (now : Nat) (old new : Bytes) (replace : Bool) (hs : s.Satisfies ZsetOk) :
    (renameZset now old new replace s).Satisfies ZsetOk := by
  unfold renameZset
  split
  · exact hs
  · have hlive : Numbered.Satisfies ZsetOk (⟨update (update s.slots old
        ((s.slots old).expireIfNeeded now)) new ((s.slots new).expireIfNeeded now),
          s.counter⟩ : ZsetStore) :=
      satisfies_update (satisfies_update hs le_rfl ((hs old).expireIfNeeded now)) le_rfl
        ((hs new).expireIfNeeded now)
    dsimp only
    split
    · exact hlive
    · have hwritten := @satisfies_update _ (s.counter + 1) _ new hlive (Nat.le_succ _)
        (copyStructure_ok (hlive old) (hlive new).delete)
      exact satisfies_update hwritten le_rfl ((hlive old).delete.mono (Nat.le_succ _))

variable (add : UInt64 → UInt64 → UInt64)

theorem ZsetCommand.exec_ok (now : Nat) (c : ZsetCommand)
    (hs : s.Satisfies ZsetOk) : (c.exec add now s).Satisfies ZsetOk := by
  cases c with
  | add key pairs options =>
    exact satisfies_update hs (Nat.le_succ _) (zsetAdd_spec now pairs (hs key)).inv
  | addBatch cmds => exact zaddKind.run_ok now cmds hs
  | incrBatch cmds => exact (incrKind add).run_ok now cmds hs
  | remove key members =>
    exact satisfies_update hs (Nat.le_succ _)
      ((zsetRemove_ok now members (hs key)).mono (Nat.le_succ _))
  | removeRange key range =>
    exact satisfies_update hs (Nat.le_succ _)
      ((zsetRemoveRange_ok now range (hs key)).mono (Nat.le_succ _))
  | pop c =>
    exact satisfies_update hs (Nat.le_succ _)
      ((zsetPop_spec now c (hs c.key)).inv.mono (Nat.le_succ _))
  | popBatch cmds => exact (zsetPopBatch_refines now cmds hs).inv
  | promote keys => exact fun key => (promoteZsets_spec now hs keys key).1
  | copy source target replace => exact copyZset_ok now source target replace hs
  | rename old new replace => exact renameZset_ok now old new replace hs

theorem runHistory_ok (history : List (Nat × ZsetCommand))
    (hs : s.Satisfies ZsetOk) : (runHistory add history s).Satisfies ZsetOk := by
  induction history generalizing s with
  | nil => exact hs
  | cons event history ih => exact ih (event.2.exec_ok add event.1 hs)

end

theorem freshStore_ok (others : Bytes → Option (Nat × Bytes)) :
    (freshStore others).Satisfies ZsetOk := by
  intro key
  have hmain : ∀ record, ((freshStore others).slots key).main = some record →
      ∃ e raw, record = .foreign e raw := by
    intro record h
    obtain ⟨r, -, hr⟩ := Option.map_eq_some_iff.mp h
    exact ⟨r.1, r.2, hr.symm⟩
  refine ⟨⟨fun h => ?_, fun _ => rfl⟩, fun h => ?_, fun _ => ZsetItems.indexed_empty⟩
  · obtain ⟨e, raw, hr⟩ := hmain _ h
    cases hr
  · obtain ⟨e, raw, hr⟩ := hmain _ h
    cases hr

/-! ## 一対一の対応 -/

/-- member record の score は、その member のただ一つの rank record の score で、ほかに rank record はない。 -/
def ZsetItems.Bijective (items : ZsetItems) : Prop :=
  (∀ m s, items.members.lookup m = some s ↔ items.ranks.filter (fun r => r.1 = m) = {(m, s)}) ∧
    ∀ r ∈ items.ranks, items.members.lookup r.1 = some r.2

theorem ZsetItems.Indexed.bijective {items : ZsetItems} (h : items.Indexed) : items.Bijective := by
  refine ⟨fun m s => ?_, fun r hr => (h r.1 r.2).mp hr⟩
  constructor
  · intro hs
    ext ⟨m', s'⟩
    rw [Finset.mem_filter, Finset.mem_singleton, h, Prod.mk.injEq]
    constructor
    · rintro ⟨hs', rfl⟩
      rw [hs] at hs'
      exact ⟨rfl, (Option.some.inj hs').symm⟩
    · rintro ⟨rfl, rfl⟩
      exact ⟨hs, rfl⟩
  · intro hfilter
    have hmem : (m, s) ∈ items.ranks.filter fun r => r.1 = m :=
      hfilter ▸ Finset.mem_singleton_self _
    exact (h m s).mp (Finset.mem_filter.mp hmem).1

/--
**どの命令の列の後でも、どの key のどの version でも、member record と rank record は一対一に対応する。**
浮動小数点の加算は任意の関数でよい。
-/
theorem zsetHistory_bijective (add : UInt64 → UInt64 → UInt64)
    (others : Bytes → Option (Nat × Bytes)) (history : List (Nat × ZsetCommand)) (key : Bytes)
    (ver : Nat) :
    (((runHistory add history (freshStore others)).slots key).items ver).Bijective :=
  ((runHistory_ok add history (freshStore_ok others) key).indexed ver).bijective

end Onedis.Store
