import Onedis.Store.KeyRecords
import Onedis.Store.ZsetIndex

/-!
# zset の record

zset は、小さいうちは main record に詰め、大きくなると、新しい version の member record と rank record に分ける。

どちらの layout でも、見える中身は member から score への表である。
-/

namespace Onedis.Store

open Infra KeyRecords

abbrev ZsetRecords := KeyRecords Scores Unit ZsetItems

def zsetLayout : Layout Scores Unit ZsetItems Scores := ⟨id, fun _ items => items.members⟩

/-- `encode_packed_zset` が成功するか。score は NaN でない。 -/
def packedZsetFits (scores : Scores) : Bool :=
  packedFits 64 8192 23 (fun e => decide (e.1.bytes.length < 256 ^ 4))
    (fun e => 12 + e.1.bytes.length) scores.entries

theorem packedZsetFits_mono {scores scores' : Scores}
    (hsub : ∀ m s, scores.lookup m = some s → scores'.lookup m = some s)
    (h : packedZsetFits scores' = true) : packedZsetFits scores = true := by
  refine packedFits_mono ((Multiset.le_iff_subset scores.nodup_entries).mpr ?_) h
  rintro ⟨m, s⟩ hm
  exact Finmap.lookup_eq_some_iff.mp (hsub m s (Finmap.lookup_eq_some_iff.mpr hm))

/-! ## 取り除く -/

def eraseMembers (entries : List (Text × Score)) (scores : Scores) : Scores :=
  entries.foldl (fun scores a => scores.erase a.1) scores

@[simp] theorem eraseMembers_nil (scores : Scores) : eraseMembers [] scores = scores := rfl

theorem eraseMembers_append (l l' : List (Text × Score)) (scores : Scores) :
    eraseMembers (l ++ l') scores = eraseMembers l' (eraseMembers l scores) :=
  List.foldl_append

theorem lookup_eraseMembers (entries : List (Text × Score)) (scores : Scores) (m : Text) :
    (eraseMembers entries scores).lookup m =
      if m ∈ entries.map Prod.fst then none else scores.lookup m := by
  induction entries generalizing scores with
  | nil => simp
  | cons a entries ih =>
    rw [show eraseMembers (a :: entries) scores = eraseMembers entries (scores.erase a.1) from rfl,
      ih, List.map_cons]
    by_cases hm : m = a.1
    · rw [hm, Finmap.lookup_erase, if_pos List.mem_cons_self, ite_self]
    · rw [Finmap.lookup_erase_ne hm]
      exact (if_congr (by rw [List.mem_cons, or_iff_right hm]) rfl rfl).symm

variable {scores : Scores}

theorem packedZsetFits_eraseMembers (h : packedZsetFits scores = true)
    (entries : List (Text × Score)) : packedZsetFits (eraseMembers entries scores) = true := by
  refine packedZsetFits_mono (fun m s hs => ?_) h
  rw [lookup_eraseMembers] at hs
  split at hs
  · cases hs
  · exact hs

variable {entries : List (Text × Score)}

theorem mem_pairs_eraseMembers (h : ∀ a ∈ entries, a ∈ scores.pairs) (b : Text × Score) :
    b ∈ (eraseMembers entries scores).pairs ↔ b ∈ scores.pairs ∧ b ∉ entries := by
  obtain ⟨m, s⟩ := b
  rw [Scores.mem_pairs, Scores.mem_pairs, lookup_eraseMembers]
  split
  · next hm =>
    obtain ⟨⟨m', s'⟩, ha, rfl⟩ := List.mem_map.mp hm
    refine iff_of_false (by simp) fun hb => hb.2 ?_
    have hs := Scores.mem_pairs.mp (h _ ha)
    rw [hb.1] at hs
    cases hs
    exact ha
  · next hm => exact ⟨fun hs => ⟨hs, fun ha => hm (List.mem_map_of_mem ha)⟩, And.left⟩

theorem Scores.pairs_eq_empty : scores.pairs = ∅ ↔ scores = ∅ := by
  constructor
  · intro h
    refine Finmap.ext_lookup fun m => ?_
    rw [Finmap.lookup_empty]
    cases hm : scores.lookup m with
    | none => rfl
    | some s =>
      have hmem := Scores.mem_pairs.mpr hm
      rw [h] at hmem
      cases hmem
  · rintro rfl
    rfl

theorem ranked_eq_nil : ranked scores.pairs = [] ↔ scores = ∅ := by
  rw [← Scores.pairs_eq_empty, List.eq_nil_iff_forall_not_mem, Finset.eq_empty_iff_forall_notMem]
  simp

theorem nodup_ranked (pairs : Finset (Text × Score)) : (ranked pairs).Nodup :=
  pairs.sort_nodup RankLe

def ZsetItems.eraseEntries (items : ZsetItems) (entries : List (Text × Score)) : ZsetItems where
  members := eraseMembers entries items.members
  ranks := items.ranks \ entries.toFinset

theorem ZsetItems.Indexed.eraseEntries {items : ZsetItems} (h : items.Indexed)
    (hsub : ∀ a ∈ entries, a ∈ items.ranks) : (items.eraseEntries entries).Indexed := by
  intro m s
  show (m, s) ∈ items.ranks \ entries.toFinset ↔
    (eraseMembers entries items.members).lookup m = some s
  rw [Finset.mem_sdiff, List.mem_toFinset, h.ranks_eq, ← Scores.mem_pairs,
    mem_pairs_eraseMembers fun a ha => h.ranks_eq ▸ hsub a ha]

def ZsetItems.putAll (items : ZsetItems) (scores : Scores) : ZsetItems where
  members := scores ∪ items.members
  ranks := items.ranks ∪ scores.pairs

@[simp] theorem ZsetItems.putAll_empty (scores : Scores) :
    (∅ : ZsetItems).putAll scores = .ofScores scores := by
  show ZsetItems.mk (scores ∪ ∅) (∅ ∪ scores.pairs) = ⟨scores, scores.pairs⟩
  rw [Finset.empty_union, Finmap.union_empty]

/-! ## 不変条件 -/

/-- 詰めた zset は上限に収まり、どの version でも member record と rank record は一対一に対応する。 -/
structure ZsetOk (n : Nat) (recs : ZsetRecords) : Prop where
  fresh : recs.Fresh n
  packed_fits : ∀ {e scores}, recs.main = some (.packed e scores) → packedZsetFits scores = true
  indexed : ∀ v, (recs.items v).Indexed

namespace ZsetOk

variable {n m : Nat} {recs : ZsetRecords}

variable (h : ZsetOk n recs)
include h

theorem mono (hle : n ≤ m) : ZsetOk m recs :=
  ⟨h.fresh.mono hle, h.packed_fits, h.indexed⟩

theorem setMain_none : ZsetOk n (recs.setMain none) :=
  ⟨h.fresh.setMain_none, nofun, h.indexed⟩

theorem setMain_packed (e : Nat) {scores : Scores} (hfits : packedZsetFits scores = true) :
    ZsetOk n (recs.setMain (some (.packed e scores))) where
  fresh := h.fresh.setMain_packed e scores
  packed_fits h' := by
    cases h'
    exact hfits
  indexed := h.indexed

theorem setItems {v : Nat} (hle : v ≤ n) {items : ZsetItems} (hitems : items.Indexed) :
    ZsetOk n (recs.setItems v items) where
  fresh := h.fresh.setItems hle items
  packed_fits := h.packed_fits
  indexed w := by
    by_cases hw : w = v
    · subst hw
      rw [setItems_items_self]
      exact hitems
    · rw [setItems_items_of_ne hw]
      exact h.indexed w

theorem setMain_split {v : Nat} (hle : v ≤ n) (e : Nat) :
    ZsetOk n (recs.setMain (some (.split e v ()))) :=
  ⟨h.fresh.setMain_split hle e (), nofun, h.indexed⟩

theorem delete : ZsetOk n recs.delete := by
  unfold KeyRecords.delete
  split
  · next hmain => exact (h.setItems (h.fresh.version_le hmain) ZsetItems.indexed_empty).setMain_none
  · exact h.setMain_none

theorem expireIfNeeded (now : Nat) : ZsetOk n (recs.expireIfNeeded now) := by
  unfold KeyRecords.expireIfNeeded
  split
  · split
    · exact h.delete
    · exact h
  · exact h

end ZsetOk

/-! ## layout の変更 -/

/-- `promote_packed_zset_async`。詰めた zset だけを、新しい version に分けて書く。 -/
def promotePackedZset (ver : Nat) (recs : ZsetRecords) : ZsetRecords :=
  match recs.main with
  | some (.packed e scores) =>
    (recs.setItems ver ((recs.items ver).putAll scores)).setMain
      (some (.split e ver ()))
  | _ => recs

section

variable {n m ver : Nat} {recs : ZsetRecords}

theorem ZsetOk.promote (h : ZsetOk n recs) (hlt : n < ver) (hle : ver ≤ m) :
    ZsetOk m (promotePackedZset ver recs) := by
  have hm := h.mono (hlt.le.trans hle)
  unfold promotePackedZset
  split
  · rw [h.fresh.items_empty hlt, ZsetItems.putAll_empty]
    exact (hm.setItems hle (ZsetItems.indexed_ofScores _)).setMain_split hle _
  · exact hm

theorem view_promotePackedZset (h : recs.Fresh n) (hlt : n < ver) (now : Nat) :
    (promotePackedZset ver recs).view zsetLayout now = recs.view zsetLayout now := by
  unfold promotePackedZset
  split
  · next e scores hmain =>
    rw [h.items_empty hlt, ZsetItems.putAll_empty]
    cases hdue : expireDue now e with
    | true => rw [view_due hmain hdue, view_due (setMain_main ..) hdue]
    | false =>
      rw [view_packed hmain hdue, view_setSplit hdue]
      rfl
  · rfl

theorem promotePackedZset_main_ne_packed (e : Nat) (scores : Scores) :
    (promotePackedZset ver recs).main ≠ some (.packed e scores) := by
  unfold promotePackedZset
  split
  · simp
  · next h => exact h e scores

end

/-! ## 表の全体 -/

abbrev ZsetStore := Numbered Bytes ZsetRecords

def isPackedZset (recs : ZsetRecords) : Bool :=
  match recs.main with
  | some (.packed _ _) => true
  | _ => false

def promoteZsets (keys : List Bytes) (s : ZsetStore) : ZsetStore :=
  let packedKeys := keys.filter fun key => isPackedZset (s.slots key)
  { slots := fun key =>
      if key ∈ keys then promotePackedZset (s.counter + 1 + packedKeys.idxOf key) (s.slots key)
      else s.slots key
    counter := s.counter + packedKeys.length }

theorem promoteZsets_spec (now : Nat) {s : ZsetStore} (hs : s.Satisfies ZsetOk)
    (keys : List Bytes) (key : Bytes) :
    ZsetOk (promoteZsets keys s).counter ((promoteZsets keys s).slots key) ∧
      ((promoteZsets keys s).slots key).view zsetLayout now =
        (s.slots key).view zsetLayout now := by
  simp only [promoteZsets]
  split
  · next hkey =>
    refine ⟨?_, view_promotePackedZset (hs key).fresh (by omega) now⟩
    cases hpacked : isPackedZset (s.slots key) with
    | true =>
      have hmem : key ∈ keys.filter fun key => isPackedZset (s.slots key) :=
        List.mem_filter.mpr ⟨hkey, hpacked⟩
      have hidx := List.idxOf_lt_length_iff.mpr hmem
      exact (hs key).promote (by omega) (by omega)
    | false =>
      have hself : ∀ ver, promotePackedZset ver (s.slots key) = s.slots key := by
        intro ver
        unfold promotePackedZset
        split
        · next hmain =>
          rw [isPackedZset, hmain] at hpacked
          cases hpacked
        · rfl
      rw [hself]
      exact (hs key).mono (Nat.le_add_right ..)
  · exact ⟨(hs key).mono (Nat.le_add_right ..), rfl⟩

end Onedis.Store
