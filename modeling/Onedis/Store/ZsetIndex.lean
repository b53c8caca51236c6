import Mathlib.Data.Finmap
import Onedis.Store.ZsetScore

/-!
# zset の member と rank

split layout では、score を引くための member の record と、score の順に読むための rank の record を書く。
-/

namespace Onedis.Store

open Infra

/-! ## member と score の組 -/

abbrev Scores := Finmap fun _ : Text => Score

namespace Scores

def pairs (scores : Scores) : Finset (Text × Score) where
  val := scores.entries.map fun e => (e.1, e.2)
  nodup := scores.nodup_entries.map fun e e' h => by
    cases e
    cases e'
    cases h
    rfl

@[simp] theorem mem_pairs {scores : Scores} {m : Text} {s : Score} :
    (m, s) ∈ scores.pairs ↔ scores.lookup m = some s := by
  rw [Finmap.lookup_eq_some_iff, ← Finset.mem_val]
  show (m, s) ∈ scores.entries.map (fun e => (e.1, e.2)) ↔ _
  rw [Multiset.mem_map]
  constructor
  · rintro ⟨⟨m', s'⟩, he, h⟩
    cases h
    exact he
  · exact fun h => ⟨⟨m, s⟩, h, rfl⟩

end Scores

/-! ## rank の順 -/

/-- score が `total_cmp` で小さいか、score が等しく member が byte 順で小さい。 -/
def RankLt (a b : Text × Score) : Prop :=
  F64.totalKey a.2.bits < F64.totalKey b.2.bits ∨
    a.2 = b.2 ∧ bytesLt a.1.bytes b.1.bytes = true

instance : DecidableRel RankLt := fun _ _ => inferInstanceAs (Decidable (_ ∨ _))

theorem Text.ext_bytes {t t' : Text} (h : t.bytes = t'.bytes) : t = t' := by
  cases t
  cases t'
  cases h
  rfl

theorem RankLt.irrefl (a : Text × Score) : ¬ RankLt a a := by
  rintro (h | ⟨-, h⟩)
  · exact lt_irrefl _ h
  · rw [bytesLt_irrefl] at h
    cases h

theorem RankLt.trans {a b c : Text × Score} (hab : RankLt a b) (hbc : RankLt b c) : RankLt a c := by
  rcases hab with hab | ⟨hab, hmab⟩
  · rcases hbc with hbc | ⟨hbc, -⟩
    · exact .inl (hab.trans hbc)
    · exact .inl (hbc ▸ hab)
  · rcases hbc with hbc | ⟨hbc, hmbc⟩
    · exact .inl (hab ▸ hbc)
    · exact .inr ⟨hab.trans hbc, bytesLt_trans hmab hmbc⟩

theorem eq_of_not_rankLt {a b : Text × Score} (hab : ¬ RankLt a b) (hba : ¬ RankLt b a) :
    a = b := by
  have hscore : a.2 = b.2 := Score.ext_bits <| F64.totalKey_injective <|
    le_antisymm (not_lt.mp fun h => hba (.inl h)) (not_lt.mp fun h => hab (.inl h))
  have hmember : a.1.bytes = b.1.bytes := eq_of_not_bytesLt
    (Bool.eq_false_iff.mpr fun h => hab (.inr ⟨hscore, h⟩))
    (Bool.eq_false_iff.mpr fun h => hba (.inr ⟨hscore.symm, h⟩))
  exact Prod.ext (Text.ext_bytes hmember) hscore

instance : Std.Irrefl RankLt where
  irrefl := RankLt.irrefl

instance : Std.Antisymm RankLt where
  antisymm a _ hab hba := absurd (hab.trans hba) (RankLt.irrefl a)

def RankLe (a b : Text × Score) : Prop := ¬ RankLt b a

instance : DecidableRel RankLe := fun a b => inferInstanceAs (Decidable (¬ RankLt b a))

instance : Std.Total RankLe where
  total a b := by
    by_cases h : RankLt b a
    · exact .inr fun h' => RankLt.irrefl a (h'.trans h)
    · exact .inl h

instance : Std.Antisymm RankLe where
  antisymm _ _ hab hba := eq_of_not_rankLt hba hab

instance : IsTrans (Text × Score) RankLe where
  trans a b c hab hbc hca := by
    by_cases hbc' : RankLt b c
    · exact hab (hbc'.trans hca)
    · exact hab (eq_of_not_rankLt hbc' hbc ▸ hca)

def ranked (pairs : Finset (Text × Score)) : List (Text × Score) := pairs.sort RankLe

variable {pairs : Finset (Text × Score)}

@[simp] theorem mem_ranked {a : Text × Score} :
    a ∈ ranked pairs ↔ a ∈ pairs := Finset.mem_sort RankLe

theorem pairwise_ranked (pairs : Finset (Text × Score)) : (ranked pairs).Pairwise RankLt := by
  refine (pairs.pairwise_sort RankLe).imp₂ (fun a b hle hne => ?_) (pairs.sort_nodup RankLe)
  by_contra hlt
  exact hne (eq_of_not_rankLt hlt hle)

theorem eq_ranked {l : List (Text × Score)} (hl : l.Pairwise RankLt) (hmem : ∀ a, a ∈ l ↔ a ∈ pairs)
    : l = ranked pairs :=
  List.Pairwise.eq_of_mem_iff hl (pairwise_ranked pairs) fun a => by rw [hmem, mem_ranked]

/-! ## ひとつの version の record -/

/-- member から score への表と、score の順の索引。 -/
structure ZsetItems where
  members : Scores
  ranks : Finset (Text × Score)
  deriving DecidableEq

namespace ZsetItems

instance : EmptyCollection ZsetItems := ⟨⟨∅, ∅⟩⟩

def put (items : ZsetItems) (m : Text) (s : Score) : ZsetItems where
  members := items.members.insert m s
  ranks :=
    insert (m, s) (match items.members.lookup m with
      | some old => items.ranks.erase (m, old)
      | none => items.ranks)

def erase (items : ZsetItems) (m : Text) : ZsetItems where
  members := items.members.erase m
  ranks :=
    match items.members.lookup m with
    | some old => items.ranks.erase (m, old)
    | none => items.ranks

def ofScores (scores : Scores) : ZsetItems := ⟨scores, scores.pairs⟩

/-- **member record と rank record は一対一に対応する。** -/
def Indexed (items : ZsetItems) : Prop :=
  ∀ m s, (m, s) ∈ items.ranks ↔ items.members.lookup m = some s

variable {items : ZsetItems}

theorem Indexed.ranks_eq (h : items.Indexed) : items.ranks = items.members.pairs := by
  ext ⟨m, s⟩
  rw [h, Scores.mem_pairs]

theorem indexed_empty : (∅ : ZsetItems).Indexed := by
  intro m s
  show (m, s) ∈ (∅ : Finset (Text × Score)) ↔ (∅ : Scores).lookup m = some s
  simp

theorem indexed_ofScores (scores : Scores) : (ofScores scores).Indexed :=
  fun _ _ => Scores.mem_pairs

theorem Indexed.mem_ranks_clear (h : items.Indexed) (m n : Text) (s : Score) :
    ((n, s) ∈ match items.members.lookup m with
      | some old => items.ranks.erase (m, old)
      | none => items.ranks) ↔ n ≠ m ∧ items.members.lookup n = some s := by
  cases hm : items.members.lookup m with
  | none =>
    show (n, s) ∈ items.ranks ↔ _
    rw [h]
    refine ⟨fun hn => ⟨?_, hn⟩, And.right⟩
    rintro rfl
    rw [hm] at hn
    cases hn
  | some old =>
    show (n, s) ∈ items.ranks.erase (m, old) ↔ _
    rw [Finset.mem_erase, h]
    refine ⟨fun hn => ⟨?_, hn.2⟩, fun hn => ⟨fun heq => hn.1 (congrArg Prod.fst heq), hn.2⟩⟩
    rintro rfl
    rw [hm] at hn
    cases hn.2
    exact hn.1 rfl

theorem Indexed.put (h : items.Indexed) (m : Text) (s : Score) : (items.put m s).Indexed := by
  intro n t
  show (n, t) ∈ insert (m, s) _ ↔ (items.members.insert m s).lookup n = some t
  rw [Finset.mem_insert, h.mem_ranks_clear]
  by_cases hn : n = m
  · subst hn
    rw [Finmap.lookup_insert]
    simp [eq_comm]
  · rw [Finmap.lookup_insert_of_ne _ hn]
    simp [hn]

theorem Indexed.erase (h : items.Indexed) (m : Text) : (items.erase m).Indexed := by
  intro n t
  show (n, t) ∈ (match items.members.lookup m with
      | some old => items.ranks.erase (m, old)
      | none => items.ranks) ↔ (items.members.erase m).lookup n = some t
  rw [h.mem_ranks_clear]
  by_cases hn : n = m
  · subst hn
    rw [Finmap.lookup_erase]
    simp
  · rw [Finmap.lookup_erase_ne hn]
    simp [hn]

end ZsetItems

end Onedis.Store
