import Mathlib.Data.Nat.Find

/-!
# 順序つき phrase の照合

`full_text/search_eval_ast.rs` の `fulltext_ordered_phrase_matches` の写し。始点ごとに、次の語の最も早い出現へ
進み、飛ばした語の数が `slop` を超えたところで諦める。

* `orderedPhraseMatches_iff` — 受理するのは、飛ばす語が高々 `slop` 個の並びがあるとき、かつそのときに限る
-/

namespace Onedis.Store

open List

/-- `position` 以後で `expected` が最初に現れる位置。 -/
def nextPosition (source : List String) (position : Nat) (expected : String) : Option Nat :=
  (range' position (source.length - position)).find? (source[·]? = some expected)

/-- 始点を決めた後の、内側の loop。 -/
def matchRest (source : List String) (slop : Nat) : Nat → Nat → List String → Bool
  | _, _, [] => true
  | previous, spent, expected :: rest =>
    match nextPosition source (previous + 1) expected with
    | none => false
    | some next =>
      let spent := spent + (next - (previous + 1))
      if slop < spent then false else matchRest source slop next spent rest

/-- 問いは最初の語 `first` と残り `rest` に分けて受け取る。 -/
def fulltextOrderedPhraseMatches (source : List String) (first : String) (rest : List String)
    (slop : Nat) : Bool :=
  (range source.length).any fun start =>
    source[start]? = some first && matchRest source slop start 0 rest

/-- `start` の後に `positions` と進む並び。順に `rest` と一致する。 -/
structure Follows (source : List String) (start : Nat) (rest : List String)
    (positions : List Nat) : Prop where
  increasing : (start :: positions).Pairwise (· < ·)
  tokens : positions.map (source[·]?) = rest.map some

/-- 最初と最後の間で飛ばした語の数。 -/
def skipped (start : Nat) (positions : List Nat) : Nat :=
  positions.getLastD start - start - positions.length

theorem nextPosition_eq_some {source : List String} {expected : String} {position n : Nat} :
    nextPosition source position expected = some n ↔ source[n]? = some expected ∧ position ≤ n ∧
      ∀ m, position ≤ m → m < n → source[m]? ≠ some expected := by
  simp only [nextPosition, find?_range'_eq_some, decide_eq_true_eq, mem_range'_1,
    Bool.not_eq_true', decide_eq_false_iff_not]
  refine and_congr_right fun hn => and_congr_left' (and_iff_left_of_imp fun hle => ?_)
  obtain ⟨hlt, -⟩ := List.getElem?_eq_some_iff.mp hn
  omega

theorem exists_nextPosition {source : List String} {expected : String} {position m : Nat}
    (hle : position ≤ m) (hm : source[m]? = some expected) :
    ∃ n ≤ m, nextPosition source position expected = some n := by
  have hex : ∃ n, position ≤ n ∧ source[n]? = some expected := ⟨m, hle, hm⟩
  obtain ⟨hpos, hfound⟩ := Nat.find_spec hex
  refine ⟨Nat.find hex, Nat.find_min' hex ⟨hle, hm⟩, nextPosition_eq_some.mpr ⟨hfound, hpos, ?_⟩⟩
  exact fun k hk hlt hc => Nat.find_min hex hlt ⟨hk, hc⟩

theorem add_length_le_getLastD {start : Nat} {positions : List Nat}
    (h : (start :: positions).Pairwise (· < ·)) :
    start + positions.length ≤ positions.getLastD start := by
  induction positions generalizing start with
  | nil => simp
  | cons p rest ih =>
    have hlt := (pairwise_cons.mp h).1 p mem_cons_self
    have hrest := ih (pairwise_cons.mp h).2
    rw [getLastD_cons, length_cons]
    omega

/-- 最も早い出現を選んでも、並びの残りはそのまま使える。 -/
theorem matchRest_iff {source : List String} {slop start spent : Nat} {rest : List String}
    (hspent : spent ≤ slop) : matchRest source slop start spent rest = true ↔
      ∃ positions, Follows source start rest positions ∧
        spent + skipped start positions ≤ slop := by
  induction rest generalizing start spent with
  | nil => exact iff_of_true rfl ⟨[], ⟨pairwise_singleton .., rfl⟩, by simpa [skipped] using hspent⟩
  | cons expected rest ih =>
    rw [matchRest]
    constructor
    · intro h
      split at h
      · cases h
      · next next hnext =>
        obtain ⟨hfound, hle, -⟩ := nextPosition_eq_some.mp hnext
        dsimp only at h
        split at h
        · cases h
        · next hslop =>
          obtain ⟨positions, hfollows, hskipped⟩ := (ih (Nat.not_lt.mp hslop)).mp h
          have hlast := add_length_le_getLastD hfollows.increasing
          refine ⟨next :: positions, ⟨?_, by simp [hfound, hfollows.tokens]⟩, ?_⟩
          · refine pairwise_cons.mpr ⟨fun p hp => ?_, hfollows.increasing⟩
            rcases mem_cons.mp hp with rfl | hp
            · exact hle
            · exact Nat.lt_trans hle ((pairwise_cons.mp hfollows.increasing).1 p hp)
          · rw [skipped] at hskipped ⊢
            rw [getLastD_cons, length_cons]
            omega
    · rintro ⟨positions, ⟨hincreasing, htokens⟩, hskipped⟩
      cases positions with
      | nil => cases htokens
      | cons p positions =>
        rw [map_cons, map_cons] at htokens
        obtain ⟨hp, htokens⟩ := cons.inj htokens
        obtain ⟨hstart, hrest⟩ := pairwise_cons.mp hincreasing
        -- `p` を最も早い `next` に取り替える
        obtain ⟨next, hnp, hnext⟩ := exists_nextPosition (hstart p mem_cons_self) hp
        obtain ⟨-, hle, -⟩ := nextPosition_eq_some.mp hnext
        have hfollows : Follows source next rest positions := by
          refine ⟨pairwise_cons.mpr ⟨fun q hq => ?_, (pairwise_cons.mp hrest).2⟩, htokens⟩
          exact Nat.lt_of_le_of_lt hnp ((pairwise_cons.mp hrest).1 q hq)
        have hlast : positions.getLastD next ≤ positions.getLastD p := by
          cases positions with
          | nil => exact hnp
          | cons q positions => simp only [getLastD_cons, Nat.le_refl]
        have hlen := add_length_le_getLastD hfollows.increasing
        rw [skipped, getLastD_cons, length_cons] at hskipped
        rw [hnext]
        dsimp only
        rw [if_neg (by omega)]
        exact (ih (by omega)).mpr ⟨positions, hfollows, by rw [skipped]; omega⟩

/-- **照合は正確である。** -/
theorem orderedPhraseMatches_iff (source : List String) (first : String) (rest : List String)
    (slop : Nat) : fulltextOrderedPhraseMatches source first rest slop = true ↔
      ∃ start positions, source[start]? = some first ∧ Follows source start rest positions ∧
        skipped start positions ≤ slop := by
  simp only [fulltextOrderedPhraseMatches, any_eq_true, mem_range, Bool.and_eq_true,
    decide_eq_true_eq, matchRest_iff (Nat.zero_le slop), Nat.zero_add]
  constructor
  · rintro ⟨start, -, hfirst, positions, hfollows, hskipped⟩
    exact ⟨start, positions, hfirst, hfollows, hskipped⟩
  · rintro ⟨start, positions, hfirst, hfollows, hskipped⟩
    obtain ⟨hlt, -⟩ := List.getElem?_eq_some_iff.mp hfirst
    exact ⟨start, hlt, hfirst, positions, hfollows, hskipped⟩

end Onedis.Store
