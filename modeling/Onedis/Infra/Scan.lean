import Mathlib.Data.Finset.Sort
import Mathlib.Data.Int.Order.Basic
import Onedis.Infra.Bytes

/-!
# 整列した表の走査

raw key の昇順に並んだ record の、byte 列の順序と半開区間の走査。

* `Table.scanRange_eq_map` — 正確な区間の走査は、条件に合うものを並びの順に返す
-/

namespace Onedis.Infra

open List

/-! ## byte 列の順序 -/

variable {a b c : Bytes}

theorem bytesLt_trans (hab : bytesLt a b = true) (hbc : bytesLt b c = true) :
    bytesLt a c = true := by
  rw [bytesLt_iff_lt] at *
  exact List.lt_trans hab hbc

theorem eq_of_not_bytesLt {a b : Bytes} (hab : bytesLt a b = false) (hba : bytesLt b a = false) :
    a = b :=
  List.le_antisymm (bytesLt_eq_false_iff.mp hba) (bytesLt_eq_false_iff.mp hab)

theorem bytesLt_of_le_of_lt (hab : bytesLt b a = false) (hbc : bytesLt b c = true) :
    bytesLt a c = true := by
  cases h : bytesLt a b with
  | true => exact bytesLt_trans h hbc
  | false => exact eq_of_not_bytesLt h hab ▸ hbc

/-- 辞書式順序で `b` を超えない。 -/
def BytesLe (a b : Bytes) : Prop := bytesLt b a = false

instance : DecidableRel BytesLe := fun a b => inferInstanceAs (Decidable (bytesLt b a = false))

instance : Std.Total BytesLe where
  total a b := by
    cases h : bytesLt b a with
    | false => exact .inl h
    | true => exact .inr (bytesLt_asymm h)

instance : IsTrans Bytes BytesLe where
  trans a b c hab hbc := by
    cases hca : bytesLt c a with
    | false => exact hca
    | true => exact absurd (bytesLt_of_le_of_lt hbc hca) (Bool.not_eq_true _ ▸ hab)

/-! ## 区間の端 -/

theorem bytesLt_upperBound_iff {p u : Bytes} (h : upperBound p = some u) (raw : Bytes) :
    bytesLt raw u = true ↔ bytesLt raw p = true ∨ p <+: raw := by
  have hrange := inRange_prefix_iff h raw
  simp only [inRange, Bool.and_eq_true, Bool.not_eq_true'] at hrange
  have hself : bytesLt p u = true := by
    have hp := (inRange_prefix_iff h p).mpr (prefix_refl p)
    simp only [inRange, Bool.and_eq_true] at hp
    exact hp.2
  constructor
  · intro hlt
    cases hp : bytesLt raw p with
    | true => exact .inl rfl
    | false => exact .inr (hrange.mp ⟨hp, hlt⟩)
  · rintro (hlt | hpfx)
    · exact bytesLt_trans hlt hself
    · exact (hrange.mpr hpfx).2

/-- 上界のない列は `0xff` だけからなる。 -/
theorem eq_replicate_of_upperBound_none {p : Bytes} (h : upperBound p = none) :
    p = replicate p.length 255 := by
  induction p with
  | nil => rfl
  | cons b bs ih =>
    simp only [upperBound] at h
    split at h
    · cases h
    · next hbs =>
      split at h
      · next hb => rw [length_cons, replicate_succ, ← ih hbs, hb]
      · cases h

theorem upperBound_append {p q u : Bytes} (h : upperBound q = some u) :
    upperBound (p ++ q) = some (p ++ u) := by
  induction p with
  | nil => exact h
  | cons b p ih => simp [upperBound, ih]

theorem bytesLt_append_right {a b : Bytes} (h : bytesLt a b = true) (c : Bytes) :
    bytesLt a (b ++ c) = true := by
  induction a generalizing b with
  | nil =>
    cases b with
    | nil => cases h
    | cons y b => rfl
  | cons x a ih =>
    cases b with
    | nil => cases h
    | cons y b =>
      simp only [cons_append, bytesLt, Bool.or_eq_true, Bool.and_eq_true] at h ⊢
      exact h.imp_right fun hrest => ⟨hrest.1, ih hrest.2⟩

theorem bytesLt_snoc_zero (a b : Bytes) : bytesLt a (b ++ [0]) = !bytesLt b a := by
  induction b generalizing a with
  | nil =>
    cases a with
    | nil => rfl
    | cons x a =>
      have hlast : bytesLt a [] = false := by cases a <;> rfl
      have hzero : ¬ x < 0 := UInt8.not_lt.mpr x.zero_le
      simp [bytesLt, hlast, hzero]
  | cons y b ih =>
    cases a with
    | nil => rfl
    | cons x a =>
      simp only [cons_append, bytesLt, ih a]
      by_cases hxy : x = y
      · subst hxy
        simp
      · rcases UInt8.lt_or_lt_of_ne hxy with hlt | hlt
        · simp [hlt, UInt8.not_lt.mpr (UInt8.le_of_lt hlt), Ne.symm hxy]
        · simp [hlt, UInt8.not_lt.mpr (UInt8.le_of_lt hlt), hxy]

def within (lower : Bytes) (upper : Option Bytes) (raw : Bytes) : Bool :=
  !bytesLt raw lower && upper.all (bytesLt raw)

theorem bytesLt_of_append_right (h : bytesLt a (b ++ c) = false) : bytesLt a b = false :=
  Bool.eq_false_iff.mpr fun hab => by
    rw [bytesLt_append_right hab c] at h
    cases h

theorem exists_append_of_within {p l u raw : Bytes}
    (h : within (p ++ l) (some (p ++ u)) raw = true) : ∃ rest, raw = p ++ rest := by
  simp only [within, Option.all_some, Bool.and_eq_true, Bool.not_eq_true'] at h
  obtain ⟨rest, hraw, -⟩ := exists_append_of_bytesLt (bytesLt_of_append_right h.1) h.2
  exact ⟨rest, hraw⟩

theorem within_append (p l u rest : Bytes) :
    within (p ++ l) (some (p ++ u)) (p ++ rest) = (!bytesLt rest l && bytesLt rest u) := by
  simp [within]

/-- 接頭辞 `p` を持つ key のうち、条件に合うものだけを含む区間。`none` は、合うものがないとき。 -/
def ExactBounds {α : Type*} (p : Bytes) (suffix : α → Bytes) (cond : α → Bool) :
    Option (Bytes × Option Bytes) → Prop
  | none => ∀ a, cond a = false
  | some (lower, upper) =>
    (∀ raw, within lower upper raw = true → p <+: raw) ∧
      ∀ a, within lower upper (p ++ suffix a) = cond a

theorem ExactBounds.cond_iff {α : Type*} {p : Bytes} {suffix : α → Bytes} {cond : α → Bool}
    {bounds : Option (Bytes × Option Bytes)} (h : ExactBounds p suffix cond bounds) (a : α) :
    cond a = true ↔ ∃ b, bounds = some b ∧ within b.1 b.2 (p ++ suffix a) = true := by
  cases bounds with
  | none => simp [h a]
  | some b => simp [← h.2 a]

/-! ## 表 -/

/-- raw key の byte 順に並んだ record の列。 -/
structure Table where
  records : List (Bytes × Bytes)
  ascending : records.Pairwise fun r r' => bytesLt r.1 r'.1 = true

namespace Table

def scanRange (t : Table) (lower : Bytes) (upper : Option Bytes) : List (Bytes × Bytes) :=
  t.records.filter fun r => within lower upper r.1

/-- 区間の前から、または後ろから、高々 `limit` 個の record を読む。 -/
def scanRangeLimited (t : Table) (lower : Bytes) (upper : Option Bytes) (reverse : Bool)
    (limit : Nat) : List (Bytes × Bytes) :=
  let found := t.scanRange lower upper
  (if reverse then found.reverse else found).take limit

variable {upper : Option Bytes} {lower : Bytes} {t : Table}

theorem mem_scanRange {r : Bytes × Bytes} :
    r ∈ t.scanRange lower upper ↔ r ∈ t.records ∧ within lower upper r.1 = true :=
  mem_filter

instance : Std.Irrefl fun r r' : Bytes × Bytes => bytesLt r.1 r'.1 = true where
  irrefl r h := by
    rw [bytesLt_irrefl] at h
    cases h

instance : Std.Antisymm fun r r' : Bytes × Bytes => bytesLt r.1 r'.1 = true where
  antisymm r r' h h' := by
    rw [bytesLt_asymm h] at h'
    cases h'

/--
**区間の走査は、区間にある record の集合で決まる。** record が並んだ列 `content` を順序を保って書いた
ものなら、正確な区間の走査は条件に合うものをその並びで返す。
-/
theorem scanRange_eq_map {α : Type*} {lt : α → α → Prop} {p : Bytes} {suffix : α → Bytes}
    {value : α → Bytes} {cond : α → Bool} {content : List α}
    (hexact : ExactBounds p suffix cond (some (lower, upper))) (hsorted : content.Pairwise lt)
    (hmono : ∀ a b, lt a b → bytesLt (suffix a) (suffix b) = true)
    (hcomplete : ∀ a ∈ content, (p ++ suffix a, value a) ∈ t.records)
    (hsound : ∀ r ∈ t.records, p <+: r.1 → ∃ a ∈ content, (p ++ suffix a, value a) = r) :
    t.scanRange lower upper = (content.filter cond).map fun a => (p ++ suffix a, value a) := by
  refine Pairwise.eq_of_mem_iff (t.ascending.filter _) ?_ fun r => ?_
  · refine pairwise_map.mpr ((hsorted.filter _).imp fun {a b} hlt => ?_)
    rw [bytesLt_append_left]
    exact hmono a b hlt
  · rw [mem_scanRange, mem_map]
    constructor
    · rintro ⟨hr, hw⟩
      obtain ⟨a, ha, rfl⟩ := hsound r hr (hexact.1 r.1 hw)
      exact ⟨a, mem_filter.mpr ⟨ha, (hexact.2 a).symm.trans hw⟩, rfl⟩
    · rintro ⟨a, ha, rfl⟩
      obtain ⟨ha, hc⟩ := mem_filter.mp ha
      exact ⟨hcomplete a ha, (hexact.2 a).trans hc⟩

/-- 走査した record を先頭から `offset` 個捨てて読み戻すと、書く前の並びの窓になる。 -/
theorem window_scanRangeLimited {α β : Type*} {write : α → Bytes × Bytes} {f : α → β}
    {decode : Bytes × Bytes → Option β} {content : List α}
    (hscan : t.scanRange lower upper = content.map write)
    (hdecode : ∀ a, decode (write a) = some (f a)) (reverse : Bool) (offset limit : Nat) :
    ((t.scanRangeLimited lower upper reverse limit).drop offset).filterMap decode =
      (((if reverse then content.reverse else content).drop offset).take (limit - offset)).map
        f := by
  have hread : ∀ l : List α, (l.map write).filterMap decode = l.map f := by
    intro l
    rw [filterMap_map, show decode ∘ write = some ∘ f from funext hdecode,
      filterMap_eq_map]
  have hdir : (if reverse then (content.map write).reverse else content.map write) =
      (if reverse then content.reverse else content).map write := by
    cases reverse <;> simp
  rw [scanRangeLimited, hscan, hdir, ← map_take, ← map_drop, drop_take, hread]

end Table

end Onedis.Infra
