import Mathlib.Order.Defs.LinearOrder
import Mathlib.Data.List.Pairwise
import Mathlib.Data.List.Perm.Basic
import Mathlib.Tactic

/-!
# 順序つきの写像

key の昇順に並んだ組の列で表した写像。範囲の走査は、列の一部を取り出すことである。
-/

namespace Onedis.Infra

open List

/-- key の昇順に並んだ対応表。 -/
structure OrderedMap (κ ν : Type*) [LinearOrder κ] where
  entries : List (κ × ν)
  sorted : entries.Pairwise fun a b => a.1 < b.1

namespace OrderedMap

variable {κ ν : Type*} [LinearOrder κ]

variable {m : OrderedMap κ ν} {m' : OrderedMap κ ν}

@[ext] theorem ext_entries (h : m.entries = m'.entries) : m = m' := by
  cases m
  cases m'
  cases h
  rfl

instance [DecidableEq ν] : DecidableEq (OrderedMap κ ν) := fun m m' =>
  decidable_of_iff (m.entries = m'.entries) ⟨ext_entries, congrArg entries⟩

instance : EmptyCollection (OrderedMap κ ν) := ⟨⟨[], .nil⟩⟩

@[simp] theorem entries_empty : (∅ : OrderedMap κ ν).entries = [] := rfl

def get (m : OrderedMap κ ν) (k : κ) : Option ν := (m.entries.find? fun e => e.1 = k).map Prod.snd

variable {k : κ}

theorem mem_entries {v : ν} : (k, v) ∈ m.entries ↔ m.get k = some v := by
  unfold get
  obtain ⟨entries, hsorted⟩ := m
  dsimp only
  induction entries with
  | nil => simp
  | cons e rest ih =>
    obtain ⟨k', v'⟩ := e
    obtain ⟨hhead, hrest⟩ := pairwise_cons.mp hsorted
    rw [mem_cons, find?_cons]
    by_cases hk : k' = k
    · subst hk
      have hnot : (k', v) ∉ rest := fun hmem => lt_irrefl k' (hhead (k', v) hmem)
      simp [hnot, eq_comm]
    · have hne : (k, v) ≠ (k', v') := fun heq => hk (congrArg Prod.fst heq).symm
      simp only [hne, false_or, decide_eq_false hk]
      exact ih hrest

theorem nodup (m : OrderedMap κ ν) : m.entries.Nodup :=
  m.sorted.imp fun {a b} (hlt : a.1 < b.1) heq => lt_irrefl a.1 (heq ▸ hlt)

theorem ext_get (h : ∀ k, m.get k = m'.get k) : m = m' := by
  have hperm : m.entries.Perm m'.entries := by
    rw [perm_ext_iff_of_nodup m.nodup m'.nodup]
    rintro ⟨k, v⟩
    rw [mem_entries, mem_entries, h]
  refine ext_entries (Perm.eq_of_pairwise ?_ m.sorted m'.sorted hperm)
  exact fun a b _ _ hab hba => absurd (hab.trans hba) (lt_irrefl _)

/-! ## 書き込み -/

def insertEntry (k : κ) (v : ν) : List (κ × ν) → List (κ × ν)
  | [] => [(k, v)]
  | e :: rest =>
    if k < e.1 then (k, v) :: e :: rest
    else if k = e.1 then (k, v) :: rest
    else e :: insertEntry k v rest

variable {l : List (κ × ν)}

theorem mem_insertEntry {v : ν} {e : κ × ν} (h : e ∈ insertEntry k v l) : e = (k, v) ∨ e ∈ l := by
  induction l with
  | nil => exact .inl (mem_singleton.mp h)
  | cons e' rest ih =>
    unfold insertEntry at h
    split at h
    · exact mem_cons.mp h
    · split at h
      · exact (mem_cons.mp h).imp_right (mem_cons_of_mem _)
      · rcases mem_cons.mp h with rfl | h
        · exact .inr mem_cons_self
        · exact (ih h).imp_right (mem_cons_of_mem _)

theorem pairwise_insertEntry (k : κ) (v : ν) (h : l.Pairwise fun a b => a.1 < b.1) :
    (insertEntry k v l).Pairwise fun a b => a.1 < b.1 := by
  induction l with
  | nil => exact pairwise_singleton ..
  | cons e rest ih =>
    obtain ⟨hhead, hrest⟩ := pairwise_cons.mp h
    unfold insertEntry
    split
    · next hlt =>
      refine pairwise_cons.mpr ⟨fun e' he' => ?_, h⟩
      rcases mem_cons.mp he' with rfl | he'
      · exact hlt
      · exact hlt.trans (hhead e' he')
    · next hge =>
      split
      · next heq => exact pairwise_cons.mpr ⟨fun e' he' => heq ▸ hhead e' he', hrest⟩
      · next hne =>
        refine pairwise_cons.mpr ⟨fun e' he' => ?_, ih hrest⟩
        rcases mem_insertEntry he' with rfl | he'
        · exact lt_of_le_of_ne (not_lt.mp hge) (Ne.symm hne)
        · exact hhead e' he'

def put (m : OrderedMap κ ν) (k : κ) (v : ν) : OrderedMap κ ν :=
  ⟨insertEntry k v m.entries, pairwise_insertEntry k v m.sorted⟩

theorem get_put (m : OrderedMap κ ν) (k k' : κ) (v : ν) :
    (m.put k v).get k' = if k' = k then some v else m.get k' := by
  show ((insertEntry k v m.entries).find? fun e => e.1 = k').map Prod.snd =
    if k' = k then some v else (m.entries.find? fun e => e.1 = k').map Prod.snd
  induction m.entries with
  | nil =>
    unfold insertEntry
    by_cases hk : k' = k
    · simp [hk]
    · simp [hk, Ne.symm hk]
  | cons e rest ih =>
    unfold insertEntry
    split
    · by_cases hk : k' = k
      · simp [hk]
      · simp [find?_cons, hk, Ne.symm hk]
    · split
      · next heq =>
        by_cases hk : k' = k
        · simp [hk]
        · simp [hk, Ne.symm hk, ← heq]
      · next hne =>
        rw [find?_cons, find?_cons]
        by_cases he : e.1 = k'
        · have hk : k' ≠ k := fun h => hne (h ▸ he).symm
          simp [he, hk]
        · simp only [decide_eq_false he]
          exact ih

theorem insertEntry_of_lt (h : ∀ e ∈ l, e.1 < k) (v : ν) : insertEntry k v l = l ++ [(k, v)] := by
  induction l with
  | nil => rfl
  | cons e rest ih =>
    have he : e.1 < k := h e mem_cons_self
    rw [insertEntry, if_neg (not_lt.mpr he.le), if_neg he.ne',
      ih fun e' he' => h e' (mem_cons_of_mem _ he')]
    rfl

theorem entries_put_of_lt (h : ∀ e ∈ m.entries, e.1 < k) (v : ν) :
    (m.put k v).entries = m.entries ++ [(k, v)] := insertEntry_of_lt h v

def putAll (m : OrderedMap κ ν) (l : List (κ × ν)) : OrderedMap κ ν :=
  l.foldl (fun m e => m.put e.1 e.2) m

theorem putAll_append (m : OrderedMap κ ν) (l l' : List (κ × ν)) :
    m.putAll (l ++ l') = (m.putAll l).putAll l' := foldl_append

theorem get_putAll_cases {v : ν} (h : (m.putAll l).get k = some v) :
    (k, v) ∈ l ∨ (k ∉ l.map Prod.fst ∧ m.get k = some v) := by
  induction l generalizing m with
  | nil => exact .inr ⟨by simp, h⟩
  | cons e rest ih =>
    rcases ih h with hmem | ⟨hrest, hget⟩
    · exact .inl (mem_cons_of_mem _ hmem)
    · rw [get_put] at hget
      by_cases hk : k = e.1
      · rw [if_pos hk] at hget
        cases hget
        exact .inl (mem_cons.mpr (.inl (Prod.ext hk rfl)))
      · rw [if_neg hk] at hget
        refine .inr ⟨fun hmem => ?_, hget⟩
        rcases mem_cons.mp hmem with heq | hmem
        · exact hk heq
        · exact hrest hmem

theorem get_putAll_of_notMem (h : k ∉ l.map Prod.fst) : (m.putAll l).get k = m.get k := by
  induction l generalizing m with
  | nil => rfl
  | cons e rest ih =>
    rw [map_cons, mem_cons, not_or] at h
    show ((m.put e.1 e.2).putAll rest).get k = m.get k
    rw [ih h.2, get_put, if_neg h.1]

theorem get_putAll_of_nodup {v : ν} (h : (l.map Prod.fst).Nodup) (hmem : (k, v) ∈ l) :
    (m.putAll l).get k = some v := by
  induction l generalizing m with
  | nil => cases hmem
  | cons e rest ih =>
    obtain ⟨hfirst, hrest⟩ := nodup_cons.mp h
    rcases mem_cons.mp hmem with rfl | hmem
    · show ((m.put k v).putAll rest).get k = some v
      rw [get_putAll_of_notMem hfirst, get_put, if_pos rfl]
    · exact ih hrest hmem

theorem entries_putAll_of_sorted (m : OrderedMap κ ν)
    (h : (m.entries ++ l).Pairwise fun a b => a.1 < b.1) :
    (m.putAll l).entries = m.entries ++ l := by
  induction l generalizing m with
  | nil => exact (append_nil _).symm
  | cons e rest ih =>
    have hlt : ∀ e' ∈ m.entries, e'.1 < e.1 := fun e' he' =>
      (pairwise_append.mp h).2.2 e' he' e mem_cons_self
    have hentries := entries_put_of_lt hlt e.2
    show ((m.put e.1 e.2).putAll rest).entries = _
    rw [ih, hentries, append_assoc]
    · rfl
    · rwa [hentries, append_assoc]

/-! ## 削除 -/

def filterKeys (m : OrderedMap κ ν) (p : κ → Bool) : OrderedMap κ ν :=
  ⟨m.entries.filter fun e => p e.1, m.sorted.filter _⟩

variable (m : OrderedMap κ ν)

theorem get_filterKeys (p : κ → Bool) (k : κ) :
    (m.filterKeys p).get k = if p k then m.get k else none := by
  apply Option.ext
  intro v
  rw [← Option.mem_def, Option.mem_def, ← mem_entries]
  show (k, v) ∈ m.entries.filter (fun e => p e.1) ↔ _
  rw [mem_filter, mem_entries]
  by_cases hp : p k = true
  · simp [hp]
  · simp [hp]

theorem length_filterKeys (p : κ → Bool) :
    (m.filterKeys p).entries.length + (m.filterKeys fun k => !p k).entries.length =
      m.entries.length := by
  exact (length_eq_length_filter_add fun e : κ × ν => p e.1).symm

theorem length_filterKeys_mem (keys : List κ) :
    (m.filterKeys fun k => k ∈ keys).entries.length =
      (keys.dedup.filter fun k => (m.get k).isSome).length := by
  have hnodup : ((m.filterKeys fun k => k ∈ keys).entries.map Prod.fst).Nodup :=
    pairwise_map.mpr ((m.filterKeys _).sorted.imp fun h => h.ne)
  rw [← length_map Prod.fst]
  refine Perm.length_eq ?_
  rw [perm_ext_iff_of_nodup hnodup ((nodup_dedup keys).filter _)]
  intro k
  rw [mem_map, mem_filter, mem_dedup, Option.isSome_iff_exists]
  constructor
  · rintro ⟨⟨k', v⟩, hmem, rfl⟩
    obtain ⟨hmem, hkey⟩ := mem_filter.mp hmem
    exact ⟨by simpa using hkey, v, mem_entries.mp hmem⟩
  · rintro ⟨hkey, v, hget⟩
    exact ⟨(k, v), mem_filter.mpr ⟨mem_entries.mpr hget, by simpa using hkey⟩, rfl⟩

/-- 小さいほうから `n` 個を除く。 -/
def drop (m : OrderedMap κ ν) (n : Nat) : OrderedMap κ ν :=
  ⟨m.entries.drop n, m.sorted.sublist (drop_sublist ..)⟩

end OrderedMap

end Onedis.Infra
