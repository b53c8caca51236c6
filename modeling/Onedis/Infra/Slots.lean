import Mathlib.Data.List.Basic
import Mathlib.Logic.Function.Basic
import Mathlib.Tactic

/-!
# 整数の番地に並べた列

両端に伸びる列を、`head` から始まる連続した番地の record として持つ。

`spread head l` は列 `l` を `head` から並べたもので、端の追加と削除、区間の読み出し、左右への詰め直しが、列の操作に
等しいことを示す。
-/

namespace Onedis.Infra

open Function List

variable {α : Type*}

/-- 整数の位置に置かれた要素。 -/
@[ext] structure Slots (α : Type*) where
  get : Int → Option α

instance : EmptyCollection (Slots α) := ⟨⟨fun _ => none⟩⟩

@[simp] theorem Slots.get_empty (i : Int) : (∅ : Slots α).get i = none := rfl

namespace Slots

def put (s : Slots α) (i : Int) (a : α) : Slots α := ⟨update s.get i (some a)⟩

def remove (s : Slots α) (i : Int) : Slots α := ⟨update s.get i none⟩

/-- 半開区間 `[lo, hi)` の record を番地の順に読む。 -/
def scan (s : Slots α) (lo hi : Int) : List α :=
  (range (hi - lo).toNat).filterMap fun n : Nat => s.get (lo + n)

/-- 半開区間 `[lo, hi)` の record を消す。 -/
def erase (s : Slots α) (lo hi : Int) : Slots α :=
  ⟨fun i => if lo ≤ i ∧ i < hi then none else s.get i⟩

/-- `lo` から順に書く。 -/
def writeFrom (s : Slots α) (lo : Int) : List α → Slots α
  | [] => s
  | a :: rest => (s.put lo a).writeFrom (lo + 1) rest

variable (s : Slots α)

theorem get_put (i j : Int) (a : α) :
    (s.put i a).get j = if j = i then some a else s.get j := update_apply ..

/-- もう同じ値があるなら、書かなくても同じである。 -/
theorem put_of_ne {i dest : Int} {a : α} (h : s.get i = some a) :
    (if i ≠ dest then s.put dest a else s) = s.put dest a := by
  split
  · rfl
  · next heq =>
    obtain rfl := not_not.mp heq
    ext1
    funext j
    rw [get_put]
    split
    · next hj => rw [hj, h]
    · rfl

theorem get_erase (lo hi i : Int) :
    (s.erase lo hi).get i = if lo ≤ i ∧ i < hi then none else s.get i := rfl

theorem remove_eq_erase (i : Int) : s.remove i = s.erase i (i + 1) := by
  ext1
  funext j
  show update s.get i none j = _
  rw [update_apply, get_erase]
  split_ifs <;> first | rfl | omega

theorem get_writeFrom (lo : Int) (l : List α) (i : Int) : (s.writeFrom lo l).get i =
      if lo ≤ i ∧ i < lo + l.length then l[(i - lo).toNat]? else s.get i := by
  induction l generalizing s lo with
  | nil =>
    rw [if_neg (by simp)]
    rfl
  | cons a rest ih =>
    rw [writeFrom, ih, get_put, length_cons]
    push_cast
    by_cases hi : i = lo
    · subst hi
      rw [if_neg (by omega), if_pos rfl, if_pos (by omega)]
      simp
    · rw [if_neg hi]
      by_cases hin : lo + 1 ≤ i ∧ i < lo + 1 + rest.length
      · rw [if_pos hin, if_pos (by omega),
          show (i - lo).toNat = (i - (lo + 1)).toNat + 1 by omega, getElem?_cons_succ]
      · rw [if_neg hin, if_neg (by omega)]

theorem scan_append {lo mid hi : Int} (hlo : lo ≤ mid) (hhi : mid ≤ hi) :
    s.scan lo mid ++ s.scan mid hi = s.scan lo hi := by
  unfold scan
  rw [show (hi - lo).toNat = (mid - lo).toNat + (hi - mid).toNat by omega, range_add,
    filterMap_append, filterMap_map]
  congr 2
  funext n
  show s.get (mid + n) = s.get (lo + ((mid - lo).toNat + n : Nat))
  congr 1
  omega

theorem scan_congr {s s' : Slots α} {lo hi : Int}
    (h : ∀ i, lo ≤ i → i < hi → s.get i = s'.get i) : s.scan lo hi = s'.scan lo hi := by
  unfold scan
  refine filterMap_congr fun n hn => h _ (by omega) ?_
  rw [mem_range] at hn
  omega

theorem length_scan_le (s : Slots α) (lo hi : Int) : (s.scan lo hi).length ≤ (hi - lo).toNat :=
  (length_filterMap_le ..).trans_eq length_range

theorem scan_eq_nil (s : Slots α) {lo hi : Int} (h : hi ≤ lo) : s.scan lo hi = [] := by
  rw [scan, Int.toNat_of_nonpos (by omega)]
  rfl

theorem erase_erase (s : Slots α) {lo mid hi : Int} (hlo : lo ≤ mid) (hhi : mid ≤ hi) :
    (s.erase lo mid).erase mid hi = s.erase lo hi := by
  ext1
  funext i
  simp only [get_erase]
  split_ifs <;> first | rfl | omega

end Slots

/-! ## 列を並べる -/

/-- 列 `l` を `head` から並べる。 -/
def spread (head : Int) (l : List α) : Slots α :=
  ⟨fun i => if head ≤ i then l[(i - head).toNat]? else none⟩

theorem get_spread (head : Int) (l : List α) (i : Int) :
    (spread head l).get i = if head ≤ i then l[(i - head).toNat]? else none := rfl

@[simp] theorem spread_nil (head : Int) : spread head ([] : List α) = ∅ := by
  ext1
  funext i
  simp [get_spread]

theorem get_spread_add (head : Int) (l : List α) (n : Nat) :
    (spread head l).get (head + n) = l[n]? := by
  rw [get_spread, if_pos (by omega), show (head + n - head).toNat = n by omega]

open Slots

theorem writeFrom_empty (head : Int) (l : List α) :
    (∅ : Slots α).writeFrom head l = spread head l := by
  ext1
  funext i
  rw [get_writeFrom, get_empty, get_spread]
  split_ifs
  · rfl
  · omega
  · exact (getElem?_eq_none (by omega)).symm
  · rfl

theorem scan_spread {head lo hi : Int} (h : head ≤ lo) (l : List α) :
    (spread head l).scan lo hi = (l.drop (lo - head).toNat).take (hi - lo).toNat := by
  unfold scan
  have hval : ∀ n : Nat, (spread head l).get (lo + n) = (l.drop (lo - head).toNat)[n]? := by
    intro n
    rw [get_spread, if_pos (by omega), getElem?_drop,
      show (lo + n - head).toNat = (lo - head).toNat + n by omega]
  simp only [hval]
  generalize l.drop (lo - head).toNat = l'
  generalize (hi - lo).toNat = k
  -- 列の先頭から順に読むだけなので、列についての帰納法で示す。
  induction l' generalizing k with
  | nil => simp
  | cons a rest ih =>
    cases k with
    | zero => rfl
    | succ k =>
      rw [range_succ_eq_map, filterMap_cons, filterMap_map, take_succ_cons]
      simp only [getElem?_cons_zero]
      congr 1
      exact ih k

theorem scan_spread_all (head : Int) (l : List α) :
    (spread head l).scan head (head + l.length) = l := by
  rw [scan_spread le_rfl]
  simp

theorem put_spread_front (head : Int) (a : α) (l : List α) :
    (spread head l).put (head - 1) a = spread (head - 1) (a :: l) := by
  ext1
  funext i
  rw [get_put, get_spread, get_spread]
  by_cases hi : i = head - 1
  · subst hi
    simp
  · rw [if_neg hi]
    split_ifs
    · rw [show (i - (head - 1)).toNat = (i - head).toNat + 1 by omega, getElem?_cons_succ]
    · omega
    · omega
    · rfl

theorem put_spread_back (head : Int) (a : α) (l : List α) :
    (spread head l).put (head + l.length) a = spread head (l ++ [a]) := by
  ext1
  funext i
  rw [get_put, get_spread, get_spread]
  by_cases hi : i = head + l.length
  · subst hi
    rw [if_pos rfl, if_pos (by omega), show (head + l.length - head).toNat = l.length by omega]
    simp
  · rw [if_neg hi]
    split_ifs with hle
    · by_cases hlt : (i - head).toNat < l.length
      · rw [getElem?_append_left hlt]
      · rw [getElem?_eq_none (by omega), getElem?_eq_none]
        rw [length_append, length_singleton]
        omega
    · rfl

variable {l : List α}

theorem put_spread_at (head : Int) (a : α) {n : Nat} (hn : n < l.length) :
    (spread head l).put (head + n) a = spread head (l.set n a) := by
  ext1
  funext i
  rw [get_put, get_spread, get_spread]
  by_cases hi : i = head + n
  · subst hi
    rw [if_pos rfl, if_pos (by omega), show (head + n - head).toNat = n by omega,
      getElem?_set_self hn]
  · rw [if_neg hi]
    split_ifs with hle
    · rw [getElem?_set_ne (by omega)]
    · rfl

theorem erase_spread_front (head : Int) (l : List α) (n : Nat) :
    (spread head l).erase head (head + n) = spread (head + n) (l.drop n) := by
  ext1
  funext i
  rw [get_erase, get_spread, get_spread]
  split_ifs
  · omega
  · rfl
  · rw [getElem?_drop, show n + (i - (head + n)).toNat = (i - head).toNat by omega]
  · omega
  · omega
  · rfl

theorem erase_spread_back (head : Int) (l : List α) (n : Nat) :
    (spread head l).erase (head + n) (head + l.length) = spread head (l.take n) := by
  ext1
  funext i
  rw [get_erase, get_spread, get_spread]
  split_ifs
  · rw [getElem?_take_eq_none (by omega)]
  · rfl
  · by_cases hlt : (i - head).toNat < n
    · rw [getElem?_take_of_lt hlt]
    · rw [getElem?_take_eq_none (by omega), getElem?_eq_none (by omega)]
  · rfl

/-- 途中から先を短い列で上書きし、余った番地を消す。 -/
theorem erase_writeFrom_back (head : Int) (l : List α) {n : Nat} {l' : List α}
    (h : n + l'.length ≤ l.length) :
    ((spread head l).writeFrom (head + n) l').erase (head + n + l'.length) (head + l.length) =
      spread head (l.take n ++ l') := by
  ext1
  funext i
  rw [get_erase, get_writeFrom, get_spread, get_spread, getElem?_append,
    length_take, Nat.min_eq_left (by omega)]
  split_ifs
  · omega
  · rw [getElem?_eq_none (by omega)]
  · rfl
  · omega
  · rw [show (i - (head + n)).toNat = (i - head).toNat - n by omega]
  · omega
  · rw [getElem?_take_of_lt (by omega)]
  · rw [getElem?_eq_none (by omega), getElem?_eq_none (by omega)]
  · rfl

theorem erase_writeFrom_front (head : Int) (l : List α) (n : Nat) (l' : List α) :
    ((spread head l).writeFrom (head + n) l').erase head (head + n) =
      spread (head + n) (l' ++ l.drop (n + l'.length)) := by
  ext1
  funext i
  rw [get_erase, get_writeFrom, get_spread, get_spread]
  by_cases hlo : head + n ≤ i
  · have hhead : head ≤ i := by omega
    rw [if_neg (by omega), if_pos hlo, if_pos hhead, getElem?_append, getElem?_drop]
    by_cases hin : i < head + n + l'.length
    · rw [if_pos ⟨hlo, hin⟩, if_pos (by omega)]
    · rw [if_neg (fun h => hin h.2), if_neg (by omega),
        show n + l'.length + ((i - (head + n)).toNat - l'.length) = (i - head).toNat by omega]
  · rw [if_neg hlo]
    by_cases hhead : head ≤ i
    · rw [if_pos ⟨hhead, by omega⟩]
    · rw [if_neg (fun h => hhead h.1), if_neg (fun h => hlo h.1), if_neg hhead]

theorem put_writeFrom_left (head : Int) (a : α) {k : Nat} (hk : k ≤ l.length) :
    ((spread head l).writeFrom (head - 1) (l.take k)).put (head + k - 1) a =
      spread (head - 1) (l.take k ++ a :: l.drop k) := by
  have hlen : (l.take k).length = k := length_take_of_le hk
  ext1
  funext i
  rw [get_put, get_writeFrom, get_spread, get_spread, hlen]
  by_cases hi : i = head + k - 1
  · rw [if_pos hi, if_pos (by omega), show (i - (head - 1)).toNat = k by omega,
      getElem?_append_right hlen.le, hlen, Nat.sub_self]
    rfl
  · rw [if_neg hi]
    by_cases hlow : head - 1 ≤ i
    · rw [if_pos hlow]
      by_cases hin : i < head - 1 + k
      · rw [if_pos ⟨hlow, hin⟩, getElem?_append_left (by omega)]
      · rw [if_neg (by omega), if_pos (by omega), getElem?_append_right (by omega), hlen,
          show (i - (head - 1)).toNat - k = (i - head).toNat - k + 1 by omega,
          getElem?_cons_succ, getElem?_drop,
          show k + ((i - head).toNat - k) = (i - head).toNat by omega]
    · rw [if_neg hlow, if_neg (by omega), if_neg (by omega)]

theorem put_writeFrom_right (head : Int) (a : α) {k : Nat} (hk : k ≤ l.length) :
    ((spread head l).writeFrom (head + k + 1) (l.drop k)).put (head + k) a =
      spread head (l.take k ++ a :: l.drop k) := by
  have hlen : (l.take k).length = k := length_take_of_le hk
  have hdrop : (l.drop k).length = l.length - k := length_drop
  ext1
  funext i
  rw [get_put, get_writeFrom, get_spread, get_spread, hdrop]
  by_cases hi : i = head + k
  · rw [if_pos hi, if_pos (by omega), show (i - head).toNat = k by omega,
      getElem?_append_right hlen.le, hlen, Nat.sub_self]
    rfl
  · rw [if_neg hi]
    by_cases hafter : head + k + 1 ≤ i
    · have hle : head ≤ i := by omega
      rw [if_pos hle, if_pos hle, getElem?_append_right (by omega), hlen,
        show (i - head).toNat - k = (i - (head + k + 1)).toNat + 1 by omega,
        getElem?_cons_succ]
      by_cases hin : i < head + k + 1 + (l.length - k : Nat)
      · rw [if_pos ⟨hafter, hin⟩]
      · rw [if_neg fun h => hin h.2, getElem?_eq_none (by omega),
          getElem?_eq_none (by omega)]
    · rw [if_neg (by omega)]
      split_ifs
      · rw [getElem?_append_left (by omega), getElem?_take_of_lt (by omega)]
      · rfl

/-! ## 詰めて書き直す -/

/-- 位置が `drops` に入らない要素。`pos` は先頭の位置である。 -/
def survivors (drops : List Nat) : Nat → List α → List α
  | _, [] => []
  | pos, a :: rest =>
    if pos ∈ drops then survivors drops (pos + 1) rest else a :: survivors drops (pos + 1) rest

theorem survivors_append (drops : List Nat) (pos : Nat) (l l' : List α) :
    survivors drops pos (l ++ l') =
      survivors drops pos l ++ survivors drops (pos + l.length) l' := by
  induction l generalizing pos with
  | nil => rfl
  | cons a rest ih =>
    have hpos : pos + (a :: rest).length = pos + 1 + rest.length := by
      rw [length_cons]
      omega
    rw [cons_append, survivors, survivors, ih, hpos]
    split <;> rfl

variable {drops : List Nat} {pos : Nat}

theorem survivors_eq_self (h : ∀ p ∈ drops, p < pos ∨ pos + l.length ≤ p) :
    survivors drops pos l = l := by
  induction l generalizing pos with
  | nil => rfl
  | cons a rest ih =>
    have hpos : pos ∉ drops := by
      intro hmem
      have := h pos hmem
      rw [length_cons] at this
      omega
    rw [survivors, if_neg hpos, ih]
    intro p hp
    have := h p hp
    have hne : p ≠ pos := fun heq => hpos (heq ▸ hp)
    rw [length_cons] at this
    omega

theorem survivors_congr {drops drops' : List Nat}
    (h : ∀ p, pos ≤ p → p < pos + l.length → (p ∈ drops ↔ p ∈ drops')) :
    survivors drops pos l = survivors drops' pos l := by
  induction l generalizing pos with
  | nil => rfl
  | cons a rest ih =>
    have hrest : survivors drops (pos + 1) rest = survivors drops' (pos + 1) rest :=
      ih fun p hlo hhi => h p (by omega) (by rw [length_cons]; omega)
    have hpos : pos ∈ drops ↔ pos ∈ drops' := h pos le_rfl (by simp)
    simp [survivors, hrest, hpos]

theorem survivors_reverse {drops drops' : List Nat} {pos : Nat} {l : List α}
    (h : ∀ j < l.length, j ∈ drops' ↔ pos + (l.length - 1 - j) ∈ drops) :
    survivors drops' 0 l.reverse = (survivors drops pos l).reverse := by
  induction l generalizing pos with
  | nil => rfl
  | cons a rest ih =>
    have hrest : survivors drops' 0 rest.reverse = (survivors drops (pos + 1) rest).reverse := by
      refine ih fun j hj => ?_
      rw [h j (by simp; omega),
        show pos + ((a :: rest).length - 1 - j) = pos + 1 + (rest.length - 1 - j) by
          simp; omega]
    have hlast : rest.length ∈ drops' ↔ pos ∈ drops := by
      rw [h rest.length (by simp)]
      simp
    rw [reverse_cons, survivors_append, hrest, length_reverse, Nat.zero_add]
    show (survivors drops (pos + 1) rest).reverse ++
        (if rest.length ∈ drops' then [] else [a]) =
      (if pos ∈ drops then survivors drops (pos + 1) rest
        else a :: survivors drops (pos + 1) rest).reverse
    by_cases hpos : pos ∈ drops
    · rw [if_pos hpos, if_pos (hlast.mpr hpos)]
      exact append_nil _
    · rw [if_neg hpos, if_neg fun hmem => hpos (hlast.mp hmem), reverse_cons]
/-- 昇順に並んだ位置を一つずつ取り除くので、その数だけ短くなる。 -/
theorem length_survivors (hsorted : drops.Pairwise (· < ·)) (hlo : ∀ p ∈ drops, pos ≤ p)
    (hhi : ∀ p ∈ drops, p < pos + l.length) :
    (survivors drops pos l).length + drops.length = l.length := by
  induction l generalizing pos drops with
  | nil =>
    cases drops with
    | nil => rfl
    | cons p ps =>
      have h1 := hlo p mem_cons_self
      have h2 := hhi p mem_cons_self
      rw [length_nil] at h2
      omega
  | cons a rest ih =>
    rw [length_cons] at hhi ⊢
    rw [survivors]
    split
    · next hmem =>
      -- 先頭の位置が入るなら、昇順なので最初の要素である。
      cases drops with
      | nil => cases hmem
      | cons p ps =>
        obtain ⟨hfirst, hrest⟩ := pairwise_cons.mp hsorted
        have hp : p = pos := by
          rcases mem_cons.mp hmem with heq | hps
          · exact heq.symm
          · have h1 := hfirst pos hps
            have h2 := hlo p mem_cons_self
            omega
        subst hp
        have hcongr : survivors (p :: ps) (p + 1) rest = survivors ps (p + 1) rest := by
          refine survivors_congr fun q hq _ => ?_
          rw [mem_cons]
          exact or_iff_right (by omega)
        have hlen : (survivors ps (p + 1) rest).length + ps.length = rest.length :=
          ih hrest (fun q hq => hfirst q hq) fun q hq => by
            have := hhi q (mem_cons_of_mem _ hq)
            omega
        rw [hcongr, length_cons]
        omega
    · next hmem =>
      have hlo' : ∀ q ∈ drops, pos + 1 ≤ q := by
        intro q hq
        have h1 := hlo q hq
        have h2 : q ≠ pos := fun heq => hmem (heq ▸ hq)
        omega
      have hlen := ih hsorted hlo' fun q hq => by
        have := hhi q hq
        omega
      rw [length_cons]
      omega

namespace Slots

/-- 残す値を `dest` から順に書く。列の先頭の番地は `head + position`。動かない値は書かない。 -/
def compactLeft (drops : List Nat) (head : Int) : Slots α → Nat → Int → List α → Slots α
  | s, _, _, [] => s
  | s, position, dest, a :: rest =>
    if position ∈ drops then compactLeft drops head s (position + 1) dest rest
    else compactLeft drops head
      (if head + position ≠ dest then s.put dest a else s)
      (position + 1) (dest + 1) rest

theorem compactLeft_eq {head : Int} {s : Slots α} {position : Nat} {dest : Int}
    (hle : dest ≤ head + position)
    (hstored : ∀ n : Nat, n < l.length → s.get (head + position + n) = l[n]?) :
    compactLeft drops head s position dest l = s.writeFrom dest (survivors drops position l) := by
  induction l generalizing s position dest with
  | nil => rfl
  | cons a rest ih =>
    have hnext : ∀ n : Nat, n < rest.length →
        s.get (head + (position + 1 : Nat) + n) = rest[n]? := by
      intro n hn
      have := hstored (n + 1) (by rw [length_cons]; omega)
      rw [getElem?_cons_succ] at this
      rw [← this]
      congr 1
      push_cast
      ring
    rw [compactLeft, survivors]
    split
    · exact ih (by push_cast; omega) hnext
    · have hself : s.get (head + position) = some a := by simpa using hstored 0 (by simp)
      rw [writeFrom, put_of_ne s hself]
      refine ih (by push_cast; omega) fun n hn => ?_
      rw [get_put, if_neg (by push_cast; omega), hnext n hn]

/-- 残す値を `dest` の手前から後ろ向きに書く。値も取り除く位置も、後ろから並んでいる。 -/
def compactRight (head : Int) : Slots α → List Nat → Int → List α → Slots α
  | s, _, _, [] => s
  | s, drops, dest, a :: rest =>
    if drops.head? = some rest.length then compactRight head s drops.tail dest rest
    else compactRight head
      (if head + rest.length ≠ dest - 1 then s.put (dest - 1) a else s)
      drops (dest - 1) rest

theorem compactRight_eq {head : Int} {s : Slots α} {dest : Int} (hsorted : drops.Pairwise (· > ·))
    (hhi : ∀ p ∈ drops, p < l.length) (hle : head + l.length ≤ dest)
    (hstored : ∀ n : Nat, n < l.length → s.get (head + n) = l.reverse[n]?) :
    compactRight head s drops dest l = s.writeFrom (dest - (survivors drops 0 l.reverse).length)
        (survivors drops 0 l.reverse) := by
  induction l generalizing s drops dest with
  | nil => rfl
  | cons a rest ih =>
    have hstored' : ∀ n : Nat, n < rest.length → s.get (head + n) = rest.reverse[n]? := by
      intro n hn
      rw [hstored n (by rw [length_cons]; omega), reverse_cons,
        getElem?_append_left (by rw [length_reverse]; exact hn)]
    rw [length_cons] at hhi hle
    rw [compactRight, reverse_cons, survivors_append, length_reverse, Nat.zero_add]
    split
    · next hhead =>
      cases drops with
      | nil => cases hhead
      | cons p ps =>
        cases hhead
        obtain ⟨hfirst, hrest⟩ := pairwise_cons.mp hsorted
        have hcongr : survivors (rest.length :: ps) 0 rest.reverse =
            survivors ps 0 rest.reverse := by
          refine survivors_congr fun q _ hq => ?_
          rw [length_reverse] at hq
          rw [mem_cons]
          exact or_iff_right (by omega)
        have hlast : survivors (rest.length :: ps) rest.length [a] = [] := by simp [survivors]
        rw [tail_cons, hcongr, hlast, append_nil]
        exact ih hrest (fun q hq => hfirst q hq) (by omega) hstored'
    · next hhead =>
      have hnot : rest.length ∉ drops := by
        cases drops with
        | nil => exact not_mem_nil
        | cons p ps =>
          intro hmem
          rcases mem_cons.mp hmem with heq | hps
          · exact hhead (congrArg some heq.symm)
          · have h1 := (pairwise_cons.mp hsorted).1 _ hps
            have h2 := hhi p mem_cons_self
            omega
      have hlast : survivors drops rest.length [a] = [a] := by simp [survivors, hnot]
      have hself : s.get (head + rest.length) = some a := by
        rw [hstored rest.length (by simp), reverse_cons, ← length_reverse, getElem?_concat_length]
      rw [put_of_ne s hself, hlast, ih hsorted (fun q hq => ?_) (by omega) fun n hn => ?_]
      · -- 最後に書く値を、先に書いておくことになる。
        ext1
        funext i
        generalize survivors drops 0 rest.reverse = kept
        rw [get_writeFrom, get_writeFrom, get_put, length_append, length_singleton]
        push_cast
        by_cases hin : dest - (kept.length + 1) ≤ i ∧ i < dest
        · rw [if_pos (c := dest - (kept.length + 1) ≤ i ∧ _) (by omega)]
          by_cases hlast : i = dest - 1
          · rw [if_neg (by omega), if_pos hlast, getElem?_append_right (by omega),
              show (i - (dest - (kept.length + 1))).toNat - kept.length = 0 by omega]
            rfl
          · rw [if_pos (by omega), getElem?_append_left (by omega)]
            congr 1
            omega
        · rw [if_neg (by omega), if_neg (by omega), if_neg (by omega)]
      · have h1 := hhi q hq
        have h2 : q ≠ rest.length := fun heq => hnot (heq ▸ hq)
        omega
      · rw [get_put, if_neg (by omega), hstored' n hn]

end Slots

end Onedis.Infra
