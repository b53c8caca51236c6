import Mathlib.Data.List.Basic
import Mathlib.Tactic

/-!
# byte 列

key の符号化が土台にする、byte 列の一般の道具。

* `inRange_prefix_iff` — 接頭辞とその上界で作る区間は、その接頭辞を持つ列だけからなる
-/

namespace Onedis.Infra

open List

abbrev Bytes := List UInt8

instance : LawfulBEq Bytes := inferInstance

/-! ## big-endian -/

/-- `n` を `w` byte の big-endian で書く。上の桁は捨てる。 -/
def toBe : Nat → Nat → Bytes
  | 0, _ => []
  | w + 1, n => UInt8.ofNat (n / 256 ^ w) :: toBe w n

def ofBe (bs : Bytes) : Nat := bs.foldl (fun acc b => acc * 256 + b.toNat) 0

@[simp] theorem length_toBe (w n : Nat) : (toBe w n).length = w := by
  induction w with
  | zero => rfl
  | succ w ih => simp [toBe, ih]

theorem foldl_toBe (w n acc : Nat) :
    (toBe w n).foldl (fun acc b => acc * 256 + b.toNat) acc = acc * 256 ^ w + n % 256 ^ w := by
  induction w generalizing acc with
  | zero => simp [toBe, Nat.mod_one]
  | succ w ih =>
    simp only [toBe, foldl_cons]
    rw [ih]
    have hb : (UInt8.ofNat (n / 256 ^ w)).toNat = n / 256 ^ w % 256 := by simp
    have hsplit : n % 256 ^ (w + 1) = n % 256 ^ w + 256 ^ w * (n / 256 ^ w % 256) := by
      rw [pow_succ, Nat.mod_mul]
    rw [hb, hsplit]
    ring

theorem ofBe_toBe {w n : Nat} (h : n < 256 ^ w) : ofBe (toBe w n) = n := by
  rw [ofBe, foldl_toBe, Nat.mod_eq_of_lt h]
  simp

variable (bs : Bytes)

theorem foldl_eq (acc : Nat) :
    bs.foldl (fun acc b => acc * 256 + b.toNat) acc = acc * 256 ^ bs.length + ofBe bs := by
  induction bs generalizing acc with
  | nil => simp [ofBe]
  | cons b bs ih =>
    rw [ofBe, foldl_cons, foldl_cons, ih, ih, length_cons, pow_succ]
    ring

theorem ofBe_lt : ofBe bs < 256 ^ bs.length := by
  induction bs with
  | nil => decide
  | cons b bs ih =>
    have hb : b.toNat < 256 := UInt8.toNat_lt_size b
    rw [ofBe, foldl_cons, foldl_eq, length_cons, pow_succ']
    calc (0 * 256 + b.toNat) * 256 ^ bs.length + ofBe bs
        < (0 * 256 + b.toNat) * 256 ^ bs.length + 256 ^ bs.length := Nat.add_lt_add_left ih _
      _ = (b.toNat + 1) * 256 ^ bs.length := by ring
      _ ≤ 256 * 256 ^ bs.length := Nat.mul_le_mul_right _ hb

theorem toBe_foldl (acc : Nat) :
    toBe bs.length (bs.foldl (fun acc b => acc * 256 + b.toNat) acc) = bs := by
  induction bs generalizing acc with
  | nil => rfl
  | cons b bs ih =>
    have hb : b.toNat < 256 := UInt8.toNat_lt_size b
    rw [foldl_cons, length_cons, toBe, ih, foldl_eq, Nat.mul_comm, Nat.mul_add_div (by positivity),
      Nat.div_eq_of_lt (ofBe_lt bs)]
    congr 1
    rw [← UInt8.toNat_inj]
    simp only [UInt8.toNat_ofNat']
    omega

theorem toBe_ofBe : toBe bs.length (ofBe bs) = bs := toBe_foldl bs 0

theorem toBe_add (a b n : Nat) : toBe (a + b) n = toBe a (n / 256 ^ b) ++ toBe b n := by
  induction a with
  | zero => simp [toBe]
  | succ a ih =>
    rw [Nat.add_right_comm, toBe, toBe, cons_append, ih, Nat.div_div_eq_div_mul, ← pow_add,
      Nat.add_comm b a]

theorem toBe_injective {w m n : Nat} (hm : m < 256 ^ w) (hn : n < 256 ^ w)
    (h : toBe w m = toBe w n) : m = n := by
  rw [← ofBe_toBe hm, ← ofBe_toBe hn, h]

/-! ## 区切りまでの切り出し -/

/-- 最初の `d` の手前まで。`d` が現れなければ `none`。 -/
def takeUntil (d : UInt8) : Bytes → Option Bytes
  | [] => none
  | b :: bs => if b = d then some [] else (takeUntil d bs).map (b :: ·)

theorem takeUntil_append {d : UInt8} {l : Bytes} (h : d ∉ l) (rest : Bytes) :
    takeUntil d (l ++ d :: rest) = some l := by
  induction l with
  | nil => simp [takeUntil]
  | cons b l ih =>
    simp only [mem_cons, not_or] at h
    simp [takeUntil, Ne.symm h.1, ih h.2]

/-! ## 接頭辞 -/

theorem isPrefixOf?_eq_some {p l rest : Bytes} : p.isPrefixOf? l = some rest ↔ l = p ++ rest := by
  rw [isPrefixOf?_eq_some_iff_append_eq]
  exact eq_comm

@[simp] theorem isPrefixOf?_append (p rest : Bytes) :
    p.isPrefixOf? (p ++ rest) = some rest := isPrefixOf?_eq_some.mpr rfl

/-! ## 辞書式順序と接頭辞の上界 -/

def bytesLt : Bytes → Bytes → Bool
  | [], [] => false
  | [], _ :: _ => true
  | _ :: _, [] => false
  | a :: as, b :: bs => a < b || (a == b && bytesLt as bs)

/-- 末尾の `0xff` を落とし、残った最後の byte に 1 を足す。すべて `0xff` なら上界は無い。 -/
def upperBound : Bytes → Option Bytes
  | [] => none
  | b :: bs =>
    match upperBound bs with
    | some u => some (b :: u)
    | none => if b = 255 then none else some [b + 1]

@[simp] theorem bytesLt_append_left (p l l' : Bytes) :
    bytesLt (p ++ l) (p ++ l') = bytesLt l l' := by
  induction p with
  | nil => rfl
  | cons b p ih => simp [bytesLt, ih]

theorem bytesLt_iff_lt {l l' : Bytes} : bytesLt l l' = true ↔ l < l' := by
  induction l generalizing l' with
  | nil => cases l' <;> simp [bytesLt]
  | cons b l ih => cases l' <;> simp [bytesLt, ih, cons_lt_cons_iff]

theorem bytesLt_eq_false_iff {l l' : Bytes} : bytesLt l l' = false ↔ ¬ l < l' := by
  rw [← bytesLt_iff_lt, Bool.not_eq_true]

theorem bytesLt_irrefl (l : Bytes) : bytesLt l l = false :=
  bytesLt_eq_false_iff.mpr (List.lt_irrefl l)

theorem bytesLt_asymm {l l' : Bytes} (h : bytesLt l l' = true) : bytesLt l' l = false :=
  bytesLt_eq_false_iff.mpr (List.lt_asymm (bytesLt_iff_lt.mp h))

theorem digit_lt_iff {p a b r s : Nat} (hr : r < p) (hs : s < p) :
    r + p * a < s + p * b ↔ a < b ∨ a = b ∧ r < s := by
  rcases Nat.lt_trichotomy a b with hab | rfl | hab
  · have hle : p * (a + 1) ≤ p * b := Nat.mul_le_mul_left p hab
    rw [Nat.mul_succ] at hle
    exact ⟨fun _ => .inl hab, fun _ => by omega⟩
  · simp
  · have hle : p * (b + 1) ≤ p * a := Nat.mul_le_mul_left p hab
    rw [Nat.mul_succ] at hle
    constructor
    · intro hlt
      omega
    · rintro (hlt | ⟨rfl, -⟩)
      · omega
      · exact absurd hab (Nat.lt_irrefl _)

theorem bytesLt_toBe_mod (w m n : Nat) (rest : Bytes) :
    bytesLt (toBe w m ++ rest) (toBe w n) = decide (m % 256 ^ w < n % 256 ^ w) := by
  induction w with
  | zero => cases rest <;> simp [toBe, bytesLt, Nat.mod_one]
  | succ w ih =>
    have hpos : 0 < 256 ^ w := by positivity
    have hdigit : ∀ x, x % 256 ^ (w + 1) = x % 256 ^ w + 256 ^ w * (x / 256 ^ w % 256) :=
      fun x => by rw [pow_succ, Nat.mod_mul]
    have hbyte : ∀ x, (UInt8.ofNat (x / 256 ^ w)).toNat = x / 256 ^ w % 256 := fun x => by simp
    simp only [toBe, cons_append, bytesLt]
    rw [ih, Bool.eq_iff_iff]
    simp only [Bool.or_eq_true, decide_eq_true_eq, Bool.and_eq_true, beq_iff_eq]
    rw [hdigit m, hdigit n, digit_lt_iff (Nat.mod_lt _ hpos) (Nat.mod_lt _ hpos),
      UInt8.lt_iff_toNat_lt, ← UInt8.toNat_inj, hbyte, hbyte]

theorem bytesLt_toBe {w m n : Nat} (hm : m < 256 ^ w) (hn : n < 256 ^ w) (rest : Bytes) :
    bytesLt (toBe w m ++ rest) (toBe w n) = decide (m < n) := by
  rw [bytesLt_toBe_mod, Nat.mod_eq_of_lt hm, Nat.mod_eq_of_lt hn]

theorem exists_append_of_bytesLt {p t raw : Bytes} (hlow : bytesLt raw p = false)
    (hhigh : bytesLt raw (p ++ t) = true) : ∃ rest, raw = p ++ rest ∧ bytesLt rest t = true := by
  induction p generalizing raw with
  | nil => exact ⟨raw, rfl, hhigh⟩
  | cons b p ih =>
    cases raw with
    | nil => cases hlow
    | cons c raw =>
      simp only [bytesLt, cons_append, Bool.or_eq_false_iff, Bool.or_eq_true,
        Bool.and_eq_true, beq_iff_eq, decide_eq_true_eq, decide_eq_false_iff_not] at hlow hhigh
      obtain ⟨hcb, hrest⟩ := hhigh.resolve_left hlow.1
      subst hcb
      obtain ⟨rest, rfl, hlt⟩ := ih (by simpa using hlow.2) hrest
      exact ⟨rest, rfl, hlt⟩

def inRange (start stop raw : Bytes) : Bool := !bytesLt raw start && bytesLt raw stop

theorem bytesLt_eq_false_of_upperBound_none {p : Bytes} (h : upperBound p = none) (raw : Bytes) :
    bytesLt raw p = false ↔ p <+: raw := by
  induction p generalizing raw with
  | nil => cases raw <;> simp [bytesLt]
  | cons b bs ih =>
    simp only [upperBound] at h
    split at h
    · cases h
    · next hbs =>
      split at h
      · next hb =>
        cases raw with
        | nil => simp [bytesLt]
        | cons c cs =>
          by_cases hcb : c = b
          · simp [bytesLt, hcb, cons_prefix_cons, ih hbs]
          · have hlt : c < b := by
              rw [hb] at hcb ⊢
              have hne : c.toNat ≠ 255 := fun hc => hcb (UInt8.toNat_inj.mp hc)
              have hsize : c.toNat < 256 := c.toNat_lt_size
              rw [UInt8.lt_iff_toNat_lt]
              show c.toNat < 255
              omega
            simp [bytesLt, cons_prefix_cons, hlt, Ne.symm hcb]
      · cases h

theorem byte_lt_add_one_iff {b c : UInt8} (hb : b ≠ 255) : c < b + 1 ↔ c < b ∨ c = b := by
  have hne : b.toNat ≠ 255 := fun hc => hb (UInt8.toNat_inj.mp hc)
  have hsize : b.toNat < 256 := b.toNat_lt_size
  have hadd : (b + 1).toNat = b.toNat + 1 := by
    rw [UInt8.toNat_add]
    show (b.toNat + 1) % 256 = b.toNat + 1
    omega
  rw [UInt8.lt_iff_toNat_lt, UInt8.lt_iff_toNat_lt, hadd, ← UInt8.toNat_inj]
  omega

/-- **接頭辞とその上界で作る区間は、その接頭辞を持つ列だけからなる。** -/
theorem inRange_prefix_iff {p u : Bytes} (h : upperBound p = some u) (raw : Bytes) :
    inRange p u raw = true ↔ p <+: raw := by
  simp only [inRange, Bool.and_eq_true, Bool.not_eq_true']
  induction p generalizing u raw with
  | nil => cases h
  | cons b bs ih =>
    cases raw with
    | nil => simp [bytesLt]
    | cons c cs =>
      simp only [upperBound] at h
      split at h
      · next u' hbs =>
        -- 先頭の byte は動かない
        cases h
        have hrest := ih hbs cs
        by_cases hcb : c = b
        · subst hcb
          simpa [bytesLt, cons_prefix_cons] using hrest
        · simp [bytesLt, hcb, cons_prefix_cons, Ne.symm hcb]
      · next hbs =>
        obtain ⟨hb, h⟩ := Option.ite_none_left_eq_some.mp h
        cases h
        have hrest := bytesLt_eq_false_of_upperBound_none hbs cs
        by_cases hcb : c = b
        · subst hcb
          have hlt : c < c + 1 := (byte_lt_add_one_iff hb).mpr (.inr rfl)
          simpa [bytesLt, cons_prefix_cons, hlt] using hrest
        · have hle : c < b + 1 → c < b := fun hc =>
            ((byte_lt_add_one_iff hb).mp hc).resolve_right hcb
          have hlast : bytesLt cs [] = false := by cases cs <;> rfl
          constructor
          · rintro ⟨hnot, hlt⟩
            have hcb' : c < b := hle (by simpa [bytesLt, hlast] using hlt)
            simp [bytesLt, hcb'] at hnot
          · intro hpfx
            exact absurd (cons_prefix_cons.mp hpfx).1.symm hcb

theorem upperBound_isSome {p : Bytes} {b : UInt8} (hb : b ∈ p) (hne : b ≠ 255) :
    (upperBound p).isSome = true := by
  induction p with
  | nil => cases hb
  | cons c cs ih =>
    simp only [upperBound]
    split
    · rfl
    · next hnone =>
      rcases mem_cons.mp hb with rfl | hb
      · rw [if_neg hne]
        rfl
      · have hsome := ih hb
        rw [hnone] at hsome
        cases hsome

end Onedis.Infra
