import Onedis.Infra.Scan
import Onedis.Store.SubKeys
import Onedis.Store.ValueCodec

/-!
# zset の score

score は `f64` で、`-0` と `+0` は数として等しく、bit 列としては異なる。rank record の key には、並びが数の順に
なるように符号を直した bit 列が入る。

* `rank_lt_iff_totalKey_lt` — 符号化した値の順は `total_cmp` の順に一致する
-/

namespace Onedis.Store

open Infra
open Codec

/-! ## `f64` の bit 列の比較 -/

namespace F64

def isNan (bits : UInt64) : Bool := scoreIsNan bits

def posZero : UInt64 := 0

def negZero : UInt64 := 0x8000000000000000

/-- 符号と絶対値から、大小だけを写した整数。二つの零はどちらも `0` になる。 -/
def magnitude (bits : UInt64) : Int :=
  if bits.toNat < 2 ^ 63 then bits.toNat else -(bits.toNat - 2 ^ 63 : Nat)

/-- `a < b`。 -/
def lt (a b : UInt64) : Bool := !isNan a && !isNan b && decide (magnitude a < magnitude b)

/-- `a == b`。 -/
def eq (a b : UInt64) : Bool := !isNan a && !isNan b && decide (magnitude a = magnitude b)

/-- `f64::total_cmp` が比べる符号つき整数。負の数は絶対値の bit を反転する。 -/
def totalKey (bits : UInt64) : Int :=
  if bits.toNat < 2 ^ 63 then bits.toNat else -(bits.toNat - 2 ^ 63 : Nat) - 1

theorem totalKey_injective {a b : UInt64} (h : totalKey a = totalKey b) : a = b := by
  have ha := a.toNat_lt
  have hb := b.toNat_lt
  apply UInt64.toNat_inj.mp
  simp only [totalKey] at h
  split at h <;> split at h <;> omega

end F64

/-! ## 順序を保つ符号化 -/

def encodeSortedF64 (bits : UInt64) : UInt64 :=
  if bits >>> 63 == 1 then ~~~bits else bits ^^^ ((1 : UInt64) <<< 63)

def decodeSortedF64 (encoded : UInt64) : UInt64 :=
  if encoded >>> 63 == 1 then encoded ^^^ ((1 : UInt64) <<< 63) else ~~~encoded

variable (bits : UInt64)

theorem shift_eq_one_iff : (bits >>> 63 == 1) = decide (2 ^ 63 ≤ bits.toNat) := by
  have hlt := bits.toNat_lt
  have hshift : (bits >>> 63).toNat = bits.toNat / 2 ^ 63 := by
    rw [UInt64.toNat_shiftRight]
    exact Nat.shiftRight_eq_div_pow _ _
  rw [Bool.eq_iff_iff, beq_iff_eq, decide_eq_true_eq, ← UInt64.toNat_inj, hshift]
  show bits.toNat / 2 ^ 63 = 1 ↔ _
  omega

theorem toNat_flipSign : (bits ^^^ ((1 : UInt64) <<< 63)).toNat =
      if bits.toNat < 2 ^ 63 then bits.toNat + 2 ^ 63 else bits.toNat - 2 ^ 63 := by
  have hlt := bits.toNat_lt
  have hflip : ∀ n < 2 ^ 63, n ^^^ 2 ^ 63 = n + 2 ^ 63 := by
    intro n hn
    have hor := Nat.two_pow_add_eq_or_of_lt hn 1
    rw [Nat.mul_one] at hor
    rw [Nat.add_comm, hor]
    refine Nat.eq_of_testBit_eq fun i => ?_
    rw [Nat.testBit_xor, Nat.testBit_or, Nat.testBit_two_pow]
    by_cases hi : 63 = i
    · subst hi
      simp [Nat.testBit_lt_two_pow hn]
    · simp [hi]
  rw [UInt64.toNat_xor]
  show bits.toNat ^^^ 2 ^ 63 = _
  split
  · next h => exact hflip _ h
  · next h =>
    obtain ⟨n, hn⟩ : ∃ n, bits.toNat = n + 2 ^ 63 := ⟨bits.toNat - 2 ^ 63, by omega⟩
    rw [hn, ← hflip n (by omega), Nat.xor_assoc, Nat.xor_self, Nat.xor_zero,
      hflip n (by omega), Nat.add_sub_cancel]

theorem toNat_encodeSortedF64 :
    ((encodeSortedF64 bits).toNat : Int) = F64.totalKey bits + 2 ^ 63 := by
  have hlt := bits.toNat_lt
  unfold encodeSortedF64 F64.totalKey
  rw [shift_eq_one_iff]
  by_cases h : bits.toNat < 2 ^ 63
  · rw [if_neg (by simpa using h), if_pos h, toNat_flipSign, if_pos h]
    omega
  · rw [if_pos (by simpa using h), if_neg h, UInt64.toNat_not]
    show ((2 ^ 64 - 1 - bits.toNat : Nat) : Int) = _
    omega

/-- **rank の key に入る値の順は、`total_cmp` の順である。** -/
theorem rank_lt_iff_totalKey_lt (a b : UInt64) :
    (encodeSortedF64 a).toNat < (encodeSortedF64 b).toNat ↔ F64.totalKey a < F64.totalKey b := by
  have ha := toNat_encodeSortedF64 a
  have hb := toNat_encodeSortedF64 b
  omega

theorem decodeSortedF64_encode (bits : UInt64) : decodeSortedF64 (encodeSortedF64 bits) = bits := by
  have hlt := bits.toNat_lt
  have henc := toNat_encodeSortedF64 bits
  have hkey : F64.totalKey bits =
      if bits.toNat < 2 ^ 63 then (bits.toNat : Int) else -(bits.toNat - 2 ^ 63 : Nat) - 1 := rfl
  apply UInt64.toNat_inj.mp
  unfold decodeSortedF64
  rw [shift_eq_one_iff]
  by_cases h : bits.toNat < 2 ^ 63
  · rw [if_pos h] at hkey
    rw [if_pos (by simp; omega), toNat_flipSign, if_neg (by omega)]
    omega
  · rw [if_neg h] at hkey
    rw [if_neg (by simp; omega), UInt64.toNat_not]
    show 2 ^ 64 - 1 - (encodeSortedF64 bits).toNat = _
    omega

/-! ## score -/

structure Score where
  bits : UInt64
  notNan : F64.isNan bits = false
  deriving DecidableEq

namespace Score

def ofBits? (bits : UInt64) : Option Score :=
  if h : F64.isNan bits = false then some ⟨bits, h⟩ else none

theorem ext_bits {s t : Score} (h : s.bits = t.bits) : s = t := by
  cases s
  cases t
  cases h
  rfl

def zero : Score := ⟨F64.posZero, by decide⟩

def negZero : Score := ⟨F64.negZero, by decide⟩

def same (s t : Score) : Bool := F64.eq s.bits t.bits

theorem same_iff (s t : Score) : s.same t = true ↔ F64.magnitude s.bits = F64.magnitude t.bits := by
  simp [same, F64.eq, s.notNan, t.notNan]

@[simp] theorem same_refl (s : Score) : s.same s = true := (same_iff s s).mpr rfl

theorem same_comm (s t : Score) : s.same t = t.same s := by
  rw [Bool.eq_iff_iff, same_iff, same_iff, eq_comm]

/-- 数として等しい score は、二つの零を除いて、bit 列も等しい。 -/
theorem eq_of_same {s t : Score} (h : s.same t = true) (hs : s.same .zero = false) : s = t := by
  rw [same_iff] at h
  rw [← Bool.not_eq_true, same_iff] at hs
  have hslt := s.bits.toNat_lt
  have htlt := t.bits.toNat_lt
  refine ext_bits (UInt64.toNat_inj.mp ?_)
  have hzero : F64.magnitude zero.bits = 0 := rfl
  rw [hzero] at hs
  simp only [F64.magnitude] at h hs
  split at h <;> split at h <;> omega

theorem same_zero_iff {s : Score} : s.same .zero = true ↔ s = .zero ∨ s = .negZero := by
  constructor
  · intro h
    rw [same_iff, show F64.magnitude zero.bits = 0 from rfl] at h
    have hlt := s.bits.toNat_lt
    simp only [F64.magnitude] at h
    split at h
    · exact .inl (ext_bits (UInt64.toNat_inj.mp (show _ = 0 by omega)))
    · exact .inr (ext_bits (UInt64.toNat_inj.mp (show _ = 2 ^ 63 by omega)))
  · rintro (rfl | rfl) <;> decide

theorem negZero_same (s : Score) : Score.negZero.same s = s.same .zero := by
  have hzero : F64.magnitude negZero.bits = F64.magnitude zero.bits := by decide
  rw [Bool.eq_iff_iff, same_iff, same_iff, hzero, eq_comm]

theorem same_trans {s t u : Score} (hst : s.same t = true) (htu : t.same u = true) :
    s.same u = true :=
  (same_iff s u).mpr (((same_iff s t).mp hst).trans ((same_iff t u).mp htu))

end Score

end Onedis.Store
