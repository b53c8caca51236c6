import Onedis.Infra.Bytes

/-!
# 64 bit 符号付き整数とその表現

8 byte の big-endian（二の補数）と十進の文字列の、書き方と読み方。
-/

namespace Onedis.Infra

open UInt8

def i64Min : Int := -9223372036854775808

def i64Max : Int := 9223372036854775807

def InI64 (n : Int) : Prop := i64Min ≤ n ∧ n ≤ i64Max

instance (n : Int) : Decidable (InI64 n) := inferInstanceAs (Decidable (_ ∧ _))

def checkedAdd (a b : Int) : Option Int := if InI64 (a + b) then some (a + b) else none

theorem checkedAdd_of_inI64 {a b : Int} (h : InI64 (a + b)) : checkedAdd a b = some (a + b) :=
  if_pos h

theorem checkedAdd_of_not_inI64 {a b : Int} (h : ¬ InI64 (a + b)) : checkedAdd a b = none :=
  if_neg h

/-! ## big-endian -/

def toBeI64 (n : Int) : Bytes := toBe 8 (n % 2 ^ 64).toNat

def ofBeI64 (bs : Bytes) : Int :=
  if ofBe bs < 2 ^ 63 then (ofBe bs : Int) else (ofBe bs : Int) - 2 ^ 64

@[simp] theorem length_toBeI64 (n : Int) : (toBeI64 n).length = 8 := length_toBe 8 _

theorem ofBeI64_toBeI64 {n : Int} (h : InI64 n) : ofBeI64 (toBeI64 n) = n := by
  have hlt : (n % 2 ^ 64).toNat < 256 ^ 8 := by
    have hmod := Int.emod_lt_of_pos n (show (0 : Int) < 2 ^ 64 by norm_num)
    omega
  unfold InI64 i64Min i64Max at h
  unfold ofBeI64 toBeI64
  rw [ofBe_toBe hlt]
  split <;> omega

/-! ## 十進の文字列 -/

def natText (n : Nat) : Bytes := (Nat.toDigits 10 n).map fun c => ofNat c.toNat

def formatI64 (n : Int) : Bytes := if n < 0 then 0x2d :: natText n.natAbs else natText n.natAbs

def parseDigits : Bytes → Nat → Option Nat
  | [], acc => some acc
  | b :: bs, acc =>
    if 0x30 ≤ b ∧ b ≤ 0x39 then parseDigits bs (acc * 10 + (b.toNat - 0x30)) else none

def guardI64 (n : Int) : Option Int := if InI64 n then some n else none

def parseI64 : Bytes → Option Int
  | [] => none
  | [b] => if b = 0x2b ∨ b = 0x2d then none else (parseDigits [b] 0).bind fun n => guardI64 n
  | b :: rest =>
    if b = 0x2d then (parseDigits rest 0).bind fun n => guardI64 (-n)
    else if b = 0x2b then (parseDigits rest 0).bind fun n => guardI64 n
    else (parseDigits (b :: rest) 0).bind fun n => guardI64 n

theorem digit_range {c : Char} (h : c.isDigit = true) : 48 ≤ c.toNat ∧ c.toNat ≤ 57 := by
  simp only [Char.isDigit, Bool.and_eq_true, decide_eq_true_eq] at h
  exact ⟨h.1, h.2⟩

theorem toNat_digitByte {c : Char} (h : c.isDigit = true) :
    (ofNat c.toNat).toNat = c.toNat := by
  have := digit_range h
  simp only [toNat_ofNat']
  omega

theorem parseDigits_map {l : List Char} (h : ∀ c ∈ l, c.isDigit = true) (acc : Nat) :
    parseDigits (l.map fun c => ofNat c.toNat) acc = some (Nat.ofDigitChars 10 l acc) := by
  induction l generalizing acc with
  | nil => rfl
  | cons c l ih =>
    have hc := h c List.mem_cons_self
    have hr := digit_range hc
    have hb := toNat_digitByte hc
    have hle : (0x30 : UInt8) ≤ ofNat c.toNat ∧ ofNat c.toNat ≤ 0x39 := by
      rw [le_iff_toNat_le, le_iff_toNat_le, hb]
      exact hr
    rw [List.map_cons, parseDigits, if_pos hle, ih fun x hx => h x (List.mem_cons_of_mem _ hx),
      Nat.ofDigitChars_cons, hb, Nat.mul_comm]
    rfl

theorem isDigit_of_mem_toDigits {n : Nat} {c : Char} (h : c ∈ Nat.toDigits 10 n) :
    c.isDigit = true := Nat.isDigit_of_mem_toDigits (by decide) (by decide) h

theorem parseDigits_natText (n : Nat) : parseDigits (natText n) 0 = some n := by
  rw [natText, parseDigits_map fun c hc => isDigit_of_mem_toDigits hc,
    Nat.ofDigitChars_ten_toDigits]

theorem natText_head (n : Nat) : ∃ b bs, natText n = b :: bs ∧ b ≠ 0x2b ∧ b ≠ 0x2d := by
  cases hd : Nat.toDigits 10 n with
  | nil => exact absurd hd Nat.toDigits_ne_nil
  | cons c cs =>
    have hr := digit_range (isDigit_of_mem_toDigits (hd ▸ List.mem_cons_self))
    have hb := toNat_digitByte (isDigit_of_mem_toDigits (hd ▸ List.mem_cons_self))
    refine ⟨ofNat c.toNat, cs.map fun c => ofNat c.toNat, by rw [natText, hd]; rfl,
      ?_, ?_⟩
    · intro he
      rw [he] at hb
      simp at hb
      omega
    · intro he
      rw [he] at hb
      simp at hb
      omega

/-- **十進の文字列は読み戻せる。** -/
theorem parseI64_formatI64 {n : Int} (h : InI64 n) : parseI64 (formatI64 n) = some n := by
  obtain ⟨b, bs, hb, hplus, hminus⟩ := natText_head n.natAbs
  have hdig := parseDigits_natText n.natAbs
  unfold formatI64
  rcases lt_or_ge n 0 with hneg | hpos
  · rw [if_pos hneg, hb]
    rw [hb] at hdig
    have habs : -(n.natAbs : Int) = n := by omega
    simp only [parseI64, if_true, hdig, Option.bind_some, habs]
    exact if_pos h
  · rw [if_neg (not_lt.mpr hpos), hb]
    rw [hb] at hdig
    have habs : (n.natAbs : Int) = n := by omega
    cases bs with
    | nil =>
      simp only [parseI64, hplus, hminus, or_self, if_false, hdig, Option.bind_some, habs]
      exact if_pos h
    | cons b' bs =>
      simp only [parseI64, hplus, hminus, if_false, hdig, Option.bind_some, habs]
      exact if_pos h

theorem parseI64_inI64 {text : Bytes} {n : Int} (h : parseI64 text = some n) : InI64 n := by
  have hguard : ∀ m : Int, guardI64 m = some n → InI64 n := by
    intro m hm
    obtain ⟨hi, hm⟩ := Option.ite_none_right_eq_some.mp hm
    cases hm; exact hi
  match text, h with
  | [b], h =>
    obtain ⟨-, h⟩ := Option.ite_none_left_eq_some.mp h
    obtain ⟨m, -, hm⟩ := Option.bind_eq_some_iff.mp h
    exact hguard _ hm
  | b :: b' :: rest, h =>
    simp only [parseI64] at h
    split at h
    · obtain ⟨m, -, hm⟩ := Option.bind_eq_some_iff.mp h
      exact hguard _ hm
    · split at h
      · obtain ⟨m, -, hm⟩ := Option.bind_eq_some_iff.mp h
        exact hguard _ hm
      · obtain ⟨m, -, hm⟩ := Option.bind_eq_some_iff.mp h
        exact hguard _ hm

/-! ## UTF-8 -/

def isCont (b : UInt8) : Bool := 0x80 ≤ b && b ≤ 0xbf

def validUtf8 : Bytes → Bool
  | [] => true
  | b :: rest =>
    if b < 0x80 then validUtf8 rest
    else
      match rest with
      | c :: rest₁ =>
        if 0xc2 ≤ b ∧ b ≤ 0xdf then isCont c && validUtf8 rest₁
        else
          match rest₁ with
          | d :: rest₂ =>
            if (b = 0xe0 ∧ 0xa0 ≤ c ∧ c ≤ 0xbf) ∨ (0xe1 ≤ b ∧ b ≤ 0xec ∧ isCont c) ∨
                (b = 0xed ∧ 0x80 ≤ c ∧ c ≤ 0x9f) ∨ (0xee ≤ b ∧ b ≤ 0xef ∧ isCont c) then
              isCont d && validUtf8 rest₂
            else
              match rest₂ with
              | e :: rest₃ =>
                if (b = 0xf0 ∧ 0x90 ≤ c ∧ c ≤ 0xbf) ∨ (0xf1 ≤ b ∧ b ≤ 0xf3 ∧ isCont c) ∨
                    (b = 0xf4 ∧ 0x80 ≤ c ∧ c ≤ 0x8f) then
                  isCont d && isCont e && validUtf8 rest₃
                else false
              | [] => false
          | [] => false
      | [] => false

theorem validUtf8_ascii {l : Bytes} (h : ∀ b ∈ l, b < 0x80) : validUtf8 l = true := by
  induction l with
  | nil => rfl
  | cons b l ih =>
    rw [validUtf8.eq_def]
    simp only [h b List.mem_cons_self, if_true]
    exact ih fun x hx => h x (List.mem_cons_of_mem _ hx)

/-- 列の先頭に立てる byte。継続 byte と、`0xf5` 以上の byte は立てない。 -/
def isLead (b : UInt8) : Prop := b < 0x80 ∨ (0xc2 ≤ b ∧ b ≤ 0xf4)

instance (b : UInt8) : Decidable (isLead b) := inferInstanceAs (Decidable (_ ∨ _))

theorem isLead_of_three {b c : UInt8}
    (h : (b = 0xe0 ∧ 0xa0 ≤ c ∧ c ≤ 0xbf) ∨ (0xe1 ≤ b ∧ b ≤ 0xec ∧ isCont c) ∨
      (b = 0xed ∧ 0x80 ≤ c ∧ c ≤ 0x9f) ∨ (0xee ≤ b ∧ b ≤ 0xef ∧ isCont c)) :
    isLead b ∧ isCont c = true := by
  have := b.toNat_lt_size
  simp only [isLead, isCont, Bool.and_eq_true, decide_eq_true_eq, UInt8.le_iff_toNat_le,
    UInt8.lt_iff_toNat_lt, ← UInt8.toNat_inj, UInt8.reduceToNat] at h ⊢
  omega

theorem isLead_of_four {b c : UInt8}
    (h : (b = 0xf0 ∧ 0x90 ≤ c ∧ c ≤ 0xbf) ∨ (0xf1 ≤ b ∧ b ≤ 0xf3 ∧ isCont c) ∨
      (b = 0xf4 ∧ 0x80 ≤ c ∧ c ≤ 0x8f)) : isLead b ∧ isCont c = true := by
  simp only [isLead, isCont, Bool.and_eq_true, decide_eq_true_eq, UInt8.le_iff_toNat_le,
    UInt8.lt_iff_toNat_lt, ← UInt8.toNat_inj, UInt8.reduceToNat] at h ⊢
  omega

theorem validUtf8_spec {l : Bytes} (h : validUtf8 l = true) :
    (∀ b, l.head? = some b → isLead b) ∧ ∀ b ∈ l, isLead b ∨ isCont b = true := by
  fun_induction validUtf8 l with
  | case1 => simp
  | case2 b rest hb ih =>
    have hlead : isLead b := .inl hb
    simpa [hlead] using (ih h).2
  | case3 b hb c rest hrange ih =>
    rw [Bool.and_eq_true] at h
    have hlead : isLead b := .inr ⟨hrange.1, UInt8.le_trans hrange.2 (by decide)⟩
    simpa [hlead, h.1] using (ih h.2).2
  | case4 b hb c hnot d rest hrange ih =>
    rw [Bool.and_eq_true] at h
    obtain ⟨hlead, hcont⟩ := isLead_of_three hrange
    simpa [hlead, hcont, h.1] using (ih h.2).2
  | case5 b hb c hnot d hnot' e rest hrange ih =>
    rw [Bool.and_eq_true, Bool.and_eq_true] at h
    obtain ⟨hlead, hcont⟩ := isLead_of_four hrange
    simpa [hlead, hcont, h.1.1, h.1.2] using (ih h.2).2
  | case6 | case7 | case8 | case9 => cases h

theorem validUtf8_le {l : Bytes} (h : validUtf8 l = true) {b : UInt8} (hb : b ∈ l) : b ≤ 0xf4 := by
  rcases (validUtf8_spec h).2 b hb with (hlt | hle) | hcont
  · exact UInt8.le_trans (UInt8.le_of_lt hlt) (by decide)
  · exact hle.2
  · simp only [isCont, Bool.and_eq_true, decide_eq_true_eq] at hcont
    exact UInt8.le_trans hcont.2 (by decide)

theorem natText_ascii (n : Nat) : ∀ b ∈ natText n, b < 0x80 := by
  intro b hb
  obtain ⟨c, hc, rfl⟩ := List.mem_map.mp hb
  have hr := digit_range (isDigit_of_mem_toDigits hc)
  rw [lt_iff_toNat_lt, toNat_digitByte (isDigit_of_mem_toDigits hc)]
  show c.toNat < 128
  omega

theorem validUtf8_formatI64 (n : Int) : validUtf8 (formatI64 n) = true := by
  refine validUtf8_ascii ?_
  unfold formatI64
  split
  · intro b hb
    rcases List.mem_cons.mp hb with rfl | hb
    · decide
    · exact natText_ascii _ b hb
  · exact natText_ascii _

end Onedis.Infra
