import Onedis.Infra.Bytes

/-!
# 接続を選ぶ glob

`network/session_glob.rs` の写し。添字の代わりに、そこから先の列を持つ。

* `globMatch_correct` — 照合は決まった回数で終わり、text を分けられるときだけ true を返す
-/

namespace Onedis.Network

open Infra List

/-- pattern の一区切り。`never` は何にも合わない。 -/
inductive GlobToken
  | star
  | anyByte
  | never
  | literal (byte : UInt8)
  | byteClass (negated : Bool) (ranges : List (UInt8 × UInt8))
  deriving DecidableEq

def GlobToken.matches (byte : UInt8) : GlobToken → Bool
  | .anyByte => true
  | .never => false
  | .literal expected => expected == byte
  | .byteClass negated ranges =>
    (ranges.any fun r => decide (r.1 ≤ byte) && decide (byte ≤ r.2)) != negated
  | .star => false

/-! ## pattern の解析 -/

abbrev Shorter (p : Bytes) := { rest : Bytes // rest.length < p.length }

def parseClassByte : (p : Bytes) → Option (UInt8 × Shorter p)
  | [] => none
  | [0x5c] => none
  | 0x5c :: byte :: rest => some (byte, ⟨rest, by simp⟩)
  | byte :: rest => some (byte, ⟨rest, by simp⟩)

/-- `parse_class` の loop -/
def parseClass (negated : Bool) (ranges : List (UInt8 × UInt8)) (p : Bytes) :
    Option (GlobToken × Shorter p) :=
  match p with
  | 0x5d :: rest => some (.byteClass negated ranges, ⟨rest, by simp⟩)
  | p =>
    match parseClassByte p with
    | none => none
    | some (start, ⟨after, hafter⟩) =>
      if after.head? = some 0x2d ∧ 1 < after.length ∧ after.tail.head? ≠ some 0x5d then
        match parseClassByte after.tail with
        | none => none
        | some (stop, ⟨rest, hrest⟩) =>
          have hlt : rest.length < p.length := by
            rw [length_tail] at hrest
            omega
          (parseClass negated (ranges ++ [(min start stop, max start stop)]) rest).map
            fun (token, next) => (token, ⟨next, next.2.trans hlt⟩)
      else
        (parseClass negated (ranges ++ [(start, start)]) after).map
          fun (token, next) => (token, ⟨next, next.2.trans hafter⟩)
termination_by p.length

/-- `parse_glob` の loop -/
def parseGlob (tokens : List GlobToken) (p : Bytes) : List GlobToken :=
  match p with
  | [] => tokens
  | 0x2a :: rest =>
    parseGlob (if tokens.getLast? = some .star then tokens else tokens ++ [.star]) rest
  | 0x3f :: rest => parseGlob (tokens ++ [.anyByte]) rest
  | 0x5c :: byte :: rest => parseGlob (tokens ++ [.literal byte]) rest
  | 0x5b :: rest =>
    let negated := rest.head? = some 0x5e
    match parseClass negated [] (if negated then rest.tail else rest) with
    | some (token, ⟨next, hnext⟩) =>
      have hlt : next.length < rest.length + 1 := by
        split at hnext
        · rw [length_tail] at hnext
          omega
        · omega
      parseGlob (tokens ++ [token]) next
    | none => tokens ++ [.never]
  | byte :: rest => parseGlob (tokens ++ [.literal byte]) rest
termination_by p.length

/-! ## 照合 -/

/-- `glob_match_tokens` の変数。`star` は `star_idx + 1` と `star_text_idx` から先である。 -/
structure GlobState where
  pattern : List GlobToken
  text : Bytes
  star : Option (List GlobToken × Bytes)

def matchesHead : List GlobToken → Bytes → Bool
  | token :: _, byte :: _ => token.matches byte
  | _, _ => false

namespace GlobState

/-- loop の一回。`none` は `return false` である。 -/
def step : GlobState → Option GlobState
  | ⟨.star :: p, text, _⟩ => some ⟨p, text, some (p, text)⟩
  | ⟨p, text, star⟩ =>
    if matchesHead p text then some ⟨p.tail, text.tail, star⟩
    else star.map fun (q, u) => ⟨q, u.tail, some (q, u.tail)⟩

/-- `none` は、`fuel` 回の繰り返しで終わらないことを表す。 -/
def loop : Nat → GlobState → Option Bool
  | fuel, s =>
    if s.text = [] then some (s.pattern.dropWhile (· = .star)).isEmpty
    else
      match fuel with
      | 0 => none
      | fuel + 1 =>
        match s.step with
        | none => some false
        | some s' => loop fuel s'

end GlobState

/-! ## 分け方 -/

/-- token が text の一つの byte を受ける。 -/
def GlobToken.Takes (byte : UInt8) : GlobToken → Prop
  | .star => False
  | .anyByte => True
  | .never => False
  | .literal expected => byte = expected
  | .byteClass negated ranges => (∃ r ∈ ranges, r.1 ≤ byte ∧ byte ≤ r.2) ↔ negated = false

/-- text を token の列に沿って分けられる。 -/
def Splits : List GlobToken → Bytes → Prop
  | [], text => text = []
  | .star :: p, text => ∃ rest, rest <:+ text ∧ Splits p rest
  | token :: p, text => ∃ byte rest, text = byte :: rest ∧ token.Takes byte ∧ Splits p rest

variable {token : GlobToken} {byte : UInt8} {p q mid : List GlobToken} {text u : Bytes}
  {m : Nat} {s s' : GlobState}

theorem matches_iff : token.matches byte = true ↔ token.Takes byte := by
  cases token with
  | byteClass negated ranges => cases negated <;> simp [GlobToken.matches, GlobToken.Takes]
  | literal expected => exact beq_iff_eq.trans eq_comm
  | _ => simp [GlobToken.matches, GlobToken.Takes]

theorem splits_cons (h : token ≠ .star) : Splits (token :: p) text ↔
    ∃ byte rest, text = byte :: rest ∧ token.Takes byte ∧ Splits p rest := by
  cases token with
  | star => exact absurd rfl h
  | _ => rfl

theorem splits_star : Splits (.star :: p) text ↔
    Splits p text ∨ ∃ byte u, text = byte :: u ∧ Splits (.star :: p) u := by
  cases text with
  | nil => simp [Splits]
  | cons byte u => simp [Splits, suffix_cons_iff, or_and_right, exists_or]

theorem splits_nil : Splits p [] ↔ (p.dropWhile (· = .star)).isEmpty = true := by
  induction p with
  | nil => simp [Splits]
  | cons token p ih =>
    by_cases h : token = .star
    · subst h
      simpa [Splits] using ih
    · simp [splits_cons h, h]

theorem Splits.drop (hmid : .star ∉ mid) (h : Splits (mid ++ p) text) :
    Splits p (text.drop mid.length) := by
  induction mid generalizing text with
  | nil => exact h
  | cons token mid ih =>
    rw [mem_cons, not_or] at hmid
    obtain ⟨byte, rest, rfl, -, h⟩ := (splits_cons (Ne.symm hmid.1)).mp h
    exact ih hmid.2 h

/-! ## loop の不変条件 -/

namespace GlobState

/-- 最後の star の後の token は、star を挟まずに一つずつ text と合っている。 -/
structure Inv (m : Nat) (s : GlobState) : Prop where
  pattern : s.pattern.length ≤ m
  star : ∀ q u, s.star = some (q, u) → q.length ≤ m ∧
    ∃ mid, q = mid ++ s.pattern ∧ .star ∉ mid ∧ s.text = u.drop mid.length

/-- 最後の star を今より長くとって分けられる。 -/
def Retries (s : GlobState) : Prop :=
  ∃ q byte u, s.star = some (q, byte :: u) ∧ Splits (.star :: q) u

def Accepts (s : GlobState) : Prop := Splits s.pattern s.text ∨ s.Retries

def measure (m : Nat) (s : GlobState) : Nat :=
  (s.star.elim s.text Prod.snd).length * (m + 1) + s.pattern.length

/-- 貪欲な照合は失わない。長くとって分けられるなら、今の位置から先でも分けられる。 -/
theorem Inv.retries (h : Inv m s) (hr : s.Retries) : Splits (.star :: s.pattern) s.text := by
  obtain ⟨q, byte, u, hs, v, hv, hsplit⟩ := hr
  obtain ⟨-, mid, rfl, hmid, htext⟩ := h.star _ _ hs
  refine ⟨v.drop mid.length, ?_, hsplit.drop hmid⟩
  have hle := hv.length_le
  rw [htext]
  exact suffix_of_suffix_length_le
    ((drop_suffix _ v).trans (hv.trans (suffix_cons byte u))) (drop_suffix _ _)
    (by simp; omega)

theorem Inv.accepts_nil (h : Inv m s) (ht : s.text = []) : s.Accepts ↔ Splits s.pattern [] := by
  rw [Accepts, ht]
  refine or_iff_left_of_imp fun hr => ?_
  obtain ⟨rest, hrest, hsplit⟩ := h.retries hr
  rw [ht, suffix_nil] at hrest
  rwa [hrest] at hsplit

theorem accepts_restart : Accepts ⟨p, text, some (p, text)⟩ ↔ Splits (.star :: p) text := by
  rw [splits_star]
  refine or_congr_right ⟨?_, ?_⟩
  · rintro ⟨q, byte, u, ⟨⟩, h⟩
    exact ⟨byte, u, rfl, h⟩
  · rintro ⟨byte, u, rfl, h⟩
    exact ⟨p, byte, u, rfl, h⟩

theorem inv_restart (hp : p.length ≤ m) : Inv m ⟨p, text, some (p, text)⟩ := by
  refine ⟨hp, ?_⟩
  rintro q u ⟨⟩
  exact ⟨hp, [], rfl, by simp, rfl⟩

theorem Inv.text_le (h : Inv m s) : s.text.length ≤ (s.star.elim s.text Prod.snd).length := by
  cases hs : s.star with
  | none => exact le_rfl
  | some r =>
    obtain ⟨-, mid, -, -, htext⟩ := h.star r.1 r.2 hs
    simp [htext]

/-- 一回の繰り返しが保つもの。 -/
def Steps (m : Nat) (s s' : GlobState) : Prop :=
  Inv m s' ∧ (s'.Accepts ↔ s.Accepts) ∧ s'.measure m < s.measure m

theorem steps_star {star} (h : Inv m ⟨.star :: p, text, star⟩) :
    Steps m ⟨.star :: p, text, star⟩ ⟨p, text, some (p, text)⟩ := by
  have hp := h.pattern
  rw [length_cons] at hp
  refine ⟨inv_restart (Nat.le_of_succ_le hp), ?_, ?_⟩
  · rw [accepts_restart]
    refine (or_iff_left_of_imp fun hr => ?_).symm
    obtain ⟨r, hr, rest, hrest, hsplit⟩ := h.retries hr
    exact ⟨rest, hrest.trans hr, hsplit⟩
  · have := Nat.mul_le_mul_right (m + 1) h.text_le
    simp only [measure, Option.elim, length_cons] at this ⊢
    omega

theorem steps_match {star} (h : Inv m ⟨token :: p, byte :: text, star⟩)
    (hm : token.matches byte = true) :
    Steps m ⟨token :: p, byte :: text, star⟩ ⟨p, text, star⟩ := by
  have hstar : token ≠ .star := by
    rintro rfl
    cases hm
  refine ⟨⟨Nat.le_of_succ_le h.pattern, fun q u hs => ?_⟩, or_congr_left ?_, ?_⟩
  · obtain ⟨hq, mid, rfl, hmid, htext⟩ := h.star q u hs
    refine ⟨hq, mid ++ [token], by simp, by simp [hmid, hstar.symm], ?_⟩
    rw [length_append, length_singleton, ← tail_drop, ← htext]
    rfl
  · simp [splits_cons hstar, matches_iff.mp hm]
  · cases star <;> simp [measure, Nat.add_mul]; omega

theorem not_splits (ht : text ≠ []) (hstar : ∀ q, p ≠ .star :: q)
    (hm : matchesHead p text = false) : ¬ Splits p text := by
  cases p with
  | nil => exact ht
  | cons token p =>
    rw [splits_cons fun h => hstar p (h ▸ rfl)]
    rintro ⟨byte, rest, rfl, htakes, -⟩
    rw [matchesHead, matches_iff.mpr htakes] at hm
    cases hm

theorem steps_retry (h : Inv m ⟨p, text, some (q, u)⟩) (ht : text ≠ []) (hfail : ¬ Splits p text) :
    Steps m ⟨p, text, some (q, u)⟩ ⟨q, u.tail, some (q, u.tail)⟩ := by
  obtain ⟨hq, mid, -, -, htext⟩ := h.star q u rfl
  cases u with
  | nil => exact absurd (htext.trans drop_nil) ht
  | cons byte u =>
    refine ⟨inv_restart hq, ?_, ?_⟩
    · rw [tail_cons, accepts_restart]
      refine ⟨fun hsplit => .inr ⟨q, byte, u, rfl, hsplit⟩, ?_⟩
      rintro (hsplit | ⟨_, _, _, ⟨⟩, hsplit⟩)
      · exact absurd hsplit hfail
      · exact hsplit
    · simp only [measure, Option.elim, tail_cons, length_cons, Nat.add_mul]
      omega

theorem step_spec (h : Inv m s) (ht : s.text ≠ []) :
    (s.step = none ∧ ¬ s.Accepts) ∨ ∃ s', s.step = some s' ∧ Steps m s s' := by
  unfold step
  split
  · exact .inr ⟨_, rfl, steps_star h⟩
  · next p text star hstar =>
    split
    · next hm =>
      match p, text with
      | token :: p, byte :: text => exact .inr ⟨_, rfl, steps_match h hm⟩
    · next hm =>
      have hfail := not_splits ht hstar (Bool.eq_false_iff.mpr hm)
      cases star with
      | none => exact .inl ⟨rfl, not_or.mpr ⟨hfail, nofun⟩⟩
      | some r => exact .inr ⟨_, rfl, steps_retry h ht hfail⟩

theorem loop_spec {fuel : Nat} (h : Inv m s) (hfuel : s.measure m ≤ fuel) :
    ∃ result, loop fuel s = some result ∧ (result = true ↔ s.Accepts) := by
  induction fuel generalizing s with
  | zero =>
    rw [loop]
    split
    · next ht => exact ⟨_, rfl, by rw [← splits_nil, h.accepts_nil ht]⟩
    · next ht =>
      have := Nat.mul_le_mul_right (m + 1) (h.text_le.trans' (length_pos_of_ne_nil ht))
      unfold measure at hfuel
      omega
  | succ fuel ih =>
    rw [loop]
    split
    · next ht => exact ⟨_, rfl, by rw [← splits_nil, h.accepts_nil ht]⟩
    · next ht =>
      rcases step_spec h ht with ⟨hstep, hno⟩ | ⟨s', hstep, hinv, haccepts, hlt⟩
      · exact ⟨false, by rw [hstep], by simpa using hno⟩
      · obtain ⟨result, hloop, hresult⟩ := ih hinv (by omega)
        exact ⟨result, by rw [hstep]; exact hloop, hresult.trans haccepts⟩

end GlobState

/--
**glob の照合の正しさ。** loop は `(token の数 + 1) * (text の長さ + 1)` 回以内に終わり、text を token の列に
沿って分けられるとき、またそのときに限り true を返す。
-/
theorem globMatch_correct (pattern text : Bytes) : let tokens := parseGlob [] pattern
    ∃ result, GlobState.loop ((tokens.length + 1) * (text.length + 1)) ⟨tokens, text, none⟩ =
      some result ∧ (result = true ↔ Splits tokens text) := by
  intro tokens
  have hinv : GlobState.Inv tokens.length ⟨tokens, text, none⟩ := ⟨le_rfl, nofun⟩
  obtain ⟨result, hloop, hresult⟩ := GlobState.loop_spec hinv
    (show text.length * (tokens.length + 1) + tokens.length ≤
      (tokens.length + 1) * (text.length + 1) by rw [Nat.mul_comm, Nat.mul_succ]; omega)
  exact ⟨result, hloop, hresult.trans (or_iff_left nofun)⟩

end Onedis.Network
