import Onedis.Infra.Bytes

/-!
# byte 列の読み手

読み手が値と残りを返すのはどんな入力か（`*_eq_some`）を、読み手の組み立てに沿って言う。
-/

namespace Onedis.Infra

/-! ## 読み手 -/

abbrev Reader (α : Type) := StateT Bytes Option α

namespace Reader

variable {α β σ ι : Type}

/-- ちょうど `n` byte を読む。 -/
def take (n : Nat) : Reader Bytes := fun bs =>
  if n ≤ bs.length then some (bs.take n, bs.drop n) else none

/-- `w` byte の big-endian を読む。 -/
def be (w : Nat) : Reader Nat := do return ofBe (← take w)

def u64 : Reader UInt64 := do return UInt64.ofNat (← be 8)

/-- 長さを `w` byte で前置した列を読む。 -/
def lengthPrefixed (w : Nat) : Reader Bytes := do take (← be w)

def require (c : Bool) : Reader Unit := fun bs => if c then some ((), bs) else none

def ofOption (o : Option α) : Reader α := fun bs => o.map (·, bs)

/-- 状態を受け渡しながら `n` 回読む。 -/
def iterate (step : σ → Reader σ) : Nat → σ → Reader σ
  | 0, s => pure s
  | n + 1, s => do iterate step n (← step s)

def parseAll (p : Reader α) (bs : Bytes) : Option α :=
  match p bs with
  | some (a, []) => some a
  | _ => none

/-- `p` は `bs` を先頭に持つ入力から `a` を読み、`bs` だけを消費する。 -/
def Reads (p : Reader α) (bs : Bytes) (a : α) : Prop := ∀ rest, p (bs ++ rest) = some (a, rest)

theorem Reads.parseAll {p : Reader α} {bs : Bytes} {a : α} (h : Reads p bs a) :
    Reader.parseAll p bs = some a := by
  have hread := h []
  rw [List.append_nil] at hread
  rw [Reader.parseAll, hread]

/-! ## 読めた入力 -/

variable {bs rest : Bytes}

@[simp] theorem bind_eq_some {p : Reader α} {f : α → Reader β} {b : β} :
    (p >>= f) bs = some (b, rest) ↔
      ∃ a mid, p bs = some (a, mid) ∧ f a mid = some (b, rest) := by
  show (p bs).bind (fun r => f r.1 r.2) = _ ↔ _
  rw [Option.bind_eq_some_iff, Prod.exists]

@[simp] theorem pure_eq_some {a b : α} :
    (pure a : Reader α) bs = some (b, rest) ↔ a = b ∧ bs = rest := by
  show some (a, bs) = _ ↔ _
  rw [Option.some_inj, Prod.mk.injEq]

@[simp] theorem require_eq_some {c : Bool} {u : Unit} :
    require c bs = some (u, rest) ↔ c = true ∧ bs = rest := by
  simp [require]

@[simp] theorem ofOption_eq_some {o : Option α} {a : α} :
    ofOption o bs = some (a, rest) ↔ o = some a ∧ bs = rest := by
  cases o <;> simp [ofOption]

@[simp] theorem take_eq_some {n : Nat} {a : Bytes} :
    take n bs = some (a, rest) ↔ bs = a ++ rest ∧ a.length = n := by
  unfold take
  constructor
  · intro h
    obtain ⟨hle, h⟩ := Option.ite_none_right_eq_some.mp h
    cases h
    exact ⟨(List.take_append_drop n bs).symm, List.length_take_of_le hle⟩
  · rintro ⟨rfl, rfl⟩
    simp

@[simp] theorem be_eq_some {w n : Nat} :
    be w bs = some (n, rest) ↔ bs = toBe w n ++ rest ∧ n < 256 ^ w := by
  simp only [be, bind_eq_some, take_eq_some, pure_eq_some]
  constructor
  · rintro ⟨a, mid, ⟨rfl, rfl⟩, rfl, rfl⟩
    exact ⟨by rw [toBe_ofBe], ofBe_lt a⟩
  · rintro ⟨rfl, h⟩
    exact ⟨_, _, ⟨rfl, length_toBe w n⟩, ofBe_toBe h, rfl⟩

@[simp] theorem u64_eq_some {n : UInt64} :
    u64 bs = some (n, rest) ↔ bs = toBe 8 n.toNat ++ rest := by
  simp only [u64, bind_eq_some, be_eq_some, pure_eq_some]
  constructor
  · rintro ⟨a, mid, ⟨rfl, ha⟩, rfl, rfl⟩
    rw [UInt64.toNat_ofNat_of_lt' ha]
  · rintro rfl
    exact ⟨_, _, ⟨rfl, n.toNat_lt⟩, UInt64.ofNat_toNat, rfl⟩

@[simp] theorem lengthPrefixed_eq_some {w : Nat} {a : Bytes} :
    lengthPrefixed w bs = some (a, rest) ↔
      bs = toBe w a.length ++ (a ++ rest) ∧ a.length < 256 ^ w := by
  simp [lengthPrefixed]

theorem parseAll_eq_some {p : Reader α} {a : α} :
    parseAll p bs = some a ↔ p bs = some (a, []) := by
  unfold parseAll
  split <;> simp_all

/-- 項目を順に受け取り、状態を `R` に沿って動かす。 -/
def Steps (R : σ → ι → σ → Prop) : List ι → σ → σ → Prop
  | [], s, s' => s = s'
  | x :: xs, s, s' => ∃ t, R s x t ∧ Steps R xs t s'

/-- `step` が読むのは、ちょうど `encode` で書かれた項目で、状態は `R` に沿って動く。 -/
def Parses (step : σ → Reader σ) (encode : ι → Bytes) (R : σ → ι → σ → Prop) : Prop :=
  ∀ s bs s' rest, step s bs = some (s', rest) ↔ ∃ x, bs = encode x ++ rest ∧ R s x s'

/-- 繰り返しの規則。 -/
theorem iterate_eq_some {step : σ → Reader σ} {encode : ι → Bytes} {R : σ → ι → σ → Prop}
    (h : Parses step encode R) {n : Nat} {s s' : σ} : iterate step n s bs = some (s', rest) ↔
      ∃ xs : List ι, xs.length = n ∧ bs = xs.flatMap encode ++ rest ∧ Steps R xs s s' := by
  induction n generalizing s bs with
  | zero =>
    simp only [iterate, pure_eq_some, List.length_eq_zero_iff, exists_eq_left]
    exact and_comm
  | succ n ih =>
    simp only [iterate, bind_eq_some, h _ _ _ _, ih]
    constructor
    · rintro ⟨t, mid, ⟨x, rfl, hx⟩, xs, rfl, rfl, hxs⟩
      exact ⟨x :: xs, rfl, by simp, t, hx, hxs⟩
    · rintro ⟨xs, hn, rfl, hxs⟩
      obtain ⟨x, xs, rfl⟩ := List.exists_cons_of_length_eq_add_one hn
      obtain ⟨t, hx, hxs⟩ := hxs
      exact ⟨t, _, ⟨x, by simp, hx⟩, xs, Nat.succ.inj hn, rfl, hxs⟩

end Reader

/-! ## 整列した写像 -/

section SortedMap

variable {V : Type}

/-- key の順に並んだ列への挿入。同じ key があれば `none`。 -/
def insertNew (k : Bytes) (v : V) : List (Bytes × V) → Option (List (Bytes × V))
  | [] => some [(k, v)]
  | entry :: rest =>
    if bytesLt k entry.1 then some ((k, v) :: entry :: rest)
    else if k = entry.1 then none
    else (insertNew k v rest).map (entry :: ·)

theorem insertNew_of_last {k : Bytes} {v : V} {m : List (Bytes × V)}
    (h : ∀ entry ∈ m, bytesLt entry.1 k = true) : insertNew k v m = some (m ++ [(k, v)]) := by
  induction m with
  | nil => rfl
  | cons entry m ih =>
    have hlt := h entry (List.mem_cons_self ..)
    have hne : k ≠ entry.1 := by
      rintro rfl
      rw [bytesLt_irrefl] at hlt
      cases hlt
    rw [insertNew, bytesLt_asymm hlt, if_neg Bool.false_ne_true, if_neg hne,
      ih fun other hother => h other (List.mem_cons_of_mem _ hother)]
    rfl

end SortedMap

end Onedis.Infra
