import Mathlib.Algebra.BigOperators.Group.Multiset.Basic
import Onedis.Infra.Pipeline
import Onedis.Store.ValueCodec

/-!
# 復号した record で見る一つの key

collection の command が読み書きする main record と sub record を、decoder が返す形で持つ。

`view` は読み手から見える中身で、期限の来た key は無いものとする。layout の違いはここで消える。
-/

namespace Onedis.Store

open Infra Function

/-! ## record -/

def expireDue (now expireMs : Nat) : Bool := expireMs != 0 && decide (expireMs ≤ now)

@[simp] theorem expireDue_zero (now : Nat) : expireDue now 0 = false := rfl

theorem expireDue_mono {now now' e : Nat} (hle : now ≤ now') (h : expireDue now' e = false) :
    expireDue now e = false := by
  unfold expireDue at h ⊢
  rw [Bool.and_eq_false_iff] at h ⊢
  refine h.imp_right fun h => ?_
  rw [decide_eq_false_iff_not] at h ⊢
  omega

/-- main record。`packed` は中身を詰めたもの、`split` は version を持つもの、`foreign` は別の型。 -/
inductive MainRecord (P M : Type)
  | packed (expireMs : Nat) (body : P)
  | split (expireMs ver : Nat) (info : M)
  | foreign (expireMs : Nat) (raw : Bytes)
  deriving DecidableEq

namespace MainRecord

variable {P M : Type}

def expireMs : MainRecord P M → Nat
  | packed e _ => e
  | split e _ _ => e
  | foreign e _ => e

end MainRecord

/-- 一つの key の main record と、version ごとの sub record。 -/
structure KeyRecords (P M I : Type) where
  main : Option (MainRecord P M)
  items : Nat → I

/-- 読み手から見える中身。`foreign` は別の型の key である。 -/
inductive Visible (V : Type)
  | missing
  | foreign (expireMs : Nat) (raw : Bytes)
  | value (expireMs : Nat) (content : V)
  deriving DecidableEq

/-- 期限と中身に分ける。key がなければ中身は `empty` で、別の型なら `none`。 -/
def Visible.parts {V : Type} (empty : V) : Visible V → Option (Nat × V)
  | foreign _ _ => none
  | missing => some (0, empty)
  | value e content => some (e, content)

theorem Visible.parts_eq_none {V : Type} {empty : V} {v : Visible V} :
    v.parts empty = none ↔ ∃ e raw, v = .foreign e raw := by
  cases v <;> simp [parts]

/-- 時刻 `now` までに期限の来たものは見えなくなる。 -/
def Visible.upTo {V : Type} (now : Nat) : Visible V → Visible V
  | missing => missing
  | foreign e raw => if expireDue now e then missing else foreign e raw
  | value e content => if expireDue now e then missing else value e content

theorem Visible.upTo_eq {V : Type} (now : Nat) (v : Visible V) :
    v.upTo now = .missing ∨ v.upTo now = v := by
  cases v with
  | missing => exact .inl rfl
  | foreign e raw | value e content => exact (ite_eq_or_eq (expireDue now e = true) _ _)

/-- 二つの layout の record から中身を読む。 -/
structure Layout (P M I V : Type) where
  packed : P → V
  split : M → I → V

namespace KeyRecords

variable {P M I V : Type}

def live (now : Nat) (recs : KeyRecords P M I) : Option (MainRecord P M) :=
  recs.main.filter fun record => !expireDue now record.expireMs

def view (layout : Layout P M I V) (now : Nat) (recs : KeyRecords P M I) : Visible V :=
  match recs.live now with
  | none => .missing
  | some (.packed e body) => .value e (layout.packed body)
  | some (.split e ver info) => .value e (layout.split info (recs.items ver))
  | some (.foreign e raw) => .foreign e raw

def setMain (recs : KeyRecords P M I) (record : Option (MainRecord P M)) : KeyRecords P M I :=
  { recs with main := record }

def setItems (recs : KeyRecords P M I) (ver : Nat) (items : I) : KeyRecords P M I :=
  { recs with items := update recs.items ver items }

variable (recs : KeyRecords P M I)

@[simp] theorem setMain_main (record : Option (MainRecord P M)) :
    (recs.setMain record).main = record := rfl

@[simp] theorem setMain_items (record : Option (MainRecord P M)) :
    (recs.setMain record).items = recs.items := rfl

@[simp] theorem setItems_items_self (ver : Nat) (items : I) :
    (recs.setItems ver items).items ver = items := update_self ..

theorem setItems_items_of_ne {ver v : Nat} (h : v ≠ ver) (recs : KeyRecords P M I)
    (items : I) : (recs.setItems ver items).items v = recs.items v :=
  update_of_ne h ..

variable {recs : KeyRecords P M I} {record : MainRecord P M} {now : Nat}

theorem live_eq_some : recs.live now = some record ↔
    recs.main = some record ∧ expireDue now record.expireMs = false := by
  rw [live, Option.filter_eq_some_iff, Bool.not_eq_eq_eq_not, Bool.not_true]

theorem live_of_main (h : recs.main = some record) (hdue : expireDue now record.expireMs = false) :
    recs.live now = some record := live_eq_some.mpr ⟨h, hdue⟩

theorem live_eq_none_of_main (h : recs.main = none) : recs.live now = none := by
  rw [live, h]
  rfl

/-! main record から見える中身。 -/

section

variable {layout : Layout P M I V} {now : Nat} {recs : KeyRecords P M I}

theorem view_missing (h : recs.main = none) : recs.view layout now = .missing := by
  rw [view, live_eq_none_of_main h]

theorem view_due (h : recs.main = some record) (hdue : expireDue now record.expireMs = true) :
    recs.view layout now = .missing := by
  have hlive : recs.live now = none := by
    rw [live, h]
    simp [Option.filter, hdue]
  rw [view, hlive]

theorem view_packed {e : Nat} {body : P} (h : recs.main = some (.packed e body))
    (hdue : expireDue now e = false) : recs.view layout now = .value e (layout.packed body) := by
  rw [view, live_of_main h hdue]

theorem view_split {e ver : Nat} {info : M} (h : recs.main = some (.split e ver info))
    (hdue : expireDue now e = false) :
    recs.view layout now = .value e (layout.split info (recs.items ver)) := by
  rw [view, live_of_main h hdue]

theorem view_setSplit {e : Nat} (hdue : expireDue now e = false) (ver : Nat) (info : M)
    (items : I) :
    ((recs.setItems ver items).setMain (some (.split e ver info))).view layout now =
      .value e (layout.split info items) := by
  rw [view_split (setMain_main ..) hdue, setMain_items, setItems_items_self]

theorem view_foreign {e : Nat} {raw : Bytes} (h : recs.main = some (.foreign e raw))
    (hdue : expireDue now e = false) : recs.view layout now = .foreign e raw := by
  rw [view, live_of_main h hdue]

theorem view_upTo {now' : Nat} (hle : now ≤ now') :
    recs.view layout now' = (recs.view layout now).upTo now' := by
  have hlive : recs.live now' =
      (recs.live now).filter fun record => !expireDue now' record.expireMs := by
    cases hmain : recs.main with
    | none => simp [live, hmain]
    | some record =>
      cases hdue' : expireDue now' record.expireMs with
      | false => simp [live, hmain, hdue', expireDue_mono hle hdue', Option.filter]
      | true => cases hdue : expireDue now record.expireMs <;>
          simp [live, hmain, hdue', hdue, Option.filter]
  rw [view, view, hlive]
  cases recs.live now with
  | none => rfl
  | some record =>
    cases hdue' : expireDue now' record.expireMs <;> cases record <;>
      simp_all [Option.filter, Visible.upTo, MainRecord.expireMs]

end

def Unexpired (now : Nat) (recs : KeyRecords P M I) : Prop :=
  ∀ record, recs.main = some record → expireDue now record.expireMs = false

theorem Unexpired.live_eq (h : recs.Unexpired now) : recs.live now = recs.main := by
  cases hmain : recs.main with
  | none => exact live_eq_none_of_main hmain
  | some record => exact live_of_main hmain (h record hmain)

variable [EmptyCollection I]

def delete (recs : KeyRecords P M I) : KeyRecords P M I :=
  match recs.main with
  | some (.split _ ver _) => (recs.setItems ver ∅).setMain none
  | _ => recs.setMain none

/-- `expire_if_needed`。期限の来た record を消す。 -/
def expireIfNeeded (now : Nat) (recs : KeyRecords P M I) : KeyRecords P M I :=
  match recs.main with
  | some record => if expireDue now record.expireMs then recs.delete else recs
  | none => recs

@[simp] theorem delete_main (recs : KeyRecords P M I) : recs.delete.main = none := by
  unfold delete
  split <;> rfl

theorem expireIfNeeded_main (now : Nat) (recs : KeyRecords P M I) :
    (recs.expireIfNeeded now).main = recs.live now := by
  unfold expireIfNeeded live
  cases hmain : recs.main with
  | none => exact hmain
  | some record =>
    simp only [Option.filter]
    by_cases hdue : expireDue now record.expireMs
    · simp [hdue]
    · simp [hdue, hmain]

theorem unexpired_expireIfNeeded (now : Nat) (recs : KeyRecords P M I) :
    (recs.expireIfNeeded now).Unexpired now := by
  intro record h
  rw [expireIfNeeded_main] at h
  exact (live_eq_some.mp h).2

theorem expireIfNeeded_of_live (h : recs.live now = some record) :
    recs.expireIfNeeded now = recs := by
  obtain ⟨hmain, hdue⟩ := live_eq_some.mp h
  unfold expireIfNeeded
  rw [hmain]
  exact if_neg (by simp [hdue])

theorem Unexpired.expireIfNeeded (h : recs.Unexpired now) : recs.expireIfNeeded now = recs := by
  unfold KeyRecords.expireIfNeeded
  split
  · next record hmain => exact if_neg (by simp [h record hmain])
  · rfl

theorem view_expireIfNeeded (layout : Layout P M I V) (now : Nat) (recs : KeyRecords P M I) :
    (recs.expireIfNeeded now).view layout now = recs.view layout now := by
  cases hlive : recs.live now with
  | some record => rw [expireIfNeeded_of_live hlive]
  | none =>
    have hmain := (expireIfNeeded_main now recs).trans hlive
    simp [view, live_eq_none_of_main hmain, hlive]

/-! ## 新しい version -/

/-- `n` より後の version に sub record はなく、main record の version は `n` までである。 -/
structure Fresh (n : Nat) (recs : KeyRecords P M I) : Prop where
  version_le : ∀ {e ver info}, recs.main = some (.split e ver info) → ver ≤ n
  items_empty : ∀ {ver}, n < ver → recs.items ver = ∅

namespace Fresh

variable {n m : Nat} {recs : KeyRecords P M I}

variable (h : recs.Fresh n)
include h

theorem mono (hle : n ≤ m) : recs.Fresh m where
  version_le hmain := (h.version_le hmain).trans hle
  items_empty hlt := h.items_empty (hle.trans_lt hlt)

theorem setMain_none : (recs.setMain none).Fresh n where
  version_le hmain := by cases hmain
  items_empty hlt := h.items_empty hlt

theorem setMain_packed (e : Nat) (body : P) :
    (recs.setMain (some (.packed e body))).Fresh n where
  version_le hmain := by cases hmain
  items_empty hlt := h.items_empty hlt

theorem setItems {ver : Nat} (hle : ver ≤ n) (items : I) :
    (recs.setItems ver items).Fresh n where
  version_le hmain := h.version_le hmain
  items_empty hlt := by
    rw [setItems_items_of_ne (by omega)]
    exact h.items_empty hlt

theorem setMain_split {ver : Nat} (hle : ver ≤ n) (e : Nat) (info : M) :
    (recs.setMain (some (.split e ver info))).Fresh n where
  version_le hmain := by
    cases hmain
    exact hle
  items_empty hlt := h.items_empty hlt

theorem delete : recs.delete.Fresh n := by
  unfold KeyRecords.delete
  split
  · next hmain => exact (h.setItems (h.version_le hmain) ∅).setMain_none
  · exact h.setMain_none

theorem expireIfNeeded (now : Nat) : (recs.expireIfNeeded now).Fresh n := by
  unfold KeyRecords.expireIfNeeded
  split
  · split
    · exact h.delete
    · exact h
  · exact h

end Fresh

end KeyRecords

def batchVersion (counter : Nat) (keys : List Bytes) (key : Bytes) : Nat :=
  counter + 1 + keys.idxOf key

theorem batchVersion_mem (counter : Nat) {keys : List Bytes} {key : Bytes} (hkey : key ∈ keys) :
    counter < batchVersion counter keys key ∧
      batchVersion counter keys key ≤ counter + keys.length := by
  have := List.idxOf_lt_length_of_mem hkey
  unfold batchVersion
  omega

/-! ## 詰めた形の上限 -/

def packedFits {ι : Type} (maxItems maxBytes headerLen : Nat) (fits : ι → Bool) (size : ι → Nat)
    (items : Multiset ι) : Bool :=
  decide (items.card ≤ maxItems) && decide (∀ item ∈ items, fits item) &&
    decide (headerLen + (items.map size).sum ≤ maxBytes)

theorem packedFits_mono {ι : Type} {maxItems maxBytes headerLen : Nat} {fits : ι → Bool}
    {size : ι → Nat} {items items' : Multiset ι} (hle : items ≤ items')
    (h : packedFits maxItems maxBytes headerLen fits size items' = true) :
    packedFits maxItems maxBytes headerLen fits size items = true := by
  obtain ⟨rest, rfl⟩ := Multiset.le_iff_exists_add.mp hle
  simp only [packedFits, Bool.and_eq_true, decide_eq_true_eq, Multiset.card_add, Multiset.map_add,
    Multiset.sum_add] at h ⊢
  obtain ⟨⟨hcard, hfits⟩, hsum⟩ := h
  refine ⟨⟨by omega, fun item hitem => hfits item (Multiset.mem_add.mpr (.inl hitem))⟩, by omega⟩

end Onedis.Store
