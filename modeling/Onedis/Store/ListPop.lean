import Onedis.Infra.TwoEnds
import Onedis.Store.ListPush

/-!
# まとめて実行する LPOP / RPOP

`list_pop_many_batch_async` は、key を一度だけ読み、取り出す番地を命令ごとに決め、最後に一度だけ消す。

* `listPopBatch_spec` — まとめた実行は、命令を一つずつ当てたものに等しい
-/

namespace Onedis.Store

open Infra KeyRecords ListStore List
open Codec (wrongTypeError)

/-! ## 命令 -/

/-- pipeline の一つの LPOP か RPOP。 -/
structure ListPop where
  key : Bytes
  left : Bool
  count : Nat
  deriving DecidableEq

def ofItems (expireMs : Nat) (items : List Bytes) : Visible (List Bytes) :=
  if items = [] then .missing else .value expireMs items

@[simp] theorem ofItems_nil (expireMs : Nat) : ofItems expireMs [] = .missing := if_pos rfl

theorem ofItems_of_ne {items : List Bytes} (h : items ≠ []) (expireMs : Nat) :
    ofItems expireMs items = .value expireMs items := if_neg h

def listPopSpec (c : ListPop) :
    Visible (List Bytes) → Except String (List Bytes) × Visible (List Bytes)
  | .foreign e raw => (.error wrongTypeError, .foreign e raw)
  | .missing => (.ok [], .missing)
  | .value e items =>
    (.ok (popEnd c.left c.count items).1, ofItems e (popEnd c.left c.count items).2)

theorem listPopSpec_ofItems (c : ListPop) (e : Nat) (items : List Bytes) :
    listPopSpec c (ofItems e items) =
      (.ok (popEnd c.left c.count items).1, ofItems e (popEnd c.left c.count items).2) := by
  by_cases h : items = []
  · subst h
    rw [ofItems_nil, popEnd_nil, ofItems_nil]
    rfl
  · rw [ofItems_of_ne h]
    rfl

/-! ## 詰めた形のままの実行 -/

/-- 詰めた list の途中の状態。 -/
structure PackedPop where
  expireMs : Nat
  items : List Bytes
  dirty : Bool

namespace PackedPop

def load : Option ListMain → Except String PackedPop
  | none => .ok ⟨0, [], false⟩
  | some (.packed e items) => .ok ⟨e, items, false⟩
  | some (.foreign _ _) => .error wrongTypeError
  | some (.split _ _ _) => .error listDecodeError

def step (c : ListPop) :
    Except String PackedPop → Except String (List Bytes) × Except String PackedPop
  | .error msg => (.error msg, .error msg)
  | .ok st =>
    let out := popEnd c.left c.count st.items
    (.ok out.1, .ok ⟨st.expireMs, out.2, st.dirty || !out.1.isEmpty⟩)

def isDirty : Except String PackedPop → Bool
  | .ok st => st.dirty
  | .error _ => false

def write (recs : ListRecords) : Except String PackedPop → ListRecords
  | .error _ => recs
  | .ok st =>
    if st.items.isEmpty then recs.setMain none
    else recs.setMain (some (.packed st.expireMs st.items))

end PackedPop

open ListPop

/-- `try_list_pop_batch_packed_async`。分けた list があれば `none`。 -/
def tryPackedPop (now : Nat) (cmds : List ListPop) (s : ListStore) :
    Option (List (Except String (List Bytes))) × ListStore :=
  let keys := (cmds.map key).dedup
  let s := keys.foldl (expire now) s
  if keys.any fun key => isSplit (s.slots key).main then (none, s)
  else
    let out := runKeyed key PackedPop.step
      (fun key => PackedPop.load (s.slots key).main) cmds
    (some out.1, s.settle s.counter (keys.filter fun key => PackedPop.isDirty (out.2 key))
      (fun key => PackedPop.write (s.slots key) (out.2 key)) false)

/-! ## 分けた形での実行 -/

/-- `ListPopBatchState`。残っている区間 `[head, tail)` と、最初の区間。 -/
structure ListPopState where
  expireMs : Nat
  version : Nat
  head : Int
  tail : Int
  initialHead : Int
  initialTail : Int
  touched : Bool

/-- 一つの命令が取り出す番地。`reverse` のときは後ろから順に返す。 -/
structure ListPopPlan where
  start : Int
  count : Nat
  reverse : Bool

def ListPopPlan.indices (plan : ListPopPlan) : List Int :=
  (range plan.count).map fun offset =>
    plan.start + ((if plan.reverse then plan.count - 1 - offset else offset : Nat) : Int)

/-- 番地の値を順に抜き取る。`filter_map` なので、なければ飛ばす。 -/
def takeAt : Slots Bytes → List Int → List Bytes × Slots Bytes
  | values, [] => ([], values)
  | values, i :: rest =>
    let out := takeAt (values.remove i) rest
    match values.get i with
    | some value => (value :: out.1, out.2)
    | none => out

namespace ListPopState

/-- `ListPopBatchState::from_raw` -/
def fromRaw : Option ListMain → Except String ListPopState
  | none => .ok ⟨0, 0, 0, 0, 0, 0, false⟩
  | some record =>
    match listMetaOf record with
    | some m => .ok ⟨m.expireMs, m.version, m.head, m.tail, m.head, m.tail, false⟩
    | none => .error wrongTypeError

def plan (c : ListPop) :
    Except String ListPopState → Except String ListPopPlan × Except String ListPopState
  | .error msg => (.error msg, .error msg)
  | .ok st =>
    if c.count = 0 ∨ st.tail ≤ st.head then (.ok ⟨st.head, 0, false⟩, .ok st)
    else
      let n := min c.count (st.tail - st.head).toNat
      if c.left then (.ok ⟨st.head, n, false⟩, .ok { st with head := st.head + n, touched := true })
      else (.ok ⟨st.tail - n, n, true⟩, .ok { st with tail := st.tail - n, touched := true })

def popped (recs : ListRecords) : Except String ListPopState → Slots Bytes
  | .error _ => ∅
  | .ok st =>
    let left := if st.initialHead < st.head then
      listRangeValues recs st.version st.initialHead (st.head - 1) else []
    let right := if st.tail < st.initialTail then
      listRangeValues recs st.version st.tail (st.initialTail - 1) else []
    ⟨fun i =>
      if st.initialHead ≤ i ∧ i < st.initialHead + left.length then
        (spread st.initialHead left).get i
      else (spread st.tail right).get i⟩

def take (plan : Bytes × Except String ListPopPlan) (values : Slots Bytes) :
    Except String (List Bytes) × Slots Bytes :=
  match plan.2 with
  | .error msg => (.error msg, values)
  | .ok plan =>
    let out := takeAt values plan.indices
    (.ok out.1, out.2)

def isTouched : Except String ListPopState → Bool
  | .ok st => st.touched
  | .error _ => false

def write (recs : ListRecords) : Except String ListPopState → ListRecords
  | .error _ => recs
  | .ok st =>
    let m : ListMeta := ⟨st.expireMs, st.version, st.head, st.tail⟩
    let items := deleteListRange (deleteListRange (recs.items st.version) st.initialHead st.head)
      (max st.tail st.head) st.initialTail
    if st.tail ≤ st.head then dropListMeta recs m items else putListMeta recs m items

def metaOf : Except String ListPopState → Option ListMeta
  | .ok st => if st.tail ≤ st.head then none else some ⟨st.expireMs, st.version, st.head, st.tail⟩
  | .error _ => none

end ListPopState

/-- `list_pop_many_batch_async` -/
def listPopBatch (now : Nat) (cmds : List ListPop) (s : ListStore) :
    List (Except String (List Bytes)) × ListStore :=
  match tryPackedPop now cmds s with
  | (some replies, s) => (replies, s)
  | (none, s) =>
    let keys := (cmds.map key).dedup
    let s := keys.foldl (expire now) (keys.foldl promote s)
    let planned := runKeyed key ListPopState.plan
      (fun key => ListPopState.fromRaw (s.slots key).main) cmds
    let replies := runKeyed Prod.fst ListPopState.take
      (fun key => ListPopState.popped (s.slots key) (planned.2 key))
      ((cmds.map key).zip planned.1)
    let dirty := keys.filter fun key => ListPopState.isTouched (planned.2 key)
    (replies.1, (s.settle s.counter dirty
      (fun key => ListPopState.write (s.slots key) (planned.2 key)) true).recache dirty
        fun key => ListPopState.metaOf (planned.2 key))

/-! ## 詰めた形での正しさ -/

namespace PackedPop

variable {now : Nat} {v₀ v : Visible (List Bytes)}

inductive Shows (now : Nat) (v₀ : Visible (List Bytes)) :
    Visible (List Bytes) → Except String PackedPop → Prop
  | foreign {e : Nat} {raw : Bytes} (hold : v₀ = .foreign e raw) :
      Shows now v₀ (.foreign e raw) (.error wrongTypeError)
  | value {e : Nat} {items : List Bytes} {dirty : Bool} (hdue : expireDue now e = false)
      (hfits : packedListFits items = true) (hclean : dirty = false → v₀ = ofItems e items) :
      Shows now v₀ (ofItems e items) (.ok ⟨e, items, dirty⟩)

theorem shows_load {n : Nat} {recs : ListRecords} (hok : ListOk n recs)
    (hdue : recs.Unexpired now) (hsplit : isSplit recs.main = false) :
    Shows now (recs.view listLayout now) (recs.view listLayout now) (load recs.main) := by
  rw [KeyRecords.view, hdue.live_eq]
  cases hmain : recs.main with
  | none =>
    rw [← ofItems_nil 0]
    exact .value rfl (by decide) fun _ => rfl
  | some record =>
    cases record with
    | packed e items =>
      obtain ⟨hne, hfits⟩ := hok.packed hmain
      show Shows now (.value e items) (.value e items) _
      rw [← ofItems_of_ne hne]
      exact .value (hdue _ hmain) hfits fun _ => rfl
    | foreign e raw => exact .foreign rfl
    | split e ver span =>
      rw [hmain] at hsplit
      cases hsplit

variable {st : Except String PackedPop}

theorem shows_step (h : Shows now v₀ v st) (c : ListPop) :
    (step c st).1 = (listPopSpec c v).1 ∧ Shows now v₀ (listPopSpec c v).2 (step c st).2 := by
  cases h with
  | foreign hold => exact ⟨rfl, .foreign hold⟩
  | @value e items dirty hdue hfits hclean =>
    rw [listPopSpec_ofItems]
    refine ⟨rfl, .value hdue (packedFits_mono
        (Multiset.coe_le.mpr (popEnd_rest_sublist ..).subperm) hfits) ?_⟩
    intro hdirty
    obtain ⟨hdirty, hnil⟩ := Bool.or_eq_false_iff.mp hdirty
    rw [popEnd_rest_of_nil (by simpa using hnil)]
    exact hclean hdirty

theorem Shows.eq_of_clean (h : Shows now v₀ v st) (hclean : isDirty st = false) : v = v₀ := by
  cases h with
  | foreign hold => exact hold.symm
  | value _ _ hkeep => exact (hkeep hclean).symm

theorem write_spec {n : Nat} {recs : ListRecords} (hshow : Shows now v₀ v st)
    (hdirty : isDirty st = true) (hfresh : recs.Fresh n) :
    (write recs st).view listLayout now = v ∧ ListOk n (write recs st) := by
  cases hshow with
  | foreign => cases hdirty
  | @value e items dirty hdue hfits hclean =>
    unfold write
    dsimp only
    split
    · next hempty =>
      rw [isEmpty_iff.mp hempty, ofItems_nil]
      exact ⟨view_missing rfl, ListOk.of_main_none hfresh.setMain_none rfl⟩
    · next hne =>
      have hne : items ≠ [] := fun h => hne (isEmpty_iff.mpr h)
      rw [ofItems_of_ne hne]
      exact ⟨view_packed (setMain_main ..) hdue,
        ListOk.setMain_packed hfresh e hne hfits⟩

end PackedPop

/-! ## 分けた形での正しさ -/

theorem takeAt_eq {indices : List Int} (h : indices.Nodup) (values : Slots Bytes) :
    (takeAt values indices).1 = indices.filterMap values.get ∧
      ∀ i ∉ indices, (takeAt values indices).2.get i = values.get i := by
  induction indices generalizing values with
  | nil => exact ⟨rfl, fun _ _ => rfl⟩
  | cons j rest ih =>
    obtain ⟨hj, hrest⟩ := nodup_cons.mp h
    obtain ⟨hread, hkeep⟩ := ih hrest (values.remove j)
    have hother : ∀ i, i ≠ j → (values.remove j).get i = values.get i := fun i hi =>
      Function.update_of_ne hi ..
    have hread' : (takeAt (values.remove j) rest).1 = rest.filterMap values.get := by
      rw [hread]
      exact filterMap_congr fun i hi => hother i fun heq => hj (heq ▸ hi)
    rw [takeAt]
    refine ⟨?_, fun i hi => ?_⟩
    · cases hvalue : values.get j with
      | none => rw [filterMap_cons_none hvalue, ← hread']
      | some value => rw [filterMap_cons_some hvalue, ← hread']
    · have hne : i ≠ j := fun heq => hi (heq ▸ mem_cons_self)
      have hnot : i ∉ rest := fun hmem => hi (mem_cons_of_mem _ hmem)
      have := (hkeep i hnot).trans (hother i hne)
      cases hvalue : values.get j with
      | none => exact this
      | some value => exact this

namespace ListPopPlan

theorem indices_eq (plan : ListPopPlan) : plan.indices =
    oriented (!plan.reverse) ((range plan.count).map fun n : Nat => plan.start + n) := by
  unfold indices
  cases plan.reverse with
  | false => rfl
  | true =>
    have hrev : (range plan.count).reverse =
        (range plan.count).map fun n => plan.count - 1 - n := by
      conv_lhs => rw [range_eq_range', reverse_range', Nat.zero_add]
    rw [Bool.not_true, oriented_false, ← map_reverse, hrev, map_map]
    rfl

theorem mem_indices {plan : ListPopPlan} {i : Int} :
    i ∈ plan.indices ↔ plan.start ≤ i ∧ i < plan.start + plan.count := by
  rw [indices_eq, mem_oriented, mem_map]
  constructor
  · rintro ⟨n, hn, rfl⟩
    rw [mem_range] at hn
    omega
  · intro h
    exact ⟨(i - plan.start).toNat, mem_range.mpr (by omega), by omega⟩

theorem nodup_indices (plan : ListPopPlan) : plan.indices.Nodup := by
  rw [indices_eq, nodup_oriented]
  refine nodup_range.map fun a b hab => ?_
  have : plan.start + (a : Int) = plan.start + b := hab
  omega

theorem filterMap_indices (plan : ListPopPlan) (values : Slots Bytes) :
    plan.indices.filterMap values.get =
      oriented (!plan.reverse) (values.scan plan.start (plan.start + plan.count)) := by
  rw [indices_eq, Slots.scan,
    show (plan.start + plan.count - plan.start).toNat = plan.count by omega]
  cases plan.reverse with
  | false => exact filterMap_map ..
  | true =>
    rw [Bool.not_true, oriented_false, oriented_false, filterMap_reverse]
    exact congrArg List.reverse (filterMap_map ..)

end ListPopPlan

namespace ListPopState

variable {now n : Nat} {items : Nat → Slots Bytes} {v₀ v : Visible (List Bytes)}

/-- 手元の状態が表す中身。最初の list は `pre ++ rest ++ post` で、`rest` が残っている。 -/
inductive Shows (now n : Nat) (items : Nat → Slots Bytes) (v₀ : Visible (List Bytes)) :
    Visible (List Bytes) → Except String ListPopState → Prop
  | foreign {e : Nat} {raw : Bytes} (hold : v₀ = .foreign e raw) :
      Shows now n items v₀ (.foreign e raw) (.error wrongTypeError)
  | missing (hold : v₀ = .missing) :
      Shows now n items v₀ .missing (.ok ⟨0, 0, 0, 0, 0, 0, false⟩)
  | value {e ver : Nat} {initialHead head tail initialTail : Int}
      {pre rest post : List Bytes} {touched : Bool} (hdue : expireDue now e = false)
      (hpos : 0 < ver) (hle : ver ≤ n)
      (hitems : items ver = spread initialHead (pre ++ (rest ++ post)))
      (hhead : head = initialHead + pre.length) (htail : tail = head + rest.length)
      (hinitial : initialTail = tail + post.length)
      (hclean : touched = false → v₀ = ofItems e rest) :
      Shows now n items v₀ (ofItems e rest)
        (.ok ⟨e, ver, head, tail, initialHead, initialTail, touched⟩)

variable {recs : ListRecords}

theorem shows_fromRaw (hok : ListOk n recs) (hdue : recs.Unexpired now)
    (hpacked : ∀ e items, recs.main ≠ some (.packed e items)) :
    Shows now n recs.items (recs.view listLayout now) (recs.view listLayout now)
      (fromRaw recs.main) := by
  cases hmain : recs.main with
  | none =>
    rw [view_missing hmain]
    exact .missing rfl
  | some record =>
    have hlive := hdue record hmain
    cases record with
    | packed e items => exact absurd hmain (hpacked e items)
    | foreign e raw =>
      rw [view_foreign hmain hlive]
      exact .foreign rfl
    | split e ver span =>
      obtain ⟨content, hne, hview, htail, hlayout⟩ := hok.view_of_main hmain hlive rfl
      obtain ⟨-, hpos, hitems⟩ := hlayout.resolve_left fun h => by cases h.1
      rw [hview, ← ofItems_of_ne hne]
      exact @Shows.value now n recs.items _ e ver span.head span.head span.tail span.tail []
        content [] false hlive hpos (hok.fresh.version_le hmain) (by simpa using hitems) (by simp)
        htail (by simp) fun _ => rfl

theorem scan_middle (h : Int) (pre rest post : List Bytes) {lo : Int} {a k : Nat}
    (hlo : lo = h + pre.length + a) (hle : a + k ≤ rest.length) :
    (spread h (pre ++ (rest ++ post))).scan lo (lo + k) = (rest.drop a).take k := by
  subst hlo
  rw [scan_spread (by omega), show (h + pre.length + a - h).toNat = pre.length + a by omega,
    show (h + pre.length + a + k - (h + pre.length + a)).toNat = k by omega,
    ← drop_drop, drop_left, drop_append_of_le_length (by omega),
    take_append_of_le_length (by rw [length_drop]; omega)]

/-- `st'` の区間は、同じ list の区間 `st` を縮めたものである。 -/
def Narrows : Except String ListPopState → Except String ListPopState → Prop
  | .ok st, .ok st' => st.version = st'.version ∧ st.initialHead = st'.initialHead ∧
    st.initialTail = st'.initialTail ∧ st.head ≤ st'.head ∧ st'.head ≤ st'.tail ∧
      st'.tail ≤ st.tail
  | .error _, .error _ => True
  | _, _ => False

variable {st : Except String ListPopState}

theorem Shows.narrows (h : Shows now n items v₀ v st) : Narrows st st := by
  cases h with
  | foreign => trivial
  | missing => exact ⟨rfl, rfl, rfl, le_rfl, le_rfl, le_rfl⟩
  | value _ _ _ _ _ htail => exact ⟨rfl, rfl, rfl, le_rfl, by dsimp only; omega, le_rfl⟩

theorem Narrows.trans {a b c : Except String ListPopState} (h : Narrows a b) (h' : Narrows b c) :
    Narrows a c := by
  cases a <;> cases b <;> cases c <;> simp only [Narrows] at h h' ⊢
  omega

def Holds (items : Nat → Slots Bytes) (values : Slots Bytes) :
    Except String ListPopState → Except String ListPopState → Prop
  | .ok st, .ok fin => ∀ i, (st.head ≤ i ∧ i < fin.head) ∨ (fin.tail ≤ i ∧ i < st.tail) →
    values.get i = (items st.version).get i
  | _, _ => True

theorem shows_plan (h : Shows now n items v₀ v st) (c : ListPop) :
    Shows now n items v₀ (listPopSpec c v).2 (plan c st).2 ∧ Narrows st (plan c st).2 := by
  cases h with
  | foreign hold => exact ⟨.foreign hold, trivial⟩
  | missing hold =>
    refine ⟨?_, ?_⟩
    · rw [plan, if_pos (.inr le_rfl)]
      exact .missing hold
    · rw [plan, if_pos (.inr le_rfl)]
      exact ⟨rfl, rfl, rfl, le_rfl, le_rfl, le_rfl⟩
  | @value e ver initialHead head tail initialTail pre rest post touched hdue hpos hle hitems
      hhead htail hinitial hclean =>
    rw [listPopSpec_ofItems, plan]
    dsimp only
    split
    · next hnone =>
      have hkeep : (popEnd c.left c.count rest).2 = rest := by
        rcases hnone with hcount | hempty
        · rw [hcount, popEnd_zero]
        · rw [length_eq_zero_iff.mp (show rest.length = 0 by omega), popEnd_nil]
      rw [hkeep]
      exact ⟨.value hdue hpos hle hitems hhead htail hinitial hclean, rfl, rfl, rfl, le_rfl,
        by dsimp only; omega, le_rfl⟩
    · rw [← popEnd_min, show (tail - head).toNat = rest.length by omega]
      have hk : min c.count rest.length ≤ rest.length := Nat.min_le_right ..
      generalize min c.count rest.length = k at hk
      cases c.left with
      | true =>
        rw [popEnd_true]
        refine ⟨@Shows.value now n items v₀ e ver initialHead _ _ _ (pre ++ rest.take k)
          (rest.drop k) post true hdue hpos hle ?_ ?_ ?_ hinitial ?_, rfl, rfl, rfl, ?_, ?_, le_rfl⟩
        · rw [hitems, append_assoc, ← append_assoc (rest.take k), take_append_drop]
        · rw [length_append, length_take, Nat.min_eq_left hk]
          push_cast
          omega
        · rw [length_drop]
          omega
        · exact nofun
        · dsimp only
          omega
        · dsimp only
          omega
      | false =>
        rw [popEnd_false]
        refine ⟨@Shows.value now n items v₀ e ver initialHead _ _ _ pre
          (rest.take (rest.length - k)) (rest.drop (rest.length - k) ++ post) true hdue hpos hle ?_
          hhead ?_ ?_ ?_, rfl, rfl, rfl, le_rfl, ?_, ?_⟩
        · rw [hitems, ← append_assoc (rest.take _), take_append_drop]
        · rw [length_take, Nat.min_eq_left (Nat.sub_le ..)]
          omega
        · rw [length_append, length_drop]
          push_cast
          omega
        · exact nofun
        · dsimp only
          omega
        · dsimp only
          omega

theorem take_interval {values stored : Slots Bytes} (p : ListPopPlan) (key : Bytes)
    (h : ∀ i, p.start ≤ i → i < p.start + p.count → values.get i = stored.get i) :
    (take (key, .ok p) values).1 =
        .ok (oriented (!p.reverse) (stored.scan p.start (p.start + p.count))) ∧
      ∀ i, ¬ (p.start ≤ i ∧ i < p.start + p.count) →
        (take (key, .ok p) values).2.get i = values.get i := by
  obtain ⟨hread, hkeep⟩ := takeAt_eq p.nodup_indices values
  refine ⟨?_, fun i hi => hkeep i fun hmem => hi (ListPopPlan.mem_indices.mp hmem)⟩
  show Except.ok (takeAt values p.indices).1 = _
  rw [hread, p.filterMap_indices, Slots.scan_congr h]

variable {fin : Except String ListPopState}

theorem take_plan {values : Slots Bytes} (h : Shows now n items v₀ v st) (c : ListPop)
    (hnarrow : Narrows (plan c st).2 fin) (hholds : Holds items values st fin) (key : Bytes) :
    (take (key, (plan c st).1) values).1 = (listPopSpec c v).1 ∧
      Holds items (take (key, (plan c st).1) values).2 (plan c st).2 fin := by
  cases h with
  | foreign hold => exact ⟨rfl, trivial⟩
  | missing hold =>
    rw [plan, if_pos (.inr le_rfl)]
    exact ⟨rfl, hholds⟩
  | @value e ver initialHead head tail initialTail pre rest post touched hdue hpos hle hitems
      hhead htail hinitial hclean =>
    cases fin with
    | error =>
      rw [plan] at hnarrow
      dsimp only at hnarrow
      split at hnarrow
      · exact hnarrow.elim
      · split at hnarrow <;> exact hnarrow.elim
    | ok fin =>
      rw [listPopSpec_ofItems]
      rw [plan] at hnarrow ⊢
      dsimp only at hnarrow ⊢
      split
      · next hnone =>
        have hpop : (popEnd c.left c.count rest).1 = [] := by
          rcases hnone with hcount | hempty
          · rw [hcount, popEnd_zero]
          · rw [length_eq_zero_iff.mp (show rest.length = 0 by omega), popEnd_nil]
        rw [hpop]
        exact ⟨rfl, hholds⟩
      · next hsome =>
        rw [if_neg hsome, show (tail - head).toNat = rest.length by omega] at hnarrow
        rw [← popEnd_min, show (tail - head).toNat = rest.length by omega]
        have hk : min c.count rest.length ≤ rest.length := Nat.min_le_right ..
        generalize min c.count rest.length = k at hk hnarrow
        have hstored : ∀ i, (head ≤ i ∧ i < fin.head) ∨ (fin.tail ≤ i ∧ i < tail) →
            values.get i = (items ver).get i := hholds
        cases hleft : c.left with
        | true =>
          rw [hleft, if_pos rfl] at hnarrow
          have hhead' : head + k ≤ fin.head := hnarrow.2.2.2.1
          have hmid : fin.head ≤ fin.tail := hnarrow.2.2.2.2.1
          obtain ⟨hreply, hkeep⟩ := @take_interval values (items ver) ⟨head, k, false⟩ key
            fun i (hlo : head ≤ i) (hhi : i < head + k) => hstored i (.inl ⟨hlo, by omega⟩)
          refine ⟨hreply.trans ?_, fun i hi => ?_⟩
          · rw [hitems, popEnd_true]
            dsimp only
            rw [scan_middle initialHead pre rest post (a := 0) (by simpa using hhead)
              (by simpa using hk)]
            rfl
          · have hi : (head + k ≤ i ∧ i < fin.head) ∨ (fin.tail ≤ i ∧ i < tail) := hi
            rw [if_pos rfl, hkeep i (show ¬ (head ≤ i ∧ i < head + k) by omega)]
            exact hstored i (by omega)
        | false =>
          rw [hleft, if_neg (by decide)] at hnarrow
          have hmid : fin.head ≤ fin.tail := hnarrow.2.2.2.2.1
          have htail' : fin.tail ≤ tail - k := hnarrow.2.2.2.2.2
          obtain ⟨hreply, hkeep⟩ := @take_interval values (items ver) ⟨tail - k, k, true⟩ key
            fun i (hlo : tail - k ≤ i) (hhi : i < tail - k + k) =>
              hstored i (.inr ⟨by omega, by omega⟩)
          refine ⟨hreply.trans ?_, fun i hi => ?_⟩
          · rw [hitems, popEnd_false]
            dsimp only
            rw [scan_middle initialHead pre rest post (a := rest.length - k) (by omega) (by omega),
              take_of_length_le (by rw [length_drop]; omega)]
            rfl
          · have hi : (head ≤ i ∧ i < fin.head) ∨ (fin.tail ≤ i ∧ i < tail - k) := hi
            rw [if_neg (by decide), hkeep i (show ¬ (tail - k ≤ i ∧ i < tail - k + k) by omega)]
            exact hstored i (by omega)

/-! key ごとの命令の列。 -/

section

variable {keys : List Bytes} {stored : Bytes → Nat → Slots Bytes}
  {before : Bytes → Visible (List Bytes)}

theorem shows_run (states : Bytes → Except String ListPopState)
    (views : Bytes → Visible (List Bytes)) (cmds : List ListPop) {key : Bytes}
    (hshow : Shows now n items v₀ (views key) (states key)) :
    Shows now n items v₀ ((runKeyed ListPop.key listPopSpec views cmds).2 key)
        ((runKeyed ListPop.key plan states cmds).2 key) ∧
      Narrows (states key) ((runKeyed ListPop.key plan states cmds).2 key) := by
  rw [runKeyed_state, runKeyed_state]
  generalize states key = st, views key = v at hshow
  induction addressedTo ListPop.key key cmds generalizing st v with
  | nil => exact ⟨hshow, hshow.narrows⟩
  | cons c rest ih =>
    obtain ⟨hnext, hnarrow⟩ := shows_plan hshow c
    obtain ⟨hfinal, hrest⟩ := ih _ _ hnext
    exact ⟨hfinal, hnarrow.trans hrest⟩

theorem take_run {cmds : List ListPop} {states : Bytes → Except String ListPopState}
    {views : Bytes → Visible (List Bytes)} {values : Bytes → Slots Bytes}
    (hkeys : ∀ c ∈ cmds, c.key ∈ keys)
    (hshow : ∀ key ∈ keys, Shows now n (stored key) (before key) (views key) (states key))
    (hholds : ∀ key ∈ keys, Holds (stored key) (values key) (states key)
      ((runKeyed ListPop.key plan states cmds).2 key)) :
    (runKeyed Prod.fst take values
      ((cmds.map ListPop.key).zip (runKeyed ListPop.key plan states cmds).1)).1 =
        (runKeyed ListPop.key listPopSpec views cmds).1 := by
  induction cmds generalizing states views values with
  | nil => rfl
  | cons c rest ih =>
    have hc := hkeys c mem_cons_self
    have hshow' := update_rel
      (R := fun key v st => key ∈ keys → Shows now n (stored key) (before key) v st)
      (fun _ => (shows_plan (hshow c.key hc) c).1) fun key _ => hshow key
    obtain ⟨-, hnarrow⟩ := shows_run _ _ rest (hshow' c.key hc)
    rw [Function.update_self] at hnarrow
    obtain ⟨hreply, hkeep⟩ := take_plan (hshow c.key hc) c hnarrow (hholds c.key hc) c.key
    refine congrArg₂ cons hreply (ih (fun d hd => hkeys d (mem_cons_of_mem c hd)) hshow' ?_)
    refine update_rel (R := fun key values st => key ∈ keys → Holds (stored key) values st _)
      (fun _ => hkeep) fun key _ => hholds key

end

theorem holds_popped (hfin : Shows now n recs.items v₀ v fin) (hnarrow : Narrows st fin)
    (hstart : ∀ a, st = .ok a → a.head = a.initialHead ∧ a.tail = a.initialTail) :
    Holds recs.items (popped recs fin) st fin := by
  cases st with
  | error => trivial
  | ok st =>
    obtain ⟨hhead₀, htail₀⟩ := hstart st rfl
    cases hfin with
    | foreign => exact hnarrow.elim
    | missing =>
      obtain ⟨-, hi, ht, -, -, -⟩ := hnarrow
      intro i hmem
      dsimp only at hi ht hmem
      omega
    | @value e ver initialHead head tail initialTail pre rest post touched hdue hpos hle hitems
        hhead htail hinitial hclean =>
      obtain ⟨hversion, hi, ht, -, -, -⟩ := hnarrow
      intro i hmem
      dsimp only at hversion hi ht hmem
      have hpre : (if initialHead < head then
          listRangeValues recs ver initialHead (head - 1) else []) = pre := by
        split
        · rw [listRangeValues_split recs hpos (by omega), hitems,
            show head - 1 + 1 = initialHead + pre.length by omega, scan_spread le_rfl]
          simp
        · exact (length_eq_zero_iff.mp (by omega)).symm
      have hpost : (if tail < initialTail then
          listRangeValues recs ver tail (initialTail - 1) else []) = post := by
        split
        · rw [listRangeValues_split recs hpos (by omega), hitems,
            show initialTail - 1 + 1 = tail + post.length by omega, scan_spread (by omega),
            show (tail - initialHead).toNat = pre.length + rest.length by omega,
            show (tail + post.length - tail).toNat = post.length by omega]
          simp
        · exact (length_eq_zero_iff.mp (by omega)).symm
      show (if initialHead ≤ i ∧ i < initialHead + _ then (spread initialHead _).get i
        else (spread tail _).get i) = _
      rw [hpre, hpost, hversion, hitems, get_spread, get_spread, get_spread]
      rcases hmem with ⟨hlo, hhi⟩ | ⟨hlo, hhi⟩
      · have hin : initialHead ≤ i := by omega
        rw [if_pos ⟨hin, by omega⟩, if_pos hin, if_pos hin,
          getElem?_append_left (by omega)]
      · have hin : initialHead ≤ i := by omega
        rw [if_neg (by omega), if_pos hlo, if_pos hin, getElem?_append_right (by omega),
          getElem?_append_right (by omega)]
        congr 1
        omega

theorem Shows.eq_of_clean (h : Shows now n items v₀ v st) (hclean : isTouched st = false) :
    v = v₀ := by
  cases h with
  | foreign hold | missing hold => exact hold.symm
  | value _ _ _ _ _ _ _ hkeep => exact (hkeep hclean).symm

theorem write_spec (hshow : Shows now n recs.items v₀ v st) (htouched : isTouched st = true)
    (hfresh : recs.Fresh n) :
    (write recs st).view listLayout now = v ∧ ListOk n (write recs st) ∧ ∀ m, metaOf st = some m →
        ∃ record, (write recs st).main = some record ∧ listMetaOf record = some m := by
  cases hshow with
  | foreign | missing => cases htouched
  | @value e ver initialHead head tail initialTail pre rest post touched hdue hpos hle hitems
      hhead htail hinitial hclean =>
    have hrest : deleteListRange (deleteListRange (recs.items ver) initialHead head)
        (max tail head) initialTail = spread head rest := by
      rw [deleteListRange_eq, deleteListRange_eq, hitems, hhead, erase_spread_front, ← hhead,
        drop_left, show max tail head = head + rest.length by omega,
        show initialTail = head + (rest ++ post).length by rw [length_append]; push_cast; omega,
        erase_spread_back, take_left]
    unfold write metaOf
    dsimp only
    rw [hrest]
    by_cases hempty : tail ≤ head
    · have hnil : rest = [] := length_eq_zero_iff.mp (by omega)
      rw [if_pos hempty, if_pos hempty, hnil, ofItems_nil]
      exact ⟨view_dropListMeta .., ListOk.dropListMeta hfresh hle _, nofun⟩
    · have hne : rest ≠ [] := by
        rintro rfl
        rw [length_nil] at htail
        omega
      rw [if_neg hempty, if_neg hempty, ofItems_of_ne hne]
      refine ⟨@view_putListMeta now recs ⟨e, ver, head, tail⟩ rest hdue htail,
        @ListOk.putListMeta n recs ⟨e, ver, head, tail⟩ rest hfresh hpos hle hne htail,
        fun m hm => ?_⟩
      cases hm
      exact ⟨_, setMain_main .., rfl⟩

end ListPopState

open ListPopState

section

variable {now : Nat} {s : ListStore}

def listPopRun (now : Nat) (cmds : List ListPop) (s : ListStore) :
    List (Except String (List Bytes)) × (Bytes → Visible (List Bytes)) :=
  runKeyed key listPopSpec (s.view now) cmds

variable {cmds : List ListPop}

theorem listPopRun_of_quiet {s' : ListStore} (h : Quiet now s s') (cmds : List ListPop) :
    listPopRun now cmds s = listPopRun now cmds s' := by
  rw [listPopRun, listPopRun, h.view_eq]

/-- **分けた list がなければ、詰めた形での実行は仕様どおりに働く。** -/
theorem tryPackedPop_some (h : ListInv now s)
    (hsplit : ¬ HasSplit now (cmds.map key).dedup s) :
    (tryPackedPop now cmds s).1 = some (listPopRun now cmds s).1 ∧
      ListInv now (tryPackedPop now cmds s).2 ∧
      (tryPackedPop now cmds s).2.view now = (listPopRun now cmds s).2 := by
  unfold tryPackedPop
  dsimp only
  set keys := (cmds.map key).dedup with hkeys
  rw [if_neg fun hany => hsplit ((any_isSplit_iff now keys s).mp hany)]
  have hquiet := expireAll_quiet keys h
  have hpacked := fun key => @expireAll_packed now s keys hsplit key
  rw [listPopRun_of_quiet hquiet]
  have hinv := hquiet.inv
  generalize keys.foldl (expire now) s = s' at hpacked hinv ⊢
  obtain ⟨hreplies, hsettled, hview, -⟩ := settle_run
    (R := fun key st v => PackedPop.Shows now (s'.view now key) v st) hinv le_rfl hkeys.symm
    (fun c _ st v hR => PackedPop.shows_step hR c)
    (fun key hkey => PackedPop.shows_load (hinv.ok key) (hpacked key hkey).2 (hpacked key hkey).1)
    (fun hR => hR.eq_of_clean)
    (fun key hkey st v hR hdirty => PackedPop.write_spec hR hdirty (hinv.ok key).fresh) false
  exact ⟨congrArg some hreplies, hsettled, hview⟩

/-- **まとめた実行の仕様。** 返事も残る中身も、命令を一つずつ当てたものに等しい。 -/
theorem listPopBatch_spec (h : ListInv now s) (cmds : List ListPop) :
    (listPopBatch now cmds s).1 = (listPopRun now cmds s).1 ∧
      ListInv now (listPopBatch now cmds s).2 ∧
      (listPopBatch now cmds s).2.view now = (listPopRun now cmds s).2 := by
  by_cases hsplit : HasSplit now (cmds.map ListPop.key).dedup s
  · rw [listPopBatch, tryPackedPop, if_pos ((any_isSplit_iff now _ s).mpr hsplit)]
    dsimp only
    set keys := (cmds.map ListPop.key).dedup with hkeys
    have hexpired := expireAll_quiet keys h
    have hpromoted := hexpired.trans (promoteAll_quiet keys hexpired.inv)
    have hquiet := hpromoted.trans (expireAll_quiet keys hpromoted.inv)
    have hdue := fun key (hkey : key ∈ keys) => expireAll_unexpired now
      (keys.foldl promote (keys.foldl (expire now) s)) hkey
    have hpacked : ∀ key ∈ keys, ∀ e items, ((keys.foldl (expire now)
        (keys.foldl promote (keys.foldl (expire now) s))).slots key).main ≠
          some (.packed e items) := by
      intro key hkey e items hmain
      rw [expireAll_slots, if_pos hkey, expireIfNeeded_main] at hmain
      exact promoteAll_not_packed (.inl hkey) e items (live_eq_some.mp hmain).1
    rw [listPopRun_of_quiet hquiet]
    have hinv := hquiet.inv
    generalize keys.foldl (expire now)
      (keys.foldl promote (keys.foldl (expire now) s)) = s' at hinv hdue hpacked ⊢
    have hmem : ∀ c ∈ cmds, c.key ∈ keys := fun c hc => mem_dedup.mpr (mem_map_of_mem hc)
    have hload : ∀ key ∈ keys, Shows now s'.counter (s'.slots key).items
        (s'.view now key) (s'.view now key) (fromRaw (s'.slots key).main) :=
      fun key hkey => shows_fromRaw (hinv.ok key) (hdue key hkey) (hpacked key hkey)
    have hrun := fun key hkey => shows_run
      (fun key => fromRaw (s'.slots key).main) (s'.view now) cmds (hload key hkey)
    have hreplies := take_run hmem hload fun key hkey =>
      holds_popped (hrun key hkey).1 (hrun key hkey).2 fun a ha => by
        unfold fromRaw at ha
        split at ha
        · cases ha
          exact ⟨rfl, rfl⟩
        · split at ha <;> cases ha
          exact ⟨rfl, rfl⟩
    have hwrite : ∀ key ∈ keys, _ = true → _ := fun key hkey htouched =>
      write_spec (hrun key hkey).1 htouched (hinv.ok key).fresh
    obtain ⟨hsettled, hshown⟩ := @settle_spec now s' hinv s'.counter le_rfl keys
      (fun key => isTouched ((runKeyed ListPop.key plan
        (fun key => fromRaw (s'.slots key).main) cmds).2 key))
      (fun key => write (s'.slots key) ((runKeyed ListPop.key plan
        (fun key => fromRaw (s'.slots key).main) cmds).2 key))
      (listPopRun now cmds s').2 true
      (fun key hkey => by
        by_cases hin : key ∈ keys
        · exact ((hrun key hin).1.eq_of_clean (hkey hin)).symm
        · exact (runKeyed_untouched (fun hmem => hin (mem_dedup.mpr hmem)) _).symm)
      (fun key hkey htouched => ⟨(hwrite key hkey htouched).1, (hwrite key hkey htouched).2.1⟩)
    refine ⟨hreplies, recache_inv hsettled fun key hkey m hm => ?_, hshown⟩
    rw [settle_slots_of_mem hkey]
    obtain ⟨hin, htouched⟩ := mem_filter.mp hkey
    exact (hwrite key hin htouched).2.2 m hm
  · obtain ⟨hreplies, hinv, hview⟩ := tryPackedPop_some h hsplit
    rw [listPopBatch]
    generalize tryPackedPop now cmds s = out at hreplies hinv hview
    obtain ⟨replies, s'⟩ := out
    cases hreplies
    exact ⟨rfl, hinv, hview⟩

end

end Onedis.Store
