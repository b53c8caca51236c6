import Onedis.Store.ListPop

/-!
# list の命令をまとめて実行することと一つずつ実行すること

RESP2 の LPUSH / RPUSH は、key ごとの待ち列に入り、同じ key への命令だけがまとめて `list_push_batch_async` に
渡る。LPOP / RPOP は、いくつの key への命令でもまとめて `list_pop_many_batch_async` に渡る。

* `listPushBatch_one_key` — 一つの key への push の列は、一つずつ当てたものに等しい
* `listBatches_match` — まとめた実行は、一つずつの実行に等しい
-/

namespace Onedis.Store

open Infra ListPush
open Codec (wrongTypeError)

section

variable {serde : Codec.Serde} {now : Nat} {s : ListStore}

theorem foreignListError_eq_iff (serde : Codec.Serde) (raw : Bytes) :
    foreignListError serde raw = wrongTypeError ↔ (serde.decodeEntry raw).isSome = true := by
  unfold foreignListError
  split
  · next h => exact iff_of_true rfl h
  · next h => exact iff_of_false (by decide) h

/-- 命令の届く別の型の key で返事が同じなら、列の全体も同じである。 -/
theorem listPushRun_congr {err err' : Bytes → String} {cmds : List ListPush}
    (h : ∀ c ∈ cmds, ∀ e raw, s.view now c.key = .foreign e raw → err raw = err' raw) :
    listPushRun err now cmds s = listPushRun err' now cmds s := by
  let R (key : Bytes) (v v' : Visible (List Bytes)) : Prop := v = v' ∧
    (key ∈ cmds.map ListPush.key → ∀ e raw, v = .foreign e raw → err raw = err' raw)
  suffices hrun : (listPushRun err now cmds s).1 = (listPushRun err' now cmds s).1 ∧
      ∀ key, R key ((listPushRun err now cmds s).2 key) ((listPushRun err' now cmds s).2 key) from
    Prod.ext hrun.1 (funext fun key => (hrun.2 key).1)
  refine runKeyed_simulates (fun c hc v v' hR => ?_) (fun key => ⟨rfl, fun hkey => ?_⟩)
  · obtain ⟨rfl, herr⟩ := hR
    cases v with
    | missing =>
      dsimp only [listPushSpec]
      split <;> exact ⟨rfl, rfl, fun _ _ _ h => by cases h⟩
    | value e items => exact ⟨rfl, rfl, fun _ _ _ h => by cases h⟩
    | foreign e raw =>
      have hsame := herr (List.mem_map_of_mem hc) e raw rfl
      exact ⟨congrArg Except.error hsame, rfl, fun _ _ _ h => by cases h; exact hsame⟩
  · obtain ⟨c, hc, rfl⟩ := List.mem_map.mp hkey
    exact h c hc

/-- 一つの key だけを扱うなら、分けた list があるのは、その key が list であるときに限る。 -/
theorem listPushBatch_one_key (serde : Codec.Serde) (h : ListInv now s) {cmds : List ListPush}
    {key : Bytes} (hkey : ∀ c ∈ cmds, c.key = key) :
    (listPushBatch serde now cmds s).1 = (listPushRun (fun _ => wrongTypeError) now cmds s).1 ∧
      ListInv now (listPushBatch serde now cmds s).2 ∧
      (listPushBatch serde now cmds s).2.view now =
        (listPushRun (fun _ => wrongTypeError) now cmds s).2 := by
  classical
  have hsame : listPushRun (pushError serde (HasSplit now (cmds.map ListPush.key).dedup s)) now cmds
      s = listPushRun (fun _ => wrongTypeError) now cmds s := by
    refine listPushRun_congr fun c hc e raw hforeign => ?_
    refine if_neg ?_
    rintro ⟨key', hkey', e', ver, span, hlive⟩
    obtain ⟨c', hc', rfl⟩ := List.mem_map.mp (List.mem_dedup.mp hkey')
    obtain ⟨hmain, hdue⟩ := KeyRecords.live_eq_some.mp hlive
    have hvalue : s.view now c'.key = .value e' _ := KeyRecords.view_split hmain hdue
    rw [hkey c' hc', ← hkey c hc, hforeign] at hvalue
    cases hvalue
  rw [← hsame]
  exact listPushBatch_spec serde h cmds

theorem listPush_spec (serde : Codec.Serde) (h : ListInv now s) (c : ListPush) :
    (listPushBatch serde now [c] s).1 =
        [(listPushSpec (fun _ => wrongTypeError) c (s.view now c.key)).1] ∧
      ListInv now (listPushBatch serde now [c] s).2 ∧
      (listPushBatch serde now [c] s).2.view now = Function.update (s.view now) c.key
        (listPushSpec (fun _ => wrongTypeError) c (s.view now c.key)).2 :=
  listPushBatch_one_key serde h (show ∀ d ∈ [c], d.key = c.key by simp)

theorem listPop_spec (h : ListInv now s) (c : ListPop) :
    (listPopBatch now [c] s).1 = [(listPopSpec c (s.view now c.key)).1] ∧
      ListInv now (listPopBatch now [c] s).2 ∧
      (listPopBatch now [c] s).2.view now =
        Function.update (s.view now) c.key (listPopSpec c (s.view now c.key)).2 :=
  listPopBatch_spec h [c]

/-! ## 中身 -/

theorem pushValues_eq (left : Bool) (values items : List Bytes) :
    pushValues left values items = if left then values.reverse ++ items else items ++ values := by
  unfold pushValues
  induction values generalizing items with
  | nil => simp
  | cons value rest ih =>
    rw [List.foldl_cons, ih]
    cases left <;> simp

/-- pop の列を順に当てた残り。 -/
def remaining (cmds : List ListPop) (items : List Bytes) : List Bytes :=
  cmds.foldl (fun items c => (popEnd c.left c.count items).2) items

theorem listPopSpec_remaining (cmds : List ListPop) (e : Nat) (items : List Bytes) :
    cmds.foldl (fun v c => (listPopSpec c v).2) (ofItems e items) =
      ofItems e (remaining cmds items) := by
  induction cmds generalizing items with
  | nil => rfl
  | cons c cs ih =>
    rw [List.foldl_cons, listPopSpec_ofItems, ih]
    rfl

theorem listPopRun_value (h : ListInv now s) (cmds : List ListPop) {key : Bytes} {e : Nat}
    {items : List Bytes} (hvalue : s.view now key = .value e items) :
    (listPopRun now cmds s).2 key =
      ofItems e (remaining (addressedTo ListPop.key key cmds) items) := by
  have hne : items ≠ [] := (h.ok key).ne_nil_of_view hvalue
  rw [listPopRun, runKeyed_state, hvalue, ← ofItems_of_ne hne, listPopSpec_remaining]

theorem listPush_value (serde : Codec.Serde) (h : ListInv now s) (c : ListPush) {e : Nat}
    {items : List Bytes} (hvalue : s.view now c.key = .value e items) :
    (listPushBatch serde now [c] s).1 = [.ok (items.length + c.values.length)] ∧
      (listPushBatch serde now [c] s).2.view now c.key =
        .value e (if c.left then c.values.reverse ++ items else items ++ c.values) := by
  obtain ⟨hreply, -, hview⟩ := listPush_spec serde h c
  rw [hreply, hview, hvalue, Function.update_self, ← pushValues_eq]
  refine ⟨?_, rfl⟩
  show [Except.ok (pushValues c.left c.values items).length] = _
  rw [pushValues_eq]
  cases c.left <;> simp [Nat.add_comm]

theorem listPop_value (h : ListInv now s) (c : ListPop) {e : Nat} {items : List Bytes}
    (hvalue : s.view now c.key = .value e items) :
    (listPopBatch now [c] s).1 = [.ok ((if c.left then items else items.reverse).take c.count)] ∧
      (listPopBatch now [c] s).2.view now c.key = if items.length ≤ c.count then .missing
        else .value e (if c.left then items.drop c.count
          else items.take (items.length - c.count)) := by
  obtain ⟨hreply, -, hview⟩ := listPop_spec h c
  rw [hreply, hview, hvalue, Function.update_self]
  refine ⟨rfl, ?_⟩
  have hrest : (popEnd c.left c.count items).2 =
      if c.left then items.drop c.count else items.take (items.length - c.count) := by
    cases hleft : c.left <;> simp [popEnd, List.drop_reverse]
  have hempty : (popEnd c.left c.count items).2 = [] ↔ items.length ≤ c.count := by
    cases hleft : c.left <;> simp [popEnd]
  show ofItems e (popEnd c.left c.count items).2 = _
  rw [ofItems, hrest] at *
  exact if_congr hempty rfl rfl

/--
**まとめた実行は、一つずつの実行に等しい。** 一つの命令の返事と残りは中身だけで決まり、key は list が空になった
ときに限って消える。
-/
theorem listBatches_match (serde : Codec.Serde) (h : ListInv now s) (pushes : List ListPush)
    (pops : List ListPop) {key : Bytes} (hkey : ∀ c ∈ pushes, c.key = key) :
    ((listPushBatch serde now pushes s).1 = (oneByOne (listPushBatch serde now) pushes s).1 ∧
      (listPushBatch serde now pushes s).2.view now =
        (oneByOne (listPushBatch serde now) pushes s).2.view now) ∧
    ((listPopBatch now pops s).1 = (oneByOne (listPopBatch now) pops s).1 ∧
      (listPopBatch now pops s).2.view now = (oneByOne (listPopBatch now) pops s).2.view now) ∧
    (∀ c e items, s.view now c.key = .value e items →
      (listPushBatch serde now [c] s).1 = [.ok (items.length + c.values.length)] ∧
        (listPushBatch serde now [c] s).2.view now c.key =
          .value e (if c.left then c.values.reverse ++ items else items ++ c.values)) ∧
    (∀ c e items, s.view now c.key = .value e items →
      (listPopBatch now [c] s).1 =
          [.ok ((if c.left then items else items.reverse).take c.count)] ∧
        (listPopBatch now [c] s).2.view now c.key = if items.length ≤ c.count then .missing
          else .value e (if c.left then items.drop c.count
            else items.take (items.length - c.count))) ∧
    ∀ key e items, s.view now key = .value e items →
      ((listPopBatch now pops s).2.view now key = .missing ↔
        remaining (addressedTo ListPop.key key pops) items = []) := by
  obtain ⟨hpushed, -, hpushView⟩ := listPushBatch_one_key serde h hkey
  obtain ⟨hpushed', hpushView'⟩ := oneByOne_refines (ListStore.view now)
    (fun c s h => listPush_spec serde (s := s) h c) pushes h
  obtain ⟨hpopped, -, hpopView⟩ := listPopBatch_spec h pops
  obtain ⟨hpopped', hpopView'⟩ := oneByOne_refines (ListStore.view now)
    (fun c s h => listPop_spec (s := s) h c) pops h
  refine ⟨⟨hpushed.trans hpushed'.symm, hpushView.trans hpushView'.symm⟩,
    ⟨hpopped.trans hpopped'.symm, hpopView.trans hpopView'.symm⟩,
    fun c _ _ => listPush_value serde h c, fun c _ _ => listPop_value h c,
    fun key e items hvalue => ?_⟩
  rw [hpopView, listPopRun_value h pops hvalue, ofItems]
  split
  · next hempty => exact iff_of_true rfl hempty
  · next hne => exact iff_of_false (by simp) hne

end

namespace TwoElements

def a : Bytes := [0x61]

/-- 二つの要素を持つ、分けた list `a`。 -/
def start : ListStore where
  slots key :=
    if key = a then
      ⟨some (.split 0 1 ⟨0, 2⟩), fun v => if v = 1 then spread 0 [[0x78], [0x79]] else ∅⟩
    else ⟨none, fun _ => ∅⟩
  cache _ := none
  counter := 1

def push (left : Bool) : ListPush := ⟨a, left, [[0x7a]], false, by decide⟩

theorem start_inv : ListInv 0 start where
  ok key := by
    show ListOk 1 (if key = a then _ else _)
    split
    · refine ⟨⟨fun h => ?_, fun hlt => if_neg (by omega)⟩, fun h => (by cases h), fun h => ?_⟩
      · cases h
        exact le_rfl
      · cases h
        exact ⟨Nat.one_pos, [[0x78], [0x79]], by decide, rfl, rfl⟩
    · exact ListOk.of_main_none ⟨fun h => (by cases h), fun _ => rfl⟩ rfl
  cached h := by cases h

theorem both_ends_match : start.view 0 a = .value 0 [[0x78], [0x79]] ∧ ∀ serde : Codec.Serde,
    (listPushBatch serde 0 [push true, push false] start).1 =
        (oneByOne (listPushBatch serde 0) [push true, push false] start).1 ∧
      (oneByOne (listPopBatch 0) [⟨a, true, 1⟩, ⟨a, false, 1⟩] start).1 =
        [.ok [[0x78]], .ok [[0x79]]] ∧
      (listPopBatch 0 [⟨a, true, 1⟩, ⟨a, false, 1⟩] start).2.view 0 a = .missing := by
  refine ⟨rfl, fun serde => ?_⟩
  obtain ⟨hpush, hpop, -, -, hgone⟩ := listBatches_match serde start_inv
    [push true, push false] [⟨a, true, 1⟩, ⟨a, false, 1⟩]
    (show ∀ c ∈ [push true, push false], c.key = a by decide)
  exact ⟨hpush.1, hpop.1.symm.trans (by decide),
    (hgone a 0 [[0x78], [0x79]] rfl).mpr (by decide)⟩

end TwoElements

end Onedis.Store
