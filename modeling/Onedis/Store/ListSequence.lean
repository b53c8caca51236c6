import Onedis.Store.ListRefine

/-!
# list の命令の列

* `listRun_refines` — 条件を満たす命令の列は、返事も残る中身も仕様と一致する
-/

namespace Onedis.Store

open Infra List

/-! ## 条件 -/

namespace ListCommand

def keys : ListCommand → List Bytes
  | push c => [c.key]
  | pop key _ _ => [key]
  | set key _ _ => [key]
  | trim key _ _ => [key]
  | rem key _ _ => [key]
  | insert key _ _ _ => [key]
  | move src dest _ _ => [src, dest]
  | index key _ => [key]
  | len key => [key]
  | pos key _ _ _ _ => [key]
  | range key _ _ => [key]

def growth : ListCommand → Nat
  | push c => c.values.length
  | insert _ _ _ _ => 1
  | move _ _ _ _ => 1
  | _ => 0

end ListCommand

/-- 命令が仕様の通りに応えられる条件。取り出す要素は UTF-8 で、別の型の record は読め、番地は収まる。 -/
structure Servable (serde : Codec.Serde) (now : Nat) (s : ListStore) (c : ListCommand) : Prop where
  text : ∀ value ∈ c.returned (s.view now), validUtf8 value = true
  decodable : ∀ key ∈ c.keys, Decodable serde (s.view now) key
  roomy : ∀ key ∈ c.keys, Roomy c.growth (s.slots key).main

section

variable {serde : Codec.Serde} {now : Nat} {s : ListStore}

/-- **一つの命令。** -/
theorem ListCommand.exec_refines (h : ListInv now s) {c : ListCommand}
    (hc : Servable serde now s c) : Refines now (c.exec serde now s) (c.spec (s.view now)) := by
  obtain ⟨htext, hdec, hroom⟩ := hc
  cases c with
  | push c => exact push_refines h c
  | pop key left count => exact pop_refines h left count htext
  | set key i value => exact set_refines h (hdec key mem_cons_self) i value
  | trim key start stop => exact trim_refines h (hdec key mem_cons_self) start stop
  | rem key count element =>
    exact rem_refines h (hdec key mem_cons_self) (hroom key mem_cons_self) count element
  | insert key before pivot element =>
    exact insert_refines h (hdec key mem_cons_self) (hroom key mem_cons_self) before pivot
      element
  | move src dest srcLeft destLeft =>
    exact move_refines h (hdec src mem_cons_self) (hdec dest (by simp [keys])) srcLeft destLeft
      htext
  | index key i => exact index_refines h (hdec key mem_cons_self) i htext
  | len key => exact len_refines h (hdec key mem_cons_self)
  | pos key element rank count maxlen =>
    exact pos_refines h (hdec key mem_cons_self) (hroom key mem_cons_self) element rank count maxlen
      htext
  | range key start stop => exact range_refines h (hdec key mem_cons_self) start stop htext

end

/-! ## 命令の列 -/

def runList (serde : Codec.Serde) :
    List (Nat × ListCommand) → ListStore → List ListReply × ListStore
  | [], s => ([], s)
  | (now, c) :: rest, s =>
    let out := c.exec serde now s
    let more := runList serde rest out.2
    (out.1 :: more.1, more.2)

def specList : List (Nat × ListCommand) → ListViews → List ListReply × ListViews
  | [], views => ([], views)
  | (now, c) :: rest, views =>
    let out := c.spec fun key => (views key).upTo now
    let more := specList rest out.2
    (out.1 :: more.1, more.2)

def finalTime : Nat → List (Nat × ListCommand) → Nat
  | now, [] => now
  | _, (now, _) :: rest => finalTime now rest

/-- どの命令も、時刻が戻らず、実行する時点で `Servable` を満たす。 -/
def Served (serde : Codec.Serde) : Nat → ListStore → List (Nat × ListCommand) → Prop
  | _, _, [] => True
  | before, s, (now, c) :: rest =>
    before ≤ now ∧ Servable serde now s c ∧ Served serde now (c.exec serde now s).2 rest

theorem ListInv.later {now now' : Nat} {s : ListStore} (h : ListInv now s) (hle : now ≤ now') :
    ListInv now' s :=
  ⟨h.ok, fun hcache hdue => h.cached hcache (expireDue_mono hle hdue)⟩

/-- **list は列を実現する。** 条件を満たす命令の列では、返事も最後に見える中身も、列の上の実行と一致する。 -/
theorem listRun_refines {serde : Codec.Serde} {now : Nat} {s : ListStore} (h : ListInv now s)
    {cs : List (Nat × ListCommand)} (hserved : Served serde now s cs) :
    (runList serde cs s).1 = (specList cs (s.view now)).1 ∧
      (runList serde cs s).2.view (finalTime now cs) = (specList cs (s.view now)).2 := by
  induction cs generalizing now s with
  | nil => exact ⟨rfl, rfl⟩
  | cons entry rest ih =>
    obtain ⟨now', c⟩ := entry
    obtain ⟨hle, hc, hrest⟩ := hserved
    have hview : s.view now' = fun key => (s.view now key).upTo now' :=
      funext fun key => KeyRecords.view_upTo hle
    obtain ⟨hreply, hinv, hstate⟩ := ListCommand.exec_refines (h.later hle) hc
    obtain ⟨hreplies, hfinal⟩ := ih hinv hrest
    rw [hview] at hreply hstate
    rw [hstate] at hreplies hfinal
    exact ⟨congrArg₂ cons hreply hreplies, hfinal⟩

/-! ## 食い違う例 -/

namespace BinaryElement

def key : Bytes := [0x6b]

def empty : ListStore := ⟨fun _ => ⟨none, fun _ => ∅⟩, fun _ => none, 0⟩

theorem empty_inv : ListInv 0 empty :=
  ⟨fun _ => ListOk.of_main_none ⟨fun h => (by cases h), fun _ => rfl⟩ rfl, fun h => (by cases h)⟩

def text (b : UInt8) (h : validUtf8 [b] = true) : Text :=
  ⟨[b], h, by rw [length_singleton]; decide⟩

def push (values : List Bytes) (h : values ≠ []) : ListCommand :=
  .push ⟨key, false, values, false, h⟩

theorem replies_differ : empty.view 0 key = .missing ∧ ∀ serde : Codec.Serde,
    (runList serde [(0, push [[0xff]] (by decide)), (0, .index key 0), (0, .range key 0 (-1))]
      empty).1 = [.number 1, .element none, .failed listRangeUtf8Error] ∧
    (specList [(0, push [[0xff]] (by decide)), (0, .index key 0), (0, .range key 0 (-1))]
      (empty.view 0)).1 = [.number 1, .element (some [0xff]), .elements [[0xff]]] := by
  exact ⟨rfl, fun _ => ⟨rfl, rfl⟩⟩

/-- `RPUSH k a b a`、`LREM k -1 a` -/
def session : List (Nat × ListCommand) :=
  [(0, push [[0x61], [0x62], [0x61]] (by decide)), (1, .rem key (-1) (text 0x61 (by decide)))]

theorem decodable_of_content {serde : Codec.Serde} {views : ListViews}
    (h : views key = .missing ∨ ∃ e l, views key = .value e l) :
    ∀ k ∈ [key], Decodable serde views k := by
  intro k hk e' raw hforeign
  obtain rfl := mem_singleton.mp hk
  rcases h with h | ⟨e, l, h⟩
  · rw [h] at hforeign
    cases hforeign
  · rw [h] at hforeign
    cases hforeign

theorem session_served (serde : Codec.Serde) : Served serde 0 empty session :=
  ⟨Nat.zero_le _, ⟨by decide, decodable_of_content (.inl rfl), by decide⟩, Nat.zero_le _,
    ⟨of_decide_eq_true rfl, decodable_of_content (.inr ⟨_, _, rfl⟩), of_decide_eq_true rfl⟩,
    trivial⟩

theorem session_matches : empty.view 0 key = .missing ∧ ∀ serde : Codec.Serde,
    (runList serde session empty).1 = [.number 3, .number 1] ∧
      (runList serde session empty).2.view 1 key = .value 0 [[0x61], [0x62]] := by
  refine ⟨rfl, fun serde => ?_⟩
  obtain ⟨hreplies, hview⟩ := listRun_refines empty_inv (session_served serde)
  refine ⟨hreplies.trans rfl, ?_⟩
  have hkey := congrFun hview key
  exact hkey.trans rfl

end BinaryElement

end Onedis.Store
