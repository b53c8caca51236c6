import Onedis.Infra.Run
import Onedis.Infra.Tasks
import Onedis.Store.Collection

/-!
# sorted set の要素数の cache

`ZCARD` は、version を持つ sorted set の member を数え、key と database の epoch と共に cache に置く。書き込みは
commit の後で、触れた key の長さを捨てて key の epoch を進める。範囲削除を含む書き込みは、database 全体の長さを
捨て、key の epoch を `0` に戻し、database の epoch を進める。この三つは別々の一歩である。

`ZCARD` は lock を取らない。書き込みの側は、読みから commit までを一歩とする。epoch の一周は考えない。
-/

namespace Onedis.Store

open Infra Function

/-! ## cache -/

/-- 数えたときの version と二つの epoch。 -/
structure ZsetStamp where
  version : Nat
  keyEpoch : Nat
  dbEpoch : Nat
  deriving DecidableEq, Repr

structure ZsetLenCacheEntry extends ZsetStamp where
  len : Nat
  deriving DecidableEq, Repr

/-- 要素数の cache。epoch は key と db ごとに進む。 -/
structure ZsetCache where
  everPopulated : Bool
  lengths : DbKey → Option ZsetLenCacheEntry
  keyEpochs : DbKey → Nat
  dbEpochs : Nat → Nat

namespace ZsetCache

def empty : ZsetCache := ⟨false, fun _ => none, fun _ => 0, fun _ => 0⟩

def insertLen (c : ZsetCache) (key : DbKey) (entry : ZsetLenCacheEntry) : ZsetCache :=
  { c with lengths := update c.lengths key (some entry) }

def removeLen (c : ZsetCache) (key : DbKey) : ZsetCache :=
  { c with lengths := update c.lengths key none }

def bumpKeyEpoch (c : ZsetCache) (key : DbKey) : ZsetCache :=
  { c with keyEpochs := update c.keyEpochs key (c.keyEpochs key + 1) }

def clearLengths (c : ZsetCache) (db : Nat) : ZsetCache :=
  { c with lengths := fun k => if k.1 = db then none else c.lengths k }

def resetKeyEpochs (c : ZsetCache) (db : Nat) : ZsetCache :=
  { c with keyEpochs := fun k => if k.1 = db then 0 else c.keyEpochs k }

def bumpDbEpoch (c : ZsetCache) (db : Nat) : ZsetCache :=
  { c with dbEpochs := update c.dbEpochs db (c.dbEpochs db + 1) }

end ZsetCache

/-! ## command -/

/-- task の実行する命令。 -/
inductive ZsetOp where
  | zcard (key : DbKey) (batched : Bool)
  | zadd (key : DbKey) (added : Finset Bytes) (promote : Bool)
  | zrem (key : DbKey) (requested : Finset Bytes)
  | remove (db : Nat) (keys : List Bytes) (resets : Nat)
  deriving DecidableEq

/-- `ZREM` の batch。member を数え、すべて消えるなら main record も消す。 -/
def CollectionData.removeMembers (d : CollectionData) (key : DbKey) (requested : Finset Bytes) :
    CollectionData :=
  match d.records key with
  | none => d
  | some (.packed members) =>
    d.setRecord key (if members \ requested = ∅ then none else some (.packed (members \ requested)))
  | some (.split ver _) => d.deleteMembers key ver requested (d.members key ver).card

namespace ZsetOp

def touched : ZsetOp → List DbKey
  | .zcard .. => []
  | .zadd key .. => [key]
  | .zrem key _ => [key]
  | .remove db keys _ => keys.map (db, ·)

def commit (d : CollectionData) : ZsetOp → CollectionData
  | .zcard .. => d
  | .zadd key added promote => d.addMembers key added promote
  | .zrem key requested => d.removeMembers key requested
  | .remove db keys _ => keys.foldl (fun d key => d.remove (db, key)) d

def dbIndex : ZsetOp → Nat
  | .zcard key _ => key.1
  | .zadd key .. => key.1
  | .zrem key _ => key.1
  | .remove db .. => db

def resets : ZsetOp → Nat
  | .remove _ _ resets => resets
  | _ => 0

end ZsetOp

/-- 命令の段階。隣り合う段階の間に、ほかの task が入る。 -/
inductive ZsetPhase where
  | start
  | reread
  | versioned (ver : Nat)
  | flagged (ver : Nat)
  | keyEpochRead (ver keyEpoch : Nat)
  | stamped (stamp : ZsetStamp)
  | counting (stamp : ZsetStamp)
  | counted (stamp : ZsetStamp) (len : Nat)
  | rechecked (stamp : ZsetStamp) (len : Nat)
  | inserting (stamp : ZsetStamp) (len : Nat)
  | replied (len : Nat)
  | committed (resets : Nat)
  | lengthsCleared (resets : Nat)
  | epochsReset (resets : Nat)
  | invalidating (left : List DbKey)
  | lenRemoved (key : DbKey) (left : List DbKey)
  | done
  deriving DecidableEq

def ZsetPhase.isReplied : ZsetPhase → Bool
  | .replied _ => true
  | _ => false

/-- 実行中の命令と、その間に見えた要素数。 -/
structure ZsetTask where
  op : ZsetOp
  phase : ZsetPhase
  seen : List Nat
  deriving DecidableEq

/-! ## 一歩 -/

structure ZsetShared where
  data : CollectionData
  cache : ZsetCache

namespace ZsetShared

/-- `zset_card_async` と `zset_card_batch_async` の一歩。 -/
def zcard (sh : ZsetShared) (key : DbKey) (batched : Bool) :
    ZsetPhase → Option (ZsetShared × ZsetPhase)
  | .start =>
    match sh.data.records key with
    | none => some (sh, .replied 0)
    | some (.packed members) => some (sh, if batched then .replied members.card else .reread)
    | some (.split ver _) => some (sh, .versioned ver)
  -- 二度目の読みで詰めた形でなければ、decode の失敗は `0` になる
  | .reread => some (sh, .replied (sh.data.packedMembers key).card)
  | .versioned ver =>
    some ({ sh with cache := { sh.cache with everPopulated := true } }, .flagged ver)
  | .flagged ver => some (sh, .keyEpochRead ver (sh.cache.keyEpochs key))
  | .keyEpochRead ver keyEpoch => some (sh, .stamped ⟨ver, keyEpoch, sh.cache.dbEpochs key.1⟩)
  | .stamped stamp =>
    match sh.cache.lengths key with
    | none => some (sh, .counting stamp)
    | some cached =>
      some (sh, if cached.toZsetStamp = stamp then .replied cached.len else .counting stamp)
  | .counting stamp => some (sh, .counted stamp (sh.data.members key stamp.version).card)
  | .counted stamp len =>
    some (sh, if sh.cache.keyEpochs key = stamp.keyEpoch then .rechecked stamp len
      else .replied len)
  | .rechecked stamp len =>
    some (sh, if sh.cache.dbEpochs key.1 = stamp.dbEpoch then .inserting stamp len
      else .replied len)
  | .inserting stamp len =>
    some ({ sh with cache := sh.cache.insertLen key ⟨stamp, len⟩ }, .replied len)
  | _ => none

/-- 書き込みの一歩。commit の後で cache を無効にする。 -/
def write (sh : ZsetShared) (op : ZsetOp) : ZsetPhase → Option (ZsetShared × ZsetPhase)
  | .start => some ({ sh with data := op.commit sh.data }, .committed op.resets)
  | .committed (resets + 1) =>
    if sh.cache.everPopulated then
      some ({ sh with cache := sh.cache.clearLengths op.dbIndex }, .lengthsCleared resets)
    else some (sh, .committed resets)
  | .lengthsCleared resets =>
    some ({ sh with cache := sh.cache.resetKeyEpochs op.dbIndex }, .epochsReset resets)
  | .epochsReset resets =>
    some ({ sh with cache := sh.cache.bumpDbEpoch op.dbIndex }, .committed resets)
  | .committed 0 => some (sh, if sh.cache.everPopulated then .invalidating op.touched else .done)
  | .invalidating [] => some (sh, .done)
  | .invalidating (key :: left) =>
    some ({ sh with cache := sh.cache.removeLen key }, .lenRemoved key left)
  | .lenRemoved key left =>
    some ({ sh with cache := sh.cache.bumpKeyEpoch key }, .invalidating left)
  | _ => none

def advance (sh : ZsetShared) (t : ZsetTask) : Option (ZsetShared × ZsetPhase) :=
  match t.op with
  | .zcard key batched => sh.zcard key batched t.phase
  | op => sh.write op t.phase

end ZsetShared

/-! ## 実行 -/

/-- 共有の状態と task。 -/
structure ZsetSystem where
  shared : ZsetShared
  tasks : List ZsetTask

def ZsetSystem.start (data : CollectionData) : ZsetSystem := ⟨⟨data, .empty⟩, []⟩

/-- まだ答えていない `ZCARD` は、commit された要素数を見届ける。 -/
def ZsetTask.observe (data : CollectionData) (t : ZsetTask) : ZsetTask :=
  match t.op, t.phase with
  | .zcard .., .replied _ => t
  | .zcard key _, _ => { t with seen := data.liveCount key :: t.seen }
  | _, _ => t

inductive ZsetEvent where
  | invoke (op : ZsetOp)
  | advance (i : Nat)
  | evict
  deriving DecidableEq

/-- 一歩の後で、まだ答えていない `ZCARD` に今の要素数を見届けさせる。 -/
def ZsetSystem.observed (s : ZsetSystem) : ZsetSystem :=
  { s with tasks := s.tasks.map (ZsetTask.observe s.shared.data) }

def ZsetSystem.act (s : ZsetSystem) : ZsetEvent → Option ZsetSystem
  | .invoke op => some { s with tasks := s.tasks ++ [⟨op, .start, []⟩] }
  | .advance i =>
    match s.tasks[i]? with
    | none => none
    | some t =>
      match s.shared.advance t with
      | none => none
      | some (shared, phase) => some ⟨shared, s.tasks.set i { t with phase := phase }⟩
  | .evict =>
    some { s with
      shared := { s.shared with cache := { s.shared.cache with lengths := fun _ => none } } }

def ZsetSystem.step (s : ZsetSystem) (e : ZsetEvent) : Option ZsetSystem :=
  (s.act e).map ZsetSystem.observed

end Onedis.Store
