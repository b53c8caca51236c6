import Onedis.Infra.Run
import Onedis.Infra.Tasks
import Onedis.Store.Collection

/-!
# hash の長さの cache

`HLEN` と `HDEL` は field の数を、key ごとの epoch と共に cache に置き、version と epoch が今のものなら
次からは数えない。書き込みは commit の後で epoch を進め、範囲削除は database の cache と epoch を消す。
`HLEN` は lock を取らず、`HSET` は構造 lock を読みで、`HDEL` / `DEL` / `RENAME` / `FLUSHDB` は書きで握る。
-/

namespace Onedis.Store

open Infra

/-! ## cache -/

/-- cache の entry。数えたときの version と epoch を持つ。 -/
structure HashLenCacheEntry where
  len : Nat
  version : Nat
  keyEpoch : Nat
  deriving DecidableEq, Repr

/-- 長さの cache。epoch は書き込みのたびに進む。 -/
structure HashCache where
  epochs : DbKey → Nat
  lengths : DbKey → Option HashLenCacheEntry
  everPopulated : Bool

namespace HashCache

def insertLen (c : HashCache) (key : DbKey) (entry : HashLenCacheEntry) : HashCache :=
  { c with lengths := Function.update c.lengths key (some entry) }

/-- `touched` の key の epoch を進める。cache が使われたことがなければ何もしない。 -/
def invalidateHashKeys (c : HashCache) (touched : DbKey → Bool) : HashCache :=
  if c.everPopulated then
    { c with epochs := fun k => if touched k then c.epochs k + 1 else c.epochs k }
  else c

def clearLengths (c : HashCache) (db : Nat) : HashCache :=
  { c with lengths := fun k => if k.1 = db then none else c.lengths k }

/-- epoch は `0` に戻る。 -/
def resetEpochs (c : HashCache) (db : Nat) : HashCache :=
  { c with epochs := fun k => if k.1 = db then 0 else c.epochs k }

@[simp] theorem invalidateHashKeys_lengths (c : HashCache) (touched : DbKey → Bool) :
    (c.invalidateHashKeys touched).lengths = c.lengths := by
  unfold invalidateHashKeys
  split <;> rfl

@[simp] theorem invalidateHashKeys_everPopulated (c : HashCache) (touched : DbKey → Bool) :
    (c.invalidateHashKeys touched).everPopulated = c.everPopulated := by
  unfold invalidateHashKeys
  split <;> rfl

theorem invalidateHashKeys_epochs {c : HashCache} (h : c.everPopulated = true)
    (touched : DbKey → Bool) (k : DbKey) :
    (c.invalidateHashKeys touched).epochs k = if touched k then c.epochs k + 1 else c.epochs k := by
  simp [invalidateHashKeys, h]

theorem invalidateHashKeys_of_unpopulated {c : HashCache} (h : c.everPopulated = false)
    (touched : DbKey → Bool) : c.invalidateHashKeys touched = c := by
  simp [invalidateHashKeys, h]

end HashCache

/-! ## task -/

/-- task の実行する命令。 -/
inductive HashOp where
  | hlen (key : DbKey)
  | hdel (key : DbKey) (requested : Finset Bytes)
  | hset (key : DbKey) (added : Finset Bytes) (promote : Bool)
  | del (db : Nat) (keys : List Bytes)
  | rename (db : Nat) (source target : Bytes)
  | flush (db : Nat)

/-- 命令の段階。隣り合う段階の間に、ほかの task が入る。 -/
inductive HashPhase where
  | start
  | locked
  | read (ver : Nat)
  | epoch (ver epoch : Nat)
  | counting (ver epoch : Nat)
  | counted (ver epoch len : Nat)
  | flagged (ver epoch len : Nat)
  | total (ver : Nat) (ttl : Bool) (len : Nat)
  | deleted (ver : Nat) (ttl : Bool) (rest : Nat)
  | invalidated (ver : Nat) (ttl : Bool) (rest : Nat)
  | renewed (ver rest epoch : Nat)
  | committed (touched : DbKey → Bool)
  | rangeCommitted
  | cleared
  | done

/-- 実行中の命令。 -/
structure HashTask where
  op : HashOp
  phase : HashPhase

/-- 命令が lock を取る範囲。 -/
inductive HashScope where
  | keys (keys : List DbKey)
  | db (db : Nat)

namespace HashScope

def contains : HashScope → DbKey → Bool
  | keys ks, k => ks.contains k
  | db i, k => k.1 == i

def overlaps : HashScope → HashScope → Bool
  | keys ks, scope => ks.any scope.contains
  | db i, keys ks => ks.any fun k => k.1 == i
  | db i, db j => i == j

theorem overlaps_of_contains {a b : HashScope} {k : DbKey} (ha : a.contains k = true)
    (hb : b.contains k = true) : a.overlaps b = true := by
  cases a with
  | keys ks =>
    have hk : k ∈ ks := by simpa [contains] using ha
    exact List.any_eq_true.mpr ⟨k, hk, hb⟩
  | db db =>
    have hk : k.1 = db := by simpa [contains] using ha
    cases b with
    | keys ks =>
      have hks : k ∈ ks := by simpa [contains] using hb
      exact List.any_eq_true.mpr ⟨k, hks, by simpa using hk⟩
    | db db' =>
      have hk' : k.1 = db' := by simpa [contains] using hb
      simp [overlaps, ← hk, hk']

end HashScope

namespace HashOp

def scope : HashOp → HashScope
  | hlen _ => .keys []
  | hdel key _ => .keys [key]
  | hset key _ _ => .keys [key]
  | del db ks => .keys (ks.map (db, ·))
  | rename db source target => .keys [(db, source), (db, target)]
  | flush db => .db db

def mode : HashOp → Guard
  | hset _ _ _ => .read
  | _ => .write

def dbIndex : HashOp → Nat
  | hlen key => key.1
  | hdel key _ => key.1
  | hset key _ _ => key.1
  | del db _ => db
  | rename db _ _ => db
  | flush db => db

end HashOp

namespace HashTask

def held (t : HashTask) : Bool :=
  match t.phase with
  | .start | .done => false
  | _ => true

/-- key `k` の構造 lock について task が握るもの。 -/
def guardOn (k : DbKey) (t : HashTask) : Guard :=
  if t.held && t.op.scope.contains k then t.op.mode else .free

/-- `op` の lock を、task `p` があっても取れる。 -/
def Admits (p : HashTask) (op : HashOp) : Prop :=
  p.held = true → op.scope.overlaps p.op.scope = true → op.mode = .read ∧ p.op.mode = .read

instance (p : HashTask) (op : HashOp) : Decidable (p.Admits op) :=
  inferInstanceAs (Decidable (_ → _ → _))

/-- key `k` に commit したが、epoch をまだ進めていない。 -/
def InWindow (k : DbKey) (t : HashTask) : Prop :=
  match t.op, t.phase with
  | .hdel key _, .deleted _ _ _ => k = key
  | _, .committed touched => touched k = true
  | _, _ => False

instance (k : DbKey) (t : HashTask) : Decidable (t.InWindow k) := by
  unfold InWindow
  split <;> infer_instance

/-- database `db` の key の epoch を読み、まだ使い終わっていない。 -/
def HoldsEpoch (db : Nat) (t : HashTask) : Prop :=
  match t.phase with
  | .epoch _ _ | .counting _ _ | .counted _ _ _ | .flagged _ _ _ | .renewed _ _ _ =>
    t.op.dbIndex = db
  | _ => False

instance (db : Nat) (t : HashTask) : Decidable (t.HoldsEpoch db) := by
  unfold HoldsEpoch
  split <;> infer_instance

end HashTask

/-! ## 一歩 -/

/-- 返した長さと、その時の本当の長さ。 -/
structure LenAnswer where
  key : DbKey
  len : Nat
  live : Nat
  deriving DecidableEq, Repr

/-- `HDEL` が main record を消したかと、commit した時点で残った field の数。 -/
structure MainDeletion where
  key : DbKey
  mainDeleted : Bool
  remaining : Nat
  deriving DecidableEq, Repr

/-- task の外にある状態。`answers` と `deletions` は記録で、実行に影響しない。 -/
structure HashShared where
  data : CollectionData
  cache : HashCache
  answers : List LenAnswer
  deletions : List MainDeletion

namespace HashShared

def afterProbe : HashOp → Nat → Nat → HashPhase
  | .hdel _ _, ver, len => .total ver false len
  | _, _, _ => .done

/-- `HLEN` と `HDEL` が共に行う、長さの調べ方。 -/
def probe (sh : HashShared) (op : HashOp) (key : DbKey) :
    HashPhase → Option (HashShared × HashPhase)
  | .read ver => some (sh, .epoch ver (sh.cache.epochs key))
  | .epoch ver epoch =>
    match sh.cache.lengths key with
    | some cached =>
      if cached.version = ver ∧ cached.keyEpoch = epoch then
        some ({ sh with answers := sh.answers ++ [⟨key, cached.len, sh.data.liveCount key⟩] },
          afterProbe op ver cached.len)
      else some (sh, .counting ver epoch)
    | none => some (sh, .counting ver epoch)
  | .counting ver epoch => some (sh, .counted ver epoch (sh.data.members key ver).card)
  | .counted ver epoch len =>
    some ({ sh with cache := { sh.cache with everPopulated := true } },
      .flagged ver epoch len)
  | .flagged ver epoch len =>
    some ({ sh with cache := sh.cache.insertLen key ⟨len, ver, epoch⟩ },
      afterProbe op ver len)
  | _ => none

def hlen (sh : HashShared) (key : DbKey) : HashPhase → Option (HashShared × HashPhase)
  | .start =>
    match sh.data.records key with
    | some (.split ver false) => some (sh, .read ver)
    | _ => some (sh, .done)
  | phase => sh.probe (.hlen key) key phase

def hdelPacked (sh : HashShared) (key : DbKey) (requested fields : Finset Bytes) :
    HashShared × HashPhase :=
  if fields ∩ requested = ∅ then (sh, .done)
  else
    ({ sh with
        data := sh.data.setRecord key
          (if fields \ requested = ∅ then none else some (.packed (fields \ requested)))
        deletions := sh.deletions ++
          [⟨key, fields \ requested = ∅, (fields \ requested).card⟩] },
      .committed fun k => k = key)

/-- version を持つ hash からの削除。`len` は先に得た全体の長さである。 -/
def hdelSplit (sh : HashShared) (key : DbKey) (requested : Finset Bytes) (ver : Nat)
    (ttl : Bool) (len : Nat) : HashShared × HashPhase :=
  if (sh.data.members key ver ∩ requested).card = 0 then (sh, .done)
  else
    ({ sh with
        data := sh.data.deleteMembers key ver requested len
        deletions := sh.deletions ++
          [⟨key, len = (sh.data.members key ver ∩ requested).card,
            (sh.data.members key ver \ requested).card⟩] },
      .deleted ver ttl (len - (sh.data.members key ver ∩ requested).card))

/-- `hash_delete_ordered_refs_async` の一歩。 -/
def hdel (sh : HashShared) (key : DbKey) (requested : Finset Bytes) :
    HashPhase → Option (HashShared × HashPhase)
  | .locked =>
    match sh.data.records key with
    | none => some (sh, .done)
    | some (.packed fields) => some (sh.hdelPacked key requested fields)
    | some (.split ver false) => some (sh, .read ver)
    | some (.split ver true) => some (sh, .total ver true (sh.data.members key ver).card)
  | .total ver ttl len => some (sh.hdelSplit key requested ver ttl len)
  | .deleted ver ttl rest =>
    some ({ sh with cache := sh.cache.invalidateHashKeys fun k => k = key },
      .invalidated ver ttl rest)
  | .invalidated ver ttl rest =>
    if ttl = false ∧ 0 < rest then some (sh, .renewed ver rest (sh.cache.epochs key))
    else some (sh, .done)
  | .renewed ver rest epoch =>
    some ({ sh with cache := sh.cache.insertLen key ⟨rest, ver, epoch⟩ }, .done)
  | .committed touched => some ({ sh with cache := sh.cache.invalidateHashKeys touched }, .done)
  | phase => sh.probe (.hdel key requested) key phase

def commit (sh : HashShared) : HashOp → Option (HashShared × HashPhase)
  | .hset key added promote =>
    some ({ sh with data := sh.data.addMembers key added promote }, .committed fun k => k = key)
  | .del db keys =>
    some ({ sh with data := keys.foldl (fun d key => d.remove (db, key)) sh.data },
      .rangeCommitted)
  | .rename db source target =>
    if source = target ∨ sh.data.records (db, source) = none then some (sh, .done)
    else
      -- transaction の commit は、二つの key の epoch を進める
      some ({ sh with data := sh.data.rename (db, source) (db, target) },
        .committed fun k => k = (db, source) ∨ k = (db, target))
  | .flush db =>
    some ({ sh with data := sh.data.flush db },
      .committed fun k => k.1 = db ∧ (sh.data.records k).isSome)
  | _ => none

def write (sh : HashShared) (op : HashOp) : HashPhase → Option (HashShared × HashPhase)
  | .locked => sh.commit op
  | .committed touched => some ({ sh with cache := sh.cache.invalidateHashKeys touched }, .done)
  | .rangeCommitted =>
    if sh.cache.everPopulated then
      some ({ sh with cache := sh.cache.clearLengths op.dbIndex }, .cleared)
    else some (sh, .done)
  | .cleared => some ({ sh with cache := sh.cache.resetEpochs op.dbIndex }, .done)
  | _ => none

def advance (sh : HashShared) (tasks : List HashTask) (t : HashTask) :
    Option (HashShared × HashPhase) :=
  match t.op, t.phase with
  | .hlen key, phase => sh.hlen key phase
  | op, .start => if ∀ p ∈ tasks, p.Admits op then some (sh, .locked) else none
  | .hdel key requested, phase => sh.hdel key requested phase
  | op, phase => sh.write op phase

end HashShared

/-- 共有の状態と task。 -/
structure HashSystem where
  shared : HashShared
  tasks : List HashTask

def HashSystem.start (data : CollectionData) : HashSystem :=
  ⟨⟨data, ⟨fun _ => 0, fun _ => none, false⟩, [], []⟩, []⟩

/-- 一歩ごとの出来事。`merge` は lock を取らない書き込みである。 -/
inductive HashEvent where
  | invoke (op : HashOp)
  | advance (i : Nat)
  | merge (key : DbKey) (ver : Nat) (field : Bytes)
  | evict

/-- 一つの出来事で移る。 -/
def HashSystem.step (s : HashSystem) : HashEvent → Option HashSystem
  | .invoke op => some { s with tasks := s.tasks ++ [⟨op, .start⟩] }
  | .advance i =>
    match s.tasks[i]? with
    | none => none
    | some t =>
      match s.shared.advance s.tasks t with
      | none => none
      | some (shared, phase) => some ⟨shared, s.tasks.set i ⟨t.op, phase⟩⟩
  | .merge key ver field =>
    if CanRead (HashTask.guardOn key) s.tasks then
      some { s with
        shared := { s.shared with
          data := s.shared.data.setMembers key ver
            (insert field (s.shared.data.members key ver)) } }
    else none
  | .evict =>
    some { s with
      shared := { s.shared with cache := { s.shared.cache with lengths := fun _ => none } } }

end Onedis.Store
