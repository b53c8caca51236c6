import Onedis.Infra.Run
import Onedis.Infra.Tasks
import Onedis.Store.ZsetPlan

/-!
# 並行に実行する zset の命令

一つの zset に対して、任意個の task が ZADD、ZINCRBY、ZREM、ZPOPMIN / ZPOPMAX を実行する。一歩は、record の読み
出し一回、条件つきの書き込み一回、あるいは guard の取得か手放しである。

* 選択肢つきの ZADD は、guard を取らずに main record を読み、変わっていなければ書く。分けた zset には、読みの
  guard を取って member ごとに同じことをする。
* まとめた ZADD と ZINCRBY は、書きの guard の下で詰めたまま書くことを試み、分けた zset には読みの guard を取り
  直してから書く。
* ZREM と取り出しは、はじめから終わりまで書きの guard を握る。

書き込みに失敗した task は、やり直しても layout を変えてもよい（`alternate`）。member ごとの lock と時刻は表さ
ない。
-/

namespace Onedis.Store

open Infra

/-! ## 状態 -/

abbrev ZsetMain := MainRecord Scores Unit

inductive ZsetWrite
  | put (command : ZsetPut)
  | take (command : ZsetTake)
  deriving DecidableEq

def ZsetWrite.spec (add : UInt64 → UInt64 → UInt64) :
    ZsetWrite → Visible Scores → ZsetReply × Visible Scores
  | .put p => p.spec add
  | .take t => t.spec

/-- 命令の段階。隣り合う段階の間に、ほかの task が入る。 -/
inductive ZsetWritePhase
  | start
  | guarded
  | writing (observed : Option ZsetMain) (expireMs : Nat) (next : Scores) (reply : ZsetReply)
  | promoting
  | promote (expireMs : Nat) (scores : Scores)
  | between
  | locked (exclusive : Bool)
  | versioned (exclusive : Bool) (ver : Nat)
  | creating (exclusive : Bool)
  | seen (exclusive : Bool) (ver : Nat) (items : ZsetItems)
  | done (reply : ZsetReply)
  | abandoned

/-- 実行中の命令。 -/
structure ZsetWriter where
  op : ZsetWrite
  phase : ZsetWritePhase

structure ZsetKey where
  recs : ZsetRecords
  counter : Nat

/-- 一つの zset と、それを書く task。 -/
structure ZsetWriters where
  key : ZsetKey
  tasks : List ZsetWriter

/-! ## score を書く命令の一歩 -/

namespace ZsetPut

variable (add : UInt64 → UInt64 → UInt64) (p : ZsetPut)

def lockFree : ZsetPut → Bool
  | .add _ => true
  | _ => false

def decidePacked (observed : Option ZsetMain) (e : Nat) (content : Scores) : ZsetWritePhase :=
  if p.overflows add content then .promoting
  else
    let out := p.packed add content
    if out.2.2 then .writing observed e out.2.1 out.1 else .done out.1

/--
`try_zset_add_packed_async`, `try_zset_add_batch_packed_async`,
`try_zset_increment_batch_packed_async` の読み出し。
-/
def readMain : Option ZsetMain → ZsetWritePhase
  | none => p.decidePacked add none 0 ∅
  | some (.packed e content) => p.decidePacked add (some (.packed e content)) e content
  | some (.split _ _ _) => if p.lockFree then .between else .promoting
  | some (.foreign _ _) => .done p.wrongType

def readLocked (exclusive : Bool) : Option ZsetMain → ZsetWritePhase
  | none =>
    let out := p.split add ∅
    if out.2.2 = [] then .done out.1 else .creating exclusive
  | some (.packed _ _) => .versioned exclusive 0
  | some (.split _ ver _) => .versioned exclusive ver
  | some (.foreign _ _) => .done p.wrongType

def readMembers (exclusive : Bool) (ver : Nat) (items : ZsetItems) : ZsetWritePhase :=
  let out := p.split add items.members
  if out.2.2 = [] then .done out.1 else .seen exclusive ver items

def conflict (exclusive : Bool) : ZsetWritePhase :=
  if p.lockFree && !exclusive then .between else .locked exclusive

def Unchanged (seen current : ZsetItems) : Prop :=
  ∀ m ∈ (p.split add seen.members).2.2, current.members.lookup m = seen.members.lookup m

instance (seen current : ZsetItems) : Decidable (p.Unchanged add seen current) :=
  inferInstanceAs (Decidable (∀ m ∈ (p.split add seen.members).2.2, _))

/-- 新しい version で、分けた zset を作る。 -/
def commitNew (k : ZsetKey) : ZsetKey :=
  let ver := k.counter + 1
  let out := p.split add ∅
  { recs := (k.recs.setItems ver
      (putTouched (k.recs.items ver) out.2.1 out.2.2.dedup)).setMain (some (.split 0 ver ()))
    counter := ver }

/-- 読んだ member だけを書く。 -/
def commitMembers (ver : Nat) (seen : ZsetItems) (k : ZsetKey) : ZsetKey :=
  let out := p.split add seen.members
  { recs := k.recs.setItems ver (putTouched (k.recs.items ver) out.2.1 out.2.2.dedup)
    counter := k.counter }

def advance (alternate : Bool) (k : ZsetKey) : ZsetWritePhase → Option (ZsetKey × ZsetWritePhase)
  | .start => some (k, if p.lockFree then p.readMain add k.recs.main else .guarded)
  | .guarded => some (k, p.readMain add k.recs.main)
  | .writing observed e next reply =>
    if k.recs.main = observed then
      some (⟨putSmallZset k.recs e (k.counter + 1) next, k.counter + 1⟩, .done reply)
    else if alternate then some (k, .promoting)
    else some (k, if p.lockFree then .start else .guarded)
  | .promoting =>
    match k.recs.main with
    | some (.packed e content) => some (k, .promote e content)
    | _ => some (k, .between)
  | .promote e content =>
    if k.recs.main = some (.packed e content) then
      some (⟨promotePackedZset (k.counter + 1) k.recs, k.counter + 1⟩, .between)
    else some (k, .promoting)
  | .between => some (k, .locked (p.lockFree && alternate))
  | .locked exclusive => some (k, p.readLocked add exclusive k.recs.main)
  | .versioned exclusive ver => some (k, p.readMembers add exclusive ver (k.recs.items ver))
  | .creating exclusive =>
    if k.recs.main = none then some (p.commitNew add k, .done (p.split add ∅).1)
    else some (k, p.conflict exclusive)
  | .seen exclusive ver items =>
    if p.Unchanged add items (k.recs.items ver) then
      some (p.commitMembers add ver items k, .done (p.split add items.members).1)
    else some (k, p.conflict exclusive)
  | .done _ | .abandoned => none

end ZsetPut

/-! ## 取り除く命令の一歩 -/

namespace ZsetTake

variable (t : ZsetTake)

/-- `try_zset_remove_packed_async` と `try_zset_pop_packed_async` の読み出し。 -/
def readMain : Option ZsetMain → ZsetWritePhase
  | none => .done t.nothing
  | some (.packed e content) =>
    let out := t.plan (.ofScores content)
    if out.2 = [] then .done out.1
    else .writing (some (.packed e content)) e
      (out.2.foldl (fun scores m => scores.erase m) content) out.1
  | some (.split _ _ _) => .locked true
  | some (.foreign _ _) => .done t.wrongType

def readLocked (exclusive : Bool) : Option ZsetMain → ZsetWritePhase
  | none => .done t.nothing
  | some (.packed _ _) => .versioned exclusive 0
  | some (.split _ ver _) => .versioned exclusive ver
  | some (.foreign _ _) => .done t.wrongType

def readMembers (exclusive : Bool) (ver : Nat) (items : ZsetItems) : ZsetWritePhase :=
  let out := t.plan items
  if out.2 = [] then .done out.1 else .seen exclusive ver items

def promotes : ZsetTake → Bool
  | .remove _ => true
  | .pop _ _ => false

def advance (alternate : Bool) (k : ZsetKey) : ZsetWritePhase → Option (ZsetKey × ZsetWritePhase)
  | .start => some (k, .guarded)
  | .guarded => some (k, if t.idle then .done t.nothing else t.readMain k.recs.main)
  | .writing observed e next reply =>
    if k.recs.main = observed then
      some ({ k with recs := k.recs.setMain (if next = ∅ then none else some (.packed e next)) },
        .done reply)
    else some (k, if alternate && t.promotes then .promoting else .guarded)
  | .promoting =>
    match k.recs.main with
    | some (.packed e content) => some (k, .promote e content)
    | _ => some (k, .locked true)
  | .promote e content =>
    if k.recs.main = some (.packed e content) then
      some (⟨promotePackedZset (k.counter + 1) k.recs, k.counter + 1⟩, .locked true)
    else some (k, .promoting)
  | .locked exclusive => some (k, t.readLocked exclusive k.recs.main)
  | .versioned exclusive ver => some (k, t.readMembers exclusive ver (k.recs.items ver))
  | .seen _ ver items => some ({ k with recs := t.commit k.recs ver items }, .done (t.plan items).1)
  | .between | .creating _ | .done _ | .abandoned => none

end ZsetTake

/-! ## 全体の一歩 -/

namespace ZsetWrite

variable (add : UInt64 → UInt64 → UInt64)

def lockFree : ZsetWrite → Bool
  | .put p => p.lockFree
  | .take _ => false

def advance (alternate : Bool) (k : ZsetKey) :
    ZsetWrite → ZsetWritePhase → Option (ZsetKey × ZsetWritePhase)
  | .put p => p.advance add alternate k
  | .take t => t.advance alternate k

end ZsetWrite

def ZsetWriter.guard (t : ZsetWriter) : Guard :=
  match t.phase with
  | .start | .between | .done _ | .abandoned => .free
  | .guarded => .write
  | .writing _ _ _ _ | .promoting | .promote _ _ => if t.op.lockFree then .free else .write
  | .locked exclusive | .versioned exclusive _ | .creating exclusive | .seen exclusive _ _ =>
    if exclusive then .write else .read

inductive ZsetWriterEvent
  | spawn (op : ZsetWrite)
  | advance (task : Nat) (alternate : Bool)
  | abandon (task : Nat)

namespace ZsetWriters

variable (add : UInt64 → UInt64 → UInt64)

def move (s : ZsetWriters) (i : Nat) (t : ZsetWriter) (k : ZsetKey) (phase : ZsetWritePhase) :
    Option ZsetWriters :=
  if GuardMove ZsetWriter.guard s.tasks t ⟨t.op, phase⟩ then some ⟨k, s.tasks.set i ⟨t.op, phase⟩⟩
  else none

def step (s : ZsetWriters) : ZsetWriterEvent → Option ZsetWriters
  | .spawn op => some { s with tasks := s.tasks ++ [⟨op, .start⟩] }
  | .advance i alternate =>
    s.tasks[i]?.bind fun t =>
      (t.op.advance add alternate s.key t.phase).bind fun r => s.move i t r.1 r.2
  | .abandon i =>
    s.tasks[i]?.bind fun t =>
      match t.phase with
      | .done _ => none
      | _ => s.move i t s.key .abandoned

end ZsetWriters

/-! ## 条件 -/

/--
一列に並べられる一歩。

* 書きの guard の下で詰めたまま書くまとめた ZADD は、零の符号を書き換えない。
* 分けた zset としての読み出しは、詰めた record に出会わない。
* 分けた zset への書き込みが通るときは、命令に出てくる member はどれも読んだときのままである。まとめた ZINCRBY
  は、零の符号を書き残さない。
-/
def ZsetWriter.Calm (add : UInt64 → UInt64 → UInt64) (k : ZsetKey) (t : ZsetWriter) : Prop :=
  match t.op, t.phase with
  | .put p, .guarded =>
    match k.recs.main with
    | none => p.PackedExact ∅
    | some (.packed _ content) => p.PackedExact content
    | _ => True
  | _, .locked _ =>
    match k.recs.main with
    | some (.packed _ _) => False
    | _ => True
  | .put p, .versioned _ ver =>
    let content := (k.recs.items ver).members
    (p.split add content).2.2 = [] → p.SplitExact add content
  | .put p, .seen _ ver items =>
    let content := (k.recs.items ver).members
    p.Unchanged add items (k.recs.items ver) →
      AgreeOn p.members items.members content ∧ p.SplitExact add content
  | _, _ => True

instance (add : UInt64 → UInt64 → UInt64) (k : ZsetKey) (t : ZsetWriter) :
    Decidable (t.Calm add k) := by
  unfold ZsetWriter.Calm
  split
  · split <;> infer_instance
  · split <;> infer_instance
  all_goals infer_instance

namespace ZsetWriters

def Calm (add : UInt64 → UInt64 → UInt64) (s : ZsetWriters) : ZsetWriterEvent → Prop
  | .advance i _ => ∀ t ∈ s.tasks[i]?, t.Calm add s.key
  | _ => True

instance (add : UInt64 → UInt64 → UInt64) (s : ZsetWriters) (event : ZsetWriterEvent) :
    Decidable (s.Calm add event) := by
  unfold Calm
  split <;> infer_instance

end ZsetWriters

/-! ## 一列の実行 -/

structure ZsetDone where
  task : Nat
  op : ZsetWrite
  reply : ZsetReply

def ZsetWriter.effect (i : Nat) (t : ZsetWriter) : Option ZsetDone :=
  match t.phase with
  | .done reply => some ⟨i, t.op, reply⟩
  | _ => none

/-- 記録の命令を順に一つずつ実行すると、どの返事も記録のとおりで、見える中身は `v'` になる。 -/
def Serial (add : UInt64 → UInt64 → UInt64) : List ZsetDone → Visible Scores → Visible Scores → Prop
  | [], v, v' => v = v'
  | entry :: log, v, v' =>
    (entry.op.spec add v).1 = entry.reply ∧ Serial add log (entry.op.spec add v).2 v'

theorem Serial.append {add : UInt64 → UInt64 → UInt64} {log : List ZsetDone}
    {v v' : Visible Scores} (h : Serial add log v v') (entry : ZsetDone)
    (hreply : (entry.op.spec add v').1 = entry.reply) :
    Serial add (log ++ [entry]) v (entry.op.spec add v').2 := by
  induction log generalizing v with
  | nil =>
    cases h
    exact ⟨hreply, rfl⟩
  | cons first log ih => exact ⟨h.1, ih h.2⟩

end Onedis.Store
