import Onedis.Store.ZsetCardCache

/-!
# `ZCARD` の答えは、受け取ってから答えるまでのどこかの要素数である

数えた値は、数える前に読んだ version と二つの epoch（stamp）と共に生きる。

* `Trails` — stamp は今の epoch を追い越さない。epoch を戻している最中だけは key の epoch について何も言わない
* `Fresh` — stamp が今の epoch に合い、無効化を終えていない書き込みがなければ、数えた値は今の member の数である
-/

namespace Onedis.Store

open Infra Function List ZsetSystem

/-! ## 条件 -/

/-- commit した変更のうち、`k` の無効化をまだ終えていない。 -/
def ZsetTask.InWindow (k : DbKey) (t : ZsetTask) : Prop :=
  match t.phase with
  | .committed _ | .lengthsCleared _ | .epochsReset _ => k ∈ t.op.touched
  | .invalidating left => k ∈ left
  | .lenRemoved key left => k ∈ key :: left
  | _ => False

def ZsetTask.Resetting (db : Nat) (t : ZsetTask) : Prop :=
  match t.phase with
  | .epochsReset _ => t.op.dbIndex = db
  | _ => False

instance (k : DbKey) (t : ZsetTask) : Decidable (t.InWindow k) := by
  unfold ZsetTask.InWindow
  split <;> infer_instance

instance (db : Nat) (t : ZsetTask) : Decidable (t.Resetting db) := by
  unfold ZsetTask.Resetting
  split <;> infer_instance

namespace ZsetSystem

def Settled (s : ZsetSystem) (k : DbKey) : Prop := ∀ t ∈ s.tasks, ¬ t.InWindow k

def Steady (s : ZsetSystem) (db : Nat) : Prop := ∀ t ∈ s.tasks, ¬ t.Resetting db

def Current (s : ZsetSystem) (k : DbKey) (stamp : ZsetStamp) : Prop :=
  stamp.keyEpoch = s.shared.cache.keyEpochs k ∧ stamp.dbEpoch = s.shared.cache.dbEpochs k.1

instance (s : ZsetSystem) (k : DbKey) : Decidable (s.Settled k) :=
  inferInstanceAs (Decidable (∀ t ∈ s.tasks, ¬ t.InWindow k))

instance (s : ZsetSystem) (db : Nat) : Decidable (s.Steady db) :=
  inferInstanceAs (Decidable (∀ t ∈ s.tasks, ¬ t.Resetting db))

instance (s : ZsetSystem) (k : DbKey) (stamp : ZsetStamp) : Decidable (s.Current k stamp) :=
  inferInstanceAs (Decidable (_ ∧ _))

/--
`ZCARD` が一歩進むときの条件。

* 読み直しでは、record は version を持つ形になっていない
* database の epoch を読むとき、key の epoch は読んだままで、epoch を戻す途中の task はない
* cache の値で答えるとき、stamp は今のもので、無効化を終えていない書き込みはない
-/
def ReadAdmits (s : ZsetSystem) (key : DbKey) : ZsetPhase → Prop
  | .reread =>
    match s.shared.data.records key with
    | some (.split ..) => False
    | _ => True
  | .keyEpochRead _ keyEpoch => keyEpoch = s.shared.cache.keyEpochs key ∧ s.Steady key.1
  | .stamped stamp =>
    (s.shared.cache.lengths key).map (·.toZsetStamp) = some stamp →
      s.Current key stamp ∧ s.Steady key.1 ∧ s.Settled key
  | _ => True

instance (s : ZsetSystem) (key : DbKey) (phase : ZsetPhase) :
    Decidable (s.ReadAdmits key phase) := by
  unfold ReadAdmits
  split
  · split <;> infer_instance
  all_goals infer_instance

def Admits (s : ZsetSystem) : ZsetEvent → Prop
  | .advance i =>
    match s.tasks[i]? with
    | some ⟨.zcard key _, phase, _⟩ => s.ReadAdmits key phase
    | _ => True
  | _ => True

instance (s : ZsetSystem) (e : ZsetEvent) : Decidable (s.Admits e) := by
  unfold Admits
  split
  · split <;> infer_instance
  · infer_instance

end ZsetSystem

/-! ## 書き込みと member record -/

def CollectionData.Wiped (d : CollectionData) : Prop :=
  ∀ k ver, (∀ ttl, d.records k ≠ some (.split ver ttl)) → d.members k ver = ∅

namespace CollectionData

variable {d d' : CollectionData} {key k : DbKey} {ver : Nat} {ttl : Bool}

theorem Wiped.replace (h : d.Wiped)
    (hother : ∀ k, k ≠ key → d.SameAt d' k)
    (hkey : ∀ ver, (∀ ttl, d'.records key ≠ some (.split ver ttl)) →
      d'.members key ver = ∅) : d'.Wiped := by
  intro k ver hne
  by_cases hk : k = key
  · subst hk
    exact hkey ver hne
  · obtain ⟨hr, hm⟩ := hother k hk
    rw [hm]
    exact h k ver fun ttl => hr ▸ hne ttl

theorem Wiped.setMembers_of_ne (h : d.Wiped) (hrec : d.records key = some (.split ver ttl))
    {other : Nat} (hne : other ≠ ver) (members : Finset Bytes) :
    (d.setMembers key ver members).members key other = ∅ := by
  simp only [setMembers, update_self, update_of_ne hne]
  refine h key other fun ttl' hc => hne ?_
  rw [hrec] at hc
  cases hc
  rfl

theorem Wiped.members_eq_empty (h : d.Wiped)
    (hrec : ∀ ver ttl, d.records key ≠ some (.split ver ttl)) (ver : Nat) :
    d.members key ver = ∅ := h key ver (hrec ver)

theorem Wiped.addMembers (h : d.Wiped) (added : Finset Bytes) (promote : Bool) :
    (d.addMembers key added promote).Wiped := by
  refine h.replace (fun k hk => addMembers_of_ne hk promote) fun ver hne => ?_
  unfold CollectionData.addMembers at hne ⊢
  split at hne
  · next current ttl hrec =>
    have hversion : ver ≠ current := fun hc => hne ttl (hc ▸ hrec)
    exact h.setMembers_of_ne hrec hversion _
  · next hrec =>
    split at hne
    · next hpromote =>
      have hversion : ver ≠ d.counter + 1 := by
        rintro rfl
        exact hne false (setRecord_self _)
      rw [if_pos hpromote]
      simp only [create, setRecord, setMembers, update_self,
        update_of_ne hversion]
      exact h.members_eq_empty hrec ver
    · next hpromote =>
      rw [if_neg hpromote]
      exact h.members_eq_empty hrec ver

theorem Wiped.remove (h : d.Wiped) : (d.remove key).Wiped := by
  refine h.replace (fun k hk => remove_of_ne hk) fun ver _ => ?_
  unfold CollectionData.remove
  split
  · next current ttl hrec =>
    by_cases hversion : ver = current
    · subst hversion
      exact setMembers_self ∅
    · exact h.setMembers_of_ne hrec hversion ∅
  · next hrec => exact h.members_eq_empty hrec ver

theorem removeMembers_of_ne (hk : k ≠ key) (requested : Finset Bytes) :
    d.SameAt (d.removeMembers key requested) k := by
  unfold removeMembers
  split
  · exact ⟨rfl, rfl⟩
  · exact ⟨setRecord_of_ne hk _, rfl⟩
  · refine ⟨deleteMembers_records_of_ne hk, ?_⟩
    rw [deleteMembers_members]
    exact setMembers_of_ne hk _

theorem deleteMembers_all (hrec : d.records key = some (.split ver ttl))
    (requested : Finset Bytes) :
    let d' := d.deleteMembers key ver requested (d.members key ver).card
    (d'.records key = none ∧ d'.members key ver = ∅) ∨
      d'.records key = some (.split ver ttl) := by
  unfold deleteMembers
  split
  · next hcard =>
    refine .inl ⟨setRecord_self _, ?_⟩
    have hall : d.members key ver ∩ requested = d.members key ver :=
      Finset.eq_of_subset_of_card_le Finset.inter_subset_left hcard.le
    show (d.setMembers key ver _).members key ver = ∅
    rw [setMembers_self, Finset.sdiff_eq_empty_iff_subset]
    exact Finset.inter_eq_left.mp hall
  · exact .inr hrec

theorem Wiped.removeMembers (h : d.Wiped) (requested : Finset Bytes) :
    (d.removeMembers key requested).Wiped := by
  refine h.replace (fun k hk => removeMembers_of_ne hk requested) fun ver hne => ?_
  unfold CollectionData.removeMembers at hne ⊢
  split at hne
  · next hrec => exact h.members_eq_empty (fun ver ttl hc => by rw [hrec] at hc; cases hc) ver
  · next hrec => exact h.members_eq_empty (fun ver ttl hc => by rw [hrec] at hc; cases hc) ver
  · next current ttl hrec =>
    by_cases hversion : ver = current
    · subst hversion
      rcases deleteMembers_all hrec requested with ⟨-, hempty⟩ | hkept
      · exact hempty
      · exact absurd hkept (hne ttl)
    · rw [deleteMembers_members]
      exact h.setMembers_of_ne hrec hversion _

end CollectionData
open CollectionData

namespace ZsetOp

variable {d : CollectionData} {op : ZsetOp} {k : DbKey}

theorem commit_of_not_touched (hk : k ∉ op.touched) :
    d.SameAt (op.commit d) k := by
  cases op with
  | zcard => exact ⟨rfl, rfl⟩
  | zadd key added promote => exact addMembers_of_ne (ne_of_not_mem_cons hk) promote
  | zrem key requested => exact removeMembers_of_ne (ne_of_not_mem_cons hk) requested
  | remove db keys resets =>
    refine (foldl_remove keys).2.2 ?_
    rintro ⟨key, hkey, rfl⟩
    exact hk (mem_map_of_mem hkey)

theorem commit_wiped (h : d.Wiped) : (op.commit d).Wiped := by
  cases op with
  | zcard => exact h
  | zadd key added promote => exact h.addMembers added promote
  | zrem key requested => exact h.removeMembers requested
  | remove db keys resets =>
    show (keys.foldl _ d).Wiped
    induction keys generalizing d with
    | nil => exact h
    | cons key keys ih => exact ih h.remove

theorem commit_split {ver : Nat} {ttl : Bool} (h : d.records k = some (.split ver ttl)) :
    (op.commit d).records k = some (.split ver ttl) ∨ (op.commit d).records k = none := by
  by_cases hk : k ∈ op.touched
  · cases op with
    | zcard => exact .inl h
    | zadd key added promote =>
      obtain rfl := mem_singleton.mp hk
      left
      simp only [commit, addMembers, h]
      exact h
    | zrem key requested =>
      obtain rfl := mem_singleton.mp hk
      simp only [commit, CollectionData.removeMembers, h]
      rcases deleteMembers_all h requested with ⟨hnone, -⟩ | hkept
      · exact .inr hnone
      · exact .inl hkept
    | remove db keys resets =>
      obtain ⟨key, hkey, rfl⟩ := mem_map.mp hk
      exact .inr ((foldl_remove keys).2.1 (.inl ⟨key, hkey, rfl⟩))
  · exact .inl ((commit_of_not_touched hk).1.trans h)

end ZsetOp

namespace ZsetSystem

/-! ## 不変条件 -/

structure Trails (s : ZsetSystem) (k : DbKey) (stamp : ZsetStamp) : Prop where
  db_le : stamp.dbEpoch ≤ s.shared.cache.dbEpochs k.1
  key_le : s.Steady k.1 → stamp.dbEpoch = s.shared.cache.dbEpochs k.1 →
    stamp.keyEpoch ≤ s.shared.cache.keyEpochs k

structure Fresh (s : ZsetSystem) (k : DbKey) (stamp : ZsetStamp) (len : Nat) : Prop
    extends s.Trails k stamp where
  len_eq : s.Steady k.1 → s.Settled k → s.Current k stamp →
    len = (s.shared.data.members k stamp.version).card

def Follows (s : ZsetSystem) (key : DbKey) (seen : List Nat) (ver : Nat) : Prop :=
  (∃ ttl, s.shared.data.records key = some (.split ver ttl)) ∨ 0 ∈ seen

/-- `ZCARD` が手元に持つものについて。 -/
def ReaderInv (s : ZsetSystem) (key : DbKey) (seen : List Nat) : ZsetPhase → Prop
  | .start | .reread => s.shared.data.liveCount key ∈ seen
  | .versioned ver => s.shared.data.liveCount key ∈ seen ∧ s.Follows key seen ver
  | .flagged ver | .keyEpochRead ver _ =>
    s.shared.data.liveCount key ∈ seen ∧ s.Follows key seen ver ∧
      s.shared.cache.everPopulated = true
  | .stamped stamp | .counting stamp =>
    s.shared.data.liveCount key ∈ seen ∧ s.Follows key seen stamp.version ∧
      s.shared.cache.everPopulated = true ∧ s.Trails key stamp
  | .counted stamp len | .rechecked stamp len | .inserting stamp len =>
    len ∈ seen ∧ s.shared.cache.everPopulated = true ∧ s.Fresh key stamp len
  | .replied len => len ∈ seen
  | _ => False

def TaskInv (s : ZsetSystem) (t : ZsetTask) : Prop :=
  match t.op with
  | .zcard key _ => s.ReaderInv key t.seen t.phase
  | _ => True

end ZsetSystem

/-- 実行を通じて成り立つこと。 -/
structure ZsetInv (s : ZsetSystem) : Prop where
  wiped : s.shared.data.Wiped
  entries : ∀ k entry, s.shared.cache.lengths k = some entry →
    s.shared.cache.everPopulated = true ∧ s.Fresh k entry.toZsetStamp entry.len
  tasks : ∀ t ∈ s.tasks, s.TaskInv t

theorem ZsetInv.start {data : CollectionData}
    (h : data.Wiped) : ZsetInv (start data) where
  wiped := h
  entries := by
    intro k entry hentry
    cases hentry
  tasks := by
    intro t ht
    cases ht

/-! ## 一歩が epoch に与える影響 -/

/-- `k` の epoch と member についての、一歩の前後。 -/
inductive Progress (s s' : ZsetSystem) (k : DbKey) : Prop
  | same (hkey : s'.shared.cache.keyEpochs k = s.shared.cache.keyEpochs k)
      (hdb : s'.shared.cache.dbEpochs k.1 = s.shared.cache.dbEpochs k.1)
      (hsteady : s'.Steady k.1 → s.Steady k.1) (hsettled : s'.Settled k → s.Settled k)
      (hmembers : s'.Settled k → s'.shared.data.members k = s.shared.data.members k)
  | keyBumped (hkey : s.shared.cache.keyEpochs k < s'.shared.cache.keyEpochs k)
      (hdb : s'.shared.cache.dbEpochs k.1 = s.shared.cache.dbEpochs k.1)
      (hsteady : s'.Steady k.1 → s.Steady k.1)
  | resetting (hdb : s'.shared.cache.dbEpochs k.1 = s.shared.cache.dbEpochs k.1)
      (hsteady : ¬ s'.Steady k.1)
  | dbBumped (hdb : s.shared.cache.dbEpochs k.1 < s'.shared.cache.dbEpochs k.1)

section

variable {s s' : ZsetSystem} {k : DbKey} {stamp : ZsetStamp} {len : Nat}

theorem ZsetSystem.Trails.progress (h : s.Trails k stamp) (hp : Progress s s' k) :
    s'.Trails k stamp := by
  obtain ⟨hdble, hkeyle⟩ := h
  cases hp with
  | same hkey hdb hsteady _ _ =>
    refine ⟨hdb ▸ hdble, fun hs heq => ?_⟩
    rw [hkey]
    exact hkeyle (hsteady hs) (heq.trans hdb)
  | keyBumped hkey hdb hsteady =>
    refine ⟨hdb ▸ hdble, fun hs heq => ?_⟩
    exact (hkeyle (hsteady hs) (heq.trans hdb)).trans hkey.le
  | resetting hdb hsteady => exact ⟨hdb ▸ hdble, fun hs => absurd hs hsteady⟩
  | dbBumped hdb => exact ⟨hdble.trans hdb.le, fun _ heq => by omega⟩

theorem ZsetSystem.Fresh.progress (h : s.Fresh k stamp len) (hp : Progress s s' k) :
    s'.Fresh k stamp len := by
  refine ⟨h.toTrails.progress hp, fun hs hsettled hcur => ?_⟩
  obtain ⟨hkeycur, hdbcur⟩ := hcur
  cases hp with
  | same hkey hdb hsteady hset hmembers =>
    rw [hmembers hsettled]
    exact h.len_eq (hsteady hs) (hset hsettled) ⟨hkeycur.trans hkey, hdbcur.trans hdb⟩
  | keyBumped hkey hdb hsteady =>
    -- epoch が進んだので、追い越していない stamp は今のものではない
    have := h.key_le (hsteady hs) (hdbcur.trans hdb)
    omega
  | resetting _ hsteady => exact absurd hs hsteady
  | dbBumped hdb =>
    have := h.db_le
    omega

end

/-! ## task が一つ進む -/

namespace ZsetTask

variable {d : CollectionData} {t : ZsetTask} {k : DbKey} {db : Nat}

@[simp] theorem observe_op : (t.observe d).op = t.op := by
  unfold observe
  split <;> rfl

@[simp] theorem observe_phase : (t.observe d).phase = t.phase := by
  unfold observe
  split <;> rfl

@[simp] theorem observe_inWindow : (t.observe d).InWindow k ↔ t.InWindow k := by
  simp [InWindow]

@[simp] theorem observe_resetting : (t.observe d).Resetting db ↔ t.Resetting db := by
  simp [Resetting]

end ZsetTask
open ZsetTask

section

variable {s s' : ZsetSystem} {i : Nat} {t : ZsetTask} {sh : ZsetShared} {phase : ZsetPhase}
  {key k : DbKey} {seen : List Nat} {ver : Nat}

/-- task `i` が進み、`ZCARD` が新しい要素数を見た後の状態。 -/
def ZsetSystem.moved (s : ZsetSystem) (i : Nat) (t : ZsetTask) (sh : ZsetShared)
    (phase : ZsetPhase) : ZsetSystem :=
  observed ⟨sh, s.tasks.set i { t with phase := phase }⟩

theorem ZsetSystem.forall_of_moved {P : ZsetTask → Prop}
    (hobs : ∀ x : ZsetTask, P (x.observe sh.data) ↔ P x) (hp : s.tasks[i]? = some t)
    (hback : P { t with phase := phase } → P t) (h : ∀ x ∈ (s.moved i t sh phase).tasks, P x) :
    ∀ x ∈ s.tasks, P x := by
  have hset : ∀ y ∈ s.tasks.set i { t with phase := phase }, P y := fun y hy =>
    (hobs y).mp (h _ (mem_map_of_mem hy))
  exact forall_mem_of_set hp (hback (hset _ (mem_set_self hp))) hset

theorem ZsetSystem.Settled.of_moved (hp : s.tasks[i]? = some t)
    (hw : t.InWindow k → InWindow k { t with phase := phase })
    (h : (s.moved i t sh phase).Settled k) : s.Settled k :=
  forall_of_moved (fun _ => not_congr observe_inWindow) hp (fun hq ht => hq (hw ht)) h

theorem ZsetSystem.Steady.of_moved {db : Nat} (hp : s.tasks[i]? = some t)
    (hr : t.Resetting db → Resetting db { t with phase := phase })
    (h : (s.moved i t sh phase).Steady db) : s.Steady db :=
  forall_of_moved (fun _ => not_congr observe_resetting) hp (fun hq ht => hq (hr ht)) h

theorem ZsetSystem.mem_moved (hp : s.tasks[i]? = some t) :
    ZsetTask.observe sh.data { t with phase := phase } ∈ (s.moved i t sh phase).tasks :=
  mem_map_of_mem (mem_set_self hp)

theorem liveCount_of_records_eq_none {d : CollectionData} (h : d.records key = none) :
    d.liveCount key = 0 := by
  simp [liveCount, h]

/-- `ZCARD` に見える変化。version を持つ形の record は、そのまま残るか消える。 -/
structure Evolves (s s' : ZsetSystem) : Prop where
  progress : s.shared.cache.everPopulated = true → ∀ k, Progress s s' k
  flag : s.shared.cache.everPopulated = true → s'.shared.cache.everPopulated = true
  split : ∀ k ver ttl, s.shared.data.records k = some (.split ver ttl) →
    s'.shared.data.records k = some (.split ver ttl) ∨ s'.shared.data.records k = none

theorem ZsetSystem.Follows.observe (h : s.Follows key seen ver) (he : Evolves s s') :
    s'.Follows key (s'.shared.data.liveCount key :: seen) ver := by
  rcases h with ⟨ttl, hrec⟩ | hzero
  · rcases he.split key ver ttl hrec with hkept | hnone
    · exact .inl ⟨ttl, hkept⟩
    · right
      rw [liveCount_of_records_eq_none hnone]
      exact mem_cons_self
  · exact .inr (mem_cons_of_mem _ hzero)

theorem ZsetSystem.TaskInv.observe (h : s.TaskInv t) (he : Evolves s s') :
    s'.TaskInv (t.observe s'.shared.data) := by
  obtain ⟨op, phase, seen⟩ := t
  cases op with
  | zadd | zrem | remove => trivial
  | zcard key batched =>
    have hfollows := fun ver (hf : s.Follows key seen ver) => hf.observe he
    cases phase with
    | start | reread => exact mem_cons_self
    | versioned ver => exact ⟨mem_cons_self, hfollows ver h.2⟩
    | flagged ver | keyEpochRead ver _ => exact ⟨mem_cons_self, hfollows ver h.2.1, he.flag h.2.2⟩
    | stamped stamp | counting stamp =>
      obtain ⟨-, hf, hpop, htrails⟩ := h
      exact ⟨mem_cons_self, hfollows _ hf, he.flag hpop, htrails.progress (he.progress hpop key)⟩
    | counted stamp len | rechecked stamp len | inserting stamp len =>
      obtain ⟨hlen, hpop, hfresh⟩ := h
      exact ⟨mem_cons_of_mem _ hlen, he.flag hpop, hfresh.progress (he.progress hpop key)⟩
    | replied len => exact h
    | committed | lengthsCleared | epochsReset | invalidating | lenRemoved | done => exact h

theorem ZsetInv.observed (h : ZsetInv s) {r : ZsetSystem} (he : Evolves s r.observed)
    (hwiped : r.shared.data.Wiped)
    (hentries : ∀ k entry, r.shared.cache.lengths k = some entry →
      s.shared.cache.lengths k = some entry ∨ r.shared.cache.everPopulated = true ∧
        r.observed.Fresh k entry.toZsetStamp entry.len)
    (htasks : ∀ t ∈ r.tasks, t ∈ s.tasks ∨ r.observed.TaskInv (t.observe r.shared.data)) :
    ZsetInv r.observed where
  wiped := hwiped
  entries := by
    intro k entry hentry
    rcases hentries k entry hentry with hold | hnew
    · obtain ⟨hpop, hfresh⟩ := h.entries k entry hold
      exact ⟨he.flag hpop, hfresh.progress (he.progress hpop k)⟩
    · exact hnew
  tasks := by
    intro x hx
    obtain ⟨y, hy, rfl⟩ := mem_map.mp hx
    rcases htasks y hy with hold | hnew
    · exact (h.tasks y hold).observe he
    · exact hnew

theorem ZsetInv.move (h : ZsetInv s) (he : Evolves s (s.moved i t sh phase))
    (hwiped : sh.data.Wiped)
    (hentries : ∀ k entry, sh.cache.lengths k = some entry →
      s.shared.cache.lengths k = some entry ∨ sh.cache.everPopulated = true ∧
        (s.moved i t sh phase).Fresh k entry.toZsetStamp entry.len)
    (htask : (s.moved i t sh phase).TaskInv (observe sh.data { t with phase := phase })) :
    ZsetInv (s.moved i t sh phase) := by
  refine h.observed he hwiped hentries fun x hx => ?_
  rcases mem_or_eq_of_mem_set hx with hold | rfl
  · exact .inl hold
  · exact .inr htask

end

/-! ## `ZCARD` の一歩 -/

section

variable {s : ZsetSystem} {i : Nat} {t : ZsetTask} {sh : ZsetShared} {phase after : ZsetPhase}
  {key : DbKey} {batched : Bool} {seen : List Nat}

variable (h : ZsetInv s)
include h

theorem ZsetInv.read (hp : s.tasks[i]? = some t) (hop : t.op = .zcard key batched)
    (hdata : sh.data = s.shared.data) (hkeys : sh.cache.keyEpochs = s.shared.cache.keyEpochs)
    (hdbs : sh.cache.dbEpochs = s.shared.cache.dbEpochs)
    (hflag : s.shared.cache.everPopulated = true → sh.cache.everPopulated = true)
    (hentries : ∀ k entry, sh.cache.lengths k = some entry →
      s.shared.cache.lengths k = some entry ∨ s.shared.cache.everPopulated = true ∧
        s.Fresh k entry.toZsetStamp entry.len)
    (htask : (s.moved i t sh after).TaskInv (t.observe sh.data) →
      (s.moved i t sh after).TaskInv (observe sh.data { t with phase := after })) :
    ZsetInv (s.moved i t sh after) := by
  have hinv := h.tasks _ (mem_of_getElem? hp)
  have hidle : ∀ k db, ¬ t.InWindow k ∧ ¬ t.Resetting db := by
    intro k db
    obtain ⟨op, phase, seen⟩ := t
    subst hop
    cases phase <;> first | exact ⟨id, id⟩ | exact hinv.elim
  have hprog : ∀ k, Progress s (s.moved i t sh after) k := by
    intro k
    refine .same (congrFun hkeys k) (congrFun hdbs k.1)
      (Steady.of_moved hp fun hr => absurd hr (hidle k k.1).2)
      (Settled.of_moved hp fun hw => absurd hw (hidle k 0).1) fun _ => ?_
    show sh.data.members k = _
    rw [hdata]
  have he : Evolves s (s.moved i t sh after) :=
    ⟨fun _ => hprog, hflag, fun k ver ttl hrec => .inl (hdata ▸ hrec)⟩
  refine h.move he (hdata ▸ h.wiped) (fun k entry hentry => ?_) (htask (hinv.observe he))
  rcases hentries k entry hentry with hold | ⟨hpop, hfresh⟩
  · exact .inl hold
  · exact .inr ⟨hflag hpop, hfresh.progress (hprog k)⟩

theorem ZsetInv.pass (hp : s.tasks[i]? = some t) (hop : t.op = .zcard key batched)
    (htask : (s.moved i t s.shared after).TaskInv (t.observe s.shared.data) →
      (s.moved i t s.shared after).TaskInv
        (observe s.shared.data { t with phase := after })) :
    ZsetInv (s.moved i t s.shared after) :=
  h.read hp hop rfl rfl rfl id (fun _ _ => .inl) htask

omit h in
theorem ZsetSystem.Follows.card_mem {ver : Nat} (h : s.Follows key seen ver)
    (hw : s.shared.data.Wiped) (hlive : s.shared.data.liveCount key ∈ seen) :
    (s.shared.data.members key ver).card ∈ seen := by
  by_cases hrec : ∃ ttl, s.shared.data.records key = some (.split ver ttl)
  · obtain ⟨ttl, hrec⟩ := hrec
    simpa only [liveCount, hrec] using hlive
  · rw [hw key ver fun ttl hc => hrec ⟨ttl, hc⟩, Finset.card_empty]
    exact h.resolve_left hrec

theorem ZsetInv.readStart (hp : s.tasks[i]? = some ⟨.zcard key batched, .start, seen⟩)
    (ha : s.shared.zcard key batched .start = some (sh, after)) :
    ZsetInv (s.moved i ⟨.zcard key batched, .start, seen⟩ sh after) := by
  have hlive : s.shared.data.liveCount key ∈ seen := h.tasks _ (mem_of_getElem? hp)
  unfold ZsetShared.zcard at ha
  cases hrec : s.shared.data.records key with
  | none =>
    simp only [hrec] at ha
    cases ha
    refine h.pass hp rfl fun _ => ?_
    show 0 ∈ seen
    simpa only [liveCount, hrec] using hlive
  | some record =>
    cases record with
    | packed members =>
      simp only [hrec] at ha
      cases ha
      refine h.pass hp rfl fun hcarried => ?_
      cases batched with
      | false => exact hcarried
      | true =>
        show members.card ∈ seen
        simpa only [liveCount, hrec] using hlive
    | split ver ttl =>
      simp only [hrec] at ha
      cases ha
      exact h.pass hp rfl fun hcarried => ⟨hcarried, .inl ⟨ttl, hrec⟩⟩

theorem ZsetInv.readAgain (hp : s.tasks[i]? = some ⟨.zcard key batched, .reread, seen⟩)
    (hok : s.ReadAdmits key .reread) :
    ZsetInv (s.moved i ⟨.zcard key batched, .reread, seen⟩ s.shared
      (.replied (s.shared.data.packedMembers key).card)) := by
  have hlive : s.shared.data.liveCount key ∈ seen := h.tasks _ (mem_of_getElem? hp)
  refine h.pass hp rfl fun _ => ?_
  show (s.shared.data.packedMembers key).card ∈ seen
  have heq : (s.shared.data.packedMembers key).card = s.shared.data.liveCount key := by
    unfold ReadAdmits at hok
    unfold packedMembers liveCount
    cases hrec : s.shared.data.records key with
    | none => rfl
    | some record =>
      cases record with
      | packed members => rfl
      | split ver ttl =>
        rw [hrec] at hok
        exact hok.elim
  exact heq ▸ hlive

theorem ZsetInv.readCache {stamp : ZsetStamp}
    (hp : s.tasks[i]? = some ⟨.zcard key batched, .stamped stamp, seen⟩)
    (hok : s.ReadAdmits key (.stamped stamp))
    (ha : s.shared.zcard key batched (.stamped stamp) = some (sh, after)) :
    ZsetInv (s.moved i ⟨.zcard key batched, .stamped stamp, seen⟩ sh after) := by
  obtain ⟨hlive, hfollows, -, -⟩ :
    s.ReaderInv key seen (.stamped stamp) := h.tasks _ (mem_of_getElem? hp)
  unfold ZsetShared.zcard at ha
  cases hentry : s.shared.cache.lengths key with
  | none =>
    simp only [hentry] at ha
    cases ha
    exact h.pass hp rfl id
  | some cached =>
    simp only [hentry] at ha
    cases ha
    by_cases hstamp : cached.toZsetStamp = stamp
    · rw [if_pos hstamp]
      refine h.pass hp rfl fun _ => ?_
      show cached.len ∈ seen
      unfold ReadAdmits at hok
      rw [hentry] at hok
      obtain ⟨hcurrent, hsteady, hsettled⟩ := hok (congrArg some hstamp)
      obtain ⟨-, hfresh⟩ := h.entries key cached hentry
      rw [hstamp] at hfresh
      rw [hfresh.len_eq hsteady hsettled hcurrent]
      exact hfollows.card_mem h.wiped hlive
    · rw [if_neg hstamp]
      exact h.pass hp rfl id

theorem ZsetInv.zcard (hp : s.tasks[i]? = some ⟨.zcard key batched, phase, seen⟩)
    (hok : s.ReadAdmits key phase) (ha : s.shared.zcard key batched phase = some (sh, after)) :
    ZsetInv (s.moved i ⟨.zcard key batched, phase, seen⟩ sh after) := by
  have hinv : s.ReaderInv key seen phase := h.tasks _ (mem_of_getElem? hp)
  cases phase with
  | start => exact h.readStart hp ha
  | reread =>
    cases ha
    exact h.readAgain hp hok
  | versioned ver =>
    cases ha
    exact h.read hp rfl rfl rfl rfl (fun _ => rfl) (fun _ _ => .inl)
      fun hcarried => ⟨hcarried.1, hcarried.2, rfl⟩
  | flagged ver =>
    cases ha
    exact h.pass hp rfl id
  | keyEpochRead ver keyEpoch =>
    cases ha
    obtain ⟨rfl, -⟩ := hok
    exact h.pass hp rfl fun hcarried =>
      ⟨hcarried.1, hcarried.2.1, hcarried.2.2, le_rfl, fun _ _ => le_rfl⟩
  | stamped stamp => exact h.readCache hp hok ha
  | counting stamp =>
    cases ha
    refine h.pass hp rfl fun hcarried => ?_
    obtain ⟨-, -, hpop, htrails⟩ := hcarried
    refine ⟨mem_cons_of_mem _ ?_, hpop, htrails, fun _ _ _ => rfl⟩
    exact hinv.2.1.card_mem h.wiped hinv.1
  | counted stamp len | rechecked stamp len =>
    cases ha
    split
    · exact h.pass hp rfl id
    · exact h.pass hp rfl fun _ => hinv.1
  | inserting stamp len =>
    cases ha
    refine h.read hp rfl rfl rfl rfl id (fun k entry hentry => ?_) fun _ => hinv.1
    by_cases hk : k = key
    · subst hk
      simp only [ZsetCache.insertLen, update_self] at hentry
      cases hentry
      exact .inr hinv.2
    · simp only [ZsetCache.insertLen, update_of_ne hk] at hentry
      exact .inl hentry
  | replied | committed | lengthsCleared | epochsReset | invalidating | lenRemoved | done =>
    cases ha

end

/-! ## 書き込みの一歩 -/

section

variable {s : ZsetSystem} {i : Nat} {sh : ZsetShared} {op : ZsetOp} {phase after : ZsetPhase}
  {seen : List Nat}

variable (h : ZsetInv s) (hw : ∀ key batched, op ≠ .zcard key batched)

include hw in
theorem ZsetSystem.taskInv_of_writer {d : CollectionData} :
    s.TaskInv (observe d ⟨op, phase, seen⟩) := by
  cases op with
  | zcard key batched => exact absurd rfl (hw key batched)
  | zadd | zrem | remove => trivial

include h hw

theorem ZsetInv.invalidate (cache : ZsetCache)
    (hflag : cache.everPopulated = s.shared.cache.everPopulated)
    (hentries : ∀ k entry, cache.lengths k = some entry → s.shared.cache.lengths k = some entry)
    (hprog : s.shared.cache.everPopulated = true →
      ∀ k, Progress s (s.moved i ⟨op, phase, seen⟩ { s.shared with cache := cache } after) k) :
    ZsetInv (s.moved i ⟨op, phase, seen⟩ { s.shared with cache := cache } after) := by
  exact h.move ⟨hprog, fun hpop => hflag.trans hpop, fun _ _ _ => .inl⟩ h.wiped
    (fun k entry hentry => .inl (hentries k entry hentry)) (taskInv_of_writer hw)

theorem ZsetInv.idle (hp : s.tasks[i]? = some ⟨op, phase, seen⟩)
    (lengths : DbKey → Option ZsetLenCacheEntry)
    (hentries : ∀ k entry, lengths k = some entry → s.shared.cache.lengths k = some entry)
    (hwindow : s.shared.cache.everPopulated = true →
      ∀ k, InWindow k ⟨op, phase, seen⟩ → InWindow k ⟨op, after, seen⟩)
    (hreset : ∀ db, ¬ Resetting db ⟨op, phase, seen⟩) :
    ZsetInv (s.moved i ⟨op, phase, seen⟩
      { s.shared with cache := { s.shared.cache with lengths := lengths } } after) :=
  h.invalidate hw _ rfl hentries fun hpop k =>
    .same rfl rfl (Steady.of_moved hp fun hr => absurd hr (hreset k.1))
      (Settled.of_moved hp (hwindow hpop k)) fun _ => rfl

theorem ZsetInv.commit (hp : s.tasks[i]? = some ⟨op, .start, seen⟩) :
    ZsetInv (s.moved i ⟨op, .start, seen⟩ { s.shared with data := op.commit s.shared.data }
      (.committed op.resets)) := by
  refine h.move ⟨fun _ k => ?_, id, fun k ver ttl => ZsetOp.commit_split⟩
    (ZsetOp.commit_wiped h.wiped) (fun _ _ => .inl) (taskInv_of_writer hw)
  refine .same rfl rfl (Steady.of_moved hp fun hr => hr.elim)
    (Settled.of_moved hp fun hin => hin.elim) fun hsettled => ?_
  -- 触れた key は、commit と同時に窓に入る
  refine (ZsetOp.commit_of_not_touched fun hk => ?_).2
  exact hsettled _ (mem_moved hp) (observe_inWindow.mpr hk)

theorem ZsetInv.resetKeyEpochs {resets : Nat}
    (hp : s.tasks[i]? = some ⟨op, .lengthsCleared resets, seen⟩) :
    ZsetInv (s.moved i ⟨op, .lengthsCleared resets, seen⟩
      { s.shared with cache := s.shared.cache.resetKeyEpochs op.dbIndex }
      (.epochsReset resets)) := by
  refine h.invalidate hw _ rfl (fun _ _ => id) fun _ k => ?_
  by_cases hk : k.1 = op.dbIndex
  · exact .resetting rfl fun hsteady =>
      hsteady _ (mem_moved hp) (observe_resetting.mpr hk.symm)
  · exact .same (if_neg hk) rfl (Steady.of_moved hp fun hr => hr.elim)
      (Settled.of_moved hp id) fun _ => rfl

theorem ZsetInv.bumpDbEpoch {resets : Nat}
    (hp : s.tasks[i]? = some ⟨op, .epochsReset resets, seen⟩) :
    ZsetInv (s.moved i ⟨op, .epochsReset resets, seen⟩
      { s.shared with cache := s.shared.cache.bumpDbEpoch op.dbIndex } (.committed resets)) := by
  refine h.invalidate hw _ rfl (fun _ _ => id) fun _ k => ?_
  by_cases hk : k.1 = op.dbIndex
  · refine .dbBumped ?_
    show _ < update s.shared.cache.dbEpochs op.dbIndex _ k.1
    rw [hk, update_self]
    exact Nat.lt_succ_self _
  · exact .same rfl (update_of_ne hk _ _)
      (Steady.of_moved hp fun hr => absurd hr.symm hk) (Settled.of_moved hp id) fun _ => rfl

theorem ZsetInv.bumpKeyEpoch {key : DbKey} {left : List DbKey}
    (hp : s.tasks[i]? = some ⟨op, .lenRemoved key left, seen⟩) :
    ZsetInv (s.moved i ⟨op, .lenRemoved key left, seen⟩
      { s.shared with cache := s.shared.cache.bumpKeyEpoch key } (.invalidating left)) := by
  refine h.invalidate hw _ rfl (fun _ _ => id) fun _ k => ?_
  by_cases hk : k = key
  · subst hk
    refine .keyBumped ?_ rfl (Steady.of_moved hp fun hr => hr.elim)
    show _ < update s.shared.cache.keyEpochs k _ k
    rw [update_self]
    exact Nat.lt_succ_self _
  · refine .same (update_of_ne hk _ _) rfl (Steady.of_moved hp fun hr => hr.elim)
      (Settled.of_moved hp fun hin => ?_) fun _ => rfl
    exact (mem_cons.mp hin).resolve_left hk

theorem ZsetInv.write (hp : s.tasks[i]? = some ⟨op, phase, seen⟩)
    (ha : s.shared.write op phase = some (sh, after)) :
    ZsetInv (s.moved i ⟨op, phase, seen⟩ sh after) := by
  cases phase with
  | start =>
    cases ha
    exact h.commit hw hp
  | committed resets =>
    cases resets with
    | zero =>
      cases ha
      refine h.idle hw hp s.shared.cache.lengths (fun _ _ => id) (fun hpop k hin => ?_) fun _ => id
      rw [hpop]
      exact hin
    | succ resets =>
      simp only [ZsetShared.write] at ha
      split at ha
      · cases ha
        refine h.idle hw hp (fun k => if k.1 = op.dbIndex then none else s.shared.cache.lengths k)
          (fun k entry hentry => ?_) (fun _ _ => id) fun _ => id
        split at hentry
        · cases hentry
        · exact hentry
      · cases ha
        exact h.idle hw hp s.shared.cache.lengths (fun _ _ => id) (fun _ _ => id) fun _ => id
  | lengthsCleared resets =>
    cases ha
    exact h.resetKeyEpochs hw hp
  | epochsReset resets =>
    cases ha
    exact h.bumpDbEpoch hw hp
  | invalidating left =>
    cases left with
    | nil =>
      cases ha
      exact h.idle hw hp s.shared.cache.lengths (fun _ _ => id)
        (fun _ _ hin => absurd hin not_mem_nil) fun _ => id
    | cons key left =>
      cases ha
      refine h.idle hw hp (update s.shared.cache.lengths key none)
        (fun k entry hentry => ?_) (fun _ _ => id) fun _ => id
      by_cases hk : k = key
      · subst hk
        rw [update_self] at hentry
        cases hentry
      · rwa [update_of_ne hk] at hentry
  | lenRemoved key left =>
    cases ha
    exact h.bumpKeyEpoch hw hp
  | reread | versioned | flagged | keyEpochRead | stamped | counting | counted | rechecked
  | inserting | replied | done => cases ha

end

/-! ## 実行 -/

section

variable {s s' : ZsetSystem}

theorem Evolves.of_tasks {lengths : DbKey → Option ZsetLenCacheEntry} {tasks : List ZsetTask}
    (hold : ∀ t ∈ s.tasks, t ∈ tasks) : Evolves s (observed
      ⟨{ s.shared with cache := { s.shared.cache with lengths := lengths } }, tasks⟩) := by
  refine ⟨fun _ k => .same rfl rfl ?_ ?_ fun _ => rfl, id, fun _ _ _ => .inl⟩
  · exact fun hs t ht hr => hs _ (mem_map_of_mem (hold t ht)) (observe_resetting.mpr hr)
  · exact fun hs t ht hin => hs _ (mem_map_of_mem (hold t ht)) (observe_inWindow.mpr hin)

theorem ZsetInv.invoke (h : ZsetInv s) (op : ZsetOp) :
    ZsetInv (ZsetSystem.observed { s with tasks := s.tasks ++ [⟨op, .start, []⟩] }) := by
  refine h.observed (.of_tasks fun _ => mem_append_left _) h.wiped (fun _ _ => .inl)
    (forall_mem_concat (fun t => .inl) (.inr ?_))
  cases op with
  | zcard key batched => exact mem_singleton_self _
  | zadd | zrem | remove => trivial

theorem ZsetInv.evict (h : ZsetInv s) : ZsetInv (ZsetSystem.observed { s with
      shared := { s.shared with
        cache := { s.shared.cache with lengths := fun _ => none } } }) :=
  h.observed (.of_tasks fun _ => id) h.wiped nofun fun _ => .inl

theorem ZsetInv.advance (h : ZsetInv s) {i : Nat} {t : ZsetTask} {sh : ZsetShared}
    {phase : ZsetPhase} (hp : s.tasks[i]? = some t) (hok : s.Admits (.advance i))
    (ha : s.shared.advance t = some (sh, phase)) : ZsetInv (s.moved i t sh phase) := by
  obtain ⟨op, current, seen⟩ := t
  cases op with
  | zcard key batched =>
    simp only [Admits, hp] at hok
    exact h.zcard hp hok ha
  | zadd | zrem | remove => exact h.write nofun hp ha

theorem ZsetInv.step (h : ZsetInv s) {e : ZsetEvent} (hok : s.Admits e)
    (hs : s.step e = some s') : ZsetInv s' := by
  obtain ⟨r, hact, rfl⟩ := Option.map_eq_some_iff.mp hs
  cases e with
  | invoke op =>
    cases hact
    exact h.invoke op
  | evict =>
    cases hact
    exact h.evict
  | advance i =>
    simp only [act] at hact
    split at hact
    · cases hact
    · next t hp =>
      split at hact
      · cases hact
      · next sh phase ha =>
        cases hact
        exact h.advance hp hok ha

end

/-! ## 見届けた要素数は、commit された状態のものである -/

/-- task `i` を受け取った後、まだ答えていない状態で、`key` の要素数が `len` であったものがある。 -/
def CommittedDuring (data : CollectionData) (events : List ZsetEvent) (i : Nat) (key : DbKey)
    (len : Nat) : Prop :=
  ∃ before after s t, events = before ++ after ∧
    run step (start data) before = some s ∧ s.tasks[i]? = some t ∧
    t.phase.isReplied = false ∧ s.shared.data.liveCount key = len

section

variable {data : CollectionData} {events : List ZsetEvent} {i : Nat} {key : DbKey} {len : Nat}

theorem CommittedDuring.append (h : CommittedDuring data events i key len)
    (more : List ZsetEvent) : CommittedDuring data (events ++ more) i key len := by
  obtain ⟨before, after, s, t, rfl, hrun, ht, hphase, hlen⟩ := h
  exact ⟨before, after ++ more, s, t, append_assoc .., hrun, ht, hphase, hlen⟩

theorem ZsetSystem.act_seen {s r : ZsetSystem} {e : ZsetEvent} {t : ZsetTask}
    (h : s.act e = some r) (ht : r.tasks[i]? = some t) :
    t.seen = [] ∨ ∃ old, s.tasks[i]? = some old ∧ old.op = t.op ∧ old.seen = t.seen := by
  cases e with
  | invoke op =>
    cases h
    rw [getElem?_append] at ht
    split at ht
    · exact .inr ⟨t, ht, rfl, rfl⟩
    · obtain rfl := mem_singleton.mp (mem_of_getElem? ht)
      exact .inl rfl
  | evict =>
    cases h
    exact .inr ⟨t, ht, rfl, rfl⟩
  | advance j =>
    simp only [act] at h
    split at h
    · cases h
    · next old hold =>
      split at h
      · cases h
      · cases h
        rcases getElem?_set_cases ht with ⟨rfl, rfl⟩ | ⟨-, ht⟩
        · exact .inr ⟨old, hold, rfl, rfl⟩
        · exact .inr ⟨t, ht, rfl, rfl⟩

theorem ZsetTask.mem_observe_seen {t : ZsetTask} {batched : Bool} (hop : t.op = .zcard key batched)
    (h : len ∈ (t.observe data).seen) :
    len ∈ t.seen ∨ t.phase.isReplied = false ∧ data.liveCount key = len := by
  unfold observe at h
  split at h
  · exact .inl h
  · next key' _ hop' hphase =>
    rw [hop] at hop'
    cases hop'
    rcases mem_cons.mp h with rfl | hold
    · refine .inr ⟨?_, rfl⟩
      cases hc : t.phase with
      | replied reply => exact (hphase reply hc).elim
      | _ => rfl
    · exact .inl hold
  · exact .inl h

theorem seen_committed {s : ZsetSystem}
    (hrun : run step (start data) events = some s) {t : ZsetTask}
    (ht : s.tasks[i]? = some t) {batched : Bool} (hop : t.op = .zcard key batched)
    (hlen : len ∈ t.seen) : CommittedDuring data events i key len := by
  -- 実行を後ろから解く。最後の一歩で見たものか、それより前に見たものである
  induction events using reverseRecOn generalizing s t with
  | nil =>
    cases hrun
    cases ht
  | append_singleton events e ih =>
    obtain ⟨m, hm, hlast⟩ := run_append_eq_some.mp hrun
    obtain ⟨s', hstep, hnil⟩ := run_cons_eq_some.mp hlast
    cases hnil
    obtain ⟨r, hact, rfl⟩ := Option.map_eq_some_iff.mp hstep
    obtain ⟨raw, hraw, rfl⟩ := Option.map_eq_some_iff.mp ((getElem?_map ..).symm.trans ht)
    rw [observe_op] at hop
    rcases mem_observe_seen hop hlen with hold | ⟨hphase, hlive⟩
    · rcases act_seen hact hraw with hempty | ⟨old, hget, hop', hseen⟩
      · rw [hempty] at hold
        cases hold
      · exact (ih hm hget (hop'.trans hop) (hseen ▸ hold)).append [e]
    · exact ⟨events ++ [e], [], _, _, (append_nil _).symm, hrun, ht,
        observe_phase.symm ▸ hphase, hlive⟩

end

/--
**`ZCARD` の答えは、受け取ってから答えるまでのどこかの commit された状態の要素数である。** どの
interleaving でも、各一歩が `Admits` を満たせばそうなる。
-/
theorem zcard_reply_committed {data : CollectionData} (hdata : data.Wiped)
    {events : List ZsetEvent} {s : ZsetSystem}
    (hrun : run step (start data) events = some s)
    (hok : Obeys step Admits (start data) events)
    {i : Nat} {t : ZsetTask} (ht : s.tasks[i]? = some t) {key : DbKey} {batched : Bool} {len : Nat}
    (hop : t.op = .zcard key batched) (hreply : t.phase = .replied len) :
    CommittedDuring data events i key len := by
  have hinv : ZsetInv s :=
    run_induction (fun _ _ _ h hok hs => ZsetInv.step h hok hs) (ZsetInv.start hdata) hok hrun
  have htask := hinv.tasks t (mem_of_getElem? ht)
  simp only [TaskInv, hop, hreply] at htask
  exact seen_committed hrun ht hop htask

/-! ## 条件を外した実行 -/

theorem CommittedDuring.exists_init {data : CollectionData} {events : List ZsetEvent} {i : Nat}
    {key : DbKey} {len : Nat} (h : CommittedDuring data events i key len) :
    ∃ before ∈ events.inits,
      ∃ s ∈ run step (start data) before, ∃ t ∈ s.tasks[i]?,
        t.phase.isReplied = false ∧ s.shared.data.liveCount key = len := by
  obtain ⟨before, after, s, t, rfl, hrun, ht, hphase, hlen⟩ := h
  exact ⟨before, (mem_inits ..).mpr (prefix_append ..), s, hrun, t, ht, hphase, hlen⟩

namespace TornCard

def key : DbKey := (0, [0x7a])

def memberA : Bytes := [0x61]

def memberB : Bytes := [0x62]

def packed : CollectionData :=
  ⟨fun k => if k = key then some (.packed {memberA}) else none, fun _ _ => ∅, 0⟩

def split : CollectionData :=
  ⟨fun k => if k = key then some (.split 1 false) else none,
    fun k ver => if k = key ∧ ver = 1 then {memberA} else ∅, 1⟩

theorem split_wiped : split.Wiped := by
  intro k ver hne
  simp only [split] at hne ⊢
  refine if_neg ?_
  rintro ⟨rfl, rfl⟩
  exact hne false rfl

def after (data : CollectionData) (events : List ZsetEvent) : ZsetSystem :=
  (run step (start data) events).getD (start data)

/-- `ZCARD` が詰めた形を見てから読み直すまでの間に、`ZADD` が version を持つ形に移す。 -/
def promotion : List ZsetEvent :=
  [.invoke (.zcard key false), .advance 0, .invoke (.zadd key {memberB} true), .advance 1,
    .advance 0]

theorem promotion_replies_zero :
    run step (start packed) promotion = some (after packed promotion) ∧
      (after packed promotion).tasks[0]?.map (·.phase) = some (.replied 0) ∧
      ¬ CommittedDuring packed promotion 0 key 0 := by
  refine ⟨rfl, by decide, fun h => ?_⟩
  have hinit := h.exists_init
  revert hinit
  decide

/-- 無効化を終えてから、`ZCARD` が来る。 -/
def ordered : List ZsetEvent :=
  [.invoke (.zcard key false)] ++ replicate 9 (.advance 0) ++
    [.invoke (.zcard key true)] ++ replicate 5 (.advance 1) ++
    [.invoke (.zadd key {memberB} false)] ++ replicate 5 (.advance 2) ++
    [.invoke (.zcard key false)] ++ replicate 9 (.advance 3)

theorem ordered_committed : (after split ordered).tasks.map (·.phase) =
        [.replied 1, .replied 1, .done, .replied 2] ∧
      CommittedDuring split ordered 1 key 1 ∧ CommittedDuring split ordered 3 key 2 := by
  have hok : Obeys step Admits (start split) ordered := by decide
  have hrun : run step (start split) ordered = some (after split ordered) :=
    rfl
  exact ⟨by decide, zcard_reply_committed split_wiped hrun hok rfl rfl rfl,
    zcard_reply_committed split_wiped hrun hok rfl rfl rfl⟩

end TornCard

end Onedis.Store
