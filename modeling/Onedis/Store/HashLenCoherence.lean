import Onedis.Store.HashLenCache

/-!
# hash の長さの cache はいつ正しいか

* `hash_length_coherent` — `Coherent` を満たす実行では、cache から答えた長さは field の数に等しく、`HDEL`
  は field が残らないときにちょうど main record を消す
* `LatePublish.stale_length_deletes_main` — 古い長さが cache に残り、`HDEL` が field の残る hash を消す

`HashInv` が不変条件である。書き込みの途中の key（`InWindow`）は lock で守られ、その外では、覚えた長さは version
と epoch が今のものである限り正しい。命令ごとに一歩の補題を示し、実行の全体へ進む。
-/

namespace Onedis.Store

open Infra Function CollectionData HashCache HashOp List HashTask HashSystem

namespace HashSystem

/-! ## 条件 -/

/-- key `k` に commit して epoch を進めていない task がない。 -/
def NoWindow (s : HashSystem) (k : DbKey) : Prop := ∀ t ∈ s.tasks, ¬ t.InWindow k

/-- `HLEN` の lookup が今の version と epoch について行われ、途中の書き込みもない。 -/
def Current (s : HashSystem) (key : DbKey) (ver epoch : Nat) : Prop :=
  epoch = s.shared.cache.epochs key ∧
    s.shared.data.records key = some (.split ver false) ∧ s.NoWindow key

end HashSystem

/-- `HLEN` が key を数え終え、`hash_ever_populated` をまだ立てていない。 -/
def HashTask.CountedOn (touched : DbKey → Bool) (t : HashTask) : Prop :=
  match t.op, t.phase with
  | .hlen key, .counted _ _ _ => touched key = true
  | _, _ => False

def HashTask.Clearing (db : Nat) (t : HashTask) : Prop :=
  match t.phase with
  | .cleared => t.op.dbIndex = db
  | _ => False

instance (touched : DbKey → Bool) (t : HashTask) : Decidable (t.CountedOn touched) := by
  obtain ⟨op, phase⟩ := t
  cases op <;> cases phase <;> unfold CountedOn <;> infer_instance

instance (db : Nat) (t : HashTask) : Decidable (t.Clearing db) := by
  obtain ⟨op, phase⟩ := t
  cases phase <;> unfold Clearing <;> infer_instance

namespace HashSystem

/--
一歩についての条件。

* `HLEN` が cache から答えるとき、読み始めてからその key への書き込みはない
* `hash_ever_populated` が立たないうちに epoch を進め損なうとき、数え終えて entry を置く前の `HLEN` はない
* epoch を戻すとき、それを持つ task はなく、cache を消してから entry は置かれない
* `HINCRBY` の merge は、既にある field にだけ届く
-/
def Coherent (s : HashSystem) : HashEvent → Prop
  | .advance i =>
    match s.tasks[i]? with
    | some ⟨.hlen key, .epoch ver epoch⟩ =>
      ∀ cached ∈ s.shared.cache.lengths key, cached.version = ver ∧ cached.keyEpoch = epoch →
        s.Current key ver epoch
    | some ⟨op, .flagged _ _ _⟩ | some ⟨op, .renewed _ _ _⟩ =>
      ∀ t ∈ s.tasks, ¬ t.Clearing op.dbIndex
    | some ⟨_, .committed touched⟩ =>
      s.shared.cache.everPopulated = false → ∀ t ∈ s.tasks, ¬ t.CountedOn touched
    | some ⟨op, .cleared⟩ => ∀ t ∈ s.tasks, ¬ t.HoldsEpoch op.dbIndex
    | _ => True
  | .merge key ver field => field ∈ s.shared.data.members key ver
  | _ => True

/-! ## 不変条件 -/

def Fresh (s : HashSystem) (k : DbKey) (len ver epoch : Nat) : Prop :=
  s.NoWindow k → s.shared.data.records k = some (.split ver false) →
    epoch = s.shared.cache.epochs k → len = (s.shared.data.members k ver).card

/-- 覚えた長さの version と epoch は今のものを超えず、今のものと同じなら長さは新しい（`Fresh`）。 -/
structure Tracked (s : HashSystem) (k : DbKey) (len ver epoch : Nat) : Prop where
  version_le : ver ≤ s.shared.data.counter
  epoch_le : epoch ≤ s.shared.cache.epochs k
  fresh : s.Fresh k len ver epoch

/-- `HDEL` は書きの guard を握っているので、読んだ値がそのまま今の値である。 -/
def HdelInv (s : HashSystem) (key : DbKey) : HashPhase → Prop
  | .read ver => s.shared.data.records key = some (.split ver false)
  | .epoch ver epoch | .counting ver epoch =>
    s.shared.data.records key = some (.split ver false) ∧ epoch = s.shared.cache.epochs key
  | .counted ver epoch len =>
    s.shared.data.records key = some (.split ver false) ∧
      epoch = s.shared.cache.epochs key ∧ len = (s.shared.data.members key ver).card
  | .flagged ver epoch len =>
    s.shared.data.records key = some (.split ver false) ∧
      epoch = s.shared.cache.epochs key ∧ len = (s.shared.data.members key ver).card ∧
      s.shared.cache.everPopulated = true
  | .total ver ttl len =>
    s.shared.data.records key = some (.split ver ttl) ∧
      len = (s.shared.data.members key ver).card ∧
      (ttl = false → s.shared.cache.everPopulated = true)
  | .deleted ver ttl rest =>
    ver ≤ s.shared.data.counter ∧ rest = (s.shared.data.members key ver).card ∧
      (ttl = false → s.shared.cache.everPopulated = true) ∧
      (ttl = true → ∀ v, s.shared.data.records key ≠ some (.split v false))
  | .invalidated ver ttl rest =>
    ver ≤ s.shared.data.counter ∧ rest = (s.shared.data.members key ver).card ∧
      (ttl = false → s.shared.cache.everPopulated = true)
  | .renewed ver rest epoch =>
    ver ≤ s.shared.data.counter ∧ epoch = s.shared.cache.epochs key ∧
      rest = (s.shared.data.members key ver).card ∧ s.shared.cache.everPopulated = true
  | _ => True

/-- `HLEN` は lock を取らないので、読んだ値は古くなりうる。 -/
def HlenInv (s : HashSystem) (key : DbKey) : HashPhase → Prop
  | .read ver => ver ≤ s.shared.data.counter
  | .epoch ver epoch | .counting ver epoch =>
    ver ≤ s.shared.data.counter ∧ epoch ≤ s.shared.cache.epochs key
  | .counted ver epoch len => s.Tracked key len ver epoch
  | .flagged ver epoch len => s.Tracked key len ver epoch ∧ s.shared.cache.everPopulated = true
  | _ => True

def TaskInv (s : HashSystem) (t : HashTask) : Prop :=
  match t.op with
  | .hlen key => s.HlenInv key t.phase
  | .hdel key _ => s.HdelInv key t.phase
  | op =>
    match t.phase with
    | .cleared => ∀ k : DbKey, k.1 = op.dbIndex → s.shared.cache.lengths k = none
    | _ => True

end HashSystem

/-- 実行を通じて成り立つこと。 -/
structure HashInv (s : HashSystem) : Prop where
  exclusive : ∀ k, Exclusive (guardOn k) s.tasks
  guarded : ∀ t ∈ s.tasks, ∀ k, t.InWindow k → t.guardOn k ≠ .free
  versions : ∀ k ver ttl, s.shared.data.records k = some (.split ver ttl) →
    ver ≤ s.shared.data.counter
  entries : ∀ k cached, s.shared.cache.lengths k = some cached →
    s.Tracked k cached.len cached.version cached.keyEpoch
  unflagged : s.shared.cache.everPopulated = false → ∀ k, s.shared.cache.lengths k = none
  tasks : ∀ t ∈ s.tasks, s.TaskInv t
  answers : ∀ a ∈ s.shared.answers, a.len = a.live
  deletions : ∀ d ∈ s.shared.deletions, d.mainDeleted = true ↔ d.remaining = 0

theorem HashInv.start {data : CollectionData}
    (hv : ∀ k ver ttl, data.records k = some (.split ver ttl) → ver ≤ data.counter) :
    HashInv (start data) where
  exclusive := fun _ => Exclusive.nil
  guarded := fun _ h => absurd h not_mem_nil
  versions := hv
  entries := nofun
  unflagged := fun _ _ => rfl
  tasks := fun _ h => absurd h not_mem_nil
  answers := fun _ h => absurd h not_mem_nil
  deletions := fun _ h => absurd h not_mem_nil

/-! ## 一歩が key に及ぼす影響 -/

/-- task `i` 以外のすべての task について成り立つ。 -/
def HashSystem.Others (s : HashSystem) (i : Nat) (P : HashTask → Prop) : Prop :=
  ∀ (j : Nat) (t : HashTask), j ≠ i → s.tasks[j]? = some t → P t

/-- 組は cache にあるか、task `i` 以外の `HLEN` がこれから置こうとしている。 -/
def HashSystem.Live (s : HashSystem) (i : Nat) (k : DbKey) (len ver epoch : Nat) : Prop :=
  s.shared.cache.lengths k = some ⟨len, ver, epoch⟩ ∨
    ∃ (j : Nat) (t : HashTask), j ≠ i ∧ s.tasks[j]? = some t ∧ t.op = .hlen k ∧
      (t.phase = .counted ver epoch len ∨ t.phase = .flagged ver epoch len)

/-- task `i` の一歩が、key `k` についてほかの task と entry に及ぼす影響。 -/
structure Affects (s s' : HashSystem) (i : Nat) (k : DbKey) : Prop where
  data : (s'.shared.data.records k = s.shared.data.records k ∧
      s'.shared.data.members k = s.shared.data.members k) ∨
    s.Others i fun t => t.guardOn k ≠ .write
  epochs : s'.shared.cache.epochs k = s.shared.cache.epochs k ∨
    (s.shared.cache.epochs k ≤ s'.shared.cache.epochs k ∧
      s.Others i fun t => t.guardOn k ≠ .write) ∨
    s.Others i fun t => ¬ t.HoldsEpoch k.1
  tracked : ∀ len ver epoch, s.Live i k len ver epoch →
    s.Tracked k len ver epoch → s'.Tracked k len ver epoch

section

variable {s : HashSystem} {i : Nat} {p q : HashTask} {sh : HashShared} {k : DbKey}

theorem noWindow_of_set (hp : s.tasks[i]? = some p) (hw : p.InWindow k → q.InWindow k)
    (h : ∀ t ∈ s.tasks.set i q, ¬ t.InWindow k) : s.NoWindow k :=
  forall_mem_of_set hp (fun hwin => h q (mem_set_self hp) (hw hwin)) h

theorem HashSystem.Tracked.same {s' : HashSystem} {len ver epoch : Nat}
    (ht : s.Tracked k len ver epoch) (hd : s.shared.data.SameAt s'.shared.data k)
    (he : s'.shared.cache.epochs k = s.shared.cache.epochs k)
    (hc : s.shared.data.counter ≤ s'.shared.data.counter)
    (hw : s'.NoWindow k → s.NoWindow k) : s'.Tracked k len ver epoch := by
  refine ⟨ht.version_le.trans hc, he ▸ ht.epoch_le, fun hnone hrec hepoch => ?_⟩
  rw [hd.2]
  exact ht.fresh (hw hnone) (hd.1 ▸ hrec) (he ▸ hepoch)

theorem Affects.same (hp : s.tasks[i]? = some p) (hd : s.shared.data.SameAt sh.data k)
    (he : sh.cache.epochs k = s.shared.cache.epochs k)
    (hc : s.shared.data.counter ≤ sh.data.counter) (hw : p.InWindow k → q.InWindow k) :
    Affects s ⟨sh, s.tasks.set i q⟩ i k :=
  ⟨.inl hd, .inl he, fun _ _ _ _ ht => ht.same hd he hc (noWindow_of_set hp hw)⟩

theorem Affects.replaced (hfree : s.Others i fun t => t.guardOn k ≠ .write)
    (he : sh.cache.epochs k = s.shared.cache.epochs k)
    (hc : s.shared.data.counter ≤ sh.data.counter)
    (hr : ∀ ver ≤ s.shared.data.counter, sh.data.records k ≠ some (.split ver false)) :
    Affects s ⟨sh, s.tasks.set i q⟩ i k := by
  refine ⟨.inr hfree, .inl he, fun len ver epoch _ ht => ?_⟩
  exact ⟨ht.version_le.trans hc, he ▸ ht.epoch_le,
    fun _ hrec => absurd hrec (hr ver ht.version_le)⟩

theorem Affects.bump (hfree : s.Others i fun t => t.guardOn k ≠ .write)
    (hd : s.shared.data.SameAt sh.data k) (he : sh.cache.epochs k = s.shared.cache.epochs k + 1)
    (hc : s.shared.data.counter ≤ sh.data.counter) :
    Affects s ⟨sh, s.tasks.set i q⟩ i k := by
  refine ⟨.inl hd, .inr (.inl ⟨?_, hfree⟩), fun len ver epoch _ ht => ?_⟩
  · show s.shared.cache.epochs k ≤ sh.cache.epochs k
    omega
  · have hle := ht.epoch_le
    refine ⟨ht.version_le.trans hc, ?_, fun _ _ hepoch => ?_⟩
    · show epoch ≤ sh.cache.epochs k
      omega
    · have : epoch = sh.cache.epochs k := hepoch
      omega

theorem Affects.unseen (hd : s.shared.data.SameAt sh.data k)
    (he : sh.cache.epochs k = s.shared.cache.epochs k ∨ s.Others i fun t => ¬ t.HoldsEpoch k.1)
    (hlive : ∀ len ver epoch, ¬ s.Live i k len ver epoch) :
    Affects s ⟨sh, s.tasks.set i q⟩ i k :=
  ⟨.inl hd, he.imp_right .inr, fun len ver epoch hl => absurd hl (hlive len ver epoch)⟩

theorem HashInv.others_not_write (h : HashInv s) (hp : s.tasks[i]? = some p)
    (hheld : p.guardOn k ≠ .free) : s.Others i fun t => t.guardOn k ≠ .write := by
  intro j t hij hj hw
  exact hheld (h.exclusive k j i t p hj hp hij hw)

/-! ## ほかの task と entry の保存 -/

variable {requested : Finset Bytes} {phase : HashPhase} {key : DbKey}

theorem guardOn_hdel (hheld : held ⟨.hdel key requested, phase⟩ = true) :
    guardOn key ⟨.hdel key requested, phase⟩ = .write := by
  simp [guardOn, hheld, scope, HashScope.contains, mode]

theorem guardOn_hdel_ne_free (hk : k = key) (hheld : held ⟨.hdel key requested, phase⟩ = true) :
    guardOn k ⟨.hdel key requested, phase⟩ ≠ .free := by
  rw [hk, guardOn_hdel hheld]
  exact nofun

variable {s' : HashSystem} {t : HashTask} {j : Nat}

theorem HlenInv.affects (ha : Affects s s' i key) (hij : j ≠ i)
    (hj : s.tasks[j]? = some ⟨.hlen key, phase⟩)
    (hc : s.shared.data.counter ≤ s'.shared.data.counter)
    (hflag : s.shared.cache.everPopulated = true → s'.shared.cache.everPopulated = true)
    (h : s.HlenInv key phase) : s'.HlenInv key phase := by
  have hepoch : ∀ {epoch}, (mk (.hlen key) phase).HoldsEpoch key.1 →
      epoch ≤ s.shared.cache.epochs key → epoch ≤ s'.shared.cache.epochs key := by
    intro epoch hholds hle
    rcases ha.epochs with he | ⟨he, -⟩ | he
    · exact he ▸ hle
    · exact hle.trans he
    · exact absurd hholds (he j _ hij hj)
  cases phase with
  | read ver => exact le_trans h hc
  | epoch ver epoch | counting ver epoch => exact ⟨h.1.trans hc, hepoch rfl h.2⟩
  | counted ver epoch len => exact ha.tracked _ _ _ (.inr ⟨j, _, hij, hj, rfl, .inl rfl⟩) h
  | flagged ver epoch len =>
    exact ⟨ha.tracked _ _ _ (.inr ⟨j, _, hij, hj, rfl, .inr rfl⟩) h.1, hflag h.2⟩
  | _ => trivial

theorem HdelInv.affects (ha : Affects s s' i key) (hij : j ≠ i)
    (hj : s.tasks[j]? = some ⟨.hdel key requested, phase⟩)
    (hc : s.shared.data.counter ≤ s'.shared.data.counter)
    (hflag : s.shared.cache.everPopulated = true → s'.shared.cache.everPopulated = true)
    (h : s.HdelInv key phase) : s'.HdelInv key phase := by
  by_cases hheld : held ⟨.hdel key requested, phase⟩ = true
  swap
  · cases phase <;> trivial
  have hwrite := guardOn_hdel hheld
  -- 書きの guard を握っている間、値はほかの task に変えられない
  obtain ⟨hr, hf⟩ := ha.data.resolve_right fun hfree => hfree j _ hij hj hwrite
  have hepoch : (mk (.hdel key requested) phase).HoldsEpoch key.1 →
      s'.shared.cache.epochs key = s.shared.cache.epochs key := by
    intro hholds
    rcases ha.epochs with he | ⟨-, hfree⟩ | he
    · exact he
    · exact absurd hwrite (hfree j _ hij hj)
    · exact absurd hholds (he j _ hij hj)
  cases phase with
  | read ver => exact hr.trans h
  | epoch ver epoch | counting ver epoch => exact ⟨hr.trans h.1, h.2.trans (hepoch rfl).symm⟩
  | counted ver epoch len => exact ⟨hr.trans h.1, h.2.1.trans (hepoch rfl).symm, hf ▸ h.2.2⟩
  | flagged ver epoch len =>
    exact ⟨hr.trans h.1, h.2.1.trans (hepoch rfl).symm, hf ▸ h.2.2.1, hflag h.2.2.2⟩
  | total ver ttl len => exact ⟨hr.trans h.1, hf ▸ h.2.1, fun httl => hflag (h.2.2 httl)⟩
  | deleted ver ttl rest =>
    exact ⟨h.1.trans hc, hf ▸ h.2.1, fun httl => hflag (h.2.2.1 httl), hr ▸ h.2.2.2⟩
  | invalidated ver ttl rest => exact ⟨h.1.trans hc, hf ▸ h.2.1, fun httl => hflag (h.2.2 httl)⟩
  | renewed ver rest epoch =>
    exact ⟨h.1.trans hc, h.2.1.trans (hepoch rfl).symm, hf ▸ h.2.2.1, hflag h.2.2.2⟩
  | _ => trivial

/-- task `i` が `q` に移り、`q` 自身の条件が成り立てば、不変条件は保たれる。 -/
def HashSystem.Lands (s : HashSystem) (i : Nat) (sh : HashShared) (q : HashTask) : Prop :=
  (mk sh (s.tasks.set i q)).TaskInv q → HashInv ⟨sh, s.tasks.set i q⟩

/-- entry は前からあるか、正しい長さで、cache を消している task のない所に置かれた。 -/
def HashSystem.Keeps (s : HashSystem) (i : Nat) (sh : HashShared) (q : HashTask) : Prop :=
  ∀ k cached, sh.cache.lengths k = some cached → s.shared.cache.lengths k = some cached ∨
    (mk sh (s.tasks.set i q)).Tracked k cached.len cached.version cached.keyEpoch ∧
      sh.cache.everPopulated = true ∧ s.Others i fun t => ¬ t.Clearing k.1

theorem HashInv.move (h : HashInv s) (hp : s.tasks[i]? = some p)
    (hguard : ∀ k, GuardMove (guardOn k) s.tasks p q)
    (hwin : ∀ k, q.InWindow k → q.guardOn k ≠ .free)
    (hc : s.shared.data.counter ≤ sh.data.counter)
    (hflag : s.shared.cache.everPopulated = true → sh.cache.everPopulated = true)
    (haff : ∀ k, Affects s ⟨sh, s.tasks.set i q⟩ i k)
    (hver : ∀ k ver ttl, sh.data.records k = some (.split ver ttl) → ver ≤ sh.data.counter)
    (hlen : s.Keeps i sh q) (hans : ∀ a ∈ sh.answers, a.len = a.live)
    (hdel : ∀ d ∈ sh.deletions, d.mainDeleted = true ↔ d.remaining = 0) : s.Lands i sh q := by
  intro hq
  refine ⟨fun k => (h.exclusive k).set hp (hguard k), forall_mem_set h.guarded hwin, hver, ?_, ?_,
    ?_,
    hans, hdel⟩
  · intro k cached hcached
    rcases hlen k cached hcached with hold | ⟨htracked, -⟩
    · exact (haff k).tracked _ _ _ (.inl hold) (h.entries k cached hold)
    · exact htracked
  · intro hoff k
    have hoff' : s.shared.cache.everPopulated = false :=
      Bool.eq_false_of_not_eq_true fun hs => absurd ((hflag hs).symm.trans hoff) nofun
    cases hcached : sh.cache.lengths k with
    | none => rfl
    | some cached =>
      rcases hlen k cached hcached with hold | ⟨-, hon, -⟩
      · rw [h.unflagged hoff' k] at hold
        cases hold
      · exact absurd (hon.symm.trans hoff) (by simp)
  · intro t ht
    obtain ⟨j, hj⟩ := mem_iff_getElem?.mp ht
    rcases getElem?_set_cases hj with ⟨-, rfl⟩ | ⟨hij, hj⟩
    · exact hq
    · have hinv := h.tasks t (mem_of_getElem? hj)
      obtain ⟨op, phase⟩ := t
      cases op with
      | hlen key => exact HlenInv.affects (haff key) hij hj hc hflag hinv
      | hdel key requested => exact HdelInv.affects (haff key) hij hj hc hflag hinv
      | _ =>
        -- 書き込みの task では、cache を消した後に entry が増えないことだけを見る
        cases phase with
        | cleared =>
          intro k hk
          cases hcached : sh.cache.lengths k with
          | none => rfl
          | some cached =>
            rcases hlen k cached hcached with hold | ⟨-, -, hclear⟩
            · exact absurd (hold.symm.trans (hinv k hk)) (by simp)
            · exact absurd hk.symm (hclear j _ hij hj)
        | _ => trivial

/-- この phase の task は、書き終えて、cache を消し終えていないことがある。 -/
def HashPhase.opens : HashPhase → Bool
  | .deleted _ _ _ | .committed _ => true
  | _ => false

theorem not_inWindow {t : HashTask} (hout : t.phase.opens = false) : ¬ t.InWindow k := by
  obtain ⟨op, phase⟩ := t
  cases op <;> cases phase <;> first | exact id | cases hout

/-- 窓を開かず、閉じもしない動き。 -/
structure Calm (s : HashSystem) (p q : HashTask) : Prop where
  guard : ∀ k, GuardMove (guardOn k) s.tasks p q
  before : ∀ k, ¬ p.InWindow k
  after : ∀ k, ¬ q.InWindow k

theorem HashInv.calm (h : HashInv s) (hp : s.tasks[i]? = some p) (m : Calm s p q)
    (hd : sh.data = s.shared.data) (he : sh.cache.epochs = s.shared.cache.epochs)
    (hflag : s.shared.cache.everPopulated = true → sh.cache.everPopulated = true)
    (hlen : s.Keeps i sh q) (hans : ∀ a ∈ sh.answers, a.len = a.live)
    (hdel : sh.deletions = s.shared.deletions) : s.Lands i sh q :=
  h.move hp m.guard (fun k hw => absurd hw (m.after k)) (by rw [hd]) hflag
    (fun k => .same hp (by rw [hd]; exact ⟨rfl, rfl⟩) (by rw [he]) (by rw [hd])
      fun hw => absurd hw (m.before k))
    (hd ▸ h.versions) hlen hans (hdel ▸ h.deletions)

theorem HashInv.pass (h : HashInv s) (hp : s.tasks[i]? = some p) (m : Calm s p q) :
    s.Lands i s.shared q :=
  h.calm hp m rfl rfl id (fun _ _ hc => .inl hc) h.answers rfl

variable {op : HashOp} {tasks : List HashTask} {before after : HashPhase}

theorem guardOn_keep (hb : (mk op before).held = true)
    (ha : (mk op after).held = true) (k : DbKey) :
    guardOn k ⟨op, after⟩ = guardOn k ⟨op, before⟩ := by
  simp [guardOn, hb, ha]

theorem guardMove_keep (hb : (mk op before).held = true)
    (ha : (mk op after).held = true) (k : DbKey) :
    GuardMove (guardOn k) tasks ⟨op, before⟩ ⟨op, after⟩ :=
  .keep (guardOn_keep hb ha k)

theorem guardMove_free (ha : (mk op after).held = false) (k : DbKey) :
    GuardMove (guardOn k) tasks p ⟨op, after⟩ :=
  .release (by simp [guardOn, ha])

theorem Calm.keep (hp' : before.opens = false) (hq' : after.opens = false)
    (hb : (HashTask.mk op before).held = true := by rfl)
    (ha : (HashTask.mk op after).held = true := by rfl) : Calm s ⟨op, before⟩ ⟨op, after⟩ :=
  ⟨guardMove_keep hb ha, fun _ => not_inWindow hp', fun _ => not_inWindow hq'⟩

theorem Calm.free (hp' : p.phase.opens = false) : Calm s p ⟨op, .done⟩ :=
  ⟨guardMove_free rfl, fun _ => not_inWindow hp', fun _ => not_inWindow rfl⟩

theorem Calm.hlen (hp' : before.opens = false) (hq' : after.opens = false) :
    Calm s ⟨.hlen key, before⟩ ⟨.hlen key, after⟩ :=
  ⟨fun _ => .release (by simp [guardOn, scope, HashScope.contains]), fun _ => not_inWindow hp',
    fun _ => not_inWindow hq'⟩

variable (h : HashInv s)
include h

theorem HashInv.noWindow (hp : s.tasks[i]? = some p) (hw : p.guardOn k = .write)
    (hp' : ¬ p.InWindow k) : s.NoWindow k := by
  intro t ht hwin
  obtain rfl := (h.exclusive k).holder (mem_of_getElem? hp) hw ht (h.guarded t ht k hwin)
  exact hp' hwin

/-! ## HLEN の一歩 -/

theorem HashInv.insertLen (hp : s.tasks[i]? = some p) (m : Calm s p q) {entry : HashLenCacheEntry}
    (ht : s.Tracked key entry.len entry.version entry.keyEpoch)
    (hon : s.shared.cache.everPopulated = true) (hclear : ∀ t ∈ s.tasks, ¬ t.Clearing key.1) :
    s.Lands i { s.shared with cache := s.shared.cache.insertLen key entry } q := by
  refine h.calm hp m rfl rfl id (fun k cached hcached => ?_) h.answers rfl
  by_cases hk : k = key
  · subst hk
    have heq : cached = entry := by simpa [HashCache.insertLen, eq_comm] using hcached
    subst heq
    exact .inr ⟨ht.same ⟨rfl, rfl⟩ rfl le_rfl
      (noWindow_of_set hp fun hw => absurd hw (m.before k)), hon,
      fun j t _ hj => hclear t (mem_of_getElem? hj)⟩
  · refine .inl ?_
    simpa [HashCache.insertLen, update_of_ne hk] using hcached

theorem HashInv.answer (hp : s.tasks[i]? = some p) (m : Calm s p q) {a : LenAnswer}
    (ha : a.len = a.live) :
    s.Lands i { s.shared with answers := s.shared.answers ++ [a] } q :=
  h.calm hp m rfl rfl id (fun _ _ hc => .inl hc) (forall_mem_concat h.answers ha) rfl

omit h in
theorem liveCount_of_split {d : CollectionData} {ver : Nat}
    (h : d.records key = some (.split ver ttl)) : d.liveCount key = (d.members key ver).card := by
  simp [liveCount, h]

variable {before after : HashPhase}

theorem HashInv.hlen (hp : s.tasks[i]? = some ⟨.hlen key, before⟩) (hok : s.Coherent (.advance i))
    (ha : s.shared.hlen key before = some (sh, after)) :
    HashInv ⟨sh, s.tasks.set i ⟨.hlen key, after⟩⟩ := by
  simp only [Coherent, hp] at hok
  have hinv := h.tasks _ (mem_of_getElem? hp)
  cases before with
  | start =>
    simp only [HashShared.hlen] at ha
    split at ha
    · next ver hrec =>
      cases ha
      exact h.pass hp (.hlen rfl rfl) (h.versions key ver _ hrec)
    · cases ha
      exact h.pass hp (.hlen rfl rfl) trivial
  | read ver =>
    cases ha
    exact h.pass hp (.hlen rfl rfl) ⟨hinv, le_rfl⟩
  | epoch ver epoch =>
    simp only [HashShared.hlen, HashShared.probe] at ha
    split at ha
    · next cached hcached =>
      split at ha
      · next hmatch =>
        cases ha
        obtain ⟨hepoch, hrec, hwindow⟩ := hok cached hcached hmatch
        refine h.answer hp (.hlen rfl rfl) ?_ trivial
        show cached.len = s.shared.data.liveCount key
        rw [liveCount_of_split hrec]
        obtain ⟨rfl, rfl⟩ := hmatch
        exact (h.entries key cached hcached).fresh hwindow hrec hepoch
      · cases ha
        exact h.pass hp (.hlen rfl rfl) hinv
    · cases ha
      exact h.pass hp (.hlen rfl rfl) hinv
  | counting ver epoch =>
    cases ha
    exact h.pass hp (.hlen rfl rfl) ⟨hinv.1, hinv.2, fun _ _ _ => rfl⟩
  | counted ver epoch len =>
    cases ha
    exact h.calm hp (.hlen rfl rfl) rfl rfl (fun _ => rfl) (fun _ _ hc => .inl hc) h.answers rfl
      ⟨hinv.same ⟨rfl, rfl⟩ rfl le_rfl (noWindow_of_set hp id), rfl⟩
  | flagged ver epoch len =>
    cases ha
    exact h.insertLen hp (.hlen rfl rfl) hinv.1 hinv.2 hok trivial
  | _ => cases ha

/-! ## HDEL の一歩 -/

open Affects

theorem HashInv.commitWindow (hp : s.tasks[i]? = some p)
    (hguard : ∀ k, q.guardOn k = p.guardOn k) (hout : p.phase.opens = false)
    (hheld : ∀ k, q.InWindow k → p.guardOn k ≠ .free)
    (hc : s.shared.data.counter ≤ sh.data.counter)
    (hcache : sh.cache = s.shared.cache)
    (hsame : ∀ k, ¬ q.InWindow k → s.shared.data.SameAt sh.data k)
    (hver : ∀ k ver ttl, sh.data.records k = some (.split ver ttl) → ver ≤ sh.data.counter)
    (hans : sh.answers = s.shared.answers)
    (hdel : ∀ d ∈ sh.deletions, d.mainDeleted = true ↔ d.remaining = 0) : s.Lands i sh q := by
  refine h.move hp (fun k => .keep (hguard k)) (fun k hw => hguard k ▸ hheld k hw) hc
    (by rw [hcache]; exact id) ?_ hver ?_ ?_ hdel
  · intro k
    have he : sh.cache.epochs k = s.shared.cache.epochs k := by rw [hcache]
    by_cases hw : q.InWindow k
    · refine ⟨.inr (h.others_not_write hp (hheld k hw)), .inl he, fun len ver epoch _ ht => ?_⟩
      refine ⟨ht.version_le.trans hc, he ▸ ht.epoch_le, fun hnone => ?_⟩
      exact absurd hw (hnone q (mem_set_self hp))
    · exact same hp (hsame k hw) he hc fun hpw => absurd hpw (not_inWindow hout)
  · intro k cached hcached
    rw [hcache] at hcached
    exact .inl hcached
  · rw [hans]
    exact h.answers

theorem HashInv.hdelPacked (hp : s.tasks[i]? = some ⟨.hdel key requested, .locked⟩)
    (fields : Finset Bytes) :
    HashInv ⟨(s.shared.hdelPacked key requested fields).1,
      s.tasks.set i ⟨.hdel key requested, (s.shared.hdelPacked key requested fields).2⟩⟩ := by
  unfold HashShared.hdelPacked
  split
  · exact h.pass hp (.free rfl) trivial
  · have hwindow : ∀ k, InWindow k
        ⟨.hdel key requested, .committed fun k => decide (k = key)⟩ → k = key := by
      intro k hw
      exact of_decide_eq_true hw
    refine h.commitWindow hp (guardOn_keep rfl rfl) rfl
      (fun k hw => guardOn_hdel_ne_free (hwindow k hw) rfl) le_rfl rfl ?_ ?_ rfl ?_ trivial
    · intro k hw
      have hk : k ≠ key := fun hc => hw (decide_eq_true hc)
      exact ⟨update_of_ne hk _ _, rfl⟩
    · intro k ver ttl hrec
      by_cases hk : k = key
      · subst hk
        simp only [setRecord, update_self] at hrec
        split at hrec <;> cases hrec
      · simp only [setRecord, update_of_ne hk] at hrec
        exact h.versions k ver ttl hrec
    · exact forall_mem_concat h.deletions (by simp [Finset.card_eq_zero])

theorem HashInv.hdelSplit {ver len : Nat}
    (hp : s.tasks[i]? = some ⟨.hdel key requested, .total ver ttl len⟩) :
    HashInv ⟨(s.shared.hdelSplit key requested ver ttl len).1, s.tasks.set i
        ⟨.hdel key requested, (s.shared.hdelSplit key requested ver ttl len).2⟩⟩ := by
  obtain ⟨hrec, hlen, hflag⟩ := h.tasks _ (mem_of_getElem? hp)
  unfold HashShared.hdelSplit
  split
  · exact h.pass hp (.free rfl) trivial
  · -- 残る field の数は、全体から消した数を引いたものである
    have hle : (s.shared.data.members key ver ∩ requested).card ≤ len := by
      rw [hlen]
      exact Finset.card_le_card Finset.inter_subset_left
    have hrest : (s.shared.data.members key ver \ requested).card =
        len - (s.shared.data.members key ver ∩ requested).card := by
      rw [hlen, Finset.card_sdiff, Finset.inter_comm]
    refine h.commitWindow hp (guardOn_keep rfl rfl) rfl
      (fun k hw => guardOn_hdel_ne_free hw rfl) deleteMembers_counter.ge rfl ?_ ?_ rfl ?_ ?_
    · intro k hk
      refine ⟨deleteMembers_records_of_ne hk, ?_⟩
      show (s.shared.data.deleteMembers key ver requested len).members k = _
      rw [deleteMembers_members]
      exact setMembers_of_ne hk _
    · intro k v t hk
      show v ≤ (s.shared.data.deleteMembers key ver requested len).counter
      rw [deleteMembers_counter]
      refine h.versions k v t ?_
      by_cases hkey : k = key
      · subst hkey
        rcases @deleteMembers_records_self s.shared.data k ver len requested with
          hnone | hsame
        · exact absurd (hnone.symm.trans hk) (by simp)
        · exact hsame.symm.trans hk
      · exact (deleteMembers_records_of_ne hkey).symm.trans hk
    · refine forall_mem_concat h.deletions ?_
      simp only [decide_eq_true_eq, hrest]
      omega
    · refine ⟨?_, ?_, hflag, fun httl v => ?_⟩
      · show ver ≤ (s.shared.data.deleteMembers key ver requested len).counter
        rw [deleteMembers_counter]
        exact h.versions key ver ttl hrec
      · show _ = ((s.shared.data.deleteMembers key ver requested len).members key ver).card
        rw [deleteMembers_members, setMembers_self]
        exact hrest.symm
      · rcases @deleteMembers_records_self s.shared.data key ver len requested with
          hnone | hsame
        · exact fun hc => absurd (hnone.symm.trans hc) (by simp)
        · intro hc
          have heq := (hsame.trans hrec).symm.trans hc
          rw [httl] at heq
          cases heq

variable {touched : DbKey → Bool}

theorem HashInv.invalidate (hp : s.tasks[i]? = some p)
    (hguard : ∀ k, GuardMove (guardOn k) s.tasks p q)
    (hp' : ∀ k, p.InWindow k ↔ touched k = true) (hout : q.phase.opens = false)
    (hskip : s.shared.cache.everPopulated = false → ∀ k, touched k = true →
      Affects s ⟨s.shared, s.tasks.set i q⟩ i k) :
    s.Lands i { s.shared with cache := s.shared.cache.invalidateHashKeys touched } q := by
  refine h.move hp hguard (fun k hw => absurd hw (not_inWindow hout)) le_rfl ?_ ?_ h.versions ?_
    h.answers h.deletions
  · intro hon
    exact (invalidateHashKeys_everPopulated _ _).trans hon
  · intro k
    cases hon : s.shared.cache.everPopulated with
    | false =>
      rw [invalidateHashKeys_of_unpopulated hon]
      by_cases ht : touched k = true
      · exact hskip hon k ht
      · exact same hp ⟨rfl, rfl⟩ rfl le_rfl fun hw => absurd ((hp' k).mp hw) ht
    | true =>
      have hepochs := invalidateHashKeys_epochs hon touched k
      by_cases ht : touched k = true
      · rw [if_pos ht] at hepochs
        have hheld := h.guarded p (mem_of_getElem? hp) k ((hp' k).mpr ht)
        exact bump (h.others_not_write hp hheld) ⟨rfl, rfl⟩ hepochs le_rfl
      · rw [if_neg ht] at hepochs
        exact same hp ⟨rfl, rfl⟩ hepochs le_rfl fun hw => absurd ((hp' k).mp hw) ht
  · intro k cached hcached
    rw [invalidateHashKeys_lengths] at hcached
    exact .inl hcached

theorem HashInv.finishCommitted (hp : s.tasks[i]? = some ⟨op, .committed touched⟩)
    (hok : s.Coherent (.advance i)) : s.Lands i
      { s.shared with cache := s.shared.cache.invalidateHashKeys touched } ⟨op, .done⟩ := by
  have hcounted : s.shared.cache.everPopulated = false → ∀ t ∈ s.tasks, ¬ t.CountedOn touched := by
    cases op <;> simpa only [Coherent, hp] using hok
  refine h.invalidate hp (guardMove_free rfl) (fun _ => by cases op <;> rfl) rfl
    fun hoff k hk => ?_
  -- 数え終えた `HLEN` も、cache の entry もないので、古い長さはどこにも残っていない
  refine unseen ⟨rfl, rfl⟩ (.inl rfl) fun len ver epoch hlive => ?_
  rcases hlive with hentry | ⟨j, ⟨op', phase⟩, hij, hj, hop, hphase⟩
  · rw [h.unflagged hoff k] at hentry
    cases hentry
  · have hmem := mem_of_getElem? hj
    have hinv := h.tasks _ hmem
    subst hop
    rcases hphase with rfl | rfl
    · exact hcounted hoff _ hmem hk
    · exact absurd (hinv.2.symm.trans hoff) (by simp)

theorem HashInv.hdelDeleted {ver rest : Nat}
    (hp : s.tasks[i]? = some ⟨.hdel key requested, .deleted ver ttl rest⟩) :
    HashInv ⟨{ s.shared with cache := s.shared.cache.invalidateHashKeys fun k => k = key },
      s.tasks.set i ⟨.hdel key requested, .invalidated ver ttl rest⟩⟩ := by
  obtain ⟨hversion, hrest, hflag, hrec⟩ := h.tasks _ (mem_of_getElem? hp)
  refine h.invalidate hp (guardMove_keep rfl rfl) (fun k => ?_) rfl ?_
    ⟨hversion, hrest, ?_⟩
  · exact decide_eq_true_iff.symm
  · intro hoff k hk
    obtain rfl : k = key := of_decide_eq_true hk
    -- field の TTL があるときだけ、flag が立っていないことがありうる
    have httl : ttl = true := Bool.eq_true_of_not_eq_false fun hfalse =>
      absurd ((hflag hfalse).symm.trans hoff) (by simp)
    have hheld := h.others_not_write hp (guardOn_hdel_ne_free (k := k) rfl rfl)
    exact replaced hheld rfl le_rfl fun v _ => hrec httl v
  · intro httl
    exact (invalidateHashKeys_everPopulated _ _).trans (hflag httl)

theorem HashInv.hdelLocked (hp : s.tasks[i]? = some ⟨.hdel key requested, .locked⟩)
    (ha : s.shared.hdel key requested .locked = some (sh, after)) :
    HashInv ⟨sh, s.tasks.set i ⟨.hdel key requested, after⟩⟩ := by
  simp only [HashShared.hdel] at ha
  split at ha
  · cases ha
    exact h.pass hp (.free rfl) trivial
  · next fields _ =>
    have hnext := h.hdelPacked hp fields
    rw [Option.some.inj ha] at hnext
    exact hnext
  · next ver hrec =>
    cases ha
    exact h.pass hp (.keep rfl rfl) hrec
  · next ver hrec =>
    cases ha
    exact h.pass hp (.keep rfl rfl) ⟨hrec, rfl, nofun⟩

/-- cache の entry が今の epoch のものなら、その長さは record のものである。 -/
theorem HashInv.hdelProbe {ver epoch : Nat}
    (hp : s.tasks[i]? = some ⟨.hdel key requested, .epoch ver epoch⟩)
    (ha : s.shared.hdel key requested (.epoch ver epoch) = some (sh, after)) :
    HashInv ⟨sh, s.tasks.set i ⟨.hdel key requested, after⟩⟩ := by
  have hinv := h.tasks _ (mem_of_getElem? hp)
  simp only [HashShared.hdel, HashShared.probe] at ha
  split at ha
  · next cached hcached =>
    split at ha
    · next hmatch =>
      cases ha
      obtain ⟨rfl, rfl⟩ := hmatch
      obtain ⟨hrec, hepoch⟩ := hinv
      have hwindow : s.NoWindow key := h.noWindow hp (guardOn_hdel rfl) id
      have hlen : cached.len = (s.shared.data.members key cached.version).card :=
        (h.entries key cached hcached).fresh hwindow hrec hepoch
      have hon : s.shared.cache.everPopulated = true := Bool.eq_true_of_not_eq_false fun hs =>
        absurd (hcached.symm.trans (h.unflagged hs key)) (by simp)
      refine h.answer hp (.keep rfl rfl) ?_ ⟨hrec, hlen, fun _ => hon⟩
      show cached.len = s.shared.data.liveCount key
      rw [liveCount_of_split hrec]
      exact hlen
    · cases ha
      exact h.pass hp (.keep rfl rfl) hinv
  · cases ha
    exact h.pass hp (.keep rfl rfl) hinv

theorem HashInv.hdel (hp : s.tasks[i]? = some ⟨.hdel key requested, before⟩)
    (hok : s.Coherent (.advance i)) (ha : s.shared.hdel key requested before = some (sh, after)) :
    HashInv ⟨sh, s.tasks.set i ⟨.hdel key requested, after⟩⟩ := by
  have hinv := h.tasks _ (mem_of_getElem? hp)
  cases before with
  | locked => exact h.hdelLocked hp ha
  | read ver =>
    cases ha
    exact h.pass hp (.keep rfl rfl) ⟨hinv, rfl⟩
  | epoch ver epoch => exact h.hdelProbe hp ha
  | counting ver epoch =>
    cases ha
    exact h.pass hp (.keep rfl rfl) ⟨hinv.1, hinv.2, rfl⟩
  | counted ver epoch len =>
    cases ha
    exact h.calm hp (.keep rfl rfl) rfl rfl (fun _ => rfl) (fun _ _ hc => .inl hc) h.answers rfl
      ⟨hinv.1, hinv.2.1, hinv.2.2, rfl⟩
  | flagged ver epoch len =>
    cases ha
    simp only [Coherent, hp] at hok
    obtain ⟨hrec, hepoch, hlen, hon⟩ := hinv
    refine h.insertLen hp (.keep rfl rfl) ?_ hon hok
      ⟨hrec, hlen, fun _ => hon⟩
    exact ⟨h.versions key ver false hrec, hepoch.le, fun _ _ _ => hlen⟩
  | total ver ttl len =>
    have hnext := h.hdelSplit hp
    rw [Option.some.inj ha] at hnext
    exact hnext
  | deleted ver ttl rest =>
    cases ha
    exact h.hdelDeleted hp
  | invalidated ver ttl rest =>
    simp only [HashShared.hdel] at ha
    split at ha
    · next hrenew =>
      cases ha
      exact h.pass hp (.keep rfl rfl) ⟨hinv.1, rfl, hinv.2.1, hinv.2.2 hrenew.1⟩
    · cases ha
      exact h.pass hp (.free rfl) trivial
  | renewed ver rest epoch =>
    cases ha
    simp only [Coherent, hp] at hok
    obtain ⟨hversion, hepoch, hrest, hon⟩ := hinv
    exact h.insertLen hp (.free rfl)
      ⟨hversion, hepoch.le, fun _ _ _ => hrest⟩ hon hok trivial
  | committed touched =>
    cases ha
    exact h.finishCommitted hp hok trivial
  | _ => cases ha

/-! ## 書き込みの一歩 -/

omit h in
theorem guardOn_write (hheld : (mk op phase).held = true)
    (hscope : op.scope.contains k = true) : guardOn k ⟨op, phase⟩ ≠ .free := by
  simp only [guardOn, hheld, hscope, Bool.and_self, if_true]
  cases op <;> exact nofun

variable {after : HashPhase}

theorem HashInv.commitRange {d : CollectionData} (hp : s.tasks[i]? = some ⟨op, .locked⟩)
    (hheld : (HashTask.mk op after).held = true)
    (hq' : ∀ k, HashTask.InWindow k ⟨op, after⟩ → op.scope.contains k = true)
    (hc : s.shared.data.counter ≤ d.counter)
    (hsame : ∀ k, ¬ op.scope.contains k = true → s.shared.data.SameAt d k)
    (hnew : ∀ k ver ttl, op.scope.contains k = true →
      d.records k = some (.split ver ttl) → s.shared.data.counter < ver ∧ ver ≤ d.counter) :
    s.Lands i { s.shared with data := d } ⟨op, after⟩ := by
  refine h.move hp (guardMove_keep rfl hheld) (fun k hw => guardOn_write hheld (hq' k hw)) hc id
    ?_ ?_ (fun _ _ hcached => .inl hcached) h.answers h.deletions
  · intro k
    by_cases hk : op.scope.contains k = true
    · refine replaced (h.others_not_write hp (guardOn_write rfl hk)) rfl hc ?_
      intro ver hle hrec
      exact absurd (hnew k ver false hk hrec).1 (Nat.not_lt.mpr hle)
    · exact same hp (hsame k hk) rfl hc fun hw => absurd hw (not_inWindow rfl)
  · intro k ver ttl hrec
    by_cases hk : op.scope.contains k = true
    · exact (hnew k ver ttl hk hrec).2
    · exact (h.versions k ver ttl ((hsame k hk).1 ▸ hrec)).trans hc

theorem HashInv.commitHset {added : Finset Bytes} {promote : Bool}
    (hp : s.tasks[i]? = some ⟨.hset key added promote, .locked⟩) :
    HashInv ⟨{ s.shared with data := s.shared.data.addMembers key added promote },
      s.tasks.set i ⟨.hset key added promote, .committed fun k => k = key⟩⟩ := by
  have hscope : ∀ k, decide (k = key) = true →
      (hset key added promote).scope.contains k = true := by
    intro k hk
    simp [scope, HashScope.contains, of_decide_eq_true hk]
  refine h.commitWindow hp (guardOn_keep rfl rfl) rfl
    (fun k hw => guardOn_write rfl (hscope k hw)) (counter_le_addMembers promote) rfl ?_ ?_ rfl
    h.deletions trivial
  · intro k hw
    exact addMembers_of_ne (fun hc => hw (decide_eq_true hc)) promote
  · intro k ver ttl hrec
    by_cases hk : k = key
    · subst hk
      rcases addMembers_self hrec with hold | hnew
      · exact (h.versions k ver ttl hold).trans (counter_le_addMembers promote)
      · exact hnew.le
    · refine (h.versions k ver ttl ?_).trans (counter_le_addMembers promote)
      exact (addMembers_of_ne hk promote).1 ▸ hrec

theorem HashInv.commit (hp : s.tasks[i]? = some ⟨op, .locked⟩)
    (ha : s.shared.commit op = some (sh, after)) : HashInv ⟨sh, s.tasks.set i ⟨op, after⟩⟩ := by
  cases op with
  | hlen key | hdel key requested => cases ha
  | hset key added promote =>
    cases ha
    exact h.commitHset hp
  | del db keys =>
    cases ha
    have hscope : ∀ k, (HashOp.del db keys).scope.contains k = true ↔
        ∃ key ∈ keys, (db, key) = k := by
      intro k
      simp [scope, HashScope.contains]
    refine h.commitRange hp rfl (fun _ hw => absurd hw id)
      (foldl_remove (k := (0, [])) keys).1.ge ?_ ?_ trivial
    · exact fun k hk => (foldl_remove keys).2.2 fun hex => hk ((hscope k).mpr hex)
    · intro k ver ttl hk hrec
      have hnone := (foldl_remove (d := s.shared.data) keys).2.1 (.inl ((hscope k).mp hk))
      exact absurd (hnone.symm.trans hrec) (by simp)
  | rename db source target =>
    simp only [HashShared.commit] at ha
    split at ha
    · cases ha
      exact h.pass hp (.free rfl) trivial
    · next hcond =>
      cases ha
      obtain ⟨hne, hsource⟩ := not_or.mp hcond
      have hscope : ∀ k, (HashOp.rename db source target).scope.contains k = true ↔
          k = (db, source) ∨ k = (db, target) := by
        intro k
        simp [scope, HashScope.contains]
      have hne' : ((db, target) : DbKey) ≠ (db, source) := fun hc => hne (Prod.mk.inj hc).2.symm
      refine h.commitRange hp rfl (fun k hw => (hscope k).mpr (of_decide_eq_true hw))
        counter_le_rename ?_ ?_ trivial
      · intro k hk
        obtain ⟨hs, ht⟩ := not_or.mp fun hc => hk ((hscope k).mpr hc)
        exact rename_of_ne hs ht
      · intro k ver ttl hk hrec
        obtain ⟨hversion, hlt⟩ := rename_self hne' hsource ((hscope k).mp hk) hrec
        exact ⟨hlt, hversion.le⟩
  | flush db =>
    cases ha
    have hscope : ∀ k : DbKey, (HashOp.flush db).scope.contains k = true ↔ k.1 = db := by
      intro k
      simp [scope, HashScope.contains]
    refine h.commitRange hp rfl (fun k hw => ?_) le_rfl ?_ ?_ trivial
    · have htouched : decide (k.1 = db ∧ (s.shared.data.records k).isSome) = true := hw
      exact (hscope k).mpr (of_decide_eq_true htouched).1
    · intro k hk
      have hne : k.1 ≠ db := fun hc => hk ((hscope k).mpr hc)
      simp [SameAt, CollectionData.flush, hne]
    · intro k ver ttl hk hrec
      simp [CollectionData.flush, (hscope k).mp hk] at hrec

theorem HashInv.clear (hp : s.tasks[i]? = some ⟨op, .rangeCommitted⟩) :
    HashInv ⟨{ s.shared with cache := s.shared.cache.clearLengths op.dbIndex },
      s.tasks.set i ⟨op, .cleared⟩⟩ := by
  refine h.calm hp (.keep rfl rfl) rfl rfl id ?_ h.answers rfl ?_
  · intro k cached hcached
    refine .inl ?_
    obtain ⟨-, hcached⟩ := Option.ite_none_left_eq_some.mp hcached
    exact hcached
  · have hnone : ∀ k : DbKey, k.1 = op.dbIndex →
        (s.shared.cache.clearLengths op.dbIndex).lengths k = none := by
      intro k hk
      simp [HashCache.clearLengths, hk]
    cases op with
    | hlen key | hdel key requested => trivial
    | _ => exact hnone

theorem HashInv.reset (hp : s.tasks[i]? = some ⟨op, .cleared⟩)
    (hnone : ∀ k : DbKey, k.1 = op.dbIndex → s.shared.cache.lengths k = none)
    (hholds : ∀ t ∈ s.tasks, ¬ t.HoldsEpoch op.dbIndex) :
    s.Lands i { s.shared with cache := s.shared.cache.resetEpochs op.dbIndex } ⟨op, .done⟩ := by
  refine h.move hp (guardMove_free rfl) (fun k hw => absurd hw (not_inWindow rfl)) le_rfl id ?_
    h.versions (fun _ _ hc => .inl hc) h.answers h.deletions
  intro k
  by_cases hk : k.1 = op.dbIndex
  · refine unseen ⟨rfl, rfl⟩ (.inr fun j t _ hj => ?_) fun len ver epoch hlive => ?_
    · rw [hk]
      exact hholds t (mem_of_getElem? hj)
    · rcases hlive with hentry | ⟨j, ⟨op', phase⟩, -, hj, hop, hphase⟩
      · rw [hnone k hk] at hentry
        cases hentry
      · subst hop
        refine hholds _ (mem_of_getElem? hj) ?_
        rcases hphase with rfl | rfl <;> exact hk
  · exact same hp ⟨rfl, rfl⟩ (by simp [resetEpochs, hk]) le_rfl
      fun hw => absurd hw (not_inWindow rfl)

theorem HashInv.lock (hp : s.tasks[i]? = some ⟨op, .start⟩) (hadmits : ∀ p ∈ s.tasks, p.Admits op) :
    HashInv ⟨s.shared, s.tasks.set i ⟨op, .locked⟩⟩ := by
  have hguard : ∀ k, GuardMove (guardOn k) s.tasks ⟨op, .start⟩ ⟨op, .locked⟩ := by
    intro k
    by_cases hk : op.scope.contains k = true
    · have hself : guardOn k ⟨op, .locked⟩ = op.mode := by
        simp [guardOn, held, hk]
      have hheld : ∀ t ∈ s.tasks, t.guardOn k ≠ .free →
          op.mode = .read ∧ t.guardOn k = .read := by
        intro t ht hne
        unfold guardOn at hne ⊢
        split at hne
        · next hcond =>
          obtain ⟨hh, hc⟩ := Bool.and_eq_true_iff.mp hcond
          rw [if_pos hcond]
          exact hadmits t ht hh (HashScope.overlaps_of_contains hk hc)
        · exact absurd rfl hne
      cases hmode : op.mode with
      | free => exact .release (hself.trans hmode)
      | read =>
        refine .read (hself.trans hmode) fun t ht hw => ?_
        have hread := (hheld t ht (by rw [hw]; simp)).2
        rw [hw] at hread
        cases hread
      | write =>
        refine .write (hself.trans hmode) fun t ht => ?_
        by_contra hne
        have hread := (hheld t ht hne).1
        rw [hmode] at hread
        cases hread
    · exact .release (by simp [guardOn, hk])
  refine h.pass hp ⟨hguard, fun _ => not_inWindow rfl, fun _ => not_inWindow rfl⟩ ?_
  cases op <;> trivial

theorem HashInv.write (hl : ∀ key, op ≠ .hlen key) (hd : ∀ key requested, op ≠ .hdel key requested)
    (hp : s.tasks[i]? = some ⟨op, before⟩) (hok : s.Coherent (.advance i))
    (ha : s.shared.write op before = some (sh, after)) :
    HashInv ⟨sh, s.tasks.set i ⟨op, after⟩⟩ := by
  have hdone : ∀ {s' : HashSystem}, s'.TaskInv ⟨op, .done⟩ := by cases op <;> exact trivial
  cases before with
  | locked => exact h.commit hp ha
  | committed touched =>
    cases ha
    exact h.finishCommitted hp hok hdone
  | rangeCommitted =>
    simp only [HashShared.write] at ha
    split at ha
    · cases ha
      exact h.clear hp
    · cases ha
      exact h.pass hp (.free rfl) hdone
  | cleared =>
    cases ha
    have hinv := h.tasks _ (mem_of_getElem? hp)
    refine h.reset hp ?_ ?_ hdone
    · cases op with
      | hlen key => exact absurd rfl (hl key)
      | hdel key requested => exact absurd rfl (hd key requested)
      | _ => exact hinv
    · cases op with
      | hlen key => exact absurd rfl (hl key)
      | _ => simpa only [Coherent, hp] using hok
  | _ => cases ha

theorem HashInv.advance {t : HashTask} (hp : s.tasks[i]? = some t) (hok : s.Coherent (.advance i))
    (ha : s.shared.advance s.tasks t = some (sh, after)) :
    HashInv ⟨sh, s.tasks.set i ⟨t.op, after⟩⟩ := by
  obtain ⟨op, phase⟩ := t
  have hlock : s.tasks[i]? = some ⟨op, .start⟩ →
      (if ∀ p ∈ s.tasks, p.Admits op then some (s.shared, .locked) else none) =
        some (sh, after) → HashInv ⟨sh, s.tasks.set i ⟨op, after⟩⟩ := by
    intro hp ha
    split at ha
    · next hadmits =>
      cases ha
      exact h.lock hp hadmits
    · cases ha
  cases op with
  | hlen key => exact h.hlen hp hok ha
  | hdel key requested =>
    cases phase with
    | start => exact hlock hp ha
    | _ => exact h.hdel hp hok ha
  | _ =>
    cases phase with
    | start => exact hlock hp ha
    | _ => exact h.write nofun nofun hp hok ha

theorem HashInv.invoke (op : HashOp) : HashInv { s with tasks := s.tasks ++ [⟨op, .start⟩] } := by
  have hnone : ∀ k, (HashSystem.mk s.shared (s.tasks ++ [⟨op, .start⟩])).NoWindow k →
      s.NoWindow k := fun k hn t ht => hn t (mem_append_left _ ht)
  have htracked : ∀ {k len ver epoch}, s.Tracked k len ver epoch →
      (HashSystem.mk s.shared (s.tasks ++ [⟨op, .start⟩])).Tracked k len ver epoch :=
    fun ht => ht.same ⟨rfl, rfl⟩ rfl le_rfl (hnone _)
  refine ⟨fun k => (h.exclusive k).push (by simp [guardOn, held]), ?_,
    h.versions, fun k cached hc => htracked (h.entries k cached hc), h.unflagged, ?_, h.answers,
    h.deletions⟩
  · exact forall_mem_concat h.guarded fun k hw => absurd hw (not_inWindow rfl)
  · refine forall_mem_concat (fun t ht => ?_) ?_
    · have hinv := h.tasks t ht
      obtain ⟨op', phase⟩ := t
      cases op' with
      | hlen key =>
        cases phase with
        | counted ver epoch len => exact htracked hinv
        | flagged ver epoch len => exact ⟨htracked hinv.1, hinv.2⟩
        | _ => exact hinv
      | _ => exact hinv
    · cases op <;> exact trivial

theorem HashInv.step {event : HashEvent} {s' : HashSystem} (hok : s.Coherent event)
    (hs : s.step event = some s') : HashInv s' := by
  cases event with
  | invoke op =>
    cases hs
    exact h.invoke op
  | advance i =>
    simp only [HashSystem.step] at hs
    split at hs
    · cases hs
    · next t hp =>
      split at hs
      · cases hs
      · next shared phase ha =>
        cases hs
        exact h.advance hp hok ha
  | merge key ver field =>
    obtain ⟨-, hs⟩ := Option.ite_none_right_eq_some.mp hs
    cases hs
    -- 既にある field に届くので、field の集まりは変わらない
    have hsame : s.shared.data.setMembers key ver
        (insert field (s.shared.data.members key ver)) = s.shared.data := by
      rw [Finset.insert_eq_self.mpr hok]
      simp [setMembers]
    rw [hsame]
    exact h
  | evict =>
    cases hs
    have htasks : ∀ t ∈ s.tasks, HashSystem.TaskInv { s with
        shared := { s.shared with cache := { s.shared.cache with lengths := fun _ => none } } }
        t := by
      intro t ht
      have hinv := h.tasks t ht
      obtain ⟨op, phase⟩ := t
      cases op with
      | hlen key =>
        cases phase with
        | counted ver epoch len => exact hinv.same ⟨rfl, rfl⟩ rfl le_rfl id
        | flagged ver epoch len => exact ⟨hinv.1.same ⟨rfl, rfl⟩ rfl le_rfl id, hinv.2⟩
        | _ => exact hinv
      | hdel key requested => exact hinv
      | _ =>
        cases phase with
        | cleared => exact fun _ _ => rfl
        | _ => exact hinv
    exact ⟨h.exclusive, h.guarded, h.versions, fun _ _ hc => (by cases hc), fun _ _ => rfl, htasks,
      h.answers, h.deletions⟩

end

/-! ## 主定理 -/

/--
**cache から答えた長さは正しい。** どの step も `Coherent` を満たす実行では、`HLEN` と `HDEL` が cache
から得た長さは field の数に等しく、`HDEL` は field が残らないときにちょうど main record を消す。
-/
theorem hash_length_coherent {data : CollectionData}
    (hv : ∀ k ver ttl, data.records k = some (.split ver ttl) → ver ≤ data.counter)
    {events : List HashEvent} {s : HashSystem}
    (hok : Obeys step Coherent (start data) events)
    (hrun : run step (start data) events = some s) :
    (∀ a ∈ s.shared.answers, a.len = a.live) ∧
      ∀ d ∈ s.shared.deletions, d.mainDeleted = true ↔ d.remaining = 0 := by
  have h : HashInv s :=
    run_induction (fun _ _ _ hi ho hs => hi.step ho hs) (HashInv.start hv) hok hrun
  exact ⟨h.answers, h.deletions⟩

/-! ## 古い長さが残る実行 -/

instance (s : HashSystem) (k : DbKey) : Decidable (s.NoWindow k) :=
  inferInstanceAs (Decidable (∀ t ∈ s.tasks, ¬ t.InWindow k))

instance (s : HashSystem) (key : DbKey) (ver epoch : Nat) : Decidable (s.Current key ver epoch) :=
  inferInstanceAs (Decidable (_ ∧ _ ∧ _))

instance (s : HashSystem) (event : HashEvent) : Decidable (s.Coherent event) := by
  unfold Coherent
  split
  · split <;> infer_instance
  · infer_instance
  · infer_instance

namespace LatePublish

def key : DbKey := (0, [0x6b])

def fieldA : Bytes := [0x61]

def fieldB : Bytes := [0x62]

def data : CollectionData :=
  ⟨fun k => if k = key then some (.split 1 false) else none,
    fun k ver => if k = key ∧ ver = 1 then {fieldA} else ∅, 1⟩

theorem data_versions : ∀ k ver ttl, data.records k = some (.split ver ttl) →
    ver ≤ data.counter := by
  intro k ver ttl h
  simp only [data] at h ⊢
  split at h
  · cases h
    exact le_rfl
  · cases h

def after (events : List HashEvent) : HashSystem :=
  (run step (start data) events).getD (start data)

/--
最初の `HLEN` が 1 と数えた後に、`HSET` が field を加える。`HLEN` は長さ 1 を cache に置き、`HDEL` が
それを使う。
-/
def events : List HashEvent :=
  [.invoke (.hlen key)] ++ replicate 4 (.advance 0) ++
    [.invoke (.hset key {fieldB} false)] ++ replicate 3 (.advance 1) ++
    replicate 2 (.advance 0) ++
    [.invoke (.hdel key {fieldA})] ++ replicate 5 (.advance 2)

theorem stale_length_deletes_main :
    run step (start data) events = some (after events) ∧
      (after events).shared.answers = [⟨key, 1, 2⟩] ∧
      (after events).shared.deletions = [⟨key, true, 1⟩] ∧
      (after events).shared.data.records key = none ∧
      (after events).shared.data.members key 1 = {fieldB} := by
  refine ⟨rfl, by decide, by decide, by decide, by decide⟩

/-- `HLEN` が entry を置いてから `HSET` が来る。 -/
def ordered : List HashEvent :=
  [.invoke (.hlen key)] ++ replicate 6 (.advance 0) ++
    [.invoke (.hset key {fieldB} false)] ++ replicate 3 (.advance 1) ++
    [.invoke (.hlen key)] ++ replicate 6 (.advance 2) ++
    [.invoke (.hdel key {fieldA, fieldB})] ++ replicate 5 (.advance 3)

theorem ordered_coherent : (after ordered).shared.answers = [⟨key, 2, 2⟩] ∧
      (after ordered).shared.deletions = [⟨key, true, 0⟩] ∧
      (∀ a ∈ (after ordered).shared.answers, a.len = a.live) ∧
      ∀ d ∈ (after ordered).shared.deletions, d.mainDeleted = true ↔ d.remaining = 0 := by
  have hok : Obeys step Coherent (start data) ordered := by decide
  exact ⟨by decide, by decide, hash_length_coherent data_versions hok rfl⟩

end LatePublish

end Onedis.Store
