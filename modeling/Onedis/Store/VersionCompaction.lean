import Mathlib.Data.List.Sort
import Onedis.Infra.Run
import Onedis.Store.WriteBatch

/-!
# 古い version の compaction

`store/db/version_compaction.rs` の写し。engine の compaction は、`VersionCompactionTracker` の知らない
version の record を落とす。tracker は次の三つの経路で更新される。

* 書き込みの前に、batch が宣言する version を登録する
* 起動時に、owner marker のある version をすべて登録する
* 巡回（refresh）が marker を読み、持ち主の main record と version が違えば登録を外す
-/

namespace Onedis.Store

open Infra List TypeTag Option

/-! ## filter が読む version -/

def isVersionedNamespace (ns : Bytes) : Bool :=
  Namespace.all.any fun candidate => candidate.isVersioned && ns == candidate.bytes

/-- owner と version を区切る `0x00` の位置。 -/
def compactionDelimiter (encodedOwner : Bytes) : Option Nat :=
  if encodedOwner.head? = some nulKeyEncodingMarker then
    if encodedOwner.length < 9 then none
    else
      let delimiter := 9 + ofBe ((encodedOwner.drop 1).take 8)
      if encodedOwner[delimiter]? = some 0 then some delimiter else none
  else encodedOwner.findIdx? (· == 0)

/-- raw key から version を読む。version を持たない record では `none` である。 -/
def versionFromCompactionKey (key : Bytes) : Option Nat := do
  let rest ← tableLocalInternalPrefix.isPrefixOf? key
  match Namespace.versionOwner.bytes.isPrefixOf? rest with
  | some suffix => if suffix.length = 8 then some (ofBe suffix) else none
  | none =>
    if rest.length < 3 ∨ ¬ isVersionedNamespace (rest.take 3) then none
    else
      let encodedOwner := rest.drop 3
      let delimiter ← compactionDelimiter encodedOwner
      let ver := (encodedOwner.drop (delimiter + 1)).take 8
      if ver.length = 8 then some (ofBe ver) else none

theorem isVersionedNamespace_bytes (ns : Namespace) :
    isVersionedNamespace ns.bytes = ns.isVersioned := by
  cases ns <;> decide

theorem compactionDelimiter_versionedSubKeyOwner (k : Key) (rest : Bytes) :
    compactionDelimiter (versionedSubKeyOwner k.bytes ++ 0x00 :: rest) =
      some (versionedSubKeyOwner k.bytes).length := by
  unfold versionedSubKeyOwner
  by_cases h : k.bytes.contains 0 = true
  · rw [if_pos h]
    have hlen : ofBe (toBe 8 k.bytes.length) = k.bytes.length := ofBe_toBe k.lengthLt
    have htake : ((toBe 8 k.bytes.length ++ k.bytes ++ 0x00 :: rest).take 8) =
        toBe 8 k.bytes.length := by
      rw [append_assoc]
      exact take_left' (length_toBe 8 _)
    have hat : (nulKeyEncodingMarker :: (toBe 8 k.bytes.length ++ k.bytes ++ 0x00 :: rest))[9 +
        k.bytes.length]? = some 0 := by
      rw [show 9 + k.bytes.length = (8 + k.bytes.length) + 1 by omega, getElem?_cons_succ,
        getElem?_append_right (by simp)]
      simp
    simp only [compactionDelimiter, cons_append, head?_cons, if_true,
      drop_succ_cons, drop_zero, htake, hlen, length_cons, length_append,
      length_toBe, hat]
    rw [if_neg (by omega)]
    congr 1
    omega
  · rw [if_neg h]
    have h0 : (0 : UInt8) ∉ k.bytes := by simpa using h
    have hnone : k.bytes.findIdx? (· == 0) = none := by
      rw [findIdx?_eq_none_iff]
      intro b hb
      have hne : b ≠ 0 := by
        rintro rfl
        exact h0 hb
      simpa using hne
    rw [compactionDelimiter, if_neg (head?_ne_marker k rest), findIdx?_append, hnone]
    simp [findIdx?_cons]

/-- **filter は sub key の version を読み戻す。** -/
theorem versionFromCompactionKey_subKey (db : Nat) {ns : Namespace}
    (hns : ns.isVersioned = true) (k : Key) {ver : Nat} (hv : ver < 2 ^ 64)
    (suffix : Bytes) :
    versionFromCompactionKey (subKey .current db ns k.bytes ver suffix) = some ver := by
  have hne : Namespace.versionOwner ≠ ns := by
    rintro rfl
    cases hns
  have hlen : (ns.bytes ++ (versionedSubKeyOwner k.bytes ++
      0x00 :: (toBe 8 ver ++ suffix))).length ≥ 3 := by
    simp [Namespace.bytes]
  have htake : ∀ rest, (ns.bytes ++ rest).take 3 = ns.bytes := fun rest => take_left' rfl
  have hdrop : ∀ rest, (ns.bytes ++ rest).drop 3 = rest := fun rest => drop_left' rfl
  have htail : (versionedSubKeyOwner k.bytes ++ 0x00 :: (toBe 8 ver ++ suffix)).drop
      ((versionedSubKeyOwner k.bytes).length + 1) = toBe 8 ver ++ suffix := by
    rw [← drop_drop, drop_left' rfl]
    rfl
  have hpfx : (KeyEncodingLayout.current.internalPrefix db : Bytes) =
      tableLocalInternalPrefix := rfl
  rw [subKey_eq, hpfx]
  simp only [versionFromCompactionKey, isPrefixOf?_append, bind_eq_bind, bind_some,
    Namespace.isPrefixOf?_bytes, if_neg hne, htake, hdrop, isVersionedNamespace_bytes, hns,
    compactionDelimiter_versionedSubKeyOwner, htail]
  rw [if_neg (by simpa using hlen), take_left' (length_toBe 8 ver)]
  simp only [length_toBe, if_true]
  rw [ofBe_toBe (by simpa using hv)]

theorem versionFromCompactionKey_versionOwnerKey (db : Nat) {ver : Nat} (hv : ver < 2 ^ 64) :
    versionFromCompactionKey (versionOwnerKey db ver) = some ver := by
  have hkey : versionOwnerKey db ver =
      tableLocalInternalPrefix ++ (Namespace.versionOwner.bytes ++ toBe 8 ver) := by
    simp [versionOwnerKey, versionOwnerPrefix, KeyEncodingLayout.internalPrefix,
      KeyEncodingLayout.current]
  simp only [hkey, versionFromCompactionKey, isPrefixOf?_append, bind_eq_bind,
    bind_some, length_toBe, if_true]
  rw [ofBe_toBe (by simpa using hv)]

/-! ## tracker -/

/-- 生きている version の表。owner をすべて読むまで `ready` にならない。 -/
structure VersionCompactionTracker where
  liveVersions : List Nat
  ownerScanNext : Nat → Option Nat
  ready : Bool
open VersionCompactionTracker

namespace VersionCompactionTracker

def empty : VersionCompactionTracker := ⟨[], fun _ => none, false⟩

def registerLive (t : VersionCompactionTracker) (ver : Nat) : VersionCompactionTracker :=
  if ver ≠ 0 then { t with liveVersions := ver :: t.liveVersions } else t

def retire (t : VersionCompactionTracker) (ver : Nat) : VersionCompactionTracker :=
  if ver ≠ 0 then { t with liveVersions := t.liveVersions.filter (· ≠ ver) } else t

def markReady (t : VersionCompactionTracker) : VersionCompactionTracker := { t with ready := true }

def finishOwnerScan (t : VersionCompactionTracker) (db : Nat) (lastVersion : Option Nat)
    (exhausted : Bool) : VersionCompactionTracker :=
  let next :=
    if exhausted then none
    else
      match lastVersion with
      | some ver => if ver + 1 < 2 ^ 64 then some (ver + 1) else none
      | none => none
  { t with ownerScanNext := fun d => if d = db then next else t.ownerScanNext d }

def shouldRemove (t : VersionCompactionTracker) (key : Bytes) : Bool :=
  if ¬ t.ready then false
  else
    match versionFromCompactionKey key with
    | some ver => !t.liveVersions.contains ver
    | none => false

variable {t : VersionCompactionTracker}

theorem shouldRemove_eq_false {key : Bytes} {ver : Nat}
    (hkey : versionFromCompactionKey key = some ver) (hlive : ver ∈ t.liveVersions) :
    t.shouldRemove key = false := by
  unfold shouldRemove
  split
  · rfl
  · simp [hkey, hlive]

theorem mem_registerLive {ver v : Nat} (h : v ≠ 0) :
    v ∈ (t.registerLive ver).liveVersions ↔ v = ver ∨ v ∈ t.liveVersions := by
  unfold registerLive
  split
  · simp
  · next hz =>
    have hzero : ver = 0 := by simpa using hz
    constructor
    · exact .inr
    · rintro (rfl | hm)
      · exact absurd hzero h
      · exact hm

theorem mem_retire {ver v : Nat} (hne : v ≠ ver) (h : v ∈ t.liveVersions) :
    v ∈ (t.retire ver).liveVersions := by
  unfold retire
  split
  · simp [h, hne]
  · exact h

end VersionCompactionTracker

/-! ## owner marker -/

/-- version の owner の record。 -/
structure VersionOwner where
  dbIndex : Nat
  version : Nat
  typeTag : UInt8
  key : Bytes
  deriving DecidableEq, Repr

def VersionOwner.markerKey (o : VersionOwner) : Bytes := versionOwnerKey o.dbIndex o.version

def VersionOwner.markerValue (o : VersionOwner) : Bytes :=
  versionOwnerValueVersion :: o.typeTag :: o.key

def decodeVersionOwner (db : Nat) (rawKey rawValue : Bytes) : Option VersionOwner :=
  match (versionOwnerPrefix db).isPrefixOf? rawKey, rawValue with
  | some suffix, valueVersion :: typeTag :: key =>
    if suffix.length = 8 ∧ valueVersion = versionOwnerValueVersion then
      some ⟨db, ofBe suffix, typeTag, key⟩
    else none
  | _, _ => none

theorem decodeVersionOwner_marker {o : VersionOwner} (hv : o.version < 2 ^ 64) :
    decodeVersionOwner o.dbIndex o.markerKey o.markerValue = some o := by
  simp only [decodeVersionOwner, VersionOwner.markerKey, versionOwnerKey, isPrefixOf?_append,
    VersionOwner.markerValue, length_toBe, and_self, if_true]
  rw [ofBe_toBe (by simpa using hv)]

def putOwner (o : VersionOwner) (owners : List VersionOwner) : List VersionOwner :=
  o :: owners.filter fun x => ¬ (x.dbIndex = o.dbIndex ∧ x.version = o.version)

theorem mem_putOwner {o x : VersionOwner} {owners : List VersionOwner} : x ∈ putOwner o owners ↔
      x = o ∨ (x ∈ owners ∧ ¬ (x.dbIndex = o.dbIndex ∧ x.version = o.version)) := by
  simp only [putOwner, mem_cons, mem_filter, decide_eq_true_eq]

/-! ## store と巡回 -/

def MetaHeader.Versioned (h : MetaHeader) : Prop := h.version ≠ 0 ∧ h.typeTag ≠ string.code

instance (h : MetaHeader) : Decidable h.Versioned := inferInstanceAs (Decidable (_ ∧ _))

/-- `"__onedis_fulltext_vector__:"` -/
def internalFulltextVectorPrefix : Bytes :=
  [0x5f, 0x5f, 0x6f, 0x6e, 0x65, 0x64, 0x69, 0x73, 0x5f, 0x66, 0x75, 0x6c, 0x6c, 0x74, 0x65,
    0x78, 0x74, 0x5f, 0x76, 0x65, 0x63, 0x74, 0x6f, 0x72, 0x5f, 0x5f, 0x3a]

def isInternalFulltextVectorIndex (index : Bytes) : Bool :=
  internalFulltextVectorPrefix.isPrefixOf index

def isInternalVector (typeTag : UInt8) (key : Bytes) : Bool :=
  typeTag == vector.code && (validUtf8 key && isInternalFulltextVectorIndex key)

/-- `b"meta"` を置いた、version 0 の sub key。 -/
def vectorInternalMarkerKey (db : Nat) (index : Bytes) : Bytes :=
  subKey .current db .vectorMeta index 0 [0x6d, 0x65, 0x74, 0x61]

/-- 一回の巡回。`remaining` はまだ調べていない owner である。 -/
structure RefreshPass where
  dbIndex : Nat
  remaining : List VersionOwner
  lastVersion : Option Nat
  exhausted : Bool
  deriving DecidableEq, Repr

/--
compaction に関わる状態。`indexes` は内部の vector index の marker record の header、`owners` は owner marker。
-/
structure CompactionStore where
  main : Nat → Bytes → Option MetaHeader
  indexes : Nat → Bytes → Option MetaHeader
  owners : List VersionOwner
  counter : Nat
  tracker : VersionCompactionTracker
  pass : Option RefreshPass

namespace CompactionStore

def start : CompactionStore :=
  ⟨fun _ _ => none, fun _ _ => none, [], 0, empty.markReady, none⟩

def setMain (s : CompactionStore) (db : Nat) (key : Bytes) (hdr : Option MetaHeader) :
    CompactionStore :=
  { s with main := fun d k => if d = db ∧ k = key then hdr else s.main d k }

def declareOwner (s : CompactionStore) (db : Nat) (key : Bytes) (hdr : MetaHeader) :
    CompactionStore :=
  if hdr.Versioned then
    { s with
      tracker := s.tracker.registerLive hdr.version
      owners := putOwner ⟨db, hdr.version, hdr.typeTag, key⟩ s.owners }
  else s

/-- main record を書く。`marked` は marker を足す入口を通ったか。 -/
def writeMain (s : CompactionStore) (marked : Bool) (db : Nat) (key : Bytes)
    (hdr : MetaHeader) : CompactionStore :=
  (if marked then s.declareOwner db key hdr else s).setMain db key (some hdr)

def nextVersion (s : CompactionStore) (ver : Nat) : Option CompactionStore :=
  if s.counter < ver ∧ ver < 2 ^ 64 then some { s with counter := ver } else none

def copyHeader (hdr : MetaHeader) (ver : Nat) : MetaHeader :=
  if hdr.version = 0 ∧ hdr.typeTag ≠ string.code then hdr
  else { hdr with version := ver }

def versionRefreshBatchLimit : Nat := 1024

def scanOwners (s : CompactionStore) (db : Nat) : List VersionOwner :=
  ((s.owners.filter fun o =>
      o.dbIndex = db ∧ (s.tracker.ownerScanNext db).getD 0 ≤ o.version).insertionSort
    fun a b => a.version ≤ b.version).take versionRefreshBatchLimit

def versionOwnerIsCurrent (s : CompactionStore) (readFails : Bool) (o : VersionOwner) : Bool :=
  if readFails then false
  else
    match (if isInternalVector o.typeTag o.key then s.indexes o.dbIndex o.key
      else s.main o.dbIndex o.key) with
    | none => false
    | some hdr => hdr.typeTag == o.typeTag && hdr.version == o.version

def rebuild (s : CompactionStore) : CompactionStore :=
  { s with
    tracker := (s.owners.foldl (fun t o => t.registerLive o.version)
      empty).markReady
    counter := s.owners.foldl (fun c o => max c o.version) 0
    pass := none }

end CompactionStore

/-- 一歩ごとの出来事。`compact` は一つの record の compaction である。 -/
inductive CompactionEvent where
  | create (db : Nat) (key : Bytes) (typeTag : UInt8) (expireMs ver : Nat)
  | writeUnversioned (db : Nat) (key : Bytes) (typeTag : UInt8) (expireMs : Nat)
  | rewrite (marked : Bool) (db : Nat) (key : Bytes) (expireMs : Nat)
  | rename (db : Nat) (old new : Bytes) (ver : Nat)
  | copy (sourceDb : Nat) (source : Bytes) (targetDb : Nat) (target : Bytes) (ver : Nat)
  | move (sourceDb : Nat) (key : Bytes) (targetDb : Nat) (ver : Nat)
  | delete (db : Nat) (key : Bytes)
  | flush (db : Nat)
  | createIndex (db : Nat) (index : Bytes) (ver : Nat)
  | dropIndex (db : Nat) (index : Bytes)
  | restart
  | compact (db : Nat) (raw : Bytes)
  | scan (db : Nat)
  | check (readFails : Bool)
  | finish
  deriving DecidableEq, Repr

namespace CompactionStore

/-- 一つの出来事で移る。compaction は tracker が落とすと決めた record だけを消す。 -/
def step (s : CompactionStore) : CompactionEvent → Option CompactionStore
  | .create db key typeTag expireMs ver =>
    -- 予約された名前の vector は `createIndex` の経路に入る
    if isInternalVector typeTag key then none
    else (s.nextVersion ver).map fun s => s.writeMain true db key ⟨expireMs, ver, typeTag⟩
  | .writeUnversioned db key typeTag expireMs =>
    some (s.writeMain true db key ⟨expireMs, 0, typeTag⟩)
  | .rewrite marked db key expireMs =>
    (s.main db key).map fun hdr =>
      s.writeMain marked db key { hdr with expireMs }
  | .rename db old new ver =>
    if old = new then none
    else
      (s.main db old).bind fun hdr =>
        (s.nextVersion ver).map fun s =>
          (s.writeMain true db new (copyHeader hdr ver)).setMain db old none
  | .copy sourceDb source targetDb target ver =>
    if sourceDb = targetDb ∧ source = target then none
    else
      (s.main sourceDb source).bind fun hdr =>
        (s.nextVersion ver).map fun s =>
          s.writeMain false targetDb target (copyHeader hdr ver)
  | .move sourceDb key targetDb ver =>
    if sourceDb = targetDb ∨ (s.main targetDb key).isSome then none
    else
      (s.main sourceDb key).bind fun hdr =>
        (s.nextVersion ver).map fun s =>
          (s.writeMain false targetDb key (copyHeader hdr ver)).setMain sourceDb key none
  | .delete db key => some (s.setMain db key none)
  | .flush db =>
    some { s with
      main := fun d k => if d = db then none else s.main d k
      indexes := fun d k => if d = db then none else s.indexes d k
      owners := s.owners.filter fun o => o.dbIndex ≠ db }
  | .createIndex db index ver =>
    if ¬ isInternalFulltextVectorIndex index ∨ (s.indexes db index).isSome then none
    else
      (s.nextVersion ver).map fun s =>
        { s with
          indexes := fun d k =>
            if d = db ∧ k = index then some ⟨0, ver, vector.code⟩
            else s.indexes d k
          owners := putOwner ⟨db, ver, vector.code, index⟩ s.owners
          tracker := s.tracker.registerLive ver }
  | .dropIndex db index =>
    some { s with indexes := fun d k => if d = db ∧ k = index then none else s.indexes d k }
  | .restart => some s.rebuild
  | .compact db raw =>
    if s.tracker.shouldRemove raw then
      some { s with
        owners := s.owners.filter fun o => ¬ (o.dbIndex = db ∧ o.markerKey = raw)
        indexes := fun d k =>
          if d = db ∧ vectorInternalMarkerKey d k = raw then none else s.indexes d k }
    else none
  | .scan db =>
    if s.pass.isSome then none
    else
      some { s with
        pass := some
          { dbIndex := db
            remaining := (s.scanOwners db).filterMap fun o =>
              decodeVersionOwner db o.markerKey o.markerValue
            lastVersion := ((s.scanOwners db).getLast?).map (·.version)
            exhausted := (s.scanOwners db).length < versionRefreshBatchLimit } }
  | .check readFails =>
    match s.pass with
    | some ⟨db, o :: remaining, lastVersion, exhausted⟩ =>
      some { s with
        tracker :=
          if s.versionOwnerIsCurrent readFails o then s.tracker.registerLive o.version
          else s.tracker.retire o.version
        pass := some ⟨db, remaining, lastVersion, exhausted⟩ }
    | _ => none
  | .finish =>
    match s.pass with
    | some ⟨db, [], lastVersion, exhausted⟩ =>
      some { s with
        tracker := s.tracker.finishOwnerScan db lastVersion exhausted
        pass := none }
    | _ => none

/--
一歩についての条件。

* `COPY` と `MOVE` は、version を持つ record を作らない
* 内部の vector index を作らず、vector を予約された名前に `RENAME` しない
* 今の version の持ち主を調べるとき、main record の読みは失敗しない
-/
def Sound (s : CompactionStore) : CompactionEvent → Prop
  | .copy sourceDb source _ _ ver =>
    ∀ hdr ∈ s.main sourceDb source, ¬ (copyHeader hdr ver).Versioned
  | .move sourceDb key _ ver => ∀ hdr ∈ s.main sourceDb key, ¬ (copyHeader hdr ver).Versioned
  | .createIndex _ _ _ => False
  | .rename db old new _ => ∀ hdr ∈ s.main db old, isInternalVector hdr.typeTag new = false
  | .check true => ∀ p ∈ s.pass, ∀ o ∈ p.remaining.head?, s.versionOwnerIsCurrent false o = false
  | _ => True

def known (s : CompactionStore) : List VersionOwner :=
  s.owners ++ ((s.pass.map (·.remaining)).getD [])

end CompactionStore

/-! ## 不変条件 -/

/-- 不変条件。`unique` が要で、同じ version を二つの owner が名乗ると、片方が古いためにもう片方の登録が外れる。 -/
structure VersionInv (s : CompactionStore) : Prop where
  covered : ∀ db key hdr, s.main db key = some hdr → hdr.Versioned →
    hdr.version ∈ s.tracker.liveVersions ∧
      ⟨db, hdr.version, hdr.typeTag, key⟩ ∈ s.owners ∧
      isInternalVector hdr.typeTag key = false
  bounded : ∀ o ∈ s.known, o.version ≤ s.counter
  counterLt : s.counter < 2 ^ 64
  unique : ∀ o ∈ s.known, ∀ o' ∈ s.known, o.version = o'.version → o = o'
  noIndex : ∀ db index, s.indexes db index = none

open CompactionStore

namespace VersionInv

variable {s : CompactionStore}

theorem start : VersionInv start where
  covered := nofun
  bounded := fun o h => absurd h not_mem_nil
  counterLt := by decide
  unique := fun o h => absurd h not_mem_nil
  noIndex := fun _ _ => rfl

variable {o : VersionOwner}

theorem owner_known (ho : o ∈ s.owners) : o ∈ s.known := mem_append_left _ ho

variable {s' : CompactionStore}

/-- `s'` は、`s` の記録を減らすか、期限だけを変えたものである。書かない欄は変わらない。 -/
structure Weakens (s s' : CompactionStore) : Prop where
  main : ∀ d k x, s'.main d k = some x → x.Versioned → ∃ x₀, s.main d k = some x₀ ∧
    x₀.version = x.version ∧ x₀.typeTag = x.typeTag := by exact fun _ _ x hx _ => ⟨x, hx, rfl, rfl⟩
  live : ∀ d k x, s.main d k = some x → x.Versioned → x.version ∈ s.tracker.liveVersions →
    x.version ∈ s'.tracker.liveVersions := by exact fun _ _ _ _ _ => id
  kept : ∀ d k x, s'.main d k = some x → x.Versioned →
    (⟨d, x.version, x.typeTag, k⟩ : VersionOwner) ∈ s.owners →
    (⟨d, x.version, x.typeTag, k⟩ : VersionOwner) ∈ s'.owners := by exact fun _ _ _ _ _ => id
  owners : ∀ o ∈ s'.owners, o ∈ s.owners := by exact fun _ => id
  passed : ∀ o ∈ (s'.pass.map (·.remaining)).getD [], o ∈ s.known := by
    exact fun _ => mem_append_right _
  counter : s.counter ≤ s'.counter := by exact le_rfl
  counterLt : s.counter < 2 ^ 64 → s'.counter < 2 ^ 64 := by exact id
  noIndex : (∀ d k, s.indexes d k = none) → ∀ d k, s'.indexes d k = none := by exact id

theorem weaken (h : VersionInv s) (w : Weakens s s') : VersionInv s' := by
  have hknown : ∀ o ∈ s'.known, o ∈ s.known := fun o ho =>
    (mem_append.mp ho).elim (fun ho => owner_known (w.owners o ho)) (w.passed o)
  refine ⟨?_, fun o ho => (h.bounded o (hknown o ho)).trans w.counter, w.counterLt h.counterLt,
    fun o ho o' ho' => h.unique o (hknown o ho) o' (hknown o' ho'), w.noIndex h.noIndex⟩
  intro d k x hx hv
  obtain ⟨x₀, hx₀, hversion, htag⟩ := w.main d k x hx hv
  have hv₀ : x₀.Versioned := ⟨hversion ▸ hv.1, htag ▸ hv.2⟩
  obtain ⟨hlive, hmem, hname⟩ := h.covered d k x₀ hx₀ hv₀
  rw [hversion, htag] at hmem
  exact ⟨hversion ▸ w.live d k x₀ hx₀ hv₀ hlive, w.kept d k x hx hv hmem, htag ▸ hname⟩

theorem setMain (h : VersionInv s) (db : Nat) (key : Bytes) {hdr : Option MetaHeader}
    (hu : ∀ x, hdr = some x → ¬ x.Versioned) : VersionInv (s.setMain db key hdr) := by
  refine h.weaken { main := fun d k x hx hv => ?_ }
  simp only [CompactionStore.setMain] at hx
  split at hx
  · exact absurd hv (hu x hx)
  · exact ⟨x, hx, rfl, rfl⟩

theorem allocate (h : VersionInv s) {ver : Nat} (hs : s.nextVersion ver = some s') :
    VersionInv s' ∧ s' = { s with counter := ver } ∧
      ∀ o ∈ s'.known, o.version < ver := by
  obtain ⟨hv, hs⟩ := ite_none_right_eq_some.mp hs
  cases hs
  refine ⟨?_, rfl, fun o ho => (h.bounded o ho).trans_lt hv.1⟩
  exact h.weaken { counter := hv.1.le, counterLt := fun _ => hv.2 }

variable {db : Nat} {hdr : MetaHeader}

theorem writeFresh (h : VersionInv s) {key : Bytes}
    (hnew : hdr.Versioned → (∀ o ∈ s.known, o.version < hdr.version) ∧
      hdr.version ≤ s.counter ∧ isInternalVector hdr.typeTag key = false) :
    VersionInv (s.writeMain true db key hdr) := by
  by_cases hv : hdr.Versioned
  · obtain ⟨hfresh, hle, hname⟩ := hnew hv
    have hdeclare : s.writeMain true db key hdr = CompactionStore.setMain { s with
        tracker := s.tracker.registerLive hdr.version
        owners := putOwner ⟨db, hdr.version, hdr.typeTag, key⟩ s.owners }
        db key (some hdr) := by
      simp [CompactionStore.writeMain, CompactionStore.declareOwner, if_pos hv]
    have hknown : ∀ o ∈ (s.writeMain true db key hdr).known,
        o = ⟨db, hdr.version, hdr.typeTag, key⟩ ∨ o ∈ s.known := by
      intro o ho
      rw [hdeclare] at ho
      rcases mem_append.mp ho with ho | ho
      · rcases mem_putOwner.mp ho with rfl | ⟨ho, -⟩
        · exact .inl rfl
        · exact .inr (owner_known ho)
      · exact .inr (mem_append_right _ ho)
    refine ⟨?_, ?_, ?_, ?_, ?_⟩
    · intro d k x hx hxv
      rw [hdeclare] at hx ⊢
      simp only [CompactionStore.setMain] at hx ⊢
      split at hx
      · next hdk =>
        obtain ⟨rfl, rfl⟩ := hdk
        cases hx
        exact ⟨(mem_registerLive hxv.1).mpr (.inl rfl),
          mem_putOwner.mpr (.inl rfl), hname⟩
      · obtain ⟨hlive, howner, hint⟩ := h.covered d k x hx hxv
        refine ⟨(mem_registerLive hxv.1).mpr (.inr hlive),
          mem_putOwner.mpr (.inr ⟨howner, ?_⟩), hint⟩
        -- 新しい version は既存のどれとも違うので、marker は上書きされない
        rintro ⟨-, heq⟩
        have hlt : x.version < hdr.version := hfresh _ (owner_known howner)
        exact absurd heq (Nat.ne_of_lt hlt)
    · intro o ho
      rw [show (s.writeMain true db key hdr).counter = s.counter by rw [hdeclare]; rfl]
      rcases hknown o ho with rfl | ho
      · exact hle
      · exact h.bounded o ho
    · rw [hdeclare]
      exact h.counterLt
    · intro o ho o' ho' heq
      rcases hknown o ho with rfl | ho <;> rcases hknown o' ho' with rfl | ho'
      · rfl
      · exact absurd heq.symm (Nat.ne_of_lt (hfresh o' ho'))
      · exact absurd heq (Nat.ne_of_lt (hfresh o ho))
      · exact h.unique o ho o' ho' heq
    · rw [hdeclare]
      exact h.noIndex
  · have hplain : s.writeMain true db key hdr = s.setMain db key (some hdr) := by
      simp [writeMain, declareOwner, if_neg hv]
    rw [hplain]
    refine h.setMain db key fun x hx => ?_
    cases hx
    exact hv

theorem rewrite (h : VersionInv s) {marked : Bool} {key : Bytes}
    (hmain : s.main db key = some hdr) (expireMs : Nat) :
    VersionInv (s.writeMain marked db key { hdr with expireMs }) := by
  have hkeep : ∀ {owners tracker}, VersionInv { s with owners, tracker } →
      VersionInv (CompactionStore.setMain { s with owners, tracker } db key
        (some { hdr with expireMs })) := by
    intro owners tracker h'
    refine h'.weaken { main := fun d k x hx _ => ?_ }
    simp only [CompactionStore.setMain] at hx
    split at hx
    · next hdk =>
      obtain ⟨rfl, rfl⟩ := hdk
      cases hx
      exact ⟨hdr, hmain, rfl, rfl⟩
    · exact ⟨x, hx, rfl, rfl⟩
  by_cases hv : hdr.Versioned
  · cases marked with
    | false => exact hkeep h
    | true =>
      have hdeclare : s.declareOwner db key { hdr with expireMs } = { s with
          tracker := s.tracker.registerLive hdr.version
          owners := putOwner ⟨db, hdr.version, hdr.typeTag, key⟩ s.owners } :=
        if_pos hv
      obtain ⟨-, hmem, -⟩ := h.covered db key hdr hmain hv
      have hsame : ∀ o, o ∈ putOwner ⟨db, hdr.version, hdr.typeTag, key⟩ s.owners ↔
          o ∈ s.owners := by
        intro o
        rw [mem_putOwner]
        constructor
        · rintro (rfl | ⟨ho, -⟩)
          · exact hmem
          · exact ho
        · intro ho
          by_cases hslot : o.dbIndex = db ∧ o.version = hdr.version
          · exact .inl (h.unique o (owner_known ho) _ (owner_known hmem) hslot.2)
          · exact .inr ⟨ho, hslot⟩
      show VersionInv ((s.declareOwner db key { hdr with expireMs }).setMain db key _)
      rw [hdeclare]
      exact hkeep (h.weaken
        { live := fun _ _ _ _ hxv hlive => (mem_registerLive hxv.1).mpr (.inr hlive)
          kept := fun _ _ _ _ _ => (hsame _).mpr
          owners := fun o => (hsame o).mp })
  · have hdeclare : s.declareOwner db key { hdr with expireMs } = s := if_neg hv
    show VersionInv ((if marked then s.declareOwner db key { hdr with expireMs }
      else s).setMain db key _)
    rw [hdeclare, ite_self]
    exact hkeep h

theorem copyHeader_version {ver : Nat} (hv : (copyHeader hdr ver).Versioned) :
    (copyHeader hdr ver).version = ver := by
  unfold copyHeader at hv ⊢
  split at hv
  · next hp => exact absurd hp.1 hv.1
  · next hp => rw [if_neg hp]

theorem copyHeader_typeTag (hdr : MetaHeader) (ver : Nat) :
    (copyHeader hdr ver).typeTag = hdr.typeTag := by
  unfold copyHeader
  split <;> rfl

theorem check (h : VersionInv s) {readFails : Bool} {remaining : List VersionOwner}
    {lastVersion : Option Nat} {exhausted : Bool}
    (hpass : s.pass = some ⟨db, o :: remaining, lastVersion, exhausted⟩)
    (hok : s.Sound (.check readFails)) :
    VersionInv { s with
      tracker :=
        if s.versionOwnerIsCurrent readFails o then s.tracker.registerLive o.version
        else s.tracker.retire o.version
      pass := some ⟨db, remaining, lastVersion, exhausted⟩ } := by
  have hknown : o ∈ s.known := by
    refine mem_append_right _ ?_
    rw [hpass]
    exact mem_cons_self
  have hfails : readFails = true → s.versionOwnerIsCurrent false o = false := by
    rintro rfl
    exact hok _ hpass o rfl
  refine h.weaken { live := fun d k x hx hv hlive => ?_, passed := fun o' ho' => ?_ }
  · obtain ⟨-, howner, hname⟩ := h.covered d k x hx hv
    show x.version ∈ (if s.versionOwnerIsCurrent readFails o then _ else _ :
      VersionCompactionTracker).liveVersions
    split
    · exact (mem_registerLive hv.1).mpr (.inr hlive)
    · next hcurrent =>
      refine mem_retire ?_ hlive
      -- 同じ version なら同じ owner なので、読めれば今の持ち主と分かる
      intro heq
      have ho : (⟨d, x.version, x.typeTag, k⟩ : VersionOwner) = o :=
        h.unique _ (owner_known howner) o hknown heq
      subst ho
      have htrue : s.versionOwnerIsCurrent false ⟨d, x.version, x.typeTag, k⟩ = true := by
        simp [versionOwnerIsCurrent, hname, hx]
      cases readFails with
      | false => exact hcurrent htrue
      | true => rw [hfails rfl] at htrue; cases htrue
  · refine mem_append_right _ ?_
    rw [hpass]
    exact mem_cons_of_mem _ ho'

variable {owners : List VersionOwner}

theorem mem_foldl_registerLive {t : VersionCompactionTracker} {v : Nat} (hv : v ≠ 0) :
    v ∈ (owners.foldl (fun t o => t.registerLive o.version) t).liveVersions ↔
      v ∈ t.liveVersions ∨ ∃ o ∈ owners, o.version = v := by
  induction owners generalizing t with
  | nil => simp
  | cons o owners ih =>
    rw [foldl_cons, ih, mem_registerLive hv]
    simp only [mem_cons, exists_eq_or_imp]
    constructor
    · rintro ((rfl | hm) | hex)
      · exact .inr (.inl rfl)
      · exact .inl hm
      · exact .inr (.inr hex)
    · rintro (hm | rfl | hex)
      · exact .inl (.inr hm)
      · exact .inl (.inl rfl)
      · exact .inr hex

theorem le_foldl_max {c : Nat} : c ≤ owners.foldl (fun c o => max c o.version) c ∧
      ∀ o ∈ owners, o.version ≤ owners.foldl (fun c o => max c o.version) c := by
  induction owners generalizing c with
  | nil => exact ⟨le_rfl, fun o ho => absurd ho not_mem_nil⟩
  | cons x owners ih =>
    obtain ⟨hc, hall⟩ := @ih (max c x.version)
    refine ⟨(le_max_left _ _).trans hc, fun o ho => ?_⟩
    rcases mem_cons.mp ho with rfl | ho
    · exact (le_max_right _ _).trans hc
    · exact hall o ho

theorem foldl_max_le {c bound : Nat} (hc : c ≤ bound) (h : ∀ o ∈ owners, o.version ≤ bound) :
    owners.foldl (fun c o => max c o.version) c ≤ bound := by
  induction owners generalizing c with
  | nil => exact hc
  | cons x owners ih =>
    exact ih (max_le hc (h x mem_cons_self)) fun o ho => h o (mem_cons_of_mem _ ho)

theorem rebuild (h : VersionInv s) : VersionInv s.rebuild := by
  have hknown : ∀ o ∈ s.rebuild.known, o ∈ s.owners := by
    intro o ho
    rcases mem_append.mp ho with ho | ho
    · exact ho
    · exact absurd ho not_mem_nil
  refine ⟨?_, fun o ho => le_foldl_max.2 o (hknown o ho), ?_, ?_, h.noIndex⟩
  · intro d k x hx hv
    obtain ⟨-, howner, hname⟩ := h.covered d k x hx hv
    exact ⟨(mem_foldl_registerLive hv.1).mpr (.inr ⟨_, howner, rfl⟩), howner, hname⟩
  · exact (foldl_max_le (Nat.zero_le _) fun o ho => h.bounded o (owner_known ho)).trans_lt
      h.counterLt
  · exact fun o ho o' ho' =>
      h.unique o (owner_known (hknown o ho)) o' (owner_known (hknown o' ho'))

theorem compact (h : VersionInv s) {raw : Bytes} (hremove : s.tracker.shouldRemove raw = true) :
    VersionInv { s with
      owners := s.owners.filter fun o => ¬ (o.dbIndex = db ∧ o.markerKey = raw)
      indexes := fun d k =>
        if d = db ∧ vectorInternalMarkerKey d k = raw then none else s.indexes d k } := by
  refine h.weaken
    { kept := fun d k x hx hv hmem => mem_filter.mpr ⟨hmem, decide_eq_true ?_⟩
      owners := fun o ho => (mem_filter.mp ho).1
      noIndex := fun hindex d k => by simp [hindex] }
  rintro ⟨-, rfl⟩
  have hlt : x.version < 2 ^ 64 := (h.bounded _ (owner_known hmem)).trans_lt h.counterLt
  have hkeep := shouldRemove_eq_false
    (versionFromCompactionKey_versionOwnerKey d hlt) (h.covered d k x hx hv).1
  exact absurd (hkeep.symm.trans hremove) Bool.false_ne_true

theorem mem_scanned (h : VersionInv s) (ho : o ∈ (s.scanOwners db).filterMap fun o =>
      decodeVersionOwner db o.markerKey o.markerValue) : o ∈ s.owners := by
  obtain ⟨o₀, ho₀, hdecode⟩ := mem_filterMap.mp ho
  have hmem := (perm_insertionSort _ _).mem_iff.mp (mem_of_mem_take ho₀)
  obtain ⟨howner, hcond⟩ := mem_filter.mp hmem
  obtain ⟨rfl, -⟩ := of_decide_eq_true hcond
  rw [decodeVersionOwner_marker
    ((h.bounded o₀ (owner_known howner)).trans_lt h.counterLt)] at hdecode
  cases hdecode
  exact howner

theorem step (h : VersionInv s) {event : CompactionEvent} (hok : s.Sound event)
    (hs : s.step event = some s') : VersionInv s' := by
  cases event with
  | create db key typeTag expireMs ver =>
    obtain ⟨hname, hs⟩ := ite_none_left_eq_some.mp hs
    obtain ⟨s₁, halloc, rfl⟩ := map_eq_some_iff.mp hs
    obtain ⟨h₁, rfl, hfresh⟩ := h.allocate halloc
    exact h₁.writeFresh fun _ => ⟨hfresh, le_rfl, by simpa using hname⟩
  | writeUnversioned db key typeTag expireMs =>
    cases hs
    exact h.writeFresh fun hv => absurd rfl hv.1
  | rewrite marked db key expireMs =>
    obtain ⟨hdr, hmain, rfl⟩ := map_eq_some_iff.mp hs
    exact h.rewrite hmain expireMs
  | rename db old new ver =>
    obtain ⟨-, hs⟩ := ite_none_left_eq_some.mp hs
    obtain ⟨hdr, hmain, hs⟩ := bind_eq_some_iff.mp hs
    obtain ⟨s₁, halloc, rfl⟩ := map_eq_some_iff.mp hs
    obtain ⟨h₁, rfl, hfresh⟩ := h.allocate halloc
    refine (h₁.writeFresh fun hv => ?_).setMain db old nofun
    rw [copyHeader_version hv, copyHeader_typeTag]
    exact ⟨hfresh, le_rfl, hok hdr hmain⟩
  | copy sourceDb source targetDb target ver =>
    obtain ⟨-, hs⟩ := ite_none_left_eq_some.mp hs
    obtain ⟨hdr, hmain, hs⟩ := bind_eq_some_iff.mp hs
    obtain ⟨s₁, halloc, rfl⟩ := map_eq_some_iff.mp hs
    obtain ⟨h₁, -, -⟩ := h.allocate halloc
    refine h₁.setMain targetDb target fun x hx => ?_
    cases hx
    exact hok hdr hmain
  | move sourceDb key targetDb ver =>
    obtain ⟨-, hs⟩ := ite_none_left_eq_some.mp hs
    obtain ⟨hdr, hmain, hs⟩ := bind_eq_some_iff.mp hs
    obtain ⟨s₁, halloc, rfl⟩ := map_eq_some_iff.mp hs
    obtain ⟨h₁, -, -⟩ := h.allocate halloc
    refine (h₁.setMain targetDb key fun x hx => ?_).setMain sourceDb key nofun
    cases hx
    exact hok hdr hmain
  | delete db key =>
    cases hs
    exact h.setMain db key nofun
  | flush db =>
    cases hs
    have hmain : ∀ d k x, (if d = db then none else s.main d k) = some x →
        d ≠ db ∧ s.main d k = some x := by
      intro d k x hx
      split at hx
      · cases hx
      · next hd => exact ⟨hd, hx⟩
    exact h.weaken
      { main := fun d k x hx _ => ⟨x, (hmain d k x hx).2, rfl, rfl⟩
        kept := fun d k x hx _ hm => mem_filter.mpr ⟨hm, decide_eq_true (hmain d k x hx).1⟩
        owners := fun o ho => (mem_filter.mp ho).1
        noIndex := fun hindex d k => by simp [hindex] }
  | createIndex db index ver => exact absurd hok id
  | dropIndex db index =>
    cases hs
    exact h.weaken { noIndex := fun hindex d k => by simp [hindex] }
  | restart =>
    cases hs
    exact h.rebuild
  | compact db raw =>
    obtain ⟨hremove, hs⟩ := ite_none_right_eq_some.mp hs
    cases hs
    exact h.compact hremove
  | scan db =>
    obtain ⟨-, hs⟩ := ite_none_left_eq_some.mp hs
    cases hs
    exact h.weaken { passed := fun o ho => owner_known (h.mem_scanned ho) }
  | check readFails =>
    simp only [CompactionStore.step] at hs
    split at hs
    · next db o remaining lastVersion exhausted hpass =>
      cases hs
      exact h.check hpass hok
    · cases hs
  | finish =>
    simp only [CompactionStore.step] at hs
    split at hs
    · next db lastVersion exhausted hpass =>
      cases hs
      exact h.weaken { passed := fun o ho => absurd ho not_mem_nil }
    · cases hs

end VersionInv

/-! ## 生きた record は残る -/

/--
**compaction は生きた record を落とさない。** どの step も `Sound` を満たす実行では、今の main record と同じ
version の sub record も、内部の vector index の marker も、filter に落とされない。
-/
theorem compaction_keeps_live {events : List CompactionEvent} {s : CompactionStore}
    (hok : Obeys step Sound start events)
    (hrun : run step start events = some s) :
    (∀ db (k : Key) hdr, s.main db k.bytes = some hdr → hdr.Versioned →
      ∀ ns : Namespace, ns.isVersioned = true → ∀ suffix,
        s.tracker.shouldRemove (subKey .current db ns k.bytes hdr.version suffix) = false) ∧
      ∀ db index, s.indexes db index ≠ none →
        s.tracker.shouldRemove (vectorInternalMarkerKey db index) = false := by
  have h : VersionInv s :=
    run_induction (fun _ _ _ hi ho hs => hi.step ho hs) VersionInv.start hok hrun
  constructor
  · intro db k hdr hmain hv ns hns suffix
    obtain ⟨hlive, howner, -⟩ := h.covered db k.bytes hdr hmain hv
    have hlt : hdr.version < 2 ^ 64 :=
      (h.bounded _ (VersionInv.owner_known howner)).trans_lt h.counterLt
    exact shouldRemove_eq_false
      (versionFromCompactionKey_subKey db hns k hlt suffix) hlive
  · exact fun db index hne => absurd (h.noIndex db index) hne

/-! ## 生きた record が落とされる実行 -/

instance (s : CompactionStore) (event : CompactionEvent) : Decidable (s.Sound event) := by
  unfold Sound
  split <;> infer_instance

namespace UnregisteredCopy

def keyA : Key := ⟨[0x61], by decide, by decide, by decide⟩

def keyB : Key := ⟨[0x62], by decide, by decide, by decide⟩

def index : Key := ⟨internalFulltextVectorPrefix ++ [0x69], by decide, by decide, by decide⟩

def after (events : List CompactionEvent) : CompactionStore :=
  (run step start events).getD start

/-- hash を作り、`COPY` する。 -/
def copied : List CompactionEvent :=
  [.create 0 keyA.bytes hash.code 0 1, .copy 0 keyA.bytes 0 keyB.bytes 2]

def readFailed : List CompactionEvent :=
  [.create 0 keyA.bytes hash.code 0 1, .scan 0, .check true]

def indexed : List CompactionEvent := [.createIndex 0 index.bytes 1]

def fieldKey (k : Key) (ver : Nat) : Bytes := subKey .current 0 .hashField k.bytes ver [0x66]

theorem live_records_removed : ((after copied).main 0 keyB.bytes = some ⟨0, 2, hash.code⟩ ∧
      (after copied).tracker.shouldRemove (fieldKey keyB 2) = true) ∧
    ((after readFailed).main 0 keyA.bytes = some ⟨0, 1, hash.code⟩ ∧
      (after readFailed).tracker.shouldRemove (fieldKey keyA 1) = true) ∧
    ((after indexed).indexes 0 index.bytes ≠ none ∧
      (after indexed).tracker.shouldRemove (vectorInternalMarkerKey 0 index.bytes) = true) := by
  refine ⟨⟨rfl, ?_⟩, ⟨rfl, ?_⟩, ⟨?_, ?_⟩⟩ <;> decide

def renamed : List CompactionEvent :=
  [.create 0 keyA.bytes hash.code 0 1, .rename 0 keyA.bytes keyB.bytes 2, .restart,
    .scan 0, .check false, .check false, .finish]

theorem renamed_kept : (after renamed).main 0 keyB.bytes = some ⟨0, 2, hash.code⟩ ∧
      (after renamed).tracker.shouldRemove (fieldKey keyA 1) = true ∧
      (after renamed).tracker.shouldRemove (fieldKey keyB 2) = false := by
  have hok : Obeys step Sound start renamed := by
    decide
  have hrun : run step start renamed = some (after renamed) := rfl
  have hmain : (after renamed).main 0 keyB.bytes = some ⟨0, 2, hash.code⟩ := rfl
  refine ⟨hmain, by decide, ?_⟩
  exact (compaction_keeps_live hok hrun).1 0 keyB _ hmain (by decide) .hashField rfl [0x66]

end UnregisteredCopy

end Onedis.Store
