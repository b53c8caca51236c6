import Onedis.Store.InternalRecords
import Onedis.Store.KeyScope

/-!
# 期限の来た key を消す sweeper

`ttl/manager_sweeper.rs` の写し。index を走査して entry を集め、main record を読み直し、変わっていなければ消す。
その間に client の書き込みがいくらでも挟まる。

* `sweep_deletes_only_due` — sweeper が消すのは、期限の来た record だけである
* `ForgedEntry.sweep_deletes_persistent` — byte 列の key の `SET` は index の entry を作れる
-/

namespace Onedis.Store

open Infra Codec

/-! ## raw key の table -/

/-- db ごとの table。main record の raw key は key そのもの、index の record の raw key は `indexKey` である。 -/
abbrev RawTable := DbKeyRef → Option Bytes

def indexSlot (key : Bytes) : DbKeyRef :=
  ⟨.ofNat (ofBe ((key.drop ttlIndexPrefix.length).take 2)), key⟩

namespace RawTable

def set (t : RawTable) (slot : DbKeyRef) (value : Option Bytes) : RawTable :=
  fun r => if r = slot then value else t r

def apply (t : RawTable) : KeyWrite → RawTable
  | .put ref raw => t.set ref (some raw)
  | .delete ref => t.set ref none
  | .putIndex key => t.set (indexSlot key) (some ttlIndexValue)
  | .deleteIndex key => t.set (indexSlot key) none
  | .putAll .. | .deleteSub .. | .deleteRange .. => t

def write (t : RawTable) (batch : KeyBatch) : RawTable := batch.foldl apply t

theorem set_apply (t : RawTable) (slot r : DbKeyRef) (value : Option Bytes) :
    t.set slot value r = if r = slot then value else t r := rfl

end RawTable

theorem parseTtlIndexKey_of_text {key : Bytes} (h : validUtf8 key = true) :
    parseTtlIndexKey key = none := by
  cases hparse : parseTtlIndexKey key with
  | none => rfl
  | some entry =>
    have hkey := (eq_ttlIndexKey_of_parse hparse).1
    have hhead : key.head? = some 0xfe := by rw [hkey]; rfl
    exact absurd ((validUtf8_spec h).1 _ hhead) (by decide)

/-! ## client の batch -/

def KeyWrite.FromClient : KeyWrite → Prop
  | .put ref _ | .delete ref => validUtf8 ref.key = true
  | .putIndex key => ∃ e ref, e ≠ 0 ∧ key = indexKey e ref
  | .deleteIndex key => ∃ e ref, key = indexKey e ref
  | .putAll .. | .deleteSub .. | .deleteRange .. => True

def BatchFromClient (batch : KeyBatch) : Prop := ∀ w ∈ batch, w.FromClient

/-- text の key と server の作る index だけを書く batch。 -/
structure ClientBatch where
  batch : KeyBatch
  fromClient : BatchFromClient batch

section FromClient

variable {ref : DbKeyRef} {batch batch' : KeyBatch}

@[simp] theorem batchFromClient_nil : BatchFromClient [] := List.forall_mem_nil _

@[simp] theorem batchFromClient_cons {w : KeyWrite} :
    BatchFromClient (w :: batch) ↔ w.FromClient ∧ BatchFromClient batch := List.forall_mem_cons

theorem BatchAbout.fromClient (h : BatchAbout ref batch) (hkey : validUtf8 ref.key = true) :
    BatchFromClient batch := by
  intro w hw
  have habout := h w hw
  cases w with
  | put | delete =>
    obtain rfl := habout
    exact hkey
  | putIndex key =>
    obtain ⟨e, he, rfl⟩ := habout
    exact ⟨e, ref, he, rfl⟩
  | deleteIndex key =>
    obtain ⟨e, rfl⟩ := habout
    exact ⟨e, ref, rfl⟩
  | putAll | deleteSub | deleteRange => trivial

end FromClient

/-! ## table と `Keyspace` の対応 -/

theorem indexSlot_indexKey (e : UInt64) (ref : DbKeyRef) :
    indexSlot (indexKey e ref) = ⟨ref.dbIndex, indexKey e ref⟩ := by
  have hdrop : (indexKey e ref).drop ttlIndexPrefix.length =
      toBe 2 ref.dbIndex.toNat ++ (toBe 8 e.toNat ++ ref.key) := by
    unfold indexKey
    rw [ttlIndexKey_eq]
    exact List.drop_left' rfl
  unfold indexSlot
  rw [hdrop, List.take_left' (length_toBe 2 _), ofBe_toBe ref.dbIndex.toNat_lt]
  simp

/-! ## sweeper -/

/-- 走査で集めた entry と、読み直した record。 -/
structure SweepState where
  table : RawTable
  now : UInt64
  expired : List TtlEntry
  observed : Option (TtlEntry × Option Bytes)

def TtlEntry.ref (entry : TtlEntry) : DbKeyRef := ⟨.ofNat entry.dbIndex, entry.key⟩

def TtlEntry.rawKey (entry : TtlEntry) : Bytes := ttlIndexKey entry.expireMs entry.dbIndex entry.key

/-- `expire_key_async` が組み立てる batch。record の期限が entry と違えば、entry だけを消す。 -/
def expirePlan (entry : TtlEntry) (value : Option Bytes) : KeyBatch :=
  match value.bind decodeMetaHeader with
  | none => [.deleteIndex entry.rawKey]
  | some hdr =>
    if hdr.expireMs = entry.expireMs then [.delete entry.ref, .deleteIndex entry.rawKey]
    else [.deleteIndex entry.rawKey]

/-- byte 列の key の `SET`。文字列でない key の index には触れない。 -/
def plainSetToBatch (ref : DbKeyRef) (value : Bytes) (old : Option Bytes) : KeyBatch :=
  (if validUtf8 ref.key then removeOldToBatch ref old 0 else []) ++
    [.put ref (encodeRawString value 0)]

/-- 一歩ごとの出来事。`scan` は走査が返した一件、`skip` は読み直しの失敗、hook の拒否、書き込みの衝突。 -/
inductive SweepEvent
  | client (batch : ClientBatch)
  | plainSet (ref : DbKeyRef) (value : Bytes)
  | start (now : UInt64)
  | scan (db : UInt16) (key : Bytes)
  | observe
  | skip
  | commit

namespace SweepState

/-- 一歩。書き込みは、読み直した record が変わっていないときだけ行われる。 -/
def step (s : SweepState) : SweepEvent → Option SweepState
  | .client b => some { s with table := s.table.write b.batch }
  | .plainSet ref value =>
    some { s with table := s.table.write (plainSetToBatch ref value (s.table ref)) }
  | .start now =>
    if s.expired.isEmpty && s.observed.isNone then some { s with now := now } else none
  | .scan db key =>
    if (s.table ⟨db, key⟩).isSome && inRange (ttlDbPrefix db.toNat)
        (ttlDbExpireUpperBound db.toNat s.now.toNat) key then
      match parseTtlIndexKey key with
      | some entry => some { s with expired := s.expired ++ [entry] }
      | none => some s
    else none
  | .observe =>
    match s.observed, s.expired with
    | none, entry :: rest =>
      some { s with expired := rest, observed := some (entry, s.table entry.ref) }
    | _, _ => none
  | .skip => some { s with observed := none }
  | .commit =>
    s.observed.map fun (entry, value) =>
      if s.table entry.ref = value then
        { s with table := s.table.write (expirePlan entry value), observed := none }
      else { s with observed := none }

end SweepState

def SweepEvent.bySweeper : SweepEvent → Bool
  | client _ | plainSet _ _ => false
  | _ => true

/-- byte 列の key の `SET` が、index の entry として読める key を使わない。 -/
def SweepEvent.NotForged : SweepEvent → Prop
  | plainSet ref _ => parseTtlIndexKey ref.key = none
  | _ => True

def RawTable.Indexed (t : RawTable) : Prop :=
  ∀ ref entry, t ref ≠ none → parseTtlIndexKey ref.key = some entry → entry.expireMs ≠ 0

/-- 走査の時刻に期限の来ていた、0 でない期限の entry。 -/
structure TtlEntry.Scanned (entry : TtlEntry) (now : UInt64) : Prop where
  pos : entry.expireMs ≠ 0
  due : entry.expireMs ≤ now.toNat
  parse : parseTtlIndexKey entry.rawKey = some entry

structure SweepState.Inv (s : SweepState) : Prop where
  indexed : s.table.Indexed
  expired : ∀ entry ∈ s.expired, entry.Scanned s.now
  observed : ∀ entry value, s.observed = some (entry, value) → entry.Scanned s.now

namespace RawTable

variable {t : RawTable}

theorem Indexed.set_none (h : t.Indexed) (slot : DbKeyRef) : (t.set slot none).Indexed := by
  intro ref entry hpresent
  rw [set_apply] at hpresent
  split at hpresent
  · exact absurd rfl hpresent
  · exact h ref entry hpresent

theorem Indexed.set (h : t.Indexed) {slot : DbKeyRef}
    (hslot : ∀ entry, parseTtlIndexKey slot.key = some entry → entry.expireMs ≠ 0)
    (value : Option Bytes) : (t.set slot value).Indexed := by
  intro ref entry hpresent hparse
  rw [set_apply] at hpresent
  split at hpresent
  · next heq => exact hslot entry (heq ▸ hparse)
  · exact h ref entry hpresent hparse

theorem Indexed.apply (h : t.Indexed) {w : KeyWrite} (hw : w.FromClient) : (t.apply w).Indexed := by
  cases w with
  | put ref raw =>
    refine h.set (fun entry hparse => ?_) _
    rw [parseTtlIndexKey_of_text hw] at hparse
    cases hparse
  | putIndex key =>
    obtain ⟨e, ref, he, rfl⟩ := hw
    refine h.set (fun entry hparse => ?_) _
    rw [indexSlot_indexKey] at hparse
    obtain ⟨hkey, hexpire, hdb, -⟩ := eq_ttlIndexKey_of_parse hparse
    have hentry : indexKey e ref = indexKey (.ofNat entry.expireMs) entry.ref := by
      show _ = ttlIndexKey (UInt64.ofNat _).toNat (UInt16.ofNat _).toNat entry.key
      rw [UInt64.toNat_ofNat_of_lt' hexpire, UInt16.toNat_ofNat_of_lt' hdb]
      exact hkey
    intro hzero
    rw [hzero] at hentry
    exact he (indexKey_inj.mp hentry).1
  | delete | deleteIndex => exact h.set_none _
  | putAll | deleteSub | deleteRange => exact h

theorem Indexed.write (h : t.Indexed) {batch : KeyBatch} (hb : BatchFromClient batch) :
    (t.write batch).Indexed := by
  induction batch generalizing t with
  | nil => exact h
  | cons w batch ih =>
    obtain ⟨hw, hb⟩ := batchFromClient_cons.mp hb
    exact ih (h.apply hw) hb

theorem write_expirePlan (t : RawTable) (entry : TtlEntry) (value : Option Bytes) :
    t.write (expirePlan entry value) = (match value.bind decodeMetaHeader with
        | none => t
        | some hdr => if hdr.expireMs = entry.expireMs then t.set entry.ref none else t).set
        (indexSlot entry.rawKey) none := by
  unfold expirePlan
  split
  · rfl
  · split <;> rfl

end RawTable

namespace SweepState

variable {s s' : SweepState}

theorem Inv.plainSet (h : s.Inv) {ref : DbKeyRef} (hkey : parseTtlIndexKey ref.key = none)
    (value : Bytes) : (s.table.write (plainSetToBatch ref value (s.table ref))).Indexed := by
  have hold : BatchFromClient
      (if validUtf8 ref.key then removeOldToBatch ref (s.table ref) 0 else []) := by
    split
    · next htext => exact (batchAbout_removeOld _ _).fromClient htext
    · exact batchFromClient_nil
  rw [plainSetToBatch, RawTable.write, List.foldl_append]
  refine RawTable.Indexed.set (h.indexed.write hold) (fun entry hparse => ?_) _
  rw [hkey] at hparse
  cases hparse

theorem Inv.commit (h : s.Inv) (entry : TtlEntry) (value : Option Bytes) :
    (s.table.write (expirePlan entry value)).Indexed := by
  rw [RawTable.write_expirePlan]
  refine RawTable.Indexed.set_none ?_ _
  split
  · exact h.indexed
  · split
    · exact h.indexed.set_none _
    · exact h.indexed

theorem Inv.scanned (h : s.Inv) {db : UInt16} {key : Bytes} {entry : TtlEntry}
    (hpresent : (s.table ⟨db, key⟩).isSome = true)
    (hrange : inRange (ttlDbPrefix db.toNat)
      (ttlDbExpireUpperBound db.toNat s.now.toNat) key = true)
    (hparse : parseTtlIndexKey key = some entry) : entry.Scanned s.now where
  pos := h.indexed ⟨db, key⟩ entry (Option.isSome_iff_ne_none.mp hpresent) hparse
  due := (scanned_due db.toNat_lt hrange hparse).2
  parse := by
    rw [TtlEntry.rawKey, ← (eq_ttlIndexKey_of_parse hparse).1]
    exact hparse

theorem Inv.step (h : s.Inv) {ev : SweepEvent} (hev : ev.NotForged) (hs : s.step ev = some s') :
    s'.Inv := by
  cases ev with
  | client b =>
    cases hs
    exact ⟨h.indexed.write b.fromClient, h.expired, h.observed⟩
  | plainSet ref value =>
    cases hs
    exact ⟨h.plainSet hev value, h.expired, h.observed⟩
  | start now =>
    simp only [SweepState.step, Option.ite_none_right_eq_some, Bool.and_eq_true,
      List.isEmpty_iff, Option.isNone_iff_eq_none, Option.some.injEq] at hs
    obtain ⟨⟨hexpired, hobserved⟩, rfl⟩ := hs
    refine ⟨h.indexed, fun entry hmem => ?_, fun entry value heq => ?_⟩
    · rw [hexpired] at hmem
      cases hmem
    · rw [hobserved] at heq
      cases heq
  | scan db key =>
    simp only [SweepState.step, Option.ite_none_right_eq_some, Bool.and_eq_true] at hs
    obtain ⟨⟨hpresent, hrange⟩, hs⟩ := hs
    split at hs
    · next entry hparse =>
      cases hs
      exact ⟨h.indexed, forall_mem_concat h.expired (h.scanned hpresent hrange hparse), h.observed⟩
    · cases hs
      exact h
  | observe =>
    simp only [SweepState.step] at hs
    split at hs
    · next entry rest hobserved hexpired =>
      cases hs
      have hmem (e : TtlEntry) (he : e ∈ entry :: rest) := h.expired e (hexpired ▸ he)
      refine ⟨h.indexed, fun e he => hmem e (List.mem_cons_of_mem _ he), fun e value heq => ?_⟩
      cases heq
      exact hmem entry List.mem_cons_self
    · cases hs
  | skip =>
    cases hs
    exact ⟨h.indexed, h.expired, fun _ _ heq => nomatch heq⟩
  | commit =>
    obtain ⟨⟨entry, value⟩, hobserved, rfl⟩ := Option.map_eq_some_iff.mp hs
    dsimp only
    split
    · exact ⟨h.commit entry value, h.expired, fun _ _ heq => nomatch heq⟩
    · exact ⟨h.indexed, h.expired, fun _ _ heq => nomatch heq⟩

/-- 消される main record は、読み直したものと同じで、期限は entry の期限に等しく、走査の時刻以前である。 -/
def DeletesOnlyDue (s s' : SweepState) : Prop :=
  ∀ ref raw, parseTtlIndexKey ref.key = none → s.table ref = some raw →
    s'.table ref = some raw ∨
      s'.table ref = none ∧ ∃ entry hdr, s.observed = some (entry, some raw) ∧ entry.ref = ref ∧
        decodeMetaHeader raw = some hdr ∧ hdr.expireMs ≠ 0 ∧
          hdr.expireMs = entry.expireMs ∧ hdr.expireMs ≤ s.now.toNat

def KeepsExtended (s s' : SweepState) : Prop :=
  ∀ ref raw hdr, parseTtlIndexKey ref.key = none → s.table ref = some raw →
    decodeMetaHeader raw = some hdr →
    (hdr.expireMs = 0 ∨ s.now.toNat < hdr.expireMs ∨
      ∀ entry value, s.observed = some (entry, value) → hdr.expireMs ≠ entry.expireMs) →
    s'.table ref = some raw

theorem DeletesOnlyDue.of_table_eq (h : s'.table = s.table) : DeletesOnlyDue s s' :=
  fun _ _ _ hraw => .inl (h ▸ hraw)

theorem DeletesOnlyDue.keepsExtended (h : DeletesOnlyDue s s') : KeepsExtended s s' := by
  intro ref raw hdr hkey hraw hhdr hkept
  rcases h ref raw hkey hraw with
    hsame | ⟨-, entry, header', hobserved, -, hheader', hpos, heq, hdue⟩
  · exact hsame
  · rw [hhdr] at hheader'
    cases hheader'
    rcases hkept with hzero | hlater | hchanged
    · exact absurd hzero hpos
    · omega
    · exact absurd heq (hchanged entry _ hobserved)

theorem Inv.commit_deletesOnlyDue (h : s.Inv) {entry : TtlEntry} {value : Option Bytes}
    (hobserved : s.observed = some (entry, value)) (hsame : s.table entry.ref = value) :
    DeletesOnlyDue s
      { s with table := s.table.write (expirePlan entry value), observed := none } := by
  intro ref raw hkey hraw
  have hentry := h.observed entry value hobserved
  have hslot : ref ≠ indexSlot entry.rawKey := by
    rintro rfl
    exact absurd (hkey.symm.trans hentry.parse) nofun
  dsimp only
  rw [RawTable.write_expirePlan, RawTable.set_apply, if_neg hslot]
  cases hhdr : value.bind decodeMetaHeader with
  | none => exact .inl hraw
  | some hdr =>
    dsimp only
    split
    · next hexpire =>
      rw [RawTable.set_apply]
      split
      · next href =>
        subst href
        rw [hraw] at hsame
        subst hsame
        refine .inr ⟨rfl, entry, hdr, hobserved, rfl, hhdr, ?_, hexpire, ?_⟩
        · exact hexpire ▸ hentry.pos
        · exact hexpire ▸ hentry.due
      · exact .inl hraw
    · exact .inl hraw

theorem Inv.sweeper_deletesOnlyDue (h : s.Inv) {ev : SweepEvent} (hev : ev.bySweeper = true)
    (hs : s.step ev = some s') : DeletesOnlyDue s s' := by
  cases ev with
  | client | plainSet => cases hev
  | start now =>
    simp only [SweepState.step, Option.ite_none_right_eq_some, Option.some.injEq] at hs
    exact .of_table_eq (hs.2 ▸ rfl)
  | scan db key =>
    simp only [SweepState.step, Option.ite_none_right_eq_some] at hs
    obtain ⟨-, hs⟩ := hs
    split at hs
    · cases hs
      exact .of_table_eq rfl
    · cases hs
      exact .of_table_eq rfl
  | observe =>
    simp only [SweepState.step] at hs
    split at hs
    · cases hs
      exact .of_table_eq rfl
    · cases hs
  | skip =>
    cases hs
    exact .of_table_eq rfl
  | commit =>
    obtain ⟨⟨entry, value⟩, hobserved, rfl⟩ := Option.map_eq_some_iff.mp hs
    dsimp only
    split
    · next hsame => exact h.commit_deletesOnlyDue hobserved hsame
    · exact .of_table_eq rfl

end SweepState

/--
**sweeper が消すのは、期限の来た record だけである。** client の batch と sweeper の各段階がどう交互に起きても、
byte 列の key の `SET` が index の entry を作らない限りそうなる。
-/
theorem sweep_deletes_only_due {init s s' : SweepState} {evs : List SweepEvent} {ev : SweepEvent}
    (hinit : init.Inv) (hevs : Obeys SweepState.step (fun _ ev => ev.NotForged) init evs)
    (hrun : run SweepState.step init evs = some s) (hev : ev.bySweeper = true)
    (hstep : s.step ev = some s') : s.DeletesOnlyDue s' ∧ s.KeepsExtended s' := by
  have hinv : s.Inv := run_induction (fun _ _ _ h hok hs => h.step hok hs) hinit hevs hrun
  have hdue := hinv.sweeper_deletesOnlyDue hev hstep
  exact ⟨hdue, hdue.keepsExtended⟩

/-! ## index の entry を装う key -/

namespace ForgedEntry

def idle : SweepState := ⟨fun _ => none, 0, [], none⟩

theorem idle_inv : idle.Inv :=
  ⟨fun _ _ h => absurd rfl h, fun _ h => (nomatch h), fun _ _ h => (nomatch h)⟩

/-- key `k` -/
def k : DbKeyRef := ⟨0, [0x6b]⟩

/-- 期限が 0 の、`k` の entry として読める key。 -/
def forged : DbKeyRef := ⟨0, indexKey 0 k⟩

/-- `SET k v` の後に、index の entry を装う key を `SET` して、一度走査する。 -/
def forgedRun : List SweepEvent :=
  [.plainSet k [0x76], .plainSet forged [0x78], .start 1, .scan 0 forged.key, .observe]

/-- `SETEX k` の後に一度走査する。 -/
def sweptRun : List SweepEvent :=
  [.client ⟨replaceToBatch k none (encodeRawString [0x76] 5) 5,
      (batchAbout_replace _ _).fromClient rfl⟩,
    .start 5, .scan 0 (indexKey 5 k), .observe]

theorem sweep_deletes_persistent :
    ∃ s s', run SweepState.step idle forgedRun = some s ∧ s.step .commit = some s' ∧
      s.table k = some (encodeRawString [0x76] 0) ∧
      decodeMetaHeader (encodeRawString [0x76] 0) = some ⟨0, 0, TypeTag.string.code⟩ ∧
      s'.table k = none ∧ s.table forged ≠ none ∧ s'.table forged = none :=
  ⟨_, _, rfl, rfl, by decide, by decide, by decide, by decide, by decide⟩

theorem sweep_deletes_due :
    ∃ s s', run SweepState.step idle sweptRun = some s ∧ s.step .commit = some s' ∧
      s.table k ≠ none ∧ s'.table k = none ∧ s.DeletesOnlyDue s' ∧ s.KeepsExtended s' :=
  ⟨_, _, rfl, rfl, by decide, by decide,
    @sweep_deletes_only_due idle _ _ sweptRun .commit idle_inv
      ⟨trivial, fun _ _ =>
        ⟨trivial, fun _ _ => ⟨trivial, fun _ _ => ⟨trivial, fun _ _ => trivial⟩⟩⟩⟩
      rfl rfl rfl⟩

end ForgedEntry

end Onedis.Store
