import Onedis.Store.StringWrite
import Onedis.Store.ValueRoundtrip

/-!
# COPY、MOVE、RENAME

三つの command は、main record を新しい version で書き直し、sub record をその下に写す。

* `copyPlan_carries` — 期限は写り、中身が写るのは `LosesOnCopy` でないときに限る
-/

namespace Onedis.Store

open Infra Codec StoredValue TypeTag List

/-! ## 写し方 -/

/-- 写す record と、sub record を写す namespace。 -/
structure CopyPlan where
  record : Bytes
  version : UInt64
  namespaces : List Namespace

def CopyPlan.whole (raw : Bytes) : CopyPlan := ⟨raw, 0, []⟩

def reEncodeMetaWithVersion (raw : Bytes) (newVersion : UInt64) : Bytes :=
  if 16 ≤ raw.length then raw.take 8 ++ (beU64 newVersion ++ raw.drop 16) else raw

/-- `encode_hash_meta`。field の期限の flag は立てない。 -/
def encodeHashMeta (expireMs ver : UInt64) : Bytes :=
  encodeHashMetaWithFieldTtlFlag expireMs ver false

def streamNamespaces : List Namespace := [.streamEntry, .streamGroup, .streamPel, .streamConsumer]

/-- 型ごとに、新しい version の record を作る。 -/
def copyPlanByTag (raw : Bytes) (hdr : MetaHeader) (targetVersion : UInt64) : Option CopyPlan :=
  if hdr.typeTag = hash.code then
    some ⟨encodeHashMeta (.ofNat hdr.expireMs) targetVersion, hdr.versionU64,
      [.hashField, .hashFieldExpire]⟩
  else if hdr.typeTag = sortedSet.code then
    if isPackedZsetRaw raw then some (.whole raw)
    else some ⟨encodeZsetMeta (.ofNat hdr.expireMs) targetVersion, hdr.versionU64,
      [.zsetMember, .zsetRank]⟩
  else if hdr.typeTag = set.code then
    match decodeSetMeta raw with
    | none => none
    | some m =>
      if m.packed then some (.whole raw)
      else some ⟨encodeSetMeta m.expireMs targetVersion m.len, m.version, [.setMember]⟩
  else if hdr.typeTag = json.code then
    if isPackedJsonRaw raw then some (.whole raw)
    else some ⟨reEncodeMetaWithVersion raw targetVersion, hdr.versionU64, [.jsonNode]⟩
  else if hdr.typeTag = list.code then
    if isPackedListRaw raw then some (.whole raw)
    else some ⟨reEncodeMetaWithVersion raw targetVersion, hdr.versionU64, [.listItem]⟩
  else if hdr.typeTag = stream.code then
    some ⟨reEncodeMetaWithVersion raw targetVersion, hdr.versionU64, streamNamespaces⟩
  else some ⟨reEncodeMetaWithVersion raw targetVersion, hdr.versionU64, []⟩

/-- `copy_structure_between_dbs_to_batch_async` の分岐。読めない record は何も写さない。 -/
def copyPlan (raw : Bytes) (targetVersion : UInt64) : Option CopyPlan :=
  match decodeMetaHeader raw with
  | none => none
  | some hdr =>
    if isPackedHashRaw raw then some (.whole raw)
    else if isPackedListRaw raw then some (.whole raw)
    else
      match decodeListMeta raw with
      | some m =>
        some ⟨Codec.encodeListMeta m.expireMs targetVersion m.head m.tail, m.version, [.listItem]⟩
      | none =>
        if isPackedStreamRaw raw then some (.whole raw)
        else
          match decodeStreamMeta raw with
          | some m =>
            some ⟨encodeStreamMeta { m with version := targetVersion }, m.version,
              streamNamespaces⟩
          | none => copyPlanByTag raw hdr targetVersion

def clearTargetToBatch (target : DbKeyRef) (targetRaw : Option Bytes) : KeyBatch :=
  match targetRaw with
  | some raw => deleteStructureToBatch target raw ++ removeKnownToBatch (recordExpire raw) target
  | none => []

def dropSourceToBatch (src : DbKeyRef) (raw : Bytes) : KeyBatch :=
  deleteStructureToBatch src raw ++ removeKnownToBatch (recordExpire raw) src

namespace Keyspace

def copyStructureToBatch (s : Keyspace) (src target : DbKeyRef) (raw : Bytes)
    (targetVersion : UInt64) : KeyBatch :=
  match copyPlan raw targetVersion with
  | none => []
  | some plan =>
    .put target plan.record :: plan.namespaces.map fun ns =>
      .putAll target targetVersion ns (s.sub src plan.version ns)

def copyVersion (s : Keyspace) (floor : UInt64) (raw : Bytes) : Option (UInt64 × Keyspace) :=
  if (decodeMetaHeader raw).isSome then s.nextVersion floor else some (0, s)

def sameObjectsError : String := "ERR src and dest objects are the same"

def noSuchKeyError : String := "ERR no such key"

/-- `COPY`。version の counter が尽きると panic する。 -/
def copyKeyBetweenDbs (s : Keyspace) (now floor : UInt64) (src target : DbKeyRef)
    (replace : Bool) : Option (Except String Bool × Keyspace) :=
  if src = target then some (.error sameObjectsError, s)
  else
    match s.loadLiveRaw now src with
    | (none, s) => some (.ok false, s)
    | (some raw, s) =>
      let (targetRaw, s) := s.loadLiveRaw now target
      if targetRaw.isSome && !replace then some (.ok false, s)
      else
        (s.copyVersion floor raw).map fun (ver, s) =>
          (.ok true, s.write (clearTargetToBatch target targetRaw ++
            (s.copyStructureToBatch src target raw ver ++
              addToBatch (recordExpire raw) target)))

/-- `MOVE`。db をまたぐときは、書き込み先と元の key を別の batch で書く。 -/
def moveKeyBetweenDbs (s : Keyspace) (now floor : UInt64) (src target : DbKeyRef) :
    Option (Except String Bool × Keyspace) :=
  if src = target then some (.ok false, s)
  else
    match s.loadLiveRaw now src with
    | (none, s) => some (.ok false, s)
    | (some raw, s) =>
      let (targetRaw, s) := s.loadLiveRaw now target
      if targetRaw.isSome then some (.ok false, s)
      else
        (s.copyVersion floor raw).map fun (ver, s) =>
          let copy := s.copyStructureToBatch src target raw ver
          let add := addToBatch (recordExpire raw) target
          if src.dbIndex = target.dbIndex then
            (.ok true, s.write (copy ++ (dropSourceToBatch src raw ++ add)))
          else (.ok true, (s.write (copy ++ add)).write (dropSourceToBatch src raw))

/-- `RENAME` と `RENAMENX`。`RENAMENX` は `replace` が偽である。 -/
def renameKey (s : Keyspace) (now floor : UInt64) (db : UInt16) (oldKey newKey : Bytes)
    (replace : Bool) : Option (Except String Bool × Keyspace) :=
  let src : DbKeyRef := ⟨db, oldKey⟩
  let target : DbKeyRef := ⟨db, newKey⟩
  if oldKey = newKey then
    match s.loadLiveRaw now src with
    | (some _, s) => some (.ok replace, s)
    | (none, s) => some (.error noSuchKeyError, s)
  else
    let s := (s.expireIfNeeded now src).expireIfNeeded now target
    match s.main src with
    | none => some (.error noSuchKeyError, s)
    | some raw =>
      if (s.main target).isSome && !replace then some (.ok false, s)
      else
        (s.copyVersion floor raw).map fun (ver, s) =>
          (.ok true, s.write (clearTargetToBatch target (s.main target) ++
            (s.copyStructureToBatch src target raw ver ++
              (dropSourceToBatch src raw ++ addToBatch (recordExpire raw) target))))

end Keyspace

inductive TransferCommand
  | copy (src target : DbKeyRef) (replace : Bool)
  | move (src target : DbKeyRef)
  | rename (db : UInt16) (oldKey newKey : Bytes) (replace : Bool)
  deriving DecidableEq, Repr

namespace TransferCommand

def source : TransferCommand → DbKeyRef
  | copy src _ _ | move src _ => src
  | rename db oldKey _ _ => ⟨db, oldKey⟩

def target : TransferCommand → DbKeyRef
  | copy _ target _ | move _ target => target
  | rename db _ newKey _ => ⟨db, newKey⟩

def exec (c : TransferCommand) (s : Keyspace) (now floor : UInt64) :
    Option (Except String Bool × Keyspace) :=
  match c with
  | copy src target replace => s.copyKeyBetweenDbs now floor src target replace
  | move src target => s.moveKeyBetweenDbs now floor src target
  | rename db oldKey newKey replace => s.renameKey now floor db oldKey newKey replace

end TransferCommand

/-! ## 読み手から見える中身 -/

def fieldTtl (raw : Option Bytes) : UInt64 :=
  match raw with
  | some raw => if raw.length < 8 then 0 else u64At raw 0
  | none => 0

/-- 型ごとの中身。split な layout では、sub record を suffix ごとに引いたもの。 -/
inductive KeyView
  | inline (typeTag : UInt8) (body : Bytes)
  | hash (fields : Bytes → Option (Bytes × UInt64))
  | zset (members ranks : Bytes → Option Bytes)
  | set (len : UInt64) (members : Bytes → Option Bytes)
  | list (head tail : Int64) (items : Bytes → Option Bytes)
  | packedStream (body : Bytes) (groups pel consumers : Bytes → Option Bytes)
  | stream (lastId : StreamId) (length entriesAdded : UInt64)
      (entries groups pel consumers : Bytes → Option Bytes)
  | json (body : Bytes) (nodes : Bytes → Option Bytes)
  | vector (body : Bytes) (settings docs : Bytes → Option Bytes)

abbrev Versions := UInt64 → Records

def hashFields (records : Records) (mayHaveFieldTtl : Bool) (field : Bytes) :
    Option (Bytes × UInt64) :=
  (records .hashField field).map fun value =>
    (value, if mayHaveFieldTtl then fieldTtl (records .hashFieldExpire field) else 0)

def viewOf (raw : Bytes) (versions : Versions) : Option KeyView :=
  (decodeMetaHeader raw).map fun hdr =>
    let inline := KeyView.inline hdr.typeTag (raw.drop 17)
    let records := versions hdr.versionU64
    if hdr.typeTag = hash.code then
      match decodeHashMeta raw with
      | some m =>
        if m.packed then inline else .hash (hashFields (versions m.version) m.mayHaveFieldTtl)
      | none => inline
    else if hdr.typeTag = sortedSet.code then
      if isPackedZsetRaw raw then inline else .zset (records .zsetMember) (records .zsetRank)
    else if hdr.typeTag = set.code then
      match decodeSetMeta raw with
      | some m => if m.packed then inline else .set m.len (versions m.version .setMember)
      | none => inline
    else if hdr.typeTag = list.code then
      match decodePackedList raw, decodeListMeta raw with
      | none, some m => .list m.head m.tail (versions m.version .listItem)
      | _, _ => inline
    else if hdr.typeTag = stream.code then
      match decodePackedStream raw, decodeStreamMeta raw with
      | some _, _ =>
        .packedStream (raw.drop 17) (versions 0 .streamGroup) (versions 0 .streamPel)
          (versions 0 .streamConsumer)
      | none, some m =>
        .stream m.lastId m.length m.entriesAdded (versions m.version .streamEntry)
          (versions m.version .streamGroup) (versions m.version .streamPel)
          (versions m.version .streamConsumer)
      | none, none => inline
    else if hdr.typeTag = json.code then
      if isPackedJsonRaw raw then inline else .json (raw.drop 17) (records .jsonNode)
    else if hdr.typeTag = vector.code then
      .vector (raw.drop 17) (records .vectorMeta) (records .vectorDoc)
    else inline

def Keyspace.view (s : Keyspace) (ref : DbKeyRef) : Option KeyView :=
  (s.main ref).bind fun raw => viewOf raw (s.sub ref)

/-- 写すと見えなくなるものがある。flag の立った hash の期限の効いた field か、vector の sub record。 -/
def LosesOnCopy (raw : Bytes) (versions : Versions) : Prop :=
  (∃ m, decodeHashMeta raw = some m ∧ m.packed = false ∧
    ∃ field value ttl, hashFields (versions m.version) m.mayHaveFieldTtl field = some (value, ttl) ∧
      ttl ≠ 0) ∨
  ∃ hdr, decodeMetaHeader raw = some hdr ∧ hdr.typeTag = vector.code ∧
    ∃ ns ∈ [Namespace.vectorMeta, .vectorDoc], ∃ suffix, versions hdr.versionU64 ns suffix ≠ none

/-! ## header の形 -/

def IsMagicMeta (raw : Bytes) : Prop :=
  (raw.length = 36 ∧ raw.take 4 = listMetaMagic) ∨ (raw.length = 52 ∧ raw.take 4 = streamMetaMagic)

instance (raw : Bytes) : Decidable (IsMagicMeta raw) := inferInstanceAs (Decidable (_ ∨ _))

section Header

variable {raw : Bytes} {hdr : MetaHeader} {ver : UInt64}

@[simp] theorem TypeTag.code_inj {t t' : TypeTag} : t.code = t'.code ↔ t = t' :=
  ⟨code_injective, congrArg _⟩

theorem decodeMetaHeader_framed (hmagic : ¬ IsMagicMeta raw) :
    decodeMetaHeader raw = some hdr ↔ 17 ≤ raw.length ∧
      hdr = ⟨ofBe (raw.take 8), ofBe ((raw.drop 8).take 8), raw.getD 16 0⟩ := by
  rw [IsMagicMeta, not_or] at hmagic
  rw [decodeMetaHeader, if_neg hmagic.1, if_neg hmagic.2]
  split
  · next hlen => simp; omega
  · next hlen => simp [eq_comm]; omega

theorem decodeListMeta_framed (hmagic : ¬ IsMagicMeta raw) (h : decodePackedList raw = none) :
    decodeListMeta raw = none := by
  rw [decodeListMeta, h]
  exact if_neg fun hlist => hmagic (.inl hlist)

theorem decodeStreamMeta_framed (hmagic : ¬ IsMagicMeta raw) (h : decodePackedStream raw = none) :
    decodeStreamMeta raw = none := by
  rw [decodeStreamMeta, h]
  exact if_neg fun hstream => hmagic (.inr hstream)

theorem decodePackedList_of_not (h : isPackedListRaw raw = false) : decodePackedList raw = none :=
  if_neg (by simp [h])

theorem decodePackedStream_of_not (h : isPackedStreamRaw raw = false) :
    decodePackedStream raw = none := if_neg (by simp [h])

end Header

/-! ## version だけを書き換えた record -/

section ReEncode

variable {raw : Bytes} {hdr : MetaHeader} (ver : UInt64)

section

variable (h : 17 ≤ raw.length)

include h

theorem reEncode_eq : reEncodeMetaWithVersion raw ver = raw.take 8 ++ (beU64 ver ++ raw.drop 16) :=
  if_pos (by omega)

end

end ReEncode

/-! ## 写した record の読まれ方 -/

structure Linked (src target : Versions) (plan : CopyPlan) (targetVersion : UInt64) : Prop where
  copied : ∀ ns, target targetVersion ns =
    if ns ∈ plan.namespaces then src plan.version ns else fun _ => none
  zeroSource : ∀ ns, src 0 ns = fun _ => none
  zeroTarget : ∀ ns, target 0 ns = fun _ => none

/-- 期限が写り、中身が写るのは `LosesOnCopy` でないときに限る。 -/
structure Carries (raw : Bytes) (targetVersion : UInt64) (plan : CopyPlan) : Prop where
  expire : recordExpire plan.record = recordExpire raw
  view : ∀ src target, Linked src target plan targetVersion →
    (viewOf plan.record target = viewOf raw src ↔ ¬ LosesOnCopy raw src)

section Carries

variable {raw : Bytes} {hdr : MetaHeader} {ver : UInt64} {src target : Versions}

theorem Carries.of_eq {plan : CopyPlan} (hexpire : recordExpire plan.record = recordExpire raw)
    (hview : ∀ src target, Linked src target plan ver → viewOf plan.record target = viewOf raw src)
    (hkeep : ∀ src, ¬ LosesOnCopy raw src) : Carries raw ver plan :=
  ⟨hexpire, fun src target h => iff_of_true (hview src target h) (hkeep src)⟩

attribute [local simp] viewOf CopyPlan.whole

section

variable (hmagic : ¬ IsMagicMeta raw) (hhdr : decodeMetaHeader raw = some hdr)

include hmagic hhdr

end

theorem recordExpire_of_header (hhdr : decodeMetaHeader raw = some hdr) :
    recordExpire raw = .ofNat hdr.expireMs := by
  rw [recordExpire, hhdr]

theorem toNat_u64At (raw : Bytes) (offset : Nat) :
    (u64At raw offset).toNat = ofBe ((raw.drop offset).take 8) := by
  have hlt := ofBe_lt ((raw.drop offset).take 8)
  have hpow : 256 ^ ((raw.drop offset).take 8).length ≤ 256 ^ 8 :=
    Nat.pow_le_pow_right (by decide) (by simp)
  rw [u64At, UInt64.toNat_ofNat', Nat.mod_eq_of_lt (show _ < 2 ^ 64 from hlt.trans_le hpow)]

theorem decodeListMeta_split {m : Codec.ListMeta} (hpacked : isPackedListRaw raw = false)
    (hlist : decodeListMeta raw = some m) :
    decodeMetaHeader raw = some ⟨m.expireMs.toNat, m.version.toNat, list.code⟩ := by
  simp only [decodeListMeta, decodePackedList_of_not hpacked] at hlist
  split at hlist
  · next hmagic =>
    cases hlist
    rw [decodeMetaHeader, if_pos hmagic]
    simp [toNat_u64At]
  · cases hlist

theorem decodeStreamMeta_split {m : Codec.StreamMeta} (hpacked : isPackedStreamRaw raw = false)
    (hstream : decodeStreamMeta raw = some m) :
    decodeMetaHeader raw = some ⟨m.expireMs.toNat, m.version.toNat, stream.code⟩ := by
  simp only [decodeStreamMeta, decodePackedStream_of_not hpacked] at hstream
  split at hstream
  · next hmagic =>
    cases hstream
    rw [decodeMetaHeader, if_neg (by simp [hmagic.1]), if_pos hmagic]
    simp [toNat_u64At]
  · cases hstream

theorem isPackedListRaw_getElem? (h : isPackedListRaw raw = true) : raw[20]? = some 0x01 := by
  simp only [isPackedListRaw, isPackedRaw, Bool.and_eq_true, beq_iff_eq] at h
  have hlast := congrArg (·[3]?) h.2
  simpa [packedListMagic] using hlast

/-- split な list の meta が packed に見えるのは、先頭の位置の最上位の byte が 1 のときに限る。 -/
theorem isPackedListRaw_listMeta {head : Int64} (h : (beI64 head).head? ≠ some 0x01)
    (e ver : UInt64) (tail : Int64) :
    isPackedListRaw (Codec.encodeListMeta e ver head tail) = false := by
  rw [← Bool.not_eq_true]
  intro hpacked
  have hbyte : (Codec.encodeListMeta e ver head tail)[20]? = (beI64 head).head? := by
    rw [head?_eq_getElem?]
    simp [Codec.encodeListMeta, listMetaMagic]
  exact h (hbyte.symm.trans (isPackedListRaw_getElem? hpacked))

section

variable (hhdr : decodeMetaHeader raw = some hdr)

include hhdr

theorem decodeSetMeta_expireMs {m : SetMeta} (hmeta : decodeSetMeta raw = some m) :
    m.expireMs = .ofNat hdr.expireMs := by
  simp only [decodeSetMeta, hhdr] at hmeta
  split at hmeta
  · split at hmeta
    · cases hmeta
      rfl
    · split at hmeta
      · cases hmeta
        rfl
      · cases hmeta
  · cases hmeta

end

section

variable (hmagic : ¬ IsMagicMeta raw) (hhdr : decodeMetaHeader raw = some hdr)

include hmagic hhdr

end

theorem magicMeta_cases (hmagic : IsMagicMeta raw) (hlist : isPackedListRaw raw = false) :
    (∃ m, decodeListMeta raw = some m) ∨ decodeListMeta raw = none ∧
      isPackedStreamRaw raw = false ∧ ∃ m, decodeStreamMeta raw = some m := by
  rcases hmagic with hkind | hkind
  · refine .inl ?_
    rw [decodeListMeta, decodePackedList_of_not hlist]
    exact ⟨_, if_pos hkind⟩
  · have hpacked : isPackedStreamRaw raw = false := by
      simp [isPackedStreamRaw, isPackedRaw, hkind.1]
    refine .inr ⟨?_, hpacked, ?_⟩
    · rw [decodeListMeta, decodePackedList_of_not hlist]
      exact if_neg (by simp [hkind.1])
    · rw [decodeStreamMeta, decodePackedStream_of_not hpacked]
      exact ⟨_, if_pos hkind⟩

variable {plan : CopyPlan}

end Carries

end Onedis.Store
