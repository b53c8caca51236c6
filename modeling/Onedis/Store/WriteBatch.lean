import Onedis.Infra.Decimal
import Onedis.Store.KeyEncoding

/-!
# write batch と、そこから読み取る logical key

変わった logical key は、batch の raw key を**逆に復号して**求める。WATCH の版も、transaction を commit するかも、
この結果だけから決まる。`recordFamily` は record の種類を復号器とは独立に述べる。
-/

namespace Onedis.Store

open Infra KeyEncodingLayout List Namespace

/-! ## batch -/

inductive Status
  | invalidArgument (msg : String)
  | unsupported (msg : String)
  | conditionFailed (msg : String)
  | writeConflict (msg : String)
  deriving DecidableEq, Repr

inductive WriteType
  | put | putBlobMedium | putBlobExternal | delete | merge | rangeDelete
  deriving DecidableEq, Repr

/-- batch の一項目。`rangeDelete` では `key` が始端、`value` が終端である。 -/
structure BatchOp where
  writeType : WriteType
  key : Bytes
  value : Bytes
  deriving DecidableEq, Repr

abbrev WriteBatch := List BatchOp

namespace WriteBatch

def put (batch : WriteBatch) (key value : Bytes) : WriteBatch := batch ++ [⟨.put, key, value⟩]

def delete (batch : WriteBatch) (key : Bytes) : WriteBatch := batch ++ [⟨.delete, key, []⟩]

def deleteRange (batch : WriteBatch) (start stop : Bytes) : WriteBatch :=
  batch ++ [⟨.rangeDelete, start, stop⟩]

end WriteBatch

/-! ## main record の header -/

inductive TypeTag
  | string | hash | set | sortedSet | list | json | vector | stream
  deriving DecidableEq, Repr

def TypeTag.code : TypeTag → UInt8
  | string => 1 | hash => 2 | set => 3 | sortedSet => 4
  | list => 5 | json => 6 | vector => 7 | stream => 8

/-- main record の頭。 -/
structure MetaHeader where
  expireMs : Nat
  version : Nat
  typeTag : UInt8
  deriving DecidableEq, Repr

/-- `b"ULST"` -/
def listMetaMagic : Bytes := [0x55, 0x4c, 0x53, 0x54]

/-- `b"USTR"` -/
def streamMetaMagic : Bytes := [0x55, 0x53, 0x54, 0x52]

/-- main record の先頭を読む。list と stream の meta は固有の長さと magic を持つ。 -/
def decodeMetaHeader (raw : Bytes) : Option MetaHeader :=
  if raw.length = 36 ∧ raw.take 4 = listMetaMagic then
    some ⟨ofBe ((raw.drop 4).take 8), ofBe ((raw.drop 12).take 8), TypeTag.list.code⟩
  else if raw.length = 52 ∧ raw.take 4 = streamMetaMagic then
    some ⟨ofBe ((raw.drop 4).take 8), ofBe ((raw.drop 12).take 8), TypeTag.stream.code⟩
  else if raw.length < 17 then none
  else some ⟨ofBe (raw.take 8), ofBe ((raw.drop 8).take 8), raw.getD 16 0⟩

/-! ## version owner の marker -/

def versionOwnerPrefix (db : Nat) : Bytes :=
  current.internalPrefix db ++ versionOwner.bytes

def versionOwnerKey (db ver : Nat) : Bytes := versionOwnerPrefix db ++ toBe 8 ver

def versionOwnerValueVersion : UInt8 := 1

def putVersionOwnerToBatch (batch : WriteBatch) (db : Nat) (key : Bytes) (ver : Nat)
    (typeTag : UInt8) : WriteBatch :=
  if ver = 0 ∨ typeTag = TypeTag.string.code then batch
  else batch.put (versionOwnerKey db ver) (versionOwnerValueVersion :: typeTag :: key)

def versionOwnerOfOp (layout : KeyEncodingLayout) (db : Nat) (op : BatchOp) :
    Option (Bytes × Nat × UInt8) :=
  match op.writeType with
  | .put | .putBlobMedium | .putBlobExternal =>
    match decodeMetaHeader op.value with
    | none => none
    | some hdr =>
      if hdr.typeTag = TypeTag.string.code ∨ hdr.version = 0 then none
      else (layout.logicalMainKeyFromRawKey db op.key).map
        fun logicalKey => (logicalKey, hdr.version, hdr.typeTag)
  | _ => none

/-- collection の main record を書く batch に、その version の持ち主の marker を書き足す。 -/
def appendVersionOwnerMarkers (layout : KeyEncodingLayout) (db : Nat) (batch : WriteBatch) :
    WriteBatch :=
  (batch.filterMap (versionOwnerOfOp layout db)).foldl
    (fun b owner => putVersionOwnerToBatch b db owner.1 owner.2.1 owner.2.2) batch

/-! ## logical key の収集 -/

def logicalKeyOfOp (layout : KeyEncodingLayout) (db : Nat) (op : BatchOp) : Option Bytes :=
  match op.writeType with
  | .put | .putBlobMedium | .putBlobExternal | .delete | .merge =>
    match layout.logicalMainKeyFromRawKey db op.key with
    | some key => some key
    | none =>
      match hashOwnerFromRawSubKey layout db op.key with
      | some key => some key
      | none =>
        match zsetOwnerFromRawSubKey layout db op.key with
        | some key => some key
        | none =>
          match jsonOwnerFromRawSubKey layout db op.key with
          | some key => some (layout.mainKeyBytes db key)
          | none => none
  | .rangeDelete => none

def dbOfOp (layout : KeyEncodingLayout) (db : Nat) (op : BatchOp) : Option Nat :=
  match op.writeType with
  | .rangeDelete => if layout.isDbRangeDeleteStart db op.key then some db else none
  | _ => none

def collectLogicalMutations (layout : KeyEncodingLayout) (db : Nat) (batch : WriteBatch) :
    List Bytes × List Nat :=
  (batch.filterMap (logicalKeyOfOp layout db), batch.filterMap (dbOfOp layout db))

/-! ## record の種類 -/

/-- raw key の種類。 -/
inductive RecordFamily
  | main (key : Bytes)
  | sub (ns : Namespace) (owner : Bytes)
  | layoutMeta
  | foreign
  deriving DecidableEq, Repr

def namespaceOf (rest : Bytes) : Option (Namespace × Bytes) :=
  all.findSome? fun ns => (ns.bytes.isPrefixOf? rest).map fun owner => (ns, owner)

def recordFamily (layout : KeyEncodingLayout) (db : Nat) (rawKey : Bytes) : RecordFamily :=
  match ((layout.internalPrefix db).isPrefixOf? rawKey : Option Bytes), layout with
  | some rest, layout =>
    match namespaceOf rest with
    | some (ns, owner) => .sub ns owner
    | none =>
      match layout with
      | .tableLocalV2 => if rawKey = keyEncodingLayoutMetaKey then .layoutMeta else .main rawKey
      | .dbPrefixedV1 => .main rest
  | none, .tableLocalV2 => .main rawKey
  | none, .dbPrefixedV1 => .foreign

def Namespace.isTracked : Namespace → Bool
  | hashField | hashFieldExpire | zsetMember | zsetRank | jsonNode => true
  | _ => false

def RecordFamily.isTracked : RecordFamily → Bool
  | main _ => true
  | sub ns owner => ns.isTracked && (decodeOwner owner).isSome
  | layoutMeta | foreign => false

def RecordFamily.reportedKey (layout : KeyEncodingLayout) (db : Nat) :
    RecordFamily → Option Bytes
  | main key => some key
  | sub ns owner =>
    if ns = .jsonNode then (decodeOwner owner).map (layout.mainKeyBytes db)
    else if ns.isTracked then decodeOwner owner
    else none
  | layoutMeta | foreign => none

def BatchOp.isTracked (layout : KeyEncodingLayout) (db : Nat) (op : BatchOp) : Bool :=
  match op.writeType with
  | .rangeDelete => layout.isDbRangeDeleteStart db op.key
  | _ => (recordFamily layout db op.key).isTracked

/-! ## 収集と種類の対応 -/

theorem isKnownSubkeyNamespace_eq (rest : Bytes) :
    isKnownSubkeyNamespace rest = (namespaceOf rest).isSome := by
  unfold isKnownSubkeyNamespace namespaceOf
  induction Namespace.all with
  | nil => rfl
  | cons ns nss ih =>
    rw [any_cons, findSome?_cons, ih]
    cases h : ns.bytes.isPrefixOf? rest with
    | none =>
      have hp : ns.bytes.isPrefixOf rest = false := by
        rw [← Bool.not_eq_true, isPrefixOf_iff_prefix]
        rintro ⟨t, rfl⟩
        rw [isPrefixOf?_append] at h
        cases h
      simp [hp]
    | some t =>
      have hp : ns.bytes.isPrefixOf rest = true := by
        rw [isPrefixOf?_eq_some.mp h, isPrefixOf_iff_prefix]
        exact prefix_append _ _
      simp [hp]

theorem namespaceOf_eq_some {rest owner : Bytes} {ns : Namespace}
    (h : namespaceOf rest = some (ns, owner)) : rest = ns.bytes ++ owner := by
  obtain ⟨m, -, hm⟩ := exists_of_findSome?_eq_some h
  obtain ⟨t, ht, he⟩ := Option.map_eq_some_iff.mp hm
  cases he
  exact isPrefixOf?_eq_some.mp ht

theorem ownerFromRawSubKey_of_namespace {nss : List Namespace} {layout : KeyEncodingLayout}
    {db : Nat} {rawKey rest owner : Bytes} {ns : Namespace}
    (hp : (layout.internalPrefix db).isPrefixOf? rawKey = some rest)
    (hn : namespaceOf rest = some (ns, owner)) :
    ownerFromRawSubKey nss layout db rawKey = if ns ∈ nss then decodeOwner owner else none := by
  have hf : (nss.findSome? fun m => m.bytes.isPrefixOf? rest) =
      if ns ∈ nss then some owner else none := by
    rw [namespaceOf_eq_some hn]
    simp only [isPrefixOf?_bytes]
    induction nss with
    | nil => rfl
    | cons m nss ih =>
      by_cases hm : m = ns
      · simp [hm]
      · simp [hm, Ne.symm hm, ih]
  simp only [ownerFromRawSubKey, hp, hf, Option.bind_eq_bind, Option.bind_some]
  split <;> rfl

theorem ownerFromRawSubKey_of_not_namespace {nss : List Namespace} {layout : KeyEncodingLayout}
    {db : Nat} {rawKey rest : Bytes}
    (hp : (layout.internalPrefix db).isPrefixOf? rawKey = some rest)
    (hn : namespaceOf rest = none) :
    ownerFromRawSubKey nss layout db rawKey = none := by
  have hall : ∀ m ∈ nss, m.bytes.isPrefixOf? rest = none := by
    intro m _
    have := findSome?_eq_none_iff.mp hn m m.mem_all
    simpa using this
  simp [ownerFromRawSubKey, hp, findSome?_eq_none_iff.mpr hall]

open RecordFamily

section

variable (layout : KeyEncodingLayout)
include layout

variable (db : Nat)

/-- **一項目が報告する logical key は、record の種類で決まる。** -/
theorem logicalKeyOfOp_eq (op : BatchOp) (hw : op.writeType ≠ .rangeDelete) :
    logicalKeyOfOp layout db op = (recordFamily layout db op.key).reportedKey layout db := by
  -- 四つの復号器を順に試すことは、`Option.or` の連なりである
  have hred : logicalKeyOfOp layout db op =
      (layout.logicalMainKeyFromRawKey db op.key).or
        ((hashOwnerFromRawSubKey layout db op.key).or
          ((zsetOwnerFromRawSubKey layout db op.key).or
            ((jsonOwnerFromRawSubKey layout db op.key).map (layout.mainKeyBytes db)))) := by
    unfold logicalKeyOfOp
    cases hwt : op.writeType <;> simp only [hwt, ne_eq, not_true_eq_false] at hw ⊢ <;>
      (cases layout.logicalMainKeyFromRawKey db op.key <;>
        cases hashOwnerFromRawSubKey layout db op.key <;>
        cases zsetOwnerFromRawSubKey layout db op.key <;>
        cases jsonOwnerFromRawSubKey layout db op.key <;> rfl)
  rw [hred]
  unfold hashOwnerFromRawSubKey zsetOwnerFromRawSubKey jsonOwnerFromRawSubKey
  cases hp : (layout.internalPrefix db).isPrefixOf? op.key with
  | none =>
    simp only [ownerFromRawSubKey, hp]
    have hmeta : layout = .tableLocalV2 → op.key ≠ keyEncodingLayoutMetaKey := by
      rintro rfl he
      rw [he] at hp
      cases hp
    cases layout <;>
      simp_all [logicalMainKeyFromRawKey, recordFamily,
        reportedKey]
  | some rest =>
    cases hn : namespaceOf rest with
    | none =>
      have hk : isKnownSubkeyNamespace rest = false := by simp [isKnownSubkeyNamespace_eq, hn]
      simp only [ownerFromRawSubKey_of_not_namespace hp hn]
      cases layout
      · simp [logicalMainKeyFromRawKey, recordFamily, hp, hn, hk,
          reportedKey]
      · by_cases hmeta : op.key = keyEncodingLayoutMetaKey
        · rw [hmeta] at hp ⊢
          simp [logicalMainKeyFromRawKey, recordFamily, hp, hn,
            reportedKey]
        · simp [logicalMainKeyFromRawKey, recordFamily, hp, hn, hk, hmeta,
            reportedKey]
    | some nso =>
      obtain ⟨ns, owner⟩ := nso
      have hk : isKnownSubkeyNamespace rest = true := by simp [isKnownSubkeyNamespace_eq, hn]
      have hmain : layout.logicalMainKeyFromRawKey db op.key = none := by
        cases layout <;> simp [logicalMainKeyFromRawKey, hp, hk]
      simp only [hmain, ownerFromRawSubKey_of_namespace hp hn, recordFamily, hp, hn,
        reportedKey, Option.none_or]
      cases ns <;> cases decodeOwner owner <;> rfl

theorem RecordFamily.reportedKey_isSome (family : RecordFamily) :
    (family.reportedKey layout db).isSome = family.isTracked := by
  cases family with
  | sub ns owner => cases ns <;> simp [reportedKey, isTracked, Namespace.isTracked]
  | _ => rfl

theorem logicalKeyOfOp_isSome (op : BatchOp) (hw : op.writeType ≠ .rangeDelete) :
    (logicalKeyOfOp layout db op).isSome = (recordFamily layout db op.key).isTracked := by
  rw [logicalKeyOfOp_eq layout db op hw, reportedKey_isSome]

/-- **batch が何も報告しないのは、どの項目も追跡されないときに限る。** -/
theorem collectLogicalMutations_eq_nil_iff (batch : WriteBatch) :
    collectLogicalMutations layout db batch = ([], []) ↔
      ∀ op ∈ batch, op.isTracked layout db = false := by
  have hop : ∀ op : BatchOp, op.isTracked layout db = false ↔
      logicalKeyOfOp layout db op = none ∧ dbOfOp layout db op = none := by
    intro op
    by_cases hw : op.writeType = .rangeDelete
    · simp [BatchOp.isTracked, logicalKeyOfOp, dbOfOp, hw]
    · have hs := logicalKeyOfOp_isSome layout db op hw
      have hd : dbOfOp layout db op = none := by
        unfold dbOfOp
        cases hwt : op.writeType <;> simp_all
      have ht : op.isTracked layout db = (recordFamily layout db op.key).isTracked := by
        unfold BatchOp.isTracked
        cases hwt : op.writeType <;> simp_all
      rw [ht, ← hs]
      simp [hd]
  simp only [collectLogicalMutations, Prod.mk.injEq, filterMap_eq_nil_iff, hop]
  exact ⟨fun h op hm => ⟨h.1 op hm, h.2 op hm⟩, fun h => ⟨fun op hm => (h op hm).1,
    fun op hm => (h op hm).2⟩⟩

end

/-! ## ひとつの key についての報告 -/

/-- この項目の変更が、db `dbIndex` の logical key `key` に報告される。 -/
def BatchOp.reports (db : Nat) (key : Bytes) (op : BatchOp) : Bool :=
  match op.writeType with
  | .rangeDelete => current.isDbRangeDeleteStart db op.key
  | _ => (recordFamily .current db op.key).reportedKey .current db == some key

theorem BatchOp.reports_iff (db : Nat) (key : Bytes) (op : BatchOp) : op.reports db key = true ↔
      logicalKeyOfOp .current db op = some key ∨ dbOfOp .current db op = some db := by
  by_cases hw : op.writeType = .rangeDelete
  · simp [reports, logicalKeyOfOp, dbOfOp, hw]
  · have hd : dbOfOp .current db op = none := by
      unfold dbOfOp
      cases hwt : op.writeType <;> simp_all
    have hr : op.reports db key =
        ((recordFamily .current db op.key).reportedKey .current db == some key) := by
      unfold reports
      cases hwt : op.writeType <;> simp_all
    rw [hr, hd, logicalKeyOfOp_eq _ _ _ hw]
    simp

/-- **収集の結果が `key` に触れるのは、項目のどれかが `key` を報告するときである。** -/
theorem collectLogicalMutations_touches_iff (db : Nat) (key : Bytes) (batch : WriteBatch) :
    (key ∈ (collectLogicalMutations .current db batch).1 ∨
        db ∈ (collectLogicalMutations .current db batch).2) ↔
      batch.any (·.reports db key) = true := by
  simp only [collectLogicalMutations, mem_filterMap, any_eq_true, BatchOp.reports_iff]
  constructor
  · rintro (⟨op, hop, h⟩ | ⟨op, hop, h⟩)
    · exact ⟨op, hop, Or.inl h⟩
    · exact ⟨op, hop, Or.inr h⟩
  · rintro ⟨op, hop, h | h⟩
    · exact Or.inl ⟨op, hop, h⟩
    · exact Or.inr ⟨op, hop, h⟩

theorem eq_of_mem_collectLogicalMutations_dbs {layout : KeyEncodingLayout} {db d : Nat}
    {batch : WriteBatch} (h : d ∈ (collectLogicalMutations layout db batch).2) :
    d = db := by
  simp only [collectLogicalMutations, mem_filterMap] at h
  obtain ⟨op, -, h⟩ := h
  unfold dbOfOp at h
  split at h
  · split at h
    · exact (Option.some.inj h).symm
    · cases h
  · cases h

theorem recordFamily_versionOwnerKey (db ver : Nat) :
    recordFamily .current db (versionOwnerKey db ver) = .sub .versionOwner (toBe 8 ver) := by
  have hn : namespaceOf (versionOwner.bytes ++ toBe 8 ver) =
      some (.versionOwner, toBe 8 ver) := by
    unfold namespaceOf
    simp only [isPrefixOf?_bytes]
    rfl
  rw [versionOwnerKey, versionOwnerPrefix, append_assoc]
  simp [recordFamily, hn]

theorem appendVersionOwnerMarkers_eq (layout : KeyEncodingLayout) (db : Nat) (batch : WriteBatch) :
    ∃ markers : WriteBatch, appendVersionOwnerMarkers layout db batch = batch ++ markers ∧
      (∀ op ∈ markers, op.writeType = .put ∧ ∃ ver, op.key = versionOwnerKey db ver) ∧
      (markers ≠ [] → ∃ op ∈ batch, (versionOwnerOfOp layout db op).isSome) := by
  have hfold : ∀ (owners : List (Bytes × Nat × UInt8)) (b : WriteBatch),
      ∃ markers : WriteBatch, owners.foldl
          (fun b owner => putVersionOwnerToBatch b db owner.1 owner.2.1 owner.2.2) b =
            b ++ markers ∧
        (∀ op ∈ markers, op.writeType = .put ∧
          ∃ ver, op.key = versionOwnerKey db ver) ∧
        (markers ≠ [] → owners ≠ []) := by
    intro owners
    induction owners with
    | nil => intro b; exact ⟨[], by simp⟩
    | cons owner owners ih =>
      intro b
      obtain ⟨markers, he, hput, -⟩ := ih (putVersionOwnerToBatch b db owner.1 owner.2.1 owner.2.2)
      rw [foldl_cons, he]
      unfold putVersionOwnerToBatch
      split
      · exact ⟨markers, rfl, hput, by simp⟩
      · refine ⟨⟨.put, versionOwnerKey db owner.2.1,
          versionOwnerValueVersion :: owner.2.2 :: owner.1⟩ :: markers, ?_, ?_, by simp⟩
        · simp [WriteBatch.put]
        · intro op hop
          rcases mem_cons.mp hop with rfl | hop
          · exact ⟨rfl, _, rfl⟩
          · exact hput op hop
  obtain ⟨markers, he, hput, hne⟩ := hfold (batch.filterMap (versionOwnerOfOp layout db)) batch
  refine ⟨markers, he, hput, fun hm => ?_⟩
  obtain ⟨owner, hmem⟩ := exists_mem_of_ne_nil _ (hne hm)
  obtain ⟨op, hop, hsome⟩ := mem_filterMap.mp hmem
  exact ⟨op, hop, by simp [hsome]⟩

theorem any_reports_appendVersionOwnerMarkers (db : Nat) (key : Bytes) (batch : WriteBatch) :
    (appendVersionOwnerMarkers .current db batch).any (·.reports db key) =
      batch.any (·.reports db key) := by
  obtain ⟨markers, he, hput, -⟩ := appendVersionOwnerMarkers_eq .current db batch
  have hm : markers.any (·.reports db key) = false := by
    rw [any_eq_false]
    intro op hop
    obtain ⟨hw, ver, hkey⟩ := hput op hop
    simp [BatchOp.reports, hw, hkey, recordFamily_versionOwnerKey, reportedKey,
      Namespace.isTracked]
  rw [he, any_append, hm, Bool.or_false]

end Onedis.Store
