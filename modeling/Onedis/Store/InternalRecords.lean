import Onedis.Store.TtlIndex
import Onedis.Store.ValueCodec

/-!
# client の key と内部の record

内部の raw key は `0x80` か `0xfe` で始まり、UTF-8 の文字列はどちらでも始まらない。ただし key を文字列に
直さずに受け取る経路がある。

* `mainKey_separate_iff` — 経路ごとの、衝突しない条件
-/

namespace Onedis.Store

open Infra KeyEncodingLayout

/-! ## 内部の record -/

/-- 内部の record の raw key の形。 -/
inductive InternalRecord
  | sub (ns : Namespace) (versioned : ns.isVersioned = true) (owner : Text) (ver : UInt64)
      (suffix : Bytes)
  | fulltext (ns : Namespace) (kind : ns ∈ [Namespace.fulltextMeta, .fulltextFile, .fulltextOutbox])
      (suffix : Bytes)
  | versionOwner (ver : UInt64)
  | ttlIndex (expireMs : UInt64) (userKey : Text)
  | layout

def InternalRecord.rawKey (db : Nat) : InternalRecord → Bytes
  | sub ns _ owner ver suffix => subKey .current db ns owner.bytes ver.toNat suffix
  | fulltext ns _ suffix => current.internalPrefix db ++ (ns.bytes ++ suffix)
  | versionOwner ver => versionOwnerKey db ver.toNat
  | ttlIndex expireMs userKey => ttlIndexKey expireMs.toNat db userKey.bytes
  | layout => keyEncodingLayoutMetaKey

/-! ## 判定 -/

def startsWithOwner (tail : Bytes) : Bool :=
  match decodeOwner tail with
  | none => false
  | some owner =>
    match ((versionedSubKeyOwner owner ++ [0x00]).isPrefixOf? tail : Option Bytes) with
    | none => false
    | some rest => validUtf8 owner && decide (owner.length < 256 ^ 8) && decide (8 ≤ rest.length)

def reservedTail (ns : Namespace) (tail : Bytes) : Bool :=
  if ns.isVersioned then startsWithOwner tail
  else if ns = .versionOwner then tail.length = 8
  else true

def reserved (db : Nat) (key : Bytes) : Bool :=
  key == keyEncodingLayoutMetaKey ||
  (match (tableLocalInternalPrefix.isPrefixOf? key : Option Bytes) with
    | none => false
    | some rest => Namespace.all.any fun ns => (ns.bytes.isPrefixOf? rest).any (reservedTail ns)) ||
  (parseTtlIndexKey key).any fun entry =>
    entry.dbIndex == db && decide (entry.key.length < 256 ^ 8)

theorem toBe_ofNat_ofBe {bs : Bytes} (h : bs.length = 8) :
    toBe 8 (UInt64.ofNat (ofBe bs)).toNat = bs := by
  have hlt : ofBe bs < 2 ^ 64 := (ofBe_lt bs).trans_eq (by rw [h]; rfl)
  have hbytes := toBe_ofBe bs
  rw [h] at hbytes
  rw [UInt64.toNat_ofNat', Nat.mod_eq_of_lt hlt, hbytes]

theorem startsWithOwner_iff (tail : Bytes) :
    startsWithOwner tail = true ↔ ∃ (owner : Text) (ver : UInt64) (suffix : Bytes),
      tail = versionedSubKeyOwner owner.bytes ++ 0x00 :: (toBe 8 ver.toNat ++ suffix) := by
  constructor
  · intro h
    unfold startsWithOwner at h
    split at h
    · cases h
    · next owner _ =>
      split at h
      · cases h
      · next rest hrest =>
        simp only [Bool.and_eq_true, decide_eq_true_eq] at h
        obtain ⟨⟨hvalid, hlen⟩, hversion⟩ := h
        obtain rfl := isPrefixOf?_eq_some.mp hrest
        refine ⟨⟨owner, hvalid, hlen⟩, UInt64.ofNat (ofBe (rest.take 8)), rest.drop 8, ?_⟩
        rw [toBe_ofNat_ofBe (by simp [hversion]), List.take_append_drop, List.append_assoc]
        rfl
  · rintro ⟨owner, ver, suffix, rfl⟩
    have hpfx : (versionedSubKeyOwner owner.bytes ++ [0x00]).isPrefixOf?
        (versionedSubKeyOwner owner.bytes ++ 0x00 :: (toBe 8 ver.toNat ++ suffix)) =
          some (toBe 8 ver.toNat ++ suffix) := by
      rw [isPrefixOf?_eq_some, List.append_assoc]
      rfl
    have hdecode := (Owner.ofUtf8 owner).decodeOwner_bytes (toBe 8 ver.toNat ++ suffix)
    have hbytes : (Owner.ofUtf8 owner).bytes = owner.bytes := rfl
    rw [hbytes] at hdecode
    rw [startsWithOwner, hdecode]
    simp only [hpfx, owner.valid, owner.lengthLt, decide_true, Bool.true_and, decide_eq_true_eq,
      List.length_append, length_toBe]
    omega

open InternalRecord

theorem exists_record_of_tail (db : Nat) {ns : Namespace} {tail : Bytes}
    (h : reservedTail ns tail = true) : ∃ record : InternalRecord,
      record.rawKey db = tableLocalInternalPrefix ++ (ns.bytes ++ tail) := by
  unfold reservedTail at h
  split at h
  · next hversioned =>
    obtain ⟨owner, ver, suffix, rfl⟩ := (startsWithOwner_iff tail).mp h
    exact ⟨.sub ns hversioned owner ver suffix, subKey_eq ..⟩
  · next hversioned =>
    split at h
    · next hns =>
      subst hns
      refine ⟨.versionOwner (UInt64.ofNat (ofBe tail)), ?_⟩
      rw [rawKey, versionOwnerKey, versionOwnerPrefix,
        toBe_ofNat_ofBe (of_decide_eq_true h), List.append_assoc]
      rfl
    · next hns =>
      refine ⟨.fulltext ns ?_ tail, rfl⟩
      revert hversioned hns
      cases ns <;> decide

theorem reserved_of_tail (db : Nat) {ns : Namespace} {tail : Bytes}
    (h : reservedTail ns tail = true) :
    reserved db (tableLocalInternalPrefix ++ (ns.bytes ++ tail)) = true := by
  have hany : (Namespace.all.any fun m =>
      (m.bytes.isPrefixOf? (ns.bytes ++ tail)).any (reservedTail m)) = true :=
    List.any_eq_true.mpr ⟨ns, ns.mem_all, by rw [isPrefixOf?_append]; exact h⟩
  simp only [reserved, isPrefixOf?_append, hany, Bool.or_true, Bool.true_or]

/-- **判定は、内部の record の raw key をちょうど拾う。** -/
theorem reserved_iff {db : Nat} (hd : db < 256 ^ 2) (key : Bytes) :
    reserved db key = true ↔ ∃ record : InternalRecord, record.rawKey db = key := by
  constructor
  · intro h
    simp only [reserved, Bool.or_eq_true, beq_iff_eq] at h
    rcases h with (rfl | hsub) | httl
    · exact ⟨.layout, rfl⟩
    · split at hsub
      · cases hsub
      · next rest hrest =>
        obtain rfl := isPrefixOf?_eq_some.mp hrest
        obtain ⟨ns, -, hns⟩ := List.any_eq_true.mp hsub
        obtain ⟨tail, htail, hreserved⟩ := (Option.any_eq_true _ _).mp hns
        obtain rfl := isPrefixOf?_eq_some.mp htail
        exact exists_record_of_tail db hreserved
    · obtain ⟨entry, hentry, hcheck⟩ := (Option.any_eq_true _ _).mp httl
      simp only [Bool.and_eq_true, beq_iff_eq, decide_eq_true_eq] at hcheck
      obtain ⟨rfl, hlen⟩ := hcheck
      obtain ⟨hkey, hexpire, -, hvalid⟩ := eq_ttlIndexKey_of_parse hentry
      refine ⟨.ttlIndex (UInt64.ofNat entry.expireMs) ⟨entry.key, hvalid, hlen⟩, ?_⟩
      have hfits : (UInt64.ofNat entry.expireMs).toNat = entry.expireMs := by
        rw [UInt64.toNat_ofNat']
        exact Nat.mod_eq_of_lt hexpire
      rw [rawKey, hfits]
      exact hkey.symm
  · rintro ⟨record, rfl⟩
    cases record with
    | sub ns hns owner ver suffix =>
      rw [rawKey, subKey_eq]
      refine reserved_of_tail db ?_
      rw [reservedTail, if_pos hns]
      exact (startsWithOwner_iff _).mpr ⟨owner, ver, suffix, rfl⟩
    | fulltext ns hns suffix =>
      refine reserved_of_tail db ?_
      revert hns
      cases ns <;> simp [reservedTail, Namespace.isVersioned]
    | versionOwner ver =>
      rw [rawKey, versionOwnerKey, versionOwnerPrefix, List.append_assoc]
      refine reserved_of_tail db ?_
      simp [reservedTail, Namespace.isVersioned]
    | ttlIndex expireMs userKey =>
      have hparse := parseTtlIndexKey_ttlIndexKey expireMs.toNat_lt hd userKey.valid
      simp only [reserved, rawKey, hparse, Option.any_some, beq_self_eq_true,
        userKey.lengthLt, decide_true, Bool.and_self, Bool.or_true]
    | layout => rfl

/-! ## client の key -/

/-- client の key が raw key になるまでの経路。 -/
inductive KeyPath
  | text
  | plainSet
  | byteRead
  deriving DecidableEq

def KeyPath.admits : KeyPath → Bytes → Bool
  | text, key => validUtf8 key
  | plainSet, _ | byteRead, _ => true

theorem InternalRecord.head_rawKey (db : Nat) (record : InternalRecord) :
    (record.rawKey db).head? = some 0x80 ∨ (record.rawKey db).head? = some 0xfe := by
  cases record with
  | sub ns hns owner ver suffix =>
    rw [rawKey, subKey_eq]
    exact .inl rfl
  | ttlIndex => exact .inr rfl
  | _ => exact .inl rfl

/--
**client の key が内部の record と衝突しない条件。** 文字列の key では起きず、byte 列のまま受け取る経路
では、key が内部の raw key でないときに限って衝突しない。
-/
theorem mainKey_separate_iff {db : Nat} (hd : db < 256 ^ 2) {path : KeyPath} {key : Bytes}
    (hadmits : path.admits key = true) :
    (∀ record : InternalRecord, current.mainKeyBytes db key ≠ record.rawKey db) ↔
      (path = .text ∨ reserved db key = false) := by
  constructor
  · intro hseparate
    refine .inr (Bool.eq_false_iff.mpr fun hreserved => ?_)
    obtain ⟨record, hrecord⟩ := (reserved_iff hd key).mp hreserved
    exact hseparate record hrecord.symm
  · rintro (rfl | hfree) record
    · intro heq
      have hkey : key = record.rawKey db := heq
      have hlead := (validUtf8_spec hadmits).1
      rw [hkey] at hlead
      rcases record.head_rawKey db with hhead | hhead
      · exact absurd (hlead _ hhead) (by decide)
      · exact absurd (hlead _ hhead) (by decide)
    · intro heq
      exact absurd ((reserved_iff hd key).mpr ⟨record, heq.symm⟩) (by simp [hfree])

/-! ## layout の印の上書き -/

/-- `b"db-prefixed-v1"` -/
def dbPrefixedV1LayoutValue : Bytes :=
  [0x64, 0x62, 0x2d, 0x70, 0x72, 0x65, 0x66, 0x69, 0x78, 0x65, 0x64, 0x2d, 0x76, 0x31]

/-- `b"table-local-v2"` -/
def tableLocalV2LayoutValue : Bytes :=
  [0x74, 0x61, 0x62, 0x6c, 0x65, 0x2d, 0x6c, 0x6f, 0x63, 0x61, 0x6c, 0x2d, 0x76, 0x32]

def KeyEncodingLayout.decode (raw : Bytes) : Option KeyEncodingLayout :=
  if raw = dbPrefixedV1LayoutValue then some .dbPrefixedV1
  else if raw = tableLocalV2LayoutValue then some .tableLocalV2
  else none

namespace LayoutOverwrite

/-- 一つの `SET` が書く batch。期限も古い record もない場合。 -/
def setBatch (key value : Bytes) : WriteBatch :=
  WriteBatch.put [] (current.mainKeyBytes 0 key) (Codec.encodeRawString value 0)

theorem set_overwrites_layout : KeyPath.plainSet.admits keyEncodingLayoutMetaKey = true ∧
      (setBatch keyEncodingLayoutMetaKey [0x78]).any
        (fun op => op.key == layout.rawKey 0 &&
          (decode op.value).isNone) = true ∧
      ¬ ∀ record : InternalRecord,
        current.mainKeyBytes 0 keyEncodingLayoutMetaKey ≠ record.rawKey 0 :=
  ⟨rfl, by decide, fun h => h .layout rfl⟩

theorem binary_key_separate : validUtf8 [0x80, 0x6b] = false ∧ ∀ record : InternalRecord,
    current.mainKeyBytes 0 [0x80, 0x6b] ≠ record.rawKey 0 :=
  ⟨by decide,
    (@mainKey_separate_iff 0 (by decide) .plainSet [0x80, 0x6b] rfl).mpr (.inr (by decide))⟩

end LayoutOverwrite

end Onedis.Store
