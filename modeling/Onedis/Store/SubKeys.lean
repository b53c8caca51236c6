import Onedis.Store.WriteBatch

/-!
# sub record の raw key と範囲

collection の要素は、名前空間、owner、version、suffix の四つ組ごとに一つの raw key を持つ。削除も走査も owner と
version の範囲で行う。

* `subKey_exact` — 符号化は単射で、範囲に他の key の record は混ざらない
-/

namespace Onedis.Store

open Infra KeyEncodingLayout Namespace List TypeTag

/-! ## 文字列としての key -/

/-- Rust の `&str`。長さは `usize` に収まる。 -/
structure Text where
  bytes : Bytes
  valid : validUtf8 bytes = true
  lengthLt : bytes.length < 256 ^ 8

instance : DecidableEq Text := fun a b =>
  decidable_of_iff (a.bytes = b.bytes) ⟨fun h => by cases a; cases b; cases h; rfl, congrArg _⟩

def Text.ofByte (b : UInt8) (h : validUtf8 [b] = true) : Text := ⟨[b], h, by simp⟩

theorem Text.not_mem_marker (t : Text) : (0xff : UInt8) ∉ t.bytes := fun h =>
  absurd (validUtf8_le t.valid h) (by decide)

def Text.toKey (t : Text) : Key where
  bytes := t.bytes
  noMarker := t.not_mem_marker
  headNotInternal := fun h => by
    rcases (validUtf8_spec t.valid).1 _ h with hlt | hle
    · exact absurd hlt (by decide)
    · exact absurd hle.1 (by decide)
  lengthLt := t.lengthLt

def Owner.ofUtf8 (t : Text) : Owner := t.toKey.toOwner

/-! ## 単射 -/

section

variable {layout : KeyEncodingLayout} {db : Nat} {ns ns' : Namespace} {k k' : Owner}
  {ver version' : Nat} {suffix suffix' : Bytes}

theorem Namespace.bytes_append_inj {rest rest' : Bytes}
    (h : ns.bytes ++ rest = ns'.bytes ++ rest') : ns = ns' ∧ rest = rest' := by
  have hpfx := ns'.isPrefixOf?_bytes ns rest
  rw [h, isPrefixOf?_append] at hpfx
  by_cases hns : ns' = ns
  · subst hns
    exact ⟨rfl, append_cancel_left h⟩
  · rw [if_neg hns] at hpfx
    cases hpfx

/-- **四つ組が違えば raw key も違う。** -/
theorem subKey_injective (hv : ver < 256 ^ 8) (hv' : version' < 256 ^ 8)
    (h : subKey layout db ns k.bytes ver suffix = subKey layout db ns' k'.bytes version' suffix') :
    ns = ns' ∧ k = k' ∧ ver = version' ∧ suffix = suffix' := by
  rw [subKey_eq, subKey_eq] at h
  obtain ⟨rfl, howner⟩ := bytes_append_inj (append_cancel_left h)
  have hk : k = k' := by
    have hdecode := k.decodeOwner_bytes (toBe 8 ver ++ suffix)
    rw [howner, k'.decodeOwner_bytes] at hdecode
    exact Owner.ext_bytes (Option.some.inj hdecode).symm
  subst hk
  have htail := tail_eq_of_cons_eq (append_cancel_left howner)
  obtain ⟨hversion, hsuffix⟩ := append_inj htail (by simp)
  exact ⟨rfl, rfl, toBe_injective hv hv' hversion, hsuffix⟩

/-- `Owner` の条件は落とせない。`0xff` 一つの owner は、`NUL` 一つの owner と同じ raw key を作る。 -/
example : subKey .current 0 .hashField [0xff] 256 (0x00 :: toBe 8 1) =
    subKey .current 0 .hashField [0x00] 1 [] := by decide

/-! ## 範囲 -/

theorem subKeyRangeStart_mem_tag (layout : KeyEncodingLayout) (db : Nat) (ns : Namespace)
    (k : Owner) (ver : Nat) :
    ns.tag ∈ layout.subKeyRangeStartBytes db ns k.bytes ver := by
  simp [subKeyRangeStartBytes, bytes]

theorem Namespace.tag_ne_max (ns : Namespace) : ns.tag ≠ 255 := by cases ns <;> decide

/-- **範囲に入る raw key は、その owner と version の sub key だけである。** -/
theorem inRange_subKey_iff (raw : Bytes) : inRange (layout.subKeyRangeStartBytes db ns k.bytes ver)
        (layout.subKeyRangeEndBytes db ns k.bytes ver) raw = true ↔
      ∃ suffix, raw = subKey layout db ns k.bytes ver suffix := by
  obtain ⟨stop, hstop⟩ := Option.isSome_iff_exists.mp
    (upperBound_isSome (subKeyRangeStart_mem_tag layout db ns k ver) ns.tag_ne_max)
  unfold subKeyRangeEndBytes
  rw [hstop, Option.getD_some, inRange_prefix_iff hstop]
  constructor
  · rintro ⟨suffix, rfl⟩
    exact ⟨suffix, rfl⟩
  · rintro ⟨suffix, rfl⟩
    exact ⟨suffix, rfl⟩

end

/-! ## 削除 -/

def subKeyNamespaces (typeTag : UInt8) : List Namespace :=
  if typeTag = hash.code then [.hashField, .hashFieldExpire]
  else if typeTag = set.code then [.setMember]
  else if typeTag = sortedSet.code then [.zsetMember, .zsetRank]
  else if typeTag = list.code then [.listItem]
  else if typeTag = stream.code then
    [.streamEntry, .streamGroup, .streamPel, .streamConsumer]
  else if typeTag = json.code then [.jsonNode]
  else if typeTag = vector.code then
    [.vectorMeta, .vectorDoc, .vectorTag, .vectorNumeric, .vectorSegment, .vectorGraph]
  else []

def deleteSubKeyRange (db : Nat) (key : Bytes) (ver : Nat) (batch : WriteBatch)
    (ns : Namespace) : WriteBatch :=
  batch.deleteRange (current.subKeyRangeStartBytes db ns key ver)
    (current.subKeyRangeEndBytes db ns key ver)

def deleteSubKeysToBatch (batch : WriteBatch) (db : Nat) (key : Bytes) (ver : Nat)
    (typeTag : UInt8) : WriteBatch :=
  (subKeyNamespaces typeTag).foldl (deleteSubKeyRange db key ver)
    (if typeTag = json.code then
      batch.delete (current.subKeyRangeStartBytes db .jsonNode key ver)
    else batch)

def BatchOp.deletes (op : BatchOp) (raw : Bytes) : Bool :=
  match op.writeType with
  | .delete => op.key == raw
  | .rangeDelete => inRange op.key op.value raw
  | _ => false

def WriteBatch.deletes (batch : WriteBatch) (raw : Bytes) : Bool := batch.any (·.deletes raw)

theorem deletes_foldl_deleteSubKeyRange (db : Nat) (key : Bytes) (ver : Nat)
    (nss : List Namespace) (batch : WriteBatch) (raw : Bytes) :
    WriteBatch.deletes (nss.foldl (deleteSubKeyRange db key ver) batch) raw = true ↔
      batch.deletes raw = true ∨ ∃ ns ∈ nss, inRange (current.subKeyRangeStartBytes db ns key ver)
          (current.subKeyRangeEndBytes db ns key ver) raw = true := by
  induction nss generalizing batch with
  | nil => simp
  | cons ns nss ih =>
    rw [foldl_cons, ih]
    have hone : (deleteSubKeyRange db key ver batch ns).deletes raw = true ↔
        batch.deletes raw = true ∨
          inRange (current.subKeyRangeStartBytes db ns key ver)
            (current.subKeyRangeEndBytes db ns key ver) raw = true := by
      simp [deleteSubKeyRange, WriteBatch.deleteRange, WriteBatch.deletes, BatchOp.deletes]
    rw [hone, or_assoc]
    simp

theorem deletes_iff (db : Nat) (k : Owner) (ver : Nat) (typeTag : UInt8) (raw : Bytes) :
    (deleteSubKeysToBatch [] db k.bytes ver typeTag).deletes raw = true ↔
      ∃ ns ∈ subKeyNamespaces typeTag, ∃ suffix,
        raw = subKey .current db ns k.bytes ver suffix := by
  unfold deleteSubKeysToBatch
  rw [deletes_foldl_deleteSubKeyRange]
  simp only [inRange_subKey_iff]
  refine ⟨?_, .inr⟩
  rintro (hpoint | hrange)
  · -- 始端の record は、suffix が空の sub key である
    split at hpoint
    · next htag =>
      subst htag
      refine ⟨.jsonNode, by decide, [], ?_⟩
      have hraw : current.subKeyRangeStartBytes db .jsonNode k.bytes ver
          = raw := by
        simpa [WriteBatch.delete, WriteBatch.deletes, BatchOp.deletes] using hpoint
      rw [← hraw, subKey, append_nil]
    · cases hpoint
  · exact hrange

theorem deletesSubKey_iff {db : Nat} {ns : Namespace} {k k' : Owner} {ver version' : Nat}
    (hv : ver < 256 ^ 8) (hv' : version' < 256 ^ 8) (typeTag : UInt8) (suffix : Bytes) :
    (deleteSubKeysToBatch [] db k.bytes ver typeTag).deletes
        (subKey .current db ns k'.bytes version' suffix) = true ↔
      k = k' ∧ ver = version' ∧ ns ∈ subKeyNamespaces typeTag := by
  rw [deletes_iff]
  constructor
  · rintro ⟨ns', hns, suffix', hraw⟩
    obtain ⟨rfl, rfl, rfl, rfl⟩ := subKey_injective hv' hv hraw
    exact ⟨rfl, rfl, hns⟩
  · rintro ⟨rfl, rfl, hns⟩
    exact ⟨ns, hns, suffix, rfl⟩

theorem not_deletes_mainKey (db : Nat) (k : Owner) (ver : Nat) (typeTag : UInt8) (main : Key) :
    (deleteSubKeysToBatch [] db k.bytes ver typeTag).deletes
      (current.mainKeyBytes db main.bytes) = false := by
  rw [Bool.eq_false_iff, ne_eq, deletes_iff]
  rintro ⟨ns, -, suffix, hraw⟩
  have hmain : main.bytes = 0x80 :: (ns.bytes ++ (versionedSubKeyOwner k.bytes ++
      0x00 :: (toBe 8 ver ++ suffix))) := hraw.trans (subKey_eq ..)
  exact main.headNotInternal (by rw [hmain]; rfl)

/-! ## 復号 -/

def hashFieldKeyFromRawSubKey (layout : KeyEncodingLayout) (db : Nat) (rawKey : Bytes) :
    Option Bytes :=
  match ((layout.internalPrefix db).isPrefixOf? rawKey : Option Bytes) with
  | none => none
  | some rest =>
    if hashField.bytes.isPrefixOf rest then some rawKey
    else if hashFieldExpire.bytes.isPrefixOf rest then
      some (rawKey.set ((layout.internalPrefix db).length + 1) 0x68)
    else none

theorem Namespace.isPrefixOf_bytes (m n : Namespace) (rest : Bytes) :
    m.bytes.isPrefixOf (n.bytes ++ rest) = decide (m = n) := by
  have h := isPrefixOf?_bytes m n rest
  by_cases hmn : m = n
  · subst hmn
    simp [ isPrefixOf_iff_prefix]
  · rw [decide_eq_false hmn, Bool.eq_false_iff, ne_eq, isPrefixOf_iff_prefix]
    rintro ⟨suffix, hsuffix⟩
    rw [if_neg hmn, ← hsuffix, isPrefixOf?_append] at h
    cases h

theorem hashFieldKeyFromRawSubKey_subKey (layout : KeyEncodingLayout) (db : Nat)
    (ns : Namespace) (key : Bytes) (ver : Nat) (suffix : Bytes) :
    hashFieldKeyFromRawSubKey layout db (subKey layout db ns key ver suffix) =
      if ns ∈ [hashField, .hashFieldExpire] then
        some (subKey layout db .hashField key ver suffix)
      else none := by
  unfold hashFieldKeyFromRawSubKey
  rw [subKey_eq, isPrefixOf?_append]
  simp only [isPrefixOf_bytes, decide_eq_true_eq]
  by_cases hfield : hashField = ns
  · subst hfield
    simp [subKey_eq]
  · by_cases hexpire : hashFieldExpire = ns
    · subst hexpire
      simp only [reduceCtorEq, if_false, if_true, mem_cons, not_mem_nil, or_false,
        or_true]
      rw [subKey_eq, set_append_right _ _ (by omega)]
      simp [bytes, tag, sub]
    · rw [if_neg hfield, if_neg hexpire, if_neg]
      simp [Ne.symm hfield, Ne.symm hexpire]

/-! ## まとめ -/

/--
**sub record の符号化は単射で、範囲は過不足がない。** 三つの復号器は対象の名前空間の sub key から owner を
読み戻し、key を消す batch が消すのは、その owner と version の sub record だけである。
-/
theorem subKey_exact (layout : KeyEncodingLayout) (db : Nat) :
    (∀ (ns ns' : Namespace) (k k' : Owner) (ver version' : Nat) (suffix suffix' : Bytes),
      ver < 256 ^ 8 → version' < 256 ^ 8 →
      subKey layout db ns k.bytes ver suffix = subKey layout db ns' k'.bytes version' suffix' →
      ns = ns' ∧ k = k' ∧ ver = version' ∧ suffix = suffix') ∧
    (∀ (ns : Namespace) (k : Owner) (ver : Nat) (raw : Bytes),
      inRange (layout.subKeyRangeStartBytes db ns k.bytes ver)
          (layout.subKeyRangeEndBytes db ns k.bytes ver) raw = true ↔
        ∃ suffix, raw = subKey layout db ns k.bytes ver suffix) ∧
    (∀ (ns : Namespace) (k : Owner) (ver : Nat) (suffix : Bytes),
      let raw := subKey layout db ns k.bytes ver suffix
      hashOwnerFromRawSubKey layout db raw =
          (if ns ∈ [hashField, .hashFieldExpire] then some k.bytes else none) ∧
        zsetOwnerFromRawSubKey layout db raw =
          (if ns ∈ [zsetMember, .zsetRank] then some k.bytes else none) ∧
        jsonOwnerFromRawSubKey layout db raw =
          (if ns ∈ [jsonNode] then some k.bytes else none) ∧
        hashFieldKeyFromRawSubKey layout db raw =
          (if ns ∈ [hashField, .hashFieldExpire] then
            some (subKey layout db .hashField k.bytes ver suffix) else none)) ∧
    (∀ (ns : Namespace) (k k' : Owner) (ver version' : Nat) (typeTag : UInt8)
      (suffix : Bytes), ver < 256 ^ 8 → version' < 256 ^ 8 →
      ((deleteSubKeysToBatch [] db k.bytes ver typeTag).deletes
          (subKey .current db ns k'.bytes version' suffix) = true ↔
        k = k' ∧ ver = version' ∧ ns ∈ subKeyNamespaces typeTag)) ∧
    ∀ (k : Owner) (ver : Nat) (typeTag : UInt8) (main : Key),
      (deleteSubKeysToBatch [] db k.bytes ver typeTag).deletes
        (current.mainKeyBytes db main.bytes) = false :=
  ⟨fun _ _ _ _ _ _ _ _ hv hv' h => subKey_injective hv hv' h,
    fun _ _ _ raw => inRange_subKey_iff raw,
    fun ns k ver suffix =>
      ⟨k.ownerFromRawSubKey_bytes _ layout db ns ver suffix,
        k.ownerFromRawSubKey_bytes _ layout db ns ver suffix,
        k.ownerFromRawSubKey_bytes _ layout db ns ver suffix,
        hashFieldKeyFromRawSubKey_subKey layout db ns k.bytes ver suffix⟩,
    fun _ _ _ _ _ typeTag suffix hv hv' => deletesSubKey_iff hv hv' typeTag suffix,
    fun k ver typeTag main => not_deletes_mainKey db k ver typeTag main⟩

namespace NulOwner

/-- `NUL` を一つ含む key と、その符号化と同じ byte で始まる `NUL` つきの key。 -/
def nul : Owner := ⟨[0x00], by decide, by decide⟩

def marked : Owner := ⟨[0xff, 0x00], by decide, by decide⟩

theorem nul_marked_separate : subKey .current 0 .hashField nul.bytes 1 [0x66] ≠
        subKey .current 0 .hashField marked.bytes 1 [0x66] ∧
      (deleteSubKeysToBatch [] 0 nul.bytes 1 hash.code).deletes
        (subKey .current 0 .hashField marked.bytes 1 [0x66]) = false := by
  obtain ⟨hinj, -, -, hdelete, -⟩ := subKey_exact .current 0
  have hne : nul ≠ marked := by decide
  constructor
  · intro h
    exact hne (hinj _ _ nul marked 1 1 _ _ (by decide) (by decide) h).2.1
  · rw [Bool.eq_false_iff, ne_eq,
      hdelete .hashField nul marked 1 1 hash.code [0x66] (by decide) (by decide)]
    exact fun h => hne h.1

end NulOwner

end Onedis.Store
