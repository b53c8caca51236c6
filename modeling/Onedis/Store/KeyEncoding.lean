import Onedis.Infra.Bytes

/-!
# key の符号化

`store/db/key_encoding.rs` の写し。sub record の raw key は

  `internal prefix ++ 名前空間 3 byte ++ owner ++ 0x00 ++ version 8 byte ++ suffix`

の形で、owner は、`NUL` を含まない key では byte 列そのもの、含む key では `0xff` と長さを前置した列である。
-/

namespace Onedis.Store

open Infra List

/-! ## 名前空間 -/

/-- 内部の record の種類。 -/
inductive Namespace
  | hashField | hashFieldExpire | listItem | setMember | zsetMember | zsetRank
  | streamEntry | streamGroup | streamPel | streamConsumer | jsonNode
  | fulltextMeta | fulltextFile | fulltextOutbox
  | vectorMeta | vectorDoc | vectorTag | vectorNumeric | vectorSegment | vectorGraph
  | versionOwner
  deriving DecidableEq, Repr

namespace Namespace

def tag : Namespace → UInt8
  | hashField => 0x68        -- 'h'
  | hashFieldExpire => 0x48  -- 'H'
  | listItem => 0x6c         -- 'l'
  | setMember => 0x73        -- 's'
  | zsetMember => 0x7a       -- 'z'
  | zsetRank => 0x5a         -- 'Z'
  | streamEntry => 0x78      -- 'x'
  | streamGroup => 0x67      -- 'g'
  | streamPel => 0x70        -- 'p'
  | streamConsumer => 0x63   -- 'c'
  | jsonNode => 0x6a         -- 'j'
  | fulltextMeta | fulltextFile | fulltextOutbox => 0x66  -- 'f'
  | vectorMeta | vectorDoc | vectorTag | vectorNumeric | vectorSegment | vectorGraph => 0x76 -- 'v'
  | versionOwner => 0x6f     -- 'o'

def sub : Namespace → UInt8
  | fulltextFile | vectorDoc => 1
  | fulltextOutbox | vectorTag => 2
  | vectorNumeric => 3
  | vectorSegment => 4
  | vectorGraph => 5
  | _ => 0

def bytes (ns : Namespace) : Bytes := [0xff, ns.tag, ns.sub]

def isVersioned : Namespace → Bool
  | fulltextMeta | fulltextFile | fulltextOutbox | versionOwner => false
  | _ => true

def all : List Namespace :=
  [hashField, hashFieldExpire, listItem, setMember, zsetMember, zsetRank, streamEntry,
    streamGroup, streamPel, streamConsumer, jsonNode, fulltextMeta, fulltextFile,
    fulltextOutbox, vectorMeta, vectorDoc, vectorTag, vectorNumeric, vectorSegment,
    vectorGraph, versionOwner]

theorem mem_all (ns : Namespace) : ns ∈ all := by cases ns <;> decide

theorem tag_sub_injective {m n : Namespace} (ht : m.tag = n.tag) (hs : m.sub = n.sub) : m = n := by
  revert ht hs
  cases m <;> cases n <;> decide

theorem isPrefixOf?_bytes (m n : Namespace) (rest : Bytes) :
    m.bytes.isPrefixOf? (n.bytes ++ rest) = if m = n then some rest else none := by
  by_cases h : m = n
  · subst h
    simp
  · rw [if_neg h]
    by_cases ht : m.tag = n.tag
    · have hs : m.sub ≠ n.sub := fun hs => h (tag_sub_injective ht hs)
      simp [bytes, isPrefixOf?, ht, hs]
    · simp [bytes, isPrefixOf?, ht]

end Namespace

def isKnownSubkeyNamespace (rest : Bytes) : Bool :=
  Namespace.all.any fun ns => ns.bytes.isPrefixOf rest

/-! ## logical key -/

/--
logical key の byte 列。使うのは、`0xff` が現れず、`0x80` では始まらないことと、長さが `usize` に収まる
ことだけである。
-/
structure Key where
  bytes : Bytes
  noMarker : (0xff : UInt8) ∉ bytes
  headNotInternal : bytes.head? ≠ some 0x80
  lengthLt : bytes.length < 256 ^ 8
  deriving DecidableEq

theorem Key.ext_bytes {k k' : Key} (h : k.bytes = k'.bytes) : k = k' := by
  cases k; cases k'; simp_all

/-! ## layout -/

/-- 保存形式。`dbPrefixedV1` は db 番号を前置する古い形式。 -/
inductive KeyEncodingLayout
  | dbPrefixedV1
  | tableLocalV2
  deriving DecidableEq, Repr
open KeyEncodingLayout

def tableLocalInternalPrefix : Bytes := [0x80]

/-- `b"\x80m\x00layout"` -/
def keyEncodingLayoutMetaKey : Bytes := [0x80, 0x6d, 0x00, 0x6c, 0x61, 0x79, 0x6f, 0x75, 0x74]

def nulKeyEncodingMarker : UInt8 := 0xff

def versionedSubKeyOwner (key : Bytes) : Bytes :=
  if key.contains 0 then nulKeyEncodingMarker :: (toBe 8 key.length ++ key) else key

/-- sub record の持ち主になれる byte 列。`NUL` を含まず `0xff` で始まる列だけを除く。 -/
structure Owner where
  bytes : Bytes
  separable : bytes.contains 0 = true ∨ bytes.head? ≠ some nulKeyEncodingMarker
  lengthLt : bytes.length < 256 ^ 8
  deriving DecidableEq

theorem Owner.ext_bytes {k k' : Owner} (h : k.bytes = k'.bytes) : k = k' := by
  cases k; cases k'; simp_all

def Key.toOwner (k : Key) : Owner where
  bytes := k.bytes
  separable := .inr fun h => k.noMarker (mem_of_mem_head? h)
  lengthLt := k.lengthLt

namespace KeyEncodingLayout

def current : KeyEncodingLayout := tableLocalV2

def dbPrefix : KeyEncodingLayout → Nat → Bytes
  | dbPrefixedV1, db => toBe 2 db
  | tableLocalV2, _ => []

def internalPrefix : KeyEncodingLayout → Nat → Bytes
  | dbPrefixedV1, db => dbPrefix dbPrefixedV1 db
  | tableLocalV2, _ => tableLocalInternalPrefix

def mainKeyBytes (layout : KeyEncodingLayout) (db : Nat) (key : Bytes) : Bytes :=
  layout.dbPrefix db ++ key

def subKeyRangeStartBytes (layout : KeyEncodingLayout) (db : Nat) (ns : Namespace)
    (key : Bytes) (ver : Nat) : Bytes :=
  layout.internalPrefix db ++
    (ns.bytes ++ (versionedSubKeyOwner key ++ 0x00 :: toBe 8 ver))

/-- sub record の範囲の終端。先頭の byte が `0xff` になる db 番号は無いので、上界は必ずある。 -/
def subKeyRangeEndBytes (layout : KeyEncodingLayout) (db : Nat) (ns : Namespace)
    (key : Bytes) (ver : Nat) : Bytes :=
  (upperBound (layout.subKeyRangeStartBytes db ns key ver)).getD []

def isDbRangeDeleteStart (layout : KeyEncodingLayout) (db : Nat) (key : Bytes) : Bool :=
  key == layout.dbPrefix db

def logicalMainKeyFromRawKey (layout : KeyEncodingLayout) (db : Nat) (key : Bytes) :
    Option Bytes :=
  match layout with
  | dbPrefixedV1 =>
    match ((layout.internalPrefix db).isPrefixOf? key : Option Bytes) with
    | none => none
    | some rest => if isKnownSubkeyNamespace rest then none else some rest
  | tableLocalV2 =>
    if key = keyEncodingLayoutMetaKey then none
    else
      match ((layout.internalPrefix db).isPrefixOf? key : Option Bytes) with
      | some rest => if isKnownSubkeyNamespace rest then none else some key
      | none => some key

end KeyEncodingLayout

/-! ## owner の復号 -/

def decodeOwner (encodedOwner : Bytes) : Option Bytes :=
  if encodedOwner.head? = some nulKeyEncodingMarker then
    if encodedOwner.length < 9 then none
    else
      let len := ofBe ((encodedOwner.drop 1).take 8)
      if encodedOwner.length < 9 + len then none else some ((encodedOwner.drop 9).take len)
  else takeUntil 0 encodedOwner

/-- `nss` のどれかの名前空間にある sub key から owner を読む。 -/
def ownerFromRawSubKey (nss : List Namespace) (layout : KeyEncodingLayout) (db : Nat)
    (rawKey : Bytes) : Option Bytes := do
  let rest ← (layout.internalPrefix db).isPrefixOf? rawKey
  let encodedOwner ← nss.findSome? fun ns => ns.bytes.isPrefixOf? rest
  decodeOwner encodedOwner

def hashOwnerFromRawSubKey : KeyEncodingLayout → Nat → Bytes → Option Bytes :=
  ownerFromRawSubKey [.hashField, .hashFieldExpire]

def zsetOwnerFromRawSubKey : KeyEncodingLayout → Nat → Bytes → Option Bytes :=
  ownerFromRawSubKey [.zsetMember, .zsetRank]

def jsonOwnerFromRawSubKey : KeyEncodingLayout → Nat → Bytes → Option Bytes :=
  ownerFromRawSubKey [.jsonNode]

/-! ## 往復 -/

/-- sub record の raw key。`suffix` は field 名、index など型ごとの部分。 -/
def subKey (layout : KeyEncodingLayout) (db : Nat) (ns : Namespace) (key : Bytes)
    (ver : Nat) (suffix : Bytes) : Bytes :=
  layout.subKeyRangeStartBytes db ns key ver ++ suffix

theorem subKey_eq (layout : KeyEncodingLayout) (db : Nat) (ns : Namespace) (key : Bytes)
    (ver : Nat) (suffix : Bytes) :
    subKey layout db ns key ver suffix = layout.internalPrefix db ++
        (ns.bytes ++ (versionedSubKeyOwner key ++ 0x00 :: (toBe 8 ver ++ suffix))) := by
  simp [subKey, subKeyRangeStartBytes]

theorem head?_ne_marker (k : Key) (rest : Bytes) :
    (k.bytes ++ 0x00 :: rest).head? ≠ some nulKeyEncodingMarker := by
  cases hb : k.bytes with
  | nil => simp [nulKeyEncodingMarker]
  | cons b bs =>
    have hne : b ≠ 0xff := fun he => k.noMarker (by simp [hb, he])
    simpa [nulKeyEncodingMarker] using hne

/-- **符号化した owner は読み戻せる。** -/
theorem Owner.decodeOwner_bytes (k : Owner) (rest : Bytes) :
    decodeOwner (versionedSubKeyOwner k.bytes ++ 0x00 :: rest) = some k.bytes := by
  unfold versionedSubKeyOwner
  by_cases h : k.bytes.contains 0 = true
  · -- 長さを前置した形。長さの 8 byte を読み、その分だけ切り出す
    rw [if_pos h]
    have hlen : ofBe (toBe 8 k.bytes.length) = k.bytes.length := ofBe_toBe k.lengthLt
    have htake : ((toBe 8 k.bytes.length ++ k.bytes ++ 0x00 :: rest).take 8) =
        toBe 8 k.bytes.length := by
      rw [append_assoc]
      exact take_left' (length_toBe 8 _)
    have hdrop : ((toBe 8 k.bytes.length ++ k.bytes ++ 0x00 :: rest).drop 8) =
        k.bytes ++ 0x00 :: rest := by
      rw [append_assoc]
      exact drop_left' (length_toBe 8 _)
    simp only [decodeOwner, cons_append, head?_cons, if_true, drop_succ_cons,
      drop_zero, htake, hlen, hdrop, length_cons, length_append, length_toBe]
    rw [if_neg (by omega), if_neg (by omega), take_left' rfl]
  · rw [if_neg h]
    have h0 : (0 : UInt8) ∉ k.bytes := by simpa using h
    have hhead : (k.bytes ++ 0x00 :: rest).head? ≠ some nulKeyEncodingMarker := by
      have hne := k.separable.resolve_left h
      cases hb : k.bytes with
      | nil => simp [nulKeyEncodingMarker]
      | cons b bs => simpa [hb] using hne
    rw [decodeOwner, if_neg hhead, takeUntil_append h0]

/-- **sub key から owner が読み戻せる。** 対象でない名前空間の sub key は読まれない。 -/
theorem Owner.ownerFromRawSubKey_bytes (nss : List Namespace) (layout : KeyEncodingLayout)
    (db : Nat) (ns : Namespace) (k : Owner) (ver : Nat) (suffix : Bytes) :
    ownerFromRawSubKey nss layout db (subKey layout db ns k.bytes ver suffix) =
      if ns ∈ nss then some k.bytes else none := by
  rw [subKey_eq]
  simp only [ownerFromRawSubKey, isPrefixOf?_append, Option.bind_eq_bind, Option.bind_some,
    Namespace.isPrefixOf?_bytes]
  by_cases h : ns ∈ nss
  · have hf : (nss.findSome? fun m => if m = ns then some
        (versionedSubKeyOwner k.bytes ++ 0x00 :: (toBe 8 ver ++ suffix)) else none) =
        some (versionedSubKeyOwner k.bytes ++ 0x00 :: (toBe 8 ver ++ suffix)) := by
      induction nss with
      | nil => simp at h
      | cons m nss ih =>
        by_cases hm : m = ns
        · simp [hm]
        · simp [hm, ih ((mem_cons.mp h).resolve_left (Ne.symm hm))]
    rw [hf, if_pos h, Option.bind_some, Owner.decodeOwner_bytes]
  · have hf : (nss.findSome? fun m => if m = ns then some
        (versionedSubKeyOwner k.bytes ++ 0x00 :: (toBe 8 ver ++ suffix)) else none) =
        none := by
      rw [findSome?_eq_none_iff]
      intro m hm
      have hne : m ≠ ns := by
        rintro rfl
        exact h hm
      exact if_neg hne
    rw [hf, if_neg h, Option.bind_none]

theorem logicalMainKeyFromRawKey_mainKey (db : Nat) (k : Key) : current.logicalMainKeyFromRawKey db
      (current.mainKeyBytes db k.bytes) = some k.bytes := by
  have hhead := k.headNotInternal
  have hmeta : k.bytes ≠ keyEncodingLayoutMetaKey := by
    intro h
    rw [h] at hhead
    exact hhead rfl
  have hpre : tableLocalInternalPrefix.isPrefixOf? k.bytes = none := by
    cases hb : k.bytes with
    | nil => rfl
    | cons b bs =>
      have hne : b ≠ 0x80 := by simpa [hb] using hhead
      simp [tableLocalInternalPrefix, isPrefixOf?, Ne.symm hne]
  simp [current, mainKeyBytes, dbPrefix,
    logicalMainKeyFromRawKey, internalPrefix, hmeta, hpre]

end Onedis.Store
