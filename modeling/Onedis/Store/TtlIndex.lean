import Onedis.Store.SubKeys

/-!
# TTL index の key

期限のある key は、期限の順に並ぶ index の record を持つ。sweeper は index を先頭から走査する。

* `ttlScan_exact` — 走査に入って読める key は、その db の、期限の来た entry に限り、そのすべてである
-/

namespace Onedis.Store

open Infra List

/-- `b"\xFE\xFFonedis:ttl:"` -/
def ttlIndexPrefix : Bytes :=
  [0xfe, 0xff, 0x6f, 0x6e, 0x65, 0x64, 0x69, 0x73, 0x3a, 0x74, 0x74, 0x6c, 0x3a]

def ttlIndexValue : Bytes := [0x01]

def ttlDbPrefix (db : Nat) : Bytes := ttlIndexPrefix ++ toBe 2 db

/-- `u64` の最大値。 -/
def maxU64 : Nat := 256 ^ 8 - 1

def ttlDbExpireUpperBound (db nowMs : Nat) : Bytes :=
  ttlDbPrefix db ++ toBe 8 (min (nowMs + 1) maxU64)

def ttlIndexKey (expireMs db : Nat) (userKey : Bytes) : Bytes :=
  ttlIndexPrefix ++ toBe 2 db ++ toBe 8 expireMs ++ userKey

/-- index の一件。期限、db、key を持つ。 -/
structure TtlEntry where
  expireMs : Nat
  dbIndex : Nat
  key : Bytes
  deriving DecidableEq, Repr

def parseTtlIndexKey (key : Bytes) : Option TtlEntry :=
  match ttlIndexPrefix.isPrefixOf? key with
  | none => none
  | some suffix =>
    if suffix.length < 10 then none
    else if validUtf8 (suffix.drop 10) then
      some ⟨ofBe ((suffix.drop 2).take 8), ofBe (suffix.take 2), suffix.drop 10⟩
    else none

theorem ttlIndexKey_eq (expireMs db : Nat) (userKey : Bytes) : ttlIndexKey expireMs db userKey =
      ttlIndexPrefix ++ (toBe 2 db ++ (toBe 8 expireMs ++ userKey)) := by
  simp [ttlIndexKey]

theorem ttlIndexKey_eq_dbPrefix (expireMs db : Nat) (userKey : Bytes) :
    ttlIndexKey expireMs db userKey = ttlDbPrefix db ++ (toBe 8 expireMs ++ userKey) :=
  append_assoc ..

/-- **index の key は読み戻せる。** -/
theorem parseTtlIndexKey_ttlIndexKey {expireMs db : Nat} {userKey : Bytes}
    (he : expireMs < 256 ^ 8) (hd : db < 256 ^ 2) (hk : validUtf8 userKey = true) :
    parseTtlIndexKey (ttlIndexKey expireMs db userKey) = some ⟨expireMs, db, userKey⟩ := by
  have hdrop : (toBe 2 db ++ (toBe 8 expireMs ++ userKey)).drop 2 =
      toBe 8 expireMs ++ userKey := drop_left' (length_toBe 2 _)
  have hkey : (toBe 2 db ++ (toBe 8 expireMs ++ userKey)).drop 10 = userKey := by
    rw [show (10 : Nat) = 2 + 8 from rfl, ← drop_drop, hdrop]
    exact drop_left' (length_toBe 8 _)
  unfold parseTtlIndexKey
  rw [ttlIndexKey_eq, isPrefixOf?_append]
  simp only [hdrop, hkey, hk, if_true]
  rw [if_neg (by simp; omega), take_left' (length_toBe 2 _), take_left' (length_toBe 8 _),
    ofBe_toBe he, ofBe_toBe hd]

theorem eq_ttlIndexKey_of_parse {key : Bytes} {entry : TtlEntry}
    (h : parseTtlIndexKey key = some entry) :
    key = ttlIndexKey entry.expireMs entry.dbIndex entry.key ∧ entry.expireMs < 256 ^ 8 ∧
      entry.dbIndex < 256 ^ 2 ∧ validUtf8 entry.key = true := by
  unfold parseTtlIndexKey at h
  split at h
  · cases h
  · next suffix hsuffix =>
    obtain ⟨hlen, h⟩ := Option.ite_none_left_eq_some.mp h
    obtain ⟨hvalid, h⟩ := Option.ite_none_right_eq_some.mp h
    cases h
    obtain rfl := isPrefixOf?_eq_some.mp hsuffix
    have hdb : (suffix.take 2).length = 2 := by simp; omega
    have hexpire : ((suffix.drop 2).take 8).length = 8 := by simp; omega
    refine ⟨?_, ?_, ?_, hvalid⟩
    · rw [ttlIndexKey_eq]
      congr 1
      have h2 := toBe_ofBe (suffix.take 2)
      have h8 := toBe_ofBe ((suffix.drop 2).take 8)
      rw [hdb] at h2
      rw [hexpire] at h8
      rw [h2, h8, show suffix.drop 10 = (suffix.drop 2).drop 8 by rw [drop_drop],
        take_append_drop, take_append_drop]
    · exact (ofBe_lt _).trans_eq (by rw [hexpire])
    · exact (ofBe_lt _).trans_eq (by rw [hdb])

theorem scanned_due {db nowMs : Nat} {key : Bytes} {entry : TtlEntry} (hd : db < 256 ^ 2)
    (hscan : inRange (ttlDbPrefix db) (ttlDbExpireUpperBound db nowMs) key = true)
    (hparse : parseTtlIndexKey key = some entry) :
    entry.dbIndex = db ∧ entry.expireMs ≤ nowMs := by
  simp only [inRange, Bool.and_eq_true, Bool.not_eq_true'] at hscan
  obtain ⟨rest, hkey, hlt⟩ := exists_append_of_bytesLt hscan.1 hscan.2
  obtain ⟨hentry, he, hd', -⟩ := eq_ttlIndexKey_of_parse hparse
  have hbody : toBe 2 entry.dbIndex ++ (toBe 8 entry.expireMs ++ entry.key) =
      toBe 2 db ++ rest := by
    rw [ttlIndexKey_eq, hkey, ttlDbPrefix, append_assoc] at hentry
    exact (append_cancel_left hentry).symm
  obtain ⟨hdb, hrest⟩ := append_inj hbody (by simp)
  refine ⟨toBe_injective hd' hd hdb, ?_⟩
  have hupper : min (nowMs + 1) maxU64 < 256 ^ 8 := by unfold maxU64; omega
  rw [← hrest, bytesLt_toBe he hupper, decide_eq_true_eq] at hlt
  omega

theorem ttlIndexKey_scanned {db nowMs expireMs : Nat} {userKey : Bytes}
    (hdue : expireMs ≤ nowMs) (hnow : nowMs < maxU64) :
    inRange (ttlDbPrefix db) (ttlDbExpireUpperBound db nowMs)
      (ttlIndexKey expireMs db userKey) = true := by
  have hlow : bytesLt (ttlIndexKey expireMs db userKey) (ttlDbPrefix db) = false := by
    have h := bytesLt_append_left (ttlDbPrefix db) (toBe 8 expireMs ++ userKey) []
    rw [append_nil] at h
    rw [ttlIndexKey_eq_dbPrefix, h]
    cases toBe 8 expireMs ++ userKey <;> rfl
  have hmax : maxU64 < 256 ^ 8 := by decide
  have hhigh : bytesLt (ttlIndexKey expireMs db userKey)
      (ttlDbExpireUpperBound db nowMs) = true := by
    rw [ttlIndexKey_eq_dbPrefix, ttlDbExpireUpperBound, bytesLt_append_left,
      bytesLt_toBe (by omega) (by omega), decide_eq_true_eq]
    omega
  simp [inRange, hlow, hhigh]

/-- **走査は正確である。** 上界は飽和するので、期限が `u64` の最大値の entry だけは、来ても入らない。 -/
theorem ttlScan_exact (db : UInt16) (nowMs : Nat) (key : Bytes) (entry : TtlEntry) :
    (inRange (ttlDbPrefix db.toNat) (ttlDbExpireUpperBound db.toNat nowMs) key = true ∧
        parseTtlIndexKey key = some entry) ↔
      key = ttlIndexKey entry.expireMs db.toNat entry.key ∧ entry.dbIndex = db.toNat ∧
        entry.expireMs ≤ min nowMs (maxU64 - 1) ∧ validUtf8 entry.key = true := by
  have hupper : ttlDbExpireUpperBound db.toNat nowMs =
      ttlDbExpireUpperBound db.toNat (min nowMs (maxU64 - 1)) := by
    unfold ttlDbExpireUpperBound maxU64
    congr 2
    omega
  rw [hupper]
  constructor
  · rintro ⟨hscan, hparse⟩
    obtain ⟨hkey, -, -, hvalid⟩ := eq_ttlIndexKey_of_parse hparse
    obtain ⟨hdb, hdue⟩ := scanned_due db.toNat_lt hscan hparse
    exact ⟨hdb ▸ hkey, hdb, hdue, hvalid⟩
  · rintro ⟨rfl, hdb, hdue, hvalid⟩
    have hmax : maxU64 = 256 ^ 8 - 1 := rfl
    refine ⟨ttlIndexKey_scanned hdue (by omega), ?_⟩
    rw [parseTtlIndexKey_ttlIndexKey (by omega) db.toNat_lt hvalid, ← hdb]

end Onedis.Store
