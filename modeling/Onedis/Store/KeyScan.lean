import Onedis.Infra.Paging
import Onedis.Store.SubKeys
import Onedis.Store.ValueCodec

/-!
# SCAN

SCAN は key を raw key の順に見る。cursor は main record の並びの位置である。

* `scan_returns_stable_keys` — cursor より前の key が消えなければ、ずっとある key は必ず返される
* `ShiftedKeys.key_missed` — 消えると後ろの位置がずれ、次の頁に入らない
-/

namespace Onedis.Store

open Infra Table List

/-! ## main record の範囲 -/

namespace KeyEncodingLayout

/-- `logical_main_key_ranges`。二つ目の形式では、内部の record を挟んだ二つの区間。 -/
def logicalMainKeyRanges : KeyEncodingLayout → Nat → List (Bytes × Option Bytes)
  | dbPrefixedV1, db => [(dbPrefixedV1.dbPrefix db, some (dbPrefixedV1.dbPrefix db ++ [0xff]))]
  | tableLocalV2, _ => [([], some tableLocalInternalPrefix), ([0x81], none)]

end KeyEncodingLayout
open KeyEncodingLayout

/-- `type_name_for_tag` -/
def typeNameForTag (typeTag : UInt8) : String :=
  if typeTag = TypeTag.string.code then "string"
  else if typeTag = TypeTag.hash.code then "hash"
  else if typeTag = TypeTag.set.code then "set"
  else if typeTag = TypeTag.sortedSet.code then "zset"
  else if typeTag = TypeTag.list.code then "list"
  else if typeTag = TypeTag.stream.code then "stream"
  else if typeTag = TypeTag.vector.code then "vector"
  else if typeTag = TypeTag.json.code then "json"
  else "none"

/-- `frame::MAX_FRAME_BYTES` -/
def maxFrameBytes : Nat := 64 * 1024 * 1024

/-- `SCAN_RESPONSE_BYTE_BUDGET` -/
def scanResponseByteBudget : Nat := maxFrameBytes - 128

/-! ## 一つの頁 -/

/-- 頁を読む時刻の store。record の数は `u64` に収まる。 -/
structure ScanStore where
  table : Table
  now : Nat
  size : table.records.length ≤ u64Limit

/-- pattern が `*` なら `matcher` はない。 -/
structure KeyScanFilter where
  layout : KeyEncodingLayout
  dbIndex : Nat
  matcher : Option (Bytes → Bool)
  typeFilter : Option String

namespace KeyScanFilter

variable (f : KeyScanFilter)

/-- 時刻 `now` に、key と main record が条件に合うか。 -/
def accepts (now : Nat) (key : Bytes) (hdr : MetaHeader) : Bool :=
  !(decide (0 < hdr.expireMs) && decide (hdr.expireMs ≤ now)) &&
    f.matcher.all (fun isMatch => isMatch key) &&
    f.typeFilter.all fun expected => typeNameForTag hdr.typeTag == expected

/-- `KeyScanState::visit` の見分け方。位置が要求された cursor に届くまでは返さない。 -/
def see (now requested : Nat) (st : PageState Bytes) (r : Bytes × Bytes) : Seen Bytes :=
  match f.layout.logicalMainKeyFromRawKey f.dbIndex r.1 with
  | none => .uncounted
  | some key =>
    if !validUtf8 key then .uncounted
    else if satSucc st.position ≤ requested then .skipped
    else
      match decodeMetaHeader r.2 with
      | none => .skipped
      | some hdr => if f.accepts now key hdr then .offered (key.length + 32) key else .skipped

/-- 一つの record を訪れる。頁が埋まれば止まる。 -/
def visit (now requested count : Nat) (st : PageState Bytes) (r : Bytes × Bytes) :
    Bool × PageState Bytes :=
  st.visit scanResponseByteBudget count (f.see now requested st r)

/-- 一度に読む record の数。条件が無ければ残りの数だけ読む。 -/
def batchLimit (count : Nat) (st : PageState Bytes) : Nat :=
  let remaining := count - st.found.length
  if f.matcher.isNone && f.typeFilter.isNone then max remaining 1
  else max 64 (min (remaining * 4) 1024)

/-- 区間を順に走査する。cursor の位置までの record は、数えるだけで飛ばす。 -/
def scanRanges (s : ScanStore) (requested count : Nat) :
    List (Bytes × Option Bytes) → Nat → PageState Bytes → PageState Bytes
  | [], _, st => st
  | (lower, upper) :: rest, remaining, st =>
    match s.table.startAtOffset lower upper remaining with
    | none => scanRanges s requested count rest
        (remaining - (s.table.scanRange lower upper).length) st
    | some start =>
      match s.table.visitBatches (f.visit s.now requested count) (f.batchLimit count) upper
          (s.table.records.length + 1) start st with
      | (false, st) => st
      | (true, st) => scanRanges s requested count rest 0 st

/-- `scan_keys_page_async`。失敗すれば `none` を返す。 -/
def scanKeysPage (s : ScanStore) (count cursor : Nat) : Option (Nat × List Bytes) :=
  (f.scanRanges s cursor count (f.layout.logicalMainKeyRanges f.dbIndex) cursor
    (.start cursor 0)).finish

def mainRecords (s : ScanStore) : List (Bytes × Bytes) :=
  (f.layout.logicalMainKeyRanges f.dbIndex).flatMap fun r => s.table.scanRange r.1 r.2

def mainKeys (s : ScanStore) : List Bytes := (f.mainRecords s).map Prod.fst

def Stored (s : ScanStore) (key : Text) : Prop :=
  ∃ value, (f.layout.mainKeyBytes f.dbIndex key.bytes, value) ∈ s.table.records

def Matching (s : ScanStore) (key : Text) : Prop :=
  ∃ value hdr, (f.layout.mainKeyBytes f.dbIndex key.bytes, value) ∈ s.table.records ∧
    decodeMetaHeader value = some hdr ∧ f.accepts s.now key.bytes hdr = true

def Lives (key : Text) (w : Walk ScanStore Bytes) : WalkEvent ScanStore Nat → Prop
  | .page _ => f.Matching w.state key
  | .change s => f.Stored w.state key ∧ f.Stored s key

/-! ## 頁の意味 -/

def classify (now : Nat) (r : Bytes × Bytes) : Seen Bytes :=
  match f.layout.logicalMainKeyFromRawKey f.dbIndex r.1 with
  | none => .uncounted
  | some key =>
    if !validUtf8 key then .uncounted
    else
      match decodeMetaHeader r.2 with
      | none => .skipped
      | some hdr => if f.accepts now key hdr then .offered (key.length + 32) key else .skipped

variable {f} {st : PageState Bytes}

theorem see_eq_classify {now requested : Nat} (hroom : requested < u64Limit)
    (hst : requested ≤ st.position) (r : Bytes × Bytes) :
    f.see now requested st r = f.classify now r := by
  have hpassed : ¬ satSucc st.position ≤ requested := by
    unfold satSucc
    omega
  unfold see classify
  cases f.layout.logicalMainKeyFromRawKey f.dbIndex r.1 with
  | none => rfl
  | some key => simp [hpassed]

theorem visitWhile_eq {now requested count : Nat} (hroom : requested < u64Limit)
    (hst : requested ≤ st.position) (l : List (Bytes × Bytes)) :
    visitWhile (f.visit now requested count) st l =
      visitWhile (fun st r => st.visit scanResponseByteBudget count (f.classify now r)) st l := by
  induction l generalizing st with
  | nil => rfl
  | cons r l ih =>
    have hvisit : f.visit now requested count st r =
        st.visit scanResponseByteBudget count (f.classify now r) := by
      unfold visit
      rw [see_eq_classify hroom hst]
    have houtcome := @visit_outcome Bytes scanResponseByteBudget count (f.classify now r) st
    rw [visitWhile, visitWhile, hvisit]
    generalize st.visit scanResponseByteBudget count (f.classify now r) = out at houtcome ⊢
    generalize f.classify now r = seen at houtcome
    have hsucc : requested ≤ satSucc st.position := by
      unfold satSucc
      omega
    cases houtcome with
    | uncounted => exact ih hst
    | skipped => exact ih hsucc
    | refused cost item hcost hfound => rfl
    | held cost item hfound => rfl
    | taken cost item full =>
      cases full with
      | true => rfl
      | false => exact ih hsucc

theorem batchLimit_pos (count : Nat) (st : PageState Bytes) : 0 < f.batchLimit count st := by
  unfold batchLimit
  dsimp only
  split <;> omega

theorem scanRanges_eq (s : ScanStore) (requested count : Nat) (ranges : List (Bytes × Option Bytes))
    (remaining : Nat) (st : PageState Bytes) :
    f.scanRanges s requested count ranges remaining st =
      (visitWhile (f.visit s.now requested count) st
        ((ranges.flatMap fun r => s.table.scanRange r.1 r.2).drop remaining)).2 := by
  induction ranges generalizing remaining st with
  | nil => rw [flatMap_nil, drop_nil]; rfl
  | cons range rest ih =>
    obtain ⟨lower, upper⟩ := range
    rw [scanRanges, flatMap_cons, drop_append]
    cases hstart : s.table.startAtOffset lower upper remaining with
    | none =>
      rw [drop_eq_nil_of_le (length_le_of_startAtOffset hstart), nil_append]
      exact ih _ st
    | some start =>
      have hscan := scanRange_startAtOffset hstart
      have hfuel : (s.table.scanRange start upper).length < s.table.records.length + 1 :=
        Nat.lt_succ_of_le (length_filter_le _ _)
      have hrest : remaining - (s.table.scanRange lower upper).length = 0 :=
        Nat.sub_eq_zero_of_le (le_length_of_startAtOffset hstart)
      dsimp only
      rw [visitBatches_eq _ _ (batchLimit_pos count) hfuel, hscan, hrest,
        visitWhile_append]
      match visitWhile (f.visit s.now requested count) st
          ((s.table.scanRange lower upper).drop remaining) with
      | (false, st) => rfl
      | (true, st) => exact ih 0 st

/-- **一つの頁は、main record の列を cursor 番目から順に見る。** -/
theorem scanKeysPage_eq {s : ScanStore} {count cursor : Nat} (hroom : cursor < u64Limit) :
    f.scanKeysPage s count cursor =
      (PageState.visitAll scanResponseByteBudget count (f.classify s.now) (.start cursor 0)
        ((f.mainRecords s).drop cursor)).finish := by
  unfold scanKeysPage PageState.visitAll mainRecords
  rw [scanRanges_eq, visitWhile_eq hroom le_rfl]

/-! ## main record の列 -/

theorem logicalMainKey_text (key : Text) :
    f.layout.logicalMainKeyFromRawKey f.dbIndex (f.layout.mainKeyBytes f.dbIndex key.bytes) =
      some key.bytes := by
  cases hlayout : f.layout with
  | tableLocalV2 => exact logicalMainKeyFromRawKey_mainKey f.dbIndex key.toKey
  | dbPrefixedV1 =>
    have hnot : isKnownSubkeyNamespace key.bytes = false := by
      refine Bool.eq_false_iff.mpr fun h => ?_
      obtain ⟨ns, -, hns⟩ := any_eq_true.mp h
      exact key.not_mem_marker (( isPrefixOf_iff_prefix.mp hns).subset mem_cons_self)
    simp [logicalMainKeyFromRawKey, mainKeyBytes,
      internalPrefix, hnot]

theorem mem_mainRecords {s : ScanStore} {key : Text} {value : Bytes}
    (h : (f.layout.mainKeyBytes f.dbIndex key.bytes, value) ∈ s.table.records) :
    (f.layout.mainKeyBytes f.dbIndex key.bytes, value) ∈ f.mainRecords s := by
  refine mem_flatMap.mpr ?_
  have hhead := (validUtf8_spec key.valid).1
  cases hlayout : f.layout with
  | dbPrefixedV1 =>
    rw [hlayout] at h
    refine ⟨_, mem_cons_self, mem_scanRange.mpr ⟨h, ?_⟩⟩
    have hlt : bytesLt key.bytes [0xff] = true := by
      cases hb : key.bytes with
      | nil => rfl
      | cons b rest =>
        have hle := validUtf8_le key.valid (hb ▸ mem_cons_self : b ∈ key.bytes)
        have hb' : b < 0xff := UInt8.lt_of_le_of_lt hle (by decide)
        simp [bytesLt, hb']
    have hnil : bytesLt key.bytes [] = false := by cases key.bytes <;> rfl
    have hwithin := within_append (dbPrefixedV1.dbPrefix f.dbIndex) [] [0xff]
      key.bytes
    rw [append_nil, hlt, hnil] at hwithin
    exact hwithin
  | tableLocalV2 =>
    rw [hlayout] at h
    have hraw : tableLocalV2.mainKeyBytes f.dbIndex key.bytes = key.bytes := rfl
    rw [hraw] at h ⊢
    cases hb : key.bytes with
    | nil =>
      rw [hb] at h
      exact ⟨_, mem_cons_self, mem_scanRange.mpr ⟨h, rfl⟩⟩
    | cons b rest =>
      rw [hb] at h
      rcases hhead b (by rw [hb]; rfl) with hlow | ⟨hhigh, -⟩
      · refine ⟨_, mem_cons_self, mem_scanRange.mpr ⟨h, ?_⟩⟩
        simp [within, bytesLt, tableLocalInternalPrefix, hlow]
      · refine ⟨_, mem_cons_of_mem _ mem_cons_self, mem_scanRange.mpr ⟨h, ?_⟩⟩
        have hle : (0x81 : UInt8) < b := UInt8.lt_of_lt_of_le (by decide) hhigh
        have hnot : ¬ b < 0x81 := UInt8.not_lt.mpr (UInt8.le_of_lt hle)
        have hne : b ≠ 0x81 := fun h => UInt8.lt_irrefl b (h ▸ hle)
        simp [within, bytesLt, hnot, hne]

theorem mainKeys_ascending (s : ScanStore) :
    (f.mainKeys s).Pairwise fun a b => bytesLt a b = true := by
  refine pairwise_map.mpr ?_
  unfold mainRecords
  cases f.layout with
  | dbPrefixedV1 =>
    simp only [logicalMainKeyRanges, flatMap_cons, flatMap_nil,
      append_nil]
    exact s.table.scanRange_ascending _ _
  | tableLocalV2 =>
    simp only [logicalMainKeyRanges, flatMap_cons, flatMap_nil,
      append_nil]
    refine pairwise_append.mpr ⟨s.table.scanRange_ascending _ _,
      s.table.scanRange_ascending _ _, fun r hr r' hr' => ?_⟩
    have hlow := (mem_scanRange.mp hr).2
    have hhigh := (mem_scanRange.mp hr').2
    simp only [within, Option.all_some, Option.all_none, Bool.and_eq_true,
      Bool.not_eq_true'] at hlow hhigh
    have hgap : bytesLt r.1 [0x81] = true := bytesLt_trans hlow.2 rfl
    refine Bool.eq_true_of_not_eq_false fun hle => ?_
    rw [bytesLt_of_le_of_lt hle hgap] at hhigh
    cases hhigh.1

instance : IsTrans Bytes fun a b => bytesLt a b = true where
  trans _ _ _ := bytesLt_trans

instance : Std.Irrefl fun a b : Bytes => bytesLt a b = true where
  irrefl a h := by
    rw [bytesLt_irrefl] at h
    cases h

def Wanted (f : KeyScanFilter) (s : ScanStore) (raw : Bytes) : Prop :=
  ∃ key, raw = f.layout.mainKeyBytes f.dbIndex key.bytes ∧ f.Matching s key

theorem length_mainRecords_le (s : ScanStore) : (f.mainRecords s).length ≤ u64Limit := by
  have hnodup : (f.mainRecords s).Nodup := by
    refine (pairwise_map.mp (f.mainKeys_ascending s)).imp fun {a b} hlt heq => ?_
    rw [heq, bytesLt_irrefl] at hlt
    cases hlt
  have hsub : f.mainRecords s ⊆ s.table.records := fun r hr => by
    obtain ⟨range, -, hmem⟩ := mem_flatMap.mp hr
    exact (mem_scanRange.mp hmem).1
  exact (hnodup.subperm hsub).length_le.trans s.size

theorem pageCovers (f : KeyScanFilter) :
    Walk.PageCovers f.scanKeysPage (f.layout.mainKeyBytes f.dbIndex) f.mainKeys f.Wanted := by
  intro s count cursor next found hout i raw hi hle hwanted
  obtain ⟨key, rfl, value, hdr, hrecord, hhdr, haccepts⟩ := hwanted
  unfold mainKeys at hi
  rw [List.getElem?_map] at hi
  obtain ⟨r, hr, hkey⟩ := Option.map_eq_some_iff.mp hi
  have hvalue : r = (f.layout.mainKeyBytes f.dbIndex key.bytes, value) := by
    obtain ⟨range, -, hmem⟩ := mem_flatMap.mp (mem_of_getElem? hr)
    exact eq_of_key_eq (mem_scanRange.mp hmem).1 hrecord hkey
  have hlen : i < (f.mainRecords s).length := (List.getElem?_eq_some_iff.mp hr).1
  have hroom : cursor < u64Limit := by
    have := f.length_mainRecords_le s
    omega
  rw [scanKeysPage_eq hroom] at hout
  have hsee : f.classify s.now r = .offered (key.bytes.length + 32) key.bytes := by
    rw [hvalue]
    unfold classify
    simp [logicalMainKey_text, key.valid, hhdr, haccepts]
  exact (page_covers (f.length_mainRecords_le s) hout hr hle hsee).imp_left mem_map_of_mem

def Undisturbed (f : KeyScanFilter) : Walk ScanStore Bytes → WalkEvent ScanStore Nat → Prop :=
  Walk.Kept f.mainKeys

theorem Lives.present {key : Text} {w : Walk ScanStore Bytes} {ev : WalkEvent ScanStore Nat}
    (h : f.Lives key w ev) :
    Walk.Present f.mainKeys f.Wanted (f.layout.mainKeyBytes f.dbIndex key.bytes) w ev := by
  have hmem : ∀ {s : ScanStore} {value : Bytes},
      (f.layout.mainKeyBytes f.dbIndex key.bytes, value) ∈ s.table.records →
        f.layout.mainKeyBytes f.dbIndex key.bytes ∈ f.mainKeys s := fun hrecord =>
    mem_map_of_mem (f := Prod.fst) (mem_mainRecords hrecord)
  cases ev with
  | page count =>
    obtain ⟨value, hdr, hrecord, hhdr, haccepts⟩ := h
    exact ⟨hmem hrecord, key, rfl, value, hdr, hrecord, hhdr, haccepts⟩
  | change s =>
    obtain ⟨⟨value, hrecord⟩, value', hrecord'⟩ := h
    exact ⟨hmem hrecord, hmem hrecord'⟩

end KeyScanFilter

/--
**SCAN はずっとある key を必ず返す。** cursor 0 から 0 に戻るまで、頁と頁の間の変更が cursor より前の
main record を消さなければ、ずっとあって条件に合う key は返される。
-/
theorem scan_returns_stable_keys (f : KeyScanFilter) {key : Text} {s : ScanStore}
    {events : List (WalkEvent ScanStore Nat)} {w : Walk ScanStore Bytes}
    (hobeys : Obeys (Walk.step f.scanKeysPage)
      (fun w ev => f.Lives key w ev ∧ f.Undisturbed w ev) (Walk.start s) events)
    (hrun : run (Walk.step f.scanKeysPage) (Walk.start s) events = some w)
    (hfinished : w.finished = true) : key.bytes ∈ w.returned := by
  have hcovers := Walk.covers f.mainKeys_ascending f.pageCovers
    (hobeys.mono fun _ _ h => ⟨h.1.present, h.2⟩) hrun hfinished
  obtain ⟨found, hfound, hkey⟩ := mem_map.mp hcovers
  rwa [← append_cancel_left hkey]

namespace ShiftedKeys

def filter : KeyScanFilter := ⟨.tableLocalV2, 0, none, none⟩

def value : Bytes := Codec.encodeRawString [] 0

/-- key `a`、`b`、`c` がある。 -/
def before : ScanStore where
  table := ⟨[([0x61], value), ([0x62], value), ([0x63], value)], of_decide_eq_true rfl⟩
  now := 0
  size := of_decide_eq_true rfl

/-- key `a` が消えた。 -/
def after : ScanStore where
  table := ⟨[([0x62], value), ([0x63], value)], of_decide_eq_true rfl⟩
  now := 0
  size := of_decide_eq_true rfl

theorem key_missed : (run (Walk.step filter.scanKeysPage) (Walk.start before)
      [.page 2, .change after, .page 2]).map (fun w => (w.returned, w.finished)) =
      some ([[0x61], [0x62]], true) ∧
    filter.Matching before ⟨[0x63], rfl, of_decide_eq_true rfl⟩ ∧
    filter.Matching after ⟨[0x63], rfl, of_decide_eq_true rfl⟩ := by
  refine ⟨rfl, ⟨value, ⟨0, 0, 1⟩, ?_, rfl, rfl⟩, ⟨value, ⟨0, 0, 1⟩, ?_, rfl, rfl⟩⟩
  · exact of_decide_eq_true rfl
  · exact of_decide_eq_true rfl

/-- cursor から先の `c` の代わりに `d` ができた。 -/
def moved : ScanStore where
  table := ⟨[([0x61], value), ([0x62], value), ([0x64], value)], of_decide_eq_true rfl⟩
  now := 0
  size := of_decide_eq_true rfl

theorem key_returned : ∃ w,
    run (Walk.step filter.scanKeysPage) (Walk.start before) [.page 1, .change moved, .page 9] =
      some w ∧ w.finished = true ∧ [0x62] ∈ w.returned := by
  refine ⟨_, rfl, rfl, ?_⟩
  have hbefore : filter.Matching before ⟨[0x62], rfl, of_decide_eq_true rfl⟩ :=
    ⟨value, ⟨0, 0, 1⟩, of_decide_eq_true rfl, rfl, rfl⟩
  have hmoved : filter.Matching moved ⟨[0x62], rfl, of_decide_eq_true rfl⟩ :=
    ⟨value, ⟨0, 0, 1⟩, of_decide_eq_true rfl, rfl, rfl⟩
  refine @scan_returns_stable_keys filter ⟨[0x62], rfl, of_decide_eq_true rfl⟩ before
    [.page 1, .change moved, .page 9] _ ⟨⟨hbefore, trivial⟩, fun w hw => ?_⟩ rfl rfl
  cases hw
  refine ⟨⟨⟨⟨value, of_decide_eq_true rfl⟩, value, of_decide_eq_true rfl⟩, ?_⟩, fun w hw => ?_⟩
  · have hkept : ∀ y ∈ (filter.mainKeys before).take 1, y ∈ filter.mainKeys moved :=
      of_decide_eq_true rfl
    exact hkept
  · cases hw
    exact ⟨⟨hmoved, trivial⟩, fun _ _ => trivial⟩

end ShiftedKeys

end Onedis.Store
