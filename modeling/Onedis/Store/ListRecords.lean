import Onedis.Infra.Slots
import Onedis.Store.KeyRecords

/-!
# list の record

list は小さいうちは main record に詰め、大きくなると要素ごとの record に分ける。分けた list の main record は
番地の区間 `[head, tail)` を持つ。
-/

namespace Onedis.Store

open Infra Function KeyRecords
open Codec (wrongTypeError)

/-! ## 一つの key の record -/

/-- 分けた list の要素の位置の範囲。 -/
structure ListSpan where
  head : Int
  tail : Int
  deriving DecidableEq

abbrev ListMain := MainRecord (List Bytes) ListSpan

abbrev ListRecords := KeyRecords (List Bytes) ListSpan (Slots Bytes)

def listLayout : Layout (List Bytes) ListSpan (Slots Bytes) (List Bytes) :=
  ⟨id, fun span items => items.scan span.head span.tail⟩

/-- list の metadata。要素は `head` から `tail` の手前まで並ぶ。 -/
structure ListMeta where
  expireMs : Nat
  version : Nat
  head : Int
  tail : Int
  deriving DecidableEq, Repr

def resolveListIndex (m : ListMeta) (index : Int) : Option Int :=
  let len := m.tail - m.head
  if len ≤ 0 then none
  else
    let normalized := if index < 0 then len + index else index
    if normalized < 0 ∨ normalized ≥ len then none else some (m.head + normalized)

/-- `decode_list_meta`。詰めた list の version は 0 とする。 -/
def listMetaOf : ListMain → Option ListMeta
  | .packed e items => some ⟨e, 0, 0, items.length⟩
  | .split e v span => some ⟨e, v, span.head, span.tail⟩
  | .foreign _ _ => none

variable {m : ListMeta} {record : ListMain}

theorem listMetaOf_expireMs (h : listMetaOf record = some m) : m.expireMs = record.expireMs := by
  cases record with
  | packed e items | split e v span => cases h; rfl
  | foreign e raw => cases h

def listDecodeError : String := "Failed to decode list metadata"

/-- 別の型の record を `list_meta_async` が読んだときの失敗。 -/
def foreignListError (serde : Codec.Serde) (raw : Bytes) : String :=
  if (serde.decodeEntry raw).isSome then wrongTypeError else listDecodeError

/-- `encode_packed_list` が成功するか。 -/
def packedListFits (items : List Bytes) : Bool :=
  packedFits 64 8192 23 (fun item : Bytes => decide (item.length < 256 ^ 4))
    (fun item => 4 + item.length) (items : Multiset Bytes)

/-- `delete_list_storage_range_to_batch`。番地の符号が変わるところで区間を分ける。 -/
def deleteListRange (items : Slots Bytes) (start stop : Int) : Slots Bytes :=
  if start ≥ stop then items
  else
    let items := if start < 0 then items.erase start (min stop 0) else items
    if 0 < stop then items.erase (max start 0) stop else items

theorem deleteListRange_eq (items : Slots Bytes) (start stop : Int) :
    deleteListRange items start stop = items.erase start stop := by
  unfold deleteListRange
  dsimp only
  split_ifs
  · ext1
    funext i
    rw [Slots.get_erase, if_neg (by omega)]
  · rw [show min stop 0 = 0 by omega, show max start 0 = 0 by omega]
    exact items.erase_erase (by omega) (by omega)
  · rw [show max start 0 = start by omega]
  · rw [show min stop 0 = stop by omega]
  · omega

/-- `list_range_raw_values_async`。分けた list では、番地の負の部分とそれ以外とを別々に走査する。 -/
def listRangeValues (recs : ListRecords) (ver : Nat) (lo hi : Int) : List Bytes :=
  if ver = 0 then
    match recs.main with
    | some (.packed _ items) => (items.take (max hi (-1) + 1).toNat).drop (max lo 0).toNat
    | _ => []
  else
    let items := recs.items ver
    let len := (hi - lo + 1).toNat
    let negative := if lo < 0 then (items.scan lo (min hi (-1) + 1)).take len else []
    negative ++
      if 0 ≤ hi then (items.scan (max lo 0) (hi + 1)).take (len - negative.length) else []

theorem listRangeValues_split (recs : ListRecords) {ver : Nat} (hversion : 0 < ver)
    {lo hi : Int} (hle : lo ≤ hi + 1) :
    listRangeValues recs ver lo hi = (recs.items ver).scan lo (hi + 1) := by
  have hshort : ∀ {a b : Int} {n : Nat}, (b - a).toNat ≤ n →
      ((recs.items ver).scan a b).take n = (recs.items ver).scan a b := fun h =>
    List.take_of_length_le (((recs.items ver).length_scan_le _ _).trans h)
  unfold listRangeValues
  rw [if_neg (by omega)]
  dsimp only
  by_cases hneg : lo < 0
  · rw [if_pos hneg, hshort (by omega)]
    by_cases hpos : 0 ≤ hi
    · have hlen := (recs.items ver).length_scan_le lo 0
      rw [if_pos hpos, show min hi (-1) + 1 = 0 by omega, show max lo 0 = 0 by omega,
        hshort (by omega)]
      exact (recs.items ver).scan_append (by omega) (by omega)
    · rw [if_neg hpos, List.append_nil, show min hi (-1) + 1 = hi + 1 by omega]
  · rw [if_neg hneg, List.nil_append, show max lo 0 = lo by omega]
    by_cases hpos : 0 ≤ hi
    · rw [if_pos hpos, hshort (by simp; omega)]
    · rw [if_neg hpos, Slots.scan_eq_nil _ (by omega)]

/-- `ListMeta` と要素の record を書く。 -/
def putListMeta (recs : ListRecords) (m : ListMeta) (items : Slots Bytes) : ListRecords :=
  (recs.setItems m.version items).setMain (some (.split m.expireMs m.version ⟨m.head, m.tail⟩))

def dropListMeta (recs : ListRecords) (m : ListMeta) (items : Slots Bytes) : ListRecords :=
  (recs.setItems m.version items).setMain none

/-! ## すべての key -/

/-- すべての key の record、`list_meta_cache`、最後に配った version。 -/
structure ListStore where
  slots : Bytes → ListRecords
  cache : Bytes → Option ListMeta
  counter : Nat

namespace ListStore

/-- 時刻 `now` に見える中身。 -/
def view (now : Nat) (s : ListStore) (key : Bytes) : Visible (List Bytes) :=
  (s.slots key).view listLayout now

/-- batch を書き込み、`invalidate_list_meta_cache_for_batch` で cache を捨てる。`ranged` なら全部捨てる。 -/
def commit (s : ListStore) (counter : Nat) (keys : List Bytes) (recs : Bytes → ListRecords)
    (ranged : Bool) : ListStore where
  slots key := if key ∈ keys then recs key else s.slots key
  cache key := if ranged ∨ key ∈ keys then none else s.cache key
  counter := counter

/-- `cache_list_meta_if_non_transactional` -/
def remember (s : ListStore) (key : Bytes) (m : ListMeta) : ListStore :=
  { s with cache := update s.cache key (some m) }

/-- `remove_list_meta_cache_if_non_transactional` -/
def forget (s : ListStore) (key : Bytes) : ListStore :=
  { s with cache := update s.cache key none }

def deletesRange : ListMain → Bool
  | .foreign _ raw => (decodeMetaHeader raw).any fun hdr => hdr.typeTag ≠ TypeTag.string.code
  | _ => true

/-- `expire_if_needed_async` -/
def expire (now : Nat) (s : ListStore) (key : Bytes) : ListStore :=
  match (s.slots key).main with
  | some record =>
    if expireDue now record.expireMs then
      s.commit s.counter [key] (fun key => (s.slots key).delete) (deletesRange record)
    else s
  | none => s

/-- `promote_packed_list_async`。期限は調べない。 -/
def promote (s : ListStore) (key : Bytes) : ListStore :=
  match (s.slots key).main with
  | some (.packed e items) =>
    let ver := s.counter + 1
    s.commit ver [key]
      (fun key => putListMeta (s.slots key) ⟨e, ver, 0, items.length⟩
        (((s.slots key).items ver).writeFrom 0 items)) false
  | _ => s

/-- `list_meta_async`。生きている cache があればそれを使い、なければ record を読んで cache に入れる。 -/
def listMeta (serde : Codec.Serde) (now : Nat) (s : ListStore) (key : Bytes) :
    Except String (Option ListMeta) × ListStore :=
  match (s.cache key).filter fun m => !expireDue now m.expireMs with
  | some m => (.ok (some m), s)
  | none =>
    let s := s.forget key
    match (s.slots key).main with
    | none => (.ok none, s)
    | some record =>
      if expireDue now record.expireMs then (.ok none, (s.expire now key).forget key)
      else
        match record with
        | .foreign _ raw => (.error (foreignListError serde raw), s)
        | .packed e items =>
          (.ok (some ⟨e, 0, 0, items.length⟩), s.remember key ⟨e, 0, 0, items.length⟩)
        | .split e v span =>
          (.ok (some ⟨e, v, span.head, span.tail⟩), s.remember key ⟨e, v, span.head, span.tail⟩)

end ListStore

/-! ## 不変条件 -/

/-- 一つの key の不変条件。空の list は残らず、分けた list の要素は `head` から `tail` まで隙間なく並ぶ。 -/
structure ListOk (n : Nat) (recs : ListRecords) : Prop where
  fresh : recs.Fresh n
  packed : ∀ {e items}, recs.main = some (.packed e items) →
    items ≠ [] ∧ packedListFits items = true
  split : ∀ {e v span}, recs.main = some (.split e v span) → 0 < v ∧ ∃ content : List Bytes,
    content ≠ [] ∧ span.tail = span.head + content.length ∧
      recs.items v = spread span.head content

/-- record は正しく、metadata の cache は record と食い違わない。 -/
structure ListInv (now : Nat) (s : ListStore) : Prop where
  ok : ∀ key, ListOk s.counter (s.slots key)
  cached : ∀ {key m}, s.cache key = some m → expireDue now m.expireMs = false →
    ∃ record, (s.slots key).main = some record ∧ listMetaOf record = some m

namespace ListOk

variable {n n' : Nat} {recs : ListRecords}

theorem mono (h : ListOk n recs) (hle : n ≤ n') : ListOk n' recs :=
  ⟨h.fresh.mono hle, h.packed, h.split⟩

theorem of_main_none (h : recs.Fresh n) (hmain : recs.main = none) : ListOk n recs where
  fresh := h
  packed h' := by rw [hmain] at h'; cases h'
  split h' := by rw [hmain] at h'; cases h'

theorem delete (h : ListOk n recs) : ListOk n recs.delete :=
  of_main_none h.fresh.delete (delete_main recs)

theorem setMain_packed (h : recs.Fresh n) (e : Nat) {items : List Bytes} (hne : items ≠ [])
    (hfits : packedListFits items = true) :
    ListOk n (recs.setMain (some (.packed e items))) where
  fresh := h.setMain_packed e items
  packed h' := by cases h'; exact ⟨hne, hfits⟩
  split h' := by cases h'

theorem putListMeta {m : ListMeta} {content : List Bytes} (h : recs.Fresh n)
    (hpos : 0 < m.version) (hle : m.version ≤ n) (hne : content ≠ [])
    (htail : m.tail = m.head + content.length) :
    ListOk n (putListMeta recs m (spread m.head content)) where
  fresh := (h.setItems hle _).setMain_split hle _ _
  packed h' := by cases h'
  split h' := by
    cases h'
    exact ⟨hpos, content, hne, htail, setItems_items_self ..⟩

theorem dropListMeta (h : recs.Fresh n) (hle : m.version ≤ n) (items : Slots Bytes) :
    ListOk n (dropListMeta recs m items) :=
  of_main_none (h.setItems hle _).setMain_none rfl

end ListOk

theorem view_putListMeta {now : Nat} (recs : ListRecords) {m : ListMeta} {content : List Bytes}
    (hdue : expireDue now m.expireMs = false) (htail : m.tail = m.head + content.length) :
    (putListMeta recs m (spread m.head content)).view listLayout now =
      .value m.expireMs content := by
  rw [putListMeta, view_setSplit hdue]
  show Visible.value m.expireMs ((spread m.head content).scan m.head m.tail) = _
  rw [htail, scan_spread_all]

theorem view_dropListMeta (now : Nat) (recs : ListRecords) (m : ListMeta) (items : Slots Bytes) :
    (dropListMeta recs m items).view listLayout now = .missing := view_missing rfl

theorem ListOk.view_of_main {now n : Nat} {recs : ListRecords} (h : ListOk n recs)
    (hmain : recs.main = some record) (hdue : expireDue now record.expireMs = false)
    (hmeta : listMetaOf record = some m) :
    ∃ content : List Bytes, content ≠ [] ∧
      recs.view listLayout now = .value m.expireMs content ∧ m.tail = m.head + content.length ∧
      (record = .packed m.expireMs content ∧ m.version = 0 ∧ m.head = 0 ∨
        record = .split m.expireMs m.version ⟨m.head, m.tail⟩ ∧ 0 < m.version ∧
          recs.items m.version = spread m.head content) := by
  cases record with
  | foreign e raw => cases hmeta
  | packed e items =>
    cases hmeta
    exact ⟨items, (h.packed hmain).1, view_packed hmain hdue, by simp,
      .inl ⟨rfl, rfl, rfl⟩⟩
  | split e v span =>
    cases hmeta
    obtain ⟨hpos, content, hne, htail, hitems⟩ := h.split hmain
    refine ⟨content, hne, ?_, htail, .inr ⟨rfl, hpos, hitems⟩⟩
    rw [view_split hmain hdue]
    show Visible.value e ((recs.items v).scan span.head span.tail) = _
    rw [hitems, htail, scan_spread_all]

theorem ListOk.ne_nil_of_view {now n : Nat} {recs : ListRecords} (h : ListOk n recs) {e : Nat}
    {content : List Bytes} (hview : recs.view listLayout now = .value e content) :
    content ≠ [] := by
  cases hlive : recs.live now with
  | none =>
    rw [view, hlive] at hview
    cases hview
  | some record =>
    obtain ⟨hmain, hdue⟩ := live_eq_some.mp hlive
    cases hmeta : listMetaOf record with
    | none =>
      cases record with
      | foreign e' raw =>
        rw [view_foreign hmain hdue] at hview
        cases hview
      | packed => cases hmeta
      | split => cases hmeta
    | some m =>
      obtain ⟨content', hne, hview', -⟩ := h.view_of_main hmain hdue hmeta
      rw [hview'] at hview
      cases hview
      exact hne

namespace ListStore

variable {now : Nat} {s : ListStore} {key : Bytes} {recs : Bytes → ListRecords} {keys : List Bytes}
  {counter : Nat}

theorem commit_slots_of_mem {ranged : Bool} (h : key ∈ keys) :
    (s.commit counter keys recs ranged).slots key = recs key := if_pos h

theorem commit_slots_of_not_mem {ranged : Bool} (h : key ∉ keys) :
    (s.commit counter keys recs ranged).slots key = s.slots key := if_neg h

theorem commit_inv (h : ListInv now s) (hrecs : ∀ key ∈ keys, ListOk counter (recs key))
    (hle : s.counter ≤ counter) (ranged : Bool) :
    ListInv now (s.commit counter keys recs ranged) where
  ok key := by
    by_cases hkey : key ∈ keys
    · rw [commit_slots_of_mem hkey]
      exact hrecs key hkey
    · rw [commit_slots_of_not_mem hkey]
      exact (h.ok key).mono hle
  cached {key m} hcache hdue := by
    change (if (ranged : Prop) ∨ key ∈ keys then none else s.cache key) = some m at hcache
    split at hcache
    · cases hcache
    · next hkey =>
      rw [commit_slots_of_not_mem fun hmem => hkey (.inr hmem)]
      exact h.cached hcache hdue

theorem view_commit (s : ListStore) (counter : Nat) (keys : List Bytes)
    (recs : Bytes → ListRecords) (ranged : Bool) (key : Bytes) :
    (s.commit counter keys recs ranged).view now key =
      if key ∈ keys then (recs key).view listLayout now else s.view now key := by
  unfold view
  by_cases hkey : key ∈ keys
  · rw [commit_slots_of_mem hkey, if_pos hkey]
  · rw [commit_slots_of_not_mem hkey, if_neg hkey]

theorem view_commit_one (s : ListStore) (counter : Nat) (key : Bytes)
    (recs : Bytes → ListRecords) (ranged : Bool) :
    (s.commit counter [key] recs ranged).view now =
      update (s.view now) key ((recs key).view listLayout now) := by
  funext k
  rw [view_commit, update_apply]
  by_cases hk : k = key
  · subst hk
    simp
  · simp [hk]

theorem forget_inv (h : ListInv now s) (key : Bytes) : ListInv now (s.forget key) where
  ok := h.ok
  cached {k m} hcache hdue := by
    change update s.cache key none k = some m at hcache
    rw [update_apply] at hcache
    split at hcache
    · cases hcache
    · exact h.cached hcache hdue

theorem remember_inv (h : ListInv now s) (hmain : (s.slots key).main = some record)
    (hmeta : listMetaOf record = some m) :
    ListInv now (s.remember key m) where
  ok := h.ok
  cached {k m'} hcache hdue := by
    change update s.cache key (some m) k = some m' at hcache
    rw [update_apply] at hcache
    split at hcache
    · next hk =>
      subst hk
      cases hcache
      exact ⟨record, hmain, hmeta⟩
    · exact h.cached hcache hdue

/-! ## 期限 -/

theorem expire_slots (now : Nat) (s : ListStore) (key k : Bytes) : (s.expire now key).slots k =
      if k = key then (s.slots k).expireIfNeeded now else s.slots k := by
  unfold expire expireIfNeeded
  by_cases hk : k = key
  · subst hk
    rw [if_pos rfl]
    cases (s.slots k).main with
    | none => rfl
    | some record =>
      dsimp only
      split
      · exact commit_slots_of_mem List.mem_cons_self
      · rfl
  · rw [if_neg hk]
    split
    · split
      · exact commit_slots_of_not_mem (by simpa using hk)
      · rfl
    · rfl

theorem expire_counter (now : Nat) (s : ListStore) (key : Bytes) :
    (s.expire now key).counter = s.counter := by
  unfold expire
  split
  · split <;> rfl
  · rfl

theorem expire_inv (h : ListInv now s) (key : Bytes) : ListInv now (s.expire now key) := by
  unfold expire
  split
  · split
    · exact commit_inv h (fun k _ => (h.ok k).delete) le_rfl _
    · exact h
  · exact h

theorem view_expire (now : Nat) (s : ListStore) (key : Bytes) :
    (s.expire now key).view now = s.view now := by
  funext k
  unfold view
  rw [expire_slots]
  split
  · exact view_expireIfNeeded ..
  · rfl

/-! ## 詰めた list を分ける -/

theorem promote_inv (h : ListInv now s) (key : Bytes) : ListInv now (s.promote key) := by
  unfold promote
  split
  · next e items hmain =>
    refine commit_inv h (fun k hk => ?_) (Nat.le_succ _) _
    obtain rfl := List.mem_singleton.mp hk
    rw [(h.ok k).fresh.items_empty (Nat.lt_succ_self _), writeFrom_empty]
    exact ListOk.putListMeta ((h.ok k).fresh.mono (Nat.le_succ _)) (Nat.succ_pos _) le_rfl
      ((h.ok k).packed hmain).1 (by simp)
  · exact h

theorem view_promote (h : ListInv now s) (key : Bytes) : (s.promote key).view now = s.view now := by
  unfold promote
  split
  · next e items hmain =>
    rw [view_commit_one, (h.ok key).fresh.items_empty (Nat.lt_succ_self _), writeFrom_empty]
    refine update_eq_self_iff.mpr ?_
    cases hdue : expireDue now e with
    | true =>
      have hold : s.view now key = .missing := view_due hmain hdue
      rw [hold]
      exact view_due (setMain_main ..) hdue
    | false =>
      have hold : s.view now key = .value e items := view_packed hmain hdue
      rw [hold]
      exact @view_putListMeta now _ ⟨e, s.counter + 1, 0, items.length⟩ items hdue (by simp)
  · rfl

theorem promote_not_packed (s : ListStore) (key : Bytes) (e : Nat) (items : List Bytes) :
    ((s.promote key).slots key).main ≠ some (.packed e items) := by
  unfold promote
  split
  · rw [commit_slots_of_mem List.mem_cons_self]
    intro h
    cases h
  · next hmain => exact hmain e items

theorem promote_slots_of_ne (s : ListStore) {key k : Bytes} (hk : k ≠ key) :
    (s.promote key).slots k = s.slots k := by
  unfold promote
  split
  · exact commit_slots_of_not_mem (by simpa using hk)
  · rfl

theorem promote_counter_le (s : ListStore) (key : Bytes) : s.counter ≤ (s.promote key).counter := by
  unfold promote
  split
  · exact Nat.le_succ _
  · exact le_rfl

/-! ## metadata を読む -/

/-- `list_meta_async` の返す値と、そのときの main record。 -/
inductive Opened (serde : Codec.Serde) (now : Nat) (recs : ListRecords) :
    Except String (Option ListMeta) → Prop
  | missing (hmain : recs.main = none) : Opened serde now recs (.ok none)
  | foreign {e : Nat} {raw : Bytes} (hmain : recs.main = some (.foreign e raw))
      (hdue : expireDue now e = false) :
      Opened serde now recs (.error (foreignListError serde raw))
  | value {record : ListMain} {m : ListMeta} (hmain : recs.main = some record)
      (hdue : expireDue now record.expireMs = false) (hmeta : listMetaOf record = some m) :
      Opened serde now recs (.ok (some m))

/-- **metadata の読み取り。** cache から読んでも record から読んでも同じで、見える中身は変わらない。 -/
theorem listMeta_spec (serde : Codec.Serde) (h : ListInv now s) (key : Bytes) :
    ListInv now (s.listMeta serde now key).2 ∧
      (s.listMeta serde now key).2.slots = (s.expire now key).slots ∧
      (s.listMeta serde now key).2.counter = s.counter ∧
      Opened serde now ((s.expire now key).slots key) (s.listMeta serde now key).1 := by
  have hslots : ∀ {record}, (s.slots key).main = some record →
      expireDue now record.expireMs = false → s.expire now key = s := by
    intro record hmain hdue
    unfold expire
    rw [hmain]
    exact if_neg (by simp [hdue])
  unfold listMeta
  split
  · next m hcache =>
    obtain ⟨hcache, hlive⟩ := Option.filter_eq_some_iff.mp hcache
    have hdue : expireDue now m.expireMs = false := by simpa using hlive
    obtain ⟨record, hmain, hmeta⟩ := h.cached hcache hdue
    rw [listMetaOf_expireMs hmeta] at hdue
    rw [hslots hmain hdue]
    exact ⟨h, rfl, rfl, .value hmain hdue hmeta⟩
  · have hforget := forget_inv h key
    have hexpire : ((s.forget key).expire now key).slots = (s.expire now key).slots := by
      funext k
      rw [expire_slots, expire_slots]
      rfl
    dsimp only
    split
    · next hmain =>
      change (s.slots key).main = none at hmain
      have hnone : (s.expire now key) = s := by
        unfold expire
        rw [hmain]
      rw [hnone]
      exact ⟨hforget, rfl, rfl, .missing hmain⟩
    · next record hmain =>
      change (s.slots key).main = some record at hmain
      split
      · next hdue =>
        refine ⟨forget_inv (expire_inv hforget key) key, hexpire, expire_counter .., .missing ?_⟩
        rw [expire_slots, if_pos rfl, expireIfNeeded_main, live, hmain]
        simp [Option.filter, hdue]
      · next hdue =>
        have hlive : expireDue now record.expireMs = false := by simpa using hdue
        rw [hslots hmain hlive]
        cases record with
        | foreign e raw => exact ⟨hforget, rfl, rfl, .foreign hmain hlive⟩
        | packed e items | split e v span =>
          exact ⟨remember_inv hforget hmain rfl, rfl, rfl, .value hmain hlive rfl⟩

end ListStore

end Onedis.Store
