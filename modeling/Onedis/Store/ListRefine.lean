import Onedis.Store.ListPositions

/-!
# list は列を実現する

一つずつ実行される list の命令は、ただの列の上の命令と同じ返事をし、同じ中身を残す。外れるのは、UTF-8 でない
要素を返すとき、`decode_entry` の読めない別の型の record に出会ったとき、番地が 64 bit を超えるときである。

どの命令も、metadata を開く（`Opens`）、番地を計算する、record を書く、の順に進む。開いた後の中身は `Holds` が
述べ、書き換えは `Infra.Slots` と `ListPositions` の補題で列の操作に直す。
-/

namespace Onedis.Store

open Infra Function List ListViews ListReply ListCommand
open Codec (wrongTypeError)

/-! ## 読んだ record と見える中身 -/

/-- metadata `m` の指す要素は `content` である。 -/
structure Holds (recs : ListRecords) (m : ListMeta) (content : List Bytes) : Prop where
  ne_nil : content ≠ []
  tail : m.tail = m.head + content.length
  stored : recs.main = some (.packed m.expireMs content) ∧ m.version = 0 ∧ m.head = 0 ∨
    SplitList recs m content

namespace Holds

variable {recs : ListRecords} {m : ListMeta} {content : List Bytes}

theorem range (h : Holds recs m content) {a b : Nat} (hab : a ≤ b) :
    listRangeValues recs m.version (m.head + a) (m.head + b) =
      (content.drop a).take (b + 1 - a) := by
  rcases h.stored with ⟨hmain, hversion, hhead⟩ | hsplit
  · rw [listRangeValues, if_pos hversion, hmain, hhead]
    show (content.take (max (0 + (b : Int)) (-1) + 1).toNat).drop (max (0 + (a : Int)) 0).toNat = _
    rw [drop_take, show (max (0 + (b : Int)) (-1) + 1).toNat = b + 1 by omega,
      show (max (0 + (a : Int)) 0).toNat = a by omega]
  · rw [hsplit.range (by omega) (by omega), show (m.head + a - m.head).toNat = a by omega,
      show (m.head + b + 1 - (m.head + a)).toNat = b + 1 - a by omega]

theorem read (h : Holds recs m content) (n : Nat) :
    (if m.version = 0 then (listRangeValues recs m.version (m.head + n) (m.head + n)).head?
      else (recs.items m.version).get (m.head + n)) = content[n]? := by
  split
  · rw [h.range le_rfl, show n + 1 - n = 1 by omega, head?_take, if_neg one_ne_zero,
      head?_drop]
  · next hversion =>
    rcases h.stored with ⟨-, hzero, -⟩ | hsplit
    · exact absurd hzero hversion
    · rw [hsplit.items, get_spread_add]

end Holds

/-- metadata を読んで得た値。`v` はその key の見える中身である。 -/
inductive Reads (serde : Codec.Serde) (now : Nat) (recs : ListRecords) (v : Visible (List Bytes)) :
    Except String (Option ListMeta) → Prop
  | missing (hview : v = .missing) : Reads serde now recs v (.ok none)
  | foreign {e : Nat} {raw : Bytes} (hview : v = .foreign e raw) :
      Reads serde now recs v (.error (foreignListError serde raw))
  | value {m : ListMeta} {content : List Bytes} (hview : v = .value m.expireMs content)
      (hdue : expireDue now m.expireMs = false) (hholds : Holds recs m content) :
      Reads serde now recs v (.ok (some m))

/-- metadata を読んでも見える中身は変わらず、`key` の中身が読めている。 -/
structure Opens (serde : Codec.Serde) (now : Nat) (key : Bytes) (views : ListViews)
    (out : Except String (Option ListMeta) × ListStore) : Prop where
  inv : ListInv now out.2
  view : out.2.view now = views
  reads : Reads serde now (out.2.slots key) (views key) out.1

def ListNotPacked (s : ListStore) (key : Bytes) : Prop :=
  ∀ e items, (s.slots key).main ≠ some (.packed e items)

namespace ListStore

variable {serde : Codec.Serde} {now : Nat} {s : ListStore} {key : Bytes}

theorem listMeta_opens (serde : Codec.Serde) (h : ListInv now s) (key : Bytes) :
    Opens serde now key (s.view now) (s.listMeta serde now key) := by
  obtain ⟨hinv, hslots, -, hopened⟩ := listMeta_spec serde h key
  have hview := (listMeta_quiet serde h key).view_eq
  refine ⟨hinv, hview, ?_⟩
  rw [← hview, hslots]
  have hrecs : (s.listMeta serde now key).2.view now key =
      ((s.expire now key).slots key).view listLayout now := by
    unfold view
    rw [hslots]
  rw [hrecs]
  generalize (s.listMeta serde now key).1 = reply at hopened
  cases hopened with
  | missing hmain => exact .missing (KeyRecords.view_missing hmain)
  | foreign hmain hdue => exact .foreign (KeyRecords.view_foreign hmain hdue)
  | @value record m hmain hdue hmeta =>
    obtain ⟨content, hne, hcontent, htail, hlayout⟩ :=
      ((expire_inv h key).ok key).view_of_main hmain hdue hmeta
    refine .value hcontent (by rw [listMetaOf_expireMs hmeta]; exact hdue) ⟨hne, htail, ?_⟩
    rcases hlayout with ⟨rfl, hversion, hhead⟩ | ⟨rfl, hpos, hitems⟩
    · exact .inl ⟨hmain, hversion, hhead⟩
    · exact .inr ⟨hmain, hpos, hitems, htail⟩

theorem listMeta_notPacked (serde : Codec.Serde) (h : ListInv now s) {key k : Bytes}
    (hk : ListNotPacked s k) : ListNotPacked (s.listMeta serde now key).2 k := by
  obtain ⟨-, hslots, -⟩ := listMeta_spec serde h key
  intro e items
  rw [hslots, expire_slots]
  split
  · rw [KeyRecords.expireIfNeeded_main]
    exact fun hlive => hk e items (KeyRecords.live_eq_some.mp hlive).1
  · exact hk e items

theorem promote_notPacked_of_ne {key k : Bytes} (hne : k ≠ key) (hk : ListNotPacked s k) :
    ListNotPacked (s.promote key) k := by
  intro e items
  rw [promote_slots_of_ne s hne]
  exact hk e items

end ListStore
open ListStore

variable {content : List Bytes}

theorem Holds.split {s : ListStore} {key : Bytes} {m : ListMeta} (h : Holds (s.slots key) m content)
    (hpacked : ListNotPacked s key) : SplitList (s.slots key) m content :=
  h.stored.resolve_left fun hstored => hpacked _ _ hstored.1

/-! ## 書いた record と見える中身 -/

section

variable {now : Nat} {s : ListStore} {key : Bytes} {m : ListMeta} {content : List Bytes}

theorem version_le (h : ListInv now s) (hsplit : SplitList (s.slots key) m content) :
    m.version ≤ s.counter := (h.ok key).fresh.version_le hsplit.main

theorem remember_put (h : ListInv now s) {recs : ListRecords} {items : Slots Bytes}
    (hslots : s.slots key = putListMeta recs m items) : ListInv now (s.remember key m) :=
  remember_inv h (by rw [hslots]; rfl) rfl

theorem commit_value (h : ListInv now s) (hpos : 0 < m.version) (hle : m.version ≤ s.counter)
    (hdue : expireDue now m.expireMs = false) (hne : content ≠ [])
    (htail : m.tail = m.head + content.length) (ranged : Bool) :
    let s' := s.commit s.counter [key]
      (fun _ => putListMeta (s.slots key) m (spread m.head content)) ranged
    ListInv now s' ∧ ListInv now (s'.remember key m) ∧
      s'.view now = update (s.view now) key (ofItems m.expireMs content) := by
  have hinv : ListInv now (s.commit s.counter [key]
      (fun _ => putListMeta (s.slots key) m (spread m.head content)) ranged) := by
    refine commit_inv h (fun k hk => ?_) le_rfl ranged
    exact ListOk.putListMeta (h.ok key).fresh hpos hle hne htail
  refine ⟨hinv, remember_put hinv (commit_slots_of_mem mem_cons_self), ?_⟩
  rw [view_commit_one, view_putListMeta _ hdue htail, ofItems_of_ne hne]

theorem commit_missing (h : ListInv now s) (hle : m.version ≤ s.counter) (items : Slots Bytes)
    (ranged : Bool) :
    let s' := s.commit s.counter [key] (fun _ => dropListMeta (s.slots key) m items) ranged
    ListInv now s' ∧ s'.view now = update (s.view now) key .missing := by
  refine ⟨commit_inv h (fun k _ => ?_) le_rfl ranged, ?_⟩
  · exact ListOk.dropListMeta (h.ok key).fresh hle items
  · rw [view_commit_one, view_dropListMeta]

theorem putItems_spec (h : ListInv now s) (hsplit : SplitList (s.slots key) m content)
    (hdue : expireDue now m.expireMs = false) {content' : List Bytes} (hne : content' ≠ [])
    (hlen : content'.length = content.length) :
    ListInv now (s.putItems key m.version (spread m.head content')) ∧
      (s.putItems key m.version (spread m.head content')).view now =
        update (s.view now) key (ofItems m.expireMs content') := by
  have htail : m.tail = m.head + content'.length := by rw [hlen]; exact hsplit.tail
  have hrecs : (s.slots key).setItems m.version (spread m.head content') =
      putListMeta (s.slots key) m (spread m.head content') := by
    rw [putListMeta, ← hsplit.main]
    rfl
  have hslots : ∀ k, (s.putItems key m.version (spread m.head content')).slots k =
      if k = key then putListMeta (s.slots key) m (spread m.head content') else s.slots k := by
    intro k
    rw [putItems, hrecs]
    exact update_apply ..
  refine ⟨⟨fun k => ?_, fun {k m'} hcache hdue' => ?_⟩, ?_⟩
  · rw [hslots]
    split
    · exact @ListOk.putListMeta s.counter _ m content' (h.ok key).fresh hsplit.pos
        (version_le h hsplit) hne htail
    · exact h.ok k
  · obtain ⟨record, hmain, hmeta⟩ := h.cached hcache hdue'
    refine ⟨record, ?_, hmeta⟩
    rw [hslots]
    split
    · next hk =>
      rw [hk, hsplit.main] at hmain
      exact hmain
    · exact hmain
  · funext k
    rw [view, hslots, update_apply]
    split
    · rw [view_putListMeta _ hdue htail, ofItems_of_ne hne]
    · rfl

end

/-! ## 一つの命令 -/

/-- 返事と見える中身が仕様どおりで、不変条件が残る。 -/
structure Refines (now : Nat) (out : ListReply × ListStore) (spec : ListReply × ListViews) :
    Prop where
  reply : out.1 = spec.1
  inv : ListInv now out.2
  view : out.2.view now = spec.2

def Visible.elements : Visible (List Bytes) → List Bytes
  | .value _ l => l
  | _ => []

namespace ListCommand

def returned (views : ListViews) : ListCommand → List Bytes
  | pop key left count => (popEnd left (count.getD 1) (views key).elements).1
  | move src _ srcLeft _ => (popEnd srcLeft 1 (views src).elements).1
  | index key i =>
    ((indexIn (views key).elements.length i).bind fun n => (views key).elements[n]?).toList
  | pos key _ _ _ _ => (views key).elements
  | range key start stop => sliceOf start stop (views key).elements
  | _ => []

/-- 命令 `c` が返すはずの要素は、どれも UTF-8 である。 -/
def Textual (views : ListViews) (c : ListCommand) : Prop :=
  ∀ value ∈ c.returned views, validUtf8 value = true

/-- 命令 `c` の実行は、仕様の返事と中身を与える。 -/
def Refined (serde : Codec.Serde) (now : Nat) (s : ListStore) (c : ListCommand) : Prop :=
  Refines now (c.exec serde now s) (c.spec (s.view now))

end ListCommand

/-- 別の型の record を `decode_entry` が読める。 -/
def Decodable (serde : Codec.Serde) (views : ListViews) (key : Bytes) : Prop :=
  ∀ e raw, views key = .foreign e raw → (serde.decodeEntry raw).isSome = true

section

variable {serde : Codec.Serde} {now : Nat} {s s' : ListStore} {key : Bytes} {absent : ListReply}
  {f : List Bytes → ListReply × List Bytes}

theorem refines_missing (hinv : ListInv now s') (hview : s'.view now = s.view now)
    (hkey : s.view now key = .missing) :
    Refines now (absent, s') (ListViews.modify (s.view now) key (onList absent f)) := by
  unfold ListViews.modify
  rw [hkey]
  exact ⟨rfl, hinv, hview.trans (update_eq_self_iff.mpr hkey.symm).symm⟩

theorem refines_foreign (hinv : ListInv now s') (hview : s'.view now = s.view now) {e : Nat}
    {raw : Bytes} (hkey : s.view now key = .foreign e raw)
    (hdec : Decodable serde (s.view now) key) :
    Refines now (.failed (foreignListError serde raw), s')
      (ListViews.modify (s.view now) key (onList absent f)) := by
  unfold ListViews.modify
  rw [hkey, (foreignListError_eq_iff serde raw).mpr (hdec e raw hkey)]
  exact ⟨rfl, hinv, hview.trans (update_eq_self_iff.mpr hkey.symm).symm⟩

theorem refines_value {reply : ListReply} {e : Nat} (hkey : s.view now key = .value e content)
    (hreply : reply = (f content).1) (hinv : ListInv now s')
    (hview : s'.view now = update (s.view now) key (ofItems e (f content).2)) :
    Refines now (reply, s') (ListViews.modify (s.view now) key (onList absent f)) := by
  unfold ListViews.modify
  rw [hkey]
  exact ⟨hreply, hinv, hview⟩

theorem refines_read {reply : ListReply} {e : Nat} (hkey : s.view now key = .value e content)
    (hne : content ≠ []) (hreply : reply = (f content).1) (hsame : (f content).2 = content)
    (hinv : ListInv now s') (hview : s'.view now = s.view now) :
    Refines now (reply, s') (modify (s.view now) key (onList absent f)) := by
  refine refines_value hkey hreply hinv ?_
  rw [hsame, ofItems_of_ne hne, hview]
  exact (update_eq_self_iff.mpr hkey.symm).symm

theorem Opens.refines {out : Except String (Option ListMeta) × ListStore}
    (hopen : Opens serde now key (s.view now) out) (hdec : Decodable serde (s.view now) key)
    {run : Except String (Option ListMeta) × ListStore → ListReply × ListStore}
    (herror : ∀ msg s', run (.error msg, s') = (.failed msg, s'))
    (hnone : ∀ s', run (.ok none, s') = (absent, s'))
    (hsome : ∀ m content, s.view now key = .value m.expireMs content →
      expireDue now m.expireMs = false → Holds (out.2.slots key) m content → ListInv now out.2 →
        out.2.view now = s.view now → Refines now (run (.ok (some m), out.2))
          (modify (s.view now) key (onList absent f))) :
    Refines now (run out) (modify (s.view now) key (onList absent f)) := by
  obtain ⟨reply, s'⟩ := out
  obtain ⟨hinv, hview, hreads⟩ := hopen
  dsimp only at hreads hinv hview hsome
  cases hreads with
  | missing hkey =>
    rw [hnone]
    exact refines_missing hinv hview hkey
  | foreign hkey =>
    rw [herror]
    exact refines_foreign hinv hview hkey hdec
  | value hkey hdue hholds => exact hsome _ _ hkey hdue hholds hinv hview

end

namespace ListStore

variable (serde : Codec.Serde) {now : Nat} {s : ListStore} {key : Bytes}

theorem listMeta_main (h : ListInv now s) {k : Bytes} {record : ListMain}
    (hmain : ((s.listMeta serde now key).2.slots k).main = some record) :
    (s.slots k).main = some record := by
  obtain ⟨-, hslots, -⟩ := listMeta_spec serde h key
  rw [hslots, expire_slots] at hmain
  split at hmain
  · rw [KeyRecords.expireIfNeeded_main] at hmain
    exact (KeyRecords.live_eq_some.mp hmain).1
  · exact hmain

theorem listMeta_slots_of_ne (h : ListInv now s) {k : Bytes} (hne : k ≠ key) :
    (s.listMeta serde now key).2.slots k = s.slots k := by
  obtain ⟨-, hslots, -⟩ := listMeta_spec serde h key
  rw [hslots, expire_slots, if_neg hne]

theorem promoted_opens (h : ListInv now s) (key : Bytes) :
    Opens serde now key (s.view now) ((s.promote key).listMeta serde now key) ∧
      ListNotPacked ((s.promote key).listMeta serde now key).2 key := by
  have hpromote := promote_inv h key
  refine ⟨?_, listMeta_notPacked serde hpromote (promote_not_packed s key)⟩
  rw [← view_promote h key]
  exact listMeta_opens serde hpromote key

theorem promoted_main (h : ListInv now s) {e v : Nat} {span : ListSpan}
    (hmain : (((s.promote key).listMeta serde now key).2.slots key).main = some (.split e v span)) :
    (s.slots key).main = some (.split e v span) ∨
      ∃ items, (s.slots key).main = some (.packed e items) ∧ span = ⟨0, items.length⟩ := by
  have hpromoted := listMeta_main serde (promote_inv h key) hmain
  unfold promote at hpromoted
  split at hpromoted
  · next e' items hpacked =>
    rw [commit_slots_of_mem mem_cons_self] at hpromoted
    cases hpromoted
    exact .inr ⟨items, hpacked, rfl⟩
  · exact .inl hpromoted

end ListStore

/-! ## 番地の余裕 -/

/-- あと `growth` 個の要素が加わっても、番地が 64 bit に収まる。 -/
def Roomy (growth : Nat) : Option ListMain → Prop
  | some (.split _ _ span) => i64Min + growth < span.head ∧ span.tail + growth < i64Max
  | some (.packed _ items) => (items.length : Int) + growth < i64Max
  | _ => (growth : Int) < i64Max

instance (growth : Nat) : DecidablePred (Roomy growth)
  | some (.split _ _ span) =>
    inferInstanceAs (Decidable (i64Min + growth < span.head ∧ span.tail + growth < i64Max))
  | some (.packed _ items) => inferInstanceAs (Decidable ((items.length : Int) + growth < i64Max))
  | some (.foreign _ _) => inferInstanceAs (Decidable ((growth : Int) < i64Max))
  | none => inferInstanceAs (Decidable ((growth : Int) < i64Max))

section

variable {serde : Codec.Serde} {now growth : Nat} {s : ListStore} {key : Bytes}
  {content : List Bytes} {m : ListMeta}

theorem Roomy.promoted (hroom : Roomy growth (s.slots key).main) (h : ListInv now s)
    (hsplit : SplitList (((s.promote key).listMeta serde now key).2.slots key) m content) :
    i64Min < m.head ∧ m.tail < i64Max := by
  rcases promoted_main serde h hsplit.main with hmain | ⟨items, hmain, hspan⟩
  · rw [hmain] at hroom
    have hroom : i64Min + growth < m.head ∧ m.tail + growth < i64Max := hroom
    omega
  · rw [hmain] at hroom
    have hroom : (items.length : Int) + growth < i64Max := hroom
    obtain ⟨hhead, htail⟩ : m.head = 0 ∧ m.tail = items.length := by
      injection hspan with hhead htail
      exact ⟨hhead, htail⟩
    unfold i64Min
    omega

theorem length_le_usizeMax {m : ListMeta} (hhead : i64Min < m.head) (htail : m.tail < i64Max)
    (hlen : m.tail = m.head + content.length) : content.length ≤ usizeMax := by
  unfold i64Min at hhead
  unfold i64Max at htail
  unfold usizeMax
  omega

theorem Roomy.length_le (hroom : Roomy growth (s.slots key).main) (h : ListInv now s)
    (hholds : Holds ((s.listMeta serde now key).2.slots key) m content) :
    content.length ≤ usizeMax := by
  rcases hholds.stored with ⟨hmain, -⟩ | hsplit
  · rw [listMeta_main serde h hmain] at hroom
    have hroom : (content.length : Int) + growth < i64Max := hroom
    unfold i64Max at hroom
    unfold usizeMax
    omega
  · rw [listMeta_main serde h hsplit.main] at hroom
    have hroom : i64Min + growth < m.head ∧ m.tail + growth < i64Max := hroom
    exact @length_le_usizeMax content m (by omega) (by omega) hholds.tail

end

/-! ## 書き換える命令 -/

theorem indexIn_lt {len n : Nat} {index : Int} (h : indexIn len index = some n) : n < len := by
  unfold indexIn at h
  split at h
  · cases h
    omega
  · cases h

section

variable {serde : Codec.Serde} {now : Nat} {s : ListStore} {key : Bytes}

section

variable (h : ListInv now s)
include h

section

variable (hdec : Decodable serde (s.view now) key)
include hdec

theorem set_refines (index : Int) (value : Text) :
    Refined serde now s (.set key index value) := by
  obtain ⟨hopen, hpacked⟩ := promoted_opens serde h key
  show Refines now (answer _ (listSet serde now key index value.bytes s)) _
  unfold listSet
  generalize (s.promote key).listMeta serde now key = out at hopen hpacked ⊢
  apply hopen.refines hdec (by intros; rfl) (by intros; rfl)
  intro m content hkey hdue hholds hinv hview
  have hsplit := hholds.split hpacked
  dsimp only
  rw [resolveListIndex_eq hholds.tail]
  cases hi : indexIn content.length index with
  | none =>
    exact refines_read hkey hholds.ne_nil (by simp [hi]; rfl) (by simp only [hi]) hinv hview
  | some n =>
    have hne : content.set n value.bytes ≠ [] := by simpa using hholds.ne_nil
    obtain ⟨hinv', hview'⟩ := putItems_spec hinv hsplit hdue hne length_set
    dsimp
    rw [hsplit.items, put_spread_at m.head value.bytes (indexIn_lt hi)]
    refine refines_value hkey (by simp [hi]; rfl) hinv' ?_
    rw [hview', hview]
    simp [hi]

theorem trim_refines (start stop : Int) :
    Refined serde now s (.trim key start stop) := by
  obtain ⟨hopen, hpacked⟩ := promoted_opens serde h key
  show Refines now (answer _ (listTrim serde now key start stop s)) _
  unfold listTrim
  generalize (s.promote key).listMeta serde now key = out at hopen hpacked ⊢
  apply hopen.refines hdec (by intros; rfl) (by intros; rfl)
  intro m content hkey hdue hholds hinv hview
  have hsplit := hholds.split hpacked
  have htail := hholds.tail
  have hle := version_le hinv hsplit
  dsimp only
  rcases resolveListRange_spec htail start stop with
    ⟨hnone, hslice⟩ | ⟨a, b, hsome, hab, hb, hslice⟩
  · rw [hnone]
    obtain ⟨hinv', hview'⟩ := @commit_missing now out.2 key m hinv hle
      (deleteListRange ((out.2.slots key).items m.version) m.head m.tail) (m.head < m.tail)
    refine refines_value hkey rfl hinv' ?_
    rw [hview', hview, hslice, ofItems_nil]
  · rw [hsome]
    dsimp only
    rw [deleteListRange_eq, deleteListRange_eq, hsplit.items, erase_spread_front]
    have hdrop : (content.drop a).length = content.length - a := length_drop
    have hstop : m.tail = m.head + a + (content.drop a).length := by omega
    have hlast : m.head + b + 1 = m.head + a + (b + 1 - a : Nat) := by omega
    rw [hstop, hlast, erase_spread_back, ← hslice]
    have hne : sliceOf start stop content ≠ [] := by
      rw [hslice, Ne, take_eq_nil_iff, drop_eq_nil_iff]
      omega
    have hlen : (sliceOf start stop content).length = b + 1 - a := by
      rw [hslice, length_take, hdrop]
      omega
    obtain ⟨hinv', -, hview'⟩ := @commit_value now out.2 key
      { m with head := m.head + a, tail := m.head + a + (b + 1 - a : Nat) }
      (sliceOf start stop content) hinv hsplit.pos hle hdue hne (by rw [hlen])
      (m.head < m.head + a ∨ m.head + a + (b + 1 - a : Nat) < m.head + a + (content.drop a).length)
    refine refines_value hkey rfl hinv' ?_
    rw [hview', hview]

theorem rem_refines (hroom : Roomy 0 (s.slots key).main) (count : Int) (element : Text) :
    Refined serde now s (.rem key count element) := by
  obtain ⟨hopen, hpacked⟩ := promoted_opens serde h key
  have hbounds := fun m content => @Roomy.promoted serde now 0 s key content m hroom h
  show Refines now (answer _ (listRemove serde now key count element.bytes s)) _
  unfold listRemove
  generalize (s.promote key).listMeta serde now key = out at hopen hpacked hbounds ⊢
  apply hopen.refines hdec (by intros; rfl) (by intros; rfl)
  intro m content hkey hdue hholds hinv hview
  have hsplit := hholds.split hpacked
  have hle := version_le hinv hsplit
  have hlen := hholds.tail
  obtain ⟨hhead, htail⟩ := hbounds m content hsplit
  obtain ⟨hsorted, hlt, hrest⟩ := removalPositions_spec element.bytes count
    (length_le_usizeMax hhead htail hlen)
  have hcount : (survivors (removalPositions element.bytes count content) 0 content).length +
      (removalPositions element.bytes count content).length = content.length :=
    length_survivors hsorted (fun p _ => Nat.zero_le p) (by simpa using hlt)
  dsimp only
  rw [hsplit.range_all]
  cases hfound : removalPositions element.bytes count content with
  | nil =>
    rw [hfound] at hrest
    have hsame : removeMatches element.bytes count content = content :=
      hrest.symm.trans (survivors_eq_self nofun)
    refine refines_read hkey hholds.ne_nil ?_ hsame hinv hview
    dsimp only
    rw [hsame, Int.sub_self]
    rfl
  | cons first more =>
    rw [hfound] at hrest hcount hsorted hlt
    rw [hrest] at hcount
    have hreply : ((first :: more).length : Int) =
        content.length - (removeMatches element.bytes count content).length := by omega
    dsimp only
    split
    · next hall =>
      have hempty : removeMatches element.bytes count content = [] :=
        eq_nil_of_length_eq_zero (by omega)
      obtain ⟨hinv', hview'⟩ := @commit_missing now out.2 key m hinv hle
        (deleteListRange ((out.2.slots key).items m.version) m.head m.tail) true
      refine refines_value hkey (congrArg number hreply)
        (forget_inv hinv' key) ?_
      refine Eq.trans hview' ?_
      rw [hview]
      dsimp only
      rw [hempty, ofItems_nil]
    · next hsome =>
      have hne : removeMatches element.bytes count content ≠ [] := by
        intro hnil
        rw [hnil, length_nil] at hcount
        omega
      obtain ⟨head, hcompact⟩ := compactList_spec hsplit hsorted hlt
      rw [hcompact, hrest]
      obtain ⟨-, hinv', hview'⟩ := @commit_value now out.2 key
        { m with head := head, tail := head + (removeMatches element.bytes count content).length }
        (removeMatches element.bytes count content) hinv hsplit.pos hle hdue hne rfl true
      refine refines_value hkey (congrArg number hreply) hinv' ?_
      refine Eq.trans hview' ?_
      rw [hview]

theorem insert_refines (hroom : Roomy 1 (s.slots key).main) (before : Bool) (pivot element : Text) :
    Refined serde now s (.insert key before pivot element) := by
  obtain ⟨hopen, hpacked⟩ := promoted_opens serde h key
  have hbounds := fun m content => @Roomy.promoted serde now 1 s key content m hroom h
  show Refines now (answer _
    (listInsert serde now key before pivot.bytes element.bytes s)) _
  unfold listInsert
  generalize (s.promote key).listMeta serde now key = out at hopen hpacked hbounds ⊢
  apply hopen.refines hdec (by intros; rfl) (by intros; rfl)
  intro m content hkey hdue hholds hinv hview
  have hsplit := hholds.split hpacked
  have hle := version_le hinv hsplit
  dsimp only
  rw [hsplit.range_all]
  cases hfind : content.findIdx? (· = pivot.bytes) with
  | none =>
    exact refines_read hkey hholds.ne_nil (by simp [hfind]; rfl) (by simp only [hfind])
      hinv hview
  | some n =>
    have hn : n < content.length := (findIdx?_eq_some_iff_findIdx_eq.mp hfind).1
    have hindex : (if before then n else n + 1) ≤ content.length := by split <;> omega
    obtain ⟨head, hinsert⟩ := insertIntoList_spec hsplit (.inl (hbounds m content hsplit).1) hindex
      element.bytes
    have hlen : (insertAt before n element.bytes content).length = content.length + 1 := by
      simp only [insertAt, length_append, length_cons, length_take, length_drop]
      omega
    have hne : insertAt before n element.bytes content ≠ [] := ne_nil_of_length_pos (by omega)
    obtain ⟨-, hinv', hview'⟩ := @commit_value now out.2 key
      { m with head := head, tail := head + (content.length + 1) }
      (insertAt before n element.bytes content) hinv hsplit.pos hle hdue hne
      (by rw [hlen]; rfl) false
    dsimp only
    rw [hinsert]
    refine refines_value hkey ?_ hinv' ?_
    · simp only [hfind]
      exact congrArg number (by omega)
    · refine Eq.trans hview' ?_
      rw [hview]
      simp [hfind]

end

/-! ## 端の命令 -/

theorem push_refines (c : ListPush) :
    Refined serde now s (.push c) := by
  obtain ⟨hreply, hinv, hview⟩ := listPush_spec serde h c
  refine ⟨?_, hinv, hview⟩
  show of _ ((listPushBatch serde now [c] s).1.headD _) = _
  rw [hreply]
  rfl

omit h in
theorem listPop_refines {g g' : List Bytes → ListReply} (h : ListInv now s) (c : ListPop)
    (hnil : g' [] = g []) (hvalue : ∀ e l, s.view now c.key = .value e l →
      g' (popEnd c.left c.count l).1 = g (popEnd c.left c.count l).1) :
    Refines now (ListCommand.answer g' (ListCommand.single [] (listPopBatch now [c] s)))
      (ListViews.modify (s.view now) c.key (onList (g []) fun l =>
        (g (popEnd c.left c.count l).1, (popEnd c.left c.count l).2))) := by
  obtain ⟨hreply, hinv, hview⟩ := listPop_spec h c
  refine ⟨?_, hinv, hview.trans ?_⟩
  · show of g' ((listPopBatch now [c] s).1.headD _) = (onList _ _ (s.view now c.key)).1
    rw [hreply]
    cases hkey : s.view now c.key with
    | missing => exact hnil
    | foreign e raw => rfl
    | value e l => exact hvalue e l hkey
  · unfold ListViews.modify
    cases s.view now c.key with
    | missing | foreign e raw | value e l => rfl

theorem pop_refines (left : Bool) (count : Option Nat)
    (htext : Textual (s.view now) (.pop key left count)) :
    Refined serde now s (.pop key left count) := by
  cases count with
  | none =>
    refine @listPop_refines now s (fun values => .element values.head?)
      (fun values => .element (values.head?.filter validUtf8)) h ⟨key, left, 1⟩ rfl ?_
    intro e l hkey
    have hvalid : ∀ value ∈ (popEnd left 1 l).1, validUtf8 value = true := by
      rw [Textual, returned, hkey] at htext
      exact htext
    refine congrArg element ?_
    generalize (popEnd left 1 l).1 = popped at hvalid ⊢
    cases popped with
    | nil => rfl
    | cons value rest => simp [Option.filter, hvalid value mem_cons_self]
  | some n =>
    refine @listPop_refines now s .elements (fun values => .elements (values.filter validUtf8)) h
      ⟨key, left, n⟩ rfl ?_
    intro e l hkey
    rw [Textual, returned, hkey] at htext
    exact congrArg elements (filter_eq_self.mpr htext)

/-! ## 読む命令 -/

section

variable (hdec : Decodable serde (s.view now) key)
include hdec

theorem index_refines (index : Int) (htext : Textual (s.view now) (.index key index)) :
    Refined serde now s (.index key index) := by
  have hopen := listMeta_opens serde h key
  show Refines now (answer _ (listIndex serde now key index s)) _
  unfold listIndex
  generalize s.listMeta serde now key = out at hopen ⊢
  apply hopen.refines hdec (by intros; rfl) (by intros; rfl)
  intro m content hkey hdue hholds hinv hview
  dsimp only
  rw [resolveListIndex_eq hholds.tail]
  cases hi : indexIn content.length index with
  | none => exact refines_read hkey hholds.ne_nil (by simp [hi]; rfl) rfl hinv hview
  | some n =>
    refine refines_read hkey hholds.ne_nil ?_ rfl hinv hview
    simp only [hi, Option.map_some, Option.bind_some]
    rw [hholds.read n]
    refine congrArg element ?_
    cases hvalue : content[n]? with
    | none => rfl
    | some value =>
      have hvalid : validUtf8 value = true :=
        htext value (by simp [returned, hkey, Visible.elements, hi, hvalue])
      simp [Option.filter, hvalid]

theorem len_refines :
    Refined serde now s (.len key) := by
  have hopen := listMeta_opens serde h key
  show Refines now (answer _ (listLen serde now key s)) _
  unfold listLen
  generalize s.listMeta serde now key = out at hopen ⊢
  apply hopen.refines hdec (by intros; rfl) (by intros; rfl)
  intro m content hkey hdue hholds hinv hview
  refine refines_read hkey hholds.ne_nil ?_ rfl hinv hview
  have htail := hholds.tail
  refine congrArg number ?_
  show (((m.tail - m.head).toNat : Nat) : Int) = content.length
  omega

omit hdec in
theorem listRange_spec (start stop : Int) :
    ListInv now (listRange serde now key start stop s).2 ∧
      (listRange serde now key start stop s).2.view now = s.view now ∧
      (listRange serde now key start stop s).1 = match s.view now key with
        | .missing => .ok []
        | .foreign _ raw => .error (foreignListError serde raw)
        | .value _ l => if (sliceOf start stop l).all validUtf8 then .ok (sliceOf start stop l)
          else .error listRangeUtf8Error := by
  obtain ⟨hinv, hview, hreads⟩ := listMeta_opens serde h key
  unfold listRange
  generalize s.listMeta serde now key = out at hinv hview hreads ⊢
  obtain ⟨reply, s'⟩ := out
  dsimp only at hinv hview hreads
  cases hreads with
  | missing hkey | foreign hkey =>
    rw [hkey]
    exact ⟨hinv, hview, rfl⟩
  | @value m content hkey hdue hholds =>
    rw [hkey]
    dsimp only
    rcases resolveListRange_spec hholds.tail start stop with
      ⟨hnone, hslice⟩ | ⟨a, b, hsome, hab, hb, hslice⟩
    · rw [hnone, hslice]
      exact ⟨hinv, hview, rfl⟩
    · rw [hsome]
      dsimp only
      rw [hholds.range hab, ← hslice]
      split
      · exact ⟨hinv, hview, rfl⟩
      · exact ⟨hinv, hview, rfl⟩

theorem range_refines (start stop : Int) (htext : Textual (s.view now) (.range key start stop)) :
    Refined serde now s (.range key start stop) := by
  obtain ⟨hinv, hview, hreply⟩ := @listRange_spec serde now s key h start stop
  show Refines now (of _ (listRange serde now key start stop s).1,
    (listRange serde now key start stop s).2) _
  rw [hreply]
  cases hkey : s.view now key with
  | missing => exact refines_missing hinv hview hkey
  | foreign e raw => exact refines_foreign hinv hview hkey hdec
  | value e l =>
    refine refines_read hkey ((h.ok key).ne_nil_of_view hkey) ?_ rfl hinv hview
    rw [Textual, returned, hkey, Visible.elements] at htext
    dsimp only
    rw [if_pos (all_eq_true.mpr htext)]
    rfl

end

omit h in
theorem sliceOf_all (l : List Bytes) : sliceOf 0 (-1) l = l := by
  unfold sliceOf fromEnd
  rw [if_neg (by omega), if_pos (by omega),
    show ((l.length : Int) + -1 + 1).toNat = l.length by omega]
  simp

theorem pos_refines (hdec : Decodable serde (s.view now) key) (hroom : Roomy 0 (s.slots key).main)
    (element : Text) (rank : Int) (count maxlen : Option Nat)
    (htext : Textual (s.view now) (.pos key element rank count maxlen)) :
    Refined serde now s (.pos key element rank count maxlen) := by
  obtain ⟨hinv, hview, hreply⟩ := @listRange_spec serde now s key h 0 (-1)
  show Refines now (answer _
    (listPositions serde now key element.bytes rank count maxlen s)) _
  unfold listPositions
  generalize listRange serde now key 0 (-1) s = out at hinv hview hreply ⊢
  obtain ⟨reply, s'⟩ := out
  dsimp only at hinv hview hreply
  subst hreply
  cases hkey : s.view now key with
  | missing => exact refines_missing hinv hview hkey
  | foreign e raw => exact refines_foreign hinv hview hkey hdec
  | value e l =>
    have hne := (h.ok key).ne_nil_of_view hkey
    rw [Textual, returned, hkey, Visible.elements] at htext
    dsimp only
    rw [sliceOf_all, if_pos (all_eq_true.mpr htext)]
    have hlen : l.length ≤ usizeMax := by
      obtain ⟨-, -, hreads⟩ := listMeta_opens serde h key
      rw [hkey] at hreads
      generalize hout : (s.listMeta serde now key).1 = found at hreads
      cases hreads with
      | missing hview => cases hview
      | foreign hview => cases hview
      | value hview _ hholds =>
        cases hview
        exact hroom.length_le h hholds
    have hrefines : ∀ {found : List Nat},
        found = positionsOf element.bytes rank count maxlen l →
        Refines now (.positions found, s')
          (spec (.pos key element rank count maxlen) (s.view now)) := by
      intro found hfound
      apply refines_read hkey hne (congrArg positions hfound) rfl hinv hview
    have hloop := lposLoop_positionsOf element.bytes rank count maxlen hlen
    dsimp only
    by_cases hmax : maxlen = some 0
    · rw [if_pos (.inr hmax)]
      refine hrefines ?_
      subst hmax
      rw [← hloop]
      split <;> rfl
    · rw [if_neg (by simpa using ⟨hne, hmax⟩)]
      split
      · next hrank => exact hrefines (by rw [← hloop, if_pos hrank])
      · next hrank => exact hrefines (by rw [← hloop, if_neg hrank])

/-! ## LMOVE -/

theorem bump_inv : ListInv now { s with counter := s.counter + 1 } :=
  ⟨fun key => (h.ok key).mono (Nat.le_succ _), h.cached⟩

omit h in
theorem shrunk_spec {n : Nat} {recs : ListRecords} {m : ListMeta} {rest : List Bytes}
    (hfresh : recs.Fresh n) (hpos : 0 < m.version) (hle : m.version ≤ n)
    (hdue : expireDue now m.expireMs = false) (htail : m.tail = m.head + rest.length) :
    let recs' := if decide (m.tail ≤ m.head) = true
      then dropListMeta recs m (spread m.head rest) else putListMeta recs m (spread m.head rest)
    ListOk n recs' ∧ recs'.view listLayout now = ofItems m.expireMs rest := by
  dsimp only
  split
  · next hempty =>
    have hnil : rest = [] := eq_nil_of_length_eq_zero (by
      have := of_decide_eq_true hempty
      omega)
    refine ⟨ListOk.dropListMeta hfresh hle _, ?_⟩
    rw [view_dropListMeta, hnil, ofItems_nil]
  · next hsome =>
    have hne : rest ≠ [] := by
      rintro rfl
      exact hsome (decide_eq_true (by simpa using htail.le))
    refine ⟨ListOk.putListMeta hfresh hpos hle hne htail, ?_⟩
    rw [view_putListMeta recs hdue htail, ofItems_of_ne hne]

theorem moveElement_same {src : Bytes} {m : ListMeta} (hsplit : SplitList (s.slots src) m content)
    (hne : content ≠ []) (hdue : expireDue now m.expireMs = false) (srcLeft destLeft : Bool)
    (destinationMeta : ListMeta) (value : Bytes) :
    ListInv now (moveElement src src srcLeft destLeft m destinationMeta value s) ∧
      (moveElement src src srcLeft destLeft m destinationMeta value s).view now =
        update (s.view now) src
          (.value m.expireMs (pushEnd destLeft value (popEnd srcLeft 1 content).2)) := by
  obtain ⟨-, -, -, hremove, htail⟩ := ListMeta.popOne_spec srcLeft hne hsplit.tail
  obtain ⟨hput, htail'⟩ := ListMeta.pushOne_spec destLeft htail value
  have hversion : ((m.popOne srcLeft).2.pushOne destLeft).2.version = m.version := by
    cases srcLeft <;> cases destLeft <;> rfl
  have hexpire : ((m.popOne srcLeft).2.pushOne destLeft).2.expireMs = m.expireMs := by
    cases srcLeft <;> cases destLeft <;> rfl
  obtain ⟨-, hinv, hview⟩ := @commit_value now s src
    ((m.popOne srcLeft).2.pushOne destLeft).2
    (pushEnd destLeft value (popEnd srcLeft 1 content).2) h (hversion ▸ hsplit.pos)
    (hversion ▸ version_le h hsplit) (hexpire ▸ hdue) (pushEnd_ne_nil _ _ _) htail' false
  rw [hexpire, ofItems_of_ne (pushEnd_ne_nil _ _ _)] at hview
  unfold moveElement
  dsimp only
  rw [if_pos rfl, hsplit.items, hremove, hput]
  exact ⟨hinv, hview⟩

omit h in
theorem moveElement_other {src dest : Bytes} (hdiff : src ≠ dest)
    {m dm : ListMeta} {content dcontent : List Bytes} (h : ListInv now s)
    (hsplit : SplitList (s.slots src) m content) (hne : content ≠ [])
    (hdue : expireDue now m.expireMs = false)
    (hitems : (s.slots dest).items dm.version = spread dm.head dcontent)
    (hpos : 0 < dm.version) (hle : dm.version ≤ s.counter)
    (htail : dm.tail = dm.head + dcontent.length) (hddue : expireDue now dm.expireMs = false)
    (srcLeft destLeft : Bool) (value : Bytes) :
    ListInv now (moveElement src dest srcLeft destLeft m dm value s) ∧
      (moveElement src dest srcLeft destLeft m dm value s).view now = update
          (update (s.view now) src (ofItems m.expireMs (popEnd srcLeft 1 content).2))
          dest (.value dm.expireMs (pushEnd destLeft value dcontent)) := by
  obtain ⟨-, -, -, hremove, hptail⟩ := ListMeta.popOne_spec srcLeft hne hsplit.tail
  obtain ⟨hput, hdtail⟩ := ListMeta.pushOne_spec destLeft htail value
  have hversion : (m.popOne srcLeft).2.version = m.version := by cases srcLeft <;> rfl
  have hexpire : (m.popOne srcLeft).2.expireMs = m.expireMs := by cases srcLeft <;> rfl
  have hdversion : (dm.pushOne destLeft).2.version = dm.version := by cases destLeft <;> rfl
  have hdexpire : (dm.pushOne destLeft).2.expireMs = dm.expireMs := by cases destLeft <;> rfl
  obtain ⟨hsok, hsview⟩ := @shrunk_spec now s.counter (s.slots src) (m.popOne srcLeft).2
    (popEnd srcLeft 1 content).2 (h.ok src).fresh (hversion ▸ hsplit.pos)
    (hversion ▸ version_le h hsplit) (hexpire ▸ hdue) hptail
  rw [hexpire] at hsview
  have hdok : ListOk s.counter (putListMeta (s.slots dest) (dm.pushOne destLeft).2
      (spread (dm.pushOne destLeft).2.head (pushEnd destLeft value dcontent))) :=
    ListOk.putListMeta (h.ok dest).fresh (hdversion ▸ hpos) (hdversion ▸ hle)
      (pushEnd_ne_nil _ _ _) hdtail
  have hdview := @view_putListMeta now (s.slots dest) (dm.pushOne destLeft).2
    (pushEnd destLeft value dcontent) (hdexpire ▸ hddue) hdtail
  rw [hdexpire] at hdview
  unfold moveElement
  dsimp only
  rw [if_neg hdiff, hsplit.items, hremove, hitems, hput]
  generalize hrecs : (if decide ((m.popOne srcLeft).2.tail ≤ (m.popOne srcLeft).2.head) = true
    then dropListMeta (s.slots src) (m.popOne srcLeft).2 _
    else putListMeta (s.slots src) (m.popOne srcLeft).2 _) = srecs at hsok hsview ⊢
  generalize hdrecs : putListMeta (s.slots dest) (dm.pushOne destLeft).2 _ = drecs
    at hdok hdview ⊢
  generalize hs' : s.commit s.counter [src, dest]
    (fun key => if key = src then srecs else drecs) false = s'
  have hcommit : ListInv now s' := by
    rw [← hs']
    refine commit_inv h (fun key hkey => ?_) le_rfl false
    split
    · exact hsok
    · exact hdok
  have hsource : s'.slots src = srecs := by
    rw [← hs']
    exact (commit_slots_of_mem mem_cons_self).trans (if_pos rfl)
  have hdestination : s'.slots dest = drecs := by
    rw [← hs']
    exact (commit_slots_of_mem (by simp)).trans (if_neg hdiff.symm)
  have hview : s'.view now = update (update (s.view now) src
      (ofItems m.expireMs (popEnd srcLeft 1 content).2)) dest
        (.value dm.expireMs (pushEnd destLeft value dcontent)) := by
    funext key
    rw [← hs', view_commit, update_apply, update_apply]
    by_cases hd : key = dest
    · subst hd
      rw [if_pos (by simp), if_neg hdiff.symm, if_pos rfl, hdview]
    · by_cases hs : key = src
      · subst hs
        rw [if_pos (by simp), if_pos rfl, if_neg hd, if_pos rfl, hsview]
      · rw [if_neg (by simp [hs, hd]), if_neg hd, if_neg hs]
  rw [← hdrecs] at hdestination
  split
  · exact ⟨remember_put (forget_inv hcommit src) hdestination, hview⟩
  · next hsome =>
    rw [← hrecs, if_neg hsome] at hsource
    exact ⟨remember_put (remember_put hcommit hsource) hdestination, hview⟩

theorem promoteBoth_spec (src dest : Bytes) :
    let s' := if src = dest then s.promote src
      else (s.promote src).promote dest
    ListInv now s' ∧ s'.view now = s.view now ∧ ListNotPacked s' src ∧ ListNotPacked s' dest := by
  have hinv := promote_inv h src
  have hpacked := s.promote_not_packed src
  dsimp only
  split
  · next heq => exact ⟨hinv, view_promote h src, hpacked, heq ▸ hpacked⟩
  · next hdiff =>
    exact ⟨promote_inv hinv dest,
      (view_promote hinv dest).trans (view_promote h src),
      promote_notPacked_of_ne hdiff hpacked,
      (s.promote src).promote_not_packed dest⟩

end

theorem ListViews.move_value {views : ListViews} {src dest : Bytes}
    {srcLeft destLeft : Bool} {e : Nat} {l : List Bytes} {value : Bytes}
    (hkey : views src = .value e l) (hpop : (popEnd srcLeft 1 l).1 = [value]) :
    move views src dest srcLeft destLeft = if src = dest then
        (.element (some value), update views src
          (.value e (pushEnd destLeft value (popEnd srcLeft 1 l).2)))
      else match views dest with
        | .foreign _ _ => (.failed wrongTypeError, views)
        | other => (.element (some value),
            update (update views src (ofItems e (popEnd srcLeft 1 l).2))
              dest (receive destLeft value other)) := by
  unfold move
  rw [hkey]
  dsimp only
  generalize popEnd srcLeft 1 l = out at hpop ⊢
  obtain ⟨popped, rest⟩ := out
  obtain rfl : popped = [value] := hpop
  rfl

/-- LMOVE の結果。仕様と違うのは、別の型の key と text でない要素だけである。 -/
inductive Moved (serde : Codec.Serde) (now : Nat) (src dest : Bytes)
    (srcLeft destLeft : Bool) (views : ListViews) (out : ListReply × ListStore) : Prop
  | done (hrefines : Refines now out
      (move views src dest srcLeft destLeft))
  | foreign {key : Bytes} {e : Nat} {raw : Bytes} (hkey : key = src ∨ key = dest)
      (hview : views key = .foreign e raw)
      (hspec : move views src dest srcLeft destLeft =
        (.failed wrongTypeError, views))
      (hrefines : Refines now out (.failed (foreignListError serde raw), views))
  | binary {e : Nat} {l : List Bytes} {value : Bytes} (hview : views src = .value e l)
      (hvalue : (popEnd srcLeft 1 l).1 = [value]) (hinvalid : validUtf8 value = false)
      (hrefines : Refines now out (.failed listUtf8Error, views))

/-- `listMove` の最後の段。端の要素を読み、text なら移す。 -/
def moveEnd (src dest : Bytes) (srcLeft destLeft : Bool) (m dm : ListMeta) (s : ListStore) :
    Except String (Option Bytes) × ListStore :=
  match ((s.slots src).items m.version).get (m.popOne srcLeft).1 with
  | none => (.ok none, s)
  | some value =>
    if validUtf8 value then (.ok (some value), moveElement src dest srcLeft destLeft m dm value s)
    else (.error listUtf8Error, s)

section

variable {src dest : Bytes} {srcLeft destLeft : Bool} {m : ListMeta} {content : List Bytes}
  {views : ListViews}

theorem moveEnd_moved {dm : ListMeta} (h : ListInv now s) (hview : s.view now = views)
    (hkey : views src = .value m.expireMs content) (hsplit : SplitList (s.slots src) m content)
    (hne : content ≠ [])
    (hmove : ∀ value, (popEnd srcLeft 1 content).1 = [value] →
      Refines now (.element (some value), moveElement src dest srcLeft destLeft m dm value s)
        (move views src dest srcLeft destLeft)) :
    Moved serde now src dest srcLeft destLeft views
      (answer .element (moveEnd src dest srcLeft destLeft m dm s)) := by
  obtain ⟨value, hpop, hget, -⟩ := ListMeta.popOne_spec srcLeft hne hsplit.tail
  unfold moveEnd
  rw [hsplit.items, hget]
  dsimp only
  cases hvalid : validUtf8 value with
  | false => exact .binary hkey hpop hvalid ⟨rfl, h, hview⟩
  | true => exact .done (hmove value hpop)

theorem moveEnd_same (h : ListInv now s) (hview : s.view now = views)
    (hkey : views src = .value m.expireMs content) (hsplit : SplitList (s.slots src) m content)
    (hne : content ≠ []) (hdue : expireDue now m.expireMs = false) :
    Moved serde now src src srcLeft destLeft views
      (answer .element (moveEnd src src srcLeft destLeft m m s)) := by
  refine moveEnd_moved h hview hkey hsplit hne fun value hpop => ?_
  obtain ⟨hinv', hview'⟩ := moveElement_same h hsplit hne hdue srcLeft destLeft m value
  rw [move_value hkey hpop, if_pos (Eq.refl src), ← hview]
  exact ⟨rfl, hinv', hview'⟩

/-- 移す先を読んで、別の key へ移す。移す先がなければ、配られた version で作る。 -/
theorem moveEnd_other (hdiff : src ≠ dest) (h : ListInv now s)
    (hpacked : ListNotPacked s dest) (hview : s.view now = views)
    (hkey : views src = .value m.expireMs content) (hsplit : SplitList (s.slots src) m content)
    (hne : content ≠ []) (hdue : expireDue now m.expireMs = false) {found : Option ListMeta}
    (hreads : Reads serde now (s.slots dest) (views dest) (.ok found)) :
    Moved serde now src dest srcLeft destLeft views (answer .element
      (moveEnd src dest srcLeft destLeft m (found.getD ⟨0, s.counter + 1, 0, 0⟩)
        { s with counter := s.counter + 1 })) := by
  have hbumped : view now { s with counter := s.counter + 1 } = views := hview
  refine moveEnd_moved (bump_inv h) hview hkey hsplit hne fun value hpop => ?_
  cases hreads with
  | missing hdkey =>
    -- 配られた version の record はまだ無い
    have hitems : (s.slots dest).items (s.counter + 1) = spread 0 [] := by
      rw [spread_nil, (h.ok dest).fresh.items_empty (Nat.lt_succ_self _)]
    have hpush : pushEnd destLeft value [] = [value] := by cases destLeft <;> rfl
    obtain ⟨hinv', hview'⟩ := @moveElement_other now { s with counter := s.counter + 1 }
      src dest hdiff m ⟨0, s.counter + 1, 0, 0⟩ content [] (bump_inv h) hsplit hne hdue hitems
      (Nat.succ_pos _) le_rfl rfl rfl srcLeft destLeft value
    rw [move_value hkey hpop, if_neg hdiff, hdkey]
    refine ⟨rfl, hinv', hview'.trans ?_⟩
    rw [hbumped, hpush]
    rfl
  | @value dm dcontent hdkey hddue hdholds =>
    have hdsplit := hdholds.split hpacked
    obtain ⟨hinv', hview'⟩ := @moveElement_other now { s with counter := s.counter + 1 }
      src dest hdiff m dm content dcontent (bump_inv h) hsplit hne hdue hdsplit.items hdsplit.pos
      ((version_le h hdsplit).trans (Nat.le_succ _)) hdholds.tail hddue srcLeft destLeft value
    rw [move_value hkey hpop, if_neg hdiff, hdkey]
    refine ⟨rfl, hinv', hview'.trans ?_⟩
    rw [hbumped]
    rfl

end

theorem listMove_moved (serde : Codec.Serde) (h : ListInv now s) (src dest : Bytes)
    (srcLeft destLeft : Bool) :
    Moved serde now src dest srcLeft destLeft (s.view now)
      (ListCommand.exec serde now (.move src dest srcLeft destLeft) s) := by
  show Moved _ _ _ _ _ _ _ (answer _
    (listMove serde now src dest srcLeft destLeft s))
  obtain ⟨hinv, hview, hpacked, hpacked'⟩ := promoteBoth_spec h src dest
  unfold listMove
  dsimp only at hinv hview hpacked hpacked' ⊢
  generalize (if src = dest then s.promote src
    else (s.promote src).promote dest) = s₁ at hinv hview hpacked hpacked' ⊢
  obtain ⟨hinv₂, hview₂, hreads⟩ := listMeta_opens serde hinv src
  have hpacked₂ := @listMeta_notPacked now s₁ serde hinv src src hpacked
  have hpacked₂' := @listMeta_notPacked now s₁ serde hinv src dest hpacked'
  rw [hview] at hview₂ hreads
  generalize s₁.listMeta serde now src = out at hinv₂ hview₂ hreads hpacked₂ hpacked₂' ⊢
  obtain ⟨reply, s₂⟩ := out
  dsimp only at hinv₂ hview₂ hreads hpacked₂ hpacked₂'
  cases hreads with
  | missing hkey =>
    refine .done ?_
    unfold ListViews.move
    rw [hkey]
    exact ⟨rfl, hinv₂, hview₂⟩
  | foreign hkey =>
    refine .foreign (.inl rfl) hkey ?_ ⟨rfl, hinv₂, hview₂⟩
    unfold ListViews.move
    rw [hkey]
  | @value m content hkey hdue hholds =>
    have hsplit := hholds.split hpacked₂
    have hlen := hholds.tail
    have hpos : 0 < content.length := length_pos_of_ne_nil hholds.ne_nil
    obtain ⟨value, hpop, -⟩ := ListMeta.popOne_spec srcLeft hholds.ne_nil hlen
    dsimp only
    rw [if_neg (by omega)]
    by_cases heq : src = dest
    · subst heq
      rw [if_pos rfl]
      exact moveEnd_same hinv₂ hview₂ hkey hsplit hholds.ne_nil hdue
    · rw [if_neg heq]
      obtain ⟨hinv₃, hview₃, hreads⟩ := listMeta_opens serde hinv₂ dest
      have hpacked₃ := @listMeta_notPacked now s₂ serde hinv₂ dest dest hpacked₂'
      have hsame := listMeta_slots_of_ne serde hinv₂ heq
      rw [hview₂] at hview₃ hreads
      generalize s₂.listMeta serde now dest = out at hinv₃ hview₃ hreads hpacked₃ hsame ⊢
      obtain ⟨reply, s₃⟩ := out
      dsimp only at hinv₃ hview₃ hreads hpacked₃ hsame
      rw [← hsame] at hsplit
      cases reply with
      | error msg =>
        cases hreads with
        | foreign hdkey =>
          refine .foreign (.inr rfl) hdkey ?_ ⟨rfl, hinv₃, hview₃⟩
          rw [move_value hkey hpop, if_neg heq, hdkey]
      | ok found =>
        exact moveEnd_other heq hinv₃ hpacked₃ hview₃ hkey hsplit hholds.ne_nil hdue hreads

theorem move_refines {src dest : Bytes} (h : ListInv now s)
    (hdec : Decodable serde (s.view now) src) (hdec' : Decodable serde (s.view now) dest)
    (srcLeft destLeft : Bool)
    (htext : Textual (s.view now) (.move src dest srcLeft destLeft)) :
    Refined serde now s (.move src dest srcLeft destLeft) := by
  show Refines now _ (move (s.view now) src dest srcLeft destLeft)
  cases listMove_moved serde h src dest srcLeft destLeft with
  | done hrefines => exact hrefines
  | @foreign key e raw hkey hview hspec hrefines =>
    have hsome : (serde.decodeEntry raw).isSome = true := by
      rcases hkey with rfl | rfl
      · exact hdec e raw hview
      · exact hdec' e raw hview
    rw [hspec, ← (foreignListError_eq_iff serde raw).mpr hsome]
    exact hrefines
  | binary hview hvalue hinvalid =>
    rw [Textual, returned, hview, Visible.elements, hvalue] at htext
    rw [htext _ mem_cons_self] at hinvalid
    cases hinvalid

end

end Onedis.Store
