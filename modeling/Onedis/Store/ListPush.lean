import Onedis.Store.ListRecords

/-!
# まとめて実行する LPUSH / RPUSH

`list_push_batch_async` は、key を一度だけ読み、手元の状態を動かし、最後に一度だけ書く。分けた list が一つでも
あれば、すべての key を分けた形にして扱う。

* `listPushBatch_spec` — まとめた実行は、別の型の key への返事のほかは、一つずつ当てたものに等しい
-/

namespace Onedis.Store

open Infra Function KeyRecords List
open Codec (wrongTypeError)

/-! ## 命令 -/

/-- pipeline の一つの push。`onlyIfExists` は LPUSHX と RPUSHX である。 -/
structure ListPush where
  key : Bytes
  left : Bool
  values : List Bytes
  onlyIfExists : Bool
  nonempty : values ≠ []
  deriving DecidableEq

def pushValues (left : Bool) (values items : List Bytes) : List Bytes :=
  values.foldl (fun items value => if left then value :: items else items ++ [value]) items

theorem pushValues_ne_nil {left : Bool} {values items : List Bytes}
    (h : values ≠ [] ∨ items ≠ []) : pushValues left values items ≠ [] := by
  unfold pushValues
  induction values generalizing items with
  | nil => exact h.resolve_left fun hne => hne rfl
  | cons value rest ih =>
    refine ih (.inr ?_)
    cases left <;> simp

/-- `[head, tail)` に並んだ list に、前か後ろから値を書き足す。 -/
def pushSlots (left : Bool) : List Bytes → ListMeta × Slots Bytes → ListMeta × Slots Bytes
  | [], st => st
  | value :: rest, (m, items) =>
    if left then pushSlots left rest ({ m with head := m.head - 1 }, items.put (m.head - 1) value)
    else pushSlots left rest ({ m with tail := m.tail + 1 }, items.put m.tail value)

theorem pushSlots_spread (left : Bool) (values : List Bytes) (e ver : Nat) (head : Int)
    (content : List Bytes) : ∃ head' : Int,
    pushSlots left values (⟨e, ver, head, head + content.length⟩, spread head content) =
      (⟨e, ver, head', head' + (pushValues left values content).length⟩,
        spread head' (pushValues left values content)) := by
  induction values generalizing head content with
  | nil => exact ⟨head, rfl⟩
  | cons value rest ih =>
    cases left with
    | true =>
      obtain ⟨head', h⟩ := ih (head - 1) (value :: content)
      refine ⟨head', Eq.trans ?_ h⟩
      rw [pushSlots, if_pos rfl, put_spread_front, length_cons]
      congr 3
      push_cast
      ring
    | false =>
      obtain ⟨head', h⟩ := ih head (content ++ [value])
      refine ⟨head', Eq.trans ?_ h⟩
      rw [pushSlots, if_neg (by decide), put_spread_back, length_append, length_singleton]
      congr 3
      push_cast
      ring

/-- 一つの命令が見える中身に対してすること。`err` は別の型の key への返事。 -/
def listPushSpec (err : Bytes → String) (c : ListPush) :
    Visible (List Bytes) → Except String Nat × Visible (List Bytes)
  | .foreign e raw => (.error (err raw), .foreign e raw)
  | .missing =>
    if c.onlyIfExists then (.ok 0, .missing)
    else (.ok (pushValues c.left c.values []).length, .value 0 (pushValues c.left c.values []))
  | .value e items =>
    (.ok (pushValues c.left c.values items).length, .value e (pushValues c.left c.values items))

/-! ## 一度に読み、一度に書く -/

namespace ListStore

/-- 命令の列に出てくる key の `ListMeta` を順に読む。 -/
def listMetas (serde : Codec.Serde) (now : Nat) : List Bytes → ListStore →
    (Bytes → Except String (Option ListMeta)) × ListStore
  | [], s => (fun _ => .ok none, s)
  | key :: rest, s =>
    let out := s.listMeta serde now key
    let others := listMetas serde now rest out.2
    (update others.1 key out.1, others.2)

def settle (s : ListStore) (counter : Nat) (dirty : List Bytes) (recs : Bytes → ListRecords)
    (ranged : Bool) : ListStore :=
  if dirty.isEmpty then s else s.commit counter dirty recs ranged

/-- 書いた key の cache を新しい `ListMeta` に置き換え、空になった key では捨てる。 -/
def recache (s : ListStore) (keys : List Bytes) (metas : Bytes → Option ListMeta) : ListStore :=
  { s with cache := fun key => if key ∈ keys then metas key else s.cache key }

end ListStore
open ListStore

/-! ## 詰めた形のままの実行 -/

/-- 詰めた list の途中の状態。 -/
structure PackedPush where
  expireMs : Nat
  items : List Bytes
  existed : Bool
  dirty : Bool

namespace PackedPush

def load : Option ListMain → Except String PackedPush
  | none => .ok ⟨0, [], false, false⟩
  | some (.packed e items) => .ok ⟨e, items, true, false⟩
  | some (.foreign _ _) => .error wrongTypeError
  | some (.split _ _ _) => .error listDecodeError

def step (c : ListPush) :
    Except String PackedPush → Except String Nat × Except String PackedPush
  | .error msg => (.error msg, .error msg)
  | .ok st =>
    if !st.existed && c.onlyIfExists then (.ok 0, .ok st)
    else
      let items := pushValues c.left c.values st.items
      (.ok items.length,
        .ok ⟨st.expireMs, items, st.existed || !c.values.isEmpty, st.dirty || !c.values.isEmpty⟩)

def isDirty : Except String PackedPush → Bool
  | .ok st => st.dirty
  | .error _ => false

def write (recs : ListRecords) (ver : Nat) : Except String PackedPush → ListRecords
  | .error _ => recs
  | .ok st =>
    if packedListFits st.items then recs.setMain (some (.packed st.expireMs st.items))
    else putListMeta recs ⟨st.expireMs, ver, 0, st.items.length⟩
      ((recs.items ver).writeFrom 0 st.items)

end PackedPush

def isSplit : Option ListMain → Bool
  | some (.split _ _ _) => true
  | _ => false

open ListPush

/-- `try_list_push_batch_packed_async`。分けた list があれば `none`。番号は key ごとに用意しておく。 -/
def tryPackedPush (now : Nat) (cmds : List ListPush) (s : ListStore) :
    Option (List (Except String Nat)) × ListStore :=
  let keys := (cmds.map key).dedup
  let s := keys.foldl (expire now) s
  if keys.any fun key => isSplit (s.slots key).main then (none, s)
  else
    let out := runKeyed key PackedPush.step
      (fun key => PackedPush.load (s.slots key).main) cmds
    (some out.1, s.settle (s.counter + keys.length)
      (keys.filter fun key => PackedPush.isDirty (out.2 key))
      (fun key => PackedPush.write (s.slots key) (batchVersion s.counter keys key) (out.2 key))
      false)

/-! ## 分けた形での実行 -/

/-- 一つの key の手元の状態。`items` は、書き足す version の要素である。 -/
structure SplitPush where
  info : Option ListMeta
  items : Slots Bytes
  dirty : Bool

namespace SplitPush

def load (recs : ListRecords) (ver : Nat) :
    Except String (Option ListMeta) → Except String SplitPush
  | .error msg => .error msg
  | .ok none => .ok ⟨none, recs.items ver, false⟩
  | .ok (some m) => .ok ⟨some m, recs.items m.version, false⟩

def step (ver : Bytes → Nat) (c : ListPush) :
    Except String SplitPush → Except String Nat × Except String SplitPush
  | .error msg => (.error msg, .error msg)
  | .ok st =>
    if st.info.isNone && c.onlyIfExists then (.ok 0, .ok st)
    else
      let m := st.info.getD ⟨0, ver c.key, 0, 0⟩
      let out := pushSlots c.left c.values (m, st.items)
      (.ok (out.1.tail - out.1.head).toNat, .ok ⟨some out.1, out.2, st.dirty || !c.values.isEmpty⟩)

def isDirty : Except String SplitPush → Bool
  | .ok st => st.dirty
  | .error _ => false

def metaOf : Except String SplitPush → Option ListMeta
  | .ok st => st.info
  | .error _ => none

def write (recs : ListRecords) : Except String SplitPush → ListRecords
  | .ok ⟨some m, items, _⟩ => putListMeta recs m items
  | _ => recs

end SplitPush

/-- `list_push_batch_async` -/
def listPushBatch (serde : Codec.Serde) (now : Nat) (cmds : List ListPush) (s : ListStore) :
    List (Except String Nat) × ListStore :=
  match tryPackedPush now cmds s with
  | (some replies, s) => (replies, s)
  | (none, s) =>
    let keys := (cmds.map key).dedup
    let loaded := listMetas serde now keys (keys.foldl promote s)
    let s := loaded.2
    let ver := batchVersion s.counter keys
    let out := runKeyed key (SplitPush.step ver)
      (fun key => SplitPush.load (s.slots key) (ver key) (loaded.1 key)) cmds
    let dirty := keys.filter fun key => SplitPush.isDirty (out.2 key)
    (out.1, (s.settle (s.counter + keys.length) dirty
      (fun key => SplitPush.write (s.slots key) (out.2 key)) false).recache dirty
        fun key => SplitPush.metaOf (out.2 key))

/-! ## 命令の前の準備 -/

/-- 見える中身を変えずに移る。 -/
structure ListStore.Quiet (now : Nat) (s s' : ListStore) : Prop where
  inv : ListInv now s'
  view_eq : s'.view now = s.view now
  counter_le : s.counter ≤ s'.counter

namespace ListStore

variable {serde : Codec.Serde} {now : Nat} {s s' s'' : ListStore} {key : Bytes}

theorem Quiet.refl (h : ListInv now s) : Quiet now s s := ⟨h, rfl, le_rfl⟩

theorem Quiet.trans (h : Quiet now s s') (h' : Quiet now s' s'') : Quiet now s s'' :=
  ⟨h'.inv, h'.view_eq.trans h.view_eq, h.counter_le.trans h'.counter_le⟩

theorem listMeta_quiet (serde : Codec.Serde) (h : ListInv now s) (key : Bytes) :
    Quiet now s (s.listMeta serde now key).2 := by
  obtain ⟨hinv, hslots, hcounter, -⟩ := listMeta_spec serde h key
  refine ⟨hinv, ?_, hcounter.ge⟩
  rw [← view_expire now s key]
  unfold view
  rw [hslots]

theorem foldl_quiet {f : ListStore → Bytes → ListStore}
    (hf : ∀ s key, ListInv now s → Quiet now s (f s key)) (keys : List Bytes)
    (h : ListInv now s) : Quiet now s (keys.foldl f s) := by
  induction keys generalizing s with
  | nil => exact .refl h
  | cons key rest ih => exact (hf s key h).trans (ih (hf s key h).inv)

theorem expireAll_quiet (keys : List Bytes) (h : ListInv now s) :
    Quiet now s (keys.foldl (expire now) s) :=
  foldl_quiet (fun s key h =>
    ⟨expire_inv h key, view_expire now s key, (expire_counter now s key).ge⟩)
    keys h

theorem promoteAll_quiet (keys : List Bytes) (h : ListInv now s) :
    Quiet now s (keys.foldl promote s) :=
  foldl_quiet (fun s key h => ⟨promote_inv h key, view_promote h key, promote_counter_le s key⟩)
    keys h

theorem expireAll_slots (now : Nat) (keys : List Bytes) (s : ListStore) (k : Bytes) :
    (keys.foldl (expire now) s).slots k =
      if k ∈ keys then (s.slots k).expireIfNeeded now else s.slots k := by
  induction keys generalizing s with
  | nil => rfl
  | cons key rest ih =>
    rw [foldl_cons, ih, expire_slots]
    have hidem := (unexpired_expireIfNeeded now (s.slots k)).expireIfNeeded
    by_cases hk : k = key
    · subst hk
      simp [hidem]
    · simp [hk]

variable {keys : List Bytes}

theorem expireAll_unexpired (now : Nat) (s : ListStore) {k : Bytes} (hk : k ∈ keys) :
    ((keys.foldl (expire now) s).slots k).Unexpired now := by
  rw [expireAll_slots, if_pos hk]
  exact unexpired_expireIfNeeded now (s.slots k)

theorem promoteAll_not_packed {k : Bytes}
    (h : k ∈ keys ∨ ∀ e items, (s.slots k).main ≠ some (.packed e items)) :
    ∀ e items, ((keys.foldl promote s).slots k).main ≠ some (.packed e items) := by
  induction keys generalizing s with
  | nil => exact h.resolve_left not_mem_nil
  | cons key rest ih =>
    refine ih ?_
    by_cases hkey : k = key
    · subst hkey
      exact .inr (promote_not_packed s k)
    · -- 一度分けた key は、ほかの key を分けても変わらない。
      rw [promote_slots_of_ne s hkey]
      exact h.imp_left fun hk => (mem_cons.mp hk).resolve_left hkey

theorem listMetas_spec (serde : Codec.Serde) (h : ListInv now s) (hnodup : keys.Nodup) :
    Quiet now s (listMetas serde now keys s).2 ∧
      (listMetas serde now keys s).2.counter = s.counter ∧
      ((listMetas serde now keys s).2.slots = (keys.foldl (expire now) s).slots) ∧
      ∀ key ∈ keys, Opened serde now ((s.slots key).expireIfNeeded now)
        ((listMetas serde now keys s).1 key) := by
  induction keys generalizing s with
  | nil => exact ⟨.refl h, rfl, rfl, by simp⟩
  | cons key rest ih =>
    obtain ⟨hnot, hrest⟩ := nodup_cons.mp hnodup
    obtain ⟨hinv, hslots, hcounter, hopened⟩ := listMeta_spec serde h key
    obtain ⟨hquiet, hcount, hexpire, hothers⟩ := ih hinv hrest
    refine ⟨(listMeta_quiet serde h key).trans hquiet, hcount.trans hcounter, ?_, ?_⟩
    · show (listMetas serde now rest (s.listMeta serde now key).2).2.slots = _
      rw [hexpire]
      funext k
      rw [foldl_cons, expireAll_slots, expireAll_slots, hslots]
    · intro k hk
      show Opened serde now _ (update
        (listMetas serde now rest (s.listMeta serde now key).2).1 key
        (s.listMeta serde now key).1 k)
      rw [update_apply]
      split
      · next heq =>
        subst heq
        rwa [expire_slots, if_pos rfl] at hopened
      · next hne =>
        have hmem := (mem_cons.mp hk).resolve_left hne
        have := hothers k hmem
        rwa [hslots, expire_slots, if_neg hne] at this

theorem settle_spec (h : ListInv now s) {counter : Nat} (hle : s.counter ≤ counter)
    {keys : List Bytes} {dirty : Bytes → Bool} {recs : Bytes → ListRecords}
    {final : Bytes → Visible (List Bytes)} (ranged : Bool)
    (hclean : ∀ key, (key ∈ keys → dirty key = false) → s.view now key = final key)
    (hwrite : ∀ key ∈ keys, dirty key = true →
      (recs key).view listLayout now = final key ∧ ListOk counter (recs key)) :
    ListInv now (s.settle counter (keys.filter dirty) recs ranged) ∧
      (s.settle counter (keys.filter dirty) recs ranged).view now = final := by
  have hclean' : ∀ key ∉ keys.filter dirty, s.view now key = final key := fun key hkey =>
    hclean key fun hmem => Bool.eq_false_iff.mpr fun hd => hkey (mem_filter.mpr ⟨hmem, hd⟩)
  unfold settle
  split
  · next hempty =>
    refine ⟨h, funext fun key => hclean' key ?_⟩
    rw [isEmpty_iff.mp hempty]
    exact not_mem_nil
  · refine ⟨commit_inv h (fun key hkey => ?_) hle _, funext fun key => ?_⟩
    · obtain ⟨hmem, hdirty⟩ := mem_filter.mp hkey
      exact (hwrite key hmem hdirty).2
    · rw [view_commit]
      split
      · next hkey =>
        obtain ⟨hmem, hdirty⟩ := mem_filter.mp hkey
        exact (hwrite key hmem hdirty).1
      · next hkey => exact hclean' key hkey

theorem settle_run {γ ρ σ : Type} {keyOf : γ → Bytes} {step : γ → σ → ρ × σ}
    {spec : γ → Visible (List Bytes) → ρ × Visible (List Bytes)} {cmds : List γ}
    {R : Bytes → σ → Visible (List Bytes) → Prop} {load : Bytes → σ} {dirty : σ → Bool}
    {recs : Bytes → σ → ListRecords} (h : ListInv now s) {counter : Nat}
    (hle : s.counter ≤ counter) (hkeys : (cmds.map keyOf).dedup = keys)
    (hstep : ∀ c ∈ cmds, ∀ st v, R (keyOf c) st v →
      (step c st).1 = (spec c v).1 ∧ R (keyOf c) (step c st).2 (spec c v).2)
    (hload : ∀ key ∈ keys, R key (load key) (s.view now key))
    (hclean : ∀ {key st v}, R key st v → dirty st = false → v = s.view now key)
    (hwrite : ∀ key ∈ keys, ∀ {st v}, R key st v → dirty st = true →
      (recs key st).view listLayout now = v ∧ ListOk counter (recs key st)) (ranged : Bool) :
    let out := runKeyed keyOf step load cmds
    let final := runKeyed keyOf spec (s.view now) cmds
    let s' := s.settle counter (keys.filter fun key => dirty (out.2 key))
      (fun key => recs key (out.2 key)) ranged
    out.1 = final.1 ∧ ListInv now s' ∧ s'.view now = final.2 ∧
      ∀ key ∈ keys, R key (out.2 key) (final.2 key) := by
  subst hkeys
  obtain ⟨hreplies, hfinal⟩ := runKeyed_simulates_on
    (fun c hc => mem_dedup.mpr (mem_map_of_mem hc)) hstep hload
  refine ⟨hreplies, and_assoc.mp ⟨settle_spec h hle ranged (fun key hkey => ?_)
    fun key hkey hdirty => hwrite key hkey (hfinal key hkey) hdirty, hfinal⟩⟩
  by_cases hmem : key ∈ (cmds.map keyOf).dedup
  · exact (hclean (hfinal key hmem) (hkey hmem)).symm
  · exact (runKeyed_untouched (fun h => hmem (mem_dedup.mpr h)) _).symm

theorem settle_slots_of_mem {counter : Nat} {dirty : List Bytes} {recs : Bytes → ListRecords}
    {ranged : Bool} (h : key ∈ dirty) :
    (s.settle counter dirty recs ranged).slots key = recs key := by
  have hne : dirty.isEmpty = false := by
    cases dirty with
    | nil => cases h
    | cons _ _ => rfl
  rw [settle, hne]
  exact commit_slots_of_mem h

theorem recache_inv (h : ListInv now s) {metas : Bytes → Option ListMeta}
    (hmetas : ∀ key ∈ keys, ∀ m, metas key = some m →
      ∃ record, (s.slots key).main = some record ∧ listMetaOf record = some m) :
    ListInv now (s.recache keys metas) where
  ok := h.ok
  cached {key m} hcache hdue := by
    change (if key ∈ keys then metas key else s.cache key) = some m at hcache
    split at hcache
    · next hkey => exact hmetas key hkey m hcache
    · exact h.cached hcache hdue

end ListStore

/-! ## 詰めた形での正しさ -/

namespace PackedPush

variable {now : Nat} {v₀ v : Visible (List Bytes)}

/-- 手元の状態が表す中身。`v₀` は命令の列の前に見えていた中身である。 -/
inductive Shows (now : Nat) (v₀ : Visible (List Bytes)) :
    Visible (List Bytes) → Except String PackedPush → Prop
  | foreign {e : Nat} {raw : Bytes} (hold : v₀ = .foreign e raw) :
      Shows now v₀ (.foreign e raw) (.error wrongTypeError)
  | missing (hold : v₀ = .missing) : Shows now v₀ .missing (.ok ⟨0, [], false, false⟩)
  | value {e : Nat} {items : List Bytes} {dirty : Bool} (hdue : expireDue now e = false)
      (hne : items ≠ []) (hclean : dirty = false → v₀ = .value e items) :
      Shows now v₀ (.value e items) (.ok ⟨e, items, true, dirty⟩)

theorem shows_load {n : Nat} {recs : ListRecords} (hok : ListOk n recs)
    (hdue : recs.Unexpired now) (hsplit : isSplit recs.main = false) :
    Shows now (recs.view listLayout now) (recs.view listLayout now) (load recs.main) := by
  rw [KeyRecords.view, hdue.live_eq]
  cases hmain : recs.main with
  | none => exact .missing rfl
  | some record =>
    cases record with
    | packed e items => exact .value (hdue _ hmain) (hok.packed hmain).1 fun _ => rfl
    | foreign e raw => exact .foreign rfl
    | split e ver span =>
      rw [hmain] at hsplit
      cases hsplit

variable {st : Except String PackedPush}

theorem shows_step (h : Shows now v₀ v st) (c : ListPush) :
    (step c st).1 = (listPushSpec (fun _ => wrongTypeError) c v).1 ∧
      Shows now v₀ (listPushSpec (fun _ => wrongTypeError) c v).2 (step c st).2 := by
  have hvalues : (!c.values.isEmpty) = true := by simp [c.nonempty]
  cases h with
  | foreign hold => exact ⟨rfl, .foreign hold⟩
  | missing hold =>
    cases hexists : c.onlyIfExists with
    | true =>
      simp only [step, listPushSpec, hexists, Bool.not_false, Bool.and_true, if_true]
      exact ⟨trivial, .missing hold⟩
    | false =>
      simp only [step, listPushSpec, hexists, Bool.and_false, Bool.false_eq_true, if_false, hvalues,
        Bool.or_true]
      exact ⟨trivial, .value rfl (pushValues_ne_nil (.inl c.nonempty)) nofun⟩
  | value hdue hne hclean =>
    simp only [step, listPushSpec, Bool.not_true, Bool.false_and, Bool.false_eq_true, if_false,
      hvalues, Bool.or_true]
    exact ⟨trivial, .value hdue (pushValues_ne_nil (.inl c.nonempty)) nofun⟩

theorem Shows.eq_of_clean (h : Shows now v₀ v st) (hclean : isDirty st = false) : v = v₀ := by
  cases h with
  | foreign hold | missing hold => exact hold.symm
  | value _ _ hkeep => exact (hkeep hclean).symm

theorem write_spec {n m ver : Nat} {recs : ListRecords} (hshow : Shows now v₀ v st)
    (hdirty : isDirty st = true) (hfresh : recs.Fresh n) (hlt : n < ver) (hle : ver ≤ m) :
    (write recs ver st).view listLayout now = v ∧ ListOk m (write recs ver st) := by
  cases hshow with
  | foreign | missing => cases hdirty
  | @value e items dirty hdue hne hclean =>
    have hm := hfresh.mono (hlt.le.trans hle)
    unfold write
    dsimp only
    split
    · next hfits =>
      exact ⟨view_packed (setMain_main ..) hdue,
        ListOk.setMain_packed hm e hne hfits⟩
    · rw [hfresh.items_empty hlt, writeFrom_empty]
      exact ⟨@view_putListMeta now recs ⟨e, ver, 0, items.length⟩ items hdue (by simp),
        @ListOk.putListMeta m recs ⟨e, ver, 0, items.length⟩ items hm (n.zero_le.trans_lt hlt)
          hle hne (by simp)⟩

end PackedPush

/-! ## 分けた形での正しさ -/

namespace SplitPush

variable {serde : Codec.Serde} {now n fresh : Nat} {v₀ v : Visible (List Bytes)}

/-- 手元の状態が表す中身。version `fresh` には、まだ何も書かれていない。 -/
inductive Shows (serde : Codec.Serde) (now n fresh : Nat) (v₀ : Visible (List Bytes)) :
    Visible (List Bytes) → Except String SplitPush → Prop
  | foreign {e : Nat} {raw : Bytes} (hold : v₀ = .foreign e raw) :
      Shows serde now n fresh v₀ (.foreign e raw) (.error (foreignListError serde raw))
  | missing (hold : v₀ = .missing) : Shows serde now n fresh v₀ .missing (.ok ⟨none, ∅, false⟩)
  | value {e ver : Nat} {head : Int} {content : List Bytes} {dirty : Bool}
      (hdue : expireDue now e = false) (hne : content ≠ []) (hpos : 0 < ver)
      (hle : ver ≤ n) (hclean : dirty = false → v₀ = .value e content) :
      Shows serde now n fresh v₀ (.value e content)
        (.ok ⟨some ⟨e, ver, head, head + content.length⟩, spread head content, dirty⟩)

theorem shows_load {counter ver : Nat} {recs : ListRecords}
    {r : Except String (Option ListMeta)} (hok : ListOk counter recs)
    (hpacked : ∀ e items, recs.main ≠ some (.packed e items))
    (hopened : Opened serde now recs r) (hlt : counter < ver) (hle : counter ≤ n) :
    Shows serde now n ver (recs.view listLayout now) (recs.view listLayout now)
      (load recs ver r) := by
  cases hopened with
  | missing hmain =>
    rw [view_missing hmain, load, hok.fresh.items_empty hlt]
    exact .missing rfl
  | foreign hmain hdue =>
    rw [view_foreign hmain hdue]
    exact .foreign rfl
  | @value record m hmain hdue hmeta =>
    obtain ⟨content, hne, hview, htail, hlayout⟩ := hok.view_of_main hmain hdue hmeta
    rw [← listMetaOf_expireMs hmeta] at hdue
    rcases hlayout with ⟨rfl, -⟩ | ⟨rfl, hpos, hitems⟩
    · exact absurd hmain (hpacked _ _)
    · obtain ⟨e, v, head, tail⟩ := m
      dsimp only at hmain hdue hview htail hpos hitems
      subst htail
      rw [hview, load, hitems]
      exact .value hdue hne hpos ((hok.fresh.version_le hmain).trans hle) fun _ => rfl

variable {st : Except String SplitPush}

theorem shows_step {ver : Bytes → Nat} {c : ListPush}
    (h : Shows serde now n (ver c.key) v₀ v st) (hpos : 0 < ver c.key)
    (hle : ver c.key ≤ n) :
    (step ver c st).1 = (listPushSpec (foreignListError serde) c v).1 ∧
      Shows serde now n (ver c.key) v₀ (listPushSpec (foreignListError serde) c v).2
        (step ver c st).2 := by
  have hvalues : (!c.values.isEmpty) = true := by simp [c.nonempty]
  cases h with
  | foreign hold => exact ⟨rfl, .foreign hold⟩
  | missing hold =>
    cases hexists : c.onlyIfExists with
    | true =>
      simp only [step, listPushSpec, hexists, Option.isNone_none, Bool.and_true, if_true]
      exact ⟨trivial, .missing hold⟩
    | false =>
      obtain ⟨head', hpush⟩ := pushSlots_spread c.left c.values 0 (ver c.key) 0 []
      rw [spread_nil, length_nil] at hpush
      simp only [step, listPushSpec, hexists, Bool.and_false, Bool.false_eq_true, if_false,
        Option.getD_none, hvalues, Bool.or_true]
      rw [show (⟨0, ver c.key, 0, 0⟩ : ListMeta) = ⟨0, ver c.key, 0, 0 + (0 : Nat)⟩ from rfl,
        hpush]
      refine ⟨?_, .value rfl (pushValues_ne_nil (.inl c.nonempty)) hpos hle nofun⟩
      dsimp only
      congr 1
      omega
  | @value e v head content dirty hdue hne hpos' hle' hclean =>
    obtain ⟨head', hpush⟩ := pushSlots_spread c.left c.values e v head content
    simp only [step, listPushSpec, Option.isNone_some, Bool.false_and, Bool.false_eq_true, if_false,
      Option.getD_some, hvalues, Bool.or_true, hpush]
    refine ⟨?_, .value hdue (pushValues_ne_nil (.inl c.nonempty)) hpos' hle' nofun⟩
    congr 1
    omega

theorem Shows.eq_of_clean (h : Shows serde now n fresh v₀ v st) (hclean : isDirty st = false) :
    v = v₀ := by
  cases h with
  | foreign hold | missing hold => exact hold.symm
  | value _ _ _ _ hkeep => exact (hkeep hclean).symm

theorem write_spec {counter : Nat} {recs : ListRecords} (hshow : Shows serde now n fresh v₀ v st)
    (hdirty : isDirty st = true) (hfresh : recs.Fresh counter) (hle : counter ≤ n) :
    (write recs st).view listLayout now = v ∧ ListOk n (write recs st) ∧ ∀ m, metaOf st = some m →
        ∃ record, (write recs st).main = some record ∧ listMetaOf record = some m := by
  cases hshow with
  | foreign | missing => cases hdirty
  | @value e ver head content dirty hdue hne hpos hver hclean =>
    refine ⟨view_putListMeta recs hdue rfl,
      ListOk.putListMeta (hfresh.mono hle) hpos hver hne rfl, fun m hm => ?_⟩
    cases hm
    exact ⟨_, setMain_main .., rfl⟩

end SplitPush

section

variable {now : Nat} {s : ListStore}

def listPushRun (err : Bytes → String) (now : Nat) (cmds : List ListPush) (s : ListStore) :
    List (Except String Nat) × (Bytes → Visible (List Bytes)) :=
  runKeyed key (listPushSpec err) (s.view now) cmds

variable {cmds : List ListPush}

theorem listPushRun_of_quiet {err : Bytes → String} {s' : ListStore}
    (h : Quiet now s s') :
    listPushRun err now cmds s = listPushRun err now cmds s' := by
  rw [listPushRun, listPushRun, h.view_eq]

def HasSplit (now : Nat) (keys : List Bytes) (s : ListStore) : Prop :=
  ∃ key ∈ keys, ∃ e ver span, (s.slots key).live now = some (.split e ver span)

theorem isSplit_iff {main : Option ListMain} :
    isSplit main = true ↔ ∃ e ver span, main = some (.split e ver span) := by
  unfold isSplit
  split
  · next e ver span => exact ⟨fun _ => ⟨e, ver, span, rfl⟩, fun _ => rfl⟩
  · next h => exact ⟨fun h' => (by cases h'), fun ⟨e, ver, span, h'⟩ => absurd h' (h e ver span)⟩

theorem any_isSplit_iff (now : Nat) (keys : List Bytes) (s : ListStore) :
    (keys.any fun key => isSplit ((keys.foldl (expire now) s).slots key).main) = true ↔
      HasSplit now keys s := by
  rw [any_eq_true, HasSplit]
  refine exists_congr fun key => and_congr_right fun hkey => ?_
  rw [isSplit_iff, expireAll_slots, if_pos hkey, expireIfNeeded_main]

theorem expireAll_packed {keys : List Bytes} (hsplit : ¬ HasSplit now keys s) {key : Bytes}
    (hkey : key ∈ keys) :
    isSplit ((keys.foldl (expire now) s).slots key).main = false ∧
      ((keys.foldl (expire now) s).slots key).Unexpired now :=
  ⟨Bool.eq_false_iff.mpr fun hs =>
      hsplit ((any_isSplit_iff now keys s).mp (any_eq_true.mpr ⟨key, hkey, hs⟩)),
    expireAll_unexpired now s hkey⟩

/-- **分けた list がなければ、詰めた形での実行は仕様どおりに働く。** -/
theorem tryPackedPush_some (h : ListInv now s)
    (hsplit : ¬ HasSplit now (cmds.map key).dedup s) :
    (tryPackedPush now cmds s).1 = some (listPushRun (fun _ => wrongTypeError) now cmds s).1 ∧
      ListInv now (tryPackedPush now cmds s).2 ∧
      (tryPackedPush now cmds s).2.view now =
        (listPushRun (fun _ => wrongTypeError) now cmds s).2 := by
  unfold tryPackedPush
  dsimp only
  set keys := (cmds.map key).dedup with hkeys
  rw [if_neg fun hany => hsplit ((any_isSplit_iff now keys s).mp hany)]
  have hquiet := expireAll_quiet keys h
  have hpacked := fun key => @expireAll_packed now s keys hsplit key
  rw [listPushRun_of_quiet hquiet]
  have hinv := hquiet.inv
  generalize keys.foldl (expire now) s = s' at hpacked hinv ⊢
  obtain ⟨hreplies, hsettled, hview, -⟩ := settle_run
    (R := fun key st v => PackedPush.Shows now (s'.view now key) v st) hinv (Nat.le_add_right ..)
    hkeys.symm (fun c _ st v hR => PackedPush.shows_step hR c)
    (fun key hkey => PackedPush.shows_load (hinv.ok key) (hpacked key hkey).2 (hpacked key hkey).1)
    (fun hR => hR.eq_of_clean)
    (fun key hkey st v hR hdirty => by
      obtain ⟨hlt, hle⟩ := batchVersion_mem s'.counter hkey
      exact PackedPush.write_spec hR hdirty (hinv.ok key).fresh hlt hle) false
  exact ⟨congrArg some hreplies, hsettled, hview⟩

def pushError (serde : Codec.Serde) (split : Prop) [Decidable split] (raw : Bytes) : String :=
  if split then foreignListError serde raw else wrongTypeError

open Classical in
/--
**まとめた実行の仕様。** 返事も残る中身も、命令を一つずつ当てたものに等しい。別の型の key への返事だけは、
分けた list が一緒にあるかどうかで変わる。
-/
theorem listPushBatch_spec (serde : Codec.Serde) (h : ListInv now s) (cmds : List ListPush) :
    (listPushBatch serde now cmds s).1 = (listPushRun (pushError serde
        (HasSplit now (cmds.map key).dedup s)) now cmds s).1 ∧
      ListInv now (listPushBatch serde now cmds s).2 ∧
      (listPushBatch serde now cmds s).2.view now = (listPushRun (pushError serde
        (HasSplit now (cmds.map key).dedup s)) now cmds s).2 := by
  by_cases hsplit : HasSplit now (cmds.map key).dedup s
  · have herr : pushError serde (HasSplit now (cmds.map key).dedup s) =
        foreignListError serde := funext fun raw => if_pos hsplit
    rw [herr, listPushBatch, tryPackedPush, if_pos ((any_isSplit_iff now _ s).mpr hsplit)]
    dsimp only
    set keys := (cmds.map key).dedup with hkeys
    have hexpired := expireAll_quiet keys h
    have hpromoted := hexpired.trans (promoteAll_quiet keys hexpired.inv)
    have hpacked : ∀ key ∈ keys, ∀ e items,
        ((keys.foldl promote (keys.foldl (expire now) s)).slots key).main ≠
          some (.packed e items) := fun key hkey => promoteAll_not_packed (.inl hkey)
    generalize keys.foldl promote (keys.foldl (expire now) s) = s₁
      at hpromoted hpacked
    obtain ⟨hquiet, -, hslots, hopened⟩ :=
      listMetas_spec serde hpromoted.inv (nodup_dedup _ : keys.Nodup)
    have hslot : ∀ key ∈ keys, (listMetas serde now keys s₁).2.slots key =
        (s₁.slots key).expireIfNeeded now := fun key hkey => by
      rw [hslots, expireAll_slots, if_pos hkey]
    rw [listPushRun_of_quiet (hpromoted.trans hquiet)]
    have hinv := hquiet.inv
    generalize listMetas serde now keys s₁ = loaded at hopened hslot hinv ⊢
    obtain ⟨metas, s₂⟩ := loaded
    dsimp only at hopened hslot hinv ⊢
    have hnot : ∀ key ∈ keys, ∀ e items, (s₂.slots key).main ≠ some (.packed e items) := by
      intro key hkey e items hmain
      rw [hslot key hkey, expireIfNeeded_main] at hmain
      exact hpacked key hkey e items (live_eq_some.mp hmain).1
    have hver : ∀ {key}, key ∈ keys → s₂.counter < batchVersion s₂.counter keys key ∧
        batchVersion s₂.counter keys key ≤ s₂.counter + keys.length :=
      fun hkey => batchVersion_mem s₂.counter hkey
    have hwrite : ∀ {key st v}, SplitPush.Shows serde now (s₂.counter + keys.length)
        (batchVersion s₂.counter keys key) (s₂.view now key) v st → _ = true → _ :=
      fun {key st v} hR hdirty =>
        SplitPush.write_spec hR hdirty (hinv.ok key).fresh (Nat.le_add_right ..)
    obtain ⟨hreplies, hsettled, hshown, hfinal⟩ := settle_run
      (R := fun key st v => SplitPush.Shows serde now (s₂.counter + keys.length)
        (batchVersion s₂.counter keys key) (s₂.view now key) v st) hinv (Nat.le_add_right ..)
      hkeys.symm
      (fun c hc st v hR => by
        obtain ⟨hlt, hle⟩ := hver (hkeys ▸ mem_dedup.mpr (mem_map_of_mem hc))
        exact SplitPush.shows_step hR (Nat.zero_lt_of_lt hlt) hle)
      (fun key hkey => by
        have hopen := hopened key hkey
        rw [← hslot key hkey] at hopen
        exact SplitPush.shows_load (hinv.ok key) (hnot key hkey) hopen (hver hkey).1
          (Nat.le_add_right ..))
      (fun hR => hR.eq_of_clean)
      (fun key hkey st v hR hdirty => ⟨(hwrite hR hdirty).1, (hwrite hR hdirty).2.1⟩) false
    refine ⟨hreplies, recache_inv hsettled fun key hkey m hm => ?_, hshown⟩
    rw [settle_slots_of_mem hkey]
    obtain ⟨hmem, hdirty⟩ := mem_filter.mp hkey
    exact (hwrite (hfinal key hmem) hdirty).2.2 m hm
  · have herr : pushError serde (HasSplit now (cmds.map key).dedup s) =
        fun _ => wrongTypeError := funext fun raw => if_neg hsplit
    obtain ⟨hreplies, hinv, hview⟩ := tryPackedPush_some h hsplit
    rw [herr, listPushBatch]
    generalize tryPackedPush now cmds s = out at hreplies hinv hview
    obtain ⟨replies, s'⟩ := out
    cases hreplies
    exact ⟨rfl, hinv, hview⟩

end

end Onedis.Store
