import Mathlib.Data.Finmap
import Onedis.Store.KeyRecords

/-!
# まとめて実行する HSET

`apply_hash_set_batch_mutations_async` は、どの key にも record がなければ新しい hash を作り、どの key も
詰めた hash か空なら詰めたまま書き換え、そうでなければ、すべて version を持つ形に移して field ごとに書く。
移すときに別の型の key が混じっていると、列の全体が失敗する。

* `hashBatch_matches_iff` — 一つずつの実行と一致するための必要十分条件
-/

namespace Onedis.Store

open Infra Function KeyRecords List Prod
open Codec (wrongTypeError)

/-! ## record と命令 -/

/-- `PackedHashFields`。詰めた hash の field と値。 -/
abbrev PackedFields := Finmap fun _ : Bytes => Bytes

/-- 分けた hash の field と、その期限。 -/
structure HashItems where
  fields : Bytes → Option Bytes
  expires : Bytes → Option Nat

instance : EmptyCollection HashItems := ⟨⟨fun _ => none, fun _ => none⟩⟩

/-- hash の record。`split` は、field に期限がありうるかの flag を持つ。 -/
abbrev HashRecords := KeyRecords PackedFields Bool HashItems

abbrev HashStore := Numbered Bytes HashRecords

abbrev HashContent := Bytes → Option (Bytes × Nat)

def HashItems.read (now : Nat) (mayHaveTtl : Bool) (items : HashItems) : HashContent := fun field =>
  match items.fields field with
  | none => none
  | some value =>
    let expire := if mayHaveTtl then (items.expires field).getD 0 else 0
    if expireDue now expire then none else some (value, expire)

def packedContent (packed : PackedFields) : HashContent :=
  fun field => (packed.lookup field).map (·, 0)

def hashLayout (now : Nat) : Layout PackedFields Bool HashItems HashContent :=
  ⟨packedContent, HashItems.read now⟩

/-- pipeline の一つの HSET。 -/
structure HashSetBatchMutation where
  key : Bytes
  fields : List (Bytes × Bytes)
  nonempty : fields ≠ []

/-! ## 一つずつの実行 -/

/-- `encode_packed_hash` が成功するか。 -/
def packedHashFits (packed : PackedFields) : Bool :=
  packedFits 128 8192 24
    (fun item : (_ : Bytes) × Bytes => decide (item.1.length < 256 ^ 2 ∧ item.2.length < 256 ^ 4))
    (fun item => 6 + item.1.length + item.2.length) packed.entries

def setPackedFields : List (Bytes × Bytes) → List Bytes → PackedFields → Nat × PackedFields
  | [], _, packed => (0, packed)
  | (field, value) :: rest, seen, packed =>
    let out := setPackedFields rest (field :: seen) (packed.insert field value)
    (if field ∉ seen ∧ field ∉ packed then out.1 + 1 else out.1, out.2)

def HashItems.putAll (items : HashItems) (packed : PackedFields) : HashItems :=
  { items with fields := fun field => (packed.lookup field).or (items.fields field) }

def putSmallHash (recs : HashRecords) (expireMs ver : Nat) (packed : PackedFields) :
    HashRecords :=
  if packedHashFits packed then recs.setMain (some (.packed expireMs packed))
  else (recs.setItems ver ((recs.items ver).putAll packed)).setMain
    (some (.split expireMs ver false))

def HashItems.assign (mayHaveTtl : Bool) (items : HashItems) (field value : Bytes) : HashItems where
  fields := update items.fields field (some value)
  expires := if mayHaveTtl then update items.expires field none else items.expires

def setSmallHash (recs : HashRecords) (c : HashSetBatchMutation) (expireMs ver : Nat)
    (packed : PackedFields) : Except String Nat × HashRecords :=
  let out := setPackedFields c.fields [] packed
  (.ok out.1, putSmallHash recs expireMs ver out.2)

/-- `hash_set_ordered_bytes_async`。返事は、新しくできた field の数。 -/
def hashSet (now : Nat) (c : HashSetBatchMutation) (ver : Nat) (recs : HashRecords) :
    Except String Nat × HashRecords :=
  match recs.live now with
  | none => setSmallHash recs c 0 ver ∅
  | some (.packed e packed) => setSmallHash recs c e ver packed
  | some (.foreign _ _) => (.error wrongTypeError, recs)
  | some (.split _ v mayHaveTtl) =>
    let items := recs.items v
    let added := (c.fields.map fst).toFinset.filter fun f => items.read now mayHaveTtl f = none
    (.ok added.card,
      recs.setItems v (c.fields.foldl (fun items p => items.assign mayHaveTtl p.1 p.2) items))

def runHashCommands (now : Nat) (muts : List HashSetBatchMutation) (s : HashStore) :
    List (Except String Nat) × HashStore :=
  s.execAll HashSetBatchMutation.key (hashSet now) muts

/-! ## まとめての実行 -/

def hashBatchKeys (muts : List HashSetBatchMutation) : List Bytes :=
  (muts.map HashSetBatchMutation.key).dedup

def absentHashStep (c : HashSetBatchMutation) (packed : PackedFields) :
    Except String Nat × PackedFields :=
  let out := setPackedFields c.fields [] packed
  (.ok out.1, out.2)

def absentHashBatch (muts : List HashSetBatchMutation) (s : HashStore) :
    List (Except String Nat) × HashStore :=
  let keys := hashBatchKeys muts
  let out := runKeyed HashSetBatchMutation.key absentHashStep (fun _ => ∅) muts
  (out.1,
    { slots := fun key =>
        if key ∈ keys then
          putSmallHash (s.slots key) 0 (batchVersion s.counter keys key) (out.2 key)
        else s.slots key
      counter := s.counter + keys.length })

/-- `promote_packed_hash_async`。別の型の record では失敗する。 -/
def promotePackedHash (ver : Nat) (recs : HashRecords) : Option String × HashRecords :=
  match recs.main with
  | none => (none, recs)
  | some (.split _ _ _) => (none, recs)
  | some (.foreign _ _) => (some wrongTypeError, recs)
  | some (.packed e packed) =>
    (none, (recs.setItems ver ((recs.items ver).putAll packed)).setMain
      (some (.split e ver false)))

def promoteHashKey (s : HashStore) (key : Bytes) : Option String × HashStore :=
  s.exec id (fun _ ver recs => promotePackedHash ver recs) key

def promoteAll : List Bytes → HashStore → Option String × HashStore
  | [], s => (none, s)
  | key :: keys, s =>
    match promoteHashKey s key with
    | (some msg, s') => (some msg, s')
    | (none, s') => promoteAll keys s'

/-- 詰めた hash の途中の状態。 -/
structure PackedHashState where
  expireMs : Nat
  fields : PackedFields
  dirty : Bool

def loadPackedHash (recs : HashRecords) : Except String PackedHashState :=
  match recs.main with
  | none => .ok ⟨0, ∅, false⟩
  | some (.packed e packed) => .ok ⟨e, packed, false⟩
  | some (.split e _ _) => .ok ⟨e, ∅, false⟩
  | some (.foreign _ _) => .error wrongTypeError

def changesFields : List (Bytes × Bytes) → PackedFields → Bool
  | [], _ => false
  | (field, value) :: rest, packed =>
    packed.lookup field != some value || changesFields rest (packed.insert field value)

def packedHashStep (c : HashSetBatchMutation) :
    Except String PackedHashState → (Except String Nat × Bool) × Except String PackedHashState
  | .error msg => ((.error msg, false), .error msg)
  | .ok state =>
    let out := setPackedFields c.fields [] state.fields
    let dirty := state.dirty || changesFields c.fields state.fields
    ((.ok out.1, !packedHashFits out.2), .ok { state with fields := out.2, dirty := dirty })

def writePackedHash (recs : HashRecords) : Except String PackedHashState → HashRecords
  | .ok state =>
    if state.dirty then recs.setMain (some (.packed state.expireMs state.fields)) else recs
  | .error _ => recs

/-- 詰めたまま書く試みの結果。 -/
inductive PackedHashAttempt
  | failed (msg : String) (s : HashStore)
  | applied (replies : List (Except String Nat)) (s : HashStore)
  | fallThrough (s : HashStore)

def promoteThenFallThrough (keys : List Bytes) (s : HashStore) : PackedHashAttempt :=
  match promoteAll keys s with
  | (some msg, s') => .failed msg s'
  | (none, s') => .fallThrough s'

def isSplitHash (recs : HashRecords) : Bool :=
  match recs.main with
  | some (.split _ _ _) => true
  | _ => false

def expireHashKeys (now : Nat) (keys : List Bytes) (s : HashStore) : HashStore :=
  { s with slots := fun key =>
      if key ∈ keys then (s.slots key).expireIfNeeded now else s.slots key }

/-- `try_apply_hash_set_packed_batch_async`。 -/
def packedHashAttempt (now : Nat) (muts : List HashSetBatchMutation) (s : HashStore) :
    PackedHashAttempt :=
  let keys := hashBatchKeys muts
  let expired := expireHashKeys now keys s
  if keys.any fun key => isSplitHash (expired.slots key) then promoteThenFallThrough keys expired
  else
    let out := runKeyed HashSetBatchMutation.key packedHashStep
      (fun key => loadPackedHash (expired.slots key)) muts
    if out.1.any snd then promoteThenFallThrough keys expired
    else .applied (out.1.map fst)
      { expired with slots := fun key =>
          if key ∈ keys then writePackedHash (expired.slots key) (out.2 key)
          else expired.slots key }

/-- field ごとに書くときの手元の状態。`mayHaveTtl` は record がなければ `none`。 -/
structure HashPipelineState where
  mayHaveTtl : Option Bool
  version : Nat
  initial : Bytes → Option Bytes
  current : Bytes → Option Bytes
  hadExpireMarker : Bytes → Bool
open HashPipelineState

def loadHashPipeline (now ver : Nat) (recs : HashRecords) : Except String HashPipelineState :=
  match recs.live now with
  | none => .ok ⟨none, ver, fun _ => none, fun _ => none, fun _ => false⟩
  | some (.packed _ _) => .ok ⟨some false, 0, fun _ => none, fun _ => none, fun _ => false⟩
  | some (.foreign _ _) => .error wrongTypeError
  | some (.split _ v mayHaveTtl) =>
    let value := fun field => ((recs.items v).read now mayHaveTtl field).map fst
    .ok ⟨some mayHaveTtl, v, value, value,
      fun field => mayHaveTtl && ((recs.items v).expires field).isSome⟩

def setCurrentFields : List (Bytes × Bytes) → List Bytes → (Bytes → Option Bytes) →
    Nat × (Bytes → Option Bytes)
  | [], _, current => (0, current)
  | (field, value) :: rest, seen, current =>
    let out := setCurrentFields rest (field :: seen) (update current field (some value))
    (if field ∉ seen ∧ current field = none then out.1 + 1 else out.1, out.2)

def hashPipelineStep (c : HashSetBatchMutation) :
    Except String HashPipelineState → Except String Nat × Except String HashPipelineState
  | .error msg => (.error msg, .error msg)
  | .ok state =>
    let out := setCurrentFields c.fields [] state.current
    (.ok out.1, .ok { state with current := out.2 })

def uniqueFields (muts : List HashSetBatchMutation) (key : Bytes) : Finset Bytes :=
  ((addressedTo HashSetBatchMutation.key key muts).flatMap
    fun c => c.fields.map fst).toFinset

namespace HashPipelineState

def rewrites (state : HashPipelineState) (fields : Finset Bytes) : Finset Bytes :=
  fields.filter fun field =>
    state.initial field ≠ state.current field ∨ state.hadExpireMarker field = true

def write (state : HashPipelineState) (fields : Finset Bytes) (recs : HashRecords) : HashRecords :=
  let rewritten := state.rewrites fields
  if rewritten = ∅ then recs
  else
    let items := recs.items state.version
    let recs' := recs.setItems state.version
      { fields := fun field =>
          if field ∈ rewritten then (state.current field).or (items.fields field)
          else items.fields field
        expires := fun field =>
          if field ∈ rewritten ∧ state.mayHaveTtl = some true then none else items.expires field }
    match state.mayHaveTtl with
    | none => recs'.setMain (some (.split 0 state.version false))
    | some _ => recs'

end HashPipelineState

def writeHashPipeline (fields : Finset Bytes) (recs : HashRecords) :
    Except String HashPipelineState → HashRecords
  | .ok state => state.write fields recs
  | .error _ => recs

def isLivePackedHash (now : Nat) (recs : HashRecords) : Bool :=
  match recs.live now with
  | some (.packed _ _) => true
  | _ => false

/-- `apply_hash_set_batch_mutations_async` のうち、field ごとに書く部分。詰めた hash は移してから読み直す。 -/
def splitHashBatch (now : Nat) (muts : List HashSetBatchMutation) (start : HashStore) :
    List (Except String Nat) × HashStore :=
  let keys := hashBatchKeys muts
  let s := (promoteAll (keys.filter fun key => isLivePackedHash now (start.slots key)) start).2
  let out := runKeyed HashSetBatchMutation.key hashPipelineStep
    (fun key => loadHashPipeline now (batchVersion s.counter keys key) (s.slots key)) muts
  (out.1,
    { slots := fun key =>
        if key ∈ keys then writeHashPipeline (uniqueFields muts key) (s.slots key) (out.2 key)
        else s.slots key
      counter := s.counter + keys.length })

/-- `apply_hash_set_batch_mutations_async`。 -/
def applyHashBatch (now : Nat) (muts : List HashSetBatchMutation) (s : HashStore) :
    List (Except String Nat) × HashStore :=
  if (hashBatchKeys muts).all fun key => (s.slots key).main.isNone then absentHashBatch muts s
  else
    match packedHashAttempt now muts s with
    | .failed msg s' => (muts.map fun _ => .error msg, s')
    | .applied replies s' => (replies, s')
    | .fallThrough s' => splitHashBatch now muts s'

/-! ## 見える中身の上の仕様 -/

def emptyContent : HashContent := fun _ => none

def assignContent (fields : List (Bytes × Bytes)) (content : HashContent) : HashContent :=
  fields.foldl (fun m p => update m p.1 (some (p.2, 0))) content

def addedFields (fields : List (Bytes × Bytes)) (content : HashContent) : Nat :=
  ((fields.map fst).toFinset.filter fun f => content f = none).card

def hashSpec (c : HashSetBatchMutation) (v : Visible HashContent) :
    Except String Nat × Visible HashContent :=
  match v.parts emptyContent with
  | none => (.error wrongTypeError, v)
  | some (e, content) =>
    (.ok (addedFields c.fields content), .value e (assignContent c.fields content))

theorem addedFields_cons (field value : Bytes) (rest : List (Bytes × Bytes))
    (content : HashContent) : addedFields ((field, value) :: rest) content =
      if content field = none then addedFields rest (update content field (some (value, 0))) + 1
      else addedFields rest (update content field (some (value, 0))) := by
  have herase : (rest.map fst).toFinset.filter
      (fun f => update content field (some (value, 0)) f = none) =
        ((rest.map fst).toFinset.filter fun f => content f = none).erase field := by
    ext f
    by_cases hf : f = field
    · simp [hf]
    · simp [hf]
  unfold addedFields
  rw [herase, map_cons, toFinset_cons, Finset.filter_insert]
  split
  · rw [Finset.card_insert_eq_ite, Finset.card_erase_eq_ite]
    split
    · next hmem =>
      have := Finset.card_pos.mpr ⟨field, hmem⟩
      omega
    · rfl
  · next hsome =>
    simp [hsome]

theorem packedContent_insert (packed : PackedFields) (field value : Bytes) :
    packedContent (packed.insert field value) =
      update (packedContent packed) field (some (value, 0)) := by
  funext f
  unfold packedContent
  by_cases hf : f = field
  · subst hf
    simp
  · rw [update_of_ne hf, Finmap.lookup_insert_of_ne _ hf]

variable {packed : PackedFields}

theorem setPackedFields_spec (fields : List (Bytes × Bytes)) {seen : List Bytes}
    (hseen : ∀ f ∈ seen, f ∈ packed) :
    (setPackedFields fields seen packed).1 = addedFields fields (packedContent packed) ∧
      packedContent (setPackedFields fields seen packed).2 =
        assignContent fields (packedContent packed) := by
  induction fields generalizing seen packed with
  | nil => exact ⟨rfl, rfl⟩
  | cons p rest ih =>
    obtain ⟨field, value⟩ := p
    have hnext : ∀ f ∈ field :: seen, f ∈ packed.insert field value := by
      intro f hf
      rcases mem_cons.mp hf with rfl | hf
      · exact Finmap.mem_insert.mpr (.inl rfl)
      · exact Finmap.mem_insert.mpr (.inr (hseen f hf))
    obtain ⟨hcount, hcontent⟩ := ih hnext
    rw [packedContent_insert] at hcount hcontent
    refine ⟨?_, hcontent⟩
    have hnew : (field ∉ seen ∧ field ∉ packed) ↔ packedContent packed field = none := by
      rw [packedContent, Option.map_eq_none_iff, Finmap.lookup_eq_none]
      exact and_iff_right_of_imp fun hn hs => hn (hseen field hs)
    rw [addedFields_cons, ← hcount]
    simp [setPackedFields, if_congr hnew rfl rfl]

variable {content : HashContent}

theorem setCurrentFields_spec (fields : List (Bytes × Bytes)) {seen : List Bytes}
    (hseen : ∀ f ∈ seen, content f ≠ none) :
    (setCurrentFields fields seen fun f => (content f).map fst) =
      (addedFields fields content, fun f => (assignContent fields content f).map fst) := by
  induction fields generalizing seen content with
  | nil => rfl
  | cons p rest ih =>
    obtain ⟨field, value⟩ := p
    have hnext : ∀ f ∈ field :: seen, update content field (some (value, 0)) f ≠ none := by
      intro f hf
      by_cases heq : f = field
      · simp [heq]
      · rw [update_of_ne heq]
        exact hseen f ((mem_cons.mp hf).resolve_left heq)
    have hcurrent : (update (fun f => (content f).map fst) field (some value)) =
        fun f => (update content field (some (value, 0)) f).map fst := by
      funext f
      by_cases heq : f = field
      · simp [heq]
      · simp [update_of_ne heq]
    have hnew : (field ∉ seen ∧ (content field).map fst = none) ↔ content field = none := by
      rw [Option.map_eq_none_iff]
      exact and_iff_right_of_imp fun hn hs => hseen field hs hn
    simp only [setCurrentFields, hcurrent, ih hnext, if_congr hnew rfl rfl]
    rw [addedFields_cons]
    rfl

theorem read_assign (now : Nat) (mayHaveTtl : Bool) (items : HashItems) (field value : Bytes) :
    (items.assign mayHaveTtl field value).read now mayHaveTtl =
      update (items.read now mayHaveTtl) field (some (value, 0)) := by
  funext f
  by_cases hf : f = field
  · subst hf
    cases mayHaveTtl <;> simp [HashItems.read, HashItems.assign]
  · cases mayHaveTtl <;> simp [HashItems.read, HashItems.assign, update_of_ne hf]

theorem read_foldl_assign (now : Nat) (mayHaveTtl : Bool) (fields : List (Bytes × Bytes))
    (items : HashItems) :
    (fields.foldl (fun items p => items.assign mayHaveTtl p.1 p.2) items).read now mayHaveTtl =
      assignContent fields (items.read now mayHaveTtl) := by
  induction fields generalizing items with
  | nil => rfl
  | cons p rest ih =>
    rw [foldl_cons, ih, read_assign]
    rfl

theorem read_putAll_empty (now : Nat) (packed : PackedFields) :
    ((∅ : HashItems).putAll packed).read now false = packedContent packed := by
  funext f
  simp only [HashItems.read, HashItems.putAll, packedContent, show (∅ : HashItems).fields f = none
    from rfl, Option.or_none, Bool.false_eq_true, if_false, expireDue_zero]
  cases packed.lookup f <;> rfl

/-! ## 一つの命令 -/

section

variable (now : Nat) {n m ver : Nat} {recs : HashRecords}

variable {e : Nat}

variable (packed : PackedFields)

theorem promoted_view (hfresh : recs.Fresh n) (hlt : n < ver)
    (hdue : expireDue now e = false) :
    ((recs.setItems ver ((recs.items ver).putAll packed)).setMain
        (some (.split e ver false))).view (hashLayout now) now =
      .value e (packedContent packed) := by
  rw [view_setSplit hdue, hfresh.items_empty hlt]
  exact congrArg (Visible.value e) (read_putAll_empty now packed)

theorem promoted_fresh (hfresh : recs.Fresh n) (hlt : n < ver)
    (hle : ver ≤ m) :
    ((recs.setItems ver ((recs.items ver).putAll packed)).setMain
        (some (.split e ver false))).Fresh m :=
  ((hfresh.mono (hlt.le.trans hle)).setItems hle _).setMain_split hle ..

theorem putSmallHash_spec (hfresh : recs.Fresh n) (hlt : n < ver)
    (hle : ver ≤ m) (hdue : expireDue now e = false) :
    (putSmallHash recs e ver packed).view (hashLayout now) now = .value e (packedContent packed) ∧
      (putSmallHash recs e ver packed).Fresh m := by
  unfold putSmallHash
  split
  · exact ⟨view_packed (setMain_main ..) hdue,
      (hfresh.mono (hlt.le.trans hle)).setMain_packed ..⟩
  · exact ⟨promoted_view now packed hfresh hlt hdue,
      promoted_fresh packed hfresh hlt hle⟩

theorem setSmallHash_spec {packed : PackedFields} (c : HashSetBatchMutation) (hfresh : recs.Fresh n)
    (hdue : expireDue now e = false) {v : Visible HashContent}
    (hv : v.parts emptyContent = some (e, packedContent packed)) :
    Meets (view (hashLayout now) now) (Fresh (n + 1)) (setSmallHash recs c e (n + 1) packed)
      (hashSpec c v) := by
  obtain ⟨hcount, hcontent⟩ := setPackedFields_spec c.fields (forall_mem_nil (· ∈ packed))
  obtain ⟨hview, hfresh'⟩ := putSmallHash_spec now (setPackedFields c.fields [] packed).2 hfresh
    (Nat.lt_succ_self n) le_rfl hdue
  simp only [hashSpec, hv]
  exact ⟨congrArg Except.ok hcount, hview.trans (congrArg _ hcontent), hfresh'⟩

theorem hashSet_spec (c : HashSetBatchMutation) (hfresh : recs.Fresh n) :
    Meets (view (hashLayout now) now) (Fresh (n + 1)) (hashSet now c (n + 1) recs)
      (hashSpec c (recs.view (hashLayout now) now)) := by
  unfold hashSet
  cases hlive : recs.live now with
  | none =>
    refine setSmallHash_spec now c hfresh rfl ?_
    rw [view, hlive]
    rfl
  | some record =>
    obtain ⟨hmain, hdue⟩ := live_eq_some.mp hlive
    cases record with
    | packed e packed =>
      refine setSmallHash_spec now c hfresh hdue ?_
      rw [view, hlive]
      rfl
    | foreign e raw =>
      rw [view_foreign hmain hdue]
      exact ⟨rfl, view_foreign hmain hdue, hfresh.mono (Nat.le_succ n)⟩
    | split e v mayHaveTtl =>
      rw [view_split hmain hdue]
      refine ⟨rfl, ?_, (hfresh.setItems (hfresh.version_le hmain) _).mono (Nat.le_succ n)⟩
      rw [view_split (show (recs.setItems _ _).main = _ from hmain) hdue,
        setItems_items_self]
      exact congrArg (Visible.value e) (read_foldl_assign now mayHaveTtl c.fields (recs.items v))

end

section

variable (now : Nat) (muts : List HashSetBatchMutation) {s : HashStore}

abbrev HashOk (s : HashStore) : Prop := s.Satisfies fun n recs => recs.Fresh n

/-- 時刻 `now` に見える中身。 -/
def hashViews (now : Nat) (s : HashStore) (key : Bytes) : Visible HashContent :=
  (s.slots key).view (hashLayout now) now

theorem runHashCommands_refines (hs : HashOk s) :
    Numbered.Runs (view (hashLayout now) now) Fresh (runHashCommands now muts s)
      (runKeyed HashSetBatchMutation.key hashSpec (hashViews now s) muts) :=
  Numbered.execAll_refines hs (fun _ _ _ h hle => h.mono hle)
    (fun c _ _ hfresh => hashSet_spec now c hfresh) muts

end

/-! ## 列の後の中身 -/

def fieldsOf (cs : List HashSetBatchMutation) : Finset Bytes :=
  (cs.flatMap fun c => c.fields.map fst).toFinset

def contentAfter (content : HashContent) (cs : List HashSetBatchMutation) : HashContent :=
  cs.foldl (fun m c => assignContent c.fields m) content

variable {fields : List (Bytes × Bytes)} {f : Bytes}

theorem assignContent_of_notMem (h : f ∉ fields.map fst) (content : HashContent) :
    assignContent fields content f = content f := by
  induction fields generalizing content with
  | nil => rfl
  | cons p rest ih =>
    rw [map_cons, mem_cons, not_or] at h
    exact (ih h.2 _).trans (update_of_ne h.1 _ _)

theorem assignContent_of_mem (h : f ∈ fields.map fst) (content : HashContent) :
    ∃ value, assignContent fields content f = some (value, 0) := by
  induction fields generalizing content with
  | nil => cases h
  | cons p rest ih =>
    by_cases hrest : f ∈ rest.map fst
    · exact ih hrest _
    · rcases mem_cons.mp h with rfl | hmem
      · exact ⟨p.2, (assignContent_of_notMem hrest _).trans (update_self ..)⟩
      · exact absurd hmem hrest

variable {cs : List HashSetBatchMutation}

theorem contentAfter_eq (content : HashContent) (cs : List HashSetBatchMutation) :
    contentAfter content cs = assignContent (cs.flatMap (·.fields)) content :=
  foldl_flatMap.symm

theorem mem_fieldsOf : f ∈ fieldsOf cs ↔ f ∈ (cs.flatMap (·.fields)).map fst := by
  rw [fieldsOf, mem_toFinset, map_flatMap]

theorem contentAfter_of_notMem (h : f ∉ fieldsOf cs) (content : HashContent) :
    contentAfter content cs f = content f := by
  rw [contentAfter_eq]
  exact assignContent_of_notMem (mem_fieldsOf.not.mp h) content

theorem hashSpec_parts (c : HashSetBatchMutation) (v : Visible HashContent) :
    (hashSpec c v).2.parts emptyContent =
      (v.parts emptyContent).map fun p => (p.1, assignContent c.fields p.2) := by
  cases v <;> rfl

theorem foldl_hashSpec_parts (cs : List HashSetBatchMutation) (v : Visible HashContent) :
    (cs.foldl (fun v c => (hashSpec c v).2) v).parts emptyContent =
      (v.parts emptyContent).map fun p => (p.1, contentAfter p.2 cs) := by
  induction cs generalizing v with
  | nil => exact Option.map_id'.symm
  | cons c cs ih =>
    rw [foldl_cons, ih, hashSpec_parts, Option.map_map]
    rfl

theorem foldl_hashSpec_ne_missing (hcs : cs ≠ []) (v : Visible HashContent) :
    cs.foldl (fun v c => (hashSpec c v).2) v ≠ .missing := by
  induction cs generalizing v with
  | nil => exact absurd rfl hcs
  | cons c cs ih =>
    cases cs with
    | nil => cases v <;> exact nofun
    | cons d cs => exact ih (by simp) _

theorem eq_value_of_parts {V : Type} (empty : V) {content : V} {v : Visible V} {e : Nat}
    (hne : v ≠ .missing) (h : v.parts empty = some (e, content)) : v = .value e content := by
  cases v with
  | missing => exact absurd rfl hne
  | foreign e' raw => cases h
  | value e' content' => cases h; rfl

variable {muts : List HashSetBatchMutation} {key : Bytes}

theorem mem_hashBatchKeys : key ∈ hashBatchKeys muts ↔ key ∈ muts.map HashSetBatchMutation.key :=
  mem_dedup

variable {c : HashSetBatchMutation}

theorem key_mem_hashBatchKeys (hc : c ∈ muts) : c.key ∈ hashBatchKeys muts :=
  mem_hashBatchKeys.mpr (mem_map_of_mem hc)

theorem addressedTo_ne_nil (h : key ∈ hashBatchKeys muts) :
    addressedTo HashSetBatchMutation.key key muts ≠ [] := by
  rwa [Ne, addressedTo_eq_nil, not_not, ← mem_hashBatchKeys]

section

variable {views : Bytes → Visible HashContent} {e : Nat}

theorem hashRun_eq_value (hkey : key ∈ hashBatchKeys muts)
    (h : ((runKeyed HashSetBatchMutation.key hashSpec views muts).2 key).parts emptyContent =
      some (e, content)) :
    (runKeyed HashSetBatchMutation.key hashSpec views muts).2 key = .value e content := by
  refine eq_value_of_parts emptyContent ?_ h
  rw [runKeyed_state]
  exact foldl_hashSpec_ne_missing (addressedTo_ne_nil hkey) _

theorem hashRun_value (hkey : key ∈ hashBatchKeys muts)
    (h : (views key).parts emptyContent = some (e, content)) :
    (runKeyed HashSetBatchMutation.key hashSpec views muts).2 key =
      .value e (contentAfter content (addressedTo HashSetBatchMutation.key key muts)) := by
  refine hashRun_eq_value hkey ?_
  rw [runKeyed_state, foldl_hashSpec_parts, h]
  rfl

theorem hashRun_foreign
    (h : ((runKeyed HashSetBatchMutation.key hashSpec views muts).2 key).parts emptyContent =
      none) : (runKeyed HashSetBatchMutation.key hashSpec views muts).2 key = views key := by
  rw [runKeyed_state] at h ⊢
  rw [foldl_hashSpec_parts, Option.map_eq_none_iff] at h
  obtain ⟨e, raw, hv⟩ := Visible.parts_eq_none.mp h
  rw [hv]
  induction addressedTo HashSetBatchMutation.key key muts with
  | nil => rfl
  | cons c cs ih => exact ih

end

/-! ## 三つの経路 -/

section

variable (now : Nat) (muts : List HashSetBatchMutation) {s : HashStore}

/-- まとめて実行した結果が、`hashSpec` の実行と同じ返事を出し、同じ中身を残す。 -/
def FollowsHashSpec (s : HashStore) (out : List (Except String Nat) × HashStore) : Prop :=
  out.1 = (runKeyed HashSetBatchMutation.key hashSpec (hashViews now s) muts).1 ∧
    ∀ key, hashViews now out.2 key =
      (runKeyed HashSetBatchMutation.key hashSpec (hashViews now s) muts).2 key

variable {muts} in
/-- 手元の状態に当て、列に出てくる key を書く。`R` は手元の状態と `hashSpec` の状態の対応である。 -/
theorem FollowsHashSpec.of_states {σ : Type} {R : Bytes → σ → Visible HashContent → Prop}
    {step : HashSetBatchMutation → σ → Except String Nat × σ} {load : Bytes → σ}
    {write : Bytes → σ → HashRecords} {counter : Nat}
    (hstep : ∀ c ∈ muts, ∀ st v, R c.key st v →
      (step c st).1 = (hashSpec c v).1 ∧ R c.key (step c st).2 (hashSpec c v).2)
    (hload : ∀ key ∈ hashBatchKeys muts, R key (load key) (hashViews now s key))
    (hwrite : ∀ key ∈ hashBatchKeys muts, ∀ st,
      R key st ((runKeyed HashSetBatchMutation.key hashSpec (hashViews now s) muts).2 key) →
      (write key st).view (hashLayout now) now =
        (runKeyed HashSetBatchMutation.key hashSpec (hashViews now s) muts).2 key) :
    let out := runKeyed HashSetBatchMutation.key step load muts
    FollowsHashSpec now muts s (out.1, ⟨fun key =>
      if key ∈ hashBatchKeys muts then write key (out.2 key) else s.slots key, counter⟩) := by
  obtain ⟨hreplies, hstates⟩ :=
    runKeyed_simulates_on (fun c hc => key_mem_hashBatchKeys hc) hstep hload
  refine ⟨hreplies, fun key => ?_⟩
  simp only [hashViews]
  split
  · next hkey => exact hwrite key hkey _ (hstates key hkey)
  · next hkey =>
    rw [runKeyed_untouched fun h => hkey (mem_hashBatchKeys.mpr h)]
    rfl

theorem absentHashBatch_follows (hs : HashOk s)
    (hnone : ∀ key ∈ hashBatchKeys muts, (s.slots key).main = none) :
    FollowsHashSpec now muts s (absentHashBatch muts s) := by
  have hparts : ∀ key ∈ hashBatchKeys muts,
      (hashViews now s key).parts emptyContent = some (0, emptyContent) := by
    intro key hkey
    rw [hashViews, view_missing (hnone key hkey)]
    rfl
  refine FollowsHashSpec.of_states now
    (R := fun _ packed v => Visible.parts emptyContent v = some (0, packedContent packed))
    (fun c _ packed v hv => ?_) hparts fun key hkey packed hpacked => ?_
  · obtain ⟨hcount, hcontent⟩ := setPackedFields_spec c.fields (forall_mem_nil (· ∈ packed))
    refine ⟨?_, ?_⟩
    · simp [absentHashStep, hashSpec, hv, hcount]
    · rw [hashSpec_parts, hv, absentHashStep, hcontent]
      rfl
  · obtain ⟨hlt, hle⟩ := batchVersion_mem s.counter hkey
    rw [hashRun_value hkey (hparts key hkey)] at hpacked ⊢
    refine (putSmallHash_spec now _ (hs key) hlt hle rfl).1.trans ?_
    exact congrArg (Visible.value 0) (Prod.ext_iff.mp (Option.some.inj hpacked)).2.symm

end

/-! ## 移し替え -/

def IsForeign (recs : HashRecords) : Prop := ∃ e raw, recs.main = some (.foreign e raw)

def NotPacked (recs : HashRecords) : Prop := ∀ e packed, recs.main ≠ some (.packed e packed)

section

variable (now : Nat) {n : Nat} {recs : HashRecords}

theorem promotePackedHash_view (hfresh : recs.Fresh n) :
    (promotePackedHash (n + 1) recs).2.view (hashLayout now) now =
      recs.view (hashLayout now) now := by
  unfold promotePackedHash
  split
  · rfl
  · rfl
  · rfl
  · next e packed hmain =>
    cases hdue : expireDue now e with
    | false =>
      rw [promoted_view now packed hfresh (Nat.lt_succ_self n) hdue,
        view_packed hmain hdue]
      rfl
    | true => rw [view_due (setMain_main ..) hdue, view_due hmain hdue]

theorem promotePackedHash_fresh (hfresh : recs.Fresh n) :
    (promotePackedHash (n + 1) recs).2.Fresh (n + 1) := by
  have hmono := hfresh.mono (Nat.le_succ n)
  unfold promotePackedHash
  split
  · exact hmono
  · exact hmono
  · exact hmono
  · next e packed hmain => exact promoted_fresh packed hfresh (Nat.lt_succ_self n) le_rfl

theorem promotePackedHash_isForeign (ver : Nat) :
    IsForeign (promotePackedHash ver recs).2 ↔ IsForeign recs := by
  unfold promotePackedHash IsForeign
  split <;> simp_all

theorem promotePackedHash_error [Decidable (IsForeign recs)] (ver : Nat) :
    (promotePackedHash ver recs).1 = if IsForeign recs then some wrongTypeError else none := by
  cases hmain : recs.main with
  | none => simp [promotePackedHash, IsForeign, hmain]
  | some record => cases record <;> simp [promotePackedHash, IsForeign, hmain]

end

section

variable {s : HashStore}

theorem promoteHashKey_slots (key k : Bytes) : (promoteHashKey s key).2.slots k =
    if k = key then (promotePackedHash (s.counter + 1) (s.slots key)).2 else s.slots k := by
  split
  · next h => subst h; exact update_self ..
  · next h => exact update_of_ne h ..

theorem promoteHashKey_views (now : Nat) (hs : HashOk s) (key : Bytes) :
    hashViews now (promoteHashKey s key).2 = hashViews now s := by
  funext k
  unfold hashViews
  rw [promoteHashKey_slots]
  split
  · next h => rw [h, promotePackedHash_view now (hs key)]
  · rfl

theorem promoteHashKey_ok (hs : HashOk s) (key : Bytes) : HashOk (promoteHashKey s key).2 := by
  intro k
  rw [promoteHashKey_slots]
  split
  · exact promotePackedHash_fresh (hs key)
  · exact (hs k).mono (Nat.le_succ _)

theorem promoteHashKey_isForeign (key k : Bytes) :
    IsForeign ((promoteHashKey s key).2.slots k) ↔ IsForeign (s.slots k) := by
  rw [promoteHashKey_slots]
  split
  · next h => rw [h, promotePackedHash_isForeign]
  · rfl

theorem promoteHashKey_notPacked {key k : Bytes} (h : k = key ∨ NotPacked (s.slots k)) :
    NotPacked ((promoteHashKey s key).2.slots k) := by
  rw [promoteHashKey_slots]
  split
  · unfold promotePackedHash NotPacked
    intro e packed h
    split at h <;> simp_all
  · next hne => exact h.resolve_left hne

end

structure Promoted (now : Nat) (keys : List Bytes) (s : HashStore)
    (out : Option String × HashStore) : Prop where
  views : hashViews now out.2 = hashViews now s
  ok : HashOk out.2
  failed : (∃ key ∈ keys, IsForeign (s.slots key)) → out.1 = some wrongTypeError
  succeeded : (∀ key ∈ keys, ¬ IsForeign (s.slots key)) → out.1 = none ∧
    ∀ key, key ∈ keys ∨ NotPacked (s.slots key) → NotPacked (out.2.slots key)

theorem promoteAll_promoted (now : Nat) {s : HashStore} (hs : HashOk s) (keys : List Bytes) :
    Promoted now keys s (promoteAll keys s) := by
  classical
  induction keys generalizing s with
  | nil => exact ⟨rfl, hs, by simp, fun _ => ⟨rfl, fun key h => h.resolve_left (by simp)⟩⟩
  | cons key keys ih =>
    have hreply : (promoteHashKey s key).1 =
        if IsForeign (s.slots key) then some wrongTypeError else none := promotePackedHash_error _
    have hviews := promoteHashKey_views now hs key
    have hok := promoteHashKey_ok hs key
    have hforeign := promoteHashKey_isForeign (s := s) key
    have hpacked : ∀ k, k = key ∨ NotPacked (s.slots k) →
        NotPacked ((promoteHashKey s key).2.slots k) := fun k => promoteHashKey_notPacked
    unfold promoteAll
    generalize promoteHashKey s key = out at hreply hviews hok hforeign hpacked ⊢
    obtain ⟨reply, s'⟩ := out
    by_cases h : IsForeign (s.slots key)
    · rw [if_pos h] at hreply
      subst hreply
      exact ⟨hviews, hok, fun _ => rfl, fun hno => absurd h (hno key mem_cons_self)⟩
    · rw [if_neg h] at hreply
      subst hreply
      have hrest := ih hok
      refine ⟨hrest.views.trans hviews, hrest.ok, ?_, ?_⟩
      · rintro ⟨k, hk, hf⟩
        rcases mem_cons.mp hk with rfl | hk
        · exact absurd hf h
        · exact hrest.failed ⟨k, hk, (hforeign k).mpr hf⟩
      · intro hno
        obtain ⟨hnone, hnot⟩ := hrest.succeeded fun k hk hf =>
          hno k (mem_cons_of_mem key hk) ((hforeign k).mp hf)
        refine ⟨hnone, fun k hk => hnot k ?_⟩
        rcases hk with hk | hk
        · rcases mem_cons.mp hk with rfl | hk
          · exact .inr (hpacked k (.inl rfl))
          · exact .inl hk
        · exact .inr (hpacked k (.inr hk))

/-! ## field ごとに書く経路 -/

/-- 手元の状態は、読み込んだものから `current` だけが変わる。 -/
def HashPipelineRel (now ver : Nat) (recs : HashRecords)
    (state : Except String HashPipelineState) (v : Visible HashContent) : Prop :=
  match loadHashPipeline now ver recs with
  | .error msg => state = .error msg ∧ msg = wrongTypeError ∧
      v.parts emptyContent = none
  | .ok loaded => ∃ e content, v.parts emptyContent = some (e, content) ∧
      state = .ok { loaded with current := fun f => (content f).map fst }

section

variable {now n ver : Nat} {recs : HashRecords}

theorem notPacked_live (h : NotPacked recs) (e : Nat) (packed : PackedFields) :
    recs.live now ≠ some (.packed e packed) :=
  fun hlive => h e packed (live_eq_some.mp hlive).1

theorem loadHashPipeline_rel (hnot : NotPacked recs) :
    HashPipelineRel now ver recs (loadHashPipeline now ver recs)
      (recs.view (hashLayout now) now) := by
  unfold HashPipelineRel loadHashPipeline view
  cases hlive : recs.live now with
  | none => exact ⟨0, emptyContent, rfl, rfl⟩
  | some record =>
    cases record with
    | packed e packed => exact absurd hlive (notPacked_live hnot e packed)
    | foreign e raw => exact ⟨rfl, rfl, rfl⟩
    | split e v mayHaveTtl => exact ⟨e, _, rfl, rfl⟩

theorem hashPipelineRel_step (c : HashSetBatchMutation) {state : Except String HashPipelineState}
    {v : Visible HashContent} (h : HashPipelineRel now ver recs state v) :
    (hashPipelineStep c state).1 = (hashSpec c v).1 ∧
      HashPipelineRel now ver recs (hashPipelineStep c state).2 (hashSpec c v).2 := by
  unfold HashPipelineRel at h ⊢
  cases hload : loadHashPipeline now ver recs with
  | error msg =>
    rw [hload] at h
    obtain ⟨rfl, rfl, hparts⟩ := h
    refine ⟨by simp [hashSpec, hparts, hashPipelineStep], rfl, rfl, ?_⟩
    rw [hashSpec_parts, hparts]
    rfl
  | ok loaded =>
    rw [hload] at h
    obtain ⟨e, content, hparts, rfl⟩ := h
    have hset := setCurrentFields_spec c.fields (forall_mem_nil (content · ≠ none))
    refine ⟨?_, e, assignContent c.fields content, ?_, ?_⟩
    · simp [hashSpec, hparts, hashPipelineStep, hset]
    · rw [hashSpec_parts, hparts]
      rfl
    · simp [hashPipelineStep, hset]

theorem read_rewritten {mayHaveTtl : Bool} {items : HashItems} {fields : Finset Bytes}
    {content : HashContent} (hmem : ∀ f ∈ fields, ∃ value, content f = some (value, 0))
    (hnot : ∀ f, f ∉ fields → content f = items.read now mayHaveTtl f)
    {rewritten : Finset Bytes}
    (hrewritten : ∀ f, f ∈ rewritten ↔ f ∈ fields ∧
      ((items.read now mayHaveTtl f).map fst ≠ (content f).map fst ∨
        (mayHaveTtl && (items.expires f).isSome) = true))
    {clears : Prop} [Decidable clears] (hclears : clears ↔ mayHaveTtl = true) :
    HashItems.read now mayHaveTtl
      { fields := fun f =>
          if f ∈ rewritten then ((content f).map fst).or (items.fields f) else items.fields f
        expires := fun f => if f ∈ rewritten ∧ clears then none else items.expires f } =
      content := by
  funext f
  by_cases hf : f ∈ fields
  · obtain ⟨value, hvalue⟩ := hmem f hf
    by_cases hre : f ∈ rewritten
    · cases mayHaveTtl <;> simp [HashItems.read, hre, hvalue, hclears]
    · -- 書き直さない field は、同じ値を期限なしで持っている
      have hsame := (hrewritten f).not.mp hre
      simp only [hf, true_and, not_or, not_not, Bool.not_eq_true] at hsame
      obtain ⟨hread, hmarker⟩ := hsame
      rw [hvalue] at hread ⊢
      simp only [HashItems.read, hre, if_false, false_and] at hread ⊢
      cases hfield : items.fields f with
      | none => simp [hfield] at hread
      | some stored =>
        cases mayHaveTtl with
        | false => simpa [hfield] using hread
        | true =>
          have hexpire : items.expires f = none := by simpa using hmarker
          simpa [hfield, hexpire] using hread
  · have hre : f ∉ rewritten := fun h => hf ((hrewritten f).mp h).1
    rw [hnot f hf]
    simp [HashItems.read, hre]

variable {cs : List HashSetBatchMutation}

theorem fieldsOf_nonempty (hcs : cs ≠ []) : ∃ f, f ∈ fieldsOf cs := by
  obtain ⟨c, rest, rfl⟩ := exists_cons_of_ne_nil hcs
  obtain ⟨p, fields, hfields⟩ := exists_cons_of_ne_nil c.nonempty
  refine ⟨p.1, ?_⟩
  rw [fieldsOf, mem_toFinset, flatMap_cons, hfields]
  exact mem_append_left _ mem_cons_self

theorem hashPipeline_write_view (hfresh : recs.Fresh n) (hlt : n < ver) (hnot : NotPacked recs)
    (hcs : cs ≠ []) {loaded : HashPipelineState}
    (hload : loadHashPipeline now ver recs = .ok loaded) {e : Nat}
    (hparts : (recs.view (hashLayout now) now).parts emptyContent = some (e, content)) :
    (write
        { loaded with current := fun f => (contentAfter content cs f).map fst }
        (fieldsOf cs) recs).view (hashLayout now) now = .value e (contentAfter content cs) := by
  have hmem : ∀ f ∈ fieldsOf cs, ∃ value, contentAfter content cs f = some (value, 0) :=
    fun f hf => contentAfter_eq content cs ▸ assignContent_of_mem (mem_fieldsOf.mp hf) content
  unfold view at hparts
  unfold loadHashPipeline at hload
  cases hlive : recs.live now with
  | none =>
    rw [hlive] at hload hparts
    cases hload
    cases hparts
    obtain ⟨f, hf⟩ := fieldsOf_nonempty hcs
    have hempty := hfresh.items_empty hlt
    have hread := @read_rewritten now false (recs.items ver) _ _ hmem
      (fun f hf => by rw [contentAfter_of_notMem hf, hempty]; rfl)
      (rewrites ⟨none, ver, fun _ => none,
        fun f => (contentAfter emptyContent cs f).map fst, fun _ => false⟩ (fieldsOf cs))
      (fun f => by
        rw [hempty]
        simp [rewrites, HashItems.read, EmptyCollection.emptyCollection])
      (none = some true) _ (by simp)
    obtain ⟨value, hvalue⟩ := hmem f hf
    rw [write, if_neg]
    · exact (view_setSplit rfl ..).trans (congrArg (Visible.value 0) hread)
    · refine Finset.ne_empty_of_mem (a := f) ?_
      simp [rewrites, hf, hvalue]
  | some record =>
    obtain ⟨hmain, hdue⟩ := live_eq_some.mp hlive
    rw [hlive] at hload hparts
    cases record with
    | packed e packed => exact absurd hmain (hnot e packed)
    | foreign e raw => cases hload
    | split e v mayHaveTtl =>
      cases hload
      cases hparts
      have hread := @read_rewritten now mayHaveTtl (recs.items v) _ _ hmem
        (fun f hf => contentAfter_of_notMem hf _)
        (rewrites ⟨some mayHaveTtl, v,
          fun f => ((recs.items v).read now mayHaveTtl f).map fst,
          fun f =>
            (contentAfter ((hashLayout now).split mayHaveTtl (recs.items v)) cs f).map fst,
          fun f => mayHaveTtl && ((recs.items v).expires f).isSome⟩ (fieldsOf cs))
        (fun f => by simp [rewrites])
        (some mayHaveTtl = some true) _ (by simp)
      rw [write]
      split
      · next hnone =>
        rw [view_split hmain hdue]
        simp only [hnone, Finset.notMem_empty, if_false, false_and] at hread
        exact congrArg (Visible.value e) hread
      · rw [view_split (show (recs.setItems _ _).main = _ from hmain) hdue,
          setItems_items_self]
        exact congrArg (Visible.value e) hread

end

section

variable (now : Nat) (muts : List HashSetBatchMutation) {s : HashStore}

theorem filter_isLivePackedHash (hnot : ∀ key ∈ hashBatchKeys muts, NotPacked (s.slots key)) :
    ((hashBatchKeys muts).filter fun key => isLivePackedHash now (s.slots key)) = [] := by
  refine filter_eq_nil_iff.mpr fun key hkey => ?_
  unfold isLivePackedHash
  split
  · next e packed hlive => exact absurd hlive (notPacked_live (hnot key hkey) e packed)
  · simp

theorem splitHashBatch_follows (hs : HashOk s)
    (hnot : ∀ key ∈ hashBatchKeys muts, NotPacked (s.slots key)) :
    FollowsHashSpec now muts s (splitHashBatch now muts s) := by
  unfold splitHashBatch
  simp only [filter_isLivePackedHash now muts hnot, promoteAll]
  refine FollowsHashSpec.of_states now (R := fun key => HashPipelineRel now
    (batchVersion s.counter (hashBatchKeys muts) key) (s.slots key))
    (fun c _ state v hrel => hashPipelineRel_step c hrel)
    (fun key hkey => loadHashPipeline_rel (hnot key hkey)) fun key hkey state hrel => ?_
  have hload : HashPipelineRel now (batchVersion s.counter (hashBatchKeys muts) key)
    (s.slots key) _ _ := loadHashPipeline_rel (hnot key hkey)
  unfold HashPipelineRel at hrel hload
  cases hl : loadHashPipeline now (batchVersion s.counter (hashBatchKeys muts) key)
      (s.slots key) with
  | error msg =>
    rw [hl] at hrel hload
    obtain ⟨rfl, -, hparts⟩ := hrel
    exact (hashRun_foreign hparts).symm
  | ok loaded =>
    rw [hl] at hrel hload
    obtain ⟨e, content, hparts, -⟩ := hload
    obtain ⟨e', content', hfinal, rfl⟩ := hrel
    rw [hashRun_value hkey (show (hashViews now s key).parts emptyContent = _ from hparts)]
      at hfinal ⊢
    obtain ⟨-, rfl⟩ := Prod.ext_iff.mp (Option.some.inj hfinal)
    exact hashPipeline_write_view (hs key) (batchVersion_mem s.counter hkey).1 (hnot key hkey)
      (addressedTo_ne_nil hkey) hl hparts

end

/-! ## 詰めたまま書き換える経路 -/

theorem assignContent_of_unchanged (h : changesFields fields packed = false) :
    assignContent fields (packedContent packed) = packedContent packed := by
  induction fields generalizing packed with
  | nil => rfl
  | cons p rest ih =>
    simp only [changesFields, Bool.or_eq_false_iff, bne_eq_false_iff_eq] at h
    have hinsert : packed.insert p.1 p.2 = packed := by
      refine Finmap.ext_lookup fun f => ?_
      by_cases hf : f = p.1
      · rw [hf, Finmap.lookup_insert, h.1]
      · exact Finmap.lookup_insert_of_ne _ hf
    have hsame : update (packedContent packed) p.1 (some (p.2, 0)) =
        packedContent packed := by rw [← packedContent_insert, hinsert]
    exact (congrArg (assignContent rest) hsame).trans (ih (hinsert ▸ h.2))

/-- 手元の状態と `hashSpec` の状態の対応。 -/
def PackedHashRel (now : Nat) (start : Visible HashContent) (state : Except String PackedHashState)
    (v : Visible HashContent) : Prop :=
  match state with
  | .error msg => msg = wrongTypeError ∧ v.parts emptyContent = none
  | .ok state => v.parts emptyContent = some (state.expireMs, packedContent state.fields) ∧
      expireDue now state.expireMs = false ∧ (state.dirty = false → v = start)

section

variable {now : Nat} {recs : HashRecords}

theorem loadPackedHash_rel (hdue : recs.Unexpired now) (hsplit : isSplitHash recs = false) :
    PackedHashRel now (recs.view (hashLayout now) now) (loadPackedHash recs)
      (recs.view (hashLayout now) now) := by
  unfold loadPackedHash PackedHashRel view
  rw [hdue.live_eq]
  cases hmain : recs.main with
  | none => exact ⟨rfl, rfl, fun _ => rfl⟩
  | some record =>
    cases record with
    | packed e packed => exact ⟨rfl, hdue _ hmain, fun _ => rfl⟩
    | split e v mayHaveTtl => simp [isSplitHash, hmain] at hsplit
    | foreign e raw => exact ⟨rfl, rfl⟩

theorem packedHashRel_step (c : HashSetBatchMutation) {start v : Visible HashContent}
    {state : Except String PackedHashState} (h : PackedHashRel now start state v) :
    (packedHashStep c state).1.1 = (hashSpec c v).1 ∧
      PackedHashRel now start (packedHashStep c state).2 (hashSpec c v).2 := by
  cases state with
  | error msg =>
    obtain ⟨rfl, hparts⟩ := h
    refine ⟨by simp [hashSpec, hparts, packedHashStep], rfl, ?_⟩
    rw [hashSpec_parts, hparts]
    rfl
  | ok state =>
    obtain ⟨hparts, hdue, hclean⟩ := h
    obtain ⟨hcount, hcontent⟩ := setPackedFields_spec c.fields (forall_mem_nil (· ∈ state.fields))
    refine ⟨?_, ?_, hdue, fun hdirty => ?_⟩
    · simp [hashSpec, hparts, packedHashStep, hcount]
    · rw [hashSpec_parts, hparts, Option.map_some, hcontent]
    · simp only [Bool.or_eq_false_iff] at hdirty
      rw [← hclean hdirty.1]
      have hsame := assignContent_of_unchanged hdirty.2
      have hvalue : v = .value state.expireMs (packedContent state.fields) := by
        refine eq_value_of_parts emptyContent ?_ hparts
        rintro rfl
        -- key がなければ、最初の field は必ず新しい
        obtain ⟨p, rest, hfields⟩ := exists_cons_of_ne_nil c.nonempty
        have hlookup := hdirty.2
        simp only [hfields, changesFields, Bool.or_eq_false_iff, bne_eq_false_iff_eq] at hlookup
        have hempty := congrFun (Prod.ext_iff.mp (Option.some.inj hparts)).2 p.1
        simp [emptyContent, packedContent, hlookup.1] at hempty
      rw [hvalue]
      exact congrArg (Visible.value _) hsame

end

section

variable (now : Nat) (muts : List HashSetBatchMutation) {s : HashStore}

theorem packedHash_follows (hdue : ∀ key ∈ hashBatchKeys muts, (s.slots key).Unexpired now)
    (hsplit : ∀ key ∈ hashBatchKeys muts, isSplitHash (s.slots key) = false) :
    FollowsHashSpec now muts s ((runKeyed HashSetBatchMutation.key packedHashStep
          (fun key => loadPackedHash (s.slots key)) muts).1.map Prod.fst,
        { s with slots := fun key =>
            if key ∈ hashBatchKeys muts then
              writePackedHash (s.slots key) ((runKeyed HashSetBatchMutation.key packedHashStep
                (fun key => loadPackedHash (s.slots key)) muts).2 key)
            else s.slots key }) := by
  obtain ⟨hfst, hsnd⟩ := Prod.ext_iff.mp (runKeyed_map HashSetBatchMutation.key packedHashStep
    Prod.fst (fun key => loadPackedHash (s.slots key)) muts)
  dsimp only at hfst hsnd
  rw [← hfst, ← hsnd]
  refine FollowsHashSpec.of_states now (R := fun key => PackedHashRel now (hashViews now s key))
    (fun c _ state v hrel => packedHashRel_step c hrel)
    (fun key hkey => loadPackedHash_rel (hdue key hkey) (hsplit key hkey))
    fun key hkey state hrel => ?_
  cases state with
  | error msg => exact (hashRun_foreign hrel.2).symm
  | ok state =>
    obtain ⟨hparts, hnotDue, hclean⟩ := hrel
    cases hdirty : state.dirty with
    | false =>
      rw [hclean hdirty]
      simp [writePackedHash, hdirty, hashViews]
    | true =>
      rw [hashRun_eq_value hkey hparts]
      simp only [writePackedHash, hdirty, if_true]
      exact view_packed (setMain_main ..) hnotDue

end

/-! ## 詰めきれなくなる列 -/

def packedAfter (packed : PackedFields) (cs : List HashSetBatchMutation) : PackedFields :=
  cs.foldl (fun packed c => (setPackedFields c.fields [] packed).2) packed

def packedBody (now : Nat) (recs : HashRecords) : PackedFields :=
  match recs.live now with
  | some (.packed _ packed) => packed
  | _ => ∅

def LiveForeign (now : Nat) (s : HashStore) (key : Bytes) : Prop :=
  ∃ e raw, (s.slots key).live now = some (.foreign e raw)

def LiveSplit (now : Nat) (s : HashStore) (key : Bytes) : Prop :=
  ∃ e ver mayHaveTtl, (s.slots key).live now = some (.split e ver mayHaveTtl)

def Overflows (now : Nat) (s : HashStore) (muts : List HashSetBatchMutation) : Prop :=
  ∃ done c rest, muts = done ++ c :: rest ∧ ¬ LiveForeign now s c.key ∧
    packedHashFits (packedAfter (packedBody now (s.slots c.key))
      (addressedTo HashSetBatchMutation.key c.key (done ++ [c]))) = false

def HashBatchBlocked (now : Nat) (s : HashStore) (muts : List HashSetBatchMutation) : Prop :=
  (∃ key ∈ hashBatchKeys muts, LiveForeign now s key) ∧
    ((∃ key ∈ hashBatchKeys muts, LiveSplit now s key) ∨ Overflows now s muts)

variable (cs : List HashSetBatchMutation)

theorem foldl_packedHashStep_ok (state : PackedHashState) :
    ∃ state', cs.foldl (fun state c => (packedHashStep c state).2) (.ok state) = .ok state' ∧
      state'.fields = packedAfter state.fields cs := by
  induction cs generalizing state with
  | nil => exact ⟨state, rfl, rfl⟩
  | cons c cs ih => exact ih _

theorem foldl_packedHashStep_error (msg : String) :
    cs.foldl (fun state c => (packedHashStep c state).2) (.error msg) = .error msg := by
  induction cs with
  | nil => rfl
  | cons c cs ih => exact ih

/-! ## 期限を調べた後の record -/

section

variable (now : Nat) {s : HashStore}

theorem expireHashKeys_views (keys : List Bytes) :
    hashViews now (expireHashKeys now keys s) = hashViews now s := by
  funext key
  simp only [hashViews, expireHashKeys]
  split
  · exact view_expireIfNeeded ..
  · rfl

theorem expireHashKeys_ok (hs : HashOk s) (keys : List Bytes) :
    HashOk (expireHashKeys now keys s) := by
  intro key
  simp only [expireHashKeys]
  split
  · exact (hs key).expireIfNeeded now
  · exact hs key

variable {keys : List Bytes} {key : Bytes}

theorem expireHashKeys_main (hkey : key ∈ keys) :
    ((expireHashKeys now keys s).slots key).main = (s.slots key).live now := by
  simp only [expireHashKeys, if_pos hkey]
  exact expireIfNeeded_main now (s.slots key)

theorem isForeign_expireHashKeys (hkey : key ∈ keys) :
    IsForeign ((expireHashKeys now keys s).slots key) ↔ LiveForeign now s key := by
  rw [IsForeign, expireHashKeys_main now hkey]
  rfl

theorem isSplitHash_expireHashKeys (hkey : key ∈ keys) :
    isSplitHash ((expireHashKeys now keys s).slots key) = true ↔ LiveSplit now s key := by
  unfold isSplitHash LiveSplit
  rw [expireHashKeys_main now hkey]
  split
  · next e ver mayHaveTtl hlive => exact iff_of_true rfl ⟨e, ver, mayHaveTtl, hlive⟩
  · next hlive =>
    refine iff_of_false (by simp) ?_
    rintro ⟨e, ver, mayHaveTtl, h⟩
    exact hlive e ver mayHaveTtl h

theorem loadPackedHash_expired (hkey : key ∈ keys) (hsplit : ¬ LiveSplit now s key) :
    (LiveForeign now s key ∧
      loadPackedHash ((expireHashKeys now keys s).slots key) = .error wrongTypeError) ∨
    (¬ LiveForeign now s key ∧ ∃ state, state.fields = packedBody now (s.slots key) ∧
      loadPackedHash ((expireHashKeys now keys s).slots key) = .ok state) := by
  unfold loadPackedHash packedBody LiveForeign
  rw [expireHashKeys_main now hkey]
  cases hlive : (s.slots key).live now with
  | none => exact .inr ⟨by simp, _, rfl, rfl⟩
  | some record =>
    cases record with
    | packed e packed => exact .inr ⟨by simp, _, rfl, rfl⟩
    | split e ver mayHaveTtl => exact absurd ⟨e, ver, mayHaveTtl, hlive⟩ hsplit
    | foreign e raw => exact .inl ⟨⟨e, raw, rfl⟩, rfl⟩

theorem packedHashStep_overflow (hkey : c.key ∈ keys) (hsplit : ¬ LiveSplit now s c.key)
    (done : List HashSetBatchMutation) :
    (packedHashStep c ((runKeyed HashSetBatchMutation.key packedHashStep
        (fun key => loadPackedHash ((expireHashKeys now keys s).slots key)) done).2 c.key)).1.2 =
      true ↔ ¬ LiveForeign now s c.key ∧
        packedHashFits (packedAfter (packedBody now (s.slots c.key))
          (addressedTo HashSetBatchMutation.key c.key (done ++ [c]))) = false := by
  rw [runKeyed_state, addressedTo_append, addressedTo_cons_self, addressedTo_nil]
  rcases loadPackedHash_expired now hkey hsplit with
    ⟨hforeign, hload⟩ | ⟨hforeign, state, hbody, hload⟩
  · rw [hload, foldl_packedHashStep_error]
    exact iff_of_false (by simp [packedHashStep]) fun h => h.1 hforeign
  · obtain ⟨state', hfold, hfields⟩ := foldl_packedHashStep_ok
      (addressedTo HashSetBatchMutation.key c.key done) state
    rw [hload, hfold, and_iff_right hforeign, packedAfter, foldl_append, ← hbody]
    simp [packedHashStep, hfields, packedAfter]

theorem overflow_iff (muts : List HashSetBatchMutation)
    (hsplit : ∀ key ∈ hashBatchKeys muts, ¬ LiveSplit now s key) :
    (runKeyed HashSetBatchMutation.key packedHashStep (fun key => loadPackedHash
        ((expireHashKeys now (hashBatchKeys muts) s).slots key)) muts).1.any snd =
      true ↔ Overflows now s muts := by
  have hstep : ∀ done c rest, muts = done ++ c :: rest → c.key ∈ hashBatchKeys muts :=
    fun done c rest h => key_mem_hashBatchKeys (by simp [h])
  rw [any_eq_true]
  constructor
  · rintro ⟨r, hr, hover⟩
    obtain ⟨done, c, rest, heq, rfl⟩ := mem_runKeyed.mp hr
    have hkey := hstep done c rest heq
    exact ⟨done, c, rest, heq, (packedHashStep_overflow now hkey (hsplit _ hkey) done).mp hover⟩
  · rintro ⟨done, c, rest, heq, hover⟩
    have hkey := hstep done c rest heq
    exact ⟨_, mem_runKeyed.mpr ⟨done, c, rest, heq, rfl⟩,
      (packedHashStep_overflow now hkey (hsplit _ hkey) done).mpr hover⟩

end

/-! ## 二つの実行の比較 -/

section

variable (now : Nat) (muts : List HashSetBatchMutation) {s : HashStore}

def HashRunsAgree (s : HashStore) : Prop :=
  (applyHashBatch now muts s).1 = (runHashCommands now muts s).1 ∧
    ∀ key, hashViews now (applyHashBatch now muts s).2 key =
      hashViews now (runHashCommands now muts s).2 key

variable {now muts} in
theorem FollowsHashSpec.agree {out : List (Except String Nat) × HashStore}
    (h : FollowsHashSpec now muts s out) (hs : HashOk s)
    (hout : applyHashBatch now muts s = out) : HashRunsAgree now muts s := by
  obtain ⟨hreplies, hviews, -⟩ := runHashCommands_refines now muts hs
  unfold HashRunsAgree
  rw [hout, hreplies]
  exact ⟨h.1, fun key => (h.2 key).trans (hviews key).symm⟩

theorem FollowsHashSpec.of_views {t : HashStore} {out : List (Except String Nat) × HashStore}
    (hviews : hashViews now t = hashViews now s) (h : FollowsHashSpec now muts t out) :
    FollowsHashSpec now muts s out := by
  unfold FollowsHashSpec at h ⊢
  rwa [hviews] at h

theorem parts_of_not_foreign (h : ¬ LiveForeign now s key) :
    ∃ p, (hashViews now s key).parts emptyContent = some p := by
  unfold hashViews view
  cases hlive : (s.slots key).live now with
  | none => exact ⟨_, rfl⟩
  | some record =>
    cases record with
    | packed e packed => exact ⟨_, rfl⟩
    | split e ver mayHaveTtl => exact ⟨_, rfl⟩
    | foreign e raw => exact absurd ⟨e, raw, hlive⟩ h

theorem exists_ok_reply (hs : HashOk s) (hc : c ∈ muts) (hforeign : ¬ LiveForeign now s c.key) :
    ∃ added, .ok added ∈ (runHashCommands now muts s).1 := by
  obtain ⟨done, rest, rfl⟩ := append_of_mem hc
  obtain ⟨p, hparts⟩ := parts_of_not_foreign now hforeign
  rw [(runHashCommands_refines now _ hs).1]
  refine ⟨addedFields c.fields
    (contentAfter p.2 (addressedTo HashSetBatchMutation.key c.key done)),
    mem_runKeyed.mpr ⟨done, c, rest, rfl, ?_⟩⟩
  rw [runKeyed_state, hashSpec, foldl_hashSpec_parts, hparts]
  rfl

def TriggersPromotion (s : HashStore) : Prop :=
  (∃ key ∈ hashBatchKeys muts, LiveSplit now s key) ∨ Overflows now s muts

variable {now muts} in
theorem TriggersPromotion.exists_command (h : TriggersPromotion now muts s) :
    ∃ c ∈ muts, ¬ LiveForeign now s c.key := by
  rcases h with ⟨key, hkey, e, ver, mayHaveTtl, hlive⟩ | ⟨done, c, rest, rfl, hforeign, -⟩
  · obtain ⟨c, hc, rfl⟩ := mem_map.mp (mem_hashBatchKeys.mp hkey)
    refine ⟨c, hc, ?_⟩
    rintro ⟨e', raw, hlive'⟩
    rw [hlive] at hlive'
    cases hlive'
  · exact ⟨c, by simp, hforeign⟩

theorem packedHashAttempt_of_trigger (h : TriggersPromotion now muts s) :
    packedHashAttempt now muts s = promoteThenFallThrough (hashBatchKeys muts)
      (expireHashKeys now (hashBatchKeys muts) s) := by
  unfold packedHashAttempt
  dsimp only
  split
  · rfl
  · next hno =>
    have hsplit : ∀ key ∈ hashBatchKeys muts, ¬ LiveSplit now s key := fun key hkey hlive =>
      hno (any_eq_true.mpr ⟨key, hkey, (isSplitHash_expireHashKeys now hkey).mpr hlive⟩)
    have hover : Overflows now s muts :=
      h.resolve_left fun ⟨key, hkey, hlive⟩ => hsplit key hkey hlive
    rw [if_pos ((overflow_iff now muts hsplit).mpr hover)]

theorem packedHashAttempt_of_not_trigger (h : ¬ TriggersPromotion now muts s) :
    ∃ replies s', packedHashAttempt now muts s = .applied replies s' ∧
      FollowsHashSpec now muts s (replies, s') := by
  have hsplit : ∀ key ∈ hashBatchKeys muts, ¬ LiveSplit now s key :=
    fun key hkey hlive => h (.inl ⟨key, hkey, hlive⟩)
  have hflag : ∀ key ∈ hashBatchKeys muts,
      isSplitHash ((expireHashKeys now (hashBatchKeys muts) s).slots key) = false :=
    fun key hkey => Bool.eq_false_iff.mpr fun hflag =>
      hsplit key hkey ((isSplitHash_expireHashKeys now hkey).mp hflag)
  have hany : ¬ (hashBatchKeys muts).any (fun key =>
      isSplitHash ((expireHashKeys now (hashBatchKeys muts) s).slots key)) = true := by
    simpa using hflag
  have hover : ¬ _ = true := (overflow_iff now muts hsplit).not.mpr fun hover => h (.inr hover)
  refine ⟨_, _, ?_, FollowsHashSpec.of_views now muts (expireHashKeys_views now _)
    (packedHash_follows now muts (fun key hkey => ?_) hflag)⟩
  · rw [packedHashAttempt, if_neg hany, if_neg hover]
  · simp only [expireHashKeys, if_pos hkey]
    exact unexpired_expireIfNeeded now (s.slots key)

/--
**HSET をまとめて実行した結果が、一つずつの結果と一致する条件。** 別の型の key と、version を持つ hash
（または詰めきれなくなる hash）とが一つの列に同居しないとき、またそのときに限る。
-/
theorem hashBatch_matches_iff (hs : HashOk s) :
    HashRunsAgree now muts s ↔ ¬ HashBatchBlocked now s muts := by
  have hexpired := expireHashKeys_ok now hs (hashBatchKeys muts)
  have hviews : hashViews now (expireHashKeys now (hashBatchKeys muts) s) = hashViews now s :=
    expireHashKeys_views now _
  by_cases habsent : (hashBatchKeys muts).all fun key => (s.slots key).main.isNone
  · have hnone : ∀ key ∈ hashBatchKeys muts, (s.slots key).main = none := by
      simpa using habsent
    refine iff_of_true ?_ ?_
    · exact (absentHashBatch_follows now muts hs hnone).agree hs (if_pos habsent)
    · rintro ⟨⟨key, hkey, e, raw, hlive⟩, -⟩
      rw [live_eq_none_of_main (hnone key hkey)] at hlive
      cases hlive
  · have hbatch : applyHashBatch now muts s = match packedHashAttempt now muts s with
        | .failed msg s' => (muts.map fun _ => .error msg, s')
        | .applied replies s' => (replies, s')
        | .fallThrough s' => splitHashBatch now muts s' := if_neg habsent
    by_cases htrigger : TriggersPromotion now muts s
    · rw [packedHashAttempt_of_trigger now muts htrigger, promoteThenFallThrough] at hbatch
      have hpromoted := promoteAll_promoted now hexpired (hashBatchKeys muts)
      generalize promoteAll _ _ = out at hbatch hpromoted
      obtain ⟨reply, s'⟩ := out
      by_cases hforeign : ∃ key ∈ hashBatchKeys muts, LiveForeign now s key
      · -- 列の全体が失敗するので、別の型でない key への HSET の返事が食い違う
        refine iff_of_false ?_ fun hblocked => hblocked ⟨hforeign, htrigger⟩
        obtain ⟨key, hkey, hlive⟩ := hforeign
        have hreply : reply = some wrongTypeError :=
          hpromoted.failed ⟨key, hkey, (isForeign_expireHashKeys now hkey).mpr hlive⟩
        subst hreply
        intro hagree
        obtain ⟨c, hc, hnot⟩ := htrigger.exists_command
        obtain ⟨added, hadded⟩ := exists_ok_reply now muts hs hc hnot
        rw [← hagree.1, hbatch] at hadded
        obtain ⟨d, -, herror⟩ := mem_map.mp hadded
        cases herror
      · refine iff_of_true ?_ fun hblocked => hforeign hblocked.1
        obtain ⟨hreply, hnot⟩ := hpromoted.succeeded fun key hkey hlive =>
          hforeign ⟨key, hkey, (isForeign_expireHashKeys now hkey).mp hlive⟩
        subst hreply
        have hfollows := splitHashBatch_follows now muts hpromoted.ok fun key hkey =>
          hnot key (.inl hkey)
        exact (FollowsHashSpec.of_views now muts (hpromoted.views.trans hviews)
          hfollows).agree hs hbatch
    · obtain ⟨replies, s', hattempt, hfollows⟩ :=
        packedHashAttempt_of_not_trigger now muts htrigger
      rw [hattempt] at hbatch
      exact iff_of_true (hfollows.agree hs hbatch) fun hblocked => htrigger hblocked.2

end

namespace MixedHashBatch

/-- version 1 の hash `h = (f ↦ 1)` と、string の key `s` がある。 -/
def store : HashStore where
  slots key :=
    { main :=
        if key = [104] then some (.split 0 1 false)
        else if key = [115] then some (.foreign 0 [118]) else none
      items := fun ver =>
        if key = [104] ∧ ver = 1 then
          ⟨fun f => if f = [102] then some [49] else none, fun _ => none⟩
        else ∅ }
  counter := 1

def setHash : HashSetBatchMutation := ⟨[104], [([102], [50])], by simp⟩

def setString : HashSetBatchMutation := ⟨[115], [([102], [50])], by simp⟩

theorem hset_fails_with_string : (applyHashBatch 1000 [setHash, setString] store).1 =
        [.error wrongTypeError, .error wrongTypeError] ∧
      (runHashCommands 1000 [setHash, setString] store).1 = [.ok 0, .error wrongTypeError] ∧
      ¬ HashRunsAgree 1000 [setHash, setString] store := by
  refine ⟨rfl, rfl, fun h => ?_⟩
  have hreplies : [Except.error wrongTypeError, .error wrongTypeError] =
      [Except.ok 0, .error wrongTypeError] := h.1
  cases hreplies

theorem store_ok : HashOk store := by
  intro key
  refine ⟨?_, ?_⟩
  · intro e ver info hmain
    simp only [store] at hmain
    split at hmain
    · cases hmain
      exact le_rfl
    · split at hmain <;> cases hmain
  · intro ver hlt
    exact if_neg fun h => by
      have : 1 < ver := hlt
      omega

/-- 同じ key への二つ目の命令。前の命令が書いた field も書き直す。 -/
def setAgain : HashSetBatchMutation := ⟨[104], [([102], [51]), ([103], [52])], by simp⟩

theorem hset_twice_agrees : (applyHashBatch 1000 [setHash, setAgain] store).1 = [.ok 0, .ok 1] ∧
    HashRunsAgree 1000 [setHash, setAgain] store := by
  refine ⟨rfl, (hashBatch_matches_iff 1000 [setHash, setAgain] store_ok).mpr ?_⟩
  rintro ⟨⟨key, hkey, e, raw, hlive⟩, -⟩
  have hkey : key = [104] := by simpa [hashBatchKeys, setHash, setAgain] using hkey
  subst hkey
  cases hlive

end MixedHashBatch

end Onedis.Store
