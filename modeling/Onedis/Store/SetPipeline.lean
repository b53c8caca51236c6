import Mathlib.Data.Finset.Card
import Mathlib.Data.List.Dedup
import Onedis.Store.KeyRecords

/-!
# まとめて実行する SADD / SREM

`apply_set_batch_mutations_async` は、key を一度だけ読み、member の集合を手元で変え、最後に一度だけ書く。違いは
期限だけに現れ、途中で空になった set でも最初の期限が残る。

* `setBatch_matches_iff` — 一つずつの実行と一致するための必要十分条件
-/

namespace Onedis.Store

open Infra KeyRecords Visible Finset
open Codec (wrongTypeError)

/-! ## 命令 -/

/-- pipeline の一つの SADD か SREM。 -/
inductive SetBatchMutation
  | add (key : Bytes) (members : List Bytes)
  | remove (key : Bytes) (members : List Bytes)
  deriving DecidableEq

/-- set の record。`split` の main record は member の数を持つ。 -/
abbrev SetRecords := KeyRecords (Finset Bytes) Nat (Finset Bytes)

def setLayout : Layout (Finset Bytes) Nat (Finset Bytes) (Finset Bytes) :=
  ⟨id, fun _ items => items⟩

def insertMembers : List Bytes → Finset Bytes → Nat × Finset Bytes
  | [], set => (0, set)
  | member :: rest, set =>
    let out := insertMembers rest (insert member set)
    (if member ∈ set then out.1 else out.1 + 1, out.2)

def removeMembers : List Bytes → Finset Bytes → Nat × Finset Bytes
  | [], set => (0, set)
  | member :: rest, set =>
    let out := removeMembers rest (set.erase member)
    (if member ∈ set then out.1 + 1 else out.1, out.2)

open List

theorem insertMembers_eq (members : List Bytes) (set : Finset Bytes) :
    insertMembers members set = ((members.toFinset \ set).card, set ∪ members.toFinset) := by
  induction members generalizing set with
  | nil => simp [insertMembers]
  | cons member rest ih =>
    simp only [insertMembers, ih, toFinset_cons]
    refine Prod.ext ?_ (by ext x; simp)
    by_cases h : member ∈ set
    · rw [if_pos h, insert_eq_of_mem h, insert_sdiff_of_mem _ h]
    · rw [if_neg h, insert_sdiff_of_notMem _ h, sdiff_insert,
        card_erase_eq_ite, card_insert_eq_ite]
      split
      · next hmem =>
        have := card_pos.mpr ⟨member, hmem⟩
        omega
      · rfl

theorem removeMembers_eq (members : List Bytes) (set : Finset Bytes) :
    removeMembers members set = ((set ∩ members.toFinset).card, set \ members.toFinset) := by
  induction members generalizing set with
  | nil => simp [removeMembers]
  | cons member rest ih =>
    simp only [removeMembers, ih, toFinset_cons]
    refine Prod.ext ?_ (by ext x; simp; tauto)
    by_cases h : member ∈ set
    · rw [if_pos h, inter_insert_of_mem h, erase_inter, card_erase_eq_ite,
        card_insert_eq_ite]
      split
      · next hmem =>
        have := card_pos.mpr ⟨member, hmem⟩
        omega
      · rfl
    · rw [if_neg h, inter_insert_of_notMem h, erase_eq_of_notMem h]

section

variable {a b : Finset Bytes}

theorem union_eq_self_of_card (h : (b \ a).card = 0) : a ∪ b = a :=
  union_eq_left.mpr (sdiff_eq_empty_iff_subset.mp (card_eq_zero.mp h))

theorem sdiff_eq_self_of_card (h : (a ∩ b).card = 0) : a \ b = a :=
  sdiff_eq_self_iff_disjoint.mpr (disjoint_iff_inter_eq_empty.mpr (card_eq_zero.mp h))

end

namespace SetBatchMutation

def key : SetBatchMutation → Bytes
  | add key _ => key
  | remove key _ => key

def members : SetBatchMutation → List Bytes
  | add _ members => members
  | remove _ members => members

def apply : SetBatchMutation → Finset Bytes → Nat × Finset Bytes
  | add _ members => insertMembers members
  | remove _ members => removeMembers members

end SetBatchMutation

/-! ## 一つずつの実行 -/

/-- `encode_packed_set` が成功するか。 -/
def packedSetFits (members : Finset Bytes) : Bool :=
  packedFits 128 8192 23 (fun member : Bytes => decide (member.length < 256 ^ 4))
    (fun member => 4 + member.length) members.val

def putSmallSet (recs : SetRecords) (expireMs ver : Nat) (members : Finset Bytes) :
    SetRecords :=
  if packedSetFits members then recs.setMain (some (.packed expireMs members))
  else (recs.setItems ver (recs.items ver ∪ members)).setMain
    (some (.split expireMs ver members.card))

/-- `try_set_add_packed_async` のうち、詰めた set か key のない場合。 -/
def addToPackedSet (recs : SetRecords) (ver expireMs : Nat) (packed : Finset Bytes)
    (members : List Bytes) : Except String Nat × SetRecords :=
  let out := insertMembers members packed
  if out.1 = 0 then (.ok 0, recs)
  else (.ok out.1, putSmallSet recs expireMs ver out.2)

/-- `set_add_async_unlocked`。version を持つ set では、まだない member だけを書く。 -/
def setAdd (now : Nat) (members : List Bytes) (ver : Nat) (stored : SetRecords) :
    Except String Nat × SetRecords :=
  let recs := stored.expireIfNeeded now
  match recs.main with
  | none => addToPackedSet recs ver 0 ∅ members
  | some (.packed e packed) => addToPackedSet recs ver e packed members
  | some (.foreign _ _) => (.error wrongTypeError, recs)
  | some (.split e v len) =>
    let added := members.dedup.filter (· ∉ recs.items v)
    if added.length = 0 then (.ok 0, recs)
    else (.ok added.length, (recs.setItems v (recs.items v ∪ added.toFinset)).setMain
      (some (.split e v (len + added.length))))

/-- `set_remove_async`。詰めた set は小さくなるだけなので、符号化は成功する。 -/
def setRemove (now : Nat) (members : List Bytes) (stored : SetRecords) :
    Except String Nat × SetRecords :=
  let recs := stored.expireIfNeeded now
  match recs.main with
  | none => (.ok 0, recs)
  | some (.foreign _ _) => (.error wrongTypeError, recs)
  | some (.packed e packed) =>
    let out := removeMembers members packed
    if out.1 = 0 then (.ok 0, recs)
    else if out.2 = ∅ then (.ok out.1, recs.setMain none)
    else (.ok out.1, recs.setMain (some (.packed e out.2)))
  | some (.split e v len) =>
    let deleted := members.dedup.filter (· ∈ recs.items v)
    if deleted.length = 0 then (.ok 0, recs)
    else if len - deleted.length = 0 then (.ok deleted.length, recs.delete)
    else (.ok deleted.length, (recs.setItems v (recs.items v \ deleted.toFinset)).setMain
      (some (.split e v (len - deleted.length))))

def SetBatchMutation.exec (now : Nat) :
    SetBatchMutation → Nat → SetRecords → Except String Nat × SetRecords
  | add _ members, ver, recs => setAdd now members ver recs
  | remove _ members, _, recs => setRemove now members recs

/-! ## まとめての実行 -/

/-- pipeline の途中の状態。はじめの member と今の member を持つ。 -/
structure SetBatchState where
  version : Nat
  expireMs : Nat
  initialLen : Nat
  initiallyExists : Bool
  packed : Bool
  initialMembers : Finset Bytes
  members : Finset Bytes
  touched : Bool

namespace SetBatchState

/-- `SetBatchState::from_raw`。詰めた set と key のない場合には、新しい version を用意しておく。 -/
def fromRaw (main : Option (MainRecord (Finset Bytes) Nat)) (ver : Nat) :
    Except String SetBatchState :=
  match main with
  | none => .ok ⟨ver, 0, 0, false, true, ∅, ∅, false⟩
  | some (.packed e members) => .ok ⟨ver, e, members.card, true, true, members, members, false⟩
  | some (.split e v len) => .ok ⟨v, e, len, true, false, ∅, ∅, false⟩
  | some (.foreign _ _) => .error wrongTypeError

def lookUp (state : SetBatchState) (recs : SetRecords) (candidates : Finset Bytes) :
    SetBatchState :=
  if !state.initiallyExists || state.packed then state
  else
    let found := candidates.filter (· ∈ recs.items state.version)
    { state with
      initialMembers := state.initialMembers ∪ found
      members := state.members ∪ found }

def advance (state : SetBatchState) (mutation : SetBatchMutation) : Nat × SetBatchState :=
  let out := match mutation with
    | .add _ members => insertMembers members.dedup state.members
    | .remove _ members => removeMembers members.dedup state.members
  (out.1, { state with members := out.2, touched := state.touched || decide (0 < out.1) })

def write (state : SetBatchState) (recs : SetRecords) : SetRecords :=
  if !state.touched then recs
  else if state.packed then
    if state.members = ∅ then recs.setMain none
    else putSmallSet recs state.expireMs state.version state.members
  else
    let added := state.members \ state.initialMembers
    let removed := state.initialMembers \ state.members
    let items := (recs.items state.version ∪ added) \ removed
    let finalLen := state.initialLen + added.card - removed.card
    if finalLen = 0 then
      (recs.setItems state.version (if state.initiallyExists then ∅ else items)).setMain none
    else (recs.setItems state.version items).setMain
      (some (.split state.expireMs state.version finalLen))

end SetBatchState

def setBatchStep (mutation : SetBatchMutation) :
    Except String SetBatchState → Except String Nat × Except String SetBatchState
  | .error msg => (.error msg, .error msg)
  | .ok state => (.ok (state.advance mutation).1, .ok (state.advance mutation).2)

def writeSetState (recs : SetRecords) : Except String SetBatchState → SetRecords
  | .error _ => recs
  | .ok state => state.write recs

def candidateMembers (muts : List SetBatchMutation) (key : Bytes) : Finset Bytes :=
  ((addressedTo SetBatchMutation.key key muts).flatMap SetBatchMutation.members).toFinset

def loadSetState (muts : List SetBatchMutation) (key : Bytes) (ver : Nat)
    (recs : SetRecords) : Except String SetBatchState :=
  (SetBatchState.fromRaw recs.main ver).map
    fun state => state.lookUp recs (candidateMembers muts key)

abbrev SetStore := Numbered Bytes SetRecords

/-- `apply_set_batch_mutations_async`。key ごとに一つずつ version を用意する。 -/
def applySetBatch (now : Nat) (muts : List SetBatchMutation) (s : SetStore) :
    List (Except String Nat) × SetStore :=
  let keys := (muts.map SetBatchMutation.key).dedup
  let expired := fun key => (s.slots key).expireIfNeeded now
  let states := fun key =>
    loadSetState muts key (s.counter + 1 + keys.idxOf key) (expired key)
  let out := runKeyed SetBatchMutation.key setBatchStep states muts
  (out.1,
    { slots := fun key =>
        if key ∈ keys then writeSetState (expired key) (out.2 key) else s.slots key
      counter := s.counter + keys.length })

def runSetCommands (now : Nat) (muts : List SetBatchMutation) (s : SetStore) :
    List (Except String Nat) × SetStore :=
  s.execAll SetBatchMutation.key (SetBatchMutation.exec now) muts

/-! ## 見える中身の上の仕様 -/

def ofMembers (expireMs : Nat) (members : Finset Bytes) : Visible (Finset Bytes) :=
  if members = ∅ then .missing else .value expireMs members

def setSpec (mutation : SetBatchMutation) :
    Visible (Finset Bytes) → Except String Nat × Visible (Finset Bytes)
  | .foreign e raw => (.error wrongTypeError, .foreign e raw)
  | .missing => (.ok (mutation.apply ∅).1, ofMembers 0 (mutation.apply ∅).2)
  | .value e members => (.ok (mutation.apply members).1, ofMembers e (mutation.apply members).2)

def heldSpec (mutation : SetBatchMutation) :
    Visible (Finset Bytes) → Except String Nat × Visible (Finset Bytes)
  | .foreign e raw => (.error wrongTypeError, .foreign e raw)
  | .missing => (.ok (mutation.apply ∅).1, .value 0 (mutation.apply ∅).2)
  | .value e members => (.ok (mutation.apply members).1, .value e (mutation.apply members).2)

@[simp] theorem ofMembers_empty (expireMs : Nat) : ofMembers expireMs ∅ = .missing := if_pos rfl

variable {members : Finset Bytes}

theorem ofMembers_of_ne (h : members ≠ ∅) (expireMs : Nat) :
    ofMembers expireMs members = .value expireMs members := if_neg h

/-! ## 一つの命令 -/

/-- set の record の不変条件。空の set は残らず、main record の長さは member の数である。 -/
structure SetOk (n : Nat) (recs : SetRecords) : Prop where
  fresh : recs.Fresh n
  packed_nonempty : ∀ {e packed}, recs.main = some (.packed e packed) → packed ≠ ∅
  split_len : ∀ {e v len}, recs.main = some (.split e v len) →
    len = (recs.items v).card ∧ recs.items v ≠ ∅

namespace SetOk

variable {n m : Nat} {recs : SetRecords}

theorem mono (h : SetOk n recs) (hle : n ≤ m) : SetOk m recs :=
  ⟨h.fresh.mono hle, h.packed_nonempty, h.split_len⟩

theorem of_main_none (h : recs.Fresh n) (hmain : recs.main = none) : SetOk n recs where
  fresh := h
  packed_nonempty h' := by rw [hmain] at h'; cases h'
  split_len h' := by rw [hmain] at h'; cases h'

theorem expireIfNeeded (h : SetOk n recs) (now : Nat) : SetOk n (recs.expireIfNeeded now) := by
  cases hlive : recs.live now with
  | some record =>
    rw [expireIfNeeded_of_live hlive]
    exact h
  | none =>
    exact of_main_none (h.fresh.expireIfNeeded now)
      ((expireIfNeeded_main now recs).trans hlive)

theorem setPacked (h : recs.Fresh n) (e : Nat) (hmembers : members ≠ ∅) :
    SetOk n (recs.setMain (some (.packed e members))) where
  fresh := h.setMain_packed ..
  packed_nonempty h' := by cases h'; exact hmembers
  split_len h' := by cases h'

theorem setSplit (h : recs.Fresh n) {e v len : Nat} (hv : v ≤ n) (hlen : len = members.card)
    (hmembers : members ≠ ∅) :
    SetOk n ((recs.setItems v members).setMain (some (.split e v len))) where
  fresh := (h.setItems hv _).setMain_split hv _ _
  packed_nonempty h' := by cases h'
  split_len h' := by
    cases h'
    simpa using ⟨hlen, hmembers⟩

end SetOk

open SetBatchMutation

section

variable (now : Nat) {n m ver : Nat} {recs : SetRecords}

theorem putSmallSet_spec {e : Nat} (hfresh : recs.Fresh n) (hlt : n < ver) (hle : ver ≤ m)
    (hdue : expireDue now e = false) (hmembers : members ≠ ∅) :
    (putSmallSet recs e ver members).view setLayout now = .value e members ∧
      SetOk m (putSmallSet recs e ver members) := by
  have hm := hfresh.mono (hlt.le.trans hle)
  unfold putSmallSet
  split
  · exact ⟨view_packed (setMain_main ..) hdue, .setPacked hm e hmembers⟩
  · rw [hfresh.items_empty hlt, empty_union]
    exact ⟨view_setSplit hdue .., .setSplit hm hle rfl hmembers⟩

theorem addToPackedSet_spec {e : Nat} {packed : Finset Bytes} {members : List Bytes}
    (hok : SetOk n recs) (hview : recs.view setLayout now = ofMembers e packed)
    (hdue : expireDue now e = false) :
    Meets (view setLayout now) (SetOk (n + 1)) (addToPackedSet recs (n + 1) e packed members)
      (.ok (insertMembers members packed).1, ofMembers e (insertMembers members packed).2) := by
  unfold addToPackedSet
  simp only [insertMembers_eq]
  split
  · next h =>
    rw [h, union_eq_self_of_card h]
    exact ⟨rfl, hview, hok.mono (Nat.le_succ n)⟩
  · next h =>
    have hne : packed ∪ members.toFinset ≠ ∅ := by
      intro hempty
      refine h (card_eq_zero.mpr (subset_empty.mp ?_))
      exact (sdiff_subset.trans subset_union_right).trans hempty.subset
    obtain ⟨hv, ho⟩ := putSmallSet_spec now hok.fresh (Nat.lt_succ_self n) le_rfl hdue hne
    exact ⟨rfl, hv.trans (ofMembers_of_ne hne e).symm, ho⟩

theorem toFinset_dedup_filter (members : List Bytes) (p : Bytes → Prop) [DecidablePred p] :
    (members.dedup.filter p).toFinset = members.toFinset.filter p ∧
      (members.dedup.filter p).length = (members.toFinset.filter p).card := by
  have hset : (members.dedup.filter p).toFinset = members.toFinset.filter p := by
    ext x
    simp
  refine ⟨hset, ?_⟩
  rw [← hset, toFinset_card_of_nodup ((nodup_dedup members).filter _)]

theorem setAdd_spec (hok : SetOk n recs) (key : Bytes) (members : List Bytes) :
    Meets (view setLayout now) (SetOk (n + 1)) (setAdd now members (n + 1) recs)
      (setSpec (.add key members) (recs.view setLayout now)) := by
  rw [← view_expireIfNeeded]
  have hok' := hok.expireIfNeeded now
  have hdue := unexpired_expireIfNeeded now recs
  unfold setAdd
  generalize recs.expireIfNeeded now = recs' at hok' hdue ⊢
  dsimp only
  split
  · next hmain =>
    have hview : recs'.view setLayout now = .missing := view_missing hmain
    rw [hview]
    exact addToPackedSet_spec now hok' (hview.trans (ofMembers_empty 0).symm) rfl
  · next e packed hmain =>
    have hview : recs'.view setLayout now = .value e packed := view_packed hmain (hdue _ hmain)
    rw [hview]
    refine addToPackedSet_spec now hok' (hview.trans ?_) (hdue _ hmain)
    exact (ofMembers_of_ne (hok'.packed_nonempty hmain) e).symm
  · next e raw hmain =>
    rw [view_foreign hmain (hdue _ hmain)]
    exact ⟨rfl, view_foreign hmain (hdue _ hmain), hok'.mono (Nat.le_succ n)⟩
  · next e v len hmain =>
    have hview : recs'.view setLayout now = .value e (recs'.items v) :=
      view_split hmain (hdue _ hmain)
    obtain ⟨hlen, hne⟩ := hok'.split_len hmain
    have hnew : members.toFinset.filter (· ∉ recs'.items v) = members.toFinset \ recs'.items v :=
      (sdiff_eq_filter ..).symm
    rw [hview]
    simp only [toFinset_dedup_filter, hnew, setSpec, apply, insertMembers_eq]
    split
    · next h =>
      rw [h, union_eq_self_of_card h, ofMembers_of_ne hne]
      exact ⟨rfl, hview, hok'.mono (Nat.le_succ n)⟩
    · have hunion : recs'.items v ∪ (members.toFinset \ recs'.items v) =
          recs'.items v ∪ members.toFinset := union_sdiff_self_eq_union
      have hne' : recs'.items v ∪ members.toFinset ≠ ∅ := fun h =>
        hne (union_eq_empty.mp h).1
      rw [hunion]
      refine ⟨rfl, ?_, (SetOk.setSplit hok'.fresh (hok'.fresh.version_le hmain) ?_ hne').mono
        (Nat.le_succ n)⟩
      · rw [ofMembers_of_ne hne']
        exact view_setSplit (hdue _ hmain) ..
      · rw [← hunion, card_union_of_disjoint disjoint_sdiff, hlen]

theorem setRemove_spec (hok : SetOk n recs) (key : Bytes) (members : List Bytes) :
    Meets (view setLayout now) (SetOk n) (setRemove now members recs)
      (setSpec (.remove key members) (recs.view setLayout now)) := by
  rw [← view_expireIfNeeded]
  have hok' := hok.expireIfNeeded now
  have hdue := unexpired_expireIfNeeded now recs
  unfold setRemove
  generalize recs.expireIfNeeded now = recs' at hok' hdue ⊢
  dsimp only
  split
  · next hmain =>
    have hview : recs'.view setLayout now = .missing := view_missing hmain
    rw [hview]
    exact ⟨by simp [setSpec, apply, removeMembers_eq],
      by simp [setSpec, apply, removeMembers_eq, hview], hok'⟩
  · next e raw hmain =>
    rw [view_foreign hmain (hdue _ hmain)]
    exact ⟨rfl, view_foreign hmain (hdue _ hmain), hok'⟩
  · next e packed hmain =>
    have hview : recs'.view setLayout now = .value e packed := view_packed hmain (hdue _ hmain)
    rw [hview]
    simp only [setSpec, apply, removeMembers_eq]
    split
    · next h =>
      rw [h, sdiff_eq_self_of_card h, ofMembers_of_ne (hok'.packed_nonempty hmain)]
      exact ⟨rfl, hview, hok'⟩
    · split
      · next hempty =>
        rw [hempty]
        exact ⟨rfl, view_missing rfl, SetOk.of_main_none hok'.fresh.setMain_none rfl⟩
      · next hne =>
        rw [ofMembers_of_ne hne]
        exact ⟨rfl, view_packed (setMain_main ..) (hdue _ hmain), .setPacked hok'.fresh e hne⟩
  · next e v len hmain =>
    have hview : recs'.view setLayout now = .value e (recs'.items v) :=
      view_split hmain (hdue _ hmain)
    obtain ⟨hlen, hne⟩ := hok'.split_len hmain
    have hold : members.toFinset.filter (· ∈ recs'.items v) = recs'.items v ∩ members.toFinset := by
      ext x
      simp [and_comm]
    have hcard : (recs'.items v \ members.toFinset).card =
        len - (recs'.items v ∩ members.toFinset).card := by
      rw [← sdiff_inter_self_left, card_sdiff_of_subset inter_subset_left,
        hlen]
    rw [hview]
    simp only [toFinset_dedup_filter, hold, setSpec, apply, removeMembers_eq,
      sdiff_inter_self_left, ← hcard]
    split
    · next h =>
      rw [h, sdiff_eq_self_of_card h, ofMembers_of_ne hne]
      exact ⟨rfl, hview, hok'⟩
    · split
      · next hempty =>
        rw [card_eq_zero.mp hempty]
        exact ⟨rfl, view_missing (delete_main _),
          SetOk.of_main_none hok'.fresh.delete (delete_main _)⟩
      · next hrest =>
        have hne' : recs'.items v \ members.toFinset ≠ ∅ := fun h => hrest (by rw [h]; rfl)
        rw [ofMembers_of_ne hne']
        exact ⟨rfl, view_setSplit (hdue _ hmain) ..,
          .setSplit hok'.fresh (hok'.fresh.version_le hmain) rfl hne'⟩

theorem SetBatchMutation.exec_spec (c : SetBatchMutation) (hok : SetOk n recs) :
    Meets (view setLayout now) (SetOk (n + 1)) (c.exec now (n + 1) recs)
      (setSpec c (recs.view setLayout now)) := by
  cases c with
  | add key members => exact setAdd_spec now hok key members
  | remove key members =>
    obtain ⟨hreply, hview, hok'⟩ := setRemove_spec now hok key members
    exact ⟨hreply, hview, hok'.mono (Nat.le_succ n)⟩

end

/-! ## 手元の状態 -/

def unreadMembers (recs : SetRecords) (candidates : Finset Bytes) : Finset Bytes :=
  match recs.main with
  | some (.split _ v _) => recs.items v \ candidates
  | _ => ∅

/--
手元の状態は、`recs` から読んだものに命令を当てたものである。見える member は、読まなかった `rest` と
手元の member を合わせたものになる。
-/
structure SetBatchState.Tracks (now ver : Nat) (recs : SetRecords)
    (candidates rest : Finset Bytes) (state : SetBatchState) : Prop where
  notDue : expireDue now state.expireMs = false
  layout : (state.packed = true ∧ rest = ∅ ∧ state.version = ver) ∨
    (state.packed = false ∧
      recs.main = some (.split state.expireMs state.version state.initialLen) ∧
      rest = recs.items state.version \ candidates ∧
      state.initialMembers = recs.items state.version ∩ candidates ∧
      state.members ⊆ candidates ∧ state.initiallyExists = true)
  untouched : state.touched = false →
    recs.view setLayout now = ofMembers state.expireMs (rest ∪ state.members)

/-- 手元の状態と `heldSpec` の状態の対応。 -/
def SetStateRel (now ver : Nat) (recs : SetRecords) (candidates : Finset Bytes)
    (state : Except String SetBatchState) (v : Visible (Finset Bytes)) : Prop :=
  match state with
  | .error msg => msg = wrongTypeError ∧ v.parts ∅ = none
  | .ok state => v.parts ∅ = some (state.expireMs, unreadMembers recs candidates ∪ state.members) ∧
      state.Tracks now ver recs candidates (unreadMembers recs candidates)

section

variable {now n ver : Nat} {recs : SetRecords} {candidates rest : Finset Bytes}

theorem loadSetState_rel (hok : SetOk n recs) (hdue : recs.Unexpired now)
    (muts : List SetBatchMutation) (key : Bytes) :
    SetStateRel now ver recs (candidateMembers muts key)
      (loadSetState muts key ver recs) (recs.view setLayout now) := by
  unfold loadSetState SetStateRel unreadMembers
  generalize candidateMembers muts key = candidates
  cases hmain : recs.main with
  | none =>
    have hview : recs.view setLayout now = .missing := view_missing hmain
    rw [hview]
    refine ⟨rfl, rfl, .inl ⟨rfl, rfl, rfl⟩, fun _ => ?_⟩
    rw [hview]
    rfl
  | some record =>
    cases record with
    | packed e members =>
      have hview : recs.view setLayout now = .value e members := view_packed hmain (hdue _ hmain)
      rw [hview]
      refine ⟨?_, hdue _ hmain, .inl ⟨rfl, rfl, rfl⟩, fun _ => ?_⟩
      · exact congrArg some (Prod.ext rfl (empty_union _).symm)
      · rw [hview]
        exact ((ofMembers_of_ne (hok.packed_nonempty hmain) e).symm.trans
          (congrArg (ofMembers e) (empty_union _).symm))
    | split e v len =>
      have hview : recs.view setLayout now = .value e (recs.items v) :=
        view_split hmain (hdue _ hmain)
      have hfound : candidates.filter (· ∈ recs.items v) = recs.items v ∩ candidates := by
        ext x
        simp [and_comm]
      have hmembers : recs.items v \ candidates ∪ (∅ ∪ candidates.filter (· ∈ recs.items v)) =
          recs.items v := by
        rw [hfound, empty_union, sdiff_union_inter]
      rw [hview]
      refine ⟨congrArg some (Prod.ext rfl hmembers.symm), hdue _ hmain,
        .inr ⟨rfl, hmain, rfl, ?_, ?_, rfl⟩, fun _ => ?_⟩
      · exact (empty_union _).trans hfound
      · exact (empty_union _).subset.trans (filter_subset _ _)
      · rw [hview]
        exact (ofMembers_of_ne (hok.split_len hmain).2 e).symm.trans
          (congrArg (ofMembers e) hmembers.symm)
    | foreign e raw =>
      rw [view_foreign hmain (hdue _ hmain)]
      exact ⟨rfl, rfl⟩

theorem SetBatchState.advance_eq (state : SetBatchState) (c : SetBatchMutation)
    (hdisj : Disjoint rest c.members.toFinset) :
    (state.advance c).1 = (c.apply (rest ∪ state.members)).1 ∧
      rest ∪ (state.advance c).2.members = (c.apply (rest ∪ state.members)).2 := by
  have hdedup : c.members.dedup.toFinset = c.members.toFinset := by
    ext x
    simp
  cases c with
  | add key members =>
    simp only [SetBatchMutation.members] at hdisj hdedup
    simp only [advance, apply, insertMembers_eq, hdedup]
    refine ⟨congrArg card ?_, (union_assoc ..).symm⟩
    ext x
    have hx : x ∈ members.toFinset → x ∉ rest := fun hx => disjoint_right.mp hdisj hx
    simp only [mem_sdiff, mem_union]
    tauto
  | remove key members =>
    simp only [SetBatchMutation.members] at hdisj hdedup
    simp only [advance, apply, removeMembers_eq, hdedup]
    refine ⟨congrArg card ?_, ?_⟩
    · rw [union_inter_distrib_right, disjoint_iff_inter_eq_empty.mp hdisj,
        empty_union]
    · rw [union_sdiff_distrib, sdiff_eq_self_of_disjoint hdisj]

variable {c : SetBatchMutation} {set : Finset Bytes}

theorem SetBatchMutation.apply_eq_self (h : (c.apply set).1 = 0) : (c.apply set).2 = set := by
  cases c with
  | add key members =>
    simp only [apply, insertMembers_eq] at h ⊢
    exact union_eq_self_of_card h
  | remove key members =>
    simp only [apply, removeMembers_eq] at h ⊢
    exact sdiff_eq_self_of_card h

theorem SetBatchState.Tracks.advance {state : SetBatchState}
    (h : state.Tracks now ver recs candidates rest) (hc : c.members.toFinset ⊆ candidates)
    (hrest : Disjoint rest candidates) :
    (state.advance c).2.Tracks now ver recs candidates rest := by
  obtain ⟨hcount, hmembers⟩ := state.advance_eq c (hrest.mono_right hc)
  refine ⟨h.notDue, ?_, ?_⟩
  · rcases h.layout with hp | ⟨hp, hmain, hr, hi, hsub, hexists⟩
    · exact .inl hp
    · refine .inr ⟨hp, hmain, hr, hi, ?_, hexists⟩
      have hadv := (@SetBatchState.advance_eq ∅ state c (disjoint_empty_left _)).2
      simp only [empty_union] at hadv
      rw [hadv]
      cases c with
      | add key members =>
        simp only [apply, insertMembers_eq]
        exact union_subset hsub hc
      | remove key members =>
        simp only [apply, removeMembers_eq]
        exact sdiff_subset.trans hsub
  · intro htouched
    have hflag : state.touched = false ∧ (state.advance c).1 = 0 := by
      simpa [SetBatchState.advance] using htouched
    rw [h.untouched hflag.1, hmembers, apply_eq_self (hcount ▸ hflag.2)]
    rfl

theorem SetBatchState.Tracks.write {state : SetBatchState} {m : Nat}
    (h : state.Tracks now ver recs candidates rest) (hok : SetOk n recs)
    (hlt : n < ver) (hle : ver ≤ m) :
    (state.write recs).view setLayout now = ofMembers state.expireMs (rest ∪ state.members) ∧
      SetOk m (state.write recs) := by
  have hm := hok.mono (hlt.le.trans hle)
  unfold SetBatchState.write
  cases htouched : state.touched with
  | false => exact ⟨h.untouched htouched, hm⟩
  | true =>
    rcases h.layout with ⟨hp, hr, hv⟩ | ⟨hp, hmain, hr, hi, hsub, hexists⟩
    · subst hr
      rw [empty_union, hp]
      by_cases hempty : state.members = ∅
      · simp only [Bool.not_true, Bool.false_eq_true, if_false, if_true, hempty]
        exact ⟨view_missing rfl, SetOk.of_main_none hm.fresh.setMain_none rfl⟩
      · simp only [Bool.not_true, Bool.false_eq_true, if_false, if_true, if_neg hempty]
        rw [ofMembers_of_ne hempty, hv]
        exact putSmallSet_spec now hok.fresh hlt hle h.notDue hempty
    · obtain ⟨hlen, hne⟩ := hok.split_len hmain
      have hdisj : Disjoint rest candidates := hr ▸ sdiff_disjoint
      have hold : recs.items state.version = rest ∪ state.initialMembers := by
        rw [hr, hi, sdiff_union_inter]
      have hinit : state.initialMembers ⊆ candidates := hi ▸ inter_subset_right
      have hnew : (recs.items state.version ∪ state.members \ state.initialMembers) \
          (state.initialMembers \ state.members) = rest ∪ state.members := by
        ext x
        have hx : x ∈ rest → x ∉ state.initialMembers := fun hx =>
          disjoint_left.mp (hdisj.mono_right hinit) hx
        simp only [hold, mem_sdiff, mem_union]
        tauto
      have hcard : state.initialLen + (state.members \ state.initialMembers).card -
          (state.initialMembers \ state.members).card = (rest ∪ state.members).card := by
        have h1 := card_union_of_disjoint (hdisj.mono_right hsub)
        have h2 := card_union_of_disjoint (hdisj.mono_right hinit)
        have h3 := card_sdiff_add_card state.initialMembers state.members
        have h4 := card_sdiff_add_card state.members state.initialMembers
        rw [union_comm] at h4
        rw [hlen, hold]
        omega
      simp only [Bool.not_true, Bool.false_eq_true, if_false, if_true, hp, hexists, hnew, hcard]
      split
      · next hzero =>
        rw [card_eq_zero.mp hzero, ofMembers_empty]
        exact ⟨view_missing rfl, SetOk.of_main_none
          ((hm.fresh.setItems (hm.fresh.version_le hmain) _).setMain_none) rfl⟩
      · next hpos =>
        have hne' : rest ∪ state.members ≠ ∅ := fun hempty => hpos (by rw [hempty]; rfl)
        rw [ofMembers_of_ne hne']
        exact ⟨view_setSplit h.notDue .., .setSplit hm.fresh (hm.fresh.version_le hmain) rfl hne'⟩

end

/-! ## 命令の列 -/

def membersAfter (members : Finset Bytes) (muts : List SetBatchMutation) : Finset Bytes :=
  muts.foldl (fun set c => (c.apply set).2) members

def Emptied (members : Finset Bytes) (muts : List SetBatchMutation) : Prop :=
  ∃ done, done <+: muts ∧ membersAfter members done = ∅

/-- 期限のある set が、命令の列の途中で空になり、最後には空でない。 -/
def RefilledWithTtl (now : Nat) (s : SetStore) (muts : List SetBatchMutation) (key : Bytes) :
    Prop :=
  ∃ e members, (s.slots key).view setLayout now = .value e members ∧ e ≠ 0 ∧
    Emptied members (addressedTo SetBatchMutation.key key muts) ∧
    membersAfter members (addressedTo SetBatchMutation.key key muts) ≠ ∅

variable {c : SetBatchMutation}

theorem emptied_cons {cs : List SetBatchMutation} :
    Emptied members (c :: cs) ↔ members = ∅ ∨ Emptied (c.apply members).2 cs := by
  constructor
  · rintro ⟨done, hdone, hempty⟩
    rcases prefix_cons_iff.mp hdone with rfl | ⟨rest, rfl, hrest⟩
    · exact .inl hempty
    · exact .inr ⟨rest, hrest, hempty⟩
  · rintro (rfl | ⟨rest, hrest, hempty⟩)
    · exact ⟨[], nil_prefix, rfl⟩
    · exact ⟨c :: rest, cons_prefix_cons.mpr ⟨rfl, hrest⟩, hempty⟩

variable (cs : List SetBatchMutation)

theorem foldl_setSpec (e : Nat) (members : Finset Bytes)
    [Decidable (Emptied members cs)] :
    cs.foldl (fun v c => (setSpec c v).2) (ofMembers e members) =
      ofMembers (if Emptied members cs then 0 else e) (membersAfter members cs) := by
  classical
  induction cs generalizing e members with
  | nil =>
    by_cases h : members = ∅
    · simp [h, membersAfter]
    · have hnot : ¬ Emptied members [] := by
        rintro ⟨done, hdone, hempty⟩
        rw [prefix_nil.mp hdone] at hempty
        exact h hempty
      rw [if_neg hnot]
      rfl
  | cons c cs ih =>
    rw [foldl_cons]
    by_cases h : members = ∅
    · subst h
      have hzero : (if Emptied (c.apply ∅).2 cs then 0 else 0) = 0 := ite_self 0
      rw [ofMembers_empty, if_pos (emptied_cons.mpr (.inl rfl))]
      exact (ih 0 _).trans (by rw [hzero]; rfl)
    · have hiff : Emptied members (c :: cs) ↔ Emptied (c.apply members).2 cs := by
        rw [emptied_cons, or_iff_right h]
      rw [ofMembers_of_ne h]
      exact (ih e _).trans (by rw [if_congr hiff rfl rfl]; rfl)

theorem parts_foldl_heldSpec (v : Visible (Finset Bytes)) :
    parts ∅ (cs.foldl (fun v c => (heldSpec c v).2) v) =
      (v.parts ∅).map fun p => (p.1, membersAfter p.2 cs) := by
  induction cs generalizing v with
  | nil => exact Option.map_id'.symm
  | cons c cs ih =>
    rw [foldl_cons, ih]
    cases v <;> rfl

theorem foldl_setSpec_foreign (e : Nat) (raw : Bytes) :
    cs.foldl (fun v c => (setSpec c v).2) (.foreign e raw) = .foreign e raw := by
  induction cs with
  | nil => rfl
  | cons c cs ih => exact ih

theorem eq_ofMembers_of_parts {v : Visible (Finset Bytes)} {e : Nat} (hne : ∀ e, v ≠ .value e ∅)
    (h : v.parts ∅ = some (e, members)) : v = ofMembers e members := by
  cases v with
  | foreign e raw => cases h
  | missing => cases h; rfl
  | value e' members' =>
    cases h
    exact (ofMembers_of_ne (fun h => hne e (h ▸ rfl)) e).symm

theorem view_ne_value_empty {n now : Nat} {recs : SetRecords} (hok : SetOk n recs) (e : Nat) :
    recs.view setLayout now ≠ .value e ∅ := by
  intro h
  unfold view at h
  split at h
  · cases h
  · next packed hlive =>
    exact hok.packed_nonempty (live_eq_some.mp hlive).1 (value.inj h).2
  · next hlive =>
    exact (hok.split_len (live_eq_some.mp hlive).1).2 (value.inj h).2
  · cases h

/-! ## 二つの実行の比較 -/

section

variable (now : Nat) {s : SetStore} (muts : List SetBatchMutation)

theorem setSpec_reply (c : SetBatchMutation) (v : Visible (Finset Bytes)) :
    (setSpec c v).1 = match v.parts ∅ with
      | none => .error wrongTypeError
      | some (_, members) => .ok (c.apply members).1 := by
  cases v <;> rfl

theorem heldSpec_reply (c : SetBatchMutation) (v : Visible (Finset Bytes)) :
    (heldSpec c v).1 = (setSpec c v).1 := by
  cases v <;> rfl

theorem parts_spec (c : SetBatchMutation) {v w : Visible (Finset Bytes)}
    (h : (v.parts ∅).map Prod.snd = (w.parts ∅).map Prod.snd) :
    ((heldSpec c v).2.parts ∅).map Prod.snd = ((setSpec c w).2.parts ∅).map Prod.snd ∧
      (heldSpec c v).1 = (setSpec c w).1 := by
  have hmembers : ∀ e members, ((ofMembers e members).parts ∅).map Prod.snd = some members := by
    intro e members
    unfold ofMembers
    split
    · next hempty => rw [hempty]; rfl
    · rfl
  cases v <;> cases w <;> simp_all [parts, heldSpec, setSpec]

theorem heldSpec_replies (views : Bytes → Visible (Finset Bytes)) :
    (runKeyed key heldSpec views muts).1 =
      (runKeyed key setSpec views muts).1 :=
  (runKeyed_simulates (R := fun _ v w => (v.parts ∅).map Prod.snd = (w.parts ∅).map Prod.snd)
    (fun c _ _ _ h => ⟨(parts_spec c h).2, (parts_spec c h).1⟩) (fun _ => rfl)).1

theorem members_subset_candidates {muts : List SetBatchMutation} (hc : c ∈ muts) :
    c.members.toFinset ⊆ candidateMembers muts c.key := by
  intro x hx
  rw [candidateMembers, mem_toFinset, mem_flatMap]
  exact ⟨c, mem_addressedTo.mpr ⟨hc, rfl⟩, mem_toFinset.mp hx⟩

theorem unreadMembers_disjoint (recs : SetRecords) (candidates : Finset Bytes) :
    Disjoint (unreadMembers recs candidates) candidates := by
  unfold unreadMembers
  split
  · exact sdiff_disjoint
  · exact disjoint_empty_left _

theorem setStateRel_step {now ver : Nat} {recs : SetRecords} {candidates : Finset Bytes}
    (hc : c.members.toFinset ⊆ candidates) {state : Except String SetBatchState}
    {v : Visible (Finset Bytes)} (h : SetStateRel now ver recs candidates state v) :
    (setBatchStep c state).1 = (heldSpec c v).1 ∧
      SetStateRel now ver recs candidates (setBatchStep c state).2 (heldSpec c v).2 := by
  cases state with
  | error msg =>
    obtain ⟨rfl, hv⟩ := h
    obtain ⟨e, raw, rfl⟩ := parts_eq_none.mp hv
    exact ⟨rfl, rfl, rfl⟩
  | ok state =>
    obtain ⟨hv, htracks⟩ := h
    have hrest := unreadMembers_disjoint recs candidates
    obtain ⟨hcount, hmembers⟩ := state.advance_eq c (hrest.mono_right hc)
    refine ⟨?_, ?_, htracks.advance hc hrest⟩
    · rw [heldSpec_reply, setSpec_reply, hv]
      exact congrArg Except.ok hcount
    · rw [show parts ∅ (heldSpec c v).2 = _ from parts_foldl_heldSpec [c] v, hv, hmembers]
      rfl

section

variable (hs : s.Satisfies SetOk)
include hs

theorem setBatch_states (versions : Bytes → Nat) :
    (runKeyed SetBatchMutation.key setBatchStep
        (fun key => loadSetState muts key (versions key) ((s.slots key).expireIfNeeded now))
        muts).1 =
      (runKeyed SetBatchMutation.key heldSpec (fun key => (s.slots key).view setLayout now)
        muts).1 ∧
    ∀ key, SetStateRel now (versions key) ((s.slots key).expireIfNeeded now)
      (candidateMembers muts key)
      ((runKeyed SetBatchMutation.key setBatchStep
        (fun key => loadSetState muts key (versions key) ((s.slots key).expireIfNeeded now))
        muts).2 key)
      ((runKeyed SetBatchMutation.key heldSpec (fun key => (s.slots key).view setLayout now)
        muts).2 key) := by
  refine runKeyed_simulates (R := fun key => SetStateRel now (versions key)
    ((s.slots key).expireIfNeeded now) (candidateMembers muts key))
    (fun c hc state v h => setStateRel_step (members_subset_candidates hc) h) fun key => ?_
  rw [← view_expireIfNeeded]
  exact loadSetState_rel ((hs key).expireIfNeeded now)
    (unexpired_expireIfNeeded now (s.slots key)) muts key

theorem setBatch_view (key : Bytes) :
    ((applySetBatch now muts s).2.slots key).view setLayout now =
      match parts ∅ ((s.slots key).view setLayout now) with
      | none => (s.slots key).view setLayout now
      | some (e, members) =>
        ofMembers e (membersAfter members (addressedTo SetBatchMutation.key key muts)) := by
  unfold applySetBatch
  dsimp only
  split
  · next hkey =>
    have hrel := (setBatch_states now muts hs fun key => s.counter + 1 +
      (muts.map SetBatchMutation.key).dedup.idxOf key).2 key
    generalize (runKeyed SetBatchMutation.key setBatchStep _ muts).2 key = state at hrel ⊢
    rw [runKeyed_state] at hrel
    cases state with
    | error msg =>
      have hfinal := hrel.2
      rw [parts_foldl_heldSpec, Option.map_eq_none_iff] at hfinal
      rw [hfinal]
      exact view_expireIfNeeded setLayout now (s.slots key)
    | ok state =>
      obtain ⟨hfinal, htracks⟩ := hrel
      rw [parts_foldl_heldSpec] at hfinal
      obtain ⟨p, hparts, heq⟩ := Option.map_eq_some_iff.mp hfinal
      obtain ⟨he, hmembers⟩ := Prod.mk.inj heq
      have hwrite := htracks.write ((hs key).expireIfNeeded now) (by omega) le_rfl
      rw [hparts]
      exact hwrite.1.trans (congrArg₂ ofMembers he.symm hmembers.symm)
  · next hkey =>
    rw [mem_dedup] at hkey
    rw [addressedTo_eq_nil.mpr hkey]
    cases hparts : parts ∅ ((s.slots key).view setLayout now) with
    | none => rfl
    | some p => exact eq_ofMembers_of_parts (view_ne_value_empty (hs key)) hparts

theorem runSetCommands_refines : Numbered.Runs (view setLayout now) SetOk
    (runSetCommands now muts s)
    (runKeyed key setSpec (fun key => (s.slots key).view setLayout now) muts) :=
  Numbered.execAll_refines hs (fun _ _ _ h hle => h.mono hle)
    (fun c _ _ hok => c.exec_spec now hok) muts

def SetRunsAgree (s : SetStore) : Prop :=
  (applySetBatch now muts s).1 = (runSetCommands now muts s).1 ∧
    ∀ key, ((applySetBatch now muts s).2.slots key).view setLayout now =
      ((runSetCommands now muts s).2.slots key).view setLayout now

theorem setBatch_replies : (applySetBatch now muts s).1 = (runSetCommands now muts s).1 := by
  rw [(runSetCommands_refines now muts hs).1, ← heldSpec_replies]
  exact (setBatch_states now muts hs _).1

theorem setBatch_view_eq_iff (key : Bytes) :
    ((applySetBatch now muts s).2.slots key).view setLayout now =
        ((runSetCommands now muts s).2.slots key).view setLayout now ↔
      ¬ RefilledWithTtl now s muts key := by
  classical
  rw [setBatch_view now muts hs, (runSetCommands_refines now muts hs).seen,
    runKeyed_state]
  unfold RefilledWithTtl
  generalize addressedTo SetBatchMutation.key key muts = cs
  have hne : ∀ e, (s.slots key).view setLayout now ≠ .value e ∅ := view_ne_value_empty (hs key)
  generalize (s.slots key).view setLayout now = v at hne ⊢
  cases v with
  | foreign e raw => simp [parts, foldl_setSpec_foreign]
  | missing =>
    rw [← ofMembers_empty 0, foldl_setSpec]
    simp [parts]
  | value e members =>
    have hmembers : members ≠ ∅ := fun h => hne e (h ▸ rfl)
    rw [← ofMembers_of_ne hmembers, foldl_setSpec, ofMembers_of_ne hmembers]
    simp only [parts, Visible.value.injEq]
    constructor
    · rintro heq ⟨_, _, ⟨rfl, rfl⟩, he, hempty, hlast⟩
      rw [if_pos hempty, ofMembers_of_ne hlast, ofMembers_of_ne hlast] at heq
      exact he (Visible.value.inj heq).1
    · intro h
      by_cases hlast : membersAfter members cs = ∅
      · rw [hlast, ofMembers_empty, ofMembers_empty]
      · split
        · next hempty =>
          have he : e = 0 := by
            by_contra he
            exact h ⟨e, members, ⟨rfl, rfl⟩, he, hempty, hlast⟩
          rw [he]
        · rfl

end

/--
**SADD と SREM をまとめて実行した結果が、一つずつの結果と一致する条件。** 期限のある set が列の途中で空に
なり、その後また埋まることがないとき、またそのときに限る。
-/
theorem setBatch_matches_iff (hs : s.Satisfies SetOk) :
    SetRunsAgree now muts s ↔ ∀ key, ¬ RefilledWithTtl now s muts key := by
  unfold SetRunsAgree
  rw [and_iff_right (setBatch_replies now muts hs)]
  exact forall_congr' fun key => setBatch_view_eq_iff now muts hs key

end

namespace SetRefill

/-- 時刻 1000 に、期限 5000 の set `k = {a}` だけがある。 -/
def store : SetStore :=
  ⟨fun key => ⟨if key = [107] then some (.packed 5000 {[97]}) else none, fun _ => ∅⟩, 0⟩

/-- `SREM k a` の後に `SADD k b` を実行する。 -/
def refill : List SetBatchMutation := [.remove [107] [[97]], .add [107] [[98]]]

theorem refill_keeps_ttl :
    ((applySetBatch 1000 refill store).2.slots [107]).view setLayout 1000 = .value 5000 {[98]} ∧
      ((runSetCommands 1000 refill store).2.slots [107]).view setLayout 1000 = .value 0 {[98]} ∧
      ¬ SetRunsAgree 1000 refill store := by
  refine ⟨by decide, by decide, fun h => ?_⟩
  exact absurd (h.2 [107]) (by decide)

theorem store_ok : store.Satisfies SetOk := by
  intro key
  by_cases hkey : key = [107]
  · subst hkey
    exact ⟨⟨fun h => (by cases h), fun _ => rfl⟩, fun h => (by cases h; decide),
      nofun⟩
  · have hmain : (store.slots key).main = none := if_neg hkey
    exact SetOk.of_main_none ⟨fun h => (by rw [hmain] at h; cases h), fun _ => rfl⟩ hmain

/-- `SADD k b` の後に `SREM k a` を実行する。 -/
def exchange : List SetBatchMutation := [.add [107] [[98]], .remove [107] [[97]]]

theorem exchange_agrees :
    ((applySetBatch 1000 exchange store).2.slots [107]).view setLayout 1000 = .value 5000 {[98]} ∧
      SetRunsAgree 1000 exchange store := by
  refine ⟨by decide, (setBatch_matches_iff 1000 exchange store_ok).mpr ?_⟩
  rintro key ⟨e, members, hview, -, ⟨done, hdone, hempty⟩, -⟩
  by_cases hkey : key = [107]
  · subst hkey
    have hmembers : members = {[97]} := (value.inj hview).2.symm
    subst hmembers
    rcases prefix_cons_iff.mp hdone with rfl | ⟨rest, rfl, hrest⟩
    · exact absurd hempty (by decide)
    have hrest : rest <+: [.remove [107] [[97]]] := hrest
    rcases prefix_cons_iff.mp hrest with rfl | ⟨last, rfl, hlast⟩
    · exact absurd hempty (by decide)
    rw [prefix_nil.mp hlast] at hempty
    exact absurd hempty (by decide)
  · have hmain : (store.slots key).main = none := if_neg hkey
    rw [view_missing hmain] at hview
    cases hview

end SetRefill

end Onedis.Store
