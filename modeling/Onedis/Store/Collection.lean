import Mathlib.Data.Finset.Card
import Mathlib.Data.Finset.SDiff
import Onedis.Infra.Bytes

/-!
# version を持つ collection の record

hash と sorted set は、小さい間は main record に member を詰め、大きくなると version ごとの record に
置く。ここでは member の集合だけを表す。
-/

namespace Onedis.Store

open Infra Function

abbrev DbKey := Nat × Bytes

/-- collection の main record。小さければ要素を中に持つ。 -/
inductive CollectionRecord where
  | packed (members : Finset Bytes)
  | split (ver : Nat) (mayHaveTtl : Bool)
  deriving DecidableEq

/-- main record と member record。`counter` は最後に使った version。 -/
structure CollectionData where
  records : DbKey → Option CollectionRecord
  members : DbKey → Nat → Finset Bytes
  counter : Nat

namespace CollectionData

def packedMembers (d : CollectionData) (key : DbKey) : Finset Bytes :=
  match d.records key with
  | some (.packed members) => members
  | _ => ∅

def setRecord (d : CollectionData) (key : DbKey) (record : Option CollectionRecord) :
    CollectionData :=
  { d with records := update d.records key record }

def setMembers (d : CollectionData) (key : DbKey) (ver : Nat) (members : Finset Bytes) :
    CollectionData :=
  { d with
    members := update d.members key (update (d.members key) ver members) }

def create (d : CollectionData) (key : DbKey) (ttl : Bool) (members : Finset Bytes) :
    CollectionData :=
  ({ d with counter := d.counter + 1 }.setMembers key (d.counter + 1) members).setRecord key
    (some (.split (d.counter + 1) ttl))

/-- member を足す。`promote` は、詰めきれずに version を持つ形に移すか。 -/
def addMembers (d : CollectionData) (key : DbKey) (added : Finset Bytes) (promote : Bool) :
    CollectionData :=
  match d.records key with
  | some (.split ver _) => d.setMembers key ver (d.members key ver ∪ added)
  | _ =>
    if promote then d.create key false (d.packedMembers key ∪ added)
    else d.setRecord key (some (.packed (d.packedMembers key ∪ added)))

/-- member を消す。消した数が全体の長さ `len` に等しければ、main record も消す。 -/
def deleteMembers (d : CollectionData) (key : DbKey) (ver : Nat) (requested : Finset Bytes)
    (len : Nat) : CollectionData :=
  if len = (d.members key ver ∩ requested).card then
    (d.setMembers key ver (d.members key ver \ requested)).setRecord key none
  else d.setMembers key ver (d.members key ver \ requested)

def remove (d : CollectionData) (key : DbKey) : CollectionData :=
  match d.records key with
  | some (.split ver _) => (d.setMembers key ver ∅).setRecord key none
  | _ => d.setRecord key none

def rename (d : CollectionData) (source target : DbKey) : CollectionData :=
  match d.records source with
  | none => d
  | some (.packed members) =>
    ((d.remove target).setRecord target (some (.packed members))).remove source
  | some (.split ver ttl) =>
    ((d.remove target).create target ttl (d.members source ver)).remove source

def flush (d : CollectionData) (db : Nat) : CollectionData :=
  { d with
    records := fun k => if k.1 = db then none else d.records k
    members := fun k => if k.1 = db then fun _ => ∅ else d.members k }

def liveCount (d : CollectionData) (key : DbKey) : Nat :=
  match d.records key with
  | none => 0
  | some (.packed members) => members.card
  | some (.split ver _) => (d.members key ver).card

/-! 書き込みは、対象の key のほかには触れない。 -/

section

variable {d : CollectionData} {key k : DbKey} {ver len : Nat} {requested added : Finset Bytes}

@[simp] theorem setRecord_self (record : Option CollectionRecord) :
    (d.setRecord key record).records key = record := update_self _ _ _

theorem setRecord_of_ne (h : k ≠ key) (record : Option CollectionRecord) :
    (d.setRecord key record).records k = d.records k := update_of_ne h _ _

@[simp] theorem setMembers_self (members : Finset Bytes) :
    (d.setMembers key ver members).members key ver = members := by
  simp [setMembers]

theorem setMembers_of_ne (h : k ≠ key) (members : Finset Bytes) :
    (d.setMembers key ver members).members k = d.members k := update_of_ne h _ _

@[simp] theorem deleteMembers_counter :
    (d.deleteMembers key ver requested len).counter = d.counter := by
  unfold deleteMembers
  split <;> rfl

theorem deleteMembers_members : (d.deleteMembers key ver requested len).members =
    (d.setMembers key ver (d.members key ver \ requested)).members := by
  unfold deleteMembers
  split <;> rfl

theorem deleteMembers_records_of_ne (h : k ≠ key) :
    (d.deleteMembers key ver requested len).records k = d.records k := by
  unfold deleteMembers
  split
  · exact setRecord_of_ne h _
  · rfl

theorem deleteMembers_records_self : (d.deleteMembers key ver requested len).records key = none ∨
      (d.deleteMembers key ver requested len).records key = d.records key := by
  unfold deleteMembers
  split
  · exact .inl (setRecord_self _)
  · exact .inr rfl

theorem counter_le_addMembers (promote : Bool) :
    d.counter ≤ (d.addMembers key added promote).counter := by
  unfold addMembers
  split
  · exact le_rfl
  · split
    · exact Nat.le_succ _
    · exact le_rfl

/-- key `k` の record は同じである。 -/
def SameAt (d d' : CollectionData) (k : DbKey) : Prop :=
  d'.records k = d.records k ∧ d'.members k = d.members k

theorem SameAt.trans {d' d'' : CollectionData} (h : d.SameAt d' k) (h' : d'.SameAt d'' k) :
    d.SameAt d'' k := ⟨h'.1.trans h.1, h'.2.trans h.2⟩

theorem create_of_ne (h : k ≠ key) (ttl : Bool) (members : Finset Bytes) :
    d.SameAt (d.create key ttl members) k := ⟨setRecord_of_ne h _, setMembers_of_ne h _⟩

theorem addMembers_of_ne (h : k ≠ key) (promote : Bool) :
    d.SameAt (d.addMembers key added promote) k := by
  unfold addMembers
  split
  · exact ⟨rfl, setMembers_of_ne h _⟩
  · split
    · exact create_of_ne h ..
    · exact ⟨setRecord_of_ne h _, rfl⟩

theorem addMembers_self {ttl : Bool} {promote : Bool}
    (h : (d.addMembers key added promote).records key = some (.split ver ttl)) :
    d.records key = some (.split ver ttl) ∨ ver = (d.addMembers key added promote).counter := by
  unfold addMembers at h ⊢
  split at h
  · exact .inl h
  · split at h
    · next hpromote =>
      rw [create, setRecord_self] at h
      cases h
      rw [if_pos hpromote]
      exact .inr rfl
    · rw [setRecord_self] at h
      cases h

@[simp] theorem remove_self : (d.remove key).records key = none := by
  unfold remove
  split <;> exact setRecord_self _

theorem remove_of_ne (h : k ≠ key) : d.SameAt (d.remove key) k := by
  unfold remove
  split
  · exact ⟨setRecord_of_ne h _, setMembers_of_ne h _⟩
  · exact ⟨setRecord_of_ne h _, rfl⟩

@[simp] theorem remove_counter : (d.remove key).counter = d.counter := by
  unfold remove
  split <;> rfl

theorem foldl_remove {db : Nat} (keys : List Bytes) :
    (keys.foldl (fun d key => d.remove (db, key)) d).counter = d.counter ∧
      ((∃ key ∈ keys, (db, key) = k) ∨ d.records k = none →
        (keys.foldl (fun d key => d.remove (db, key)) d).records k = none) ∧
      ((¬ ∃ key ∈ keys, (db, key) = k) →
        d.SameAt (keys.foldl (fun d key => d.remove (db, key)) d) k) := by
  induction keys generalizing d with
  | nil => exact ⟨rfl, fun h => h.resolve_left (by simp), fun _ => ⟨rfl, rfl⟩⟩
  | cons x keys ih =>
    obtain ⟨hcounter, hgone, hsame⟩ := @ih (d.remove (db, x))
    refine ⟨hcounter.trans remove_counter, fun h => hgone ?_, fun h => ?_⟩
    · by_cases hx : k = (db, x)
      · subst hx
        exact .inr remove_self
      · rcases h with ⟨key, hkey, rfl⟩ | h
        · rcases List.mem_cons.mp hkey with rfl | hkey
          · exact absurd rfl hx
          · exact .inl ⟨key, hkey, rfl⟩
        · exact .inr ((remove_of_ne hx).1.trans h)
    · have hx : k ≠ (db, x) := fun hc => h ⟨x, List.mem_cons_self, hc.symm⟩
      exact (remove_of_ne hx).trans
        (hsame fun ⟨key, hkey, heq⟩ => h ⟨key, List.mem_cons_of_mem _ hkey, heq⟩)

end

section

variable {d : CollectionData} {source target k : DbKey}

theorem counter_le_rename : d.counter ≤ (d.rename source target).counter := by
  unfold rename
  split
  · exact le_rfl
  · rw [remove_counter]
    exact remove_counter.ge
  · rw [remove_counter]
    show d.counter ≤ (d.remove target).counter + 1
    rw [remove_counter]
    exact Nat.le_succ _

theorem rename_of_ne (hs : k ≠ source) (ht : k ≠ target) :
    d.SameAt (d.rename source target) k := by
  have htarget := @remove_of_ne d target k ht
  unfold rename
  split
  · exact ⟨rfl, rfl⟩
  · exact (htarget.trans ⟨setRecord_of_ne ht _, rfl⟩).trans (remove_of_ne hs)
  · exact (htarget.trans (create_of_ne ht ..)).trans (remove_of_ne hs)

theorem rename_self {ver : Nat} {ttl : Bool} (hne : target ≠ source)
    (hsource : d.records source ≠ none) (hk : k = source ∨ k = target)
    (h : (d.rename source target).records k = some (.split ver ttl)) :
    ver = (d.rename source target).counter ∧ d.counter < ver := by
  unfold rename at h ⊢
  split at h
  · next hnone => exact absurd hnone hsource
  · rcases hk with rfl | rfl
    · rw [remove_self] at h
      cases h
    · rw [(remove_of_ne hne).1, setRecord_self] at h
      cases h
  · rcases hk with rfl | rfl
    · rw [remove_self] at h
      cases h
    · rw [(remove_of_ne hne).1, create, setRecord_self] at h
      cases h
      have hcounter : ∀ members, (((d.remove k).create k ttl members).remove source).counter =
          (d.remove k).counter + 1 := fun _ => remove_counter
      rw [hcounter]
      refine ⟨rfl, ?_⟩
      rw [remove_counter]
      exact Nat.lt_succ_self _

end

end CollectionData

end Onedis.Store
