import Onedis.Store.KeyExpire
import Onedis.Store.StringBatch

/-!
# batch の及ぶ範囲

* `BatchAbout.frame` — 一つの key を書く batch は、他の key の record と index の entry を変えない
-/

namespace Onedis.Store

open Infra Codec

/-- `ref` の record か、`ref` の index の entry を書く項目。 -/
def KeyWrite.About (ref : DbKeyRef) : KeyWrite → Prop
  | .put r _ | .delete r => r = ref
  | .putIndex key => ∃ e, e ≠ 0 ∧ key = indexKey e ref
  | .deleteIndex key => ∃ e, key = indexKey e ref
  | .putAll r .. | .deleteSub r .. | .deleteRange r .. => r = ref

def BatchAbout (ref : DbKeyRef) (batch : KeyBatch) : Prop := ∀ w ∈ batch, w.About ref

/-- `r` の record と index の entry が変わらない。 -/
structure SameAt (r : DbKeyRef) (s s' : Keyspace) : Prop where
  main : s'.main r = s.main r
  index : ∀ e, s'.index (indexKey e r) = s.index (indexKey e r)

theorem SameAt.refl (r : DbKeyRef) (s : Keyspace) : SameAt r s s := ⟨rfl, fun _ => rfl⟩

theorem SameAt.trans {r : DbKeyRef} {s s' s'' : Keyspace} (h : SameAt r s s')
    (h' : SameAt r s' s'') : SameAt r s s'' :=
  ⟨h'.main.trans h.main, fun e => (h'.index e).trans (h.index e)⟩

section

variable {ref r : DbKeyRef} {batch batch' : KeyBatch} {raw : Bytes}

@[simp] theorem batchAbout_nil : BatchAbout ref [] := List.forall_mem_nil _

@[simp] theorem batchAbout_cons {w : KeyWrite} :
    BatchAbout ref (w :: batch) ↔ w.About ref ∧ BatchAbout ref batch := List.forall_mem_cons

@[simp] theorem batchAbout_append :
    BatchAbout ref (batch ++ batch') ↔ BatchAbout ref batch ∧ BatchAbout ref batch' :=
  List.forall_mem_append

theorem KeyWrite.About.frame {w : KeyWrite} (h : w.About ref) (hne : r ≠ ref) (s : Keyspace) :
    SameAt r s (s.apply w) := by
  have hindex (e' e : UInt64) : indexKey e' r ≠ indexKey e ref :=
    fun heq => hne (indexKey_inj.mp heq).2
  cases w with
  | put | delete =>
    obtain rfl := h
    exact ⟨if_neg hne, fun _ => rfl⟩
  | putIndex key =>
    obtain ⟨e, -, rfl⟩ := h
    refine ⟨rfl, fun e' => ?_⟩
    simp [Keyspace.apply, hindex e' e]
  | deleteIndex key =>
    obtain ⟨e, rfl⟩ := h
    refine ⟨rfl, fun e' => ?_⟩
    simp [Keyspace.apply, hindex e' e]
  | putAll | deleteSub | deleteRange => exact ⟨rfl, fun _ => rfl⟩

/-- **一つの key だけを書く batch は、他の key の record と index の entry を変えない。** -/
theorem BatchAbout.frame (h : BatchAbout ref batch) (hne : r ≠ ref) (s : Keyspace) :
    SameAt r s (s.write batch) := by
  induction batch generalizing s with
  | nil => exact .refl r s
  | cons w batch ih =>
    obtain ⟨hw, hbatch⟩ := batchAbout_cons.mp h
    exact (hw.frame hne s).trans (ih hbatch _)

@[simp] theorem batchAbout_addToBatch (e : UInt64) : BatchAbout ref (addToBatch e ref) := by
  unfold addToBatch
  split
  · exact batchAbout_nil
  · next h => exact batchAbout_cons.mpr ⟨⟨e, h, rfl⟩, batchAbout_nil⟩

@[simp] theorem batchAbout_removeKnown (e : UInt64) :
    BatchAbout ref (removeKnownToBatch e ref) := by
  unfold removeKnownToBatch
  split
  · exact batchAbout_nil
  · exact batchAbout_cons.mpr ⟨⟨e, rfl⟩, batchAbout_nil⟩

@[simp] theorem batchAbout_removeOld (old : Option Bytes) (e : UInt64) :
    BatchAbout ref (removeOldToBatch ref old e) := by
  unfold removeOldToBatch
  split
  · split <;> simp
  · simp

@[simp] theorem batchAbout_replace (old : Option Bytes) (e : UInt64) :
    BatchAbout ref (replaceToBatch ref old raw e) := by
  simp [replaceToBatch, KeyWrite.About]

@[simp] theorem batchAbout_deleteMain (e : UInt64) :
    BatchAbout ref (deleteMainKeyWithTtlToBatch ref e) := by
  simp [deleteMainKeyWithTtlToBatch, KeyWrite.About]

theorem batchAbout_map {f : Namespace → KeyWrite} (hf : ∀ ns, (f ns).About ref)
    (namespaces : List Namespace) : BatchAbout ref (namespaces.map f) := by
  intro w hw
  obtain ⟨ns, -, rfl⟩ := List.mem_map.mp hw
  exact hf ns

@[simp] theorem batchAbout_deleteStructure : BatchAbout ref (deleteStructureToBatch ref raw) := by
  refine batchAbout_cons.mpr ⟨rfl, ?_⟩
  split
  · refine batchAbout_map (fun _ => ?_) _
    rfl
  · exact batchAbout_nil

@[simp] theorem batchAbout_dropSource : BatchAbout ref (dropSourceToBatch ref raw) := by
  simp [dropSourceToBatch]

@[simp] theorem batchAbout_copyStructure {source : DbKeyRef} (s : Keyspace) (ver : UInt64) :
    BatchAbout ref (s.copyStructureToBatch source ref raw ver) := by
  unfold Keyspace.copyStructureToBatch
  split
  · exact batchAbout_nil
  · refine batchAbout_cons.mpr ⟨rfl, batchAbout_map (fun _ => ?_) _⟩
    rfl

end

end Onedis.Store
