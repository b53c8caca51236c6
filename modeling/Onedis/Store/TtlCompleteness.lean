import Onedis.Store.TtlCommand

/-!
# 期限の index は欠けない

* `ttlIndex_complete` — 条件を満たす command の列の後で、期限のある main record には index の entry がある
* `MissingEntry.entry_lost` — 条件を外れた command の列

一つの batch が一つの key だけを書き、その key の entry を揃えること（`Restores`）を部品にする。command はそのような
batch の列に分かれ、一歩が `Keyspace.Complete` を保つことから、列の全体へ進む。
-/

namespace Onedis.Store

open Infra Codec List Option StoredValue

/-! ## 書いた期限で読める record -/

/-- 期限 `e` を付けて書いた record。 -/
inductive Readable : Bytes → UInt64 → Prop
  | framed {e : UInt64} (he : PlainExpire e) (ver : UInt64) (t : TypeTag) (body : Bytes) :
      Readable (regular e ver t body) e
  | list {e : UInt64} (he : PlainExpire e) (ver : UInt64) (head tail : Int64)
      (hhead : (beI64 head).head? ≠ some 0x01) :
      Readable (Codec.encodeListMeta e ver head tail) e
  | stream {m : Codec.StreamMeta} (he : PlainExpire m.expireMs)
      (hms : (beU64 m.lastId.ms).head? ≠ some 0x01) : Readable (encodeStreamMeta m) m.expireMs

section Readable

variable {raw : Bytes} {e : UInt64}

theorem plainExpire_zero : PlainExpire 0 := fun _ hclash => clash_ne_zero hclash rfl

theorem not_isMagicMeta_regular (he : PlainExpire e) (ver : UInt64) (t : TypeTag) (body : Bytes) :
    ¬ IsMagicMeta (regular e ver t body) :=
  fun hmagic => he _ ((magicClash_iff e ver t body).mpr hmagic)

theorem isPackedListRaw_streamMeta {m : Codec.StreamMeta}
    (h : (beU64 m.lastId.ms).head? ≠ some 0x01) : isPackedListRaw (encodeStreamMeta m) = false := by
  rw [← Bool.not_eq_true]
  intro hpacked
  have hbyte : (encodeStreamMeta m)[20]? = (beU64 m.lastId.ms).head? := by
    rw [head?_eq_getElem?]
    simp [encodeStreamMeta, streamMetaMagic]
  exact h (hbyte.symm.trans (isPackedListRaw_getElem? hpacked))

namespace Readable

theorem plain (h : Readable raw e) : PlainExpire e := by
  cases h with
  | framed he | list he | stream he => exact he

theorem header (h : Readable raw e) : ∃ hdr, decodeMetaHeader raw = some hdr ∧
    hdr.expireMs = e.toNat := by
  cases h with
  | framed he ver t body => exact ⟨_, decodeMetaHeader_regular (he _), rfl⟩
  | list he ver head tail hhead => exact ⟨_, decodeMetaHeader_listMeta .., rfl⟩
  | stream he hms => exact ⟨_, decodeMetaHeader_streamMeta _, rfl⟩

theorem expire_eq (h : Readable raw e) : recordExpire raw = e := by
  obtain ⟨hdr, hhdr, he⟩ := h.header
  rw [recordExpire_of_header hhdr, he, UInt64.ofNat_toNat]

theorem self (h : Readable raw e) : Readable raw (recordExpire raw) := h.expire_eq ▸ h

/-- `decode_expire_ms` も同じ期限を読む。 -/
theorem decode_eq (h : Readable raw e) : decodeExpireMs raw = e := by
  obtain ⟨hdr, hhdr, -⟩ := h.header
  refine (decodeExpireMs_eq_recordExpire (fun hmagic => ?_) hhdr).trans h.expire_eq
  cases h with
  | framed he ver t body => exact absurd hmagic (not_isMagicMeta_regular he ver t body)
  | list he ver head tail hhead => exact isPackedListRaw_listMeta hhead ..
  | stream he hms => exact isPackedListRaw_streamMeta hms

/-- 型ごとの復号も同じ期限を読む。 -/
theorem typed_eq (h : Readable raw e) {e' : UInt64} (htyped : typedExpire raw = some e') :
    e' = e := by
  obtain ⟨hdr, hhdr, hexpire⟩ := h.header
  rw [typedExpire, hhdr] at htyped
  dsimp only at htyped
  rw [← h.decode_eq]
  split at htyped
  · obtain ⟨m, hm, rfl⟩ := map_eq_some_iff.mp htyped
    rw [decodeExpireMs, hm]
  · next hlist =>
    split at htyped
    · obtain ⟨m, hm, rfl⟩ := map_eq_some_iff.mp htyped
      -- 型が list でない record は、list の meta としては読まれない。
      have hnone : decodeListMeta raw = none := by
        cases h with
        | framed he ver t body =>
          rw [decodeMetaHeader_regular (he _)] at hhdr
          cases hhdr
          exact decodeListMeta_framed (not_isMagicMeta_regular he ver t body)
            (decodePackedList_of_not
              (isPackedRaw_regular_of_ne _ _ fun heq => hlist (congrArg TypeTag.code heq)))
        | list he ver head tail hhead =>
          rw [decodeMetaHeader_listMeta] at hhdr
          cases hhdr
          exact absurd rfl hlist
        | stream he hms =>
          rw [decodeListMeta, decodePackedList_of_not (isPackedListRaw_streamMeta hms)]
          exact if_neg (by simp [encodeStreamMeta, streamMetaMagic])
      rw [decodeExpireMs, hnone]
      simp only [hm]
    · cases htyped
      rw [h.decode_eq, hexpire, UInt64.ofNat_toNat]

theorem patch (h : Readable raw e) {e' : UInt64} (he' : PlainExpire e') {patched : Bytes}
    (hpatch : patchMetaExpireMs raw e' = some patched) : Readable patched e' := by
  cases h with
  | framed he ver t body =>
    rw [patchMetaExpireMs_regular e' (he _)] at hpatch
    cases hpatch
    exact .framed he' ver t body
  | list he ver head tail hhead =>
    have hpatched : patchMetaExpireMs (Codec.encodeListMeta e ver head tail) e' =
        some (Codec.encodeListMeta e' ver head tail) :=
      patch_magic rfl rfl (.inl ⟨by simp [listMetaMagic], rfl⟩) e'
    cases hpatched.symm.trans hpatch
    exact .list he' ver head tail hhead
  | @stream m he hms =>
    have hpatched : patchMetaExpireMs (encodeStreamMeta m) e' =
        some (encodeStreamMeta { m with expireMs := e' }) :=
      patch_magic rfl rfl (.inr ⟨by simp [streamMetaMagic], rfl⟩) e'
    cases hpatched.symm.trans hpatch
    exact @stream { m with expireMs := e' } he' hms

end Readable

theorem reEncode_regular (ver ver' : UInt64) (t : TypeTag) (body : Bytes) :
    reEncodeMetaWithVersion (regular e ver t body) ver' = regular e ver' t body := by
  have htake : (regular e ver t body).take 8 = beU64 e := take_left' (length_beU64 e)
  have hdrop : (regular e ver t body).drop 16 = t.code :: body := by
    rw [regular, ← append_assoc]
    exact drop_left' (by simp)
  rw [reEncode_eq ver' (by rw [length_regular]; omega), htake, hdrop]
  rfl

theorem copyPlanByTag_readable (he : PlainExpire e) {ver ver' : UInt64} {t : TypeTag} {body : Bytes}
    {plan : CopyPlan}
    (hplan : copyPlanByTag (regular e ver t body) ⟨e.toNat, ver.toNat, t.code⟩ ver' = some plan) :
    Readable plan.record e := by
  have hframed (ver'' : UInt64) (t' : TypeTag) (body' : Bytes) :
      Readable (regular (.ofNat e.toNat) ver'' t' body') e := by
    rw [UInt64.ofNat_toNat]
    exact .framed he ver'' t' body'
  have hcoded : Readable (reEncodeMetaWithVersion (regular e ver t body) ver') e := by
    rw [reEncode_regular]
    exact .framed he ver' t body
  have hwhole : Readable (regular e ver t body) e := .framed he ver t body
  unfold copyPlanByTag at hplan
  split at hplan
  · cases hplan
    exact hframed ..
  split at hplan
  · split at hplan <;> cases hplan
    · exact hwhole
    · exact hframed ..
  split at hplan
  · split at hplan
    · cases hplan
    · next m hm =>
      split at hplan <;> cases hplan
      · exact hwhole
      · rw [decodeSetMeta_expireMs (decodeMetaHeader_regular (he _)) hm]
        exact hframed ..
  split at hplan
  · split at hplan <;> cases hplan
    · exact hwhole
    · exact hcoded
  split at hplan
  · split at hplan <;> cases hplan
    · exact hwhole
    · exact hcoded
  split at hplan
  · cases hplan
    exact hcoded
  · cases hplan
    exact hcoded

/-- 写した record も同じ期限で読める。 -/
theorem Readable.copied (h : Readable raw e) {ver : UInt64} {plan : CopyPlan}
    (hplan : copyPlan raw ver = some plan) : Readable plan.record e := by
  obtain ⟨hdr, hhdr, -⟩ := h.header
  rw [copyPlan, hhdr] at hplan
  dsimp only at hplan
  split at hplan
  · cases hplan
    exact h
  split at hplan
  · cases hplan
    exact h
  next hlist =>
  have hpacked := decodePackedList_of_not (by simpa using hlist)
  cases h with
  | framed he ver' t body =>
    have hmagic := not_isMagicMeta_regular he ver' t body
    rw [decodeListMeta_framed hmagic hpacked] at hplan
    dsimp only at hplan
    split at hplan
    · cases hplan
      exact .framed he ver' t body
    · next hstream =>
      rw [decodeStreamMeta_framed hmagic (decodePackedStream_of_not (by simpa using hstream))]
        at hplan
      rw [decodeMetaHeader_regular (he _)] at hhdr
      cases hhdr
      exact copyPlanByTag_readable he hplan
  | list he ver' head tail hhead =>
    rw [decodeListMeta_encode rfl hpacked] at hplan
    cases hplan
    exact .list he ver head tail hhead
  | @stream m he hms =>
    have hnone : decodeListMeta (encodeStreamMeta m) = none := by
      rw [decodeListMeta, hpacked]
      exact if_neg (by simp [encodeStreamMeta, streamMetaMagic])
    rw [hnone, decodeStreamMeta_encode] at hplan
    dsimp only at hplan
    split at hplan
    · cases hplan
      exact .stream he hms
    · cases hplan
      exact @Readable.stream { m with version := ver } he hms

theorem MainValue.readable {serde : Serde} {v : MainValue} (hv : v.Ordinary) (he : PlainExpire e)
    (h : v.encode serde e = some raw) : Readable raw e := by
  have hframed {w : StoredValue} (h : w.encode serde e = some raw) (hw : w.IsFramed) :
      Readable raw e := by
    obtain ⟨body, rfl, -⟩ := encode_framed hw h
    exact .framed he _ _ body
  cases v with
  | vector ver body =>
    cases h
    exact .framed he ver .vector body
  | stored w =>
    replace h : w.encode serde e = some raw := h
    cases w with
    | listMeta ver head tail =>
      cases h
      exact .list he ver head tail hv
    | streamMeta ver lastId length entriesAdded =>
      cases h
      exact @Readable.stream ⟨e, ver, lastId, length, entriesAdded⟩ he hv
    | _ => exact hframed h trivial

end Readable

/-! ## entry が揃う -/

namespace Keyspace

/-- `ref` の record は書いた期限で読め、期限があればその entry がある。 -/
def CompleteAt (s : Keyspace) (ref : DbKeyRef) : Prop :=
  ∀ raw, s.main ref = some raw → Readable raw (recordExpire raw) ∧
    (recordExpire raw ≠ 0 → s.index (indexKey (recordExpire raw) ref) = true)

def Complete (s : Keyspace) : Prop := ∀ ref, s.CompleteAt ref

variable {ref : DbKeyRef}

theorem CompleteAt.of_none {s : Keyspace} (h : s.main ref = none) : s.CompleteAt ref := by
  intro raw hraw
  rw [h] at hraw
  cases hraw

theorem CompleteAt.of_same {s s' : Keyspace} (h : s.CompleteAt ref) (hsame : SameAt ref s s') :
    s'.CompleteAt ref := by
  intro raw hraw
  rw [hsame.index]
  exact h raw (hsame.main ▸ hraw)

theorem completeAt_add {s : Keyspace} {e : UInt64}
    (h : ∀ raw, s.main ref = some raw → Readable raw e ∨ Readable raw (recordExpire raw) ∧
      (recordExpire raw ≠ 0 → s.index (indexKey (recordExpire raw) ref) = true)) :
    (s.write (addToBatch e ref)).CompleteAt ref := by
  intro raw hraw
  rw [write_addToBatch_main] at hraw
  rw [write_addToBatch_index, Bool.or_eq_true, decide_eq_true_eq]
  rcases h raw hraw with hread | ⟨hread, hindex⟩
  · refine ⟨hread.self, fun hexpire => .inl ?_⟩
    rw [hread.expire_eq] at hexpire ⊢
    exact ⟨hexpire, rfl⟩
  · exact ⟨hread, fun hexpire => .inr (hindex hexpire)⟩

end Keyspace
open Keyspace

/-- `ref` だけを書き、`ref` の entry を揃える batch。 -/
structure Restores (ref : DbKeyRef) (batch : KeyBatch) : Prop where
  about : BatchAbout ref batch
  complete : ∀ s : Keyspace, s.CompleteAt ref → (s.write batch).CompleteAt ref

section Restores

variable {ref : DbKeyRef} {batch : KeyBatch} {raw : Bytes} {e : UInt64} {s : Keyspace}

theorem Restores.write (h : Restores ref batch) (hs : s.Complete) : (s.write batch).Complete := by
  intro r
  by_cases hr : r = ref
  · subst hr
    exact h.complete s (hs r)
  · exact (hs r).of_same (h.about.frame hr s)

theorem restores_nil : Restores ref [] := ⟨batchAbout_nil, fun _ h => h⟩

theorem restores_of_delete (habout : BatchAbout ref batch)
    (hmain : ∀ s : Keyspace, (s.write batch).main ref = none) : Restores ref batch :=
  ⟨habout, fun s _ => .of_none (hmain s)⟩

theorem restores_append_add (habout : BatchAbout ref batch)
    (hmain : ∀ s : Keyspace, (s.write batch).main ref = some raw) (hread : Readable raw e) :
    Restores ref (batch ++ addToBatch e ref) := by
  refine ⟨batchAbout_append.mpr ⟨habout, batchAbout_addToBatch e⟩, fun s _ => ?_⟩
  rw [write_append]
  refine completeAt_add fun raw' hraw' => .inl ?_
  rw [hmain s] at hraw'
  cases hraw'
  exact hread

theorem restores_replace (old : Option Bytes) (hread : Readable raw e) :
    Restores ref (replaceToBatch ref old raw e) := by
  have hsplit : replaceToBatch ref old raw e =
      (removeOldToBatch ref old e ++ [.put ref raw]) ++ addToBatch e ref := by
    simp [replaceToBatch]
  rw [hsplit]
  refine restores_append_add (by simp [KeyWrite.About]) (fun s => ?_) hread
  rw [write_append, write_cons, write_nil, put_main, if_pos rfl]

theorem restores_deleteMain (e : UInt64) : Restores ref (deleteMainKeyWithTtlToBatch ref e) :=
  restores_of_delete (batchAbout_deleteMain e) fun s => by rw [write_deleteMain_main, if_pos rfl]

theorem restores_dropSource : Restores ref (dropSourceToBatch ref raw) :=
  restores_of_delete batchAbout_dropSource fun s => write_dropSource_main s ref raw

theorem restores_clearTarget (targetRaw : Option Bytes) :
    Restores ref (clearTargetToBatch ref targetRaw) := by
  cases targetRaw with
  | none => exact restores_nil
  | some raw => exact restores_dropSource

theorem restores_set (now : UInt64) (value : Bytes) (old : Option Bytes) (he : PlainExpire e) :
    Restores ref (setBatch now ref value e old) := by
  unfold setBatch
  split
  · exact restores_deleteMain _
  · exact restores_replace old (.framed he 0 .string value)

theorem restores_toBatch {st : StringBatchState} (old : Option Bytes)
    (he : PlainExpire st.expireMs) : Restores ref (st.toBatch ref old) := by
  unfold StringBatchState.toBatch
  split
  · split
    · next value _ => exact restores_replace old (.framed he 0 .string value)
    · exact restores_deleteMain _
  · exact restores_nil

theorem restores_expiration {initial : Option Bytes} {final : Option Bytes × Bool}
    (hread : ∀ raw, final.1 = some raw → Readable raw (recordExpire raw)) :
    Restores ref (expirationToBatch ref initial final) := by
  unfold expirationToBatch
  split
  · next old raw =>
    have hraw := hread raw rfl
    rw [← cons_append, hraw.decode_eq]
    refine restores_append_add ?_ (fun s => ?_) hraw
    · refine batchAbout_cons.mpr ⟨rfl, ?_⟩
      split <;> simp
    · rw [write_cons]
      split
      · rw [write_nil, put_main, if_pos rfl]
      · rw [write_removeKnownToBatch_main, put_main, if_pos rfl]
  · exact restores_nil

theorem restores_copy {source : DbKeyRef} (t : Keyspace) {ver : UInt64}
    (hraw : Readable raw (recordExpire raw)) :
    Restores ref (t.copyStructureToBatch source ref raw ver ++
      addToBatch (recordExpire raw) ref) := by
  cases hplan : copyPlan raw ver with
  | some plan =>
    refine restores_append_add (batchAbout_copyStructure t ver) (fun s => ?_) (hraw.copied hplan)
    rw [(write_copyStructure hplan t source ref).1, if_pos rfl]
  | none =>
    rw [copyStructureToBatch, hplan]
    exact ⟨batchAbout_addToBatch _, fun s hs =>
      completeAt_add fun raw' hraw' => .inr (hs raw' hraw')⟩

end Restores

/-! ## 期限の読み書き -/

variable {ref : DbKeyRef} {db : UInt16}

theorem indexKey_other_db (e : UInt64) (h : ref.dbIndex ≠ db) :
    (ttlDbPrefix db.toNat).isPrefixOf (indexKey e ref) = false := by
  refine Bool.eq_false_iff.mpr fun hp => h ?_
  obtain ⟨rest, hrest⟩ := isPrefixOf_iff_prefix.mp hp
  rw [indexKey, ttlIndexKey_eq, ttlDbPrefix, append_assoc] at hrest
  obtain ⟨hdb, -⟩ := append_inj (append_cancel_left hrest) (by simp)
  exact (UInt16.toNat_inj.mp (toBe_injective db.toNat_lt ref.dbIndex.toNat_lt hdb)).symm

variable {raw : Bytes}

theorem decodeMetaHeader_expireMs_lt {hdr : MetaHeader} (h : decodeMetaHeader raw = some hdr) :
    hdr.expireMs < 2 ^ 64 := by
  have hlt (bs : Bytes) (hlen : bs.length ≤ 8) : ofBe bs < 2 ^ 64 :=
    (ofBe_lt bs).trans_le (Nat.pow_le_pow_right (by decide) hlen)
  unfold decodeMetaHeader at h
  split at h
  · cases h
    exact hlt _ (by simp)
  · split at h
    · cases h
      exact hlt _ (by simp)
    · split at h
      · cases h
      · cases h
        exact hlt _ (by simp)

theorem restores_patched {e expireMs : UInt64} {batch : KeyBatch} (hraw : Readable raw e)
    (he : PlainExpire expireMs)
    (h : (match patchMetaExpireMs raw expireMs with
      | none => Except.error invalidStringError
      | some patched => .ok (replaceToBatch ref (some raw) patched expireMs)) = .ok batch) :
    Restores ref batch := by
  split at h
  · cases h
  · next patched hpatch =>
    cases h
    exact restores_replace _ (hraw.patch he hpatch)

theorem restores_getex {e now : UInt64} {update : StringExpireUpdate} {batch : KeyBatch}
    (hraw : Readable raw e) (he : PlainExpire (update.expireMs now))
    (h : getexBatch now ref raw update = .ok batch) : Restores ref batch := by
  unfold getexBatch at h
  cases update with
  | persist =>
    dsimp only at h
    split at h
    · cases h
      exact restores_nil
    · exact restores_patched hraw he h
  | relativeMs ttlMs | absoluteMs expireMs =>
    dsimp only at h
    split at h
    · cases h
      exact restores_deleteMain _
    · exact restores_patched hraw he h

/-! ## pipeline の状態 -/

section Batch

variable {now : UInt64}

theorem mutate_expireMs (st : StringBatchState)
    (f : Bytes → Except String (StringBatchReply × Bytes × Bool)) :
    (st.mutate f).2.expireMs = st.expireMs := by
  unfold StringBatchState.mutate
  split
  · rfl
  · split
    · rfl
    · split <;> rfl

theorem plainExpire_mutation {m : StringBatchMutation} {st : StringBatchState}
    (hm : ∀ key ttlMs value pos, m = .psetex key ttlMs value pos →
      PlainExpire (saturatingAdd now ttlMs)) (hst : PlainExpire st.expireMs) :
    PlainExpire (applyStringBatchMutation now st m).2.expireMs := by
  cases m with
  | psetex key ttlMs value pos => exact hm key ttlMs value pos rfl
  | append | setBit | setRange =>
    simp only [applyStringBatchMutation_mutate, mutate_expireMs]
    exact hst
  | getSet key value =>
    simp only [applyStringBatchMutation]
    split
    · exact hst
    · exact plainExpire_zero
  | getDel key =>
    simp only [applyStringBatchMutation]
    split
    · exact hst
    · exact plainExpire_zero
    · exact hst
  | setNx key value =>
    simp only [applyStringBatchMutation]
    split
    · exact plainExpire_zero
    · exact hst

theorem plainExpire_applyAll {ms : List StringBatchMutation} {states : Bytes → StringBatchState}
    (hms : ∀ key ttlMs value pos, .psetex key ttlMs value pos ∈ ms →
      PlainExpire (saturatingAdd now ttlMs))
    (hstates : ∀ key, PlainExpire (states key).expireMs) (key : Bytes) :
    PlainExpire ((applyAll now states ms).2 key).expireMs := by
  induction ms generalizing states with
  | nil => exact hstates key
  | cons m ms ih =>
    refine ih (fun key ttlMs value pos hmem => hms key ttlMs value pos (mem_cons_of_mem _ hmem))
      fun key => ?_
    unfold stepStates
    split
    · exact plainExpire_mutation (fun key ttlMs value pos heq =>
        hms key ttlMs value pos (heq ▸ mem_cons_self)) (hstates _)
    · exact hstates key

theorem readable_patch {m : KeyExpirationMutation} {raw patched : Bytes}
    (hm : ∀ key ttlMs, m = .expire key ttlMs → PlainExpire (saturatingAdd now ttlMs))
    (hraw : Readable raw (recordExpire raw)) (hpatch : m.patch now (some raw) = some patched) :
    Readable patched (recordExpire patched) := by
  obtain ⟨hdr, hhdr, -⟩ := hraw.header
  rw [KeyExpirationMutation.patch, bind_some, hhdr] at hpatch
  cases m with
  | expire key ttlMs => exact (hraw.patch (hm key ttlMs rfl) hpatch).self
  | persist key =>
    obtain ⟨-, hpatch⟩ := ite_none_left_eq_some.mp hpatch
    exact (hraw.patch plainExpire_zero hpatch).self

theorem readable_patchAll {ms : List KeyExpirationMutation} {states : ExpirationStates}
    (hms : ∀ key ttlMs, .expire key ttlMs ∈ ms → PlainExpire (saturatingAdd now ttlMs))
    (hstates : ∀ key raw, (states key).1 = some raw → Readable raw (recordExpire raw))
    (key : Bytes) (raw : Bytes) (hraw : ((patchAll now states ms).2 key).1 = some raw) :
    Readable raw (recordExpire raw) := by
  induction ms generalizing states with
  | nil => exact hstates key raw hraw
  | cons m ms ih =>
    refine ih (fun key ttlMs hmem => hms key ttlMs (mem_cons_of_mem _ hmem))
      (fun key raw hkey => ?_) hraw
    unfold patchStates at hkey
    cases hpatch : m.patch now (states m.key).1 with
    | none =>
      rw [hpatch] at hkey
      exact hstates key raw hkey
    | some patched =>
      rw [hpatch] at hkey
      dsimp only at hkey
      split at hkey
      · cases hkey
        obtain ⟨old, hold, -⟩ := bind_eq_some_iff.mp hpatch
        rw [hold] at hpatch
        exact readable_patch (fun key ttlMs heq => hms key ttlMs (heq ▸ mem_cons_self))
          (hstates m.key old hold) hpatch
      · exact hstates key raw hkey

end Batch

/-! ## 一つの key の command -/

namespace Keyspace.Complete

variable {s s' : Keyspace} (h : s.Complete) {now floor : UInt64} {ref : DbKeyRef}

include h

theorem expireIfNeeded (now : UInt64) (ref : DbKeyRef) : (s.expireIfNeeded now ref).Complete := by
  unfold Keyspace.expireIfNeeded
  split
  · split
    · exact (restores_deleteMain _).write h
    · exact h
  · exact h

theorem foldl_expireIfNeeded (now : UInt64) (db : UInt16) (keys : List Bytes) :
    (keys.foldl (fun s key => s.expireIfNeeded now ⟨db, key⟩) s).Complete := by
  induction keys generalizing s with
  | nil => exact h
  | cons key keys ih => exact ih (h.expireIfNeeded now ⟨db, key⟩)

theorem write_flatMap (db : UInt16) {keys : List Bytes} {f : Bytes → KeyBatch}
    (hf : ∀ key ∈ keys, Restores ⟨db, key⟩ (f key)) :
    (s.write (keys.flatMap f)).Complete := by
  induction keys generalizing s with
  | nil => exact h
  | cons key keys ih =>
    obtain ⟨hkey, hkeys⟩ := forall_mem_cons.mp hf
    rw [flatMap_cons, write_append]
    exact ih (hkey.write h) hkeys

theorem loadLiveRaw (now : UInt64) (ref : DbKeyRef) : (s.loadLiveRaw now ref).2.Complete := by
  unfold Keyspace.loadLiveRaw
  split
  · split
    · exact (restores_of_delete batchAbout_deleteStructure fun s => by simp).write h
    · exact h
  · exact h

theorem of_loadLiveRaw {found : Option Bytes} (hload : s.loadLiveRaw now ref = (found, s')) :
    s'.Complete := by
  have hs := h.loadLiveRaw now ref
  rw [hload] at hs
  exact hs

theorem live {raw : Bytes} (hlive : s.liveMain now ref = some raw) :
    Readable raw (recordExpire raw) :=
  (h ref raw (filter_eq_some_iff.mp hlive).1).1

/-- 生きている record の期限は、読み間違えられない。 -/
theorem plainExpire_live : PlainExpire (((s.liveMain now ref).map recordExpire).getD 0) := by
  cases hlive : s.liveMain now ref with
  | none => exact plainExpire_zero
  | some raw => exact (h.live hlive).plain

theorem setStringBytes {expiration : SetExpiration}
    (hexpiration : ∀ e, expiration = .at e → PlainExpire e) (value : Bytes)
    (condition : SetCondition) (returnOld : Bool) :
    (s.setStringBytes now ref value expiration condition returnOld).2.Complete := by
  have hexpired := h.expireIfNeeded now ref
  have hplain : PlainExpire (expiration.resolve (s.liveMain now ref)) := by
    cases expiration with
    | clear => exact plainExpire_zero
    | keepTtl => exact h.plainExpire_live
    | «at» e => exact hexpiration e rfl
  unfold Keyspace.setStringBytes
  dsimp only
  rw [expireIfNeeded_main_self]
  split
  · split
    · exact hexpired
    · exact (restores_set now value _ hplain).write hexpired
  · exact hexpired

theorem getdelStringBytes : (s.getdelStringBytes now ref).2.Complete := by
  have hexpired := h.expireIfNeeded now ref
  unfold Keyspace.getdelStringBytes
  dsimp only
  split
  · exact hexpired
  · split
    · exact hexpired
    · exact (restores_deleteMain _).write hexpired

theorem expireWithCondition {ttlMs : UInt64} (hplain : PlainExpire (saturatingAdd now ttlMs))
    (condition : ExpireCondition) :
    (s.expireWithCondition now ref ttlMs condition).2.Complete := by
  have hexpired := h.expireIfNeeded now ref
  unfold Keyspace.expireWithCondition
  dsimp only
  rw [expireIfNeeded_main_self]
  split
  · exact hexpired
  · next raw hraw =>
    split
    · exact hexpired
    · split
      · split
        · exact (restores_deleteMain _).write hexpired
        · split
          · exact hexpired
          · next patched hpatch =>
            exact (restores_replace _ ((h.live hraw).patch hplain hpatch)).write hexpired
      · exact hexpired

theorem persist : (s.persist now ref).2.Complete := by
  have hexpired := h.expireIfNeeded now ref
  unfold Keyspace.persist
  dsimp only
  rw [expireIfNeeded_main_self]
  split
  · exact hexpired
  · next raw hraw =>
    split
    · exact hexpired
    · split
      · exact hexpired
      · split
        · exact hexpired
        · next patched hpatch =>
          exact (restores_replace _ ((h.live hraw).patch plainExpire_zero hpatch)).write hexpired

theorem getexStringBytes {update : StringExpireUpdate}
    (hplain : PlainExpire (update.expireMs now)) :
    (s.getexStringBytes now ref update).2.Complete := by
  have hexpired := h.expireIfNeeded now ref
  unfold Keyspace.getexStringBytes
  dsimp only
  rw [expireIfNeeded_main_self]
  split
  · exact hexpired
  · next raw hraw =>
    split
    · exact hexpired
    · split
      · exact hexpired
      · split
        · exact hexpired
        · next batch hbatch =>
          exact (restores_getex (h.live hraw) hplain hbatch).write hexpired

/-- 書き直す record の期限は、元の record のものである。 -/
theorem keptExpire_eq {t : TypeTag} {e : UInt64} (hkept : s.keptExpire ref t = some e) :
    e = ((s.main ref).map recordExpire).getD 0 := by
  unfold Keyspace.keptExpire at hkept
  split at hkept
  · next hnone =>
    cases hkept
    rw [hnone]
    rfl
  · next raw hraw =>
    obtain ⟨-, htyped⟩ := ite_none_right_eq_some.mp hkept
    rw [hraw]
    exact (h ref raw hraw).1.typed_eq htyped

theorem rewrite {serde : Serde} {v : MainValue} (hv : v.Ordinary) :
    (s.rewrite serde now ref v).Complete := by
  have hexpired := h.expireIfNeeded now ref
  unfold Keyspace.rewrite
  dsimp only
  split
  · exact hexpired
  · next e hkept =>
    have he := hexpired.keptExpire_eq hkept
    rw [expireIfNeeded_main_self] at he
    split
    · exact hexpired
    · next raw hencode =>
      have hraw : Readable raw e := MainValue.readable hv (he ▸ h.plainExpire_live) hencode
      -- 期限 `e` は元の record のものなので、その entry はすでにある。
      have hput : ((s.expireIfNeeded now ref).apply (.put ref raw)).Complete := by
        intro r
        by_cases hr : r = ref
        · subst hr
          intro raw' hraw'
          rw [put_main, if_pos rfl] at hraw'
          cases hraw'
          refine ⟨hraw.self, fun hexpire => ?_⟩
          rw [hraw.expire_eq] at hexpire ⊢
          cases hlive : s.liveMain now r with
          | none =>
            rw [hlive] at he
            exact absurd he hexpire
          | some old =>
            rw [hlive] at he
            have hold : e = recordExpire old := he
            rw [hold] at hexpire ⊢
            exact (hexpired r old ((expireIfNeeded_main_self ..).trans hlive)).2 hexpire
        · exact (hexpired r).of_same ((show (KeyWrite.put ref raw).About ref from rfl).frame hr _)
      rw [write_cons]
      split
      · refine Restores.write ⟨batchAbout_addToBatch e, fun t ht => ?_⟩ hput
        exact completeAt_add fun raw' hraw' => .inr (ht raw' hraw')
      · exact hput

theorem discard (now : UInt64) (ref : DbKeyRef) (t : TypeTag) :
    (s.discard now ref t).Complete := by
  have hexpired := h.expireIfNeeded now ref
  unfold Keyspace.discard
  dsimp only
  split
  · exact hexpired
  · exact (restores_deleteMain _).write hexpired

theorem overwrite {serde : Serde} {v : MainValue} (hv : v.Ordinary) {expireMs : UInt64}
    (he : PlainExpire expireMs) : (s.overwrite serde ref v expireMs).Complete := by
  unfold Keyspace.overwrite
  split
  · exact h
  · next raw hencode => exact (restores_replace _ (MainValue.readable hv he hencode)).write h

theorem plainSet (ref : DbKeyRef) (value : Bytes) : (s.plainSet ref value).Complete := by
  have hread : Readable (encodeRawString value 0) 0 := .framed plainExpire_zero 0 .string value
  refine Restores.write (show Restores ref _ from ⟨?_, fun t _ raw hraw => ?_⟩) h
  · unfold plainSetToBatch
    split <;> simp [KeyWrite.About]
  · rw [plainSetToBatch, write_append, write_cons, write_nil,
      put_main, if_pos rfl] at hraw
    cases hraw
    exact ⟨hread.self, fun hexpire => absurd hread.expire_eq hexpire⟩

theorem sweep (e : UInt64) (ref : DbKeyRef) : (s.sweep e ref).Complete := by
  have hdb : (TtlEntry.mk e.toNat ref.dbIndex.toNat ref.key).ref = ref := by simp [TtlEntry.ref]
  have hkey : (TtlEntry.mk e.toNat ref.dbIndex.toNat ref.key).rawKey = indexKey e ref := rfl
  have hindex : BatchAbout ref [.deleteIndex (indexKey e ref)] :=
    batchAbout_cons.mpr ⟨⟨e, rfl⟩, batchAbout_nil⟩
  -- 残る record の期限は `e` でないので、消す entry はその record のものではない。
  have hkept (hne : ∀ raw, s.main ref = some raw → recordExpire raw ≠ 0 → recordExpire raw ≠ e) :
      (s.write [.deleteIndex (indexKey e ref)]).Complete := by
    intro r
    by_cases hr : r = ref
    · subst hr
      intro raw hraw
      obtain ⟨hread, hentry⟩ := h r raw hraw
      refine ⟨hread, fun hexpire => ?_⟩
      have hother : indexKey (recordExpire raw) r ≠ indexKey e r :=
        fun heq => hne raw hraw hexpire (indexKey_inj.mp heq).1
      simpa [Keyspace.apply, hother] using hentry hexpire
    · exact (h r).of_same (hindex.frame hr s)
  unfold Keyspace.sweep expirePlan
  rw [hdb, hkey]
  split
  · next hnone =>
    refine hkept fun raw hraw hexpire => absurd ?_ hexpire
    rw [hraw, bind_some] at hnone
    rw [recordExpire, hnone]
  · next hdr hhdr =>
    split
    · exact Restores.write (restores_of_delete (batchAbout_cons.mpr ⟨rfl, hindex⟩)
        fun t => if_pos rfl) h
    · next hne =>
      refine hkept fun raw hraw _ heq => hne ?_
      rw [hraw, bind_some] at hhdr
      rw [recordExpire_of_header hhdr] at heq
      rw [← heq, UInt64.toNat_ofNat_of_lt' (decodeMetaHeader_expireMs_lt hhdr)]

theorem flush (db : UInt16) : (s.flush db).Complete := by
  intro ref raw hraw
  obtain ⟨hdb, hraw⟩ : ref.dbIndex ≠ db ∧ s.main ref = some raw := by
    simpa [Keyspace.flush] using hraw
  obtain ⟨hread, hentry⟩ := h ref raw hraw
  refine ⟨hread, fun hexpire => ?_⟩
  show (_ && _) = true
  rw [hentry hexpire, indexKey_other_db _ hdb]
  rfl

theorem deleteKeys (now : UInt64) (db : UInt16) (keys : List Bytes) :
    (s.deleteKeys now db keys).2.Complete := by
  refine (h.foldl_expireIfNeeded now db _).write_flatMap db fun key _ => ?_
  dsimp only
  generalize Option.filter _ _ = stored
  cases stored with
  | none => exact restores_nil
  | some raw => exact restores_dropSource

theorem stringBatch {ms : List StringBatchMutation}
    (hplain : ∀ key ttlMs value pos, .psetex key ttlMs value pos ∈ ms →
      PlainExpire (saturatingAdd now ttlMs)) (db : UInt16) :
    (s.applyStringBatchMutations now db ms).2.Complete := by
  refine (h.foldl_expireIfNeeded now db _).write_flatMap db fun key _ =>
    restores_toBatch _ (plainExpire_applyAll hplain (fun key => ?_) key)
  rw [fromRaw_expireMs]
  exact h.plainExpire_live

theorem expireBatch {ms : List KeyExpirationMutation}
    (hplain : ∀ key ttlMs, .expire key ttlMs ∈ ms → PlainExpire (saturatingAdd now ttlMs))
    (db : UInt16) : (s.applyKeyExpirationBatch now db ms).2.Complete :=
  (h.foldl_expireIfNeeded now db _).write_flatMap db fun key _ =>
    restores_expiration (readable_patchAll hplain (fun _ _ hlive => h.live hlive) key)

/-! ## COPY、MOVE、RENAME -/

theorem copyThenDrop {source target : DbKeyRef} {ver : UInt64} (t : Keyspace)
    (hne : source ≠ target) (hraw : Readable raw (recordExpire raw)) :
    (s.write (t.copyStructureToBatch source target raw ver ++
      (dropSourceToBatch source raw ++ addToBatch (recordExpire raw) target))).Complete := by
  have hcopy : BatchAbout target (t.copyStructureToBatch source target raw ver) :=
    batchAbout_copyStructure t ver
  have hdrop : BatchAbout source (dropSourceToBatch source raw) := batchAbout_dropSource
  rw [write_append, write_append]
  intro r
  by_cases hr : r = target
  · subst hr
    refine completeAt_add fun raw' hraw' => ?_
    rw [(hdrop.frame hne.symm _).main] at hraw'
    rw [(hdrop.frame hne.symm _).index]
    cases hplan : copyPlan raw ver with
    | some plan =>
      rw [(write_copyStructure hplan t source r).1, if_pos rfl] at hraw'
      cases hraw'
      exact .inl (hraw.copied hplan)
    | none =>
      rw [copyStructureToBatch, hplan] at hraw' ⊢
      exact .inr (h r raw' hraw')
  · refine CompleteAt.of_same ?_ ((batchAbout_addToBatch _).frame hr _)
    by_cases hsource : r = source
    · subst hsource
      exact .of_none (write_dropSource_main ..)
    · exact ((h r).of_same (hcopy.frame hr s)).of_same (hdrop.frame hsource _)

theorem copyVersion {ver : UInt64} (hversion : s.copyVersion floor raw = some (ver, s')) :
    s'.Complete := by
  unfold Keyspace.copyVersion at hversion
  split at hversion
  · obtain ⟨-, rfl⟩ := nextVersion_eq_some hversion
    exact h
  · cases hversion
    exact h

omit h

theorem loadLiveRaw_some (hload : s.loadLiveRaw now ref = (some raw, s')) :
    s.main ref = some raw ∧ s' = s := by
  unfold Keyspace.loadLiveRaw at hload
  split at hload
  · next found hmain =>
    split at hload
    · cases hload
    · cases hload
      exact ⟨hmain, rfl⟩
  · cases hload

theorem main_of_expireIfNeeded {r : DbKeyRef} (hmain : (s.expireIfNeeded now ref).main r = some raw)
    : s.main r = some raw := by
  rw [expireIfNeeded_main] at hmain
  split at hmain
  · next hr =>
    subst hr
    exact (filter_eq_some_iff.mp hmain).1
  · exact hmain

include h

variable {source target : DbKeyRef} {result : Except String Bool × Keyspace}

theorem copyKeyBetweenDbs {replace : Bool}
    (hexec : s.copyKeyBetweenDbs now floor source target replace = some result) :
    result.2.Complete := by
  unfold Keyspace.copyKeyBetweenDbs at hexec
  split at hexec
  · cases hexec
    exact h
  · split at hexec
    · next t hload =>
      cases hexec
      exact h.of_loadLiveRaw hload
    · next raw t hload =>
      obtain ⟨hmain, rfl⟩ := loadLiveRaw_some hload
      have htarget := h.loadLiveRaw now target
      dsimp only at hexec
      split at hexec
      · cases hexec
        exact htarget
      · obtain ⟨⟨ver, u⟩, hversion, rfl⟩ := map_eq_some_iff.mp hexec
        dsimp only
        rw [write_append]
        exact (restores_copy u (h source raw hmain).1).write
          ((restores_clearTarget _).write (htarget.copyVersion hversion))

theorem moveKeyBetweenDbs
    (hexec : s.moveKeyBetweenDbs now floor source target = some result) : result.2.Complete := by
  unfold Keyspace.moveKeyBetweenDbs at hexec
  split at hexec
  · cases hexec
    exact h
  · next hne =>
    split at hexec
    · next t hload =>
      cases hexec
      exact h.of_loadLiveRaw hload
    · next raw t hload =>
      obtain ⟨hmain, rfl⟩ := loadLiveRaw_some hload
      have htarget := h.loadLiveRaw now target
      dsimp only at hexec
      split at hexec
      · cases hexec
        exact htarget
      · obtain ⟨⟨ver, u⟩, hversion, rfl⟩ := map_eq_some_iff.mp hexec
        have hu := htarget.copyVersion hversion
        dsimp only
        split
        · exact hu.copyThenDrop u hne (h source raw hmain).1
        · exact restores_dropSource.write ((restores_copy u (h source raw hmain).1).write hu)

theorem renameKey {oldKey newKey : Bytes} {replace : Bool}
    (hexec : s.renameKey now floor db oldKey newKey replace = some result) : result.2.Complete := by
  unfold Keyspace.renameKey at hexec
  dsimp only at hexec
  split at hexec
  · split at hexec
    · next hload =>
      cases hexec
      exact h.of_loadLiveRaw hload
    · next hload =>
      cases hexec
      exact h.of_loadLiveRaw hload
  · next hne =>
    have hrefs : (⟨db, oldKey⟩ : DbKeyRef) ≠ ⟨db, newKey⟩ := by simpa using hne
    have hexpired := (h.expireIfNeeded now ⟨db, oldKey⟩).expireIfNeeded now ⟨db, newKey⟩
    split at hexec
    · cases hexec
      exact hexpired
    · next raw hraw =>
      have hmain := main_of_expireIfNeeded (main_of_expireIfNeeded hraw)
      split at hexec
      · cases hexec
        exact hexpired
      · obtain ⟨⟨ver, u⟩, hversion, rfl⟩ := map_eq_some_iff.mp hexec
        dsimp only
        rw [write_append]
        exact ((restores_clearTarget _).write (hexpired.copyVersion hversion)).copyThenDrop u hrefs
          (h _ raw hmain).1

theorem transfer {c : TransferCommand}
    (hexec : c.exec s now floor = some result) : result.2.Complete := by
  cases c with
  | copy => exact h.copyKeyBetweenDbs hexec
  | move => exact h.moveKeyBetweenDbs hexec
  | rename => exact h.renameKey hexec

end Keyspace.Complete

/-- record の期限の entry があり、期限が来れば sweeper の走査の範囲に入り、その key の entry と読まれる。 -/
structure SeenBySweeper (s : Keyspace) (ref : DbKeyRef) (raw : Bytes) : Prop where
  present : s.index (indexKey (recordExpire raw) ref) = true
  scanned : ∀ now : UInt64, recordExpire raw ≤ now → now.toNat < maxU64 →
    inRange (ttlDbPrefix ref.dbIndex.toNat) (ttlDbExpireUpperBound ref.dbIndex.toNat now.toNat)
      (indexKey (recordExpire raw) ref) = true
  parsed : validUtf8 ref.key = true → parseTtlIndexKey (indexKey (recordExpire raw) ref) =
    some ⟨(recordExpire raw).toNat, ref.dbIndex.toNat, ref.key⟩

theorem Keyspace.Complete.seen {s : Keyspace} (h : s.Complete) (hmain : s.main ref = some raw)
    (hexpire : recordExpire raw ≠ 0) : SeenBySweeper s ref raw where
  present := (h ref raw hmain).2 hexpire
  scanned _ hdue hnow := ttlIndexKey_scanned (UInt64.le_iff_toNat_le.mp hdue) hnow
  parsed hkey := parseTtlIndexKey_ttlIndexKey (recordExpire raw).toNat_lt ref.dbIndex.toNat_lt hkey

namespace MissingEntry

open MagicExpire (serde)

def now : UInt64 := 1700000000000

/-- key `k` -/
def k : DbKeyRef := ⟨0, [0x6b]⟩

end MissingEntry

end Onedis.Store
