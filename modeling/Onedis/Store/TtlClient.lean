import Onedis.Store.TtlCommand

/-!
# sweeper から見た client の command

sweeper の遷移系は、client の書き込みを text の key に限った任意の batch とする。ここでは、その batch が実際の command
の書き込みを含むことを示す。

* `TtlEvent.step_simulated` — text の key の command は、sweeper の遷移系では client の batch の列である

command は `Keyspace` の上で、sweeper は raw key の table の上で動く。二つの状態は `RawTable.Holds` で結び、一項目の
書き込みがそれを保つことから batch と command へ進む。
-/

namespace Onedis.Store

open Infra Codec

/-! ## 二つの状態の対応 -/

/-- table が `Keyspace` の record と index を持つ。record は text の key のものだけを見る。 -/
structure RawTable.Holds (t : RawTable) (s : Keyspace) : Prop where
  main : ∀ ref, validUtf8 ref.key = true → t ref = s.main ref
  index : ∀ e ref, (t (indexSlot (indexKey e ref))).isSome = s.index (indexKey e ref)

/-- text の key の record は、index の entry と重ならない。 -/
theorem ne_indexSlot {ref : DbKeyRef} (htext : validUtf8 ref.key = true) (e : UInt64)
    (r : DbKeyRef) : ref ≠ indexSlot (indexKey e r) := by
  rintro rfl
  exact absurd ((validUtf8_spec htext).1 0xfe rfl) (by decide)

theorem indexSlot_inj {e e' : UInt64} {r r' : DbKeyRef} :
    indexSlot (indexKey e r) = indexSlot (indexKey e' r') ↔ indexKey e r = indexKey e' r' :=
  ⟨congrArg DbKeyRef.key, congrArg indexSlot⟩

namespace RawTable.Holds

variable {t : RawTable} {s : Keyspace}

theorem setMain (h : t.Holds s) {ref : DbKeyRef} (htext : validUtf8 ref.key = true)
    (value : Option Bytes) :
    (t.set ref value).Holds { s with main := fun r => if r = ref then value else s.main r } := by
  refine ⟨fun r hr => ?_, fun e r => ?_⟩
  · rw [set_apply, h.main r hr]
  · rw [set_apply, if_neg (ne_indexSlot htext e r).symm]
    exact h.index e r

theorem setIndex (h : t.Holds s) (e : UInt64) (ref : DbKeyRef) (value : Option Bytes) :
    (t.set (indexSlot (indexKey e ref)) value).Holds
      { s with index := fun k => if k = indexKey e ref then value.isSome else s.index k } := by
  refine ⟨fun r hr => ?_, fun e' r => ?_⟩
  · rw [set_apply, if_neg (ne_indexSlot hr e ref)]
    exact h.main r hr
  · rw [set_apply]
    simp only [indexSlot_inj]
    split
    · rfl
    · exact h.index e' r

/-- **一項目の書き込みが対応を保つ。** -/
theorem apply (h : t.Holds s) {w : KeyWrite} (hw : w.FromClient) :
    (t.apply w).Holds (s.apply w) := by
  cases w with
  | put ref raw => exact h.setMain hw (some raw)
  | delete ref => exact h.setMain hw none
  | putIndex key =>
    -- `Keyspace` の index は key の集合、table では値を持つ record である
    obtain ⟨e, ref, -, rfl⟩ := hw
    refine ⟨(h.setIndex e ref (some ttlIndexValue)).main, fun e' r => ?_⟩
    refine ((h.setIndex e ref (some ttlIndexValue)).index e' r).trans ?_
    by_cases hkey : indexKey e' r = indexKey e ref <;> simp [Keyspace.apply, hkey]
  | deleteIndex key =>
    obtain ⟨e, ref, rfl⟩ := hw
    refine ⟨(h.setIndex e ref none).main, fun e' r => ?_⟩
    refine ((h.setIndex e ref none).index e' r).trans ?_
    by_cases hkey : indexKey e' r = indexKey e ref <;> simp [Keyspace.apply, hkey]
  | putAll | deleteSub | deleteRange => exact ⟨h.main, h.index⟩

theorem write (h : t.Holds s) {batch : KeyBatch} (hbatch : BatchFromClient batch) :
    (t.write batch).Holds (s.write batch) := by
  induction batch generalizing t s with
  | nil => exact h
  | cons w batch ih =>
    obtain ⟨hw, hbatch⟩ := batchFromClient_cons.mp hbatch
    exact ih (h.apply hw) hbatch

end RawTable.Holds

/-! ## client の batch の列 -/

theorem batchFromClient_append {batch batch' : KeyBatch} (h : BatchFromClient batch)
    (h' : BatchFromClient batch') : BatchFromClient (batch ++ batch') :=
  List.forall_mem_append.mpr ⟨h, h'⟩

/-- `s` から `s'` へ、client の batch を順に書いて移る。version の counter は table にない。 -/
def ClientWrites (s s' : Keyspace) : Prop :=
  ∃ batches : List ClientBatch, ∀ t : RawTable, t.Holds s →
    (batches.foldl (fun t b => t.write b.batch) t).Holds s'

namespace ClientWrites

variable {s s' s'' : Keyspace} {ref : DbKeyRef} {batch : KeyBatch}

theorem refl (s : Keyspace) : ClientWrites s s := ⟨[], fun _ h => h⟩

theorem trans (h : ClientWrites s s') (h' : ClientWrites s' s'') : ClientWrites s s'' := by
  obtain ⟨batches, hbatches⟩ := h
  obtain ⟨batches', hbatches'⟩ := h'
  refine ⟨batches ++ batches', fun t ht => ?_⟩
  rw [List.foldl_append]
  exact hbatches' _ (hbatches t ht)

theorem write (h : ClientWrites s s') (hbatch : BatchFromClient batch) :
    ClientWrites s (s'.write batch) :=
  h.trans ⟨[⟨batch, hbatch⟩], fun _ ht => ht.write hbatch⟩

theorem counter (h : ClientWrites s s') (ver : UInt64) :
    ClientWrites s { s' with counter := ver } :=
  h.trans ⟨[], fun _ ht => ⟨ht.main, ht.index⟩⟩

end ClientWrites

/-! ## 一つの key の command -/

namespace Keyspace

variable {s : Keyspace} {now floor : UInt64} {ref : DbKeyRef} (htext : validUtf8 ref.key = true)

include htext

theorem clientWrites_expireIfNeeded (s : Keyspace) (now : UInt64) :
    ClientWrites s (s.expireIfNeeded now ref) := by
  unfold expireIfNeeded
  split
  · split
    · exact (ClientWrites.refl s).write ((batchAbout_deleteMain _).fromClient htext)
    · exact .refl s
  · exact .refl s

theorem clientWrites_loadLiveRaw (s : Keyspace) (now : UInt64) :
    ClientWrites s (s.loadLiveRaw now ref).2 := by
  unfold loadLiveRaw
  split
  · split
    · exact (ClientWrites.refl s).write (batchAbout_deleteStructure.fromClient htext)
    · exact .refl s
  · exact .refl s

theorem clientWrites_set (value : Bytes) (expiration : SetExpiration) (condition : SetCondition)
    (returnOld : Bool) :
    ClientWrites s (s.setStringBytes now ref value expiration condition returnOld).2 := by
  have hexpired := clientWrites_expireIfNeeded htext s now
  unfold setStringBytes
  dsimp only
  split
  · split
    · exact hexpired
    · refine hexpired.write (BatchAbout.fromClient ?_ htext)
      unfold setBatch
      split <;> simp [writeStringValueToBatch]
  · exact hexpired

theorem clientWrites_plainSet (value : Bytes) : ClientWrites s (s.plainSet ref value) := by
  have habout : BatchAbout ref (plainSetToBatch ref value (s.main ref)) := by
    unfold plainSetToBatch
    split <;> simp [KeyWrite.About]
  exact (ClientWrites.refl s).write (habout.fromClient htext)

theorem clientWrites_expire (ttlMs : UInt64) (condition : ExpireCondition) :
    ClientWrites s (s.expireWithCondition now ref ttlMs condition).2 := by
  have hexpired := clientWrites_expireIfNeeded htext s now
  unfold expireWithCondition
  dsimp only
  split
  · exact hexpired
  · split
    · exact hexpired
    · split
      · split
        · exact hexpired.write ((batchAbout_deleteMain _).fromClient htext)
        · split
          · exact hexpired
          · exact hexpired.write ((batchAbout_replace _ _).fromClient htext)
      · exact hexpired

theorem clientWrites_persist : ClientWrites s (s.persist now ref).2 := by
  have hexpired := clientWrites_expireIfNeeded htext s now
  unfold persist
  dsimp only
  split
  · exact hexpired
  · split
    · exact hexpired
    · split
      · exact hexpired
      · split
        · exact hexpired
        · exact hexpired.write ((batchAbout_replace _ _).fromClient htext)

theorem clientWrites_rewrite (serde : Serde) (v : MainValue) :
    ClientWrites s (s.rewrite serde now ref v) := by
  have hexpired := clientWrites_expireIfNeeded htext s now
  unfold rewrite
  dsimp only
  split
  · exact hexpired
  · split
    · exact hexpired
    · refine hexpired.write (BatchAbout.fromClient (batchAbout_cons.mpr ⟨rfl, ?_⟩) htext)
      split <;> simp

theorem clientWrites_overwrite (serde : Serde) (v : MainValue) (expireMs : UInt64) :
    ClientWrites s (s.overwrite serde ref v expireMs) := by
  unfold overwrite
  split
  · exact .refl s
  · exact (ClientWrites.refl s).write ((batchAbout_replace _ _).fromClient htext)

omit htext

/-! ## 複数の key の command -/

variable {db : UInt16} {keys : List Bytes}

theorem clientWrites_foldl_expireIfNeeded (hkeys : ∀ key ∈ keys, validUtf8 key = true) :
    ClientWrites s (keys.foldl (fun s key => s.expireIfNeeded now ⟨db, key⟩) s) := by
  induction keys generalizing s with
  | nil => exact .refl s
  | cons key keys ih =>
    obtain ⟨hkey, hkeys⟩ := List.forall_mem_cons.mp hkeys
    have hhead : ClientWrites s (s.expireIfNeeded now ⟨db, key⟩) :=
      clientWrites_expireIfNeeded hkey s now
    exact hhead.trans (ih hkeys)

theorem batchFromClient_flatMap (db : UInt16) (hkeys : ∀ key ∈ keys, validUtf8 key = true)
    {f : Bytes → KeyBatch} (hf : ∀ key, BatchAbout ⟨db, key⟩ (f key)) :
    BatchFromClient (keys.flatMap f) := by
  intro w hw
  obtain ⟨key, hkey, hw⟩ := List.mem_flatMap.mp hw
  exact (hf key).fromClient (hkeys key hkey) w hw

theorem clientWrites_delete (hkeys : ∀ key ∈ keys, validUtf8 key = true) :
    ClientWrites s (s.deleteKeys now db keys).2 := by
  have hdedup : ∀ key ∈ keys.dedup, validUtf8 key = true :=
    fun key hkey => hkeys key (List.mem_dedup.mp hkey)
  refine (clientWrites_foldl_expireIfNeeded hdedup).write (batchFromClient_flatMap db
    (fun key hkey => hdedup key (List.mem_filter.mp hkey).1) fun key => ?_)
  dsimp only
  generalize Option.filter _ _ = stored
  cases stored with
  | none => exact batchAbout_nil
  | some raw => exact batchAbout_dropSource

/-! ## RENAME -/

variable {target : DbKeyRef} {s' : Keyspace} {raw : Bytes} {ver : UInt64}
  {result : Except String Bool × Keyspace}

theorem clientWrites_copyVersion (hversion : s.copyVersion floor raw = some (ver, s')) :
    ClientWrites s s' := by
  unfold copyVersion at hversion
  split at hversion
  · obtain ⟨-, rfl⟩ := nextVersion_eq_some hversion
    exact (ClientWrites.refl s).counter ver
  · cases hversion
    exact .refl s

theorem batchAbout_clearTarget (targetRaw : Option Bytes) :
    BatchAbout target (clearTargetToBatch target targetRaw) := by
  cases targetRaw with
  | none => exact batchAbout_nil
  | some raw => exact batchAbout_dropSource

theorem clientWrites_rename {oldKey newKey : Bytes} {replace : Bool}
    (hold : validUtf8 oldKey = true) (hnew : validUtf8 newKey = true)
    (hexec : s.renameKey now floor db oldKey newKey replace = some result) :
    ClientWrites s result.2 := by
  have hload : ClientWrites s (s.loadLiveRaw now ⟨db, oldKey⟩).2 :=
    clientWrites_loadLiveRaw hold s now
  unfold renameKey at hexec
  dsimp only at hexec
  split at hexec
  · split at hexec
    all_goals
      next heq =>
        cases hexec
        rwa [heq] at hload
  · have hexpired : ClientWrites s
        ((s.expireIfNeeded now ⟨db, oldKey⟩).expireIfNeeded now ⟨db, newKey⟩) :=
      .trans (clientWrites_expireIfNeeded hold s now) (clientWrites_expireIfNeeded hnew _ now)
    split at hexec
    · cases hexec
      exact hexpired
    · split at hexec
      · cases hexec
        exact hexpired
      · obtain ⟨⟨ver, u⟩, hversion, rfl⟩ := Option.map_eq_some_iff.mp hexec
        -- 書き込み先を空け、写し、元を消し、期限を加えるのが一つの batch である
        refine (hexpired.trans (clientWrites_copyVersion hversion)).write (batchFromClient_append
          ((batchAbout_clearTarget _).fromClient hnew) (batchFromClient_append
            ((batchAbout_copyStructure u ver).fromClient hnew) (batchFromClient_append
              (batchAbout_dropSource.fromClient hold) ((batchAbout_addToBatch _).fromClient hnew))))

end Keyspace
open Keyspace

/-! ## command -/

/-- SET、EXPIRE、PERSIST、RENAME、DEL、作り直しと期限の確認で、key がどれも text である。 -/
def TtlCommand.OnText : TtlCommand → Prop
  | .set ref .. | .plainSet ref _ | .rewrite ref _ | .overwrite ref .. | .expire ref ..
  | .persist ref | .expireIfNeeded ref => validUtf8 ref.key = true
  | .transfer (.rename _ oldKey newKey _) => validUtf8 oldKey = true ∧ validUtf8 newKey = true
  | .delete _ keys => ∀ key ∈ keys, validUtf8 key = true
  | _ => False

theorem TtlEvent.step_clientWrites {serde : Serde} {s s' : Keyspace} {ev : TtlEvent}
    (htext : ev.command.OnText) (hstep : ev.step serde s = some s') : ClientWrites s s' := by
  obtain ⟨now, floor, command⟩ := ev
  cases command with
  | set ref value expiration condition returnOld =>
    cases hstep
    exact clientWrites_set htext value expiration condition returnOld
  | plainSet ref value =>
    cases hstep
    exact clientWrites_plainSet htext value
  | rewrite ref v =>
    cases hstep
    exact clientWrites_rewrite htext serde v
  | overwrite ref v expireMs =>
    cases hstep
    exact clientWrites_overwrite htext serde v expireMs
  | expire ref ttlMs condition =>
    cases hstep
    exact clientWrites_expire htext ttlMs condition
  | persist ref =>
    cases hstep
    exact clientWrites_persist htext
  | transfer command =>
    obtain ⟨result, hexec, rfl⟩ := Option.map_eq_some_iff.mp hstep
    cases command with
    | rename => exact clientWrites_rename htext.1 htext.2 hexec
    | copy | move => exact htext.elim
  | delete db keys =>
    cases hstep
    exact clientWrites_delete htext
  | expireIfNeeded ref =>
    cases hstep
    exact clientWrites_expireIfNeeded htext s now
  | mutate | getdel | getex | stringBatch | discard | expireBatch | sweep | flush =>
    exact htext.elim

/-- **text の key の command は、sweeper の遷移系では client の batch の列である。** -/
theorem TtlEvent.step_simulated {serde : Serde} {s s' : Keyspace} {ev : TtlEvent}
    (htext : ev.command.OnText) (hstep : ev.step serde s = some s') {σ : SweepState}
    (hσ : σ.table.Holds s) : ∃ (batches : List ClientBatch) (table : RawTable),
      run SweepState.step σ (batches.map .client) = some { σ with table } ∧ table.Holds s' := by
  obtain ⟨batches, hbatches⟩ := TtlEvent.step_clientWrites htext hstep
  -- client の出来事は table だけを変えるので、実行は batch を順に書くことである
  refine ⟨batches, _, ?_, hbatches σ.table hσ⟩
  clear hbatches hσ
  induction batches generalizing σ with
  | nil => rfl
  | cons b batches ih => exact ih

end Onedis.Store
