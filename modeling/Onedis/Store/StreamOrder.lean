import Onedis.Infra.Run
import Onedis.Store.StreamEntries

/-!
# stream の id の増加

一つの key に XADD、XDEL、XTRIM、XSETID を任意の順に、任意の時計で実行する。連番が上限にあり時計も進んで
いないと、自動の id は前の id と同じになる。XSETID は小さな id も受け入れる。

* `stream_ids_increase` — どの命令も条件を満たす実行では、id は増え続け、件数は entry の数に等しい
-/

namespace Onedis.Store

open Infra List StreamSlot StreamContent
open Codec (StreamId wrongTypeError)

/-! ## 命令 -/

/-- entry を書く命令。 -/
inductive StreamCommand
  | xadd (clock : CommandClock) (idArg : Bytes) (fields : List (Bytes × Bytes))
      (packedNow splitNow : UInt64)
  | xaddMerged (clock : CommandClock) (requests : List AddRequest)
  | xdel (clock : CommandClock) (ids : List StreamId)
  | xdelMerged (now : Nat) (commands : List (List StreamId))
  | xtrim (clock : CommandClock) (maxLen : Nat)
  | xsetid (now : Nat) (id : StreamId)

inductive StreamReply
  | added (id : StreamId)
  | count (n : Nat)
  | done
  | error (msg : String)
  deriving DecidableEq

def xaddArityError : String := "ERR wrong number of arguments for 'xadd' command"

/-- `Xadd::parse_from_frame`。id の一部を省いた形は受け入れない。 -/
def parseXadd (idArg : Bytes) (fields : List (Bytes × Bytes)) (packedNow splitNow : UInt64) :
    Except String AddRequest :=
  match parseXaddId idArg with
  | .error e => .error e
  | .ok id => if fields = [] then .error xaddArityError else .ok ⟨id, fields, packedNow, splitNow⟩

def replyOfAdd : Except String StreamId → StreamReply
  | .ok id => .added id
  | .error e => .error e

def replyOfCount : Except String Nat → StreamReply
  | .ok n => .count n
  | .error e => .error e

def replyOfUnit : Except String Unit → StreamReply
  | .ok _ => .done
  | .error e => .error e

namespace StreamCommand

def requests : StreamCommand → List AddRequest
  | xadd _ idArg fields packedNow splitNow =>
    (parseXadd idArg fields packedNow splitNow).toOption.toList
  | xaddMerged _ requests => requests
  | _ => []

/-- 命令を実行する。 -/
def exec (s : StreamSlot) : StreamCommand → List StreamReply × StreamSlot
  | xadd clock idArg fields packedNow splitNow =>
    match parseXadd idArg fields packedNow splitNow with
    | .error e => ([.error e], s)
    | .ok r => ((s.streamAdd clock [r]).1.map replyOfAdd, (s.streamAdd clock [r]).2)
  | xaddMerged clock requests =>
    ((s.streamAdd clock requests).1.map replyOfAdd, (s.streamAdd clock requests).2)
  | xdel clock ids => ([replyOfCount (s.streamDelete clock ids).1], (s.streamDelete clock ids).2)
  | xdelMerged now commands =>
    ((s.streamDeleteBatch now commands).1.map replyOfCount, (s.streamDeleteBatch now commands).2)
  | xtrim clock maxLen =>
    ([replyOfCount (s.streamTrimMaxlen clock maxLen).1], (s.streamTrimMaxlen clock maxLen).2)
  | xsetid now id => ([replyOfUnit (s.streamSetId now id).1], (s.streamSetId now id).2)

end StreamCommand

def addedIds (replies : List StreamReply) : List StreamId :=
  replies.filterMap fun
    | .added id => some id
    | _ => none

theorem addedIds_replyOfAdd (replies : List (Except String StreamId)) :
    addedIds (replies.map replyOfAdd) = acceptedIds replies := by
  rw [addedIds, acceptedIds, filterMap_map]
  congr 1
  funext reply
  cases reply <;> rfl

/-! ## 世代 -/

def StreamCommand.observed (s : StreamSlot) : StreamCommand → Visible StreamContent
  | xadd clock idArg fields packedNow splitNow =>
    (s.addObserved clock (xadd clock idArg fields packedNow splitNow).requests).1
  | xaddMerged clock requests => (s.addObserved clock requests).1
  | xdel clock _ => s.observed clock (s.direct clock)
  | xdelMerged now commands => if commands = [] then s.stored else s.stored.upTo now
  | xtrim clock _ => s.observed clock (s.direct clock)
  | xsetid now _ => s.stored.upTo now

def carry (seen : List StreamId) : Visible StreamContent → List StreamId
  | .value _ _ => seen
  | _ => []

def storedIds : Visible StreamContent → List StreamId
  | .value _ c => c.entries.entries.map Prod.fst
  | _ => []

/-- stream の状態と、それまでに与えた ID。 -/
structure StreamRun where
  slot : StreamSlot
  seen : List StreamId

namespace StreamRun

def start (s : StreamSlot) : StreamRun := ⟨s, storedIds s.stored⟩

def step (st : StreamRun) (c : StreamCommand) : Option StreamRun :=
  let out := c.exec st.slot
  some ⟨out.2, carry st.seen (c.observed st.slot) ++ addedIds out.1⟩

end StreamRun

/-! ## 条件 -/

/-- 自動の id が、それまでに受け入れた要求で進んだ id より大きくなり、件数が 64 bit に収まる。 -/
def Room (now : AddRequest → UInt64) : StreamInfo → List AddRequest → Prop
  | _, [] => True
  | info, r :: rs =>
    match resolveStreamId (now r) r.requestedId info.lastId with
    | .error _ => Room now info rs
    | .ok id =>
      (r.requestedId = none → ¬ Saturated (now r) info.lastId) ∧
        info.length.toNat + 1 < 2 ^ 64 ∧ Room now (info.add id) rs

instance Room.decidable (now : AddRequest → UInt64) :
    ∀ (info : StreamInfo) (requests : List AddRequest), Decidable (Room now info requests)
  | _, [] => .isTrue trivial
  | info, r :: rs => by
    unfold Room
    split
    · exact Room.decidable now info rs
    · next id _ =>
      have := Room.decidable now (info.add id) rs
      infer_instance

def visibleInfo : Visible StreamContent → Option StreamInfo
  | .value _ c => some c.info
  | .missing => some .empty
  | .foreign _ _ => none

def AddSafe (s : StreamSlot) (clock : CommandClock) (requests : List AddRequest) : Prop :=
  ∀ info ∈ visibleInfo (s.addObserved clock requests).1,
    Room (s.addObserved clock requests).2 info requests

instance (s : StreamSlot) (clock : CommandClock) (requests : List AddRequest) :
    Decidable (AddSafe s clock requests) := inferInstanceAs (Decidable (∀ _ ∈ _, _))

def StreamCommand.Safe (st : StreamRun) : StreamCommand → Prop
  | xadd clock idArg fields packedNow splitNow =>
    AddSafe st.slot clock (xadd clock idArg fields packedNow splitNow).requests
  | xaddMerged clock requests => AddSafe st.slot clock requests
  | xsetid now id =>
    match st.slot.stored.upTo now with
    | .value _ c => c.info.lastId ≤ id
    | _ => True
  | _ => True

instance (st : StreamRun) (c : StreamCommand) : Decidable (c.Safe st) := by
  cases c with
  | xsetid now id =>
    unfold StreamCommand.Safe
    dsimp only
    split <;> infer_instance
  | xadd clock idArg fields packedNow splitNow | xaddMerged clock requests =>
    unfold StreamCommand.Safe
    infer_instance
  | xdel clock ids | xdelMerged now commands | xtrim clock maxLen => exact .isTrue trivial

/-! ## 整合 -/

/-- 件数は entry の数に等しく、`last_id` はどの entry の id よりも小さくない。 -/
structure StreamContent.Consistent (c : StreamContent) : Prop where
  length_eq : c.info.length.toNat = c.entries.entries.length
  le_lastId : ∀ e ∈ c.entries.entries, e.1 ≤ c.info.lastId

/-- 記録は残っている entry を含み、`last_id` を超えない。 -/
def Covers (seen : List StreamId) : Visible StreamContent → Prop
  | .value _ c => c.Consistent ∧ (∀ e ∈ c.entries.entries, e.1 ∈ seen) ∧
      ∀ id ∈ seen, id ≤ c.info.lastId
  | _ => seen = []

def Increasing (seen ids : List StreamId) : Prop :=
  ids.Pairwise (· < ·) ∧ ∀ id ∈ ids, ∀ old ∈ seen, old < id

variable {seen : List StreamId} {v : Visible StreamContent}

theorem Covers.self (h : Covers seen v) : carry seen v = seen := by
  cases v with
  | value e c => rfl
  | missing | foreign e raw => exact h.symm

theorem Covers.upTo (h : Covers seen v) (now : Nat) :
    Covers (carry seen (v.upTo now)) (v.upTo now) := by
  rcases v.upTo_eq now with hv | hv
  · rw [hv]
    exact rfl
  · rw [hv, h.self]
    exact h

theorem carry_carry (seen : List StreamId) (v : Visible StreamContent) (now : Nat) :
    carry (carry seen v) (v.upTo now) = carry seen (v.upTo now) := by
  rcases v.upTo_eq now with hv | hv
  · rw [hv]
    rfl
  · rw [hv]
    cases v <;> rfl

theorem Covers.observed {s : StreamSlot} (h : Covers seen s.stored) (clock : CommandClock)
    (direct : Bool) :
    Covers (carry seen (s.observed clock direct)) (s.observed clock direct) := by
  have hfirst := h.upTo clock.expireNow
  cases direct with
  | true => exact hfirst
  | false =>
    have hsecond := hfirst.upTo clock.metaNow
    rw [carry_carry] at hsecond
    exact hsecond

theorem addOne_consistent {c : StreamContent} {id : StreamId} {value : Bytes}
    {seen : List StreamId} (hc : c.Consistent) (hstored : ∀ e ∈ c.entries.entries, e.1 ∈ seen)
    (hseen : ∀ old ∈ seen, old ≤ c.info.lastId) (hlt : c.info.lastId < id)
    (hroom : c.info.length.toNat + 1 < 2 ^ 64) :
    (⟨c.info.add id, c.entries.put id value, c.groups⟩ : StreamContent).Consistent ∧
      (∀ e ∈ (c.entries.put id value).entries, e.1 ∈ seen ++ [id]) ∧
      ∀ old ∈ seen ++ [id], old ≤ id := by
  have hentries : (c.entries.put id value).entries = c.entries.entries ++ [(id, value)] :=
    OrderedMap.entries_put_of_lt (fun e he => (hc.le_lastId e he).trans_lt hlt) value
  refine ⟨⟨?_, ?_⟩, ?_, ?_⟩
  · dsimp only
    rw [hentries, length_append, ← hc.length_eq]
    show (c.info.length + 1).toNat = c.info.length.toNat + 1
    rw [UInt64.toNat_add]
    exact Nat.mod_eq_of_lt hroom
  · dsimp only
    rw [hentries]
    exact forall_mem_concat (fun e he => ((hc.le_lastId e he).trans_lt hlt).le) le_rfl
  · rw [hentries]
    exact forall_mem_concat (fun e he => mem_append_left _ (hstored e he))
      (mem_append_right _ (mem_singleton_self _))
  · exact forall_mem_concat (fun old hold => ((hseen old hold).trans_lt hlt).le) le_rfl

theorem addAll_consistent {now : AddRequest → UInt64} {requests : List AddRequest}
    {c : StreamContent} {seen : List StreamId} (hc : c.Consistent)
    (hstored : ∀ e ∈ c.entries.entries, e.1 ∈ seen) (hseen : ∀ old ∈ seen, old ≤ c.info.lastId)
    (hroom : Room now c.info requests) :
    let out := runOne (addOne now) c requests
    Increasing seen (acceptedIds out.1) ∧ out.2.Consistent ∧
      (∀ e ∈ out.2.entries.entries, e.1 ∈ seen ++ acceptedIds out.1) ∧
      (∀ old ∈ seen ++ acceptedIds out.1, old ≤ out.2.info.lastId) ∧
      c.info.lastId ≤ out.2.info.lastId := by
  induction requests generalizing c seen with
  | nil =>
    simp only [runOne, acceptedIds, filterMap_nil, append_nil]
    exact ⟨⟨.nil, by simp⟩, hc, hstored, hseen, le_rfl⟩
  | cons r rs ih =>
    simp only [runOne]
    unfold Room at hroom
    cases hid : resolveStreamId (now r) r.requestedId c.info.lastId with
    | error e =>
      rw [hid] at hroom
      have hself : addOne now r c = (.error e, c) := by rw [addOne, hid]
      rw [hself]
      exact ih hc hstored hseen hroom
    | ok id =>
      rw [hid] at hroom
      obtain ⟨hauto, hsize, hrest⟩ := hroom
      have hlt := lt_of_resolveStreamId hid hauto
      have hone : addOne now r c =
          (.ok id, ⟨c.info.add id, c.entries.put id (encodeStreamEntry r.fields), c.groups⟩) := by
        rw [addOne, hid]
      rw [hone]
      obtain ⟨hc', hstored', hseen'⟩ :=
        @addOne_consistent c id (encodeStreamEntry r.fields) seen hc hstored hseen hlt hsize
      obtain ⟨⟨hsorted, hgreater⟩, hfinal, hmem, hle, hmono⟩ := ih hc' hstored' hseen' hrest
      have haccepted : ∀ replies, acceptedIds (.ok id :: replies) = id :: acceptedIds replies :=
        fun _ => rfl
      have hid_lt : ∀ new ∈ acceptedIds (runOne (addOne now)
          ⟨c.info.add id, c.entries.put id (encodeStreamEntry r.fields), c.groups⟩ rs).1,
          id < new := fun new hnew =>
        hgreater new hnew id (mem_append_right _ (mem_singleton_self _))
      simp only [haccepted]
      rw [append_assoc] at hmem hle
      refine ⟨⟨pairwise_cons.mpr ⟨hid_lt, hsorted⟩, ?_⟩, hfinal, hmem, hle,
        hlt.le.trans hmono⟩
      intro new hnew old hold
      have hold_lt : old < id := (hseen old hold).trans_lt hlt
      rcases mem_cons.mp hnew with rfl | hnew
      · exact hold_lt
      · exact hold_lt.trans (hid_lt new hnew)

theorem xaddSpec_covers {now : AddRequest → UInt64} {requests : List AddRequest} (h : Covers seen v)
    (hroom : ∀ info ∈ visibleInfo v, Room now info requests) :
    Increasing seen (acceptedIds (xaddSpec now requests v).1) ∧
      Covers (seen ++ acceptedIds (xaddSpec now requests v).1) (xaddSpec now requests v).2 := by
  cases v with
  | foreign e raw =>
    have hnone : acceptedIds (xaddSpec now requests (.foreign e raw)).1 = [] := by
      simp only [xaddSpec, acceptedIds, filterMap_map]
      exact filterMap_eq_nil_iff.mpr fun _ _ => rfl
    rw [hnone, append_nil]
    exact ⟨⟨.nil, by simp⟩, h⟩
  | missing =>
    obtain rfl : seen = [] := h
    obtain ⟨hinc, hc, hmem, hle, -⟩ := @addAll_consistent now requests .empty []
      ⟨rfl, by simp [empty]⟩ (by simp [empty]) (by simp) (hroom _ rfl)
    refine ⟨hinc, ?_⟩
    simp only [xaddSpec]
    split
    · next hnone =>
      rw [hnone]
      exact rfl
    · exact ⟨hc, hmem, hle⟩
  | value e c =>
    obtain ⟨hc, hstored, hseen⟩ := h
    obtain ⟨hinc, hc', hmem, hle, -⟩ := addAll_consistent hc hstored hseen (hroom _ rfl)
    exact ⟨hinc, hc', hmem, hle⟩

theorem Covers.shrink {c c' : StreamContent} {e e' : Nat} {n : Nat} (h : Covers seen (.value e c))
    (hinfo : c'.info = lessLength c.info n)
    (hsub : c'.entries.entries.Sublist c.entries.entries)
    (hlen : n + c'.entries.entries.length = c.entries.entries.length) :
    Covers seen (.value e' c') := by
  obtain ⟨hc, hstored, hseen⟩ := h
  have hlast : c'.info.lastId = c.info.lastId := by rw [hinfo]; rfl
  refine ⟨⟨?_, fun x hx => ?_⟩, fun x hx => hstored x (hsub.subset hx), fun x hx => ?_⟩
  · have hlt := c.info.length.toNat_lt
    rw [hinfo]
    show (UInt64.ofNat (c.info.length.toNat - n)).toNat = _
    rw [UInt64.toNat_ofNat', Nat.mod_eq_of_lt (by omega), hc.length_eq]
    omega
  · rw [hlast]
    exact hc.le_lastId x (hsub.subset hx)
  · rw [hlast]
    exact hseen x hx

theorem deleteSpec_covers (h : Covers seen v) (ids : List StreamId) :
    Covers seen (deleteSpec ids v).2 := by
  cases v with
  | missing | foreign e raw => exact h
  | value e c => exact h.shrink rfl filter_sublist (delete_entries c ids)

theorem trimSpec_covers (h : Covers seen v) (maxLen : Nat) : Covers seen (trimSpec maxLen v).2 := by
  cases v with
  | missing | foreign e raw => exact h
  | value e c =>
    refine h.shrink rfl (drop_sublist ..) ?_
    show min _ _ + (c.entries.entries.drop (min _ _)).length = _
    rw [length_drop]
    omega

theorem setIdSpec_covers (h : Covers seen v) {id : StreamId}
    (hle : ∀ e c, v = .value e c → c.info.lastId ≤ id) :
    Covers seen (setIdSpec id v).2 := by
  cases v with
  | missing | foreign e raw => exact h
  | value e c =>
    obtain ⟨hc, hstored, hseen⟩ := h
    have hid := hle e c rfl
    exact ⟨⟨hc.length_eq, fun x hx => (hc.le_lastId x hx).trans hid⟩, hstored,
      fun x hx => (hseen x hx).trans hid⟩

/-! ## 実行 -/

theorem Covers.addObserved {s : StreamSlot} (h : Covers seen s.stored) (clock : CommandClock)
    (requests : List AddRequest) :
    Covers (carry seen (s.addObserved clock requests).1) (s.addObserved clock requests).1 := by
  unfold StreamSlot.addObserved
  split
  · rw [h.self]
    exact h
  · split
    · exact h.observed clock true
    · exact h.observed clock false

/-- 与えたどの ID も、record の最後の ID を超えない。 -/
structure StreamRun.Sound (st : StreamRun) : Prop where
  ok : st.slot.Ok
  covers : Covers st.seen st.slot.stored

theorem add_sound {st : StreamRun} (h : st.Sound) {clock : CommandClock}
    {requests : List AddRequest} (hsafe : AddSafe st.slot clock requests) :
    let out := st.slot.streamAdd clock requests
    let seen := carry st.seen (st.slot.addObserved clock requests).1
    Increasing seen (addedIds (out.1.map replyOfAdd)) ∧
      (⟨out.2, seen ++ addedIds (out.1.map replyOfAdd)⟩ : StreamRun).Sound := by
  obtain ⟨hrun, hok⟩ := streamAdd_observed h.ok clock requests
  obtain ⟨hinc, hcov⟩ := xaddSpec_covers (h.covers.addObserved clock requests) hsafe
  rw [← hrun] at hinc hcov
  dsimp only
  rw [addedIds_replyOfAdd]
  exact ⟨hinc, hok, hcov⟩

open StreamCommand

theorem StreamCommand.exec_sound_of_silent {st : StreamRun} {c : StreamCommand}
    (hnone : addedIds (c.exec st.slot).1 = []) (hok : (c.exec st.slot).2.Ok)
    (hcov : Covers (carry st.seen (c.observed st.slot)) (c.exec st.slot).2.stored) :
    Increasing (carry st.seen (c.observed st.slot)) (addedIds (c.exec st.slot).1) ∧
      ∀ st', st.step c = some st' → st'.Sound := by
  refine ⟨?_, fun st' hst' => ?_⟩
  · rw [hnone]
    exact ⟨.nil, by simp⟩
  · cases hst'
    rw [hnone, append_nil]
    exact ⟨hok, hcov⟩

theorem StreamCommand.exec_sound {st : StreamRun} (h : st.Sound) {c : StreamCommand}
    (hsafe : c.Safe st) :
    Increasing (carry st.seen (c.observed st.slot)) (addedIds (c.exec st.slot).1) ∧
      ∀ st', st.step c = some st' → st'.Sound := by
  cases c with
  | xadd clock idArg fields packedNow splitNow =>
    cases hparse : parseXadd idArg fields packedNow splitNow with
    | error e =>
      -- 書式の誤りでは何も起こらない。
      have hexec : (xadd clock idArg fields packedNow splitNow).exec st.slot =
          ([.error e], st.slot) := by rw [exec, hparse]
      refine exec_sound_of_silent (by rw [hexec]; rfl) (by rw [hexec]; exact h.ok) ?_
      rw [hexec, observed, requests, hparse]
      exact h.covers.self.symm ▸ h.covers
    | ok r =>
      simp only [Safe, requests, hparse] at hsafe
      obtain ⟨hinc, hsound⟩ := add_sound h hsafe
      simp only [StreamRun.step, exec, observed, requests, hparse]
      refine ⟨hinc, fun st' hst' => ?_⟩
      cases hst'
      exact hsound
  | xaddMerged clock requests =>
    obtain ⟨hinc, hsound⟩ := add_sound h hsafe
    refine ⟨hinc, fun st' hst' => ?_⟩
    cases hst'
    exact hsound
  | xdel clock ids =>
    obtain ⟨hrun, hok⟩ := streamDelete_spec h.ok clock ids
    have hcov := deleteSpec_covers (h.covers.observed clock (st.slot.direct clock)) ids
    rw [← hrun] at hcov
    refine exec_sound_of_silent ?_ hok hcov
    rw [exec]
    cases (st.slot.streamDelete clock ids).1 <;> rfl
  | xdelMerged now commands =>
    have hsilent (replies : List (Except String Nat)) :
        addedIds (replies.map replyOfCount) = [] := by
      rw [addedIds, filterMap_map, filterMap_eq_nil_iff]
      rintro (_ | _) _ <;> rfl
    refine exec_sound_of_silent (hsilent _) ?_ ?_
    -- 命令が無ければ何も起こらず、あれば分けてから一度に消す
    all_goals
      simp only [exec, observed, streamDeleteBatch]
      split
    · exact h.ok
    · obtain ⟨hpromoted, -, hsplit⟩ := promote_spec h.ok
      exact (deleteSplit_spec hpromoted hsplit now _).2
    · exact h.covers.self.symm ▸ h.covers
    · obtain ⟨hpromoted, hstored, hsplit⟩ := promote_spec h.ok
      have hrun := (deleteSplit_spec hpromoted hsplit now commands.flatten).1
      have hcov := deleteSpec_covers (h.covers.upTo now) commands.flatten
      rwa [← hstored, ← hrun, hstored] at hcov
  | xtrim clock maxLen =>
    obtain ⟨hrun, hok⟩ := streamTrimMaxlen_spec h.ok clock maxLen
    have hcov := trimSpec_covers (h.covers.observed clock (st.slot.direct clock)) maxLen
    rw [← hrun] at hcov
    refine exec_sound_of_silent ?_ hok hcov
    rw [exec]
    cases (st.slot.streamTrimMaxlen clock maxLen).1 <;> rfl
  | xsetid now id =>
    obtain ⟨hrun, hok⟩ := streamSetId_spec h.ok now id
    have hle : ∀ e c, st.slot.stored.upTo now = .value e c → c.info.lastId ≤ id := by
      intro e c hv
      simpa only [Safe, hv] using hsafe
    have hcov := setIdSpec_covers (h.covers.upTo now) hle
    rw [← hrun] at hcov
    refine exec_sound_of_silent ?_ hok hcov
    rw [exec]
    cases (st.slot.streamSetId now id).1 <;> rfl

/--
**id は増え続け、entry は上書きされない。** 条件を満たす実行では、件数は entry の数に等しく、`last_id` は
どの entry の id よりも小さくない。次の命令が返す id は、今の世代で返したか残っていたどの id よりも大きい。
-/
theorem stream_ids_increase {s : StreamSlot} (hok : s.Ok)
    (hstart : Covers (storedIds s.stored) s.stored) {cmds : List StreamCommand}
    {final : StreamRun} (hsafe : Obeys StreamRun.step (fun st c => c.Safe st) (.start s) cmds)
    (hrun : run StreamRun.step (.start s) cmds = some final) :
    Covers final.seen final.slot.stored ∧ ∀ next : StreamCommand, next.Safe final →
      Increasing (carry final.seen (next.observed final.slot))
        (addedIds (next.exec final.slot).1) := by
  have hsound : final.Sound := run_induction
    (fun st c st' hst hc hstep => (exec_sound hst hc).2 st' hstep)
    (⟨hok, hstart⟩ : (StreamRun.start s).Sound) hsafe hrun
  exact ⟨hsound.covers, fun next hnext => (exec_sound hsound hnext).1⟩

namespace ReusedId

def slot : StreamSlot := ⟨⟨none, fun _ => ∅⟩, 0⟩

def fields : List (Bytes × Bytes) := [([0x66], [0x76])]

/-- `XADD key 5-18446744073709551615 f v` -/
def top : StreamCommand := .xadd ⟨5, 5⟩ (0x35 :: 0x2d :: natText 18446744073709551615) fields 5 5

/-- `XADD key * f v` -/
def automatic : StreamCommand := .xadd ⟨5, 5⟩ [0x2a] fields 5 5

/-- `XADD key 5-5 f v` -/
def five : StreamCommand := .xadd ⟨5, 5⟩ [0x35, 0x2d, 0x35] fields 5 5

/-- `XSETID key 1-1` -/
def rewind : StreamCommand := .xsetid 5 ⟨1, 1⟩

/-- `XADD key 2-0 f v` -/
def two : StreamCommand := .xadd ⟨5, 5⟩ [0x32, 0x2d, 0x30] fields 5 5

def summary : Visible StreamContent → Option (UInt64 × List StreamId)
  | .value _ c => some (c.info.length, c.entries.entries.map Prod.fst)
  | _ => none

theorem id_reused : (top.exec slot).1 = [.added ⟨5, u64Max⟩] ∧
      (automatic.exec (top.exec slot).2).1 = [.added ⟨5, u64Max⟩] ∧
      summary (automatic.exec (top.exec slot).2).2.stored = some (2, [⟨5, u64Max⟩]) ∧
      (rewind.exec (five.exec slot).2).1 = [.done] ∧
      (two.exec (rewind.exec (five.exec slot).2).2).1 = [.added ⟨2, 0⟩] ∧
      summary (two.exec (rewind.exec (five.exec slot).2).2).2.stored =
        some (2, [⟨2, 0⟩, ⟨5, 5⟩]) := by
  refine ⟨?_, ?_, ?_, ?_, ?_, ?_⟩ <;> rfl

theorem later_id : (∃ final, run StreamRun.step (.start slot) [top] = some final ∧
    Increasing (carry final.seen
      ((xadd ⟨6, 6⟩ [0x2a] fields 6 6).observed final.slot))
      (addedIds ((xadd ⟨6, 6⟩ [0x2a] fields 6 6).exec final.slot).1)) ∧
    addedIds ((xadd ⟨6, 6⟩ [0x2a] fields 6 6).exec (top.exec slot).2).1 =
      [⟨6, 0⟩] := by
  refine ⟨⟨_, rfl, (@stream_ids_increase slot ?_ ?_ [top] _ ?_ rfl).2 _ ?_⟩, rfl⟩
  · exact ⟨⟨fun h => (by cases h), fun _ => rfl⟩, fun h => (by cases h), rfl⟩
  · rfl
  · exact of_decide_eq_true rfl
  · exact of_decide_eq_true rfl

end ReusedId

end Onedis.Store
