import Onedis.Infra.Paging
import Onedis.Store.StreamGroups

/-!
# XAUTOCLAIM の繰り返し

XAUTOCLAIM を `0-0` から始め、返された cursor を次の呼び出しに渡していく。

* `autoClaim_complete` — 呼び出しは有限回で `0-0` に戻り、どの pending もちょうど一度調べられる
-/

namespace Onedis.Store

open Infra Function List
open Codec (StreamId)

section

variable (name consumer : Bytes) (minIdle : UInt64) (count : Nat)

/-- `stream_auto_claim_async` -/
def StreamSlot.streamAutoClaim (clock : GroupClock) (start : StreamId) (s : StreamSlot) :
    Except String (StreamId × List (StreamId × Fields)) × StreamSlot :=
  s.withGroup clock name (.zero, []) (autoClaim consumer minIdle clock.now start count)

def autoClaimCalls : List GroupClock → StreamId → StreamSlot →
    Option (List (StreamId × List (StreamId × Fields)) × StreamSlot)
  | [], _, s => some ([], s)
  | clock :: rest, start, s =>
    match s.streamAutoClaim name consumer minIdle count clock start with
    | (.error _, _) => none
    | (.ok out, s) => (autoClaimCalls rest out.1 s).map fun later => (out :: later.1, later.2)

/-- 時刻 `now` に、その pending を引き取れるか。十分に古く、entry が残っていて読めることをいう。 -/
def Claimable (now : UInt64) (entries : StreamEntries) (p : StreamId × StreamPelState) : Bool :=
  decide (minIdle.toNat ≤ now.toNat - p.2.lastDeliveryMs.toNat) &&
    ((entries.get p.1).bind Codec.decodeStreamEntry).isSome

/-- 時刻 `now` の呼び出しで調べた pending の、呼び出しの後の状態。回数は上限で止まる。 -/
def afterClaim (now : UInt64) (entries : StreamEntries) (p : StreamId × StreamPelState) :
    StreamPelState :=
  if Claimable minIdle now entries p then
    ⟨consumer, now, if p.2.deliveries = u64Max then u64Max else p.2.deliveries + 1⟩
  else p.2

end

variable {name consumer : Bytes} {minIdle : UInt64} {count : Nat}

/-! ## 一度の呼び出し -/

section

variable {now : UInt64} {entries : StreamEntries}

def claimList (consumer : Bytes) (minIdle now : UInt64) (entries : StreamEntries)
    (l : List (StreamId × StreamPelState)) : List (StreamId × Fields × StreamPelState) :=
  l.filterMap fun p => claimOne consumer minIdle now entries p.1 p.2

/-- **調べた分だけを引き取り、pending があれば少なくとも一つは調べる。** -/
theorem autoClaimLoop_spec (hcount : 0 < count) (l : List (StreamId × StreamPelState)) :
    (autoClaimLoop consumer minIdle now entries count l).1 ≤ l.length ∧
      (l ≠ [] → 0 < (autoClaimLoop consumer minIdle now entries count l).1) ∧
      (autoClaimLoop consumer minIdle now entries count l).2 =
        claimList consumer minIdle now entries
        (l.take (autoClaimLoop consumer minIdle now entries count l).1) := by
  induction l generalizing count with
  | nil => exact ⟨le_rfl, fun h => absurd rfl h, rfl⟩
  | cons p rest ih =>
    obtain ⟨id, pel⟩ := p
    unfold autoClaimLoop
    cases hone : claimOne consumer minIdle now entries id pel with
    | none =>
      obtain ⟨hle, -, hclaimed⟩ := ih hcount
      refine ⟨Nat.succ_le_succ hle, fun _ => Nat.succ_pos _, ?_⟩
      simp only [take_succ_cons, claimList, filterMap_cons, hone]
      exact hclaimed
    | some claimed =>
      dsimp only
      split
      · refine ⟨by simp, fun _ => Nat.one_pos, ?_⟩
        simp [claimList, hone]
      · next hmore =>
        obtain ⟨hle, -, hclaimed⟩ := @ih (count - 1) (by omega)
        refine ⟨Nat.succ_le_succ hle, fun _ => Nat.succ_pos _, ?_⟩
        simp only [take_succ_cons, claimList, filterMap_cons, hone]
        exact congrArg (cons claimed) hclaimed

variable {p : StreamId × StreamPelState}

theorem claimOne_eq_some {out : StreamId × Fields × StreamPelState}
    (h : claimOne consumer minIdle now entries p.1 p.2 = some out) :
    Claimable minIdle now entries p = true ∧ out.1 = p.1 ∧
      (entries.get p.1).bind Codec.decodeStreamEntry = some out.2.1 ∧
      out.2.2 = afterClaim consumer minIdle now entries p := by
  unfold claimOne at h
  split at h
  · cases h
  · next hidle =>
    obtain ⟨fields, hfields, rfl⟩ := Option.map_eq_some_iff.mp h
    have hclaim : Claimable minIdle now entries p = true := by
      simpa [Claimable, hfields, idleMs] using hidle
    exact ⟨hclaim, rfl, hfields, (if_pos hclaim).symm⟩

theorem claimOne_eq_none (h : claimOne consumer minIdle now entries p.1 p.2 = none) :
    Claimable minIdle now entries p = false := by
  unfold claimOne at h
  split at h
  · next hidle =>
    unfold idleMs at hidle
    rw [Claimable, decide_eq_false (not_le.mpr hidle), Bool.false_and]
  · simp [Claimable, Option.map_eq_none_iff.mp h]

variable {l : List (StreamId × StreamPelState)}

/-- 引き取るのは、引き取れる pending だけである。 -/
theorem map_fst_claimList : (claimList consumer minIdle now entries l).map (fun c => c.1) =
    (l.filter (Claimable minIdle now entries)).map Prod.fst := by
  induction l with
  | nil => rfl
  | cons p rest ih =>
    unfold claimList at ih ⊢
    rw [filterMap_cons, filter_cons]
    cases hone : claimOne consumer minIdle now entries p.1 p.2 with
    | none => rw [if_neg (by simp [claimOne_eq_none hone])]; exact ih
    | some out =>
      obtain ⟨hclaim, hid, -, -⟩ := claimOne_eq_some hone
      rw [if_pos hclaim, map_cons, map_cons, ih, hid]

theorem mem_claimList {id : StreamId}
    (h : id ∈ (claimList consumer minIdle now entries l).map fun c => c.1) :
    id ∈ l.map Prod.fst := by
  rw [map_fst_claimList] at h
  exact map_subset _ (filter_subset_self l) h

theorem nodup_fst (hsorted : l.Pairwise fun a b => a.1 < b.1) : (l.map Prod.fst).Nodup :=
  pairwise_map.mpr (hsorted.imp fun h => h.ne)

theorem count_claimList (hsorted : l.Pairwise fun a b => a.1 < b.1) (hp : p ∈ l) :
    ((claimList consumer minIdle now entries l).map fun c => c.1).count p.1 =
      if Claimable minIdle now entries p then 1 else 0 := by
  rw [map_fst_claimList, (nodup_fst (hsorted.filter _)).count]
  refine if_congr ⟨fun hmem => ?_, fun hclaim => ?_⟩ rfl rfl
  · obtain ⟨q, hq, heq⟩ := mem_map.mp hmem
    obtain ⟨hq, hclaim⟩ := mem_filter.mp hq
    rwa [inj_on_of_nodup_map (nodup_fst hsorted) hq hp heq] at hclaim
  · exact mem_map_of_mem (mem_filter.mpr ⟨hp, hclaim⟩)

/-- 調べた pending は、引き取れたものだけが書き換わる。 -/
theorem get_putAll_claimList (hsorted : l.Pairwise fun a b => a.1 < b.1) (hp : p ∈ l)
    {pending : OrderedMap StreamId StreamPelState} (hget : pending.get p.1 = some p.2) :
    (pending.putAll ((claimList consumer minIdle now entries l).map fun c => (c.1, c.2.2))).get
      p.1 = some (afterClaim consumer minIdle now entries p) := by
  have hids : ((claimList consumer minIdle now entries l).map fun c => (c.1, c.2.2)).map Prod.fst =
      (l.filter (Claimable minIdle now entries)).map Prod.fst := by
    rw [map_map, ← map_fst_claimList]
    rfl
  cases hone : claimOne consumer minIdle now entries p.1 p.2 with
  | none =>
    have hclaim := claimOne_eq_none hone
    rw [OrderedMap.get_putAll_of_notMem, hget, afterClaim, if_neg (by simp [hclaim])]
    rw [hids]
    intro hmem
    obtain ⟨q, hq, heq⟩ := mem_map.mp hmem
    obtain ⟨hq, hclaimed⟩ := mem_filter.mp hq
    rw [inj_on_of_nodup_map (nodup_fst hsorted) hq hp heq, hclaim] at hclaimed
    cases hclaimed
  | some out =>
    obtain ⟨-, hid, -, hafter⟩ := claimOne_eq_some hone
    refine OrderedMap.get_putAll_of_nodup (hids ▸ nodup_fst (hsorted.filter _))
      (mem_map.mpr ⟨out, mem_filterMap.mpr ⟨p, hp, hone⟩, ?_⟩)
    rw [hid, hafter]

def pendingFrom (group : StreamGroup) (start : StreamId) : List (StreamId × StreamPelState) :=
  group.pending.entries.filter (start ≤ ·.1)

theorem sorted_pendingFrom (group : StreamGroup) (start : StreamId) :
    (pendingFrom group start).Pairwise fun a b => a.1 < b.1 := group.pending.sorted.filter _

theorem autoClaimAttempts_bounds (count : Nat) :
    0 < autoClaimAttempts count ∧ autoClaimAttempts count ≤ u64Max.toNat := by
  have hmax : u64Max.toNat = 2 ^ 64 - 1 := rfl
  unfold autoClaimAttempts
  omega

theorem autoClaim_spec (hcount : 0 < count) {start : StreamId} {group : StreamGroup}
    (hlen : (pendingFrom group start).length ≤ u64Max.toNat) (state : StreamGroupState) :
    ∃ k, k ≤ (pendingFrom group start).length ∧ (pendingFrom group start ≠ [] → 0 < k) ∧
      ∃ written, autoClaim consumer minIdle now start count entries group state =
          .ok ((((pendingFrom group start)[k]?.map Prod.fst).getD .zero,
            (claimList consumer minIdle now entries ((pendingFrom group start).take k)).map
              fun c => (c.1, c.2.1)), written) ∧
        (written.getD group).state = group.state ∧
        (written.getD group).pending = group.pending.putAll
          ((claimList consumer minIdle now entries ((pendingFrom group start).take k)).map
            fun c => (c.1, c.2.2)) := by
  obtain ⟨hpos, hbound⟩ := autoClaimAttempts_bounds count
  unfold autoClaim
  rw [if_neg hcount.ne']
  dsimp only
  rw [show group.pending.entries.filter (start ≤ ·.1) = pendingFrom group start from rfl]
  generalize pendingFrom group start = l at hlen
  have htake : (l.take (min (autoClaimAttempts count + 1) u64Max.toNat)).take
      (autoClaimAttempts count) = l.take (autoClaimAttempts count) := by
    rw [take_take]
    congr 1
    omega
  rw [htake]
  obtain ⟨hle, hsome, hclaimed⟩ := @autoClaimLoop_spec consumer minIdle count now entries hcount
    (l.take (autoClaimAttempts count))
  generalize autoClaimLoop consumer minIdle now entries count (l.take (autoClaimAttempts count)) =
    out at hle hsome hclaimed
  rw [length_take] at hle
  have hfirst : (l.take (autoClaimAttempts count)).take out.1 = l.take out.1 := by
    rw [take_take]
    congr 1
    omega
  have hnext : (l.take (min (autoClaimAttempts count + 1) u64Max.toNat))[out.1]? = l[out.1]? := by
    rw [getElem?_take]
    split
    · rfl
    · exact (getElem?_eq_none (by omega)).symm
  rw [hfirst] at hclaimed
  refine ⟨out.1, by omega, fun hne => hsome ?_, ?_⟩
  · intro hnil
    rcases take_eq_nil_iff.mp hnil with h | h
    · omega
    · exact hne h
  · rw [hnext, ← hclaimed]
    by_cases hnone : out.2 = []
    · rw [if_pos hnone, hnone]
      exact ⟨none, rfl, rfl, rfl⟩
    · rw [if_neg hnone]
      exact ⟨some _, rfl, rfl, rfl⟩

end

theorem autoClaim_call {s : StreamSlot} (hok : s.Ok) {e : Nat} {c : StreamContent}
    {state : StreamGroupState} (hstored : s.stored = .value e c)
    (hstate : (c.groups name).state = some state) {clock : GroupClock}
    (hmeta : expireDue clock.metaNow e = false) (hgroup : expireDue clock.groupNow e = false)
    (hcount : 0 < count) (start : StreamId)
    (hlen : (pendingFrom (c.groups name) start).length ≤ u64Max.toNat) :
    ∃ k s' group', k ≤ (pendingFrom (c.groups name) start).length ∧
      (pendingFrom (c.groups name) start ≠ [] → 0 < k) ∧
      s.streamAutoClaim name consumer minIdle count clock start =
        (.ok (((pendingFrom (c.groups name) start)[k]?.map Prod.fst).getD .zero,
          (claimList consumer minIdle clock.now c.entries
            ((pendingFrom (c.groups name) start).take k)).map fun c => (c.1, c.2.1)), s') ∧
      s'.Ok ∧
      s'.stored = .value e ⟨c.info, c.entries, update c.groups name group'⟩ ∧
      group'.state = some state ∧
      group'.pending = (c.groups name).pending.putAll
        ((claimList consumer minIdle clock.now c.entries
          ((pendingFrom (c.groups name) start).take k)).map fun c => (c.1, c.2.2)) := by
  have hv : (s.stored.upTo clock.metaNow).upTo clock.groupNow = .value e c := by
    rw [hstored]
    simp [Visible.upTo, hmeta, hgroup]
  have hspec := StreamSlot.withGroup_spec hok clock name (StreamId.zero, [])
    (autoClaim consumer minIdle clock.now start count)
  rw [hv] at hspec
  obtain ⟨k, hle, hpos, written, hbody, hstate', hpending⟩ := @autoClaim_spec consumer minIdle count
    clock.now c.entries hcount start (c.groups name) hlen state
  refine ⟨k, ?_⟩
  show ∃ s' group', _ ∧ _ ∧ s.withGroup clock name (StreamId.zero, []) _ = _ ∧ _
  generalize s.withGroup clock name (StreamId.zero, [])
    (autoClaim consumer minIdle clock.now start count) = out at hspec ⊢
  cases hspec with
  | noGroup s' reply _ _ _ hnone =>
    rw [groupOf_value hstate] at hnone
    cases hnone
  | failed s' e' c' state' error _ hvalue hs hb _ =>
    cases hvalue
    cases hstate.symm.trans hs
    cases hbody.symm.trans hb
  | quiet s' e' c' state' reply hok' hvalue hs hb hstored' =>
    cases hvalue
    cases hstate.symm.trans hs
    cases hbody.symm.trans hb
    refine ⟨s', c.groups name, hle, hpos, rfl, hok', ?_, hstate, hpending⟩
    rw [hstored', update_eq_self]
  | wrote s' e' c' state' reply group hok' hvalue hs hb hstored' =>
    cases hvalue
    cases hstate.symm.trans hs
    cases hbody.symm.trans hb
    exact ⟨s', group, hle, hpos, rfl, hok', hstored', hstate'.trans hstate, hpending⟩

variable {p : StreamId × StreamPelState}

theorem sorted_split {l : List (StreamId × StreamPelState)}
    (hsorted : l.Pairwise fun a b => a.1 < b.1) {k : Nat} (hp : l[k]? = some p) :
    (∀ q ∈ l.take k, q.1 < p.1) ∧ ∀ q ∈ l.drop k, p.1 ≤ q.1 := by
  obtain ⟨htake, hdrop⟩ := pairwise_split hsorted hp
  refine ⟨htake, fun q hq => ?_⟩
  rcases hdrop q hq with rfl | hlt
  · exact le_rfl
  · exact hlt.le

theorem pendingFrom_after {group group' : StreamGroup} {start : StreamId} {k : Nat}
    {written : List (StreamId × StreamPelState)} (hp : (pendingFrom group start)[k]? = some p)
    (hpending : group'.pending = group.pending.putAll written)
    (hwritten : ∀ id ∈ written.map Prod.fst, id ∈ ((pendingFrom group start).take k).map Prod.fst) :
    pendingFrom group' p.1 = (pendingFrom group start).drop k := by
  have hsorted := sorted_pendingFrom group start
  obtain ⟨htake, hdrop⟩ := sorted_split hsorted hp
  have hstart : start ≤ p.1 := by
    have := mem_of_getElem? hp
    simpa using (mem_filter.mp this).2
  have hsame : ∀ id, p.1 ≤ id → group'.pending.get id = group.pending.get id := by
    intro id hle
    rw [hpending]
    refine OrderedMap.get_putAll_of_notMem fun hmem => ?_
    obtain ⟨q, hq, rfl⟩ := mem_map.mp (hwritten id hmem)
    exact absurd hle (not_le.mpr (htake q hq))
  have hirrefl : Std.Irrefl fun a b : StreamId × StreamPelState => a.1 < b.1 :=
    ⟨fun a => lt_irrefl a.1⟩
  have hantisymm : Std.Antisymm fun a b : StreamId × StreamPelState => a.1 < b.1 :=
    ⟨fun a b hab hba => absurd (hab.trans hba) (lt_irrefl a.1)⟩
  refine Pairwise.eq_of_mem_iff (sorted_pendingFrom group' p.1)
    (hsorted.sublist (drop_sublist k _)) fun q => ?_
  have hq' : q ∈ pendingFrom group' p.1 ↔ group'.pending.get q.1 = some q.2 ∧ p.1 ≤ q.1 := by
    rw [pendingFrom, mem_filter, ← OrderedMap.mem_entries, decide_eq_true_iff]
  have hq : q ∈ pendingFrom group start ↔ group.pending.get q.1 = some q.2 ∧ start ≤ q.1 := by
    rw [pendingFrom, mem_filter, ← OrderedMap.mem_entries, decide_eq_true_iff]
  rw [hq']
  constructor
  · rintro ⟨hget, hle⟩
    rw [hsame _ hle] at hget
    have hmem := hq.mpr ⟨hget, hstart.trans hle⟩
    rw [← take_append_drop k (pendingFrom group start), mem_append] at hmem
    exact hmem.resolve_left fun h => absurd hle (not_le.mpr (htake q h))
  · intro hmem
    have hle := hdrop q hmem
    rw [hsame _ hle]
    exact ⟨(hq.mp (mem_of_mem_drop hmem)).1, hle⟩

/-! ## 呼び出しの繰り返し -/

def claimedIds (outs : List (StreamId × List (StreamId × Fields))) : List StreamId :=
  (outs.flatMap Prod.snd).map Prod.fst

/--
cursor `start` から `0-0` に戻るまでの呼び出しが、pending の列 `l` を調べ尽くした。`before` と `after` は、その
前と後の pending の全体である。どの pending も、一つの呼び出し `i` だけが調べる。
-/
structure Drained (consumer : Bytes) (minIdle : UInt64) (entries : StreamEntries)
    (clocks : Nat → GroupClock) (start : StreamId) (l : List (StreamId × StreamPelState))
    (before after : OrderedMap StreamId StreamPelState) (cursors : List StreamId)
    (outs : List (StreamId × List (StreamId × Fields))) : Prop where
  returned : outs.map Prod.fst = cursors ++ [.zero]
  increasing : (start :: cursors).Pairwise (· < ·)
  quoted : ∀ f ∈ outs.flatMap Prod.snd, (entries.get f.1).bind Codec.decodeStreamEntry = some f.2
  pending : ∀ id ∈ claimedIds outs, id ∈ l.map Prod.fst
  claimed : ∀ p ∈ l, ∃ i < outs.length,
    (∀ lo ∈ (start :: cursors)[i]?, lo ≤ p.1) ∧ (∀ hi ∈ cursors[i]?, p.1 < hi) ∧
      (claimedIds outs).count p.1 =
        (if Claimable minIdle (clocks i).now entries p then 1 else 0) ∧
      after.get p.1 = some (afterClaim consumer minIdle (clocks i).now entries p)
  kept : ∀ id ∉ l.map Prod.fst, after.get id = before.get id

theorem claimedIds_cons (next : StreamId) (found : List (StreamId × Fields))
    (outs : List (StreamId × List (StreamId × Fields))) :
    claimedIds ((next, found) :: outs) = found.map Prod.fst ++ claimedIds outs := by
  simp [claimedIds]

theorem map_fst_claimed (l : List (StreamId × Fields × StreamPelState)) :
    (l.map fun c => (c.1, c.2.1)).map Prod.fst = l.map fun c => c.1 := by
  rw [map_map]
  rfl

section

variable {entries : StreamEntries} {clocks : Nat → GroupClock} {start : StreamId}
  {l : List (StreamId × StreamPelState)}

theorem quoted_claimList {now : UInt64} {f : StreamId × Fields}
    (h : f ∈ (claimList consumer minIdle now entries l).map fun c => (c.1, c.2.1)) :
    (entries.get f.1).bind Codec.decodeStreamEntry = some f.2 := by
  obtain ⟨c, hc, rfl⟩ := mem_map.mp h
  obtain ⟨p, -, hone⟩ := mem_filterMap.mp hc
  obtain ⟨-, hid, hfields, -⟩ := claimOne_eq_some hone
  rw [hid]
  exact hfields

variable {before : OrderedMap StreamId StreamPelState}

theorem notMem_written {now : UInt64} {id : StreamId} (h : id ∉ l.map Prod.fst) :
    id ∉ ((claimList consumer minIdle now entries l).map fun c => (c.1, c.2.2)).map Prod.fst := by
  rw [map_map]
  exact fun hmem => h (mem_claimList hmem)

theorem Drained.last (hsorted : l.Pairwise fun a b => a.1 < b.1) (hstart : ∀ p ∈ l, start ≤ p.1)
    (hbefore : ∀ p ∈ l, before.get p.1 = some p.2) :
    Drained consumer minIdle entries clocks start l before
      (before.putAll ((claimList consumer minIdle (clocks 0).now entries l).map
        fun c => (c.1, c.2.2))) []
      [(.zero, (claimList consumer minIdle (clocks 0).now entries l).map
        fun c => (c.1, c.2.1))] := by
  refine ⟨rfl, pairwise_singleton _ _, fun f hf => ?_, fun id hid => ?_, fun p hp => ?_,
    fun id hid => ?_⟩
  · rw [flatMap_singleton] at hf
    exact quoted_claimList hf
  · rw [claimedIds_cons, map_fst_claimed] at hid
    exact mem_claimList (by simpa [claimedIds] using hid)
  · refine ⟨0, Nat.one_pos, fun lo hlo => ?_, fun hi hhi => (by cases hhi), ?_,
      get_putAll_claimList hsorted hp (hbefore p hp)⟩
    · cases hlo
      exact hstart p hp
    · rw [claimedIds_cons, map_fst_claimed]
      have hnil : claimedIds [] = [] := rfl
      rw [hnil, append_nil]
      exact count_claimList hsorted hp
  · exact OrderedMap.get_putAll_of_notMem (notMem_written hid)

theorem Drained.cons (hsorted : l.Pairwise fun a b => a.1 < b.1) (hstart : ∀ p ∈ l, start ≤ p.1)
    (hbefore : ∀ p ∈ l, before.get p.1 = some p.2) {k : Nat} (hk : 0 < k)
    {q : StreamId × StreamPelState} (hq : l[k]? = some q) {cursors : List StreamId}
    {outs : List (StreamId × List (StreamId × Fields))}
    {after : OrderedMap StreamId StreamPelState}
    (h : Drained consumer minIdle entries (fun i => clocks (i + 1)) q.1 (l.drop k)
      (before.putAll ((claimList consumer minIdle (clocks 0).now entries (l.take k)).map
        fun c => (c.1, c.2.2))) after cursors outs) :
    Drained consumer minIdle entries clocks start l before after (q.1 :: cursors)
      ((q.1, (claimList consumer minIdle (clocks 0).now entries (l.take k)).map
        fun c => (c.1, c.2.1)) :: outs) := by
  obtain ⟨htake, hdrop⟩ := sorted_split hsorted hq
  have hlt : start < q.1 := by
    have hlen := (List.getElem?_eq_some_iff.mp hq).1
    have hfirst : l[0] ∈ l.take k := mem_take_iff_getElem.mpr ⟨0, by omega, rfl⟩
    exact (hstart _ (mem_of_mem_take hfirst)).trans_lt (htake _ hfirst)
  -- 先の呼び出しが引き取る id は q より小さく、後の呼び出しが引き取る id は小さくない。
  have hfirst : ∀ id ∈ (claimList consumer minIdle (clocks 0).now entries (l.take k)).map
      (fun c => c.1), id < q.1 := by
    intro id hid
    obtain ⟨p, hp, rfl⟩ := mem_map.mp (mem_claimList hid)
    exact htake p hp
  have hlater : ∀ id ∈ (l.drop k).map Prod.fst, q.1 ≤ id := by
    intro id hid
    obtain ⟨p, hp, rfl⟩ := mem_map.mp hid
    exact hdrop p hp
  refine ⟨congrArg (List.cons q.1) h.returned, ?_, fun f hf => ?_, fun id hid => ?_,
    fun p hp => ?_, fun id hid => ?_⟩
  · refine pairwise_cons.mpr ⟨fun c hc => ?_, h.increasing⟩
    rcases mem_cons.mp hc with rfl | hc
    · exact hlt
    · exact hlt.trans ((pairwise_cons.mp h.increasing).1 c hc)
  · rw [flatMap_cons, mem_append] at hf
    exact hf.elim quoted_claimList (h.quoted f)
  · rw [claimedIds_cons, map_fst_claimed] at hid
    rcases mem_append.mp hid with hid | hid
    · exact map_subset _ (take_subset k l) (mem_claimList hid)
    · exact map_subset _ (drop_subset k l) (h.pending id hid)
  · rw [claimedIds_cons, map_fst_claimed, count_append]
    rw [← take_append_drop k l, mem_append] at hp
    rcases hp with hp | hp
    · have hnot : p.1 ∉ (l.drop k).map Prod.fst := fun hmem =>
        absurd (hlater _ hmem) (not_le.mpr (htake p hp))
      refine ⟨0, Nat.succ_pos _, fun lo hlo => ?_, fun hi hhi => ?_, ?_, ?_⟩
      · cases hlo
        exact hstart p (mem_of_mem_take hp)
      · cases hhi
        exact htake p hp
      · rw [count_eq_zero.mpr fun hmem => hnot (h.pending _ hmem), Nat.add_zero]
        exact count_claimList (hsorted.sublist (take_sublist k l)) hp
      · rw [h.kept _ hnot]
        exact get_putAll_claimList (hsorted.sublist (take_sublist k l)) hp
          (hbefore p (mem_of_mem_take hp))
    · obtain ⟨i, hi, hlo, hhi, hcount, hafter⟩ := h.claimed p hp
      refine ⟨i + 1, Nat.succ_lt_succ hi, hlo, hhi, ?_, hafter⟩
      rw [count_eq_zero.mpr fun hmem => absurd (hdrop p hp) (not_le.mpr (hfirst _ hmem)),
        Nat.zero_add]
      exact hcount
  · rw [h.kept id fun hmem => hid (map_subset _ (drop_subset k l) hmem)]
    exact OrderedMap.get_putAll_of_notMem
      (notMem_written fun hmem => hid (map_subset _ (take_subset k l) hmem))

end

theorem autoClaimCalls_cons {clock : GroupClock} {rest : List GroupClock} {start : StreamId}
    {s s₁ s' : StreamSlot} {out : StreamId × List (StreamId × Fields)}
    {outs : List (StreamId × List (StreamId × Fields))}
    (hcall : s.streamAutoClaim name consumer minIdle count clock start = (.ok out, s₁))
    (hrest : autoClaimCalls name consumer minIdle count rest out.1 s₁ = some (outs, s')) :
    autoClaimCalls name consumer minIdle count (clock :: rest) start s =
      some (out :: outs, s') := by
  simp [autoClaimCalls, hcall, hrest]

theorem autoClaim_drain (hcount : 0 < count) {e : Nat} {state : StreamGroupState} (n : Nat)
    {clocks : Nat → GroupClock}
    (hlive : ∀ i, expireDue (clocks i).metaNow e = false ∧ expireDue (clocks i).groupNow e = false)
    {s : StreamSlot} (hok : s.Ok) {c : StreamContent} (hstored : s.stored = .value e c)
    (hstate : (c.groups name).state = some state) (start : StreamId)
    (hlen : (pendingFrom (c.groups name) start).length ≤ u64Max.toNat)
    (hn : (pendingFrom (c.groups name) start).length < n) :
    ∃ calls ≤ n, ∃ cursors outs s' group',
      autoClaimCalls name consumer minIdle count ((range calls).map clocks) start s =
        some (outs, s') ∧
      s'.stored = .value e ⟨c.info, c.entries, update c.groups name group'⟩ ∧
      group'.state = some state ∧
      Drained consumer minIdle c.entries clocks start (pendingFrom (c.groups name) start)
        (c.groups name).pending group'.pending cursors outs := by
  induction n generalizing clocks s c start with
  | zero => exact absurd hn (Nat.not_lt_zero _)
  | succ n ih =>
    have hsorted := sorted_pendingFrom (c.groups name) start
    have hstart : ∀ p ∈ pendingFrom (c.groups name) start, start ≤ p.1 := fun p hp => by
      simpa using (mem_filter.mp hp).2
    obtain ⟨k, s₁, group', hk, hpos, hcall, hok₁, hstored₁, hstate₁, hpending⟩ :=
      @autoClaim_call name consumer minIdle count s hok e c state hstored hstate (clocks 0)
        (hlive 0).1 (hlive 0).2 hcount start hlen
    have hbefore : ∀ p ∈ pendingFrom (c.groups name) start,
        (c.groups name).pending.get p.1 = some p.2 := fun p hp =>
      OrderedMap.mem_entries.mp (mem_filter.mp hp).1
    cases hq : (pendingFrom (c.groups name) start)[k]? with
    | none =>
      rw [take_of_length_le (getElem?_eq_none_iff.mp hq)] at hcall hpending
      rw [hq] at hcall
      refine ⟨1, by omega, [], _, s₁, group', autoClaimCalls_cons hcall rfl, hstored₁, hstate₁, ?_⟩
      rw [hpending]
      exact Drained.last hsorted hstart hbefore
    | some q =>
      have hkpos : 0 < k := hpos fun hnil => by
        rw [hnil] at hq
        cases hq
      have hafter : pendingFrom group' q.1 = (pendingFrom (c.groups name) start).drop k := by
        refine pendingFrom_after hq hpending fun id hid => ?_
        rw [map_map] at hid
        exact mem_claimList hid
      have hgroup : (⟨c.info, c.entries, update c.groups name group'⟩ :
          StreamContent).groups name = group' := update_self name group' c.groups
      have hshort : (pendingFrom group' q.1).length + k =
          (pendingFrom (c.groups name) start).length := by
        rw [hafter, length_drop]
        omega
      -- 残りの呼び出しは、二つ目以降の時刻で行う。
      obtain ⟨calls, hcalls, cursors, outs, s', group₂, hrun, hstored₂, hstate₂, hdrained⟩ :=
        @ih (fun i => clocks (i + 1)) (fun i => hlive (i + 1)) s₁ hok₁
          ⟨c.info, c.entries, update c.groups name group'⟩ hstored₁
          (by rw [hgroup]; exact hstate₁) q.1 (by rw [hgroup]; omega) (by rw [hgroup]; omega)
      rw [hq] at hcall
      rw [hgroup, hafter, hpending] at hdrained
      rw [update_idem] at hstored₂
      have hclocks : (range (calls + 1)).map clocks =
          clocks 0 :: (range calls).map fun i => clocks (i + 1) := by
        rw [range_succ_eq_map, map_cons, map_map]
        rfl
      refine ⟨calls + 1, by omega, q.1 :: cursors, ?_⟩
      rw [hclocks]
      exact ⟨_, s', group₂, autoClaimCalls_cons hcall hrun, hstored₂, hstate₂,
        hdrained.cons hsorted hstart hbefore hkpos hq⟩

/--
**XAUTOCLAIM の繰り返しは終わり、どの pending も一度ずつ調べる。** 呼び出しは pending の数に 1 を足した
回数までに `0-0` に戻る。cursor は狭義に増え、引き取れる pending はちょうど一度引き取られて、引き取った consumer のものに
なる。group のほかの部分と entry は変わらない。
-/
theorem autoClaim_complete (name consumer : Bytes) (minIdle : UInt64) {count : Nat}
    (hcount : 0 < count) {s : StreamSlot} (hok : s.Ok) {e : Nat} {c : StreamContent}
    (hstored : s.stored = .value e c) {state : StreamGroupState}
    (hstate : (c.groups name).state = some state)
    (hsize : (c.groups name).pending.entries.length ≤ u64Max.toNat) {clocks : Nat → GroupClock}
    (hlive : ∀ i, expireDue (clocks i).metaNow e = false ∧
      expireDue (clocks i).groupNow e = false) :
    ∃ calls ≤ (c.groups name).pending.entries.length + 1, ∃ cursors outs s' group',
      autoClaimCalls name consumer minIdle count ((range calls).map clocks) .zero s =
        some (outs, s') ∧
      s'.stored = .value e ⟨c.info, c.entries, update c.groups name group'⟩ ∧
      group'.state = some state ∧
      Drained consumer minIdle c.entries clocks .zero (c.groups name).pending.entries
        (c.groups name).pending group'.pending cursors outs := by
  have hall : pendingFrom (c.groups name) .zero = (c.groups name).pending.entries :=
    filter_eq_self.mpr fun p _ => decide_eq_true (Codec.StreamId.zero_le p.1)
  have h := @autoClaim_drain name consumer minIdle count hcount e state
    ((c.groups name).pending.entries.length + 1) clocks hlive s hok c hstored hstate .zero
  rw [hall] at h
  exact h hsize (Nat.lt_succ_self _)

namespace TwoPages

/-- 二つの entry が consumer `a` に届いている。 -/
def pending : OrderedMap StreamId StreamPelState :=
  ⟨[(⟨1, 0⟩, ⟨[0x61], 10, 1⟩), (⟨2, 0⟩, ⟨[0x61], 10, 1⟩)], of_decide_eq_true rfl⟩

/-- group `g` は entry `2-0` まで配った。 -/
def groups (name : Bytes) : StreamGroup :=
  if name = [0x67] then ⟨some ⟨⟨2, 0⟩, 2⟩, pending, fun _ => none⟩ else ∅

def entries : StreamEntries :=
  ⟨[(⟨1, 0⟩, encodeStreamEntry [([0x66], [0x76])]), (⟨2, 0⟩, encodeStreamEntry [([0x66], [0x76])])],
    of_decide_eq_true rfl⟩

def slot : StreamSlot where
  recs := ⟨some (.split 0 1 ⟨⟨2, 0⟩, 2, 2⟩), fun v => if v = 1 then ⟨entries, groups⟩ else ∅⟩
  counter := 1

theorem slot_ok : slot.Ok where
  fresh := {
    version_le := fun h => (by cases h; exact le_rfl)
    items_empty := fun h => if_neg (Nat.ne_of_gt h) }
  pos h := (by cases h; exact Nat.one_pos)
  zero := rfl

theorem two_calls :
    ((autoClaimCalls [0x67] [0x62] 0 1 [⟨0, 0, 20⟩, ⟨0, 0, 30⟩] .zero slot).map fun out =>
      out.1.map Prod.fst) = some [⟨2, 0⟩, .zero] ∧
    ∃ calls ≤ 3, ∃ cursors outs s' group',
      autoClaimCalls [0x67] [0x62] 0 1 ((range calls).map fun _ => ⟨0, 0, 20⟩) .zero slot =
        some (outs, s') ∧
      s'.stored = .value 0 ⟨⟨⟨2, 0⟩, 2, 2⟩, entries, update groups [0x67] group'⟩ ∧
      group'.state = some ⟨⟨2, 0⟩, 2⟩ ∧
      Drained [0x62] 0 entries (fun _ => ⟨0, 0, 20⟩) .zero pending.entries pending group'.pending
        cursors outs :=
  ⟨rfl, @autoClaim_complete [0x67] [0x62] 0 1 Nat.one_pos slot slot_ok 0
    ⟨⟨⟨2, 0⟩, 2, 2⟩, entries, groups⟩ rfl ⟨⟨2, 0⟩, 2⟩ rfl (of_decide_eq_true rfl)
    (fun _ => ⟨0, 0, 20⟩) fun _ => ⟨rfl, rfl⟩⟩

end TwoPages

end Onedis.Store
