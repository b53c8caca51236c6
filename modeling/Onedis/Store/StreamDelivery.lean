import Onedis.Infra.Run
import Onedis.Store.StreamGroups

/-!
# consumer group の配達

一つの stream と一つの group に、XADD、XREADGROUP、XACK、XCLAIM、XDEL を任意の順に実行し、返事から作った配達の
記録と group の record を比べる。届け直し（`>` でない XREADGROUP）は回数を 1 に書き戻す。

* `groupRun_delivery` — 配達の性質は実行の全体で成り立つ
-/

namespace Onedis.Store

open Infra Function List OrderedMap
open Codec (StreamId)

/-! ## 記録 -/

/-- group の entry に起きたことの記録。 -/
inductive GroupEvent
  | delivered (id : StreamId) (consumer : Bytes) (noack : Bool)
  | redelivered (id : StreamId) (consumer : Bytes)
  | claimed (id : StreamId) (consumer : Bytes)
  | acked (id : StreamId)
  deriving DecidableEq

def GroupEvent.next (id : StreamId) (current : Option Bytes) : GroupEvent → Option Bytes
  | delivered i consumer noack => if i = id ∧ noack = false then some consumer else current
  | redelivered i consumer => if i = id then current.map fun _ => consumer else current
  | claimed i consumer => if i = id then current.map fun _ => consumer else current
  | acked i => if i = id then none else current

def owner (log : List GroupEvent) (id : StreamId) : Option Bytes :=
  log.foldl (GroupEvent.next id) none

def deliveredIds (log : List GroupEvent) : List StreamId :=
  log.filterMap fun
    | .delivered id _ _ => some id
    | _ => none

theorem owner_append (log events : List GroupEvent) (id : StreamId) :
    owner (log ++ events) id = events.foldl (GroupEvent.next id) (owner log id) :=
  foldl_append

theorem deliveredIds_append (log events : List GroupEvent) :
    deliveredIds (log ++ events) = deliveredIds log ++ deliveredIds events :=
  filterMap_append

theorem mem_deliveredIds_of_owner {log : List GroupEvent} {id : StreamId} {consumer : Bytes}
    (h : owner log id = some consumer) : id ∈ deliveredIds log := by
  induction log using reverseRecOn generalizing consumer with
  | nil => cases h
  | append_singleton log event ih =>
    rw [owner_append] at h
    rw [deliveredIds_append, mem_append]
    cases hcurrent : owner log id with
    | some current => exact .inl (ih hcurrent)
    | none =>
      rw [hcurrent] at h
      cases event with
      | delivered i c noack =>
        by_cases hi : i = id ∧ noack = false
        · rw [← hi.1]
          exact .inr (mem_singleton_self _)
        · simp [GroupEvent.next, hi] at h
      | redelivered i c => simp [GroupEvent.next] at h
      | claimed i c => simp [GroupEvent.next] at h
      | acked i => simp [GroupEvent.next] at h

/-! ## 命令 -/

/-- 一つの group に関わる命令。 -/
inductive GroupCommand
  | xadd (clock : CommandClock) (requests : List AddRequest)
  | xdel (clock : CommandClock) (ids : List StreamId)
  | readNew (clock : GroupClock) (consumer : Bytes) (count : Option Nat) (noack : Bool)
  | readHistory (clock : GroupClock) (consumer : Bytes) (lower : StreamId) (count : Option Nat)
      (noack : Bool)
  | xack (clock : GroupClock) (ids : List StreamId)
  | xclaim (clock : GroupClock) (consumer : Bytes) (minIdle : UInt64) (ids : List StreamId)

inductive GroupReply
  | added (replies : List (Except String StreamId))
  | entries (found : List (StreamId × Fields))
  | count (n : Nat)
  | error (msg : String)

def replyOfEntries : Except String (List (StreamId × Fields)) → GroupReply
  | .ok found => .entries found
  | .error e => .error e

def replyOfNumber : Except String Nat → GroupReply
  | .ok n => .count n
  | .error e => .error e

namespace StreamSlot

/-- `stream_read_group_async` の一つの stream についての部分。`limit` が 0 なら何も読まない。 -/
def readGroup (clock : GroupClock) (name : Bytes) (count : Option Nat)
    (body : Nat → StreamEntries → StreamGroup → StreamGroupState →
      Except String (List (StreamId × Fields) × Option StreamGroup)) (s : StreamSlot) :
    Except String (List (StreamId × Fields)) × StreamSlot :=
  let limit := count.getD u64Max.toNat
  if limit = 0 then (.ok [], s) else s.withGroup clock name [] (body limit)

end StreamSlot
open StreamSlot

namespace GroupCommand

/-- group `name` について命令を実行する。 -/
def exec (name : Bytes) (s : StreamSlot) : GroupCommand → GroupReply × StreamSlot
  | xadd clock requests => (.added (s.streamAdd clock requests).1, (s.streamAdd clock requests).2)
  | xdel clock ids => (replyOfNumber (s.streamDelete clock ids).1, (s.streamDelete clock ids).2)
  | readNew clock consumer count noack =>
    let out := s.readGroup clock name count fun limit =>
      Store.readNew consumer limit noack clock.now
    (replyOfEntries out.1, out.2)
  | readHistory clock consumer lower count noack =>
    let out := s.readGroup clock name count fun limit =>
      Store.readHistory consumer lower limit noack clock.now
    (replyOfEntries out.1, out.2)
  | xack clock ids =>
    let out := s.withGroup clock name 0 (ackPending ids)
    (replyOfNumber out.1, out.2)
  | xclaim clock consumer minIdle ids =>
    let out := s.withGroup clock name [] (claimPending consumer minIdle clock.now ids)
    (replyOfEntries out.1, out.2)

def events : GroupCommand → GroupReply → List GroupEvent
  | readNew _ consumer _ noack, .entries found => found.map fun e => .delivered e.1 consumer noack
  | readHistory _ consumer _ _ false, .entries found => found.map fun e => .redelivered e.1 consumer
  | xack _ ids, .count _ => ids.map .acked
  | xclaim _ consumer _ _, .entries found => found.map fun e => .claimed e.1 consumer
  | _, _ => []

end GroupCommand

/-- stream の状態と、それまでの記録。 -/
structure GroupRun where
  slot : StreamSlot
  log : List GroupEvent

namespace GroupRun

def step (name : Bytes) (st : GroupRun) (c : GroupCommand) : Option GroupRun :=
  let out := c.exec name st.slot
  some ⟨out.2, if (groupOf name out.2.stored).isSome then st.log ++ c.events out.1 else []⟩

end GroupRun

/-! ## 整合 -/

/-- pending の持ち主は記録のとおりで、新しい配達は ID の順に進む。 -/
structure Ledger (log : List GroupEvent) (group : StreamGroup) : Prop where
  owner_eq : ∀ id, (group.pending.get id).map StreamPelState.consumer = owner log id
  ordered : (deliveredIds log).Pairwise (· < ·)
  bounded : ∀ state, group.state = some state → ∀ id ∈ deliveredIds log, id ≤ state.lastDeliveredId

structure Tracks (name : Bytes) (st : GroupRun) : Prop where
  ok : st.slot.Ok
  ledger : ∀ group, groupOf name st.slot.stored = some group → Ledger st.log group

def Advances (group group' : StreamGroup) : Prop :=
  (∀ state state', group.state = some state → group'.state = some state' →
    state.lastDeliveredId ≤ state'.lastDeliveredId) ∧
  ∀ id pel pel', group.pending.get id = some pel → group'.pending.get id = some pel' →
    pel.deliveries ≤ pel'.deliveries

theorem Advances.refl (group : StreamGroup) : Advances group group := by
  refine ⟨fun state state' h h' => ?_, fun id pel pel' h h' => ?_⟩
  · rw [h] at h'
    cases h'
    exact le_rfl
  · rw [h] at h'
    cases h'
    exact UInt64.le_refl _

/-- 一つの命令による書き込み。記録は `events` だけ伸び、`gentle` なら group は戻らない。 -/
structure Updates (log events : List GroupEvent) (gentle : Prop) (group group' : StreamGroup) :
    Prop where
  ledger : Ledger (log ++ events) group'
  advances : gentle → Advances group group'
  state : group.state.isSome = true → group'.state.isSome = true

theorem Updates.unchanged {log : List GroupEvent} {gentle : Prop} {group : StreamGroup}
    (h : Ledger log group) : Updates log [] gentle group group :=
  ⟨(append_nil log).symm ▸ h, fun _ => .refl group, id⟩

theorem Updates.imp {log events : List GroupEvent} {gentle gentle' : Prop}
    {group group' : StreamGroup} (h : Updates log events gentle group group')
    (himp : gentle' → gentle) : Updates log events gentle' group group' :=
  ⟨h.ledger, fun hgentle => h.advances (himp hgentle), h.state⟩

/-! ## 命令の中身 -/

theorem deliveries_putAll {pending : OrderedMap StreamId StreamPelState}
    {l : List (StreamId × StreamPelState)}
    (hnew : ∀ e ∈ l, ∀ pel, pending.get e.1 = some pel → pel.deliveries ≤ e.2.deliveries)
    (id : StreamId) (pel pel' : StreamPelState) (hpel : pending.get id = some pel)
    (hpel' : (pending.putAll l).get id = some pel') : pel.deliveries ≤ pel'.deliveries := by
  rcases get_putAll_cases hpel' with hwritten | ⟨-, hsame⟩
  · exact hnew _ hwritten _ hpel
  · cases hpel.symm.trans hsame
    exact UInt64.le_refl _

theorem putAll_owner {ι : Type} {pending : OrderedMap StreamId StreamPelState}
    {own : StreamId → Option Bytes} {consumer : Bytes} {l : List ι} {key : ι → StreamId}
    {pel : ι → StreamPelState} {event : ι → GroupEvent}
    (hown : ∀ id, (pending.get id).map StreamPelState.consumer = own id)
    (hpel : ∀ x ∈ l, (pel x).consumer = consumer)
    (hother : ∀ x ∈ l, ∀ id current, id ≠ key x → (event x).next id current = current)
    (hself : ∀ x ∈ l, ∀ current, ((own (key x)).isSome → current.isSome = true) →
      (event x).next (key x) current = some consumer) (id : StreamId) :
    ((pending.putAll (l.map fun x => (key x, pel x))).get id).map StreamPelState.consumer =
      (l.map event).foldl (GroupEvent.next id) (own id) := by
  induction l generalizing pending own with
  | nil => exact hown id
  | cons x rest ih =>
    have hstep : ∀ id, ((pending.put (key x) (pel x)).get id).map StreamPelState.consumer =
        (event x).next id (own id) := by
      intro id
      rw [get_put]
      by_cases hid : id = key x
      · subst hid
        rw [if_pos rfl, hself x mem_cons_self _ fun h => h]
        exact congrArg some (hpel x mem_cons_self)
      · rw [if_neg hid, hother x mem_cons_self _ _ hid]
        exact hown id
    refine ih hstep (fun y hy => hpel y (mem_cons_of_mem _ hy))
      (fun y hy => hother y (mem_cons_of_mem _ hy)) fun y hy current hcurrent => ?_
    refine hself y (mem_cons_of_mem _ hy) current fun hsome => hcurrent ?_
    -- 持ち主のあった entry は、別の entry に書いた後も持ち主がある。
    by_cases hkey : key y = key x
    · rw [hkey, hself x mem_cons_self _ fun h => h]
      rfl
    · rw [hother x mem_cons_self _ _ hkey]
      exact hsome

section

variable {entries : StreamEntries} {group group' : StreamGroup} {state : StreamGroupState}
  {log : List GroupEvent} {consumer : Bytes}

theorem entriesAfter_spec (entries : StreamEntries) (after : StreamId) (limit : Nat) :
    ((entriesAfter entries after limit).map Prod.fst).Pairwise (· < ·) ∧
      ∀ e ∈ entriesAfter entries after limit, after < e.1 := by
  have hdecode : ∀ e e', decodeEntry e = some e' → e'.1 = e.1 := by
    intro e e' he
    obtain ⟨fields, -, rfl⟩ := Option.map_eq_some_iff.mp he
    rfl
  unfold entriesAfter
  split
  · next lower hsucc =>
    constructor
    · rw [pairwise_map, pairwise_filterMap]
      refine ((entries.sorted.filter _).sublist (take_sublist ..)).imp ?_
      intro a b hab a' ha b' hb
      rw [hdecode a a' ha, hdecode b b' hb]
      exact hab
    · intro e he
      obtain ⟨e', he', hdec⟩ := mem_filterMap.mp he
      have hle := (mem_filter.mp (mem_of_mem_take he')).2
      rw [hdecode e' e hdec]
      exact streamIdSuccessor_le_iff.mp ⟨lower, hsucc, by simpa using hle⟩
  · exact ⟨.nil, by simp⟩

variable {limit : Nat} {noack : Bool} {now : UInt64} {found : List (StreamId × Fields)}
  {written : Option StreamGroup}

theorem Ledger.readNew (hledger : Ledger log group) (hstate : group.state = some state)
    (h : Store.readNew consumer limit noack now entries group state = .ok (found, written)) :
    Updates log (found.map fun e => .delivered e.1 consumer noack) True group
      (written.getD group) := by
  obtain ⟨hsorted, hnew⟩ := entriesAfter_spec entries state.lastDeliveredId limit
  unfold Store.readNew at h
  dsimp only at h
  generalize entriesAfter entries state.lastDeliveredId limit = scanned at h hsorted hnew
  cases hlast : scanned.getLast? with
  | none =>
    rw [hlast] at h
    cases h
    exact .unchanged hledger
  | some last =>
    rw [hlast] at h
    cases h
    have hmem : last ∈ found := mem_of_getLast? hlast
    have hids : deliveredIds (found.map fun e => GroupEvent.delivered e.1 consumer noack) =
        found.map Prod.fst := by
      rw [deliveredIds, filterMap_map]
      exact congrFun filterMap_eq_map found
    have hle : ∀ e ∈ found, e.1 ≤ last.1 := by
      obtain ⟨init, hinit⟩ := getLast?_eq_some_iff.mp hlast
      rw [hinit, map_append] at hsorted
      rw [hinit]
      exact forall_mem_concat (fun e he => ((pairwise_append.mp hsorted).2.2 e.1
        (mem_map_of_mem he) last.1 (mem_singleton_self _)).le) le_rfl
    refine ⟨⟨fun id => ?_, ?_, ?_⟩, fun _ => ⟨?_, deliveries_putAll ?_⟩, fun _ => rfl⟩
    · show ((group.pending.putAll (deliveredPel consumer now noack found)).get id).map _ = _
      rw [owner_append, deliveredPel]
      cases noack with
      | true =>
        -- NOACK の配達は pending に残らない。
        have hsame : ∀ (l : List (StreamId × Fields)) current,
            (l.map fun e => GroupEvent.delivered e.1 consumer true).foldl (GroupEvent.next id)
              current = current := by
          intro l
          induction l with
          | nil => exact fun _ => rfl
          | cons e rest ih =>
            intro current
            have hstep : (GroupEvent.delivered e.1 consumer true).next id current = current :=
              if_neg (by simp)
            rw [map_cons, foldl_cons, hstep, ih]
        rw [hsame]
        exact hledger.owner_eq id
      | false =>
        refine @putAll_owner (StreamId × Fields) group.pending (owner log) consumer found Prod.fst
          (fun _ => ⟨consumer, now, 1⟩) (fun e => .delivered e.1 consumer false) hledger.owner_eq
          (fun _ _ => rfl) ?_ ?_ id
        · exact fun e _ i current hi => if_neg fun hc => hi hc.1.symm
        · exact fun e _ current _ => if_pos ⟨rfl, rfl⟩
    · rw [deliveredIds_append, hids]
      refine pairwise_append.mpr ⟨hledger.ordered, hsorted, fun a ha b hb => ?_⟩
      obtain ⟨e, he, rfl⟩ := mem_map.mp hb
      exact (hledger.bounded state hstate a ha).trans_lt (hnew e he)
    · intro s' hs' id hid
      cases hs'
      rw [deliveredIds_append, hids] at hid
      rcases mem_append.mp hid with hid | hid
      · exact (hledger.bounded state hstate id hid).trans (hnew last hmem).le
      · obtain ⟨e, he, rfl⟩ := mem_map.mp hid
        exact hle e he
    · intro s s' hs hs'
      cases hstate.symm.trans hs
      cases hs'
      exact (hnew last hmem).le
    · -- 新しく届けた entry は、まだ pending になかった。
      intro e he pel hpel
      unfold deliveredPel at he
      split at he
      · cases he
      · obtain ⟨x, hx, rfl⟩ := mem_map.mp he
        have hown : owner log x.1 = some pel.consumer := by rw [← hledger.owner_eq, hpel]; rfl
        have hbefore := hledger.bounded state hstate _ (mem_deliveredIds_of_owner hown)
        exact absurd (hnew x hx) (not_lt.mpr hbefore)

variable {lower : StreamId}

theorem historyLoop_mem {pending : List (StreamId × StreamPelState)}
    (h : historyLoop entries consumer lower limit pending = .ok found) :
    ∀ e ∈ found, ∃ pel, (e.1, pel) ∈ pending ∧ pel.consumer = consumer := by
  induction pending generalizing limit found with
  | nil =>
    cases h
    simp
  | cons p rest ih =>
    obtain ⟨id, pel⟩ := p
    have hlater : ∀ {limit found}, historyLoop entries consumer lower limit rest = .ok found →
        ∀ e ∈ found, ∃ pel', (e.1, pel') ∈ (id, pel) :: rest ∧ pel'.consumer = consumer := by
      intro limit found h e he
      obtain ⟨pel', hmem, hconsumer⟩ := ih h e he
      exact ⟨pel', mem_cons_of_mem _ hmem, hconsumer⟩
    unfold historyLoop at h
    split at h
    · exact hlater h
    · next hmine =>
      have hconsumer : pel.consumer = consumer := by
        by_contra hne
        exact hmine (.inr hne)
      split at h
      · exact hlater h
      · split at h
        · cases h
        · next fields _ =>
          split at h
          · cases h
            intro e he
            rw [mem_singleton.mp he]
            exact ⟨pel, mem_cons_self, hconsumer⟩
          · cases hrest : historyLoop entries consumer lower (limit - 1) rest with
            | error e =>
              rw [hrest] at h
              cases h
            | ok later =>
              rw [hrest] at h
              cases h
              intro e he
              rcases mem_cons.mp he with rfl | he
              · exact ⟨pel, mem_cons_self, hconsumer⟩
              · exact hlater hrest e he

theorem Ledger.rewrite (hledger : Ledger log group) {ι : Type} {l : List ι} {key : ι → StreamId}
    {pel : ι → StreamPelState} {event : ι → GroupEvent}
    (hpel : ∀ x ∈ l, (pel x).consumer = consumer)
    (hpending : ∀ x ∈ l, (group.pending.get (key x)).isSome = true)
    (hevent : ∀ x, event x = .redelivered (key x) consumer ∨ event x = .claimed (key x) consumer) :
    Ledger (log ++ l.map event) (group.deliver consumer now (l.map fun x => (key x, pel x))) := by
  have hnone : deliveredIds (l.map event) = [] := by
    rw [deliveredIds, filterMap_map]
    refine filterMap_eq_nil_iff.mpr fun x _ => ?_
    rcases hevent x with h | h <;> simp [h]
  refine ⟨fun id => ?_, ?_, ?_⟩
  · rw [owner_append]
    refine putAll_owner hledger.owner_eq hpel ?_ ?_ id
    · intro x _ i current hi
      rcases hevent x with h | h <;> rw [h] <;> exact if_neg (Ne.symm hi)
    · intro x hx current hcurrent
      have hsome : current.isSome = true := hcurrent (by
        rw [← hledger.owner_eq, Option.isSome_map]
        exact hpending x hx)
      obtain ⟨c, rfl⟩ := Option.isSome_iff_exists.mp hsome
      rcases hevent x with h | h <;> rw [h] <;> exact if_pos rfl
  · rw [deliveredIds_append, hnone, append_nil]
    exact hledger.ordered
  · rw [deliveredIds_append, hnone, append_nil]
    exact hledger.bounded

theorem Ledger.readHistory (hledger : Ledger log group)
    (h : Store.readHistory consumer lower limit noack now entries group state =
      .ok (found, written)) :
    Updates log (if noack then [] else found.map fun e => .redelivered e.1 consumer)
      (noack = false → historyLoop entries consumer lower limit group.pending.entries = .ok found →
        ∀ e ∈ found, ∀ pel ∈ group.pending.get e.1, pel.deliveries ≤ 1) group
      (written.getD group) := by
  unfold Store.readHistory at h
  cases hloop : historyLoop entries consumer lower limit group.pending.entries with
  | error e =>
    rw [hloop] at h
    cases h
  | ok found' =>
    rw [hloop] at h
    dsimp only at h
    split at h
    · cases h
      rw [map_nil, ite_self]
      exact .unchanged hledger
    · cases h
      cases noack with
      | true =>
        rw [if_pos rfl]
        refine ⟨?_, fun _ => ⟨(Advances.refl group).1, (Advances.refl group).2⟩, id⟩
        rw [append_nil]
        exact ⟨hledger.owner_eq, hledger.ordered, hledger.bounded⟩
      | false =>
        refine ⟨hledger.rewrite (fun _ _ => rfl) (fun e he => ?_) fun e => .inl rfl,
          fun hone => ⟨(Advances.refl group).1, deliveries_putAll fun e he pel hpel => ?_⟩, id⟩
        · obtain ⟨pel, hmem, -⟩ := historyLoop_mem hloop e he
          rw [mem_entries.mp hmem]
          rfl
        · obtain ⟨x, hx, rfl⟩ := mem_map.mp he
          exact hone rfl rfl x hx pel hpel

theorem foldl_acked (ids : List StreamId) (id : StreamId) (current : Option Bytes) :
    (ids.map GroupEvent.acked).foldl (GroupEvent.next id) current =
      if id ∈ ids then none else current := by
  induction ids generalizing current with
  | nil => rfl
  | cons i rest ih =>
    rw [map_cons, foldl_cons, ih]
    by_cases hi : i = id
    · simp [GroupEvent.next, hi]
    · simp [GroupEvent.next, hi, Ne.symm hi]

theorem deliveredIds_acked (ids : List StreamId) : deliveredIds (ids.map .acked) = [] := by
  rw [deliveredIds, filterMap_map]
  exact filterMap_eq_nil_iff.mpr fun _ _ => rfl

variable {ids : List StreamId}

theorem Ledger.ack (hledger : Ledger log group) {n : Nat}
    (h : ackPending ids entries group state = .ok (n, written)) :
    Updates log (ids.map .acked) True group (written.getD group) := by
  have hget : ∀ id, ((written.getD group).pending.get id) =
      if id ∈ ids then none else group.pending.get id := by
    intro id
    unfold ackPending at h
    dsimp only at h
    split at h
    · next hnone =>
      cases h
      by_cases hid : id ∈ ids
      · rw [if_pos hid]
        by_contra hsome
        obtain ⟨pel, hpel⟩ := Option.ne_none_iff_exists'.mp hsome
        have hmem : id ∈ ids.dedup.filter fun id => (group.pending.get id).isSome :=
          mem_filter.mpr ⟨mem_dedup.mpr hid, by rw [show group.pending.get id = _ from hpel]; rfl⟩
        rw [length_eq_zero_iff.mp hnone] at hmem
        cases hmem
      · rw [if_neg hid]
        rfl
    · cases h
      show (group.pending.filterKeys _).get id = _
      rw [get_filterKeys]
      cases hpel : group.pending.get id with
      | none => simp
      | some pel => by_cases hid : id ∈ ids <;> simp [hid, hpel]
  have hstate : (written.getD group).state = group.state := by
    unfold ackPending at h
    dsimp only at h
    split at h <;> cases h <;> rfl
  refine ⟨⟨fun id => ?_, ?_, ?_⟩, fun _ => ⟨?_, ?_⟩, (hstate ▸ id)⟩
  · rw [owner_append, foldl_acked, hget, ← hledger.owner_eq]
    split <;> rfl
  · rw [deliveredIds_append, deliveredIds_acked, append_nil]
    exact hledger.ordered
  · rw [deliveredIds_append, deliveredIds_acked, append_nil, hstate]
    exact hledger.bounded
  · intro s s' hs hs'
    rw [hstate] at hs'
    exact (Advances.refl group).1 s s' hs hs'
  · intro id pel pel' hpel hpel'
    rw [hget] at hpel'
    split at hpel'
    · cases hpel'
    · exact (Advances.refl group).2 id pel pel' hpel hpel'

theorem Ledger.claim (hledger : Ledger log group) {minIdle : UInt64}
    (h : claimPending consumer minIdle now ids entries group state = .ok (found, written)) :
    Updates log (found.map fun e => .claimed e.1 consumer) True group (written.getD group) := by
  unfold claimPending at h
  dsimp only at h
  generalize hclaimed : ids.filterMap (fun id =>
    (group.pending.get id).bind (claimOne consumer minIdle now entries id)) = claimed at h
  have hmem : ∀ c ∈ claimed, ∃ pel, group.pending.get c.1 = some pel ∧
      c.2.2 = pel.reclaim consumer now := by
    intro c hc
    rw [← hclaimed] at hc
    obtain ⟨id, -, hone⟩ := mem_filterMap.mp hc
    obtain ⟨pel, hpel, hone⟩ := Option.bind_eq_some_iff.mp hone
    obtain ⟨-, hone⟩ := Option.ite_none_left_eq_some.mp hone
    obtain ⟨fields, -, rfl⟩ := Option.map_eq_some_iff.mp hone
    exact ⟨pel, hpel, rfl⟩
  split at h
  · cases h
    exact .unchanged hledger
  · cases h
    rw [map_map]
    refine ⟨hledger.rewrite (fun c hc => ?_) (fun c hc => ?_) fun c => .inr rfl,
      fun _ => ⟨(Advances.refl group).1, deliveries_putAll fun e he pel hpel => ?_⟩, id⟩
    · obtain ⟨pel, -, hc⟩ := hmem c hc
      rw [hc]
      rfl
    · obtain ⟨pel, hpel, -⟩ := hmem c hc
      rw [hpel]
      rfl
    · obtain ⟨c, hc, rfl⟩ := mem_map.mp he
      obtain ⟨pel', hpel', hc'⟩ := hmem c hc
      cases hpel.symm.trans hpel'
      rw [hc']
      unfold StreamPelState.reclaim
      dsimp only
      split
      · next hmax => rw [hmax]; exact UInt64.le_refl _
      · next hlt =>
        have hne : pel.deliveries.toNat ≠ u64Max.toNat := fun h => hlt (UInt64.toNat_inj.mp h)
        have hle := toNat_le_u64Max pel.deliveries
        rw [UInt64.le_iff_toNat_le,
          toNat_succ_of_lt (UInt64.lt_iff_toNat_lt.mpr (lt_of_le_of_ne hle hne))]
        exact Nat.le_succ _

end

/-! ## 一つの命令 -/

/-- 命令の後の `s` では、group は消えているか、記録に `events` を足したものに合っている。 -/
def GroupServed (name : Bytes) (st : GroupRun) (events : List GroupEvent) (gentle : Prop)
    (s : StreamSlot) : Prop :=
  s.Ok ∧ (groupOf name s.stored = none ∨ ∃ group group',
    groupOf name st.slot.stored = some group ∧ groupOf name s.stored = some group' ∧
      Ledger (st.log ++ events) group' ∧ (gentle → Advances group group'))

variable {st : GroupRun} {s : StreamSlot}

theorem served_of_groupOf {name : Bytes} (h : Tracks name st) (hok : s.Ok)
    (hgroup : groupOf name s.stored = none ∨ groupOf name s.stored = groupOf name st.slot.stored)
    (gentle : Prop) : GroupServed name st [] gentle s := by
  refine ⟨hok, ?_⟩
  rcases hgroup with hnone | hsame
  · exact .inl hnone
  · cases hbefore : groupOf name st.slot.stored with
    | none => exact .inl (hsame.trans hbefore)
    | some group =>
      refine .inr ⟨group, group, rfl, hsame.trans hbefore, ?_, fun _ => .refl group⟩
      rw [append_nil]
      exact h.ledger group hbefore

theorem groups_addAll (now : AddRequest → UInt64) (requests : List AddRequest)
    (c : StreamContent) : (runOne (StreamContent.addOne now) c requests).2.groups = c.groups := by
  induction requests generalizing c with
  | nil => rfl
  | cons r rs ih =>
    rw [runOne]
    refine (ih _).trans ?_
    unfold StreamContent.addOne
    split <;> rfl

theorem groupOf_xaddSpec (name : Bytes) (now : AddRequest → UInt64) (requests : List AddRequest)
    (v : Visible StreamContent) : groupOf name (xaddSpec now requests v).2 = groupOf name v := by
  cases v with
  | foreign e raw => rfl
  | missing =>
    simp only [xaddSpec]
    split
    · rfl
    · simp only [groupOf, groups_addAll]
      rfl
  | value e c => simp [xaddSpec, groupOf, groups_addAll]

theorem groupOf_deleteSpec (name : Bytes) (ids : List StreamId) (v : Visible StreamContent) :
    groupOf name (deleteSpec ids v).2 = groupOf name v := by
  cases v <;> rfl

theorem served_withGroup {name : Bytes} (h : Tracks name st) {ρ : Type} {clock : GroupClock}
    {absent : ρ} {gentle : Prop}
    {body : StreamEntries → StreamGroup → StreamGroupState → Except String (ρ × Option StreamGroup)}
    (events : Except String ρ → List GroupEvent) (herror : ∀ e, events (.error e) = [])
    (hbody : ∀ e c state reply written,
      (st.slot.stored.upTo clock.metaNow).upTo clock.groupNow = .value e c →
      body c.entries (c.groups name) state = .ok (reply, written) →
      (c.groups name).state = some state → Ledger st.log (c.groups name) →
        Updates st.log (events (.ok reply)) gentle (c.groups name)
          (written.getD (c.groups name))) :
    GroupServed name st (events (st.slot.withGroup clock name absent body).1) gentle
      (st.slot.withGroup clock name absent body).2 := by
  have hspec := withGroup_spec h.ok clock name absent body
  have hv : ∀ e c, (st.slot.stored.upTo clock.metaNow).upTo clock.groupNow = .value e c →
      st.slot.stored = .value e c := by
    intro e c hv
    rcases (st.slot.stored.upTo clock.metaNow).upTo_eq clock.groupNow with hsecond | hsecond
    · rw [hsecond] at hv
      cases hv
    · rcases st.slot.stored.upTo_eq clock.metaNow with hfirst | hfirst
      · rw [hsecond, hfirst] at hv
        cases hv
      · rw [← hfirst, ← hsecond]
        exact hv
  generalize st.slot.withGroup clock name absent body = out at hspec ⊢
  cases hspec with
  | noGroup s reply hok hreply hgroup _ => exact ⟨hok, .inl hgroup⟩
  | failed s e c state error hok hvalue hstate hb hstored =>
    show GroupServed name st (events (.error error)) _ _
    rw [herror]
    exact served_of_groupOf h hok (.inr (by rw [hstored, hv e c hvalue])) _
  | quiet s e c state reply hok hvalue hstate hb hstored =>
    have hbefore : groupOf name st.slot.stored = some (c.groups name) := by
      rw [hv e c hvalue, groupOf_value hstate]
    have hup := hbody e c state reply _ hvalue hb hstate (h.ledger _ hbefore)
    refine ⟨hok, .inr ⟨_, _, hbefore, ?_, hup.ledger, hup.advances⟩⟩
    rw [hstored, groupOf_value hstate]
    rfl
  | wrote s e c state reply group hok hvalue hstate hb hstored =>
    have hbefore : groupOf name st.slot.stored = some (c.groups name) := by
      rw [hv e c hvalue, groupOf_value hstate]
    have hup := hbody e c state reply _ hvalue hb hstate (h.ledger _ hbefore)
    refine ⟨hok, .inr ⟨_, group, hbefore, ?_, hup.ledger, hup.advances⟩⟩
    rw [hstored]
    simp only [groupOf, update_self]
    exact if_pos (hup.state (hstate ▸ rfl))

/--
命令を受ける前の状態についての条件。NOACK のない履歴の読み取りが届け直す entry は、それまでに一度しか
届いていない。
-/
def GroupCommand.Gentle (name : Bytes) (st : GroupRun) : GroupCommand → Prop
  | .readHistory clock consumer lower count false => ∀ e c found, count ≠ some 0 →
      (st.slot.stored.upTo clock.metaNow).upTo clock.groupNow = .value e c →
      historyLoop c.entries consumer lower (count.getD u64Max.toNat)
        (c.groups name).pending.entries = .ok found →
      ∀ x ∈ found, ∀ pel ∈ (c.groups name).pending.get x.1, pel.deliveries ≤ 1
  | _ => True

theorem served_readGroup {name : Bytes} (h : Tracks name st) {clock : GroupClock}
    {count : Option Nat} {gentle : Prop}
    {body : Nat → StreamEntries → StreamGroup → StreamGroupState →
      Except String (List (StreamId × Fields) × Option StreamGroup)}
    (events : Except String (List (StreamId × Fields)) → List GroupEvent)
    (herror : ∀ e, events (.error e) = []) (hnil : events (.ok []) = [])
    (hbody : ∀ e c state found written, count ≠ some 0 →
      (st.slot.stored.upTo clock.metaNow).upTo clock.groupNow = .value e c →
      body (count.getD u64Max.toNat) c.entries (c.groups name) state = .ok (found, written) →
      (c.groups name).state = some state → Ledger st.log (c.groups name) →
        Updates st.log (events (.ok found)) gentle (c.groups name)
          (written.getD (c.groups name))) :
    GroupServed name st (events (st.slot.readGroup clock name count body).1) gentle
      (st.slot.readGroup clock name count body).2 := by
  unfold readGroup
  dsimp only
  by_cases hlimit : count.getD u64Max.toNat = 0
  · rw [if_pos hlimit, hnil]
    exact served_of_groupOf h h.ok (.inr rfl) _
  · rw [if_neg hlimit]
    have hcount : count ≠ some 0 := fun hzero => hlimit (by rw [hzero]; rfl)
    exact served_withGroup h events herror fun e c state found written =>
      hbody e c state found written hcount

/-- **一つの命令は記録を保つ。** -/
theorem GroupCommand.exec_served {name : Bytes} (h : Tracks name st) (c : GroupCommand) :
    GroupServed name st (c.events (c.exec name st.slot).1) (c.Gentle name st)
      (c.exec name st.slot).2 := by
  cases c with
  | xadd clock requests =>
    obtain ⟨hrun, hok⟩ := streamAdd_observed h.ok clock requests
    refine served_of_groupOf h hok ?_ _
    have hstored := congrArg Prod.snd hrun
    dsimp only at hstored
    show groupOf name (st.slot.streamAdd clock requests).2.stored = none ∨ _
    rw [hstored, groupOf_xaddSpec]
    rcases addObserved_eq st.slot clock requests with hv | hv
    · exact .inl (by rw [hv]; rfl)
    · exact .inr (by rw [hv])
  | xdel clock ids =>
    obtain ⟨hrun, hok⟩ := streamDelete_spec h.ok clock ids
    have hevents : (xdel clock ids).events ((xdel clock ids).exec name st.slot).1 = [] := by
      show (xdel clock ids).events (replyOfNumber (st.slot.streamDelete clock ids).1) = []
      cases (st.slot.streamDelete clock ids).1 <;> rfl
    rw [hevents]
    refine served_of_groupOf h hok ?_ _
    have hstored := congrArg Prod.snd hrun
    dsimp only at hstored
    show groupOf name (st.slot.streamDelete clock ids).2.stored = none ∨ _
    rw [hstored, groupOf_deleteSpec]
    rcases st.slot.observed_eq clock (st.slot.direct clock) with hv | hv
    · exact .inl (by rw [hv]; rfl)
    · exact .inr (by rw [hv])
  | readNew clock consumer count noack =>
    exact served_readGroup h
      (fun r => (readNew clock consumer count noack).events (replyOfEntries r)) (fun _ => rfl) rfl
      fun e c state found written _ _ hb hstate hledger => hledger.readNew hstate hb
  | readHistory clock consumer lower count noack =>
    have hevents : ∀ found : List (StreamId × Fields),
        (readHistory clock consumer lower count noack).events (.entries found) =
          if noack then [] else found.map fun e => .redelivered e.1 consumer := by
      intro found
      cases noack <;> rfl
    refine served_readGroup h
      (fun r => (readHistory clock consumer lower count noack).events (replyOfEntries r))
      (fun _ => by cases noack <;> rfl) (by cases noack <;> rfl) ?_
    intro e c state found written hcount hvalue hb hstate hledger
    show Updates _ ((readHistory clock consumer lower count noack).events (.entries found)) _ _ _
    rw [hevents]
    refine (hledger.readHistory hb).imp fun hgentle => ?_
    rintro rfl hloop
    exact hgentle e c found hcount hvalue hloop
  | xack clock ids =>
    exact served_withGroup h (fun r => (xack clock ids).events (replyOfNumber r)) (fun _ => rfl)
      fun e c state n written _ hb hstate hledger => hledger.ack hb
  | xclaim clock consumer minIdle ids =>
    exact served_withGroup h (fun r => (xclaim clock consumer minIdle ids).events
      (replyOfEntries r)) (fun _ => rfl)
      fun e c state found written _ hb hstate hledger => hledger.claim hb

/-! ## 実行 -/

theorem Tracks.step {name : Bytes} {st' : GroupRun} (h : Tracks name st) {c : GroupCommand}
    (hstep : st.step name c = some st') : Tracks name st' := by
  obtain ⟨hok, hserved⟩ := c.exec_served h
  cases hstep
  refine ⟨hok, fun group' hgroup' => ?_⟩
  dsimp only at hgroup' ⊢
  rw [hgroup', if_pos Option.isSome_some]
  rcases hserved with hnone | ⟨group, group'', -, hafter, hledger, -⟩
  · rw [hgroup'] at hnone
    cases hnone
  · rw [hgroup'] at hafter
    cases hafter
    exact hledger

/--
**配達の性質。** group が残る限り、どの entry も `>` の読み取りで高々一度、id の順に届く。pending は、届けて
まだ確認していない entry とその最後の持ち主に等しい。次の命令で、最後に届けた id は戻らず、残っている pending の
回数は減らない。
-/
theorem groupRun_delivery {name : Bytes} {st final : GroupRun} {cmds : List GroupCommand}
    (hstart : Tracks name st)
    (hgentle : Obeys (GroupRun.step name) (fun st c => c.Gentle name st) st cmds)
    (hrun : run (GroupRun.step name) st cmds = some final) :
    (∀ group, groupOf name final.slot.stored = some group → Ledger final.log group) ∧
      ∀ next : GroupCommand, next.Gentle name final → ∀ group group',
        groupOf name final.slot.stored = some group →
        groupOf name (next.exec name final.slot).2.stored = some group' →
          Advances group group' := by
  have hfinal : Tracks name final := run_induction
    (fun st c st' hst _ hstep => hst.step hstep) hstart hgentle hrun
  refine ⟨hfinal.ledger, fun next hnext group group' hbefore hafter => ?_⟩
  obtain ⟨-, hnone | ⟨g, g', hg, hg', -, hadvances⟩⟩ := next.exec_served hfinal
  · rw [hafter] at hnone
    cases hnone
  · rw [hbefore] at hg
    rw [hafter] at hg'
    cases hg
    cases hg'
    exact hadvances hnext

/-! ## group を作る -/

theorem Ledger.created (state : StreamGroupState) {group : StreamGroup}
    (h : group.pending = ∅) : Ledger [] { group with state := some state } where
  owner_eq id := by
    dsimp only
    rw [h]
    rfl
  ordered := .nil
  bounded _ _ _ hid := (by cases hid)

theorem tracks_created {name : Bytes} (h : s.Ok) {now : Nat} {id : StreamId} {mkstream : Bool}
    (hreply : (s.streamGroupCreate now name id mkstream).1 = .ok ())
    (hempty : ∀ e c, s.stored.upTo now = .value e c → (c.groups name).pending = ∅) :
    Tracks name ⟨(s.streamGroupCreate now name id mkstream).2, []⟩ := by
  obtain ⟨hpromoted, hsame, hsplit⟩ := promote_spec h
  have hread := metaRead hpromoted hsplit now
  rw [hsame] at hread
  unfold streamGroupCreate at hreply ⊢
  dsimp only at hreply ⊢
  generalize s.promote.streamMeta now = read at hread hreply ⊢
  generalize s.stored.upTo now = v at hread hempty
  cases hread with
  | foreign s' e raw hv hok hstored => cases hreply
  | missing s' hv hok hstored =>
    cases mkstream with
    | false => cases hreply
    | true =>
      simp only [if_true] at hreply ⊢
      have hitems : s'.recs.items (s'.counter + 1) = ∅ := hok.fresh.items_empty (Nat.lt_succ_self _)
      have hpending : ((s'.recs.items (s'.counter + 1)).groups name).pending = ∅ := by
        rw [hitems]
        rfl
      split at hreply
      · cases hreply
      · next hfree =>
        rw [if_neg hfree]
        have hput := (hok.setCounter (Nat.le_succ s'.counter)).putMeta
          (m := ⟨0, s'.counter + 1, .empty⟩) (Nat.succ_pos _) le_rfl
            (s'.recs.items (s'.counter + 1))
        refine ⟨hput.setGroup (Nat.succ_pos _) le_rfl name _, fun group hgroup => ?_⟩
        rw [stored_setGroup rfl] at hgroup
        simp only [groupOf, update_self, Option.isSome_some, if_true,
          Option.some.injEq] at hgroup
        rw [← hgroup]
        exact .created _ hpending
  | value s' m items hv hok hstored hpos hle hitems hmain =>
    dsimp only at hreply ⊢
    split at hreply
    · cases hreply
    · next hfree =>
      rw [if_neg hfree]
      refine ⟨hok.setGroup hpos hle name _, fun group hgroup => ?_⟩
      have hpending : ((s'.recs.items m.version).groups name).pending = ∅ := by
        rw [hitems]
        exact hempty _ _ hv
      rw [stored_setGroup hmain] at hgroup
      simp only [groupOf, update_self, Option.isSome_some, if_true,
        Option.some.injEq] at hgroup
      rw [← hgroup]
      exact .created _ hpending

namespace LostCount

def name : Bytes := [0x67]

def slot : StreamSlot := ⟨⟨none, fun _ => ∅⟩, 0⟩

/-- `XADD key 1-0 f v` -/
def withEntry : StreamSlot := (slot.streamAdd ⟨0, 0⟩ [⟨some ⟨1, 0⟩, [([0x66], [0x76])], 0, 0⟩]).2

/-- `XGROUP CREATE key g 0-0` -/
def created : GroupRun := ⟨(withEntry.streamGroupCreate 0 name ⟨0, 0⟩ false).2, []⟩

/-- `XREADGROUP GROUP g a STREAMS key >` -/
def readByA : GroupCommand := .readNew ⟨0, 0, 10⟩ [0x61] none false

/-- `XCLAIM key g b 0 1-0` -/
def claimByB : GroupCommand := .xclaim ⟨0, 0, 20⟩ [0x62] 0 [⟨1, 0⟩]

/-- `XREADGROUP GROUP g b STREAMS key 0-0` -/
def historyOfB : GroupCommand := .readHistory ⟨0, 0, 30⟩ [0x62] ⟨0, 0⟩ none false

def pendingOf (s : StreamSlot) : Option (Bytes × UInt64) :=
  (groupOf name s.stored).bind fun group =>
    (group.pending.get ⟨1, 0⟩).map fun pel => (pel.consumer, pel.deliveries)

theorem count_decreases :
    pendingOf (claimByB.exec name (readByA.exec name created.slot).2).2 = some ([0x62], 2) ∧
      pendingOf (historyOfB.exec name
        (claimByB.exec name (readByA.exec name created.slot).2).2).2 = some ([0x62], 1) := by
  refine ⟨?_, ?_⟩ <;> rfl

theorem created_tracks : Tracks name created := by
  have hslot : slot.Ok := ⟨⟨fun h => (by cases h), fun _ => rfl⟩, fun h => (by cases h), rfl⟩
  have hentry : withEntry.Ok := (streamAdd_observed hslot _ _).2
  refine tracks_created hentry rfl fun e c hv => ?_
  cases hv
  rfl

theorem claim_tracked : ∃ final group,
    run (GroupRun.step name) created [readByA, claimByB] = some final ∧
      groupOf name final.slot.stored = some group ∧ Ledger final.log group ∧
      final.log = [.delivered ⟨1, 0⟩ [0x61] false, .claimed ⟨1, 0⟩ [0x62]] := by
  refine ⟨_, _, rfl, rfl, ?_, rfl⟩
  refine (@groupRun_delivery name created _ [readByA, claimByB] created_tracks ?_ rfl).1 _ rfl
  exact ⟨trivial, fun st hst => ⟨trivial, fun _ _ => trivial⟩⟩

end LostCount

end Onedis.Store
