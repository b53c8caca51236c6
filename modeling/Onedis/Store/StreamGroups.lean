import Onedis.Store.StreamEntries

/-!
# consumer group の命令

XREADGROUP、XACK、XCLAIM、XAUTOCLAIM の写し。どの命令も、main record を二度読んで group の状態を得てから、entry と
pending を調べる。
-/

namespace Onedis.Store

open Infra Function
open Codec (StreamId)

abbrev Fields := List (Bytes × Bytes)

/-- `stream_id_successor` -/
def streamIdSuccessor (id : StreamId) : Option StreamId :=
  if id.seq < u64Max then some ⟨id.ms, id.seq + 1⟩
  else if id.ms < u64Max then some ⟨id.ms + 1, 0⟩
  else none

theorem toNat_le_u64Max (n : UInt64) : n.toNat ≤ u64Max.toNat := Nat.le_of_lt_succ n.toNat_lt

theorem toNat_succ_of_lt {n : UInt64} (h : n < u64Max) : (n + 1).toNat = n.toNat + 1 := by
  rw [UInt64.lt_iff_toNat_lt] at h
  have hmax : u64Max.toNat = 2 ^ 64 - 1 := rfl
  rw [UInt64.toNat_add]
  exact Nat.mod_eq_of_lt (show n.toNat + 1 < 2 ^ 64 by omega)

theorem streamIdSuccessor_le_iff {id x : StreamId} :
    (∃ next, streamIdSuccessor id = some next ∧ next ≤ x) ↔ id < x := by
  have hms := toNat_le_u64Max x.ms
  have hseq := toNat_le_u64Max x.seq
  unfold streamIdSuccessor
  by_cases hlt : id.seq < u64Max
  · rw [if_pos hlt]
    simp only [Option.some.injEq, exists_eq_left', StreamId.le_iff, StreamId.lt_iff,
      toNat_succ_of_lt hlt]
    omega
  · rw [if_neg hlt]
    rw [UInt64.lt_iff_toNat_lt] at hlt
    by_cases hms' : id.ms < u64Max
    · rw [if_pos hms']
      simp only [Option.some.injEq, exists_eq_left', StreamId.le_iff, StreamId.lt_iff,
        toNat_succ_of_lt hms', UInt64.toNat_zero]
      omega
    · rw [if_neg hms']
      rw [UInt64.lt_iff_toNat_lt] at hms'
      refine iff_of_false (by simp) ?_
      rw [StreamId.lt_iff]
      omega

/-! ## 命令の中身 -/

def decodeEntry (e : StreamId × Bytes) : Option (StreamId × Fields) :=
  (Codec.decodeStreamEntry e.2).map fun fields => (e.1, fields)

/-- `now.saturating_sub(last_delivery_ms)` -/
def idleMs (now : UInt64) (pel : StreamPelState) : Nat := now.toNat - pel.lastDeliveryMs.toNat

def StreamPelState.reclaim (consumer : Bytes) (now : UInt64) (pel : StreamPelState) :
    StreamPelState :=
  ⟨consumer, now, if pel.deliveries = u64Max then u64Max else pel.deliveries + 1⟩

def StreamGroup.deliver (group : StreamGroup) (consumer : Bytes) (now : UInt64)
    (written : List (StreamId × StreamPelState)) : StreamGroup :=
  { group with
    pending := group.pending.putAll written
    consumers := update group.consumers consumer (some now) }

def deliveredPel (consumer : Bytes) (now : UInt64) (noack : Bool)
    (found : List (StreamId × Fields)) : List (StreamId × StreamPelState) :=
  if noack then [] else found.map fun e => (e.1, ⟨consumer, now, 1⟩)

/-- `after` の次の id から、`limit` 個まで読む。 -/
def entriesAfter (entries : StreamEntries) (after : StreamId) (limit : Nat) :
    List (StreamId × Fields) :=
  match streamIdSuccessor after with
  | some lower => ((entries.entries.filter (lower ≤ ·.1)).take limit).filterMap decodeEntry
  | none => []

/-- `XREADGROUP ... >`。まだ届けていない entry を、最後に届けた id の次から読む。 -/
def readNew (consumer : Bytes) (limit : Nat) (noack : Bool) (now : UInt64)
    (entries : StreamEntries) (group : StreamGroup) (state : StreamGroupState) :
    Except String (List (StreamId × Fields) × Option StreamGroup) :=
  let found := entriesAfter entries state.lastDeliveredId limit
  match found.getLast? with
  | none => .ok ([], none)
  | some last =>
    let group := group.deliver consumer now (deliveredPel consumer now noack found)
    .ok (found, some { group with
      state := some ⟨last.1, state.entriesRead + UInt64.ofNat found.length⟩ })

def entryDecodeError : String := "Failed to decode stream entry"

/-- 自分の pending を順に調べ、残っている entry を `limit` 個まで集める。 -/
def historyLoop (entries : StreamEntries) (consumer : Bytes) (lower : StreamId) :
    Nat → List (StreamId × StreamPelState) → Except String (List (StreamId × Fields))
  | _, [] => .ok []
  | limit, (id, pel) :: rest =>
    if id ≤ lower ∨ pel.consumer ≠ consumer then historyLoop entries consumer lower limit rest
    else
      match entries.get id with
      | none => historyLoop entries consumer lower limit rest
      | some raw =>
        match Codec.decodeStreamEntry raw with
        | none => .error entryDecodeError
        | some fields =>
          if limit ≤ 1 then .ok [(id, fields)]
          else (historyLoop entries consumer lower (limit - 1) rest).map ((id, fields) :: ·)

/-- `XREADGROUP ... id`。届け直した entry の回数は 1 に戻る。 -/
def readHistory (consumer : Bytes) (lower : StreamId) (limit : Nat) (noack : Bool) (now : UInt64)
    (entries : StreamEntries) (group : StreamGroup) (_ : StreamGroupState) :
    Except String (List (StreamId × Fields) × Option StreamGroup) :=
  match historyLoop entries consumer lower limit group.pending.entries with
  | .error e => .error e
  | .ok found =>
    if found = [] then .ok ([], none)
    else .ok (found, some (group.deliver consumer now (deliveredPel consumer now noack found)))

/-- `stream_ack_async_unlocked` -/
def ackPending (ids : List StreamId) (_ : StreamEntries) (group : StreamGroup)
    (_ : StreamGroupState) : Except String (Nat × Option StreamGroup) :=
  let existing := ids.dedup.filter fun id => (group.pending.get id).isSome
  if existing.length = 0 then .ok (0, none)
  else
    .ok (existing.length,
      some { group with pending := group.pending.filterKeys fun id => id ∉ existing })

def claimOne (consumer : Bytes) (minIdle now : UInt64) (entries : StreamEntries)
    (id : StreamId) (pel : StreamPelState) : Option (StreamId × Fields × StreamPelState) :=
  if idleMs now pel < minIdle.toNat then none
  else
    ((entries.get id).bind Codec.decodeStreamEntry).map fun fields =>
      (id, fields, pel.reclaim consumer now)

/-- `stream_claim_async` -/
def claimPending (consumer : Bytes) (minIdle now : UInt64) (ids : List StreamId)
    (entries : StreamEntries) (group : StreamGroup) (_ : StreamGroupState) :
    Except String (List (StreamId × Fields) × Option StreamGroup) :=
  let claimed := ids.filterMap fun id =>
    (group.pending.get id).bind (claimOne consumer minIdle now entries id)
  if claimed = [] then .ok ([], none)
  else
    .ok (claimed.map fun c => (c.1, c.2.1),
      some (group.deliver consumer now (claimed.map fun c => (c.1, c.2.2))))

/-- pending を順に調べ、`count` 個まで引き取る。調べた数も返す。 -/
def autoClaimLoop (consumer : Bytes) (minIdle now : UInt64) (entries : StreamEntries) :
    Nat → List (StreamId × StreamPelState) → Nat × List (StreamId × Fields × StreamPelState)
  | _, [] => (0, [])
  | count, (id, pel) :: rest =>
    match claimOne consumer minIdle now entries id pel with
    | none =>
      let out := autoClaimLoop consumer minIdle now entries count rest
      (out.1 + 1, out.2)
    | some claimed =>
      if count ≤ 1 then (1, [claimed])
      else
        let out := autoClaimLoop consumer minIdle now entries (count - 1) rest
        (out.1 + 1, claimed :: out.2)

def autoClaimAttempts (count : Nat) : Nat := max (min (count * 10) u64Max.toNat) 1

/-- `stream_auto_claim_async`。次の cursor は、調べ残した最初の pending の id である。 -/
def autoClaim (consumer : Bytes) (minIdle now : UInt64) (start : StreamId) (count : Nat)
    (entries : StreamEntries) (group : StreamGroup) (_ : StreamGroupState) :
    Except String ((StreamId × List (StreamId × Fields)) × Option StreamGroup) :=
  if count = 0 then .ok ((start, []), none)
  else
    let attempts := autoClaimAttempts count
    let pending := (group.pending.entries.filter (start ≤ ·.1)).take
      (min (attempts + 1) u64Max.toNat)
    let out := autoClaimLoop consumer minIdle now entries count (pending.take attempts)
    let next := (pending[out.1]?.map Prod.fst).getD .zero
    if out.2 = [] then .ok ((next, []), none)
    else
      .ok ((next, out.2.map fun c => (c.1, c.2.1)),
        some (group.deliver consumer now (out.2.map fun c => (c.1, c.2.2))))

/-! ## 共通の手順 -/

def noGroupError : String := "NOGROUP No such key or consumer group"

/-- group の命令が時計を読む、三つの時刻。 -/
structure GroupClock where
  metaNow : Nat
  groupNow : Nat
  now : UInt64

namespace StreamSlot

/-- `stream_group_state_async` -/
def groupState (now : Nat) (name : Bytes) (s : StreamSlot) :
    Except String (Option StreamGroupState) × StreamSlot :=
  let read := s.streamMeta now
  match read.1 with
  | .error e => (.error e, read.2)
  | .ok none => (.ok none, read.2)
  | .ok (some m) => (.ok ((read.2.recs.items m.version).groups name).state, read.2)

def entriesOf (s : StreamSlot) (ver : Nat) : StreamEntries :=
  if ver = 0 then
    match s.recs.main with
    | some (.packed _ p) => p.toMap
    | _ => ∅
  else (s.recs.items ver).entries

def busyGroupError : String := "BUSYGROUP Consumer Group name already exists"

def groupKeyError : String := "ERR The XGROUP subcommand requires the key to exist"

def setGroup (s : StreamSlot) (ver : Nat) (name : Bytes) (group : StreamGroup) : StreamSlot :=
  let items := s.recs.items ver
  { s with
    recs := s.recs.setItems ver
      ⟨items.entries, update items.groups name group⟩ }

/-- `stream_group_create_async`。詰めた stream は先に分ける。id の上限は、stream の最後の id を表す。 -/
def streamGroupCreate (now : Nat) (name : Bytes) (id : StreamId) (mkstream : Bool)
    (s : StreamSlot) : Except String Unit × StreamSlot :=
  let read := s.promote.streamMeta now
  let opened : Except String (StreamMeta × StreamSlot) :=
    match read.1 with
    | .error e => .error e
    | .ok (some m) => .ok (m, read.2)
    | .ok none =>
      if mkstream then
        let m : StreamMeta := ⟨0, read.2.counter + 1, .empty⟩
        let s := { read.2 with counter := m.version }
        .ok (m, s.putMeta m (s.recs.items m.version))
      else .error groupKeyError
  match opened with
  | .error e => (.error e, read.2)
  | .ok (m, created) =>
    let group := (read.2.recs.items m.version).groups name
    if group.state.isSome then (.error busyGroupError, read.2)
    else
      let lastDeliveredId := if id = ⟨u64Max, u64Max⟩ then m.info.lastId else id
      (.ok (), created.setGroup m.version name { group with state := some ⟨lastDeliveredId, 0⟩ })

/-- group の命令の手順。stream がなければ `absent` を返し、group がなければ失敗する。 -/
def withGroup {ρ : Type} (clock : GroupClock) (name : Bytes) (absent : ρ)
    (body : StreamEntries → StreamGroup → StreamGroupState →
      Except String (ρ × Option StreamGroup)) (s : StreamSlot) : Except String ρ × StreamSlot :=
  let read := s.streamMeta clock.metaNow
  match read.1 with
  | .error e => (.error e, read.2)
  | .ok none => (.ok absent, read.2)
  | .ok (some m) =>
    let again := read.2.groupState clock.groupNow name
    match again.1 with
    | .error e => (.error e, again.2)
    | .ok none => (.error noGroupError, again.2)
    | .ok (some state) =>
      match body (again.2.entriesOf m.version)
          ((again.2.recs.items m.version).groups name) state with
      | .error e => (.error e, again.2)
      | .ok (reply, none) => (.ok reply, again.2)
      | .ok (reply, some group) => (.ok reply, again.2.setGroup m.version name group)

end StreamSlot

def groupOf (name : Bytes) : Visible StreamContent → Option StreamGroup
  | .value _ c => if (c.groups name).state.isSome then some (c.groups name) else none
  | _ => none

theorem groupOf_value {name : Bytes} {e : Nat} {c : StreamContent} {state : StreamGroupState}
    (h : (c.groups name).state = some state) :
    groupOf name (.value e c) = some (c.groups name) := by
  simp [groupOf, h]

namespace StreamSlot

def metaResult : Option StreamMain → Except String (Option StreamMeta)
  | none => .ok none
  | some (.foreign _ raw) => .error (foreignStreamError raw)
  | some (.packed e p) => .ok (some ⟨e, 0, p.info⟩)
  | some (.split e v info) => .ok (some ⟨e, v, info⟩)

theorem streamMeta_eq (now : Nat) (s : StreamSlot) :
    s.streamMeta now = (metaResult (s.expire now).recs.main, s.expire now) := by
  unfold streamMeta
  dsimp only
  cases (s.expire now).recs.main with
  | none => rfl
  | some record => cases record <;> rfl

theorem groupState_eq (now : Nat) (name : Bytes) (s : StreamSlot) : s.groupState now name =
      ((metaResult (s.expire now).recs.main).map fun m => m.bind fun m =>
        (((s.expire now).recs.items m.version).groups name).state, s.expire now) := by
  unfold groupState
  rw [streamMeta_eq]
  dsimp only
  cases metaResult (s.expire now).recs.main with
  | error e => rfl
  | ok m => cases m <;> rfl

/-- group の命令の結果。`v` は二度の期限の確認を経た中身である。 -/
inductive GroupOutcome {ρ : Type} (name : Bytes) (absent : ρ)
    (body : StreamEntries → StreamGroup → StreamGroupState →
      Except String (ρ × Option StreamGroup)) (v : Visible StreamContent) :
    Except String ρ × StreamSlot → Prop
  | noGroup (s : StreamSlot) (reply : Except String ρ) (hok : s.Ok)
      (hreply : reply = .ok absent ∨ ∃ e, reply = .error e) (hgroup : groupOf name s.stored = none)
      (hv : groupOf name v = none) : GroupOutcome name absent body v (reply, s)
  | failed (s : StreamSlot) (e : Nat) (c : StreamContent) (state : StreamGroupState)
      (error : String) (hok : s.Ok) (hv : v = .value e c)
      (hstate : (c.groups name).state = some state)
      (hbody : body c.entries (c.groups name) state = .error error)
      (hstored : s.stored = .value e c) : GroupOutcome name absent body v (.error error, s)
  | quiet (s : StreamSlot) (e : Nat) (c : StreamContent) (state : StreamGroupState) (reply : ρ)
      (hok : s.Ok) (hv : v = .value e c) (hstate : (c.groups name).state = some state)
      (hbody : body c.entries (c.groups name) state = .ok (reply, none))
      (hstored : s.stored = .value e c) : GroupOutcome name absent body v (.ok reply, s)
  | wrote (s : StreamSlot) (e : Nat) (c : StreamContent) (state : StreamGroupState) (reply : ρ)
      (group : StreamGroup) (hok : s.Ok) (hv : v = .value e c)
      (hstate : (c.groups name).state = some state)
      (hbody : body c.entries (c.groups name) state = .ok (reply, some group))
      (hstored : s.stored = .value e ⟨c.info, c.entries, update c.groups name group⟩) :
      GroupOutcome name absent body v (.ok reply, s)

section

variable {s : StreamSlot}

theorem Ok.setGroup (h : s.Ok) {ver : Nat} (hpos : 0 < ver) (hle : ver ≤ s.counter)
    (name : Bytes) (group : StreamGroup) : (s.setGroup ver name group).Ok where
  fresh := h.fresh.setItems hle _
  pos hmain := h.pos hmain
  zero := (KeyRecords.setItems_items_of_ne hpos.ne _ _).trans h.zero

theorem stored_setGroup {e ver : Nat} {info : StreamInfo}
    (hmain : s.recs.main = some (.split e ver info)) (name : Bytes) (group : StreamGroup) :
    (s.setGroup ver name group).stored = .value e ⟨info, (s.recs.items ver).entries,
      update (s.recs.items ver).groups name group⟩ := by
  have hmain' : (s.setGroup ver name group).recs.main = some (.split e ver info) := hmain
  rw [stored_split hmain']
  simp [setGroup]

theorem expire_main_of_due {now : Nat} {record : StreamMain} (hmain : s.recs.main = some record)
    (hdue : expireDue now record.expireMs = true) : (s.expire now).recs.main = none := by
  show (s.recs.expireIfNeeded now).main = none
  rw [KeyRecords.expireIfNeeded_main, KeyRecords.live, hmain]
  simp [Option.filter, hdue]

/-- **group の命令は、見える stream の group の上で働く。** -/
theorem withGroup_spec {ρ : Type} (h : s.Ok) (clock : GroupClock) (name : Bytes) (absent : ρ)
    (body : StreamEntries → StreamGroup → StreamGroupState →
      Except String (ρ × Option StreamGroup)) :
    GroupOutcome name absent body ((s.stored.upTo clock.metaNow).upTo clock.groupNow)
      (s.withGroup clock name absent body) := by
  have hok := h.expire clock.metaNow
  unfold withGroup
  dsimp only
  rw [streamMeta_eq, ← expire_stored, ← expire_stored]
  dsimp only
  generalize s.expire clock.metaNow = s₁ at hok ⊢
  have hok₂ := hok.expire clock.groupNow
  cases hmain : s₁.recs.main with
  | none =>
    have hgroup : groupOf name s₁.stored = none := by rw [stored_none hmain]; rfl
    exact .noGroup s₁ _ hok (.inl rfl) hgroup (by rw [expire_stored, stored_none hmain]; rfl)
  | some record =>
    rw [groupState_eq]
    cases hdue : expireDue clock.groupNow record.expireMs with
    | true =>
      -- 二度目の確認で期限が来ていれば、group はない。
      have hnone := expire_main_of_due hmain hdue
      have hgroup : groupOf name (s₁.expire clock.groupNow).stored = none := by
        rw [stored_none hnone]
        rfl
      cases record with
      | foreign e raw =>
        exact .noGroup s₁ _ hok (.inr ⟨_, rfl⟩) (by rw [stored_foreign hmain]; rfl) hgroup
      | packed e p =>
        simp only [metaResult, hnone]
        exact .noGroup _ _ hok₂ (.inr ⟨_, rfl⟩) hgroup hgroup
      | split e v info =>
        simp only [metaResult, hnone]
        exact .noGroup _ _ hok₂ (.inr ⟨_, rfl⟩) hgroup hgroup
    | false =>
      rw [expire, KeyRecords.expireIfNeeded_of_live (KeyRecords.live_of_main hmain hdue)]
      cases record with
      | foreign e raw =>
        have hgroup : groupOf name s₁.stored = none := by rw [stored_foreign hmain]; rfl
        exact .noGroup s₁ _ hok (.inr ⟨_, rfl⟩) hgroup hgroup
      | packed e p =>
        have hgroup : groupOf name s₁.stored = none := by rw [stored_packed hmain]; rfl
        have hstate : ((s₁.recs.items 0).groups name).state = none := by rw [hok.zero]; rfl
        simp only [metaResult, hmain, Except.map, Option.bind_some, hstate]
        exact .noGroup s₁ _ hok (.inr ⟨_, rfl⟩) hgroup hgroup
      | split e v info =>
        have hpos := hok.pos hmain
        have hentries : s₁.entriesOf v = (s₁.recs.items v).entries := if_neg hpos.ne'
        have hstored := stored_split hmain
        simp only [metaResult, hmain, Except.map, Option.bind_some, hentries]
        cases hstate : ((s₁.recs.items v).groups name).state with
        | none =>
          have hgroup : groupOf name s₁.stored = none := by
            rw [hstored]
            simp [groupOf, hstate]
          exact .noGroup s₁ _ hok (.inr ⟨_, rfl⟩) hgroup hgroup
        | some state =>
          dsimp only
          cases hbody : body (s₁.recs.items v).entries ((s₁.recs.items v).groups name) state with
          | error error => exact .failed s₁ e _ state error hok hstored hstate hbody hstored
          | ok out =>
            obtain ⟨reply, written⟩ := out
            cases written with
            | none => exact .quiet s₁ e _ state reply hok hstored hstate hbody hstored
            | some group =>
              exact .wrote _ e _ state reply group
                (hok.setGroup hpos (hok.fresh.version_le hmain) name group) hstored hstate hbody
                (stored_setGroup hmain name group)

end

end StreamSlot

end Onedis.Store
