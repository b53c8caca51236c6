import Onedis.Store.StreamAutoClaim

/-!
# XPENDING の頁送り

`stream_pending_range_filtered_async` は、pending を少しずつ読んで条件に合うものを集める。次の頁は、最後に
読んだ id の次から始まる。

* `pendingRange_exact` — 返るのは、範囲にあって条件に合う pending の、先頭から `count` 個である
-/

namespace Onedis.Store

open Infra List
open Codec (StreamId)

/-- `StreamPendingRange` のうち、key と group を除いたもの。 -/
structure PendingRange where
  start : StreamId
  stop : StreamId
  count : Nat
  consumer : Option Bytes
  minIdleMs : Option UInt64

/-- 返事の一件。id は文字列にする前の形である。 -/
structure StreamPendingEntry where
  id : StreamId
  consumer : Bytes
  idleMs : Nat
  deliveries : UInt64

abbrev Pending := OrderedMap StreamId StreamPelState

namespace PendingRange

variable (range : PendingRange) (now : UInt64)

/-- 範囲の端が `start` より後ろでないとき、`start` からの pending を読む。 -/
def ahead (pending : Pending) (start : StreamId) : List (StreamId × StreamPelState) :=
  pending.entries.filter fun p => start ≤ p.1 ∧ p.1 ≤ range.stop

/-- `stream_pending_between_limited_async` -/
def betweenLimited (pending : Pending) (start : StreamId) (limit : Nat) :
    List (StreamId × StreamPelState) :=
  if limit = 0 ∨ range.stop < start then [] else (range.ahead pending start).take limit

/-- consumer と、最後に届けてからの時間の条件。 -/
def passes (p : StreamId × StreamPelState) : Bool :=
  range.consumer.all (p.2.consumer = ·) && range.minIdleMs.all (·.toNat ≤ idleMs now p.2)

/-- 条件に合う pending を、返す形にする。 -/
def found (page : List (StreamId × StreamPelState)) : List StreamPendingEntry :=
  (page.filter (range.passes now)).map fun p =>
    ⟨p.1, p.2.consumer, idleMs now p.2, p.2.deliveries⟩

/-- 一頁の大きさ。条件があるときは多めに読む。 -/
def scanLimit (missing : Nat) : Nat :=
  if range.consumer.isSome ∨ range.minIdleMs.isSome then
    max (min (min (missing * 2) u64Max.toNat) 1024) 64
  else missing

/-- 頁を読む loop。`fuel` が尽きたら `none` を返す。 -/
def pages (pending : Pending) : Nat → StreamId → List StreamPendingEntry →
    Option (List StreamPendingEntry)
  | 0, _, _ => none
  | fuel + 1, scanStart, entries =>
    if entries.length < range.count ∧ scanStart ≤ range.stop then
      let limit := range.scanLimit (range.count - entries.length)
      let page := range.betweenLimited pending scanStart limit
      if page = [] then some entries
      else
        let entries := entries ++ (range.found now page).take (range.count - entries.length)
        if range.count ≤ entries.length ∨ page.length < limit then some entries
        else
          match page.getLast?.bind fun last => streamIdSuccessor last.1 with
          | none => some entries
          | some next => pages pending fuel next entries
    else some entries

end PendingRange

/-- `stream_pending_range_filtered_async` -/
def StreamSlot.streamPendingRangeFiltered (clock : GroupClock) (name : Bytes) (range : PendingRange)
    (s : StreamSlot) : Except String (Option (List StreamPendingEntry)) × StreamSlot :=
  s.withGroup clock name (some []) fun _ group _ =>
    .ok (range.pages clock.now group.pending (group.pending.entries.length + 1) range.start [],
      none)

/-! ## 一頁 -/

section

variable {α : Type*} {κ : Type*} [LinearOrder κ] {l : List (κ × α)}

theorem filter_gt_getLast (hsorted : l.Pairwise fun a b => a.1 < b.1) {limit : Nat} {last : κ × α}
    (hlast : (l.take limit).getLast? = some last) : l.filter (last.1 < ·.1) = l.drop limit := by
  obtain ⟨init, hinit⟩ := getLast?_eq_some_iff.mp hlast
  have hsplit : l = init ++ last :: l.drop limit := by
    rw [append_cons, ← hinit, take_append_drop]
  rw [hsplit] at hsorted
  obtain ⟨-, hrest, hbefore⟩ := pairwise_append.mp hsorted
  conv_lhs => rw [hsplit]
  rw [filter_append, filter_eq_nil_iff.mpr, filter_cons_of_neg (by simp), filter_eq_self.mpr,
    nil_append]
  · exact fun p hp => decide_eq_true ((pairwise_cons.mp hrest).1 p hp)
  · exact fun p hp => by simpa using (hbefore p hp last mem_cons_self).le

end

namespace PendingRange

variable {range : PendingRange} {now : UInt64} {pending : Pending} {start next : StreamId}

theorem found_append (l l' : List (StreamId × StreamPelState)) :
    range.found now (l ++ l') = range.found now l ++ range.found now l' := by
  simp [found]

theorem scanLimit_pos {missing : Nat} (h : 0 < missing) : 0 < range.scanLimit missing := by
  unfold scanLimit
  split <;> omega

/-- 最後に読んだ id の次からの pending は、読み残した分である。 -/
theorem ahead_after {limit : Nat} {last : StreamId × StreamPelState}
    (hlast : ((range.ahead pending start).take limit).getLast? = some last) :
    ((streamIdSuccessor last.1).elim [] (range.ahead pending)) =
      (range.ahead pending start).drop limit := by
  have hmem : last ∈ range.ahead pending start := mem_of_mem_take (mem_of_getLast? hlast)
  have hstart : start ≤ last.1 := (of_decide_eq_true (mem_filter.mp hmem).2).1
  have hiff := @streamIdSuccessor_le_iff last.1
  refine Eq.trans ?_ (filter_gt_getLast (pending.sorted.filter _) hlast)
  rw [filter_filter]
  cases hnext : streamIdSuccessor last.1 with
  | none =>
    refine (filter_eq_nil_iff.mpr fun p _ hp => ?_).symm
    obtain ⟨next, hsome, -⟩ := hiff.mpr (of_decide_eq_true (Bool.and_eq_true_iff.mp hp).1)
    exact absurd (hnext.symm.trans hsome) (by simp)
  | some next =>
    refine filter_congr fun p _ => ?_
    have hp : next ≤ p.1 ↔ last.1 < p.1 := by simpa [hnext] using hiff (x := p.1)
    rw [← Bool.decide_and, decide_eq_decide, hp]
    exact ⟨fun h => ⟨h.1, hstart.trans h.1.le, h.2⟩, fun h => ⟨h.1, h.2.2⟩⟩

theorem betweenLimited_spec {limit : Nat} (hlimit : 0 < limit) (hle : start ≤ range.stop) :
    ∃ rest, range.ahead pending start = range.betweenLimited pending start limit ++ rest ∧
      ((range.betweenLimited pending start limit).length < limit → rest = []) ∧
      ∀ last, (range.betweenLimited pending start limit).getLast? = some last →
        (streamIdSuccessor last.1).elim [] (range.ahead pending) = rest := by
  rw [betweenLimited, if_neg (by simp [hlimit.ne', hle])]
  refine ⟨_, (take_append_drop limit _).symm, fun hshort => ?_, fun last => ahead_after⟩
  rw [length_take] at hshort
  exact drop_eq_nil_of_le (by omega)

/-! ## loop -/

theorem pages_eq {fuel : Nat} {entries : List StreamPendingEntry}
    (hfuel : (range.ahead pending start).length < fuel) (hle : entries.length ≤ range.count) :
    range.pages now pending fuel start entries = some (entries ++
      (range.found now (range.ahead pending start)).take (range.count - entries.length)) := by
  induction fuel generalizing start entries with
  | zero => omega
  | succ fuel ih =>
    unfold pages
    split
    · next hcond =>
      have hlimit : 0 < range.scanLimit (range.count - entries.length) := scanLimit_pos (by omega)
      obtain ⟨rest, hahead, hshort, hnext⟩ :=
        @betweenLimited_spec range pending start _ hlimit hcond.2
      dsimp only
      generalize range.scanLimit (range.count - entries.length) = limit at *
      generalize range.betweenLimited pending start limit = page at *
      rw [hahead, found_append, take_append, ← append_assoc]
      split
      · next hnil =>
        subst hnil
        simp [hshort hlimit, found]
      · next hne =>
        obtain ⟨last, hlast⟩ := Option.isSome_iff_exists.mp (getLast?_isSome.mpr hne)
        have hpage := length_pos_of_ne_nil hne
        rw [hahead, length_append] at hfuel
        have hlen : (entries ++ (range.found now page).take (range.count - entries.length)).length =
            entries.length + min (range.count - entries.length) (range.found now page).length := by
          simp
        -- 足りないときは、この頁から選んだものがすべて入っている
        have hmissing : range.count - entries.length - (range.found now page).length = range.count -
            (entries ++ (range.found now page).take (range.count - entries.length)).length := by
          omega
        rw [hmissing]
        generalize entries ++ (range.found now page).take (range.count - entries.length) = entries'
          at hlen ⊢
        split
        · next hstop =>
          rcases hstop with hfull | hend
          · rw [Nat.sub_eq_zero_of_le hfull, take_zero, append_nil]
          · simp [hshort hend, found]
        · next hmore =>
          rw [hlast, Option.bind_some, ← hnext last hlast]
          have hrest := congrArg length (hnext last hlast)
          cases hsucc : streamIdSuccessor last.1 with
          | none => simp [found]
          | some next =>
            rw [hsucc, Option.elim_some] at hrest
            exact ih (by omega) (by omega)
    · next hcond =>
      rcases not_and_or.mp hcond with hfull | hpast
      · rw [Nat.sub_eq_zero_of_le (not_lt.mp hfull), take_zero, append_nil]
      · have hnil : range.ahead pending start = [] :=
          filter_eq_nil_iff.mpr fun p _ hp =>
            hpast ((of_decide_eq_true hp).1.trans (of_decide_eq_true hp).2)
        simp [hnil, found]

end PendingRange

/--
**XPENDING は範囲と条件で選んだ pending の先頭を返す。** どれだけの pending が条件から外れても、頁の loop は
終わり、返るのは id の順に先頭から `count` 個である。stream は変わらない。
-/
theorem pendingRange_exact {s : StreamSlot} (hok : s.Ok) {e : Nat} {c : StreamContent}
    (hstored : s.stored = .value e c) {name : Bytes} {state : StreamGroupState}
    (hstate : (c.groups name).state = some state) {clock : GroupClock}
    (hlive : expireDue clock.metaNow e = false ∧ expireDue clock.groupNow e = false)
    (range : PendingRange) :
    (s.streamPendingRangeFiltered clock name range).1 =
      .ok (some ((((c.groups name).pending.entries.filter fun p =>
        range.consumer.all (p.2.consumer = ·) &&
          range.minIdleMs.all (·.toNat ≤ clock.now.toNat - p.2.lastDeliveryMs.toNat) &&
          decide (range.start ≤ p.1 ∧ p.1 ≤ range.stop)).map fun p =>
        ⟨p.1, p.2.consumer, clock.now.toNat - p.2.lastDeliveryMs.toNat, p.2.deliveries⟩).take
          range.count)) ∧
      (s.streamPendingRangeFiltered clock name range).2.stored = .value e c := by
  have hv : (s.stored.upTo clock.metaNow).upTo clock.groupNow = .value e c := by
    rw [hstored]
    simp [Visible.upTo, hlive.1, hlive.2]
  have hpages := @PendingRange.pages_eq range clock.now (c.groups name).pending range.start
    ((c.groups name).pending.entries.length + 1) []
    (Nat.lt_succ_of_le (length_filter_le _ _)) (Nat.zero_le _)
  have hspec := StreamSlot.withGroup_spec hok clock name (some []) fun _ group _ =>
    .ok (range.pages clock.now group.pending (group.pending.entries.length + 1) range.start [],
      none)
  rw [hv] at hspec
  unfold StreamSlot.streamPendingRangeFiltered
  generalize s.withGroup clock name (some []) _ = out at hspec ⊢
  cases hspec with
  | noGroup s' reply _ _ _ hnone =>
    rw [groupOf_value hstate] at hnone
    cases hnone
  | failed s' e' c' state' error _ hvalue hs hb _ => cases hb
  | wrote s' e' c' state' reply group hok' hvalue hs hb hstored' => cases hb
  | quiet s' e' c' state' reply hok' hvalue hs hb hstored' =>
    cases hvalue
    cases hb
    refine ⟨?_, hstored'⟩
    rw [hpages, PendingRange.found, PendingRange.ahead, filter_filter]
    rfl

/-- consumer `a` の、5 ms より前に届いた pending のうち、先頭の一つ。 -/
theorem TwoPages.first_pending :
    (slot.streamPendingRangeFiltered ⟨0, 0, 20⟩ [0x67]
      ⟨.zero, ⟨2, 0⟩, 1, some [0x61], some 5⟩).1 = .ok (some [⟨⟨1, 0⟩, [0x61], 10, 1⟩]) :=
  (@pendingRange_exact slot slot_ok 0 ⟨⟨⟨2, 0⟩, 2, 2⟩, entries, groups⟩ rfl [0x67] ⟨⟨2, 0⟩, 2⟩ rfl
    ⟨0, 0, 20⟩ ⟨rfl, rfl⟩ _).1

end Onedis.Store
