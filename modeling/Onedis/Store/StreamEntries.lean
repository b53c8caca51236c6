import Onedis.Store.StreamRecords

/-!
# stream の entry を書く命令

XADD、XDEL、XTRIM、XSETID の写し。XADD と XDEL と XTRIM は、詰めた stream をまずそのまま書き換えようとし、
できなければ分けてから書く。XADD は、同じ key への要求をまとめて実行することがある。

二つの layout の結果は、読み手から見える `StreamContent` の上の同じ操作になる。
-/

namespace Onedis.Store

open Infra OrderedMap StreamContent List
open Codec (StreamId wrongTypeError)

/-! ## 命令 -/

/-- 一つの命令が時計を読む、二つの時刻。 -/
structure CommandClock where
  expireNow : Nat
  metaNow : Nat

/-- 一つの XADD。ID が無ければ時刻から作る。 -/
structure AddRequest where
  requestedId : Option StreamId
  fields : List (Bytes × Bytes)
  packedNow : UInt64
  splitNow : UInt64

/-- 詰めた stream に一つ加える。収まらなければ `none`。 -/
def PackedStream.addOne (p : PackedStream) (r : AddRequest) :
    Option (Except String StreamId × PackedStream) :=
  match resolveStreamId r.packedNow r.requestedId p.info.lastId with
  | .error e => some (.error e, p)
  | .ok id =>
    (pack (p.info.add id) (p.entries ++ [(id, encodeStreamEntry r.fields)])).map fun p =>
      (.ok id, p)

def PackedStream.addAll (p : PackedStream) :
    List AddRequest → Option (List (Except String StreamId) × PackedStream)
  | [] => some ([], p)
  | r :: rs =>
    (p.addOne r).bind fun out =>
      (out.2.addAll rs).map fun rest => (out.1 :: rest.1, rest.2)

/-- 分けた stream への書き込みの途中の状態。 -/
structure SplitAdd where
  counter : Nat
  stream : Option StreamMeta
  written : List (StreamId × Bytes)

/-- 一つの XADD を加える。 -/
def SplitAdd.addOne (r : AddRequest) (w : SplitAdd) : Except String StreamId × SplitAdd :=
  let opened : Nat × StreamMeta :=
    match w.stream with
    | some m => (w.counter, m)
    | none => (w.counter + 1, ⟨0, w.counter + 1, .empty⟩)
  let m := opened.2
  match resolveStreamId r.splitNow r.requestedId m.info.lastId with
  | .error e => (.error e, ⟨opened.1, some m, w.written⟩)
  | .ok id =>
    (.ok id, ⟨opened.1, some { m with info := m.info.add id },
      w.written ++ [(id, encodeStreamEntry r.fields)]⟩)

def acceptedIds (replies : List (Except String StreamId)) : List StreamId :=
  replies.filterMap Except.toOption

def encodeFailedError : String := "Failed to encode packed stream"

def noSuchKeyError : String := "ERR no such key"

namespace StreamSlot

def setPacked (s : StreamSlot) (e : Nat) (p : PackedStream) : StreamSlot :=
  { s with recs := s.recs.setMain (some (.packed e p)) }

def packedState (s : StreamSlot) : Option (Nat × PackedStream) :=
  match s.recs.main with
  | none => some (0, .empty)
  | some (.packed e p) => some (e, p)
  | _ => none

/-- `try_stream_add_batch_packed_async`。受け入れた要求がなければ何も書かない。 -/
def tryAddPacked (requests : List AddRequest) (s : StreamSlot) :
    Option (List (Except String StreamId) × StreamSlot) :=
  s.packedState.bind fun state =>
    (state.2.addAll requests).map fun out =>
      (out.1, if acceptedIds out.1 = [] then s else s.setPacked state.1 out.2)

def commitAdd (s : StreamSlot) (w : SplitAdd) : StreamSlot :=
  let s := { s with counter := w.counter }
  match w.stream with
  | some m =>
    if w.written = [] then s
    else
      let items := s.recs.items m.version
      s.putMeta m { items with entries := items.entries.putAll w.written }
  | none => s

def addSplit (now : Nat) (requests : List AddRequest) (s : StreamSlot) :
    List (Except String StreamId) × StreamSlot :=
  let read := s.streamMeta now
  match read.1 with
  | .error e => (requests.map fun _ => .error e, read.2)
  | .ok m =>
    let out := runOne SplitAdd.addOne ⟨read.2.counter, m, []⟩ requests
    (out.1, read.2.commitAdd out.2)

/-- `stream_add_batch_async` を一つの key について見たもの。 -/
def streamAdd (clock : CommandClock) (requests : List AddRequest) (s : StreamSlot) :
    List (Except String StreamId) × StreamSlot :=
  if requests = [] then ([], s)
  else
    let s := s.expire clock.expireNow
    match s.tryAddPacked requests with
    | some out => out
    | none => s.promote.addSplit clock.metaNow requests

/-- `saturating_sub` -/
def lessLength (info : StreamInfo) (deleted : Nat) : StreamInfo :=
  { info with length := UInt64.ofNat (info.length.toNat - deleted) }

/-- 分けた stream の XDEL。重ねて書かれた ID は一度だけ数える。 -/
def deleteSplit (now : Nat) (ids : List StreamId) (s : StreamSlot) :
    Except String Nat × StreamSlot :=
  let read := s.streamMeta now
  match read.1 with
  | .error e => (.error e, read.2)
  | .ok none => (.ok 0, read.2)
  | .ok (some m) =>
    let items := read.2.recs.items m.version
    let existing := ids.dedup.filter fun id => (items.entries.get id).isSome
    if existing.length = 0 then (.ok 0, read.2)
    else
      (.ok existing.length, read.2.putMeta { m with info := lessLength m.info existing.length }
        { items with entries := items.entries.filterKeys fun id => id ∉ existing })

/-- `stream_delete_async` -/
def streamDelete (clock : CommandClock) (ids : List StreamId) (s : StreamSlot) :
    Except String Nat × StreamSlot :=
  let s := s.expire clock.expireNow
  match s.recs.main with
  | none => (.ok 0, s)
  | some (.packed e p) =>
    let entries := p.entries.filter fun entry => entry.1 ∉ ids
    let deleted := p.entries.length - entries.length
    if deleted = 0 then (.ok 0, s)
    else
      match PackedStream.pack { p.info with length := UInt64.ofNat entries.length } entries with
      | some p => (.ok deleted, s.setPacked e p)
      | none => (.error encodeFailedError, s)
  | _ => s.deleteSplit clock.metaNow ids

/-- 命令ごとに消した数。前の命令が消した ID は数えない。 -/
def deleteCounts (existing : StreamId → Bool) : List (List StreamId) → List Nat
  | [] => []
  | ids :: rest => (ids.dedup.filter existing).length ::
      deleteCounts (fun id => existing id && decide (id ∉ ids)) rest

/--
`stream_delete_batch_async` を一つの key について見たもの。詰めた stream も先に分け、すべての命令の ID を
一度に消す。
-/
def streamDeleteBatch (now : Nat) (commands : List (List StreamId)) (s : StreamSlot) :
    List (Except String Nat) × StreamSlot :=
  if commands = [] then ([], s)
  else
    let read := s.promote.streamMeta now
    let replies := match read.1 with
      | .error e => commands.map fun _ => .error e
      | .ok none => commands.map fun _ => .ok 0
      | .ok (some m) =>
        let entries := (read.2.recs.items m.version).entries
        (deleteCounts (fun id => (entries.get id).isSome) commands).map .ok
    (replies, (s.promote.deleteSplit now commands.flatten).2)

/-- 分けた stream の XTRIM MAXLEN。古い entry から消す。 -/
def trimSplit (now : Nat) (maxLen : Nat) (s : StreamSlot) : Except String Nat × StreamSlot :=
  let read := s.streamMeta now
  match read.1 with
  | .error e => (.error e, read.2)
  | .ok none => (.ok 0, read.2)
  | .ok (some m) =>
    if m.info.length.toNat ≤ maxLen then (.ok 0, read.2)
    else
      let items := read.2.recs.items m.version
      let scanned := items.entries.entries.take (m.info.length.toNat - maxLen)
      (.ok scanned.length, read.2.putMeta { m with info := lessLength m.info scanned.length }
        { items with entries := items.entries.drop scanned.length })

/-- `stream_trim_maxlen_async` -/
def streamTrimMaxlen (clock : CommandClock) (maxLen : Nat) (s : StreamSlot) :
    Except String Nat × StreamSlot :=
  let s := s.expire clock.expireNow
  match s.recs.main with
  | none => (.ok 0, s)
  | some (.packed e p) =>
    if p.entries.length ≤ maxLen then (.ok 0, s)
    else
      let deleted := p.entries.length - maxLen
      let entries := p.entries.drop deleted
      match PackedStream.pack { p.info with length := UInt64.ofNat entries.length } entries with
      | some p => (.ok deleted, s.setPacked e p)
      | none => (.error encodeFailedError, s)
  | _ => s.trimSplit clock.metaNow maxLen

/-- `stream_set_id_async`。新しい id が前の id や残っている entry より大きいかは調べない。 -/
def streamSetId (now : Nat) (id : StreamId) (s : StreamSlot) : Except String Unit × StreamSlot :=
  let read := s.promote.streamMeta now
  match read.1 with
  | .error e => (.error e, read.2)
  | .ok none => (.error noSuchKeyError, read.2)
  | .ok (some m) =>
    (.ok (), read.2.putMeta { m with info := { m.info with lastId := id } }
      (read.2.recs.items m.version))

end StreamSlot

/-! ## 命令の意味 -/

namespace StreamContent

def addOne (now : AddRequest → UInt64) (r : AddRequest) (c : StreamContent) :
    Except String StreamId × StreamContent :=
  match resolveStreamId (now r) r.requestedId c.info.lastId with
  | .error e => (.error e, c)
  | .ok id => (.ok id, ⟨c.info.add id, c.entries.put id (encodeStreamEntry r.fields), c.groups⟩)

def delete (ids : List StreamId) (c : StreamContent) : Nat × StreamContent :=
  let existing := ids.dedup.filter fun id => (c.entries.get id).isSome
  (existing.length, ⟨StreamSlot.lessLength c.info existing.length,
    c.entries.filterKeys fun id => id ∉ ids, c.groups⟩)

/-- 件数が `maxLen` を超える分だけ、古い entry を除く。 -/
def trim (maxLen : Nat) (c : StreamContent) : Nat × StreamContent :=
  let deleted := min (c.info.length.toNat - maxLen) c.entries.entries.length
  (deleted, ⟨StreamSlot.lessLength c.info deleted, c.entries.drop deleted, c.groups⟩)

end StreamContent

/-- XADD の意味。`now` は、それぞれの要求が読んだ時計である。 -/
def xaddSpec (now : AddRequest → UInt64) (requests : List AddRequest) :
    Visible StreamContent → List (Except String StreamId) × Visible StreamContent
  | .foreign e raw => (requests.map fun _ => .error (foreignStreamError raw), .foreign e raw)
  | .missing =>
    let out := runOne (addOne now) .empty requests
    (out.1, if acceptedIds out.1 = [] then .missing else .value 0 out.2)
  | .value e c =>
    let out := runOne (addOne now) c requests
    (out.1, .value e out.2)

def deleteSpec (ids : List StreamId) :
    Visible StreamContent → Except String Nat × Visible StreamContent
  | .foreign e raw => (.error (foreignStreamError raw), .foreign e raw)
  | .missing => (.ok 0, .missing)
  | .value e c => (.ok (c.delete ids).1, .value e (c.delete ids).2)

def trimSpec (maxLen : Nat) :
    Visible StreamContent → Except String Nat × Visible StreamContent
  | .foreign e raw => (.error (foreignStreamError raw), .foreign e raw)
  | .missing => (.ok 0, .missing)
  | .value e c => (.ok (c.trim maxLen).1, .value e (c.trim maxLen).2)

def setIdSpec (id : StreamId) :
    Visible StreamContent → Except String Unit × Visible StreamContent
  | .foreign e raw => (.error (foreignStreamError raw), .foreign e raw)
  | .missing => (.error noSuchKeyError, .missing)
  | .value e c => (.ok (), .value e { c with info := { c.info with lastId := id } })

namespace StreamSlot

/-- 命令が働きかける中身。`direct` は、main record を読み直さずに済んだことを表す。 -/
def observed (clock : CommandClock) (direct : Bool) (s : StreamSlot) : Visible StreamContent :=
  if direct then s.stored.upTo clock.expireNow
  else (s.stored.upTo clock.expireNow).upTo clock.metaNow

end StreamSlot

/-! ## XADD -/

def PackedStream.content (p : PackedStream) : StreamContent := ⟨p.info, p.toMap, fun _ => ∅⟩

theorem PackedStream.addOne_spec {p p' : PackedStream} {r : AddRequest}
    {reply : Except String StreamId} (h : p.addOne r = some (reply, p')) :
    p.content.addOne AddRequest.packedNow r = (reply, p'.content) := by
  unfold PackedStream.addOne at h
  unfold StreamContent.addOne
  show (match resolveStreamId r.packedNow r.requestedId p.info.lastId with
    | .error e => _
    | .ok id => _) = _
  cases hid : resolveStreamId r.packedNow r.requestedId p.info.lastId with
  | error e =>
    rw [hid] at h
    cases h
    rfl
  | ok id =>
    rw [hid] at h
    obtain ⟨q, hpack, hq⟩ := Option.map_eq_some_iff.mp h
    cases hq
    obtain ⟨hinfo, hentries⟩ := pack_eq_some hpack
    have hsorted := p'.sorted
    rw [hentries] at hsorted
    have hmap : p.toMap.put id (encodeStreamEntry r.fields) = p'.toMap := by
      refine ext_entries ?_
      rw [entries_put_of_lt]
      · exact hentries.symm
      · exact fun e he => (pairwise_append.mp hsorted).2.2 e he _ (mem_singleton_self _)
    simp [PackedStream.content, hmap, hinfo]

variable {requests : List AddRequest}

theorem PackedStream.addAll_spec {p p' : PackedStream} {replies : List (Except String StreamId)}
    (h : p.addAll requests = some (replies, p')) :
    runOne (StreamContent.addOne AddRequest.packedNow) p.content requests =
      (replies, p'.content) := by
  induction requests generalizing p replies with
  | nil =>
    cases h
    rfl
  | cons r rs ih =>
    obtain ⟨⟨reply, q⟩, hone, hrest⟩ := Option.bind_eq_some_iff.mp h
    obtain ⟨⟨rest, q'⟩, hall, hout⟩ := Option.map_eq_some_iff.mp hrest
    cases hout
    simp [runOne, addOne_spec hone, ih hall]

variable {c : StreamContent}

theorem StreamContent.addOne_eq_self {now : AddRequest → UInt64}
    (h : acceptedIds (runOne (addOne now) c requests).1 = []) :
    (runOne (addOne now) c requests).2 = c := by
  induction requests generalizing c with
  | nil => rfl
  | cons r rs ih =>
    simp only [runOne, acceptedIds] at h ⊢
    cases hid : resolveStreamId (now r) r.requestedId c.info.lastId with
    | error e =>
      have hself : addOne now r c = (.error e, c) := by rw [addOne, hid]
      rw [hself] at h ⊢
      exact ih h
    | ok id =>
      have hok : (addOne now r c).1 = .ok id := by rw [addOne, hid]
      rw [hok] at h
      cases h

open AddRequest

theorem SplitAdd.run_spec (base : StreamEntries) (groups : Bytes → StreamGroup) (n : Nat)
    {requests : List AddRequest} {m : StreamMeta} {written : List (StreamId × Bytes)}
    {replies : List (Except String StreamId)} {c : StreamContent}
    (h : runOne (StreamContent.addOne AddRequest.splitNow)
      ⟨m.info, base.putAll written, groups⟩ requests = (replies, c)) :
    ∃ written', runOne addOne ⟨n, some m, written⟩ requests =
        (replies, ⟨n, some { m with info := c.info }, written'⟩) ∧
      c = ⟨c.info, base.putAll written', groups⟩ ∧
      (written' = [] ↔ written = [] ∧ acceptedIds replies = []) := by
  induction requests generalizing m written replies c with
  | nil =>
    cases h
    exact ⟨written, rfl, rfl, (and_iff_left rfl).symm⟩
  | cons r rs ih =>
    cases h
    simp only [runOne]
    cases hid : resolveStreamId r.splitNow r.requestedId m.info.lastId with
    | error e =>
      have hsplit : addOne r ⟨n, some m, written⟩ = (.error e, ⟨n, some m, written⟩) := by
        simp [addOne, hid]
      have hspec : StreamContent.addOne splitNow r
          ⟨m.info, base.putAll written, groups⟩ =
            (.error e, ⟨m.info, base.putAll written, groups⟩) := by
        simp [StreamContent.addOne, hid]
      rw [hsplit, hspec]
      obtain ⟨written', hrun, hcontent, hnil⟩ := ih rfl
      exact ⟨written', by rw [hrun], hcontent, hnil⟩
    | ok id =>
      have hsplit : addOne r ⟨n, some m, written⟩ =
          (.ok id, ⟨n, some { m with info := m.info.add id },
            written ++ [(id, encodeStreamEntry r.fields)]⟩) := by
        simp [addOne, hid]
      have hspec : StreamContent.addOne splitNow r
          ⟨m.info, base.putAll written, groups⟩ =
            (.ok id, ⟨m.info.add id, base.putAll (written ++ [(id, encodeStreamEntry r.fields)]),
              groups⟩) := by
        simp only [StreamContent.addOne, hid, putAll_append]
        rfl
      rw [hsplit, hspec]
      obtain ⟨written', hrun, hcontent, hnil⟩ :=
        @ih { m with info := m.info.add id } (written ++ [(id, encodeStreamEntry r.fields)]) _ _ rfl
      exact ⟨written', by rw [hrun], hcontent, by simp [hnil, acceptedIds, Except.toOption]⟩

namespace StreamSlot

section

variable {s : StreamSlot}

/-- 返事と見える中身が、仕様の通りである。 -/
structure Follows {ρ : Type} (out : ρ × StreamSlot) (spec : ρ × Visible StreamContent) : Prop where
  outcome : (out.1, out.2.stored) = spec
  ok : out.2.Ok

theorem Ok.setPacked (h : s.Ok) (e : Nat) (p : PackedStream) : (s.setPacked e p).Ok where
  fresh := h.fresh.setMain_packed e p
  pos hmain := by cases hmain
  zero := h.zero

theorem stored_setPacked (s : StreamSlot) (e : Nat) (p : PackedStream) :
    (s.setPacked e p).stored = .value e p.content := stored_packed rfl

theorem tryAddPacked_spec (h : s.Ok) {out : List (Except String StreamId) × StreamSlot}
    (hout : s.tryAddPacked requests = some out) :
    Follows out (xaddSpec AddRequest.packedNow requests s.stored) := by
  obtain ⟨⟨e, p⟩, hstate, hrest⟩ := Option.bind_eq_some_iff.mp hout
  obtain ⟨⟨replies, p'⟩, hall, rfl⟩ := Option.map_eq_some_iff.mp hrest
  have hrun := PackedStream.addAll_spec hall
  have hok : (if acceptedIds replies = [] then s else s.setPacked e p').Ok := by
    split
    · exact h
    · exact h.setPacked e p'
  refine ⟨?_, hok⟩
  unfold packedState at hstate
  split at hstate
  · next hmain =>
    cases hstate
    rw [stored_none hmain]
    simp only [xaddSpec]
    have hempty : PackedStream.empty.content = empty := rfl
    rw [← hempty, hrun]
    dsimp only
    split
    · rw [stored_none hmain]
    · rw [stored_setPacked]
  · next hmain =>
    cases hstate
    rw [stored_packed hmain]
    simp only [xaddSpec]
    have hcontent : (⟨p.info, p.toMap, fun _ => ∅⟩ : StreamContent) = p.content := rfl
    rw [hcontent, hrun]
    dsimp only
    split
    · next hnone =>
      have hself : (runOne (addOne packedNow) p.content requests).2 =
          p.content := addOne_eq_self (by rw [hrun]; exact hnone)
      rw [hrun] at hself
      rw [stored_packed hmain, hcontent, ← hself]
    · rw [stored_setPacked]
  · cases hstate

theorem addSplit_spec (h : s.Ok) (hsplit : ∀ e p, s.recs.main ≠ some (.packed e p)) (now : Nat)
    (hne : requests ≠ []) :
    Follows (s.addSplit now requests)
      (xaddSpec AddRequest.splitNow requests (s.stored.upTo now)) := by
  have hread := metaRead h hsplit now
  unfold addSplit
  dsimp only
  generalize s.streamMeta now = read at hread
  generalize s.stored.upTo now = v at hread
  cases hread with
  | foreign s' e raw hv hok hstored =>
    subst hv
    exact ⟨by rw [hstored]; rfl, hok⟩
  | missing s' hv hok hstored =>
    subst hv
    -- 最初の要求が、空の stream を新しい version で始める。
    have hopen : runOne SplitAdd.addOne ⟨s'.counter, none, []⟩ requests =
        runOne SplitAdd.addOne ⟨s'.counter + 1, some ⟨0, s'.counter + 1, .empty⟩, []⟩ requests := by
      cases requests with
      | nil => exact absurd rfl hne
      | cons r rs => rfl
    obtain ⟨written', hrun, hcontent, hnil⟩ := @SplitAdd.run_spec ∅ (fun _ => ∅) (s'.counter + 1)
      requests ⟨0, s'.counter + 1, .empty⟩ [] _ _ rfl
    have hempty : (⟨.empty, (∅ : StreamEntries).putAll [], fun _ => ∅⟩ : StreamContent) =
        empty := rfl
    simp only [hempty, true_and] at hrun hcontent hnil
    simp only [hopen, hrun, xaddSpec, commitAdd]
    have hok' := hok.setCounter (Nat.le_succ s'.counter)
    by_cases hwritten : written' = []
    · rw [if_pos hwritten, if_pos (hnil.mp hwritten)]
      exact ⟨congrArg (Prod.mk _) hstored, hok'⟩
    · rw [if_neg hwritten, if_neg fun hc => hwritten (hnil.mpr hc)]
      have hitems : s'.recs.items (s'.counter + 1) = ∅ := hok.fresh.items_empty (Nat.lt_succ_self _)
      refine ⟨?_, hok'.putMeta (Nat.succ_pos _) le_rfl _⟩
      rw [stored_putMeta, hcontent, hitems]
      rfl
  | value s' m items hv hok hstored hpos hle hitems _ =>
    subst hv
    obtain ⟨written', hrun, hcontent, hnil⟩ := @SplitAdd.run_spec items.entries items.groups
      s'.counter requests m [] _ _ rfl
    have hbase : items.entries.putAll [] = items.entries := rfl
    simp only [hbase, true_and] at hrun hcontent hnil
    simp only [hrun, xaddSpec, commitAdd]
    by_cases hwritten : written' = []
    · rw [if_pos hwritten]
      refine ⟨?_, hok⟩
      rw [addOne_eq_self (hnil.mp hwritten)]
      exact congrArg (Prod.mk _) hstored
    · rw [if_neg hwritten, hitems]
      refine ⟨?_, by apply Ok.putMeta hok <;> assumption⟩
      rw [stored_putMeta, hcontent]

/-- **XADD は、どちらの layout でも、見える中身に順に加える。** -/
theorem streamAdd_spec (h : s.Ok) (clock : CommandClock) (hne : requests ≠ []) :
    Follows (s.streamAdd clock requests)
      (if (tryAddPacked requests (s.expire clock.expireNow)).isSome then
        xaddSpec packedNow requests (s.observed clock true)
      else xaddSpec splitNow requests (s.observed clock false)) := by
  unfold streamAdd
  rw [if_neg hne]
  dsimp only
  have hok := h.expire clock.expireNow
  cases htry : tryAddPacked requests (s.expire clock.expireNow) with
  | some out =>
    obtain ⟨hrun, hout⟩ := tryAddPacked_spec hok htry
    exact ⟨hrun.trans (by rw [expire_stored]; rfl), hout⟩
  | none =>
    obtain ⟨hpromoted, hstored, hsplit⟩ := promote_spec hok
    obtain ⟨hrun, hout⟩ := addSplit_spec hpromoted hsplit clock.metaNow hne
    exact ⟨hrun.trans (by rw [hstored, expire_stored]; rfl), hout⟩

def addObserved (s : StreamSlot) (clock : CommandClock) (requests : List AddRequest) :
    Visible StreamContent × (AddRequest → UInt64) :=
  if requests = [] then (s.stored, packedNow)
  else if ((s.expire clock.expireNow).tryAddPacked requests).isSome then
    (s.observed clock true, packedNow)
  else (s.observed clock false, splitNow)

theorem streamAdd_observed (h : s.Ok) (clock : CommandClock) (requests : List AddRequest) :
    Follows (s.streamAdd clock requests)
      (xaddSpec (s.addObserved clock requests).2 requests (s.addObserved clock requests).1) := by
  by_cases hne : requests = []
  · subst hne
    have hnone : xaddSpec packedNow [] s.stored = ([], s.stored) := by
      cases s.stored <;> rfl
    exact ⟨hnone.symm, h⟩
  · obtain ⟨hrun, hok⟩ := streamAdd_spec h clock hne
    refine ⟨hrun.trans ?_, hok⟩
    unfold addObserved
    rw [if_neg hne]
    split <;> rfl

theorem observed_eq (s : StreamSlot) (clock : CommandClock) (direct : Bool) :
    s.observed clock direct = .missing ∨ s.observed clock direct = s.stored := by
  unfold observed
  rcases s.stored.upTo_eq clock.expireNow with h | h
  · rw [h]
    split <;> exact .inl rfl
  · rw [h]
    split
    · exact .inr rfl
    · exact s.stored.upTo_eq clock.metaNow

theorem addObserved_eq (s : StreamSlot) (clock : CommandClock) (requests : List AddRequest) :
    (s.addObserved clock requests).1 = .missing ∨ (s.addObserved clock requests).1 = s.stored := by
  unfold addObserved
  split
  · exact .inr rfl
  · split
    · exact s.observed_eq clock true
    · exact s.observed_eq clock false

/-! ## XDEL、XTRIM、XSETID -/

theorem packed_sublist (p : PackedStream) {entries : List (StreamId × Bytes)}
    (h : entries.Sublist p.entries) : ∃ p' : PackedStream,
      PackedStream.pack { p.info with length := UInt64.ofNat entries.length } entries = some p' ∧
      p'.info = lessLength p.info (p.entries.length - entries.length) ∧ p'.entries = entries := by
  obtain ⟨hcount, hlen, hadded, hsorted, hall, hsum⟩ := packedStreamFits_iff.mp p.fits
  have hshort := h.length_le
  have hlen' : (UInt64.ofNat entries.length).toNat = entries.length := by
    rw [UInt64.toNat_ofNat', Nat.mod_eq_of_lt (by omega)]
  have hless : (entries.map fun e => 20 + e.2.length).sum ≤
      (p.entries.map fun e => 20 + e.2.length).sum :=
    (h.map _).sum_le_sum fun _ _ => Nat.zero_le _
  have hfits : packedStreamFits { p.info with length := UInt64.ofNat entries.length } entries =
      true := by
    refine packedStreamFits_iff.mpr ⟨by omega, hlen', ?_, hsorted.sublist h,
      fun e he => hall e (h.subset he), by omega⟩
    rw [UInt64.le_iff_toNat_le] at hadded ⊢
    dsimp only
    omega
  refine ⟨⟨_, _, hfits⟩, by rw [PackedStream.pack, dif_pos hfits], ?_, rfl⟩
  rw [lessLength, p.length_eq, Nat.sub_sub_self hshort]

theorem delete_entries (c : StreamContent) (ids : List StreamId) :
    (c.delete ids).1 + (c.delete ids).2.entries.entries.length = c.entries.entries.length := by
  have hsplit := c.entries.length_filterKeys fun id => id ∈ ids
  have hcount := c.entries.length_filterKeys_mem ids
  have hnot : (c.entries.filterKeys fun id => !decide (id ∈ ids)) =
      c.entries.filterKeys fun id => id ∉ ids := by
    congr 1
    funext id
    simp
  rw [hcount, hnot] at hsplit
  exact hsplit

theorem lessLength_zero (info : StreamInfo) : lessLength info 0 = info := by
  unfold lessLength
  rw [Nat.sub_zero, UInt64.ofNat_toNat]

theorem delete_eq_self {ids : List StreamId} (h : (c.delete ids).1 = 0) : (c.delete ids).2 = c := by
  have hlen := delete_entries c ids
  rw [h, Nat.zero_add] at hlen
  have hentries : (c.delete ids).2.entries = c.entries :=
    ext_entries (filter_sublist.eq_of_length hlen)
  have hinfo : (c.delete ids).2.info = c.info := by
    show lessLength c.info (c.delete ids).1 = c.info
    rw [h, lessLength_zero]
  show (⟨(c.delete ids).2.info, (c.delete ids).2.entries, c.groups⟩ : StreamContent) = c
  rw [hinfo, hentries]

theorem filterKeys_existing (entries : StreamEntries) (ids : List StreamId) :
    (entries.filterKeys fun id => id ∉ ids.dedup.filter fun id => (entries.get id).isSome) =
      entries.filterKeys fun id => id ∉ ids := by
  refine ext_get fun id => ?_
  rw [get_filterKeys, get_filterKeys]
  cases hget : entries.get id with
  | none => simp
  | some value => simp [hget]

theorem deleteSplit_spec (h : s.Ok) (hsplit : ∀ e p, s.recs.main ≠ some (.packed e p)) (now : Nat)
    (ids : List StreamId) :
    Follows (s.deleteSplit now ids) (deleteSpec ids (s.stored.upTo now)) := by
  have hread := metaRead h hsplit now
  unfold deleteSplit
  dsimp only
  generalize s.streamMeta now = read at hread
  generalize s.stored.upTo now = v at hread
  cases hread with
  | foreign s' e raw hv hok hstored | missing s' hv hok hstored =>
    subst hv
    exact ⟨congrArg (Prod.mk _) hstored, hok⟩
  | value s' m items hv hok hstored hpos hle hitems _ =>
    subst hv
    dsimp only
    rw [hitems]
    have hcount : (ids.dedup.filter fun id => (items.entries.get id).isSome).length =
        ((⟨m.info, items.entries, items.groups⟩ : StreamContent).delete ids).1 := rfl
    split
    · next hzero =>
      refine ⟨?_, hok⟩
      rw [hcount] at hzero
      simp [deleteSpec, hzero, delete_eq_self hzero, hstored]
    · refine ⟨?_, by apply Ok.putMeta hok <;> assumption⟩
      rw [stored_putMeta, filterKeys_existing]
      rfl

def direct (clock : CommandClock) (s : StreamSlot) : Bool :=
  (s.expire clock.expireNow).packedState.isSome

theorem direct_cases (s : StreamSlot) (clock : CommandClock) :
    ((s.expire clock.expireNow).recs.main = none ∧ s.observed clock (s.direct clock) = .missing) ∨
    (∃ e p, (s.expire clock.expireNow).recs.main = some (.packed e p) ∧
      s.observed clock (s.direct clock) = .value e p.content) ∨
    ((s.expire clock.expireNow).recs.main ≠ none ∧
      (∀ e p, (s.expire clock.expireNow).recs.main ≠ some (.packed e p)) ∧
      s.observed clock (s.direct clock) =
        (s.expire clock.expireNow).stored.upTo clock.metaNow) := by
  unfold direct packedState observed
  rw [← expire_stored]
  generalize s.expire clock.expireNow = s'
  cases hmain : s'.recs.main with
  | none => exact .inl ⟨rfl, stored_none hmain⟩
  | some record =>
    cases record with
    | packed e p => exact .inr (.inl ⟨e, p, rfl, stored_packed hmain⟩)
    | split e v info => exact .inr (.inr ⟨by simp, by simp, rfl⟩)
    | foreign e raw => exact .inr (.inr ⟨by simp, by simp, rfl⟩)

/-- **XDEL は、名指しした entry を除く。** -/
theorem streamDelete_spec (h : s.Ok) (clock : CommandClock) (ids : List StreamId) :
    Follows (s.streamDelete clock ids) (deleteSpec ids (s.observed clock (s.direct clock))) := by
  have hok := h.expire clock.expireNow
  have hcases := s.direct_cases clock
  unfold streamDelete
  dsimp only
  generalize s.observed clock (s.direct clock) = v at hcases ⊢
  generalize s.expire clock.expireNow = s' at hok hcases ⊢
  rcases hcases with ⟨hmain, rfl⟩ | ⟨e, p, hmain, rfl⟩ | ⟨hnone, hpacked, rfl⟩
  · rw [hmain]
    exact ⟨congrArg (Prod.mk _) (stored_none hmain), hok⟩
  · rw [hmain]
    dsimp only
    have hview : s'.stored = .value e p.content := stored_packed hmain
    have hkept : (p.content.delete ids).2.entries.entries =
        p.entries.filter fun entry => entry.1 ∉ ids := rfl
    have hlen : (p.content.delete ids).1 +
        (p.entries.filter fun entry => entry.1 ∉ ids).length = p.entries.length :=
      delete_entries p.content ids
    have hdeleted : p.entries.length - (p.entries.filter fun entry => entry.1 ∉ ids).length =
        (p.content.delete ids).1 := by omega
    rw [hdeleted]
    by_cases hzero : (p.content.delete ids).1 = 0
    · rw [if_pos hzero]
      refine ⟨?_, hok⟩
      simp [deleteSpec, hzero, delete_eq_self hzero, hview]
    · rw [if_neg hzero]
      obtain ⟨p', hpack, hinfo, hentries⟩ := packed_sublist p
        (filter_sublist (p := fun entry => decide (entry.1 ∉ ids)) (l := p.entries))
      rw [hpack]
      refine ⟨?_, hok.setPacked e p'⟩
      have hcontent : p'.content = (p.content.delete ids).2 := by
        have hmap : p'.toMap = (p.content.delete ids).2.entries :=
          ext_entries (hentries.trans hkept.symm)
        rw [hdeleted] at hinfo
        simp only [PackedStream.content, hinfo, hmap]
        rfl
      simp [stored_setPacked, deleteSpec, hcontent]
  · split
    · next hmain => exact absurd hmain hnone
    · next e p hmain => exact absurd hmain (hpacked e p)
    · exact deleteSplit_spec hok hpacked clock.metaNow ids

theorem trim_eq_self {maxLen : Nat} (h : c.info.length.toNat ≤ maxLen) :
    c.trim maxLen = (0, c) := by
  have hzero : min (c.info.length.toNat - maxLen) c.entries.entries.length = 0 := by omega
  simp only [trim, hzero, lessLength_zero]
  rfl

theorem trimSplit_spec (h : s.Ok) (hsplit : ∀ e p, s.recs.main ≠ some (.packed e p)) (now : Nat)
    (maxLen : Nat) :
    Follows (s.trimSplit now maxLen) (trimSpec maxLen (s.stored.upTo now)) := by
  have hread := metaRead h hsplit now
  unfold trimSplit
  dsimp only
  generalize s.streamMeta now = read at hread
  generalize s.stored.upTo now = v at hread
  cases hread with
  | foreign s' e raw hv hok hstored | missing s' hv hok hstored =>
    subst hv
    exact ⟨congrArg (Prod.mk _) hstored, hok⟩
  | value s' m items hv hok hstored hpos hle hitems _ =>
    subst hv
    dsimp only
    rw [hitems]
    split
    · next hzero =>
      refine ⟨?_, hok⟩
      simp [trimSpec, trim_eq_self (c := ⟨m.info, items.entries, items.groups⟩) hzero, hstored]
    · refine ⟨?_, by apply Ok.putMeta hok <;> assumption⟩
      rw [stored_putMeta, length_take]
      rfl

/-- **XTRIM は、超過した分だけ古い entry を除く。** -/
theorem streamTrimMaxlen_spec (h : s.Ok) (clock : CommandClock) (maxLen : Nat) :
    Follows (s.streamTrimMaxlen clock maxLen)
      (trimSpec maxLen (s.observed clock (s.direct clock))) := by
  have hok := h.expire clock.expireNow
  have hcases := s.direct_cases clock
  unfold streamTrimMaxlen
  dsimp only
  generalize s.observed clock (s.direct clock) = v at hcases ⊢
  generalize s.expire clock.expireNow = s' at hok hcases ⊢
  rcases hcases with ⟨hmain, rfl⟩ | ⟨e, p, hmain, rfl⟩ | ⟨hnone, hpacked, rfl⟩
  · rw [hmain]
    exact ⟨congrArg (Prod.mk _) (stored_none hmain), hok⟩
  · rw [hmain]
    dsimp only
    have hview : s'.stored = .value e p.content := stored_packed hmain
    have hlen : p.content.info.length.toNat = p.entries.length := p.length_eq
    by_cases hshort : p.entries.length ≤ maxLen
    · rw [if_pos hshort]
      refine ⟨?_, hok⟩
      simp [trimSpec, trim_eq_self (c := p.content) (hlen.trans_le hshort), hview]
    · rw [if_neg hshort]
      obtain ⟨p', hpack, hinfo, hentries⟩ := packed_sublist p
        (drop_sublist (p.entries.length - maxLen) p.entries)
      rw [hpack]
      refine ⟨?_, hok.setPacked e p'⟩
      have hdeleted : min (p.info.length.toNat - maxLen) p.entries.length =
          p.entries.length - maxLen := by
        rw [p.length_eq]
        omega
      have htrim : p.content.trim maxLen = (p.entries.length - maxLen, p'.content) := by
        have hmap : p'.toMap = p.toMap.drop (p.entries.length - maxLen) := ext_entries hentries
        rw [length_drop, Nat.sub_sub_self (Nat.sub_le ..)] at hinfo
        show (min (p.info.length.toNat - maxLen) p.entries.length,
          (⟨lessLength p.info (min (p.info.length.toNat - maxLen) p.entries.length),
            p.toMap.drop (min (p.info.length.toNat - maxLen) p.entries.length),
              fun _ => ∅⟩ : StreamContent)) = _
        rw [hdeleted, ← hinfo, ← hmap]
        rfl
      simp [stored_setPacked, trimSpec, htrim]
  · split
    · next hmain => exact absurd hmain hnone
    · next e p hmain => exact absurd hmain (hpacked e p)
    · exact trimSplit_spec hok hpacked clock.metaNow maxLen

/-- **XSETID は、最後の id だけを書き換える。** -/
theorem streamSetId_spec (h : s.Ok) (now : Nat) (id : StreamId) :
    Follows (s.streamSetId now id) (setIdSpec id (s.stored.upTo now)) := by
  obtain ⟨hpromoted, hsame, hsplit⟩ := promote_spec h
  have hread := metaRead hpromoted hsplit now
  rw [hsame] at hread
  unfold streamSetId
  dsimp only
  generalize s.promote.streamMeta now = read at hread
  generalize s.stored.upTo now = v at hread
  cases hread with
  | foreign s' e raw hv hok hstored | missing s' hv hok hstored =>
    subst hv
    exact ⟨congrArg (Prod.mk _) hstored, hok⟩
  | value s' m items hv hok hstored hpos hle hitems _ =>
    subst hv
    dsimp only
    rw [hitems]
    refine ⟨?_, by apply Ok.putMeta hok <;> assumption⟩
    rw [stored_putMeta]
    rfl

end

end StreamSlot

end Onedis.Store
