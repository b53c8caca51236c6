import Mathlib.Data.Prod.Lex
import Onedis.Infra.OrderedMap
import Onedis.Store.KeyRecords
import Onedis.Store.ValueRoundtrip

/-!
# stream の record

stream は小さいうちは main record に詰め、大きくなると entry ごとの record に分ける。consumer group は分けた
stream にだけ作られる。

`StreamContent` は読み手から見える中身で、二つの layout の record はどちらもこれに読まれる。
-/

namespace Onedis.Store

open Infra KeyRecords
open Codec (StreamId wrongTypeError)

/-! ## id の順序 -/

namespace Codec.StreamId

def toPair (id : StreamId) : ℕ ×ₗ ℕ := toLex (id.ms.toNat, id.seq.toNat)

theorem toPair_injective : Function.Injective toPair := by
  intro a b h
  obtain ⟨hms, hseq⟩ := Prod.mk.inj (toLex.injective h)
  cases a
  cases b
  cases UInt64.toNat_inj.mp hms
  cases UInt64.toNat_inj.mp hseq
  rfl

instance : LinearOrder StreamId where
  __ := PartialOrder.lift toPair toPair_injective
  le_total a b := le_total a.toPair b.toPair
  toDecidableLE a b := inferInstanceAs (Decidable (a.toPair ≤ b.toPair))
  toDecidableEq := inferInstance

theorem lt_iff {a b : StreamId} : a < b ↔
    a.ms.toNat < b.ms.toNat ∨ a.ms.toNat = b.ms.toNat ∧ a.seq.toNat < b.seq.toNat :=
  Prod.Lex.toLex_lt_toLex

theorem le_iff {a b : StreamId} : a ≤ b ↔
    a.ms.toNat < b.ms.toNat ∨ a.ms.toNat = b.ms.toNat ∧ a.seq.toNat ≤ b.seq.toNat :=
  Prod.Lex.toLex_le_toLex

theorem lt_eq_decide (a b : StreamId) : a.lt b = decide (a < b) := by
  rw [Bool.eq_iff_iff, decide_eq_true_eq, lt_iff]
  simp [StreamId.lt, UInt64.lt_iff_toNat_lt, UInt64.toNat_inj]

/-- `0-0` -/
def zero : StreamId := ⟨0, 0⟩

theorem zero_le (id : StreamId) : zero ≤ id := by
  rw [le_iff]
  simp only [zero, UInt64.toNat_zero]
  omega

end Codec.StreamId

/-! ## XADD の id -/

/-- `u64::MAX` -/
def u64Max : UInt64 := 18446744073709551615

/-- `next_stream_id`。同じ時刻には連番を進め、連番の上限では進まない。 -/
def nextStreamId (now : UInt64) (lastId : StreamId) : StreamId :=
  if lastId.ms < now then ⟨now, 0⟩
  else ⟨lastId.ms, if lastId.seq = u64Max then u64Max else lastId.seq + 1⟩

def Saturated (now : UInt64) (lastId : StreamId) : Prop := now ≤ lastId.ms ∧ lastId.seq = u64Max

instance (now : UInt64) (lastId : StreamId) : Decidable (Saturated now lastId) :=
  inferInstanceAs (Decidable (_ ∧ _))

theorem lt_nextStreamId_iff {now : UInt64} {lastId : StreamId} :
    lastId < nextStreamId now lastId ↔ ¬ Saturated now lastId := by
  unfold nextStreamId Saturated
  rw [StreamId.lt_iff, UInt64.le_iff_toNat_le]
  by_cases hnow : lastId.ms < now
  · rw [UInt64.lt_iff_toNat_lt] at hnow
    rw [if_pos (UInt64.lt_iff_toNat_lt.mpr hnow)]
    exact iff_of_true (.inl hnow) fun h => absurd h.1 (not_le.mpr hnow)
  · rw [if_neg hnow]
    rw [UInt64.lt_iff_toNat_lt] at hnow
    by_cases hseq : lastId.seq = u64Max
    · rw [if_pos hseq]
      refine iff_of_false ?_ fun h => h ⟨not_lt.mp hnow, hseq⟩
      rw [← hseq]
      simp
    · rw [if_neg hseq]
      refine iff_of_true (.inr ⟨rfl, ?_⟩) fun h => hseq h.2
      have hlt : lastId.seq.toNat < u64Max.toNat := by
        refine lt_of_le_of_ne ?_ fun h => hseq (UInt64.toNat_inj.mp h)
        exact Nat.le_of_lt_succ lastId.seq.toNat_lt
      have hmax : u64Max.toNat = 2 ^ 64 - 1 := rfl
      rw [UInt64.toNat_add]
      show lastId.seq.toNat < (lastId.seq.toNat + 1) % 2 ^ 64
      rw [Nat.mod_eq_of_lt (by omega)]
      exact Nat.lt_succ_self _

def zeroIdError : String := "ERR The ID specified in XADD must be greater than 0-0"

def smallIdError : String :=
  "ERR The ID specified in XADD is equal or smaller than the target stream top item"

/-- `validate_and_resolve_stream_id` -/
def resolveStreamId (now : UInt64) (requested : Option StreamId) (lastId : StreamId) :
    Except String StreamId :=
  match requested with
  | some id =>
    if id.ms = 0 ∧ id.seq = 0 then .error zeroIdError
    else if id ≤ lastId then .error smallIdError
    else .ok id
  | none => .ok (nextStreamId now lastId)

theorem lt_of_resolveStreamId {now : UInt64} {requested : Option StreamId} {lastId id : StreamId}
    (h : resolveStreamId now requested lastId = .ok id)
    (hroom : requested = none → ¬ Saturated now lastId) : lastId < id := by
  cases requested with
  | none =>
    cases h
    exact lt_nextStreamId_iff.mpr (hroom rfl)
  | some id' =>
    simp only [resolveStreamId] at h
    split at h
    · cases h
    · split at h
      · cases h
      · next hle =>
        cases h
        exact not_le.mp hle

/-! ## 引数の id -/

/-- `u64` の `parse`。先頭の `+` を許す。 -/
def parseU64 (text : Bytes) : Option UInt64 :=
  let digits := if text.head? = some 0x2b then text.tail else text
  if digits = [] then none
  else (parseDigits digits 0).bind fun n => if n < 2 ^ 64 then some (UInt64.ofNat n) else none

/-- `parse_stream_id`。最初の `-` で分ける。`-` がなければ失敗する。 -/
def parseStreamId (text : Bytes) : Option StreamId :=
  match text.dropWhile (· != 0x2d) with
  | [] => none
  | _ :: seq => do
    return ⟨← parseU64 (text.takeWhile (· != 0x2d)), ← parseU64 seq⟩

def invalidIdError : String := "ERR Invalid stream ID specified as stream command argument"

/-- XADD の id の引数。`*` は自動の id を表す。 -/
def parseXaddId (text : Bytes) : Except String (Option StreamId) :=
  if text = [0x2a] then .ok none
  else
    match parseStreamId text with
    | some id => .ok (some id)
    | none => .error invalidIdError

/-- `encode_stream_entry` -/
def encodeStreamEntry (fields : List (Bytes × Bytes)) : Bytes :=
  toBe 4 fields.length ++ fields.flatMap fun (field, value) =>
    toBe 4 field.length ++ (field ++ (toBe 4 value.length ++ value))

/-! ## record -/

/-- stream の最後の ID、長さ、加えた数。 -/
structure StreamInfo where
  lastId : StreamId
  length : UInt64
  entriesAdded : UInt64
  deriving DecidableEq

namespace StreamInfo

def empty : StreamInfo := ⟨.zero, 0, 0⟩

def add (info : StreamInfo) (id : StreamId) : StreamInfo :=
  ⟨id, info.length + 1, info.entriesAdded + 1⟩

end StreamInfo

abbrev StreamEntries := OrderedMap StreamId Bytes

/-- `encode_packed_stream` が成功するか。期限は関係しない。 -/
def packedStreamFits (info : StreamInfo) (entries : List (StreamId × Bytes)) : Bool :=
  (Codec.encodePackedStream ⟨0, 0, info.lastId, info.length, info.entriesAdded⟩ entries).isSome

variable {lastId : StreamId} {entries : List (StreamId × Bytes)}

theorem streamItemOk_order {previous : Option StreamId} {e : StreamId × Bytes} :
    Codec.StreamItemOk lastId previous e ↔ e.1 ≤ lastId ∧ (∀ p, previous = some p → p < e.1) ∧
      (Codec.decodeStreamEntry e.2).isSome = true ∧ e.2.length < 256 ^ 4 := by
  simp only [Codec.streamItemOk_iff, Codec.streamIdInOrder, StreamId.lt_eq_decide,
    Option.all_eq_true, Bool.and_eq_true, Bool.not_eq_true', decide_eq_true_eq,
    decide_eq_false_iff_not, not_lt, and_assoc]
  tauto

theorem streamSteps_iff {s : Option StreamId × List (StreamId × Bytes)} :
    (∃ last, Reader.Steps (Codec.StreamStep lastId) entries s (last, s.2 ++ entries)) ↔
      entries.Pairwise (fun a b => a.1 < b.1) ∧
        ∀ e ∈ entries, e.1 ≤ lastId ∧ (∀ p, s.1 = some p → p < e.1) ∧
          (Codec.decodeStreamEntry e.2).isSome = true ∧ e.2.length < 256 ^ 4 := by
  induction entries generalizing s with
  | nil => exact iff_of_true ⟨s.1, by rw [List.append_nil]; rfl⟩ (by simp)
  | cons e rest ih =>
    rw [Codec.streamSteps_cons, @ih (some e.1, s.2 ++ [e]), streamItemOk_order, List.pairwise_cons,
      List.forall_mem_cons]
    constructor
    · rintro ⟨hhead, hsorted, hrest⟩
      refine ⟨⟨fun e he => (hrest e he).2.1 _ rfl, hsorted⟩, hhead, fun e he => ?_⟩
      obtain ⟨hle, hlt, hrest⟩ := hrest e he
      exact ⟨hle, fun p hp => (hhead.2.1 p hp).trans (hlt _ rfl), hrest⟩
    · rintro ⟨⟨hlt, hsorted⟩, hhead, hrest⟩
      refine ⟨hhead, hsorted, fun e he => ?_⟩
      obtain ⟨hle, -, hrest⟩ := hrest e he
      exact ⟨hle, fun p hp => Option.some.inj hp ▸ hlt e he, hrest⟩

variable {info : StreamInfo}

theorem packedStreamFits_iff :
    packedStreamFits info entries = true ↔
      entries.length ≤ 32 ∧ info.length.toNat = entries.length ∧
        info.length ≤ info.entriesAdded ∧ entries.Pairwise (fun a b => a.1 < b.1) ∧
        (∀ e ∈ entries, e.1 ≤ info.lastId ∧ (Codec.decodeStreamEntry e.2).isSome = true ∧
          e.2.length < 256 ^ 4) ∧
        55 + (entries.map fun e => 20 + e.2.length).sum ≤ 8192 := by
  have hcount : entries.length ≤ 32 →
      (info.length = UInt64.ofNat entries.length ↔ info.length.toNat = entries.length) := by
    intro hle
    rw [← UInt64.toNat_inj, UInt64.toNat_ofNat', Nat.mod_eq_of_lt (by omega)]
  have hsteps := @streamSteps_iff info.lastId entries (none, [])
  simp only [reduceCtorEq, false_imp_iff, implies_true, true_and] at hsteps
  rw [packedStreamFits, Option.isSome_iff_exists]
  constructor
  · rintro ⟨raw, h⟩
    obtain ⟨⟨hle, hlen, hadded⟩, ⟨hstep, hsum⟩, -⟩ := Codec.encodePackedStream_iff.mp h
    obtain ⟨hsorted, hall⟩ := hsteps.mp hstep
    exact ⟨hle, (hcount hle).mp hlen, hadded, hsorted, hall, hsum⟩
  · rintro ⟨hle, hlen, hadded, hsorted, hall, hsum⟩
    exact ⟨_, Codec.encodePackedStream_iff.mpr ⟨⟨hle, (hcount hle).mpr hlen, hadded⟩,
      ⟨hsteps.mpr ⟨hsorted, hall⟩, hsum⟩, rfl⟩⟩

/-- 一つの record に詰めた stream。上限に収まる。 -/
structure PackedStream where
  info : StreamInfo
  entries : List (StreamId × Bytes)
  fits : packedStreamFits info entries = true

namespace PackedStream

/-- `encode_packed_stream` -/
def pack (info : StreamInfo) (entries : List (StreamId × Bytes)) : Option PackedStream :=
  if h : packedStreamFits info entries then some ⟨info, entries, h⟩ else none

def empty : PackedStream := ⟨.empty, [], rfl⟩

theorem pack_eq_some {p : PackedStream} (h : pack info entries = some p) :
    p.info = info ∧ p.entries = entries := by
  unfold pack at h
  split at h
  · cases h
    exact ⟨rfl, rfl⟩
  · cases h

section

variable (p : PackedStream)

theorem sorted : p.entries.Pairwise fun a b => a.1 < b.1 := (packedStreamFits_iff.mp p.fits).2.2.2.1

theorem length_eq : p.info.length.toNat = p.entries.length := (packedStreamFits_iff.mp p.fits).2.1

end

def toMap (p : PackedStream) : StreamEntries := ⟨p.entries, p.sorted⟩

end PackedStream

/-- group の record。最後に配った ID を持つ。 -/
structure StreamGroupState where
  lastDeliveredId : StreamId
  entriesRead : UInt64
  deriving DecidableEq

/-- pending の entry の持ち主、配った時刻、配った回数。 -/
structure StreamPelState where
  consumer : Bytes
  lastDeliveryMs : UInt64
  deliveries : UInt64
  deriving DecidableEq

/-- 一つの group の record。 -/
structure StreamGroup where
  state : Option StreamGroupState
  pending : OrderedMap StreamId StreamPelState
  consumers : Bytes → Option UInt64

instance : EmptyCollection StreamGroup := ⟨⟨none, ∅, fun _ => none⟩⟩

structure StreamItems where
  entries : StreamEntries
  groups : Bytes → StreamGroup

instance : EmptyCollection StreamItems := ⟨⟨∅, fun _ => ∅⟩⟩

abbrev StreamMain := MainRecord PackedStream StreamInfo

abbrev StreamRecords := KeyRecords PackedStream StreamInfo StreamItems

/-- `decode_stream_meta` の結果。詰めた stream の version は 0 である。 -/
structure StreamMeta where
  expireMs : Nat
  version : Nat
  info : StreamInfo

def streamDecodeError : String := "Failed to decode stream metadata"

/-- stream として読めない record を `stream_meta_async` が読んだときの失敗。 -/
def foreignStreamError (raw : Bytes) : String :=
  match decodeMetaHeader raw with
  | some hdr => if hdr.typeTag ≠ TypeTag.stream.code then wrongTypeError else streamDecodeError
  | none => streamDecodeError

/-- 一つの stream の record と、version の counter。 -/
structure StreamSlot where
  recs : StreamRecords
  counter : Nat

namespace StreamSlot

/-- `expire_if_needed_async` -/
def expire (now : Nat) (s : StreamSlot) : StreamSlot :=
  { s with recs := s.recs.expireIfNeeded now }

/-- `StreamMeta` と、その version の sub record を書く。 -/
def putMeta (s : StreamSlot) (m : StreamMeta) (items : StreamItems) : StreamSlot :=
  let record : StreamMain := .split m.expireMs m.version m.info
  ⟨(s.recs.setItems m.version items).setMain (some record), s.counter⟩

/-- `promote_packed_stream_async`。期限は調べない。 -/
def promote (s : StreamSlot) : StreamSlot :=
  match s.recs.main with
  | some (.packed e p) =>
    let ver := s.counter + 1
    let items := s.recs.items ver
    { s with counter := ver }.putMeta ⟨e, ver, p.info⟩
      { items with entries := items.entries.putAll p.entries }
  | _ => s

/-- `stream_meta_async` -/
def streamMeta (now : Nat) (s : StreamSlot) : Except String (Option StreamMeta) × StreamSlot :=
  let s := s.expire now
  match s.recs.main with
  | none => (.ok none, s)
  | some (.foreign _ raw) => (.error (foreignStreamError raw), s)
  | some (.packed e p) => (.ok (some ⟨e, 0, p.info⟩), s)
  | some (.split e v info) => (.ok (some ⟨e, v, info⟩), s)

end StreamSlot

/-! ## 見える中身 -/

/-- 読み手から見える stream。 -/
structure StreamContent where
  info : StreamInfo
  entries : StreamEntries
  groups : Bytes → StreamGroup

def StreamContent.empty : StreamContent := ⟨.empty, ∅, fun _ => ∅⟩

def streamLayout : Layout PackedStream StreamInfo StreamItems StreamContent :=
  ⟨fun p => ⟨p.info, p.toMap, fun _ => ∅⟩, fun info items => ⟨info, items.entries, items.groups⟩⟩

theorem expireDue_at_zero (e : Nat) : expireDue 0 e = false := by
  unfold expireDue
  cases e with
  | zero => rfl
  | succ e => simp

namespace StreamSlot

def stored (s : StreamSlot) : Visible StreamContent := s.recs.view streamLayout 0

/-- まだ配っていない version と、詰めた stream を表す version 0 には sub record がない。 -/
structure Ok (s : StreamSlot) : Prop where
  fresh : s.recs.Fresh s.counter
  pos : ∀ {e v info}, s.recs.main = some (.split e v info) → 0 < v
  zero : s.recs.items 0 = ∅

section

variable {s : StreamSlot}

theorem stored_none (h : s.recs.main = none) : s.stored = .missing := view_missing h

theorem stored_foreign {e : Nat} {raw : Bytes} (h : s.recs.main = some (.foreign e raw)) :
    s.stored = .foreign e raw := view_foreign h (expireDue_at_zero e)

theorem stored_packed {e : Nat} {p : PackedStream} (h : s.recs.main = some (.packed e p)) :
    s.stored = .value e ⟨p.info, p.toMap, fun _ => ∅⟩ :=
  view_packed h (expireDue_at_zero e)

theorem stored_split {e v : Nat} (h : s.recs.main = some (.split e v info)) :
    s.stored = .value e ⟨info, (s.recs.items v).entries, (s.recs.items v).groups⟩ :=
  view_split h (expireDue_at_zero e)

@[simp] theorem expire_stored (now : Nat) (s : StreamSlot) :
    (s.expire now).stored = s.stored.upTo now := by
  have hview : (s.recs.expireIfNeeded now).view streamLayout now = s.stored.upTo now := by
    rw [view_expireIfNeeded, view_upTo (Nat.zero_le now)]
    rfl
  rw [← hview]
  have hunexpired := unexpired_expireIfNeeded now s.recs
  show (s.recs.expireIfNeeded now).view streamLayout 0 = _
  generalize s.recs.expireIfNeeded now = recs at hunexpired
  cases hmain : recs.main with
  | none => rw [view_missing hmain, view_missing hmain]
  | some record =>
    have hdue := hunexpired record hmain
    cases record with
    | packed e p => rw [view_packed hmain hdue, view_packed hmain (expireDue_at_zero e)]
    | split e v info => rw [view_split hmain hdue, view_split hmain (expireDue_at_zero e)]
    | foreign e raw => rw [view_foreign hmain hdue, view_foreign hmain (expireDue_at_zero e)]

theorem Ok.expire (h : s.Ok) (now : Nat) : (s.expire now).Ok where
  fresh := h.fresh.expireIfNeeded now
  pos hmain := by
    have hlive : s.recs.live now = some _ :=
      (KeyRecords.expireIfNeeded_main now s.recs).symm.trans hmain
    exact h.pos (live_eq_some.mp hlive).1
  zero := by
    show (s.recs.expireIfNeeded now).items 0 = ∅
    unfold expireIfNeeded delete
    split
    · split
      · split
        · next hmain => exact (setItems_items_of_ne (h.pos hmain).ne _ _).trans h.zero
        · exact h.zero
      · exact h.zero
    · exact h.zero

theorem Ok.putMeta (h : s.Ok) {m : StreamMeta} (hpos : 0 < m.version)
    (hle : m.version ≤ s.counter) (items : StreamItems) : (s.putMeta m items).Ok where
  fresh := (h.fresh.setItems hle _).setMain_split hle _ _
  pos hmain := by
    cases hmain
    exact hpos
  zero := (setItems_items_of_ne hpos.ne _ _).trans h.zero

@[simp] theorem stored_putMeta (s : StreamSlot) (m : StreamMeta) (items : StreamItems) :
    (s.putMeta m items).stored = .value m.expireMs ⟨m.info, items.entries, items.groups⟩ :=
  view_setSplit (expireDue_at_zero _) _ _ _

theorem Ok.setCounter (h : s.Ok) {counter : Nat} (hle : s.counter ≤ counter) :
    Ok { s with counter := counter } where
  fresh := h.fresh.mono hle
  pos hmain := h.pos hmain
  zero := h.zero

theorem putAll_empty (p : PackedStream) : (∅ : StreamEntries).putAll p.entries = p.toMap :=
  OrderedMap.ext_entries (OrderedMap.entries_putAll_of_sorted ∅ p.sorted)

theorem promote_spec (h : s.Ok) : s.promote.Ok ∧ s.promote.stored = s.stored ∧
    ∀ e p, s.promote.recs.main ≠ some (.packed e p) := by
  unfold promote
  split
  · next e p hmain =>
    have hfresh : s.recs.items (s.counter + 1) = ∅ := h.fresh.items_empty (Nat.lt_succ_self _)
    refine ⟨(h.setCounter (Nat.le_succ _)).putMeta (Nat.succ_pos _) le_rfl _, ?_, ?_⟩
    · rw [stored_putMeta, stored_packed hmain, hfresh]
      exact congrArg (fun m => Visible.value e (StreamContent.mk p.info m fun _ => ∅))
        (putAll_empty p)
    · intro e' p' hmain'
      cases hmain'
  · next hnot => exact ⟨h, rfl, hnot⟩

/-- `stream_meta_async` の結果。詰めた stream は先に分けてあるものとする。 -/
inductive MetaRead (v : Visible StreamContent) :
    Except String (Option StreamMeta) × StreamSlot → Prop
  | missing (s : StreamSlot) (hv : v = .missing) (hok : s.Ok) (hstored : s.stored = v) :
      MetaRead v (.ok none, s)
  | foreign (s : StreamSlot) (e : Nat) (raw : Bytes) (hv : v = .foreign e raw) (hok : s.Ok)
      (hstored : s.stored = v) : MetaRead v (.error (foreignStreamError raw), s)
  | value (s : StreamSlot) (m : StreamMeta) (items : StreamItems)
      (hv : v = .value m.expireMs ⟨m.info, items.entries, items.groups⟩) (hok : s.Ok)
      (hstored : s.stored = v) (hpos : 0 < m.version) (hle : m.version ≤ s.counter)
      (hitems : s.recs.items m.version = items)
      (hmain : s.recs.main = some (.split m.expireMs m.version m.info)) :
      MetaRead v (.ok (some m), s)

theorem metaRead (h : s.Ok) (hsplit : ∀ e p, s.recs.main ≠ some (.packed e p)) (now : Nat) :
    MetaRead (s.stored.upTo now) (s.streamMeta now) := by
  have hok := h.expire now
  have hstored := s.expire_stored now
  have hnot : ∀ e p, (s.expire now).recs.main ≠ some (.packed e p) := by
    intro e p hmain
    have hlive : s.recs.live now = some _ :=
      (KeyRecords.expireIfNeeded_main now s.recs).symm.trans hmain
    exact hsplit e p (live_eq_some.mp hlive).1
  unfold streamMeta
  dsimp only
  generalize s.expire now = s' at hok hstored hnot
  split
  · next hmain => exact .missing s' (hstored ▸ stored_none hmain) hok hstored
  · next e raw hmain => exact .foreign s' e raw (hstored ▸ stored_foreign hmain) hok hstored
  · next e p hmain => exact absurd hmain (hnot e p)
  · next e v info hmain =>
    exact .value s' ⟨e, v, info⟩ _ (hstored ▸ stored_split hmain) hok hstored (hok.pos hmain)
      (hok.fresh.version_le hmain) rfl hmain

end

end StreamSlot

end Onedis.Store
