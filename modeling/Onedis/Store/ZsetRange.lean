import Onedis.Store.ZsetIndex

/-!
# zset の範囲の読み出し

score の範囲は rank record の、辞書式の範囲は member record の区間の走査で読む。packed layout では本体を並べて
から条件で選ぶ。

* `scoreScan_exact` — score の区間は正確で、読み出しは layout によらない
* `lexScan_exact` — 辞書式の区間についての同じ事実
-/

namespace Onedis.Store

open Infra F64 List Option Bool
open Codec

/-! ## record の key -/

def indexMarkerValue : Bytes := [1]

section

variable (layout : KeyEncodingLayout) (db : Nat) (k : Owner) (ver : Nat)

def zsetMemberPrefix : Bytes := layout.subKeyRangeStartBytes db .zsetMember k.bytes ver

def zsetMemberKey (member : Bytes) : Bytes := zsetMemberPrefix layout db k ver ++ member

def zsetRankPrefix : Bytes := layout.subKeyRangeStartBytes db .zsetRank k.bytes ver

/-- score を符号化した 8 byte と member を、`0x00` で区切って並べる。 -/
def rankSuffix (a : Text × Score) : Bytes := beU64 (encodeSortedF64 a.2.bits) ++ 0x00 :: a.1.bytes

def zsetRankKey (a : Text × Score) : Bytes := zsetRankPrefix layout db k ver ++ rankSuffix a

def memberRecord (a : Text × Score) : Bytes × Bytes :=
  (zsetMemberKey layout db k ver a.1.bytes, beU64 a.2.bits)

def rankRecord (a : Text × Score) : Bytes × Bytes :=
  (zsetRankKey layout db k ver a, indexMarkerValue)

def Text.ofBytes? (bytes : Bytes) : Option Text :=
  if h : validUtf8 bytes = true ∧ bytes.length < 256 ^ 8 then some ⟨bytes, h.1, h.2⟩ else none

@[simp] theorem Text.ofBytes?_bytes (t : Text) : Text.ofBytes? t.bytes = some t :=
  dif_pos ⟨t.valid, t.lengthLt⟩

def decodeRankMember (rankKey : Bytes) : Option Text := do
  let suffix ← (zsetRankPrefix layout db k ver).isPrefixOf? rankKey
  if suffix.length < 9 ∨ suffix[8]? ≠ some 0x00 then none
  else Text.ofBytes? (suffix.drop 9)

def decodeRankScore (rankKey : Bytes) : Option UInt64 := do
  let suffix ← (zsetRankPrefix layout db k ver).isPrefixOf? rankKey
  if suffix.length < 9 then none
  else some (decodeSortedF64 (UInt64.ofNat (ofBe (suffix.take 8))))

def decodeRankEntry (r : Bytes × Bytes) : Option (Text × UInt64) := do
  let member ← decodeRankMember layout db k ver r.1
  let score ← decodeRankScore layout db k ver r.1
  return (member, score)

def decodeZsetScore (raw : Bytes) : Option UInt64 :=
  if raw.length = 8 then some (UInt64.ofNat (ofBe raw)) else none

def decodeMemberEntry (r : Bytes × Bytes) : Option (Text × UInt64) := do
  let member ← (zsetMemberPrefix layout db k ver).isPrefixOf? r.1
  let member ← Text.ofBytes? member
  let score ← decodeZsetScore r.2
  return (member, score)

/-! ## 範囲の条件 -/

def scanWindow : Option (Int64 × Int64) → Option (Nat × Nat)
  | none => some (0, 2 ^ 64 - 1)
  | some (offset, count) =>
    if offset < 0 ∨ count = 0 then none
    else
      let offset := offset.toInt.toNat
      some (offset,
        if count < 0 then 2 ^ 64 - 1 else min (offset + count.toInt.toNat) (2 ^ 64 - 1))

def zsetScoreScanWindow : Option (Int64 × Int64) → Option (Nat × Nat) := scanWindow

def zsetRangeScanWindow : Option (Int64 × Int64) → Option (Nat × Nat) := scanWindow

/-- score の範囲。両端の score は bit 列で持つ。 -/
structure ScoreRange where
  min : UInt64
  minInclusive : Bool
  max : UInt64
  maxInclusive : Bool

def ScoreRange.contains (r : ScoreRange) (score : UInt64) : Bool :=
  (lt r.min score || r.minInclusive && eq score r.min) &&
    (lt score r.max || r.maxInclusive && eq score r.max)

/-- 辞書式の範囲の端。 -/
inductive LexBound
  | negInfinity
  | posInfinity
  | value (value : Bytes) (inclusive : Bool)
  deriving DecidableEq

def LexBound.above : LexBound → Bytes → Bool
  | .negInfinity, _ => true
  | .posInfinity, _ => false
  | .value bound inclusive, member => bytesLt bound member || inclusive && member == bound

def LexBound.below : LexBound → Bytes → Bool
  | .posInfinity, _ => true
  | .negInfinity, _ => false
  | .value bound inclusive, member => bytesLt member bound || inclusive && member == bound

def zsetMemberInLexRange (member : Bytes) (min max : LexBound) : Bool :=
  min.above member && max.below member

/-! ## 区間 -/

def encodingBound (bound : UInt64) (low : Bool) : UInt64 :=
  if eq bound posZero && low then negZero
  else if eq bound posZero then posZero
  else bound

def scoreLower (rankPrefix : Bytes) (r : ScoreRange) : Option Bytes :=
  let minPrefix := rankPrefix ++ beU64 (encodeSortedF64 (encodingBound r.min r.minInclusive))
  if r.minInclusive then some minPrefix else upperBound minPrefix

def scoreUpper (rankPrefix : Bytes) (r : ScoreRange) : Option Bytes :=
  let maxPrefix := rankPrefix ++ beU64 (encodeSortedF64 (encodingBound r.max (!r.maxInclusive)))
  if r.maxInclusive then upperBound maxPrefix else some maxPrefix

def zsetScoreScanBounds (r : ScoreRange) : Option (Bytes × Option Bytes) :=
  if isNan r.min || isNan r.max || lt r.max r.min ||
      (eq r.min r.max && (!r.minInclusive || !r.maxInclusive)) then none
  else
    let rankPrefix := zsetRankPrefix layout db k ver
    (scoreLower rankPrefix r).map fun lower => (lower, scoreUpper rankPrefix r)

def lexLower (memberPrefix : Bytes) : LexBound → Option Bytes
  | .negInfinity => some memberPrefix
  | .posInfinity => none
  | .value bound inclusive => some (memberPrefix ++ (bound ++ if inclusive then [] else [0]))

def lexUpper (memberPrefix : Bytes) : LexBound → Option (Option Bytes)
  | .posInfinity => some (upperBound memberPrefix)
  | .negInfinity => none
  | .value bound inclusive => some (some (memberPrefix ++ (bound ++ if inclusive then [0] else [])))

def zsetLexScanBounds (min max : LexBound) : Option (Bytes × Option Bytes) := do
  let memberPrefix := zsetMemberPrefix layout db k ver
  let lower ← lexLower memberPrefix min
  let upper ← lexUpper memberPrefix max
  if upper.any fun upper => !bytesLt lower upper then none else some (lower, upper)

end

/-! ## 読み出し -/

/-- 読んだ main record。 -/
inductive ZsetBody
  | packed (scores : Scores)
  | split (ver : Nat)

structure ZsetScoreWindow where
  range : ScoreRange
  reverse : Bool
  limit : Option (Int64 × Int64)

structure ZsetLexWindow where
  min : LexBound
  max : LexBound
  reverse : Bool
  limit : Option (Int64 × Int64)

def cutWindow (entries : List (Text × Score)) (reverse : Bool) (offset scanLimit : Nat) :
    List (Text × UInt64) :=
  (((if reverse then entries.reverse else entries).drop offset).take (scanLimit - offset)).map
    fun a => (a.1, a.2.bits)

def TextLe (t t' : Text) : Prop := BytesLe t.bytes t'.bytes

instance : DecidableRel TextLe := fun t t' =>
  inferInstanceAs (Decidable (BytesLe t.bytes t'.bytes))

instance : Std.Total TextLe where
  total t t' := Std.Total.total (r := BytesLe) t.bytes t'.bytes

instance : Std.Antisymm TextLe where
  antisymm _ _ h h' := Text.ext_bytes (eq_of_not_bytesLt h' h)

instance : IsTrans Text TextLe where
  trans _ _ _ h h' := IsTrans.trans (r := BytesLe) _ _ _ h h'

def membersInOrder (scores : Scores) : List (Text × Score) :=
  (scores.keys.sort TextLe).filterMap fun m => (scores.lookup m).map fun s => (m, s)

section

variable (t : Table) (layout : KeyEncodingLayout) (db : Nat) (k : Owner)

/-- 区間を走査し、`offset` 個を飛ばして読み戻す。 -/
def readWindow (decode : Bytes × Bytes → Option (Text × UInt64)) (reverse : Bool)
    (offset scanLimit : Nat) : Option (Bytes × Option Bytes) → List (Text × UInt64)
  | none => []
  | some (lower, upper) =>
    ((t.scanRangeLimited lower upper reverse scanLimit).drop offset).filterMap decode

def countRange : Option (Bytes × Option Bytes) → Nat
  | none => 0
  | some (lower, upper) => (t.scanRange lower upper).length

/-- `body` は key の種別を確かめた結果である。key が無ければ空を返す。 -/
def zsetRangeByScoreWindow (body : Except Bytes (Option ZsetBody)) (w : ZsetScoreWindow) :
    Except Bytes (List (Text × UInt64)) :=
  match zsetScoreScanWindow w.limit with
  | none => .ok []
  | some (offset, scanLimit) =>
    body.map fun
      | none => []
      | some (.packed scores) =>
        cutWindow ((ranked scores.pairs).filter fun a => w.range.contains a.2.bits)
          w.reverse offset scanLimit
      | some (.split ver) =>
        readWindow t (decodeRankEntry layout db k ver) w.reverse offset scanLimit
          (zsetScoreScanBounds layout db k ver w.range)

def zsetCountBounded (body : Except Bytes (Option ZsetBody)) (r : ScoreRange) :
    Except Bytes Nat :=
  body.map fun
    | none => 0
    | some (.packed scores) => ((ranked scores.pairs).filter fun a => r.contains a.2.bits).length
    | some (.split ver) => countRange t (zsetScoreScanBounds layout db k ver r)

def zsetRangeByLexWindow (body : Except Bytes (Option ZsetBody)) (w : ZsetLexWindow) :
    Except Bytes (List (Text × UInt64)) :=
  match zsetRangeScanWindow w.limit with
  | none => .ok []
  | some (offset, scanLimit) =>
    body.map fun
      | none => []
      | some (.packed scores) =>
        cutWindow ((membersInOrder scores).filter fun a =>
          zsetMemberInLexRange a.1.bytes w.min w.max) w.reverse offset scanLimit
      | some (.split ver) =>
        readWindow t (decodeMemberEntry layout db k ver) w.reverse offset scanLimit
          (zsetLexScanBounds layout db k ver w.min w.max)

def zsetLexCount (body : Except Bytes (Option ZsetBody)) (min max : LexBound) :
    Except Bytes Nat :=
  body.map fun
    | none => 0
    | some (.packed scores) =>
      ((membersInOrder scores).filter fun a => zsetMemberInLexRange a.1.bytes min max).length
    | some (.split ver) => countRange t (zsetLexScanBounds layout db k ver min max)

/-- この owner と version の record は、`scores` の record だけである。 -/
structure HoldsZset (ver : Nat) (scores : Scores) : Prop where
  member_complete : ∀ a ∈ scores.pairs, memberRecord layout db k ver a ∈ t.records
  member_sound : ∀ r ∈ t.records, zsetMemberPrefix layout db k ver <+: r.1 →
    r ∈ scores.pairs.image (memberRecord layout db k ver)
  rank_complete : ∀ a ∈ scores.pairs, rankRecord layout db k ver a ∈ t.records
  rank_sound : ∀ r ∈ t.records, zsetRankPrefix layout db k ver <+: r.1 →
    r ∈ scores.pairs.image (rankRecord layout db k ver)

end

/-! ## rank の key の順 -/

section

variable {layout : KeyEncodingLayout} {db : Nat} {k : Owner} {ver : Nat}

theorem bytesLt_beU64 (x y : UInt64) (rest : Bytes) :
    bytesLt (beU64 x ++ rest) (beU64 y) = decide (x.toNat < y.toNat) :=
  bytesLt_toBe x.toNat_lt y.toNat_lt rest

theorem beU64_prefix_iff (x y : UInt64) (rest : Bytes) : beU64 y <+: beU64 x ++ rest ↔ x = y := by
  constructor
  · rintro ⟨rest', h⟩
    exact (UInt64.toNat_inj.mp (toBe_injective (UInt64.toNat_lt _) (UInt64.toNat_lt _)
      (append_inj_left h (by simp)))).symm
  · rintro rfl
    exact prefix_append _ _

theorem encodeSortedF64_injective {a b : UInt64} (h : encodeSortedF64 a = encodeSortedF64 b) :
    a = b := by
  rw [← decodeSortedF64_encode a, h, decodeSortedF64_encode]

theorem bytesLt_rankSuffix {a b : Text × Score} (h : RankLt a b) :
    bytesLt (rankSuffix a) (rankSuffix b) = true := by
  rcases h with h | ⟨hscore, hmember⟩
  · have hlt : bytesLt (rankSuffix a) (beU64 (encodeSortedF64 b.2.bits)) = true := by
      rw [rankSuffix, bytesLt_beU64, decide_eq_true_eq, rank_lt_iff_totalKey_lt]
      exact h
    exact bytesLt_append_right hlt _
  · rw [rankSuffix, rankSuffix, hscore, bytesLt_append_left]
    simp [bytesLt, hmember]

/-! ## 端の符号の選び方 -/

variable {bound : UInt64}

theorem eq_posZero_iff (h : isNan bound = false) :
    eq bound posZero = true ↔ magnitude bound = 0 := by
  have hzero : isNan posZero = false := by decide
  have hmag : magnitude posZero = 0 := by decide
  simp [eq, h, hzero, hmag]

theorem totalKey_encodingBound (h : isNan bound = false) (low : Bool) :
    totalKey (encodingBound bound low) =
      if magnitude bound = 0 then if low then -1 else 0 else totalKey bound := by
  by_cases hzero : magnitude bound = 0
  · rw [encodingBound, (eq_posZero_iff h).mpr hzero, if_pos hzero]
    cases low with
    | true => exact (by decide : totalKey negZero = -1)
    | false => exact (by decide : totalKey posZero = 0)
  · rw [encodingBound, eq_false_iff.mpr fun he => hzero ((eq_posZero_iff h).mp he), if_neg hzero]
    rfl

theorem encodingBound_low_le_iff {bound s : UInt64} (h : isNan bound = false) :
    totalKey (encodingBound bound true) ≤ totalKey s ↔ magnitude bound ≤ magnitude s := by
  have hs := s.toNat_lt
  have hb := bound.toNat_lt
  rw [totalKey_encodingBound h]
  simp only [totalKey, magnitude]
  split_ifs <;> omega

theorem le_encodingBound_high_iff {bound s : UInt64} (h : isNan bound = false) :
    totalKey s ≤ totalKey (encodingBound bound false) ↔ magnitude s ≤ magnitude bound := by
  have hs := s.toNat_lt
  have hb := bound.toNat_lt
  rw [totalKey_encodingBound h]
  simp only [totalKey, magnitude, Bool.false_eq_true, if_false]
  split_ifs <;> omega

theorem isNan_encodingBound (h : isNan bound = false) (low : Bool) :
    isNan (encodingBound bound low) = false := by
  unfold encodingBound
  split
  · decide
  · split
    · decide
    · exact h

theorem exists_upperBound_score {b : UInt64} (h : isNan b = false) :
    ∃ u, upperBound (beU64 (encodeSortedF64 b)) = some u := by
  cases hu : upperBound (beU64 (encodeSortedF64 b)) with
  | some u => exact ⟨u, rfl⟩
  | none =>
    -- 8 byte がすべて `0xff` になるのは、仮数もすべて 1 の NaN だけである
    have hall : beU64 (encodeSortedF64 b) = replicate 8 255 := by
      simpa using eq_replicate_of_upperBound_none hu
    have hmax : (encodeSortedF64 b).toNat = 2 ^ 64 - 1 := by
      rw [← ofBe_beU64, hall]
      decide
    have hkey := toNat_encodeSortedF64 b
    have hbits : b.toNat = 2 ^ 63 - 1 := by
      have hb := b.toNat_lt
      simp only [totalKey] at hkey
      split at hkey <;> omega
    simp [isNan, scoreIsNan, hbits] at h

theorem bytesLt_rankSuffix_upperBound {b : UInt64} {u : Bytes}
    (h : upperBound (beU64 (encodeSortedF64 b)) = some u) (a : Text × Score) :
    bytesLt (rankSuffix a) u = true ↔ totalKey a.2.bits ≤ totalKey b := by
  rw [bytesLt_upperBound_iff h, rankSuffix, bytesLt_beU64, decide_eq_true_eq, beU64_prefix_iff,
    rank_lt_iff_totalKey_lt, le_iff_lt_or_eq]
  refine or_congr Iff.rfl ⟨fun heq => ?_, fun heq => ?_⟩
  · rw [encodeSortedF64_injective heq]
  · rw [totalKey_injective heq]

theorem bytesLt_rankSuffix_score (b : UInt64) (a : Text × Score) :
    bytesLt (rankSuffix a) (beU64 (encodeSortedF64 b)) = true ↔ totalKey a.2.bits < totalKey b := by
  rw [rankSuffix, bytesLt_beU64, decide_eq_true_eq, rank_lt_iff_totalKey_lt]

/-! ## score の区間 -/

namespace ScoreRange

def Above (r : ScoreRange) (s : UInt64) : Prop :=
  if r.minInclusive then magnitude r.min ≤ magnitude s
  else magnitude r.min < magnitude s

def Below (r : ScoreRange) (s : UInt64) : Prop :=
  if r.maxInclusive then magnitude s ≤ magnitude r.max
  else magnitude s < magnitude r.max

variable {r : ScoreRange}

theorem contains_iff (hmin : isNan r.min = false) (hmax : isNan r.max = false)
    (s : Score) : r.contains s.bits = true ↔ r.Above s.bits ∧ r.Below s.bits := by
  simp only [contains, lt, eq, hmin, hmax, s.notNan, Above, Below]
  cases r.minInclusive <;> cases r.maxInclusive <;> simp <;> omega

def isEmpty (r : ScoreRange) : Bool :=
  isNan r.min || isNan r.max || lt r.max r.min ||
    (eq r.min r.max && (!r.minInclusive || !r.maxInclusive))

theorem not_contains_of_isEmpty (h : r.isEmpty = true) (s : UInt64) : r.contains s = false := by
  simp only [isEmpty, or_eq_true, and_eq_true, lt, eq, not_eq_true',
    decide_eq_true_eq] at h
  rw [eq_false_iff]
  intro hc
  simp only [contains, lt, eq, and_eq_true, or_eq_true, not_eq_true',
    decide_eq_true_eq] at hc
  obtain ⟨habove, hbelow⟩ := hc
  rcases h with ((hmin | hmax) | hlt) | ⟨heq, hopen⟩
  · simp [hmin] at habove
  · simp [hmax] at hbelow
  · rcases habove with habove | habove <;> rcases hbelow with hbelow | hbelow <;> omega
  · rcases habove with habove | habove <;> rcases hbelow with hbelow | hbelow <;> try omega
    simp [habove.1, hbelow.1] at hopen

end ScoreRange

variable {r : ScoreRange}

theorem scoreLower_spec (p : Bytes) (h : isNan r.min = false) :
    ∃ l, scoreLower p r = some (p ++ l) ∧
      ∀ a : Text × Score, bytesLt (rankSuffix a) l = false ↔ r.Above a.2.bits := by
  unfold scoreLower
  cases hincl : r.minInclusive with
  | true =>
    refine ⟨_, rfl, fun a => ?_⟩
    rw [← not_eq_true, bytesLt_rankSuffix_score, not_lt, encodingBound_low_le_iff h,
      ScoreRange.Above, hincl, if_pos rfl]
  | false =>
    obtain ⟨u, hu⟩ := exists_upperBound_score (isNan_encodingBound h false)
    refine ⟨u, upperBound_append hu, fun a => ?_⟩
    rw [← not_eq_true, bytesLt_rankSuffix_upperBound hu, le_encodingBound_high_iff h,
      ScoreRange.Above, hincl, if_neg (by decide), not_le]

theorem scoreUpper_spec (p : Bytes) (h : isNan r.max = false) :
    ∃ u, scoreUpper p r = some (p ++ u) ∧
      ∀ a : Text × Score, bytesLt (rankSuffix a) u = true ↔ r.Below a.2.bits := by
  unfold scoreUpper
  cases hincl : r.maxInclusive with
  | true =>
    obtain ⟨u, hu⟩ := exists_upperBound_score (isNan_encodingBound h false)
    refine ⟨u, upperBound_append hu, fun a => ?_⟩
    rw [bytesLt_rankSuffix_upperBound hu, le_encodingBound_high_iff h, ScoreRange.Below, hincl,
      if_pos rfl]
  | false =>
    refine ⟨_, rfl, fun a => ?_⟩
    rw [Bool.not_false, bytesLt_rankSuffix_score, ← not_le, encodingBound_low_le_iff h,
      ScoreRange.Below, hincl, if_neg (by decide), not_le]

variable (layout db k ver)

/-- **score の区間は、範囲に合う score の rank だけを含む。** -/
theorem zsetScoreScanBounds_exact (r : ScoreRange) :
    ExactBounds (zsetRankPrefix layout db k ver) rankSuffix
      (fun a : Text × Score => r.contains a.2.bits)
      (zsetScoreScanBounds layout db k ver r) := by
  cases h : r.isEmpty with
  | true =>
    rw [show zsetScoreScanBounds layout db k ver r = none from if_pos h]
    exact fun a => ScoreRange.not_contains_of_isEmpty h a.2.bits
  | false =>
    have hnan : isNan r.min = false ∧ isNan r.max = false := by
      simp only [ScoreRange.isEmpty, Bool.or_eq_false_iff] at h
      exact h.1.1
    have hguard : ¬ r.isEmpty = true := by
      rw [h]
      decide
    obtain ⟨l, hl, hlow⟩ := scoreLower_spec (zsetRankPrefix layout db k ver) hnan.1
    obtain ⟨u, hu, hhigh⟩ := scoreUpper_spec (zsetRankPrefix layout db k ver) hnan.2
    have hbounds : zsetScoreScanBounds layout db k ver r =
        some (zsetRankPrefix layout db k ver ++ l,
          some (zsetRankPrefix layout db k ver ++ u)) := by
      refine (if_neg hguard).trans ?_
      simp [hl, hu]
    rw [hbounds]
    refine ⟨fun raw hw => ?_, fun a => ?_⟩
    · obtain ⟨rest, rfl⟩ := exists_append_of_within hw
      exact prefix_append _ _
    · rw [within_append, Bool.eq_iff_iff, Bool.and_eq_true, Bool.not_eq_true', hlow, hhigh,
        ScoreRange.contains_iff hnan.1 hnan.2]

/-! ## 辞書式の区間 -/

theorem exists_upperBound_memberPrefix :
    ∃ stop, upperBound (zsetMemberPrefix layout db k ver) = some stop :=
  isSome_iff_exists.mp (upperBound_isSome
    (subKeyRangeStart_mem_tag layout db .zsetMember k ver) Namespace.zsetMember.tag_ne_max)

theorem lexLower_spec {p lower : Bytes} {b : LexBound} (h : lexLower p b = some lower) :
    ∃ l, lower = p ++ l ∧ ∀ member, bytesLt member l = false ↔ b.above member = true := by
  cases b with
  | negInfinity =>
    cases h
    refine ⟨[], (append_nil p).symm, fun member => ?_⟩
    cases member <;> simp [bytesLt, LexBound.above]
  | posInfinity => cases h
  | value bound inclusive =>
    cases h
    refine ⟨_, rfl, fun member => ?_⟩
    cases inclusive with
    | true =>
      rw [if_pos rfl, append_nil]
      simp only [LexBound.above, Bool.true_and, Bool.or_eq_true, beq_iff_eq]
      constructor
      · intro hle
        cases hlt : bytesLt bound member with
        | true => exact .inl rfl
        | false => exact .inr (eq_of_not_bytesLt hle hlt)
      · rintro (hlt | rfl)
        · exact bytesLt_asymm hlt
        · exact bytesLt_irrefl _
    | false => simp [LexBound.above, bytesLt_snoc_zero]

variable {upper : Option Bytes}

theorem lexUpper_spec {p stop : Bytes} (hp : upperBound p = some stop) {b : LexBound}
    (h : lexUpper p b = some upper) :
    ∃ u, upper = some u ∧ (∀ raw, bytesLt raw p = false → bytesLt raw u = true → p <+: raw) ∧
      ∀ member, bytesLt (p ++ member) u = b.below member := by
  cases b with
  | posInfinity =>
    cases h
    refine ⟨stop, hp, fun raw hlow hlt => ?_, fun member => ?_⟩
    · exact ((bytesLt_upperBound_iff hp raw).mp hlt).resolve_left (by rw [hlow]; decide)
    · exact (bytesLt_upperBound_iff hp _).mpr (.inr (prefix_append _ _))
  | negInfinity => cases h
  | value bound inclusive =>
    cases h
    refine ⟨_, rfl, fun raw hlow hlt => ?_, fun member => ?_⟩
    · obtain ⟨rest, rfl, -⟩ := exists_append_of_bytesLt hlow hlt
      exact prefix_append _ _
    · rw [bytesLt_append_left]
      cases inclusive with
      | false => simp [LexBound.below]
      | true =>
        rw [if_pos rfl, bytesLt_snoc_zero, Bool.eq_iff_iff]
        simp only [LexBound.below, Bool.true_and, Bool.or_eq_true, beq_iff_eq,
          Bool.not_eq_true']
        constructor
        · intro hle
          cases hlt : bytesLt member bound with
          | true => exact .inl rfl
          | false => exact .inr (eq_of_not_bytesLt hlt hle)
        · rintro (hlt | rfl)
          · exact bytesLt_asymm hlt
          · exact bytesLt_irrefl _

/-- **辞書式の区間は、範囲に合う member だけを含む。** -/
theorem zsetLexScanBounds_exact (min max : LexBound) :
    ExactBounds (zsetMemberPrefix layout db k ver) (fun a : Text × Score => a.1.bytes)
      (fun a => zsetMemberInLexRange a.1.bytes min max)
      (zsetLexScanBounds layout db k ver min max) := by
  obtain ⟨stop, hstop⟩ := exists_upperBound_memberPrefix layout db k ver
  unfold zsetLexScanBounds zsetMemberInLexRange
  cases hl : lexLower (zsetMemberPrefix layout db k ver) min with
  | none =>
    simp only [hl, bind_eq_bind, bind_none]
    intro a
    cases min with
    | posInfinity => rfl
    | negInfinity => cases hl
    | value => cases hl
  | some lower =>
    obtain ⟨l, rfl, hlow⟩ := lexLower_spec hl
    cases hu : lexUpper (zsetMemberPrefix layout db k ver) max with
    | none =>
      simp only [hl, hu, bind_eq_bind, bind_some, bind_none]
      intro a
      cases max with
      | negInfinity => exact Bool.and_false _
      | posInfinity => cases hu
      | value => cases hu
    | some upper =>
      obtain ⟨u, rfl, hpfx, hhigh⟩ := lexUpper_spec hstop hu
      have hcond : ∀ member : Bytes,
          within (zsetMemberPrefix layout db k ver ++ l) (some u)
            (zsetMemberPrefix layout db k ver ++ member) =
              (min.above member && max.below member) := by
        intro member
        rw [within, bytesLt_append_left, all_some, hhigh, Bool.eq_iff_iff,
          Bool.and_eq_true, Bool.and_eq_true, Bool.not_eq_true', hlow]
      simp only [hl, hu, bind_eq_bind, bind_some, any_some]
      split
      · next hempty =>
        -- 端が逆なら、その間に member は無い
        intro a
        refine (hcond a.1.bytes).symm.trans (Bool.eq_false_iff.mpr fun hw => ?_)
        simp only [within, all_some, Bool.and_eq_true, Bool.not_eq_true'] at hw hempty
        rw [bytesLt_of_le_of_lt hw.1 hw.2] at hempty
        cases hempty
      · refine ⟨fun raw hw => ?_, fun a => hcond a.1.bytes⟩
        simp only [within, all_some, Bool.and_eq_true, Bool.not_eq_true'] at hw
        exact hpfx raw (bytesLt_of_append_right hw.1) hw.2

/-! ## 読み戻し -/

theorem decodeRankEntry_rankRecord (a : Text × Score) :
    decodeRankEntry layout db k ver (rankRecord layout db k ver a) = some (a.1, a.2.bits) := by
  have hlen : ¬ (rankSuffix a).length < 9 := by
    simp only [rankSuffix, length_append, length_cons, length_beU64]
    omega
  have hsep : (rankSuffix a)[8]? = some 0x00 := by simp [rankSuffix]
  have hmember : (rankSuffix a).drop 9 = a.1.bytes := by
    rw [rankSuffix, drop_append, length_beU64, drop_of_length_le (by simp)]
    rfl
  have hscore : (rankSuffix a).take 8 = beU64 (encodeSortedF64 a.2.bits) := by
    rw [rankSuffix, take_append_of_le_length (by simp), take_of_length_le (by simp)]
  simp only [decodeRankEntry, decodeRankMember, decodeRankScore, rankRecord, zsetRankKey,
    isPrefixOf?_append, bind_eq_bind, bind_some, hlen, hsep, hmember, hscore,
    ofBe_beU64, UInt64.ofNat_toNat, decodeSortedF64_encode]
  simp

/-! ## packed の並び -/

theorem mem_membersInOrder {scores : Scores} {a : Text × Score} :
    a ∈ membersInOrder scores ↔ a ∈ scores.pairs := by
  obtain ⟨m, s⟩ := a
  simp only [membersInOrder, mem_filterMap, Finset.mem_sort, Finmap.mem_keys,
    map_eq_some_iff, Prod.mk.injEq, Scores.mem_pairs]
  constructor
  · rintro ⟨m', -, s', hs, rfl, rfl⟩
    exact hs
  · intro hs
    exact ⟨m, Finmap.mem_of_lookup_eq_some hs, s, hs, rfl, rfl⟩

theorem pairwise_membersInOrder (scores : Scores) :
    (membersInOrder scores).Pairwise fun a b => bytesLt a.1.bytes b.1.bytes = true := by
  have hkeys : (scores.keys.sort TextLe).Pairwise fun m n => bytesLt m.bytes n.bytes = true := by
    refine (scores.keys.pairwise_sort TextLe).imp₂ (fun m n hle hne => ?_)
      (scores.keys.sort_nodup TextLe)
    by_contra hlt
    exact hne (Text.ext_bytes (eq_of_not_bytesLt (eq_false_iff.mpr hlt) hle))
  refine hkeys.filterMap _ fun m n hlt a ha b hb => ?_
  obtain ⟨s, -, rfl⟩ := map_eq_some_iff.mp ha
  obtain ⟨s', -, rfl⟩ := map_eq_some_iff.mp hb
  exact hlt

variable {layout db k ver} {t : Table} {scores : Scores}

theorem HoldsZset.scanRange_score (h : HoldsZset t layout db k ver scores) {lower : Bytes}
    (hb : zsetScoreScanBounds layout db k ver r = some (lower, upper)) :
    t.scanRange lower upper = ((ranked scores.pairs).filter fun a => r.contains a.2.bits).map
        (rankRecord layout db k ver) := by
  have hexact := zsetScoreScanBounds_exact layout db k ver r
  rw [hb] at hexact
  refine Table.scanRange_eq_map hexact (pairwise_ranked _) (fun _ _ => bytesLt_rankSuffix)
    (fun a ha => h.rank_complete a (mem_ranked.mp ha)) fun raw hraw hp => ?_
  obtain ⟨a, ha, hw⟩ := Finset.mem_image.mp (h.rank_sound raw hraw hp)
  exact ⟨a, mem_ranked.mpr ha, hw⟩

theorem HoldsZset.scanRange_lex (h : HoldsZset t layout db k ver scores) {min max : LexBound}
    {lower : Bytes} (hb : zsetLexScanBounds layout db k ver min max = some (lower, upper)) :
    t.scanRange lower upper =
      ((membersInOrder scores).filter fun a => zsetMemberInLexRange a.1.bytes min max).map
        (memberRecord layout db k ver) := by
  have hexact := zsetLexScanBounds_exact layout db k ver min max
  rw [hb] at hexact
  refine Table.scanRange_eq_map hexact (pairwise_membersInOrder scores) (fun _ _ hlt => hlt)
    (fun a ha => h.member_complete a (mem_membersInOrder.mp ha)) fun raw hraw hp => ?_
  obtain ⟨a, ha, hw⟩ := Finset.mem_image.mp (h.member_sound raw hraw hp)
  exact ⟨a, mem_membersInOrder.mpr ha, hw⟩

theorem filter_eq_nil_of_forall {cond : Text × Score → Bool} (h : ∀ a, cond a = false)
    (entries : List (Text × Score)) : entries.filter cond = [] :=
  filter_eq_nil_iff.mpr fun a _ => by simp [h a]

section

variable {p : Bytes} {suffix : Text × Score → Bytes} {cond : Text × Score → Bool}
  {bounds : Option (Bytes × Option Bytes)} {write : Text × Score → Bytes × Bytes}
  {entries : List (Text × Score)}

theorem readWindow_eq (hexact : ExactBounds p suffix cond bounds)
    (hscan : ∀ {lower upper}, bounds = some (lower, upper) →
      t.scanRange lower upper = (entries.filter cond).map write)
    {decode : Bytes × Bytes → Option (Text × UInt64)}
    (hdecode : ∀ a, decode (write a) = some (a.1, a.2.bits)) (reverse : Bool)
    (offset scanLimit : Nat) :
    readWindow t decode reverse offset scanLimit bounds =
      cutWindow (entries.filter cond) reverse offset scanLimit := by
  cases bounds with
  | none =>
    rw [filter_eq_nil_of_forall hexact, cutWindow]
    cases reverse <;> simp [readWindow]
  | some b => exact Table.window_scanRangeLimited (hscan rfl) hdecode reverse offset scanLimit

theorem countRange_eq (hexact : ExactBounds p suffix cond bounds)
    (hscan : ∀ {lower upper}, bounds = some (lower, upper) →
      t.scanRange lower upper = (entries.filter cond).map write) :
    countRange t bounds = (entries.filter cond).length := by
  cases bounds with
  | none =>
    rw [filter_eq_nil_of_forall hexact]
    rfl
  | some b =>
    show (t.scanRange b.1 b.2).length = _
    rw [hscan rfl, length_map]

end

section

variable (h : HoldsZset t layout db k ver scores)

include h

theorem zsetRangeByScoreWindow_split (w : ZsetScoreWindow) :
    zsetRangeByScoreWindow t layout db k (.ok (some (.split ver))) w =
      zsetRangeByScoreWindow t layout db k (.ok (some (.packed scores))) w := by
  unfold zsetRangeByScoreWindow
  split
  · rfl
  · exact congrArg Except.ok (readWindow_eq (zsetScoreScanBounds_exact ..) h.scanRange_score
      (decodeRankEntry_rankRecord layout db k ver) _ _ _)

theorem zsetRangeByLexWindow_split (w : ZsetLexWindow) :
    zsetRangeByLexWindow t layout db k (.ok (some (.split ver))) w =
      zsetRangeByLexWindow t layout db k (.ok (some (.packed scores))) w := by
  unfold zsetRangeByLexWindow
  split
  · rfl
  · exact congrArg Except.ok (readWindow_eq (zsetLexScanBounds_exact ..) h.scanRange_lex
      (fun a => by
        simp [decodeMemberEntry, memberRecord, zsetMemberKey, decodeZsetScore, ofBe_beU64])
      _ _ _)

end

end

/-! ## 選び出し -/

section

/-- LIMIT の切り取り。負の offset では何も残らず、負の count では終わりまで残る。 -/
def limited {α : Type} (limit : Option (Int64 × Int64)) (l : List α) : List α :=
  match limit with
  | none => l
  | some (offset, count) =>
    if offset < 0 then []
    else if count < 0 then l.drop offset.toInt.toNat
    else (l.drop offset.toInt.toNat).take count.toInt.toNat

/-- 条件に合う組のすべてを順に、または逆順に並べ、LIMIT で切り取ったもの。 -/
def Selects (scores : Scores) (Precedes : Text × Score → Text × Score → Prop)
    (cond : Text × Score → Bool) (reverse : Bool) (limit : Option (Int64 × Int64))
    (out : List (Text × UInt64)) : Prop :=
  ∃ entries : List (Text × Score), entries.Pairwise Precedes ∧
    (∀ a, a ∈ entries ↔ a ∈ scores.pairs ∧ cond a = true) ∧
    out = (limited limit (if reverse then entries.reverse else entries)).map
      fun a => (a.1, a.2.bits)

/-- 走査の窓で切り取ると、LIMIT どおりになる。列の長さは `usize` に収まる。 -/
theorem limited_eq_window {α : Type} {l : List α} (hlen : l.length < 2 ^ 64)
    (limit : Option (Int64 × Int64)) : limited limit l = match scanWindow limit with
      | none => []
      | some (offset, scanLimit) => (l.drop offset).take (scanLimit - offset) := by
  cases limit with
  | none => exact (take_of_length_le (show l.length ≤ 2 ^ 64 - 1 - 0 by omega)).symm
  | some p =>
    obtain ⟨offset, count⟩ := p
    have hoffset := offset.toInt_lt
    have hcount := count.toInt_lt
    unfold limited scanWindow
    dsimp only
    by_cases hneg : offset < 0
    · rw [if_pos hneg, if_pos (.inl hneg)]
    rw [if_neg hneg]
    by_cases hzero : count = 0
    · have hstop : offset < 0 ∨ count = 0 := .inr hzero
      rw [if_pos hstop, hzero]
      exact take_zero (l := l.drop offset.toInt.toNat)
    rw [if_neg (not_or.mpr ⟨hneg, hzero⟩)]
    by_cases hend : count < 0
    · -- 窓の終わりは `usize` の最大で、列はそこまで届かない
      rw [if_pos hend]
      simp only [if_pos hend]
      exact (take_of_length_le (by rw [length_drop]; omega)).symm
    · -- offset も count も `i64` なので、和は `usize` の最大に届かない
      rw [if_neg hend]
      simp only [if_neg hend]
      rw [Nat.min_eq_left (by omega), Nat.add_sub_cancel_left]

variable {Precedes : Text × Score → Text × Score → Prop} {cond : Text × Score → Bool}
  {entries : List (Text × Score)} {scores : Scores}

theorem length_filter_eq_card (hsorted : entries.Pairwise Precedes)
    (hirrefl : ∀ a, ¬ Precedes a a) (hmem : ∀ a, a ∈ entries ↔ a ∈ scores.pairs)
    (cond : Text × Score → Bool) :
    (entries.filter cond).length = (scores.pairs.filter fun a => cond a = true).card := by
  have hnodup : (entries.filter cond).Nodup := by
    refine (hsorted.filter cond).imp fun {a b} hlt => ?_
    rintro rfl
    exact hirrefl a hlt
  rw [← toFinset_card_of_nodup hnodup]
  congr 1
  ext a
  simp [hmem]

theorem selects_window (hsorted : entries.Pairwise Precedes) (hirrefl : ∀ a, ¬ Precedes a a)
    (hmem : ∀ a, a ∈ entries ↔ a ∈ scores.pairs) (hcard : scores.pairs.card < 2 ^ 64)
    (reverse : Bool) (limit : Option (Int64 × Int64)) :
    Selects scores Precedes cond reverse limit (match scanWindow limit with
      | none => []
      | some (offset, scanLimit) => cutWindow (entries.filter cond) reverse offset scanLimit) := by
  refine ⟨entries.filter cond, hsorted.filter _, fun a => by rw [mem_filter, hmem], ?_⟩
  have hlen : (if reverse then (entries.filter cond).reverse else entries.filter cond).length <
      2 ^ 64 := by
    have hle := Finset.card_filter_le scores.pairs fun a => cond a = true
    rw [← length_filter_eq_card hsorted hirrefl hmem] at hle
    cases reverse <;> simp <;> omega
  rw [limited_eq_window hlen]
  split <;> rfl

end

/-! ## 二つの member を持つ zset

`-0` の score を持つ `a` と、`1` の score を持つ `b` を version 7 に置く。隣に version 8 の record がある。
-/

namespace TwoMembers

def owner : Owner := .ofUtf8 (.ofByte 0x6b (Eq.refl true))

def a : Text × Score := (.ofByte 0x61 (Eq.refl true), ⟨negZero, Eq.refl false⟩)

def b : Text × Score := (.ofByte 0x62 (Eq.refl true), ⟨0x3ff0000000000000, Eq.refl false⟩)

def scores : Scores := ((∅ : Scores).insert a.1 a.2).insert b.1 b.2

def table : Table where
  records :=
    [rankRecord .current 0 owner 7 a, rankRecord .current 0 owner 7 b,
      rankRecord .current 0 owner 8 a, memberRecord .current 0 owner 7 a,
      memberRecord .current 0 owner 7 b, memberRecord .current 0 owner 8 a]
  ascending := by decide

theorem holds : HoldsZset table .current 0 owner 7 scores where
  member_complete := by decide
  member_sound := by decide
  rank_complete := by decide
  rank_sound := by decide

end TwoMembers

/-! ## まとめ -/

/--
**score の範囲の走査は正確で、layout によらない。** 区間が rank の key を含むのは、その score が範囲に合うとき
に限る。split layout の読み出しと数え上げは packed layout のものに等しく、範囲に合う組を rank の順に並べて LIMIT
で切り取ったものと、その数である。
-/
theorem scoreScan_exact (layout : KeyEncodingLayout) (db : Nat) (k : Owner) (ver : Nat)
    (range : ScoreRange) :
    (∀ a : Text × Score, range.contains a.2.bits = true ↔
      ∃ b, zsetScoreScanBounds layout db k ver range = some b ∧
        within b.1 b.2 (zsetRankKey layout db k ver a) = true) ∧
    ∀ (t : Table) (scores : Scores), HoldsZset t layout db k ver scores → (∀ reverse limit,
        zsetRangeByScoreWindow t layout db k (.ok (some (.split ver))) ⟨range, reverse, limit⟩ =
          zsetRangeByScoreWindow t layout db k (.ok (some (.packed scores)))
            ⟨range, reverse, limit⟩) ∧
      zsetCountBounded t layout db k (.ok (some (.split ver))) range =
        zsetCountBounded t layout db k (.ok (some (.packed scores))) range ∧
      zsetCountBounded t layout db k (.ok (some (.split ver))) range =
        .ok (scores.pairs.filter fun a => range.contains a.2.bits).card ∧
      (scores.pairs.card < 2 ^ 64 → ∀ reverse limit, ∃ out,
        zsetRangeByScoreWindow t layout db k (.ok (some (.split ver))) ⟨range, reverse, limit⟩ =
            .ok out ∧
          Selects scores RankLt (fun a => range.contains a.2.bits) reverse limit out) := by
  refine ⟨(zsetScoreScanBounds_exact layout db k ver range).cond_iff, fun t scores h =>
    ⟨fun _ _ => zsetRangeByScoreWindow_split h _,
      congrArg Except.ok (countRange_eq (zsetScoreScanBounds_exact ..) h.scanRange_score),
      congrArg Except.ok ?_, fun hcard reverse limit => ⟨_, ?_,
        selects_window (pairwise_ranked _) RankLt.irrefl (fun _ => mem_ranked) hcard reverse
          limit⟩⟩⟩
  · refine (countRange_eq (zsetScoreScanBounds_exact ..) h.scanRange_score).trans ?_
    exact length_filter_eq_card (pairwise_ranked _) RankLt.irrefl (fun _ => mem_ranked) _
  · rw [zsetRangeByScoreWindow_split h]
    unfold zsetRangeByScoreWindow zsetScoreScanWindow
    dsimp only
    rcases scanWindow limit with _ | ⟨_, _⟩ <;> rfl

open TwoMembers in
theorem TwoMembers.score_split_eq_packed : HoldsZset table .current 0 owner 7 scores ∧
      zsetRangeByScoreWindow table .current 0 owner (.ok (some (.split 7)))
          ⟨⟨posZero, true, b.2.bits, true⟩, true, some (0, 5)⟩ =
        zsetRangeByScoreWindow table .current 0 owner (.ok (some (.packed scores)))
          ⟨⟨posZero, true, b.2.bits, true⟩, true, some (0, 5)⟩ :=
  ⟨holds, ((scoreScan_exact .current 0 owner 7 ⟨posZero, true, b.2.bits, true⟩).2
    table scores holds).1 true (some (0, 5))⟩

/--
**辞書式の範囲の走査は正確で、layout によらない。** 区間が member の key を含むのは、member が範囲にあるときに
限る。split layout の読み出しと数え上げは packed layout のものに等しく、範囲にある組を member の順に並べて LIMIT
で切り取ったものと、その数である。
-/
theorem lexScan_exact (layout : KeyEncodingLayout) (db : Nat) (k : Owner) (ver : Nat)
    (min max : LexBound) :
    (∀ a : Text × Score, zsetMemberInLexRange a.1.bytes min max = true ↔
      ∃ b, zsetLexScanBounds layout db k ver min max = some b ∧
        within b.1 b.2 (zsetMemberKey layout db k ver a.1.bytes) = true) ∧
    ∀ (t : Table) (scores : Scores), HoldsZset t layout db k ver scores → (∀ reverse limit,
        zsetRangeByLexWindow t layout db k (.ok (some (.split ver))) ⟨min, max, reverse, limit⟩ =
          zsetRangeByLexWindow t layout db k (.ok (some (.packed scores)))
            ⟨min, max, reverse, limit⟩) ∧
      zsetLexCount t layout db k (.ok (some (.split ver))) min max =
        zsetLexCount t layout db k (.ok (some (.packed scores))) min max ∧
      zsetLexCount t layout db k (.ok (some (.split ver))) min max =
        .ok (scores.pairs.filter fun a => zsetMemberInLexRange a.1.bytes min max).card ∧
      (scores.pairs.card < 2 ^ 64 → ∀ reverse limit, ∃ out,
        zsetRangeByLexWindow t layout db k (.ok (some (.split ver))) ⟨min, max, reverse, limit⟩ =
            .ok out ∧
          Selects scores (fun a b => bytesLt a.1.bytes b.1.bytes = true)
            (fun a => zsetMemberInLexRange a.1.bytes min max) reverse limit out) := by
  have hirrefl : ∀ a : Text × Score, ¬ bytesLt a.1.bytes a.1.bytes = true := fun a => by
    rw [bytesLt_irrefl]
    decide
  refine ⟨(zsetLexScanBounds_exact layout db k ver min max).cond_iff, fun t scores h =>
    ⟨fun _ _ => zsetRangeByLexWindow_split h _,
      congrArg Except.ok (countRange_eq (zsetLexScanBounds_exact ..) h.scanRange_lex),
      congrArg Except.ok ?_, fun hcard reverse limit => ⟨_, ?_,
        selects_window (pairwise_membersInOrder scores) hirrefl (fun _ => mem_membersInOrder) hcard
          reverse limit⟩⟩⟩
  · refine (countRange_eq (zsetLexScanBounds_exact ..) h.scanRange_lex).trans ?_
    exact length_filter_eq_card (pairwise_membersInOrder scores) hirrefl
      (fun _ => mem_membersInOrder) _
  · rw [zsetRangeByLexWindow_split h]
    unfold zsetRangeByLexWindow zsetRangeScanWindow
    dsimp only
    rcases scanWindow limit with _ | ⟨_, _⟩ <;> rfl

open TwoMembers in
theorem TwoMembers.lex_split_eq_packed : HoldsZset table .current 0 owner 7 scores ∧
      zsetRangeByLexWindow table .current 0 owner (.ok (some (.split 7)))
          ⟨.value a.1.bytes false, .posInfinity, false, none⟩ =
        zsetRangeByLexWindow table .current 0 owner (.ok (some (.packed scores)))
          ⟨.value a.1.bytes false, .posInfinity, false, none⟩ :=
  ⟨holds, ((lexScan_exact .current 0 owner 7 (.value a.1.bytes false) .posInfinity).2
    table scores holds).1 false none⟩

end Onedis.Store
