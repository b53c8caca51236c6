import Onedis.Store.WriteBatch

/-!
# 整数の merge operator

`store/kv_store_merge_operator.rs` の写し。engine は差分を好きな順に、好きな組に束ねて適用する。割り当てる側は
割り当てた順での部分和だけを確かめるので、engine の順では途中の和が溢れることがある。

* `mergeAll_succeeds_iff` — どの順とどの束ね方でも成功する条件
-/

namespace Onedis.Store

open Infra List

/-! ## operator -/

/-- `b"\x80\xffh\0"` -/
def isHashFieldKey (key : Bytes) : Bool := [0x80, 0xff, 0x68, 0x00].isPrefixOf key

def decodeOperand (bytes : Bytes) (context : String) : Except Status Int :=
  if bytes.length = 8 then .ok (ofBeI64 bytes)
  else .error (.invalidArgument (context ++ " must be an 8-byte big-endian i64"))

def decodeExisting (bytes : Bytes) : Except Status (Nat × Int) :=
  if bytes.length < 17 ∨ bytes.getD 16 0 ≠ TypeTag.string.code then
    .error (.invalidArgument "existing value is not an onedis string")
  else if validUtf8 (bytes.drop 17) then
    match parseI64 (bytes.drop 17) with
    | some value => .ok (ofBe (bytes.take 8), value)
    | none => .error (.invalidArgument "existing string value is not an integer")
  else .error (.invalidArgument "existing string value is not valid UTF-8")

def encodeString (value : Int) (expireMs : Nat) : Bytes :=
  toBe 8 expireMs ++ (toBe 8 0 ++ TypeTag.string.code :: formatI64 value)

def decodeHashField (bytes : Bytes) : Except Status Int :=
  match (if validUtf8 bytes then parseI64 bytes else none) with
  | some value => .ok value
  | none => .error (.invalidArgument "existing hash field value is not an integer")

def baseValue (key : Bytes) (existing : Option Bytes) : Except Status (Nat × Int) :=
  if isHashFieldKey key then
    match existing with
    | some bytes => (decodeHashField bytes).map fun value => (0, value)
    | none => .ok (0, 0)
  else
    match existing with
    | some bytes => decodeExisting bytes
    | none => .ok (0, 0)

def addOperands : Int → List Bytes → Except Status Int
  | value, [] => .ok value
  | value, operand :: operands =>
    match decodeOperand operand "merge operand" with
    | .error e => .error e
    | .ok delta =>
      match checkedAdd value delta with
      | some value' => addOperands value' operands
      | none => .error (.invalidArgument "integer merge would overflow")

def encodeMerged (key : Bytes) (expireMs : Nat) (value : Int) : Bytes :=
  if isHashFieldKey key then formatI64 value else encodeString value expireMs

def fullMerge (key : Bytes) (existing : Option Bytes) (operands : List Bytes) :
    Except Status (Option Bytes) :=
  match baseValue key existing with
  | .error e => .error e
  | .ok (expireMs, value) =>
    match addOperands value operands with
    | .error e => .error e
    | .ok value' => .ok (some (encodeMerged key expireMs value'))

def partialMerge (_key left right : Bytes) : Except Status Bytes :=
  match decodeOperand left "left merge operand" with
  | .error e => .error e
  | .ok l =>
    match decodeOperand right "right merge operand" with
    | .error e => .error e
    | .ok r =>
      match checkedAdd l r with
      | some merged => .ok (toBeI64 merged)
      | none => .error (.invalidArgument "integer merge operand would overflow")

/-! ## 適用の仕方 -/

/-- 差分の束ね方。葉が渡された差分、節が `partialMerge` である。 -/
inductive OperandTree
  | leaf (delta : Int)
  | node (left right : OperandTree)
  deriving DecidableEq, Repr

namespace OperandTree

def leaves : OperandTree → List Int
  | leaf delta => [delta]
  | node left right => left.leaves ++ right.leaves

def eval (key : Bytes) : OperandTree → Except Status Bytes
  | leaf delta => .ok (toBeI64 delta)
  | node left right =>
    match left.eval key with
    | .error e => .error e
    | .ok l =>
      match right.eval key with
      | .error e => .error e
      | .ok r => partialMerge key l r

end OperandTree

def evalAll (key : Bytes) : List OperandTree → Except Status (List Bytes)
  | [] => .ok []
  | tree :: trees =>
    match tree.eval key with
    | .error e => .error e
    | .ok operand =>
      match evalAll key trees with
      | .error e => .error e
      | .ok operands => .ok (operand :: operands)

/-- 束ねた差分を、何回かの `fullMerge` に分けて適用する。 -/
def mergeAll (key : Bytes) : Option Bytes → List (List OperandTree) → Except Status (Option Bytes)
  | existing, [] => .ok existing
  | existing, trees :: plan =>
    match evalAll key trees with
    | .error e => .error e
    | .ok operands =>
      match fullMerge key existing operands with
      | .error e => .error e
      | .ok merged => mergeAll key merged plan

def batchLeaves (trees : List OperandTree) : List Int := trees.flatMap OperandTree.leaves

def planLeaves (plan : List (List OperandTree)) : List Int := plan.flatMap batchLeaves

/-! ## 割り当て -/

def assignAll : Int → List Int → Option (List Int)
  | _, [] => some []
  | value, delta :: deltas =>
    match checkedAdd value delta with
    | none => none
    | some value' => (assignAll value' deltas).map (value' :: ·)

/-- 差分が `1` と `-1` だけからなる。 -/
def UnitDeltas (deltas : List Int) : Prop := ∀ d ∈ deltas, d = 1 ∨ d = -1

/-! ## 値の往復 -/

theorem decodeOperand_toBeI64 {delta : Int} (h : InI64 delta) (context : String) :
    decodeOperand (toBeI64 delta) context = .ok delta := by
  rw [decodeOperand, if_pos (length_toBeI64 delta), ofBeI64_toBeI64 h]

variable {value : Int} {expireMs : Nat}

theorem decodeExisting_encodeString (hv : InI64 value) (he : expireMs < 256 ^ 8) :
    decodeExisting (encodeString value expireMs) = .ok (expireMs, value) := by
  have hlen : (encodeString value expireMs).length = 17 + (formatI64 value).length := by
    simp [encodeString]
    omega
  have htake : (encodeString value expireMs).take 8 = toBe 8 expireMs :=
    take_left' (length_toBe 8 _)
  have hdrop : (encodeString value expireMs).drop 17 = formatI64 value := by
    have hsplit : encodeString value expireMs =
        (toBe 8 expireMs ++ (toBe 8 0 ++ [TypeTag.string.code])) ++ formatI64 value := by
      simp [encodeString]
    rw [hsplit]
    exact drop_left' (by simp)
  have htag : (encodeString value expireMs).getD 16 0 = TypeTag.string.code := by
    have hsplit : encodeString value expireMs =
        (toBe 8 expireMs ++ toBe 8 0) ++ (TypeTag.string.code :: formatI64 value) := by
      simp [encodeString]
    rw [hsplit, getD_eq_getElem?_getD, getElem?_append_right (by simp)]
    simp
  unfold decodeExisting
  rw [if_neg (by rw [hlen, htag]; simp), hdrop, htake, if_pos (validUtf8_formatI64 value),
    parseI64_formatI64 hv, ofBe_toBe he]

theorem decodeHashField_formatI64 (hv : InI64 value) :
    decodeHashField (formatI64 value) = .ok value := by
  unfold decodeHashField
  rw [if_pos (validUtf8_formatI64 value), parseI64_formatI64 hv]

theorem baseValue_encodeMerged {key : Bytes} (hv : InI64 value) (he : expireMs < 256 ^ 8)
    (hh : isHashFieldKey key = true → expireMs = 0) :
    baseValue key (some (encodeMerged key expireMs value)) = .ok (expireMs, value) := by
  unfold baseValue encodeMerged
  by_cases hk : isHashFieldKey key = true
  · simp only [hk, if_true, decodeHashField_formatI64 hv, hh hk]
    rfl
  · simp only [hk, if_false, Bool.false_eq_true]
    exact decodeExisting_encodeString hv he

theorem decodeExisting_eq_ok {bytes : Bytes} (h : decodeExisting bytes = .ok (expireMs, value)) :
    parseI64 (bytes.drop 17) = some value ∧ expireMs = ofBe (bytes.take 8) := by
  unfold decodeExisting at h
  split at h
  · cases h
  · split at h
    · split at h
      · next v hv =>
        cases h
        exact ⟨hv, rfl⟩
      · cases h
    · cases h

theorem baseValue_range {key : Bytes} {existing : Option Bytes}
    (h : baseValue key existing = .ok (expireMs, value)) :
    InI64 value ∧ expireMs < 256 ^ 8 ∧ (isHashFieldKey key = true → expireMs = 0) := by
  unfold baseValue at h
  by_cases hk : isHashFieldKey key = true
  · rw [if_pos hk] at h
    cases existing with
    | none =>
      cases h
      exact ⟨by decide, by norm_num, fun _ => rfl⟩
    | some bytes =>
      cases hd : decodeHashField bytes with
      | error e => simp only [hd] at h; cases h
      | ok v =>
        simp only [hd] at h
        cases h
        refine ⟨?_, by norm_num, fun _ => rfl⟩
        unfold decodeHashField at hd
        split at hd
        · next v' hv =>
          cases hd
          split at hv
          · exact parseI64_inI64 hv
          · cases hv
        · cases hd
  · rw [if_neg hk] at h
    cases existing with
    | none =>
      cases h
      exact ⟨by decide, by norm_num, fun _ => rfl⟩
    | some bytes =>
      obtain ⟨hv, he⟩ := decodeExisting_eq_ok h
      refine ⟨parseI64_inI64 hv, ?_, fun hh => absurd hh hk⟩
      rw [he]
      exact lt_of_lt_of_le (ofBe_lt _)
        (Nat.pow_le_pow_right (by norm_num) (length_take_le 8 bytes))

/-! ## 単位の差分の和 -/

variable {l : List Int} {m : List Int}

theorem UnitDeltas.append : UnitDeltas (l ++ m) ↔ UnitDeltas l ∧ UnitDeltas m := by
  simp only [UnitDeltas, mem_append]
  exact ⟨fun h => ⟨fun d hd => h d (Or.inl hd), fun d hd => h d (Or.inr hd)⟩,
    fun h d hd => hd.elim (h.1 d) (h.2 d)⟩

theorem UnitDeltas.sum_eq (h : UnitDeltas l) :
    l.sum = (l.count 1 : Int) - (l.count (-1) : Int) := by
  induction l with
  | nil => rfl
  | cons d l ih =>
    have hl := ih fun x hx => h x (mem_cons_of_mem _ hx)
    rcases h d mem_cons_self with rfl | rfl
    · rw [sum_cons, hl, count_cons_self, count_cons_of_ne (by decide)]
      push_cast
      ring
    · rw [sum_cons, hl, count_cons_self, count_cons_of_ne (by decide)]
      push_cast
      ring

variable {d : Int}

theorem UnitDeltas.perm_replicate (h : UnitDeltas l) (hd : d = 1 ∨ d = -1) :
    (replicate (l.count d) d ++ replicate (l.count (-d)) (-d)).Perm l := by
  rw [perm_iff_count]
  intro a
  have hne : -d ≠ d := by omega
  by_cases had : a = d
  · subst had
    simp [count_replicate, hne]
  · by_cases had' : a = -d
    · subst had'
      simp [count_replicate, Ne.symm hne]
    · have hnot : a ∉ l := by
        intro hmem
        rcases h a hmem with rfl | rfl <;> rcases hd with rfl | rfl <;> simp_all
      rw [count_append, count_replicate, count_replicate,
        count_eq_zero_of_not_mem hnot]
      simp [Ne.symm had, Ne.symm had']

/-! ## 成功する場合 -/

def HasRoom (value : Int) (deltas : List Int) : Prop :=
  value + deltas.count 1 ≤ i64Max ∧ i64Min ≤ value - deltas.count (-1)

theorem HasRoom.append (h : HasRoom value (l ++ m)) (hl : UnitDeltas l) :
    HasRoom value l ∧ HasRoom (value + l.sum) m := by
  unfold HasRoom at h ⊢
  rw [count_append, count_append] at h
  rw [hl.sum_eq]
  push_cast at h
  omega

theorem HasRoom.inI64 (h : HasRoom value l) (hl : UnitDeltas l) : InI64 (value + l.sum) := by
  unfold HasRoom at h
  unfold InI64
  rw [hl.sum_eq]
  omega

theorem HasRoom.of_append_left (h : HasRoom 0 (l ++ m)) : HasRoom 0 l := by
  unfold HasRoom at h ⊢
  rw [count_append, count_append] at h
  push_cast at h
  omega

theorem HasRoom.of_append_right (h : HasRoom 0 (l ++ m)) : HasRoom 0 m := by
  unfold HasRoom at h ⊢
  rw [count_append, count_append] at h
  push_cast at h
  omega

/-- **束ねた差分は、葉の和になる。** 0 から見た余裕があれば、どの束ね方でも溢れない。 -/
theorem OperandTree.eval_eq_ok (key : Bytes) : ∀ {tree : OperandTree}, UnitDeltas tree.leaves →
    HasRoom 0 tree.leaves → tree.eval key = .ok (toBeI64 tree.leaves.sum)
  | .leaf delta, _, _ => by simp [eval, leaves]
  | .node left right, hu, hr => by
    obtain ⟨hul, hur⟩ := UnitDeltas.append.mp hu
    have hrl : HasRoom 0 left.leaves := HasRoom.of_append_left hr
    have hrr : HasRoom 0 right.leaves := HasRoom.of_append_right hr
    have hl := hrl.inI64 hul
    have hrin := hrr.inI64 hur
    have hsum := hr.inI64 hu
    rw [zero_add] at hl hrin hsum
    rw [leaves, sum_append] at hsum ⊢
    rw [eval, eval_eq_ok key hul hrl, eval_eq_ok key hur hrr]
    simp only [partialMerge, decodeOperand_toBeI64 hl, decodeOperand_toBeI64 hrin,
      checkedAdd_of_inI64 hsum]

open OperandTree

theorem evalAll_eq_ok (key : Bytes) : ∀ {trees : List OperandTree},
    UnitDeltas (batchLeaves trees) → HasRoom 0 (batchLeaves trees) →
    evalAll key trees = .ok (trees.map fun tree => toBeI64 tree.leaves.sum)
  | [], _, _ => rfl
  | tree :: trees, hu, hr => by
    have hcons : batchLeaves (tree :: trees) = tree.leaves ++ batchLeaves trees := rfl
    rw [hcons] at hu hr
    obtain ⟨hut, hus⟩ := UnitDeltas.append.mp hu
    rw [evalAll, eval_eq_ok key hut hr.of_append_left,
      evalAll_eq_ok key hus hr.of_append_right]
    rfl

/-- **どの順に足しても溢れない。** -/
theorem addOperands_eq_ok : ∀ {trees : List OperandTree} {value : Int},
    UnitDeltas (batchLeaves trees) → HasRoom 0 (batchLeaves trees) →
    HasRoom value (batchLeaves trees) →
    addOperands value (trees.map fun tree => toBeI64 tree.leaves.sum) =
      .ok (value + (batchLeaves trees).sum)
  | [], value, _, _, _ => by simp [addOperands, batchLeaves]
  | tree :: trees, value, hu, h0, hr => by
    have hcons : batchLeaves (tree :: trees) = tree.leaves ++ batchLeaves trees := rfl
    rw [hcons] at hu h0 hr
    obtain ⟨hut, hus⟩ := UnitDeltas.append.mp hu
    obtain ⟨hrt, hrs⟩ := hr.append hut
    have hsum := h0.of_append_left.inI64 hut
    rw [zero_add] at hsum
    rw [map_cons, addOperands, decodeOperand_toBeI64 hsum]
    simp only [checkedAdd_of_inI64 (hrt.inI64 hut)]
    rw [addOperands_eq_ok hus h0.of_append_right hrs, hcons, sum_append, add_assoc]

/-- **余裕があれば、どの順でどう束ねても成功し、始まりの値に和を足した値になる。** -/
theorem mergeAll_eq_ok (key : Bytes) : ∀ {plan : List (List OperandTree)} {existing : Option Bytes}
    {expireMs : Nat} {value : Int}, baseValue key existing = .ok (expireMs, value) →
    UnitDeltas (planLeaves plan) → HasRoom 0 (planLeaves plan) → HasRoom value (planLeaves plan) →
    ∃ merged, mergeAll key existing plan = .ok merged ∧
      baseValue key merged = .ok (expireMs, value + (planLeaves plan).sum)
  | [], existing, expireMs, value, hb, _, _, _ => ⟨existing, rfl, by simpa [planLeaves] using hb⟩
  | trees :: plan, existing, expireMs, value, hb, hu, h0, hr => by
    have hcons : planLeaves (trees :: plan) = batchLeaves trees ++ planLeaves plan := rfl
    rw [hcons] at hu h0 hr
    obtain ⟨hut, hup⟩ := UnitDeltas.append.mp hu
    obtain ⟨hrt, hrp⟩ := hr.append hut
    obtain ⟨-, he, hh⟩ := baseValue_range hb
    have hnext := baseValue_encodeMerged (hrt.inI64 hut) he hh
    obtain ⟨merged, hm, hbm⟩ := mergeAll_eq_ok key hnext hup h0.of_append_right hrp
    refine ⟨merged, ?_, ?_⟩
    · rw [mergeAll, evalAll_eq_ok key hut h0.of_append_left]
      simp only [fullMerge, hb, addOperands_eq_ok hut h0.of_append_left hrt]
      exact hm
    · rw [hbm, hcons, sum_append, add_assoc]

/-! ## 失敗する場合 -/

theorem inI64_unit (hd : d = 1 ∨ d = -1) : InI64 d := by rcases hd with rfl | rfl <;> decide

theorem addOperands_replicate_error (hd : d = 1 ∨ d = -1) (rest : List Bytes) :
    ∀ {n : Nat} {value : Int}, InI64 value → ¬ InI64 (value + n * d) →
      addOperands value (replicate n (toBeI64 d) ++ rest) =
        .error (.invalidArgument "integer merge would overflow")
  | 0, value, hv, hn => absurd (by simpa using hv) hn
  | n + 1, value, hv, hn => by
    rw [replicate_succ, cons_append, addOperands, decodeOperand_toBeI64 (inI64_unit hd)]
    by_cases hs : InI64 (value + d)
    · have hn' : ¬ InI64 (value + d + n * d) := by
        rw [show value + d + n * d = value + ((n + 1 : Nat) : Int) * d by push_cast; ring]
        exact hn
      simp only [checkedAdd_of_inI64 hs]
      exact addOperands_replicate_error hd rest hs hn'
    · simp only [checkedAdd_of_not_inI64 hs]

/-- `n + 1` 個の `d` を左から順に束ねる。 -/
def chain (d : Int) : Nat → OperandTree
  | 0 => .leaf d
  | n + 1 => .node (chain d n) (.leaf d)

theorem leaves_chain (d : Int) : ∀ n, (chain d n).leaves = replicate (n + 1) d
  | 0 => rfl
  | n + 1 => by
    rw [chain, leaves, leaves_chain d n, leaves]
    exact replicate_succ'.symm

theorem eval_chain (key : Bytes) (hd : d = 1 ∨ d = -1) :
    ∀ {n : Nat}, InI64 ((n + 1 : Nat) * d) →
      (chain d n).eval key = .ok (toBeI64 ((n + 1 : Nat) * d))
  | 0, _ => by simp [chain, eval]
  | n + 1, h => by
    have hn : InI64 ((n + 1 : Nat) * d) := by
      unfold InI64 i64Min i64Max at h ⊢
      rcases hd with rfl | rfl <;> (push_cast at h ⊢; omega)
    have hsum : ((n + 1 : Nat) : Int) * d + d = ((n + 1 + 1 : Nat) : Int) * d := by push_cast; ring
    have hadd : InI64 (((n + 1 : Nat) : Int) * d + d) := by rw [hsum]; exact h
    rw [chain, eval, eval_chain key hd hn, eval]
    simp only [partialMerge, decodeOperand_toBeI64 hn, decodeOperand_toBeI64 (inI64_unit hd),
      checkedAdd_of_inI64 hadd, hsum]

theorem eval_chain_error (key : Bytes) (hd : d = 1 ∨ d = -1) :
    ∀ {n : Nat}, ¬ InI64 ((n + 1 : Nat) * d) → (chain d n).eval key =
      .error (.invalidArgument "integer merge operand would overflow")
  | 0, h => absurd (by simpa using inI64_unit hd) h
  | n + 1, h => by
    rw [chain, eval]
    by_cases hn : InI64 ((n + 1 : Nat) * d)
    · have hadd : ¬ InI64 (((n + 1 : Nat) : Int) * d + d) := by
        rw [show ((n + 1 : Nat) : Int) * d + d = ((n + 1 + 1 : Nat) : Int) * d by push_cast; ring]
        exact h
      rw [eval_chain key hd hn, eval]
      simp only [partialMerge, decodeOperand_toBeI64 hn, decodeOperand_toBeI64 (inI64_unit hd),
        checkedAdd_of_not_inI64 hadd]
    · rw [eval_chain_error key hd hn]

theorem evalAll_leaves (key : Bytes) (deltas : List Int) :
    evalAll key (deltas.map .leaf) = .ok (deltas.map toBeI64) := by
  induction deltas with
  | nil => rfl
  | cons d deltas ih => simp [evalAll, eval, ih]

theorem batchLeaves_leaves (deltas : List Int) : batchLeaves (deltas.map .leaf) = deltas := by
  induction deltas with
  | nil => rfl
  | cons d deltas ih =>
    show [d] ++ batchLeaves (deltas.map .leaf) = d :: deltas
    rw [ih]
    rfl

theorem exists_failing_order {key : Bytes} {existing : Option Bytes} {deltas : List Int}
    (hb : baseValue key existing = .ok (expireMs, value)) (hu : UnitDeltas deltas)
    (hd : d = 1 ∨ d = -1) (hover : ¬ InI64 (value + deltas.count d * d)) :
    ∃ plan, (planLeaves plan).Perm deltas ∧
      mergeAll key existing plan = .error (.invalidArgument "integer merge would overflow") := by
  obtain ⟨hv, -, -⟩ := baseValue_range hb
  let order := replicate (deltas.count d) d ++ replicate (deltas.count (-d)) (-d)
  refine ⟨[order.map .leaf], ?_, ?_⟩
  · have hl : planLeaves [order.map .leaf] = order := by
      simp [planLeaves, batchLeaves_leaves]
    rw [hl]
    exact hu.perm_replicate hd
  · rw [mergeAll, evalAll_leaves]
    simp only [fullMerge, hb, order, map_append, map_replicate]
    rw [addOperands_replicate_error hd _ hv hover]

theorem exists_failing_grouping (key : Bytes) (existing : Option Bytes) {deltas : List Int}
    (hu : UnitDeltas deltas) (hd : d = 1 ∨ d = -1) (hover : ¬ InI64 (deltas.count d * d)) :
    ∃ plan, (planLeaves plan).Perm deltas ∧ mergeAll key existing plan =
      .error (.invalidArgument "integer merge operand would overflow") := by
  obtain ⟨n, hn⟩ : ∃ n, deltas.count d = n + 1 := by
    cases hc : deltas.count d with
    | zero =>
      rw [hc, Nat.cast_zero, zero_mul] at hover
      exact absurd (by decide) hover
    | succ n => exact ⟨n, rfl⟩
  refine ⟨[chain d n :: (replicate (deltas.count (-d)) (-d)).map .leaf], ?_, ?_⟩
  · have hl : planLeaves [chain d n :: (replicate (deltas.count (-d)) (-d)).map .leaf] =
        replicate (deltas.count d) d ++ replicate (deltas.count (-d)) (-d) := by
      show (chain d n).leaves ++ batchLeaves _ ++ [] = _
      rw [leaves_chain, batchLeaves_leaves, hn, append_nil]
    rw [hl]
    exact hu.perm_replicate hd
  · rw [hn] at hover
    rw [mergeAll, evalAll, eval_chain_error key hd hover]

/--
**差分がどの順、どの束ね方でも適用できるのは、ちょうど両方向に余裕があるときである。** `1` をすべて先に
足しても、`-1` をすべて先に足しても、差分だけの和も、範囲を出ない。
-/
theorem mergeAll_succeeds_iff (key : Bytes) (existing : Option Bytes) (expireMs : Nat)
    (value : Int) (deltas : List Int) (hb : baseValue key existing = .ok (expireMs, value))
    (hu : UnitDeltas deltas) :
    (∀ plan, (planLeaves plan).Perm deltas → ∃ merged, mergeAll key existing plan = .ok merged ∧
        baseValue key merged = .ok (expireMs, value + deltas.sum)) ↔
      value + deltas.count 1 ≤ i64Max ∧ i64Min ≤ value - deltas.count (-1) ∧
      (deltas.count 1 : Int) ≤ i64Max ∧ i64Min ≤ -(deltas.count (-1) : Int) := by
  constructor
  · intro h
    have hfail : ∀ {plan : List (List OperandTree)} {e : Status}, (planLeaves plan).Perm deltas →
        mergeAll key existing plan = .error e → False := by
      intro plan e hp he
      obtain ⟨merged, hm, -⟩ := h plan hp
      rw [he] at hm
      cases hm
    have horder : ∀ d : Int, d = 1 ∨ d = -1 → InI64 (value + deltas.count d * d) := by
      intro d hd
      by_contra hover
      obtain ⟨plan, hp, he⟩ := exists_failing_order hb hu hd hover
      exact hfail hp he
    have hgroup : ∀ d : Int, d = 1 ∨ d = -1 → InI64 (deltas.count d * d) := by
      intro d hd
      by_contra hover
      obtain ⟨plan, hp, he⟩ := exists_failing_grouping key existing hu hd hover
      exact hfail hp he
    have h₁ := (horder 1 (Or.inl rfl)).2
    have h₂ := (horder (-1) (Or.inr rfl)).1
    have h₃ := (hgroup 1 (Or.inl rfl)).2
    have h₄ := (hgroup (-1) (Or.inr rfl)).1
    exact ⟨by omega, by omega, by omega, by omega⟩
  · rintro ⟨h₁, h₂, h₃, h₄⟩ plan hp
    have hup : UnitDeltas (planLeaves plan) := fun d hd => hu d (hp.subset hd)
    have hroom : ∀ v : Int, v + deltas.count 1 ≤ i64Max → i64Min ≤ v - deltas.count (-1) →
        HasRoom v (planLeaves plan) := by
      intro v hmax hmin
      unfold HasRoom
      rw [hp.count_eq, hp.count_eq]
      exact ⟨hmax, hmin⟩
    obtain ⟨merged, hm, hbm⟩ := mergeAll_eq_ok key hb hup
      (hroom 0 (by omega) (by omega)) (hroom value h₁ h₂)
    exact ⟨merged, hm, by rw [hbm, hp.sum_eq]⟩

/-! ## 範囲の端での失敗 -/

namespace ReorderedOverflow

/-- string の key `c`。 -/
def key : Bytes := [0x63]

def deltas : List Int := [1, -1, 1]

def existing : Bytes := encodeString (i64Max - 1) 0

theorem merge_fails_after_assignment : baseValue key (some existing) = .ok (0, i64Max - 1) ∧
    assignAll (i64Max - 1) deltas = some [i64Max, i64Max - 1, i64Max] ∧
    (planLeaves [[leaf 1, .leaf 1, .leaf (-1)]]).Perm deltas ∧
    mergeAll key (some existing) [[leaf 1, .leaf 1, .leaf (-1)]] =
      .error (.invalidArgument "integer merge would overflow") := by
  have hb : baseValue key (some existing) = .ok (0, i64Max - 1) := by
    show baseValue key (some (encodeMerged key 0 (i64Max - 1))) = _
    exact baseValue_encodeMerged (by decide) (by norm_num) (by decide)
  refine ⟨hb, by decide, by decide, ?_⟩
  show mergeAll key (some existing) [[1, 1, -1].map .leaf] = _
  rw [mergeAll, evalAll_leaves]
  simp only [fullMerge, hb]
  rw [show [1, 1, -1].map toBeI64 = replicate 2 (toBeI64 1) ++ [toBeI64 (-1)] from rfl,
    addOperands_replicate_error (Or.inl rfl) _ (by decide) (by decide)]

theorem merge_succeeds_away_from_limit : UnitDeltas deltas ∧ ∀ plan, (planLeaves plan).Perm deltas →
      ∃ merged, mergeAll key (some (encodeString 5 0)) plan = .ok merged ∧
        baseValue key merged = .ok (0, 5 + deltas.sum) := by
  have hb : baseValue key (some (encodeString 5 0)) = .ok (0, 5) := by
    show baseValue key (some (encodeMerged key 0 5)) = _
    exact baseValue_encodeMerged (by decide) (by norm_num) (by decide)
  have hu : UnitDeltas deltas := by
    intro d hd
    simp only [deltas, mem_cons, not_mem_nil, or_false] at hd
    omega
  exact ⟨hu, (mergeAll_succeeds_iff key _ 0 5 deltas hb hu).mpr (by decide)⟩

end ReorderedOverflow

end Onedis.Store
