import Onedis.Store.ValueCodec

/-!
# main record の往復

17 byte の header の先頭 8 byte は期限である。list と stream の meta はそこに magic を置くので、期限の上位
4 byte が magic に、record の長さが meta の長さに一致すると、見分けがつかない。

* `codec_faithful_iff` — 書いたとおりに、期限を書き換えた後も、読める条件
-/

namespace Onedis.Store.Codec

open Infra List Reader TypeTag Option

/-! ## header の形 -/

section Regular

variable {expireMs ver : UInt64} {typeTag : TypeTag} {body : Bytes}

@[simp] theorem length_regular : (regular expireMs ver typeTag body).length = 17 + body.length := by
  simp only [regular, length_append, length_beU64, length_cons]
  omega

@[simp] theorem regular_getElem?_tag :
    (regular expireMs ver typeTag body)[16]? = some typeTag.code := by
  rw [regular, ← append_assoc, getElem?_append_right (by simp)]
  simp

theorem regular_drop (n : Nat) :
    (regular expireMs ver typeTag body).drop (17 + n) = body.drop n := by
  have hsplit : regular expireMs ver typeTag body =
      (beU64 expireMs ++ (beU64 ver ++ [typeTag.code])) ++ body := by
    simp [regular]
  rw [hsplit, ← drop_drop, drop_left' (by simp)]

theorem regular_getD_flag (flag : UInt8) (rest : Bytes) :
    (regular expireMs ver typeTag (flag :: rest)).getD 17 0 = flag := by
  rw [regular, ← append_assoc, getD_eq_getElem?_getD,
    getElem?_append_right (by simp)]
  simp

@[simp] theorem u64At_regular_expire : u64At (regular expireMs ver typeTag body) 0 = expireMs :=
  u64At_append (show ([] : Bytes).length = 0 from rfl) expireMs _

@[simp] theorem u64At_regular_version : u64At (regular expireMs ver typeTag body) 8 = ver :=
  u64At_append (length_beU64 expireMs) ver _

theorem regular_take :
    (regular expireMs ver typeTag body).take 4 = toBe 4 (expireMs.toNat / 256 ^ 4) := by
  rw [regular, beU64, show (8 : Nat) = 4 + 4 from rfl, toBe_add, append_assoc]
  exact take_left' (length_toBe 4 _)

theorem isPackedRaw_regular (headerLen : Nat) (t : TypeTag) (magic : Bytes) :
    isPackedRaw headerLen t magic (regular expireMs ver typeTag body) =
      (decide (headerLen ≤ 17 + body.length) && (typeTag.code == t.code) &&
        (body.take 4 == magic)) := by
  have hdrop : (regular expireMs ver typeTag body).drop 17 = body := regular_drop 0
  simp [isPackedRaw, hdrop]

theorem TypeTag.code_injective {t t' : TypeTag} (h : t.code = t'.code) : t = t' := by
  revert h
  cases t <;> cases t' <;> decide

theorem isPackedRaw_regular_of_ne (headerLen : Nat) {t : TypeTag} (magic : Bytes)
    (h : typeTag ≠ t) :
    isPackedRaw headerLen t magic (regular expireMs ver typeTag body) = false := by
  have hcode : typeTag.code ≠ t.code := fun he => h (TypeTag.code_injective he)
  rw [isPackedRaw_regular, beq_eq_false_iff_ne.mpr hcode, Bool.and_false, Bool.false_and]

/-! ## 二つの形式の衝突 -/

def MagicClash (expireMs : UInt64) (length : Nat) : Prop :=
  (length = 36 ∧ expireMs.toNat / 256 ^ 4 = ofBe listMetaMagic) ∨
    (length = 52 ∧ expireMs.toNat / 256 ^ 4 = ofBe streamMetaMagic)

instance (expireMs : UInt64) (length : Nat) : Decidable (MagicClash expireMs length) :=
  inferInstanceAs (Decidable (_ ∨ _))

theorem high_lt (n : UInt64) : n.toNat / 256 ^ 4 < 256 ^ 4 := by
  rw [Nat.div_lt_iff_lt_mul (by positivity)]
  exact n.toNat_lt

theorem regular_take_eq_iff {magic : Bytes} (h : magic.length = 4) :
    (regular expireMs ver typeTag body).take 4 = magic ↔ expireMs.toNat / 256 ^ 4 = ofBe magic := by
  rw [regular_take]
  constructor
  · intro heq
    rw [← heq, ofBe_toBe (high_lt expireMs)]
  · intro heq
    rw [heq, ← h]
    exact toBe_ofBe magic

theorem magicClash_iff (expireMs ver : UInt64) (typeTag : TypeTag) (body : Bytes) :
    MagicClash expireMs (17 + body.length) ↔ ((regular expireMs ver typeTag body).length = 36 ∧
        (regular expireMs ver typeTag body).take 4 = listMetaMagic) ∨
      ((regular expireMs ver typeTag body).length = 52 ∧
        (regular expireMs ver typeTag body).take 4 = streamMetaMagic) := by
  rw [regular_take_eq_iff rfl, regular_take_eq_iff rfl, length_regular]
  rfl

/-- **見分けがつくかぎり、header はそのまま読める。** -/
theorem decodeMetaHeader_regular (h : ¬ MagicClash expireMs (17 + body.length)) :
    decodeMetaHeader (regular expireMs ver typeTag body) =
      some ⟨expireMs.toNat, ver.toNat, typeTag.code⟩ := by
  rw [magicClash_iff expireMs ver typeTag body, not_or] at h
  have hexpire : (regular expireMs ver typeTag body).take 8 = beU64 expireMs :=
    take_left' (length_beU64 _)
  have hversion : ((regular expireMs ver typeTag body).drop 8).take 8 = beU64 ver :=
    slice_append (length_beU64 _) (length_beU64 _) _
  rw [decodeMetaHeader, if_neg h.1, if_neg h.2, if_neg (by rw [length_regular]; omega), hexpire,
    hversion, ofBe_beU64, ofBe_beU64, getD_eq_getElem?_getD, regular_getElem?_tag]
  rfl

theorem patchMetaExpireMs_regular (expireMs' : UInt64)
    (h : ¬ MagicClash expireMs (17 + body.length)) :
    patchMetaExpireMs (regular expireMs ver typeTag body) expireMs' =
      some (regular expireMs' ver typeTag body) := by
  rw [magicClash_iff expireMs ver typeTag body] at h
  have hdrop : (regular expireMs ver typeTag body).drop 8 =
      beU64 ver ++ typeTag.code :: body := drop_left' (length_beU64 _)
  rw [patchMetaExpireMs, if_neg h, if_neg (by rw [length_regular]; omega), hdrop]
  rfl

theorem decodeMetaHeader_clash (h : MagicClash expireMs (17 + body.length)) :
    ∃ hdr, decodeMetaHeader (regular expireMs ver typeTag body) = some hdr ∧
      (17 + body.length = 36 ∧ hdr.typeTag = list.code ∧ hdr.version =
          ofBe (((regular expireMs ver typeTag body).drop 12).take 8) ∨
        17 + body.length = 52 ∧ hdr.typeTag = stream.code) := by
  rw [magicClash_iff expireMs ver typeTag body] at h
  unfold decodeMetaHeader
  rcases h with hlist | hstream
  · rw [if_pos hlist]
    have hlen := hlist.1
    rw [length_regular] at hlen
    exact ⟨_, rfl, .inl ⟨hlen, rfl, by dsimp only⟩⟩
  · have hne : ¬ (regular expireMs ver typeTag body).length = 36 := by
      rw [hstream.1]
      decide
    rw [if_neg fun hlist => hne hlist.1, if_pos hstream]
    have hlen := hstream.1
    rw [length_regular] at hlen
    exact ⟨_, rfl, .inr ⟨hlen, rfl⟩⟩

theorem decodeExpireMs_regular (h : ¬ MagicClash expireMs (17 + body.length)) :
    decodeExpireMs (regular expireMs ver typeTag body) = expireMs := by
  rw [magicClash_iff expireMs ver typeTag body, not_or] at h
  unfold decodeExpireMs decodeListMeta
  cases decodePackedList (regular expireMs ver typeTag body) with
  | some items => exact u64At_regular_expire
  | none =>
    simp only [if_neg h.1]
    unfold decodeStreamMeta
    cases hstream : decodePackedStream (regular expireMs ver typeTag body) with
    | some found =>
      obtain ⟨-, hstream⟩ := ite_none_right_eq_some.mp hstream
      obtain ⟨parsed, -, rfl⟩ := map_eq_some_iff.mp hstream
      exact u64At_regular_expire
    | none =>
      simp only [if_neg h.2]
      rw [if_neg (by rw [length_regular]; omega), u64At_regular_expire]

end Regular

/-! ## packed な中身の往復 -/

section Packed

variable {ι V : Type} {expireMs ver : UInt64} {typeTag : TypeTag} {magic content raw : Bytes}

theorem regular_drop_magic (hmagic : magic.length = 4) :
    (regular expireMs ver typeTag (magic ++ content)).drop 21 = content := by
  rw [show (21 : Nat) = 17 + 4 from rfl, regular_drop, drop_left' hmagic]

variable {headerLen : Nat}

theorem isPackedRaw_magic (hmagic : magic.length = 4) (hlen : headerLen ≤ 21 + content.length) :
    isPackedRaw headerLen typeTag magic (regular expireMs ver typeTag (magic ++ content)) =
      true := by
  rw [isPackedRaw_regular, take_left' hmagic]
  simp only [length_append, hmagic, beq_self_eq_true, Bool.and_true, decide_eq_true_eq]
  omega

variable {fits : ι → Bool} {size : ι → Nat} {items : List ι}

theorem encodedLen_iff :
    (∃ len, encodedLen fits size headerLen items = some len ∧ len ≤ 8192) ↔
      (∀ item ∈ items, fits item = true) ∧ headerLen + (items.map size).sum ≤ 8192 := by
  induction items generalizing headerLen with
  | nil => simp [encodedLen]
  | cons item items ih =>
    unfold encodedLen
    rw [foldlM_cons, forall_mem_cons, map_cons, sum_cons, ← Nat.add_assoc]
    split
    · next hstep =>
      rw [and_iff_right hstep.1]
      exact ih
    · next hstep =>
      refine iff_of_false (by simp) ?_
      rintro ⟨⟨hfits, -⟩, hle⟩
      exact hstep ⟨hfits, by omega⟩

theorem encodePacked_iff {maxItems : Nat} {body : Bytes} :
    encodePacked maxItems 8192 headerLen fits size items body = some raw ↔
      items.length ≤ maxItems ∧ (∀ item ∈ items, fits item = true) ∧
        headerLen + (items.map size).sum ≤ 8192 ∧ raw = body := by
  rw [← and_assoc (c := raw = body), ← encodedLen_iff]
  unfold encodePacked
  cases encodedLen fits size headerLen items <;> simp [eq_comm]

/-- 数を前置した項目の列。 -/
theorem counted_eq_some {σ : Type} {maxItems : Nat} {step : σ → Reader σ} {encode : ι → Bytes}
    {R : σ → ι → σ → Prop} (hmax : maxItems < 256 ^ 2)
    (h : Parses step encode R) {s s' : σ} : parseAll (do
        let count ← be 2
        require (count ≤ maxItems)
        iterate step count s) raw = some s' ↔
      ∃ xs : List ι, xs.length ≤ maxItems ∧ raw = toBe 2 xs.length ++ xs.flatMap encode ∧
        Steps R xs s s' := by
  simp only [parseAll_eq_some, bind_eq_some, be_eq_some, require_eq_some, iterate_eq_some h,
    append_nil]
  constructor
  · rintro ⟨_, _, ⟨rfl, -⟩, ⟨⟩, _, ⟨hle, rfl⟩, xs, rfl, rfl, hxs⟩
    exact ⟨xs, of_decide_eq_true hle, rfl, hxs⟩
  · rintro ⟨xs, hle, rfl, hxs⟩
    exact ⟨_, _, ⟨rfl, hle.trans_lt hmax⟩, (), _, ⟨decide_eq_true hle, rfl⟩, xs, rfl, rfl, hxs⟩

/-- 整列した写像に、新しい key の項目を足す。 -/
def KeyedStep (fits : Bytes × V → Prop) (m : List (Bytes × V)) (x : Bytes × V)
    (m' : List (Bytes × V)) : Prop :=
  fits x ∧ validUtf8 x.1 = true ∧ insertNew x.1 x.2 m = some m'

theorem PackedMap.steps (m : PackedMap V) {fits : Bytes × V → Prop}
    (hfits : ∀ x ∈ m.entries, fits x) : Steps (KeyedStep fits) m.entries [] m.entries := by
  suffices hsplit : ∀ post pre, m.entries = pre ++ post →
      Steps (KeyedStep fits) post pre m.entries from hsplit _ [] rfl
  intro post
  induction post with
  | nil => exact fun pre h => by rw [h, append_nil]; rfl
  | cons x post ih =>
    intro pre h
    have hmem : x ∈ m.entries := by simp [h]
    have hsorted := m.sorted
    rw [h, pairwise_append] at hsorted
    exact ⟨pre ++ [x], ⟨hfits x hmem, m.valid x hmem,
      insertNew_of_last fun entry hentry => hsorted.2.2 entry hentry x (mem_cons_self ..)⟩,
      ih _ (by simp [h])⟩

theorem parses_hashItem : Parses readHashItem encodeHashItem
    (KeyedStep fun x => x.1.length < 256 ^ 2 ∧ x.2.length < 256 ^ 4) := by
  intro m bs m' rest
  simp [readHashItem, encodeHashItem, KeyedStep, and_assoc]

theorem isPackedHashRaw_magic (h : 2 ≤ content.length) : isPackedHashRaw (regular expireMs ver .hash
      (hashMetaFlagPacked :: (packedHashMagic ++ content))) = true := by
  have hmagic : packedHashMagic.length = 4 := rfl
  unfold isPackedHashRaw
  rw [regular_getElem?_tag, regular_getD_flag, show (18 : Nat) = 17 + 1 from rfl, regular_drop,
    length_regular, drop_one, tail_cons, take_left' hmagic]
  have hlen : 24 ≤ 17 + (hashMetaFlagPacked :: (packedHashMagic ++ content)).length := by
    rw [length_cons, length_append, hmagic]
    omega
  simp only [hlen, decide_true, beq_self_eq_true, Bool.true_and, Bool.and_true]
  decide

theorem decodePackedHash_encode (m : PackedMap Bytes)
    (h : encodePackedHash expireMs m.entries = some raw) :
    decodePackedHash raw = some m.entries := by
  obtain ⟨hcount, hfits, -, rfl⟩ := encodePacked_iff.mp h
  have hmagic : packedHashMagic.length = 4 := rfl
  rw [decodePackedHash, if_pos (isPackedHashRaw_magic (by simp)), show (22 : Nat) = 17 + 5 from rfl,
    regular_drop, drop_succ_cons, drop_left' hmagic]
  exact (counted_eq_some (by decide) parses_hashItem).mpr
    ⟨_, hcount, rfl, m.steps (by simpa using hfits)⟩

theorem parses_setItem :
    Parses readSetItem encodeSetItem (KeyedStep fun x => x.1.length < 256 ^ 4) := by
  intro m bs m' rest
  simp [readSetItem, encodeSetItem, KeyedStep, and_assoc, Unique.exists_iff]

theorem decodePackedSet_encode (m : PackedMap Unit)
    (h : encodePackedSet expireMs m.entries = some raw) :
    decodePackedSet raw = some m.entries := by
  obtain ⟨hcount, hfits, -, rfl⟩ := encodePacked_iff.mp h
  rw [decodePackedSet, isPackedSetRaw, if_pos (isPackedRaw_magic rfl (by simp; omega)),
    regular_drop_magic rfl]
  exact (counted_eq_some (by decide) parses_setItem).mpr
    ⟨_, hcount, rfl, m.steps (by simpa using hfits)⟩

theorem parses_zsetItem : Parses readZsetItem encodeZsetItem
    (KeyedStep fun x => x.1.length < 256 ^ 4 ∧ scoreIsNan x.2 = false) := by
  intro m bs m' rest
  simp only [readZsetItem, encodeZsetItem, KeyedStep, beU64, bind_eq_some, be_eq_some, u64_eq_some]
  simp [and_assoc]
  exact exists_comm

theorem decodePackedZset_encode (m : PackedMap UInt64)
    (h : encodePackedZset expireMs m.entries = some raw) :
    decodePackedZset raw = some m.entries := by
  obtain ⟨hnan, h⟩ := ite_none_left_eq_some.mp h
  obtain ⟨hcount, hfits, -, rfl⟩ := encodePacked_iff.mp h
  rw [decodePackedZset, isPackedZsetRaw, if_pos (isPackedRaw_magic rfl (by simp; omega)),
    regular_drop_magic rfl]
  rw [Bool.not_eq_true, List.any_eq_false] at hnan
  exact (counted_eq_some (by decide) parses_zsetItem).mpr ⟨_, hcount, rfl,
    m.steps fun x hx => ⟨by simpa using hfits x hx, by simpa using hnan x hx⟩⟩

theorem parses_listItem : Parses readListItem encodeListItem
    fun items x items' => x.length < 256 ^ 4 ∧ items ++ [x] = items' := by
  intro items bs items' rest
  simp [readListItem, encodeListItem, and_assoc, -bind_pure_comp]

theorem steps_append {ok : ι → Prop} {xs s s' : List ι} :
    Steps (fun s x s' => ok x ∧ s ++ [x] = s') xs s s' ↔ (∀ x ∈ xs, ok x) ∧ s ++ xs = s' := by
  induction xs generalizing s with
  | nil => simp [Steps]
  | cons x xs ih => simp [Steps, ih, and_assoc]

theorem decodePackedList_encode {items : List Bytes}
    (h : encodePackedList expireMs items = some raw) : decodePackedList raw = some items := by
  obtain ⟨hcount, hfits, -, rfl⟩ := encodePacked_iff.mp h
  rw [decodePackedList, isPackedListRaw, if_pos (isPackedRaw_magic rfl (by simp; omega)),
    regular_drop_magic rfl]
  exact (counted_eq_some (by decide) parses_listItem).mpr
    ⟨_, hcount, rfl, steps_append.mpr ⟨by simpa using hfits, rfl⟩⟩

theorem packedList_version_ne_zero (content : Bytes) :
    ofBe (((regular expireMs 0 .list (packedListMagic ++ content)).drop 12).take 8) ≠ 0 := by
  have hsplit : regular expireMs 0 .list (packedListMagic ++ content) =
      (beU64 expireMs ++ [0, 0, 0, 0]) ++
        ([0, 0, 0, 0, 0x05, 0xf1, 0x4c, 0x50] ++ (0x01 :: content)) := by
    have hzero : beU64 0 = [0, 0, 0, 0, 0, 0, 0, 0] := by decide
    rw [regular, hzero]
    simp [packedListMagic, code]
  have htag : ([0, 0, 0, 0, 0x05, 0xf1, 0x4c, 0x50] : Bytes).length = 8 := rfl
  rw [hsplit, slice_append (by simp) htag]
  decide

/-! ### stream -/

theorem readStreamId_eq_some {id : StreamId} {bs rest : Bytes} :
    readStreamId bs = some (id, rest) ↔ bs = id.bytes ++ rest := by
  cases id
  simp [readStreamId, StreamId.bytes, beU64, -bind_pure_comp]

/-- entry ごとに確かめる条件。`previous` は直前の entry の id である。 -/
@[mk_iff] structure StreamItemOk (lastId : StreamId) (previous : Option StreamId)
    (x : StreamId × Bytes) :
    Prop where
  order : streamIdInOrder lastId previous x.1 = true
  entry : (decodeStreamEntry x.2).isSome = true
  fits : x.2.length < 256 ^ 4

variable {entries : List (StreamId × Bytes)}

def StreamStep (lastId : StreamId) (s : Option StreamId × List (StreamId × Bytes))
    (x : StreamId × Bytes) (s' : Option StreamId × List (StreamId × Bytes)) : Prop :=
  StreamItemOk lastId s.1 x ∧ (some x.1, s.2 ++ [x]) = s'

theorem parses_streamItem (lastId : StreamId) :
    Parses (readStreamItem lastId) encodeStreamItem (StreamStep lastId) := by
  intro s bs s' rest
  simp [readStreamItem, encodeStreamItem, readStreamId_eq_some, StreamStep, streamItemOk_iff,
    and_assoc, -bind_pure_comp]
  grind

theorem steps_entries {lastId : StreamId} {s s' : Option StreamId × List (StreamId × Bytes)}
    (h : Steps (StreamStep lastId) entries s s') : s.2 ++ entries = s'.2 := by
  induction entries generalizing s with
  | nil => rw [append_nil, show s = s' from h]
  | cons x entries ih =>
    obtain ⟨_, ⟨-, rfl⟩, hrest⟩ := h
    rw [← ih hrest, append_assoc]
    rfl

theorem streamSteps_cons {lastId : StreamId} {s : Option StreamId × List (StreamId × Bytes)}
    {e : StreamId × Bytes} :
    (∃ last, Steps (StreamStep lastId) (e :: entries) s (last, s.2 ++ e :: entries)) ↔
      StreamItemOk lastId s.1 e ∧ ∃ last, Steps (StreamStep lastId) entries (some e.1, s.2 ++ [e])
        (last, s.2 ++ [e] ++ entries) := by
  simp [Steps, StreamStep, and_assoc]

theorem packedStreamLen_eq_some_iff {lastId : StreamId}
    {s : Option StreamId × List (StreamId × Bytes)} {len total : Nat} (hlen : len < 256 ^ 8) :
    packedStreamLen lastId entries s.1 len = some total ↔
      (∃ last, Steps (StreamStep lastId) entries s (last, s.2 ++ entries)) ∧
        len + (entries.map fun e => 20 + e.2.length).sum = total ∧ total < 256 ^ 8 := by
  induction entries generalizing s len with
  | nil =>
    have hsteps : ∃ last, Steps (StreamStep lastId) [] s (last, s.2 ++ []) :=
      ⟨s.1, by rw [append_nil]; rfl⟩
    rw [and_iff_right hsteps, packedStreamLen, some_inj, map_nil, sum_nil, Nat.add_zero]
    exact ⟨fun h => ⟨h, h ▸ hlen⟩, And.left⟩
  | cons e rest ih =>
    rw [streamSteps_cons, packedStreamLen, ite_none_right_eq_some, streamItemOk_iff, map_cons,
      sum_cons,
      ← Nat.add_assoc len (20 + _)]
    constructor
    · rintro ⟨⟨horder, hentry, hfits, hsum⟩, h⟩
      obtain ⟨hrest, htotal⟩ := (@ih (some e.1, s.2 ++ [e]) _ hsum).mp h
      exact ⟨⟨⟨horder, hentry, hfits⟩, hrest⟩, htotal⟩
    · rintro ⟨⟨⟨horder, hentry, hfits⟩, hrest⟩, htotal⟩
      have hsum : len + (20 + e.2.length) < 256 ^ 8 := by omega
      exact ⟨⟨horder, hentry, hfits, hsum⟩,
        (@ih (some e.1, s.2 ++ [e]) _ hsum).mpr ⟨hrest, htotal⟩⟩

theorem encodePackedStream_iff {m : StreamMeta} :
    encodePackedStream m entries = some raw ↔
      (entries.length ≤ 32 ∧ m.length = UInt64.ofNat entries.length ∧ m.length ≤ m.entriesAdded) ∧
        ((∃ last, Steps (StreamStep m.lastId) entries (none, []) (last, entries)) ∧
          55 + (entries.map fun e => 20 + e.2.length).sum ≤ 8192) ∧
          raw = regular m.expireMs 0 .stream (packedStreamMagic ++ (m.lastId.bytes ++
            (beU64 m.length ++ (beU64 m.entriesAdded ++
              (toBe 2 entries.length ++ entries.flatMap encodeStreamItem))))) := by
  have hlen : (∃ len, packedStreamLen m.lastId entries none 55 = some len ∧ len ≤ 8192) ↔
      (∃ last, Steps (StreamStep m.lastId) entries (none, []) (last, entries)) ∧
        55 + (entries.map fun e => 20 + e.2.length).sum ≤ 8192 := by
    have hspec := fun total => @packedStreamLen_eq_some_iff entries m.lastId (none, []) 55 total
      (by norm_num)
    constructor
    · rintro ⟨len, h, hle⟩
      obtain ⟨hsteps, rfl, -⟩ := (hspec len).mp h
      exact ⟨hsteps, hle⟩
    · rintro ⟨hsteps, hle⟩
      exact ⟨_, (hspec _).mpr ⟨hsteps, rfl, by omega⟩, hle⟩
  rw [← hlen]
  unfold encodePackedStream
  cases packedStreamLen m.lastId entries none 55 <;> simp [eq_comm, and_assoc]

theorem readPackedStream_eq_some {lastId : StreamId} {length entriesAdded : UInt64} :
    parseAll readPackedStream raw = some (lastId, length, entriesAdded, entries) ↔
      (entries.length ≤ 32 ∧ length = UInt64.ofNat entries.length ∧ length ≤ entriesAdded) ∧
        raw = lastId.bytes ++ (beU64 length ++ (beU64 entriesAdded ++ (toBe 2 entries.length ++
          entries.flatMap encodeStreamItem))) ∧
        ∃ last, Steps (StreamStep lastId) entries (none, []) (last, entries) := by
  simp only [readPackedStream, parseAll_eq_some, bind_eq_some, readStreamId_eq_some, u64_eq_some,
    be_eq_some, require_eq_some, iterate_eq_some (parses_streamItem _), pure_eq_some,
    Bool.and_eq_true, decide_eq_true_eq, beq_iff_eq, Bool.not_eq_true', decide_eq_false_iff_not,
    UInt64.not_lt]
  constructor
  · rintro ⟨_, _, rfl, _, _, rfl, _, _, rfl, _, _, ⟨rfl, -⟩, ⟨⟩, _, ⟨⟨⟨hle, rfl⟩, hadded⟩, rfl⟩,
      ⟨last, _⟩, _, ⟨xs, rfl, rfl, hsteps⟩, heq, rfl⟩
    cases heq
    obtain rfl := steps_entries hsteps
    exact ⟨⟨hle, rfl, hadded⟩, by simp [beU64], last, hsteps⟩
  · rintro ⟨⟨hle, rfl, hadded⟩, rfl, last, hsteps⟩
    exact ⟨_, _, rfl, _, _, rfl, _, _, rfl, _, _, ⟨rfl, by omega⟩, (), _,
      ⟨⟨⟨hle, rfl⟩, hadded⟩, rfl⟩,
      (last, entries), _, ⟨entries, rfl, (append_nil _).symm, hsteps⟩, rfl, rfl⟩

theorem decodePackedStream_encode {m : StreamMeta} (h : encodePackedStream m entries = some raw) :
    decodePackedStream raw =
      some (⟨m.expireMs, 0, m.lastId, m.length, m.entriesAdded⟩, entries) := by
  obtain ⟨hcount, ⟨hsteps, -⟩, rfl⟩ := encodePackedStream_iff.mp h
  rw [decodePackedStream, isPackedStreamRaw,
    if_pos (isPackedRaw_magic rfl (by simp [StreamId.bytes]; omega)), regular_drop_magic rfl,
    readPackedStream_eq_some.mpr ⟨hcount, rfl, hsteps⟩, map_some,
    u64At_regular_expire]

theorem packedStream_length {m : StreamMeta} (h : encodePackedStream m entries = some raw) :
    55 ≤ raw.length := by
  by_contra hlen
  have hdecode := decodePackedStream_encode h
  rw [decodePackedStream, if_neg (by simp [isPackedStreamRaw, isPackedRaw, hlen])] at hdecode
  cases hdecode

end Packed

/-! ## 値ごとの復号 -/

section Payload

variable {expireMs ver : UInt64} {typeTag : TypeTag} {body raw : Bytes} {serde : Serde}

theorem decodeStringBytes_encode (value : Bytes) :
    decodeStringBytes (encodeRawString value expireMs) = some value := by
  have hdrop : (regular expireMs 0 .string value).drop 17 = value := regular_drop 0
  rw [encodeRawString, decodeStringBytes, hdrop, if_pos ⟨by simp, regular_getElem?_tag⟩]

theorem decodeHashMeta_regular (h : ¬ MagicClash expireMs (17 + body.length)) :
    decodeHashMeta (regular expireMs ver .hash body) = some ⟨expireMs, ver,
        if isPackedHashRaw (regular expireMs ver .hash body) then false
        else if (regular expireMs ver .hash body).length = 18 then
          (regular expireMs ver .hash body).getD 17 0 &&& hashMetaFlagMayHaveFieldTtl != 0
        else true, isPackedHashRaw (regular expireMs ver .hash body)⟩ := by
  unfold decodeHashMeta
  rw [decodeMetaHeader_regular h]
  simp

theorem decodeHashMeta_encode (flag : Bool) :
    decodeHashMeta (encodeHashMetaWithFieldTtlFlag expireMs ver flag) =
      some ⟨expireMs, ver, flag, false⟩ := by
  have hclash : ∀ b : UInt8, ¬ MagicClash expireMs (17 + [b].length) := by simp [MagicClash]
  have hpacked : ∀ b : UInt8, isPackedHashRaw (regular expireMs ver .hash [b]) = false := by
    simp [isPackedHashRaw]
  rw [encodeHashMetaWithFieldTtlFlag, decodeHashMeta_regular (hclash _), hpacked,
    regular_getD_flag, length_regular]
  cases flag <;> rfl

theorem decodeHashMeta_packed (m : PackedMap Bytes)
    (h : encodePackedHash expireMs m.entries = some raw)
    (hclash : ¬ MagicClash expireMs raw.length) :
    decodeHashMeta raw = some ⟨expireMs, 0, false, true⟩ := by
  obtain ⟨-, -, -, rfl⟩ := encodePacked_iff.mp h
  rw [length_regular] at hclash
  rw [decodeHashMeta_regular hclash, isPackedHashRaw_magic (by simp)]
  rfl

theorem decodePackedSet_encodeSetMeta (len : UInt64) :
    decodePackedSet (encodeSetMeta expireMs ver len) = none := by
  unfold decodePackedSet
  split
  · have hlen : ((encodeSetMeta expireMs ver len).drop 21).length = 4 := by
      simp [encodeSetMeta]
    obtain ⟨a, b, c, d, htail⟩ := length_eq_four.mp hlen
    have hread : (do
        let count ← be 2
        require (count ≤ 128)
        iterate readSetItem count [] : Reader _) [a, b, c, d] =
        (do
          require (ofBe [a, b] ≤ 128)
          iterate readSetItem (ofBe [a, b]) [] : Reader _) [c, d] := rfl
    rw [htail, parseAll, hread]
    cases hcount : ofBe [a, b] with
    | zero => rfl
    | succ n =>
      -- 一項目目の長さを読むのに 2 byte 足りない
      by_cases hmax : n + 1 ≤ 128
      · have hrequire : require (decide (n + 1 ≤ 128)) = pure () := by
          funext bs
          simp [require, hmax]
          rfl
        rw [hrequire]
        rfl
      · have hrequire : require (decide (n + 1 ≤ 128)) = fun _ => none := by
          funext bs
          simp [require, hmax]
        rw [hrequire]
        rfl
  · rfl

theorem decodeSetMeta_encode (len : UInt64) :
    decodeSetMeta (encodeSetMeta expireMs ver len) = some ⟨expireMs, ver, len, false⟩ := by
  have hclash : ¬ MagicClash expireMs (17 + (beU64 len).length) := by simp [MagicClash]
  have hlen : u64At (encodeSetMeta expireMs ver len) 17 = len := by
    have hpre : (beU64 expireMs ++ (beU64 ver ++ [set.code])).length = 17 := by simp
    have h := u64At_append hpre len []
    rwa [append_nil, append_assoc, append_assoc] at h
  unfold decodeSetMeta
  rw [decodePackedSet_encodeSetMeta, hlen]
  simp [encodeSetMeta, decodeMetaHeader_regular hclash]

theorem decodeSetMeta_packed (m : PackedMap Unit)
    (h : encodePackedSet expireMs m.entries = some raw)
    (hclash : ¬ MagicClash expireMs raw.length) :
    decodeSetMeta raw = some ⟨expireMs, 0, UInt64.ofNat m.entries.length, true⟩ := by
  have hdecode := decodePackedSet_encode m h
  obtain ⟨-, -, -, rfl⟩ := encodePacked_iff.mp h
  rw [length_regular] at hclash
  unfold decodeSetMeta
  rw [decodeMetaHeader_regular hclash, hdecode]
  simp

theorem decodeZsetMeta_regular (h : ¬ MagicClash expireMs (17 + body.length)) :
    decodeZsetMeta (regular expireMs ver .sortedSet body) = some (expireMs, ver) := by
  unfold decodeZsetMeta
  rw [decodeMetaHeader_regular h]
  simp

theorem decodeListMeta_packed {items : List Bytes}
    (h : encodePackedList expireMs items = some raw) :
    decodeListMeta raw = some ⟨expireMs, 0, 0, Int64.ofNat items.length⟩ := by
  have hdecode := decodePackedList_encode h
  obtain ⟨-, -, -, rfl⟩ := encodePacked_iff.mp h
  rw [decodeListMeta, hdecode]
  simp

/-! ### JSON -/

theorem decodeEntry_jsonMarker : serde.decodeEntry (encodeJsonMeta expireMs ver) =
      some (expireMs, ver, .json jsonIndexedMarker) := by
  have hlen : (encodeJsonMeta expireMs ver).length = 45 := length_regular
  have hclash : ¬ MagicClash expireMs (17 + jsonMarkerBody.length) := by
    simp [MagicClash, jsonMarkerBody, jsonIndexedMarker]
  have hother : ∀ headerLen t magic, t ≠ .json →
      ¬ isPackedRaw headerLen t magic (encodeJsonMeta expireMs ver) = true :=
    fun headerLen _ magic h => by simp [encodeJsonMeta, isPackedRaw_regular_of_ne _ _ h.symm]
  have hlist : decodePackedList (encodeJsonMeta expireMs ver) = none :=
    if_neg (hother _ _ _ (by decide))
  have hstream : decodePackedStream (encodeJsonMeta expireMs ver) = none :=
    if_neg (hother _ _ _ (by decide))
  have hset : decodePackedSet (encodeJsonMeta expireMs ver) = none :=
    if_neg (hother _ _ _ (by decide))
  have hzset : decodePackedZset (encodeJsonMeta expireMs ver) = none :=
    if_neg (hother _ _ _ (by decide))
  have hjson : serde.decodePackedJson (encodeJsonMeta expireMs ver) = none :=
    if_neg (by rw [isPackedJsonRaw, encodeJsonMeta, isPackedRaw_regular]; decide)
  have hhash : decodeHashMeta (encodeJsonMeta expireMs ver) = none := by
    rw [decodeHashMeta, encodeJsonMeta, decodeMetaHeader_regular hclash]
    rfl
  have hlistMeta : decodeListMeta (encodeJsonMeta expireMs ver) = none := by
    rw [decodeListMeta, hlist]
    simp [hlen]
  have hstreamMeta : decodeStreamMeta (encodeJsonMeta expireMs ver) = none := by
    rw [decodeStreamMeta, hstream]
    simp [hlen]
  have htag : (encodeJsonMeta expireMs ver)[16]? = some json.code := regular_getElem?_tag
  have hbody : (encodeJsonMeta expireMs ver).drop 17 = jsonMarkerBody := regular_drop 0
  have hfields : u64At (encodeJsonMeta expireMs ver) 0 = expireMs ∧
      u64At (encodeJsonMeta expireMs ver) 8 = ver :=
    ⟨u64At_regular_expire, u64At_regular_version⟩
  unfold Serde.decodeEntry
  simp only [hlist, hlistMeta, hstream, hstreamMeta, hhash, hset, hzset, hjson, hlen, htag, hbody,
    hfields, serde.bincodeDecode_marker, isSome_none, any_none, map_some,
    Bool.false_eq_true, if_false, Nat.reduceLT]
  rw [if_neg (by decide)]

theorem decodeJsonMeta_encode :
    serde.decodeJsonMeta (encodeJsonMeta expireMs ver) = .ok (expireMs, ver) := by
  have hclash : ¬ MagicClash expireMs (17 + jsonMarkerBody.length) := by
    simp [MagicClash, jsonMarkerBody, jsonIndexedMarker]
  have hpacked : isPackedJsonRaw (encodeJsonMeta expireMs ver) = false := by
    rw [isPackedJsonRaw, encodeJsonMeta, isPackedRaw_regular]
    decide
  have hhdr : decodeMetaHeader (encodeJsonMeta expireMs ver) = _ := decodeMetaHeader_regular hclash
  unfold Serde.decodeJsonMeta
  rw [hhdr, hpacked, decodeEntry_jsonMarker]
  simp

theorem encodePackedJson_iff {value : JsonValue} :
    serde.encodePackedJson expireMs value = some raw ↔ value.nodeCount ≤ 256 ∧
      ∃ payload, serde.jsonToVec value = some payload ∧ 25 + payload.length ≤ 16384 ∧
        raw = regular expireMs 0 .json (packedJsonMagic ++ (toBe 4 payload.length ++ payload)) := by
  unfold Serde.encodePackedJson
  cases serde.jsonToVec value with
  | none => simp
  | some payload => grind

theorem decodePackedJson_encode {value : JsonValue}
    (h : serde.encodePackedJson expireMs value = some raw) :
    ∃ payload, serde.jsonToVec value = some payload ∧
      raw = regular expireMs 0 .json (packedJsonMagic ++ (toBe 4 payload.length ++ payload)) ∧
      serde.decodePackedJson raw = serde.jsonFromSlice payload := by
  obtain ⟨-, payload, hpayload, hsize, rfl⟩ := encodePackedJson_iff.mp h
  have hread : parseAll (lengthPrefixed 4) (toBe 4 payload.length ++ payload) = some payload :=
    Reads.parseAll fun rest => lengthPrefixed_eq_some.mpr ⟨by simp, by omega⟩
  refine ⟨payload, hpayload, rfl, ?_⟩
  rw [Serde.decodePackedJson, isPackedJsonRaw,
    if_pos (isPackedRaw_magic rfl (by simp; omega)), regular_drop_magic rfl, hread]

end Payload

/-! ## 書いたとおりに読める条件 -/

namespace StoredValue

section

variable {serde : Serde} {v : StoredValue} {expireMs expireMs' : UInt64} {raw : Bytes}

def IsFramed : StoredValue → Prop
  | listMeta .. | streamMeta .. => False
  | _ => True

/-- 上位 4 byte も下位 4 byte も `USTR` である期限。 -/
def streamMagicTwice : UInt64 := 0x5553545255535452

/--
書いた record `raw` が曖昧でない。header を持つ形式では、期限の上位 4 byte と長さが meta のものに一致せず、
meta では、packed な list としても読めてしまわない。packed な JSON では、payload が serde_json で往復する。
-/
def Clear (serde : Serde) (expireMs : UInt64) (raw : Bytes) : StoredValue → Prop
  | listMeta .. => decodePackedList raw = none
  | streamMeta .. => decodePackedList raw = none ∨ expireMs = streamMagicTwice
  | packedJson value => ¬ MagicClash expireMs raw.length ∧
      ∀ payload, serde.jsonToVec value = some payload → serde.jsonFromSlice payload = some value
  | _ => ¬ MagicClash expireMs raw.length

theorem encode_framed (hv : v.IsFramed) (h : v.encode serde expireMs = some raw) :
    ∃ body, raw = regular expireMs v.version v.typeTag body ∧
      ∀ expireMs', v.encode serde expireMs' =
        some (regular expireMs' v.version v.typeTag body) := by
  cases v with
  | string | hashMeta | setMeta | zsetMeta | jsonMeta =>
    exact ⟨_, (some.inj h).symm, fun _ => rfl⟩
  | packedHash | packedSet | packedList =>
    obtain ⟨hcount, hfits, hlen, rfl⟩ := encodePacked_iff.mp h
    exact ⟨_, rfl, fun _ => encodePacked_iff.mpr ⟨hcount, hfits, hlen, rfl⟩⟩
  | packedZset entries =>
    obtain ⟨hnan, hpacked⟩ := ite_none_left_eq_some.mp h
    obtain ⟨hcount, hfits, hlen, rfl⟩ := encodePacked_iff.mp hpacked
    exact ⟨_, rfl, fun _ => ite_none_left_eq_some.mpr
      ⟨hnan, encodePacked_iff.mpr ⟨hcount, hfits, hlen, rfl⟩⟩⟩
  | packedStream =>
    obtain ⟨hbounds, hlen, rfl⟩ := encodePackedStream_iff.mp h
    exact ⟨_, rfl, fun _ => encodePackedStream_iff.mpr ⟨hbounds, hlen, rfl⟩⟩
  | packedJson =>
    obtain ⟨hnodes, payload, hpayload, hsize, rfl⟩ := encodePackedJson_iff.mp h
    exact ⟨_, rfl, fun _ => encodePackedJson_iff.mpr ⟨hnodes, payload, hpayload, hsize, rfl⟩⟩
  | listMeta | streamMeta => exact hv.elim

theorem header_of_clash (hv : v.IsFramed) (h : v.encode serde expireMs = some raw)
    (hhdr : decodeMetaHeader raw = some ⟨expireMs.toNat, v.version.toNat, v.typeTag.code⟩) :
    ¬ MagicClash expireMs raw.length := by
  intro hclash
  obtain ⟨body, rfl, -⟩ := encode_framed hv h
  rw [length_regular] at hclash
  obtain ⟨hdr, hdecode, hcase⟩ := decodeMetaHeader_clash hclash
  rw [hhdr] at hdecode
  obtain rfl := some.inj hdecode
  rcases hcase with ⟨-, htag, hversion⟩ | ⟨hlen, htag⟩
  · -- list として読まれるのは packed な list だけで、そのときは version が 0 でなくなる
    have htype : v.typeTag = .list := TypeTag.code_injective htag
    cases v with
    | packedList items =>
      obtain ⟨-, -, -, hraw⟩ := encodePacked_iff.mp h
      rw [hraw] at hversion
      exact packedList_version_ne_zero _ hversion.symm
    | listMeta => exact hv
    | _ => cases htype
  · -- packed な stream は 55 byte より短くならない
    have htype : v.typeTag = .stream := TypeTag.code_injective htag
    cases v with
    | packedStream lastId length entriesAdded entries =>
      have hmin := packedStream_length h
      rw [length_regular] at hmin
      omega
    | streamMeta => exact hv
    | _ => cases htype

theorem decodes_framed (hv : v.IsFramed) (h : v.encode serde expireMs = some raw)
    (hclear : v.Clear serde expireMs raw) : v.Decodes serde expireMs raw := by
  cases v with
  | string value =>
    cases h
    exact decodeStringBytes_encode value
  | hashMeta ver flag =>
    cases h
    exact decodeHashMeta_encode flag
  | packedHash fields =>
    exact ⟨decodeHashMeta_packed fields h hclear, decodePackedHash_encode fields h⟩
  | setMeta ver len =>
    cases h
    exact decodeSetMeta_encode len
  | packedSet members =>
    exact ⟨decodeSetMeta_packed members h hclear, decodePackedSet_encode members h⟩
  | zsetMeta ver =>
    cases h
    refine ⟨decodeZsetMeta_regular (by simp [MagicClash]), ?_⟩
    rw [decodePackedZset, isPackedZsetRaw, encodeZsetMeta, isPackedRaw_regular]
    rfl
  | packedZset entries =>
    refine ⟨?_, decodePackedZset_encode entries h⟩
    obtain ⟨body, rfl, -⟩ := encode_framed hv h
    exact decodeZsetMeta_regular (length_regular ▸ hclear)
  | packedList items => exact ⟨decodeListMeta_packed h, decodePackedList_encode h⟩
  | packedStream =>
    have hdecode := decodePackedStream_encode h
    exact ⟨by rw [decodeStreamMeta, hdecode], hdecode⟩
  | jsonMeta ver =>
    cases h
    exact decodeJsonMeta_encode
  | packedJson value =>
    obtain ⟨payload, hpayload, rfl, hdecode⟩ := decodePackedJson_encode h
    have hvalue := hdecode.trans (hclear.2 payload hpayload)
    refine ⟨?_, hvalue⟩
    have hclash := hclear.1
    rw [length_regular] at hclash
    have hpacked : isPackedRaw 25 .json packedJsonMagic (regular expireMs 0 .json
        (packedJsonMagic ++ (toBe 4 payload.length ++ payload))) = true :=
      isPackedRaw_magic rfl (by simp; omega)
    unfold Serde.decodeJsonMeta
    rw [decodeMetaHeader_regular hclash, isPackedJsonRaw, hpacked, hvalue]
    simp
  | listMeta | streamMeta => exact hv.elim

theorem faithful_framed_iff (hv : v.IsFramed) (h : v.encode serde expireMs = some raw) :
    v.Faithful serde expireMs raw ↔ v.Clear serde expireMs raw := by
  constructor
  · intro hfaithful
    have hclash := header_of_clash hv h hfaithful.header
    cases v with
    | packedJson value =>
      obtain ⟨payload, hpayload, -, hdecode⟩ := decodePackedJson_encode h
      refine ⟨hclash, fun payload' hpayload' => ?_⟩
      obtain rfl := some.inj (hpayload.symm.trans hpayload')
      exact hdecode.symm.trans hfaithful.payload.2
    | listMeta | streamMeta => exact hv.elim
    | _ => exact hclash
  · intro hclear
    have hclash : ¬ MagicClash expireMs raw.length := by
      cases v with
      | packedJson => exact hclear.1
      | listMeta | streamMeta => exact hv.elim
      | _ => exact hclear
    have hpayload := decodes_framed hv h hclear
    obtain ⟨body, rfl, -⟩ := encode_framed hv h
    rw [length_regular] at hclash
    exact ⟨decodeMetaHeader_regular hclash, decodeExpireMs_regular hclash, hpayload⟩

/-! ### list と stream の meta -/

section Magic

variable {magic rest : Bytes} {ver : UInt64}

variable (hmagic : magic.length = 4)
include hmagic

section

variable (hraw : raw = magic ++ (beU64 expireMs ++ (beU64 ver ++ rest)))
include hraw

theorem magic_slices :
    raw.take 4 = magic ∧ (raw.drop 4).take 8 = beU64 expireMs ∧
      (raw.drop 12).take 8 = beU64 ver ∧ raw.drop 12 = beU64 ver ++ rest := by
  have hdrop : raw.drop 12 = beU64 ver ++ rest := by
    rw [hraw, ← append_assoc]
    exact drop_left' (by simp [hmagic])
  refine ⟨?_, ?_, ?_, hdrop⟩
  · rw [hraw]
    exact take_left' hmagic
  · rw [hraw]
    exact slice_append hmagic (length_beU64 _) _
  · rw [hdrop]
    exact take_left' (length_beU64 _)

theorem u64At_magic (n : Nat) : u64At raw (20 + n) = u64At rest n := by
  have hdrop : raw.drop (20 + n) = rest.drop n := by
    rw [show 20 + n = 12 + (8 + n) by omega, ← drop_drop, (magic_slices hmagic hraw).2.2.2,
      ← drop_drop, drop_left' (length_beU64 _)]
  rw [u64At, u64At, hdrop]

theorem patch_magic
    (hkind : raw.length = 36 ∧ magic = listMetaMagic ∨ raw.length = 52 ∧ magic = streamMetaMagic)
    (expireMs' : UInt64) :
    patchMetaExpireMs raw expireMs' = some (magic ++ (beU64 expireMs' ++ (beU64 ver ++ rest))) := by
  obtain ⟨htake, -, -, hdrop⟩ := magic_slices hmagic hraw
  rw [patchMetaExpireMs, htake, if_pos hkind, hdrop]

end

theorem decodePackedList_magic (expireMs' : UInt64) :
    decodePackedList (magic ++ (beU64 expireMs' ++ (beU64 ver ++ rest))) =
      decodePackedList (magic ++ (beU64 expireMs ++ (beU64 ver ++ rest))) := by
  have hdrop : ∀ (e : UInt64) n, 12 ≤ n →
      (magic ++ (beU64 e ++ (beU64 ver ++ rest))).drop n =
        (beU64 ver ++ rest).drop (n - 12) := by
    intro e n hn
    rw [show n = 12 + (n - 12) by omega, ← drop_drop, (magic_slices hmagic rfl).2.2.2,
      Nat.add_sub_cancel_left]
  have htag : ∀ e : UInt64, (magic ++ (beU64 e ++ (beU64 ver ++ rest)))[16]? =
      (beU64 ver ++ rest)[4]? := by
    intro e
    rw [← append_assoc, getElem?_append_right (by simp [hmagic])]
    simp [hmagic]
  have hlen : ∀ e : UInt64, (magic ++ (beU64 e ++ (beU64 ver ++ rest))).length =
      12 + (beU64 ver ++ rest).length := by
    intro e
    rw [← append_assoc, length_append]
    simp [hmagic]
  simp [decodePackedList, isPackedListRaw, isPackedRaw, hdrop _ 17 (by omega),
    hdrop _ 21 (by omega), htag, hlen]

end Magic

theorem decodeMetaHeader_listMeta (expireMs ver : UInt64) (head tail : Int64) :
    decodeMetaHeader (encodeListMeta expireMs ver head tail) =
      some ⟨expireMs.toNat, ver.toNat, list.code⟩ := by
  obtain ⟨htake, hexpire, hversion, -⟩ :=
    magic_slices rfl (show encodeListMeta expireMs ver head tail = _ from rfl)
  have hlen : (encodeListMeta expireMs ver head tail).length = 36 := by
    simp [encodeListMeta, listMetaMagic]
  rw [decodeMetaHeader, if_pos ⟨hlen, htake⟩, hexpire, hversion, ofBe_beU64, ofBe_beU64]

variable {ver : UInt64}

theorem decodeListMeta_encode {head tail : Int64}
    (hraw : raw = encodeListMeta expireMs ver head tail) (hnone : decodePackedList raw = none) :
    decodeListMeta raw = some ⟨expireMs, ver, head, tail⟩ := by
  have hlen : raw.length = 36 := by simp [hraw, encodeListMeta, listMetaMagic]
  obtain ⟨htake, hexpire, hversion, -⟩ := magic_slices rfl hraw
  have hhead : i64At raw 20 = head := by
    rw [i64At, u64At_magic rfl hraw 0]
    exact i64At_append (show ([] : Bytes).length = 0 from rfl) head _
  have htail : i64At raw 28 = tail := by
    have h := i64At_append (length_beI64 head) tail []
    rw [append_nil] at h
    rw [i64At, u64At_magic rfl hraw 8]
    exact h
  rw [decodeListMeta, hnone]
  simp [hlen, htake, u64At, hexpire, hversion, ofBe_beU64, hhead, htail]

theorem u64At_stream_zero {rest : Bytes}
    (hraw : raw = streamMetaMagic ++ (beU64 expireMs ++ (beU64 ver ++ rest))) :
    u64At raw 0 = expireMs ↔ expireMs = streamMagicTwice := by
  have htake : (raw.drop 0).take 8 = streamMetaMagic ++ toBe 4 (expireMs.toNat / 256 ^ 4) := by
    rw [hraw, drop_zero, beU64, show (8 : Nat) = 4 + 4 from rfl, toBe_add, append_assoc,
      ← append_assoc]
    exact take_left' (by simp [streamMetaMagic])
  have hvalue : ofBe (streamMetaMagic ++ toBe 4 (expireMs.toNat / 256 ^ 4)) =
      0x55535452 * 256 ^ 4 + expireMs.toNat / 256 ^ 4 % 256 ^ 4 := by
    rw [ofBe, foldl_append, foldl_toBe]
    rfl
  rw [u64At, htake, hvalue, ← UInt64.toNat_inj, ← UInt64.toNat_inj, UInt64.toNat_ofNat']
  show _ ↔ expireMs.toNat = 0x5553545255535452
  -- 上位と下位の 4 byte に分けると、どちらも magic に等しいことと同じになる
  have hsplit := Nat.div_add_mod expireMs.toNat (256 ^ 4)
  have hhigh := high_lt expireMs
  have hlow : expireMs.toNat % 256 ^ 4 < 256 ^ 4 := Nat.mod_lt _ (by positivity)
  rw [Nat.mod_eq_of_lt hhigh, ← hsplit]
  generalize expireMs.toNat / 256 ^ 4 = high at hhigh ⊢
  generalize expireMs.toNat % 256 ^ 4 = low at hlow ⊢
  omega

variable (m : StreamMeta)

theorem decodeMetaHeader_streamMeta : decodeMetaHeader (encodeStreamMeta m) =
      some ⟨m.expireMs.toNat, m.version.toNat, stream.code⟩ := by
  obtain ⟨htake, hexpire, hversion, -⟩ := magic_slices rfl (show encodeStreamMeta m = _ from rfl)
  have hlen : (encodeStreamMeta m).length = 52 := by simp [encodeStreamMeta, streamMetaMagic]
  rw [decodeMetaHeader, if_neg (by simp [hlen]), if_pos ⟨hlen, htake⟩, hexpire, hversion,
    ofBe_beU64, ofBe_beU64]

theorem decodePackedStream_streamMeta :
    decodePackedStream (encodeStreamMeta m) = none :=
  if_neg (by simp [isPackedStreamRaw, isPackedRaw, encodeStreamMeta, streamMetaMagic])

theorem decodeStreamMeta_encode :
    decodeStreamMeta (encodeStreamMeta m) = some m := by
  have hraw : encodeStreamMeta m = _ := rfl
  obtain ⟨htake, hexpire, hversion, -⟩ := magic_slices rfl hraw
  have hlen : (encodeStreamMeta m).length = 52 := by simp [encodeStreamMeta, streamMetaMagic]
  have hat : ∀ (pre : Bytes) n (x : UInt64) rest, pre.length = n →
      beU64 m.lastId.ms ++ (beU64 m.lastId.seq ++ (beU64 m.length ++ beU64 m.entriesAdded)) =
        pre ++ (beU64 x ++ rest) → u64At (encodeStreamMeta m) (20 + n) = x := by
    intro pre n x rest hpre heq
    rw [u64At_magic rfl hraw, heq]
    exact u64At_append hpre x rest
  have hms := hat [] 0 m.lastId.ms _ rfl rfl
  have hseq := hat (beU64 m.lastId.ms) 8 m.lastId.seq _ (by simp) rfl
  have hlength := hat (beU64 m.lastId.ms ++ beU64 m.lastId.seq) 16 m.length
    (beU64 m.entriesAdded) (by simp) (by simp)
  have hadded := hat (beU64 m.lastId.ms ++ (beU64 m.lastId.seq ++ beU64 m.length)) 24
    m.entriesAdded [] (by simp) (by simp)
  simp only [Nat.reduceAdd] at hms hseq hlength hadded
  rw [decodeStreamMeta, decodePackedStream_streamMeta]
  simp only [hlen, htake, and_self, if_true, hms, hseq, hlength, hadded]
  simp only [u64At, hexpire, hversion, ofBe_beU64, UInt64.ofNat_toNat]

theorem faithful_streamMeta_iff {length entriesAdded : UInt64} {lastId : StreamId}
    (hraw : raw = encodeStreamMeta ⟨expireMs, ver, lastId, length, entriesAdded⟩) :
    (streamMeta ver lastId length entriesAdded).Faithful serde expireMs raw ↔
      decodePackedList raw = none ∨ expireMs = streamMagicTwice := by
  have hstream : decodeStreamMeta raw =
      some ⟨expireMs, ver, lastId, length, entriesAdded⟩ := by
    rw [hraw, decodeStreamMeta_encode]
  have hpacked : decodePackedStream raw = none := by rw [hraw, decodePackedStream_streamMeta]
  constructor
  · intro hfaithful
    refine or_iff_not_imp_left.mpr fun hsome => ?_
    obtain ⟨items, hitems⟩ := ne_none_iff_exists'.mp hsome
    have hexpire := hfaithful.expire
    rw [decodeExpireMs, decodeListMeta, hitems] at hexpire
    exact (u64At_stream_zero hraw).mp hexpire
  · intro hclear
    have hhdr : decodeMetaHeader raw =
        some ⟨expireMs.toNat, ver.toNat, stream.code⟩ := by
      rw [hraw, decodeMetaHeader_streamMeta]
    refine ⟨hhdr, ?_, hstream, hpacked⟩
    rw [decodeExpireMs, decodeListMeta]
    cases hitems : decodePackedList raw with
    | none =>
      have hlen : raw.length = 52 := by simp [hraw, encodeStreamMeta, streamMetaMagic]
      simp [hlen, hstream]
    | some items => exact (u64At_stream_zero hraw).mpr (hclear.resolve_left (by simp [hitems]))

section

variable (h : v.encode serde expireMs = some raw)
include h

/-- **書いた record は、曖昧でないとき、そのときに限って書いたとおりに読める。** -/
theorem faithful_iff : v.Faithful serde expireMs raw ↔ v.Clear serde expireMs raw := by
  cases v with
  | listMeta =>
    constructor
    · exact fun hfaithful => hfaithful.payload.2
    · intro hnone
      have hlist := decodeListMeta_encode (some.inj h).symm hnone
      refine ⟨?_, by rw [decodeExpireMs, hlist], hlist, hnone⟩
      rw [(some.inj h).symm, decodeMetaHeader_listMeta]
      rfl
  | streamMeta => exact faithful_streamMeta_iff (some.inj h).symm
  | _ => exact faithful_framed_iff trivial h

theorem clear_congr {raw' : Bytes} (h' : v.encode serde expireMs' = some raw') (e : UInt64) :
    v.Clear serde e raw' ↔ v.Clear serde e raw := by
  have hlen : v.IsFramed → raw'.length = raw.length := by
    intro hv
    obtain ⟨body, rfl, hencode⟩ := encode_framed hv h
    rw [hencode] at h'
    cases h'
    rw [length_regular, length_regular]
  cases v with
  | listMeta ver head tail =>
    cases h
    cases h'
    exact iff_of_eq (congrArg (· = none) (decodePackedList_magic rfl expireMs'))
  | streamMeta ver lastId length entriesAdded =>
    cases h
    cases h'
    exact or_congr_left (iff_of_eq (congrArg (· = none) (decodePackedList_magic rfl expireMs')))
  | _ => simp [Clear, hlen trivial]

theorem patch_encode (hclear : v.Clear serde expireMs raw) (expireMs' : UInt64) :
    ∃ raw', patchMetaExpireMs raw expireMs' = some raw' ∧ v.encode serde expireMs' = some raw' := by
  have hframed : v.IsFramed → ¬ MagicClash expireMs raw.length →
      ∃ raw', patchMetaExpireMs raw expireMs' = some raw' ∧
        v.encode serde expireMs' = some raw' := by
    intro hv hclash
    obtain ⟨body, rfl, hencode⟩ := encode_framed hv h
    rw [length_regular] at hclash
    exact ⟨_, patchMetaExpireMs_regular expireMs' hclash, hencode expireMs'⟩
  cases v with
  | listMeta =>
    cases h
    refine ⟨_, patch_magic rfl rfl (.inl ⟨?_, rfl⟩) expireMs', rfl⟩
    simp [listMetaMagic]
  | streamMeta =>
    cases h
    refine ⟨_, patch_magic rfl rfl (.inr ⟨?_, rfl⟩) expireMs', rfl⟩
    simp [streamMetaMagic]
  | packedJson => exact hframed trivial hclear.1
  | _ => exact hframed trivial hclear

end

/--
**record の符号化が曖昧でない条件。** 書いたとおりに読め、期限を書き換えた record も期限のほかは同じに読める
のは、どちらの期限でも record が曖昧でないとき、そのときに限る。
-/
theorem codec_faithful_iff (h : v.encode serde expireMs = some raw) (expireMs' : UInt64) :
    (v.Faithful serde expireMs raw ∧
        ∃ raw', patchMetaExpireMs raw expireMs' = some raw' ∧ v.Faithful serde expireMs' raw') ↔
      v.Clear serde expireMs raw ∧ v.Clear serde expireMs' raw := by
  rw [faithful_iff h]
  refine and_congr_right fun hclear => ?_
  obtain ⟨raw', hpatch, hencode⟩ := patch_encode h hclear expireMs'
  rw [← clear_congr h hencode expireMs', ← faithful_iff hencode]
  constructor
  · rintro ⟨patched, hpatched, hfaithful⟩
    obtain rfl := some.inj (hpatch.symm.trans hpatched)
    exact hfaithful
  · exact fun hfaithful => ⟨raw', hpatch, hfaithful⟩

end

end StoredValue

/-! ### magic に一致する期限 -/

namespace MagicExpire

def serde : Serde where
  jsonToVec _ := none
  jsonFromSlice _ := none
  bincodeDecode _ := some (.json jsonIndexedMarker)
  bincodeDecode_marker := rfl

/-- 上位 4 byte が `ULST` である期限。`SET k v PXAT 6146379211696242688` で選べる。 -/
def expireMs : UInt64 := 0x554c535400000000

def value : Bytes := replicate 19 0x61

theorem string_read_as_list :
    (StoredValue.string value).encode serde expireMs = some (encodeRawString value expireMs) ∧
      (decodeMetaHeader (encodeRawString value expireMs)).map (·.typeTag) = some list.code ∧
      decodeExpireMs (encodeRawString value expireMs) = 0 ∧
      ¬ (StoredValue.string value).Faithful serde expireMs (encodeRawString value expireMs) := by
  have hhdr : (decodeMetaHeader (encodeRawString value expireMs)).map (·.typeTag) =
      some list.code := by decide
  refine ⟨rfl, hhdr, by decide, fun hfaithful => ?_⟩
  rw [hfaithful.header] at hhdr
  exact absurd hhdr (by decide)

theorem string_faithful :
    (StoredValue.string value).Faithful serde 1700000000000 (encodeRawString value 1700000000000) ∧
      ∃ raw', patchMetaExpireMs (encodeRawString value 1700000000000) 0 = some raw' ∧
        (StoredValue.string value).Faithful serde 0 raw' :=
  (StoredValue.codec_faithful_iff (v := .string value) rfl 0).mpr
    ⟨(by decide : ¬ MagicClash 1700000000000 36), (by decide : ¬ MagicClash 0 36)⟩

end MagicExpire

end Onedis.Store.Codec
