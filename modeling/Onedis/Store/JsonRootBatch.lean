import Onedis.Store.KeyRecords

/-!
# 文書全体への JSON.SET のまとめ書き

`store/db/json_set_ops.rs` の `json_set_root_batch_async` と `json_set_root_async` の写し。JSON の解析と上限の
検査は `parse` として受け取り、engine の失敗は扱わない。

* `rootBatch_matches_iff` — まとめ書きが一つずつの実行と一致する条件
* `UnparsedKey.batch_panics` — 解析できない command の key が表に無いと、まとめ書きは panic する
-/

namespace Onedis.Store.Json

open Infra
open Codec (wrongTypeError)

variable {Doc : Type}

/-- 一つの key の記録。`content` は `decode_json_meta` の結果で、失敗はその message である。 -/
structure JsonEntry (Doc : Type) where
  expireMs : Nat
  content : Except String Doc

/-- `expire_if_needed_async` の後に残る記録。 -/
def live (now : Nat) : Option (JsonEntry Doc) → Option (JsonEntry Doc)
  | some e => if expireDue now e.expireMs then none else some e
  | none => none

/-- `json_set_root_async` -/
def setRoot (now : Nat) (c : Bytes × Except String Doc) (entry : Option (JsonEntry Doc)) :
    Except String Unit × Option (JsonEntry Doc) :=
  match c.2 with
  | .error e => (.error e, entry)
  | .ok doc =>
    match live now entry with
    | none => (.ok (), some ⟨0, .ok doc⟩)
    | some ⟨expireMs, .ok _⟩ => (.ok (), some ⟨expireMs, .ok doc⟩)
    | some ⟨expireMs, .error e⟩ => (.error e, some ⟨expireMs, .error e⟩)

/-- 一つの key について loop が持つもの。読んだ記録と、`final_command_indexes` の指す値である。 -/
abbrev Settled (Doc : Type) := Option (JsonEntry Doc) × Option Doc

def eligible (old : Option (JsonEntry Doc)) : Bool := old.all (·.content.isOk)

def settle (c : Bytes × Except String Doc) (t : Settled Doc) : Except String Unit × Settled Doc :=
  match c.2 with
  | .error e => (.error e, t)
  | .ok doc => if eligible t.1 then (.ok (), t.1, some doc) else (.error wrongTypeError, t)

/-- `write_json_document_to_batch` -/
def written (t : Settled Doc) : Option (JsonEntry Doc) :=
  match t.2 with
  | none => t.1
  | some doc => some ⟨(t.1.map (·.expireMs)).getD 0, .ok doc⟩

variable (parse : Bytes → Except String Doc) (now : Nat) (cmds : List (Bytes × Bytes))
  (s : Bytes → Option (JsonEntry Doc))

def parsed : List (Bytes × Except String Doc) := cmds.map fun c => (c.1, parse c.2)

def validKeys : List Bytes := ((parsed parse cmds).filter (·.2.isOk)).map Prod.fst

/-- `json_set_root_batch_async`。`none` は panic。 -/
def setRootBatch : Option (List (Except String Unit) × (Bytes → Option (JsonEntry Doc))) :=
  if validKeys parse cmds = [] then some ((parsed parse cmds).map fun c => c.2.map fun _ => (), s)
  else if ∀ c ∈ cmds, c.1 ∈ validKeys parse cmds then
    let out := runKeyed Prod.fst settle (fun key => (live now (s key), none)) (parsed parse cmds)
    some (out.1, fun key => if key ∈ validKeys parse cmds then written (out.2 key) else s key)
  else
    -- `positions[key]` は、解析できた command に無い key で panic する
    none

def setRootEach : List (Except String Unit) × (Bytes → Option (JsonEntry Doc)) :=
  runKeyed Prod.fst (setRoot now) s (parsed parse cmds)

/-- まとめ書きが値を返し、返事と、生きている記録が一つずつの実行と等しい。 -/
def BatchMatches : Prop :=
  ∃ out, setRootBatch parse now cmds s = some out ∧
    out.1 = (setRootEach parse now cmds s).1 ∧
    ∀ key, live now (out.2 key) = live now ((setRootEach parse now cmds s).2 key)

variable {parse now cmds s}

theorem mem_validKeys {key : Bytes} :
    key ∈ validKeys parse cmds ↔ ∃ c ∈ cmds, c.1 = key ∧ (parse c.2).isOk = true := by
  simp [validKeys, parsed, and_comm, and_assoc]

theorem setRoot_invalid {cs : List (Bytes × Except String Doc)} (h : ∀ c ∈ cs, c.2.isOk = false)
    (s : Bytes → Option (JsonEntry Doc)) :
    runKeyed Prod.fst (setRoot now) s cs = (cs.map fun c => c.2.map fun _ => (), s) := by
  induction cs with
  | nil => rfl
  | cons c cs ih =>
    obtain ⟨key, value⟩ := c
    have hvalue := h _ List.mem_cons_self
    cases value with
    | ok doc => cases hvalue
    | error e =>
      simp only [runKeyed, setRoot, Function.update_eq_self,
        ih fun d hd => h d (List.mem_cons_of_mem _ hd)]
      rfl

theorem live_eq_some {entry : Option (JsonEntry Doc)} {x : JsonEntry Doc}
    (h : live now entry = some x) : entry = some x ∧ expireDue now x.expireMs = false := by
  cases entry with
  | none => cases h
  | some e =>
    obtain ⟨hdue, h⟩ := Option.ite_none_left_eq_some.mp h
    cases h
    exact ⟨rfl, Bool.eq_false_iff.mpr hdue⟩

theorem live_some {x : JsonEntry Doc} (h : expireDue now x.expireMs = false) :
    live now (some x) = some x := if_neg (by simp [h])

theorem live_live (entry : Option (JsonEntry Doc)) :
    live now (live now entry) = live now entry := by
  cases h : live now entry with
  | none => rfl
  | some x => exact live_some (live_eq_some h).2

/-- 一つずつの実行と loop の状態の関係。`old` は最初に読んだ記録である。 -/
def Agrees (now : Nat) (old entry : Option (JsonEntry Doc)) (t : Settled Doc) : Prop :=
  t.1 = live now old ∧ live now entry = written t ∧ (eligible t.1 = false → t.2 = none)

theorem setRoot_agrees {old entry : Option (JsonEntry Doc)} {t : Settled Doc}
    (h : Agrees now old entry t) (c : Bytes × Except String Doc)
    (hc : c.2.isOk = true → ∀ e m, live now old = some ⟨e, .error m⟩ → m = wrongTypeError) :
    (setRoot now c entry).1 = (settle c t).1 ∧
      Agrees now old (setRoot now c entry).2 (settle c t).2 := by
  obtain ⟨old', final⟩ := t
  obtain ⟨hold, hentry, hfinal⟩ := h
  obtain ⟨key, value⟩ := c
  cases value with
  | error e => exact ⟨rfl, hold, hentry, hfinal⟩
  | ok doc =>
    unfold setRoot settle
    dsimp only at hold hentry hfinal ⊢
    rw [hentry]
    match old' with
    | none => cases final <;> exact ⟨rfl, hold, rfl, nofun⟩
    | some ⟨e, .ok d⟩ =>
      have hdue := (live_eq_some hold.symm).2
      cases final <;> exact ⟨rfl, hold, live_some hdue, nofun⟩
    | some ⟨e, .error m⟩ =>
      obtain rfl : final = none := hfinal rfl
      obtain rfl := hc rfl e m hold.symm
      exact ⟨rfl, hold, live_some (live_eq_some hold.symm).2, fun _ => rfl⟩

theorem settle_error {e : Nat} {m : String} (c : Bytes × Except String Doc) :
    settle c (some ⟨e, .error m⟩, none) =
      (c.2.bind fun _ => .error wrongTypeError, some ⟨e, .error m⟩, none) := by
  obtain ⟨key, value⟩ := c
  cases value <;> rfl

theorem setRoot_error {e : Nat} {m : String} (hdue : expireDue now e = false)
    (c : Bytes × Except String Doc) :
    setRoot now c (some ⟨e, .error m⟩) = (c.2.bind fun _ => .error m, some ⟨e, .error m⟩) := by
  obtain ⟨key, value⟩ := c
  cases value with
  | error e => rfl
  | ok doc =>
    unfold setRoot
    rw [live_some hdue]
    rfl

/--
**まとめ書きが一つずつの実行と一致する条件。** 解析できる command があるなら、どの command の key にも解析できる
command があり、書かれる key の記録は JSON か、型の違う値でなければならない。
-/
theorem rootBatch_matches_iff : BatchMatches parse now cmds s ↔ validKeys parse cmds = [] ∨
      (∀ c ∈ cmds, c.1 ∈ validKeys parse cmds) ∧
        ∀ key ∈ validKeys parse cmds, ∀ e m, live now (s key) = some ⟨e, .error m⟩ →
          m = wrongTypeError := by
  unfold BatchMatches setRootBatch
  by_cases hnil : validKeys parse cmds = []
  · have hinvalid : ∀ c ∈ parsed parse cmds, c.2.isOk = false := by
      intro c hc
      obtain ⟨d, hd, rfl⟩ := List.mem_map.mp hc
      refine Bool.eq_false_iff.mpr fun hok => ?_
      have hmem := mem_validKeys.mpr ⟨d, hd, rfl, hok⟩
      rw [hnil] at hmem
      cases hmem
    rw [if_pos hnil, setRootEach, setRoot_invalid hinvalid]
    exact iff_of_true ⟨_, rfl, rfl, fun _ => rfl⟩ (.inl hnil)
  rw [if_neg hnil, or_iff_right hnil]
  split
  · next hcover =>
    rw [and_iff_right hcover]
    constructor
    · rintro ⟨_, ⟨⟩, hreplies, -⟩ key hkey e m hentry
      obtain ⟨c, hc, rfl, hok⟩ := mem_validKeys.mp hkey
      have hrun := runKeyed_replies_eq_iff.mp hreplies c.1
      obtain ⟨hstored, hdue⟩ := live_eq_some hentry
      rw [hentry, hstored, runOne_fixed settle_error, runOne_fixed (setRoot_error hdue)] at hrun
      have hmem : (c.1, parse c.2) ∈ addressedTo Prod.fst c.1 (parsed parse cmds) :=
        mem_addressedTo.mpr ⟨List.mem_map.mpr ⟨c, hc, rfl⟩, rfl⟩
      have hreply := List.map_inj_left.mp hrun _ hmem
      cases hparse : parse c.2 with
      | error e => simp [hparse, Except.isOk, Except.toBool] at hok
      | ok doc =>
        rw [hparse] at hreply
        exact (Except.error.inj hreply).symm
    · intro hmessage
      have hkeys : ∀ c ∈ parsed parse cmds, c.1 ∈ validKeys parse cmds := by
        intro c hc
        obtain ⟨d, hd, rfl⟩ := List.mem_map.mp hc
        exact hcover d hd
      obtain ⟨hreplies, hstates⟩ := runKeyed_simulates (R := fun key => Agrees now (s key))
        (fun c hc entry t h => setRoot_agrees h c fun _ => hmessage c.1 (hkeys c hc))
        fun key => (⟨rfl, rfl, fun _ => rfl⟩ : Agrees now _ (s key) (live now (s key), none))
      refine ⟨_, rfl, hreplies.symm, fun key => ?_⟩
      dsimp only
      split
      · rw [← (hstates key).2.1, live_live]
        rfl
      · next hkey =>
        have huntouched : key ∉ (parsed parse cmds).map Prod.fst := by
          intro hmem
          obtain ⟨c, hc, rfl⟩ := List.mem_map.mp hmem
          exact hkey (hkeys c hc)
        rw [setRootEach, runKeyed_untouched huntouched]
  · next hcover => exact iff_of_false (fun ⟨_, hout, _⟩ => by cases hout) fun h => hcover h.1

namespace UnparsedKey

def number (text : Bytes) : Except String Nat :=
  if text = [0x31] then .ok 1 else .error "ERR invalid JSON value"

/-- `JSON.SET a $ 1` と `JSON.SET b $ x` -/
theorem batch_panics :
    setRootBatch number 0 [([0x61], [0x31]), ([0x62], [0x78])] (fun _ => none) = none ∧
      (setRootEach number 0 [([0x61], [0x31]), ([0x62], [0x78])] (fun _ => none)).1 =
        [.ok (), .error "ERR invalid JSON value"] :=
  ⟨rfl, rfl⟩

end UnparsedKey

end Onedis.Store.Json
