import Mathlib.Data.List.MinMax
import Onedis.Infra.Bytes
import Onedis.Infra.Run

/-!
# version の払い出し

`store/ttl/version_counter.rs` の `VersionCounter` と、起動時の `rebuild_from_store` の写し。`next` は時刻の読み、
counter の読み、交換に分かれ、どの間にもほかの task が入る。store は record に現れる version だけを持つ。

* `version_not_reused` — 払い出した version は、record に残るどの version とも違う
* `UnownedVersion.version_reused` — owner の無い version は、再起動と時計の後退の後で再び払い出される
-/

namespace Onedis.Store.VersionCounter

open Infra Function List

def timestampFloor (micros : Nat) : Nat := min micros (2 ^ 53 - 1) * 2 ^ 11

def nextValue (current floor : Nat) : Nat := max (min (current + 1) (2 ^ 64 - 1)) floor

/-- `tasks` は呼び出しの途中の時刻の下限と読んだ counter、`returned` は再起動の後に返した値である。 -/
structure State where
  counter : Nat
  tasks : Nat → Option (Nat × Option Nat)
  returned : List Nat
  records : List Nat
  owners : List Nat

/-- 一歩ごとの出来事。`exchange` の `spurious` は、値が同じでも失敗する交換である。 -/
inductive Event
  | call (i micros : Nat)
  | load (i : Nat)
  | exchange (i : Nat) (spurious : Bool)
  | observe (ver : Nat)
  | write (ver : Nat) (marked : Bool)
  | erase (ver : Nat)
  | eraseOwner (ver : Nat)
  | restart

/-- 一歩。再起動は owner の最大の version から counter を作り直す。 -/
def step (s : State) : Event → Option State
  | .call i micros =>
    if (s.tasks i).isSome then none
    else some { s with tasks := update s.tasks i (some (timestampFloor micros, none)) }
  | .load i =>
    (s.tasks i).map fun t => { s with tasks := update s.tasks i (some (t.1, some s.counter)) }
  | .exchange i spurious =>
    match s.tasks i with
    | some (floor, some current) =>
      if nextValue current floor ≤ current then none
      else if s.counter = current ∧ spurious = false then
        some { s with
          counter := nextValue current floor
          tasks := update s.tasks i none
          returned := nextValue current floor :: s.returned }
      else some { s with tasks := update s.tasks i (some (floor, none)) }
    | _ => none
  | .observe ver => some { s with counter := max s.counter ver }
  | .write ver marked =>
    if ver ∈ s.returned ++ s.records then
      some { s with
        records := ver :: s.records
        owners := if marked then ver :: s.owners else s.owners }
    else none
  | .erase ver => some { s with records := s.records.filter (· ≠ ver) }
  | .eraseOwner ver => some { s with owners := s.owners.filter (· ≠ ver) }
  | .restart => some ⟨s.owners.foldr max 0, fun _ => none, [], s.records, s.owners⟩

def start : State := ⟨0, fun _ => none, [], [], []⟩

/-- 再起動のとき、record に残る version は、ある owner の version を超えない。 -/
def Recovers (s : State) : Event → Prop
  | .restart => ∀ v ∈ s.records, ∃ o ∈ s.owners, v ≤ o
  | _ => True

instance (s : State) (e : Event) : Decidable (Recovers s e) := by
  unfold Recovers
  split <;> infer_instance

/-- 返した値は増え続け、返した値も record の version も counter を超えない。 -/
structure Inv (s : State) : Prop where
  sorted : s.returned.Pairwise (· > ·)
  bounded : ∀ v ∈ s.returned ++ s.records, v ≤ s.counter

theorem step_exchange {s s' : State} {i : Nat} {spurious : Bool}
    (hs : step s (.exchange i spurious) = some s') :
    s'.records = s.records ∧ (s'.counter = s.counter ∧ s'.returned = s.returned ∨
      s.counter < s'.counter ∧ s'.returned = s'.counter :: s.returned) := by
  simp only [step] at hs
  split at hs
  · split at hs
    · cases hs
    · next hlt =>
      split at hs <;> cases hs
      · next hsame => exact ⟨rfl, .inr ⟨hsame.1.trans_lt (not_le.mp hlt), rfl⟩⟩
      · exact ⟨rfl, .inl ⟨rfl, rfl⟩⟩
  · cases hs

theorem Inv.step {s s' : State} (h : Inv s) {e : Event} (hok : Recovers s e)
    (hs : step s e = some s') : Inv s' := by
  cases e with
  | call i micros =>
    simp only [VersionCounter.step] at hs
    split at hs <;> cases hs
    exact ⟨h.sorted, h.bounded⟩
  | load i =>
    obtain ⟨t, -, rfl⟩ := Option.map_eq_some_iff.mp hs
    exact ⟨h.sorted, h.bounded⟩
  | exchange i spurious =>
    obtain ⟨hrecords, ⟨hcounter, hreturned⟩ | ⟨hgrows, hreturned⟩⟩ := step_exchange hs
    · refine ⟨?_, ?_⟩ <;> rw [hreturned]
      · exact h.sorted
      · rw [hrecords, hcounter]
        exact h.bounded
    · refine ⟨?_, ?_⟩ <;> rw [hreturned]
      · refine pairwise_cons.mpr ⟨fun w hw => ?_, h.sorted⟩
        exact (h.bounded w (mem_append_left _ hw)).trans_lt hgrows
      · rw [hrecords]
        refine forall_mem_cons.mpr ⟨le_rfl, fun v hv => ?_⟩
        exact (h.bounded v hv).trans hgrows.le
  | observe ver =>
    cases hs
    exact ⟨h.sorted, fun v hv => (h.bounded v hv).trans (le_max_left ..)⟩
  | write ver marked =>
    obtain ⟨hver, hs⟩ := Option.ite_none_right_eq_some.mp hs
    cases hs
    refine ⟨h.sorted, fun v hv => ?_⟩
    rcases mem_append.mp hv with hv | hv
    · exact h.bounded v (mem_append_left _ hv)
    · rcases mem_cons.mp hv with rfl | hv
      · exact h.bounded v hver
      · exact h.bounded v (mem_append_right _ hv)
  | erase ver =>
    cases hs
    refine ⟨h.sorted, fun v hv => h.bounded v ?_⟩
    rw [mem_append] at hv ⊢
    exact hv.imp_right fun hv => (mem_filter.mp hv).1
  | eraseOwner ver =>
    cases hs
    exact ⟨h.sorted, h.bounded⟩
  | restart =>
    cases hs
    refine ⟨.nil, fun v hv => ?_⟩
    obtain ⟨o, ho, hle⟩ := hok v hv
    exact le_max_of_le ho hle

/-- `next` が `ver` を返す一歩。 -/
def Returns (s : State) (ver : Nat) : Prop :=
  ∃ i s', step s (.exchange i false) = some s' ∧ s'.returned = ver :: s.returned

/--
**version は使い回されない。** 再起動のたびに record の version が owner の version で抑えられている実行では、
`next` の返す値は、それまでに返したどの値より大きく、record に残るどの version とも違う。
-/
theorem version_not_reused {events : List Event} {s : State}
    (hok : Obeys step Recovers start events) (hrun : run step start events = some s) :
    s.returned.Pairwise (· > ·) ∧
      ∀ ver, Returns s ver → ver ∉ s.records ∧ ∀ w ∈ s.returned, w < ver := by
  have h : Inv s :=
    run_induction (fun _ _ _ hi ho hs => hi.step ho hs) ⟨.nil, by simp [start]⟩ hok hrun
  refine ⟨h.sorted, ?_⟩
  rintro ver ⟨i, s', hs, hreturned⟩
  have hgrows : s.counter < ver := by
    obtain ⟨-, ⟨-, hsame⟩ | ⟨hlt, hnew⟩⟩ := step_exchange hs
    · simp [hsame] at hreturned
    · rwa [(cons.inj (hreturned.symm.trans hnew)).1]
  exact ⟨fun hmem => absurd (h.bounded ver (mem_append_right _ hmem)) hgrows.not_ge,
    fun w hw => (h.bounded w (mem_append_left _ hw)).trans_lt hgrows⟩

namespace UnownedVersion

def allocate (micros : Nat) : List Event := [.call 0 micros, .load 0, .exchange 0 false]

/-- hash を作り、`COPY` し、再起動する。 -/
def events (marked : Bool) : List Event :=
  allocate 1 ++ [.write 2048 true] ++ allocate 1 ++
    [.write 2049 marked, .restart, .call 0 1, .load 0]

def after (marked : Bool) : State := (run step start (events marked)).getD start

/-- 時計が進まないまま再起動すると、写しの version 2049 がもう一度返る。 -/
theorem version_reused :
    run step start (events false) = some (after false) ∧ 2049 ∈ (after false).records ∧
      Returns (after false) 2049 :=
  ⟨rfl, by decide, 0, _, rfl, rfl⟩

theorem owned_not_reused : Returns (after true) 2050 ∧ 2050 ∉ (after true).records ∧
      ∀ w ∈ (after true).returned, w < 2050 := by
  have hok : Obeys step Recovers start (events true) := by decide
  have hreturns : Returns (after true) 2050 := ⟨0, _, rfl, rfl⟩
  exact ⟨hreturns, (version_not_reused hok rfl).2 2050 hreturns⟩

end UnownedVersion

end Onedis.Store.VersionCounter
