import UsacLinux.MemoryLimit.Concurrent
import UsacLinux.MemoryLimit.Linearizable
import UsacLinux.Lib.MutexProgress

/-!
# Every schedule of the registry calls ends

Each step under `memory_limit_lock` either leaves a loop or moves a cursor, so
the work a call does under the lock is bounded by the length of the list it
finds, and that by the number of calls before it. No schedule of finitely many
calls goes on for ever, and none stops before all of them have returned.
-/

namespace UsacLinux.MemoryLimit
open Kernel Lib.Machine Lib.Mutex

/- Bound on the steps from a place under the lock to its `mutex_unlock`. -/
def criticalCost (list : List MemoryLimitation) : Place → ℕ
  | .entered (.limit _) => list.length + 4
  | .entered (.get _ _) => 2 * list.length + 5
  | .scan _ rem => rem + 3
  | .alloc _ => 2
  | .insert _ => 1
  | .assign _ _ => 1
  | .count _ _ rem _ => rem + list.length + 4
  | .allocArray _ _ _ => list.length + 3
  | .fill _ _ _ => list.length + 2
  | .copy _ _ rem _ _ => rem + 1
  | _ => 0

/- A cursor that stands on a node has that node to count. -/
theorem pos_of_nodesFrom {list es : List MemoryLimitation} {rem : ℕ} {e : MemoryLimitation}
    (h : nodesFrom list rem = e :: es) : 0 < rem := by
  have hlen := congrArg List.length h
  simp only [nodesFrom, List.length_drop, List.length_cons] at hlen
  omega

theorem scanStep_cost (list : List MemoryLimitation) (c : LimitCall) (rem : ℕ) :
    criticalCost list (scanStep list c rem) < rem + 3 := by
  unfold scanStep
  cases hn : nodesFrom list rem with
  | nil => cases c.op <;> simp only [criticalCost] <;> omega
  | cons e es =>
    have hpos := pos_of_nodesFrom hn
    dsimp only
    split
    · cases c.op <;> simp only [criticalCost] <;> omega
    · simp only [criticalCost]
      omega

theorem countStep_cost (list : List MemoryLimitation) (env : GetEnv) (args : GetArgs) (rem : ℕ)
    (n : SizeT) : criticalCost list (countStep list env args rem n) < rem + list.length + 4 := by
  unfold countStep
  cases hn : nodesFrom list rem with
  | nil =>
    simp only [criticalCost]
    omega
  | cons e es =>
    have hpos := pos_of_nodesFrom hn
    simp only [criticalCost]
    omega

theorem allocArrayStep_cost (list : List MemoryLimitation) (env : GetEnv) (args : GetArgs)
    (n : SizeT) : criticalCost list (allocArrayStep env args n) < list.length + 3 := by
  unfold allocArrayStep
  dsimp only
  split
  · simp only [criticalCost]
    omega
  · simp only [criticalCost]
    omega

theorem copyStep_cost (list : List MemoryLimitation) (env : GetEnv) (args : GetArgs) (rem : ℕ)
    (b : KernelBuffer) (n : SizeT) :
    criticalCost list (copyStep list env args rem b n) < rem + 1 := by
  unfold copyStep
  cases hn : nodesFrom list rem with
  | nil =>
    simp only [criticalCost]
    omega
  | cons e es =>
    have hpos := pos_of_nodesFrom hn
    dsimp only
    split
    · simp only [criticalCost]
      omega
    · simp only [criticalCost]
      omega

/- Every step under the lock comes nearer to the release. -/
theorem work_cost (list : List MemoryLimitation) (p : Place)
    (f : List MemoryLimitation → List MemoryLimitation × Place) (h : code p = .work f) :
    criticalCost (f list).1 (f list).2 < criticalCost list p := by
  cases p with
  | entered c =>
    cases c with
    | limit c =>
      cases h
      simp [criticalCost]
    | get env args =>
      cases h
      simp only [criticalCost]
      omega
  | scan c rem =>
    cases h
    exact scanStep_cost list c rem
  | alloc c =>
    cases h
    show criticalCost list (if c.env.kmalloc then .insert c else .noNode) < 2
    split <;> simp [criticalCost]
  | insert c =>
    cases h
    simp [criticalCost]
  | assign c rem =>
    cases h
    simp [criticalCost]
  | count env args rem n =>
    cases h
    exact countStep_cost list env args rem n
  | allocArray env args n =>
    cases h
    exact allocArrayStep_cost list env args n
  | fill env args b =>
    cases h
    simp [criticalCost]
  | copy env args rem b n =>
    cases h
    exact copyStep_cost list env args rem b n
  | _ => cases h

/-! ### How long the list can be -/

theorem length_run_le (cs : List RegistryCall) : (run execCall [] cs).1.length ≤ cs.length := by
  rw [length_run]
  refine (List.length_filter_le _ _).trans ?_
  rw [List.length_zip]
  exact Nat.min_le_left _ _

section Executions

variable {calls : ℕ → RegistryCall} (e : RegistryExecution calls) {n : ℕ}
  (hlabel : ∀ i < e.length, e.label i < n)

include hlabel

theorem acquired_length_le (i : ℕ) (hi : i ≤ e.length) : (e.state i).acquired.length ≤ n := by
  have hn := (exclusive e registry_disciplined i hi).nodup
  have hsub : (e.state i).acquired.toFinset ⊆ Finset.range n := by
    intro t ht
    exact Finset.mem_range.mpr (acquired_lt e hlabel i hi t (List.mem_toFinset.mp ht))
  have hcard := Finset.card_le_card hsub
  rwa [List.toFinset_card_of_nodup hn, Finset.card_range] at hcard

theorem shared_length_le (i : ℕ) (hi : i ≤ e.length) (hl : (e.state i).lock = none) :
    (e.state i).shared.length ≤ n := by
  have h := registry_linearized e i hi
  have hacq := acquired_length_le e hlabel i hi
  have hrun := length_run_le ((e.state i).released.map calls)
  rw [h.order, hl, Option.toList_none, List.append_nil] at hacq
  rw [List.length_map] at hrun
  rw [h.free hl]
  exact hrun.trans hacq

end Executions

/- `n` calls, however they are scheduled, make at most `n * (2 * n + 9)` steps,
and where none of them can move the lock is free and all have returned. -/
theorem so2_every_schedule_ends (calls : ℕ → RegistryCall) (e : RegistryExecution calls) (n : ℕ)
    (hlabel : ∀ i < e.length, e.label i < n) :
    e.length ≤ n * (2 * n + 9) ∧
    ((∀ t < n, ¬canStep registryProgram (e.state e.length) t) →
      (e.state e.length).lock = none ∧ ∀ t < n, ∃ r, (e.state e.length).phase t = .done r) := by
  refine ⟨?_, done_of_stuck e hlabel registry_disciplined⟩
  refine length_le e hlabel registry_disciplined registry_implements work_cost (B := 2 * n + 5)
    fun i hi hl t p q hp hq => ?_
  have hlen := shared_length_le e hlabel i hi.le hl
  obtain ⟨rfl, -⟩ := check_inl hp
  cases hq
  show criticalCost (e.state i).shared (.entered (calls t)) ≤ 2 * n + 5
  cases calls t with
  | limit c =>
    simp only [criticalCost]
    omega
  | get env args =>
    simp only [criticalCost]
    omega

/- The four racing calls take 32 of at most 68 steps, all return and the lock is
free. -/
theorem so2_racing_calls_end :
    racingRun.length ≤ 68 ∧ (racingRun.state 32).lock = none ∧
      ∀ t < 4, ∃ r, (racingRun.state 32).phase t = .done r := by
  have h := so2_every_schedule_ends racingCalls racingRun 4 (by decide)
  refine ⟨h.1, h.2 ?_⟩
  intro t ht
  interval_cases t
  all_goals exact id

end UsacLinux.MemoryLimit
