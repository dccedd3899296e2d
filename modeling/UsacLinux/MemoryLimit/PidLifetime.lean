import UsacLinux.MemoryLimit.Registry
import UsacLinux.Lib.Transition
import Mathlib.Data.List.Zip
import Mathlib.Tactic.IntervalCases

/-!
# Entries and the processes they were made for

The list is keyed by the number the caller gave. Processes come and go, freed
numbers are used again, and a process may have another number in every PID
namespace, while no entry is ever taken out of the list. A call looks its
process up before it takes the lock, so all of this can also happen between its
checks and its critical section.
-/

namespace UsacLinux.MemoryLimit
open Kernel Lib.KeyedList Lib.Transition

abbrev TaskId := ℕ
abbrev PidNamespace := ℕ

/- An add or update with what it sees beside the process table: the caller's
capability, the address space of every task at that moment and `kmalloc`. -/
structure PidCall where
  op : LimitOp
  ns : PidNamespace
  pid : PidT
  limit : SizeT
  capable : Bool
  mm : TaskId → Option MmStruct
  kmalloc : Bool

/- A call that passed its checks, and the task it found. -/
structure Pending where
  call : PidCall
  task : TaskId

/- `resolve` is `find_vpid` for a caller of the namespace. `makers` is not in
the source: it records for each entry of the list the task it was made for. -/
structure PidState where
  resolve : PidNamespace → PidT → Option TaskId
  nextTask : TaskId
  list : List MemoryLimitation
  makers : List TaskId
  pending : ℕ → Option Pending

inductive PidStep where
  | spawn (numbers : PidNamespace → Option PidT)
  | exit (task : TaskId)
  | check (caller : ℕ) (c : PidCall)
  | critical (caller : ℕ)

def PidState.callEnv (s : PidState) (c : PidCall) : CallEnv :=
  ⟨c.capable, fun p => (s.resolve c.ns p).map fun task => ⟨c.mm task⟩, c.kmalloc⟩

/- A call that fails a check returns and is never pending. -/
def PidState.checked (s : PidState) (c : PidCall) : Option Pending :=
  match requestError (s.callEnv c) c.pid c.limit with
  | some _ => none
  | none => (s.resolve c.ns c.pid).map fun task => ⟨c, task⟩

def PidState.locked (s : PidState) (c : PidCall) : List MemoryLimitation × ℤ :=
  match c.op with
  | .add => addLocked c.kmalloc c.pid c.limit s.list
  | .update => updateLocked c.pid c.limit s.list

/- A new process takes numbers that are free in their namespaces. -/
def pidEnabled (s : PidState) : PidStep → Prop
  | .spawn numbers => ∀ ns p, numbers ns = some p → s.resolve ns p = none
  | .exit _ => True
  | .check caller _ => s.pending caller = none
  | .critical caller => (s.pending caller).isSome

def PidState.finish (s : PidState) (caller : ℕ) (d : Pending) : PidState :=
  { s with
    list := (s.locked d.call).1
    makers := if d.call.op = .add ∧ (s.locked d.call).2 = 0 then d.task :: s.makers else s.makers
    pending := Function.update s.pending caller none }

def pidNext (s : PidState) : PidStep → PidState
  | .spawn numbers =>
    { s with
      resolve := fun ns p => if numbers ns = some p then some s.nextTask else s.resolve ns p
      nextTask := s.nextTask + 1 }
  | .exit task =>
    { s with resolve := fun ns p => if s.resolve ns p = some task then none else s.resolve ns p }
  | .check caller c => { s with pending := Function.update s.pending caller (s.checked c) }
  | .critical caller => match s.pending caller with
    | some d => s.finish caller d
    | none => s

def PidState.initial : PidState := ⟨fun _ _ => none, 0, [], [], fun _ => none⟩

abbrev PidExecution := Execution (· = PidState.initial) (Guarded pidEnabled pidNext)

/-! ### One critical section -/

theorem locked_cases (s : PidState) (c : PidCall) :
    (c.op = .add ∧ c.pid ∉ s.list.map MemoryLimitation.pid ∧
      s.locked c = (⟨c.pid, c.limit⟩ :: s.list, 0)) ∨
    ((s.locked c).1.length = s.list.length ∧ ¬(c.op = .add ∧ (s.locked c).2 = 0) ∧
      (c.op = .add ∧ (s.locked c).2 = -101 ∨ c.op = .update ∧ (s.locked c).2 = 0 →
        c.pid ∈ s.list.map MemoryLimitation.pid)) := by
  unfold PidState.locked
  cases c.op with
  | add =>
    rcases addLocked_cases c.kmalloc c.pid c.limit s.list with
      ⟨hm, ha⟩ | ⟨hm, -, ha⟩ | ⟨hm, -, ha⟩
    · exact Or.inr ⟨by simp only [ha], by simp [ha], fun _ => hm⟩
    · exact Or.inr ⟨by simp only [ha], by simp [ha, ENOMEM], by simp [ha, ENOMEM]⟩
    · exact Or.inl ⟨rfl, hm, ha⟩
  | update =>
    refine Or.inr ?_
    rcases updateLocked_cases c.pid c.limit s.list with ⟨hm, ha⟩ | ⟨hm, list', hl, ha⟩
    · exact ⟨by simp only [ha], by simp, by simp [ha]⟩
    · have hk := congrArg List.length (assignFirst_keys MemoryLimitation.pid (by simp) hl)
      simp only [List.length_map] at hk
      exact ⟨by simp only [ha, hk], by simp, fun _ => hm⟩

/-! ### Invariants -/

/- Numbers of a namespace name tasks that exist, no task has two of them, and
every entry has a maker. -/
structure TableValid (s : PidState) : Prop where
  old : ∀ ns p t, s.resolve ns p = some t → t < s.nextTask
  single : ∀ ns p q t, s.resolve ns p = some t → s.resolve ns q = some t → p = q
  paired : s.makers.length = s.list.length

theorem spawn_valid (s : PidState) (numbers : PidNamespace → Option PidT) (h : TableValid s) :
    TableValid (pidNext s (.spawn numbers)) := by
  refine ⟨?_, ?_, h.paired⟩
  · intro ns p t ht
    simp only [pidNext] at ht ⊢
    split at ht
    · obtain rfl := Option.some.inj ht
      exact Nat.lt_succ_self _
    · exact (h.old ns p t ht).trans (Nat.lt_succ_self _)
  · intro ns p q t hp hq
    simp only [pidNext] at hp hq
    -- The new task is no task an old number names.
    split at hp
    next hn =>
      split at hq
      next hm => exact Option.some.inj (hn.symm.trans hm)
      next =>
        obtain rfl := Option.some.inj hp
        exact absurd (h.old ns q _ hq) (Nat.lt_irrefl _)
    next =>
      split at hq
      next =>
        obtain rfl := Option.some.inj hq
        exact absurd (h.old ns p _ hp) (Nat.lt_irrefl _)
      next => exact h.single ns p q t hp hq

theorem exit_resolve {s : PidState} {task t : TaskId} {ns : PidNamespace} {p : PidT}
    (h : (pidNext s (.exit task)).resolve ns p = some t) : s.resolve ns p = some t := by
  simp only [pidNext] at h
  split at h
  · cases h
  · exact h

theorem finish_paired (s : PidState) (caller : ℕ) (d : Pending) (h : s.makers.length = s.list.length) :
    (s.finish caller d).makers.length = (s.finish caller d).list.length := by
  simp only [PidState.finish]
  rcases locked_cases s d.call with ⟨hop, -, hl⟩ | ⟨hlen, hn, -⟩
  · simp only [hl, hop, and_self, if_true, List.length_cons, h]
  · rw [if_neg hn, hlen, h]

theorem pidNext_valid (s : PidState) (l : PidStep) (h : TableValid s) : TableValid (pidNext s l) := by
  cases l with
  | spawn numbers => exact spawn_valid s numbers h
  | exit task =>
    refine ⟨fun ns p t ht => h.old ns p t (exit_resolve ht), ?_, h.paired⟩
    exact fun ns p q t hp hq => h.single ns p q t (exit_resolve hp) (exit_resolve hq)
  | check caller c => exact ⟨h.old, h.single, h.paired⟩
  | critical caller =>
    simp only [pidNext]
    cases s.pending caller with
    | none => exact h
    | some d => exact ⟨h.old, h.single, finish_paired s caller d h.paired⟩

theorem tableValid (e : PidExecution) : ∀ i ≤ e.length, TableValid (e.state i) := by
  apply e.invariant TableValid (fun _ _ => True) (fun _ _ => trivial)
  · rintro s rfl
    refine ⟨?_, ?_, rfl⟩
    · intro ns p t h
      cases h
    · intro ns p q t h
      cases h
  · rintro s l s' - hs ⟨-, rfl⟩
    exact pidNext_valid s l hs

/-! ### Entries and their makers -/

theorem entry_has_maker {s : PidState} (h : TableValid s) {p : PidT}
    (hp : p ∈ s.list.map MemoryLimitation.pid) : ∃ e t, (e, t) ∈ s.list.zip s.makers ∧ e.pid = p := by
  obtain ⟨e, he, rfl⟩ := List.mem_map.mp hp
  obtain ⟨k, hk, rfl⟩ := List.mem_iff_getElem.mp he
  have hz : k < (s.list.zip s.makers).length := by
    rw [List.length_zip, h.paired, Nat.min_self]
    exact hk
  refine ⟨_, s.makers.get ⟨k, by rw [h.paired]; exact hk⟩, ?_, rfl⟩
  have hg := List.getElem_mem hz
  rw [List.getElem_zip] at hg
  exact hg

theorem maker_has_entry {s : PidState} (h : TableValid s) {t : TaskId} (ht : t ∈ s.makers) :
    ∃ e, (e, t) ∈ s.list.zip s.makers := by
  obtain ⟨k, hk, rfl⟩ := List.mem_iff_getElem.mp ht
  have hz : k < (s.list.zip s.makers).length := by
    rw [List.length_zip, h.paired, Nat.min_self, ← h.paired]
    exact hk
  have hg := List.getElem_mem hz
  rw [List.getElem_zip] at hg
  exact ⟨_, hg⟩

/- For every entry that has the number given, or that an add finds was made
for its process: in the caller's namespace the entry's number names the process
it was made for, and the number given still names the process found. -/
def NumbersHold (s : PidState) (d : Pending) : Prop :=
  ∀ e t, (e, t) ∈ s.list.zip s.makers → (e.pid = d.call.pid ∨ d.call.op = .add ∧ t = d.task) →
    s.resolve d.call.ns e.pid = some t ∧ s.resolve d.call.ns d.call.pid = some d.task

theorem found_is_maker {s : PidState} (hv : TableValid s) {d : Pending} (h : NumbersHold s d)
    (hp : d.call.pid ∈ s.list.map MemoryLimitation.pid) : d.task ∈ s.makers := by
  obtain ⟨e, t, hz, he⟩ := entry_has_maker hv hp
  obtain ⟨h1, h2⟩ := h e t hz (Or.inl he)
  rw [he, h2] at h1
  obtain rfl := Option.some.inj h1
  exact (List.of_mem_zip hz).2

theorem new_maker {s : PidState} (hv : TableValid s) {d : Pending} (h : NumbersHold s d)
    (hop : d.call.op = .add) (hp : d.call.pid ∉ s.list.map MemoryLimitation.pid) :
    d.task ∉ s.makers := by
  intro hm
  obtain ⟨e, hz⟩ := maker_has_entry hv hm
  obtain ⟨h1, h2⟩ := h e d.task hz (Or.inr ⟨hop, rfl⟩)
  have he := hv.single _ _ _ _ h1 h2
  exact hp (he ▸ List.mem_map_of_mem (List.of_mem_zip hz).1)

/-! ### Whole runs -/

/- Step `i` is the critical section of a call that found its task before. -/
def Enters (e : PidExecution) (i : ℕ) (d : Pending) : Prop :=
  i < e.length ∧ ∃ caller, e.label i = .critical caller ∧ (e.state i).pending caller = some d

def AddsFor (e : PidExecution) (i : ℕ) (t : TaskId) : Prop :=
  ∃ d, Enters e i d ∧ d.task = t ∧ d.call.op = .add ∧ ((e.state i).locked d.call).2 = 0

structure EntriesBelong (e : PidExecution) : Prop where
  earlierAdd : ∀ i d, Enters e i d →
    (d.call.op = .add ∧ ((e.state i).locked d.call).2 = -101 ∨
      d.call.op = .update ∧ ((e.state i).locked d.call).2 = 0) → ∃ j < i, AddsFor e j d.task
  oneEntry : ∀ i ≤ e.length, (e.state i).makers.Nodup

theorem enters_next {e : PidExecution} {i : ℕ} {d : Pending} (h : Enters e i d) :
    ∃ caller, e.state (i + 1) = (e.state i).finish caller d := by
  obtain ⟨hi, caller, hl, hd⟩ := h
  obtain ⟨-, hs⟩ := e.step i hi
  refine ⟨caller, ?_⟩
  rw [hs, hl]
  simp only [pidNext, hd]

theorem makers_step (e : PidExecution) (i : ℕ) (hi : i < e.length) :
    (e.state (i + 1)).makers = (e.state i).makers ∨
      ∃ d, Enters e i d ∧ d.call.op = .add ∧ ((e.state i).locked d.call).2 = 0 ∧
        (e.state (i + 1)).makers = d.task :: (e.state i).makers := by
  obtain ⟨-, hs⟩ := e.step i hi
  cases hl : e.label i with
  | spawn numbers => exact Or.inl (by rw [hs, hl]; rfl)
  | exit task => exact Or.inl (by rw [hs, hl]; rfl)
  | check caller c => exact Or.inl (by rw [hs, hl]; rfl)
  | critical caller =>
    cases hp : (e.state i).pending caller with
    | none =>
      refine Or.inl ?_
      rw [hs, hl]
      simp only [pidNext, hp]
    | some d =>
      have hen : Enters e i d := ⟨hi, caller, hl, hp⟩
      obtain ⟨_, hnext⟩ := enters_next hen
      by_cases hadd : d.call.op = .add ∧ ((e.state i).locked d.call).2 = 0
      · refine Or.inr ⟨d, hen, hadd.1, hadd.2, ?_⟩
        rw [hnext, PidState.finish, if_pos hadd]
      · refine Or.inl ?_
        rw [hnext, PidState.finish, if_neg hadd]

theorem maker_added (e : PidExecution) (i : ℕ) (hi : i ≤ e.length) (t : TaskId)
    (ht : t ∈ (e.state i).makers) : ∃ j < i, AddsFor e j t := by
  induction i with
  | zero =>
    rw [e.init] at ht
    cases ht
  | succ i ih =>
    have hold (h : t ∈ (e.state i).makers) : ∃ j < i + 1, AddsFor e j t := by
      obtain ⟨j, hj, ha⟩ := ih (by omega) h
      exact ⟨j, by omega, ha⟩
    rcases makers_step e i hi with hm | ⟨d, hen, hop, h0, hm⟩
    · rw [hm] at ht
      exact hold ht
    · rw [hm] at ht
      rcases List.mem_cons.mp ht with rfl | ht
      · exact ⟨i, by omega, d, hen, rfl, hop, h0⟩
      · exact hold ht

theorem so2_entries_belong (e : PidExecution)
    (hnum : ∀ i d, Enters e i d → NumbersHold (e.state i) d) : EntriesBelong e := by
  have hv := tableValid e
  refine ⟨?_, ?_⟩
  · intro i d hen hret
    have hvi := hv i hen.1.le
    refine maker_added e i hen.1.le d.task (found_is_maker hvi (hnum i d hen) ?_)
    rcases locked_cases (e.state i) d.call with ⟨hop, -, hl⟩ | ⟨-, -, hp⟩
    · rw [hl, hop] at hret
      simp at hret
    · exact hp hret
  · intro i hi
    induction i with
    | zero =>
      rw [e.init]
      exact List.nodup_nil
    | succ i ih =>
      rcases makers_step e i hi with hm | ⟨d, hen, hop, h0, hm⟩
      · rw [hm]
        exact ih (by omega)
      · rw [hm]
        refine List.nodup_cons.mpr ⟨new_maker (hv i (by omega)) (hnum i d hen) hop ?_, ih (by omega)⟩
        rcases locked_cases (e.state i) d.call with ⟨-, hp, -⟩ | ⟨-, hn, -⟩
        · exact hp
        · exact absurd ⟨hop, h0⟩ hn

/-! ### Two runs -/

/- A call of a privileged caller in namespace 0; every task has 100 resident pages. -/
def rootCall (op : LimitOp) (pid : PidT) (limit : SizeT) : PidCall :=
  ⟨op, 0, pid, limit, true, fun _ => some ⟨400, 100⟩, true⟩

def spawnIn (ns : PidNamespace) (pid : PidT) : PidStep :=
  .spawn fun n => if n = ns then some pid else none

/- Two processes are limited while they live, and the first one's limit is raised. -/
def livingSteps : List PidStep :=
  [spawnIn 0 5, spawnIn 0 6, .check 0 (rootCall .add 5 500), .critical 0,
    .check 0 (rootCall .add 6 500), .critical 0, .check 0 (rootCall .update 5 1000), .critical 0]

/- The limited process exits and a new process gets its number. -/
def recycledSteps : List PidStep :=
  [spawnIn 0 5, .check 0 (rootCall .add 5 500), .critical 0, .exit 0, spawnIn 0 5,
    .check 0 (rootCall .add 5 500), .critical 0]

theorem spawnIn_enabled {s : PidState} {ns : PidNamespace} {pid : PidT}
    (h : s.resolve ns pid = none) : pidEnabled s (spawnIn ns pid) := by
  intro n p hp
  dsimp only at hp
  by_cases hn : n = ns
  · rw [if_pos hn] at hp
    rw [hn, ← Option.some.inj hp]
    exact h
  · rw [if_neg hn] at hp
    cases hp

def livingExecution : PidExecution :=
  .ofLabels pidEnabled pidNext .initial rfl (.exit 0) livingSteps (by
    intro i hi
    change i < 8 at hi
    interval_cases i
    · exact spawnIn_enabled rfl
    · exact spawnIn_enabled rfl
    all_goals rfl)

def recycledExecution : PidExecution :=
  .ofLabels pidEnabled pidNext .initial rfl (.exit 0) recycledSteps (by
    intro i hi
    change i < 7 at hi
    interval_cases i
    · exact spawnIn_enabled rfl
    · rfl
    · rfl
    · trivial
    · exact spawnIn_enabled rfl
    · rfl
    · rfl)

theorem so2_entries_belong_to_the_living :
    ((livingExecution.state 7).locked (rootCall .update 5 1000)).2 = 0 ∧
      EntriesBelong livingExecution := by
  refine ⟨by decide, so2_entries_belong livingExecution ?_⟩
  rintro i d ⟨hi, caller, hl, hd⟩ e t hz -
  change i < 8 at hi
  interval_cases i
  · cases hl
  · cases hl
  · cases hl
  · cases hz
  · cases hl
  · obtain rfl := PidStep.critical.inj hl
    obtain rfl : ⟨rootCall .add 6 500, 1⟩ = d := Option.some.inj hd
    change (e, t) ∈ [((⟨5, 500⟩ : MemoryLimitation), 0)] at hz
    obtain ⟨rfl, rfl⟩ := Prod.mk.inj (List.mem_singleton.mp hz)
    exact ⟨rfl, rfl⟩
  · cases hl
  · obtain rfl := PidStep.critical.inj hl
    obtain rfl : ⟨rootCall .update 5 1000, 0⟩ = d := Option.some.inj hd
    change (e, t) ∈ [((⟨6, 500⟩ : MemoryLimitation), 1), (⟨5, 500⟩, 0)] at hz
    rcases List.mem_pair.mp hz with hz | hz
    · obtain ⟨rfl, rfl⟩ := Prod.mk.inj hz
      exact ⟨rfl, rfl⟩
    · obtain ⟨rfl, rfl⟩ := Prod.mk.inj hz
      exact ⟨rfl, rfl⟩

theorem so2_recycled_pid_inherits_entry : ¬∀ e : PidExecution, EntriesBelong e := by
  intro h
  obtain ⟨j, hj, d, ⟨-, caller, hl, hd⟩, ht, -⟩ := (h recycledExecution).earlierAdd 6
    ⟨rootCall .add 5 500, 1⟩ ⟨by decide, 0, rfl, rfl⟩ (Or.inl ⟨rfl, by decide⟩)
  interval_cases j
  · cases hl
  · cases hl
  · obtain rfl := PidStep.critical.inj hl
    obtain rfl : ⟨rootCall .add 5 500, 0⟩ = d := Option.some.inj hd
    cases ht
  · cases hl
  · cases hl
  · cases hl

end UsacLinux.MemoryLimit
