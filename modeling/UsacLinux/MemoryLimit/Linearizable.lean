import UsacLinux.MemoryLimit.Refinement
import UsacLinux.MemoryLimit.Concurrent
import UsacLinux.MemoryLimit.UserCopy
import Mathlib.Tactic.IntervalCases

/-!
# Linearizability of the registry

In every execution of concurrent calls each call that takes
`memory_limit_lock` gives it back once, and the calls take effect in the order
in which they acquire it. What this says about stored limits, competing adds and
the entries a read reports follows from sequential runs.
-/

namespace UsacLinux.MemoryLimit
open Kernel Lib.KeyedList Lib.Machine Lib.Mutex

abbrev RegistrySystem := System (List MemoryLimitation) Place RegistryReply

abbrev RegistryExecution (calls : ℕ → RegistryCall) := MutexExecution registryProgram calls []

abbrev RegistryLinearized (calls : ℕ → RegistryCall) (s : RegistrySystem) : Prop :=
  Linearized registryProgram calls execCall Progress [] zone s

theorem registry_linearized {calls : ℕ → RegistryCall} (e : RegistryExecution calls) :
    ∀ i ≤ e.length, RegistryLinearized calls (e.state i) :=
  linearized e registry_disciplined registry_implements

/-! ### Stored limits in sequential runs -/

/- An add or update that answers 0. -/
def succeeded : RegistryCall → RegistryReply → Option LimitCall
  | .limit c, .limit r => if r.ret = 0 then some c else none
  | _, _ => none

def lastLimit (p : PidT) (cs : List LimitCall) : Option SizeT :=
  (cs.filter fun c => c.pid = p).getLast?.map LimitCall.limit

theorem lastLimit_concat (p : PidT) (cs : List LimitCall) (c : LimitCall) :
    lastLimit p (cs ++ [c]) = if c.pid = p then some c.limit else lastLimit p cs := by
  by_cases h : c.pid = p <;> simp [lastLimit, h]

theorem lastLimit_isSome {p : PidT} {cs : List LimitCall} {c : LimitCall} (hc : c ∈ cs)
    (hp : c.pid = p) : (lastLimit p cs).isSome := by
  have hm : c ∈ cs.filter fun c => c.pid = p := by simp [hc, hp]
  rw [lastLimit, Option.isSome_map, List.getLast?_isSome]
  exact List.ne_nil_of_mem hm

theorem stored_step {list : List MemoryLimitation} {p : PidT} {cs : List LimitCall}
    (h : toMap list p = lastLimit p cs) (c : RegistryCall) :
    toMap (execCall list c).1 p =
      lastLimit p (cs ++ (succeeded c (execCall list c).2).toList) := by
  cases c with
  | get env args => simpa [execCall, succeeded] using h
  | limit c =>
    simp only [execCall, succeeded, toMap_execLimit]
    by_cases h0 : (execLimit list c).2.ret = 0
    · simp only [h0, if_true, Option.toList_some, lastLimit_concat]
      by_cases hp : c.pid = p
      · subst hp
        simp
      · simp [hp, Ne.symm hp, h]
    · simp [h0, h]

theorem stored_run (cs : List RegistryCall) (p : PidT) :
    toMap (run execCall [] cs).1 p =
      lastLimit p ((cs.zip (run execCall [] cs).2).filterMap fun x => succeeded x.1 x.2) := by
  induction cs using List.reverseRecOn with
  | nil => rfl
  | append_singleton cs c ih =>
    have hl := run_length execCall [] cs
    rw [run_concat, stored_step ih c, List.zip_append hl.symm, List.filterMap_append]
    congr 2

/-! ### States of an execution -/

/- The answer of a call, as soon as nothing but the release or the copy to user
space stands between the call and it. -/
abbrev answer (ph : Phase Place RegistryReply) : Option RegistryReply := registryProgram.answer ph

def successOf (calls : ℕ → RegistryCall) (s : RegistrySystem) (t : ℕ) : Option LimitCall :=
  (answer (s.phase t)).bind (succeeded (calls t))

/- Successes read off the threads are those read off a run with their answers. -/
theorem filterMap_answers {calls : ℕ → RegistryCall} {f : ℕ → Option RegistryReply} {ts : List ℕ}
    {rs : List RegistryReply} (h : rs.map some = ts.map f) :
    ts.filterMap (fun t => (f t).bind (succeeded (calls t))) =
      ((ts.map calls).zip rs).filterMap fun x => succeeded x.1 x.2 := by
  induction ts generalizing rs with
  | nil => rfl
  | cons t ts ih =>
    cases rs with
    | nil => cases h
    | cons r rs =>
      obtain ⟨hr, hrs⟩ := List.cons.inj h
      rw [List.filterMap_cons, List.map_cons, List.zip_cons_cons, List.filterMap_cons, ih hrs, ← hr,
        Option.bind_some]

section State

variable {calls : ℕ → RegistryCall} {s : RegistrySystem} (h : RegistryLinearized calls s)
include h

theorem released_successes :
    s.released.filterMap (successOf calls s) =
      ((s.released.map calls).zip (run execCall [] (s.released.map calls)).2).filterMap
        fun x => succeeded x.1 x.2 := filterMap_answers h.answers

theorem committed_stored (p : PidT) :
    toMap (committed calls execCall [] s) p = lastLimit p (s.released.filterMap (successOf calls s)) := by
  rw [released_successes h]
  exact stored_run _ p

/- Under the lock the list is the committed one until the answer is settled. -/
theorem holder_cases {t : ℕ} (hl : s.lock = some t) :
    (answer (s.phase t) = none ∧ s.shared = committed calls execCall [] s) ∨
    ∃ r, answer (s.phase t) = some r ∧
      execCall (committed calls execCall [] s) (calls t) = (s.shared, r) := by
  obtain ⟨p, hp, -⟩ := h.holder t hl
  have hR := h.working t p hl hp
  rw [hp]
  cases ho : outcome p with
  | none => exact Or.inl ⟨ho, (hR.working ho).1⟩
  | some r => exact Or.inr ⟨r, ho, hR.settled r ho⟩

/- Each pid's limit is that of the last successful call in acquisition order. -/
theorem system_stored (p : PidT) :
    toMap s.shared p = lastLimit p (s.acquired.filterMap (successOf calls s)) := by
  have hc := committed_stored h p
  rw [h.order, List.filterMap_append]
  cases hl : s.lock with
  | none =>
    rw [h.free hl]
    simpa using hc
  | some t =>
    rcases holder_cases h hl with ⟨ha, hsame⟩ | ⟨r, ha, he⟩
    · have hn : successOf calls s t = none := by rw [successOf, ha]; rfl
      rw [hsame]
      simpa [hn] using hc
    · have hs := stored_step hc (calls t)
      rw [he] at hs
      have hn : successOf calls s t = succeeded (calls t) r := by rw [successOf, ha]; rfl
      rw [hs]
      congr 2
      cases hx : succeeded (calls t) r <;> simp [hn, hx]

/- The answer of a released call is the sequential one after those before it. -/
theorem released_split {pre post : List ℕ} {t : ℕ} (hs : s.released = pre ++ t :: post) :
    ((run execCall [] (pre.map calls)).2.map some = pre.map fun u => answer (s.phase u)) ∧
      answer (s.phase t) = some (execCall (run execCall [] (pre.map calls)).1 (calls t)).2 := by
  have ha := h.answers
  rw [hs, List.map_append, run_append, List.map_append, List.map_append] at ha
  have hl := run_length execCall [] (pre.map calls)
  obtain ⟨h1, h2⟩ := List.append_inj ha (by simpa using hl)
  simp only [List.map_cons, run_cons] at h2
  exact ⟨h1, (List.cons.inj h2).1.symm⟩

theorem done_refused {t : ℕ} {r : RegistryReply} (hd : s.phase t = .done r)
    (ht : t ∉ s.acquired) : refused (calls t) = some r := check_inr (h.done_refused hd ht)

theorem acquired_passed {t : ℕ} (ht : t ∈ s.acquired) : refused (calls t) = none := by
  obtain ⟨p, hp⟩ := h.passed t ht
  exact check_passed hp

/- An add that returned 0 keeps its pid in the list for every later call. -/
theorem pid_present {pre post : List ℕ} {t u : ℕ} {c : LimitCall} {y : Reply}
    (hs : s.released = pre ++ u :: post) (ht : t ∈ pre) (hc : calls t = .limit c)
    (hy : s.phase t = .done (.limit y)) (h0 : y.ret = 0) :
    c.pid ∈ (run execCall [] (pre.map calls)).1.map MemoryLimitation.pid := by
  rw [mem_pids_iff, ← toMap_isSome, stored_run, ← filterMap_answers (released_split h hs).1]
  refine lastLimit_isSome (List.mem_filterMap.mpr ⟨t, ht, ?_⟩) rfl
  simp [hy, Program.answer, hc, succeeded, h0]

/- `t` acquired the lock before `u`. -/
def Before (s : RegistrySystem) (t u : ℕ) : Prop := ∃ a b, s.acquired = a ++ t :: b ∧ u ∈ b

theorem before_released {t u : ℕ} {pre post : List ℕ} (hb : Before s t u)
    (hs : s.released = pre ++ u :: post) : t ∈ pre := by
  obtain ⟨a, b, hab, hu⟩ := hb
  obtain ⟨b₁, b₂, rfl⟩ := List.append_of_mem hu
  have hn := h.nodup
  have ho := h.order
  rw [hs, List.append_assoc, List.cons_append, hab] at ho
  rw [hab] at hn
  have hsplit : (a ++ t :: b₁) ++ u :: b₂ = pre ++ u :: (post ++ s.lock.toList) := by simpa using ho
  have hnodup : ((a ++ t :: b₁) ++ u :: b₂).Nodup := by simpa using hn
  have h1 : u ∉ a ++ t :: b₁ := fun hm => by
    exact (List.nodup_append.mp hnodup).2.2 u hm u List.mem_cons_self rfl
  have h2 : u ∉ b₂ := (List.nodup_cons.mp (List.nodup_append.mp hnodup).2.1).1
  have hinj := (List.append_cons_inj_of_notMem h1 h2).mp hsplit
  rw [← hinj.1]
  simp

theorem later_add {t u : ℕ} {c d : LimitCall} {x y : Reply} (hc : calls t = .limit c)
    (hd : calls u = .limit d) (hop : d.op = .add) (hpid : c.pid = d.pid)
    (ht : s.phase t = .done (.limit x)) (h0 : x.ret = 0) (hb : Before s t u)
    (hu : s.phase u = .done (.limit y)) : y.ret = -101 := by
  have hua : u ∈ s.acquired := by
    obtain ⟨a, b, hab, hub⟩ := hb
    simp [hab, hub]
  obtain ⟨pre, post, hs⟩ := List.append_of_mem (h.done_released hu hua)
  have hp := pid_present h hs (before_released h hb hs) hc ht h0
  have hex := (released_split h hs).2
  have hpass := acquired_passed h hua
  rw [hd] at hex hpass
  rw [hu, execCall_add hpass hop, addLocked_present (hpid ▸ hp)] at hex
  have hy := RegistryReply.limit.inj (Option.some.inj hex)
  rw [hy]

theorem zero_acquired {t : ℕ} {c : LimitCall} {x : Reply} (hc : calls t = .limit c)
    (ht : s.phase t = .done (.limit x)) (h0 : x.ret = 0) : t ∈ s.acquired := by
  by_contra hn
  have hr := done_refused h ht hn
  rw [hc] at hr
  obtain ⟨e, he, hx⟩ := Option.map_eq_some_iff.mp hr
  rw [← RegistryReply.limit.inj hx] at h0
  exact requestError_neg_ne_zero he h0

theorem one_add {t u : ℕ} {c d : LimitCall} {x y : Reply} (htu : t ≠ u) (hc : calls t = .limit c)
    (hd : calls u = .limit d) (hcop : c.op = .add) (hdop : d.op = .add) (hpid : c.pid = d.pid)
    (ht : s.phase t = .done (.limit x)) (hx : x.ret = 0) (hu : s.phase u = .done (.limit y)) :
    y.ret ≠ 0 := by
  intro hy
  have hta := zero_acquired h hc ht hx
  have hua := zero_acquired h hd hu hy
  obtain ⟨a, b, hab⟩ := List.append_of_mem hta
  rw [hab, List.mem_append, List.mem_cons] at hua
  rcases hua with hua | hua | hua
  · obtain ⟨a₁, a₂, rfl⟩ := List.append_of_mem hua
    have hlate := later_add h hd hc hcop hpid.symm hu hy ⟨a₁, a₂ ++ t :: b, by simp [hab], by simp⟩ ht
    omega
  · exact htu hua.symm
  · have hlate := later_add h hc hd hdop hpid ht hx ⟨a, b, hab, hua⟩ hu
    omega

end State

/-! ### What a read reports -/

theorem copyOut_buffer (env : GetEnv) (args : GetArgs) (b : KernelBuffer) (n : SizeT) :
    (copyOut env args b n).kernelBuffer = some b ∧ (copyOut env args b n).count = n := by
  simp only [copyOut]
  split
  · exact ⟨rfl, rfl⟩
  · split
    · exact ⟨rfl, rfl⟩
    · exact ⟨rfl, rfl⟩

theorem get_reports (r : Registry) (env : GetEnv) (args : GetArgs) {b : KernelBuffer}
    (hb : (so2GetMemoryLimits env args r.entries).kernelBuffer = some b) :
    (so2GetMemoryLimits env args r.entries).count.toNat = min r.entries.length args.maxEntries.toNat ∧
      ∀ k < (so2GetMemoryLimits env args r.entries).count.toNat, r.entries[k]? = some (b.record k) := by
  unfold so2GetMemoryLimits at hb ⊢
  split at hb
  · cases hb
  next hok =>
    rw [if_neg hok]
    split at hb
    next ha =>
      rw [if_pos ha]
      obtain ⟨h1, h2⟩ := copyOut_buffer env args (filled env args r.entries).1
        (filled env args r.entries).2
      obtain rfl := Option.some.inj (h1.symm.trans hb)
      rw [h2, filled_count]
      exact ⟨rfl, fun k hk => filled_record r env args k hk⟩
    · cases hb

theorem committed_valid (calls : ℕ → RegistryCall) (s : RegistrySystem) :
    Valid (committed calls execCall [] s) :=
  run_invariant execCall Valid execCall_valid [] _ empty_valid

theorem get_instant {calls : ℕ → RegistryCall} (e : RegistryExecution calls) {i t : ℕ}
    (hi : i ≤ e.length) {env : GetEnv} {args : GetArgs} {o : GetOutcome} {b : KernelBuffer}
    (hc : calls t = .get env args) (hd : (e.state i).phase t = .done (.get o))
    (hb : o.kernelBuffer = some b) :
    ∃ j < i, (e.state j).lock = some t ∧
      o = so2GetMemoryLimits env args (e.state j).shared ∧
      o.count.toNat = min (e.state j).shared.length args.maxEntries.toNat ∧
      ∀ k < o.count.toNat, (e.state j).shared[k]? = some (b.record k) := by
  have h := registry_linearized e i hi
  have hacq : t ∈ (e.state i).acquired := by
    by_contra hn
    have hr := done_refused h hd hn
    rw [hc, refused] at hr
    split at hr
    · rw [← RegistryReply.get.inj (Option.some.inj hr)] at hb
      cases hb
    · cases hr
  obtain ⟨j, hj, hl, hex⟩ := released_at e registry_disciplined registry_implements i hi
    (h.done_released hd hacq) (by rw [hd]; rfl)
  simp only [hc, execCall, Prod.mk.injEq, RegistryReply.get.injEq] at hex
  obtain ⟨hshared, ho⟩ := hex
  rw [hshared] at ho
  have hv := committed_valid calls (e.state j)
  rw [hshared] at hv
  rw [← ho] at hb ⊢
  exact ⟨j, hj, hl, rfl, get_reports ⟨(e.state j).shared, hv⟩ env args hb⟩

/-! ### Whole executions -/

structure RegistryLinearizable {calls : ℕ → RegistryCall} (e : RegistryExecution calls) : Prop where
  releasedOnce : ∀ i ≤ e.length, ∀ t r, (e.state i).phase t = .done r → t ∈ (e.state i).acquired →
    (e.state i).acquired.count t = 1 ∧ (e.state i).released.count t = 1 ∧
      (e.state i).lock ≠ some t
  releasedByHolder : ∀ i < e.length, (e.state (i + 1)).released ≠ (e.state i).released →
    (e.state i).lock = some (e.label i)
  onlyHolder : ∀ i ≤ e.length, ∀ t, (e.state i).lock ≠ some t → ∀ list,
    next registryProgram calls { e.state i with shared := list } t =
      { next registryProgram calls (e.state i) t with shared := list }
  sequential : ∀ i ≤ e.length,
    (e.state i).acquired = (e.state i).released ++ (e.state i).lock.toList ∧
    ((e.state i).released.map fun t => answer ((e.state i).phase t)) =
      (run execCall [] ((e.state i).released.map calls)).2.map some ∧
    ((e.state i).lock = none →
      (e.state i).shared = (run execCall [] ((e.state i).acquired.map calls)).1) ∧
    ∀ t r, (e.state i).phase t = .done r →
      t ∈ (e.state i).released ∨
        t ∉ (e.state i).acquired ∧ ∀ list, execCall list (calls t) = (list, r)
  stored : ∀ i ≤ e.length, ∀ p, toMap (e.state i).shared p =
    lastLimit p ((e.state i).acquired.filterMap (successOf calls (e.state i)))
  adds : ∀ i ≤ e.length, ∀ t u c d x y, t ≠ u → calls t = .limit c → calls u = .limit d →
    c.op = .add → d.op = .add → c.pid = d.pid →
    (e.state i).phase t = .done (.limit x) → x.ret = 0 →
    (e.state i).phase u = .done (.limit y) →
    y.ret ≠ 0 ∧ (Before (e.state i) t u → y.ret = -101)
  reads : ∀ i ≤ e.length, ∀ t env args o b, calls t = .get env args →
    (e.state i).phase t = .done (.get o) → o.kernelBuffer = some b →
    ∃ j < i, (e.state j).lock = some t ∧
      o = so2GetMemoryLimits env args (e.state j).shared ∧
      o.count.toNat = min (e.state j).shared.length args.maxEntries.toNat ∧
      ∀ k < o.count.toNat, (e.state j).shared[k]? = some (b.record k)

theorem so2_registry_linearizable (calls : ℕ → RegistryCall) (e : RegistryExecution calls) :
    RegistryLinearizable e where
  releasedOnce i hi t r hd ht := by
    have h := exclusive e registry_disciplined i hi
    have hrel := h.done_released hd ht
    have hnodup : (e.state i).released.Nodup := by
      have hn := h.nodup
      rw [h.order] at hn
      exact (List.nodup_append.mp hn).1
    exact ⟨List.count_eq_one_of_mem h.nodup ht, List.count_eq_one_of_mem hnodup hrel,
      fun hl => h.released_ne hl hrel rfl⟩
  releasedByHolder i hi hne := released_by_holder e registry_disciplined hi hne
  onlyHolder i hi t hl list :=
    next_frame registry_disciplined (exclusive e registry_disciplined i hi) hl list
  sequential i hi := by
    have h := registry_linearized e i hi
    refine ⟨h.order, h.answers.symm, ?_, ?_⟩
    · intro hl
      rw [h.free hl, h.order, hl, Option.toList_none, List.append_nil]
      rfl
    · intro t r hd
      by_cases ht : t ∈ (e.state i).acquired
      · exact Or.inl (h.done_released hd ht)
      · exact Or.inr ⟨ht, execCall_refused (done_refused h hd ht)⟩
  stored i hi p := system_stored (registry_linearized e i hi) p
  adds i hi t u c d x y htu hc hd hcop hdop hpid ht hx hu := by
    have h := registry_linearized e i hi
    exact ⟨one_add h htu hc hd hcop hdop hpid ht hx hu,
      fun hb => later_add h hc hd hdop hpid ht hx hb hu⟩
  reads i hi t env args o b hc hd hb := get_instant e hi hc hd hb

/- The run in which the calls move in the given order. -/
def scheduled (calls : ℕ → RegistryCall) (steps : List ℕ)
    (h : ∀ i < steps.length, canStep registryProgram
      ((steps.take i).foldl (next registryProgram calls) (.initial [])) (steps.getD i 0)) :
    RegistryExecution calls :=
  .ofLabels (canStep registryProgram) (next registryProgram calls) (.initial []) rfl 0 steps h

/- Two adds of one pid, an update of it and a read. -/
def racingCalls (t : ℕ) : RegistryCall :=
  match t with
  | 0 => .limit ⟨.add, testEnv, 1234, 500⟩
  | 1 => .limit ⟨.add, testEnv, 1234, 1000⟩
  | 2 => .limit ⟨.update, testEnv, 1234, 750⟩
  | _ => .get testGetEnv testArgs

/- All four pass their checks before any takes the lock; each returns while the
next one is already under it. -/
def racingSteps : List ℕ :=
  [0, 1, 2, 3] ++ List.replicate 6 0 ++ [1, 0] ++ List.replicate 3 1 ++ [2, 1] ++ List.replicate 4 2 ++
    [3, 2] ++ List.replicate 9 3

theorem racing_canStep : ∀ i < racingSteps.length,
    canStep registryProgram
      ((racingSteps.take i).foldl (next registryProgram racingCalls) (.initial []))
      (racingSteps.getD i 0) := by
  intro i hi
  change i < 32 at hi
  interval_cases i
  all_goals trivial

def racingRun : RegistryExecution racingCalls := scheduled racingCalls racingSteps racing_canStep

/- The second add fails, the update is what is stored, and the read shows it. -/
theorem so2_racing_calls_linearizable :
    (∀ y, (racingRun.state 32).phase 1 = .done (.limit y) → y.ret = -101) ∧
    toMap (racingRun.state 32).shared 1234 = some 750 ∧
    (racingRun.state 32).released = [0, 1, 2, 3] ∧
    ∃ o b, (racingRun.state 32).phase 3 = .done (.get o) ∧ o.kernelBuffer = some b ∧
      ∃ j < 32, (racingRun.state j).lock = some 3 ∧ (racingRun.state j).shared[0]? = some (b.record 0) := by
  have h := so2_registry_linearizable racingCalls racingRun
  have hread : (racingRun.state 32).phase 3 =
      .done (.get (so2GetMemoryLimits testGetEnv testArgs [⟨1234, 750⟩])) := rfl
  refine ⟨fun y hy => ?_, (h.stored 32 le_rfl 1234).trans rfl, rfl, _, _, hread, rfl, ?_⟩
  · exact (h.adds 32 le_rfl 0 1 ⟨.add, testEnv, 1234, 500⟩ ⟨.add, testEnv, 1234, 1000⟩ ⟨0, none⟩ y
      (by decide) rfl rfl rfl rfl rfl rfl rfl hy).2 ⟨[], [1, 2, 3], rfl, by simp⟩
  · obtain ⟨j, hj, hl, -, -, hrec⟩ := h.reads 32 le_rfl 3 testGetEnv testArgs _ _ rfl hread rfl
    exact ⟨j, hj, hl, hrec 0 (by decide)⟩

end UsacLinux.MemoryLimit
