import UsacLinux.MemoryReport
import UsacLinux.Lib.Transition
import Mathlib.Tactic.IntervalCases

/-!
# The walk of luis_resumen_total over a changing process list

For every process the loop of syscall6.c:26-37 tests `task->mm` and reads two
counters through it, without a lock and without a reference of its own to the
address space. Processes go on running meanwhile: address spaces grow, shrink,
are replaced and, when their last user exits, are freed, between any two of
these steps. The source names `task->mm` in each of them; a compiler may load
it each time or keep the pointer of the test, and the model has both. What
`get_mm_rss` returns is left open: it belongs to Linux, where it adds up several
counters it loads one after the other, and that it gives the resident set of one
instant is a hypothesis (`ReadsAtOnce`). The process list is that of the start of
the walk.
-/

namespace UsacLinux.MemoryReport
open Kernel Lib.Rounding Lib.Transition

/- Where the walker stands with the first process of `rest`; behind the test it
has a pointer. -/
inductive WalkPc where
  | test
  | rss (mm : ℕ)
  | totalVm (mm : ℕ) (reserved : SizeT)
  deriving DecidableEq, Repr

/- `mmOf` is `task->mm` of each process, `heap` holds the address spaces that
have not been freed. -/
structure WalkState where
  mmOf : ℕ → Option ℕ
  heap : ℕ → Option MmStruct
  rest : List ℕ
  pc : WalkPc
  sysSummary : MemorySummary
  faulted : Bool

/- `rss` is what `get_mm_rss` returns if the walker calls it in this step. -/
inductive WalkStep where
  | walk (rss : SizeT)
  | change (mmOf : ℕ → Option ℕ) (heap : ℕ → Option MmStruct)

/- The address space of a process is not freed while the process has it. -/
def Live (mmOf : ℕ → Option ℕ) (heap : ℕ → Option MmStruct) : Prop :=
  ∀ t a, mmOf t = some a → (heap a).isSome

/- The structure a read goes to: none through NULL or a freed address space. -/
def WalkState.deref (reload : Bool) (s : WalkState) (task mm : ℕ) : Option MmStruct :=
  if reload then (s.mmOf task).bind s.heap else s.heap mm

def WalkState.walk (reload : Bool) (rss : SizeT) (s : WalkState) : WalkState :=
  match s.rest with
  | [] => s
  | task :: rest => match s.pc with
    | .test => match s.mmOf task with
      | none => {s with rest := rest}
      | some mm => {s with pc := .rss mm}
    | .rss mm => match s.deref reload task mm with
      | none => {s with faulted := true}
      | some _ => {s with pc := .totalVm mm rss}
    | .totalVm mm reserved => match s.deref reload task mm with
      | none => {s with faulted := true}
      | some m =>
        {s with
          rest := rest
          pc := .test
          sysSummary := ⟨s.sysSummary.reservedMemoryMb + pagesToMb reserved,
            s.sysSummary.committedMemoryMb + pagesToMb m.totalVm⟩}

def canWalk (s : WalkState) : WalkStep → Prop
  | .walk _ => s.faulted = false ∧ s.rest ≠ []
  | .change mmOf heap => Live mmOf heap

def walkNext (reload : Bool) (s : WalkState) : WalkStep → WalkState
  | .walk rss => s.walk reload rss
  | .change mmOf heap => {s with mmOf := mmOf, heap := heap}

structure WalkState.Starts (tasks : List ℕ) (s : WalkState) : Prop where
  fields : s = ⟨s.mmOf, s.heap, tasks, .test, ⟨0, 0⟩, false⟩
  live : Live s.mmOf s.heap

abbrev WalkExecution (reload : Bool) (tasks : List ℕ) :=
  Execution (WalkState.Starts tasks) (Guarded canWalk (walkNext reload))

/- The steps of the walker, one by one. -/
inductive Walked (reload : Bool) (rss : SizeT) (s : WalkState) (task : ℕ) (rest : List ℕ) :
    WalkState → Prop where
  | skip (hpc : s.pc = .test) (hm : s.mmOf task = none) :
    Walked reload rss s task rest {s with rest := rest}
  | enter (a : ℕ) (hpc : s.pc = .test) (hm : s.mmOf task = some a) :
    Walked reload rss s task rest {s with pc := .rss a}
  | readRss (a : ℕ) (m : MmStruct) (hpc : s.pc = .rss a) (hm : s.deref reload task a = some m) :
    Walked reload rss s task rest {s with pc := .totalVm a rss}
  | add (a : ℕ) (reserved : SizeT) (m : MmStruct) (hpc : s.pc = .totalVm a reserved)
    (hm : s.deref reload task a = some m) :
    Walked reload rss s task rest ⟨s.mmOf, s.heap, rest, .test,
      ⟨s.sysSummary.reservedMemoryMb + pagesToMb reserved,
        s.sysSummary.committedMemoryMb + pagesToMb m.totalVm⟩, s.faulted⟩
  | fault (a : ℕ) (hpc : s.pc = .rss a ∨ ∃ reserved, s.pc = .totalVm a reserved)
    (hm : s.deref reload task a = none) : Walked reload rss s task rest {s with faulted := true}

theorem walked (reload : Bool) (rss : SizeT) {s : WalkState} (h : canWalk s (.walk rss)) :
    ∃ task rest, s.rest = task :: rest ∧ Walked reload rss s task rest (s.walk reload rss) := by
  cases hrest : s.rest with
  | nil => exact absurd hrest h.2
  | cons task rest =>
    refine ⟨task, rest, rfl, ?_⟩
    cases hpc : s.pc with
    | test =>
      cases hm : s.mmOf task with
      | none =>
        have he : s.walk reload rss = {s with rest := rest} := by simp only [WalkState.walk, hrest, hpc, hm]
        exact he ▸ .skip hpc hm
      | some a =>
        have he : s.walk reload rss = {s with pc := .rss a} := by simp only [WalkState.walk, hrest, hpc, hm]
        exact he ▸ .enter a hpc hm
    | rss a =>
      cases hm : s.deref reload task a with
      | none =>
        have he : s.walk reload rss = {s with faulted := true} := by
          simp only [WalkState.walk, hrest, hpc, hm]
        exact he ▸ .fault a (Or.inl hpc) hm
      | some m =>
        have he : s.walk reload rss = {s with pc := .totalVm a rss} := by
          simp only [WalkState.walk, hrest, hpc, hm]
        exact he ▸ .readRss a m hpc hm
    | totalVm a reserved =>
      cases hm : s.deref reload task a with
      | none =>
        have he : s.walk reload rss = {s with faulted := true} := by
          simp only [WalkState.walk, hrest, hpc, hm]
        exact he ▸ .fault a (Or.inr ⟨reserved, hpc⟩) hm
      | some m =>
        have he : s.walk reload rss = ⟨s.mmOf, s.heap, rest, .test,
            ⟨s.sysSummary.reservedMemoryMb + pagesToMb reserved,
              s.sysSummary.committedMemoryMb + pagesToMb m.totalVm⟩, s.faulted⟩ := by
          simp only [WalkState.walk, hrest, hpc, hm]
        exact he ▸ .add a reserved m hpc hm

theorem head_eq {l rest rest' : List ℕ} {task t : ℕ} (h : l = task :: rest) (h' : l = t :: rest') :
    t = task := by
  rw [h] at h'
  exact (List.cons.inj h').1.symm

/- The pointer the walker holds for the process it stands on. -/
def WalkPc.pointer : WalkPc → Option ℕ
  | .test => none
  | .rss mm => some mm
  | .totalVm mm _ => some mm

/-! ### Address spaces that go away -/

/- The process keeps the address space it has, or has none, while the walk goes on. -/
def Keeps {reload : Bool} {tasks : List ℕ} (e : WalkExecution reload tasks) (task : ℕ) : Prop :=
  ∀ i < e.length, (e.state (i + 1)).mmOf task = (e.state i).mmOf task

/- Behind its test the walker holds the pointer of the process it stands on. -/
structure OnMm (tasks : List ℕ) (s : WalkState) : Prop where
  faulted : s.faulted = false
  live : Live s.mmOf s.heap
  suffix : ∀ t ∈ s.rest, t ∈ tasks
  held : ∀ a, s.pc.pointer = some a → ∀ t rest, s.rest = t :: rest → s.mmOf t = some a

theorem OnMm.deref {tasks : List ℕ} {s : WalkState} (h : OnMm tasks s) {a task : ℕ} {rest : List ℕ}
    (hpc : s.pc.pointer = some a) (hrest : s.rest = task :: rest) (reload : Bool) :
    s.deref reload task a = s.heap a ∧ (s.heap a).isSome := by
  have hm := h.held a hpc task rest hrest
  refine ⟨?_, h.live task a hm⟩
  unfold WalkState.deref
  cases reload with
  | true => simp [hm]
  | false => rfl

theorem OnMm.walk {tasks : List ℕ} {s : WalkState} (h : OnMm tasks s) (reload : Bool) (rss : SizeT)
    (hw : canWalk s (.walk rss)) : OnMm tasks (s.walk reload rss) := by
  obtain ⟨task, rest, hrest, hstep⟩ := walked reload rss hw
  have htail : ∀ t ∈ rest, t ∈ tasks := by
    intro t ht
    exact h.suffix t (by rw [hrest]; exact List.mem_cons_of_mem _ ht)
  have hheld : ∀ a, s.mmOf task = some a → ∀ b, some a = some b → ∀ t rest', s.rest = t :: rest' →
      s.mmOf t = some b := by
    intro a ha b hb t rest' ht
    rw [head_eq hrest ht, ha, hb]
  generalize s.walk reload rss = s' at hstep ⊢
  cases hstep with
  | skip hpc hm => exact ⟨h.faulted, h.live, htail, fun a ha => by rw [hpc] at ha; cases ha⟩
  | enter a hpc hm => exact ⟨h.faulted, h.live, h.suffix, hheld a hm⟩
  | readRss a m hpc hm =>
    have ha := h.held a (by rw [hpc]; rfl) task rest hrest
    exact ⟨h.faulted, h.live, h.suffix, hheld a ha⟩
  | add a reserved m hpc hm => exact ⟨h.faulted, h.live, htail, fun a ha => by cases ha⟩
  | fault a hpc hm =>
    have hptr : s.pc.pointer = some a := by
      rcases hpc with hpc | ⟨reserved, hpc⟩
      · rw [hpc]
        rfl
      · rw [hpc]
        rfl
    obtain ⟨hd, hsome⟩ := h.deref hptr hrest reload
    rw [hm] at hd
    rw [← hd] at hsome
    cases hsome

theorem not_faulted {reload : Bool} {tasks : List ℕ} (e : WalkExecution reload tasks)
    (h : ∀ t ∈ tasks, Keeps e t) : ∀ i ≤ e.length, OnMm tasks (e.state i) := by
  refine e.invariant (OnMm tasks)
    (fun s l => ∀ t ∈ tasks, (walkNext reload s l).mmOf t = s.mmOf t) ?_ ?_ ?_
  · intro i hi t ht
    rw [← (e.step i hi).2]
    exact h t ht i hi
  · intro s hs
    rw [hs.fields]
    exact ⟨rfl, hs.live, fun t ht => ht, fun a ha => by cases ha⟩
  · rintro s l s' hkeep hs ⟨hcan, rfl⟩
    cases l with
    | walk rss => exact hs.walk reload rss hcan
    | change mmOf heap =>
      refine ⟨hs.faulted, hcan, hs.suffix, fun a ha t rest ht => ?_⟩
      have hmem : t ∈ s.rest := by
        have hr : s.rest = t :: rest := ht
        rw [hr]
        exact List.mem_cons_self
      exact (hkeep t (hs.suffix t hmem)).trans (hs.held a ha t rest ht)

section Exit

variable (task : ℕ) (before after : List ℕ)

/- Only `task` has an address space. -/
def soleMm (t : ℕ) : Option ℕ := if t = task then some 0 else none

/- The walk up to `task`, which exits right after its test. -/
def exitState (i : ℕ) : WalkState :=
  if i ≤ before.length then
    ⟨soleMm task, fun _ => some ⟨0, 0⟩, before.drop i ++ task :: after, .test, ⟨0, 0⟩, false⟩
  else if i = before.length + 1 then
    ⟨soleMm task, fun _ => some ⟨0, 0⟩, task :: after, .rss 0, ⟨0, 0⟩, false⟩
  else ⟨fun _ => none, fun _ => none, task :: after, .rss 0, ⟨0, 0⟩, decide (i = before.length + 3)⟩

def exitLabel (i : ℕ) : WalkStep :=
  if i = before.length + 1 then .change (fun _ => none) (fun _ => none) else .walk 0

variable {task before after}

theorem exitState_upTo {i : ℕ} (h : i ≤ before.length) : exitState task before after i =
    ⟨soleMm task, fun _ => some ⟨0, 0⟩, before.drop i ++ task :: after, .test, ⟨0, 0⟩, false⟩ := if_pos h

theorem exitState_tested : exitState task before after (before.length + 1) =
    ⟨soleMm task, fun _ => some ⟨0, 0⟩, task :: after, .rss 0, ⟨0, 0⟩, false⟩ := by
  rw [exitState, if_neg (by omega), if_pos rfl]

theorem exitState_gone {i : ℕ} (h : before.length + 1 < i) : exitState task before after i =
    ⟨fun _ => none, fun _ => none, task :: after, .rss 0, ⟨0, 0⟩, decide (i = before.length + 3)⟩ := by
  rw [exitState, if_neg (by omega), if_neg (by omega)]

theorem exit_step (reload : Bool) (hnew : task ∉ before) (i : ℕ) (hi : i < before.length + 3) :
    Guarded canWalk (walkNext reload) (exitState task before after i) (exitLabel before i)
      (exitState task before after (i + 1)) := by
  have hcases : i < before.length ∨ i = before.length ∨ i = before.length + 1 ∨ i = before.length + 2 := by
    omega
  rcases hcases with hlt | rfl | rfl | rfl
  · -- a process before `task`, which has no address space
    have hne : before[i] ≠ task := fun h => hnew (h ▸ List.getElem_mem hlt)
    have hnone : soleMm task before[i] = none := if_neg hne
    rw [exitLabel, if_neg (by omega), exitState_upTo hlt.le, exitState_upTo hlt,
      List.drop_eq_getElem_cons hlt, List.cons_append]
    refine ⟨⟨rfl, by simp⟩, ?_⟩
    simp only [walkNext, WalkState.walk, hnone]
  · have hsome : soleMm task task = some 0 := if_pos rfl
    rw [exitLabel, if_neg (by omega), exitState_upTo le_rfl, exitState_tested, List.drop_length,
      List.nil_append]
    refine ⟨⟨rfl, by simp⟩, ?_⟩
    simp only [walkNext, WalkState.walk, hsome]
  · rw [exitLabel, if_pos rfl, exitState_tested, exitState_gone (by omega), decide_eq_false (by omega)]
    exact ⟨fun t a h => by simp at h, rfl⟩
  · have hderef : ∀ s : WalkState, s.mmOf = (fun _ => none) → s.heap = (fun _ => none) →
        ∀ t a, s.deref reload t a = none := by
      intro s hm hh t a
      cases reload with
      | true => simp [WalkState.deref, hm]
      | false => simp [WalkState.deref, hh]
    rw [exitLabel, if_neg (by omega), exitState_gone (by omega), exitState_gone (by omega),
      decide_eq_false (by omega), decide_eq_true rfl]
    refine ⟨⟨rfl, by simp⟩, ?_⟩
    simp only [walkNext, WalkState.walk]
    rw [hderef _ rfl rfl]

theorem exit_starts : (exitState task before after 0).Starts (before ++ task :: after) := by
  rw [exitState_upTo (Nat.zero_le _)]
  exact ⟨rfl, fun t a _ => rfl⟩

/- The process exits between its test and the read of its resident set. -/
def exitDuringWalk (reload : Bool) (after : List ℕ) (hnew : task ∉ before) :
    WalkExecution reload (before ++ task :: after) where
  length := before.length + 3
  state := exitState task before after
  label := exitLabel before
  init := exit_starts
  step := exit_step reload hnew

theorem exit_others_keep (reload : Bool) (hnew : task ∉ before) {t : ℕ} (ht : t ≠ task) :
    Keeps (exitDuringWalk reload after hnew) t := by
  have hnone : ∀ i, (exitState task before after i).mmOf t = none := by
    intro i
    unfold exitState
    split
    · exact if_neg ht
    · split
      · exact if_neg ht
      · rfl
  intro i _
  exact (hnone (i + 1)).trans (hnone i).symm

end Exit

/- However `task->mm` is loaded, the walk touches no missing or freed address
space in all executions in which the processes of `staying` keep theirs, exactly
when it visits no other processes. -/
theorem resumen_total_walk_safe_iff (reload : Bool) (tasks : List ℕ) (staying : Set ℕ) :
    (∀ e : WalkExecution reload tasks, (∀ t ∈ staying, Keeps e t) →
      (e.state e.length).faulted = false) ↔ ∀ t ∈ tasks, t ∈ staying := by
  constructor
  · intro h t ht
    by_contra hout
    obtain ⟨before, after, rfl, hnew⟩ := List.eq_append_cons_of_mem ht
    have hfault := h (exitDuringWalk reload after hnew) fun x hx =>
      exit_others_keep reload hnew fun hxt => hout (hxt ▸ hx)
    change (exitState t before after (before.length + 3)).faulted = false at hfault
    rw [exitState_gone (by omega)] at hfault
    exact absurd hfault (by simp)
  · intro h e hkeep
    exact (not_faulted e (fun t ht => hkeep t (h t ht)) e.length le_rfl).faulted

/-! ### What the figures say of a changing system -/

section Bounds

variable (lo hi : Column → ℕ → ℕ) (owned : ℕ → Set ℕ) (tasks : List ℕ)

/- `owned` are the address spaces a process has during the walk. Their page counts
lie within the bounds; a process that can be without one has lower bound 0. -/
structure Bounded (s : WalkState) : Prop where
  absent : ∀ c, ∀ t ∈ tasks, s.mmOf t = none → lo c t = 0
  owns : ∀ t ∈ tasks, ∀ a, s.mmOf t = some a → a ∈ owned t
  sizes : ∀ c, ∀ t ∈ tasks, ∀ a ∈ owned t, ∀ m, s.heap a = some m →
    lo c t ≤ (c.pages m).toNat ∧ (c.pages m).toNat ≤ hi c t

/- The figures so far lie within the bounds of the processes behind the walker,
and so does a resident set it has read and not yet added. -/
structure Within (s : WalkState) (visited : List ℕ) : Prop where
  split : tasks = visited ++ s.rest
  figures : ∀ c, (visited.map fun t => lo c t / 256).sum ≤ (c.figure s.sysSummary).toNat ∧
    (c.figure s.sysSummary).toNat ≤ (visited.map fun t => hi c t / 256).sum
  pointer : ∀ a, s.pc.pointer = some a → ∀ t rest, s.rest = t :: rest → a ∈ owned t
  read : ∀ a reserved, s.pc = .totalVm a reserved → ∀ t rest, s.rest = t :: rest →
    lo .reserved t ≤ reserved.toNat ∧ reserved.toNat ≤ hi .reserved t

/-- `get_mm_rss` gives the resident set of the instant at which it is called. -/
def ReadsAtOnce (reload : Bool) (s : WalkState) (l : WalkStep) : Prop :=
  ∀ rss task rest mm m, l = .walk rss → s.rest = task :: rest → s.pc = .rss mm →
    s.deref reload task mm = some m → rss = getMmRss m

variable {lo hi owned tasks}

theorem Bounded.deref {s : WalkState} (h : Bounded lo hi owned tasks s) {reload : Bool} {t a : ℕ}
    {m : MmStruct} (ht : t ∈ tasks) (ha : a ∈ owned t) (hm : s.deref reload t a = some m) (c : Column) :
    lo c t ≤ (c.pages m).toNat ∧ (c.pages m).toNat ≤ hi c t := by
  unfold WalkState.deref at hm
  cases reload with
  | true =>
    obtain ⟨b, hb, hbm⟩ := Option.bind_eq_some_iff.mp hm
    exact h.sizes c t ht b (h.owns t ht b hb) m hbm
  | false => exact h.sizes c t ht a ha m hm

variable (hsum : ∀ c, (tasks.map (hi c)).sum < 2 ^ 52)

include hsum

theorem add_within {visited rest : List ℕ} {t : ℕ} (hsplit : tasks = visited ++ t :: rest) (c : Column)
    {figure pages : SizeT}
    (hf : (visited.map fun t => lo c t / 256).sum ≤ figure.toNat ∧
      figure.toNat ≤ (visited.map fun t => hi c t / 256).sum)
    (hp : lo c t ≤ pages.toNat ∧ pages.toNat ≤ hi c t) :
    ((visited ++ [t]).map fun t => lo c t / 256).sum ≤ (figure + pagesToMb pages).toNat ∧
    (figure + pagesToMb pages).toNat ≤ ((visited ++ [t]).map fun t => hi c t / 256).sum := by
  have htotal := hsum c
  have hdiv := sum_div_le (hi c) 256 visited
  rw [hsplit, List.map_append, List.map_cons, List.sum_append, List.sum_cons] at htotal
  have hmb := pagesToMb_toNat pages (by omega)
  have hlo : lo c t / 256 ≤ pages.toNat / 256 := Nat.div_le_div_right hp.1
  have hhi : pages.toNat / 256 ≤ hi c t / 256 := Nat.div_le_div_right hp.2
  simp only [List.map_append, List.map_cons, List.map_nil, List.sum_append, List.sum_cons, List.sum_nil]
  rw [BitVec.toNat_add, hmb, Nat.mod_eq_of_lt (by omega)]
  omega

theorem Within.walk {s : WalkState} {visited : List ℕ} (h : Within lo hi owned tasks s visited)
    (hb : Bounded lo hi owned tasks s) {reload : Bool} {rss : SizeT}
    (hread : ReadsAtOnce reload s (.walk rss)) (hw : canWalk s (.walk rss)) :
    ∃ visited', Within lo hi owned tasks (s.walk reload rss) visited' := by
  obtain ⟨task, rest, hrest, hstep⟩ := walked reload rss hw
  have hsplit : tasks = visited ++ task :: rest := by rw [h.split, hrest]
  have hmem : task ∈ tasks := by
    rw [hsplit]
    exact List.mem_append_right _ List.mem_cons_self
  have hnext : tasks = (visited ++ [task]) ++ rest := by
    rw [hsplit, List.append_assoc, List.singleton_append]
  generalize s.walk reload rss = s' at hstep ⊢
  cases hstep with
  | skip hpc hm =>
    refine ⟨visited ++ [task], hnext, fun c => ?_, fun a ha => ?_, fun a r hr => ?_⟩
    · have hzero := hb.absent c task hmem hm
      have hf := h.figures c
      simp only [List.map_append, List.map_cons, List.map_nil, List.sum_append, List.sum_cons,
        List.sum_nil, hzero]
      omega
    · rw [hpc] at ha
      cases ha
    · rw [hpc] at hr
      cases hr
  | enter a hpc hm =>
    refine ⟨visited, h.split, h.figures, fun b hab t rest' ht => ?_, fun b r hr => by cases hr⟩
    obtain rfl := head_eq hrest ht
    cases hab
    exact hb.owns t hmem a hm
  | readRss a m hpc hm =>
    have ha := h.pointer a (by rw [hpc]; rfl) task rest hrest
    refine ⟨visited, h.split, h.figures, fun b hab t rest' ht => ?_, fun b r hr t rest' ht => ?_⟩
    · obtain rfl := head_eq hrest ht
      cases hab
      exact ha
    · obtain rfl := head_eq hrest ht
      cases hr
      rw [hread rss t rest a m rfl hrest hpc hm]
      exact hb.deref hmem ha hm .reserved
  | add a reserved m hpc hm =>
    have ha := h.pointer a (by rw [hpc]; rfl) task rest hrest
    refine ⟨visited ++ [task], hnext, fun c => ?_, fun b hab => (by cases hab), fun b r hr => by cases hr⟩
    cases c with
    | reserved =>
      exact add_within hsum hsplit .reserved (h.figures .reserved) (h.read a reserved hpc task rest hrest)
    | committed =>
      exact add_within hsum hsplit .committed (h.figures .committed) (hb.deref hmem ha hm .committed)
  | fault a hpc hm => exact ⟨visited, h.split, h.figures, h.pointer, h.read⟩

theorem within_at {reload : Bool} (e : WalkExecution reload tasks)
    (hread : ∀ i < e.length, ReadsAtOnce reload (e.state i) (e.label i))
    (hb : ∀ i < e.length, Bounded lo hi owned tasks (e.state i)) :
    ∀ i ≤ e.length, ∃ visited, Within lo hi owned tasks (e.state i) visited := by
  refine e.invariant (fun s => ∃ visited, Within lo hi owned tasks s visited)
    (fun s l => ReadsAtOnce reload s l ∧ Bounded lo hi owned tasks s)
    (fun i hi => ⟨hread i hi, hb i hi⟩) ?_ ?_
  · intro s hs
    rw [hs.fields]
    refine ⟨[], rfl, fun c => ?_, fun a ha => (by cases ha), fun a r hr => by cases hr⟩
    cases c with
    | reserved => exact ⟨le_rfl, le_rfl⟩
    | committed => exact ⟨le_rfl, le_rfl⟩
  · rintro s l s' hbs ⟨visited, hs⟩ ⟨hcan, rfl⟩
    cases l with
    | walk rss => exact hs.walk hsum hbs.2 hbs.1 hcan
    | change mmOf heap => exact ⟨visited, hs.split, hs.figures, hs.pointer, hs.read⟩

end Bounds

/-! ### A walk nothing disturbs -/

/- The process as the sequential model sees it. -/
def taskOf (mmOf : ℕ → Option ℕ) (heap : ℕ → Option MmStruct) (t : ℕ) : TaskStruct :=
  ⟨(mmOf t).bind heap⟩

/- What the walk has still to add, while `task->mm` and the counters stand still. -/
structure Undisturbed (mmOf : ℕ → Option ℕ) (heap : ℕ → Option MmStruct) (tasks : List ℕ)
    (s : WalkState) : Prop where
  mmOf_eq : s.mmOf = mmOf
  heap_eq : s.heap = heap
  total : (s.rest.map (taskOf mmOf heap)).foldl addProcess s.sysSummary =
    MemoryReport.sysSummary (tasks.map (taskOf mmOf heap))
  pointer : ∀ a, s.pc.pointer = some a → ∀ t rest, s.rest = t :: rest → mmOf t = some a
  read : ∀ a reserved, s.pc = .totalVm a reserved → ∀ m, heap a = some m → reserved = getMmRss m

namespace Undisturbed

variable {mmOf : ℕ → Option ℕ} {heap : ℕ → Option MmStruct} {tasks : List ℕ} {s : WalkState}

theorem deref (h : Undisturbed mmOf heap tasks s) {reload : Bool} {task a : ℕ} {m : MmStruct}
    (ha : mmOf task = some a) (hm : s.deref reload task a = some m) : heap a = some m := by
  unfold WalkState.deref at hm
  rw [h.mmOf_eq, h.heap_eq, ha] at hm
  cases reload with
  | true => exact hm
  | false => exact hm

theorem walk (h : Undisturbed mmOf heap tasks s) {reload : Bool} {rss : SizeT}
    (hread : ReadsAtOnce reload s (.walk rss)) (hw : canWalk s (.walk rss)) :
    Undisturbed mmOf heap tasks (s.walk reload rss) := by
  obtain ⟨task, rest, hrest, hstep⟩ := walked reload rss hw
  have htotal := h.total
  rw [hrest, List.map_cons, List.foldl_cons] at htotal
  generalize s.walk reload rss = s' at hstep ⊢
  cases hstep with
  | skip hpc hm =>
    have htask : taskOf mmOf heap task = ⟨none⟩ := by rw [taskOf, ← h.mmOf_eq, hm]; rfl
    rw [htask] at htotal
    refine ⟨h.mmOf_eq, h.heap_eq, htotal, fun a ha => ?_, h.read⟩
    rw [hpc] at ha
    cases ha
  | enter a hpc hm =>
    refine ⟨h.mmOf_eq, h.heap_eq, h.total, fun b hab t rest' ht => ?_, fun b r hr => by cases hr⟩
    obtain rfl := head_eq hrest ht
    cases hab
    rw [← h.mmOf_eq]
    exact hm
  | readRss a m hpc hm =>
    have ha := h.pointer a (by rw [hpc]; rfl) task rest hrest
    have hheap := h.deref ha hm
    refine ⟨h.mmOf_eq, h.heap_eq, h.total, fun b hab t rest' ht => ?_, fun b r hr m' hm' => ?_⟩
    · obtain rfl := head_eq hrest ht
      cases hab
      exact ha
    · cases hr
      rw [hheap] at hm'
      cases hm'
      exact hread rss task rest a m rfl hrest hpc hm
  | add a reserved m hpc hm =>
    have ha := h.pointer a (by rw [hpc]; rfl) task rest hrest
    have hheap := h.deref ha hm
    have htask : taskOf mmOf heap task = ⟨some m⟩ := by rw [taskOf, ha, Option.bind_some, hheap]
    rw [htask] at htotal
    refine ⟨h.mmOf_eq, h.heap_eq, ?_, fun b hab => (by cases hab), fun b r hr => by cases hr⟩
    rw [h.read a reserved hpc m hheap]
    exact htotal
  | fault a hpc hm => exact ⟨h.mmOf_eq, h.heap_eq, h.total, h.pointer, h.read⟩

theorem run {reload : Bool} (e : WalkExecution reload tasks)
    (hread : ∀ i < e.length, ReadsAtOnce reload (e.state i) (e.label i))
    (h : ∀ i ≤ e.length, (e.state i).mmOf = (e.state 0).mmOf ∧ (e.state i).heap = (e.state 0).heap) :
    ∀ i ≤ e.length, Undisturbed (e.state 0).mmOf (e.state 0).heap tasks (e.state i) := by
  have hinv := e.invariant (fun s => s.mmOf = (e.state 0).mmOf ∧ s.heap = (e.state 0).heap →
      Undisturbed (e.state 0).mmOf (e.state 0).heap tasks s)
    (fun s l => ReadsAtOnce reload s l ∧ s.mmOf = (e.state 0).mmOf ∧ s.heap = (e.state 0).heap)
    (fun i hi => ⟨hread i hi, h i hi.le⟩) ?_ ?_
  · exact fun i hi => hinv i hi (h i hi)
  · intro s hs hsame
    rw [hs.fields]
    exact ⟨hsame.1, hsame.2, rfl, fun a ha => (by cases ha), fun a r hr => by cases hr⟩
  · rintro s l s' hok hs ⟨hcan, rfl⟩ hsame
    cases l with
    | walk rss => exact (hs hok.2).walk hok.1 hcan
    | change mmOf heap =>
      have hu := hs hok.2
      exact ⟨hsame.1, hsame.2, hu.total, hu.pointer, hu.read⟩

end Undisturbed

def growingMmOf (exited : Bool) (t : ℕ) : Option ℕ :=
  if t = 2 then some 20 else if t = 1 ∧ exited = false then some 10 else none

def growingHeap (exited : Bool) (a : ℕ) : Option MmStruct :=
  if a = 20 then some (if exited then ⟨1024, 768⟩ else ⟨512, 256⟩)
  else if a = 10 ∧ exited = false then some ⟨512, 256⟩ else none

theorem growing_live (exited : Bool) : Live (growingMmOf exited) (growingHeap exited) := by
  intro t a h
  unfold growingMmOf at h
  split at h
  · cases h
    rfl
  · split at h
    next hc =>
      cases h
      rw [hc.2]
      rfl
    · cases h

/- Process 1 exits and process 2 grows while the walk stands on process 2. -/
def growingSteps : List WalkStep :=
  [.walk 0, .walk 256, .walk 0, .walk 0, .change (growingMmOf true) (growingHeap true), .walk 768, .walk 0]

def growingStart : WalkState := ⟨growingMmOf false, growingHeap false, [1, 2], .test, ⟨0, 0⟩, false⟩

theorem growing_starts : growingStart.Starts [1, 2] := ⟨rfl, growing_live false⟩

theorem growing_canWalk : ∀ i < growingSteps.length,
    canWalk ((growingSteps.take i).foldl (walkNext false) growingStart) (growingSteps.getD i (.walk 0)) := by
  intro i hi
  change i < 7 at hi
  interval_cases i
  case «4» => exact growing_live true
  all_goals exact ⟨rfl, List.cons_ne_nil _ _⟩

def growingWalk : WalkExecution false [1, 2] :=
  .ofLabels canWalk (walkNext false) growingStart growing_starts (.walk 0) growingSteps growing_canWalk

theorem growing_reads : ∀ i < growingWalk.length,
    ReadsAtOnce false (growingWalk.state i) (growingWalk.label i) := by
  intro i hi
  change i < 7 at hi
  interval_cases i
  -- the walker calls `get_mm_rss` in steps 1 and 5
  all_goals intro rss task rest mm m hl hrest hpc hm
  case «1» =>
    cases hl
    cases hpc
    cases hm
    rfl
  case «5» =>
    cases hl
    cases hpc
    cases hm
    rfl
  case «4» => cases hl
  all_goals cases hpc

def growingLeast : Column → ℕ → ℕ
  | .reserved, t => if t = 2 then 256 else 0
  | .committed, t => if t = 2 then 512 else 0

def growingMost : Column → ℕ → ℕ
  | .reserved, t => if t = 2 then 768 else 256
  | .committed, t => if t = 2 then 1024 else 512

theorem growing_bounded (exited : Bool) {s : WalkState} (hm : s.mmOf = growingMmOf exited)
    (hh : s.heap = growingHeap exited) :
    Bounded growingLeast growingMost (fun t => {10 * t}) [1, 2] s := by
  have htasks : ∀ t ∈ [1, 2], t = 1 ∨ t = 2 := by decide
  refine ⟨fun c t ht hnone => ?_, fun t ht a ha => ?_, fun c t ht a ha m hsize => ?_⟩
  · rcases htasks t ht with rfl | rfl
    · cases c <;> rfl
    · rw [hm] at hnone
      cases hnone
  · rw [hm] at ha
    rcases htasks t ht with rfl | rfl
    · cases exited <;> cases ha
      rfl
    · cases ha
      rfl
  · obtain rfl : a = 10 * t := ha
    rw [hh] at hsize
    rcases htasks t ht with rfl | rfl
    · cases exited <;> cases hsize
      cases c <;> decide
    · cases exited <;> cases hsize <;> cases c <;> decide

end UsacLinux.MemoryReport
