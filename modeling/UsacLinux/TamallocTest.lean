import UsacLinux.Tamalloc
import Mathlib.Order.Nat

/-!
# test_syscall4.c against luis_tamalloc

The program asks for a number of megabytes, has `mincore` say which of the pages
are in memory, then reads every byte, expects 0 and writes a letter over it, and
asks `mincore` again. What it is answered is left open: the number entered,
`malloc`, `mincore`, `rand`, what the new memory holds and whether the kernel has a
page for it. The memory is followed for the program's own accesses, not for what
the library keeps in buffers of its own.
-/

namespace UsacLinux.Tamalloc
open Kernel Lib.ByteMemory

/- For one call of `check_page_faults`: whether `malloc` returns a vector, and what
`mincore` stores in it, `none` when it returns -1. -/
structure Probe where
  malloc : Bool
  mincore : Option (ℕ → Byte)

/- `scanf` is `none` when no number is entered, `mem` is the memory of the process
when the loop begins. `page i` says that the kernel has a page for byte `i` when it
is touched; where it has none the process is killed. -/
structure TestEnv where
  scanf : Option SizeT
  kernel : VmMmap
  first : Probe
  second : Probe
  mem : Memory
  page : ℕ → Bool
  rand : ℕ → ℕ

/- Lines 31-37; the count is an `int`. -/
def pageFaultCount (vec : ℕ → Byte) (pages : ℕ) : PidT :=
  (List.range pages).foldl (fun count i => if vec i = 0 then count + 1 else count) 0

/- The count printed, `none` where the function exits with 1. -/
def checkPageFaults (probe : Probe) (size : SizeT) : Option PidT :=
  if probe.malloc then probe.mincore.map fun vec => pageFaultCount vec (size.toNat / 4096) else none

def covered (space : AddressSpace) (addr : ℕ) : Bool :=
  space.any fun r => decide (r.start ≤ addr ∧ addr < r.start + r.len)

def randomLetter (rand : ℕ) : Byte := BitVec.ofNat 8 (65 + rand % 26)

inductive LoopEnd where
  | finished
  | notZero (i : ℕ)
  | killed
  | segfault (addr : ℕ)
  deriving DecidableEq, Repr

/- The loop over the buffer, lines 77-98: `remaining` iterations from `i` on. -/
def verifyBytes (env : TestEnv) (space : AddressSpace) (buffer : ℕ) : ℕ → ℕ → Memory → LoopEnd × Memory
  | 0, _, mem => (.finished, mem)
  | remaining + 1, i, mem =>
    if !covered space (buffer + i) then (.segfault (buffer + i), mem)
    else if !env.page i then (.killed, mem)
    else if mem (buffer + i) ≠ 0 then (.notZero i, mem)
    else verifyBytes env space buffer remaining (i + 1)
      (Function.update mem (buffer + i) (randomLetter (env.rand i)))

inductive TestEnd where
  | exited (status : ℤ)
  | killed
  | segfault (addr : ℕ)
  deriving DecidableEq, Repr

/- How the program ends, the counts and the byte number of the fatal error it has
printed, and the memory it leaves. -/
structure TestRun where
  ending : TestEnd
  counts : List PidT
  badByte : Option ℕ
  mem : Memory

def testSyscall4 (env : TestEnv) (space : AddressSpace) : TestRun :=
  match env.scanf with
  | none => ⟨.exited 1, [], none, env.mem⟩
  | some megabytes =>
    let totalSize := megabytes * (1024 * 1024)
    let buffer := luisTamalloc env.kernel space totalSize
    -- the library's `syscall` turns an error number into -1
    if buffer.1 < 0 then ⟨.exited 1, [], none, env.mem⟩
    else match checkPageFaults env.first totalSize with
      | none => ⟨.exited 1, [], none, env.mem⟩
      | some n => match verifyBytes env buffer.2 buffer.1.toNat totalSize.toNat 0 env.mem with
        | (.segfault addr, mem) => ⟨.segfault addr, [n], none, mem⟩
        | (.killed, mem) => ⟨.killed, [n], none, mem⟩
        | (.notZero i, mem) => ⟨.exited 10, [n], some i, mem⟩
        | (.finished, mem) => match checkPageFaults env.second totalSize with
          | none => ⟨.exited 1, [n], none, mem⟩
          | some m => ⟨.exited 0, [n, m], none, mem⟩

/-! ### The counts -/

/- Pages that `mincore` reports as not in memory. -/
def missing (vec : ℕ → Byte) (pages : ℕ) : ℕ := (List.range pages).countP fun i => decide (vec i = 0)

theorem foldl_count (vec : ℕ → Byte) (l : List ℕ) (start : PidT) :
    l.foldl (fun count i => if vec i = 0 then count + 1 else count) start =
      start + BitVec.ofNat 32 (l.countP fun i => decide (vec i = 0)) := by
  induction l generalizing start with
  | nil => exact (BitVec.add_zero start).symm
  | cons i l ih =>
    rw [List.foldl_cons, ih, List.countP_cons]
    by_cases hv : vec i = 0
    · rw [if_pos hv, if_pos (decide_eq_true hv), BitVec.add_assoc, Nat.add_comm, BitVec.ofNat_add]
      rfl
    · rw [if_neg hv, if_neg (by simpa using hv), Nat.add_zero]

theorem checkPageFaults_some {probe : Probe} {size : SizeT} {n : PidT}
    (h : checkPageFaults probe size = some n) :
    ∃ vec, probe.mincore = some vec ∧ n = BitVec.ofNat 32 (missing vec (size.toNat / 4096)) := by
  unfold checkPageFaults at h
  split at h
  · obtain ⟨vec, hv, rfl⟩ := Option.map_eq_some_iff.mp h
    exact ⟨vec, hv, (foldl_count vec _ 0).trans (BitVec.zero_add _)⟩
  · cases h

/-! ### The loop -/

section Loop

variable (env : TestEnv) (space : AddressSpace) (buffer : ℕ)

/- The kernel has a page for the byte and the byte is 0. -/
def Fresh (i : ℕ) : Prop := env.page i = true ∧ env.mem (buffer + i) = 0

instance (i : ℕ) : Decidable (Fresh env buffer i) := inferInstanceAs (Decidable (_ ∧ _))

/- The memory when the first `k` bytes have been written. -/
def lettered (k : ℕ) : Memory := fun addr =>
  if buffer ≤ addr ∧ addr < buffer + k then randomLetter (env.rand (addr - buffer)) else env.mem addr

theorem lettered_zero : lettered env buffer 0 = env.mem := by
  funext addr
  exact if_neg (by omega)

theorem lettered_inside {k i : ℕ} (hi : i < k) :
    lettered env buffer k (buffer + i) = randomLetter (env.rand i) := by
  rw [lettered, if_pos (by omega), Nat.add_sub_cancel_left]

theorem lettered_ahead (k : ℕ) : lettered env buffer k (buffer + k) = env.mem (buffer + k) :=
  if_neg (by omega)

theorem update_lettered (k : ℕ) :
    Function.update (lettered env buffer k) (buffer + k) (randomLetter (env.rand k)) =
      lettered env buffer (k + 1) := by
  funext addr
  by_cases ha : addr = buffer + k
  · rw [ha, Function.update_self, lettered_inside env buffer (Nat.lt_succ_self k)]
  · rw [Function.update_of_ne ha]
    unfold lettered
    by_cases hin : buffer ≤ addr ∧ addr < buffer + k
    · rw [if_pos hin, if_pos (by omega)]
    · rw [if_neg hin, if_neg (by omega)]

variable {env space buffer} {size : ℕ} (hcovered : ∀ j < size, covered space (buffer + j) = true)

include hcovered

/- One iteration. A byte is read before it is written, so the loop goes on exactly
at fresh bytes. -/
theorem verifyBytes_step {k remaining : ℕ} (hk : k < size) :
    verifyBytes env space buffer (remaining + 1) k (lettered env buffer k) =
      if Fresh env buffer k then verifyBytes env space buffer remaining (k + 1) (lettered env buffer (k + 1))
      else (if env.page k then .notZero k else .killed, lettered env buffer k) := by
  rw [verifyBytes, hcovered k hk, lettered_ahead, update_lettered]
  by_cases hp : env.page k = true
  · by_cases hz : env.mem (buffer + k) = 0 <;> simp [Fresh, hp, hz]
  · simp [Fresh, hp]

theorem verifyBytes_fresh {k : ℕ} (hk : k ≤ size) (hfresh : ∀ j < k, Fresh env buffer j) :
    verifyBytes env space buffer size 0 env.mem =
      verifyBytes env space buffer (size - k) k (lettered env buffer k) := by
  induction k with
  | zero => rw [lettered_zero, Nat.sub_zero]
  | succ k ih =>
    rw [ih (by omega) fun j hj => hfresh j (by omega), show size - k = size - (k + 1) + 1 by omega,
      verifyBytes_step hcovered hk, if_pos (hfresh k (Nat.lt_succ_self k))]

theorem verifyBytes_finished (hfresh : ∀ j < size, Fresh env buffer j) :
    verifyBytes env space buffer size 0 env.mem = (.finished, lettered env buffer size) := by
  rw [verifyBytes_fresh hcovered le_rfl hfresh, Nat.sub_self, verifyBytes]

theorem verifyBytes_stops {k : ℕ} (hk : k < size) (hstop : ¬Fresh env buffer k)
    (hfresh : ∀ j < k, Fresh env buffer j) :
    verifyBytes env space buffer size 0 env.mem =
      (if env.page k then .notZero k else .killed, lettered env buffer k) := by
  rw [verifyBytes_fresh hcovered hk.le hfresh, show size - k = size - (k + 1) + 1 by omega,
    verifyBytes_step hcovered hk, if_neg hstop]

end Loop

/-! ### The run of the program -/

/- Whole megabytes need no rounding. -/
theorem pageAlign_megabytes (megabytes : SizeT) :
    pageAlign (megabytes * (1024 * 1024)) = megabytes * (1024 * 1024) := by
  have hmb : (1024 * 1024 : SizeT).toNat = 1048576 := by decide
  apply BitVec.eq_of_toNat_eq
  rw [pageAlign_toNat, BitVec.toNat_mul, hmb]
  omega

/- The bytes main touches are those of the mapping. -/
theorem covered_megabytes (kernel : VmMmap) (space : AddressSpace) (megabytes : SizeT)
    (h : 0 ≤ (luisTamalloc kernel space (megabytes * (1024 * 1024))).1) :
    ∀ j < (megabytes * (1024 * 1024)).toNat,
      covered (luisTamalloc kernel space (megabytes * (1024 * 1024))).2
        ((luisTamalloc kernel space (megabytes * (1024 * 1024))).1.toNat + j) = true := by
  intro j hj
  rcases luisTamalloc_cases kernel space (megabytes * (1024 * 1024)) with ⟨⟨-, hneg⟩, -⟩ | ⟨-, -, a, hm⟩
  · omega
  · rw [hm, pageAlign_megabytes]
    simp only [covered, List.any_cons, Bool.or_eq_true, decide_eq_true_eq, Int.toNat_natCast]
    exact Or.inl ⟨by omega, by omega⟩

/- The first byte of the mapping at which the loop stops. -/
def StopsAt (env : TestEnv) (size : SizeT) (buffer i : ℕ) : Prop :=
  IsLeast {j | j < size.toNat ∧ ¬Fresh env buffer j} i

theorem StopsAt.fresh {env : TestEnv} {size : SizeT} {buffer i j : ℕ} (h : StopsAt env size buffer i)
    (hj : j < i) : Fresh env buffer j := by
  by_contra hc
  exact absurd (h.2 ⟨hj.trans h.1.1, hc⟩) (not_le.mpr hj)

theorem stops_or_fresh (env : TestEnv) (size : SizeT) (buffer : ℕ) :
    (∃ i, StopsAt env size buffer i) ∨ ∀ i < size.toNat, Fresh env buffer i := by
  by_cases h : ∃ i, i < size.toNat ∧ ¬Fresh env buffer i
  · exact Or.inl ⟨Nat.find h, Nat.find_spec h, fun j hj => Nat.find_min' h hj⟩
  · refine Or.inr fun i hi => ?_
    by_contra hc
    exact h ⟨i, hi, hc⟩

/- How a run that was given a number can go. -/
theorem testSyscall4_cases {env : TestEnv} (space : AddressSpace) {megabytes size : SizeT}
    (hs : env.scanf = some megabytes) (hsize : megabytes * (1024 * 1024) = size) :
    let buffer := (luisTamalloc env.kernel space size).1
    let run := testSyscall4 env space
    ((buffer < 0 ∨ checkPageFaults env.first size = none) ∧ run = ⟨.exited 1, [], none, env.mem⟩) ∨
    (0 ≤ buffer ∧ ∃ n, checkPageFaults env.first size = some n ∧
      ((∃ i, StopsAt env size buffer.toNat i ∧
          run = if env.page i then ⟨.exited 10, [n], some i, lettered env buffer.toNat i⟩
            else ⟨.killed, [n], none, lettered env buffer.toNat i⟩) ∨
        ((∀ i < size.toNat, Fresh env buffer.toNat i) ∧
          run = match checkPageFaults env.second size with
            | none => ⟨.exited 1, [n], none, lettered env buffer.toNat size.toNat⟩
            | some m => ⟨.exited 0, [n, m], none, lettered env buffer.toNat size.toNat⟩))) := by
  intro buffer run
  have hrun : run = testSyscall4 env space := rfl
  simp only [testSyscall4, hs, hsize] at hrun
  by_cases hneg : buffer < 0
  · rw [if_pos hneg] at hrun
    exact Or.inl ⟨Or.inl hneg, hrun⟩
  rw [if_neg hneg] at hrun
  cases hfirst : checkPageFaults env.first size with
  | none =>
    rw [hfirst] at hrun
    exact Or.inl ⟨Or.inr rfl, hrun⟩
  | some n =>
    rw [hfirst] at hrun
    refine Or.inr ⟨not_lt.mp hneg, n, rfl, ?_⟩
    have hcovered : ∀ j < size.toNat, covered (luisTamalloc env.kernel space size).2 (buffer.toNat + j) = true := by
      subst hsize
      exact covered_megabytes env.kernel space megabytes (not_lt.mp hneg)
    rcases stops_or_fresh env size buffer.toNat with ⟨i, hi⟩ | hfresh
    · rw [verifyBytes_stops hcovered hi.1.1 hi.1.2 fun j hj => hi.fresh hj] at hrun
      refine Or.inl ⟨i, hi, hrun.trans ?_⟩
      cases env.page i <;> rfl
    · rw [verifyBytes_finished hcovered hfresh] at hrun
      exact Or.inr ⟨hfresh, hrun⟩

/- What a run that was given a number comes to, `reply` being what luis_tamalloc
returned for the `size` bytes. -/
structure TestResult (env : TestEnv) (size : SizeT) (reply : ℤ) (run : TestRun) : Prop where
  ending : run.ending = .exited 0 ∨ run.ending = .exited 1 ∨ run.ending = .exited 10 ∨ run.ending = .killed
  success : run.ending = .exited 0 ↔ 0 ≤ reply ∧ (checkPageFaults env.first size).isSome ∧
    (checkPageFaults env.second size).isSome ∧ ∀ i < size.toNat, Fresh env reply.toNat i
  fatal : run.ending = .exited 10 ↔ 0 ≤ reply ∧ (checkPageFaults env.first size).isSome ∧
    ∃ i, StopsAt env size reply.toNat i ∧ env.page i = true
  killed : run.ending = .killed ↔ 0 ≤ reply ∧ (checkPageFaults env.first size).isSome ∧
    ∃ i, StopsAt env size reply.toNat i ∧ env.page i = false
  badByte : run.ending = .exited 10 → ∃ i, run.badByte = some i ∧ StopsAt env size reply.toNat i
  counts : run.ending = .exited 0 → ∃ v w, env.first.mincore = some v ∧ env.second.mincore = some w ∧
    run.counts = [BitVec.ofNat 32 (missing v (size.toNat / 4096)),
      BitVec.ofNat 32 (missing w (size.toNat / 4096))]
  written : run.ending = .exited 0 → ∀ i < size.toNat, run.mem (reply.toNat + i) = randomLetter (env.rand i)
  frame : ∀ addr, ¬(0 ≤ reply ∧ reply.toNat ≤ addr ∧ addr < reply.toNat + size.toNat) →
    run.mem addr = env.mem addr

section Results

variable {env : TestEnv} {size : SizeT} {reply : ℤ}

theorem lettered_frame (hpos : 0 ≤ reply) {k : ℕ} (hk : k ≤ size.toNat) (addr : ℕ)
    (h : ¬(0 ≤ reply ∧ reply.toNat ≤ addr ∧ addr < reply.toNat + size.toNat)) :
    lettered env reply.toNat k addr = env.mem addr :=
  if_neg (by omega)

theorem testResult_refused (h : reply < 0 ∨ checkPageFaults env.first size = none) :
    TestResult env size reply ⟨.exited 1, [], none, env.mem⟩ := by
  have hnot : ¬(0 ≤ reply ∧ (checkPageFaults env.first size).isSome) := by
    rintro ⟨hpos, hsome⟩
    rcases h with hneg | hnone
    · omega
    · rw [hnone] at hsome
      cases hsome
  exact ⟨by simp, iff_of_false (by simp) fun h => hnot ⟨h.1, h.2.1⟩,
    iff_of_false (by simp) fun h => hnot ⟨h.1, h.2.1⟩, iff_of_false (by simp) fun h => hnot ⟨h.1, h.2.1⟩,
    by simp, by simp, by simp, fun _ _ => rfl⟩

variable (hpos : 0 ≤ reply) {n : PidT} (hn : checkPageFaults env.first size = some n)

include hpos hn

theorem testResult_stopped {i : ℕ} (hi : StopsAt env size reply.toNat i) :
    TestResult env size reply (if env.page i then ⟨.exited 10, [n], some i, lettered env reply.toNat i⟩
      else ⟨.killed, [n], none, lettered env reply.toNat i⟩) := by
  have hsome := Option.isSome_of_eq_some hn
  have hne : ¬∀ j < size.toNat, Fresh env reply.toNat j := fun hall => hi.1.2 (hall i hi.1.1)
  -- the byte is the least one, so what `page` says of it is not said of another
  cases hp : env.page i with
  | true =>
    refine ⟨by simp, iff_of_false (by simp) fun h => hne h.2.2.2, iff_of_true rfl ⟨hpos, hsome, i, hi, hp⟩,
      iff_of_false (by simp) ?_, fun _ => ⟨i, rfl, hi⟩, by simp, by simp, lettered_frame hpos hi.1.1.le⟩
    rintro ⟨-, -, j, hj, hpj⟩
    rw [hj.unique hi, hp] at hpj
    cases hpj
  | false =>
    refine ⟨by simp, iff_of_false (by simp) fun h => hne h.2.2.2, iff_of_false (by simp) ?_,
      iff_of_true rfl ⟨hpos, hsome, i, hi, hp⟩, by simp, by simp, by simp, lettered_frame hpos hi.1.1.le⟩
    rintro ⟨-, -, j, hj, hpj⟩
    rw [hj.unique hi, hp] at hpj
    cases hpj

theorem testResult_finished (hfresh : ∀ i < size.toNat, Fresh env reply.toNat i) :
    TestResult env size reply (match checkPageFaults env.second size with
      | none => ⟨.exited 1, [n], none, lettered env reply.toNat size.toNat⟩
      | some m => ⟨.exited 0, [n, m], none, lettered env reply.toNat size.toNat⟩) := by
  have hstops : ∀ i, ¬StopsAt env size reply.toNat i := fun i hi => hi.1.2 (hfresh i hi.1.1)
  cases hm : checkPageFaults env.second size with
  | none =>
    refine ⟨by simp, iff_of_false (by simp) ?_, iff_of_false (by simp) fun ⟨_, _, i, hi, _⟩ => hstops i hi,
      iff_of_false (by simp) fun ⟨_, _, i, hi, _⟩ => hstops i hi, by simp, by simp, by simp,
      lettered_frame hpos le_rfl⟩
    rw [hm]
    exact fun h => Bool.false_ne_true h.2.2.1
  | some m =>
    obtain ⟨v, hv, rfl⟩ := checkPageFaults_some hn
    obtain ⟨w, hw, rfl⟩ := checkPageFaults_some hm
    exact ⟨by simp,
      iff_of_true rfl ⟨hpos, Option.isSome_of_eq_some hn, Option.isSome_of_eq_some hm, hfresh⟩,
      iff_of_false (by simp) fun ⟨_, _, i, hi, _⟩ => hstops i hi,
      iff_of_false (by simp) fun ⟨_, _, i, hi, _⟩ => hstops i hi, by simp, fun _ => ⟨v, w, hv, hw, rfl⟩,
      fun _ i hi => lettered_inside env reply.toNat hi, lettered_frame hpos le_rfl⟩

end Results

/- Whatever the program is answered, it makes no access outside mapped memory. It
returns 10 exactly when the call and the first check succeed and the loop comes to
a byte that is not 0, and names the first such byte; it returns 0 exactly when both
checks succeed and every byte is there and 0. -/
theorem test_syscall4_outcome (env : TestEnv) (space : AddressSpace) :
    (env.scanf = none → testSyscall4 env space = ⟨.exited 1, [], none, env.mem⟩) ∧
    ∀ megabytes, env.scanf = some megabytes →
      TestResult env (megabytes * (1024 * 1024))
        (luisTamalloc env.kernel space (megabytes * (1024 * 1024))).1 (testSyscall4 env space) := by
  refine ⟨fun hs => by simp only [testSyscall4, hs], fun megabytes hs => ?_⟩
  generalize hsize : megabytes * (1024 * 1024) = size
  rcases testSyscall4_cases space hs hsize with
    ⟨hfail, hr⟩ | ⟨hpos, n, hn, ⟨i, hi, hr⟩ | ⟨hfresh, hr⟩⟩
  · rw [hr]
    exact testResult_refused hfail
  · rw [hr]
    exact testResult_stopped hpos hn hi
  · rw [hr]
    exact testResult_finished hpos hn hfresh

/- 3 MB that read 0, no page in memory before the loop and all of them after it. -/
def threeMegabytes : TestEnv :=
  ⟨some 3, VmMmap.slots, ⟨true, some fun _ => 0⟩, ⟨true, some fun _ => 1⟩, fun _ => 0, fun _ => true, id⟩

theorem test_syscall4_three_megabytes :
    (testSyscall4 threeMegabytes []).ending = .exited 0 ∧ (testSyscall4 threeMegabytes []).counts = [768, 0] ∧
      ∀ i < 3145728, (testSyscall4 threeMegabytes []).mem (2 ^ 40 + i) = randomLetter i := by
  have h := (test_syscall4_outcome threeMegabytes []).2 3 rfl
  have hcall : (luisTamalloc threeMegabytes.kernel [] (3 * (1024 * 1024))).1 = 2 ^ 40 := by decide
  rw [hcall] at h
  have hend := h.success.mpr ⟨by decide, rfl, rfl, fun _ _ => ⟨rfl, rfl⟩⟩
  obtain ⟨v, w, hv, hw, hc⟩ := h.counts hend
  cases hv
  cases hw
  have hall (n : ℕ) : missing (fun _ => 0) n = n := by simp [missing]
  have hnone (n : ℕ) : missing (fun _ => 1) n = 0 := by simp [missing]
  rw [hall, hnone] at hc
  have hbytes : (3 * (1024 * 1024) : SizeT).toNat = 3145728 := by decide
  have hmem := h.written hend
  rw [hbytes, show (2 ^ 40 : ℤ).toNat = 2 ^ 40 by decide] at hmem
  exact ⟨hend, hc.trans (by decide), hmem⟩

end UsacLinux.Tamalloc
