import UsacLinux.MemoryLimit.GetLimits

/-!
# Negative arguments (syscall7.c:31-34, 96-99, 160-164)

The manual and test_syscall7.c want a negative pid, a negative amount of memory
and a maximum that is not positive refused with `-EINVAL`. The three calls test
`<= 0`, which for the `pid_t` is a signed comparison and for the two `size_t`
arguments an unsigned one: of the limits and maxima that are not positive as
signed numbers it finds 0 alone.
-/

namespace UsacLinux.MemoryLimit
open Kernel

/-! ### Which calls answer -EINVAL -/

theorem requestError_einval_iff (env : CallEnv) (p : PidT) (l : SizeT) :
    requestError env p l = some EINVAL ↔ p.toInt ≤ 0 ∨ l = 0 := by
  rcases requestError_cases env p l with ⟨hbad, he⟩ | ⟨hok, he⟩
  · exact ⟨fun _ => hbad, fun _ => he⟩
  · refine ⟨fun hc => ?_, fun hbad => absurd hbad hok⟩
    rw [hc] at he
    exact absurd he (by decide)

theorem addLocked_ne_einval (k : Bool) (p : PidT) (l : SizeT) (list : List MemoryLimitation) :
    (addLocked k p l list).2 ≠ -EINVAL := by
  rcases addLocked_cases k p l list with ⟨-, ha⟩ | ⟨-, -, ha⟩ | ⟨-, -, ha⟩
  · simp [ha, EINVAL]
  · simp [ha, EINVAL, ENOMEM]
  · simp [ha, EINVAL]

theorem updateLocked_ne_einval (p : PidT) (l : SizeT) (list : List MemoryLimitation) :
    (updateLocked p l list).2 ≠ -EINVAL := by
  rcases updateLocked_cases p l list with ⟨-, hu⟩ | ⟨-, list', -, hu⟩
  · simp [hu, EINVAL]
  · simp [hu, EINVAL]

/- Neither critical section answers -EINVAL, so only the first check does. -/
theorem execLimit_einval_iff (list : List MemoryLimitation) (c : LimitCall) :
    (execLimit list c).2.ret = -EINVAL ↔ c.pid.toInt ≤ 0 ∨ c.limit = 0 := by
  obtain ⟨op, env, p, l⟩ := c
  rw [← requestError_einval_iff env p l]
  cases op with
  | add =>
    simp only [execLimit, so2AddMemoryLimit]
    cases hr : requestError env p l with
    | some e => simp
    | none => simpa using addLocked_ne_einval env.kmalloc p l list
  | update =>
    simp only [execLimit, so2UpdateMemoryLimit]
    cases hr : requestError env p l with
    | some e => simp
    | none => simpa using updateLocked_ne_einval p l list

theorem copyOut_ne_einval (env : GetEnv) (args : GetArgs) (b : KernelBuffer) (count : SizeT) :
    (copyOut env args b count).ret ≠ -EINVAL := by
  unfold copyOut
  dsimp only
  split
  · simp [EFAULT, EINVAL]
  · split
    · simp [EINVAL]
    · simp [EFAULT, EINVAL]

theorem get_einval_iff (env : GetEnv) (args : GetArgs) (list : List MemoryLimitation) :
    (so2GetMemoryLimits env args list).ret = -EINVAL ↔
      args.maxEntries = 0 ∨ args.uProcessesBuffer = 0 ∨ args.processesReturned = 0 := by
  rw [← le_zero_iff]
  unfold so2GetMemoryLimits
  by_cases h : args.maxEntries ≤ 0 ∨ args.uProcessesBuffer = 0 ∨ args.processesReturned = 0
  · rw [if_pos h]
    exact ⟨fun _ => h, fun _ => rfl⟩
  · rw [if_neg h]
    refine ⟨fun hc => ?_, fun hc => absurd hc h⟩
    split at hc
    · exact absurd hc (copyOut_ne_einval env args _ _)
    · simp [GetOutcome.failed, ENOMEM, EINVAL] at hc

theorem get_einval_writes {env : GetEnv} {args : GetArgs} {list : List MemoryLimitation}
    (h : (so2GetMemoryLimits env args list).ret = -EINVAL) :
    (so2GetMemoryLimits env args list).writes = [] := by
  rw [get_einval_iff, ← le_zero_iff] at h
  rw [so2GetMemoryLimits, if_pos h]
  rfl

/-! ### Negative limits and maxima -/

/- A call with a non-positive argument answers -EINVAL and has no effect: the
list stays as it is, and nothing is written to user space. -/
def NegativeRejected (list : List MemoryLimitation) : RegistryCall → Prop
  | .limit c => c.pid.toInt ≤ 0 ∨ c.limit.toInt ≤ 0 →
      (execLimit list c).2.ret = -EINVAL ∧ (execLimit list c).1 = list
  | .get env args => args.maxEntries.toInt ≤ 0 →
      (so2GetMemoryLimits env args list).ret = -EINVAL ∧
        (so2GetMemoryLimits env args list).writes = []

/- The sign bit of the `size_t` argument is clear, or another argument is
refused anyway. -/
def SignBitHarmless : RegistryCall → Prop
  | .limit c => c.pid.toInt ≤ 0 ∨ 0 ≤ c.limit.toInt
  | .get _ args => 0 ≤ args.maxEntries.toInt ∨ args.uProcessesBuffer = 0 ∨ args.processesReturned = 0

theorem eq_zero_iff_toInt (l : SizeT) : l = 0 ↔ l.toInt = 0 := by
  rw [← BitVec.toInt_inj]
  rfl

theorem so2_negative_rejected_iff (list : List MemoryLimitation) (c : RegistryCall) :
    NegativeRejected list c ↔ SignBitHarmless c := by
  cases c with
  | limit c =>
    have he := execLimit_einval_iff list c
    rw [eq_zero_iff_toInt] at he
    simp only [NegativeRejected, SignBitHarmless]
    constructor
    · intro h
      by_contra hn
      have hr := he.mp (h (by omega)).1
      omega
    · intro h hneg
      have hr := he.mpr (by omega)
      exact ⟨hr, execLimit_nonzero list c (by rw [hr]; decide)⟩
  | get env args =>
    have he := get_einval_iff env args list
    rw [eq_zero_iff_toInt] at he
    simp only [NegativeRejected, SignBitHarmless]
    constructor
    · intro h
      by_contra hn
      rw [not_or] at hn
      rcases he.mp (h (by omega)).1 with h0 | hp
      · omega
      · exact hn.2 hp
    · intro h hneg
      have hr : (so2GetMemoryLimits env args list).ret = -EINVAL := by
        apply he.mpr
        rcases h with h0 | hp
        · exact Or.inl (by omega)
        · exact Or.inr hp
      exact ⟨hr, get_einval_writes hr⟩

/- Case 4 of test_syscall7.c: a limit of -1024 KB is stored as 2^64 - 1024. -/
theorem so2_negative_limit_accepted :
    execLimit [] ⟨.add, testEnv, 1234, -1024⟩ = ([⟨1234, -1024⟩], ⟨0, none⟩) ∧
      ¬∀ (list : List MemoryLimitation) (c : RegistryCall), NegativeRejected list c := by
  refine ⟨by decide, ?_⟩
  intro h
  have hr := (h [] (.limit ⟨.add, testEnv, 1234, -1024⟩) (Or.inr (by decide))).1
  revert hr
  decide

end UsacLinux.MemoryLimit
