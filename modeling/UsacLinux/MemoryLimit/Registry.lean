import UsacLinux.Kernel
import UsacLinux.Lib.KeyedList
import UsacLinux.Lib.Machine
import Mathlib.Order.Interval.Finset.Nat

/-!
# The memory-limit registry (kernel/usac/project3/syscall7.c)

`memory_limit_list` is the list of limited processes, newest first: `list_add`
links a node right behind the list head. `so2_add_memory_limit` and
`so2_update_memory_limit` make the same checks before they take the lock and
differ in their critical sections. `set_errno` is not part of the tree; the
model keeps the argument of the one call each failing path of the update makes.
-/

namespace UsacLinux.MemoryLimit
open Kernel Lib.KeyedList Lib.Machine

structure MemoryLimitation where
  pid : PidT
  memoryLimit : SizeT
  deriving DecidableEq, Repr

/- What one call sees of the machine: `capable(CAP_SYS_ADMIN)`, the result of
`pid_task(find_vpid(pid), PIDTYPE_PID)` and whether `kmalloc` returns a node. -/
structure CallEnv where
  capable : Bool
  pidTask : PidT → Option TaskStruct
  kmalloc : Bool

structure Reply where
  ret : ℤ
  errno : Option ℤ
  deriving DecidableEq, Repr

/- The checks of lines 31-54 and 160-188. `memory_limit <= 0` compares a
`size_t`, so it holds of 0 alone. -/
def requestError (env : CallEnv) (processPid : PidT) (memoryLimit : SizeT) : Option ℤ :=
  if processPid.toInt ≤ 0 ∨ memoryLimit ≤ 0 then some EINVAL
  else if !env.capable then some EPERM
  else match env.pidTask processPid with
    | none => some ESRCH
    | some task => match task.mm with
      | none => some ESRCH
      | some mm => if memoryLimit < pagesToKb (getMmRss mm) then some 100 else none

/- Lines 59-83, under the lock. -/
def addLocked (kmalloc : Bool) (processPid : PidT) (memoryLimit : SizeT)
    (list : List MemoryLimitation) : List MemoryLimitation × ℤ :=
  if (findKey MemoryLimitation.pid processPid list).isSome then (list, -101)
  else if kmalloc then (⟨processPid, memoryLimit⟩ :: list, 0)
  else (list, -ENOMEM)

/- Lines 193-208, under the lock. -/
def updateLocked (processPid : PidT) (memoryLimit : SizeT)
    (list : List MemoryLimitation) : List MemoryLimitation × ℤ :=
  match assignFirst MemoryLimitation.pid processPid (fun entry => {entry with memoryLimit}) list with
  | some list' => (list', 0)
  | none => (list, -102)

def so2AddMemoryLimit (env : CallEnv) (processPid : PidT) (memoryLimit : SizeT)
    (list : List MemoryLimitation) : List MemoryLimitation × Reply :=
  match requestError env processPid memoryLimit with
  | some e => (list, ⟨-e, none⟩)
  | none =>
    let r := addLocked env.kmalloc processPid memoryLimit list
    (r.1, ⟨r.2, none⟩)

def so2UpdateMemoryLimit (env : CallEnv) (processPid : PidT) (memoryLimit : SizeT)
    (list : List MemoryLimitation) : List MemoryLimitation × Reply :=
  match requestError env processPid memoryLimit with
  | some e => (list, ⟨-e, some e⟩)
  | none =>
    let r := updateLocked processPid memoryLimit list
    (r.1, ⟨r.2, if r.2 = 0 then none else some 102⟩)

inductive LimitOp where
  | add
  | update
  deriving DecidableEq, Repr

structure LimitCall where
  op : LimitOp
  env : CallEnv
  pid : PidT
  limit : SizeT

def execLimit (list : List MemoryLimitation) (c : LimitCall) : List MemoryLimitation × Reply :=
  match c.op with
  | .add => so2AddMemoryLimit c.env c.pid c.limit list
  | .update => so2UpdateMemoryLimit c.env c.pid c.limit list

/-! ### What the checks establish -/

theorem le_zero_iff (l : SizeT) : l ≤ 0 ↔ l = 0 := by
  rw [BitVec.le_def, ← BitVec.toNat_inj]
  show l.toNat ≤ 0 ↔ l.toNat = 0
  omega

theorem requestError_cases (env : CallEnv) (p : PidT) (l : SizeT) :
    ((p.toInt ≤ 0 ∨ l = 0) ∧ requestError env p l = some EINVAL) ∨
    (¬(p.toInt ≤ 0 ∨ l = 0) ∧
      requestError env p l ∈ [some EPERM, some ESRCH, some 100, none]) := by
  rw [← le_zero_iff]
  unfold requestError
  by_cases h : p.toInt ≤ 0 ∨ l ≤ 0
  · exact Or.inl ⟨h, if_pos h⟩
  · refine Or.inr ⟨h, ?_⟩
    rw [if_neg h]
    split
    · simp
    · split
      · simp
      · split
        · simp
        · split
          · simp
          · simp

theorem requestError_none {env : CallEnv} {p : PidT} {l : SizeT} (h : requestError env p l = none) :
    0 < p.toInt ∧ l ≠ 0 := by
  rcases requestError_cases env p l with ⟨-, he⟩ | ⟨hn, -⟩
  · rw [h] at he
    cases he
  · rw [not_or] at hn
    exact ⟨by omega, hn.2⟩

theorem requestError_pos {env : CallEnv} {p : PidT} {l : SizeT} {e : ℤ}
    (h : requestError env p l = some e) : e ∈ [EINVAL, EPERM, ESRCH, 100] := by
  rcases requestError_cases env p l with ⟨-, he⟩ | ⟨-, he⟩
  · rw [h] at he
    cases he
    simp
  · rw [h] at he
    simp only [List.mem_cons, Option.some.injEq, reduceCtorEq, List.not_mem_nil, or_false] at he
    exact List.mem_cons_of_mem _ (by simpa using he)

theorem requestError_neg_ne_zero {env : CallEnv} {p : PidT} {l : SizeT} {e : ℤ}
    (h : requestError env p l = some e) : -e ≠ 0 := by
  have hm := requestError_pos h
  simp only [List.mem_cons, List.not_mem_nil, or_false, EINVAL, EPERM, ESRCH] at hm
  omega

/-! ### What a call can do -/

theorem mem_pids_iff (p : PidT) (list : List MemoryLimitation) :
    p ∈ list.map MemoryLimitation.pid ↔ (findKey MemoryLimitation.pid p list).isSome := by
  rw [Option.isSome_iff_ne_none, Ne, findKey_eq_none, not_not]

theorem addLocked_cases (k : Bool) (p : PidT) (l : SizeT) (list : List MemoryLimitation) :
    (p ∈ list.map MemoryLimitation.pid ∧ addLocked k p l list = (list, -101)) ∨
    (p ∉ list.map MemoryLimitation.pid ∧ k = false ∧ addLocked k p l list = (list, -ENOMEM)) ∨
    (p ∉ list.map MemoryLimitation.pid ∧ k = true ∧
      addLocked k p l list = (⟨p, l⟩ :: list, 0)) := by
  unfold addLocked
  rw [mem_pids_iff]
  by_cases hf : (findKey MemoryLimitation.pid p list).isSome = true
  · exact Or.inl ⟨hf, if_pos hf⟩
  · refine Or.inr ?_
    cases k with
    | false => exact Or.inl ⟨hf, rfl, if_neg hf⟩
    | true => exact Or.inr ⟨hf, rfl, if_neg hf⟩

theorem updateLocked_cases (p : PidT) (l : SizeT) (list : List MemoryLimitation) :
    (p ∉ list.map MemoryLimitation.pid ∧ updateLocked p l list = (list, -102)) ∨
    (p ∈ list.map MemoryLimitation.pid ∧ ∃ list',
      assignFirst MemoryLimitation.pid p (fun entry => {entry with memoryLimit := l}) list =
        some list' ∧
      updateLocked p l list = (list', 0)) := by
  unfold updateLocked
  have hn := assignFirst_none_iff MemoryLimitation.pid p
    (fun entry => {entry with memoryLimit := l}) list
  cases ha : assignFirst MemoryLimitation.pid p (fun entry => {entry with memoryLimit := l}) list with
  | none => exact Or.inl ⟨hn.mp ha, rfl⟩
  | some list' =>
    refine Or.inr ⟨?_, list', rfl, rfl⟩
    by_contra hc
    rw [hn.mpr hc] at ha
    cases ha

/- A call that does not answer 0 has no effect; one that does has passed the
checks and has linked or assigned an entry. -/
theorem execLimit_cases (list : List MemoryLimitation) (c : LimitCall) :
    ((execLimit list c).2.ret ≠ 0 ∧ (execLimit list c).1 = list) ∨
    ((execLimit list c).2.ret = 0 ∧ (0 < c.pid.toInt ∧ c.limit ≠ 0) ∧
      ((c.op = .add ∧ c.pid ∉ list.map MemoryLimitation.pid ∧
          (execLimit list c).1 = ⟨c.pid, c.limit⟩ :: list) ∨
        (c.op = .update ∧
          assignFirst MemoryLimitation.pid c.pid (fun entry => {entry with memoryLimit := c.limit})
            list = some (execLimit list c).1))) := by
  obtain ⟨op, env, p, l⟩ := c
  cases op with
  | add =>
    simp only [execLimit, so2AddMemoryLimit]
    cases hr : requestError env p l with
    | some e => exact Or.inl ⟨requestError_neg_ne_zero hr, rfl⟩
    | none =>
      rcases addLocked_cases env.kmalloc p l list with ⟨-, ha⟩ | ⟨-, -, ha⟩ | ⟨hnew, -, ha⟩
      · simp [ha]
      · simp [ha, ENOMEM]
      · rw [ha]
        exact Or.inr ⟨rfl, requestError_none hr, Or.inl ⟨trivial, hnew, rfl⟩⟩
  | update =>
    simp only [execLimit, so2UpdateMemoryLimit]
    cases hr : requestError env p l with
    | some e => exact Or.inl ⟨requestError_neg_ne_zero hr, rfl⟩
    | none =>
      rcases updateLocked_cases p l list with ⟨-, hu⟩ | ⟨-, list', ha, hu⟩
      · simp [hu]
      · rw [hu]
        exact Or.inr ⟨rfl, requestError_none hr, Or.inr ⟨trivial, ha⟩⟩

theorem execLimit_nonzero (list : List MemoryLimitation) (c : LimitCall)
    (h : (execLimit list c).2.ret ≠ 0) : (execLimit list c).1 = list := by
  rcases execLimit_cases list c with ⟨-, hl⟩ | ⟨h0, -⟩
  · exact hl
  · exact absurd h0 h

/-! ### The invariant -/

structure Valid (list : List MemoryLimitation) : Prop where
  pidsNodup : (list.map MemoryLimitation.pid).Nodup
  wellFormed : ∀ e ∈ list, 0 < e.pid.toInt ∧ e.memoryLimit ≠ 0

/- The list as the lock protects it: no pid twice, every pid positive, no
limit 0. -/
structure Registry where
  entries : List MemoryLimitation
  valid : Valid entries

theorem Valid.cons {list : List MemoryLimitation} (h : Valid list) {p : PidT} {l : SizeT}
    (hp : 0 < p.toInt ∧ l ≠ 0) (hnew : p ∉ list.map MemoryLimitation.pid) :
    Valid (⟨p, l⟩ :: list) := by
  refine ⟨List.nodup_cons.mpr ⟨hnew, h.pidsNodup⟩, ?_⟩
  intro e he
  rcases List.mem_cons.mp he with rfl | he
  · exact hp
  · exact h.wellFormed e he

theorem Valid.assign {list list' : List MemoryLimitation} (h : Valid list) {p : PidT} {l : SizeT}
    (hl : l ≠ 0)
    (ha : assignFirst MemoryLimitation.pid p (fun entry => {entry with memoryLimit := l}) list =
      some list') : Valid list' := by
  have hk := assignFirst_keys MemoryLimitation.pid (by simp) ha
  obtain ⟨pre, x, post, rfl, rfl, -, -⟩ := assignFirst_split MemoryLimitation.pid ha
  refine ⟨by rw [hk]; exact h.pidsNodup, ?_⟩
  intro e he
  simp only [List.mem_append, List.mem_cons] at he
  rcases he with he | rfl | he
  · exact h.wellFormed e (by simp [he])
  · exact ⟨(h.wellFormed x (by simp)).1, hl⟩
  · exact h.wellFormed e (by simp [he])

theorem execLimit_valid (list : List MemoryLimitation) (c : LimitCall) (h : Valid list) :
    Valid (execLimit list c).1 := by
  rcases execLimit_cases list c with ⟨-, hl⟩ | ⟨-, hp, ⟨-, hnew, hl⟩ | ⟨-, ha⟩⟩
  · rw [hl]
    exact h
  · rw [hl]
    exact h.cons hp hnew
  · exact h.assign hp.2 ha

theorem empty_valid : Valid [] := ⟨List.nodup_nil, by simp⟩

def Registry.exec (r : Registry) (c : LimitCall) : Registry × Reply :=
  (⟨(execLimit r.entries c).1, execLimit_valid r.entries c r.valid⟩, (execLimit r.entries c).2)

/- The registry a run of add and update calls builds from the empty list. -/
def registryAfter (calls : List LimitCall) : Registry :=
  (run Registry.exec ⟨[], empty_valid⟩ calls).1

theorem registryAfter_entries (calls : List LimitCall) :
    (registryAfter calls).entries = (run execLimit [] calls).1 := by
  have h := run_simulation Registry.exec execLimit Registry.entries id (fun _ => True)
    (fun _ _ _ => rfl) ⟨[], empty_valid⟩ calls (fun _ _ => trivial)
  exact (congrArg Prod.fst h).symm

/- The two adds of test_syscall9.c; every process has 100 resident pages. -/
def testEnv : CallEnv := ⟨true, fun _ => some ⟨some ⟨400, 100⟩⟩, true⟩
def testCalls : List LimitCall := [⟨.add, testEnv, 1234, 500⟩, ⟨.add, testEnv, 5678, 1000⟩]

theorem toNat_of_toInt_pos (p : PidT) (h : 0 < p.toInt) : 1 ≤ p.toNat ∧ p.toNat ≤ 2 ^ 31 - 1 := by
  rw [BitVec.toInt_eq_toNat_cond] at h
  split at h
  · omega
  · have := p.isLt
    omega

/- Distinct positive 32-bit pids: the list never reaches 2^31 entries. -/
theorem Registry.length_lt (r : Registry) : r.entries.length < 2 ^ 31 := by
  let pids := r.entries.map fun e => e.pid.toNat
  have hn : pids.Nodup := by
    have h := r.valid.pidsNodup.map (fun _ _ => BitVec.eq_of_toNat_eq)
    rwa [List.map_map] at h
  have hsub : pids.toFinset ⊆ Finset.Icc 1 (2 ^ 31 - 1) := by
    intro n hm
    obtain ⟨e, he, rfl⟩ := List.mem_map.mp (List.mem_toFinset.mp hm)
    exact Finset.mem_Icc.mpr (toNat_of_toInt_pos e.pid (r.valid.wellFormed e he).1)
  have hcard := Finset.card_le_card hsub
  rw [List.toFinset_card_of_nodup hn, Nat.card_Icc, List.length_map] at hcard
  omega

end UsacLinux.MemoryLimit
