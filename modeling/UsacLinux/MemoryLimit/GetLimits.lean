import UsacLinux.MemoryLimit.Registry

/-!
# Reading the registry (so2_get_memory_limits, syscall7.c:87-153)

The call counts the list, clips the count, allocates a buffer of that many
`struct memory_limitation`, copies pid and limit of each entry into it and
hands the buffer to user space. The buffer is modelled byte by byte in the
x86-64 layout of the kernel's structure, because its uninitialised bytes are
copied out as well.
-/

namespace UsacLinux.MemoryLimit
open Kernel Lib.ByteMemory Lib.KeyedList Lib.Machine

/- `pid_t pid; size_t memory_limit; struct list_head list` (syscall7.c:15-19). -/
def kernelLayout : List Member := [⟨4, 4⟩, ⟨8, 8⟩, ⟨16, 8⟩]
def sizeofMemoryLimitation : ℕ := sizeOfStruct kernelLayout
def pidOffset : ℕ := offsetOf kernelLayout 0
def limitOffset : ℕ := offsetOf kernelLayout 1

@[simp] theorem sizeofMemoryLimitation_eq : sizeofMemoryLimitation = 32 := by decide
@[simp] theorem pidOffset_eq : pidOffset = 0 := by decide
@[simp] theorem limitOffset_eq : limitOffset = 8 := by decide

/- The block behind `kernel_buffer`: how many elements were asked for, its
bytes, and the indexes assigned so far. -/
structure KernelBuffer where
  elements : SizeT
  bytes : Memory
  stored : List ℕ

/- kernel_buffer[count].pid = entry->pid; kernel_buffer[count].memory_limit = ... -/
def KernelBuffer.assign (b : KernelBuffer) (count : SizeT) (entry : MemoryLimitation) :
    KernelBuffer :=
  let base := sizeofMemoryLimitation * count.toNat
  { elements := b.elements
    bytes := store 8 (store 4 b.bytes (base + pidOffset) entry.pid) (base + limitOffset)
      entry.memoryLimit
    stored := count.toNat :: b.stored }

def KernelBuffer.record (b : KernelBuffer) (i : ℕ) : MemoryLimitation :=
  ⟨load 32 b.bytes (sizeofMemoryLimitation * i + pidOffset),
    load 64 b.bytes (sizeofMemoryLimitation * i + limitOffset)⟩

/- First traversal, lines 105-107. -/
def countEntries : List MemoryLimitation → SizeT → SizeT
  | [], count => count
  | _ :: es, count => countEntries es (count + 1)

/- Second traversal, lines 122-130. -/
def copyEntries (maxEntries : SizeT) :
    List MemoryLimitation → KernelBuffer → SizeT → KernelBuffer × SizeT
  | [], b, count => (b, count)
  | e :: es, b, count =>
    if maxEntries ≤ count then (b, count)
    else copyEntries maxEntries es (b.assign count e) (count + 1)

/- User addresses; 0 is NULL. -/
structure GetArgs where
  uProcessesBuffer : ℕ
  maxEntries : SizeT
  processesReturned : ℕ

/- What one call sees of the machine: the allocator and what the block it
returns held before, how many bytes the user pages take from `copy_to_user`,
and whether `put_user` succeeds. -/
structure GetEnv where
  kmallocArray : KmallocArray
  stale : Memory
  accepted : ℕ
  putUser : Bool

/- The result, the buffer and the count at the end of the second traversal,
what `copy_to_user` returned, and the bytes written to the record array and to
the count of the caller. -/
structure GetOutcome where
  ret : ℤ
  kernelBuffer : Option KernelBuffer
  count : SizeT
  uncopied : Option SizeT
  recordWrites : List (ℕ × Byte)
  countWrites : List (ℕ × Byte)

def GetOutcome.writes (o : GetOutcome) : List (ℕ × Byte) := o.recordWrites ++ o.countWrites

def GetOutcome.failed (e : ℤ) : GetOutcome := ⟨-e, none, 0, none, [], []⟩

/- Lines 135-152. -/
def copyOut (env : GetEnv) (args : GetArgs) (b : KernelBuffer) (count : SizeT) : GetOutcome :=
  let size := count * BitVec.ofNat 64 sizeofMemoryLimitation
  let copied := copyToUser env.accepted args.uProcessesBuffer (slice b.bytes 0 size.toNat)
  if toInt32 copied.2 ≠ 0 then ⟨-EFAULT, some b, count, some copied.2, copied.1, []⟩
  else if env.putUser then
    ⟨0, some b, count, some copied.2, copied.1, putUserInt args.processesReturned count⟩
  else ⟨-EFAULT, some b, count, some copied.2, copied.1, []⟩

def clipCount (count maxEntries : SizeT) : SizeT := if maxEntries < count then maxEntries else count

/- Lines 104-116: count, clip, allocate. -/
def GetEnv.allocates (env : GetEnv) (args : GetArgs) (list : List MemoryLimitation) : Bool :=
  env.kmallocArray.returns (clipCount (countEntries list 0) args.maxEntries)
    (BitVec.ofNat 64 sizeofMemoryLimitation)

/- Lines 121-130: the buffer and the count the second traversal leaves. -/
def filled (env : GetEnv) (args : GetArgs) (list : List MemoryLimitation) : KernelBuffer × SizeT :=
  copyEntries args.maxEntries list
    ⟨clipCount (countEntries list 0) args.maxEntries, env.stale, []⟩ 0

def so2GetMemoryLimits (env : GetEnv) (args : GetArgs) (list : List MemoryLimitation) :
    GetOutcome :=
  if args.maxEntries ≤ 0 ∨ args.uProcessesBuffer = 0 ∨ args.processesReturned = 0 then .failed EINVAL
  else if env.allocates args list then
    copyOut env args (filled env args list).1 (filled env args list).2
  else .failed ENOMEM

/-! ### A call on the registry -/

inductive RegistryCall where
  | limit (c : LimitCall)
  | get (env : GetEnv) (args : GetArgs)

inductive RegistryReply where
  | limit (r : Reply)
  | get (o : GetOutcome)

/- The read takes no node out of the list and puts none in. -/
def execCall (list : List MemoryLimitation) : RegistryCall → List MemoryLimitation × RegistryReply
  | .limit c => ((execLimit list c).1, .limit (execLimit list c).2)
  | .get env args => (list, .get (so2GetMemoryLimits env args list))

theorem execCall_valid (list : List MemoryLimitation) (c : RegistryCall) (h : Valid list) :
    Valid (execCall list c).1 := by
  cases c with
  | limit c => exact execLimit_valid list c h
  | get env args => exact h

/- An add that answers 0. -/
def added : RegistryCall → RegistryReply → Bool
  | .limit c, .limit r => decide (c.op = .add ∧ r.ret = 0)
  | _, _ => false

theorem length_execCall (list : List MemoryLimitation) (c : RegistryCall) :
    (execCall list c).1.length = list.length + if added c (execCall list c).2 then 1 else 0 := by
  cases c with
  | get env args => rfl
  | limit c =>
    simp only [execCall, added]
    rcases execLimit_cases list c with ⟨hret, hl⟩ | ⟨hret, -, ⟨hop, -, hl⟩ | ⟨hop, ha⟩⟩
    · simp [hret, hl]
    · simp [hret, hop, hl]
    · have hk := congrArg List.length (assignFirst_keys MemoryLimitation.pid (by simp) ha)
      simp only [List.length_map] at hk
      simp [hop, hk]

theorem length_run (cs : List RegistryCall) :
    (run execCall [] cs).1.length =
      ((cs.zip (run execCall [] cs).2).filter fun x => added x.1 x.2).length := by
  induction cs using List.reverseRecOn with
  | nil => rfl
  | append_singleton cs c ih =>
    have hl := run_length execCall [] cs
    rw [run_concat, length_execCall, ih, List.zip_append hl.symm, List.filter_append,
      List.length_append]
    congr 1
    cases h : added c (execCall (run execCall [] cs).1 c).2 <;> simp [h]

/-! ### The two traversals -/

theorem countEntries_toNat (list : List MemoryLimitation) (count : SizeT)
    (h : count.toNat + list.length < 2 ^ 64) :
    (countEntries list count).toNat = count.toNat + list.length := by
  induction list generalizing count with
  | nil => rfl
  | cons e es ih =>
    simp only [List.length_cons] at h ⊢
    have hc : (count + 1).toNat = count.toNat + 1 := by
      rw [BitVec.toNat_add]
      exact Nat.mod_eq_of_lt (by show count.toNat + 1 < 2 ^ 64; omega)
    rw [countEntries, ih (count + 1) (by omega), hc]
    omega

theorem clipCount_toNat (count maxEntries : SizeT) :
    (clipCount count maxEntries).toNat = min count.toNat maxEntries.toNat := by
  unfold clipCount
  split
  next h => rw [BitVec.lt_def] at h; omega
  next h => rw [BitVec.lt_def] at h; omega

/- The counter stays below `max_entries` while the loop runs, so it cannot wrap. -/
theorem succ_toNat {count maxEntries : SizeT} (h : ¬maxEntries ≤ count) :
    (count + 1).toNat = count.toNat + 1 ∧ count.toNat < maxEntries.toNat := by
  rw [BitVec.le_def] at h
  have hm := maxEntries.isLt
  refine ⟨?_, by omega⟩
  rw [BitVec.toNat_add]
  exact Nat.mod_eq_of_lt (by show count.toNat + 1 < 2 ^ 64; omega)

theorem copyEntries_count (maxEntries : SizeT) (list : List MemoryLimitation) (b : KernelBuffer)
    (count : SizeT) :
    (copyEntries maxEntries list b count).2.toNat =
      count.toNat + min list.length (maxEntries.toNat - count.toNat) := by
  induction list generalizing b count with
  | nil => simp [copyEntries]
  | cons e es ih =>
    rw [copyEntries]
    split
    next h => rw [BitVec.le_def] at h; simp only [List.length_cons]; omega
    next h =>
      have hs := succ_toNat h
      rw [ih, hs.1, List.length_cons]
      omega

theorem copyEntries_elements (maxEntries : SizeT) (list : List MemoryLimitation) (b : KernelBuffer)
    (count : SizeT) : (copyEntries maxEntries list b count).1.elements = b.elements := by
  induction list generalizing b count with
  | nil => rfl
  | cons e es ih =>
    rw [copyEntries]
    split
    · rfl
    · exact ih _ _

theorem copyEntries_stored (maxEntries : SizeT) (list : List MemoryLimitation) (b : KernelBuffer)
    (count : SizeT) (i : ℕ) (hi : i ∈ (copyEntries maxEntries list b count).1.stored) :
    i ∈ b.stored ∨
      (count.toNat ≤ i ∧ i < count.toNat + min list.length (maxEntries.toNat - count.toNat)) := by
  induction list generalizing b count with
  | nil => exact Or.inl hi
  | cons e es ih =>
    rw [copyEntries] at hi
    split at hi
    · exact Or.inl hi
    next h =>
      have hs := succ_toNat h
      rcases ih _ _ hi with hb | hr
      · rcases List.mem_cons.mp hb with rfl | hb
        · refine Or.inr ⟨le_rfl, ?_⟩
          simp only [List.length_cons]
          omega
        · exact Or.inl hb
      · refine Or.inr ?_
        simp only [List.length_cons]
        omega

/-! ### The bytes of the buffer -/

theorem assign_pid (b : KernelBuffer) (count : SizeT) (e : MemoryLimitation) (j : ℕ) (hj : j < 4) :
    (b.assign count e).bytes (32 * count.toNat + j) = byteOf e.pid j := by
  simp only [KernelBuffer.assign, sizeofMemoryLimitation_eq, pidOffset_eq, limitOffset_eq]
  rw [store_outside _ _ _ _ _ (by omega)]
  exact store_inside 4 b.bytes (32 * count.toNat) e.pid j hj

theorem assign_limit (b : KernelBuffer) (count : SizeT) (e : MemoryLimitation) (j : ℕ)
    (hj : j < 8) : (b.assign count e).bytes (32 * count.toNat + 8 + j) = byteOf e.memoryLimit j := by
  simp only [KernelBuffer.assign, sizeofMemoryLimitation_eq, pidOffset_eq, limitOffset_eq]
  exact store_inside 8 _ (32 * count.toNat + 8) e.memoryLimit j hj

theorem assign_outside (b : KernelBuffer) (count : SizeT) (e : MemoryLimitation) (x : ℕ)
    (hx : x < 32 * count.toNat ∨ (4 ≤ x % 32 ∧ x % 32 < 8) ∨ 16 ≤ x % 32) :
    (b.assign count e).bytes x = b.bytes x := by
  simp only [KernelBuffer.assign, sizeofMemoryLimitation_eq, pidOffset_eq, limitOffset_eq]
  rw [store_outside _ _ _ _ _ (by omega), store_outside _ _ _ _ _ (by omega)]

/- Neither earlier elements nor padding and list pointers of any element are
assigned. -/
theorem copyEntries_outside (maxEntries : SizeT) (list : List MemoryLimitation) (b : KernelBuffer)
    (count : SizeT) (x : ℕ)
    (hx : x < 32 * count.toNat ∨ (4 ≤ x % 32 ∧ x % 32 < 8) ∨ 16 ≤ x % 32) :
    (copyEntries maxEntries list b count).1.bytes x = b.bytes x := by
  induction list generalizing b count with
  | nil => rfl
  | cons e es ih =>
    rw [copyEntries]
    split
    · rfl
    next h =>
      have hs := succ_toNat h
      rw [ih _ _ (by omega), assign_outside b count e x hx]

theorem copyEntries_fields (maxEntries : SizeT) (list : List MemoryLimitation) (b : KernelBuffer)
    (count : SizeT) (i : ℕ) (hi : i < list.length) (hm : count.toNat + i < maxEntries.toNat) :
    (∀ j < 4, (copyEntries maxEntries list b count).1.bytes (32 * (count.toNat + i) + j) =
      byteOf list[i].pid j) ∧
    (∀ j < 8, (copyEntries maxEntries list b count).1.bytes (32 * (count.toNat + i) + 8 + j) =
      byteOf list[i].memoryLimit j) := by
  induction list generalizing b count i with
  | nil => simp at hi
  | cons e es ih =>
    have hlt : ¬maxEntries ≤ count := by rw [BitVec.le_def]; omega
    have hs := succ_toNat hlt
    rw [copyEntries, if_neg hlt]
    cases i with
    | zero =>
      refine ⟨?_, ?_⟩
      · intro j hj
        rw [copyEntries_outside _ _ _ _ _ (by omega)]
        exact assign_pid b count e j hj
      · intro j hj
        rw [copyEntries_outside _ _ _ _ _ (by omega)]
        exact assign_limit b count e j hj
    | succ i =>
      have hr := ih (b.assign count e) (count + 1) i (by simpa using hi) (by omega)
      have ha : count.toNat + (i + 1) = (count + 1).toNat + i := by omega
      rw [ha]
      exact hr

theorem copyEntries_record (maxEntries : SizeT) (list : List MemoryLimitation) (b : KernelBuffer)
    (i : ℕ) (hi : i < list.length) (hm : i < maxEntries.toNat) :
    (copyEntries maxEntries list b 0).1.record i = list[i] := by
  have h0 := zero_toNat
  have hf := copyEntries_fields maxEntries list b 0 i hi (by omega)
  simp only [h0, Nat.zero_add] at hf
  simp only [KernelBuffer.record, sizeofMemoryLimitation_eq, pidOffset_eq, limitOffset_eq, Nat.add_zero]
  rw [load_of_bytes _ _ list[i].pid (fun j hj => hf.1 j (by omega)),
    load_of_bytes _ _ list[i].memoryLimit (fun j hj => hf.2 j (by omega))]

/-! ### Whole calls on a registry -/

section Calls

variable (r : Registry) (env : GetEnv) (args : GetArgs)

/- Number of entries the call reports. -/
def Registry.reported : ℕ := min r.entries.length args.maxEntries.toNat

/- Arguments that pass the check of line 97. -/
structure GetArgs.Usable (args : GetArgs) : Prop where
  maxEntries : 1 ≤ args.maxEntries.toNat
  uProcessesBuffer : args.uProcessesBuffer ≠ 0
  processesReturned : args.processesReturned ≠ 0

theorem countEntries_registry : (countEntries r.entries 0).toNat = r.entries.length := by
  have hl := r.length_lt
  rw [countEntries_toNat r.entries 0 (by rw [zero_toNat]; omega), zero_toNat, Nat.zero_add]

theorem clipped_toNat :
    (clipCount (countEntries r.entries 0) args.maxEntries).toNat = r.reported args := by
  rw [clipCount_toNat, countEntries_registry, Registry.reported]

theorem filled_count : (filled env args r.entries).2.toNat = r.reported args := by
  rw [filled, copyEntries_count, zero_toNat, Registry.reported]
  omega

theorem filled_elements : (filled env args r.entries).1.elements.toNat = r.reported args := by
  rw [filled, copyEntries_elements, clipped_toNat]

theorem filled_stored (i : ℕ) (hi : i ∈ (filled env args r.entries).1.stored) :
    i < r.reported args := by
  rcases copyEntries_stored _ _ _ _ i hi with h | h
  · cases h
  · rw [zero_toNat] at h
    rw [Registry.reported]
    omega

theorem filled_record (i : ℕ) (hi : i < r.reported args) :
    r.entries[i]? = some ((filled env args r.entries).1.record i) := by
  rw [Registry.reported] at hi
  have hl : i < r.entries.length := by omega
  rw [List.getElem?_eq_getElem hl, filled, copyEntries_record _ _ _ i hl (by omega)]

/- The byte count handed to `copy_to_user` fits an `int`: blocks above
`KMALLOC_MAX_SIZE` are never returned. -/
theorem reported_bytes_lt (h : env.allocates args r.entries = true) :
    32 * r.reported args < 2 ^ 31 := by
  by_contra hn
  have hm := env.kmallocArray.maxSize_lt
  have hs : (BitVec.ofNat 64 sizeofMemoryLimitation).toNat = 32 := by decide
  have hf := env.kmallocArray.large (clipCount (countEntries r.entries 0) args.maxEntries)
    (BitVec.ofNat 64 sizeofMemoryLimitation) (by rw [clipped_toNat, hs]; omega)
  rw [GetEnv.allocates, hf] at h
  cases h

end Calls

/- Narrowing the result of `copy_to_user` to `int` is harmless at these sizes. -/
theorem copyOut_eq (env : GetEnv) (args : GetArgs) (b : KernelBuffer) (count : SizeT) (k : ℕ)
    (hc : count.toNat = k) (hk : 32 * k < 2 ^ 31) :
    copyOut env args b count =
      let copied := copyToUser env.accepted args.uProcessesBuffer (slice b.bytes 0 (32 * k))
      if env.accepted < 32 * k ∨ env.putUser = false then
        ⟨-EFAULT, some b, count, some copied.2, copied.1, []⟩
      else ⟨0, some b, count, some copied.2, copied.1, putUserInt args.processesReturned count⟩ := by
  have hsize : (count * BitVec.ofNat 64 sizeofMemoryLimitation).toNat = 32 * k := by
    have hs : (BitVec.ofNat 64 sizeofMemoryLimitation).toNat = 32 := by decide
    rw [BitVec.toNat_mul, hs, hc, Nat.mod_eq_of_lt (by omega)]
    omega
  have hz := toInt32_uncopied_eq_zero env.accepted args.uProcessesBuffer (slice b.bytes 0 (32 * k))
    (by rw [slice_length]; omega)
  rw [slice_length] at hz
  simp only [copyOut, hsize]
  by_cases ha : 32 * k ≤ env.accepted
  · have hn : ¬env.accepted < 32 * k := by omega
    cases hp : env.putUser <;> simp [hz.mpr ha, hn]
  · have hn : env.accepted < 32 * k := by omega
    rw [if_pos (fun h => ha (hz.mp h)), if_pos (Or.inl hn)]

section Outcomes

variable (r : Registry) (env : GetEnv) (args : GetArgs)

theorem usable_passes (hu : args.Usable) :
    ¬(args.maxEntries ≤ 0 ∨ args.uProcessesBuffer = 0 ∨ args.processesReturned = 0) := by
  have hm := hu.maxEntries
  rintro (h | h | h)
  · rw [BitVec.le_def, zero_toNat] at h
    omega
  · exact hu.uProcessesBuffer h
  · exact hu.processesReturned h

theorem get_refused (hu : args.Usable) (ha : env.allocates args r.entries = false) :
    so2GetMemoryLimits env args r.entries = .failed ENOMEM := by
  unfold so2GetMemoryLimits
  rw [if_neg (usable_passes args hu), if_neg (by simp [ha])]

theorem get_allocated (hu : args.Usable) (ha : env.allocates args r.entries = true) :
    so2GetMemoryLimits env args r.entries =
      let k := r.reported args
      let b := (filled env args r.entries).1
      let count := (filled env args r.entries).2
      let copied := copyToUser env.accepted args.uProcessesBuffer (slice b.bytes 0 (32 * k))
      if env.accepted < 32 * k ∨ env.putUser = false then
        ⟨-EFAULT, some b, count, some copied.2, copied.1, []⟩
      else ⟨0, some b, count, some copied.2, copied.1, putUserInt args.processesReturned count⟩ := by
  have hk := reported_bytes_lt r env args ha
  unfold so2GetMemoryLimits
  rw [if_neg (usable_passes args hu), if_pos ha]
  exact copyOut_eq env args _ _ _ (filled_count r env args) hk

theorem get_ret_zero (hu : args.Usable) (h : (so2GetMemoryLimits env args r.entries).ret = 0) :
    env.allocates args r.entries = true ∧ 32 * r.reported args ≤ env.accepted ∧
      env.putUser = true := by
  cases ha : env.allocates args r.entries with
  | false =>
    rw [get_refused r env args hu ha] at h
    simp [GetOutcome.failed, ENOMEM] at h
  | true =>
    rw [get_allocated r env args hu ha] at h
    dsimp only at h
    split at h
    · simp [EFAULT] at h
    next hn =>
      refine ⟨rfl, by omega, ?_⟩
      cases hp : env.putUser with
      | true => rfl
      | false => exact absurd (Or.inr hp) hn

theorem get_success (hu : args.Usable) (ha : env.allocates args r.entries = true)
    (hacc : 32 * r.reported args ≤ env.accepted) (hp : env.putUser = true) :
    so2GetMemoryLimits env args r.entries =
      ⟨0, some (filled env args r.entries).1, (filled env args r.entries).2, some 0,
        place args.uProcessesBuffer
          (slice (filled env args r.entries).1.bytes 0 (32 * r.reported args)),
        putUserInt args.processesReturned (filled env args r.entries).2⟩ := by
  have hlen : (slice (filled env args r.entries).1.bytes 0 (32 * r.reported args)).length ≤
      env.accepted := by
    rw [slice_length]
    exact hacc
  have hn : ¬(env.accepted < 32 * r.reported args ∨ env.putUser = false) := by
    rw [hp]
    simp only [Bool.true_eq_false, or_false]
    omega
  rw [get_allocated r env args hu ha]
  simp only [hn, if_false, copyToUser_full _ _ _ hlen]

/- The three ways a call with usable arguments can end. -/
theorem get_cases (hu : args.Usable) :
    (env.allocates args r.entries = false ∧
      so2GetMemoryLimits env args r.entries = .failed ENOMEM) ∨
    (env.allocates args r.entries = true ∧
      (env.accepted < 32 * r.reported args ∨ env.putUser = false) ∧
      ∃ u writes, so2GetMemoryLimits env args r.entries =
        ⟨-EFAULT, some (filled env args r.entries).1, (filled env args r.entries).2, some u,
          writes, []⟩) ∨
    (env.allocates args r.entries = true ∧
      so2GetMemoryLimits env args r.entries =
        ⟨0, some (filled env args r.entries).1, (filled env args r.entries).2, some 0,
          place args.uProcessesBuffer
            (slice (filled env args r.entries).1.bytes 0 (32 * r.reported args)),
          putUserInt args.processesReturned (filled env args r.entries).2⟩) := by
  cases ha : env.allocates args r.entries with
  | false => exact Or.inl ⟨rfl, get_refused r env args hu ha⟩
  | true =>
    refine Or.inr ?_
    by_cases hf : env.accepted < 32 * r.reported args ∨ env.putUser = false
    · refine Or.inl ⟨rfl, hf, ?_⟩
      rw [get_allocated r env args hu ha]
      simp only [hf, if_true]
      exact ⟨_, _, rfl⟩
    · rw [not_or, Bool.not_eq_false] at hf
      exact Or.inr ⟨rfl, get_success r env args hu ha (by omega) hf.2⟩

theorem empty_allocates (he : r.entries = []) : env.allocates args r.entries = true := by
  have hz : clipCount (countEntries r.entries 0) args.maxEntries = 0 := by
    apply BitVec.eq_of_toNat_eq
    rw [clipped_toNat, Registry.reported, he]
    simp
  rw [GetEnv.allocates, hz, env.kmallocArray.zero]

theorem filled_in_bounds (i : ℕ) (hi : i ∈ (filled env args r.entries).1.stored) :
    i < (filled env args r.entries).1.elements.toNat := by
  rw [filled_elements]
  exact filled_stored r env args i hi

end Outcomes

end UsacLinux.MemoryLimit
