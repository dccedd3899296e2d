import UsacLinux.Kernel
import UsacLinux.Lib.Rounding
import Mathlib.Algebra.BigOperators.Ring.List

/-!
# The memory reports (kernel/usac/syscall5.c and syscall6.c)

`luis_recoleccion_general` reports one process in KB, `luis_resumen_total`
adds up all processes in MB. Both name their columns reserved and committed:
the report of one process takes the reserved memory from `total_vm` and the
committed memory from the resident set, the summary the other way round. The
summary converts the pages of each process to MB before it adds them, so what
each process has beyond a whole MB is cut off.
-/

namespace UsacLinux.MemoryReport
open Kernel Lib.ByteMemory Lib.Rounding

/-! ### One process (luis_recoleccion_general) -/

structure ProcessMemoryInfo where
  reservedMemoryKb : SizeT
  committedMemoryKb : SizeT
  usedMemoryKb : SizeT
  oomScore : PidT
  percentageUsedMemory : PidT
  deriving DecidableEq, Repr

/- The two fields of `struct sysinfo` the call reads after `si_meminfo`. -/
structure SysInfo where
  totalram : SizeT
  memUnit : BitVec 32
  deriving DecidableEq, Repr

/- Lines 49-73. -/
def processInfo (si : SysInfo) (mm : MmStruct) : ProcessMemoryInfo :=
  let reservedMemory := pagesToKb mm.totalVm
  let committedMemory := pagesToKb (getMmRss mm)
  let usedMemoryKb := committedMemory
  let percentageUsedMemory :=
    if 0 < reservedMemory then toInt32 (usedMemoryKb * 100 / reservedMemory) else 0
  let totalMemoryKb := si.totalram * si.memUnit.setWidth 64 / 1024
  let oomScore := if 0 < totalMemoryKb then toInt32 (usedMemoryKb * 1000 / totalMemoryKb) else 0
  ⟨reservedMemory, committedMemory, usedMemoryKb, oomScore, percentageUsedMemory⟩

def infoWords (i : ProcessMemoryInfo) : List SizedWord :=
  [⟨8, i.reservedMemoryKb⟩, ⟨8, i.committedMemoryKb⟩, ⟨8, i.usedMemoryKb⟩, ⟨4, i.oomScore⟩,
    ⟨4, i.percentageUsedMemory⟩]

def infoBytes (i : ProcessMemoryInfo) : List Byte := wordsBytes (infoWords i)

def deliver (accepted dst : ℕ) (bytes : List Byte) : Report :=
  let copied := copyToUser accepted dst bytes
  if copied.2 ≠ 0 then ⟨-EFAULT, copied.1⟩ else ⟨0, copied.1⟩

def luisRecoleccionGeneral (pidTask : PidT → Option TaskStruct) (si : SysInfo) (accepted : ℕ)
    (pid : PidT) (memInfo : ℕ) : Report :=
  match pidTask pid with
  | none => ⟨-ESRCH, []⟩
  | some task => match task.mm with
    | none => ⟨-EFAULT, []⟩
    | some mm => deliver accepted memInfo (infoBytes (processInfo si mm))

/-! ### All processes (luis_resumen_total) -/

structure MemorySummary where
  reservedMemoryMb : SizeT
  committedMemoryMb : SizeT
  deriving DecidableEq, Repr

def pagesToMb (pages : SizeT) : SizeT := pages * pageSize / (1024 * 1024)

/- Lines 26-37, the body of `for_each_process`. -/
def addProcess (s : MemorySummary) (task : TaskStruct) : MemorySummary :=
  match task.mm with
  | none => s
  | some mm =>
    let reserved := getMmRss mm
    let committed := mm.totalVm
    ⟨s.reservedMemoryMb + pagesToMb reserved, s.committedMemoryMb + pagesToMb committed⟩

def sysSummary (tasks : List TaskStruct) : MemorySummary := tasks.foldl addProcess ⟨0, 0⟩

def summaryWords (s : MemorySummary) : List SizedWord :=
  [⟨8, s.reservedMemoryMb⟩, ⟨8, s.committedMemoryMb⟩]

def summaryBytes (s : MemorySummary) : List Byte := wordsBytes (summaryWords s)

def luisResumenTotal (tasks : List TaskStruct) (accepted summary : ℕ) : Report :=
  deliver accepted summary (summaryBytes (sysSummary tasks))

/-! ### What a successful call leaves in user memory -/

theorem deliver_full {accepted dst : ℕ} {bytes : List Byte} (h : bytes.length ≤ accepted) :
    deliver accepted dst bytes = ⟨0, place dst bytes⟩ := by
  simp [deliver, copyToUser_full accepted dst bytes h]

theorem deliver_zero {accepted dst : ℕ} {bytes : List Byte} (hl : bytes.length < 2 ^ 64)
    (h : (deliver accepted dst bytes).ret = 0) : (deliver accepted dst bytes).writes = place dst bytes := by
  have hu := copyToUser_uncopied accepted dst bytes hl
  by_cases ha : bytes.length ≤ accepted
  · rw [deliver_full ha]
  · have hne : (copyToUser accepted dst bytes).2 ≠ 0 := by
      intro hc
      rw [hc] at hu
      change 0 = _ at hu
      omega
    rw [deliver, if_pos hne] at h
    simp [EFAULT] at h

@[simp] theorem infoBytes_length (i : ProcessMemoryInfo) : (infoBytes i).length = 32 := by
  simp [infoBytes, infoWords, wordsBytes]

@[simp] theorem summaryBytes_length (s : MemorySummary) : (summaryBytes s).length = 16 := by
  simp [summaryBytes, summaryWords, wordsBytes]

theorem summary_delivered (tasks : List TaskStruct) (accepted dst : ℕ) (mem : Memory)
    (h : (luisResumenTotal tasks accepted dst).ret = 0) :
    load 64 (commit mem (luisResumenTotal tasks accepted dst).writes) dst =
      (sysSummary tasks).reservedMemoryMb ∧
    load 64 (commit mem (luisResumenTotal tasks accepted dst).writes) (dst + 8) =
      (sysSummary tasks).committedMemoryMb := by
  have hw := deliver_zero (by simp) h
  have hload := load_words mem dst (summaryWords (sysSummary tasks))
  unfold luisResumenTotal
  rw [hw]
  exact ⟨hload 0 ⟨8, _⟩ rfl, hload 1 ⟨8, _⟩ rfl⟩

/- Members of `struct process_memory_info` (syscall5.c:18-24). -/
def infoLayout : List Member := [⟨8, 8⟩, ⟨8, 8⟩, ⟨8, 8⟩, ⟨4, 4⟩, ⟨4, 4⟩]

def readInfo (mem : Memory) (dst : ℕ) : ProcessMemoryInfo where
  reservedMemoryKb := load 64 mem (dst + offsetOf infoLayout 0)
  committedMemoryKb := load 64 mem (dst + offsetOf infoLayout 1)
  usedMemoryKb := load 64 mem (dst + offsetOf infoLayout 2)
  oomScore := load 32 mem (dst + offsetOf infoLayout 3)
  percentageUsedMemory := load 32 mem (dst + offsetOf infoLayout 4)

theorem readInfo_place (i : ProcessMemoryInfo) (mem : Memory) (dst : ℕ) :
    readInfo (commit mem (place dst (infoBytes i))) dst = i := by
  have h := load_words mem dst (infoWords i)
  exact congr (congr (congr (congr (congrArg ProcessMemoryInfo.mk (h 0 ⟨8, _⟩ rfl)) (h 1 ⟨8, _⟩ rfl))
    (h 2 ⟨8, _⟩ rfl)) (h 3 ⟨4, _⟩ rfl)) (h 4 ⟨4, _⟩ rfl)

theorem info_delivered (pidTask : PidT → Option TaskStruct) (si : SysInfo) (accepted dst : ℕ)
    (pid : PidT) (mem : Memory) (h : (luisRecoleccionGeneral pidTask si accepted pid dst).ret = 0) :
    ∃ mm, pidTask pid = some ⟨some mm⟩ ∧
      readInfo (commit mem (luisRecoleccionGeneral pidTask si accepted pid dst).writes) dst =
        processInfo si mm := by
  unfold luisRecoleccionGeneral at h ⊢
  cases ht : pidTask pid with
  | none => simp [ht, ESRCH] at h
  | some task =>
    obtain ⟨_ | mm⟩ := task
    · simp [ht, EFAULT] at h
    · simp only [ht] at h ⊢
      refine ⟨mm, rfl, ?_⟩
      rw [deliver_zero (by simp) h]
      exact readInfo_place _ mem dst

/-! ### Sums -/

theorem pagesToMb_toNat (pages : SizeT) (h : pages.toNat < 2 ^ 52) :
    (pagesToMb pages).toNat = pages.toNat / 256 := by
  have hmul : (pages * pageSize).toNat = pages.toNat * 4096 := by
    rw [BitVec.toNat_mul]
    exact Nat.mod_eq_of_lt (by show pages.toNat * 4096 < 2 ^ 64; omega)
  have hmb : (1024 * 1024 : SizeT).toNat = 1048576 := by decide
  rw [pagesToMb, BitVec.toNat_udiv, hmul, hmb]
  omega

theorem kb_div_1024 (pages : SizeT) (h : pages.toNat < 2 ^ 52) :
    (pagesToKb pages).toNat / 1024 = pages.toNat / 256 := by
  rw [pagesToKb_toNat pages h]
  omega

/- Address spaces of the processes that have one. -/
def spaces (tasks : List TaskStruct) : List MmStruct := tasks.filterMap TaskStruct.mm

def MmStruct.Small (mm : MmStruct) : Prop := mm.totalVm.toNat < 2 ^ 52 ∧ mm.rss.toNat < 2 ^ 52

/- What the summary adds up under each of its two names. -/
inductive Column where
  | reserved
  | committed
  deriving DecidableEq, Repr

def Column.pages : Column → MmStruct → SizeT
  | .reserved => getMmRss
  | .committed => MmStruct.totalVm

def Column.figure : Column → MemorySummary → SizeT
  | .reserved => MemorySummary.reservedMemoryMb
  | .committed => MemorySummary.committedMemoryMb

theorem addProcess_figure (c : Column) (s : MemorySummary) (mm : MmStruct) :
    c.figure (addProcess s ⟨some mm⟩) = c.figure s + pagesToMb (c.pages mm) := by
  cases c <;> rfl

theorem foldl_figure (c : Column) (tasks : List TaskStruct) (s : MemorySummary)
    (h : ∀ mm ∈ spaces tasks, (c.pages mm).toNat < 2 ^ 52) :
    (c.figure (tasks.foldl addProcess s)).toNat =
      ((c.figure s).toNat + ((spaces tasks).map fun mm => (c.pages mm).toNat / 256).sum) % 2 ^ 64 := by
  induction tasks generalizing s with
  | nil =>
    have hlt := (c.figure s).isLt
    simp only [List.foldl_nil, spaces, List.filterMap_nil, List.map_nil, List.sum_nil, Nat.add_zero]
    omega
  | cons task tasks ih =>
    rw [List.foldl_cons]
    obtain ⟨_ | mm⟩ := task
    · exact ih s h
    · have hr := ih (addProcess s ⟨some mm⟩) fun x hx => h x (List.mem_cons_of_mem _ hx)
      have hmb := pagesToMb_toNat (c.pages mm) (h mm List.mem_cons_self)
      rw [hr, addProcess_figure, BitVec.toNat_add, hmb]
      change _ = ((c.figure s).toNat + (((c.pages mm).toNat / 256) +
        ((spaces tasks).map fun mm => (c.pages mm).toNat / 256).sum)) % 2 ^ 64
      omega

theorem sysSummary_figure (c : Column) (tasks : List TaskStruct)
    (h : ∀ mm ∈ spaces tasks, (c.pages mm).toNat < 2 ^ 52) :
    (c.figure (sysSummary tasks)).toNat =
      ((spaces tasks).map fun mm => (c.pages mm).toNat / 256).sum % 2 ^ 64 := by
  have hf := foldl_figure c tasks ⟨0, 0⟩ h
  have hz : (c.figure ⟨0, 0⟩).toNat = 0 := by cases c <;> rfl
  rwa [hz, Nat.zero_add] at hf

/-! ### Two meanings of reserved and committed -/

/- `info` is what a successful `luis_recoleccion_general` leaves in user memory
for a process with the address space `mm`. -/
def Reported (si : SysInfo) (mm : MmStruct) (info : ProcessMemoryInfo) : Prop :=
  ∃ (pidTask : PidT → Option TaskStruct) (pid : PidT) (accepted dst : ℕ) (mem : Memory),
    pidTask pid = some ⟨some mm⟩ ∧ (luisRecoleccionGeneral pidTask si accepted pid dst).ret = 0 ∧
    readInfo (commit mem (luisRecoleccionGeneral pidTask si accepted pid dst).writes) dst = info

theorem reported_iff {si : SysInfo} {mm : MmStruct} {info : ProcessMemoryInfo} :
    Reported si mm info ↔ processInfo si mm = info := by
  constructor
  · rintro ⟨pidTask, pid, accepted, dst, mem, ht, h0, hr⟩
    obtain ⟨mm', hmm, hi⟩ := info_delivered pidTask si accepted dst pid mem h0
    obtain rfl : mm' = mm := by simpa using hmm.symm.trans ht
    exact hi.symm.trans hr
  · rintro rfl
    have hd : (luisRecoleccionGeneral (fun _ => some ⟨some mm⟩) si 32 0 0).ret = 0 := by
      show (deliver 32 0 (infoBytes (processInfo si mm))).ret = 0
      rw [deliver_full (infoBytes_length _).le]
    obtain ⟨mm', hmm, hi⟩ := info_delivered (fun _ => some ⟨some mm⟩) si 32 0 0 (fun _ => 0) hd
    obtain rfl : mm = mm' := by simpa using hmm
    exact ⟨_, _, _, _, _, rfl, hd, hi⟩

theorem reported_all {si : SysInfo} {mms : List MmStruct} {infos : List ProcessMemoryInfo} :
    List.Forall₂ (Reported si) mms infos ↔ mms.map (processInfo si) = infos := by
  have hr : Reported si = fun mm info => processInfo si mm = info := by
    funext mm info
    exact propext reported_iff
  rw [hr, ← List.forall₂_map_left_iff, List.forall₂_eq_eq_eq]

/- The delivered summary is the sum of the delivered reports of the processes,
column by column. -/
def SummaryAgrees (si : SysInfo) (tasks : List TaskStruct) : Prop :=
  ∀ infos, List.Forall₂ (Reported si) (spaces tasks) infos →
  ∀ (accepted dst : ℕ) (mem : Memory), (luisResumenTotal tasks accepted dst).ret = 0 →
    (load 64 (commit mem (luisResumenTotal tasks accepted dst).writes) dst).toNat =
      (infos.map fun info => info.reservedMemoryKb.toNat / 1024).sum % 2 ^ 64 ∧
    (load 64 (commit mem (luisResumenTotal tasks accepted dst).writes) (dst + 8)).toNat =
      (infos.map fun info => info.committedMemoryKb.toNat / 1024).sum % 2 ^ 64

theorem luisResumenTotal_succeeds (tasks : List TaskStruct) {accepted : ℕ} (h : 16 ≤ accepted) (dst : ℕ) :
    (luisResumenTotal tasks accepted dst).ret = 0 := by
  rw [luisResumenTotal, deliver_full (by rwa [summaryBytes_length])]

/- The sums over the reports, in pages. -/
theorem summaryAgrees_iff_pages (si : SysInfo) (tasks : List TaskStruct)
    (h : ∀ mm ∈ spaces tasks, MmStruct.Small mm) :
    SummaryAgrees si tasks ↔
      (sysSummary tasks).reservedMemoryMb.toNat =
        ((spaces tasks).map fun mm => mm.totalVm.toNat / 256).sum % 2 ^ 64 ∧
      (sysSummary tasks).committedMemoryMb.toNat =
        ((spaces tasks).map fun mm => mm.rss.toNat / 256).sum % 2 ^ 64 := by
  have hres : ((spaces tasks).map (processInfo si)).map (fun info => info.reservedMemoryKb.toNat / 1024) =
      (spaces tasks).map fun mm => mm.totalVm.toNat / 256 := by
    rw [List.map_map]
    exact List.map_congr_left fun mm hm => kb_div_1024 mm.totalVm (h mm hm).1
  have hcom : ((spaces tasks).map (processInfo si)).map
      (fun info => info.committedMemoryKb.toNat / 1024) =
      (spaces tasks).map fun mm => mm.rss.toNat / 256 := by
    rw [List.map_map]
    exact List.map_congr_left fun mm hm => kb_div_1024 mm.rss (h mm hm).2
  simp only [SummaryAgrees, reported_all, forall_eq', hres, hcom]
  constructor
  · intro hs
    have h0 := luisResumenTotal_succeeds tasks le_rfl 0
    have hd := summary_delivered tasks 16 0 (fun _ => 0) h0
    rw [← hd.1, ← hd.2]
    exact hs 16 0 _ h0
  · intro hs accepted dst mem h0
    have hd := summary_delivered tasks accepted dst mem h0
    rw [hd.1, hd.2]
    exact hs

theorem resumen_total_agrees_iff (si : SysInfo) (tasks : List TaskStruct)
    (h : ∀ mm ∈ spaces tasks, MmStruct.Small mm) :
    SummaryAgrees si tasks ↔
      ((spaces tasks).map fun mm => mm.rss.toNat / 256).sum % 2 ^ 64 =
        ((spaces tasks).map fun mm => mm.totalVm.toNat / 256).sum % 2 ^ 64 := by
  have hres := sysSummary_figure .reserved tasks fun mm hm => (h mm hm).2
  have hcom := sysSummary_figure .committed tasks fun mm hm => (h mm hm).1
  simp only [Column.figure, Column.pages, getMmRss] at hres hcom
  rw [summaryAgrees_iff_pages si tasks h, hres, hcom]
  constructor
  · exact fun hs => hs.1
  · exact fun hs => ⟨hs, hs.symm⟩

/- Fully resident processes are the ones on which the swap does not show. -/
theorem resumen_total_agrees_resident :
    SummaryAgrees ⟨1000000, 4096⟩ [⟨some ⟨512, 512⟩⟩, ⟨none⟩] :=
  (resumen_total_agrees_iff ⟨1000000, 4096⟩ [⟨some ⟨512, 512⟩⟩, ⟨none⟩] (by
    intro mm hm
    obtain rfl : mm = ⟨512, 512⟩ := List.mem_singleton.mp hm
    exact ⟨by decide, by decide⟩)).mpr (by decide)

theorem resumen_total_swaps_columns :
    ¬∀ (si : SysInfo) (tasks : List TaskStruct), (∀ mm ∈ spaces tasks, MmStruct.Small mm) →
      SummaryAgrees si tasks := by
  intro h
  have hs : ∀ mm ∈ spaces [⟨some ⟨512, 256⟩⟩], MmStruct.Small mm := by
    intro mm hm
    obtain rfl : mm = ⟨512, 256⟩ := List.mem_singleton.mp hm
    exact ⟨by decide, by decide⟩
  have ht := ((summaryAgrees_iff_pages ⟨1000000, 4096⟩ [⟨some ⟨512, 256⟩⟩] hs).mp (h _ _ hs)).1
  revert ht
  decide

/-! ### Totals rounded once and totals of rounded terms -/

section Totals

variable (pages : MmStruct → SizeT) (tasks : List TaskStruct)

/- Exact size in bytes of one column over all processes. -/
def totalBytes : ℕ := ((spaces tasks).map fun mm => (pages mm).toNat * 4096).sum

/- Pages of one column beyond the last whole MB of each process. -/
def cutOff : ℕ := ((spaces tasks).map fun mm => (pages mm).toNat % 256).sum

/- A successful call leaves the exact total, rounded down once, at `offset` in
the structure of the caller. -/
def FigureExact (offset : ℕ) : Prop :=
  ∀ (accepted dst : ℕ) (mem : Memory), (luisResumenTotal tasks accepted dst).ret = 0 →
    (load 64 (commit mem (luisResumenTotal tasks accepted dst).writes) (dst + offset)).toNat =
      totalBytes pages tasks / 2 ^ 20

theorem totalBytes_eq :
    totalBytes pages tasks = ((spaces tasks).map fun mm => (pages mm).toNat).sum * 4096 := by
  rw [totalBytes, List.sum_map_mul_right]

theorem pages_lt_of_totalBytes (h : totalBytes pages tasks < 2 ^ 64) {mm : MmStruct}
    (hm : mm ∈ spaces tasks) : (pages mm).toNat < 2 ^ 52 := by
  have hle : (pages mm).toNat * 4096 ≤ totalBytes pages tasks :=
    List.le_sum_of_mem (List.mem_map_of_mem (f := fun mm => (pages mm).toNat * 4096) hm)
  omega

theorem figure_exact_iff (h : totalBytes pages tasks < 2 ^ 64) (figure : SizeT)
    (hf : figure.toNat = ((spaces tasks).map fun mm => (pages mm).toNat / 256).sum % 2 ^ 64) :
    figure.toNat = totalBytes pages tasks / 2 ^ 20 ↔ cutOff pages tasks < 256 := by
  have hsum := sum_div_le (fun mm => (pages mm).toNat) 256 (spaces tasks)
  rw [totalBytes_eq] at h
  have hmb : totalBytes pages tasks / 2 ^ 20 =
      ((spaces tasks).map fun mm => (pages mm).toNat).sum / 256 := by
    rw [totalBytes_eq]
    omega
  rw [hf, hmb, Nat.mod_eq_of_lt (by omega), cutOff]
  exact sum_div_eq_iff (fun mm => (pages mm).toNat) 256 (spaces tasks) (by decide)

theorem figureExact_iff_delivered (offset : ℕ) (figure : SizeT)
    (hd : ∀ (accepted dst : ℕ) (mem : Memory), (luisResumenTotal tasks accepted dst).ret = 0 →
      load 64 (commit mem (luisResumenTotal tasks accepted dst).writes) (dst + offset) = figure) :
    FigureExact pages tasks offset ↔ figure.toNat = totalBytes pages tasks / 2 ^ 20 := by
  constructor
  · intro h
    have hs := luisResumenTotal_succeeds tasks le_rfl 0
    rw [← hd 16 0 (fun _ => 0) hs]
    exact h 16 0 _ hs
  · intro h accepted dst mem hs
    rw [hd accepted dst mem hs]
    exact h

end Totals

theorem reserved_exact_iff (tasks : List TaskStruct) (hr : totalBytes getMmRss tasks < 2 ^ 64) :
    FigureExact getMmRss tasks 0 ↔ cutOff getMmRss tasks < 256 := by
  rw [← figure_exact_iff getMmRss tasks hr _
    (sysSummary_figure .reserved tasks fun _ hm => pages_lt_of_totalBytes _ tasks hr hm)]
  exact figureExact_iff_delivered getMmRss tasks 0 _ fun accepted dst mem hs =>
    (summary_delivered tasks accepted dst mem hs).1

theorem committed_exact_iff (tasks : List TaskStruct) (hv : totalBytes MmStruct.totalVm tasks < 2 ^ 64) :
    FigureExact MmStruct.totalVm tasks 8 ↔ cutOff MmStruct.totalVm tasks < 256 := by
  rw [← figure_exact_iff MmStruct.totalVm tasks hv _
    (sysSummary_figure .committed tasks fun _ hm => pages_lt_of_totalBytes _ tasks hv hm)]
  exact figureExact_iff_delivered MmStruct.totalVm tasks 8 _ fun accepted dst mem hs =>
    (summary_delivered tasks accepted dst mem hs).2

/- Each column on its own: reserved at offset 0, committed at offset 8. -/
theorem resumen_total_exact_iff (tasks : List TaskStruct)
    (hr : totalBytes getMmRss tasks < 2 ^ 64) (hv : totalBytes MmStruct.totalVm tasks < 2 ^ 64) :
    (FigureExact getMmRss tasks 0 ↔ cutOff getMmRss tasks < 256) ∧
    (FigureExact MmStruct.totalVm tasks 8 ↔ cutOff MmStruct.totalVm tasks < 256) :=
  ⟨reserved_exact_iff tasks hr, committed_exact_iff tasks hv⟩

theorem resumen_total_exact_two_processes :
    FigureExact getMmRss [⟨some ⟨600, 300⟩⟩, ⟨none⟩, ⟨some ⟨300, 100⟩⟩] 0 ∧
    FigureExact MmStruct.totalVm [⟨some ⟨600, 300⟩⟩, ⟨none⟩, ⟨some ⟨300, 100⟩⟩] 8 := by
  have h := resumen_total_exact_iff [⟨some ⟨600, 300⟩⟩, ⟨none⟩, ⟨some ⟨300, 100⟩⟩]
    (by decide) (by decide)
  exact ⟨h.1.mpr (by decide), h.2.mpr (by decide)⟩

/- Four processes of 200 resident pages hold 3 MB, and the summary says 0. -/
theorem resumen_total_loses_small_processes :
    sysSummary (List.replicate 4 ⟨some ⟨255, 200⟩⟩) = ⟨0, 0⟩ ∧
    totalBytes getMmRss (List.replicate 4 ⟨some ⟨255, 200⟩⟩) / 2 ^ 20 = 3 ∧
    ¬∀ tasks : List TaskStruct, totalBytes getMmRss tasks < 2 ^ 64 →
      totalBytes MmStruct.totalVm tasks < 2 ^ 64 →
      FigureExact getMmRss tasks 0 ∧ FigureExact MmStruct.totalVm tasks 8 := by
  refine ⟨by decide, by decide, ?_⟩
  intro h
  have hx := (h (List.replicate 4 ⟨some ⟨255, 200⟩⟩) (by decide) (by decide)).1
  have hc := (reserved_exact_iff _ (by decide)).mp hx
  revert hc
  decide

end UsacLinux.MemoryReport
