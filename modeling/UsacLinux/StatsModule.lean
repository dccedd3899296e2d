import UsacLinux.Kernel
import UsacLinux.Lib.Checked
import UsacLinux.Lib.Scan
import Mathlib.Data.List.GetD

/-!
# The statistics module (test/modulo/modulo_cpu_ram/stats_module.c)

`mostrar_estadisticas` prints CPU, memory and storage figures. It reads
/proc/stat and /proc/meminfo through `sscanf` and ignores how many conversions
were assigned. The variables of the memory section start at 0; the eight CPU
counters start with whatever the stack holds.
-/

namespace UsacLinux.StatsModule
open Kernel Lib.ByteMemory Lib.Checked Lib.Scan

/- `filp_open` fails, `kernel_read` fails, or the file has these bytes. -/
inductive ProcFile where
  | openError
  | readError
  | contents (bytes : List Byte)
  deriving DecidableEq

/- The buffer has 256 bytes and the last one is kept for the NUL. -/
def readLimit : ℕ := 255

/- The text in the buffer when `read_bytes` is positive. -/
def ProcFile.text : ProcFile → Option (List Byte)
  | .contents (b :: bytes) => some (cString ((b :: bytes).take readLimit))
  | _ => none

inductive Line where
  | statError
  | cpuUsage (percent : SizeT)
  | cpuError
  | memoryTotal (kb : SizeT)
  | memoryFree (kb : SizeT)
  | storageTotal (kb : SizeT)
  | storageFree (kb : SizeT)
  | storageError
  | pathError
  deriving DecidableEq, Repr

def Line.print : Line → String
  | .statError => "Error leyendo /proc/stat\n"
  | .cpuUsage percent => "CPU Usage: " ++ toString percent.toNat ++ "%\n"
  | .cpuError => "Error leyendo datos de CPU\n"
  | .memoryTotal kb => "Memory Total: " ++ toString kb.toNat ++ " KB\n"
  | .memoryFree kb => "Memory Free: " ++ toString kb.toNat ++ " KB\n"
  | .storageTotal kb => "Storage Total: " ++ toString kb.toNat ++ " KB\n"
  | .storageFree kb => "Storage Free: " ++ toString kb.toNat ++ " KB\n"
  | .storageError => "Error obteniendo estadísticas de almacenamiento\n"
  | .pathError => "Error obteniendo el path para /\n"

/-! ### CPU -/

structure CpuTimes where
  user : SizeT
  nice : SizeT
  system : SizeT
  idle : SizeT
  iowait : SizeT
  irq : SizeT
  softirq : SizeT
  steal : SizeT
  deriving DecidableEq, Repr

/- "cpu %llu %llu %llu %llu %llu %llu %llu %llu" -/
def cpuFormat : List Directive :=
  literals ['c', 'p', 'u'] ++ (List.replicate 8 [.space, .unsigned]).flatten

/- The variables behind the last assigned conversion keep their values. -/
def CpuTimes.assign (c : CpuTimes) (values : List SizeT) : CpuTimes where
  user := values.getD 0 c.user
  nice := values.getD 1 c.nice
  system := values.getD 2 c.system
  idle := values.getD 3 c.idle
  iowait := values.getD 4 c.iowait
  irq := values.getD 5 c.irq
  softirq := values.getD 6 c.softirq
  steal := values.getD 7 c.steal

def CpuTimes.total (c : CpuTimes) : SizeT :=
  c.user + c.nice + c.system + c.idle + c.iowait + c.irq + c.softirq + c.steal

/- Lines 40-42. -/
def CpuTimes.usage (c : CpuTimes) : Except Fault SizeT :=
  let total := c.total
  let busy := total - c.idle
  div (busy * 100) total

/- Lines 27-45; `stack` is what the counters hold before the call. -/
def cpuSection (sscanf : Scanner 64) (stat : ProcFile) (stack : CpuTimes) : Except Fault Line :=
  match stat with
  | .openError => .ok .statError
  | _ => match stat.text with
    | none => .ok .cpuError
    | some buf => do
      let percent ← (stack.assign (sscanf.assigned cpuFormat buf)).usage
      .ok (.cpuUsage percent)

/-! ### Memory and storage -/

/- "MemTotal: %lu kB\nMemFree: %lu kB\n" -/
def memFormat : List Directive :=
  literals ['M', 'e', 'm', 'T', 'o', 't', 'a', 'l', ':'] ++ [.space, .unsigned, .space] ++
    literals ['k', 'B'] ++ [.space] ++ literals ['M', 'e', 'm', 'F', 'r', 'e', 'e', ':'] ++
    [.space, .unsigned, .space] ++ literals ['k', 'B'] ++ [.space]

/- Lines 47-62. -/
def memorySection (sscanf : Scanner 64) (meminfo : ProcFile) : List Line :=
  let values := match meminfo.text with
    | none => []
    | some buf => sscanf.assigned memFormat buf
  [.memoryTotal (values.getD 0 0), .memoryFree (values.getD 1 0)]

structure Kstatfs where
  fBlocks : SizeT
  fBfree : SizeT
  fBsize : SizeT

/- Lines 64-80; `none` when `kern_path` fails, `some none` when `vfs_statfs` does. -/
def storageSection : Option (Option Kstatfs) → List Line
  | none => [.pathError]
  | some none => [.storageError]
  | some (some stat) =>
    [.storageTotal ((stat.fBlocks * stat.fBsize) >>> 10), .storageFree ((stat.fBfree * stat.fBsize) >>> 10)]

structure StatsEnv where
  sscanf : Scanner 64
  stat : ProcFile
  meminfo : ProcFile
  root : Option (Option Kstatfs)

/- Result and text of the seq file; a division by zero ends the call in an oops. -/
def mostrarEstadisticas (env : StatsEnv) (stack : CpuTimes) : Except Fault (ℤ × String) := do
  let cpu ← cpuSection env.sscanf env.stat stack
  if cpu = .statError then .ok (-1, cpu.print)
  else
    let lines := cpu :: (memorySection env.sscanf env.meminfo ++ storageSection env.root)
    .ok (0, String.join (lines.map Line.print))

/-! ### One computation of the percentage -/

theorem total_toNat (c : CpuTimes) : c.total.toNat =
    (c.user.toNat + c.nice.toNat + c.system.toNat + c.idle.toNat + c.iowait.toNat + c.irq.toNat +
      c.softirq.toNat + c.steal.toNat) % 2 ^ 64 := by
  simp only [CpuTimes.total, BitVec.toNat_add]
  omega

theorem usage_zero {c : CpuTimes} (h : c.total = 0) : c.usage = .error .dividesByZero := by
  rw [CpuTimes.usage, h]
  rfl

theorem usage_ok {c : CpuTimes} (h : c.total ≠ 0) :
    c.usage = .ok ((c.total - c.idle) * 100 / c.total) := div_ok h

/- With `idle` at most the total, busy time is at most the total as well, and a
product that wraps only gets smaller. -/
theorem percent_le_iff (total idle : SizeT) (h : total ≠ 0) :
    ((total - idle) * 100 / total).toNat ≤ 100 ↔
      idle.toNat ≤ total.toNat ∨
        100 * (2 ^ 64 + total.toNat - idle.toNat) % 2 ^ 64 < 101 * total.toNat := by
  have hc : (100 : SizeT).toNat = 100 := rfl
  have ht := total.isLt
  have hi := idle.isLt
  have hpos : 0 < total.toNat := BitVec.toNat_pos_of_ne_zero h
  have hprod : ((total - idle) * 100).toNat =
      100 * (2 ^ 64 + total.toNat - idle.toNat) % 2 ^ 64 := by
    rw [BitVec.toNat_mul, BitVec.toNat_sub, hc]
    omega
  rw [BitVec.toNat_udiv, hprod, ← Nat.lt_succ_iff, Nat.div_lt_iff_lt_mul hpos]
  constructor
  · exact Or.inr
  · rintro (hle | hlt)
    · have hwrap : 100 * (2 ^ 64 + total.toNat - idle.toNat) % 2 ^ 64 ≤
          100 * (total.toNat - idle.toNat) := by omega
      show _ < 101 * total.toNat
      omega
    · exact hlt

/-! ### Counters the parse has not assigned -/

def CpuTimes.values (c : CpuTimes) : List SizeT :=
  [c.user, c.nice, c.system, c.idle, c.iowait, c.irq, c.softirq, c.steal]

theorem assign_values (stack c : CpuTimes) : stack.assign c.values = c := rfl

theorem exists_values {values : List SizeT} (h : values.length = 8) :
    ∃ c : CpuTimes, values = c.values := by
  match values, h with
  | [a, b, c, d, e, f, g, i], _ => exact ⟨⟨a, b, c, d, e, f, g, i⟩, rfl⟩

/- The stack that makes the total 0 when the last counter is not assigned. -/
def zeroingStack (values : List SizeT) : CpuTimes :=
  ⟨0, 0, 0, 0, 0, 0, 0,
    -(values.getD 0 0 + values.getD 1 0 + values.getD 2 0 + values.getD 3 0 + values.getD 4 0 +
      values.getD 5 0 + values.getD 6 0)⟩

theorem zeroingStack_total {values : List SizeT} (h : values.length < 8) :
    ((zeroingStack values).assign values).total = 0 := by
  have hsteal : ((zeroingStack values).assign values).steal = (zeroingStack values).steal :=
    List.getD_eq_default _ _ (by omega)
  rw [CpuTimes.total, hsteal]
  exact add_neg_cancel _

theorem cpuFormat_conversions : conversions cpuFormat = 8 := by decide

/-! ### The section as a whole -/

section Section

variable (sscanf : Scanner 64) (stat : ProcFile)

theorem cpuSection_text {buf : List Byte} (h : stat.text = some buf) (stack : CpuTimes) :
    cpuSection sscanf stat stack =
      (stack.assign (sscanf.assigned cpuFormat buf)).usage.map .cpuUsage := by
  cases stat with
  | openError => cases h
  | readError => cases h
  | contents bytes =>
    simp only [cpuSection, h]
    cases (stack.assign (sscanf.assigned cpuFormat buf)).usage with
    | error e => rfl
    | ok percent => rfl

theorem cpuSection_no_text (h : stat.text = none) :
    (∀ stack, cpuSection sscanf stat stack = .ok .statError) ∨
      ∀ stack, cpuSection sscanf stat stack = .ok .cpuError := by
  cases stat with
  | openError => exact Or.inl fun _ => rfl
  | readError => exact Or.inr fun _ => rfl
  | contents bytes => exact Or.inr fun _ => by simp only [cpuSection, h]

/- For every content of the stack the section reports an error or prints a
percentage, and it is the same for all of them. -/
structure CpuSafe : Prop where
  reports : ∀ stack, cpuSection sscanf stat stack = .ok .statError ∨
    cpuSection sscanf stat stack = .ok .cpuError ∨
    ∃ percent : SizeT, percent.toNat ≤ 100 ∧
      cpuSection sscanf stat stack = .ok (.cpuUsage percent)
  determined : ∀ stack stack', cpuSection sscanf stat stack = cpuSection sscanf stat stack'

/- The sum of the counters modulo 2^64 is not 0, and it has not wrapped below
`idle` in a way that shows as more than 100 percent. -/
def CountersUsable (c : CpuTimes) : Prop :=
  let total := (c.user.toNat + c.nice.toNat + c.system.toNat + c.idle.toNat + c.iowait.toNat +
    c.irq.toNat + c.softirq.toNat + c.steal.toNat) % 2 ^ 64
  total ≠ 0 ∧ (c.idle.toNat ≤ total ∨ 100 * (2 ^ 64 + total - c.idle.toNat) % 2 ^ 64 < 101 * total)

/- There is no text, or all eight counters are read from it and are usable. -/
def StatUsable : Prop :=
  stat.text = none ∨ ∃ buf c, stat.text = some buf ∧
    sscanf.assigned cpuFormat buf = CpuTimes.values c ∧ CountersUsable c

theorem countersUsable_iff (c : CpuTimes) : CountersUsable c ↔
    c.total ≠ 0 ∧ ((c.total - c.idle) * 100 / c.total).toNat ≤ 100 := by
  have hz : c.total ≠ 0 ↔ c.total.toNat ≠ 0 := by
    rw [not_iff_not, ← BitVec.toNat_inj]
    rfl
  simp only [CountersUsable, ← total_toNat, ← hz]
  constructor
  · exact fun h => ⟨h.1, (percent_le_iff c.total c.idle h.1).mpr h.2⟩
  · exact fun h => ⟨h.1, (percent_le_iff c.total c.idle h.1).mp h.2⟩

/- With fewer than eight conversions some stack makes the total 0. -/
theorem CpuSafe.assigned {sscanf : Scanner 64} {stat : ProcFile} (h : CpuSafe sscanf stat)
    {buf : List Byte} (ht : stat.text = some buf) :
    (sscanf.assigned cpuFormat buf).length = 8 := by
  have hle := sscanf.length_le cpuFormat buf
  rw [cpuFormat_conversions] at hle
  by_contra hne
  have hr := h.reports (zeroingStack (sscanf.assigned cpuFormat buf))
  rw [cpuSection_text sscanf stat ht, usage_zero (zeroingStack_total (by omega))] at hr
  rcases hr with hr | hr | ⟨percent, -, hr⟩ <;> cases hr

theorem cpuSection_values {buf : List Byte} {c : CpuTimes} (ht : stat.text = some buf)
    (hv : sscanf.assigned cpuFormat buf = c.values) (stack : CpuTimes) :
    cpuSection sscanf stat stack = c.usage.map .cpuUsage := by
  rw [cpuSection_text sscanf stat ht, hv, assign_values]

theorem cpu_section_safe_iff : CpuSafe sscanf stat ↔ StatUsable sscanf stat := by
  constructor
  · intro h
    cases ht : stat.text with
    | none => exact Or.inl ht
    | some buf =>
      obtain ⟨c, hc⟩ := exists_values (h.assigned ht)
      refine Or.inr ⟨buf, c, ht, hc, (countersUsable_iff c).mpr ?_⟩
      have hr := h.reports c
      rw [cpuSection_values sscanf stat ht hc] at hr
      by_cases hz : c.total = 0
      · rw [usage_zero hz] at hr
        rcases hr with hr | hr | ⟨percent, -, hr⟩ <;> cases hr
      · rw [usage_ok hz] at hr
        rcases hr with hr | hr | ⟨percent, hle, hr⟩
        · cases hr
        · cases hr
        · cases hr
          exact ⟨hz, hle⟩
  · rintro (hn | ⟨buf, c, ht, hc, hu⟩)
    · rcases cpuSection_no_text sscanf stat hn with he | he
      · exact ⟨fun stack => Or.inl (he stack), fun a b => (he a).trans (he b).symm⟩
      · exact ⟨fun stack => Or.inr (Or.inl (he stack)), fun a b => (he a).trans (he b).symm⟩
    · obtain ⟨hz, hle⟩ := (countersUsable_iff c).mp hu
      have hs := cpuSection_values sscanf stat ht hc
      refine ⟨fun stack => Or.inr (Or.inr ⟨_, hle, ?_⟩), fun a b => (hs a).trans (hs b).symm⟩
      rw [hs stack, usage_ok hz]
      rfl

end Section

example : cpuSection (.kernel 64)
    (.contents (chars ['c', 'p', 'u', ' ', ' ', '1', ' ', '2', ' ', '3', ' ', '4', ' ', '5', ' ', '6',
      ' ', '7', ' ', '1', '2', ' ', '0', '\n']))
    ⟨9, 9, 9, 9, 9, 9, 9, 9⟩ = .ok (.cpuUsage 90) := by decide

/- A line that ends after the first counter: the percentage is 100 or 50 as the
stack has it, and with another stack the division is by zero. -/
theorem cpu_section_reads_the_stack :
    let stat := ProcFile.contents (chars ['c', 'p', 'u', ' ', '7', '\n'])
    cpuSection (.kernel 64) stat ⟨0, 0, 0, 0, 0, 0, 0, 0⟩ = .ok (.cpuUsage 100) ∧
    cpuSection (.kernel 64) stat ⟨0, 0, 0, 7, 0, 0, 0, 0⟩ = .ok (.cpuUsage 50) ∧
    cpuSection (.kernel 64) stat ⟨0, 0, 0, 0, 0, 0, 0, -7⟩ = .error .dividesByZero ∧
    ¬∀ stat : ProcFile, CpuSafe (.kernel 64) stat := by
  refine ⟨by decide, by decide, by decide, ?_⟩
  intro h
  have hd := (h (.contents (chars ['c', 'p', 'u', ' ', '7', '\n']))).determined
    ⟨0, 0, 0, 0, 0, 0, 0, 0⟩ ⟨0, 0, 0, 7, 0, 0, 0, 0⟩
  revert hd
  decide

end UsacLinux.StatsModule
