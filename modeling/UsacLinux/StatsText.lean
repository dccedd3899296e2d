import UsacLinux.StatsModule
import UsacLinux.Lib.ScanGrammar

/-!
# The texts the statistics module reads

With the `sscanf` of the kernel: which contents of /proc/stat leave no counter
to the stack, and that the figures printed are those of the two files, whatever
the counters and whatever stands behind the lines the module looks at. The
lines are as the kernel prints them, numbers in decimal and right-aligned in
/proc/meminfo.
-/

namespace UsacLinux.StatsModule
open Kernel Lib.ByteMemory Lib.Checked Lib.Scan

/-! ### Texts that leave nothing to the stack -/

theorem lead_cpuFormat : lead cpuFormat = cpuFormat := by decide

/- Two stacks that give different results when the last counter is not assigned. -/
theorem stack_matters {values : List SizeT} (h : values.length < 8) :
    ∃ stack stack' : CpuTimes,
      (stack.assign values).usage = .error .dividesByZero ∧
      ∃ percent, (stack'.assign values).usage = .ok percent := by
  have hz := zeroingStack_total h
  let stack' : CpuTimes := { zeroingStack values with steal := (zeroingStack values).steal + 1 }
  have hone : (stack'.assign values).total = ((zeroingStack values).assign values).total + 1 := by
    have h1 : (stack'.assign values).steal = (zeroingStack values).steal + 1 :=
      List.getD_eq_default _ _ (by omega)
    have h2 : ((zeroingStack values).assign values).steal = (zeroingStack values).steal :=
      List.getD_eq_default _ _ (by omega)
    rw [CpuTimes.total, CpuTimes.total, h1, h2, ← BitVec.add_assoc]
    rfl
  refine ⟨zeroingStack values, stack', usage_zero hz, _, usage_ok ?_⟩
  rw [hone, hz]
  decide

/- A text that is not `cpu` and eight numbers leaves the result to the stack. -/
theorem cpuSection_of_no_match {stat : ProcFile} {buf : List Byte} (ht : stat.text = some buf)
    (h : ¬∃ ns, Matches cpuFormat ns buf) :
    (∃ stack, cpuSection (.kernel 64) stat stack = .error .dividesByZero) ∧
    ∃ stack percent, cpuSection (.kernel 64) stat stack = .ok (.cpuUsage percent) := by
  have hiff := scan_complete_iff 64 cpuFormat buf
  rw [lead_cpuFormat, cpuFormat_conversions] at hiff
  rw [← hiff] at h
  have hle := scan_length_le 64 cpuFormat buf
  rw [cpuFormat_conversions] at hle
  obtain ⟨stack, stack', he, percent, hp⟩ :=
    stack_matters (show (scan 64 cpuFormat buf).length < 8 by omega)
  refine ⟨⟨stack, ?_⟩, stack', percent, ?_⟩
  · rw [cpuSection_text _ stat ht, kernel_assigned, he]
    rfl
  · rw [cpuSection_text _ stat ht, kernel_assigned, hp]
    rfl

theorem cpuSection_of_match {stat : ProcFile} {buf : List Byte} (ht : stat.text = some buf)
    {ns : List ℕ} (h : Matches cpuFormat ns buf) :
    ∃ c : CpuTimes, ∀ stack, cpuSection (.kernel 64) stat stack = c.usage.map .cpuUsage := by
  have hl := (scan_complete_iff 64 cpuFormat buf).mpr ⟨ns, by rw [lead_cpuFormat]; exact h⟩
  rw [cpuFormat_conversions] at hl
  obtain ⟨c, hc⟩ := exists_values hl
  exact ⟨c, cpuSection_values (.kernel 64) stat ht hc⟩

/- The section prints the same for every content of the stack exactly when there
is no text or the text begins with `cpu` and eight numbers. On every other text
some stacks make it divide by zero and others make it print a percentage. -/
theorem cpu_section_stack_free_iff (stat : ProcFile) :
    ((∀ stack stack', cpuSection (.kernel 64) stat stack = cpuSection (.kernel 64) stat stack') ↔
      ∀ buf, stat.text = some buf → ∃ ns, Matches cpuFormat ns buf) ∧
    (∀ buf, stat.text = some buf → (¬∃ ns, Matches cpuFormat ns buf) →
      (∃ stack, cpuSection (.kernel 64) stat stack = .error .dividesByZero) ∧
      ∃ stack percent, cpuSection (.kernel 64) stat stack = .ok (.cpuUsage percent)) := by
  refine ⟨⟨fun h buf ht => ?_, fun h stack stack' => ?_⟩, fun buf ht => cpuSection_of_no_match ht⟩
  · by_contra hne
    obtain ⟨⟨stack, he⟩, stack', percent, hp⟩ := cpuSection_of_no_match ht hne
    have hs := h stack stack'
    rw [he, hp] at hs
    cases hs
  · cases ht : stat.text with
    | none =>
      rcases cpuSection_no_text (.kernel 64) stat ht with he | he
      · rw [he, he]
      · rw [he, he]
    | some buf =>
      obtain ⟨ns, hm⟩ := h buf ht
      obtain ⟨c, hc⟩ := cpuSection_of_match ht hm
      rw [hc, hc]

/-! ### What the buffer holds -/

/- The part of a file in front of which the buffer ends is all that is scanned. -/
theorem text_front (front rest : List Byte) (hne : front ≠ []) (hlen : front.length ≤ readLimit)
    (hnul : ∀ b ∈ front, b ≠ 0) :
    ∃ tail, (ProcFile.contents (front ++ rest)).text = some (front ++ tail) := by
  cases hf : front with
  | nil => exact absurd hf hne
  | cons b bs =>
    rw [← hf]
    refine ⟨cString (rest.take (readLimit - front.length)), ?_⟩
    have htake : (front ++ rest).take readLimit = front ++ rest.take (readLimit - front.length) := by
      rw [List.take_append, List.take_of_length_le hlen]
    have hpos : ∀ b ∈ front, decide (b ≠ 0) = true := fun b hb => decide_eq_true (hnul b hb)
    have htext : (ProcFile.contents (front ++ rest)).text =
        some (cString ((front ++ rest).take readLimit)) := by
      rw [hf]
      rfl
    rw [htext, htake, cString, List.takeWhile_append_of_pos hpos, cString]

/-! ### /proc/stat -/

/- Each number behind one blank. -/
def columns (ns : List ℕ) : List Byte := ns.flatMap fun n => 32 :: decimalText n

/- "cpu  " and the counters, with one more column to follow. -/
def statLine (c : CpuTimes) : List Byte :=
  chars ['c', 'p', 'u', ' '] ++ (columns (c.values.map BitVec.toNat) ++ [32])

theorem matches_columns (ns : List ℕ) {rest : List Byte} (hrest : Ends isDigit rest) :
    Matches (List.replicate ns.length [.space, .unsigned]).flatten ns (columns ns ++ rest) := by
  induction ns with
  | nil => exact .nil rest
  | cons n ns ih =>
    have hends : Ends isDigit (columns ns ++ rest) := by
      cases ns with
      | nil => exact hrest
      | cons m ns =>
        intro b hb
        cases hb
        decide
    have h := Matches.number 1 n hends ih
    simpa [columns, List.replicate_succ] using h

theorem columns_nonzero (ns : List ℕ) : ∀ b ∈ columns ns, b ≠ 0 := by
  intro b hb
  obtain ⟨n, -, hb⟩ := List.mem_flatMap.mp hb
  rcases List.mem_cons.mp hb with rfl | hb
  · decide
  · exact digit_ne_zero (isDigit_decimalText n b hb)

theorem columns_length_le (ns : List ℕ) (h : ∀ n ∈ ns, n < 10 ^ 20) :
    (columns ns).length ≤ 21 * ns.length := by
  induction ns with
  | nil => simp [columns]
  | cons n ns ih =>
    have hn := decimalText_length_le (show 0 < 20 by omega) (h n (by simp))
    have hr := ih fun m hm => h m (by simp [hm])
    simp only [columns, List.flatMap_cons, List.length_append, List.length_cons] at hr ⊢
    omega

theorem statLine_length_le (c : CpuTimes) : (statLine c).length ≤ 173 := by
  have h := columns_length_le (c.values.map BitVec.toNat) (by
    intro n hn
    obtain ⟨v, -, rfl⟩ := List.mem_map.mp hn
    exact v.isLt.trans (by decide))
  simp only [statLine, List.length_append, chars, List.length_map,
    CpuTimes.values, List.length_cons, List.length_nil] at h ⊢
  omega

theorem statLine_nonzero (c : CpuTimes) : ∀ b ∈ statLine c, b ≠ 0 := by
  intro b hb
  simp only [statLine, List.mem_append, List.mem_singleton] at hb
  rcases hb with hb | hb | rfl
  · revert b
    decide
  · exact columns_nonzero _ b hb
  · decide

theorem matches_statLine (c : CpuTimes) (tail : List Byte) :
    Matches cpuFormat (c.values.map BitVec.toNat) (statLine c ++ tail) := by
  have hends : Ends isDigit ([32] ++ tail) := by
    intro b hb
    cases hb
    decide
  have hcols := matches_columns (c.values.map BitVec.toNat) hends
  have hlit := Matches.literals ['c', 'p', 'u'] hcols.blank
  simpa [statLine, cpuFormat, chars] using hlit

theorem ofNat_toNat_map (vs : List SizeT) : (vs.map BitVec.toNat).map (BitVec.ofNat 64) = vs := by
  rw [List.map_map]
  refine (List.map_congr_left fun v _ => ?_).trans (List.map_id vs)
  simp

theorem cpuSection_statLine (c : CpuTimes) (rest : List Byte) (stack : CpuTimes) :
    cpuSection (.kernel 64) (.contents (statLine c ++ rest)) stack = c.usage.map .cpuUsage := by
  have hlen := statLine_length_le c
  obtain ⟨tail, ht⟩ := text_front (statLine c) rest (by simp [statLine, chars])
    (hlen.trans (by decide)) (statLine_nonzero c)
  refine cpuSection_values (.kernel 64) _ ht ?_ stack
  have hm := matches_statLine c tail
  rw [← lead_cpuFormat] at hm
  rw [kernel_assigned, scan_of_lead hm, ofNat_toNat_map]

/- The printed number is the quotient of the sums, rounded down, as long as a
hundred times the sum fits the word. -/
theorem usage_exact (c : CpuTimes) (sum : ℕ) (hsum : (c.values.map BitVec.toNat).sum = sum)
    (hpos : 0 < sum) (hfit : 100 * sum < 2 ^ 64) :
    ∃ percent, c.usage = .ok percent ∧ percent.toNat = 100 * (sum - c.idle.toNat) / sum ∧
      percent.toNat ≤ 100 := by
  have ht : c.total.toNat = sum := by
    rw [total_toNat, ← hsum]
    simp only [CpuTimes.values, List.map_cons, List.map_nil, List.sum_cons, List.sum_nil] at hsum ⊢
    omega
  have hidle : c.idle.toNat ≤ sum := by
    rw [← hsum]
    simp only [CpuTimes.values, List.map_cons, List.map_nil, List.sum_cons, List.sum_nil]
    omega
  have hne : c.total ≠ 0 := by
    intro hz
    rw [hz, zero_toNat] at ht
    omega
  have hc : (100 : SizeT).toNat = 100 := rfl
  have hp : ((c.total - c.idle) * 100 / c.total).toNat = 100 * (sum - c.idle.toNat) / sum := by
    rw [BitVec.toNat_udiv, BitVec.toNat_mul, BitVec.toNat_sub, hc, ht]
    congr 1
    omega
  refine ⟨_, usage_ok hne, hp, ?_⟩
  rw [hp]
  exact Nat.div_le_of_le_mul (by rw [Nat.mul_comm sum]; exact Nat.mul_le_mul_left 100 (Nat.sub_le ..))

/-! ### /proc/meminfo -/

/- A number in a field of eight, followed by its unit. -/
def memField (blanks n : ℕ) : List Byte :=
  List.replicate (blanks + (8 - (decimalText n).length)) 32 ++ (decimalText n ++ chars [' ', 'k', 'B', '\n'])

/- The first two lines. -/
def memLines (totalKb freeKb : SizeT) : List Byte :=
  chars ['M', 'e', 'm', 'T', 'o', 't', 'a', 'l', ':'] ++ (memField 7 totalKb.toNat ++
    (chars ['M', 'e', 'm', 'F', 'r', 'e', 'e', ':'] ++ memField 8 freeKb.toNat))

theorem memField_length_le (blanks : ℕ) (v : SizeT) : (memField blanks v.toNat).length ≤ blanks + 32 := by
  have hv := decimalText_length_le (show 0 < 20 by omega) (v.isLt.trans (by decide))
  simp only [memField, List.length_append, List.length_replicate, chars, List.length_map,
    List.length_cons, List.length_nil]
  omega

theorem memField_nonzero (blanks n : ℕ) : ∀ b ∈ memField blanks n, b ≠ 0 := by
  intro b hb
  simp only [memField, List.mem_append] at hb
  rcases hb with hb | hb | hb
  · rw [(List.mem_replicate.mp hb).2]
    decide
  · exact digit_ne_zero (isDigit_decimalText n b hb)
  · revert b
    decide

theorem memLines_nonzero (t f : SizeT) : ∀ b ∈ memLines t f, b ≠ 0 := by
  intro b hb
  simp only [memLines, List.mem_append] at hb
  rcases hb with hb | hb | hb | hb
  · revert b
    decide
  · exact memField_nonzero 7 _ b hb
  · revert b
    decide
  · exact memField_nonzero 8 _ b hb

theorem memLines_length_le (t f : SizeT) : (memLines t f).length ≤ 96 := by
  have ht := memField_length_le 7 t
  have hf := memField_length_le 8 f
  simp only [memLines, List.length_append, chars, List.length_map, List.length_cons, List.length_nil]
  omega

/- The format up to its second conversion. -/
theorem lead_memFormat : lead memFormat =
    literals ['M', 'e', 'm', 'T', 'o', 't', 'a', 'l', ':'] ++ (.space :: .unsigned :: .space ::
      (literals ['k', 'B'] ++ (.space :: (literals ['M', 'e', 'm', 'F', 'r', 'e', 'e', ':'] ++
        [.space, .unsigned])))) := by decide

theorem matches_memLines (t f : SizeT) (tail : List Byte) :
    Matches (lead memFormat) [t.toNat, f.toNat] (memLines t f ++ tail) := by
  have hends (b : Byte) (hb : isDigit b = false) (rest : List Byte) : Ends isDigit (b :: rest) := by
    intro x hx
    cases hx
    exact hb
  have hfree := Matches.number (8 + (8 - (decimalText f.toNat).length)) f.toNat
    (hends 32 (by decide) (chars ['k', 'B', '\n'] ++ tail)) (.nil _)
  have hlabel := Matches.literals ['M', 'e', 'm', 'F', 'r', 'e', 'e', ':'] hfree
  have hline := Matches.space (chars ['\n']) (by decide) (by intro b hb; cases hb; decide) hlabel
  have hunit := Matches.space [32] (by decide) (by intro b hb; cases hb; decide)
    (Matches.literals ['k', 'B'] hline)
  have htotal := Matches.number (7 + (8 - (decimalText t.toNat).length)) t.toNat
    (hends 32 (by decide) _) hunit
  have h := Matches.literals ['M', 'e', 'm', 'T', 'o', 't', 'a', 'l', ':'] htotal
  rw [lead_memFormat]
  simpa [memLines, memField, chars, List.append_assoc] using h

theorem memorySection_text {meminfo : ProcFile} {buf : List Byte} (sscanf : Scanner 64) {t f : SizeT}
    (h : meminfo.text = some buf) (hv : sscanf.assigned memFormat buf = [t, f]) :
    memorySection sscanf meminfo = [.memoryTotal t, .memoryFree f] := by
  rw [memorySection, h]
  simp only [hv, List.getD_cons_zero, List.getD_cons_succ]

theorem memorySection_memLines (t f : SizeT) (rest : List Byte) :
    memorySection (.kernel 64) (.contents (memLines t f ++ rest)) = [.memoryTotal t, .memoryFree f] := by
  have hlen := memLines_length_le t f
  obtain ⟨tail, ht⟩ := text_front (memLines t f) rest (by simp [memLines, chars])
    (hlen.trans (by decide)) (memLines_nonzero t f)
  refine memorySection_text (.kernel 64) ht ?_
  rw [kernel_assigned, scan_of_lead (matches_memLines t f tail)]
  exact ofNat_toNat_map [t, f]

/-! ### The whole report -/

/- For all counters, sizes, further contents of the two files and stacks: the
call prints the figures of the files, or divides by zero when the counters sum
to 0 modulo 2^64. -/
theorem stats_report_round_trip (c : CpuTimes) (totalKb freeKb : SizeT)
    (root : Option (Option Kstatfs)) (statRest memRest : List Byte) :
    (∀ stack, mostrarEstadisticas ⟨.kernel 64, .contents (statLine c ++ statRest),
        .contents (memLines totalKb freeKb ++ memRest), root⟩ stack =
      c.usage.map fun percent => (0, String.join ((.cpuUsage percent :: .memoryTotal totalKb ::
        .memoryFree freeKb :: storageSection root).map Line.print))) ∧
    (c.usage = .error .dividesByZero ↔ (c.values.map BitVec.toNat).sum % 2 ^ 64 = 0) ∧
    (∀ sum, (c.values.map BitVec.toNat).sum = sum → 0 < sum → 100 * sum < 2 ^ 64 →
      ∃ percent, c.usage = .ok percent ∧ percent.toNat = 100 * (sum - c.idle.toNat) / sum ∧
        percent.toNat ≤ 100) := by
  refine ⟨fun stack => ?_, ?_, usage_exact c⟩
  · simp only [mostrarEstadisticas, cpuSection_statLine, memorySection_memLines]
    cases c.usage with
    | error e => rfl
    | ok percent => rfl
  · have ht : c.total.toNat = (c.values.map BitVec.toNat).sum % 2 ^ 64 := by
      rw [total_toNat]
      simp only [CpuTimes.values, List.map_cons, List.map_nil, List.sum_cons, List.sum_nil]
      congr 1
      omega
    rw [← ht]
    constructor
    · intro he
      by_contra hne
      rw [usage_ok (fun hz => hne (by rw [hz, zero_toNat]))] at he
      cases he
    · intro hz
      exact usage_zero (BitVec.eq_of_toNat_eq (by rw [hz, zero_toNat]))

end UsacLinux.StatsModule
