import UsacLinux.MemoryReport
import UsacLinux.Lib.Checked

/-!
# The arithmetic of luis_recoleccion_general (syscall5.c:49-73)

Page counts are converted to KB, scaled by 100 or 1000 and divided, all in
unsigned 64-bit arithmetic, and the quotients are assigned to `int` variables.
The same computation with checked operations says which steps can lose value:
below 2^52 pages none but the last, the assignment of the score, and that one
only when the resident set is far larger than the memory of the machine.
-/

namespace UsacLinux.MemoryReport
open Kernel Lib.ByteMemory Lib.Checked Lib.Rounding

/-! ### The computation with its faults -/

def kbChecked (pages : SizeT) : Except Fault SizeT := do
  let bytes ← mul pages pageSize
  div bytes 1024

/- Lines 58-62 with factor 100, lines 69-73 with factor 1000. -/
def scaledChecked (factor used total : SizeT) : Except Fault PidT :=
  if 0 < total then do
    let product ← mul used factor
    let quotient ← div product total
    narrow 32 quotient
  else pure 0

def processInfoChecked (si : SysInfo) (mm : MmStruct) : Except Fault ProcessMemoryInfo := do
  let reservedMemory ← kbChecked mm.totalVm
  let committedMemory ← kbChecked (getMmRss mm)
  let percentageUsedMemory ← scaledChecked 100 committedMemory reservedMemory
  let totalMemory ← mul si.totalram (si.memUnit.setWidth 64)
  let totalMemoryKb ← div totalMemory 1024
  let oomScore ← scaledChecked 1000 committedMemory totalMemoryKb
  pure ⟨reservedMemory, committedMemory, committedMemory, oomScore, percentageUsedMemory⟩

/- The two scaled quotients of `processInfo`. -/
def scaled (factor used total : SizeT) : PidT :=
  if 0 < total then toInt32 (used * factor / total) else 0

theorem processInfo_eq (si : SysInfo) (mm : MmStruct) :
    processInfo si mm =
      ⟨pagesToKb mm.totalVm, pagesToKb mm.rss, pagesToKb mm.rss,
        scaled 1000 (pagesToKb mm.rss) (si.totalram * si.memUnit.setWidth 64 / 1024),
        scaled 100 (pagesToKb mm.rss) (pagesToKb mm.totalVm)⟩ := rfl

/-! ### A computation without faults is the computation of the source -/

theorem eq_of_kbChecked_ok {pages kb : SizeT} (h : kbChecked pages = .ok kb) :
    kb = pagesToKb pages := by
  obtain ⟨bytes, hm, hd⟩ := bind_eq_ok h
  rw [eq_of_div_ok hd, eq_of_mul_ok hm]
  rfl

theorem eq_of_scaledChecked_ok {factor used total : SizeT} {v : PidT}
    (h : scaledChecked factor used total = .ok v) : v = scaled factor used total := by
  unfold scaledChecked at h
  unfold scaled
  split at h
  next hpos =>
    obtain ⟨product, hm, h⟩ := bind_eq_ok h
    obtain ⟨quotient, hd, hn⟩ := bind_eq_ok h
    rw [if_pos hpos, eq_of_narrow_ok hn, eq_of_div_ok hd, eq_of_mul_ok hm]
    rfl
  next hpos =>
    rw [if_neg hpos]
    exact (Except.ok.inj h).symm

theorem eq_of_processInfoChecked_ok {si : SysInfo} {mm : MmStruct} {info : ProcessMemoryInfo}
    (h : processInfoChecked si mm = .ok info) : info = processInfo si mm := by
  obtain ⟨reserved, hr, h⟩ := bind_eq_ok h
  obtain ⟨committed, hc, h⟩ := bind_eq_ok h
  obtain ⟨percentage, hp, h⟩ := bind_eq_ok h
  obtain ⟨total, ht, h⟩ := bind_eq_ok h
  obtain ⟨totalKb, hk, h⟩ := bind_eq_ok h
  obtain ⟨score, ho, h⟩ := bind_eq_ok h
  rw [← Except.ok.inj h, processInfo_eq, eq_of_scaledChecked_ok ho, eq_of_scaledChecked_ok hp,
    eq_of_div_ok hk, eq_of_mul_ok ht, eq_of_kbChecked_ok hc, eq_of_kbChecked_ok hr]
  rfl

/-! ### One quotient -/

theorem kbChecked_ok {pages : SizeT} (h : pages.toNat < 2 ^ 52) :
    kbChecked pages = .ok (pagesToKb pages) := by
  have hp : pageSize.toNat = 4096 := rfl
  have hkb : (1024 : SizeT) ≠ 0 := by decide
  rw [kbChecked, mul_ok (by rw [hp]; omega)]
  exact div_ok hkb

theorem eq_zero_of_not_pos {total : SizeT} {t : ℕ} (ht : total.toNat = 4 * t)
    (h : ¬0 < total) : t = 0 := by
  rw [BitVec.lt_def, zero_toNat] at h
  omega

section Quotient

variable (factor : SizeT) {used total : SizeT} {u t : ℕ}
  (hu : used.toNat = 4 * u) (ht : total.toNat = 4 * t) (hf : 4 * u * factor.toNat < 2 ^ 64)

include hu ht hf

/- The factor 4 between pages and KB cancels. -/
theorem quotient_toNat : (used * factor / total).toNat = factor.toNat * u / t := by
  have hprod : (used * factor).toNat = 4 * (factor.toNat * u) := by
    rw [mul_toNat (by rw [hu]; exact hf), hu, Nat.mul_assoc, Nat.mul_comm u]
  rw [BitVec.toNat_udiv, hprod, ht, Nat.mul_div_mul_left _ _ (by decide)]

theorem scaledChecked_eq : scaledChecked factor used total =
    if factor.toNat * u / t < 2 ^ 31 then .ok (scaled factor used total) else .error .narrows := by
  have hq := quotient_toNat factor hu ht hf
  unfold scaledChecked scaled
  by_cases hpos : 0 < total
  · have hne : total ≠ 0 := (BitVec.pos_iff_ne_zero total).mp hpos
    rw [if_pos hpos, if_pos hpos, mul_ok (by rw [hu]; exact hf)]
    simp only [bind, Except.bind, div_ok hne, narrow, hq]
    rfl
  · rw [if_neg hpos, if_neg hpos, eq_zero_of_not_pos ht hpos, Nat.div_zero]
    rfl

theorem scaled_toInt (hb : factor.toNat * u / t < 2 ^ 31) :
    (scaled factor used total).toInt = (factor.toNat * u / t : ℕ) := by
  have hq := quotient_toNat factor hu ht hf
  unfold scaled
  by_cases hpos : 0 < total
  · rw [if_pos hpos, toInt32, narrow_toInt (by decide) (by rw [hq]; exact hb), hq]
  · rw [if_neg hpos, eq_zero_of_not_pos ht hpos, Nat.div_zero]
    rfl

end Quotient

/-! ### The whole report -/

/- Page counts below 2^52, and the unit `si_meminfo` reports in. -/
structure InRange (si : SysInfo) (mm : MmStruct) : Prop where
  rss_le : mm.rss.toNat ≤ mm.totalVm.toNat
  totalVm_lt : mm.totalVm.toNat < 2 ^ 52
  totalram_lt : si.totalram.toNat < 2 ^ 52
  memUnit : si.memUnit = 4096

section Report

variable {si : SysInfo} {mm : MmStruct} (h : InRange si mm)

include h

theorem rss_lt : mm.rss.toNat < 2 ^ 52 := Nat.lt_of_le_of_lt h.rss_le h.totalVm_lt

theorem ram_product : si.totalram.toNat * (si.memUnit.setWidth 64).toNat < 2 ^ 64 := by
  have hunit : ((4096 : BitVec 32).setWidth 64).toNat = 4096 := by decide
  have hram := h.totalram_lt
  rw [h.memUnit, hunit]
  omega

theorem ram_toNat :
    (si.totalram * si.memUnit.setWidth 64 / 1024).toNat = 4 * si.totalram.toNat := by
  have hunit : ((4096 : BitVec 32).setWidth 64).toNat = 4096 := by decide
  have hkb : (1024 : SizeT).toNat = 1024 := rfl
  rw [BitVec.toNat_udiv, mul_toNat (ram_product h), h.memUnit, hunit, hkb]
  omega

theorem percentage_toInt : (processInfo si mm).percentageUsedMemory.toInt =
    (100 * mm.rss.toNat / mm.totalVm.toNat : ℕ) := by
  have hu := rss_lt h
  have hle := mul_div_le_of_le 100 h.rss_le
  have hc : (100 : SizeT).toNat = 100 := rfl
  rw [processInfo_eq]
  exact scaled_toInt 100 (pagesToKb_toNat _ hu) (pagesToKb_toNat _ h.totalVm_lt)
    (by rw [hc]; omega) (by rw [hc]; omega)

theorem oomScore_toInt (hb : 1000 * mm.rss.toNat / si.totalram.toNat < 2 ^ 31) :
    (processInfo si mm).oomScore.toInt = (1000 * mm.rss.toNat / si.totalram.toNat : ℕ) := by
  have hu := rss_lt h
  have hc : (1000 : SizeT).toNat = 1000 := rfl
  rw [processInfo_eq]
  exact scaled_toInt 1000 (pagesToKb_toNat _ hu) (ram_toNat h) (by rw [hc]; omega) hb

/- Everything before the assignment of the score is exact. -/
theorem processInfoChecked_eq : processInfoChecked si mm =
    if 1000 * mm.rss.toNat / si.totalram.toNat < 2 ^ 31 then .ok (processInfo si mm)
    else .error .narrows := by
  have hu := rss_lt h
  have hle := mul_div_le_of_le 100 h.rss_le
  have hkb : (1024 : SizeT) ≠ 0 := by decide
  have hc : (100 : SizeT).toNat = 100 := rfl
  have hk : (1000 : SizeT).toNat = 1000 := rfl
  have hpercent := scaledChecked_eq 100 (pagesToKb_toNat _ hu)
    (pagesToKb_toNat _ h.totalVm_lt) (by rw [hc]; omega)
  have hscore := scaledChecked_eq 1000 (pagesToKb_toNat _ hu) (ram_toNat h) (by rw [hk]; omega)
  rw [hc, if_pos (by omega)] at hpercent
  rw [hk] at hscore
  by_cases hb : 1000 * mm.rss.toNat / si.totalram.toNat < 2 ^ 31
  · rw [if_pos hb] at hscore ⊢
    simp only [processInfoChecked, getMmRss, kbChecked_ok h.totalVm_lt, kbChecked_ok hu,
      mul_ok (ram_product h), div_ok hkb, hpercent, hscore, bind, Except.bind]
    rfl
  · rw [if_neg hb] at hscore ⊢
    simp only [processInfoChecked, getMmRss, kbChecked_ok h.totalVm_lt, kbChecked_ok hu,
      mul_ok (ram_product h), div_ok hkb, hpercent, hscore, bind, Except.bind]

theorem InRange.smaller {rss : SizeT} (hr : rss.toNat ≤ mm.rss.toNat) :
    InRange si {mm with rss} :=
  ⟨hr.trans h.rss_le, h.totalVm_lt, h.totalram_lt, h.memUnit⟩

end Report

/- No product wraps and no division is by zero; the only step that can lose
value is the assignment of a score of 2^31 or more. -/
structure ReportExact (si : SysInfo) (mm : MmStruct) : Prop where
  arithmetic : processInfoChecked si mm =
    if 1000 * mm.rss.toNat / si.totalram.toNat < 2 ^ 31 then .ok (processInfo si mm)
    else .error .narrows
  percentage : (processInfo si mm).percentageUsedMemory.toInt =
    (100 * mm.rss.toNat / mm.totalVm.toNat : ℕ)
  percentage_range : 0 ≤ (processInfo si mm).percentageUsedMemory.toInt ∧
    (processInfo si mm).percentageUsedMemory.toInt ≤ 100
  percentage_zero : mm.totalVm = 0 → (processInfo si mm).percentageUsedMemory.toInt = 0
  oomScore : 1000 * mm.rss.toNat / si.totalram.toNat < 2 ^ 31 →
    (processInfo si mm).oomScore.toInt = (1000 * mm.rss.toNat / si.totalram.toNat : ℕ)
  oomScore_range : mm.rss.toNat ≤ si.totalram.toNat →
    (processInfo si mm).oomScore.toInt = (1000 * mm.rss.toNat / si.totalram.toNat : ℕ) ∧
    0 ≤ (processInfo si mm).oomScore.toInt ∧ (processInfo si mm).oomScore.toInt ≤ 1000
  oomScore_zero : si.totalram = 0 → (processInfo si mm).oomScore.toInt = 0
  percentage_mono : ∀ rss : SizeT, rss.toNat ≤ mm.rss.toNat →
    (processInfo si {mm with rss}).percentageUsedMemory.toInt ≤
      (processInfo si mm).percentageUsedMemory.toInt
  oomScore_mono : 1000 * mm.rss.toNat / si.totalram.toNat < 2 ^ 31 →
    ∀ rss : SizeT, rss.toNat ≤ mm.rss.toNat →
      (processInfo si {mm with rss}).oomScore.toInt ≤ (processInfo si mm).oomScore.toInt
  delivered : ∀ (pidTask : PidT → Option TaskStruct) (accepted dst : ℕ) (pid : PidT) (mem : Memory),
    pidTask pid = some ⟨some mm⟩ → (luisRecoleccionGeneral pidTask si accepted pid dst).ret = 0 →
    readInfo (commit mem (luisRecoleccionGeneral pidTask si accepted pid dst).writes) dst =
      processInfo si mm

theorem recoleccion_general_exact (si : SysInfo) (mm : MmStruct) (h : InRange si mm) :
    ReportExact si mm where
  arithmetic := processInfoChecked_eq h
  percentage := percentage_toInt h
  percentage_range := by
    have hle := mul_div_le_of_le 100 h.rss_le
    rw [percentage_toInt h]
    exact ⟨Int.natCast_nonneg _, by exact_mod_cast hle⟩
  percentage_zero := by
    intro hz
    rw [percentage_toInt h, hz, zero_toNat, Nat.div_zero]
    rfl
  oomScore := oomScore_toInt h
  oomScore_range := by
    intro hr
    have hle := mul_div_le_of_le 1000 hr
    rw [oomScore_toInt h (by omega)]
    exact ⟨rfl, Int.natCast_nonneg _, by exact_mod_cast hle⟩
  oomScore_zero := by
    intro hz
    have h0 : si.totalram.toNat = 0 := by rw [hz]; rfl
    rw [oomScore_toInt h (by rw [h0, Nat.div_zero]; decide), h0, Nat.div_zero]
    rfl
  percentage_mono := by
    intro rss hr
    rw [percentage_toInt h, percentage_toInt (h.smaller hr)]
    exact_mod_cast Nat.div_le_div_right (Nat.mul_le_mul_left 100 hr)
  oomScore_mono := by
    intro hb rss hr
    have hle : 1000 * rss.toNat / si.totalram.toNat ≤ 1000 * mm.rss.toNat / si.totalram.toNat :=
      Nat.div_le_div_right (Nat.mul_le_mul_left 1000 hr)
    rw [oomScore_toInt h hb, oomScore_toInt (h.smaller hr) (Nat.lt_of_le_of_lt hle hb)]
    exact_mod_cast hle
  delivered := by
    intro pidTask accepted dst pid mem ht hs
    obtain ⟨mm', ht', hread⟩ := info_delivered pidTask si accepted dst pid mem hs
    rw [ht] at ht'
    cases ht'
    exact hread

/- A quarter of 400 pages resident on a machine with 4 GB. -/
theorem recoleccion_general_quarter_resident :
    (processInfo ⟨1048576, 4096⟩ ⟨400, 100⟩).percentageUsedMemory.toInt = 25 ∧
    processInfoChecked ⟨1048576, 4096⟩ ⟨400, 100⟩ = .ok (processInfo ⟨1048576, 4096⟩ ⟨400, 100⟩) := by
  have h := recoleccion_general_exact ⟨1048576, 4096⟩ ⟨400, 100⟩
    ⟨by decide, by decide, by decide, rfl⟩
  exact ⟨h.percentage.trans (by decide), h.arithmetic.trans (if_pos (by decide))⟩

/- The range includes a machine with 32 MB and 2^35 resident pages: the score
4194304000 becomes a negative `int`. -/
theorem recoleccion_general_score_overflows :
    (processInfo ⟨8192, 4096⟩ ⟨2 ^ 35, 2 ^ 35⟩).oomScore.toInt = -100663296 ∧
    ¬∀ (si : SysInfo) (mm : MmStruct), InRange si mm →
      processInfoChecked si mm = .ok (processInfo si mm) := by
  refine ⟨by decide, ?_⟩
  intro h
  have hr : InRange ⟨8192, 4096⟩ ⟨2 ^ 35, 2 ^ 35⟩ := ⟨by decide, by decide, by decide, rfl⟩
  have ho := h ⟨8192, 4096⟩ ⟨2 ^ 35, 2 ^ 35⟩ hr
  rw [processInfoChecked_eq hr, if_neg (by decide)] at ho
  cases ho

end UsacLinux.MemoryReport
