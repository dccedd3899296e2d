import UsacLinux.LazyMemory

/-!
# What reserving memory does to the summary

`luis_resumen_total` over processes with any history, before and after each of
them has reserved more memory with `luis_tamalloc`. The summary counts
`total_vm` as committed and the resident set as reserved: where Linux accounts
for mappings as assumed, the committed figure has all the memory granted, and
where mappings are not populated the reserved figure stays.
-/

namespace UsacLinux.LazyMemory
open Kernel Tamalloc MemoryReport Lib.ByteMemory Lib.Machine Lib.Packing Lib.Rounding

/- A process: its counters before the first call, what has happened to it, and
the calls of `luis_tamalloc` after that. -/
structure Life where
  base : MmStruct
  events : List Event
  later : List Call
  totalVm_le : base.totalVm.toNat ≤ 2 ^ 35

namespace Life

variable (l : Life)

def allEvents : List Event := l.events ++ l.later.map Event.tamalloc

def early : Process := (run happen ⟨l.base, []⟩ l.events).1

def late : Process := (run happen ⟨l.base, []⟩ l.allEvents).1

/- Size of the address space in bytes, with everything granted so far. -/
def lateBytes : ℕ :=
  4096 * l.base.totalVm.toNat + grantedBytes l.allEvents (run happen ⟨l.base, []⟩ l.allEvents).2

/- Linux accounts for the mappings of the process and places them as assumed. -/
def Accounted : Prop :=
  Along happen Clear ⟨l.base, []⟩ l.allEvents ∧ Along happen LazyMemory.Accounted ⟨l.base, []⟩ l.allEvents

/- The later calls bring no page into memory. -/
def Unpopulated : Prop := Along happen LazyMemory.Unpopulated l.early (l.later.map Event.tamalloc)

theorem late_eq : l.late = (run happen l.early (l.later.map Event.tamalloc)).1 := by
  rw [late, allEvents, run_append]
  rfl

variable {l}

theorem late_rss (h : l.Unpopulated) : l.late.mm.rss = l.early.mm.rss := by
  rw [late_eq]
  exact run_calls_rss h

variable (h : l.Accounted)

include h

theorem late_consistent : Consistent l.base l.late := (Consistent.initial l.base).run h.1 h.2

theorem late_counter : l.late.mm.totalVm.toNat = l.base.totalVm.toNat + mappedPages l.late.space := by
  have hle := l.totalVm_le
  exact (late_consistent h).counter (by omega)

theorem late_totalVm : 4096 * l.late.mm.totalVm.toNat = l.lateBytes := by
  rw [late_counter h, Nat.mul_add, lateBytes, ← mapped_granted (late_consistent h)]
  rfl

theorem late_le : l.late.mm.totalVm.toNat ≤ 2 ^ 36 := by
  have hc := late_counter h
  have hm := (late_consistent h).mapped_le
  have hvm := l.totalVm_le
  omega

end Life

/- The process list before and after; a kernel thread has no address space. -/
def tasksWith (process : Life → Process) (lives : List (Option Life)) : List TaskStruct :=
  lives.map fun life => ⟨life.map fun l => (process l).mm⟩

/- The lives of the processes that have an address space. -/
def living (lives : List (Option Life)) : List Life := lives.filterMap id

theorem spaces_tasksWith (process : Life → Process) (lives : List (Option Life)) :
    spaces (tasksWith process lives) = (living lives).map fun l => (process l).mm := by
  rw [spaces, tasksWith, living, List.filterMap_map, List.map_filterMap]
  rfl

/- The reserved figure adds up resident sets, which the calls have not changed. -/
theorem foldl_reserved_late {lives : List (Option Life)} (h : ∀ l ∈ living lives, l.Unpopulated)
    (s t : MemorySummary) (hst : s.reservedMemoryMb = t.reservedMemoryMb) :
    ((tasksWith Life.late lives).foldl addProcess s).reservedMemoryMb =
      ((tasksWith Life.early lives).foldl addProcess t).reservedMemoryMb := by
  induction lives generalizing s t with
  | nil => exact hst
  | cons life lives ih =>
    cases life with
    | none => exact ih h s t hst
    | some l =>
      refine ih (fun x hx => h x (List.mem_cons_of_mem _ hx)) _ _ ?_
      show s.reservedMemoryMb + pagesToMb l.late.mm.rss = t.reservedMemoryMb + pagesToMb l.early.mm.rss
      rw [hst, Life.late_rss (h l List.mem_cons_self)]

theorem committed_late {lives : List (Option Life)} (h : ∀ l ∈ living lives, l.Accounted)
    (hn : lives.length ≤ 2 ^ 22) :
    (sysSummary (tasksWith Life.late lives)).committedMemoryMb.toNat =
      ((living lives).map fun l => l.lateBytes / 2 ^ 20).sum := by
  have hsmall : ∀ mm ∈ spaces (tasksWith Life.late lives), mm.totalVm.toNat < 2 ^ 52 := by
    intro mm hmm
    rw [spaces_tasksWith] at hmm
    obtain ⟨l, hl, rfl⟩ := List.mem_map.mp hmm
    have hle := Life.late_le (h l hl)
    omega
  have hterm : ∀ l ∈ living lives, l.late.mm.totalVm.toNat / 256 = l.lateBytes / 2 ^ 20 := by
    intro l hl
    have hb := Life.late_totalVm (h l hl)
    omega
  have hsum := sum_map_le (fun l => l.lateBytes / 2 ^ 20) (2 ^ 28) (living lives) (by
    intro l hl
    have hle := Life.late_le (h l hl)
    rw [← hterm l hl]
    omega)
  have hlen : (living lives).length ≤ lives.length := List.length_filterMap_le _ _
  have hf := sysSummary_figure .committed _ hsmall
  rw [spaces_tasksWith, List.map_map] at hf
  rw [← List.map_congr_left hterm] at hsum ⊢
  exact hf.trans (Nat.mod_eq_of_lt (by simp only [Column.pages, Function.comp_def]; omega))

def reservingLife : Life := ⟨⟨100, 50⟩, history, [⟨stacked, 2 ^ 30, ⟨262246, 51⟩⟩], by decide⟩

theorem reservingLife_accounted : reservingLife.Accounted :=
  ⟨⟨stacked_clear _ _ _, trivial, stacked_clear _ _ _, trivial, trivial, stacked_clear _ _ _, trivial⟩,
    by decide, by decide, by decide, by decide, by decide, by decide, trivial⟩

end UsacLinux.LazyMemory
