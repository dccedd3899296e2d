import UsacLinux.Tamalloc
import UsacLinux.ReportArithmetic
import UsacLinux.MemoryLimit.Registry
import UsacLinux.Lib.Machine
import UsacLinux.Lib.Packing

/-!
# Reserved and resident memory of a process

What a history of `luis_tamalloc` calls does to the report of
`luis_recoleccion_general` and to the check of `so2_add_memory_limit` and
`so2_update_memory_limit`. The calls read `total_vm` and `get_mm_rss` of the
process, and the code of Linux that keeps these counters is not part of the
tree: here they may change in any way, and what is used of their behaviour is a
hypothesis with a name. `Accounted` and `Clear` say what Linux does with
`total_vm` and where it puts mappings; `Unpopulated` says that a mapping brings
no page into memory, which is not so for a process under `mlockall(MCL_FUTURE)`.
-/

namespace UsacLinux.LazyMemory
open Kernel Tamalloc MemoryReport MemoryLimit Lib.ByteMemory Lib.Machine Lib.Packing Lib.Rounding

/- The counters of the address space and the regions `luis_tamalloc` has mapped. -/
structure Process where
  mm : MmStruct
  space : AddressSpace

/-! ### Regions as intervals of pages -/

def firstPage (r : Region) : ℕ := r.start / 4096

def endPage (r : Region) : ℕ := (r.start + r.len) / 4096

abbrev PagesApart : Region → Region → Prop := Apart firstPage endPage

/- Pages mapped by all regions together. -/
abbrev mappedPages : AddressSpace → ℕ := total firstPage endPage

/- A region consists of whole pages below the end of user space. -/
def Aligned (r : Region) : Prop := 4096 ∣ r.start ∧ 4096 ∣ r.len ∧ r.start + r.len ≤ 2 ^ 47

theorem endPage_sub {r : Region} (h : Aligned r) : endPage r - firstPage r = r.len / 4096 := by
  obtain ⟨⟨a, ha⟩, ⟨b, hb⟩, -⟩ := h
  rw [endPage, firstPage, ha, hb]
  omega

theorem mappedPages_bytes {space : AddressSpace} (h : ∀ r ∈ space, Aligned r) :
    4096 * mappedPages space = (space.map Region.len).sum := by
  induction space with
  | nil => rfl
  | cons r space ih =>
    have hr := ih fun x hx => h x (List.mem_cons_of_mem _ hx)
    have ha := h r List.mem_cons_self
    have he := endPage_sub ha
    obtain ⟨b, hb⟩ := ha.2.1
    simp only [mappedPages, total, List.map_cons, List.sum_cons, Nat.mul_add] at hr ⊢
    rw [hr, he, hb]
    omega

theorem pages_of_len (len : SizeT) : len >>> 12 = BitVec.ofNat 64 (len.toNat / 4096) := by
  apply BitVec.eq_of_toNat_eq
  have hlt := len.isLt
  rw [BitVec.toNat_ushiftRight, BitVec.toNat_ofNat, Nat.shiftRight_eq_div_pow]
  omega

/-! ### What happens to the process -/

/- A call of `luis_tamalloc`: what `vm_mmap` does at that moment, and the counters
when the call has returned. -/
structure Call where
  kernel : VmMmap
  size : SizeT
  after : MmStruct

/- `other` is whatever else leaves the counters at `after`: pages that come in or
are reclaimed. -/
inductive Event where
  | tamalloc (c : Call)
  | other (after : MmStruct)

def happen (p : Process) : Event → Process × Option ℤ
  | .tamalloc c =>
    let r := luisTamalloc c.kernel p.space c.size
    (⟨c.after, r.2⟩, some r.1)
  | .other after => (⟨after, p.space⟩, none)

def Call.mapping (c : Call) (p : Process) : SizeT × AddressSpace :=
  c.kernel.vmMmap p.space (tamallocRequest (pageAlign c.size))

/- A call either fails and maps nothing, or maps the rounded size. -/
theorem happen_tamalloc (p : Process) (c : Call) :
    (∃ r : ℤ, r < 0 ∧ happen p (.tamalloc c) = (⟨c.after, p.space⟩, some r)) ∨
    (Mapped p.space (pageAlign c.size) (c.mapping p) ∧ c.size.toNat ≤ 2 ^ 64 - 4096 ∧
      happen p (.tamalloc c) =
        (⟨c.after, ⟨(c.mapping p).1.toNat, (pageAlign c.size).toNat⟩ :: p.space⟩,
          some ((c.mapping p).1.toNat : ℤ))) := by
  rcases luisTamalloc_cases c.kernel p.space c.size with ⟨⟨-, hneg⟩, hs⟩ | ⟨hpos, hle, -⟩
  · refine Or.inl ⟨(luisTamalloc c.kernel p.space c.size).1, by omega, ?_⟩
    simp only [happen, hs]
  · have hz : c.size ≠ 0 := by
      intro hz
      rw [hz] at hpos
      exact absurd hpos (by decide)
    have hcall := luisTamalloc_nonzero c.kernel p.space c.size hz
    have hrefused (h : Refused p.space (c.mapping p)) :
        ∃ r : ℤ, r < 0 ∧ happen p (.tamalloc c) = (⟨c.after, p.space⟩, some r) := by
      refine ⟨(c.mapping p).1.toInt, by have := h.2.1; omega, ?_⟩
      have hs : (c.kernel.vmMmap p.space (tamallocRequest (pageAlign c.size))).2 = p.space := h.2.2
      simp only [happen, hcall, hs]
      rfl
    by_cases hw : pageAlign c.size = 0
    · exact Or.inl (hrefused (c.kernel.empty _ _ hw))
    · rcases c.kernel.other p.space (tamallocRequest (pageAlign c.size)) hw with hr | hm
      · exact Or.inl (hrefused hr)
      · refine Or.inr ⟨hm, hle, ?_⟩
        simp only [happen, hcall, hm.1, toInt_of_mapped hm]
        rfl

/-! ### What is assumed of Linux -/

/- Pages a step maps. -/
def mappedBy (p : Process) : Event → SizeT
  | .tamalloc c => if (luisTamalloc c.kernel p.space c.size).1 < 0 then 0 else pageAlign c.size >>> 12
  | .other _ => 0

/-- `total_vm` counts the mapped pages: a mapping adds its own, and neither a
call that fails nor anything else changes the count. -/
def Accounted (p : Process) (e : Event) : Prop :=
  (happen p e).1.mm.totalVm = p.mm.totalVm + mappedBy p e

/-- A mapping whose address the caller leaves open lies below the end of user
space and clear of the regions there are. -/
def Clear (p : Process) : Event → Prop
  | .tamalloc c => Mapped p.space (pageAlign c.size) (c.mapping p) →
    (c.mapping p).1.toNat + (pageAlign c.size).toNat ≤ 2 ^ 47 ∧
      ∀ r ∈ p.space, r.start + r.len ≤ (c.mapping p).1.toNat ∨
        (c.mapping p).1.toNat + (pageAlign c.size).toNat ≤ r.start
  | .other _ => True

/-- A call brings no page into memory. -/
def Unpopulated (p : Process) : Event → Prop
  | .tamalloc c => c.after.rss = p.mm.rss
  | .other _ => True

instance (p : Process) (e : Event) : Decidable (Accounted p e) := inferInstanceAs (Decidable (_ = _))

/-! ### Counters and regions belong together -/

structure Consistent (base : MmStruct) (p : Process) : Prop where
  aligned : ∀ r ∈ p.space, Aligned r
  apart : p.space.Pairwise PagesApart
  totalVm : p.mm.totalVm = base.totalVm + BitVec.ofNat 64 (mappedPages p.space)

namespace Consistent

variable {base : MmStruct} {p : Process}

theorem initial (base : MmStruct) : Consistent base ⟨base, []⟩ where
  aligned r h := by cases h
  apart := List.Pairwise.nil
  totalVm := (BitVec.add_zero _).symm

theorem map (h : Consistent base p) {a : ℕ} {len : SizeT} (ha : 4096 ∣ a) (hlen : 4096 ∣ len.toNat)
    (hbelow : a + len.toNat ≤ 2 ^ 47)
    (hapart : ∀ r ∈ p.space, r.start + r.len ≤ a ∨ a + len.toNat ≤ r.start) (after : MmStruct)
    (hvm : after.totalVm = p.mm.totalVm + len >>> 12) :
    Consistent base ⟨after, ⟨a, len.toNat⟩ :: p.space⟩ := by
  have hal : Aligned ⟨a, len.toNat⟩ := ⟨ha, hlen, hbelow⟩
  refine ⟨?_, List.pairwise_cons.mpr ⟨?_, h.apart⟩, ?_⟩
  · intro r hr
    rcases List.mem_cons.mp hr with rfl | hr
    · exact hal
    · exact h.aligned r hr
  · intro r hr
    -- regions of whole pages that share no byte share no page
    have hap := hapart r hr
    obtain ⟨⟨b, hb⟩, ⟨c, hc⟩, -⟩ := h.aligned r hr
    obtain ⟨d, hd⟩ := ha
    obtain ⟨e, he⟩ := hlen
    show endPage _ ≤ firstPage r ∨ endPage r ≤ firstPage _
    simp only [endPage, firstPage]
    omega
  · show after.totalVm = base.totalVm + BitVec.ofNat 64 (mappedPages (_ :: p.space))
    rw [mappedPages, total, List.map_cons, List.sum_cons, endPage_sub hal, Nat.add_comm,
      BitVec.ofNat_add, ← BitVec.add_assoc, hvm, pages_of_len, h.totalVm]
    rfl

theorem happen (h : Consistent base p) {e : Event} (hclear : Clear p e) (hacc : Accounted p e) :
    Consistent base (happen p e).1 := by
  unfold Accounted at hacc
  cases e with
  | tamalloc c =>
    have hcall : (LazyMemory.happen p (.tamalloc c)).2 = some (luisTamalloc c.kernel p.space c.size).1 := rfl
    rcases happen_tamalloc p c with ⟨r, hr, he⟩ | ⟨hm, -, he⟩
    · rw [he] at hcall hacc ⊢
      rw [mappedBy, if_pos (by rw [← Option.some.inj hcall]; exact hr)] at hacc
      exact ⟨h.aligned, h.apart, (hacc.trans (BitVec.add_zero _)).trans h.totalVm⟩
    · rw [he] at hcall hacc ⊢
      rw [mappedBy, if_neg (by rw [← Option.some.inj hcall]; omega)] at hacc
      have hdvd : 4096 ∣ (pageAlign c.size).toNat := by
        rw [pageAlign_toNat]
        exact Nat.dvd_mul_left ..
      obtain ⟨hbelow, hapart⟩ := hclear hm
      exact h.map hm.2.1 hdvd hbelow hapart c.after hacc
  | other after =>
    have hvm : after.totalVm = p.mm.totalVm := hacc.trans (BitVec.add_zero _)
    exact ⟨h.aligned, h.apart, hvm.trans h.totalVm⟩

theorem run (h : Consistent base p) {events : List Event} (hclear : Along LazyMemory.happen Clear p events)
    (hacc : Along LazyMemory.happen Accounted p events) :
    Consistent base (run LazyMemory.happen p events).1 :=
  (hclear.and hacc).invariant (fun _ _ hq hp => hp.happen hq.1 hq.2) h

/- All of user space has 2^35 pages. -/
theorem mapped_le (h : Consistent base p) : mappedPages p.space ≤ 2 ^ 35 := by
  refine total_le h.apart fun r hr => ?_
  have hend := (h.aligned r hr).2.2
  rw [endPage]
  omega

/- The counter as a natural number. -/
theorem counter (h : Consistent base p) (hlt : base.totalVm.toNat < 2 ^ 51) :
    p.mm.totalVm.toNat = base.totalVm.toNat + mappedPages p.space := by
  have hm := h.mapped_le
  rw [h.totalVm, BitVec.toNat_add, BitVec.toNat_ofNat]
  omega

end Consistent

/-! ### What the granted sizes add up to -/

/- Sizes of the calls that were given memory, oldest first. -/
def granted (events : List Event) (replies : List (Option ℤ)) : List SizeT :=
  (events.zip replies).filterMap fun
    | (.tamalloc c, some r) => if r < 0 then none else some c.size
    | _ => none

theorem happen_lens (p : Process) (e : Event) :
    (happen p e).1.space.map Region.len =
      ((granted [e] [(happen p e).2]).map fun size => roundUp size.toNat 4096) ++
        p.space.map Region.len := by
  cases e with
  | tamalloc c =>
    rcases happen_tamalloc p c with ⟨r, hr, he⟩ | ⟨-, hle, he⟩
    · rw [he]
      simp [granted, hr]
    · rw [he]
      simp [granted, pageAlign_roundUp c.size hle]
  | other after => rfl

/- The regions are the granted sizes, each rounded up to whole pages. -/
theorem run_lens (p : Process) (events : List Event) :
    (run happen p events).1.space.map Region.len =
      ((granted events (run happen p events).2).map fun size => roundUp size.toNat 4096).reverse ++
        p.space.map Region.len := by
  induction events generalizing p with
  | nil => rfl
  | cons e events ih =>
    have hcons : granted (e :: events) (run happen p (e :: events)).2 =
        granted [e] [(happen p e).2] ++ granted events (run happen (happen p e).1 events).2 := by
      rw [run_cons]
      exact List.filterMap_append (l := [(e, (happen p e).2)])
    have hone : (granted [e] [(happen p e).2]).length ≤ 1 := List.length_filterMap_le ..
    have hrev : ((granted [e] [(happen p e).2]).map fun size => roundUp size.toNat 4096).reverse =
        (granted [e] [(happen p e).2]).map fun size => roundUp size.toNat 4096 := by
      match granted [e] [(happen p e).2], hone with
      | [], _ => rfl
      | [_], _ => rfl
    rw [hcons, List.map_append, List.reverse_append, hrev, List.append_assoc, ← happen_lens]
    exact ih (happen p e).1

/- Bytes `luis_tamalloc` has handed out in a run. -/
def grantedBytes (events : List Event) (replies : List (Option ℤ)) : ℕ :=
  ((granted events replies).map fun size => roundUp size.toNat 4096).sum

theorem mapped_granted {base : MmStruct} {events : List Event}
    (h : Consistent base (run happen ⟨base, []⟩ events).1) :
    4096 * mappedPages (run happen ⟨base, []⟩ events).1.space =
      grantedBytes events (run happen ⟨base, []⟩ events).2 := by
  rw [mappedPages_bytes h.aligned, run_lens, List.map_nil, List.append_nil, List.sum_reverse]
  rfl

/-! ### A kernel that places mappings one above the other -/

def top (space : AddressSpace) : ℕ := space.foldr (fun r m => max (r.start + r.len) m) 4096

theorem le_top {space : AddressSpace} {r : Region} (h : r ∈ space) : r.start + r.len ≤ top space := by
  induction space with
  | nil => cases h
  | cons x space ih =>
    rcases List.mem_cons.mp h with rfl | h
    · exact Nat.le_max_left ..
    · exact (ih h).trans (Nat.le_max_right ..)

def nextFree (space : AddressSpace) : ℕ := roundUp (top space) 4096

theorem top_le_nextFree (space : AddressSpace) : 4096 ∣ nextFree space ∧ top space ≤ nextFree space :=
  (roundUp_isLeast (top space) 4096 (by decide)).1

theorem mapped_at {space : AddressSpace} {len : SizeT} {a : ℕ} (ha : a < 2 ^ 63) (hd : 4096 ∣ a) :
    Mapped space len (BitVec.ofNat 64 a, ⟨a, len.toNat⟩ :: space) := by
  have hn : (BitVec.ofNat 64 a).toNat = a := by
    rw [BitVec.toNat_ofNat, Nat.mod_eq_of_lt (by omega)]
  refine ⟨?_, ?_, ?_⟩
  · rw [hn]
  · rw [hn]
    exact hd
  · rw [hn]
    exact ha

def stack (space : AddressSpace) (len : SizeT) : SizeT × AddressSpace :=
  if 0 < len.toNat ∧ nextFree space + len.toNat ≤ 2 ^ 47 then
    (BitVec.ofNat 64 (nextFree space), ⟨nextFree space, len.toNat⟩ :: space)
  else (BitVec.ofInt 64 (-ENOMEM), space)

theorem stack_empty (space : AddressSpace) (q : MmapRequest) (h : q.len = 0) :
    Refused space (stack space q.len) := by
  rw [stack, if_neg (by rw [h, zero_toNat]; omega)]
  exact refused_enomem space

theorem stack_other (space : AddressSpace) (q : MmapRequest) (_ : q.len ≠ 0) :
    Refused space (stack space q.len) ∨ Mapped space q.len (stack space q.len) := by
  unfold stack
  split
  next hq => exact Or.inr (mapped_at (by omega) (top_le_nextFree space).1)
  · exact Or.inl (refused_enomem space)

def stacked : VmMmap := ⟨fun space q => stack space q.len, stack_empty, stack_other⟩

/- An error number is no address. -/
theorem stack_mapped {space : AddressSpace} {len : SizeT} (h : Mapped space len (stack space len)) :
    (stack space len).1.toNat = nextFree space ∧ nextFree space + len.toNat ≤ 2 ^ 47 := by
  unfold stack at h ⊢
  split at h
  next hq =>
    rw [if_pos hq]
    refine ⟨?_, hq.2⟩
    show (BitVec.ofNat 64 (nextFree space)).toNat = _
    rw [BitVec.toNat_ofNat, Nat.mod_eq_of_lt (by omega)]
  · have herr : ¬(BitVec.ofInt 64 (-ENOMEM)).toNat < 2 ^ 63 := by decide
    exact absurd h.2.2 herr

theorem stacked_clear (p : Process) (size : SizeT) (after : MmStruct) :
    Clear p (.tamalloc ⟨stacked, size, after⟩) := by
  intro h
  obtain ⟨ha, hle⟩ := stack_mapped h
  have hstart : (Call.mapping ⟨stacked, size, after⟩ p).1.toNat = nextFree p.space := ha
  rw [hstart]
  exact ⟨hle, fun r hr => Or.inl ((le_top hr).trans (top_le_nextFree p.space).2)⟩

/-! ### The report of luis_recoleccion_general -/

/- 5000 bytes are two pages, of which one stays resident; 0 bytes are refused. -/
def history : List Event :=
  [.tamalloc ⟨stacked, 5000, ⟨102, 50⟩⟩, .other ⟨102, 51⟩, .tamalloc ⟨stacked, 0, ⟨102, 51⟩⟩,
    .other ⟨102, 52⟩, .other ⟨102, 51⟩]

theorem history_clear : Along happen Clear ⟨⟨100, 50⟩, []⟩ history :=
  ⟨stacked_clear _ _ _, trivial, stacked_clear _ _ _, trivial, trivial, trivial⟩

theorem history_accounted : Along happen Accounted ⟨⟨100, 50⟩, []⟩ history :=
  ⟨by decide, by decide, by decide, by decide, by decide, trivial⟩

/- What a limit call sees when `pid` has the address space `mm`. -/
def limitEnv (capable kmalloc : Bool) (others : PidT → Option TaskStruct) (pid : PidT)
    (mm : MmStruct) : CallEnv :=
  ⟨capable, Function.update others pid (some ⟨some mm⟩), kmalloc⟩

section LimitCheck

variable {capable kmalloc : Bool} {others : PidT → Option TaskStruct} {pid : PidT} {limit : SizeT}
  {mm mm' : MmStruct}

theorem requestError_limitEnv : requestError (limitEnv capable kmalloc others pid mm) pid limit =
    if pid.toInt ≤ 0 ∨ limit ≤ 0 then some EINVAL
    else if !capable then some EPERM
    else if limit < pagesToKb mm.rss then some 100 else none := by
  simp only [requestError, limitEnv, Function.update_self, getMmRss]
  rfl

/- Of the address space the calls read the resident set and nothing else. -/
theorem execLimit_limitEnv (h : mm'.rss = mm.rss) (op : LimitOp) (list : List MemoryLimitation) :
    execLimit list ⟨op, limitEnv capable kmalloc others pid mm', pid, limit⟩ =
      execLimit list ⟨op, limitEnv capable kmalloc others pid mm, pid, limit⟩ := by
  have he : requestError (limitEnv capable kmalloc others pid mm') pid limit =
      requestError (limitEnv capable kmalloc others pid mm) pid limit := by
    rw [requestError_limitEnv, requestError_limitEnv, h]
  cases op with
  | add =>
    simp only [execLimit, so2AddMemoryLimit, he]
    rfl
  | update => simp only [execLimit, so2UpdateMemoryLimit, he]

theorem requestError_100_iff :
    requestError (limitEnv capable kmalloc others pid mm) pid limit = some 100 ↔
      0 < pid.toInt ∧ limit ≠ 0 ∧ capable = true ∧ limit < pagesToKb mm.rss := by
  rw [requestError_limitEnv, Ne, ← le_zero_iff]
  by_cases hv : pid.toInt ≤ 0 ∨ limit ≤ 0
  · rw [if_pos hv]
    constructor
    · intro h
      simp [EINVAL] at h
    · rintro ⟨hp, hl, -⟩
      exact absurd hv (not_or.mpr ⟨by omega, hl⟩)
  · rw [if_neg hv]
    obtain ⟨hp, hl⟩ := not_or.mp hv
    cases capable with
    | false => simp [EPERM]
    | true =>
      rw [if_neg (by decide)]
      constructor
      · intro h
        split at h
        next hlow => exact ⟨by omega, hl, rfl, hlow⟩
        · cases h
      · rintro ⟨-, -, -, hlow⟩
        exact if_pos hlow

end LimitCheck

/- 100 is the answer of the checks alone. -/
theorem ret_100_iff (list : List MemoryLimitation) (c : LimitCall) :
    (execLimit list c).2.ret = -100 ↔ requestError c.env c.pid c.limit = some 100 := by
  obtain ⟨op, env, p, l⟩ := c
  cases hr : requestError env p l with
  | some e =>
    have hret : (execLimit list ⟨op, env, p, l⟩).2.ret = -e := by
      cases op with
      | add => simp only [execLimit, so2AddMemoryLimit, hr]
      | update => simp only [execLimit, so2UpdateMemoryLimit, hr]
    rw [hret, Option.some.injEq]
    omega
  | none =>
    cases op with
    | add =>
      simp only [execLimit, so2AddMemoryLimit, hr]
      rcases addLocked_cases env.kmalloc p l list with ⟨-, ha⟩ | ⟨-, -, ha⟩ | ⟨-, -, ha⟩
      · simp [ha]
      · simp [ha, ENOMEM]
      · simp [ha]
    | update =>
      simp only [execLimit, so2UpdateMemoryLimit, hr]
      rcases updateLocked_cases p l list with ⟨-, hu⟩ | ⟨-, list', -, hu⟩
      · simp [hu]
      · simp [hu]

/- The calls that set limits for `pid` answer every request the same way at `mm`
and at `mm'`. -/
def SameAnswers (pid : PidT) (mm mm' : MmStruct) : Prop :=
  ∀ (capable kmalloc : Bool) (others : PidT → Option TaskStruct) (limit : SizeT) (op : LimitOp)
    (list : List MemoryLimitation),
    execLimit list ⟨op, limitEnv capable kmalloc others pid mm', pid, limit⟩ =
      execLimit list ⟨op, limitEnv capable kmalloc others pid mm, pid, limit⟩

theorem ret_100_limitEnv {mm : MmStruct} (hmm : mm.rss.toNat < 2 ^ 52) (capable kmalloc : Bool)
    (others : PidT → Option TaskStruct) (pid : PidT) (limit : SizeT) (op : LimitOp)
    (list : List MemoryLimitation) :
    (execLimit list ⟨op, limitEnv capable kmalloc others pid mm, pid, limit⟩).2.ret = -100 ↔
      0 < pid.toInt ∧ limit ≠ 0 ∧ capable = true ∧ limit.toNat < 4 * mm.rss.toNat := by
  rw [ret_100_iff, requestError_100_iff, BitVec.lt_def, pagesToKb_toNat _ hmm]

/- Of two different resident sets, a limit one below the larger is refused there
and accepted at the other. -/
theorem rss_le_of_sameAnswers {pid : PidT} (hpid : 0 < pid.toInt) {mm mm' : MmStruct}
    (hmm : mm.rss.toNat < 2 ^ 52) (hmm' : mm'.rss.toNat < 2 ^ 52) (h : SameAnswers pid mm mm') :
    mm'.rss.toNat ≤ mm.rss.toNat := by
  by_contra hlt
  let limit : SizeT := BitVec.ofNat 64 (4 * mm'.rss.toNat - 1)
  have hlimit : limit.toNat = 4 * mm'.rss.toNat - 1 := by
    rw [BitVec.toNat_ofNat, Nat.mod_eq_of_lt (by omega)]
  have hne : limit ≠ 0 := by
    intro hz
    rw [hz, zero_toNat] at hlimit
    omega
  have hrefused := (ret_100_limitEnv hmm' true true (fun _ => none) pid limit .add []).mpr
    ⟨hpid, hne, rfl, by omega⟩
  rw [h, ret_100_limitEnv hmm] at hrefused
  omega

theorem sameAnswers_iff {pid : PidT} (hpid : 0 < pid.toInt) {mm mm' : MmStruct}
    (hmm : mm.rss.toNat < 2 ^ 52) (hmm' : mm'.rss.toNat < 2 ^ 52) :
    SameAnswers pid mm mm' ↔ mm'.rss = mm.rss := by
  constructor
  · intro h
    have h' : SameAnswers pid mm' mm := fun a b c d e f => (h a b c d e f).symm
    have hle := rss_le_of_sameAnswers hpid hmm hmm' h
    have hge := rss_le_of_sameAnswers hpid hmm' hmm h'
    exact BitVec.eq_of_toNat_eq (by omega)
  · exact fun h _ _ _ _ op list => execLimit_limitEnv h op list

theorem run_calls_rss {p : Process} {calls : List Call}
    (h : Along happen Unpopulated p (calls.map Event.tamalloc)) :
    (run happen p (calls.map Event.tamalloc)).1.mm.rss = p.mm.rss := by
  induction calls generalizing p with
  | nil => rfl
  | cons c calls ih => exact (ih h.2).trans h.1

end UsacLinux.LazyMemory
