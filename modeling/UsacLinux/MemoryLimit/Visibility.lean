import UsacLinux.MemoryLimit.UserCopy
import UsacLinux.MemoryLimit.Order
import UsacLinux.MemoryLimit.History

/-!
# What a reader sees of the calls before it

A program that knows the kernel's structure can decode the records
`so2_get_memory_limits` leaves in its memory. A read that begins after another
call has returned shows what that call stored, or what a later one has put in
its place; with room for the whole list it shows one moment of the registry.
-/

namespace UsacLinux.MemoryLimit
open Kernel Lib.ByteMemory Lib.KeyedList Lib.Machine Lib.Mutex

/-! ### Decoding the delivered records -/

/- Element `i` of an array of the kernel's structure in user memory. -/
def kernelRecord (mem : Memory) (base i : ℕ) : MemoryLimitation :=
  ⟨load 32 mem (base + (sizeofMemoryLimitation * i + pidOffset)),
    load 64 mem (base + (sizeofMemoryLimitation * i + limitOffset))⟩

/- As many records as the count says. -/
def decodeLimits (mem : Memory) (args : GetArgs) : List MemoryLimitation :=
  (List.range (load 32 mem args.processesReturned).toInt.toNat).map
    (kernelRecord mem args.uProcessesBuffer)

/- The count lies outside an array of `max_entries` kernel structures. -/
def GetArgs.KernelApart (args : GetArgs) : Prop :=
  args.processesReturned + 4 ≤ args.uProcessesBuffer ∨
    args.uProcessesBuffer + sizeofMemoryLimitation * args.maxEntries.toNat ≤ args.processesReturned

instance (args : GetArgs) : Decidable args.KernelApart := inferInstanceAs (Decidable (_ ∨ _))

/- Decoding undoes the copy: the front of the list comes back. -/
theorem decode_get (r : Registry) (env : GetEnv) (args : GetArgs) (mem : Memory) (hu : args.Usable)
    (hapart : args.KernelApart) (hret : (so2GetMemoryLimits env args r.entries).ret = 0) :
    decodeLimits (commit mem (so2GetMemoryLimits env args r.entries).writes) args =
      r.entries.take args.maxEntries.toNat := by
  obtain ⟨ha, hacc, hp⟩ := get_ret_zero r env args hu hret
  have hk : r.reported args ≤ args.maxEntries.toNat := Nat.min_le_right _ _
  rw [get_success r env args hu ha hacc hp, GetOutcome.writes, decodeLimits,
    count_delivered r env args _ mem, Int.toNat_natCast, ← filled_records r env args, filled_count]
  apply List.map_congr_left
  intro i hi
  have hlt := List.mem_range.mp hi
  rw [GetArgs.KernelApart, sizeofMemoryLimitation_eq] at hapart
  rw [kernelRecord, KernelBuffer.record, sizeofMemoryLimitation_eq, pidOffset_eq, limitOffset_eq,
    load_beside_count 32 (r.reported args) (32 * i + 0) mem _ args _
      (fun j hj => by omega) (fun j hj => by omega),
    load_beside_count 64 (r.reported args) (32 * i + 8) mem _ args _
      (fun j hj => by omega) (fun j hj => by omega)]

/-! ### Order of successes -/

/- A success in the history is the one stored, or a later one for its pid is. -/
theorem lastLimit_after {calls : ℕ → RegistryCall} {s : RegistrySystem} {t : ℕ} {c : LimitCall}
    (ht : t ∈ s.acquired) (hs : successOf calls s t = some c) :
    ∃ v d, (v = t ∨ Before s t v) ∧ calls v = .limit d ∧ d.pid = c.pid ∧
      lastLimit c.pid (history calls s) = some d.limit := by
  obtain ⟨a, b, hab⟩ := List.append_of_mem ht
  have hsplit : history calls s =
      a.filterMap (successOf calls s) ++ c :: b.filterMap (successOf calls s) := by
    rw [history, hab, List.filterMap_append, List.filterMap_cons, hs]
  -- the last success for the pid from `t` on
  have hne : ((c :: b.filterMap (successOf calls s)).filter fun d => decide (d.pid = c.pid)) ≠ [] :=
    List.ne_nil_of_mem (List.mem_filter.mpr ⟨List.mem_cons_self, by simp⟩)
  have hlast : lastLimit c.pid (history calls s) = some (((c :: b.filterMap (successOf calls s)).filter
      fun d => decide (d.pid = c.pid)).getLast hne).limit := by
    rw [lastLimit, hsplit, List.filter_append, List.getLast?_append_of_ne_nil _ hne,
      List.getLast?_eq_some_getLast hne, Option.map_some]
  have hmem := List.mem_filter.mp (List.getLast_mem hne)
  have hpid := of_decide_eq_true hmem.2
  rcases List.mem_cons.mp hmem.1 with hc | hb
  · obtain ⟨r, -, hr⟩ := Option.bind_eq_some_iff.mp hs
    refine ⟨t, c, Or.inl rfl, succeeded_eq hr, rfl, ?_⟩
    rw [hlast, hc]
  · obtain ⟨v, hv, hsv⟩ := List.mem_filterMap.mp hb
    obtain ⟨r, -, hr⟩ := Option.bind_eq_some_iff.mp hsv
    exact ⟨v, _, Or.inr ⟨a, b, hab, hv⟩, succeeded_eq hr, hpid, hlast⟩

/-! ### Reads after returned calls -/

section Reads

variable {calls : ℕ → RegistryCall} (e : RegistryExecution calls) {j u : ℕ} {env : GetEnv}
  {args : GetArgs} {o : GetOutcome}

theorem usable_of_ret_zero {list : List MemoryLimitation}
    (h : (so2GetMemoryLimits env args list).ret = 0) : args.Usable := by
  unfold so2GetMemoryLimits at h
  split at h
  · simp [GetOutcome.failed, EINVAL] at h
  next hok =>
    simp only [not_or, le_zero_iff] at hok
    refine ⟨?_, hok.2.1, hok.2.2⟩
    by_contra hz
    exact hok.1 (BitVec.eq_of_toNat_eq (by rw [zero_toNat]; omega))

/- A successful read shows the front of the list at an instant at which it held
the lock. -/
theorem read_instant (hj : j ≤ e.length) (hg : calls u = .get env args)
    (hu : (e.state j).phase u = .done (.get o)) (ho : o.ret = 0) (hapart : args.KernelApart)
    (mem : Memory) :
    ∃ m < j, (e.state m).lock = some u ∧ decodeLimits (commit mem o.writes) args =
      (e.state m).shared.take args.maxEntries.toNat := by
  have h := registry_linearized e j hj
  have hacq : u ∈ (e.state j).acquired := by
    by_contra hn
    have hr := execCall_refused (done_refused h hu hn) []
    rw [hg] at hr
    have ho' := RegistryReply.get.inj (congrArg Prod.snd hr)
    rw [← ho'] at ho
    have hd := done_refused h hu hn
    rw [hg, refused, if_neg (usable_passes args (usable_of_ret_zero ho))] at hd
    cases hd
  obtain ⟨m, hm, hl, hex⟩ := released_at e registry_disciplined registry_implements j hj
    (h.done_released hu hacq) (congrArg answer hu)
  simp only [hg, execCall, Prod.mk.injEq, RegistryReply.get.injEq] at hex
  obtain ⟨hshared, hout⟩ := hex
  rw [hshared] at hout
  have hv := shared_valid (registry_linearized e m (by omega))
  rw [← hout] at ho ⊢
  exact ⟨m, hm, hl, decode_get ⟨(e.state m).shared, hv⟩ env args mem (usable_of_ret_zero ho) hapart ho⟩

end Reads

/- `t` has returned 0 before the read `u` begins. The read shows the front of
the list at a moment after that, and when the list fits, all of it: for every
pid the last success, and for the pid of `t` its limit or a later one. -/
theorem so2_read_your_writes (calls : ℕ → RegistryCall) (e : RegistryExecution calls)
    {i j t u : ℕ} {c : LimitCall} {x : Reply} {env : GetEnv} {args : GetArgs} {o : GetOutcome}
    (mem : Memory) (hij : i ≤ j) (hj : j ≤ e.length) (hc : calls t = .limit c)
    (ht : (e.state i).phase t = .done (.limit x)) (hx : x.ret = 0)
    (hg : calls u = .get env args) (hidle : (e.state i).phase u = .idle)
    (hu : (e.state j).phase u = .done (.get o)) (ho : o.ret = 0) (hapart : args.KernelApart) :
    ∃ m, i < m ∧ m < j ∧ (e.state m).lock = some u ∧
      decodeLimits (commit mem o.writes) args = (e.state m).shared.take args.maxEntries.toNat ∧
      ((e.state j).shared.length ≤ args.maxEntries.toNat →
        (∀ p, toMap (decodeLimits (commit mem o.writes) args) p =
          lastLimit p (history calls (e.state m))) ∧
        ∃ v d, (v = t ∨ Before (e.state m) t v) ∧ calls v = .limit d ∧ d.pid = c.pid ∧
          toMap (decodeLimits (commit mem o.writes) args) c.pid = some d.limit) := by
  obtain ⟨m, hmj, hlock, hdec⟩ := read_instant e hj hg hu ho hapart mem
  have hi : i ≤ e.length := hij.trans hj
  have hm : m ≤ e.length := by omega
  have him := lt_of_lock_of_idle e registry_disciplined hi hidle hm hlock
  refine ⟨m, him, hmj, hlock, hdec, fun hroom => ?_⟩
  have h := registry_linearized e m hm
  -- entries are never removed, so the list fitted at the time of the read too
  have hgrow := (state_pids_grow e hmj.le hj).length_le
  rw [List.length_map, List.length_map] at hgrow
  rw [List.take_of_length_le (hgrow.trans hroom)] at hdec
  have hstored := system_stored h
  rw [hdec]
  refine ⟨hstored, ?_⟩
  have hdone := done_stays e him.le hm ht
  have hacq := zero_acquired h hc hdone hx
  have hsucc : successOf calls (e.state m) t = some c := by
    simp [successOf, hdone, Program.answer, hc, succeeded, hx]
  rw [hstored]
  exact lastLimit_after hacq hsucc

/- An add, and a read that begins when it has returned. -/
def addThenRead (t : ℕ) : RegistryCall :=
  if t = 0 then .limit ⟨.add, testEnv, 1234, 500⟩ else .get testGetEnv testArgs

def addThenReadSteps : List ℕ := List.replicate 8 0 ++ List.replicate 11 1

theorem addThenRead_canStep : ∀ i < addThenReadSteps.length,
    canStep registryProgram ((addThenReadSteps.take i).foldl (next registryProgram addThenRead) (.initial []))
      (addThenReadSteps.getD i 0) := by
  intro i hi
  change i < 19 at hi
  interval_cases i
  all_goals trivial

def addThenReadRun : RegistryExecution addThenRead :=
  scheduled addThenRead addThenReadSteps addThenRead_canStep

/- The list fits the ten records asked for, and the read shows the limit added. -/
theorem so2_read_your_writes_of_one_add :
    let delivered := decodeLimits (commit (fun _ => 0)
      (so2GetMemoryLimits testGetEnv testArgs [⟨1234, 500⟩]).writes) testArgs
    (∃ m, 8 < m ∧ m < 19 ∧ delivered = (addThenReadRun.state m).shared.take 10 ∧
      ∀ p, toMap delivered p = lastLimit p (history addThenRead (addThenReadRun.state m))) ∧
    toMap delivered 1234 = some 500 := by
  intro delivered
  obtain ⟨m, h1, h2, -, h3, hfits⟩ := so2_read_your_writes addThenRead addThenReadRun
    (i := 8) (j := 19) (t := 0) (u := 1) (x := ⟨0, none⟩) (fun _ => 0) (by decide) (by decide) rfl rfl rfl rfl
    rfl rfl (by decide) (by decide)
  obtain ⟨hmap, v, d, -, hv, -, hd⟩ := hfits (by decide)
  refine ⟨⟨m, h1, h2, h3, hmap⟩, hd.trans (congrArg some ?_)⟩
  unfold addThenRead at hv
  split at hv
  · obtain rfl := RegistryCall.limit.inj hv
    rfl
  · cases hv

end UsacLinux.MemoryLimit
