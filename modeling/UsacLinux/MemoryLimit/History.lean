import UsacLinux.MemoryLimit.Linearizable
import UsacLinux.Lib.MutexProgress

/-!
# The list as a record of its history

Whatever the interleaving, the list at an instant is determined by the adds and
updates that have succeeded up to then, in the order in which they took
`memory_limit_lock`. Successes are never taken back and entries never removed,
and behind every stored limit stands a caller with `CAP_SYS_ADMIN`.
-/

namespace UsacLinux.MemoryLimit
open Kernel Lib.KeyedList Lib.Machine Lib.Mutex

/- The successful adds and updates so far, in the order in which they took the lock. -/
def history (calls : ℕ → RegistryCall) (s : RegistrySystem) : List LimitCall :=
  s.acquired.filterMap (successOf calls s)

def isAdd (c : LimitCall) : Bool := decide (c.op = .add)

/-! ### Properties every sequential call keeps -/

/- `Q` relates a list to the successful calls that led to it. -/
theorem run_history (Q : List MemoryLimitation → List LimitCall → Prop) (h0 : Q [] [])
    (hstep : ∀ list cs c, Q list cs →
      Q (execCall list c).1 (cs ++ (succeeded c (execCall list c).2).toList))
    (cs : List RegistryCall) :
    Q (run execCall [] cs).1
      ((cs.zip (run execCall [] cs).2).filterMap fun x => succeeded x.1 x.2) := by
  induction cs using List.reverseRecOn with
  | nil => exact h0
  | append_singleton cs c ih =>
    have hl := run_length execCall [] cs
    rw [run_concat, List.zip_append hl.symm, List.filterMap_append]
    have hs := hstep _ _ c ih
    cases hx : succeeded c (execCall (run execCall [] cs).1 c).2 with
    | none => simpa [hx] using hs
    | some d => simpa [hx] using hs

section State

variable {calls : ℕ → RegistryCall} {s : RegistrySystem} (h : RegistryLinearized calls s)
include h

theorem history_invariant (Q : List MemoryLimitation → List LimitCall → Prop) (h0 : Q [] [])
    (hstep : ∀ list cs c, Q list cs →
      Q (execCall list c).1 (cs ++ (succeeded c (execCall list c).2).toList)) :
    Q s.shared (history calls s) := by
  have hc := run_history Q h0 hstep (s.released.map calls)
  rw [← released_successes h] at hc
  change Q (committed calls execCall [] s) _ at hc
  rw [history, h.order, List.filterMap_append]
  cases hl : s.lock with
  | none =>
    rw [h.free hl]
    simpa using hc
  | some t =>
    rcases holder_cases h hl with ⟨ha, hsame⟩ | ⟨r, ha, he⟩
    · have hn : successOf calls s t = none := by rw [successOf, ha]; rfl
      rw [hsame]
      simpa [hn] using hc
    · have hs := hstep _ _ (calls t) hc
      rw [he] at hs
      have hn : successOf calls s t = succeeded (calls t) r := by rw [successOf, ha]; rfl
      cases hx : succeeded (calls t) r <;> simpa [hn, hx] using hs

theorem shared_valid : Valid s.shared :=
  history_invariant h (fun list _ => Valid list) empty_valid fun list _ c hv =>
    execCall_valid list c hv

end State

/-! ### The pids in the list -/

theorem pids_step {list : List MemoryLimitation} {cs : List LimitCall}
    (h : list.map MemoryLimitation.pid = (cs.filter isAdd).reverse.map LimitCall.pid)
    (c : RegistryCall) :
    (execCall list c).1.map MemoryLimitation.pid =
      ((cs ++ (succeeded c (execCall list c).2).toList).filter isAdd).reverse.map LimitCall.pid := by
  cases c with
  | get env args => simpa [execCall, succeeded] using h
  | limit c =>
    simp only [execCall, succeeded]
    rcases execLimit_cases list c with ⟨hne, hl⟩ | ⟨h0, -, ⟨hop, -, hl⟩ | ⟨hop, ha⟩⟩
    · simp [hne, hl, h]
    · simp [h0, hl, h, isAdd, hop]
    · rw [assignFirst_keys MemoryLimitation.pid (by simp) ha]
      simp [h0, h, isAdd, hop]

/- Pids and stored limits together say what the list is. -/
theorem entries_of_stored {list : List MemoryLimitation} {f : PidT → Option SizeT} (hv : Valid list)
    (hf : ∀ p, toMap list p = f p) :
    (list.map fun e => (e.pid, some e.memoryLimit)) =
      (list.map MemoryLimitation.pid).map fun p => (p, f p) := by
  rw [List.map_map]
  apply List.map_congr_left
  intro e he
  have hk := findKey_of_mem MemoryLimitation.pid hv.pidsNodup he
  simp only [Function.comp_apply, ← hf, toMap, hk, Option.map_some]

/-! ### Successes are never taken back -/

theorem filterMap_successOf_congr {calls : ℕ → RegistryCall} {s s' : RegistrySystem} {l : List ℕ}
    (h : ∀ u ∈ l, answer (s'.phase u) = answer (s.phase u)) :
    l.filterMap (successOf calls s') = l.filterMap (successOf calls s) := by
  apply List.filterMap_congr
  intro u hu
  simp only [successOf, h u hu]

theorem history_moves {calls : ℕ → RegistryCall} {s s' : RegistrySystem}
    (h : RegistryLinearized calls s) {t : ℕ} (hs : Moves registryProgram calls s t s') :
    history calls s <+: history calls s' := by
  have hother {l : List ℕ} (hl : ∀ u ∈ l, u ≠ t) :
      l.filterMap (successOf calls s') = l.filterMap (successOf calls s) :=
    filterMap_successOf_congr fun u hu => by rw [hs.phase_other (hl u hu)]
  -- a thread outside the order moves
  have hout (hna : t ∉ s.acquired) (ha : s.acquired <+: s'.acquired) :
      history calls s <+: history calls s' := by
    obtain ⟨l, hl⟩ := ha
    rw [history, history, ← hl, List.filterMap_append,
      hother fun u hu hut => hna (hut ▸ hu)]
    exact List.prefix_append ..
  -- a step that leaves the answer of `t` and the order as they are
  have hsame (ha : s'.acquired = s.acquired)
      (hp : answer (s'.phase t) = answer (s.phase t)) : history calls s <+: history calls s' := by
    have hall : ∀ u ∈ s.acquired, answer (s'.phase u) = answer (s.phase u) := by
      intro u _
      by_cases hut : u = t
      · rw [hut, hp]
      · rw [hs.phase_other hut]
    rw [history, history, ha, filterMap_successOf_congr hall]
  -- the holder works, and has no answer yet
  have hwork (hl : s.lock = some t) (hn : successOf calls s t = none)
      (ha : s'.acquired = s.acquired) : history calls s <+: history calls s' := by
    rw [history, history, ha, h.order, hl, List.filterMap_append, List.filterMap_append,
      hother fun u hu => h.released_ne hl hu]
    simp [hn]
  cases hs with
  | check hp => exact hout (h.idle t hp) (List.prefix_refl _)
  | lock p q hp hc hl =>
    exact hout (h.before t p hp (registry_disciplined.lock p q hc).1) (List.prefix_append ..)
  | work p f hp hc =>
    have hl := h.inside t p hp (registry_disciplined.work p f hc).1
    have ha : answer (s.phase t) = none := by rw [hp]; exact outcome_work hc
    exact hwork hl (by rw [successOf, ha]; rfl) rfl
  | unlock p q hp hc =>
    obtain ⟨r, hr⟩ := ret_of_unlock hc
    refine hsame rfl ?_
    rw [goto_self, hp, answer, answer, answer_unlock hc hr, answer_ret hr]
  | ret p r hp hc =>
    refine hsame rfl ?_
    rw [goto_self, hp, answer, answer, answer_ret hc]
    rfl

section Executions

variable {calls : ℕ → RegistryCall} (e : RegistryExecution calls)

theorem history_extends {i j : ℕ} (hij : i ≤ j) (hj : j ≤ e.length) :
    history calls (e.state i) <+: history calls (e.state j) := by
  refine e.chain (fun s s' => history calls s <+: history calls s') (fun _ => List.prefix_refl _)
    (fun _ _ _ => List.IsPrefix.trans) i j hij hj fun k _ hk => ?_
  exact history_moves (registry_linearized e k (by omega)) (moves_at e (by omega))

theorem state_pids {i : ℕ} (hi : i ≤ e.length) : (e.state i).shared.map MemoryLimitation.pid =
    ((history calls (e.state i)).filter isAdd).reverse.map LimitCall.pid :=
  history_invariant (registry_linearized e i hi)
    (fun list cs => list.map MemoryLimitation.pid = (cs.filter isAdd).reverse.map LimitCall.pid) rfl
    fun _ _ c hs => pids_step hs c

theorem state_pids_grow {i j : ℕ} (hij : i ≤ j) (hj : j ≤ e.length) :
    (e.state i).shared.map MemoryLimitation.pid <:+ (e.state j).shared.map MemoryLimitation.pid := by
  rw [state_pids e (hij.trans hj), state_pids e hj]
  exact (List.reverse_suffix.mpr ((history_extends e hij hj).filter isAdd)).map LimitCall.pid

end Executions

/- At every instant the list consists of one entry for each successful add, the
newest first, each with the limit of the last success for its pid. Between two
instants successes are only appended and entries only put in front. -/
theorem so2_list_is_its_history (calls : ℕ → RegistryCall) (e : RegistryExecution calls) :
    (∀ i ≤ e.length, Valid (e.state i).shared ∧
      ((e.state i).shared.map fun x => (x.pid, some x.memoryLimit)) =
        ((history calls (e.state i)).filter isAdd).reverse.map fun c =>
          (c.pid, lastLimit c.pid (history calls (e.state i)))) ∧
    (∀ i j, i ≤ j → j ≤ e.length →
      history calls (e.state i) <+: history calls (e.state j) ∧
      (e.state i).shared.map MemoryLimitation.pid <:+
        (e.state j).shared.map MemoryLimitation.pid) := by
  refine ⟨fun i hi => ?_, fun i j hij hj => ⟨history_extends e hij hj, state_pids_grow e hij hj⟩⟩
  have h := registry_linearized e i hi
  have hv := shared_valid h
  refine ⟨hv, ?_⟩
  rw [entries_of_stored hv (system_stored h), state_pids e hi, List.map_map]
  rfl

/-! ### Who stands behind a limit -/

/- The caller had `CAP_SYS_ADMIN`, and the process existed with an address space
that used no more than the limit. -/
structure Authorised (c : LimitCall) : Prop where
  capable : c.env.capable = true
  process : ∃ mm, c.env.mmOf c.pid = some mm ∧ pagesToKb (getMmRss mm) ≤ c.limit

theorem authorised_of_passed {c : LimitCall} (h : requestError c.env c.pid c.limit = none) :
    Authorised c := by
  unfold requestError at h
  split at h
  · cases h
  · split at h
    · cases h
    next hcap =>
      split at h
      · cases h
      next task htask =>
        split at h
        · cases h
        next mm hmm =>
          split at h
          · cases h
          next hle =>
            refine ⟨by simpa using hcap, mm, ?_, BitVec.not_lt.mp hle⟩
            rw [CallEnv.mmOf, htask, Option.bind_some, hmm]

/- Without the capability the checks end with one of the first two errors. -/
theorem refused_of_unprivileged {c : LimitCall} (h : c.env.capable = false) :
    ∃ r, refused (.limit c) = some (.limit r) ∧ (r.ret = -EINVAL ∨ r.ret = -EPERM) := by
  simp only [refused, requestError]
  by_cases hbad : c.pid.toInt ≤ 0 ∨ c.limit ≤ 0
  · exact ⟨_, by rw [if_pos hbad]; rfl, Or.inl rfl⟩
  · exact ⟨_, by rw [if_neg hbad, h]; rfl, Or.inr rfl⟩

theorem succeeded_eq {c : RegistryCall} {r : RegistryReply} {d : LimitCall}
    (h : succeeded c r = some d) : c = .limit d := by
  cases c with
  | get env args => cases h
  | limit c =>
    cases r with
    | get o => cases h
    | limit r =>
      simp only [succeeded] at h
      split at h
      · rw [Option.some.inj h]
      · cases h

theorem mem_of_lastLimit {p : PidT} {l : SizeT} {cs : List LimitCall} (h : lastLimit p cs = some l) :
    ∃ c ∈ cs, c.pid = p ∧ c.limit = l := by
  obtain ⟨c, hc, hl⟩ := Option.map_eq_some_iff.mp h
  have hm := List.mem_filter.mp (List.mem_of_getLast? hc)
  exact ⟨c, hm.1, by simpa using hm.2, hl⟩

theorem history_passed {calls : ℕ → RegistryCall} {s : RegistrySystem}
    (h : RegistryLinearized calls s) {c : LimitCall}
    (hc : c ∈ history calls s) :
    ∃ t ∈ s.acquired, calls t = .limit c ∧ requestError c.env c.pid c.limit = none := by
  obtain ⟨t, ht, hs⟩ := List.mem_filterMap.mp hc
  obtain ⟨r, -, hr⟩ := Option.bind_eq_some_iff.mp hs
  have hcall := succeeded_eq hr
  have hp := acquired_passed h ht
  rw [hcall] at hp
  exact ⟨t, ht, hcall, refused_limit hp⟩

/- Every limit in the list was put there by a call that succeeded with the
capability and at least the memory its process used; a caller without the
capability never gets as far as the lock. -/
theorem so2_limits_have_authority (calls : ℕ → RegistryCall) (e : RegistryExecution calls) :
    (∀ i ≤ e.length, ∀ entry ∈ (e.state i).shared, ∃ t ∈ (e.state i).acquired, ∃ c,
      calls t = .limit c ∧ c ∈ history calls (e.state i) ∧
      c.pid = entry.pid ∧ c.limit = entry.memoryLimit ∧ Authorised c) ∧
    (∀ i ≤ e.length, ∀ t c, calls t = .limit c → c.env.capable = false →
      t ∉ (e.state i).acquired ∧ ((e.state i).phase t = .idle ∨
        ∃ r, (e.state i).phase t = .done (.limit r) ∧ (r.ret = -EINVAL ∨ r.ret = -EPERM))) := by
  refine ⟨fun i hi entry he => ?_, fun i hi t c hc hcap => ?_⟩
  · have h := registry_linearized e i hi
    have hk := findKey_of_mem MemoryLimitation.pid (shared_valid h).pidsNodup he
    have hstored := system_stored h entry.pid
    rw [toMap, hk, Option.map_some] at hstored
    obtain ⟨c, hmem, hpid, hlimit⟩ := mem_of_lastLimit hstored.symm
    obtain ⟨t, ht, hcall, hpass⟩ := history_passed h hmem
    exact ⟨t, ht, c, hcall, hmem, hpid, hlimit, authorised_of_passed hpass⟩
  · have h := registry_linearized e i hi
    obtain ⟨r, hr, hret⟩ := refused_of_unprivileged hcap
    rw [← hc] at hr
    have hna : t ∉ (e.state i).acquired := fun ht => by
      have hp := acquired_passed h ht
      rw [hr] at hp
      cases hp
    refine ⟨hna, ?_⟩
    rcases h.outside t hna with hidle | ⟨p, -, hp⟩ | ⟨o, ho, hcheck⟩
    · exact Or.inl hidle
    · have hpass := check_passed hp
      rw [hr] at hpass
      cases hpass
    · have hrefused := check_inr hcheck
      rw [hr] at hrefused
      exact Or.inr ⟨r, by rw [ho, Option.some.inj hrefused], hret⟩

end UsacLinux.MemoryLimit
