import UsacLinux.UsageTable.Concurrent

/-!
# Which events the published table contains

Whoever publishes, the table behind `syscall_counters` is at every instant the
exact record of the events since the last publication, provided that each event
is one indivisible step, as Concurrent.lean takes it. The source gives no such
guarantee: `track_syscall` names the pointer for the count and again for the
time, so that a publication may fall between the two, and `count++` is itself a
load and a store. A query that has passed its test may still find the pointer
NULL when it copies: that happens exactly when another query's `kzalloc` has
failed in between.
-/

namespace UsacLinux.UsageTable
open Kernel Lib.ByteMemory Lib.Transition

/-! ### The history since the last publication -/

/- The events before instant `i` that the last publication has not discarded,
`none` while NULL is published. -/
def sincePublish (e : UsageExecution) : ℕ → Option (List Event)
  | 0 => none
  | i + 1 => match e.label i with
    | .track syscallId now => (sincePublish e i).map (· ++ [.track syscallId now])
    | .publish _ kzalloc => if kzalloc then some [] else none
    | _ => sincePublish e i

theorem holds_sincePublish (e : UsageExecution) (i : ℕ) (hi : i ≤ e.length) :
    Holds (sincePublish e i) (e.state i).counters := by
  induction i with
  | zero =>
    rw [e.init]
    rfl
  | succ i ih =>
    have h := ih (by omega)
    obtain ⟨hen, hs⟩ := e.step i (by omega)
    rw [hs, sincePublish]
    cases hl : e.label i with
    | track syscallId now =>
      rw [hl] at hen
      exact holds_track now hen.1 h
    | test q => exact h
    | publish q k =>
      rw [next_publish_counters]
      exact holds_allocated k
    | copy q a d =>
      rw [next_copy_counters]
      exact h

/- At every instant of every interleaving of whole events with the steps of the
queries, the table is NULL or holds for each id the number and the last time of
its events since the last publication, and what a query delivers is the table
of the instant of its copy. -/
theorem usage_table_since_last_publication (e : UsageExecution) :
    (∀ i ≤ e.length, Holds (sincePublish e i) (e.state i).counters) ∧
    (∀ i estatic reply, Delivers e i estatic reply → ∃ later, sincePublish e i = some later ∧
      ∀ mem id, readUsage (commit mem reply.writes) estatic id = usageOf (timesOf id later)) := by
  refine ⟨holds_sincePublish e, fun i d r hd => ?_⟩
  obtain ⟨c, hc, hread⟩ := delivers_table hd
  have h := holds_sincePublish e i hd.1.le
  cases hp : sincePublish e i with
  | none =>
    rw [hp] at h
    exact absurd (hc.symm.trans h) (by simp)
  | some later =>
    rw [hp, hc] at h
    obtain ⟨c', hc', -, hu⟩ := h
    obtain rfl := Option.some.inj hc'
    refine ⟨later, rfl, fun mem id => ?_⟩
    rw [hread, hu id]

/-! ### Queries that find NULL when they copy -/

/- A failed publication after which no table is published before instant `i`. -/
def NullSince (e : UsageExecution) (i j : ℕ) : Prop :=
  j < i ∧ (∃ q, e.label j = .publish q false) ∧
    ∀ k, j < k → k < i → ∀ q, e.label k ≠ .publish q true

theorem NullSince.succ {e : UsageExecution} {i j : ℕ} (h : NullSince e i j)
    (hl : ∀ q, e.label i ≠ .publish q true) : NullSince e (i + 1) j := by
  obtain ⟨hj, hq, hno⟩ := h
  refine ⟨by omega, hq, fun k hk hki => ?_⟩
  by_cases hki' : k = i
  · rw [hki']
    exact hl
  · exact hno k hk (by omega)

/- The query a step belongs to. -/
def UsageStep.owner : UsageStep → Option ℕ
  | .track _ _ => none
  | .test q => some q
  | .publish q _ => some q
  | .copy q _ _ => some q

theorem next_query_other (s : UsageState) {l : UsageStep} {q : ℕ} (h : l.owner ≠ some q) :
    (next s l).query q = s.query q := by
  cases l with
  | track id now => rfl
  | test r => exact Function.update_of_ne (fun hr => h (by rw [hr]; rfl)) ..
  | publish r k => cases k <;> exact Function.update_of_ne (fun hr => h (by rw [hr]; rfl)) ..
  | copy r a d =>
    simp only [next]
    split <;> exact Function.update_of_ne (fun hr => h (by rw [hr]; rfl)) ..

theorem counters_stay_null (e : UsageExecution) {i j : ℕ} (hi : i ≤ e.length)
    (h : NullSince e i j) : (e.state i).counters = none := by
  obtain ⟨hji, ⟨q, hq⟩, hno⟩ := h
  induction i with
  | zero => omega
  | succ i ih =>
    obtain ⟨-, hs⟩ := e.step i (by omega)
    rw [hs]
    by_cases hij : i = j
    · rw [hij, hq, next_publish_counters]
      rfl
    · have hnull := ih (by omega) (by omega) fun k hk hki => hno k hk (by omega)
      cases hl : e.label i with
      | track id now => simp only [next, hnull, trackSyscall]
      | test r => exact hnull
      | publish r k =>
        rw [next_publish_counters]
        cases k with
        | false => rfl
        | true => exact absurd hl (hno i (by omega) (by omega) r)
      | copy r a d => rw [next_copy_counters, hnull]

theorem trackSyscall_none {syscallId : PidT} {now : Timespec64} {counters : Option Counters}
    (h : trackSyscall syscallId now counters = none) : counters = none := by
  cases counters with
  | none => rfl
  | some c =>
    simp only [trackSyscall] at h
    split at h <;> cases h

/- A query is ready only while a table is published, or when NULL has been put
in its place since. -/
theorem ready_null (e : UsageExecution) (q : ℕ) {i : ℕ} (hi : i ≤ e.length)
    (hq : (e.state i).query q = .ready) (hc : (e.state i).counters = none) :
    ∃ j, NullSince e i j ∧ (e.state j).query q = .ready := by
  induction i with
  | zero =>
    rw [e.init] at hq
    cases hq
  | succ i ih =>
    obtain ⟨-, hs⟩ := e.step i (by omega)
    rw [hs] at hq hc
    have hgo (hl : ∀ r, e.label i ≠ .publish r true) (hq' : (e.state i).query q = .ready)
        (hc' : (e.state i).counters = none) :
        ∃ j, NullSince e (i + 1) j ∧ (e.state j).query q = .ready := by
      obtain ⟨j, hn, hr⟩ := ih (by omega) hq' hc'
      exact ⟨j, hn.succ hl, hr⟩
    cases hl : e.label i with
    | track id now =>
      rw [hl] at hq hc
      exact hgo (by simp [hl]) hq (trackSyscall_none hc)
    | test r =>
      rw [hl] at hq hc
      change (e.state i).counters = none at hc
      by_cases hr : r = q
      · subst hr
        simp [next, UsageState.goto, hc] at hq
      · rw [next_query_other _ (by simp [UsageStep.owner, hr])] at hq
        exact hgo (by simp [hl]) hq hc
    | publish r k =>
      rw [hl] at hq hc
      cases k with
      | true => cases hc
      | false =>
        by_cases hr : r = q
        · subst hr
          simp [next, initSyscallCounters] at hq
        · rw [next_query_other _ (by simp [UsageStep.owner, hr])] at hq
          exact ⟨i, ⟨by omega, ⟨r, hl⟩, fun k hk hki => by omega⟩, hq⟩
    | copy r a d =>
      rw [hl] at hq hc
      rw [next_copy_counters] at hc
      by_cases hr : r = q
      · subst hr
        simp [next, hc, UsageState.goto] at hq
      · rw [next_query_other _ (by simp [UsageStep.owner, hr])] at hq
        exact hgo (by simp [hl]) hq hc

theorem copy_faults_iff (e : UsageExecution) {i : ℕ} (hi : i < e.length) {q a d : ℕ}
    (hl : e.label i = .copy q a d) :
    (e.state (i + 1)).query q = .faulted ↔
      ∃ j, NullSince e i j ∧ (e.state j).query q = .ready := by
  obtain ⟨hen, hs⟩ := e.step i hi
  rw [hl] at hen
  rw [hs, hl]
  constructor
  · intro hf
    cases hc : (e.state i).counters with
    | none => exact ready_null e q hi.le hen hc
    | some c => simp [next, hc, UsageState.goto] at hf
  · rintro ⟨j, hn, -⟩
    simp [next, counters_stay_null e hi.le hn, UsageState.goto]

theorem faulted_at_copy (e : UsageExecution) (q : ℕ) {i : ℕ} (hi : i ≤ e.length)
    (hf : (e.state i).query q = .faulted) :
    ∃ k < i, (∃ a d, e.label k = .copy q a d) ∧ (e.state (k + 1)).query q = .faulted := by
  induction i with
  | zero =>
    rw [e.init] at hf
    cases hf
  | succ i ih =>
    by_cases hprev : (e.state i).query q = .faulted
    · obtain ⟨k, hk, h⟩ := ih (by omega) hprev
      exact ⟨k, by omega, h⟩
    · obtain ⟨-, hs⟩ := e.step i (by omega)
      have hfs := hf
      rw [hs] at hfs
      by_cases ho : (e.label i).owner = some q
      · cases hl : e.label i with
        | track id now => simp [hl, UsageStep.owner] at ho
        | test r =>
          obtain rfl : r = q := by simpa [hl, UsageStep.owner] using ho
          rw [hl] at hfs
          simp only [next, UsageState.goto, Function.update_self] at hfs
          split at hfs <;> cases hfs
        | publish r k =>
          obtain rfl : r = q := by simpa [hl, UsageStep.owner] using ho
          rw [hl] at hfs
          cases k <;> simp [next, initSyscallCounters] at hfs
        | copy r a d =>
          obtain rfl : r = q := by simpa [hl, UsageStep.owner] using ho
          exact ⟨i, by omega, ⟨a, d, hl⟩, hf⟩
      · rw [next_query_other _ ho] at hfs
        exact absurd hfs hprev

/- A copy dereferences NULL exactly when the query was ready at a failed
publication after which nobody has published a table. No query faults unless
the `kzalloc` of another one has failed. -/
theorem usage_query_faults_iff (e : UsageExecution) :
    (∀ i < e.length, ∀ q a d, e.label i = .copy q a d →
      ((e.state (i + 1)).query q = .faulted ↔
        ∃ j, NullSince e i j ∧ (e.state j).query q = .ready)) ∧
    (∀ i ≤ e.length, ∀ q, (e.state i).query q = .faulted →
      ∃ j < i, ∃ r, r ≠ q ∧ e.label j = .publish r false) := by
  refine ⟨fun i hi q a d hl => copy_faults_iff e hi hl, fun i hi q hf => ?_⟩
  obtain ⟨k, hk, ⟨a, d, hl⟩, hfk⟩ := faulted_at_copy e q hi hf
  obtain ⟨j, ⟨hj, ⟨r, hr⟩, -⟩, hready⟩ := (copy_faults_iff e (by omega) hl).mp hfk
  refine ⟨j, by omega, r, ?_, hr⟩
  rintro rfl
  obtain ⟨hen, -⟩ := e.step j (by omega)
  rw [hr] at hen
  exact absurd (hen.symm.trans hready) (by simp)

/- Both queries see NULL, the first publishes a table, the second NULL again. -/
def failingQueries : List UsageStep :=
  [.test 0, .test 1, .publish 0 true, .publish 1 false, .copy 0 24576 4096]

example : (failingQueries.foldl next .initial).query 0 = .faulted := by decide

end UsacLinux.UsageTable
