import UsacLinux.UsageTable.Counters
import UsacLinux.Lib.Transition
import Mathlib.Order.Monotone.Basic
import Mathlib.Tactic.IntervalCases

/-!
# Concurrent queries of the usage table

`luis_track_syscall_usage` tests the pointer, allocates and publishes a table
and copies it out with no lock between these steps. A query that saw NULL
publishes its own table, or the NULL of a failed `kzalloc`, whatever other
queries have published since. Each event is taken as one indivisible step;
Races.lean takes it apart into its loads and stores.
-/

namespace UsacLinux.UsageTable
open Kernel Lib.ByteMemory Lib.Transition

inductive QueryPc where
  | entry
  | sawNull
  | ready
  | returned (reply : Report)
  | faulted
  deriving DecidableEq

structure UsageState where
  counters : Option Counters
  query : ℕ → QueryPc

inductive UsageStep where
  | track (syscallId : PidT) (now : Timespec64)
  | test (q : ℕ)
  | publish (q : ℕ) (kzalloc : Bool)
  | copy (q : ℕ) (accepted estatic : ℕ)

def UsageState.initial : UsageState := ⟨none, fun _ => .entry⟩

def enabled (s : UsageState) : UsageStep → Prop
  | .track syscallId _ => 0 ≤ syscallId.toInt ∧ syscallId.toInt < maxSysCalls
  | .test q => s.query q = .entry
  | .publish q _ => s.query q = .sawNull
  | .copy q _ _ => s.query q = .ready

instance (s : UsageState) : (l : UsageStep) → Decidable (enabled s l)
  | .track _ _ => inferInstanceAs (Decidable (_ ∧ _))
  | .test _ => inferInstanceAs (Decidable (_ = _))
  | .publish _ _ => inferInstanceAs (Decidable (_ = _))
  | .copy _ _ _ => inferInstanceAs (Decidable (_ = _))

def UsageState.goto (s : UsageState) (q : ℕ) (pc : QueryPc) : UsageState :=
  ⟨s.counters, Function.update s.query q pc⟩

def next (s : UsageState) : UsageStep → UsageState
  | .track syscallId now => ⟨trackSyscall syscallId now s.counters, s.query⟩
  | .test q => s.goto q (if s.counters.isNone then .sawNull else .ready)
  | .publish q kzalloc => match initSyscallCounters kzalloc with
    | none => ⟨none, Function.update s.query q (.returned ⟨-ENOMEM, []⟩)⟩
    | some c => ⟨some c, Function.update s.query q .ready⟩
  | .copy q accepted estatic => match s.counters with
    | none => s.goto q .faulted
    | some c => s.goto q (.returned (copyCounters accepted estatic c))

abbrev UsageExecution := Execution (· = UsageState.initial) (Guarded enabled next)

/-! ### One step -/

theorem next_publish_counters (s : UsageState) (q : ℕ) (k : Bool) :
    (next s (.publish q k)).counters = initSyscallCounters k := by
  cases k <;> rfl

theorem next_copy_counters (s : UsageState) (q a d : ℕ) :
    (next s (.copy q a d)).counters = s.counters := by
  simp only [next]
  split
  · rfl
  · rfl

theorem track_usage {syscallId : PidT} (now : Timespec64)
    (h : 0 ≤ syscallId.toInt ∧ syscallId.toInt < maxSysCalls) (c : Counters) :
    ∃ c', trackSyscall syscallId now (some c) = some c' ∧ ∀ id : Fin maxSysCalls,
      (c'.usage id).count = if syscallId.toInt = (id : ℕ) then (c.usage id).count + 1
        else (c.usage id).count := by
  have hn : ¬(maxSysCalls : ℤ) ≤ syscallId.toInt := by omega
  refine ⟨c.record syscallId.toInt now, by simp only [trackSyscall, if_neg hn], fun id => ?_⟩
  rw [record_usage c _ now h.1 h.2]
  split <;> rfl

/- Number of events in the first steps of an execution. -/
def tracksBefore (e : UsageExecution) : ℕ → ℕ
  | 0 => 0
  | i + 1 => tracksBefore e i + match e.label i with
    | .track _ _ => 1
    | _ => 0

theorem tracksBefore_succ_le (e : UsageExecution) (i : ℕ) :
    tracksBefore e i ≤ tracksBefore e (i + 1) := by
  rw [tracksBefore]
  omega

/- No count exceeds the number of events, whoever published the table. -/
theorem count_le_tracks (e : UsageExecution) (i : ℕ) (hi : i ≤ e.length) (c : Counters)
    (hc : (e.state i).counters = some c) (id : Fin maxSysCalls) :
    (c.usage id).count.toNat ≤ tracksBefore e i := by
  induction i generalizing c with
  | zero =>
    rw [e.init] at hc
    cases hc
  | succ i ih =>
    have hle := tracksBefore_succ_le e i
    obtain ⟨hen, hs⟩ := e.step i (by omega)
    rw [hs] at hc
    cases hl : e.label i with
    | track syscallId now =>
      rw [hl] at hc hen
      cases hb : (e.state i).counters with
      | none => simp [next, hb, trackSyscall] at hc
      | some b =>
        obtain ⟨c', hc', hu⟩ := track_usage now hen b
        have heq : c' = c := by
          simp only [next, hb, hc'] at hc
          exact Option.some.inj hc
        have hib := ih (by omega) b hb
        rw [← heq, hu id, tracksBefore, hl]
        split
        · rw [BitVec.toNat_add]
          exact (Nat.mod_le _ _).trans (Nat.add_le_add_right hib 1)
        · omega
    | test q =>
      rw [hl] at hc
      exact (ih (by omega) c hc).trans hle
    | publish q k =>
      rw [hl, next_publish_counters] at hc
      cases k with
      | false => cases hc
      | true =>
        obtain rfl : Counters.zeroed = c := Option.some.inj hc
        exact Nat.zero_le _
    | copy q a d =>
      rw [hl, next_copy_counters] at hc
      exact (ih (by omega) c hc).trans hle

/- The table stays published and no count falls. -/
def CountsKept (s s' : UsageState) : Prop :=
  ∀ c, s.counters = some c → ∃ c', s'.counters = some c' ∧
    ∀ id, (c.usage id).count.toNat ≤ (c'.usage id).count.toNat

theorem CountsKept.of_eq {s s' : UsageState} (h : s'.counters = s.counters) : CountsKept s s' :=
  fun c hc => ⟨c, by rw [h, hc], fun _ => le_rfl⟩

theorem CountsKept.trans {a b c : UsageState} (h : CountsKept a b) (h' : CountsKept b c) :
    CountsKept a c := by
  intro x hx
  obtain ⟨y, hy, hxy⟩ := h x hx
  obtain ⟨z, hz, hyz⟩ := h' y hy
  exact ⟨z, hz, fun id => (hxy id).trans (hyz id)⟩

/- A publication replaces no table, or a table that has counted nothing. -/
def PublishSafe (s : UsageState) (kzalloc : Bool) : Prop :=
  ∀ c, s.counters = some c → kzalloc = true ∧ ∀ id, (c.usage id).count = 0

theorem publish_kept_iff (s : UsageState) (q : ℕ) (k : Bool) :
    CountsKept s (next s (.publish q k)) ↔ PublishSafe s k := by
  unfold CountsKept PublishSafe
  rw [next_publish_counters]
  constructor
  · intro h c hc
    obtain ⟨c', hc', hle⟩ := h c hc
    cases k with
    | false => cases hc'
    | true =>
      obtain rfl : Counters.zeroed = c' := Option.some.inj hc'
      refine ⟨rfl, fun id => BitVec.eq_of_toNat_eq ?_⟩
      exact Nat.le_zero.mp (hle id)
  · intro h c hc
    obtain ⟨rfl, hz⟩ := h c hc
    refine ⟨.zeroed, rfl, fun id => ?_⟩
    rw [hz id]
    exact le_rfl

theorem track_kept (s : UsageState) (syscallId : PidT) (now : Timespec64)
    (hid : 0 ≤ syscallId.toInt ∧ syscallId.toInt < maxSysCalls)
    (hb : ∀ c, s.counters = some c → ∀ id, (c.usage id).count.toNat + 1 < 2 ^ 64) :
    CountsKept s (next s (.track syscallId now)) := by
  intro c hc
  obtain ⟨c', hc', hu⟩ := track_usage now hid c
  refine ⟨c', by simp only [next, hc, hc'], fun id => ?_⟩
  rw [hu id]
  split
  · rw [BitVec.toNat_add]
    have h1 := hb c hc id
    have h2 : (1 : SizeT).toNat = 1 := rfl
    omega
  · exact le_rfl

/-! ### Whole executions -/

/- The query that copies at step `i` returns 0 with the table in `estatic`. -/
def Delivers (e : UsageExecution) (i estatic : ℕ) (reply : Report) : Prop :=
  i < e.length ∧ reply.ret = 0 ∧ ∃ q accepted, e.label i = .copy q accepted estatic ∧
    (e.state (i + 1)).query q = .returned reply

structure NoEventLost (e : UsageExecution) : Prop where
  kept : ∀ i < e.length, CountsKept (e.state i) (e.state (i + 1))
  delivered : ∀ i j d d' r r', i < j → Delivers e i d r → Delivers e j d' r' →
    ∀ mem mem' id, (readUsage (commit mem r.writes) d id).count.toNat ≤
      (readUsage (commit mem' r'.writes) d' id).count.toNat

theorem delivers_table {e : UsageExecution} {i d : ℕ} {r : Report} (h : Delivers e i d r) :
    ∃ c, (e.state i).counters = some c ∧
      ∀ mem id, readUsage (commit mem r.writes) d id = c.usage id := by
  obtain ⟨hi, h0, q, a, hl, hq⟩ := h
  obtain ⟨-, hs⟩ := e.step i hi
  rw [hs, hl] at hq
  cases hc : (e.state i).counters with
  | none =>
    simp only [next, hc, UsageState.goto, Function.update_self] at hq
    cases hq
  | some c =>
    simp only [next, hc, UsageState.goto, Function.update_self] at hq
    have hr : copyCounters a d c = r := QueryPc.returned.inj hq
    rw [← hr] at h0
    refine ⟨c, rfl, fun mem id => ?_⟩
    simp only [← hr, copyCounters_zero h0]
    exact readUsage_place mem d c id

theorem tracksBefore_track (e : UsageExecution) (i : ℕ) (hi : i < e.length) (syscallId : PidT)
    (now : Timespec64) (hl : e.label i = .track syscallId now) :
    tracksBefore e i + 1 ≤ tracksBefore e e.length := by
  have hm := monotone_nat_of_le_succ (tracksBefore_succ_le e) (show i + 1 ≤ e.length from hi)
  rw [tracksBefore, hl] at hm
  exact hm

theorem step_kept (e : UsageExecution) (hfew : tracksBefore e e.length < 2 ^ 64)
    (hsafe : ∀ i < e.length, ∀ q k, e.label i = .publish q k → PublishSafe (e.state i) k)
    (i : ℕ) (hi : i < e.length) : CountsKept (e.state i) (e.state (i + 1)) := by
  obtain ⟨hen, hs⟩ := e.step i hi
  rw [hs]
  cases hl : e.label i with
  | track syscallId now =>
    rw [hl] at hen
    have ht := tracksBefore_track e i hi syscallId now hl
    refine track_kept _ syscallId now hen fun c hc id => ?_
    have hb := count_le_tracks e i (by omega) c hc id
    omega
  | test q => exact .of_eq rfl
  | publish q k => exact (publish_kept_iff _ q k).mpr (hsafe i hi q k hl)
  | copy q a d => exact .of_eq (next_copy_counters _ q a d)

theorem usage_no_event_lost_iff (e : UsageExecution) (hfew : tracksBefore e e.length < 2 ^ 64) :
    NoEventLost e ↔
      ∀ i < e.length, ∀ q kzalloc, e.label i = .publish q kzalloc →
        PublishSafe (e.state i) kzalloc := by
  constructor
  · intro h i hi q k hl
    obtain ⟨-, hs⟩ := e.step i hi
    have hk := h.kept i hi
    rw [hs, hl] at hk
    exact (publish_kept_iff _ q k).mp hk
  · intro hsafe
    have hstep := step_kept e hfew hsafe
    refine ⟨hstep, ?_⟩
    intro i j d d' r r' hij hdi hdj mem mem' id
    obtain ⟨c, hc, hread⟩ := delivers_table hdi
    obtain ⟨c', hc', hread'⟩ := delivers_table hdj
    -- Between the two copies every step keeps the counts.
    have hchain := e.chain CountsKept (fun _ => .of_eq rfl) (fun _ _ _ => .trans) i j hij.le
      hdj.1.le (fun k _ hk => hstep k (hk.trans hdj.1))
    obtain ⟨x, hx, hle⟩ := hchain c hc
    rw [hc'] at hx
    obtain rfl := Option.some.inj hx
    rw [hread, hread']
    exact hle id

/- One query, one event and a second query, one after the other. -/
def sequentialQueries : List UsageStep :=
  [.test 0, .publish 0 true, .copy 0 24576 4096, .track Hook.read.syscallId ⟨5, 7⟩, .test 1,
    .copy 1 24576 4096]

/- Both queries see NULL; the second publishes after an event has been counted. -/
def racingQueries : List UsageStep :=
  [.test 0, .test 1, .publish 0 true, .track Hook.read.syscallId ⟨5, 7⟩, .copy 0 24576 4096,
    .publish 1 true, .copy 1 24576 4096]

def sequentialExecution : UsageExecution :=
  .ofLabels enabled next .initial rfl (.test 0) sequentialQueries (by decide)

def racingExecution : UsageExecution :=
  .ofLabels enabled next .initial rfl (.test 0) racingQueries (by decide)

theorem usage_no_event_lost_sequential : NoEventLost sequentialExecution :=
  (usage_no_event_lost_iff sequentialExecution (by decide)).mpr (by
    intro i hi q k hl c hc
    change i < 6 at hi
    interval_cases i
    · cases hl
    · cases hc
    · cases hl
    · cases hl
    · cases hl
    · cases hl)

theorem usage_race_loses_event :
    ¬∀ e : UsageExecution, tracksBefore e e.length < 2 ^ 64 → NoEventLost e := by
  intro h
  have hk := (h racingExecution (by decide)).kept 5 (by decide)
  have hsafe := (publish_kept_iff (racingExecution.state 5) 1 true).mp hk
  obtain ⟨-, hz⟩ := hsafe _ rfl
  exact absurd (hz 0) (by decide)

end UsacLinux.UsageTable
