import UsacLinux.UsageTable.Counters
import UsacLinux.Lib.RacyCounter
import UsacLinux.Lib.Transition
import Mathlib.Tactic.IntervalCases

/-!
# Concurrent events word by word

`track_syscall` increments a counter and assigns a time with plain memory
accesses and no lock (syscall2.c:113-122). Here, while one table stays
published, every load and store of a word is a step of its own, and the calls
of any number of hooks interleave.
-/

namespace UsacLinux.UsageTable
open Kernel Lib.Transition Lib.RacyCounter

/- Places in `track_syscall` behind its test. `count++` is a load and a store,
`time_last_used = now` a store for each of the two words. -/
inductive TrackPc where
  | entry
  | loaded (count : SizeT)
  | counted
  | clocked (now : Timespec64)
  | halfStamped (now : Timespec64)
  | returned
  deriving DecidableEq

@[ext] structure RaceState where
  usage : Fin maxSysCalls → SyscallUsage
  track : ℕ → TrackPc

/- The event that moves, and what `ktime_get_real_ts64` would give it. -/
structure RaceStep where
  event : ℕ
  clock : Timespec64

def RaceState.initial : RaceState := ⟨Counters.zeroed.usage, fun _ => .entry⟩

def RaceState.goto (s : RaceState) (t : ℕ) (pc : TrackPc) : RaceState :=
  ⟨s.usage, Function.update s.track t pc⟩

def RaceState.assign (s : RaceState) (id : Fin maxSysCalls) (u : SyscallUsage) : RaceState :=
  ⟨Function.update s.usage id u, s.track⟩

def canMove (s : RaceState) (l : RaceStep) : Prop := s.track l.event ≠ .returned

/- The two words of a time. -/
inductive TimeWord where
  | sec
  | nsec

def Timespec64.word (now : Timespec64) : TimeWord → BitVec 64
  | .sec => now.tvSec
  | .nsec => now.tvNsec

/- The reading a word of which the next step stores. -/
def TrackPc.stores : TimeWord → TrackPc → Option Timespec64
  | .sec, .clocked now => some now
  | .nsec, .halfStamped now => some now
  | _, _ => none

/- `ids t` is the `syscall_id` event `t` is called with. -/
def raceNext (ids : ℕ → Fin maxSysCalls) (s : RaceState) (l : RaceStep) : RaceState :=
  let id := ids l.event
  let u := s.usage id
  match s.track l.event with
  | .entry => s.goto l.event (.loaded u.count)
  | .loaded v => (s.assign id {u with count := v + 1}).goto l.event .counted
  | .counted => s.goto l.event (.clocked l.clock)
  | .clocked now =>
    (s.assign id {u with timeLastUsed := ⟨now.tvSec, u.timeLastUsed.tvNsec⟩}).goto l.event
      (.halfStamped now)
  | .halfStamped now =>
    (s.assign id {u with timeLastUsed := ⟨u.timeLastUsed.tvSec, now.tvNsec⟩}).goto l.event .returned
  | .returned => s

abbrev RaceExecution (ids : ℕ → Fin maxSysCalls) :=
  Execution (· = RaceState.initial) (Guarded canMove (raceNext ids))

section Steps

variable (ids : ℕ → Fin maxSysCalls) (s : RaceState)

/- The five steps of one event, made in one go, are `track_syscall`. -/
theorem race_steps_track (l : RaceStep) (h : s.track l.event = .entry) :
    (List.replicate 5 l).foldl (raceNext ids) s =
      ⟨(Counters.record ⟨s.usage, []⟩ (ids l.event) l.clock).usage,
        Function.update s.track l.event .returned⟩ := by
  have hid : (0 : ℤ) ≤ (ids l.event : ℕ) ∧ ((ids l.event : ℕ) : ℤ) < maxSysCalls := by
    have := (ids l.event).isLt
    omega
  simp [List.replicate, raceNext, h, RaceState.goto, RaceState.assign, Counters.record, hid]

/-! ### What one step does -/

theorem raceNext_count (l : RaceStep) (id : Fin maxSysCalls) :
    ((raceNext ids s l).usage id).count = match s.track l.event with
      | .loaded v => if ids l.event = id then v + 1 else (s.usage id).count
      | _ => (s.usage id).count := by
  by_cases hid : ids l.event = id
  · subst hid
    cases h : s.track l.event <;> simp [raceNext, h, RaceState.goto, RaceState.assign]
  · cases h : s.track l.event <;>
      simp [raceNext, h, RaceState.goto, RaceState.assign, hid, Function.update_of_ne (Ne.symm hid)]

theorem raceNext_word (w : TimeWord) (l : RaceStep) (id : Fin maxSysCalls) :
    ((raceNext ids s l).usage id).timeLastUsed.word w = match (s.track l.event).stores w with
      | some now => if ids l.event = id then now.word w else (s.usage id).timeLastUsed.word w
      | none => (s.usage id).timeLastUsed.word w := by
  by_cases hid : ids l.event = id
  · subst hid
    cases w <;> cases h : s.track l.event <;>
      simp [raceNext, h, RaceState.goto, RaceState.assign, TrackPc.stores, Timespec64.word]
  · cases w <;> cases h : s.track l.event <;>
      simp [raceNext, h, RaceState.goto, RaceState.assign, TrackPc.stores, hid,
        Function.update_of_ne (Ne.symm hid)]

theorem raceNext_track_other {l : RaceStep} {t : ℕ} (h : t ≠ l.event) :
    (raceNext ids s l).track t = s.track t := by
  cases hp : s.track l.event <;>
    simp [raceNext, hp, RaceState.goto, RaceState.assign, Function.update_of_ne h]

end Steps

/-! ### Counts -/

section Executions

variable {ids : ℕ → Fin maxSysCalls} (e : RaceExecution ids)

/- The instant at which event `t` last loaded its counter. -/
def loadedAt (t : ℕ) : ℕ → ℕ
  | 0 => 0
  | i + 1 => if (e.label i).event = t ∧ (e.state i).track t = .entry then i else loadedAt t i

theorem loadedAt_le (t i : ℕ) : loadedAt e t i ≤ i := by
  induction i with
  | zero => exact le_rfl
  | succ i ih =>
    rw [loadedAt]
    split
    · omega
    · omega

/- What an event is about to increment is what it found at its load. -/
theorem loaded_count (i : ℕ) (hi : i ≤ e.length) (t : ℕ) (v : SizeT)
    (h : (e.state i).track t = .loaded v) :
    v = ((e.state (loadedAt e t i)).usage (ids t)).count := by
  induction i with
  | zero =>
    rw [e.init] at h
    cases h
  | succ i ih =>
    obtain ⟨-, hs⟩ := e.step i (by omega)
    rw [hs] at h
    rw [loadedAt]
    by_cases ht : (e.label i).event = t
    · subst ht
      cases hp : (e.state i).track (e.label i).event with
      | entry =>
        simp only [raceNext, hp, RaceState.goto, Function.update_self, TrackPc.loaded.injEq] at h
        rw [if_pos ⟨rfl, rfl⟩, h]
      | returned =>
        simp only [raceNext, hp] at h
        cases h
      | _ =>
        simp only [raceNext, hp, RaceState.goto, Function.update_self] at h
        cases h
    · rw [raceNext_track_other ids _ (Ne.symm ht)] at h
      rw [if_neg fun hc => ht hc.1]
      exact ih (by omega) h

/- When step `k` stores a count for `id`, the instant of the load. -/
def storeAt (id : Fin maxSysCalls) (k : ℕ) : Option ℕ :=
  if k < e.length ∧ ids (e.label k).event = id then
    match (e.state k).track (e.label k).event with
    | .loaded _ => some (loadedAt e (e.label k).event k)
    | _ => none
  else none

theorem storeAt_some {id : Fin maxSysCalls} {k l : ℕ} (h : storeAt e id k = some l) :
    k < e.length ∧ ids (e.label k).event = id ∧ l = loadedAt e (e.label k).event k ∧
      ∃ v, (e.state k).track (e.label k).event = .loaded v := by
  unfold storeAt at h
  split at h
  next hk =>
    cases hp : (e.state k).track (e.label k).event with
    | loaded v =>
      rw [hp] at h
      exact ⟨hk.1, hk.2, (Option.some.inj h).symm, v, rfl⟩
    | _ =>
      rw [hp] at h
      cases h
  · cases h

theorem count_of_no_store {id : Fin maxSysCalls} {k : ℕ} (hk : k < e.length)
    (h : storeAt e id k = none) :
    ((e.state (k + 1)).usage id).count = ((e.state k).usage id).count := by
  obtain ⟨-, hs⟩ := e.step k hk
  rw [hs, raceNext_count]
  cases hp : (e.state k).track (e.label k).event with
  | loaded v =>
    have hne : ids (e.label k).event ≠ id := by
      intro hid
      simp [storeAt, hk, hid, hp] at h
    simp only [if_neg hne]
  | _ => rfl

/- The counter of one id as a cell of the library. -/
def countCell (id : Fin maxSysCalls) : Cell (fun v : SizeT => v + 1) where
  value k := ((e.state (min k e.length)).usage id).count
  store := storeAt e id
  loaded {i l} h := by
    rw [(storeAt_some e h).2.2.1]
    exact loadedAt_le e _ i
  keep {i} h := by
    by_cases hi : i < e.length
    · rw [Nat.min_eq_left (by omega), Nat.min_eq_left hi.le]
      exact count_of_no_store e hi h
    · rw [Nat.min_eq_right (by omega), Nat.min_eq_right (by omega)]
  put {i l} h := by
    obtain ⟨hi, hid, rfl, v, hv⟩ := storeAt_some e h
    have hle := loadedAt_le e (e.label i).event i
    have hload := loaded_count e i hi.le _ v hv
    obtain ⟨-, hs⟩ := e.step i hi
    rw [Nat.min_eq_left (by omega), Nat.min_eq_left (by omega), hs, raceNext_count, hv]
    simp only [if_pos hid]
    rw [hload, hid]

theorem iterate_succ_ofNat (n : ℕ) : (fun v : SizeT => v + 1)^[n] 0 = BitVec.ofNat 64 n := by
  induction n with
  | zero => rfl
  | succ n ih =>
    rw [Function.iterate_succ_apply', ih, BitVec.ofNat_add]
    rfl

theorem count_reflected (i : ℕ) (hi : i ≤ e.length) (id : Fin maxSysCalls) :
    ((e.state i).usage id).count = BitVec.ofNat 64 ((countCell e id).reflected i) := by
  have h := (countCell e id).value_eq i
  have h0 : (countCell e id).value 0 = 0 := by
    simp only [countCell, Nat.zero_min, e.init]
    rfl
  rw [h0, iterate_succ_ofNat] at h
  simpa only [countCell, Nat.min_eq_left hi] using h

/-! ### Times -/

/- The last event of `id` that has stored the given word, with its clock reading. -/
def stampFrom (w : TimeWord) (id : Fin maxSysCalls) : ℕ → Option (ℕ × Timespec64)
  | 0 => none
  | i + 1 => match ((e.state i).track (e.label i).event).stores w with
    | some now =>
      if ids (e.label i).event = id then some ((e.label i).event, now) else stampFrom w id i
    | none => stampFrom w id i

/- Event `t` has read `now` before instant `i`. -/
def Read (t : ℕ) (now : Timespec64) (i : ℕ) : Prop :=
  ∃ j < i, e.label j = ⟨t, now⟩ ∧ (e.state j).track t = .counted

/- Behind its reading an event is at one of three places. -/
theorem read_pc {t i : ℕ} {now : Timespec64} (hi : i ≤ e.length) (h : Read e t now i) :
    (e.state i).track t ∈ [.clocked now, .halfStamped now, .returned] := by
  induction i with
  | zero =>
    obtain ⟨j, hj, -⟩ := h
    omega
  | succ i ih =>
    obtain ⟨j, hj, hl, hp⟩ := h
    obtain ⟨-, hs⟩ := e.step i (by omega)
    rw [hs]
    by_cases hji : j = i
    · subst hji
      simp [hl, raceNext, hp, RaceState.goto]
    · have hpc := ih (by omega) ⟨j, by omega, hl, hp⟩
      by_cases ht : (e.label i).event = t
      · subst ht
        simp only [List.mem_cons, List.not_mem_nil, or_false] at hpc
        rcases hpc with hpc | hpc | hpc <;>
          simp [raceNext, hpc, RaceState.goto]
      · rw [raceNext_track_other ids _ (Ne.symm ht)]
        exact hpc

theorem read_unique {t i : ℕ} {a b : Timespec64} (hi : i ≤ e.length) (ha : Read e t a i)
    (hb : Read e t b i) : a = b := by
  obtain ⟨j, hj, hlj, hpj⟩ := ha
  obtain ⟨k, hk, hlk, hpk⟩ := hb
  rcases lt_trichotomy j k with hlt | rfl | hlt
  · have hpc := read_pc e (show k ≤ e.length by omega) ⟨j, hlt, hlj, hpj⟩
    simp [hpk] at hpc
  · rw [hlj] at hlk
    exact congrArg RaceStep.clock hlk
  · have hpc := read_pc e (show j ≤ e.length by omega) ⟨k, hlt, hlk, hpk⟩
    simp [hpj] at hpc

theorem Read.succ {e : RaceExecution ids} {t i : ℕ} {now : Timespec64} (h : Read e t now i) :
    Read e t now (i + 1) := by
  obtain ⟨j, hj, hr⟩ := h
  exact ⟨j, by omega, hr⟩

/- The reading an event carries to its stores is its own. -/
theorem carried_read {t i : ℕ} {now : Timespec64} (hi : i ≤ e.length)
    (h : (e.state i).track t = .clocked now ∨ (e.state i).track t = .halfStamped now) :
    Read e t now i := by
  induction i with
  | zero =>
    rw [e.init] at h
    rcases h with h | h <;> cases h
  | succ i ih =>
    obtain ⟨-, hs⟩ := e.step i (by omega)
    rw [hs] at h
    by_cases ht : (e.label i).event = t
    · subst ht
      cases hp : (e.state i).track (e.label i).event with
      | counted =>
        refine ⟨i, by omega, ?_, hp⟩
        simp only [raceNext, hp, RaceState.goto, Function.update_self, TrackPc.clocked.injEq,
          reduceCtorEq, or_false] at h
        rw [← h]
      | clocked a =>
        simp only [raceNext, hp, RaceState.goto, Function.update_self, reduceCtorEq, false_or,
          TrackPc.halfStamped.injEq] at h
        subst h
        exact (ih (by omega) (Or.inl hp)).succ
      | returned => simp [raceNext, hp] at h
      | _ => simp [raceNext, hp, RaceState.goto] at h
    · rw [raceNext_track_other ids _ (Ne.symm ht)] at h
      exact (ih (by omega) h).succ

theorem stores_pc {w : TimeWord} {pc : TrackPc} {now : Timespec64} (h : pc.stores w = some now) :
    pc = .clocked now ∨ pc = .halfStamped now := by
  cases w <;> cases pc <;> simp_all [TrackPc.stores]

theorem stampFrom_read {w : TimeWord} {id : Fin maxSysCalls} {i t : ℕ} {now : Timespec64}
    (hi : i ≤ e.length) (h : stampFrom e w id i = some (t, now)) : ids t = id ∧ Read e t now i := by
  induction i with
  | zero => cases h
  | succ i ih =>
    have hold (h' : stampFrom e w id i = some (t, now)) : ids t = id ∧ Read e t now (i + 1) := by
      obtain ⟨hid, hr⟩ := ih (by omega) h'
      exact ⟨hid, hr.succ⟩
    rw [stampFrom] at h
    split at h
    next a ha =>
      split at h
      next hid =>
        obtain ⟨rfl, rfl⟩ := Prod.mk.inj (Option.some.inj h)
        exact ⟨hid, (carried_read e (by omega) (stores_pc ha)).succ⟩
      · exact hold h
    · exact hold h

theorem word_from (w : TimeWord) (id : Fin maxSysCalls) (i : ℕ) (hi : i ≤ e.length) :
    ((e.state i).usage id).timeLastUsed.word w =
      (stampFrom e w id i).elim 0 fun x => x.2.word w := by
  induction i with
  | zero =>
    rw [e.init]
    cases w <;> rfl
  | succ i ih =>
    obtain ⟨-, hs⟩ := e.step i (by omega)
    rw [hs, raceNext_word, stampFrom, ih (by omega)]
    cases ((e.state i).track (e.label i).event).stores w with
    | none => rfl
    | some now =>
      simp only
      split <;> rfl

end Executions

/- Whatever the interleaving, a counter reflects at most the increments stored
and at least one once there is any; it reflects all of them exactly when no
event of the same id stores between another one's load and store. -/
theorem usage_racing_counts (ids : ℕ → Fin maxSysCalls) (e : RaceExecution ids)
    (id : Fin maxSysCalls) :
    (∀ i ≤ e.length, ((e.state i).usage id).count =
      BitVec.ofNat 64 ((countCell e id).reflected i)) ∧
    (∀ i, (countCell e id).reflected i ≤ (countCell e id).stores i ∧
      (0 < (countCell e id).stores i → 0 < (countCell e id).reflected i) ∧
      ((countCell e id).reflected i = (countCell e id).stores i ↔ (countCell e id).Serial i)) :=
  ⟨fun i hi => count_reflected e i hi id, fun i => ⟨(countCell e id).reflected_le_stores i,
    (countCell e id).reflected_pos, (countCell e id).reflected_eq_stores_iff i⟩⟩

/- The two words of a time come from clock readings of events of that id, the
last to have stored each of them, and form one reading when that is the same
event. -/
theorem usage_racing_times (ids : ℕ → Fin maxSysCalls) (e : RaceExecution ids)
    (id : Fin maxSysCalls) :
    let sec := stampFrom e .sec id
    let nsec := stampFrom e .nsec id
    (∀ i ≤ e.length, ((e.state i).usage id).timeLastUsed =
      ⟨(sec i).elim 0 fun x => x.2.tvSec, (nsec i).elim 0 fun x => x.2.tvNsec⟩) ∧
    (∀ i ≤ e.length, ∀ t now, sec i = some (t, now) ∨ nsec i = some (t, now) →
      ids t = id ∧ Read e t now i) ∧
    (∀ i ≤ e.length, ∀ t a b, sec i = some (t, a) → nsec i = some (t, b) →
      ((e.state i).usage id).timeLastUsed = a) := by
  intro sec nsec
  have htime (i : ℕ) (hi : i ≤ e.length) : ((e.state i).usage id).timeLastUsed =
      ⟨(sec i).elim 0 fun x => x.2.tvSec, (nsec i).elim 0 fun x => x.2.tvNsec⟩ :=
    congr (congrArg Timespec64.mk (word_from e .sec id i hi)) (word_from e .nsec id i hi)
  refine ⟨htime, ?_, ?_⟩
  · rintro i hi t now (h | h)
    · exact stampFrom_read e hi h
    · exact stampFrom_read e hi h
  · intro i hi t a b ha hb
    have hra := (stampFrom_read e hi ha).2
    have hrb := (stampFrom_read e hi hb).2
    rw [htime i hi, ha, hb, read_unique e hi hrb hra]
    rfl

/- Two reads stamp in turn: the seconds of one stay with the nanoseconds of the
other. -/
example : let a : RaceStep := ⟨0, ⟨1, 10⟩⟩
    let b : RaceStep := ⟨1, ⟨2, 20⟩⟩
    (([a, a, a, b, b, b, a, b, b, a].foldl (raceNext fun _ => 0) .initial).usage 0).timeLastUsed =
      ⟨2, 10⟩ := by decide

/-! ### The worst interleaving -/

section Lockstep

/- Place of an event after `r` steps of its own, when it has loaded 0. -/
def lockstepPc : ℕ → TrackPc
  | 0 => .entry
  | 1 => .loaded 0
  | 2 => .counted
  | 3 => .clocked ⟨0, 0⟩
  | 4 => .halfStamped ⟨0, 0⟩
  | _ => .returned

variable (n : ℕ) (id : Fin maxSysCalls)

/- The events `0 … n` take turns; those below `m` have made one step more. -/
def lockstepState (r m : ℕ) : RaceState :=
  ⟨Function.update Counters.zeroed.usage id ⟨if r = 0 ∨ r = 1 ∧ m = 0 then 0 else 1, ⟨0, 0⟩⟩,
    fun t => if t < m then lockstepPc (r + 1) else if t ≤ n then lockstepPc r else .entry⟩

theorem lockstep_wrap (r : ℕ) : lockstepState n id r (n + 1) = lockstepState n id (r + 1) 0 := by
  unfold lockstepState
  congr 1
  · cases r with
    | zero => simp
    | succ r => simp
  · funext t
    by_cases ht : t < n + 1
    · simp [ht, Nat.lt_succ_iff.mp ht]
    · simp [ht, show ¬t ≤ n by omega]

theorem lockstep_initial : lockstepState n id 0 0 = .initial := by
  unfold lockstepState RaceState.initial
  congr 1
  · exact Function.update_eq_self id _
  · funext t
    simp [lockstepPc]

theorem lockstep_next {r m : ℕ} (hr : r < 5) (hm : m ≤ n) :
    Guarded canMove (raceNext fun _ => id) (lockstepState n id r m) ⟨m, ⟨0, 0⟩⟩
      (lockstepState n id r (m + 1)) := by
  have hpc : (lockstepState n id r m).track m = lockstepPc r := by simp [lockstepState, hm]
  have htrack : (lockstepState n id r (m + 1)).track =
      Function.update (lockstepState n id r m).track m (lockstepPc (r + 1)) := by
    funext t
    by_cases ht : t = m
    · simp [ht, lockstepState]
    · have hlt : t < m + 1 ↔ t < m := by omega
      simp only [Function.update_of_ne ht, lockstepState, hlt]
  refine ⟨?_, ?_⟩
  · change (lockstepState n id r m).track m ≠ _
    rw [hpc]
    interval_cases r <;> decide
  · refine RaceState.ext ?_ (htrack.trans ?_)
    · unfold raceNext
      rw [hpc]
      interval_cases r <;> simp [lockstepPc, RaceState.goto, RaceState.assign, lockstepState]
    · unfold raceNext
      rw [hpc]
      interval_cases r <;> simp [lockstepPc, RaceState.goto, RaceState.assign, lockstepState]

/- The state after `k` steps in all. -/
def lockstepAt (k : ℕ) : RaceState := lockstepState n id (k / (n + 1)) (k % (n + 1))

theorem lockstepAt_init : lockstepAt n id 0 = .initial := by
  rw [lockstepAt, Nat.zero_div, Nat.zero_mod, lockstep_initial]

theorem lockstepAt_step (k : ℕ) (hk : k < 5 * (n + 1)) :
    Guarded canMove (raceNext fun _ => id) (lockstepAt n id k) ⟨k % (n + 1), ⟨0, 0⟩⟩
      (lockstepAt n id (k + 1)) := by
  have hr : k / (n + 1) < 5 := Nat.div_lt_of_lt_mul (by omega)
  have hm : k % (n + 1) < n + 1 := Nat.mod_lt _ (by omega)
  have hstep := lockstep_next n id hr (Nat.lt_succ_iff.mp hm)
  have hdm := Nat.div_add_mod k (n + 1)
  rw [lockstepAt, lockstepAt]
  by_cases hwrap : k % (n + 1) = n
  · have hk1 : k + 1 = (n + 1) * (k / (n + 1) + 1) := by
      rw [Nat.mul_add]
      omega
    rw [hk1, Nat.mul_div_cancel_left _ (by omega), Nat.mul_mod_right, ← lockstep_wrap]
    rw [hwrap] at hstep ⊢
    exact hstep
  · have hdiv : (k + 1) / (n + 1) = k / (n + 1) ∧ (k + 1) % (n + 1) = k % (n + 1) + 1 :=
      (Nat.div_mod_unique (by omega)).mpr ⟨by omega, by omega⟩
    rw [hdiv.1, hdiv.2]
    exact hstep

def lockstep : RaceExecution fun _ => id where
  length := 5 * (n + 1)
  state := lockstepAt n id
  label k := ⟨k % (n + 1), ⟨0, 0⟩⟩
  init := lockstepAt_init n id
  step := lockstepAt_step n id

theorem lockstep_storeAt (k : ℕ) (hk : k < 5 * (n + 1)) :
    (storeAt (lockstep n id) id k).isSome ↔ n + 1 ≤ k ∧ k < 2 * (n + 1) := by
  have hm : k % (n + 1) ≤ n := Nat.lt_succ_iff.mp (Nat.mod_lt _ (by omega))
  have hpc : ((lockstep n id).state k).track ((lockstep n id).label k).event =
      lockstepPc (k / (n + 1)) := by
    simp [lockstep, lockstepAt, lockstepState, hm]
  have hone : n + 1 ≤ k ∧ k < 2 * (n + 1) ↔ k / (n + 1) = 1 := by
    rw [Nat.div_eq_iff (by omega)]
    omega
  have hr : k / (n + 1) < 5 := Nat.div_lt_of_lt_mul (by omega)
  have hl : k < (lockstep n id).length := hk
  rw [hone, storeAt, if_pos ⟨hl, rfl⟩, hpc]
  generalize k / (n + 1) = r at hr
  interval_cases r <;> simp [lockstepPc]

theorem lockstep_stores (k : ℕ) (hk : k ≤ 5 * (n + 1)) :
    (countCell (lockstep n id) id).stores k = min (k - (n + 1)) (n + 1) := by
  induction k with
  | zero => rw [Cell.stores]; omega
  | succ k ih =>
    have hs := lockstep_storeAt n id k (by omega)
    rw [Cell.stores, ih (by omega)]
    change _ + (if (storeAt (lockstep n id) id k).isSome then 1 else 0) = _
    split
    next h =>
      have hrange := hs.mp h
      omega
    next h =>
      rw [hs] at h
      omega

end Lockstep

/- Any number of calls can count as one: when all of them load before any
stores, the table shows a single use after every call has returned. -/
theorem usage_racing_counts_worst (n : ℕ) (id : Fin maxSysCalls) :
    ∃ e : RaceExecution fun _ => id,
      (∀ t ≤ n, (e.state e.length).track t = .returned) ∧
      (countCell e id).stores e.length = n + 1 ∧
      ((e.state e.length).usage id).count = 1 := by
  have hend : lockstepAt n id (5 * (n + 1)) = lockstepState n id 5 0 := by
    rw [lockstepAt, Nat.mul_div_cancel _ (by omega), Nat.mul_mod_left]
  refine ⟨lockstep n id, fun t ht => ?_, ?_, ?_⟩
  · change (lockstepAt n id (5 * (n + 1))).track t = _
    rw [hend]
    simp [lockstepState, ht, lockstepPc]
  · have hs := lockstep_stores n id _ le_rfl
    change (countCell (lockstep n id) id).stores (5 * (n + 1)) = n + 1
    omega
  · change ((lockstepAt n id (5 * (n + 1))).usage id).count = 1
    rw [hend]
    simp [lockstepState]

end UsacLinux.UsageTable
