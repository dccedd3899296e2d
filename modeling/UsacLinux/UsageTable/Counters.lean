import UsacLinux.Kernel
import UsacLinux.Lib.Machine
import Mathlib.Data.List.OfFn
import Mathlib.Logic.Function.Basic

/-!
# The syscall-usage table (kernel/usac/syscall2.c)

`track_syscall`, called from the hooks in read, write, openat and clone, counts
into a table that the first `luis_track_syscall_usage` allocates. Whole runs of
events and queries are compared with the history of the events since then.
-/

namespace UsacLinux.UsageTable
open Kernel Lib.ByteMemory Lib.Machine

structure Timespec64 where
  tvSec : BitVec 64
  tvNsec : BitVec 64
  deriving DecidableEq, Repr

structure SyscallUsage where
  count : SizeT
  timeLastUsed : Timespec64
  deriving DecidableEq, Repr

def maxSysCalls : ℕ := 1024

instance : NeZero maxSysCalls := ⟨by decide⟩

/- The block behind `syscall_counters`, and the indexes outside it that were
written: `track_syscall` checks no lower bound. -/
structure Counters where
  usage : Fin maxSysCalls → SyscallUsage
  outside : List ℤ

def Counters.zeroed : Counters := ⟨fun _ => ⟨0, ⟨0, 0⟩⟩, []⟩

def Counters.record (c : Counters) (syscallId : ℤ) (now : Timespec64) : Counters :=
  if h : 0 ≤ syscallId ∧ syscallId < maxSysCalls then
    let i : Fin maxSysCalls := ⟨syscallId.toNat, by omega⟩
    ⟨Function.update c.usage i ⟨(c.usage i).count + 1, now⟩, c.outside⟩
  else ⟨c.usage, syscallId :: c.outside⟩

def trackSyscall (syscallId : PidT) (now : Timespec64) : Option Counters → Option Counters
  | none => none
  | some c =>
    if maxSysCalls ≤ syscallId.toInt then some c else some (c.record syscallId.toInt now)

/- The pointer `kzalloc` returns is published as it is; the result is `-ENOMEM`
exactly when it is NULL. -/
def initSyscallCounters (kzalloc : Bool) : Option Counters :=
  if kzalloc then some .zeroed else none

/- `unsigned long count; struct timespec64 time_last_used` -/
def usageLayout : List Member := [⟨8, 8⟩, ⟨16, 8⟩]
def sizeofSyscallUsage : ℕ := sizeOfStruct usageLayout

@[simp] theorem sizeofSyscallUsage_eq : sizeofSyscallUsage = 24 := by decide

def usageWords (u : SyscallUsage) : List SizedWord :=
  [⟨8, u.count⟩, ⟨8, u.timeLastUsed.tvSec⟩, ⟨8, u.timeLastUsed.tvNsec⟩]

def usageBytes (u : SyscallUsage) : List Byte := wordsBytes (usageWords u)

def Counters.bytes (c : Counters) : List Byte := (List.ofFn c.usage).flatMap usageBytes

/- Lines 95-99. -/
def copyCounters (accepted estatic : ℕ) (c : Counters) : Report :=
  let copied := copyToUser accepted estatic c.bytes
  if toInt32 copied.2 ≠ 0 then ⟨-EFAULT, copied.1⟩ else ⟨0, copied.1⟩

def luisTrackSyscallUsage (kzalloc : Bool) (accepted estatic : ℕ) (counters : Option Counters) :
    Option Counters × Report :=
  match counters with
  | some c => (some c, copyCounters accepted estatic c)
  | none => match initSyscallCounters kzalloc with
    | none => (none, ⟨-ENOMEM, []⟩)
    | some c => (some c, copyCounters accepted estatic c)

/- The callers of `track_syscall` (fs/read_write.c, fs/open.c, kernel/fork.c)
and their numbers in syscall_64.tbl. -/
inductive Hook where
  | read
  | write
  | openat
  | clone

def Hook.syscallId : Hook → PidT
  | .read => 0
  | .write => 1
  | .openat => 257
  | .clone => 56

theorem Hook.syscallId_range (h : Hook) :
    0 ≤ h.syscallId.toInt ∧ h.syscallId.toInt < maxSysCalls := by
  cases h <;> decide

/-! ### What a query delivers -/

theorem usageBytes_length (u : SyscallUsage) : (usageBytes u).length = sizeofSyscallUsage := by
  simp [usageBytes, usageWords, wordsBytes]

theorem flatMap_usageBytes_length (us : List SyscallUsage) :
    (us.flatMap usageBytes).length = sizeofSyscallUsage * us.length := by
  induction us with
  | nil => rfl
  | cons u us ih =>
    rw [List.flatMap_cons, List.length_append, ih, usageBytes_length, List.length_cons]
    ring

theorem bytes_length (c : Counters) : c.bytes.length = 24576 := by
  rw [Counters.bytes, flatMap_usageBytes_length, List.length_ofFn]
  rfl

/- Element `id` of a user array of `struct syscall_usage`. -/
def readUsage (mem : Memory) (estatic : ℕ) (id : Fin maxSysCalls) : SyscallUsage :=
  let base := estatic + sizeofSyscallUsage * id
  ⟨load 64 mem base, ⟨load 64 mem (base + 8), load 64 mem (base + 16)⟩⟩

theorem bytes_split (c : Counters) (id : Fin maxSysCalls) :
    ∃ pre post, pre.length = sizeofSyscallUsage * id ∧
      c.bytes = pre ++ (usageBytes (c.usage id) ++ post) := by
  have hlen : (id : ℕ) < (List.ofFn c.usage).length := by simp
  refine ⟨((List.ofFn c.usage).take id).flatMap usageBytes,
    ((List.ofFn c.usage).drop (id + 1)).flatMap usageBytes, ?_, ?_⟩
  · rw [flatMap_usageBytes_length, List.length_take_of_le (by omega)]
  · have hs := List.drop_eq_getElem_cons hlen
    rw [List.getElem_ofFn] at hs
    rw [← List.flatMap_cons, ← List.flatMap_append, ← hs, List.take_append_drop]
    rfl

theorem readUsage_place (mem : Memory) (estatic : ℕ) (c : Counters) (id : Fin maxSysCalls) :
    readUsage (commit mem (place estatic c.bytes)) estatic id = c.usage id := by
  obtain ⟨pre, post, hp, hb⟩ := bytes_split c id
  have h := load_commit_words mem estatic pre (usageWords (c.usage id)) post
  rw [hp] at h
  rw [hb, readUsage]
  exact congr (congrArg SyscallUsage.mk (h 0 ⟨8, _⟩ rfl))
    (congr (congrArg Timespec64.mk (h 1 ⟨8, _⟩ rfl)) (h 2 ⟨8, _⟩ rfl))

theorem uncopied_eq_zero_iff (accepted estatic : ℕ) (c : Counters) :
    toInt32 (copyToUser accepted estatic c.bytes).2 = 0 ↔ 24576 ≤ accepted := by
  rw [toInt32_uncopied_eq_zero accepted estatic c.bytes (by rw [bytes_length]; omega), bytes_length]

theorem copyCounters_full {accepted : ℕ} (h : 24576 ≤ accepted) (estatic : ℕ) (c : Counters) :
    copyCounters accepted estatic c = ⟨0, place estatic c.bytes⟩ := by
  rw [copyCounters, if_neg (not_not.mpr ((uncopied_eq_zero_iff accepted estatic c).mpr h)),
    copyToUser_full accepted estatic c.bytes (by rw [bytes_length]; exact h)]

theorem copyCounters_zero {accepted estatic : ℕ} {c : Counters}
    (h : (copyCounters accepted estatic c).ret = 0) :
    copyCounters accepted estatic c = ⟨0, place estatic c.bytes⟩ := by
  by_cases ha : 24576 ≤ accepted
  · exact copyCounters_full ha estatic c
  · rw [copyCounters, if_pos (fun hc => ha ((uncopied_eq_zero_iff accepted estatic c).mp hc))] at h
    simp [EFAULT] at h

theorem copyCounters_ret (accepted estatic : ℕ) (c : Counters) :
    (copyCounters accepted estatic c).ret = 0 ∨ (copyCounters accepted estatic c).ret = -EFAULT := by
  simp only [copyCounters]
  split
  · exact Or.inr rfl
  · exact Or.inl rfl

/-! ### Runs -/

inductive Event where
  | track (syscallId : PidT) (now : Timespec64)
  | query (kzalloc : Bool) (accepted estatic : ℕ)

def step (counters : Option Counters) : Event → Option Counters × Option Report
  | .track syscallId now => (trackSyscall syscallId now counters, none)
  | .query kzalloc accepted estatic =>
    let r := luisTrackSyscallUsage kzalloc accepted estatic counters
    (r.1, some r.2)

def countersAfter (events : List Event) : Option Counters := (run step none events).1

theorem countersAfter_concat (events : List Event) (e : Event) :
    countersAfter (events ++ [e]) = (step (countersAfter events) e).1 := by
  rw [countersAfter, run_concat]
  rfl

/-! ### The history of a run -/

/- The events behind the first query whose allocation succeeds. -/
def sinceAllocation : List Event → Option (List Event)
  | [] => none
  | .query true _ _ :: es => some es
  | _ :: es => sinceAllocation es

/- Clock values of the events of one id, oldest first. -/
def timesOf (id : ℕ) (events : List Event) : List Timespec64 :=
  events.filterMap fun
    | .track syscallId now => if syscallId.toInt = id then some now else none
    | .query .. => none

def usageOf (times : List Timespec64) : SyscallUsage :=
  ⟨BitVec.ofNat 64 times.length, times.getLast?.getD ⟨0, 0⟩⟩

def Event.allocates : Event → Bool
  | .query kzalloc _ _ => kzalloc
  | .track .. => false

theorem sinceAllocation_cons (e : Event) (es : List Event) :
    sinceAllocation (e :: es) = if e.allocates then some es else sinceAllocation es := by
  rcases e with ⟨id, now⟩ | ⟨_ | _, a, d⟩ <;> rfl

theorem sinceAllocation_concat (events : List Event) (e : Event) :
    sinceAllocation (events ++ [e]) = match sinceAllocation events with
      | some later => some (later ++ [e])
      | none => if e.allocates then some [] else none := by
  induction events with
  | nil => simp [sinceAllocation_cons, sinceAllocation]
  | cons x xs ih =>
    rw [List.cons_append, sinceAllocation_cons, sinceAllocation_cons, ih]
    cases x.allocates with
    | true => rfl
    | false => rfl

theorem usageOf_concat (times : List Timespec64) (now : Timespec64) :
    usageOf (times ++ [now]) = ⟨(usageOf times).count + 1, now⟩ := by
  simp [usageOf, BitVec.ofNat_add]

theorem timesOf_concat_track (id : ℕ) (events : List Event) (syscallId : PidT) (now : Timespec64) :
    timesOf id (events ++ [.track syscallId now]) =
      if syscallId.toInt = id then timesOf id events ++ [now] else timesOf id events := by
  simp only [timesOf, List.filterMap_append]
  split <;> simp [*]

theorem timesOf_concat_query (id : ℕ) (events : List Event) (k : Bool) (a d : ℕ) :
    timesOf id (events ++ [.query k a d]) = timesOf id events := by
  simp [timesOf]

/-! ### One step and whole runs -/

/- The table that a history determines: none before there is one, then for each
id the number and the last time of its events. -/
def Holds (later : Option (List Event)) (counters : Option Counters) : Prop :=
  match later with
  | none => counters = none
  | some events => ∃ c, counters = some c ∧ c.outside = [] ∧
      ∀ id : Fin maxSysCalls, c.usage id = usageOf (timesOf id events)

theorem record_usage (c : Counters) (syscallId : ℤ) (now : Timespec64) (h0 : 0 ≤ syscallId)
    (h1 : syscallId < maxSysCalls) (id : Fin maxSysCalls) :
    (c.record syscallId now).usage id =
      if syscallId = id then ⟨(c.usage id).count + 1, now⟩ else c.usage id := by
  rw [Counters.record, dif_pos ⟨h0, h1⟩]
  dsimp only
  by_cases he : syscallId = id
  · have hi : (⟨syscallId.toNat, by omega⟩ : Fin maxSysCalls) = id := Fin.ext (by simp [he])
    rw [if_pos he, hi, Function.update_self]
  · have hi : id ≠ (⟨syscallId.toNat, by omega⟩ : Fin maxSysCalls) := by
      intro hc
      apply he
      rw [hc]
      simp only [Int.toNat_of_nonneg h0]
    rw [if_neg he, Function.update_of_ne hi]

theorem record_outside (c : Counters) (syscallId : ℤ) (now : Timespec64) (h0 : 0 ≤ syscallId)
    (h1 : syscallId < maxSysCalls) : (c.record syscallId now).outside = c.outside := by
  rw [Counters.record, dif_pos ⟨h0, h1⟩]

theorem holds_track {later : Option (List Event)} {counters : Option Counters} {syscallId : PidT}
    (now : Timespec64) (hid : 0 ≤ syscallId.toInt) (h : Holds later counters) :
    Holds (later.map (· ++ [.track syscallId now])) (trackSyscall syscallId now counters) := by
  cases later with
  | none =>
    obtain rfl : counters = none := h
    rfl
  | some events =>
    obtain ⟨c, rfl, hout, hc⟩ := h
    simp only [Holds, Option.map_some, trackSyscall, timesOf_concat_track]
    split
    next hbig =>
      -- No index of the table equals such an id.
      refine ⟨c, rfl, hout, fun id => ?_⟩
      have hne : ¬syscallId.toInt = (id : ℕ) := by have := id.isLt; omega
      rw [if_neg hne]
      exact hc id
    next hsmall =>
      have hlt : syscallId.toInt < maxSysCalls := by omega
      refine ⟨_, rfl, by rw [record_outside c _ now hid hlt, hout], fun id => ?_⟩
      rw [record_usage c _ now hid hlt, hc id]
      by_cases he : syscallId.toInt = (id : ℕ)
      · rw [if_pos he, if_pos he, usageOf_concat]
      · rw [if_neg he, if_neg he]

theorem holds_allocated (kzalloc : Bool) :
    Holds (if kzalloc then some [] else none) (initSyscallCounters kzalloc) := by
  cases kzalloc with
  | false => rfl
  | true => exact ⟨.zeroed, rfl, rfl, fun _ => rfl⟩

/- A query leaves a table as it is, and allocates where there is none. -/
theorem luisTrackSyscallUsage_counters (k : Bool) (a d : ℕ) (s : Option Counters) :
    (luisTrackSyscallUsage k a d s).1 = s.or (initSyscallCounters k) := by
  cases s with
  | some c => rfl
  | none => cases k <;> rfl

theorem holds_query {events : List Event} {s : Option Counters} (k : Bool) (a d : ℕ)
    (h : Holds (sinceAllocation events) s) :
    Holds (sinceAllocation (events ++ [.query k a d])) (luisTrackSyscallUsage k a d s).1 := by
  rw [sinceAllocation_concat, luisTrackSyscallUsage_counters]
  cases hs : sinceAllocation events with
  | none =>
    rw [hs] at h
    obtain rfl : s = none := h
    exact holds_allocated k
  | some later =>
    rw [hs] at h
    obtain ⟨c, rfl, hout, hc⟩ := h
    refine ⟨c, rfl, hout, fun id => ?_⟩
    rw [timesOf_concat_query]
    exact hc id

theorem countersAfter_holds (events : List Event)
    (hids : ∀ syscallId now, Event.track syscallId now ∈ events → 0 ≤ syscallId.toInt) :
    Holds (sinceAllocation events) (countersAfter events) := by
  induction events using List.reverseRecOn with
  | nil => rfl
  | append_singleton events e ih =>
    have he := ih fun i now hm => hids i now (List.mem_append_left _ hm)
    rw [countersAfter_concat]
    cases e with
    | track syscallId now =>
      have ht := holds_track now (hids syscallId now (by simp)) he
      rw [sinceAllocation_concat]
      cases hs : sinceAllocation events with
      | none => rwa [hs] at ht
      | some later => rwa [hs] at ht
    | query k a d => exact holds_query k a d he

/- The table exists exactly when some query has allocated it. -/
theorem countersAfter_none_iff (events : List Event)
    (hids : ∀ syscallId now, Event.track syscallId now ∈ events → 0 ≤ syscallId.toInt) :
    countersAfter events = none ↔ sinceAllocation events = none := by
  have hex := countersAfter_holds events hids
  cases hs : sinceAllocation events with
  | none =>
    rw [hs] at hex
    exact ⟨fun _ => rfl, fun _ => hex⟩
  | some later =>
    rw [hs] at hex
    obtain ⟨c, hc, -, -⟩ := hex
    simp [hc]

theorem trackSyscall_out_of_range {syscallId : PidT} (h : (maxSysCalls : ℤ) ≤ syscallId.toInt)
    (now : Timespec64) (s : Option Counters) : trackSyscall syscallId now s = s := by
  cases s with
  | none => rfl
  | some c => simp only [trackSyscall, if_pos h]

/-! ### Replies -/

theorem query_refused (a d : ℕ) : luisTrackSyscallUsage false a d none = (none, ⟨-ENOMEM, []⟩) := rfl

theorem query_cases (k : Bool) (a d : ℕ) (s : Option Counters) :
    (s = none ∧ k = false) ∨ ∃ c, luisTrackSyscallUsage k a d s = (some c, copyCounters a d c) := by
  cases s with
  | some c => exact Or.inr ⟨c, rfl⟩
  | none =>
    cases k with
    | false => exact Or.inl ⟨rfl, rfl⟩
    | true => exact Or.inr ⟨.zeroed, rfl⟩

theorem query_enomem_iff (k : Bool) (a d : ℕ) (s : Option Counters) :
    (luisTrackSyscallUsage k a d s).2.ret = -ENOMEM ↔ s = none ∧ k = false := by
  constructor
  · intro h
    rcases query_cases k a d s with hs | ⟨c, hq⟩
    · exact hs
    · rw [hq] at h
      rcases copyCounters_ret a d c with hr | hr <;> simp [hr, ENOMEM, EFAULT] at h
  · rintro ⟨rfl, rfl⟩
    rw [query_refused]

theorem query_success {k : Bool} {a d : ℕ} {s : Option Counters}
    (h : (luisTrackSyscallUsage k a d s).2.ret = 0) :
    ∃ c, luisTrackSyscallUsage k a d s = (some c, ⟨0, place d c.bytes⟩) := by
  rcases query_cases k a d s with ⟨rfl, rfl⟩ | ⟨c, hq⟩
  · rw [query_refused] at h
    simp [ENOMEM] at h
  · simp only [hq] at h ⊢
    exact ⟨c, by rw [copyCounters_zero h]⟩

theorem luis_track_syscall_usage_exact (events : List Event)
    (hids : ∀ syscallId now, Event.track syscallId now ∈ events → 0 ≤ syscallId.toInt) :
    (sinceAllocation events = none → countersAfter events = none) ∧
    (∀ later, sinceAllocation events = some later →
      ∃ c, countersAfter events = some c ∧ c.outside = [] ∧
        ∀ id : Fin maxSysCalls,
          (c.usage id).count = BitVec.ofNat 64 (timesOf id later).length ∧
          (c.usage id).timeLastUsed = (timesOf id later).getLast?.getD ⟨0, 0⟩) ∧
    (∀ syscallId now, (maxSysCalls : ℤ) ≤ syscallId.toInt →
      countersAfter (events ++ [.track syscallId now]) = countersAfter events) ∧
    (∀ kzalloc accepted estatic, sinceAllocation events ≠ none →
      countersAfter (events ++ [.query kzalloc accepted estatic]) = countersAfter events) ∧
    (∀ kzalloc accepted estatic,
      let reply := (luisTrackSyscallUsage kzalloc accepted estatic (countersAfter events)).2
      let after := countersAfter (events ++ [.query kzalloc accepted estatic])
      (reply.ret = -ENOMEM ↔ sinceAllocation events = none ∧ kzalloc = false) ∧
      (reply.ret = -ENOMEM → reply.writes = [] ∧ after = none ∧
        ∀ a d, countersAfter (events ++ [.query kzalloc accepted estatic] ++ [.query true a d]) =
          some .zeroed) ∧
      (reply.ret = 0 → ∃ c, after = some c ∧ reply.writes = place estatic c.bytes ∧
        ∀ mem id, readUsage (commit mem reply.writes) estatic id = c.usage id)) := by
  have hnone := countersAfter_none_iff events hids
  refine ⟨hnone.mpr, ?_, ?_, ?_, ?_⟩
  · intro later hs
    have hex := countersAfter_holds events hids
    rw [hs] at hex
    obtain ⟨c, hc, hout, hu⟩ := hex
    refine ⟨c, hc, hout, fun id => ?_⟩
    rw [hu id]
    exact ⟨rfl, rfl⟩
  · intro syscallId now hbig
    rw [countersAfter_concat]
    exact trackSyscall_out_of_range hbig now _
  · intro k a d hs
    rw [Ne, ← hnone, ← Ne, Option.ne_none_iff_exists'] at hs
    obtain ⟨c, hc⟩ := hs
    rw [countersAfter_concat, hc]
    rfl
  · intro k a d
    dsimp only
    rw [countersAfter_concat, ← hnone]
    refine ⟨query_enomem_iff k a d _, ?_, ?_⟩
    · intro h
      obtain ⟨hn, rfl⟩ := (query_enomem_iff k a d _).mp h
      simp only [step, hn, query_refused, true_and]
      intro a' d'
      rw [countersAfter_concat, countersAfter_concat, hn]
      rfl
    · intro h
      obtain ⟨c, hq⟩ := query_success h
      simp only [step, hq]
      exact ⟨c, rfl, rfl, fun mem id => readUsage_place mem d c id⟩

/- The first read comes too early to be counted, the second query retries, and
a third one delivers what has been counted by then. -/
def retriedEvents : List Event :=
  [.track Hook.read.syscallId ⟨1, 0⟩, .query false 24576 4096, .query true 24576 4096,
    .track Hook.read.syscallId ⟨5, 7⟩, .track Hook.openat.syscallId ⟨6, 0⟩]

theorem luis_track_syscall_usage_after_retry :
    let reply := (luisTrackSyscallUsage true 24576 4096 (countersAfter retriedEvents)).2
    reply.ret = 0 ∧ ∀ mem,
      readUsage (commit mem reply.writes) 4096 0 = ⟨1, ⟨5, 7⟩⟩ ∧
      readUsage (commit mem reply.writes) 4096 257 = ⟨1, ⟨6, 0⟩⟩ ∧
      readUsage (commit mem reply.writes) 4096 1 = ⟨0, ⟨0, 0⟩⟩ := by
  have h := luis_track_syscall_usage_exact retriedEvents (by
    intro syscallId now hm
    simp only [retriedEvents, List.mem_cons, Event.track.injEq, List.not_mem_nil, or_false,
      reduceCtorEq, false_or] at hm
    rcases hm with ⟨rfl, -⟩ | ⟨rfl, -⟩ | ⟨rfl, -⟩ <;> exact (Hook.syscallId_range _).1)
  obtain ⟨c, hc, -, hu⟩ := h.2.1
    [.track Hook.read.syscallId ⟨5, 7⟩, .track Hook.openat.syscallId ⟨6, 0⟩] rfl
  have h0 : (luisTrackSyscallUsage true 24576 4096 (countersAfter retriedEvents)).2.ret = 0 := by
    rw [hc]
    exact congrArg Report.ret (copyCounters_full le_rfl 4096 c)
  obtain ⟨c', hc', -, hread⟩ := (h.2.2.2.2 true 24576 4096).2.2 h0
  obtain rfl : c' = c := by
    rw [countersAfter_concat, hc] at hc'
    exact (Option.some.inj hc').symm
  have hentry (id : Fin maxSysCalls) : c'.usage id = ⟨(c'.usage id).count, (c'.usage id).timeLastUsed⟩ := rfl
  refine ⟨h0, fun mem => ⟨?_, ?_, ?_⟩⟩
  all_goals rw [hread, hentry, (hu _).1, (hu _).2]; rfl

end UsacLinux.UsageTable
