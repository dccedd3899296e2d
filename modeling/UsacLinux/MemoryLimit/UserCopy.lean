import UsacLinux.MemoryLimit.GetLimits

/-!
# What a caller of so2_get_memory_limits finds in its memory

The count and the records are delivered exactly. The records are elements of
the kernel's 32-byte structure, whose padding and list pointers were never
assigned, while the manual and the test programs read an array of 16-byte
records: the two agree on the first record only.
-/

namespace UsacLinux.MemoryLimit
open Kernel Lib.ByteMemory Lib.Machine

/-! ### Count and records -/

theorem count_as_int (k : ℕ) (count : SizeT) (hc : count.toNat = k) (hk : k < 2 ^ 31) :
    (toInt32 count).toInt = k := by
  have hn : (toInt32 count).toNat = k := by
    rw [toInt32, BitVec.toNat_setWidth, hc, Nat.mod_eq_of_lt (by omega)]
  rw [BitVec.toInt_eq_toNat_cond, hn, if_pos (by omega)]

theorem load_putUserInt (mem : Memory) (dst : ℕ) (v : SizeT) :
    load 32 (commit mem (putUserInt dst v)) dst = toInt32 v := by
  apply load_of_bytes
  intro i hi
  have hl : i < (wordBytes 4 (toInt32 v)).length := by rw [wordBytes_length]; omega
  rw [putUserInt, commit_place mem dst _ i hl]
  simp [wordBytes]

theorem reported_lt (r : Registry) (args : GetArgs) : r.reported args < 2 ^ 31 := by
  have hl := r.length_lt
  rw [Registry.reported]
  omega

theorem count_delivered (r : Registry) (env : GetEnv) (args : GetArgs) (writes : List (ℕ × Byte))
    (mem : Memory) :
    (load 32 (commit mem (writes ++ putUserInt args.processesReturned (filled env args r.entries).2))
      args.processesReturned).toInt = r.reported args := by
  rw [commit_append, load_putUserInt]
  exact count_as_int _ _ (filled_count r env args) (reported_lt r args)

/- Every index the copy loop assigns was allocated, element `i` holds the
`i`-th entry of the list, and a call that returns 0 has copied all of the `k`
elements and stored `k` itself. -/
theorem so2_get_memory_limits_exact (calls : List LimitCall) (env : GetEnv) (args : GetArgs)
    (hu : args.Usable) :
    let r := registryAfter calls
    let k := min r.entries.length args.maxEntries.toNat
    let out := so2GetMemoryLimits env args r.entries
    (∀ b, out.kernelBuffer = some b →
      (∀ i ∈ b.stored, i < b.elements.toNat) ∧
      (∀ i < k, r.entries[i]? = some (b.record i))) ∧
    (out.ret = 0 → ∃ b, out.kernelBuffer = some b ∧
      out.recordWrites = place args.uProcessesBuffer (slice b.bytes 0 (sizeofMemoryLimitation * k)) ∧
      ∀ mem, (load 32 (commit mem out.writes) args.processesReturned).toInt = k) ∧
    (∀ u, out.uncopied = some u → u ≠ 0 → out.ret = -EFAULT) ∧
    (r.entries = [] → env.putUser = true → out.ret = 0) := by
  intro r k out
  have hk : r.reported args = k := rfl
  have hbuf : (∀ i ∈ (filled env args r.entries).1.stored,
      i < (filled env args r.entries).1.elements.toNat) ∧
      (∀ i < k, r.entries[i]? = some ((filled env args r.entries).1.record i)) :=
    ⟨filled_in_bounds r env args, fun i hi => filled_record r env args i hi⟩
  rcases get_cases r env args hu with ⟨ha, ho⟩ | ⟨-, hf, u, writes, ho⟩ | ⟨-, ho⟩
  · change out = _ at ho
    rw [ho]
    refine ⟨by simp [GetOutcome.failed], ?_, by simp [GetOutcome.failed], ?_⟩
    · intro h
      simp [GetOutcome.failed, ENOMEM] at h
    · intro he
      rw [empty_allocates r env args he] at ha
      cases ha
  · change out = _ at ho
    rw [ho]
    refine ⟨fun b h => by cases h; exact hbuf, ?_, fun _ _ _ => rfl, ?_⟩
    · intro h
      simp [EFAULT] at h
    · intro he hp
      have hk0 : r.reported args = 0 := by simp [Registry.reported, he]
      rw [hk0, hp] at hf
      simp at hf
  · change out = _ at ho
    rw [ho]
    refine ⟨fun b h => by cases h; exact hbuf, ?_, ?_, fun _ _ => rfl⟩
    · intro _
      refine ⟨_, rfl, by rw [sizeofMemoryLimitation_eq]; rfl, fun mem => ?_⟩
      exact count_delivered r env args _ mem
    · intro u h hne
      cases h
      exact absurd rfl hne

/- The array of ten records of test_syscall9.c, at some user address. -/
def testArgs : GetArgs := ⟨0x1000, 10, 0x2000⟩
def testGetEnv : GetEnv := ⟨.plenty, fun _ => 0, 4096, true⟩

theorem testArgs_usable : testArgs.Usable := ⟨by decide, by decide, by decide⟩

theorem so2_get_memory_limits_exact_two_entries :
    (registryAfter testCalls).entries = [⟨5678, 1000⟩, ⟨1234, 500⟩] ∧
    (so2GetMemoryLimits testGetEnv testArgs (registryAfter testCalls).entries).ret = 0 ∧
    ∃ b, (so2GetMemoryLimits testGetEnv testArgs (registryAfter testCalls).entries).kernelBuffer =
      some b ∧ b.record 1 = ⟨1234, 500⟩ := by
  have hl : (registryAfter testCalls).entries = [⟨5678, 1000⟩, ⟨1234, 500⟩] := by decide
  have hr : (so2GetMemoryLimits testGetEnv testArgs (registryAfter testCalls).entries).ret = 0 := by
    rw [hl]
    decide
  have h := so2_get_memory_limits_exact testCalls testGetEnv testArgs testArgs_usable
  obtain ⟨b, hb, -⟩ := h.2.1 hr
  refine ⟨hl, hr, b, hb, ?_⟩
  have hrec := (h.1 b hb).2 1 (by rw [hl]; decide)
  rw [hl] at hrec
  exact (Option.some.inj hrec).symm

/-! ### The 16-byte record of the manual and the tests -/

/- `struct memory_limitation {pid_t pid; size_t memory_limit;}` -/
def userLayout : List Member := [⟨4, 4⟩, ⟨8, 8⟩]
def userStride : ℕ := sizeOfStruct userLayout

@[simp] theorem userStride_eq : userStride = 16 := by decide

def userRecord (mem : Memory) (base i : ℕ) : MemoryLimitation :=
  ⟨load 32 mem (base + userStride * i + offsetOf userLayout 0),
    load 64 mem (base + userStride * i + offsetOf userLayout 1)⟩

theorem userRecord_eq (mem : Memory) (base i : ℕ) :
    userRecord mem base i = ⟨load 32 mem (base + 16 * i), load 64 mem (base + 16 * i + 8)⟩ := rfl

/- After the call the user array holds the reported entries in the documented
layout, and nothing was written behind its end. -/
def LayoutAgrees (r : Registry) (env : GetEnv) (args : GetArgs) (mem : Memory) : Prop :=
  let out := so2GetMemoryLimits env args r.entries
  (∀ i < min r.entries.length args.maxEntries.toNat,
    r.entries[i]? = some (userRecord (commit mem out.writes) args.uProcessesBuffer i)) ∧
  ∀ w ∈ out.recordWrites, w.1 < args.uProcessesBuffer + userStride * args.maxEntries.toNat

/- The record array and the count are separate objects of the caller. -/
def GetArgs.Apart (args : GetArgs) : Prop :=
  args.processesReturned + 4 ≤ args.uProcessesBuffer ∨
    args.uProcessesBuffer + userStride * args.maxEntries.toNat ≤ args.processesReturned

instance (args : GetArgs) : Decidable args.Apart := inferInstanceAs (Decidable (_ ∨ _))

/- Storing the count does not disturb a copied word that lies beside it. -/
theorem load_beside_count (w k off : ℕ) (mem block : Memory) (args : GetArgs) (count : SizeT)
    (hw : ∀ j, 8 * j < w → off + j < 32 * k)
    (hbeside : ∀ j, 8 * j < w → args.uProcessesBuffer + off + j < args.processesReturned ∨
      args.processesReturned + 4 ≤ args.uProcessesBuffer + off + j) :
    load w (commit mem (place args.uProcessesBuffer (slice block 0 (32 * k)) ++
      putUserInt args.processesReturned count)) (args.uProcessesBuffer + off) = load w block off := by
  rw [commit_append]
  have hc := load_commit_slice w mem block args.uProcessesBuffer 0 (32 * k) off hw
  rw [Nat.zero_add] at hc
  rw [← hc]
  apply load_congr
  intro j hj
  apply commit_untouched
  intro x hx
  have hr := place_addr hx
  have hj' := hbeside j hj
  rw [wordBytes_length] at hr
  omega

theorem GetArgs.Apart.beside {args : GetArgs} (h : args.Apart) {off j : ℕ}
    (hx : off + j < 16 * args.maxEntries.toNat) :
    args.uProcessesBuffer + off + j < args.processesReturned ∨
      args.processesReturned + 4 ≤ args.uProcessesBuffer + off + j := by
  rw [GetArgs.Apart, userStride_eq] at h
  omega

theorem filled_tail_stale (r : Registry) (env : GetEnv) (args : GetArgs) (x : ℕ)
    (hx : (4 ≤ x % 32 ∧ x % 32 < 8) ∨ 16 ≤ x % 32) :
    (filled env args r.entries).1.bytes x = env.stale x := by
  rw [filled, copyEntries_outside _ _ _ _ _ (Or.inr hx)]

theorem load_zero (w : ℕ) (mem : Memory) (a : ℕ) (h : ∀ i, 8 * i < w → mem (a + i) = 0) :
    load w mem a = 0 := by
  apply load_of_bytes
  intro i hi
  rw [h i hi]
  simp [byteOf]

/- The layouts agree exactly when there is nothing to report, or one entry and
room for the 32 bytes it takes. -/
theorem so2_get_user_layout_iff (calls : List LimitCall) (env : GetEnv) (args : GetArgs)
    (mem : Memory) (hu : args.Usable) (hapart : args.Apart)
    (hret : (so2GetMemoryLimits env args (registryAfter calls).entries).ret = 0) :
    (∀ stale, LayoutAgrees (registryAfter calls) {env with stale} args mem) ↔
      (registryAfter calls).entries.length = 0 ∨
        ((registryAfter calls).entries.length = 1 ∧ 2 ≤ args.maxEntries.toNat) := by
  generalize registryAfter calls = r at hret ⊢
  obtain ⟨ha, hacc, hp⟩ := get_ret_zero r env args hu hret
  have hm := hu.maxEntries
  have hk : r.reported args = min r.entries.length args.maxEntries.toNat := rfl
  have hout := fun stale => get_success r {env with stale} args hu ha hacc hp
  constructor
  · intro h
    by_contra hn
    -- with a zeroed block the second record of the caller reads pid 0
    have hz := h fun _ => 0
    simp only [LayoutAgrees, hout, GetOutcome.writes] at hz
    have hlast : ∃ w ∈ place args.uProcessesBuffer
        (slice (filled {env with stale := fun _ => 0} args r.entries).1.bytes 0
          (32 * r.reported args)),
        w.1 = args.uProcessesBuffer + (32 * r.reported args - 1) :=
      mem_place_addr _ _ _ (by rw [slice_length]; omega)
    obtain ⟨w, hw, hwa⟩ := hlast
    have hend := hz.2 w hw
    rw [userStride_eq] at hend
    have hone := hz.1 1 (by omega)
    rw [userRecord_eq, load_beside_count 32 (r.reported args) 16 mem _ args _
      (fun j hj => by omega) (fun j hj => hapart.beside (by omega))] at hone
    have hzero : load 32 (filled {env with stale := fun _ => 0} args r.entries).1.bytes 16 = 0 :=
      load_zero 32 _ 16 (fun i hi => filled_tail_stale r _ args (16 + i) (by omega))
    rw [hzero] at hone
    have hpos := (r.valid.wellFormed _ (List.mem_of_getElem? hone)).1
    simp at hpos
  · intro h stale
    simp only [LayoutAgrees, hout, GetOutcome.writes]
    refine ⟨?_, ?_⟩
    · intro i hi
      obtain rfl : i = 0 := by omega
      rw [filled_record r {env with stale} args 0 (by omega), userRecord_eq,
        load_beside_count 32 (r.reported args) 0 mem _ args _
          (fun j hj => by omega) (fun j hj => hapart.beside (by omega)),
        load_beside_count 64 (r.reported args) 8 mem _ args _
          (fun j hj => by omega) (fun j hj => hapart.beside (by omega))]
      rfl
    · intro w hw
      have hr := place_addr hw
      rw [slice_length] at hr
      rw [userStride_eq]
      omega

theorem so2_get_user_layout_one_entry :
    (registryAfter (testCalls.take 1)).entries.length = 1 ∧
    ∀ stale, LayoutAgrees (registryAfter (testCalls.take 1)) {testGetEnv with stale} testArgs
      fun _ => 0 := by
  have hl : (registryAfter (testCalls.take 1)).entries = [⟨1234, 500⟩] := by decide
  refine ⟨by rw [hl]; rfl, ?_⟩
  refine (so2_get_user_layout_iff (testCalls.take 1) testGetEnv testArgs (fun _ => 0) testArgs_usable
    (by decide) ?_).mpr (Or.inr ⟨by rw [hl]; rfl, by decide⟩)
  rw [hl]
  decide

/- The two entries of the test, read back the way the test does. -/
theorem so2_get_user_layout_fails :
    ¬∀ (calls : List LimitCall) (env : GetEnv) (args : GetArgs) (mem : Memory),
      args.Usable → args.Apart →
      (so2GetMemoryLimits env args (registryAfter calls).entries).ret = 0 →
      LayoutAgrees (registryAfter calls) env args mem := by
  intro h
  have hl : (registryAfter testCalls).entries = [⟨5678, 1000⟩, ⟨1234, 500⟩] := by decide
  have hr : (so2GetMemoryLimits testGetEnv testArgs [⟨5678, 1000⟩, ⟨1234, 500⟩]).ret = 0 := by decide
  have ht := (h testCalls testGetEnv testArgs (fun _ => 0) testArgs_usable (by decide)
    (by rw [hl]; exact hr)).1 1 (by rw [hl]; decide)
  rw [hl] at ht
  revert ht
  decide

/-! ### Heap contents in the copied bytes -/

theorem get_writes (r : Registry) (env : GetEnv) (args : GetArgs) (hu : args.Usable)
    (ha : env.allocates args r.entries = true) :
    (so2GetMemoryLimits env args r.entries).writes =
      place args.uProcessesBuffer (slice (filled env args r.entries).1.bytes 0
        (min env.accepted (32 * r.reported args))) ++
      (if env.accepted < 32 * r.reported args ∨ env.putUser = false then []
        else putUserInt args.processesReturned (filled env args r.entries).2) := by
  rw [get_allocated r env args hu ha]
  dsimp only
  split <;> simp only [GetOutcome.writes, copyToUser, slice_take]

theorem filled_count_stale (r : Registry) (env : GetEnv) (args : GetArgs) (s : Memory) :
    (filled {env with stale := s} args r.entries).2 = (filled env args r.entries).2 := by
  apply BitVec.eq_of_toNat_eq
  rw [filled_count, filled_count]

/- Two runs write the same bytes exactly when the copied part of their buffers
is the same. -/
theorem writes_eq_iff (r : Registry) (env : GetEnv) (args : GetArgs) (hu : args.Usable)
    (ha : env.allocates args r.entries = true) (s t : Memory) :
    (so2GetMemoryLimits {env with stale := s} args r.entries).writes =
        (so2GetMemoryLimits {env with stale := t} args r.entries).writes ↔
      ∀ x < min env.accepted (32 * r.reported args),
        (filled {env with stale := s} args r.entries).1.bytes x =
          (filled {env with stale := t} args r.entries).1.bytes x := by
  rw [get_writes r {env with stale := s} args hu ha, get_writes r {env with stale := t} args hu ha,
    filled_count_stale r env args s, filled_count_stale r env args t]
  constructor
  · intro h x hx
    have hp := List.append_inj_left h (by simp)
    have hs := congrArg (List.map Prod.snd) hp
    rw [place_map_snd, place_map_snd, slice_inj] at hs
    simpa using hs x hx
  · intro h
    have hs : slice (filled {env with stale := s} args r.entries).1.bytes 0
        (min env.accepted (32 * r.reported args)) =
        slice (filled {env with stale := t} args r.entries).1.bytes 0
        (min env.accepted (32 * r.reported args)) :=
      (slice_inj _ _ _ _).mpr (fun i hi => by simpa using h i hi)
    rw [hs]

theorem filled_first_pid (r : Registry) (env : GetEnv) (args : GetArgs) (x : ℕ) (hx : x < 4)
    (hk : 0 < r.reported args) :
    ∃ e, r.entries[0]? = some e ∧ (filled env args r.entries).1.bytes x = byteOf e.pid x := by
  have h0 := zero_toNat
  rw [Registry.reported] at hk
  have hl : 0 < r.entries.length := by omega
  have hf := (copyEntries_fields args.maxEntries r.entries
    ⟨clipCount (countEntries r.entries 0) args.maxEntries, env.stale, []⟩ 0 0 hl (by omega)).1 x hx
  rw [h0, Nat.zero_add] at hf
  exact ⟨r.entries[0], List.getElem?_eq_getElem hl, hf⟩

/- The copied bytes are independent of the heap exactly when nothing is copied
or the copy stops inside the first pid. -/
theorem so2_get_heap_independent_iff (calls : List LimitCall) (env : GetEnv) (args : GetArgs)
    (hu : args.Usable) :
    (∀ s t : Memory,
      (so2GetMemoryLimits {env with stale := s} args (registryAfter calls).entries).writes =
        (so2GetMemoryLimits {env with stale := t} args (registryAfter calls).entries).writes) ↔
      (registryAfter calls).entries.length = 0 ∨
        env.allocates args (registryAfter calls).entries = false ∨ env.accepted ≤ 4 := by
  generalize registryAfter calls = r
  have hm := hu.maxEntries
  have hk : r.reported args = min r.entries.length args.maxEntries.toNat := rfl
  cases ha : env.allocates args r.entries with
  | false =>
    simp only [true_or, or_true, iff_true]
    intro s t
    rw [get_refused r {env with stale := s} args hu ha, get_refused r {env with stale := t} args hu ha]
  | true =>
    simp only [writes_eq_iff r env args hu ha, Bool.true_eq_false, false_or]
    constructor
    · intro h
      by_contra hn
      -- byte 4 is the padding behind the first pid
      have hb := h (fun _ => 0) (fun _ => 1) 4 (by omega)
      rw [filled_tail_stale r _ args 4 (by omega), filled_tail_stale r _ args 4 (by omega)] at hb
      exact absurd (show (0 : Byte) = 1 from hb) (by decide)
    · intro h s t x hx
      obtain ⟨e, he, hs⟩ := filled_first_pid r {env with stale := s} args x (by omega) (by omega)
      obtain ⟨e', he', ht⟩ := filled_first_pid r {env with stale := t} args x (by omega) (by omega)
      obtain rfl : e = e' := Option.some.inj (he.symm.trans he')
      rw [hs, ht]

/- A copy of one entry that stops behind the pid: four bytes, whatever the heap
held. -/
theorem so2_get_heap_independent_within_pid :
    (registryAfter (testCalls.take 1)).entries = [⟨1234, 500⟩] ∧
    ∀ s : Memory, (so2GetMemoryLimits {testGetEnv with stale := s, accepted := 4} testArgs
      (registryAfter (testCalls.take 1)).entries).writes = place 0x1000 (wordBytes 4 (1234 : PidT)) := by
  have hl : (registryAfter (testCalls.take 1)).entries = [⟨1234, 500⟩] := by decide
  refine ⟨hl, fun s => ?_⟩
  have h := (so2_get_heap_independent_iff (testCalls.take 1) {testGetEnv with accepted := 4} testArgs
    testArgs_usable).mpr (Or.inr (Or.inr le_rfl)) s fun _ => 0
  refine h.trans ?_
  rw [hl]
  decide

theorem so2_get_leaks_heap :
    ¬∀ (calls : List LimitCall) (env : GetEnv) (args : GetArgs) (s t : Memory), args.Usable →
      (so2GetMemoryLimits {env with stale := s} args (registryAfter calls).entries).writes =
        (so2GetMemoryLimits {env with stale := t} args (registryAfter calls).entries).writes := by
  intro h
  have hl : (registryAfter (testCalls.take 1)).entries = [⟨1234, 500⟩] := by decide
  have ht := h (testCalls.take 1) testGetEnv testArgs (fun _ => 0) (fun _ => 1) testArgs_usable
  rw [hl] at ht
  revert ht
  decide

end UsacLinux.MemoryLimit
