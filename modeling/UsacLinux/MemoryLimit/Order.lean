import UsacLinux.MemoryLimit.GetLimits

/-!
# The order of the reported entries

test_syscall9.c adds two processes and expects to read them back in that order,
and a buffer of one record to receive the older one. `list_add` links a new
node in front of the others, an update leaves its node where it is, and the
read copies from the front: what it reports is the reverse of the order of
addition.
-/

namespace UsacLinux.MemoryLimit
open Kernel Lib.ByteMemory Lib.KeyedList Lib.Machine

/-! ### Limited processes by age -/

/- What a call that answered `ret` does to the list of limited processes in the
order of their additions. -/
def ageStep (byAge : List MemoryLimitation) (c : LimitCall) (ret : ℤ) : List MemoryLimitation :=
  if ret ≠ 0 then byAge
  else match c.op with
    | .add => byAge ++ [⟨c.pid, c.limit⟩]
    | .update => byAge.map fun e => if e.pid = c.pid then {e with memoryLimit := c.limit} else e

/- The limited processes of a run, oldest first, each with its current limit. -/
def byAge (calls : List LimitCall) : List MemoryLimitation :=
  (calls.zip (run execLimit [] calls).2).foldl (fun l x => ageStep l x.1 x.2.ret) []

theorem byAge_concat (calls : List LimitCall) (c : LimitCall) :
    byAge (calls ++ [c]) =
      ageStep (byAge calls) c (execLimit (run execLimit [] calls).1 c).2.ret := by
  have hl := run_length execLimit [] calls
  simp only [byAge, run_concat, List.zip_append hl.symm, List.foldl_append, List.zip_cons_cons,
    List.zip_nil_left, List.foldl_cons, List.foldl_nil]

theorem execLimit_age (list : List MemoryLimitation) (c : LimitCall) (h : Valid list) :
    (execLimit list c).1 = (ageStep list.reverse c (execLimit list c).2.ret).reverse := by
  rcases execLimit_cases list c with ⟨hne, hl⟩ | ⟨h0, -, ⟨hop, -, hl⟩ | ⟨hop, ha⟩⟩
  · rw [ageStep, if_pos hne, List.reverse_reverse, hl]
  · simp [ageStep, h0, hop, hl]
  · rw [assignFirst_eq_map MemoryLimitation.pid h.pidsNodup ha]
    simp [ageStep, h0, hop]

theorem run_eq_byAge_reverse (calls : List LimitCall) :
    (run execLimit [] calls).1 = (byAge calls).reverse := by
  induction calls using List.reverseRecOn with
  | nil => rfl
  | append_singleton calls c ih =>
    have hv : Valid (run execLimit [] calls).1 := by
      rw [← registryAfter_entries]
      exact (registryAfter calls).valid
    rw [byAge_concat, run_concat]
    have hs := execLimit_age (run execLimit [] calls).1 c hv
    rw [ih, List.reverse_reverse] at hs
    rw [ih]
    exact hs

theorem entries_eq_byAge_reverse (calls : List LimitCall) :
    (registryAfter calls).entries = (byAge calls).reverse := by
  rw [registryAfter_entries, run_eq_byAge_reverse]

/-! ### What the kernel buffer shows -/

/- The entries the call has placed in its kernel buffer when it copies it out. -/
def shown (env : GetEnv) (args : GetArgs) (list : List MemoryLimitation) :
    Option (List MemoryLimitation) :=
  let out := so2GetMemoryLimits env args list
  out.kernelBuffer.map fun b => (List.range out.count.toNat).map b.record

/- The arguments pass the check of line 97, and the allocator returns a block
for the number of entries to report. -/
def Placed (r : Registry) (env : GetEnv) (args : GetArgs) : Prop :=
  args.Usable ∧ env.kmallocArray.returns (BitVec.ofNat 64 (r.reported args))
    (BitVec.ofNat 64 sizeofMemoryLimitation) = true

section Shown

variable (r : Registry) (env : GetEnv) (args : GetArgs)

theorem allocates_eq : env.allocates args r.entries =
    env.kmallocArray.returns (BitVec.ofNat 64 (r.reported args))
      (BitVec.ofNat 64 sizeofMemoryLimitation) := by
  have hl := r.length_lt
  have hclip : clipCount (countEntries r.entries 0) args.maxEntries =
      BitVec.ofNat 64 (r.reported args) := by
    apply BitVec.eq_of_toNat_eq
    rw [clipped_toNat, BitVec.toNat_ofNat, Nat.mod_eq_of_lt]
    rw [Registry.reported]
    omega
  rw [GetEnv.allocates, hclip]

theorem filled_records : (List.range (filled env args r.entries).2.toNat).map
    (filled env args r.entries).1.record = r.entries.take args.maxEntries.toNat := by
  rw [filled_count]
  apply List.ext_getElem?
  intro i
  by_cases hi : i < r.reported args
  · have hm : i < args.maxEntries.toNat := by
      rw [Registry.reported] at hi
      omega
    rw [List.getElem?_map, List.getElem?_range hi, List.getElem?_take_of_lt hm,
      filled_record r env args i hi]
    rfl
  · rw [List.getElem?_eq_none (by simpa using hi), List.getElem?_eq_none]
    rw [Registry.reported] at hi
    rw [List.length_take]
    omega

theorem shown_placed (h : Placed r env args) :
    shown env args r.entries = some (r.entries.take args.maxEntries.toNat) := by
  have ha : env.allocates args r.entries = true := (allocates_eq r env args).trans h.2
  rw [← filled_records r env args, shown]
  rcases get_cases r env args h.1 with ⟨hn, -⟩ | ⟨-, -, u, writes, ho⟩ | ⟨-, ho⟩
  · rw [ha] at hn
    cases hn
  · rw [ho]
    rfl
  · rw [ho]
    rfl

theorem shown_not_placed (h : ¬Placed r env args) : shown env args r.entries = none := by
  by_cases hu : args.Usable
  · have ha : env.allocates args r.entries = false := by
      rw [allocates_eq, ← Bool.not_eq_true]
      exact fun hc => h ⟨hu, hc⟩
    rw [shown, get_refused r env args hu ha]
    rfl
  · have hbad : args.maxEntries ≤ 0 ∨ args.uProcessesBuffer = 0 ∨ args.processesReturned = 0 := by
      by_contra hn
      rw [not_or, not_or, BitVec.not_le, BitVec.lt_def] at hn
      exact hu ⟨hn.1, hn.2.1, hn.2.2⟩
    rw [shown, so2GetMemoryLimits, if_pos hbad]
    rfl

end Shown

/-! ### Oldest first -/

/- The buffer shows the oldest entries in the order of their additions, and as
soon as it is full no addition that follows changes what it shows. -/
structure OldestFirst (calls : List LimitCall) (env : GetEnv) (args : GetArgs) : Prop where
  order : ∀ l, shown env args (registryAfter calls).entries = some l →
    l = (byAge calls).take args.maxEntries.toNat
  full : args.maxEntries.toNat ≤ (registryAfter calls).entries.length →
    ∀ adds : List LimitCall, (∀ c ∈ adds, c.op = .add) →
    shown env args (registryAfter (calls ++ adds)).entries =
      shown env args (registryAfter calls).entries

/- Front and back of a list with distinct pids differ. -/
theorem take_ne_take_reverse {list : List MemoryLimitation}
    (hpids : (list.map MemoryLimitation.pid).Nodup) (k : ℕ) (hk : k ≠ 0) (hn : 2 ≤ list.length) :
    list.take k ≠ list.reverse.take k := by
  intro h
  have hhead := congrArg List.head? h
  rw [List.head?_take, List.head?_take, List.head?_reverse, if_neg hk, if_neg hk] at hhead
  cases list with
  | nil => simp at hn
  | cons e es =>
    cases es with
    | nil => simp at hn
    | cons e' es =>
      rw [List.head?_cons, List.getLast?_cons_cons] at hhead
      have hm : e ∈ e' :: es := List.mem_of_getLast? hhead.symm
      exact (List.nodup_cons.mp hpids).1 (List.mem_map_of_mem hm)

theorem reverse_of_length_le_one {α : Type*} (l : List α) (h : l.length ≤ 1) : l.reverse = l := by
  match l, h with
  | [], _ => rfl
  | [_], _ => rfl

/- No call removes an entry. -/
theorem length_le_execLimit (list : List MemoryLimitation) (c : LimitCall) :
    list.length ≤ (execLimit list c).1.length := by
  rcases execLimit_cases list c with ⟨-, hl⟩ | ⟨-, -, ⟨-, -, hl⟩ | ⟨-, ha⟩⟩
  · rw [hl]
  · rw [hl, List.length_cons]
    omega
  · have hk := congrArg List.length (assignFirst_keys MemoryLimitation.pid (by simp) ha)
    rw [List.length_map, List.length_map] at hk
    omega

theorem length_le_run (list : List MemoryLimitation) (calls : List LimitCall) :
    list.length ≤ (run execLimit list calls).1.length := by
  induction calls generalizing list with
  | nil => exact le_rfl
  | cons c cs ih => exact (length_le_execLimit list c).trans (ih _)

theorem length_le_after (calls later : List LimitCall) :
    (registryAfter calls).entries.length ≤ (registryAfter (calls ++ later)).entries.length := by
  rw [registryAfter_entries, registryAfter_entries, run_append]
  exact length_le_run _ later

/- A full buffer is asked for in the same size when entries are added. -/
theorem placed_of_full {r r' : Registry} (env : GetEnv) {args : GetArgs}
    (hf : args.maxEntries.toNat ≤ r.entries.length) (hl : r.entries.length ≤ r'.entries.length) :
    Placed r env args ↔ Placed r' env args := by
  have hr : r.reported args = r'.reported args := by
    rw [Registry.reported, Registry.reported]
    omega
  rw [Placed, Placed, hr]

/- A process that is not limited yet can be added, and is linked in front. -/
theorem exists_add (calls : List LimitCall) (p : PidT) (hp : 0 < p.toInt)
    (hnew : p ∉ (registryAfter calls).entries.map MemoryLimitation.pid) :
    ∃ c : LimitCall, c.op = .add ∧ (registryAfter (calls ++ [c])).entries =
      ⟨p, c.limit⟩ :: (registryAfter calls).entries := by
  let env : CallEnv := ⟨true, fun _ => some ⟨some ⟨0, 0⟩⟩, true⟩
  have hreq : requestError env p 1 = none := by
    have hn : ¬(p.toInt ≤ 0 ∨ (1 : SizeT) ≤ 0) := by
      rw [not_or]
      exact ⟨by omega, by decide⟩
    rw [requestError, if_neg hn]
    rfl
  refine ⟨⟨.add, env, p, 1⟩, rfl, ?_⟩
  rw [registryAfter_entries, run_concat, ← registryAfter_entries]
  rcases addLocked_cases true p 1 (registryAfter calls).entries with ⟨hm, -⟩ | ⟨-, hk, -⟩ | ⟨-, -, ha⟩
  · exact absurd hm hnew
  · cases hk
  · simp only [execLimit, so2AddMemoryLimit, hreq]
    rw [ha]

/- With one entry in a buffer of one record, the next addition takes its place. -/
theorem one_record_replaced {calls : List LimitCall} {env : GetEnv} {args : GetArgs}
    (hone : (registryAfter calls).entries.length = 1) (hm : args.maxEntries.toNat = 1)
    (hp : Placed (registryAfter calls) env args) :
    ∃ c : LimitCall, c.op = .add ∧ shown env args (registryAfter (calls ++ [c])).entries ≠
      shown env args (registryAfter calls).entries := by
  obtain ⟨e, he⟩ := List.length_eq_one_iff.mp hone
  have hfresh : ∃ p : PidT, 0 < p.toInt ∧ p ≠ e.pid := by
    by_cases h1 : e.pid = 1
    · exact ⟨2, by decide, by rw [h1]; decide⟩
    · exact ⟨1, by decide, fun h => h1 h.symm⟩
  obtain ⟨p, hpos, hne⟩ := hfresh
  obtain ⟨c, hop, hc⟩ := exists_add calls p hpos (by simpa [he] using hne)
  refine ⟨c, hop, fun heq => ?_⟩
  have hp' := (placed_of_full env (by omega) (length_le_after calls [c])).mp hp
  rw [shown_placed _ env args hp', shown_placed _ env args hp, hc, he, hm] at heq
  exact hne (congrArg MemoryLimitation.pid (List.cons.inj (Option.some.inj heq)).1)

/- Exactly then: there is nothing to report, or one entry that leaves room in
the buffer, or nothing is placed in a buffer. -/
theorem so2_oldest_first_iff (calls : List LimitCall) (env : GetEnv) (args : GetArgs) :
    OldestFirst calls env args ↔
      (registryAfter calls).entries.length = 0 ∨
      ((registryAfter calls).entries.length = 1 ∧ 2 ≤ args.maxEntries.toNat) ∨
      ¬Placed (registryAfter calls) env args := by
  have hage : byAge calls = (registryAfter calls).entries.reverse := by
    rw [entries_eq_byAge_reverse, List.reverse_reverse]
  constructor
  · intro h
    by_contra hn
    rw [not_or, not_or, not_not] at hn
    obtain ⟨h0, h1, hp⟩ := hn
    have hm := hp.1.maxEntries
    by_cases hlen : (registryAfter calls).entries.length = 1
    · obtain ⟨c, hop, hne⟩ := one_record_replaced hlen (by omega) hp
      exact hne (h.full (by omega) [c] (by simpa using hop))
    · have ho := h.order _ (shown_placed _ env args hp)
      rw [hage] at ho
      exact take_ne_take_reverse (registryAfter calls).valid.pidsNodup _ (by omega) (by omega) ho
  · intro h
    refine ⟨fun l hl => ?_, fun hfull adds _ => ?_⟩
    · have hp : Placed (registryAfter calls) env args := by
        by_contra hnot
        rw [shown_not_placed _ env args hnot] at hl
        cases hl
      have hlen : (registryAfter calls).entries.length ≤ 1 := by
        rcases h with h | h | h
        · omega
        · omega
        · exact absurd hp h
      rw [hage, reverse_of_length_le_one _ hlen]
      rw [shown_placed _ env args hp] at hl
      exact (Option.some.inj hl).symm
    · -- an empty buffer is full only for a maximum of 0, which the check refuses
      have hnot : ¬Placed (registryAfter calls) env args := by
        intro hp
        have hm := hp.1.maxEntries
        rcases h with h | h | h
        · omega
        · omega
        · exact h hp
      have hiff := placed_of_full env hfull (length_le_after calls adds)
      rw [shown_not_placed _ env args hnot, shown_not_placed _ env args (fun hp => hnot (hiff.mpr hp))]

/- The buffer of one record of test_syscall9.c: the test expects pid 1234, which
was added first. -/
theorem so2_small_buffer_shows_newest :
    byAge testCalls = [⟨1234, 500⟩, ⟨5678, 1000⟩] ∧
    shown ⟨.plenty, fun _ => 0, 4096, true⟩ ⟨0x1000, 1, 0x2000⟩ (registryAfter testCalls).entries =
      some [⟨5678, 1000⟩] ∧
    ¬∀ (calls : List LimitCall) (env : GetEnv) (args : GetArgs), OldestFirst calls env args := by
  have hshown : shown ⟨.plenty, fun _ => 0, 4096, true⟩ ⟨0x1000, 1, 0x2000⟩
      (registryAfter testCalls).entries = some [⟨5678, 1000⟩] :=
    shown_placed (registryAfter testCalls) _ _ ⟨⟨by decide, by decide, by decide⟩, by decide⟩
  have hage : byAge testCalls = [⟨1234, 500⟩, ⟨5678, 1000⟩] := by decide
  refine ⟨hage, hshown, ?_⟩
  intro h
  have ho := (h testCalls _ _).order _ hshown
  rw [hage] at ho
  revert ho
  decide

end UsacLinux.MemoryLimit
