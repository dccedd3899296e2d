import UsacLinux.MemoryLimit.GetLimits
import UsacLinux.Lib.Mutex

/-!
# Concurrent calls on the registry

The three calls of syscall7.c step by step: the checks, the wait for
`memory_limit_lock`, every iteration of every list traversal, the allocations,
the insertion or assignment, each of the seven `mutex_unlock` and the copy to
user space. A traversal's cursor counts the nodes from the current one to the
end of the list, which no insertion at the head changes.
-/

namespace UsacLinux.MemoryLimit
open Kernel Lib.KeyedList Lib.Machine Lib.Mutex

inductive Place where
  | lock (c : RegistryCall)
  | entered (c : RegistryCall)
  | scan (c : LimitCall) (rem : ℕ)
  | alloc (c : LimitCall)
  | insert (c : LimitCall)
  | assign (c : LimitCall) (rem : ℕ)
  | count (env : GetEnv) (args : GetArgs) (rem : ℕ) (n : SizeT)
  | allocArray (env : GetEnv) (args : GetArgs) (n : SizeT)
  | fill (env : GetEnv) (args : GetArgs) (b : KernelBuffer)
  | copy (env : GetEnv) (args : GetArgs) (rem : ℕ) (b : KernelBuffer) (n : SizeT)
  -- the places of the seven `mutex_unlock`
  | listed
  | noNode
  | added
  | noBuffer
  | copied (env : GetEnv) (args : GetArgs) (b : KernelBuffer) (n : SizeT)
  | updated
  | notListed
  -- behind them
  | copyOut (env : GetEnv) (args : GetArgs) (b : KernelBuffer) (n : SizeT)
  | ret (r : RegistryReply)

def nodesFrom (list : List MemoryLimitation) (rem : ℕ) : List MemoryLimitation :=
  list.drop (list.length - rem)

/- Lines 31-54, 97-99 and 160-188: the paths that return without the lock. -/
def refused : RegistryCall → Option RegistryReply
  | .limit c => (requestError c.env c.pid c.limit).map fun e =>
      .limit ⟨-e, match c.op with
        | .add => none
        | .update => some e⟩
  | .get _ args =>
    if args.maxEntries ≤ 0 ∨ args.uProcessesBuffer = 0 ∨ args.processesReturned = 0 then
      some (.get (.failed EINVAL))
    else none

def check (c : RegistryCall) : Place ⊕ RegistryReply :=
  match refused c with
  | some r => .inr r
  | none => .inl (.lock c)

/- Lines 60-65 and 194-201, one iteration or the end of the loop. -/
def scanStep (list : List MemoryLimitation) (c : LimitCall) (rem : ℕ) : Place :=
  match nodesFrom list rem with
  | [] => match c.op with
    | .add => .alloc c
    | .update => .notListed
  | entry :: _ =>
    if entry.pid = c.pid then match c.op with
      | .add => .listed
      | .update => .assign c rem
    else .scan c (rem - 1)

/- Lines 105-107. -/
def countStep (list : List MemoryLimitation) (env : GetEnv) (args : GetArgs) (rem : ℕ) (n : SizeT) :
    Place :=
  match nodesFrom list rem with
  | [] => .allocArray env args n
  | _ :: _ => .count env args (rem - 1) (n + 1)

/- Lines 109-119. -/
def allocArrayStep (env : GetEnv) (args : GetArgs) (n : SizeT) : Place :=
  let count := clipCount n args.maxEntries
  if env.kmallocArray.returns count (BitVec.ofNat 64 sizeofMemoryLimitation) then
    .fill env args ⟨count, env.stale, []⟩
  else .noBuffer

/- Lines 123-130. -/
def copyStep (list : List MemoryLimitation) (env : GetEnv) (args : GetArgs) (rem : ℕ)
    (b : KernelBuffer) (n : SizeT) : Place :=
  match nodesFrom list rem with
  | [] => .copied env args b n
  | entry :: _ =>
    if args.maxEntries ≤ n then .copied env args b n
    else .copy env args (rem - 1) (b.assign n entry) (n + 1)

/- Every place with what stands there. -/
def code : Place → Instr (List MemoryLimitation) Place RegistryReply
  | .lock c => .lock (.entered c)
  | .entered (.limit c) => .work fun list => (list, .scan c list.length)
  | .entered (.get env args) => .work fun list => (list, .count env args list.length 0)
  | .scan c rem => .work fun list => (list, scanStep list c rem)
  | .alloc c => .work fun list => (list, if c.env.kmalloc then .insert c else .noNode)
  | .insert c => .work fun list => (⟨c.pid, c.limit⟩ :: list, .added)
  | .assign c rem => .work fun list =>
    (list.modify (list.length - rem) fun entry => {entry with memoryLimit := c.limit}, .updated)
  | .count env args rem n => .work fun list => (list, countStep list env args rem n)
  | .allocArray env args n => .work fun list => (list, allocArrayStep env args n)
  | .fill env args b => .work fun list => (list, .copy env args list.length b 0)
  | .copy env args rem b n => .work fun list => (list, copyStep list env args rem b n)
  | .listed => .unlock (.ret (.limit ⟨-101, none⟩)) -- line 62
  | .noNode => .unlock (.ret (.limit ⟨-ENOMEM, none⟩)) -- line 70
  | .added => .unlock (.ret (.limit ⟨0, none⟩)) -- line 81
  | .noBuffer => .unlock (.ret (.get (.failed ENOMEM))) -- line 117
  | .copied env args b n => .unlock (.copyOut env args b n) -- line 133
  | .updated => .unlock (.ret (.limit ⟨0, none⟩)) -- line 198
  | .notListed => .unlock (.ret (.limit ⟨-102, some 102⟩)) -- line 204
  | .copyOut env args b n => .ret (.get (copyOut env args b n)) -- lines 135-152
  | .ret r => .ret r

def registryProgram : Program (List MemoryLimitation) RegistryCall RegistryReply Place :=
  ⟨check, code⟩

theorem check_inl {c : RegistryCall} {p : Place} (h : check c = .inl p) :
    p = .lock c ∧ refused c = none := by
  unfold check at h
  split at h
  · cases h
  next hr =>
    cases h
    exact ⟨rfl, hr⟩

theorem check_inr {c : RegistryCall} {r : RegistryReply} (h : check c = .inr r) :
    refused c = some r := by
  unfold check at h
  split at h
  next hr =>
    cases h
    exact hr
  · cases h

theorem check_passed {c : RegistryCall} {p : Place} (h : check c = .inl p) : refused c = none :=
  (check_inl h).2

/-! ### Lock discipline of the three calls -/

def zone : Place → Zone
  | .lock _ => .before
  | .copyOut _ _ _ _ => .after
  | .ret _ => .after
  | _ => .inside

theorem zone_scanStep (list : List MemoryLimitation) (c : LimitCall) (rem : ℕ) :
    zone (scanStep list c rem) = .inside := by
  unfold scanStep
  split
  · cases c.op <;> rfl
  · split
    · cases c.op <;> rfl
    · rfl

theorem zone_countStep (list : List MemoryLimitation) (env : GetEnv) (args : GetArgs) (rem : ℕ)
    (n : SizeT) : zone (countStep list env args rem n) = .inside := by
  unfold countStep
  split <;> rfl

theorem zone_allocArrayStep (env : GetEnv) (args : GetArgs) (n : SizeT) :
    zone (allocArrayStep env args n) = .inside := by
  unfold allocArrayStep
  dsimp only
  split <;> rfl

theorem zone_copyStep (list : List MemoryLimitation) (env : GetEnv) (args : GetArgs) (rem : ℕ)
    (b : KernelBuffer) (n : SizeT) : zone (copyStep list env args rem b n) = .inside := by
  unfold copyStep
  split
  · rfl
  · split <;> rfl

theorem zone_work {p : Place} {f : List MemoryLimitation → List MemoryLimitation × Place}
    (h : code p = .work f) (list : List MemoryLimitation) : zone (f list).2 = .inside := by
  cases p with
  | entered c => cases c <;> cases h <;> rfl
  | scan c rem =>
    cases h
    exact zone_scanStep list c rem
  | alloc c =>
    cases h
    show zone (if c.env.kmalloc then .insert c else .noNode) = _
    split <;> rfl
  | count env args rem n =>
    cases h
    exact zone_countStep list env args rem n
  | allocArray env args n =>
    cases h
    exact zone_allocArrayStep env args n
  | copy env args rem b n =>
    cases h
    exact zone_copyStep list env args rem b n
  | _ => cases h <;> rfl

/- All paths of the three calls, place by place. -/
theorem registry_disciplined : Disciplined registryProgram zone where
  check c p h := by
    rw [(check_inl h).1]
    rfl
  lock p q h := by
    cases p with
    | lock c =>
      cases h
      exact ⟨rfl, rfl⟩
    | entered c => cases c <;> cases h
    | _ => cases h
  work p f h := by
    refine ⟨?_, zone_work h⟩
    cases p with
    | entered c => rfl
    | _ => first | rfl | cases h
  unlock p q h := by
    cases p with
    | entered c => cases c <;> cases h
    | _ => first | exact ⟨rfl, by cases h; rfl⟩ | cases h
  ret p o h := by
    cases p with
    | entered c => cases c <;> cases h
    | _ => first | rfl | cases h

/-! ### The sequential call, once its checks have passed -/

theorem execCall_refused {c : RegistryCall} {r : RegistryReply} (h : refused c = some r)
    (list : List MemoryLimitation) : execCall list c = (list, r) := by
  cases c with
  | limit c =>
    obtain ⟨e, he, rfl⟩ := Option.map_eq_some_iff.mp h
    obtain ⟨op, env, p, l⟩ := c
    cases op with
    | add => simp only [execCall, execLimit, so2AddMemoryLimit, he]
    | update => simp only [execCall, execLimit, so2UpdateMemoryLimit, he]
  | get env args =>
    simp only [refused] at h
    split at h
    next hbad =>
      rw [← Option.some.inj h]
      simp only [execCall, so2GetMemoryLimits, if_pos hbad]
    · cases h

theorem refused_limit {c : LimitCall} (h : refused (.limit c) = none) :
    requestError c.env c.pid c.limit = none := Option.map_eq_none_iff.mp h

theorem execCall_add {c : LimitCall} (h : refused (.limit c) = none) (hop : c.op = .add)
    (list : List MemoryLimitation) :
    execCall list (.limit c) = ((addLocked c.env.kmalloc c.pid c.limit list).1,
      .limit ⟨(addLocked c.env.kmalloc c.pid c.limit list).2, none⟩) := by
  simp only [execCall, execLimit, hop, so2AddMemoryLimit, refused_limit h]

theorem execCall_update {c : LimitCall} (h : refused (.limit c) = none) (hop : c.op = .update)
    (list : List MemoryLimitation) :
    execCall list (.limit c) = ((updateLocked c.pid c.limit list).1,
      .limit ⟨(updateLocked c.pid c.limit list).2,
        if (updateLocked c.pid c.limit list).2 = 0 then none else some 102⟩) := by
  simp only [execCall, execLimit, hop, so2UpdateMemoryLimit, refused_limit h]

theorem execCall_get {env : GetEnv} {args : GetArgs} (h : refused (.get env args) = none)
    (list : List MemoryLimitation) :
    execCall list (.get env args) = (list, .get (if env.allocates args list then
      copyOut env args (filled env args list).1 (filled env args list).2
      else .failed ENOMEM)) := by
  simp only [refused] at h
  split at h
  · cases h
  next hok => simp only [execCall, so2GetMemoryLimits, if_neg hok]

/-! ### Cursors -/

theorem nodesFrom_head (list : List MemoryLimitation) : nodesFrom list list.length = list := by
  simp [nodesFrom]

theorem nodesFrom_nil {list : List MemoryLimitation} {rem : ℕ} (h : nodesFrom list rem = []) :
    list.take (list.length - rem) = list := by
  have hl := List.drop_eq_nil_iff.mp h
  exact List.take_of_length_le hl

theorem nodesFrom_cons {list es : List MemoryLimitation} {rem : ℕ} {e : MemoryLimitation}
    (hr : rem ≤ list.length) (h : nodesFrom list rem = e :: es) :
    nodesFrom list (rem - 1) = es ∧
      list.take (list.length - (rem - 1)) = list.take (list.length - rem) ++ [e] := by
  have hlen := congrArg List.length h
  simp only [nodesFrom, List.length_drop, List.length_cons] at hlen
  have hidx : list.length - (rem - 1) = list.length - rem + 1 := by omega
  have hlt : list.length - rem < list.length := by omega
  have hd := List.drop_eq_getElem_cons hlt
  rw [nodesFrom, hd] at h
  obtain ⟨rfl, rfl⟩ := List.cons.inj h
  rw [nodesFrom, hidx]
  exact ⟨rfl, by rw [List.take_add_one, List.getElem?_eq_getElem hlt]; rfl⟩

/-! ### The critical sections do what the sequential calls do -/

/- The answer that is settled at a place: at the seven releases and behind them. -/
abbrev outcome (p : Place) : Option RegistryReply := registryProgram.answer (.running p)

/- What is known at the other places: going on from there gives the sequential
result. -/
def Reached (c : RegistryCall) (list : List MemoryLimitation) : Place → Prop
  | .entered c' => c' = c
  | .scan l rem => c = .limit l ∧ rem ≤ list.length ∧
      l.pid ∉ (list.take (list.length - rem)).map MemoryLimitation.pid
  | .alloc l => c = .limit l ∧ l.op = .add ∧ l.pid ∉ list.map MemoryLimitation.pid
  | .insert l => c = .limit l ∧ l.op = .add ∧ l.pid ∉ list.map MemoryLimitation.pid ∧
      l.env.kmalloc = true
  | .assign l rem => c = .limit l ∧ l.op = .update ∧
      l.pid ∉ (list.take (list.length - rem)).map MemoryLimitation.pid ∧
      ∃ e es, nodesFrom list rem = e :: es ∧ e.pid = l.pid
  | .count env args rem n => c = .get env args ∧ rem ≤ list.length ∧
      countEntries (nodesFrom list rem) n = countEntries list 0
  | .allocArray env args n => c = .get env args ∧ n = countEntries list 0
  | .fill env args b => c = .get env args ∧ env.allocates args list = true ∧
      b = ⟨clipCount (countEntries list 0) args.maxEntries, env.stale, []⟩
  | .copy env args rem b n => c = .get env args ∧ env.allocates args list = true ∧
      rem ≤ list.length ∧ copyEntries args.maxEntries (nodesFrom list rem) b n = filled env args list
  | _ => False

/- The list is the one found at the acquisition until the answer is settled, and
the one the sequential call leaves from then on. -/
structure Progress (c : RegistryCall) (before list : List MemoryLimitation) (p : Place) : Prop where
  passed : refused c = none
  settled : ∀ r, outcome p = some r → execCall before c = (list, r)
  working : outcome p = none → list = before ∧ Reached c list p

/- What one step under the lock has to do, from the list of the acquisition. -/
def StepOk (c : RegistryCall) (list : List MemoryLimitation) (p : Place) : Prop :=
  ∀ f, code p = .work f → match outcome (f list).2 with
    | some r => execCall list c = ((f list).1, r)
    | none => (f list).1 = list ∧ Reached c list (f list).2

theorem StepOk.goOn {c : RegistryCall} {list : List MemoryLimitation} {p q : Place}
    {f : List MemoryLimitation → List MemoryLimitation × Place} (hp : code p = .work f)
    (hf : f list = (list, q)) (hq : outcome q = none) (h : Reached c list q) : StepOk c list p := by
  intro g hg
  cases hp.symm.trans hg
  rw [hf]
  dsimp only
  rw [hq]
  exact ⟨rfl, h⟩

theorem StepOk.leave {c : RegistryCall} {list list' : List MemoryLimitation} {p q : Place}
    {r : RegistryReply} {f : List MemoryLimitation → List MemoryLimitation × Place}
    (hp : code p = .work f) (hf : f list = (list', q)) (hq : outcome q = some r)
    (h : execCall list c = (list', r)) : StepOk c list p := by
  intro g hg
  cases hp.symm.trans hg
  rw [hf]
  dsimp only
  rw [hq]
  exact h

theorem addLocked_present {k : Bool} {p : PidT} {l : SizeT} {list : List MemoryLimitation}
    (h : p ∈ list.map MemoryLimitation.pid) : addLocked k p l list = (list, -101) := by
  rcases addLocked_cases k p l list with ⟨-, ha⟩ | ⟨hn, -⟩ | ⟨hn, -⟩
  · exact ha
  · exact absurd h hn
  · exact absurd h hn

theorem addLocked_absent {k : Bool} {p : PidT} {l : SizeT} {list : List MemoryLimitation}
    (h : p ∉ list.map MemoryLimitation.pid) :
    addLocked k p l list = if k then (⟨p, l⟩ :: list, 0) else (list, -ENOMEM) := by
  rcases addLocked_cases k p l list with ⟨hp, -⟩ | ⟨-, rfl, ha⟩ | ⟨-, rfl, ha⟩
  · exact absurd hp h
  · exact ha
  · exact ha

theorem updateLocked_absent {p : PidT} {l : SizeT} {list : List MemoryLimitation}
    (h : p ∉ list.map MemoryLimitation.pid) : updateLocked p l list = (list, -102) := by
  rcases updateLocked_cases p l list with ⟨-, hu⟩ | ⟨hp, -⟩
  · exact hu
  · exact absurd hp h

section Limit

variable {c : LimitCall} {list : List MemoryLimitation} (hpass : refused (.limit c) = none)
include hpass

theorem scan_ok {rem : ℕ} (hrem : rem ≤ list.length)
    (hpre : c.pid ∉ (list.take (list.length - rem)).map MemoryLimitation.pid) :
    StepOk (.limit c) list (.scan c rem) := by
  cases hn : nodesFrom list rem with
  | nil =>
    rw [nodesFrom_nil hn] at hpre
    cases hop : c.op with
    | add =>
      have hs : scanStep list c rem = .alloc c := by simp only [scanStep, hn, hop]
      exact .goOn rfl (congrArg (Prod.mk list) hs) rfl ⟨rfl, hop, hpre⟩
    | update =>
      have hs : scanStep list c rem = .notListed := by simp only [scanStep, hn, hop]
      refine .leave rfl (congrArg (Prod.mk list) hs) rfl ?_
      rw [execCall_update hpass hop, updateLocked_absent hpre]
      rfl
  | cons e es =>
    by_cases he : e.pid = c.pid
    · cases hop : c.op with
      | add =>
        have hs : scanStep list c rem = .listed := by simp only [scanStep, hn, he, if_true, hop]
        have hmem : e ∈ list := by
          apply List.mem_of_mem_drop
          rw [← nodesFrom, hn]
          exact List.mem_cons_self
        refine .leave rfl (congrArg (Prod.mk list) hs) rfl ?_
        rw [execCall_add hpass hop, addLocked_present (he ▸ List.mem_map_of_mem hmem)]
      | update =>
        have hs : scanStep list c rem = .assign c rem := by
          simp only [scanStep, hn, he, if_true, hop]
        exact .goOn rfl (congrArg (Prod.mk list) hs) rfl ⟨rfl, hop, hpre, e, es, hn, he⟩
    · have hs : scanStep list c rem = .scan c (rem - 1) := by simp only [scanStep, hn, he, if_false]
      refine .goOn rfl (congrArg (Prod.mk list) hs) rfl ⟨rfl, by omega, ?_⟩
      rw [(nodesFrom_cons hrem hn).2, List.map_append, List.mem_append, List.map_singleton,
        List.mem_singleton, not_or]
      exact ⟨hpre, Ne.symm he⟩

theorem alloc_ok (hop : c.op = .add) (hnew : c.pid ∉ list.map MemoryLimitation.pid) :
    StepOk (.limit c) list (.alloc c) := by
  cases hk : c.env.kmalloc with
  | true =>
    have hs : (if c.env.kmalloc then Place.insert c else .noNode) = .insert c := if_pos hk
    exact .goOn rfl (congrArg (Prod.mk list) hs) rfl ⟨rfl, hop, hnew, hk⟩
  | false =>
    have hs : (if c.env.kmalloc then Place.insert c else .noNode) = .noNode := by rw [hk]; rfl
    refine .leave rfl (congrArg (Prod.mk list) hs) rfl ?_
    rw [execCall_add hpass hop, addLocked_absent hnew, hk]
    rfl

theorem insert_ok (hop : c.op = .add) (hnew : c.pid ∉ list.map MemoryLimitation.pid)
    (hk : c.env.kmalloc = true) : StepOk (.limit c) list (.insert c) := by
  refine .leave rfl rfl rfl ?_
  rw [execCall_add hpass hop, addLocked_absent hnew, hk]
  rfl

theorem assign_ok {es : List MemoryLimitation} {rem : ℕ} {e : MemoryLimitation}
    (hop : c.op = .update) (hpre : c.pid ∉ (list.take (list.length - rem)).map MemoryLimitation.pid)
    (hn : nodesFrom list rem = e :: es) (he : e.pid = c.pid) :
    StepOk (.limit c) list (.assign c rem) := by
  have hm := assignFirst_modify MemoryLimitation.pid
    (fun entry => {entry with memoryLimit := c.limit}) hn he hpre
  refine .leave rfl rfl rfl ?_
  rw [execCall_update hpass hop]
  simp only [updateLocked, hm, if_true]

end Limit

section Get

variable {env : GetEnv} {args : GetArgs} {list : List MemoryLimitation}

theorem count_ok {rem : ℕ} {n : SizeT} (hrem : rem ≤ list.length)
    (hc : countEntries (nodesFrom list rem) n = countEntries list 0) :
    StepOk (.get env args) list (.count env args rem n) := by
  cases hn : nodesFrom list rem with
  | nil =>
    have hs : countStep list env args rem n = .allocArray env args n := by simp only [countStep, hn]
    rw [hn] at hc
    exact .goOn rfl (congrArg (Prod.mk list) hs) rfl ⟨rfl, hc⟩
  | cons e es =>
    have hs : countStep list env args rem n = .count env args (rem - 1) (n + 1) := by
      simp only [countStep, hn]
    rw [hn, countEntries, ← (nodesFrom_cons hrem hn).1] at hc
    exact .goOn rfl (congrArg (Prod.mk list) hs) rfl ⟨rfl, by omega, hc⟩

variable (hpass : refused (.get env args) = none)
include hpass

theorem allocArray_ok :
    StepOk (.get env args) list (.allocArray env args (countEntries list 0)) := by
  by_cases ha : env.allocates args list = true
  · have hs : allocArrayStep env args (countEntries list 0) =
        .fill env args ⟨clipCount (countEntries list 0) args.maxEntries, env.stale, []⟩ := by
      have hr := ha
      rw [GetEnv.allocates] at hr
      simp only [allocArrayStep, hr, if_true]
    exact .goOn rfl (congrArg (Prod.mk list) hs) rfl ⟨rfl, ha, rfl⟩
  · have hs : allocArrayStep env args (countEntries list 0) = .noBuffer := by
      have hr := ha
      rw [GetEnv.allocates] at hr
      simp only [allocArrayStep, hr, if_false, Bool.false_eq_true]
    refine .leave rfl (congrArg (Prod.mk list) hs) rfl ?_
    rw [execCall_get hpass, if_neg ha]

theorem copy_ok {rem : ℕ} {b : KernelBuffer} {n : SizeT} (ha : env.allocates args list = true)
    (hrem : rem ≤ list.length)
    (hc : copyEntries args.maxEntries (nodesFrom list rem) b n = filled env args list) :
    StepOk (.get env args) list (.copy env args rem b n) := by
  have hleave (hf : (b, n) = filled env args list)
      (hs : copyStep list env args rem b n = .copied env args b n) :
      StepOk (.get env args) list (.copy env args rem b n) := by
    refine .leave rfl (congrArg (Prod.mk list) hs) rfl ?_
    rw [execCall_get hpass, if_pos ha, ← hf]
  cases hn : nodesFrom list rem with
  | nil =>
    rw [hn, copyEntries] at hc
    exact hleave hc (by simp only [copyStep, hn])
  | cons e es =>
    rw [hn, copyEntries] at hc
    by_cases hmax : args.maxEntries ≤ n
    · rw [if_pos hmax] at hc
      exact hleave hc (by simp only [copyStep, hn, hmax, if_true])
    · have hs : copyStep list env args rem b n =
          .copy env args (rem - 1) (b.assign n e) (n + 1) := by
        simp only [copyStep, hn, hmax, if_false]
      rw [if_neg hmax, ← (nodesFrom_cons hrem hn).1] at hc
      exact .goOn rfl (congrArg (Prod.mk list) hs) rfl ⟨rfl, ha, by omega, hc⟩

end Get

theorem step_ok {c : RegistryCall} {list : List MemoryLimitation} {p : Place}
    (hpass : refused c = none) (h : Reached c list p) : StepOk c list p := by
  cases p with
  | entered c' =>
    obtain rfl : c' = c := h
    cases c' with
    | limit l => exact .goOn rfl rfl rfl ⟨rfl, le_rfl, by simp⟩
    | get env args => exact .goOn rfl rfl rfl ⟨rfl, le_rfl, by rw [nodesFrom_head]⟩
  | scan l rem =>
    obtain ⟨rfl, hrem, hpre⟩ := h
    exact scan_ok hpass hrem hpre
  | alloc l =>
    obtain ⟨rfl, hop, hnew⟩ := h
    exact alloc_ok hpass hop hnew
  | insert l =>
    obtain ⟨rfl, hop, hnew, hk⟩ := h
    exact insert_ok hpass hop hnew hk
  | assign l rem =>
    obtain ⟨rfl, hop, hpre, e, es, hn, he⟩ := h
    exact assign_ok hpass hop hpre hn he
  | count env args rem n =>
    obtain ⟨rfl, hrem, hc⟩ := h
    exact count_ok hrem hc
  | allocArray env args n =>
    obtain ⟨rfl, rfl⟩ := h
    exact allocArray_ok hpass
  | fill env args b =>
    obtain ⟨rfl, ha, rfl⟩ := h
    exact .goOn rfl rfl rfl ⟨rfl, ha, le_rfl, by rw [nodesFrom_head]; rfl⟩
  | copy env args rem b n =>
    obtain ⟨rfl, ha, hrem, hc⟩ := h
    exact copy_ok hpass ha hrem hc
  | _ => exact h.elim

/- No answer is settled where there is work to do. -/
theorem outcome_work {p : Place} {f : List MemoryLimitation → List MemoryLimitation × Place}
    (h : code p = .work f) : outcome p = none := by
  simp only [outcome, Program.answer, registryProgram, h]

/- Behind each of the seven releases the call returns. -/
theorem ret_of_unlock {p q : Place} (h : code p = .unlock q) : ∃ r, code q = .ret r := by
  cases p with
  | entered c => cases c <;> cases h
  | _ => first | exact ⟨_, by cases h; rfl⟩ | cases h

theorem registry_implements : Implements registryProgram execCall Progress where
  refused c r list h := execCall_refused (check_inr h) list
  entered c p q list hp hq := by
    obtain ⟨rfl, hpass⟩ := check_inl hp
    cases hq
    have hnone : outcome (.entered c) = none := by cases c <;> rfl
    exact ⟨hpass, fun r hr => absurd (hnone.symm.trans hr) (by simp), fun _ => ⟨rfl, rfl⟩⟩
  work c before list p f hf h := by
    obtain ⟨rfl, hr⟩ := h.working (outcome_work hf)
    have hok := step_ok h.passed hr f hf
    refine ⟨h.passed, fun r hr => ?_, fun hn => ?_⟩
    · rw [hr] at hok
      exact hok
    · rw [hn] at hok
      obtain ⟨hsame, hreached⟩ := hok
      rw [hsame]
      exact ⟨rfl, hreached⟩
  unlock c before list p q hp h := by
    obtain ⟨r, hr⟩ := ret_of_unlock hp
    exact ⟨r, hr, h.settled r (answer_unlock hp hr)⟩

end UsacLinux.MemoryLimit
