import UsacLinux.MemoryLimit.Concurrent
import UsacLinux.Lib.Ring
import Mathlib.Algebra.Order.BigOperators.Group.List

/-!
# The registry as a ring of kmalloc blocks

`memory_limit_list` is a `struct list_head`, and every entry is a block from
`kmalloc` with another one inside. The three calls of syscall7.c run here on the
blocks themselves: every access through a pointer needs a block that is
allocated, every index of the copy loop needs an element, every `kfree` needs a
block to free, and a traversal that does not come back to the head runs out of
fuel. `list_add`, `INIT_LIST_HEAD` and `list_for_each_entry` do what linux/list.h
says.
-/

namespace UsacLinux.MemoryLimit
open Kernel Lib.ByteMemory Lib.KeyedList Lib.Machine Lib.Ring

/- The static head, or the `list_head` inside a block. -/
inductive Ptr where
  | memoryLimitList
  | block (b : ℕ)
  deriving DecidableEq

inductive HeapFault where
  | dangling
  | outOfBounds
  | badFree
  | outOfFuel
  deriving DecidableEq

/- Blocks allocated and not yet freed, the two fields of the entry in every
block, and all list pointers. -/
structure NodeHeap where
  live : List ℕ
  node : ℕ → MemoryLimitation
  links : Links Ptr

/- Which block the allocator hands out when it has one. -/
structure Kmalloc where
  block : List ℕ → ℕ
  fresh : ∀ live, block live ∉ live

/-! ### Accesses -/

def NodeHeap.valid (h : NodeHeap) : Ptr → Bool
  | .memoryLimitList => true
  | .block b => decide (b ∈ h.live)

/- A value read, or a heap written, through the pointer `p`. -/
def NodeHeap.deref {α : Type} (h : NodeHeap) (p : Ptr) (v : α) : Except HeapFault α :=
  if h.valid p then .ok v else .error .dangling

def NodeHeap.next (h : NodeHeap) (p : Ptr) : Except HeapFault Ptr := h.deref p (h.links.next p)

def NodeHeap.entry (h : NodeHeap) (b : ℕ) : Except HeapFault MemoryLimitation :=
  h.deref (.block b) (h.node b)

def NodeHeap.assign (h : NodeHeap) (b : ℕ) (entry : MemoryLimitation) : Except HeapFault NodeHeap :=
  h.deref (.block b) {h with node := Function.update h.node b entry}

def NodeHeap.kmalloc (h : NodeHeap) (b : ℕ) : NodeHeap := {h with live := b :: h.live}

def NodeHeap.initListHead (h : NodeHeap) (b : ℕ) : Except HeapFault NodeHeap :=
  h.deref (.block b) {h with links := h.links.init (.block b)}

/- Writes to the new node, to the head and to the node behind the head. -/
def NodeHeap.listAdd (h : NodeHeap) (b : ℕ) : Except HeapFault NodeHeap := do
  let first ← h.next .memoryLimitList
  let h' ← h.deref first {h with links := h.links.add (.block b) .memoryLimitList}
  h.deref (.block b) h'

/- `none` is `ZERO_SIZE_PTR`, the result for an array of no elements. -/
def NodeHeap.kmallocArray (h : NodeHeap) (k : Kmalloc) (count : SizeT) : NodeHeap × Option ℕ :=
  if count = 0 then (h, none) else (h.kmalloc (k.block h.live), some (k.block h.live))

def NodeHeap.kfree (h : NodeHeap) : Option ℕ → Except HeapFault NodeHeap
  | none => .ok h
  | some b => if b ∈ h.live then .ok {h with live := h.live.erase b} else .error .badFree

/-! ### Traversals -/

/- Lines 60-65 and 194-201: the first entry with the pid. -/
def NodeHeap.search (h : NodeHeap) (pid : PidT) : ℕ → Ptr → Except HeapFault (Option ℕ)
  | _, .memoryLimitList => .ok none
  | 0, .block _ => .error .outOfFuel
  | fuel + 1, .block b => do
    let entry ← h.entry b
    if entry.pid = pid then .ok (some b)
    else
      let p ← h.next (.block b)
      h.search pid fuel p

/- Lines 105-107. -/
def NodeHeap.countNodes (h : NodeHeap) : ℕ → Ptr → SizeT → Except HeapFault SizeT
  | _, .memoryLimitList, count => .ok count
  | 0, .block _, _ => .error .outOfFuel
  | fuel + 1, .block b, count => do
    let p ← h.next (.block b)
    h.countNodes fuel p (count + 1)

/- kernel_buffer[count] = ..., an access to the array block. -/
def NodeHeap.store (h : NodeHeap) (buffer : Option ℕ) (b : KernelBuffer) (count : SizeT)
    (entry : MemoryLimitation) : Except HeapFault KernelBuffer :=
  match buffer with
  | none => .error .dangling
  | some x =>
    if count.toNat < b.elements.toNat then h.deref (.block x) (b.assign count entry)
    else .error .outOfBounds

/- Lines 122-130. -/
def NodeHeap.copyNodes (h : NodeHeap) (maxEntries : SizeT) (buffer : Option ℕ) :
    ℕ → Ptr → KernelBuffer → SizeT → Except HeapFault (KernelBuffer × SizeT)
  | _, .memoryLimitList, b, count => .ok (b, count)
  | 0, .block _, _, _ => .error .outOfFuel
  | fuel + 1, .block x, b, count =>
    if maxEntries ≤ count then .ok (b, count)
    else do
      let entry ← h.entry x
      let b ← h.store buffer b count entry
      let p ← h.next (.block x)
      h.copyNodes maxEntries buffer fuel p b (count + 1)

/-! ### The calls -/

/- Lines 67-78, once `kmalloc` has returned the block. -/
def linkNode (b : ℕ) (entry : MemoryLimitation) (h : NodeHeap) : Except HeapFault NodeHeap := do
  let h ← (h.kmalloc b).assign b entry
  let h ← h.initListHead b
  h.listAdd b

/- Lines 59-83. -/
def addNode (k : Kmalloc) (kmalloc : Bool) (processPid : PidT) (memoryLimit : SizeT) (h : NodeHeap) :
    Except HeapFault (NodeHeap × ℤ) := do
  let first ← h.next .memoryLimitList
  let found ← h.search processPid h.live.length first
  if found.isSome then .ok (h, -101)
  else if kmalloc then
    let h ← linkNode (k.block h.live) ⟨processPid, memoryLimit⟩ h
    .ok (h, 0)
  else .ok (h, -ENOMEM)

/- Lines 193-208. -/
def updateNode (processPid : PidT) (memoryLimit : SizeT) (h : NodeHeap) :
    Except HeapFault (NodeHeap × ℤ) := do
  let first ← h.next .memoryLimitList
  let found ← h.search processPid h.live.length first
  match found with
  | none => .ok (h, -102)
  | some b =>
    let entry ← h.entry b
    let h ← h.assign b {entry with memoryLimit}
    .ok (h, 0)

/- Lines 135-152; each of the three ways out frees the array. -/
def leaveGet (env : GetEnv) (args : GetArgs) (buffer : Option ℕ) (b : KernelBuffer) (count : SizeT)
    (h : NodeHeap) : Except HeapFault (NodeHeap × GetOutcome) :=
  let size := count * BitVec.ofNat 64 sizeofMemoryLimitation
  let copied := copyToUser env.accepted args.uProcessesBuffer (slice b.bytes 0 size.toNat)
  if toInt32 copied.2 ≠ 0 then do
    let h ← h.kfree buffer
    .ok (h, ⟨-EFAULT, some b, count, some copied.2, copied.1, []⟩)
  else if env.putUser then do
    let h ← h.kfree buffer
    .ok (h, ⟨0, some b, count, some copied.2, copied.1, putUserInt args.processesReturned count⟩)
  else do
    let h ← h.kfree buffer
    .ok (h, ⟨-EFAULT, some b, count, some copied.2, copied.1, []⟩)

/- Lines 121-152. -/
def fillNodes (env : GetEnv) (args : GetArgs) (count : SizeT) (h : NodeHeap) (buffer : Option ℕ) :
    Except HeapFault (NodeHeap × GetOutcome) := do
  let first ← h.next .memoryLimitList
  let r ← h.copyNodes args.maxEntries buffer h.live.length first ⟨count, env.stale, []⟩ 0
  leaveGet env args buffer r.1 r.2 h

/- Lines 101-152. -/
def getNodes (k : Kmalloc) (env : GetEnv) (args : GetArgs) (h : NodeHeap) :
    Except HeapFault (NodeHeap × GetOutcome) := do
  let first ← h.next .memoryLimitList
  let counted ← h.countNodes h.live.length first 0
  let count := clipCount counted args.maxEntries
  if env.kmallocArray.returns count (BitVec.ofNat 64 sizeofMemoryLimitation) then
    let a := h.kmallocArray k count
    fillNodes env args count a.1 a.2
  else .ok (h, .failed ENOMEM)

structure NodeCall where
  call : RegistryCall
  kmalloc : Kmalloc

def execNode (h : NodeHeap) (c : NodeCall) : Except HeapFault (NodeHeap × RegistryReply) :=
  match refused c.call with
  | some r => .ok (h, r)
  | none => match c.call with
    | .limit l => match l.op with
      | .add => (addNode c.kmalloc l.env.kmalloc l.pid l.limit h).map fun r => (r.1, .limit ⟨r.2, none⟩)
      | .update => (updateNode l.pid l.limit h).map fun r =>
          (r.1, .limit ⟨r.2, if r.2 = 0 then none else some 102⟩)
    | .get env args => (getNodes c.kmalloc env args h).map fun r => (r.1, .get r.2)

/- `LIST_HEAD(memory_limit_list)` and nothing allocated. -/
def NodeHeap.initial : NodeHeap :=
  ⟨[], fun _ => ⟨0, 0⟩, Links.init ⟨id, id⟩ .memoryLimitList⟩

/-! ### Traversals of a ring -/

theorem NodeHeap.deref_ok {α : Type} {h : NodeHeap} {b : ℕ} (hb : b ∈ h.live) (v : α) :
    h.deref (.block b) v = .ok v := if_pos (by simpa [NodeHeap.valid] using hb)

theorem NodeHeap.next_head (h : NodeHeap) :
    h.next .memoryLimitList = .ok (h.links.next .memoryLimitList) := rfl

/- A traversal that is at `p` and has the blocks `bs` before it. -/
structure NodeHeap.Ahead (h : NodeHeap) (p : Ptr) (bs : List ℕ) : Prop where
  path : Path h.links.next .memoryLimitList p (bs.map .block)
  live : ∀ b ∈ bs, b ∈ h.live

theorem NodeHeap.Ahead.nil {h : NodeHeap} {p : Ptr} (a : h.Ahead p []) : p = .memoryLimitList := a.path

theorem NodeHeap.Ahead.cons {h : NodeHeap} {p : Ptr} {b : ℕ} {bs : List ℕ} (a : h.Ahead p (b :: bs)) :
    p = .block b ∧ b ∈ h.live ∧ h.Ahead (h.links.next (.block b)) bs := by
  obtain ⟨⟨hp, -, hrest⟩, hl⟩ := a
  exact ⟨hp, hl b (List.mem_cons_self ..), hrest, fun x hx => hl x (List.mem_cons_of_mem b hx)⟩

section Traversals

variable {h : NodeHeap} {p : Ptr} {bs : List ℕ} {fuel : ℕ}

theorem search_ok (a : h.Ahead p bs) (hf : bs.length ≤ fuel) (pid : PidT) :
    h.search pid fuel p = .ok (bs.find? fun b => decide ((h.node b).pid = pid)) := by
  induction bs generalizing p fuel with
  | nil =>
    obtain rfl := a.nil
    cases fuel <;> rfl
  | cons b bs ih =>
    obtain ⟨rfl, hb, a⟩ := a.cons
    obtain ⟨fuel, rfl⟩ := Nat.exists_eq_add_one_of_ne_zero (show fuel ≠ 0 by simp at hf; omega)
    simp only [NodeHeap.search, NodeHeap.entry, NodeHeap.next, NodeHeap.deref_ok hb]
    by_cases hp : (h.node b).pid = pid
    · simp [hp, bind, Except.bind]
    · simpa [hp, bind, Except.bind] using ih a (by simpa using hf)

theorem countNodes_ok (a : h.Ahead p bs) (hf : bs.length ≤ fuel) (count : SizeT) :
    h.countNodes fuel p count = .ok (countEntries (bs.map h.node) count) := by
  induction bs generalizing p fuel count with
  | nil =>
    obtain rfl := a.nil
    cases fuel <;> rfl
  | cons b bs ih =>
    obtain ⟨rfl, hb, a⟩ := a.cons
    obtain ⟨fuel, rfl⟩ := Nat.exists_eq_add_one_of_ne_zero (show fuel ≠ 0 by simp at hf; omega)
    simp only [NodeHeap.countNodes, NodeHeap.next, NodeHeap.deref_ok hb]
    exact ih a (by simpa using hf) (count + 1)

/- The elements still to be assigned are those of the array from `count` on. -/
theorem copyNodes_ok (maxEntries : SizeT) {x : ℕ} (hx : x ∈ h.live) (a : h.Ahead p bs)
    (hf : bs.length ≤ fuel) (b : KernelBuffer) (count : SizeT)
    (hroom : count.toNat + min bs.length (maxEntries.toNat - count.toNat) ≤ b.elements.toNat) :
    h.copyNodes maxEntries (some x) fuel p b count =
      .ok (copyEntries maxEntries (bs.map h.node) b count) := by
  induction bs generalizing p fuel b count with
  | nil =>
    obtain rfl := a.nil
    cases fuel <;> rfl
  | cons y bs ih =>
    obtain ⟨rfl, hy, a⟩ := a.cons
    obtain ⟨fuel, rfl⟩ := Nat.exists_eq_add_one_of_ne_zero (show fuel ≠ 0 by simp at hf; omega)
    simp only [NodeHeap.copyNodes, List.map_cons, copyEntries]
    by_cases hm : maxEntries ≤ count
    · rw [if_pos hm, if_pos hm]
    · have hs := succ_toNat hm
      rw [List.length_cons] at hroom
      have hlt : count.toNat < b.elements.toNat := by omega
      rw [if_neg hm, if_neg hm]
      simp only [NodeHeap.entry, NodeHeap.store, NodeHeap.next, NodeHeap.deref_ok hy,
        NodeHeap.deref_ok hx, if_pos hlt]
      refine ih a (by simpa using hf) _ _ ?_
      show (count + 1).toNat + min bs.length (maxEntries.toNat - (count + 1).toNat) ≤ b.elements.toNat
      rw [hs.1]
      omega

end Traversals

/-! ### Each call on the nodes does what it does on the list -/

/- The live blocks are the nodes of the ring, and hold the entries of the list. -/
structure Represents (h : NodeHeap) (list : List MemoryLimitation) : Prop where
  ring : IsRing h.links .memoryLimitList (h.live.map .block)
  entries : h.live.map h.node = list

theorem initial_represents : Represents .initial [] := ⟨.empty _ _, rfl⟩

section Calls

variable {h : NodeHeap} {list : List MemoryLimitation} (hr : Represents h list)

include hr

theorem Represents.nodup : h.live.Nodup :=
  List.Nodup.of_map Ptr.block (List.nodup_cons.mp hr.ring.nodup).2

theorem Represents.ahead : h.Ahead (h.links.next .memoryLimitList) h.live :=
  ⟨hr.ring.forward, fun _ hb => hb⟩

theorem Represents.search (pid : PidT) :
    h.search pid h.live.length (h.links.next .memoryLimitList) =
      .ok (h.live.find? fun b => decide ((h.node b).pid = pid)) :=
  search_ok hr.ahead le_rfl pid

/- The search comes back empty-handed exactly when the pid is not listed. -/
theorem Represents.search_isSome (pid : PidT) :
    (h.live.find? fun b => decide ((h.node b).pid = pid)).isSome ↔
      pid ∈ list.map MemoryLimitation.pid := by
  rw [← hr.entries]
  simp [List.find?_isSome]

omit hr in
theorem valid_mono {h' : NodeHeap} {p : Ptr} (hp : h.valid p = true)
    (hl : ∀ b ∈ h.live, b ∈ h'.live) : h'.valid p = true := by
  cases p with
  | memoryLimitList => rfl
  | block b =>
    simp only [NodeHeap.valid, decide_eq_true_eq] at hp ⊢
    exact hl b hp

omit hr in
theorem map_update_of_notMem {bs : List ℕ} {b : ℕ} (hb : b ∉ bs) (e : MemoryLimitation) :
    bs.map (Function.update h.node b e) = bs.map h.node :=
  List.map_congr_left fun x hx => Function.update_of_ne (fun hc => hb (by rwa [← hc])) _ _

theorem Represents.valid_first : h.valid (h.links.next .memoryLimitList) = true := by
  have ha := hr.ahead
  cases hl : h.live with
  | nil =>
    rw [hl] at ha
    rw [ha.nil]
    rfl
  | cons b bs =>
    rw [hl] at ha
    obtain ⟨hp, -, -⟩ := ha.cons
    rw [hp]
    simp [NodeHeap.valid, hl]

theorem linkNode_ok {b : ℕ} (hb : b ∉ h.live) (e : MemoryLimitation) :
    ∃ h', linkNode b e h = .ok h' ∧ Represents h' (e :: list) := by
  let h₁ : NodeHeap := ⟨b :: h.live, Function.update h.node b e, h.links⟩
  let h₂ : NodeHeap := {h₁ with links := h.links.init (.block b)}
  let h₃ : NodeHeap := {h₁ with links := (h.links.init (.block b)).add (.block b) .memoryLimitList}
  have hown : b ∈ b :: h.live := List.mem_cons_self ..
  have hassign : (h.kmalloc b).assign b e = .ok h₁ := NodeHeap.deref_ok hown _
  have hinit : h₁.initListHead b = .ok h₂ := NodeHeap.deref_ok hown _
  -- the node behind the head is the one it was before the allocation
  have hfirst : h₂.next .memoryLimitList = .ok (h.links.next .memoryLimitList) := by
    simp [NodeHeap.next, NodeHeap.deref, NodeHeap.valid, h₂, Links.init]
  have hadd : h₂.listAdd b = .ok h₃ := by
    have hv : h₂.valid (h.links.next .memoryLimitList) = true := valid_mono hr.valid_first
      fun x hx => List.mem_cons_of_mem b hx
    simp only [NodeHeap.listAdd, hfirst, bind, Except.bind, NodeHeap.deref, hv, if_true]
    exact NodeHeap.deref_ok hown _
  have hnew : Ptr.block b ∉ Ptr.memoryLimitList :: h.live.map Ptr.block := by simpa using hb
  refine ⟨h₃, ?_, (hr.ring.init_other hnew).add hnew, ?_⟩
  · simp only [linkNode, hassign, hinit, hadd, bind, Except.bind]
  · show Function.update h.node b e b :: h.live.map (Function.update h.node b e) = e :: list
    rw [Function.update_self, map_update_of_notMem hb, hr.entries]

theorem addNode_ok (k : Kmalloc) (kmalloc : Bool) (p : PidT) (l : SizeT) :
    ∃ h', addNode k kmalloc p l h = .ok (h', (addLocked kmalloc p l list).2) ∧
      Represents h' (addLocked kmalloc p l list).1 := by
  have hs := hr.search_isSome p
  simp only [addNode, NodeHeap.next_head, bind, Except.bind, hr.search p]
  rcases addLocked_cases kmalloc p l list with ⟨hp, ha⟩ | ⟨hp, rfl, ha⟩ | ⟨hp, rfl, ha⟩
  · rw [if_pos (hs.mpr hp), ha]
    exact ⟨h, rfl, hr⟩
  · rw [if_neg (fun hc => hp (hs.mp hc)), ha]
    exact ⟨h, rfl, hr⟩
  · rw [if_neg (fun hc => hp (hs.mp hc)), ha]
    obtain ⟨h', hl, hr'⟩ := linkNode_ok hr (k.fresh h.live) ⟨p, l⟩
    exact ⟨h', by simp [hl], hr'⟩

theorem updateNode_ok (p : PidT) (l : SizeT) :
    ∃ h', updateNode p l h = .ok (h', (updateLocked p l list).2) ∧
      Represents h' (updateLocked p l list).1 := by
  simp only [updateNode, NodeHeap.next_head, bind, Except.bind, hr.search p]
  cases hf : h.live.find? fun b => decide ((h.node b).pid = p) with
  | none =>
    have hp : p ∉ list.map MemoryLimitation.pid := fun hc => by
      have hs := (hr.search_isSome p).mpr hc
      rw [hf] at hs
      cases hs
    rw [updateLocked_absent hp]
    exact ⟨h, rfl, hr⟩
  | some b =>
    obtain ⟨hb, pre, post, hl, hpre⟩ := List.find?_eq_some_iff_append.mp hf
    have hbl : b ∈ h.live := by simp [hl]
    have hn := hr.nodup
    rw [hl] at hn
    -- the list around the entry that the block holds
    have hlist : list = pre.map h.node ++ h.node b :: post.map h.node := by
      rw [← hr.entries, hl, List.map_append, List.map_cons]
    have hkey : p ∉ (pre.map h.node).map MemoryLimitation.pid := by
      simp only [List.map_map, List.mem_map, Function.comp_apply, not_exists, not_and]
      exact fun x hx => by simpa using hpre x hx
    have hu : updateLocked p l list =
        (pre.map h.node ++ {h.node b with memoryLimit := l} :: post.map h.node, 0) := by
      rw [updateLocked, hlist, assignFirst_append MemoryLimitation.pid _ (by simpa using hb) hkey]
    refine ⟨{h with node := Function.update h.node b {h.node b with memoryLimit := l}}, ?_, hr.ring, ?_⟩
    · simp only [NodeHeap.entry, NodeHeap.assign, NodeHeap.deref_ok hbl, hu]
    · have hsplit := List.nodup_append.mp hn
      have hbpre : b ∉ pre := fun hc => hsplit.2.2 b hc b (List.mem_cons_self ..) rfl
      have hbpost : b ∉ post := (List.nodup_cons.mp hsplit.2.1).1
      rw [hu]
      simp only [hl, List.map_append, List.map_cons, Function.update_self, map_update_of_notMem hbpre,
        map_update_of_notMem hbpost]

omit hr in
theorem leaveGet_eq (env : GetEnv) (args : GetArgs) (buffer : Option ℕ) (b : KernelBuffer)
    (count : SizeT) :
    leaveGet env args buffer b count h =
      (h.kfree buffer).map fun h' => (h', copyOut env args b count) := by
  simp only [leaveGet, copyOut, bind, Except.bind, Except.map]
  split
  · rfl
  · split
    · rfl
    · rfl

omit hr in
theorem kfree_kmalloc (b : ℕ) : (h.kmalloc b).kfree (some b) = .ok h := by
  simp [NodeHeap.kfree, NodeHeap.kmalloc]

/- With no element to copy there is no array, and it is never touched. -/
theorem fillNodes_empty (hl : list = []) (env : GetEnv) (args : GetArgs) (count : SizeT) :
    fillNodes env args count h none =
      .ok (h, copyOut env args (copyEntries args.maxEntries list ⟨count, env.stale, []⟩ 0).1
        (copyEntries args.maxEntries list ⟨count, env.stale, []⟩ 0).2) := by
  have he := hr.entries
  rw [hl, List.map_eq_nil_iff] at he
  have ha := hr.ahead
  rw [he] at ha
  simp only [fillNodes, NodeHeap.next_head, ha.nil, he, bind, Except.bind, NodeHeap.copyNodes,
    leaveGet_eq, hl, copyEntries]
  rfl

theorem fillNodes_ok (hv : Valid list) (env : GetEnv) (args : GetArgs) (x : ℕ) :
    fillNodes env args (clipCount (countEntries list 0) args.maxEntries) (h.kmalloc x) (some x) =
      .ok (h, copyOut env args (filled env args list).1 (filled env args list).2) := by
  have hc : (clipCount (countEntries list 0) args.maxEntries).toNat =
      min list.length args.maxEntries.toNat := clipped_toNat ⟨list, hv⟩ args
  have hlen : h.live.length = list.length := by rw [← hr.entries, List.length_map]
  have ha : (h.kmalloc x).Ahead ((h.kmalloc x).links.next .memoryLimitList) h.live :=
    ⟨hr.ring.forward, fun b hb => List.mem_cons_of_mem x hb⟩
  have hcopy := copyNodes_ok args.maxEntries (List.mem_cons_self (a := x)) ha
    (show h.live.length ≤ (h.kmalloc x).live.length from Nat.le_succ _)
    ⟨clipCount (countEntries list 0) args.maxEntries, env.stale, []⟩ 0
    (by rw [zero_toNat, hlen, hc]; omega)
  rw [show h.live.map (h.kmalloc x).node = list from hr.entries, ← filled] at hcopy
  simp only [fillNodes, NodeHeap.next_head, bind, Except.bind, hcopy, leaveGet_eq, kfree_kmalloc]
  rfl

omit hr in
theorem empty_of_clip_zero (hv : Valid list) {env : GetEnv} {args : GetArgs}
    (hpass : refused (.get env args) = none)
    (hz : clipCount (countEntries list 0) args.maxEntries = 0) : list = [] := by
  have hc : (clipCount (countEntries list 0) args.maxEntries).toNat =
      min list.length args.maxEntries.toNat := clipped_toNat ⟨list, hv⟩ args
  have hm : ¬args.maxEntries ≤ 0 := by
    simp only [refused] at hpass
    split at hpass
    · cases hpass
    next hok => exact fun hc => hok (Or.inl hc)
  rw [BitVec.le_def, zero_toNat] at hm
  rw [hz, zero_toNat] at hc
  exact List.length_eq_zero_iff.mp (by omega)

theorem getNodes_ok (hv : Valid list) (k : Kmalloc) (env : GetEnv) (args : GetArgs)
    (hpass : refused (.get env args) = none) :
    ∃ o, getNodes k env args h = .ok (h, o) ∧
      execCall list (.get env args) = (list, .get o) := by
  have hcount := countNodes_ok hr.ahead le_rfl 0
  rw [hr.entries] at hcount
  rw [execCall_get hpass]
  simp only [getNodes, NodeHeap.next_head, bind, Except.bind, hcount]
  by_cases ha : env.allocates args list = true
  · refine ⟨_, ?_, by rw [if_pos ha]⟩
    rw [GetEnv.allocates] at ha
    rw [if_pos ha]
    by_cases hz : clipCount (countEntries list 0) args.maxEntries = 0
    · have hl := empty_of_clip_zero hv hpass hz
      simp only [NodeHeap.kmallocArray, hz, if_true, fillNodes_empty hr hl, filled]
    · simp only [NodeHeap.kmallocArray, if_neg hz, fillNodes_ok hr hv]
  · refine ⟨_, ?_, by rw [if_neg ha]⟩
    rw [GetEnv.allocates] at ha
    rw [if_neg ha]

theorem execNode_ok (hv : Valid list) (c : NodeCall) :
    ∃ h', execNode h c = .ok (h', (execCall list c.call).2) ∧
      Represents h' (execCall list c.call).1 := by
  obtain ⟨call, k⟩ := c
  cases hpass : refused call with
  | some r =>
    simp only [execNode, hpass, execCall_refused hpass]
    exact ⟨h, rfl, hr⟩
  | none =>
    simp only [execNode, hpass]
    cases call with
    | limit l =>
      cases hop : l.op with
      | add =>
        obtain ⟨h', hn, hr'⟩ := addNode_ok hr k l.env.kmalloc l.pid l.limit
        simp only [hop, hn, execCall_add hpass hop]
        exact ⟨h', rfl, hr'⟩
      | update =>
        obtain ⟨h', hn, hr'⟩ := updateNode_ok hr l.pid l.limit
        simp only [hop, hn, execCall_update hpass hop]
        exact ⟨h', rfl, hr'⟩
    | get env args =>
      obtain ⟨o, hn, he⟩ := getNodes_ok hr hv k env args hpass
      simp only [hn, he]
      exact ⟨h, rfl, hr⟩

end Calls

/-! ### Whole runs -/

theorem run_nodes (cs : List NodeCall) :
    ∃ h, tryRun execNode .initial cs = .ok (h, (run execCall [] (cs.map NodeCall.call)).2) ∧
      Represents h (run execCall [] (cs.map NodeCall.call)).1 := by
  obtain ⟨h, hrun, hr, -⟩ := tryRun_refines execNode execCall NodeCall.call
    (fun h list => Represents h list ∧ Valid list) (fun h list c hrel => by
      obtain ⟨h', hc, hr'⟩ := execNode_ok hrel.1 hrel.2 c
      exact ⟨h', hc, hr', execCall_valid list c.call hrel.2⟩)
    .initial [] cs ⟨initial_represents, empty_valid⟩
  exact ⟨h, hrun, hr⟩

/- No run dereferences a block that is not allocated, leaves an array, frees
twice or loops; the answers and the entries met are those of the list. -/
theorem so2_nodes_refine_list (cs : List NodeCall) :
    ∃ h, tryRun execNode .initial cs = .ok (h, (run execCall [] (cs.map NodeCall.call)).2) ∧
      ∃ bs : List ℕ, Path h.links.next .memoryLimitList (h.links.next .memoryLimitList) (bs.map .block) ∧
        bs.map h.node = (run execCall [] (cs.map NodeCall.call)).1 := by
  obtain ⟨h, hrun, hr⟩ := run_nodes cs
  exact ⟨h, hrun, h.live, hr.ring.forward, hr.entries⟩

/- An allocator that goes up through the addresses. -/
def Kmalloc.upwards : Kmalloc where
  block live := live.sum + 1
  fresh _ h := Nat.not_succ_le_self _ (List.le_sum_of_mem h)

example : (tryRun execNode .initial (testCalls.map fun c => ⟨.limit c, .upwards⟩)).map
    (fun r => (r.1.live.map r.1.node, r.1.links.next .memoryLimitList)) =
      .ok ([⟨5678, 1000⟩, ⟨1234, 500⟩], .block 2) := by decide

/-! ### What stays allocated -/

/- After every run the blocks still allocated are the nodes of the list, met
once in each direction, one for every add that answered 0. -/
theorem so2_nodes_no_leak (cs : List NodeCall) :
    ∃ h replies, tryRun execNode .initial cs = .ok (h, replies) ∧ h.live.Nodup ∧
      Path h.links.next .memoryLimitList (h.links.next .memoryLimitList) (h.live.map .block) ∧
      Path h.links.prev .memoryLimitList (h.links.prev .memoryLimitList)
        (h.live.map .block).reverse ∧
      h.live.length =
        (((cs.map NodeCall.call).zip replies).filter fun x => added x.1 x.2).length := by
  obtain ⟨h, hrun, hr⟩ := run_nodes cs
  refine ⟨h, _, hrun, hr.nodup, hr.ring.forward, hr.ring.backward, ?_⟩
  rw [← length_run, ← hr.entries, List.length_map]

end UsacLinux.MemoryLimit
