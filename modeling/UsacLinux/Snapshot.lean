import UsacLinux.MemoryReport
import Mathlib.Data.Set.Subsingleton

/-!
# luis_capture_memory_snapshot (kernel/usac/syscall1.c)

The call reads six counters of the running kernel one after the other and
copies the figures it computes from them to the caller. Nothing holds the
counters still in between. `NR_FREE_PAGES`, `ZSWPIN` and `ZSWPOUT` belong to
other enumerations than the table `global_node_page_state` looks them up in;
a counter here is the word such a lookup reads, whatever it counts.
-/

namespace UsacLinux.Snapshot
open Kernel MemoryReport Lib.ByteMemory

structure MemorySnapshot where
  totalMemory : SizeT
  freeMemory : SizeT
  usedMemory : SizeT
  activePages : SizeT
  cachePages : SizeT
  swapPages : SizeT
  deriving DecidableEq, Repr

inductive Counter where
  | totalramPages
  | nrFreePages
  | nrInactiveFile
  | nrFilePages
  | zswpin
  | zswpout
  deriving DecidableEq, Repr

/- Lines 17-32, from the values the six reads give. -/
def kernelSnapshot (read : Counter → SizeT) : MemorySnapshot :=
  let totalMemory := read .totalramPages <<< 12
  let freeMemory := read .nrFreePages <<< 12
  let usedMemory := totalMemory - freeMemory
  ⟨totalMemory, freeMemory, usedMemory, read .nrInactiveFile, read .nrFilePages,
    read .zswpin + read .zswpout⟩

/- The instants of the six reads. The statements run in order; C leaves open
which operand of the last sum is read first. -/
structure Schedule where
  instant : Counter → ℕ
  total_free : instant .totalramPages < instant .nrFreePages
  free_inactive : instant .nrFreePages < instant .nrInactiveFile
  inactive_file : instant .nrInactiveFile < instant .nrFilePages
  file_in : instant .nrFilePages < instant .zswpin
  file_out : instant .nrFilePages < instant .zswpout
  in_out : instant .zswpin ≠ instant .zswpout

/- Values of the counters at every instant. -/
abbrev Evolution := ℕ → Counter → SizeT

def captured (s : Schedule) (evolution : Evolution) : MemorySnapshot :=
  kernelSnapshot fun c => evolution (s.instant c) c

def snapshotWords (k : MemorySnapshot) : List SizedWord :=
  [⟨8, k.totalMemory⟩, ⟨8, k.freeMemory⟩, ⟨8, k.usedMemory⟩, ⟨8, k.activePages⟩, ⟨8, k.cachePages⟩,
    ⟨8, k.swapPages⟩]

def snapshotBytes (k : MemorySnapshot) : List Byte := wordsBytes (snapshotWords k)

def luisCaptureMemorySnapshot (s : Schedule) (evolution : Evolution) (accepted snapshot : ℕ) : Report :=
  deliver accepted snapshot (snapshotBytes (captured s evolution))

/-! ### What the caller reads -/

/- Members of `struct memory_snapshot` (syscall1.h). -/
def snapshotLayout : List Member := List.replicate 6 ⟨8, 8⟩

def readSnapshot (mem : Memory) (dst : ℕ) : MemorySnapshot where
  totalMemory := load 64 mem (dst + offsetOf snapshotLayout 0)
  freeMemory := load 64 mem (dst + offsetOf snapshotLayout 1)
  usedMemory := load 64 mem (dst + offsetOf snapshotLayout 2)
  activePages := load 64 mem (dst + offsetOf snapshotLayout 3)
  cachePages := load 64 mem (dst + offsetOf snapshotLayout 4)
  swapPages := load 64 mem (dst + offsetOf snapshotLayout 5)

theorem readSnapshot_place (k : MemorySnapshot) (mem : Memory) (dst : ℕ) :
    readSnapshot (commit mem (place dst (snapshotBytes k))) dst = k := by
  have h := load_words mem dst (snapshotWords k)
  exact congr (congr (congr (congr (congr (congrArg MemorySnapshot.mk (h 0 ⟨8, _⟩ rfl))
    (h 1 ⟨8, _⟩ rfl)) (h 2 ⟨8, _⟩ rfl)) (h 3 ⟨8, _⟩ rfl)) (h 4 ⟨8, _⟩ rfl)) (h 5 ⟨8, _⟩ rfl)

@[simp] theorem snapshotBytes_length (k : MemorySnapshot) : (snapshotBytes k).length = 48 := by
  simp [snapshotBytes, snapshotWords, wordsBytes]

theorem snapshot_delivered {s : Schedule} {evolution : Evolution} {accepted dst : ℕ}
    (h : (luisCaptureMemorySnapshot s evolution accepted dst).ret = 0) (mem : Memory) :
    readSnapshot (commit mem (luisCaptureMemorySnapshot s evolution accepted dst).writes) dst =
      captured s evolution := by
  rw [luisCaptureMemorySnapshot, deliver_zero (by simp) h]
  exact readSnapshot_place _ mem dst

/-! ### Counters that move during the call -/

/- Instants from the first read to the last. -/
def During (s : Schedule) (i : ℕ) : Prop :=
  s.instant .totalramPages ≤ i ∧ (i ≤ s.instant .zswpin ∨ i ≤ s.instant .zswpout)

theorem during_instant (s : Schedule) (c : Counter) : During s (s.instant c) := by
  obtain ⟨instant, h1, h2, h3, h4, h5, -⟩ := s
  unfold During
  cases c <;> dsimp only <;> omega

theorem instant_ne (s : Schedule) {c d : Counter} (h : c ≠ d) : s.instant c ≠ s.instant d := by
  obtain ⟨instant, h1, h2, h3, h4, h5, h6⟩ := s
  dsimp only
  cases c <;> cases d <;> first | exact absurd rfl h | omega

/- Only the counters in `moving` change while the call reads. -/
def MovesOnly (s : Schedule) (moving : Set Counter) (evolution : Evolution) : Prop :=
  ∀ c ∉ moving, ∀ i j, During s i → During s j → evolution i c = evolution j c

/- One moving counter: everything else has, at any instant, the value it was
read with. -/
theorem captured_of_subsingleton {s : Schedule} {moving : Set Counter} {evolution : Evolution}
    (hm : moving.Subsingleton) (h : MovesOnly s moving evolution) :
    ∃ i, During s i ∧ captured s evolution = kernelSnapshot (evolution i) := by
  have hstill : ∀ i, During s i → (∀ c ∈ moving, s.instant c = i) →
      captured s evolution = kernelSnapshot (evolution i) := by
    intro i hi hc
    refine congrArg kernelSnapshot (funext fun c => ?_)
    by_cases hmem : c ∈ moving
    · rw [hc c hmem]
    · exact h c hmem _ i (during_instant s c) hi
  rcases hm.eq_empty_or_singleton with rfl | ⟨c, rfl⟩
  · exact ⟨_, during_instant s .zswpin, hstill _ (during_instant s .zswpin) fun c hc => hc.elim⟩
  · refine ⟨_, during_instant s c, hstill _ (during_instant s c) fun d hd => ?_⟩
    rw [Set.mem_singleton_iff.mp hd]

/- Values of two counters, all others at 0. -/
def pair (c d : Counter) (a b : SizeT) (x : Counter) : SizeT :=
  if x = c then a else if x = d then b else 0

/- The old value of one counter with the new one of another belongs to none of
the states on the way from 0, 0 to 1, 2. -/
theorem pair_torn (c d : Counter) : c ≠ d →
    kernelSnapshot (pair c d 0 2) ≠ kernelSnapshot (pair c d 0 0) ∧
    kernelSnapshot (pair c d 0 2) ≠ kernelSnapshot (pair c d 1 0) ∧
    kernelSnapshot (pair c d 0 2) ≠ kernelSnapshot (pair c d 1 2) := by
  cases c <;> cases d <;> decide

/- `c` moves right after it is read, `d` right before. -/
def tearing (s : Schedule) (c d : Counter) : Evolution := fun i =>
  pair c d (if i ≤ s.instant c then 0 else 1) (if i < s.instant d then 0 else 2)

theorem tearing_movesOnly (s : Schedule) {c d : Counter} {moving : Set Counter} (hc : c ∈ moving)
    (hd : d ∈ moving) : MovesOnly s moving (tearing s c d) := by
  intro x hx i j _ _
  have hxc : x ≠ c := fun h => hx (h ▸ hc)
  have hxd : x ≠ d := fun h => hx (h ▸ hd)
  simp only [tearing, pair, if_neg hxc, if_neg hxd]

theorem captured_tearing (s : Schedule) {c d : Counter} (h : c ≠ d) :
    captured s (tearing s c d) = kernelSnapshot (pair c d 0 2) := by
  refine congrArg kernelSnapshot (funext fun x => ?_)
  by_cases hc : x = c
  · subst hc
    simp [tearing, pair]
  · by_cases hd : x = d
    · subst hd
      simp [tearing, pair, hc]
    · simp [tearing, pair, hc, hd]

theorem tearing_torn (s : Schedule) {c d : Counter} (h : s.instant c < s.instant d) (i : ℕ) :
    captured s (tearing s c d) ≠ kernelSnapshot (tearing s c d i) := by
  have hne : c ≠ d := by
    rintro rfl
    exact absurd h (Nat.lt_irrefl _)
  obtain ⟨h00, h10, h12⟩ := pair_torn c d hne
  rw [captured_tearing s hne]
  unfold tearing
  by_cases hi : i ≤ s.instant c
  · rw [if_pos hi, if_pos (by omega)]
    exact h00
  · rw [if_neg hi]
    split
    · exact h10
    · exact h12

/- The structure the caller receives describes one instant of the call as long as
at most one counter moves, and for no two of them can that be relied on. Used and
free memory add up to the total in any case. -/
theorem snapshot_of_one_instant_iff (s : Schedule) (moving : Set Counter) :
    ((∀ evolution, MovesOnly s moving evolution → ∀ (accepted dst : ℕ) (mem : Memory),
        (luisCaptureMemorySnapshot s evolution accepted dst).ret = 0 →
        ∃ i, During s i ∧
          readSnapshot (commit mem (luisCaptureMemorySnapshot s evolution accepted dst).writes) dst =
            kernelSnapshot (evolution i)) ↔ moving.Subsingleton) ∧
    (∀ (evolution : Evolution) (accepted dst : ℕ) (mem : Memory),
      (luisCaptureMemorySnapshot s evolution accepted dst).ret = 0 →
      let k := readSnapshot (commit mem (luisCaptureMemorySnapshot s evolution accepted dst).writes) dst
      k.usedMemory + k.freeMemory = k.totalMemory ∧
      (k.usedMemory.toNat + k.freeMemory.toNat = k.totalMemory.toNat ↔
        k.freeMemory.toNat ≤ k.totalMemory.toNat)) := by
  refine ⟨⟨?_, ?_⟩, ?_⟩
  · intro h c hc d hd
    by_contra hne
    -- whichever of the two is read first
    wlog hlt : s.instant c < s.instant d generalizing c d with hsymm
    · have hgt := instant_ne s hne
      exact hsymm hd hc (Ne.symm hne) (by omega)
    have hret : (luisCaptureMemorySnapshot s (tearing s c d) 48 0).ret = 0 := by
      rw [luisCaptureMemorySnapshot, deliver_full (snapshotBytes_length _).le]
    obtain ⟨i, -, hi⟩ := h _ (tearing_movesOnly s hc hd) 48 0 (fun _ => 0) hret
    rw [snapshot_delivered hret] at hi
    exact tearing_torn s hlt i hi
  · intro hm evolution h accepted dst mem hret
    rw [snapshot_delivered hret mem]
    exact captured_of_subsingleton hm h
  · intro evolution accepted dst mem hret k
    have hk : k = captured s evolution := snapshot_delivered hret mem
    have hsum : k.usedMemory + k.freeMemory = k.totalMemory := by
      rw [hk]
      exact BitVec.sub_add_cancel _ _
    refine ⟨hsum, ?_⟩
    have hused := k.usedMemory.isLt
    have hfree := k.freeMemory.isLt
    have htotal := k.totalMemory.isLt
    have hnat := congrArg BitVec.toNat hsum
    rw [BitVec.toNat_add] at hnat
    omega

end UsacLinux.Snapshot
