import UsacLinux.Kernel
import UsacLinux.Lib.Rounding

/-!
# luis_tamalloc (kernel/usac/syscall4.c)

The call rounds the size up to whole pages and maps that many bytes of
anonymous memory. The test for 0 stands before the rounding, which wraps to 0
for the last 4095 sizes: those are left to `vm_mmap` to refuse. The word
`vm_mmap` returns is either an error number or an address.
-/

namespace UsacLinux.Tamalloc
open Kernel Lib.ByteMemory Lib.Rounding

/- The bytes from `start` on that one mapping covers. -/
structure Region where
  start : ℕ
  len : ℕ
  deriving DecidableEq, Repr

/- Regions mapped so far, newest first. -/
abbrev AddressSpace := List Region

def protRead : SizeT := 0x1
def protWrite : SizeT := 0x2
def mapPrivate : SizeT := 0x2
def mapAnonymous : SizeT := 0x20
def mapNoreserve : SizeT := 0x4000

/- Arguments of `vm_mmap` behind the file, which is NULL here. -/
structure MmapRequest where
  addr : SizeT
  len : SizeT
  prot : SizeT
  flag : SizeT
  offset : SizeT
  deriving DecidableEq, Repr

def maxErrno : ℤ := 4095

/- The word is an error number and no mapping has been made. -/
def Refused (space : AddressSpace) (r : SizeT × AddressSpace) : Prop :=
  -maxErrno ≤ r.1.toInt ∧ r.1.toInt ≤ -1 ∧ r.2 = space

/- The word is the address of a new mapping of exactly the requested length. -/
def Mapped (space : AddressSpace) (len : SizeT) (r : SizeT × AddressSpace) : Prop :=
  r.2 = ⟨r.1.toNat, len.toNat⟩ :: space ∧ 4096 ∣ r.1.toNat ∧ r.1.toNat < 2 ^ 63

/-- `vm_mmap` as its callers know it. -/
structure VmMmap where
  vmMmap : AddressSpace → MmapRequest → SizeT × AddressSpace
  empty : ∀ space q, q.len = 0 → Refused space (vmMmap space q)
  other : ∀ space q, q.len ≠ 0 →
    Refused space (vmMmap space q) ∨ Mapped space q.len (vmMmap space q)

/-- `PAGE_ALIGN`, in the unsigned 64-bit arithmetic of the source. -/
def pageAlign (size : SizeT) : SizeT := (size + (pageSize - 1)) &&& ~~~(pageSize - 1)

/-- `IS_ERR`: the word is one of the last 4095. -/
def isErr (p : SizeT) : Bool := decide (BitVec.ofInt 64 (-maxErrno) ≤ p)

def tamallocRequest (roundedSize : SizeT) : MmapRequest :=
  ⟨0, roundedSize, protRead ||| protWrite, mapAnonymous ||| mapPrivate ||| mapNoreserve, 0⟩

def luisTamalloc (kernel : VmMmap) (space : AddressSpace) (size : SizeT) : ℤ × AddressSpace :=
  if size = 0 then (-EINVAL, space)
  else
    let roundedSize := pageAlign size
    let userMemory := kernel.vmMmap space (tamallocRequest roundedSize)
    if isErr userMemory.1 then (userMemory.1.toInt, userMemory.2)
    else (userMemory.1.toInt, userMemory.2)

/-! ### Rounding -/

theorem pageAlign_toNat (size : SizeT) :
    (pageAlign size).toNat = (size.toNat + 4095) % 2 ^ 64 / 4096 * 4096 := by
  have hmask : pageSize - 1 = BitVec.ofNat 64 (2 ^ 12 - 1) := by decide
  have hm : (BitVec.ofNat 64 (2 ^ 12 - 1)).toNat = 4095 := by decide
  have hp : (2 : ℕ) ^ 12 = 4096 := by norm_num
  rw [pageAlign, hmask, and_not_mask_toNat, BitVec.toNat_add, hm, hp]

/- Up to 2^64 - 4096 the sum does not wrap. -/
theorem pageAlign_roundUp (size : SizeT) (h : size.toNat ≤ 2 ^ 64 - 4096) :
    (pageAlign size).toNat = roundUp size.toNat 4096 := by
  rw [pageAlign_toNat, Nat.mod_eq_of_lt (by omega), roundUp]
  rfl

theorem pageAlign_wraps (size : SizeT) (h : 2 ^ 64 - 4096 < size.toNat) : pageAlign size = 0 := by
  have hlt := size.isLt
  apply BitVec.eq_of_toNat_eq
  rw [pageAlign_toNat]
  show (size.toNat + 4095) % 2 ^ 64 / 4096 * 4096 = 0
  omega

theorem pageAlign_isLeast (size : SizeT) (h : size.toNat ≤ 2 ^ 64 - 4096) :
    IsLeast {n | 4096 ∣ n ∧ size.toNat ≤ n} (pageAlign size).toNat := by
  rw [pageAlign_roundUp size h]
  exact roundUp_isLeast size.toNat 4096 (by decide)

/-! ### The call -/

/- An error word and an address leave the call the same way, as a `long`. -/
theorem luisTamalloc_nonzero (kernel : VmMmap) (space : AddressSpace) (size : SizeT) (h : size ≠ 0) :
    luisTamalloc kernel space size =
      ((kernel.vmMmap space (tamallocRequest (pageAlign size))).1.toInt,
        (kernel.vmMmap space (tamallocRequest (pageAlign size))).2) := by
  rw [luisTamalloc, if_neg h]
  exact ite_self _

theorem toInt_of_mapped {space : AddressSpace} {len : SizeT} {r : SizeT × AddressSpace}
    (h : Mapped space len r) : r.1.toInt = r.1.toNat := by
  have hlt := h.2.2
  rw [BitVec.toInt_eq_toNat_cond, if_pos (by omega)]

/- What a call can do. -/
theorem luisTamalloc_cases (kernel : VmMmap) (space : AddressSpace) (size : SizeT) :
    ((-maxErrno ≤ (luisTamalloc kernel space size).1 ∧ (luisTamalloc kernel space size).1 ≤ -1) ∧
      (luisTamalloc kernel space size).2 = space) ∨
    (0 < size.toNat ∧ size.toNat ≤ 2 ^ 64 - 4096 ∧ ∃ a : ℕ,
      luisTamalloc kernel space size = ((a : ℤ), ⟨a, (pageAlign size).toNat⟩ :: space)) := by
  by_cases hz : size = 0
  · have he : -maxErrno ≤ -EINVAL ∧ -EINVAL ≤ -1 := by decide
    rw [luisTamalloc, if_pos hz]
    exact Or.inl ⟨he, rfl⟩
  · have hpos : 0 < size.toNat := BitVec.toNat_pos_of_ne_zero hz
    rw [luisTamalloc_nonzero kernel space size hz]
    by_cases hw : pageAlign size = 0
    · have hr := kernel.empty space (tamallocRequest (pageAlign size)) hw
      exact Or.inl ⟨⟨hr.1, hr.2.1⟩, hr.2.2⟩
    · have hle : size.toNat ≤ 2 ^ 64 - 4096 := by
        by_contra hc
        exact hw (pageAlign_wraps size (by omega))
      rcases kernel.other space (tamallocRequest (pageAlign size)) hw with hr | hm
      · exact Or.inl ⟨⟨hr.1, hr.2.1⟩, hr.2.2⟩
      · refine Or.inr ⟨hpos, hle, (kernel.vmMmap space (tamallocRequest (pageAlign size))).1.toNat, ?_⟩
        rw [toInt_of_mapped hm, hm.1]
        rfl

theorem luis_tamalloc_covers_size (kernel : VmMmap) (space : AddressSpace) (size : SizeT) :
    let r := luisTamalloc kernel space size
    (0 ≤ r.1 → 0 < size.toNat ∧ ∃ len, r.2 = ⟨r.1.toNat, len⟩ :: space ∧
      IsLeast {n | 4096 ∣ n ∧ size.toNat ≤ n} len) ∧
    (size = 0 ∨ 2 ^ 64 - 4096 < size.toNat →
      (-maxErrno ≤ r.1 ∧ r.1 ≤ -1) ∧ r.2 = space) := by
  intro r
  rcases luisTamalloc_cases kernel space size with hr | ⟨hpos, hle, a, hm⟩
  · refine ⟨?_, fun _ => hr⟩
    intro h0
    have hneg : r.1 ≤ -1 := hr.1.2
    omega
  · refine ⟨?_, ?_⟩
    · intro _
      refine ⟨hpos, (pageAlign size).toNat, ?_, pageAlign_isLeast size hle⟩
      change r = _ at hm
      rw [hm]
      rfl
    · rintro (rfl | hbig)
      · exact absurd hpos (by decide)
      · omega

theorem refused_enomem (space : AddressSpace) :
    Refused space (BitVec.ofInt 64 (-ENOMEM), space) := by
  have he : -maxErrno ≤ (BitVec.ofInt 64 (-ENOMEM)).toInt ∧ (BitVec.ofInt 64 (-ENOMEM)).toInt ≤ -1 := by
    decide
  exact ⟨he.1, he.2, rfl⟩

/- Gives every mapping a terabyte of its own below 2^47 and refuses what does
not fit. -/
def VmMmap.slots : VmMmap where
  vmMmap space q :=
    if 0 < q.len.toNat ∧ q.len.toNat ≤ 2 ^ 40 ∧ space.length < 64 then
      (BitVec.ofNat 64 (2 ^ 40 * (space.length + 1)),
        ⟨2 ^ 40 * (space.length + 1), q.len.toNat⟩ :: space)
    else (BitVec.ofInt 64 (-ENOMEM), space)
  empty space q h := by
    rw [if_neg (by rw [h, zero_toNat]; omega)]
    exact refused_enomem space
  other space q _ := by
    by_cases hq : 0 < q.len.toNat ∧ q.len.toNat ≤ 2 ^ 40 ∧ space.length < 64
    · have ha : (BitVec.ofNat 64 (2 ^ 40 * (space.length + 1))).toNat =
          2 ^ 40 * (space.length + 1) := by
        rw [BitVec.toNat_ofNat, Nat.mod_eq_of_lt (by omega)]
      rw [if_pos hq]
      refine Or.inr ⟨?_, ?_, ?_⟩
      · rw [ha]
      · rw [ha]
        exact Dvd.dvd.mul_right (by decide) _
      · rw [ha]
        omega
    · rw [if_neg hq]
      exact Or.inl (refused_enomem space)

/- 5000 bytes are two pages, and the last size of all is refused. -/
theorem luis_tamalloc_covers_two_pages :
    (luisTamalloc VmMmap.slots [] 5000 = (2 ^ 40, [⟨2 ^ 40, 8192⟩]) ∧
      IsLeast {n | 4096 ∣ n ∧ 5000 ≤ n} 8192) ∧
    (luisTamalloc VmMmap.slots [] (-1)).1 ≤ -1 ∧ (luisTamalloc VmMmap.slots [] (-1)).2 = [] := by
  have hr : luisTamalloc VmMmap.slots [] 5000 = (2 ^ 40, [⟨2 ^ 40, 8192⟩]) := by decide
  obtain ⟨-, len, hlen, hleast⟩ :=
    (luis_tamalloc_covers_size VmMmap.slots [] 5000).1 (by rw [hr]; decide)
  rw [hr] at hlen
  obtain rfl : len = 8192 := congrArg Region.len (List.cons.inj hlen).1.symm
  have hlast := (luis_tamalloc_covers_size VmMmap.slots [] (-1)).2 (Or.inr (by decide))
  exact ⟨⟨hr, hleast⟩, hlast.1.2, hlast.2⟩

end UsacLinux.Tamalloc
