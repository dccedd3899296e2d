import UsacLinux.Lib.ByteMemory
import Mathlib.Data.BitVec

/-!
# Kernel vocabulary shared by the USAC system calls

Machine types, error numbers, the part of `task_struct` and `mm_struct` the
calls read, and the documented behaviour of `copy_to_user` and `put_user`.
-/

namespace UsacLinux.Kernel
open Lib.ByteMemory

/-- `pid_t` and `int`. -/
abbrev PidT := BitVec 32

/-- `size_t` and `unsigned long` on x86-64. -/
abbrev SizeT := BitVec 64

theorem zero_toNat : (0 : SizeT).toNat = 0 := rfl

def EPERM : ℤ := 1
def ESRCH : ℤ := 3
def ENOMEM : ℤ := 12
def EFAULT : ℤ := 14
def EINVAL : ℤ := 22

def pageSize : SizeT := 4096

/-- Page counts of an address space: `total_vm` and the value of `get_mm_rss`. -/
structure MmStruct where
  totalVm : SizeT
  rss : SizeT
  deriving DecidableEq, Repr

/-- A task; kernel threads and exiting tasks have no `mm`. -/
structure TaskStruct where
  mm : Option MmStruct
  deriving DecidableEq, Repr

def getMmRss (mm : MmStruct) : SizeT := mm.rss

/-- `pages * PAGE_SIZE / 1024`, in the unsigned 64-bit arithmetic of the source. -/
def pagesToKb (pages : SizeT) : SizeT := pages * pageSize / 1024

theorem pagesToKb_toNat (pages : SizeT) (h : pages.toNat < 2 ^ 52) :
    (pagesToKb pages).toNat = 4 * pages.toNat := by
  have hmul : (pages * pageSize).toNat = pages.toNat * 4096 := by
    rw [BitVec.toNat_mul]
    exact Nat.mod_eq_of_lt (by show pages.toNat * 4096 < 2 ^ 64; omega)
  have hkb : (1024 : SizeT).toNat = 1024 := rfl
  rw [pagesToKb, BitVec.toNat_udiv, hmul, hkb]
  omega

/-! ### The allocator -/

/- `kmalloc_array(n, size, GFP_KERNEL)`: which requests return a block. A
request for no bytes gives `ZERO_SIZE_PTR`, one above `KMALLOC_MAX_SIZE` NULL. -/
structure KmallocArray where
  maxSize : ℕ
  maxSize_lt : maxSize < 2 ^ 31
  returns : SizeT → SizeT → Bool
  zero : ∀ size, returns 0 size = true
  large : ∀ n size, maxSize < n.toNat * size.toNat → returns n size = false

/- An allocator that never runs short: 4 MiB is the x86-64 `KMALLOC_MAX_SIZE`. -/
def KmallocArray.plenty : KmallocArray where
  maxSize := 2 ^ 22
  maxSize_lt := by decide
  returns n size := decide (n.toNat * size.toNat ≤ 2 ^ 22)
  zero size := by simp
  large n size h := by simpa using h

/-! ### User space access -/

/-- `copy_to_user`: the user pages take the first `accepted` bytes, and the
result is the number of bytes left uncopied. -/
def copyToUser (accepted dst : ℕ) (src : List Byte) : List (ℕ × Byte) × SizeT :=
  (place dst (src.take accepted), BitVec.ofNat 64 (src.length - accepted))

/-- Value of a kernel `unsigned long` assigned to an `int`. -/
def toInt32 (v : SizeT) : PidT := v.setWidth 32

theorem copyToUser_full (accepted dst : ℕ) (src : List Byte) (h : src.length ≤ accepted) :
    copyToUser accepted dst src = (place dst src, 0) := by
  simp only [copyToUser, List.take_of_length_le h, Nat.sub_eq_zero_of_le h]
  rfl

theorem copyToUser_uncopied (accepted dst : ℕ) (src : List Byte) (h : src.length < 2 ^ 64) :
    (copyToUser accepted dst src).2.toNat = src.length - accepted := by
  simp only [copyToUser, BitVec.toNat_ofNat]
  exact Nat.mod_eq_of_lt (by omega)

/- Below 2^32 bytes the narrowing of the result to `int` cannot turn a failure into 0. -/
theorem toInt32_uncopied_eq_zero (accepted dst : ℕ) (src : List Byte) (h : src.length < 2 ^ 32) :
    toInt32 (copyToUser accepted dst src).2 = 0 ↔ src.length ≤ accepted := by
  have hu := copyToUser_uncopied accepted dst src (by omega)
  have hw : (toInt32 (copyToUser accepted dst src).2).toNat = src.length - accepted := by
    rw [toInt32, BitVec.toNat_setWidth, hu]
    exact Nat.mod_eq_of_lt (by omega)
  rw [← BitVec.toNat_inj, hw]
  show src.length - accepted = 0 ↔ src.length ≤ accepted
  omega

/- Result of a call and the bytes it writes to user space. -/
structure Report where
  ret : ℤ
  writes : List (ℕ × Byte)
  deriving DecidableEq

/-- `put_user` through an `int` pointer: four bytes, least significant first. -/
def putUserInt (dst : ℕ) (v : SizeT) : List (ℕ × Byte) := place dst (wordBytes 4 (toInt32 v))

end UsacLinux.Kernel
