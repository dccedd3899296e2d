import UsacLinux.Lib.ByteMemory
import Mathlib.Algebra.BigOperators.Group.List.Basic
import Mathlib.Algebra.Order.BigOperators.Group.List
import Mathlib.Order.Bounds.Basic

/-!
# Rounding to multiples

Sums of quotients against the quotient of a sum, scaled fractions, the least
multiple above a number, and the bit mask that clears the low bits of a word.
-/

namespace Lib.Rounding
open Lib.ByteMemory

/-! ### Rounding every term of a sum -/

section Sums

variable {α : Type*} (f : α → ℕ) (m : ℕ) (l : List α)

theorem sum_div_add_sum_mod :
    m * (l.map fun a => f a / m).sum + (l.map fun a => f a % m).sum = (l.map f).sum := by
  induction l with
  | nil => simp
  | cons a l ih =>
    have ha := Nat.div_add_mod (f a) m
    simp only [List.map_cons, List.sum_cons, Nat.mul_add]
    omega

theorem sum_map_le (h : ∀ a ∈ l, f a ≤ m) : (l.map f).sum ≤ l.length * m := by
  have hs := List.sum_le_card_nsmul (l.map f) m (by
    intro x hx
    obtain ⟨a, ha, rfl⟩ := List.mem_map.mp hx
    exact h a ha)
  rwa [List.length_map] at hs

theorem sum_div_le : m * (l.map fun a => f a / m).sum ≤ (l.map f).sum := by
  have h := sum_div_add_sum_mod f m l
  omega

/-- Rounding each term down loses nothing exactly when what is cut off does not
make up a whole multiple. -/
theorem sum_div_eq_iff (hm : 0 < m) :
    (l.map fun a => f a / m).sum = (l.map f).sum / m ↔ (l.map fun a => f a % m).sum < m := by
  have h := sum_div_add_sum_mod f m l
  have hd : (l.map f).sum / m =
      (l.map fun a => f a / m).sum + (l.map fun a => f a % m).sum / m := by
    rw [← h, Nat.add_comm, Nat.add_mul_div_left _ _ hm, Nat.add_comm]
  rw [hd, ← Nat.div_eq_zero_iff_lt hm]
  omega

end Sums

/-! ### Scaled fractions -/

theorem mul_div_le_of_le (k : ℕ) {u t : ℕ} (h : u ≤ t) : k * u / t ≤ k := by
  apply Nat.div_le_of_le_mul
  rw [Nat.mul_comm]
  exact Nat.mul_le_mul_right k h

/-! ### The least multiple above a number -/

theorem roundUp_isLeast (n a : ℕ) (ha : 0 < a) : IsLeast {m | a ∣ m ∧ n ≤ m} (roundUp n a) := by
  have hq := Nat.div_add_mod (n + a - 1) a
  have hr := Nat.mod_lt (n + a - 1) ha
  rw [Nat.mul_comm] at hq
  refine ⟨⟨Nat.dvd_mul_left a _, ?_⟩, ?_⟩
  · show n ≤ (n + a - 1) / a * a
    omega
  · rintro m ⟨⟨c, rfl⟩, hn⟩
    have hlt : n + a - 1 < (c + 1) * a := by
      rw [Nat.add_mul, Nat.mul_comm c a]
      omega
    have hc : (n + a - 1) / a ≤ c := Nat.lt_succ_iff.mp (Nat.div_lt_of_lt_mul (by rwa [Nat.mul_comm]))
    calc roundUp n a = (n + a - 1) / a * a := rfl
      _ ≤ c * a := Nat.mul_le_mul_right a hc
      _ = a * c := Nat.mul_comm c a

/-! ### Clearing the low bits of a word -/

theorem and_not_mask {w : ℕ} (k : ℕ) (x : BitVec w) :
    x &&& ~~~(BitVec.ofNat w (2 ^ k - 1)) = (x >>> k) <<< k := by
  apply BitVec.eq_of_getLsbD_eq
  intro i hi
  simp only [BitVec.getLsbD_and, BitVec.getLsbD_not, BitVec.getLsbD_ofNat,
    Nat.testBit_two_pow_sub_one, BitVec.getLsbD_shiftLeft, BitVec.getLsbD_ushiftRight, hi,
    decide_true, Bool.true_and]
  by_cases hk : i < k
  · simp [hk]
  · simp [hk, show k + (i - k) = i by omega]

theorem and_not_mask_toNat {w : ℕ} (k : ℕ) (x : BitVec w) :
    (x &&& ~~~(BitVec.ofNat w (2 ^ k - 1))).toNat = x.toNat / 2 ^ k * 2 ^ k := by
  have hle : x.toNat / 2 ^ k * 2 ^ k ≤ x.toNat := Nat.div_mul_le_self _ _
  rw [and_not_mask, BitVec.toNat_shiftLeft, BitVec.toNat_ushiftRight, Nat.shiftRight_eq_div_pow,
    Nat.shiftLeft_eq, Nat.mod_eq_of_lt (Nat.lt_of_le_of_lt hle x.isLt)]

end Lib.Rounding
