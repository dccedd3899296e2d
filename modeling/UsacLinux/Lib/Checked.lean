import Mathlib.Data.BitVec

/-!
# Unsigned arithmetic with its faults made visible

Products of machine words wrap silently, conversions to a narrower signed type
drop bits, and a division by zero traps. The operations here stop at the first
such event, so that a computation written with them returns a value exactly
when none happens.
-/

namespace Lib.Checked

inductive Fault where
  | wraps
  | dividesByZero
  | narrows
  deriving DecidableEq, Repr

variable {w : ℕ}

/-- Unsigned product. -/
def mul (x y : BitVec w) : Except Fault (BitVec w) :=
  if x.toNat * y.toNat < 2 ^ w then .ok (x * y) else .error .wraps

/-- Unsigned quotient. -/
def div (x y : BitVec w) : Except Fault (BitVec w) :=
  if y = 0 then .error .dividesByZero else .ok (x / y)

/-- Conversion of an unsigned word to a signed `n`-bit one. -/
def narrow (n : ℕ) (x : BitVec w) : Except Fault (BitVec n) :=
  if x.toNat < 2 ^ (n - 1) then .ok (x.setWidth n) else .error .narrows

theorem mul_toNat {x y : BitVec w} (h : x.toNat * y.toNat < 2 ^ w) :
    (x * y).toNat = x.toNat * y.toNat := by
  rw [BitVec.toNat_mul, Nat.mod_eq_of_lt h]

theorem mul_ok {x y : BitVec w} (h : x.toNat * y.toNat < 2 ^ w) : mul x y = .ok (x * y) := if_pos h

theorem div_ok {x y : BitVec w} (h : y ≠ 0) : div x y = .ok (x / y) := if_neg h

theorem narrow_toInt {n : ℕ} {x : BitVec w} (hn : 0 < n) (h : x.toNat < 2 ^ (n - 1)) :
    (x.setWidth n).toInt = x.toNat := by
  have hp : 2 ^ n = 2 * 2 ^ (n - 1) := by rw [← Nat.pow_succ', Nat.succ_eq_add_one, Nat.sub_add_cancel hn]
  have ht : (x.setWidth n).toNat = x.toNat := by
    rw [BitVec.toNat_setWidth, Nat.mod_eq_of_lt (by omega)]
  rw [BitVec.toInt_eq_toNat_cond, ht, if_pos (by omega)]

/-! ### What a computation without faults has computed -/

theorem eq_of_mul_ok {x y z : BitVec w} (h : mul x y = .ok z) : z = x * y := by
  unfold mul at h
  split at h
  · exact (Except.ok.inj h).symm
  · cases h

theorem eq_of_div_ok {x y z : BitVec w} (h : div x y = .ok z) : z = x / y := by
  unfold div at h
  split at h
  · cases h
  · exact (Except.ok.inj h).symm

theorem eq_of_narrow_ok {n : ℕ} {x : BitVec w} {z : BitVec n} (h : narrow n x = .ok z) :
    z = x.setWidth n := by
  unfold narrow at h
  split at h
  · exact (Except.ok.inj h).symm
  · cases h

theorem bind_eq_ok {α β : Type} {x : Except Fault α} {f : α → Except Fault β} {b : β}
    (h : (x >>= f) = .ok b) : ∃ a, x = .ok a ∧ f a = .ok b := by
  cases x with
  | error e => cases h
  | ok a => exact ⟨a, rfl, h⟩

end Lib.Checked
