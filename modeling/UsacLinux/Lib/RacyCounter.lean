import Mathlib.Logic.Function.Iterate
import Mathlib.Order.Monotone.Basic

/-!
# Counters incremented without synchronisation

An increment loads the cell and later stores the successor of what it loaded;
other increments may store in between and are then overwritten. The value never
reflects more increments than were stored, and reflects all of them exactly
when no store falls between the load and the store of another increment.
-/

namespace Lib.RacyCounter

variable {α : Type*} {succ : α → α}

/-- Step `i` leads from instant `i` to instant `i + 1`. When it stores, `store i`
is the instant at which its increment has loaded the cell. -/
structure Cell (succ : α → α) where
  value : ℕ → α
  store : ℕ → Option ℕ
  loaded : ∀ {i l}, store i = some l → l ≤ i
  keep : ∀ {i}, store i = none → value (i + 1) = value i
  put : ∀ {i l}, store i = some l → value (i + 1) = succ (value l)

namespace Cell

variable (c : Cell succ)

/-- Number of stores before an instant. -/
def stores : ℕ → ℕ
  | 0 => 0
  | i + 1 => stores i + if (c.store i).isSome then 1 else 0

/-- Number of increments the value at an instant is the result of. -/
def reflected : ℕ → ℕ
  | 0 => 0
  | i + 1 => match h : c.store i with
    | none => reflected i
    | some l => have := c.loaded h; reflected l + 1

theorem reflected_keep {i : ℕ} (h : c.store i = none) : c.reflected (i + 1) = c.reflected i := by
  rw [reflected]
  split
  · rfl
  next l hl => rw [h] at hl; cases hl

theorem reflected_put {i l : ℕ} (h : c.store i = some l) :
    c.reflected (i + 1) = c.reflected l + 1 := by
  rw [reflected]
  split
  next hn => rw [h] at hn; cases hn
  next l' hl => rw [h] at hl; rw [Option.some.inj hl]

theorem value_eq (i : ℕ) : c.value i = succ^[c.reflected i] (c.value 0) := by
  induction i using Nat.strong_induction_on with
  | _ i ih =>
    cases i with
    | zero => rw [reflected, Function.iterate_zero_apply]
    | succ i =>
      cases hs : c.store i with
      | none => rw [c.keep hs, c.reflected_keep hs, ih i (by omega)]
      | some l =>
        have hl := c.loaded hs
        rw [c.put hs, c.reflected_put hs, ih l (by omega), Function.iterate_succ_apply']

/-! ### Stores -/

theorem stores_mono {l i : ℕ} (h : l ≤ i) : c.stores l ≤ c.stores i := by
  refine monotone_nat_of_le_succ (fun k => ?_) h
  rw [stores]
  omega

theorem stores_eq_iff {l i : ℕ} (h : l ≤ i) :
    c.stores l = c.stores i ↔ ∀ k, l ≤ k → k < i → c.store k = none := by
  induction i, h using Nat.le_induction with
  | base => exact ⟨fun _ k hk hki => by omega, fun _ => rfl⟩
  | succ i hli ih =>
    have hm := c.stores_mono hli
    rw [stores]
    constructor
    · intro heq k hk hki
      cases hs : c.store i with
      | some j =>
        simp only [hs, Option.isSome_some, if_true] at heq
        omega
      | none =>
        simp only [hs, Option.isSome_none, Bool.false_eq_true, if_false, Nat.add_zero] at heq
        by_cases hki' : k = i
        · rw [hki', hs]
        · exact ih.mp heq k hk (by omega)
    · intro hno
      rw [hno i hli (by omega), ih.mpr fun k hk hki => hno k hk (by omega)]
      rfl

/-! ### Lost increments -/

theorem reflected_le_stores (i : ℕ) : c.reflected i ≤ c.stores i := by
  induction i using Nat.strong_induction_on with
  | _ i ih =>
    cases i with
    | zero => rw [reflected, stores]
    | succ i =>
      rw [stores]
      cases hs : c.store i with
      | none =>
        rw [c.reflected_keep hs]
        exact (ih i (by omega)).trans (Nat.le_add_right ..)
      | some l =>
        have hl := c.loaded hs
        have h1 := ih l (by omega)
        have h2 := c.stores_mono hl
        rw [c.reflected_put hs]
        simp only [Option.isSome_some, if_true]
        omega

theorem reflected_pos {i : ℕ} (h : 0 < c.stores i) : 0 < c.reflected i := by
  induction i with
  | zero => simp [stores] at h
  | succ i ih =>
    cases hs : c.store i with
    | none =>
      rw [c.reflected_keep hs]
      rw [stores, hs] at h
      exact ih (by simpa using h)
    | some l =>
      rw [c.reflected_put hs]
      omega

/-- No store before instant `i` falls between another increment's load and store. -/
def Serial (i : ℕ) : Prop :=
  ∀ j < i, ∀ l, c.store j = some l → ∀ k, l ≤ k → k < j → c.store k = none

theorem serial_keep {i : ℕ} (hs : c.store i = none) : c.Serial (i + 1) ↔ c.Serial i := by
  constructor
  · exact fun h j hj => h j (by omega)
  · intro h j hj l hl
    by_cases hji : j = i
    · rw [hji, hs] at hl
      cases hl
    · exact h j (by omega) l hl

theorem serial_put {i l : ℕ} (hs : c.store i = some l) :
    c.Serial (i + 1) ↔ c.Serial l ∧ ∀ k, l ≤ k → k < i → c.store k = none := by
  have hli := c.loaded hs
  constructor
  · intro h
    exact ⟨fun j hj => h j (by omega), h i (by omega) l hs⟩
  · rintro ⟨h1, h2⟩ j hj l' hl' k hk hkj
    by_cases hji : j = i
    · subst hji
      rw [hs] at hl'
      obtain rfl := Option.some.inj hl'
      exact h2 k hk hkj
    · by_cases hjl : j < l
      · exact h1 j hjl l' hl' k hk hkj
      · have hnone := h2 j (by omega) (by omega)
        rw [hl'] at hnone
        cases hnone

theorem reflected_eq_stores_iff (i : ℕ) : c.reflected i = c.stores i ↔ c.Serial i := by
  induction i using Nat.strong_induction_on with
  | _ i ih =>
    cases i with
    | zero => simp [reflected, stores, Serial]
    | succ i =>
      cases hs : c.store i with
      | none =>
        have hi := ih i (by omega)
        rw [c.reflected_keep hs, stores, hs, c.serial_keep hs, ← hi]
        rfl
      | some l =>
        -- nothing may have been stored since the load, and nothing lost before it
        have hl := c.loaded hs
        have hle := c.reflected_le_stores l
        have hm := c.stores_mono hl
        have hsplit : c.reflected (i + 1) = c.stores (i + 1) ↔
            c.reflected l = c.stores l ∧ c.stores l = c.stores i := by
          rw [c.reflected_put hs, stores, hs, Option.isSome_some, if_pos rfl]
          omega
        rw [hsplit, c.serial_put hs, ih l (by omega), c.stores_eq_iff hl]

end Cell

end Lib.RacyCounter
