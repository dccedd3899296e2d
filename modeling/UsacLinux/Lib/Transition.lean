import Mathlib.Data.List.GetD
import Mathlib.Order.Basic

/-!
# Finite executions of a labelled transition system

An execution records the state at every instant, so that statements about one
instant inside a longer run can be written down. Invariants are proved from
one step, and reflexive transitive relations between successive states extend
to any two instants.
-/

namespace Lib.Transition

variable {σ ℓ : Type*}

/-- A run of `length` steps: `state i` is the state before step `i`. -/
structure Execution (Init : σ → Prop) (Step : σ → ℓ → σ → Prop) where
  length : ℕ
  state : ℕ → σ
  label : ℕ → ℓ
  init : Init (state 0)
  step : ∀ i < length, Step (state i) (label i) (state (i + 1))

variable {Init : σ → Prop} {Step : σ → ℓ → σ → Prop}

/- `ok` restricts the steps the execution may contain; it is `True` for most uses. -/
theorem Execution.invariant (e : Execution Init Step) (Inv : σ → Prop) (ok : σ → ℓ → Prop)
    (hok : ∀ i < e.length, ok (e.state i) (e.label i)) (hinit : ∀ s, Init s → Inv s)
    (hstep : ∀ s l s', ok s l → Inv s → Step s l s' → Inv s') :
    ∀ i ≤ e.length, Inv (e.state i) := by
  intro i
  induction i with
  | zero => exact fun _ => hinit _ e.init
  | succ i ih =>
    intro hi
    exact hstep _ _ _ (hok i hi) (ih (by omega)) (e.step i hi)

theorem Execution.chain (e : Execution Init Step) (R : σ → σ → Prop) (hrefl : ∀ s, R s s)
    (htrans : ∀ a b c, R a b → R b c → R a c) (i j : ℕ) (hij : i ≤ j) (hj : j ≤ e.length)
    (hstep : ∀ k, i ≤ k → k < j → R (e.state k) (e.state (k + 1))) :
    R (e.state i) (e.state j) := by
  induction j with
  | zero =>
    obtain rfl : i = 0 := by omega
    exact hrefl _
  | succ j ih =>
    rcases Nat.lt_or_ge j i with h | h
    · obtain rfl : i = j + 1 := by omega
      exact hrefl _
    · have hr := ih h (by omega) (fun k h1 h2 => hstep k h1 (by omega))
      exact htrans _ _ _ hr (hstep j h (by omega))

/-! ### Guarded actions -/

section Guarded

variable (enabled : σ → ℓ → Prop) (next : σ → ℓ → σ)

/-- Steps of a system whose actions have a guard and one successor. -/
def Guarded (s : σ) (l : ℓ) (s' : σ) : Prop := enabled s l ∧ s' = next s l

/-- The execution that performs a list of enabled actions. -/
def Execution.ofLabels (s : σ) (hs : Init s) (l₀ : ℓ) (ls : List ℓ)
    (h : ∀ i < ls.length, enabled ((ls.take i).foldl next s) (ls.getD i l₀)) :
    Execution Init (Guarded enabled next) where
  length := ls.length
  state i := (ls.take i).foldl next s
  label i := ls.getD i l₀
  init := hs
  step i hi := by
    refine ⟨h i hi, ?_⟩
    rw [List.take_add_one, List.foldl_append, List.getD_eq_getElem?_getD,
      List.getElem?_eq_getElem hi]
    rfl

end Guarded

end Lib.Transition
