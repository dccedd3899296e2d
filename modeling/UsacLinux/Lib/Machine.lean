import Mathlib.Data.List.Basic

/-!
# Runs of deterministic machines with outputs

A machine answers each input with an output and a new state. Whole runs are
compared with an abstract machine through an abstraction function, and with
the part of a run that concerns one key when every step reads and changes only
the part of the state its own key names.
-/

namespace Lib.Machine

variable {σ τ ι ο : Type*}

/-- Final state and outputs of a list of inputs. -/
def run (step : σ → ι → σ × ο) : σ → List ι → σ × List ο
  | s, [] => (s, [])
  | s, i :: is =>
    let r := run step (step s i).1 is
    (r.1, (step s i).2 :: r.2)

theorem run_cons (step : σ → ι → σ × ο) (s : σ) (i : ι) (is : List ι) :
    run step s (i :: is) =
      ((run step (step s i).1 is).1, (step s i).2 :: (run step (step s i).1 is).2) := rfl

theorem run_append (step : σ → ι → σ × ο) (s : σ) (is js : List ι) :
    run step s (is ++ js) =
      ((run step (run step s is).1 js).1, (run step s is).2 ++ (run step (run step s is).1 js).2) := by
  induction is generalizing s with
  | nil => rfl
  | cons i is ih => simp only [List.cons_append, run_cons, ih]

theorem run_concat (step : σ → ι → σ × ο) (s : σ) (is : List ι) (i : ι) :
    run step s (is ++ [i]) =
      ((step (run step s is).1 i).1, (run step s is).2 ++ [(step (run step s is).1 i).2]) := by
  rw [run_append]
  rfl

theorem run_length (step : σ → ι → σ × ο) (s : σ) (is : List ι) :
    (run step s is).2.length = is.length := by
  induction is generalizing s with
  | nil => rfl
  | cons i is ih => simp only [run_cons, List.length_cons, ih]

/-! ### Invariants and simulation -/

/-- `Q` holds of state and input at every step of a run. -/
def Along (step : σ → ι → σ × ο) (Q : σ → ι → Prop) : σ → List ι → Prop
  | _, [] => True
  | s, i :: is => Q s i ∧ Along step Q (step s i).1 is

theorem Along.and {step : σ → ι → σ × ο} {Q R : σ → ι → Prop} {s : σ} {is : List ι}
    (hq : Along step Q s is) (hr : Along step R s is) : Along step (fun s i => Q s i ∧ R s i) s is := by
  induction is generalizing s with
  | nil => trivial
  | cons i is ih => exact ⟨⟨hq.1, hr.1⟩, ih hq.2 hr.2⟩

theorem Along.invariant {step : σ → ι → σ × ο} {Q : σ → ι → Prop} {Inv : σ → Prop}
    (hstep : ∀ s i, Q s i → Inv s → Inv (step s i).1) {s : σ} {is : List ι} (h : Along step Q s is)
    (hs : Inv s) : Inv (run step s is).1 := by
  induction is generalizing s with
  | nil => exact hs
  | cons i is ih => exact ih h.2 (hstep s i h.1 hs)

theorem run_invariant (step : σ → ι → σ × ο) (Inv : σ → Prop)
    (hstep : ∀ s i, Inv s → Inv (step s i).1) (s : σ) (is : List ι) (hs : Inv s) :
    Inv (run step s is).1 := by
  induction is generalizing s with
  | nil => exact hs
  | cons i is ih => exact ih _ (hstep s i hs)

/- `abs` maps states and `out` maps outputs to those of the abstract machine. -/
theorem run_simulation {ο' : Type*} (step : σ → ι → σ × ο) (spec : τ → ι → τ × ο') (abs : σ → τ)
    (out : ο → ο') (ok : ι → Prop)
    (hstep : ∀ s i, ok i → spec (abs s) i = (abs (step s i).1, out (step s i).2)) (s : σ)
    (is : List ι) (hok : ∀ i ∈ is, ok i) :
    run spec (abs s) is = (abs (run step s is).1, (run step s is).2.map out) := by
  induction is generalizing s with
  | nil => rfl
  | cons i is ih =>
    have hi := hstep s i (hok i (List.mem_cons_self ..))
    have hr := ih (step s i).1 (fun j hj => hok j (List.mem_cons_of_mem _ hj))
    simp only [run_cons, hi, hr, List.map_cons]

/-! ### Machines that can fail -/

/-- Runs of a machine whose steps may fail; the first failure ends the run. -/
def tryRun {ε : Type*} (step : σ → ι → Except ε (σ × ο)) : σ → List ι → Except ε (σ × List ο)
  | s, [] => .ok (s, [])
  | s, i :: is =>
    match step s i with
    | .error e => .error e
    | .ok (s', o) => (tryRun step s' is).map fun r => (r.1, o :: r.2)

/- When every step from a related state succeeds with the output of the abstract
machine, whole runs do. `abs` maps inputs to those of the abstract machine. -/
theorem tryRun_refines {ε κ : Type*} (step : σ → ι → Except ε (σ × ο)) (spec : τ → κ → τ × ο)
    (abs : ι → κ) (Rel : σ → τ → Prop)
    (hstep : ∀ s t i, Rel s t → ∃ s', step s i = .ok (s', (spec t (abs i)).2) ∧
      Rel s' (spec t (abs i)).1) (s : σ) (t : τ) (is : List ι) (h : Rel s t) :
    ∃ s', tryRun step s is = .ok (s', (run spec t (is.map abs)).2) ∧
      Rel s' (run spec t (is.map abs)).1 := by
  induction is generalizing s t with
  | nil => exact ⟨s, rfl, h⟩
  | cons i is ih =>
    obtain ⟨s₁, hs, h₁⟩ := hstep s t i h
    obtain ⟨s₂, hr, h₂⟩ := ih s₁ _ h₁
    refine ⟨s₂, ?_, h₂⟩
    simp only [tryRun, hs, hr, List.map_cons, run_cons]
    rfl

/-! ### Steps that concern one key -/

section Keyed

variable {κ ν : Type*} [DecidableEq κ]

/-- Every step reads and changes only what `view` shows under its own key, as
the machine `act` on views does. -/
structure Local (step : σ → ι → σ × ο) (key : ι → κ) (view : κ → σ → ν)
    (act : ν → ι → ν × ο) : Prop where
  own : ∀ s i, act (view (key i) s) i = (view (key i) (step s i).1, (step s i).2)
  other : ∀ s i k, k ≠ key i → view k (step s i).1 = view k s

/-- Inputs of one key, in the order of the run. -/
def inputsAt (key : ι → κ) (k : κ) (is : List ι) : List ι := is.filter fun i => key i = k

/-- Outputs given to the inputs of one key, in the order of the run. -/
def outputsAt (key : ι → κ) (k : κ) (is : List ι) (os : List ο) : List ο :=
  ((is.zip os).filter fun x => key x.1 = k).map Prod.snd

theorem Local.run_at {step : σ → ι → σ × ο} {key : ι → κ} {view : κ → σ → ν} {act : ν → ι → ν × ο}
    (h : Local step key view act) (s : σ) (is : List ι) (k : κ) :
    run act (view k s) (inputsAt key k is) =
      (view k (run step s is).1, outputsAt key k is (run step s is).2) := by
  induction is generalizing s with
  | nil => rfl
  | cons i is ih =>
    have hr := ih (step s i).1
    by_cases hk : key i = k
    · have ho := h.own s i
      rw [hk] at ho
      simp only [inputsAt, outputsAt] at hr ⊢
      simp only [run_cons, List.filter_cons, List.zip_cons_cons, hk, decide_true, ite_true,
        List.map_cons, ho, hr]
    · have ho := h.other s i k (Ne.symm hk)
      rw [ho] at hr
      simp only [inputsAt, outputsAt] at hr ⊢
      simp only [run_cons, List.filter_cons, List.zip_cons_cons, hk, decide_false,
        Bool.false_eq_true, ite_false, hr]

/- Runs with the same inputs under a key give that key the same outputs and
leave the same view of it, whatever happens in between under other keys. -/
theorem Local.run_eq_of_inputsAt {step : σ → ι → σ × ο} {key : ι → κ} {view : κ → σ → ν}
    {act : ν → ι → ν × ο} (h : Local step key view act) (s : σ) (is js : List ι) (k : κ)
    (he : inputsAt key k is = inputsAt key k js) :
    view k (run step s is).1 = view k (run step s js).1 ∧
      outputsAt key k is (run step s is).2 = outputsAt key k js (run step s js).2 := by
  have hi := h.run_at s is k
  have hj := h.run_at s js k
  rw [he, hj] at hi
  exact ⟨(congrArg Prod.fst hi).symm, (congrArg Prod.snd hi).symm⟩

end Keyed

end Lib.Machine
