import UsacLinux.Lib.Mutex
import Mathlib.Algebra.Order.BigOperators.Group.Finset

/-!
# Progress behind one mutex

When the code keeps the lock discipline and every step under the lock brings
its operation nearer to the release, any schedule of finitely many operations
ends, and it ends in a state where all of them have answered: nobody waits for
a lock that is not given back. The order in which the lock is taken only grows,
and respects the order of real time.
-/

namespace Lib.Mutex
open Lib.Machine Lib.Transition

variable {σ ι ο π : Type*} {P : Program σ ι ο π} {calls : ℕ → ι} {zone : π → Zone}
  {x₀ : σ} {s s' : System σ π ο} {t u : ℕ}

/-! ### What a step leaves alone -/

theorem Moves.acquired (h : Moves P calls s t s') : s.acquired <+: s'.acquired := by
  cases h with
  | lock p q hp hc hl => exact List.prefix_append ..
  | _ => exact List.prefix_refl _

/- The state under the lock of another thread. -/
theorem Moves.shared (hd : Disciplined P zone) (h : Exclusive zone s) (hs : Moves P calls s t s')
    (hl : s.lock ≠ some t) : s'.shared = s.shared := by
  cases hs with
  | work p f hp hc => exact absurd (h.inside t p hp (hd.work p f hc).1) hl
  | _ => rfl

/-! ### Remaining steps -/

section Cost

variable (zone) (cost : σ → π → ℕ) (B : ℕ)

/-- Bound on the steps thread `t` can still make, when `cost` bounds those up
to its `unlock` and never exceeds `B` on entry. -/
def remaining (s : System σ π ο) (t : ℕ) : ℕ :=
  match s.phase t with
  | .idle => B + 4
  | .running p => match zone p with
    | .before => B + 3
    | .inside => cost s.shared p + 2
    | .after => 1
  | .done _ => 0

variable {cost B}

theorem remaining_checked (hd : Disciplined P zone) (c : ι) :
    remaining zone cost B (s.goto t (checked P c)) t < B + 4 := by
  unfold remaining checked
  rw [goto_self]
  cases hc : P.check c with
  | inl p =>
    simp only [hd.check c p hc]
    omega
  | inr o =>
    simp only
    omega

theorem remaining_own (hd : Disciplined P zone)
    (hcost : ∀ x p f, P.code p = .work f → cost (f x).1 (f x).2 < cost x p)
    (hB : s.lock = none → ∀ p q, P.check (calls t) = .inl p → P.code p = .lock q →
      cost s.shared q ≤ B)
    (hcheck : ∀ p, s.phase t = .running p → zone p = .before → P.check (calls t) = .inl p)
    (hs : Moves P calls s t s') : remaining zone cost B s' t < remaining zone cost B s t := by
  cases hs with
  | check hp =>
    have hlt : remaining zone cost B (s.goto t (checked P (calls t))) t < B + 4 :=
      remaining_checked zone hd (calls t)
    simpa only [remaining, hp] using hlt
  | lock p q hp hc hl =>
    obtain ⟨hz, hzq⟩ := hd.lock p q hc
    have hle := hB hl p q (hcheck p hp hz) hc
    simp only [remaining, goto_self, hp, hz, hzq]
    show cost s.shared q + 2 < B + 3
    omega
  | work p f hp hc =>
    obtain ⟨hz, hzf⟩ := hd.work p f hc
    have hlt := hcost s.shared p f hc
    simp only [remaining, goto_self, hp, hz, hzf]
    omega
  | unlock p q hp hc =>
    obtain ⟨hz, hzq⟩ := hd.unlock p q hc
    simp only [remaining, goto_self, hp, hz, hzq]
    omega
  | ret p o hp hc => simp [remaining, hp, hd.ret p o hc]

/- A thread under the lock does not see the steps of the others. -/
theorem remaining_other (hd : Disciplined P zone) (h : Exclusive zone s) (hs : Moves P calls s t s')
    (hu : u ≠ t) : remaining zone cost B s' u = remaining zone cost B s u := by
  unfold remaining
  rw [hs.phase_other hu]
  cases hp : s.phase u with
  | idle => rfl
  | done o => rfl
  | running p =>
    cases hz : zone p with
    | before => simp only [hz]
    | after => simp only [hz]
    | inside =>
      have hl := h.inside u p hp hz
      have hne : s.lock ≠ some t := fun he => hu (Option.some.inj (hl.symm.trans he))
      simp only [hz, hs.shared hd h hne]

end Cost

/-! ### Whole executions -/

section Executions

variable (e : MutexExecution P calls x₀) {n : ℕ} (hlabel : ∀ i < e.length, e.label i < n)

include hlabel

theorem acquired_lt : ∀ i ≤ e.length, ∀ t ∈ (e.state i).acquired, t < n := by
  apply e.invariant (fun s => ∀ t ∈ s.acquired, t < n) (fun _ t => t < n) hlabel
  · rintro s rfl t ht
    cases ht
  · rintro s t s' ht hs ⟨hen, rfl⟩ u hu
    have hm : Moves P calls s t (next P calls s t) := moves hen
    generalize next P calls s t = s' at hm hu
    cases hm with
    | lock p q hp hc hl =>
      rcases List.mem_append.mp hu with hu | hu
      · exact hs u hu
      · rw [List.mem_singleton.mp hu]
        exact ht
    | _ => exact hs u hu

theorem length_le {exec : σ → ι → σ × ο} {R : ι → σ → σ → π → Prop} (hd : Disciplined P zone)
    (hP : Implements P exec R) {cost : σ → π → ℕ} {B : ℕ}
    (hcost : ∀ x p f, P.code p = .work f → cost (f x).1 (f x).2 < cost x p)
    (hB : ∀ i < e.length, (e.state i).lock = none → ∀ t p q, P.check (calls t) = .inl p →
      P.code p = .lock q → cost (e.state i).shared q ≤ B) :
    e.length ≤ n * (B + 4) := by
  let total i := ∑ t ∈ Finset.range n, remaining zone cost B (e.state i) t
  have hstep (i : ℕ) (hi : i < e.length) : total (i + 1) < total i := by
    have h := linearized e hd hP i hi.le
    have hm := moves_at e hi
    have hown := remaining_own zone hd hcost (fun hl => hB i hi hl (e.label i))
      (fun p hp hz => h.running_checked hp (h.before _ p hp hz)) hm
    refine Finset.sum_lt_sum (fun u _ => ?_) ⟨e.label i, Finset.mem_range.mpr (hlabel i hi), hown⟩
    by_cases hu : u = e.label i
    · rw [hu]
      exact hown.le
    · rw [remaining_other zone hd h.toExclusive hm hu]
  have hrun (i : ℕ) (hi : i ≤ e.length) : i + total i ≤ total 0 := by
    induction i with
    | zero => simp
    | succ i ih =>
      have h1 := hstep i hi
      have h2 := ih (by omega)
      omega
  have h0 : total 0 = n * (B + 4) := by
    simp [total, e.init, remaining, System.initial]
  have hl := hrun e.length le_rfl
  omega

/- The holder can always go on: its next instruction is no `lock`. A state in
which nobody can move is therefore one in which all have answered. -/
theorem done_of_stuck (hd : Disciplined P zone)
    (hstuck : ∀ t < n, ¬canStep P (e.state e.length) t) :
    (e.state e.length).lock = none ∧ ∀ t < n, ∃ o, (e.state e.length).phase t = .done o := by
  have h := exclusive e hd e.length le_rfl
  have hfree : (e.state e.length).lock = none := by
    cases hl : (e.state e.length).lock with
    | none => rfl
    | some u =>
      have hu := acquired_lt e hlabel e.length le_rfl u (h.lock_acquired hl)
      obtain ⟨p, hp, hz⟩ := h.holder u hl
      refine absurd ?_ (hstuck u hu)
      unfold canStep
      rw [hp]
      cases hc : P.code p with
      | lock q => exact absurd (hz.symm.trans (hd.lock p q hc).1) (by decide)
      | _ => simp only [hc]
  refine ⟨hfree, fun t ht => ?_⟩
  have hno := hstuck t ht
  unfold canStep at hno
  cases hp : (e.state e.length).phase t with
  | done o => exact ⟨o, rfl⟩
  | idle => simp [hp] at hno
  | running p =>
    rw [hp] at hno
    cases hc : P.code p with
    | lock q => exact absurd (by simp only [hc, hfree]) hno
    | _ => exact absurd (by simp only [hc]) hno

end Executions

/-! ### Real time -/

section RealTime

variable (e : MutexExecution P calls x₀) {i j : ℕ}

theorem acquired_extends (hij : i ≤ j) (hj : j ≤ e.length) :
    (e.state i).acquired <+: (e.state j).acquired :=
  e.chain (fun s s' => s.acquired <+: s'.acquired) (fun _ => List.prefix_refl _)
    (fun _ _ _ => List.IsPrefix.trans) i j hij hj fun _ _ hk => (moves_at e (by omega)).acquired

/- An answer, once given, stays. -/
theorem done_stays {o : ο} (hij : i ≤ j) (hj : j ≤ e.length)
    (hdone : (e.state i).phase t = .done o) : (e.state j).phase t = .done o := by
  refine e.chain (fun s s' => s.phase t = .done o → s'.phase t = .done o) (fun _ => id)
    (fun _ _ _ hab hbc h => hbc (hab h)) i j hij hj (fun k _ hk h => ?_) hdone
  rw [(moves_at e (by omega)).phase_other]
  · exact h
  · rintro rfl
    have hen := (e.step k (by omega)).1
    simp [canStep, h] at hen

/- An operation that has not begun holds the lock at later instants only. -/
theorem lt_of_lock_of_idle (hd : Disciplined P zone) (hi : i ≤ e.length)
    (hidle : (e.state i).phase t = .idle) (hj : j ≤ e.length) (hlock : (e.state j).lock = some t) :
    i < j := by
  by_contra hle
  have hacq := (exclusive e hd j hj).lock_acquired hlock
  have hmem := (acquired_extends e (show j ≤ i by omega) hi).subset hacq
  exact (exclusive e hd i hi).idle t hidle hmem

end RealTime

end Lib.Mutex
