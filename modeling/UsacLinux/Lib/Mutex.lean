import UsacLinux.Lib.Machine
import UsacLinux.Lib.Transition
import Mathlib.Data.List.Nodup
import Mathlib.Logic.Function.Basic

/-!
# Objects behind one mutex

Any number of threads run one operation each, one instruction at a time. The
machine lets a thread do anything: touch the shared state without the lock,
return while it holds the lock, give back a lock that is not its own. That it
does none of this is a property of the code, checked place by place. When in
addition the work under the lock does what a sequential operation does, the
operations take effect in the order in which they acquire the lock.
-/

namespace Lib.Mutex
open Lib.Machine Lib.Transition

variable {σ ι ο π : Type*}

/-- What the code at one place does: `lock` waits until the lock is free,
`unlock` frees it whoever holds it, `work` may read and write the shared state. -/
inductive Instr (σ π ο : Type*) where
  | lock (q : π)
  | work (f : σ → σ × π)
  | unlock (q : π)
  | ret (o : ο)

/- `check` is what an operation does before its first instruction: it answers
at once or goes to a place of the code. -/
structure Program (σ ι ο π : Type*) where
  check : ι → π ⊕ ο
  code : π → Instr σ π ο

inductive Phase (π ο : Type*) where
  | idle
  | running (p : π)
  | done (o : ο)

/- `acquired` and `released` are kept for the proofs: the threads in the order
in which they executed `lock` and `unlock`. -/
structure System (σ π ο : Type*) where
  shared : σ
  lock : Option ℕ
  phase : ℕ → Phase π ο
  acquired : List ℕ
  released : List ℕ

def System.initial (x₀ : σ) : System σ π ο := ⟨x₀, none, fun _ => .idle, [], []⟩

def System.goto (s : System σ π ο) (t : ℕ) (ph : Phase π ο) : System σ π ο :=
  { s with phase := Function.update s.phase t ph }

variable (P : Program σ ι ο π) (calls : ℕ → ι)

def canStep (s : System σ π ο) (t : ℕ) : Prop :=
  match s.phase t with
  | .idle => True
  | .running p => match P.code p with
    | .lock _ => s.lock = none
    | _ => True
  | .done _ => False

def checked (c : ι) : Phase π ο :=
  match P.check c with
  | .inl p => .running p
  | .inr o => .done o

def next (s : System σ π ο) (t : ℕ) : System σ π ο :=
  match s.phase t with
  | .idle => s.goto t (checked P (calls t))
  | .running p => match P.code p with
    | .lock q => { s.goto t (.running q) with lock := some t, acquired := s.acquired ++ [t] }
    | .work f => { s.goto t (.running (f s.shared).2) with shared := (f s.shared).1 }
    | .unlock q => { s.goto t (.running q) with lock := none, released := s.released ++ [t] }
    | .ret o => s.goto t (.done o)
  | .done _ => s

/-- The steps a thread can make, one by one. -/
inductive Moves (s : System σ π ο) (t : ℕ) : System σ π ο → Prop where
  | check (hp : s.phase t = .idle) : Moves s t (s.goto t (checked P (calls t)))
  | lock (p q : π) (hp : s.phase t = .running p) (hc : P.code p = .lock q) (hl : s.lock = none) :
    Moves s t { s.goto t (.running q) with lock := some t, acquired := s.acquired ++ [t] }
  | work (p : π) (f : σ → σ × π) (hp : s.phase t = .running p) (hc : P.code p = .work f) :
    Moves s t { s.goto t (.running (f s.shared).2) with shared := (f s.shared).1 }
  | unlock (p q : π) (hp : s.phase t = .running p) (hc : P.code p = .unlock q) :
    Moves s t { s.goto t (.running q) with lock := none, released := s.released ++ [t] }
  | ret (p : π) (o : ο) (hp : s.phase t = .running p) (hc : P.code p = .ret o) :
    Moves s t (s.goto t (.done o))

variable {P calls} {s s' : System σ π ο} {t u : ℕ}

theorem moves (h : canStep P s t) : Moves P calls s t (next P calls s t) := by
  unfold canStep at h
  unfold next
  cases hp : s.phase t with
  | idle => exact .check hp
  | done o => simp [hp] at h
  | running p =>
    simp only [hp] at h ⊢
    cases hc : P.code p with
    | lock q =>
      rw [hc] at h
      exact .lock p q hp hc h
    | work f => exact .work p f hp hc
    | unlock q => exact .unlock p q hp hc
    | ret o => exact .ret p o hp hc

@[simp] theorem goto_self (ph : Phase π ο) : (s.goto t ph).phase t = ph := Function.update_self ..

theorem goto_other (h : u ≠ t) (ph : Phase π ο) : (s.goto t ph).phase u = s.phase u :=
  Function.update_of_ne h ..

theorem goto_cases {ph x : Phase π ο} (h : (s.goto t ph).phase u = x) :
    (u = t ∧ ph = x) ∨ (u ≠ t ∧ s.phase u = x) := by
  by_cases hut : u = t
  · subst hut
    rw [goto_self] at h
    exact Or.inl ⟨rfl, h⟩
  · rw [goto_other hut] at h
    exact Or.inr ⟨hut, h⟩

theorem next_ret {p : π} {o : ο} (hp : s.phase t = .running p) (hc : P.code p = .ret o) :
    next P calls s t = s.goto t (.done o) := by
  simp only [next, hp, hc]

/- Other threads do not notice that thread `t` moves. -/
theorem Moves.phase_other (h : Moves P calls s t s') (hu : u ≠ t) : s'.phase u = s.phase u := by
  cases h <;> exact goto_other hu _

/-! ### Lock discipline -/

/-- Where a place stands to the lock of its own thread. -/
inductive Zone where
  | before
  | inside
  | after
  deriving DecidableEq, Repr

/-- Every path through the code locks once, works on the shared state only
between that and the one `unlock` that follows, and does not return earlier. -/
structure Disciplined (P : Program σ ι ο π) (zone : π → Zone) : Prop where
  check : ∀ c p, P.check c = .inl p → zone p = .before
  lock : ∀ p q, P.code p = .lock q → zone p = .before ∧ zone q = .inside
  work : ∀ p f, P.code p = .work f → zone p = .inside ∧ ∀ x, zone (f x).2 = .inside
  unlock : ∀ p q, P.code p = .unlock q → zone p = .inside ∧ zone q = .after
  ret : ∀ p o, P.code p = .ret o → zone p = .after

variable {zone : π → Zone}

theorem Disciplined.ret_of_after (hd : Disciplined P zone) {p : π} (h : zone p = .after) :
    ∃ o, P.code p = .ret o := by
  cases hc : P.code p with
  | lock q => exact absurd (h.symm.trans (hd.lock p q hc).1) (by decide)
  | work f => exact absurd (h.symm.trans (hd.work p f hc).1) (by decide)
  | unlock q => exact absurd (h.symm.trans (hd.unlock p q hc).1) (by decide)
  | ret o => exact ⟨o, rfl⟩

/-- Where a thread stands says whether it has taken the lock, holds it or has
given it back. -/
structure Exclusive (zone : π → Zone) (s : System σ π ο) : Prop where
  order : s.acquired = s.released ++ s.lock.toList
  nodup : s.acquired.Nodup
  idle : ∀ t, s.phase t = .idle → t ∉ s.acquired
  before : ∀ t p, s.phase t = .running p → zone p = .before → t ∉ s.acquired
  inside : ∀ t p, s.phase t = .running p → zone p = .inside → s.lock = some t
  after : ∀ t p, s.phase t = .running p → zone p = .after → t ∈ s.released
  holder : ∀ t, s.lock = some t → ∃ p, s.phase t = .running p ∧ zone p = .inside

namespace Exclusive

theorem initial (zone : π → Zone) (x₀ : σ) : Exclusive zone (System.initial x₀ : System σ π ο) where
  order := rfl
  nodup := List.nodup_nil
  idle t _ h := by cases h
  before t p _ _ h := by cases h
  inside t p h := by cases h
  after t p h := by cases h
  holder t h := by cases h

theorem released_acquired (h : Exclusive zone s) (hr : t ∈ s.released) : t ∈ s.acquired := by
  rw [h.order]
  exact List.mem_append_left _ hr

theorem lock_acquired (h : Exclusive zone s) (hl : s.lock = some t) : t ∈ s.acquired := by
  rw [h.order, hl]
  simp

theorem acquired_cases (h : Exclusive zone s) (ht : t ∈ s.acquired) :
    s.lock = some t ∨ t ∈ s.released := by
  rw [h.order, List.mem_append, Option.mem_toList] at ht
  exact ht.symm

theorem released_ne (h : Exclusive zone s) (hl : s.lock = some t) (hu : u ∈ s.released) : u ≠ t := by
  have hn := h.nodup
  rw [h.order, hl] at hn
  exact (List.nodup_append.mp hn).2.2 u hu t (by simp)

theorem done_released (h : Exclusive zone s) {o : ο} (hd : s.phase t = .done o) (ht : t ∈ s.acquired) :
    t ∈ s.released := by
  rcases h.acquired_cases ht with hl | hr
  · obtain ⟨p, hp, -⟩ := h.holder t hl
    exact absurd (hp.symm.trans hd) (by simp)
  · exact hr

/- A thread that has given the lock back is about to return, or has returned. -/
theorem released_phase (hd : Disciplined P zone) (h : Exclusive zone s) (hr : t ∈ s.released) :
    (∃ p o, s.phase t = .running p ∧ P.code p = .ret o) ∨ ∃ o, s.phase t = .done o := by
  have hacq := h.released_acquired hr
  cases hp : s.phase t with
  | idle => exact absurd hacq (h.idle t hp)
  | done o => exact Or.inr ⟨o, rfl⟩
  | running p =>
    cases hz : zone p with
    | before => exact absurd hacq (h.before t p hp hz)
    | inside => exact absurd rfl (h.released_ne (h.inside t p hp hz) hr)
    | after =>
      obtain ⟨o, hc⟩ := hd.ret_of_after hz
      exact Or.inl ⟨p, o, rfl, hc⟩

theorem goto_zone {q r : π} {z : Zone} (hz : zone q = z)
    (h : (s.goto t (.running q)).phase u = .running r) :
    (u = t ∧ zone r = z) ∨ (u ≠ t ∧ s.phase u = .running r) := by
  rcases goto_cases h with ⟨hut, he⟩ | hother
  · cases he
    exact Or.inl ⟨hut, hz⟩
  · exact Or.inr hother

/- What has to be known of the moving thread, when neither the lock nor the
order in which it was taken and given back changes. -/
theorem goto_keep (h : Exclusive zone s) (ph : Phase π ο) (hidle : ph ≠ .idle)
    (hbefore : ∀ p, ph = .running p → zone p = .before → t ∉ s.acquired)
    (hinside : ∀ p, ph = .running p → zone p = .inside → s.lock = some t)
    (hafter : ∀ p, ph = .running p → zone p = .after → t ∈ s.released)
    (hholds : s.lock = some t → ∃ p, ph = .running p ∧ zone p = .inside) :
    Exclusive zone (s.goto t ph) := by
  refine ⟨h.order, h.nodup, fun u hu => ?_, fun u p hu => ?_, fun u p hu => ?_, fun u p hu => ?_,
    fun u hu => ?_⟩
  · rcases goto_cases hu with ⟨-, he⟩ | ⟨-, hu⟩
    · exact absurd he hidle
    · exact h.idle u hu
  · rcases goto_cases hu with ⟨rfl, he⟩ | ⟨-, hu⟩
    · exact hbefore p he
    · exact h.before u p hu
  · rcases goto_cases hu with ⟨rfl, he⟩ | ⟨-, hu⟩
    · exact hinside p he
    · exact h.inside u p hu
  · rcases goto_cases hu with ⟨rfl, he⟩ | ⟨-, hu⟩
    · exact hafter p he
    · exact h.after u p hu
  · by_cases hut : u = t
    · subst hut
      rw [goto_self]
      exact hholds hu
    · rw [goto_other hut]
      exact h.holder u hu

theorem step_check (hd : Disciplined P zone) (h : Exclusive zone s) (hp : s.phase t = .idle) :
    Exclusive zone (s.goto t (checked P (calls t))) := by
  have hna := h.idle t hp
  have hbefore : ∀ p, checked P (calls t) = .running p → zone p = .before := by
    intro p hc
    unfold checked at hc
    split at hc
    next q hq =>
      cases hc
      exact hd.check _ _ hq
    · cases hc
  have hno {z : Zone} (hz : z ≠ .before) {p : π} (hc : checked P (calls t) = .running p) : zone p ≠ z :=
    fun he => hz (he.symm.trans (hbefore p hc))
  refine h.goto_keep _ ?_ (fun _ _ _ => hna) (fun p hc hz => absurd hz (hno (by decide) hc))
    (fun p hc hz => absurd hz (hno (by decide) hc)) (fun hl => absurd (h.lock_acquired hl) hna)
  unfold checked
  split <;> simp

theorem step_lock (hd : Disciplined P zone) (h : Exclusive zone s) {p q : π}
    (hp : s.phase t = .running p) (hc : P.code p = .lock q) (hl : s.lock = none) :
    Exclusive zone
      { s.goto t (.running q) with lock := some t, acquired := s.acquired ++ [t] } := by
  obtain ⟨hz, hzq⟩ := hd.lock p q hc
  have hna := h.before t p hp hz
  have hne {u : ℕ} (hu : u ∈ s.acquired) : u ≠ t := fun he => hna (he ▸ hu)
  have hnew {u : ℕ} (hut : u ≠ t) (hu : u ∉ s.acquired) : u ∉ s.acquired ++ [t] := by
    rw [List.mem_append, List.mem_singleton, not_or]
    exact ⟨hu, hut⟩
  have hcases {u : ℕ} {r : π} (hr : (s.goto t (.running q)).phase u = .running r) := goto_zone hzq hr
  refine ⟨?_, ?_, fun u hu => ?_, fun u r hu hz => ?_, fun u r hu hz => ?_, fun u r hu hz => ?_,
    fun u hu => ?_⟩
  · have ho := h.order
    rw [hl, Option.toList_none, List.append_nil] at ho
    show s.acquired ++ [t] = s.released ++ [t]
    rw [ho]
  · refine List.nodup_append.mpr ⟨h.nodup, List.nodup_singleton t, fun a ha b hb => ?_⟩
    rw [List.mem_singleton.mp hb]
    exact hne ha
  · rcases goto_cases (show (s.goto t (.running q)).phase u = .idle from hu) with ⟨-, he⟩ | ⟨hut, hu⟩
    · cases he
    · exact hnew hut (h.idle u hu)
  · rcases hcases hu with ⟨-, hin⟩ | ⟨hut, hu⟩
    · exact absurd (hz.symm.trans hin) (by decide)
    · exact hnew hut (h.before u r hu hz)
  · rcases hcases hu with ⟨rfl, -⟩ | ⟨-, hu⟩
    · rfl
    · have hlu := h.inside u r hu hz
      rw [hl] at hlu
      cases hlu
  · rcases hcases hu with ⟨-, hin⟩ | ⟨-, hu⟩
    · exact absurd (hz.symm.trans hin) (by decide)
    · exact h.after u r hu hz
  · obtain rfl := Option.some.inj hu
    exact ⟨q, goto_self _, hzq⟩

theorem step_work (hd : Disciplined P zone) (h : Exclusive zone s) {p : π} {f : σ → σ × π}
    (hp : s.phase t = .running p) (hc : P.code p = .work f) :
    Exclusive zone { s.goto t (.running (f s.shared).2) with shared := (f s.shared).1 } := by
  obtain ⟨hz, hzf⟩ := hd.work p f hc
  have hl := h.inside t p hp hz
  have hno {z : Zone} (hz : z ≠ .inside) {q : π}
      (hq : (.running (f s.shared).2 : Phase π ο) = .running q) : zone q ≠ z := by
    cases hq
    rw [hzf]
    exact hz.symm
  have hk := h.goto_keep (t := t) (.running (f s.shared).2) (by simp)
    (fun q hq hz => absurd hz (hno (by decide) hq)) (fun _ _ _ => hl)
    (fun q hq hz => absurd hz (hno (by decide) hq)) (fun _ => ⟨_, rfl, hzf _⟩)
  exact ⟨hk.order, hk.nodup, hk.idle, hk.before, hk.inside, hk.after, hk.holder⟩

theorem step_unlock (hd : Disciplined P zone) (h : Exclusive zone s) {p q : π}
    (hp : s.phase t = .running p) (hc : P.code p = .unlock q) :
    Exclusive zone
      { s.goto t (.running q) with lock := none, released := s.released ++ [t] } := by
  obtain ⟨hz, hzq⟩ := hd.unlock p q hc
  have hl := h.inside t p hp hz
  have hcases {u : ℕ} {r : π} (hr : (s.goto t (.running q)).phase u = .running r) := goto_zone hzq hr
  refine ⟨?_, h.nodup, fun u hu => ?_, fun u r hu hz => ?_, fun u r hu hz => ?_, fun u r hu hz => ?_,
    fun u hu => by cases hu⟩
  · have ho := h.order
    rw [hl] at ho
    show s.acquired = s.released ++ [t] ++ []
    rw [ho, List.append_nil]
    rfl
  · rcases goto_cases (show (s.goto t (.running q)).phase u = .idle from hu) with ⟨-, he⟩ | ⟨-, hu⟩
    · cases he
    · exact h.idle u hu
  · rcases hcases hu with ⟨-, hout⟩ | ⟨-, hu⟩
    · exact absurd (hz.symm.trans hout) (by decide)
    · exact h.before u r hu hz
  · rcases hcases hu with ⟨-, hout⟩ | ⟨hut, hu⟩
    · exact absurd (hz.symm.trans hout) (by decide)
    · -- the lock was that of `t`
      exact absurd (Option.some.inj ((h.inside u r hu hz).symm.trans hl)) hut
  · rcases hcases hu with ⟨rfl, -⟩ | ⟨-, hu⟩
    · exact List.mem_append_right _ (List.mem_singleton_self u)
    · exact List.mem_append_left _ (h.after u r hu hz)

theorem step_ret (hd : Disciplined P zone) (h : Exclusive zone s) {p : π} {o : ο}
    (hp : s.phase t = .running p) (hc : P.code p = .ret o) : Exclusive zone (s.goto t (.done o)) := by
  have hr := h.after t p hp (hd.ret p o hc)
  refine h.goto_keep _ (by simp) ?_ ?_ ?_ fun hl => absurd rfl (h.released_ne hl hr)
  all_goals intro q hq; cases hq

theorem step (hd : Disciplined P zone) (h : Exclusive zone s) (hs : Moves P calls s t s') :
    Exclusive zone s' := by
  cases hs with
  | check hp => exact h.step_check hd hp
  | lock p q hp hc hl => exact h.step_lock hd hp hc hl
  | work p f hp hc => exact h.step_work hd hp hc
  | unlock p q hp hc => exact h.step_unlock hd hp hc
  | ret p o hp hc => exact h.step_ret hd hp hc

end Exclusive

/- Without the lock a disciplined thread neither reads nor writes the shared state. -/
theorem next_frame (hd : Disciplined P zone) (h : Exclusive zone s) (hl : s.lock ≠ some t) (x : σ) :
    next P calls { s with shared := x } t = { next P calls s t with shared := x } := by
  unfold next
  cases hp : s.phase t with
  | idle => rfl
  | done o => rfl
  | running p =>
    simp only
    cases hc : P.code p with
    | work f => exact absurd (h.inside t p hp (hd.work p f hc).1) hl
    | _ => rfl

/-! ### Sequential meaning -/

/-- The answer of an operation, as soon as nothing but the release and the
return stand between the operation and it. -/
def Program.answer (P : Program σ ι ο π) : Phase π ο → Option ο
  | .idle => none
  | .running p => match P.code p with
    | .ret o => some o
    | .unlock q => match P.code q with
      | .ret o => some o
      | _ => none
    | _ => none
  | .done o => some o

theorem answer_ret {p : π} {o : ο} (h : P.code p = .ret o) : P.answer (.running p) = some o := by
  simp only [Program.answer, h]

theorem answer_unlock {p q : π} {o : ο} (h : P.code p = .unlock q) (hq : P.code q = .ret o) :
    P.answer (.running p) = some o := by
  simp only [Program.answer, h, hq]

/-- The work under the lock amounts to `exec`: `R c x y p` relates the shared
state `x` at the acquisition to the state `y` at the place `p`. -/
structure Implements (P : Program σ ι ο π) (exec : σ → ι → σ × ο) (R : ι → σ → σ → π → Prop) :
    Prop where
  refused : ∀ c o x, P.check c = .inr o → exec x c = (x, o)
  entered : ∀ c p q x, P.check c = .inl p → P.code p = .lock q → R c x x q
  work : ∀ c x y p f, P.code p = .work f → R c x y p → R c x (f y).1 (f y).2
  unlock : ∀ c x y p q, P.code p = .unlock q → R c x y p → ∃ o, P.code q = .ret o ∧ exec x c = (y, o)

variable (P calls) (exec : σ → ι → σ × ο) (R : ι → σ → σ → π → Prop) (x₀ : σ)

/- The state the released operations lead to, one after the other. -/
def committed (s : System σ π ο) : σ := (run exec x₀ (s.released.map calls)).1

structure Linearized (zone : π → Zone) (s : System σ π ο) : Prop extends Exclusive zone s where
  outside : ∀ t, t ∉ s.acquired → s.phase t = .idle ∨
    (∃ p, s.phase t = .running p ∧ P.check (calls t) = .inl p) ∨
    ∃ o, s.phase t = .done o ∧ P.check (calls t) = .inr o
  passed : ∀ t ∈ s.acquired, ∃ p, P.check (calls t) = .inl p
  answers : (run exec x₀ (s.released.map calls)).2.map some =
    s.released.map fun t => P.answer (s.phase t)
  working : ∀ t p, s.lock = some t → s.phase t = .running p →
    R (calls t) (committed calls exec x₀ s) s.shared p
  free : s.lock = none → s.shared = committed calls exec x₀ s

variable {P calls exec R x₀}

namespace Linearized

theorem initial (zone : π → Zone) : Linearized P calls exec R x₀ zone (System.initial x₀) where
  toExclusive := .initial zone x₀
  outside t _ := Or.inl rfl
  passed t h := by cases h
  answers := rfl
  working t p h := by cases h
  free _ := rfl

/- Threads that do not move keep their answers. -/
theorem answers_goto {l : List ℕ} (h : ∀ u ∈ l, u ≠ t) (ph : Phase π ο) :
    (l.map fun u => P.answer ((s.goto t ph).phase u)) = l.map fun u => P.answer (s.phase u) :=
  List.map_congr_left fun u hu => by rw [goto_other (h u hu)]

theorem outside_goto (h : Linearized P calls exec R x₀ zone s) (ht : t ∈ s.acquired) (ph : Phase π ο)
    (u : ℕ) (hu : u ∉ s.acquired) : (s.goto t ph).phase u = .idle ∨
      (∃ p, (s.goto t ph).phase u = .running p ∧ P.check (calls u) = .inl p) ∨
      ∃ o, (s.goto t ph).phase u = .done o ∧ P.check (calls u) = .inr o := by
  have hut : u ≠ t := fun he => hu (he ▸ ht)
  rw [goto_other hut]
  exact h.outside u hu

/- What a thread that runs outside the order has come from. -/
theorem running_checked (h : Linearized P calls exec R x₀ zone s) {p : π} (hp : s.phase t = .running p)
    (ht : t ∉ s.acquired) : P.check (calls t) = .inl p := by
  rcases h.outside t ht with hi | ⟨q, hq, hc⟩ | ⟨o, ho, -⟩
  · exact absurd (hi.symm.trans hp) (by simp)
  · obtain rfl := Phase.running.inj (hq.symm.trans hp)
    exact hc
  · exact absurd (ho.symm.trans hp) (by simp)

section Steps

variable (hd : Disciplined P zone) (h : Linearized P calls exec R x₀ zone s)

include hd h

theorem step_check (hp : s.phase t = .idle) :
    Linearized P calls exec R x₀ zone (s.goto t (checked P (calls t))) := by
  have hna := h.idle t hp
  have hne {u : ℕ} (hu : u ∈ s.acquired) : u ≠ t := fun he => hna (he ▸ hu)
  refine ⟨h.toExclusive.step_check hd hp, fun u hu => ?_, h.passed, ?_, fun u p hl hu => ?_, h.free⟩
  · by_cases hut : u = t
    · subst hut
      rw [goto_self]
      unfold checked
      cases hc : P.check (calls u) with
      | inl p => exact Or.inr (Or.inl ⟨p, rfl, rfl⟩)
      | inr o => exact Or.inr (Or.inr ⟨o, rfl, rfl⟩)
    · rw [goto_other hut]
      exact h.outside u hu
  · exact h.answers.trans (answers_goto (fun u hu => hne (h.released_acquired hu)) _).symm
  · rw [goto_other (hne (h.lock_acquired hl))] at hu
    exact h.working u p hl hu

theorem step_lock (hP : Implements P exec R) {p q : π} (hp : s.phase t = .running p)
    (hc : P.code p = .lock q) (hl : s.lock = none) :
    Linearized P calls exec R x₀ zone
      { s.goto t (.running q) with lock := some t, acquired := s.acquired ++ [t] } := by
  have hna := h.before t p hp (hd.lock p q hc).1
  have hne {u : ℕ} (hu : u ∈ s.acquired) : u ≠ t := fun he => hna (he ▸ hu)
  have hcheck := h.running_checked hp hna
  refine ⟨h.toExclusive.step_lock hd hp hc hl, fun u hu => ?_, fun u hu => ?_, ?_, fun u r hu hr => ?_,
    fun hn => by cases hn⟩
  · rw [List.mem_append, List.mem_singleton, not_or] at hu
    show (s.goto t (.running q)).phase u = _ ∨ _
    rw [goto_other hu.2]
    exact h.outside u hu.1
  · rcases List.mem_append.mp hu with hu | hu
    · exact h.passed u hu
    · rw [List.mem_singleton.mp hu]
      exact ⟨p, hcheck⟩
  · exact h.answers.trans (answers_goto (fun u hu => hne (h.released_acquired hu)) _).symm
  · obtain rfl := Option.some.inj hu
    obtain rfl := Phase.running.inj ((goto_self _).symm.trans hr)
    show R (calls t) (committed calls exec x₀ s) s.shared q
    rw [← h.free hl]
    exact hP.entered _ p q _ hcheck hc

theorem step_work (hP : Implements P exec R) {p : π} {f : σ → σ × π} (hp : s.phase t = .running p)
    (hc : P.code p = .work f) : Linearized P calls exec R x₀ zone
      { s.goto t (.running (f s.shared).2) with shared := (f s.shared).1 } := by
  have hl := h.inside t p hp (hd.work p f hc).1
  refine ⟨h.toExclusive.step_work hd hp hc, h.outside_goto (h.lock_acquired hl) _, h.passed, ?_,
    fun u r hu hr => ?_, fun hn => ?_⟩
  · exact h.answers.trans (answers_goto (fun u hu => h.released_ne hl hu) _).symm
  · obtain rfl := Option.some.inj (hl.symm.trans hu)
    obtain rfl := Phase.running.inj ((goto_self _).symm.trans hr)
    exact hP.work _ _ _ p f hc (h.working t p hl hp)
  · exact absurd (hl.symm.trans hn) (by simp)

theorem step_unlock (hP : Implements P exec R) {p q : π} (hp : s.phase t = .running p)
    (hc : P.code p = .unlock q) : Linearized P calls exec R x₀ zone
      { s.goto t (.running q) with lock := none, released := s.released ++ [t] } := by
  have hl := h.inside t p hp (hd.unlock p q hc).1
  obtain ⟨o, hq, he⟩ := hP.unlock _ _ _ p q hc (h.working t p hl hp)
  have hrun : run exec x₀ ((s.released ++ [t]).map calls) =
      (s.shared, (run exec x₀ (s.released.map calls)).2 ++ [o]) := by
    rw [List.map_append, List.map_singleton, run_concat]
    show ((exec (committed calls exec x₀ s) (calls t)).1, _) = _
    rw [he]
    show (s.shared, _ ++ [(exec (committed calls exec x₀ s) (calls t)).2]) = _
    rw [he]
  refine ⟨h.toExclusive.step_unlock hd hp hc, h.outside_goto (h.lock_acquired hl) _, h.passed, ?_,
    fun u r hu => (by cases hu), fun _ => (congrArg Prod.fst hrun).symm⟩
  show (run exec x₀ ((s.released ++ [t]).map calls)).2.map some =
    (s.released ++ [t]).map fun u => P.answer ((s.goto t (.running q)).phase u)
  rw [hrun, List.map_append, List.map_append, answers_goto (fun u hu => h.released_ne hl hu), h.answers,
    List.map_singleton, List.map_singleton, goto_self, answer_ret hq]

theorem step_ret {p : π} {o : ο} (hp : s.phase t = .running p) (hc : P.code p = .ret o) :
    Linearized P calls exec R x₀ zone (s.goto t (.done o)) := by
  have hr := h.after t p hp (hd.ret p o hc)
  refine ⟨h.toExclusive.step_ret hd hp hc, h.outside_goto (h.released_acquired hr) _, h.passed, ?_,
    fun u q hl hu => ?_, h.free⟩
  · refine h.answers.trans (List.map_congr_left fun u _ => ?_)
    by_cases hut : u = t
    · subst hut
      rw [goto_self, hp, answer_ret hc]
      rfl
    · rw [goto_other hut]
  · rw [goto_other (fun hut => h.released_ne hl hr hut.symm)] at hu
    exact h.working u q hl hu

theorem step (hP : Implements P exec R) (hs : Moves P calls s t s') :
    Linearized P calls exec R x₀ zone s' := by
  cases hs with
  | check hp => exact h.step_check hd hp
  | lock p q hp hc hl => exact h.step_lock hd hP hp hc hl
  | work p f hp hc => exact h.step_work hd hP hp hc
  | unlock p q hp hc => exact h.step_unlock hd hP hp hc
  | ret p o hp hc => exact h.step_ret hd hp hc

end Steps

/- What a thread outside the order has been answered. -/
theorem done_refused (h : Linearized P calls exec R x₀ zone s) {o : ο} (hdone : s.phase t = .done o)
    (ht : t ∉ s.acquired) : P.check (calls t) = .inr o := by
  rcases h.outside t ht with hi | ⟨p, hp, -⟩ | ⟨o', ho, hc⟩
  · exact absurd (hi.symm.trans hdone) (by simp)
  · exact absurd (hp.symm.trans hdone) (by simp)
  · obtain rfl := Phase.done.inj (ho.symm.trans hdone)
    exact hc

end Linearized

/-! ### Whole executions -/

section Executions

variable (P calls x₀)

/-- Executions that start with the lock free and no operation begun. -/
abbrev MutexExecution :=
  Execution (· = (System.initial x₀ : System σ π ο)) (Guarded (canStep P) (next P calls))

variable {P calls x₀} (e : MutexExecution P calls x₀)

theorem moves_at {i : ℕ} (hi : i < e.length) : Moves P calls (e.state i) (e.label i) (e.state (i + 1)) := by
  obtain ⟨hen, hs⟩ := e.step i hi
  rw [hs]
  exact moves hen

theorem exclusive (hd : Disciplined P zone) : ∀ i ≤ e.length, Exclusive zone (e.state i) := by
  apply e.invariant (Exclusive zone) (fun _ _ => True) (fun _ _ => trivial)
  · rintro s rfl
    exact .initial zone x₀
  · rintro s t s' - hs ⟨hen, rfl⟩
    exact hs.step hd (moves hen)

theorem linearized (hd : Disciplined P zone) (hP : Implements P exec R) :
    ∀ i ≤ e.length, Linearized P calls exec R x₀ zone (e.state i) := by
  apply e.invariant (Linearized P calls exec R x₀ zone) (fun _ _ => True) (fun _ _ => trivial)
  · rintro s rfl
    exact .initial zone
  · rintro s t s' - hs ⟨hen, rfl⟩
    exact hs.step hd hP (moves hen)

/- A released operation has its answer, and keeps it. -/
theorem answer_stays (hd : Disciplined P zone) {i : ℕ} (hi : i < e.length)
    (hr : t ∈ (e.state i).released) :
    P.answer ((e.state (i + 1)).phase t) = P.answer ((e.state i).phase t) := by
  by_cases ht : t = e.label i
  · subst ht
    rcases (exclusive e hd i (Nat.le_of_lt hi)).released_phase hd hr with ⟨p, o, hp, hc⟩ | ⟨o, hdone⟩
    · rw [(e.step i hi).2, next_ret hp hc, goto_self, hp, answer_ret hc]
      rfl
    · have hen := (e.step i hi).1
      simp [canStep, hdone] at hen
  · rw [(moves_at e hi).phase_other ht]

/- Only `unlock` adds to the released threads. -/
theorem released_step {i : ℕ} (hi : i < e.length) (hr : t ∈ (e.state (i + 1)).released)
    (hn : t ∉ (e.state i).released) : e.label i = t ∧ ∃ p q, (e.state i).phase t = .running p ∧
      P.code p = .unlock q ∧ (e.state (i + 1)).phase t = .running q := by
  have hm := moves_at e hi
  generalize e.state (i + 1) = s' at hm hr ⊢
  cases hm with
  | unlock p q hp hc =>
    rcases List.mem_append.mp hr with hr | hr
    · exact absurd hr hn
    · obtain rfl := List.mem_singleton.mp hr
      exact ⟨rfl, p, q, hp, hc, goto_self _⟩
  | _ => exact absurd hr hn

theorem released_by_holder (hd : Disciplined P zone) {i : ℕ} (hi : i < e.length)
    (hne : (e.state (i + 1)).released ≠ (e.state i).released) :
    (e.state i).lock = some (e.label i) := by
  have hm := moves_at e hi
  generalize e.state (i + 1) = s' at hm hne
  cases hm with
  | unlock p q hp hc => exact (exclusive e hd i (Nat.le_of_lt hi)).inside _ p hp (hd.unlock p q hc).1
  | _ => exact absurd rfl hne

/- An answer belongs to an instant at which its thread holds the lock: there
the shared state is what the sequential operation leaves. -/
theorem released_at (hd : Disciplined P zone) (hP : Implements P exec R) (i : ℕ) (hi : i ≤ e.length)
    {o : ο} (hr : t ∈ (e.state i).released) (ha : P.answer ((e.state i).phase t) = some o) :
    ∃ j < i, (e.state j).lock = some t ∧
      exec (committed calls exec x₀ (e.state j)) (calls t) = ((e.state j).shared, o) := by
  induction i with
  | zero =>
    rw [e.init] at hr
    cases hr
  | succ i ih =>
    by_cases hold : t ∈ (e.state i).released
    · obtain ⟨j, hj, h⟩ := ih (by omega) hold (by rwa [answer_stays e hd hi hold] at ha)
      exact ⟨j, by omega, h⟩
    · obtain ⟨-, p, q, hp, hc, hq⟩ := released_step e hi hr hold
      have h := linearized e hd hP i (by omega)
      have hl := h.inside t p hp (hd.unlock p q hc).1
      obtain ⟨o', ho', he⟩ := hP.unlock _ _ _ p q hc (h.working t p hl hp)
      rw [hq, answer_ret ho'] at ha
      cases ha
      exact ⟨i, by omega, hl, he⟩

end Executions

end Lib.Mutex
