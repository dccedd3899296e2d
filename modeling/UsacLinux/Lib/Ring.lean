import Mathlib.Data.List.Chain
import Mathlib.Data.List.Nodup
import Mathlib.Logic.Function.Basic

/-!
# Circular doubly linked lists

An intrusive list: a head and its nodes form a ring through their `next` and
`prev` pointers. A ring is described by the nodes met from the head on.
Insertion behind the head puts one more node in front of them, and a traversal
in either direction comes back to the head after as many steps as there are
nodes.
-/

namespace Lib.Ring

variable {A : Type*}

/-- The two pointers stored at every address. -/
structure Links (A : Type*) where
  next : A → A
  prev : A → A

/-- `y` follows `x` in both directions. -/
def Linked (k : Links A) (x y : A) : Prop := k.next x = y ∧ k.prev y = x

structure IsRing (k : Links A) (head : A) (nodes : List A) : Prop where
  chain : (head :: (nodes ++ [head])).IsChain (Linked k)
  nodup : (head :: nodes).Nodup

/-! ### Traversals -/

/-- From `a` on, `step` meets the nodes of the list and then `stop`. -/
def Path (step : A → A) (stop : A) : A → List A → Prop
  | a, [] => a = stop
  | a, x :: xs => a = x ∧ x ≠ stop ∧ Path step stop (step x) xs

theorem path_of_chain {step : A → A} {stop a : A} {xs : List A} (hs : stop ∉ xs)
    (h : (a :: (xs ++ [stop])).IsChain fun x y => step x = y) : Path step stop (step a) xs := by
  induction xs generalizing a with
  | nil => simpa [Path] using h
  | cons x xs ih =>
    rw [List.cons_append, List.isChain_cons_cons] at h
    rw [List.mem_cons, not_or] at hs
    exact ⟨h.1, Ne.symm hs.1, ih hs.2 h.2⟩

theorem IsRing.forward {k : Links A} {head : A} {nodes : List A} (h : IsRing k head nodes) :
    Path k.next head (k.next head) nodes :=
  path_of_chain (List.nodup_cons.mp h.nodup).1 (h.chain.imp fun _ _ hl => hl.1)

theorem IsRing.backward {k : Links A} {head : A} {nodes : List A} (h : IsRing k head nodes) :
    Path k.prev head (k.prev head) nodes.reverse := by
  refine path_of_chain (by simpa using (List.nodup_cons.mp h.nodup).1) ?_
  have hr : head :: (nodes.reverse ++ [head]) = (head :: (nodes ++ [head])).reverse := by simp
  rw [hr, List.isChain_reverse]
  exact h.chain.imp fun _ _ hl => hl.2

/- Links that agree on the head and the nodes make the same ring. -/
theorem IsRing.congr {k k' : Links A} {head : A} {nodes : List A} (h : IsRing k head nodes)
    (hk : ∀ x ∈ head :: nodes, k'.next x = k.next x ∧ k'.prev x = k.prev x) :
    IsRing k' head nodes := by
  have hmem {x : A} (hx : x ∈ head :: (nodes ++ [head])) : x ∈ head :: nodes := by
    simpa [or_comm, or_assoc] using hx
  refine ⟨h.chain.imp_of_mem_imp fun x y hx hy hl => ?_, h.nodup⟩
  exact ⟨(hk x (hmem hx)).1.trans hl.1, (hk y (hmem hy)).2.trans hl.2⟩

/-! ### Stores to the links -/

section Stores

variable [DecidableEq A]

/-- A node that points to itself. -/
def Links.init (k : Links A) (node : A) : Links A :=
  ⟨Function.update k.next node node, Function.update k.prev node node⟩

/-- Insertion between `head` and its successor. -/
def Links.add (k : Links A) (new head : A) : Links A :=
  let next := k.next head
  { next := Function.update (Function.update k.next new next) head new
    prev := Function.update (Function.update k.prev next new) new head }

variable {k : Links A} {head : A} {nodes : List A}

theorem IsRing.empty (k : Links A) (head : A) : IsRing (k.init head) head [] :=
  ⟨by simp [Linked, Links.init], by simp⟩

theorem IsRing.init_other (h : IsRing k head nodes) {new : A} (hnew : new ∉ head :: nodes) :
    IsRing (k.init new) head nodes := by
  refine h.congr fun x hx => ?_
  have hne : x ≠ new := fun he => hnew (he ▸ hx)
  simp [Links.init, Function.update_of_ne hne]

/- The new node between the head and its old successor. -/
theorem add_linked {new : A} (hnext : k.next head ≠ new) (hhead : head ≠ new) :
    Linked (k.add new head) head new ∧ Linked (k.add new head) new (k.next head) := by
  simp [Linked, Links.add, Function.update_of_ne hnext, Function.update_of_ne (Ne.symm hhead)]

/- All other pointers stay. -/
theorem add_linked_other {new a b : A} (h : Linked k a b) (ha : a ≠ head ∧ a ≠ new)
    (hb : b ≠ k.next head ∧ b ≠ new) : Linked (k.add new head) a b := by
  simp only [Linked, Links.add, Function.update_of_ne ha.1, Function.update_of_ne ha.2,
    Function.update_of_ne hb.1, Function.update_of_ne hb.2]
  exact h

theorem IsRing.add (h : IsRing k head nodes) {new : A} (hnew : new ∉ head :: nodes) :
    IsRing (k.add new head) head (new :: nodes) := by
  obtain ⟨hc, hn⟩ := h
  have hnd : (head :: new :: nodes).Nodup := by
    have hp : (new :: head :: nodes).Nodup := List.nodup_cons.mpr ⟨hnew, hn⟩
    exact (List.Perm.swap head new nodes).nodup_iff.mp hp
  rw [List.mem_cons, not_or] at hnew
  refine ⟨?_, hnd⟩
  cases nodes with
  | nil =>
    have hfirst : k.next head = head := (List.isChain_cons_cons.mp hc).1.1
    have hl := add_linked (k := k) (by rw [hfirst]; exact Ne.symm hnew.1) (Ne.symm hnew.1)
    rw [hfirst] at hl
    simpa using hl
  | cons x xs =>
    rw [List.cons_append, List.isChain_cons_cons] at hc
    obtain ⟨⟨hfirst, -⟩, hc⟩ := hc
    have hx : x ≠ new := fun he => hnew.2 (by simp [he])
    have hl := add_linked (k := k) (by rw [hfirst]; exact hx) (Ne.symm hnew.1)
    rw [hfirst] at hl
    rw [List.cons_append, List.cons_append, List.isChain_cons_cons, List.isChain_cons_cons]
    refine ⟨hl.1, hl.2, hc.imp_of_mem_tail_imp fun a b ha hb hab => ?_⟩
    -- behind the old first node no pointer changes
    have hxs : x ∉ xs ++ [head] := by
      simp only [List.nodup_cons, List.mem_cons, not_or] at hn
      simp [hn.2.1, Ne.symm hn.1.1]
    have hout : new ∉ x :: (xs ++ [head]) := by
      simpa [or_comm, or_assoc, hnew.1] using hnew.2
    have hbx : b ≠ x := fun he => hxs (he ▸ hb)
    refine add_linked_other hab ⟨?_, fun he => hout (he ▸ ha)⟩
      ⟨by rwa [hfirst], fun he => hout (he ▸ List.mem_cons_of_mem x hb)⟩
    rintro rfl
    exact hbx (hab.1.symm.trans hfirst)

end Stores

end Lib.Ring
