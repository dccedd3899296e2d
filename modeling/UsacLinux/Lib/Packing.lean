import Mathlib.Data.Finset.Card
import Mathlib.Order.Interval.Finset.Nat
import Mathlib.Algebra.BigOperators.Group.List.Basic
import Mathlib.Algebra.GroupWithZero.Nat

/-!
# Intervals that do not overlap

Half-open intervals of natural numbers, given by their ends. Those of a list
that keep clear of each other share whatever contains them all.
-/

namespace Lib.Packing

variable {α : Type*} (lo hi : α → ℕ)

def cells (a : α) : Finset ℕ := Finset.Ico (lo a) (hi a)

def Apart (a b : α) : Prop := hi a ≤ lo b ∨ hi b ≤ lo a

def cover (l : List α) : Finset ℕ := l.foldr (fun a s => cells lo hi a ∪ s) ∅

def total (l : List α) : ℕ := (l.map fun a => hi a - lo a).sum

variable {lo hi} {l : List α}

theorem mem_cover {n : ℕ} : n ∈ cover lo hi l ↔ ∃ a ∈ l, n ∈ cells lo hi a := by
  induction l with
  | nil => simp [cover]
  | cons a l ih =>
    rw [cover, List.foldr_cons, Finset.mem_union, ← cover, ih]
    simp

theorem cells_disjoint {a b : α} (h : Apart lo hi a b) :
    Disjoint (cells lo hi a) (cells lo hi b) := by
  rw [Finset.disjoint_left]
  intro n hn hn'
  rw [cells, Finset.mem_Ico] at hn hn'
  rw [Apart] at h
  omega

theorem card_cover (h : l.Pairwise (Apart lo hi)) : (cover lo hi l).card = total lo hi l := by
  induction l with
  | nil => rfl
  | cons a l ih =>
    obtain ⟨ha, hl⟩ := List.pairwise_cons.mp h
    have hdis : Disjoint (cells lo hi a) (cover lo hi l) := by
      rw [Finset.disjoint_right]
      intro n hn
      obtain ⟨b, hb, hnb⟩ := mem_cover.mp hn
      exact Finset.disjoint_right.mp (cells_disjoint (ha b hb)) hnb
    rw [cover, List.foldr_cons, ← cover, Finset.card_union_of_disjoint hdis, ih hl, cells,
      Nat.card_Ico, total, total, List.map_cons, List.sum_cons]

theorem total_le (h : l.Pairwise (Apart lo hi)) {m : ℕ} (hm : ∀ a ∈ l, hi a ≤ m) :
    total lo hi l ≤ m := by
  rw [← card_cover h, ← Finset.card_range m]
  apply Finset.card_le_card
  intro n hn
  obtain ⟨a, ha, hna⟩ := mem_cover.mp hn
  have hle := hm a ha
  rw [cells, Finset.mem_Ico] at hna
  rw [Finset.mem_range]
  omega

end Lib.Packing
