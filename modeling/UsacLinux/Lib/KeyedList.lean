import Mathlib.Data.List.Nodup
import Mathlib.Data.List.Perm.Basic
import Mathlib.Data.List.Perm.Lattice

/-!
# Lists searched by key

A list of records is searched from its head for the first record with a given
key. When keys are distinct the list is a finite map, and two lists with the
same map are permutations of each other.
-/

namespace Lib.KeyedList

variable {α κ : Type*} [DecidableEq κ] (key : α → κ)

/-- First record with key `k`. -/
def findKey (k : κ) (l : List α) : Option α := l.find? fun e => decide (key e = k)

/-- Change the first record with key `k`; `none` when there is none. -/
def assignFirst (k : κ) (f : α → α) : List α → Option (List α)
  | [] => none
  | e :: es => if key e = k then some (f e :: es) else (assignFirst k f es).map (e :: ·)

theorem findKey_cons (k : κ) (e : α) (l : List α) :
    findKey key k (e :: l) = if key e = k then some e else findKey key k l := by
  by_cases h : key e = k <;> simp [findKey, h]

theorem findKey_eq_none (k : κ) (l : List α) :
    findKey key k l = none ↔ k ∉ l.map key := by
  simp [findKey, List.find?_eq_none]

theorem findKey_key {k : κ} {l : List α} {e : α} (h : findKey key k l = some e) : key e = k := by
  simpa using List.find?_some h

theorem findKey_mem {k : κ} {l : List α} {e : α} (h : findKey key k l = some e) : e ∈ l :=
  List.mem_of_find?_eq_some h

theorem assignFirst_none_iff (k : κ) (f : α → α) (l : List α) :
    assignFirst key k f l = none ↔ k ∉ l.map key := by
  induction l with
  | nil => simp [assignFirst]
  | cons e es ih =>
    by_cases h : key e = k
    · simp [assignFirst, h]
    · simp [assignFirst, h, ih, Ne.symm h]

/-- What an assignment does to the list it finds the key in. -/
theorem assignFirst_split {k : κ} {f : α → α} {l l' : List α} (h : assignFirst key k f l = some l') :
    ∃ pre e post, l = pre ++ e :: post ∧ l' = pre ++ f e :: post ∧ key e = k ∧ k ∉ pre.map key := by
  induction l generalizing l' with
  | nil => simp [assignFirst] at h
  | cons e es ih =>
    by_cases he : key e = k
    · have hl : f e :: es = l' := by simpa [assignFirst, he] using h
      exact ⟨[], e, es, rfl, hl.symm, he, by simp⟩
    · simp only [assignFirst, he, ite_false, Option.map_eq_some_iff] at h
      obtain ⟨r, hr, rfl⟩ := h
      obtain ⟨pre, x, post, hl, hl', hx, hpre⟩ := ih hr
      refine ⟨e :: pre, x, post, by rw [hl]; rfl, by rw [hl']; rfl, hx, ?_⟩
      simp only [List.map_cons, List.mem_cons, not_or]
      exact ⟨Ne.symm he, hpre⟩

/- An assignment at the place where a search from the head stops. -/
theorem assignFirst_modify {k : κ} (f : α → α) {l es : List α} {n : ℕ} {e : α}
    (hd : l.drop n = e :: es) (he : key e = k) (hpre : k ∉ (l.take n).map key) :
    assignFirst key k f l = some (l.modify n f) := by
  induction l generalizing n with
  | nil => simp at hd
  | cons x xs ih =>
    cases n with
    | zero =>
      obtain ⟨rfl, rfl⟩ := List.cons.inj hd
      simp [assignFirst, he]
    | succ n =>
      simp only [List.take_succ_cons, List.map_cons, List.mem_cons, not_or] at hpre
      rw [assignFirst, if_neg (Ne.symm hpre.1), ih hd hpre.2]
      rfl

theorem assignFirst_append {k : κ} (f : α → α) {pre post : List α} {e : α} (he : key e = k)
    (hpre : k ∉ pre.map key) :
    assignFirst key k f (pre ++ e :: post) = some (pre ++ f e :: post) := by
  induction pre with
  | nil => simp [assignFirst, he]
  | cons x xs ih =>
    rw [List.map_cons, List.mem_cons, not_or] at hpre
    simp [assignFirst, Ne.symm hpre.1, ih hpre.2]

theorem assignFirst_keys {k : κ} {f : α → α} {l l' : List α} (hf : ∀ e, key (f e) = key e)
    (h : assignFirst key k f l = some l') : l'.map key = l.map key := by
  obtain ⟨pre, e, post, rfl, rfl, -, -⟩ := assignFirst_split key h
  simp [hf]

theorem findKey_assignFirst {k : κ} {f : α → α} {l l' : List α} (hf : ∀ e, key (f e) = key e)
    (h : assignFirst key k f l = some l') (j : κ) :
    findKey key j l' = if j = k then (findKey key j l).map f else findKey key j l := by
  obtain ⟨pre, e, post, rfl, rfl, he, hpre⟩ := assignFirst_split key h
  clear h
  induction pre with
  | nil =>
    simp only [List.nil_append, findKey_cons, hf, he]
    by_cases hj : j = k
    · simp [hj]
    · simp [hj, Ne.symm hj]
  | cons x xs ih =>
    simp only [List.map_cons, List.mem_cons, not_or] at hpre
    simp only [List.cons_append, findKey_cons, ih hpre.2]
    by_cases hx : key x = j
    · have hj : j ≠ k := fun hc => hpre.1 (hx.trans hc).symm
      simp [hx, hj]
    · simp [hx]

/-! ### Distinct keys -/

theorem findKey_of_mem {l : List α} (hn : (l.map key).Nodup) {e : α} (he : e ∈ l) :
    findKey key (key e) l = some e := by
  induction l with
  | nil => cases he
  | cons x xs ih =>
    simp only [List.map_cons, List.nodup_cons] at hn
    rw [findKey_cons]
    rcases List.mem_cons.mp he with rfl | hx
    · simp
    · have hne : key x ≠ key e := fun hc => hn.1 (hc ▸ List.mem_map_of_mem hx)
      simp [hne, ih hn.2 hx]

theorem mem_iff_findKey {l : List α} (hn : (l.map key).Nodup) (e : α) :
    e ∈ l ↔ findKey key (key e) l = some e :=
  ⟨findKey_of_mem key hn, findKey_mem key⟩

/- With distinct keys an assignment is a map over the whole list. -/
theorem assignFirst_eq_map {k : κ} {f : α → α} {l l' : List α} (hn : (l.map key).Nodup)
    (h : assignFirst key k f l = some l') :
    l' = l.map fun e => if key e = k then f e else e := by
  obtain ⟨pre, x, post, rfl, rfl, rfl, hpre⟩ := assignFirst_split key h
  have hpost : key x ∉ post.map key := by
    rw [List.map_append, List.map_cons] at hn
    exact (List.nodup_cons.mp (List.nodup_append.mp hn).2.1).1
  have hkeep : ∀ es : List α, key x ∉ es.map key →
      (es.map fun e => if key e = key x then f e else e) = es := by
    intro es hes
    refine (List.map_congr_left fun e he => if_neg ?_).trans (List.map_id' es)
    exact fun hc => hes (hc ▸ List.mem_map_of_mem he)
  rw [List.map_append, List.map_cons, hkeep pre hpre, hkeep post hpost, if_pos rfl]

theorem perm_of_findKey {l r : List α} (hl : (l.map key).Nodup) (hr : (r.map key).Nodup)
    (h : ∀ k, findKey key k l = findKey key k r) : l.Perm r := by
  apply (List.perm_ext_iff_of_nodup (List.Nodup.of_map key hl) (List.Nodup.of_map key hr)).mpr
  intro e
  rw [mem_iff_findKey key hl, mem_iff_findKey key hr, h]

end Lib.KeyedList
