import Mathlib.Data.List.Basic
import Mathlib.Logic.Function.Basic
import Mathlib.Tactic.Ring

/-!
# Byte-addressed memory with little-endian words

A memory is a total map from addresses to bytes. Words are stored and loaded
least significant byte first, and C structures are laid out field by field,
each one rounded up to its alignment. Output of a program is a log of byte
writes, replayed on a memory by `commit`.
-/

namespace Lib.ByteMemory

abbrev Byte := BitVec 8
abbrev Memory := ℕ → Byte

/-! ### Words -/

/-- Byte `i` of a word, least significant byte first. -/
def byteOf {w : ℕ} (v : BitVec w) (i : ℕ) : Byte := v.extractLsb' (8 * i) 8

/-- Value of the `n` bytes from address `a` on. -/
def loadNat (mem : Memory) : ℕ → ℕ → ℕ
  | _, 0 => 0
  | a, n + 1 => (mem a).toNat + 256 * loadNat mem (a + 1) n

/-- The `w`-bit word whose bytes start at address `a`. -/
def load (w : ℕ) (mem : Memory) (a : ℕ) : BitVec w := BitVec.ofNat w (loadNat mem a ((w + 7) / 8))

/-- Store the low `n` bytes of a word at address `a`. -/
def store {w : ℕ} (n : ℕ) (mem : Memory) (a : ℕ) (v : BitVec w) : Memory := fun x =>
  if a ≤ x ∧ x < a + n then byteOf v (x - a) else mem x

/-- The first `n` bytes of a word, in memory order. -/
def wordBytes {w : ℕ} (n : ℕ) (v : BitVec w) : List Byte := (List.range n).map (byteOf v)

@[simp] theorem wordBytes_length {w : ℕ} (n : ℕ) (v : BitVec w) : (wordBytes n v).length = n := by
  simp [wordBytes]

theorem byteOf_toNat {w : ℕ} (v : BitVec w) (i : ℕ) :
    (byteOf v i).toNat = v.toNat / 256 ^ i % 256 := by
  have hp : (2 : ℕ) ^ (8 * i) = 256 ^ i := by rw [pow_mul]; norm_num
  simp only [byteOf, BitVec.extractLsb'_toNat, Nat.shiftRight_eq_div_pow, hp, Nat.reducePow]

/- The bytes of `v` from position `k` on are the base-256 digits of `v / 256 ^ k`. -/
theorem loadNat_bytes {w : ℕ} (v : BitVec w) (mem : Memory) (a k n : ℕ)
    (h : ∀ i < n, mem (a + i) = byteOf v (k + i)) :
    loadNat mem a n = v.toNat / 256 ^ k % 256 ^ n := by
  induction n generalizing a k with
  | zero => simp [loadNat, Nat.mod_one]
  | succ n ih =>
    have h0 : mem a = byteOf v k := h 0 (by omega)
    have hr := ih (a + 1) (k + 1) (fun i hi => by
      have hs := h (i + 1) (by omega)
      rwa [show a + (i + 1) = a + 1 + i by omega, show k + (i + 1) = k + 1 + i by omega] at hs)
    rw [loadNat, h0, hr, byteOf_toNat, pow_succ 256 k, ← Nat.div_div_eq_div_mul,
      pow_succ' 256 n, Nat.mod_mul]

/- The only rule a load needs: it returns the word whose bytes it finds. -/
theorem load_of_bytes {w : ℕ} (mem : Memory) (a : ℕ) (v : BitVec w)
    (h : ∀ i, 8 * i < w → mem (a + i) = byteOf v i) : load w mem a = v := by
  have hn := loadNat_bytes v mem a 0 ((w + 7) / 8) (fun i hi => by
    rw [Nat.zero_add]
    exact h i (by omega))
  have hle : 2 ^ w ≤ 256 ^ ((w + 7) / 8) := by
    rw [show (256 : ℕ) = 2 ^ 8 by norm_num, ← pow_mul]
    exact Nat.pow_le_pow_right (by omega) (by omega)
  have hv := v.isLt
  rw [pow_zero, Nat.div_one, Nat.mod_eq_of_lt (by omega)] at hn
  rw [load, hn]
  exact BitVec.ofNat_toNat w v |>.trans (BitVec.setWidth_eq v)

theorem loadNat_congr (m m' : Memory) (a a' n : ℕ) (h : ∀ i < n, m (a + i) = m' (a' + i)) :
    loadNat m a n = loadNat m' a' n := by
  induction n generalizing a a' with
  | zero => rfl
  | succ n ih =>
    have h0 : m a = m' a' := h 0 (by omega)
    have hr := ih (a + 1) (a' + 1) (fun i hi => by
      have hs := h (i + 1) (by omega)
      rwa [show a + (i + 1) = a + 1 + i by omega, show a' + (i + 1) = a' + 1 + i by omega] at hs)
    rw [loadNat, loadNat, h0, hr]

theorem load_congr (w : ℕ) (m m' : Memory) (a a' : ℕ)
    (h : ∀ i, 8 * i < w → m (a + i) = m' (a' + i)) : load w m a = load w m' a' := by
  rw [load, load, loadNat_congr m m' a a' _ (fun i hi => h i (by omega))]

theorem store_inside {w : ℕ} (n : ℕ) (mem : Memory) (a : ℕ) (v : BitVec w) (i : ℕ) (hi : i < n) :
    store n mem a v (a + i) = byteOf v i := by
  have hx : a ≤ a + i ∧ a + i < a + n := by omega
  simp only [store, hx, and_self, ite_true, Nat.add_sub_cancel_left]

theorem store_outside {w : ℕ} (n : ℕ) (mem : Memory) (a : ℕ) (v : BitVec w) (x : ℕ)
    (hx : x < a ∨ a + n ≤ x) : store n mem a v x = mem x := by
  have hn : ¬(a ≤ x ∧ x < a + n) := by omega
  simp only [store, hn, ite_false]

/-! ### Logs of byte writes -/

/-- Consecutive byte writes starting at address `a`. -/
def place : ℕ → List Byte → List (ℕ × Byte)
  | _, [] => []
  | a, b :: bs => (a, b) :: place (a + 1) bs

/-- Memory after a log of byte writes, the oldest write first. -/
def commit (mem : Memory) (log : List (ℕ × Byte)) : Memory :=
  log.foldl (fun m w => Function.update m w.1 w.2) mem

theorem commit_append (mem : Memory) (l r : List (ℕ × Byte)) :
    commit mem (l ++ r) = commit (commit mem l) r := by
  simp only [commit, List.foldl_append]

theorem commit_untouched (mem : Memory) (log : List (ℕ × Byte)) (x : ℕ)
    (h : ∀ w ∈ log, w.1 ≠ x) : commit mem log x = mem x := by
  induction log generalizing mem with
  | nil => rfl
  | cons w ws ih =>
    have hw : x ≠ w.1 := (h w (List.mem_cons_self ..)).symm
    have hr := ih (Function.update mem w.1 w.2) (fun y hy => h y (List.mem_cons_of_mem _ hy))
    show commit (Function.update mem w.1 w.2) ws x = mem x
    rw [hr, Function.update_of_ne hw]

@[simp] theorem place_length (a : ℕ) (bs : List Byte) : (place a bs).length = bs.length := by
  induction bs generalizing a with
  | nil => rfl
  | cons b bs ih => simp [place, ih]

theorem place_addr {a : ℕ} {bs : List Byte} {w : ℕ × Byte} (h : w ∈ place a bs) :
    a ≤ w.1 ∧ w.1 < a + bs.length := by
  induction bs generalizing a with
  | nil => cases h
  | cons b bs ih =>
    simp only [place, List.mem_cons] at h
    rcases h with rfl | h
    · simp
    · have hr := ih h
      simp only [List.length_cons]
      omega

theorem mem_place_addr (a : ℕ) (bs : List Byte) (x : ℕ) (hx : a ≤ x ∧ x < a + bs.length) :
    ∃ w ∈ place a bs, w.1 = x := by
  induction bs generalizing a with
  | nil => simp only [List.length_nil] at hx; omega
  | cons b bs ih =>
    simp only [List.length_cons] at hx
    by_cases hxa : x = a
    · exact ⟨(a, b), by simp [place], hxa.symm⟩
    · obtain ⟨w, hw, he⟩ := ih (a + 1) (by omega)
      exact ⟨w, by simp [place, hw], he⟩

theorem place_map_snd (a : ℕ) (bs : List Byte) : (place a bs).map Prod.snd = bs := by
  induction bs generalizing a with
  | nil => rfl
  | cons b bs ih => simp [place, ih]

theorem commit_place (mem : Memory) (a : ℕ) (bs : List Byte) (i : ℕ) (hi : i < bs.length) :
    commit mem (place a bs) (a + i) = bs[i] := by
  induction bs generalizing mem a i with
  | nil => simp at hi
  | cons b bs ih =>
    show commit (Function.update mem a b) (place (a + 1) bs) (a + i) = (b :: bs)[i]
    cases i with
    | zero =>
      rw [commit_untouched]
      · simp
      · intro w hw
        have := place_addr hw
        omega
    | succ i =>
      have hr := ih (Function.update mem a b) (a + 1) i (by simpa using hi)
      have ha : a + (i + 1) = a + 1 + i := by omega
      rw [ha, hr, List.getElem_cons_succ]

/-- The `n` bytes found from address `a` on. -/
def slice (mem : Memory) (a n : ℕ) : List Byte := (List.range n).map fun i => mem (a + i)

@[simp] theorem slice_length (mem : Memory) (a n : ℕ) : (slice mem a n).length = n := by
  simp [slice]

theorem slice_getElem (mem : Memory) (a n i : ℕ) (hi : i < (slice mem a n).length) :
    (slice mem a n)[i] = mem (a + i) := by
  simp [slice]

theorem slice_take (mem : Memory) (a n k : ℕ) : (slice mem a n).take k = slice mem a (min k n) := by
  simp [slice, ← List.map_take, List.take_range]

theorem slice_inj (m m' : Memory) (a n : ℕ) :
    slice m a n = slice m' a n ↔ ∀ i < n, m (a + i) = m' (a + i) := by
  simp [slice, List.map_inj_left]

/- A word read back from a place where a whole block was copied is the word
the block held at the same offset. -/
theorem load_commit_slice (w : ℕ) (mem block : Memory) (a src n off : ℕ)
    (h : ∀ i, 8 * i < w → off + i < n) :
    load w (commit mem (place a (slice block src n))) (a + off) = load w block (src + off) := by
  apply load_congr
  intro i hi
  have hlt : off + i < (slice block src n).length := by rw [slice_length]; exact h i hi
  rw [Nat.add_assoc, commit_place mem a _ (off + i) hlt, slice_getElem, Nat.add_assoc]

/- A word written in the middle of a longer sequence of bytes. -/
theorem load_commit_word {w : ℕ} (n : ℕ) (mem : Memory) (a : ℕ) (pre post : List Byte)
    (v : BitVec w) (hw : w ≤ 8 * n) :
    load w (commit mem (place a (pre ++ (wordBytes n v ++ post)))) (a + pre.length) = v := by
  apply load_of_bytes
  intro i hi
  have hin : i < n := by omega
  have hlt : pre.length + i < (pre ++ (wordBytes n v ++ post)).length := by
    simp only [List.length_append, wordBytes_length]
    omega
  rw [Nat.add_assoc, commit_place mem a _ _ hlt, List.getElem_append_right (by omega),
    List.getElem_append_left (by rw [wordBytes_length]; omega)]
  simp [wordBytes]

/-! ### Members one after the other -/

/-- The value of a structure member with its size in bytes. -/
structure SizedWord where
  bytes : ℕ
  value : BitVec (8 * bytes)

/-- Members stored with no gap between them. -/
def wordsBytes (ws : List SizedWord) : List Byte := ws.flatMap fun w => wordBytes w.bytes w.value

def wordsOffset : List SizedWord → ℕ → ℕ
  | w :: ws, k + 1 => w.bytes + wordsOffset ws k
  | _, _ => 0

theorem wordsBytes_cons (w : SizedWord) (ws : List SizedWord) :
    wordsBytes (w :: ws) = wordBytes w.bytes w.value ++ wordsBytes ws := List.flatMap_cons

/- Every member is read back from its offset, wherever the structure stands in
a longer sequence of bytes. -/
theorem load_commit_words (mem : Memory) (a : ℕ) (pre : List Byte) (ws : List SizedWord)
    (post : List Byte) (k : ℕ) (w : SizedWord) (hk : ws[k]? = some w) :
    load (8 * w.bytes) (commit mem (place a (pre ++ (wordsBytes ws ++ post))))
      (a + pre.length + wordsOffset ws k) = w.value := by
  induction ws generalizing pre k with
  | nil => simp at hk
  | cons v ws ih =>
    rw [wordsBytes_cons, List.append_assoc]
    cases k with
    | zero =>
      obtain rfl : v = w := by simpa using hk
      exact load_commit_word v.bytes mem a pre (wordsBytes ws ++ post) v.value le_rfl
    | succ k =>
      have h := ih (pre ++ wordBytes v.bytes v.value) k (by simpa using hk)
      rwa [List.append_assoc, List.length_append, wordBytes_length, ← Nat.add_assoc a,
        Nat.add_assoc (a + pre.length)] at h

theorem load_words (mem : Memory) (a : ℕ) (ws : List SizedWord) (k : ℕ) (w : SizedWord)
    (hk : ws[k]? = some w) :
    load (8 * w.bytes) (commit mem (place a (wordsBytes ws))) (a + wordsOffset ws k) = w.value := by
  have h := load_commit_words mem a [] ws [] k w hk
  rwa [List.nil_append, List.append_nil, List.length_nil, Nat.add_zero] at h

/-! ### Structure layout -/

/-- Size and alignment of one structure member, in bytes. -/
structure Member where
  size : ℕ
  align : ℕ
  deriving DecidableEq, Repr

def roundUp (n a : ℕ) : ℕ := (n + a - 1) / a * a

/-- Offsets of the members when the first one may start at `next`. -/
def offsetsFrom : ℕ → List Member → List ℕ
  | _, [] => []
  | next, m :: ms => roundUp next m.align :: offsetsFrom (roundUp next m.align + m.size) ms

/-- End of the last member when the first one may start at `next`. -/
def extentFrom : ℕ → List Member → ℕ
  | next, [] => next
  | next, m :: ms => extentFrom (roundUp next m.align + m.size) ms

def offsetOf (ms : List Member) (i : ℕ) : ℕ := (offsetsFrom 0 ms).getD i 0
def sizeOfStruct (ms : List Member) : ℕ :=
  roundUp (extentFrom 0 ms) ((ms.map Member.align).foldl max 1)

end Lib.ByteMemory
