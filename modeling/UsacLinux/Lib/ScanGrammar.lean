import UsacLinux.Lib.Scan
import Mathlib.Data.List.TakeWhile

/-!
# The texts a format reads completely

`Matches format ns text` is the grammar of a format: blanks where the format
allows them, its literals, and maximal runs of digits for its conversions. The
reader assigns all variables exactly on the texts of this grammar, and assigns
the numbers the text spells; a number printed in decimal is read back.
-/

namespace Lib.Scan
open Lib.ByteMemory

/-- `text` does not go on with a byte of the class `p`. -/
def Ends (p : Byte → Bool) (text : List Byte) : Prop := ∀ b ∈ text.head?, p b = false

/-- `ns` are the numbers in front of the part of `text` the format does not reach. -/
inductive Matches : List Directive → List ℕ → List Byte → Prop where
  | nil (rest : List Byte) : Matches [] [] rest
  | space {format : List Directive} {ns : List ℕ} {rest : List Byte} (ws : List Byte)
      (hws : ∀ b ∈ ws, isSpace b = true) (hrest : Ends isSpace rest)
      (h : Matches format ns rest) : Matches (.space :: format) ns (ws ++ rest)
  | literal {format : List Directive} {ns : List ℕ} {rest : List Byte} (b : Byte)
      (h : Matches format ns rest) : Matches (.literal b :: format) ns (b :: rest)
  | unsigned {format : List Directive} {ns : List ℕ} {rest : List Byte} (ws ds : List Byte)
      (hws : ∀ b ∈ ws, isSpace b = true) (hds : ∀ b ∈ ds, isDigit b = true) (hne : ds ≠ [])
      (hrest : Ends isDigit rest) (h : Matches format ns rest) :
      Matches (.unsigned :: format) (decimal ds :: ns) (ws ++ (ds ++ rest))

theorem Matches.length_eq {format : List Directive} {ns : List ℕ} {text : List Byte}
    (h : Matches format ns text) : ns.length = conversions format := by
  unfold conversions
  induction h with
  | nil => rfl
  | space ws hws hrest h ih => rw [List.count_cons_of_ne (by simp), ih]
  | literal b h ih => rw [List.count_cons_of_ne (by simp), ih]
  | unsigned ws ds hws hds hne hrest h ih => rw [List.length_cons, List.count_cons_self, ih]

/-! ### Runs of one class of bytes -/

theorem dropWhile_of_ends {p : Byte → Bool} {text : List Byte} (h : Ends p text) :
    text.dropWhile p = text := by
  cases text with
  | nil => rfl
  | cons b text => rw [List.dropWhile_cons_of_neg]; simp [h b rfl]

theorem takeWhile_of_ends {p : Byte → Bool} {text : List Byte} (h : Ends p text) :
    text.takeWhile p = [] := by
  cases text with
  | nil => rfl
  | cons b text => rw [List.takeWhile_cons_of_neg]; simp [h b rfl]

theorem dropWhile_run {p : Byte → Bool} {run rest : List Byte} (hrun : ∀ b ∈ run, p b = true)
    (hrest : Ends p rest) : (run ++ rest).dropWhile p = rest := by
  rw [List.dropWhile_append_of_pos hrun, dropWhile_of_ends hrest]

theorem takeWhile_run {p : Byte → Bool} {run rest : List Byte} (hrun : ∀ b ∈ run, p b = true)
    (hrest : Ends p rest) : (run ++ rest).takeWhile p = run := by
  rw [List.takeWhile_append_of_pos hrun, takeWhile_of_ends hrest, List.append_nil]

theorem ends_dropWhile (p : Byte → Bool) (text : List Byte) : Ends p (text.dropWhile p) := by
  intro b hb
  have h := List.head?_dropWhile_not p text
  rw [Option.mem_def.mp hb] at h
  exact h

theorem isSpace_of_isDigit {b : Byte} (h : isDigit b = true) : isSpace b = false := by
  simp only [isDigit, isSpace, decide_eq_true_eq, decide_eq_false_iff_not] at h ⊢
  omega

theorem ends_isSpace_digits {ds rest : List Byte} (hds : ∀ b ∈ ds, isDigit b = true)
    (hne : ds ≠ []) : Ends isSpace (ds ++ rest) := by
  cases ds with
  | nil => exact absurd rfl hne
  | cons d ds =>
    intro b hb
    cases hb
    exact isSpace_of_isDigit (hds d (by simp))

/-! ### Formats up to their last conversion -/

/-- What stands behind the last conversion assigns nothing. -/
def lead : List Directive → List Directive
  | [] => []
  | d :: format => if .unsigned ∈ d :: format then d :: lead format else []

theorem scan_eq_nil {w : ℕ} {format : List Directive} (h : .unsigned ∉ format) (text : List Byte) :
    scan w format text = [] := by
  have hle := scan_length_le w format text
  rw [conversions, List.count_eq_zero.mpr h] at hle
  exact List.eq_nil_of_length_eq_zero (by omega)

theorem scan_of_lead {w : ℕ} {format : List Directive} {ns : List ℕ} {text : List Byte}
    (h : Matches (lead format) ns text) : scan w format text = ns.map (BitVec.ofNat w) := by
  induction format generalizing ns text with
  | nil =>
    cases h
    rfl
  | cons d format ih =>
    rw [lead] at h
    split at h
    · cases h with
      | space ws hws hrest h => rw [scan, dropWhile_run hws hrest, ih h]
      | literal b h => rw [scan, if_pos rfl, ih h]
      | unsigned ws ds hws hds hne hrest h =>
        rw [scan]
        simp only [dropWhile_run hws (ends_isSpace_digits hds hne), takeWhile_run hds hrest,
          dropWhile_run hds hrest, if_neg hne, List.map_cons, ih h]
    next hno =>
      cases h
      exact scan_eq_nil hno text

theorem lead_of_scan {w : ℕ} {format : List Directive} {text : List Byte}
    (h : (scan w format text).length = conversions format) : ∃ ns, Matches (lead format) ns text := by
  induction format generalizing text with
  | nil => exact ⟨[], .nil text⟩
  | cons d format ih =>
    rw [lead]
    split
    next hu =>
      have hpos : 0 < conversions (d :: format) := List.count_pos_iff.mpr hu
      cases d with
      | space =>
        rw [scan, conversions, List.count_cons_of_ne (by simp)] at h
        obtain ⟨ns, hm⟩ := ih h
        have hs := Matches.space (text.takeWhile isSpace) (fun b => List.mem_takeWhile_imp)
          (ends_dropWhile isSpace text) hm
        rw [List.takeWhile_append_dropWhile] at hs
        exact ⟨ns, hs⟩
      | literal b =>
        cases text with
        | nil =>
          rw [scan, List.length_nil] at h
          omega
        | cons c text =>
          rw [scan] at h
          split at h
          next hc =>
            subst hc
            rw [conversions, List.count_cons_of_ne (by simp)] at h
            obtain ⟨ns, hm⟩ := ih h
            exact ⟨ns, .literal c hm⟩
          · rw [List.length_nil] at h
            omega
      | unsigned =>
        rw [scan] at h
        split at h
        · rw [List.length_nil] at h
          omega
        next hne =>
          rw [conversions, List.count_cons_self, List.length_cons, Nat.add_right_cancel_iff] at h
          obtain ⟨ns, hm⟩ := ih h
          have hs := Matches.unsigned (text.takeWhile isSpace) _ (fun b => List.mem_takeWhile_imp)
            (fun b => List.mem_takeWhile_imp) hne (ends_dropWhile isDigit _) hm
          rw [List.takeWhile_append_dropWhile, List.takeWhile_append_dropWhile] at hs
          exact ⟨_, hs⟩
    next => exact ⟨[], .nil text⟩

theorem conversions_lead (format : List Directive) : conversions (lead format) = conversions format := by
  induction format with
  | nil => rfl
  | cons d format ih =>
    rw [lead]
    split
    next => rw [conversions, conversions, List.count_cons, List.count_cons, ← conversions, ih, conversions]
    next hno => rw [conversions, conversions, List.count_eq_zero.mpr hno, List.count_nil]

/-- All variables are assigned exactly when the text spells the format. -/
theorem scan_complete_iff (w : ℕ) (format : List Directive) (text : List Byte) :
    (scan w format text).length = conversions format ↔ ∃ ns, Matches (lead format) ns text := by
  refine ⟨lead_of_scan, ?_⟩
  rintro ⟨ns, hm⟩
  rw [scan_of_lead hm, List.length_map, hm.length_eq, conversions_lead]

theorem kernel_assigned (w : ℕ) : (Scanner.kernel w).assigned = scan w := rfl

/-! ### Numbers in decimal -/

/-- A number as `%llu` prints it. -/
def decimalText (n : ℕ) : List Byte := chars (Nat.toDigits 10 n)

theorem decimalText_eq (n : ℕ) : decimalText n =
    if n < 10 then [BitVec.ofNat 8 (48 + n)]
    else decimalText (n / 10) ++ [BitVec.ofNat 8 (48 + n % 10)] := by
  unfold decimalText
  rw [Nat.toDigits_eq_if (by omega)]
  split
  next h => rw [chars, List.map_singleton, Nat.toNat_digitChar_of_lt_ten h]
  next =>
    rw [chars, List.map_append, List.map_singleton,
      Nat.toNat_digitChar_of_lt_ten (Nat.mod_lt n (by omega)), chars]

theorem digit_toNat {d : ℕ} (h : d < 10) : (BitVec.ofNat 8 (48 + d)).toNat = 48 + d := by
  rw [BitVec.toNat_ofNat]
  omega

theorem isDigit_decimalText (n : ℕ) : ∀ b ∈ decimalText n, isDigit b = true := by
  induction n using Nat.strong_induction_on with
  | _ n ih =>
    intro b hb
    have hdigit {d : ℕ} (hd : d < 10) : isDigit (BitVec.ofNat 8 (48 + d)) = true := by
      rw [isDigit, digit_toNat hd, decide_eq_true_eq]
      omega
    rw [decimalText_eq] at hb
    split at hb
    next h =>
      rw [List.mem_singleton.mp hb]
      exact hdigit h
    next h =>
      rcases List.mem_append.mp hb with hb | hb
      · exact ih (n / 10) (by omega) b hb
      · rw [List.mem_singleton.mp hb]
        exact hdigit (Nat.mod_lt n (by omega))

theorem decimalText_ne_nil (n : ℕ) : decimalText n ≠ [] := by
  rw [decimalText_eq]
  split
  · simp
  · simp

/-- Reading a printed number gives it back. -/
theorem decimal_decimalText (n : ℕ) : decimal (decimalText n) = n := by
  induction n using Nat.strong_induction_on with
  | _ n ih =>
    rw [decimalText_eq]
    split
    next h =>
      simp only [decimal, List.foldl_cons, List.foldl_nil, digit_toNat h]
      omega
    next h =>
      have hr := ih (n / 10) (by omega)
      rw [decimal] at hr ⊢
      rw [List.foldl_append, hr]
      simp only [List.foldl_cons, List.foldl_nil, digit_toNat (Nat.mod_lt n (show 0 < 10 by omega))]
      omega

theorem decimalText_length_le {n k : ℕ} (hk : 0 < k) (h : n < 10 ^ k) : (decimalText n).length ≤ k := by
  rw [decimalText, chars, List.length_map]
  exact (Nat.length_toDigits_le_iff (by omega) hk).mpr h

theorem digit_ne_zero {b : Byte} (h : isDigit b = true) : b ≠ 0 := by
  rintro rfl
  exact absurd h (by decide)

/-! ### Building texts of a format -/

section Building

variable {format : List Directive} {ns : List ℕ} {rest : List Byte}

theorem Matches.literals (cs : List Char) (h : Matches format ns rest) :
    Matches (Scan.literals cs ++ format) ns (chars cs ++ rest) := by
  induction cs with
  | nil => exact h
  | cons c cs ih => exact .literal _ ih

theorem Matches.blank (h : Matches (.space :: format) ns rest) :
    Matches (.space :: format) ns (32 :: rest) := by
  cases h with
  | space ws hws hrest h =>
    refine .space (32 :: ws) (fun b hb => ?_) hrest h
    rcases List.mem_cons.mp hb with rfl | hb
    · decide
    · exact hws b hb

/-- A printed number behind blanks, where the format has white space and a
conversion. -/
theorem Matches.number (blanks n : ℕ) (hrest : Ends isDigit rest) (h : Matches format ns rest) :
    Matches (.space :: .unsigned :: format) (n :: ns)
      (List.replicate blanks 32 ++ (decimalText n ++ rest)) := by
  have hd := isDigit_decimalText n
  have hu := Matches.unsigned [] (decimalText n) (by simp) hd (decimalText_ne_nil n) hrest h
  rw [decimal_decimalText, List.nil_append] at hu
  refine .space _ (fun b hb => ?_) (ends_isSpace_digits hd (decimalText_ne_nil n)) hu
  rw [(List.mem_replicate.mp hb).2]
  decide

end Building

end Lib.Scan
