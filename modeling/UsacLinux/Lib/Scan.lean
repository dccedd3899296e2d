import UsacLinux.Lib.ByteMemory

/-!
# Formatted input

Formats of literal bytes, white space and unsigned decimal conversions, read as
the `sscanf` of C reads them. Conversions are assigned from left to right until
the text stops matching; the variables of those not reached keep what they held.
-/

namespace Lib.Scan
open Lib.ByteMemory

inductive Directive where
  | space
  | literal (b : Byte)
  | unsigned
  deriving DecidableEq, Repr

/-- Number of variables a format assigns when the whole text matches. -/
def conversions (format : List Directive) : ℕ := format.count .unsigned

/-- A reader of formats: the values assigned to the first variables. -/
structure Scanner (w : ℕ) where
  assigned : List Directive → List Byte → List (BitVec w)
  length_le : ∀ format text, (assigned format text).length ≤ conversions format

/-! ### The reader of the kernel -/

/-- Tab to carriage return, blank, and the no-break space of Latin-1. -/
def isSpace (b : Byte) : Bool := decide (9 ≤ b.toNat ∧ b.toNat ≤ 13 ∨ b.toNat = 32 ∨ b.toNat = 160)

def isDigit (b : Byte) : Bool := decide (48 ≤ b.toNat ∧ b.toNat ≤ 57)

def decimal (digits : List Byte) : ℕ := digits.foldl (fun v d => 10 * v + (d.toNat - 48)) 0

/-- Values too large for the word are reduced modulo 2^w. -/
def scan (w : ℕ) : List Directive → List Byte → List (BitVec w)
  | [], _ => []
  | .space :: format, text => scan w format (text.dropWhile isSpace)
  | .literal _ :: _, [] => []
  | .literal b :: format, c :: text => if c = b then scan w format text else []
  | .unsigned :: format, text =>
    let field := text.dropWhile isSpace
    let digits := field.takeWhile isDigit
    if digits = [] then []
    else BitVec.ofNat w (decimal digits) :: scan w format (field.dropWhile isDigit)

theorem scan_length_le (w : ℕ) (format : List Directive) (text : List Byte) :
    (scan w format text).length ≤ conversions format := by
  unfold conversions
  induction format generalizing text with
  | nil => simp [scan]
  | cons d format ih =>
    cases d with
    | space =>
      rw [scan, List.count_cons_of_ne (by simp)]
      exact ih _
    | literal b =>
      rw [List.count_cons_of_ne (by simp)]
      cases text with
      | nil => simp [scan]
      | cons c text =>
        rw [scan]
        split
        · exact ih text
        · simp
    | unsigned =>
      rw [scan, List.count_cons_self]
      split
      · simp
      · rw [List.length_cons]
        exact Nat.succ_le_succ (ih _)

def Scanner.kernel (w : ℕ) : Scanner w := ⟨scan w, scan_length_le w⟩

/-! ### C strings -/

/-- The bytes before the first NUL. -/
def cString (bytes : List Byte) : List Byte := bytes.takeWhile fun b => decide (b ≠ 0)

def chars (cs : List Char) : List Byte := cs.map fun c => BitVec.ofNat 8 c.toNat

def literals (cs : List Char) : List Directive := (chars cs).map .literal

end Lib.Scan
