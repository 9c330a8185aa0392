import Mathlib.Algebra.Order.Group.Int
import Mathlib.Algebra.Ring.Int.Defs
import Mathlib.Algebra.Ring.Nat

/-! # Integers as text

What `printf` writes for an integer, and what `strtoll` with base 0 reads.
-/

namespace Jump.Core.Strtoll

/-! ## Writing -/

/-- `%u` and `%lu` -/
def printNat (n : Nat) : List Char := Nat.toDigits 10 n

/-- `%d` and `%ld` -/
def printInt (z : Int) : List Char := if z < 0 then '-' :: printNat z.natAbs else printNat z.natAbs

/-! ## Reading -/

/-- `isspace` -/
def isSpace (c : Char) : Bool := c = ' ' ∨ ('\t'.toNat ≤ c.toNat ∧ c.toNat ≤ '\r'.toNat)

def digitValue (c : Char) : Option Nat :=
  if c.isDigit then some (c.toNat - '0'.toNat)
  else if c.isLower then some (c.toNat - 'a'.toNat + 10)
  else if c.isUpper then some (c.toNat - 'A'.toNat + 10)
  else none

/-- The number that the digits in front make, behind the number `n`. -/
def readDigits (base : Nat) : Nat → List Char → Nat
  | n, [] => n
  | n, c :: cs =>
    match digitValue c with
    | some d => if d < base then readDigits base (base * n + d) cs else n
    | none => n

/-- The sign, and what is behind it. -/
def readSign : List Char → Bool × List Char
  | '-' :: cs => (true, cs)
  | '+' :: cs => (false, cs)
  | cs => (false, cs)

/-- The base that a number begins with, and its digits. -/
def readBase : List Char → Nat × List Char
  | '0' :: 'x' :: cs => (16, cs)
  | '0' :: 'X' :: cs => (16, cs)
  | '0' :: cs => (8, cs)
  | cs => (10, cs)

def LLONG_MAX : Int := 9223372036854775807

def LLONG_MIN : Int := -9223372036854775808

/-- `strtoll(s, NULL, 0)`, which stops at the ends of the range. -/
def strtoll (s : List Char) : Int :=
  let signed := readSign (s.dropWhile isSpace)
  let digits := readBase signed.2
  let n := readDigits digits.1 0 digits.2
  if signed.1 then max (-n) LLONG_MIN else min n LLONG_MAX

/-! ## Reading what was written -/

theorem digit_range {c : Char} (h : c.isDigit) : 48 ≤ c.toNat ∧ c.toNat ≤ 57 :=
  Char.isDigit_iff_toNat.mp h

theorem readDigits_eq {cs : List Char} (h : ∀ c ∈ cs, c.isDigit) (n : Nat) :
    readDigits 10 n cs = Nat.ofDigitChars 10 cs n := by
  induction cs generalizing n with
  | nil => rw [readDigits, Nat.ofDigitChars_nil]
  | cons c cs ih =>
      have hc := h c List.mem_cons_self
      have hlt : c.toNat - '0'.toNat < 10 := by
        obtain ⟨hlow, hhigh⟩ := digit_range hc
        have hzero : '0'.toNat = 48 := rfl
        omega
      rw [readDigits, digitValue, if_pos hc, Nat.ofDigitChars_cons]
      simp only
      rw [if_pos hlt]
      exact ih (fun d hd => h d (List.mem_cons_of_mem c hd)) _

theorem isDigit_printNat {n : Nat} {c : Char} (h : c ∈ printNat n) : c.isDigit :=
  Nat.isDigit_of_mem_toDigits (by decide) (by decide) h

theorem printNat_ne_nil (n : Nat) : printNat n ≠ [] := Nat.toDigits_ne_nil

theorem readDigits_printNat (n : Nat) : readDigits 10 0 (printNat n) = n := by
  rw [readDigits_eq (fun _ h => isDigit_printNat h), printNat,
    Nat.ofDigitChars_toDigits (by decide) (by decide)]

/-- No number but 0 is written with a 0 in front. -/
theorem head_printNat {n : Nat} (h : n ≠ 0) : (printNat n).head? ≠ some '0' := by
  induction n using Nat.strongRecOn with
  | ind n ih =>
      rw [printNat]
      by_cases hlt : n < 10
      · have hdigit : ∀ n < 10, n ≠ 0 → [Nat.digitChar n].head? ≠ some '0' := by decide
        rw [Nat.toDigits_of_lt_base hlt]
        exact hdigit n hlt h
      · rw [Nat.toDigits_of_base_le (by decide) (by omega), List.head?_append,
          List.head?_eq_some_head Nat.toDigits_ne_nil, Option.some_or,
          ← List.head?_eq_some_head Nat.toDigits_ne_nil]
        exact ih (n / 10) (by omega) (by omega)

theorem readBase_printNat {n : Nat} (h : n ≠ 0) : readBase (printNat n) = (10, printNat n) := by
  have hhead := head_printNat h
  cases hcs : printNat n with
  | nil => rfl
  | cons c cs =>
      rw [hcs] at hhead
      unfold readBase
      split
      next heq => simp_all
      next heq => simp_all
      next heq => simp_all
      next => rfl

theorem readNat_printNat (n : Nat) :
    readDigits (readBase (printNat n)).1 0 (readBase (printNat n)).2 = n := by
  by_cases h : n = 0
  · rw [h]
    decide
  · rw [readBase_printNat h, readDigits_printNat]

/-- A digit is no blank and no sign. -/
theorem digit_plain {c : Char} (h : c.isDigit) : isSpace c = false ∧ c ≠ '-' ∧ c ≠ '+' := by
  obtain ⟨hlow, hhigh⟩ := digit_range h
  refine ⟨?_, ?_, ?_⟩
  · have htab : '\t'.toNat = 9 := rfl
    have hret : '\r'.toNat = 13 := rfl
    rw [isSpace, decide_eq_false_iff_not]
    rintro (rfl | hspace)
    · revert h
      decide
    · omega
  · rintro rfl
    revert h
    decide
  · rintro rfl
    revert h
    decide

theorem readSign_printNat (n : Nat) :
    readSign ((printNat n).dropWhile isSpace) = (false, printNat n) := by
  cases hcs : printNat n with
  | nil => exact absurd hcs (printNat_ne_nil n)
  | cons c cs =>
      obtain ⟨hspace, hminus, hplus⟩ :=
        digit_plain (isDigit_printNat (n := n) (c := c) (by rw [hcs]; exact List.mem_cons_self))
      rw [List.dropWhile_cons_of_neg (by simp [hspace])]
      unfold readSign
      split
      next heq => exact absurd (List.cons_eq_cons.mp heq).1 hminus
      next heq => exact absurd (List.cons_eq_cons.mp heq).1 hplus
      next => rfl

theorem strtoll_printNat (n : Nat) : strtoll (printNat n) = min (n : Int) LLONG_MAX := by
  rw [strtoll, readSign_printNat, readNat_printNat]
  rfl

theorem strtoll_printInt {z : Int} (hmin : LLONG_MIN ≤ z) (hmax : z ≤ LLONG_MAX) :
    strtoll (printInt z) = z := by
  rw [printInt]
  by_cases hz : z < 0
  · have hsign : readSign (('-' :: printNat z.natAbs).dropWhile isSpace) =
        (true, printNat z.natAbs) := rfl
    rw [if_pos hz, strtoll, hsign, readNat_printNat, if_pos rfl]
    omega
  · rw [if_neg hz, strtoll_printNat]
    omega

theorem printInt_ne_nil (z : Int) : printInt z ≠ [] := by
  rw [printInt]
  split
  next => exact List.cons_ne_nil _ _
  next => exact printNat_ne_nil _

end Jump.Core.Strtoll
