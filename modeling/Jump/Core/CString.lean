import Mathlib.Algebra.Order.Group.Int
import Mathlib.Data.List.Infix

/-! # C strings in an array of characters

Every access to the array is checked, so a program on it either returns or ends
in a fault that tells which access was wrong.
-/

namespace Jump.Core.CString

inductive Fault where
  | nullPointer
  | outOfBounds
deriving DecidableEq

/-- Programs that read and write one array. -/
abbrev Access (α : Type) : Type := StateT (Nat → Char) (Except Fault) α

def NUL : Char := '\x00'

section Monad

variable {α β : Type} {x : Access α} {f : α → Access β} {b b' : Nat → Char} {a : α}

theorem bind_ok (h : x b = .ok (a, b')) : (x >>= f) b = f a b' := by
  simp only [bind, StateT.bind, h, Except.bind]

theorem bind_error {e : Fault} (h : x b = .error e) : (x >>= f) b = .error e := by
  simp only [bind, StateT.bind, h, Except.bind]

theorem pure_ok : (pure a : Access α) b = .ok (a, b) := rfl

end Monad

section Array

variable (size : Nat)

/-- `array[i]` -/
def charAt (i : Int) : Access Char := fun b =>
  if 0 ≤ i ∧ i < size then .ok (b i.toNat, b) else .error .outOfBounds

/-- `array[i] = c` -/
def setChar (i : Int) (c : Char) : Access Unit := fun b =>
  if 0 ≤ i ∧ i < size then .ok ((), fun j => if j = i.toNat then c else b j)
  else .error .outOfBounds

/-- The characters from `p` to the next NUL; there are not more than the array has. -/
def strFrom : Nat → Nat → Access (List Char)
  | 0, _ => throw .outOfBounds
  | n + 1, p => do
      let c ← charAt size p
      if c = NUL then return [] else return c :: (← strFrom n (p + 1))

def str (p : Nat) : Access (List Char) := strFrom size (size + 1) p

def strlen (p : Nat) : Access Nat := do return (← str size p).length

/-- The first `c` before the next NUL. -/
def findFrom (c : Char) : Nat → Nat → Access (Option Nat)
  | 0, _ => throw .outOfBounds
  | n + 1, p => do
      let x ← charAt size p
      if x = c then return some p
      else if x = NUL then return none
      else findFrom c n (p + 1)

/-- `strchr`, or `strstr` for a string of one character. -/
def find (c : Char) (p : Nat) : Access (Option Nat) := findFrom size c (size + 1) p

end Array

/-! ## What string lies where -/

/-- The string at `p` is `s`, and its NUL lies in the array. -/
def Holds (size : Nat) (b : Nat → Char) : Nat → List Char → Prop
  | p, [] => p < size ∧ b p = NUL
  | p, c :: s => p < size ∧ b p = c ∧ c ≠ NUL ∧ Holds size b (p + 1) s

section Holds

variable {size p : Nat} {b b' : Nat → Char} {s t : List Char} {c : Char}

theorem Holds.lt (h : Holds size b p s) : p + s.length < size := by
  induction s generalizing p with
  | nil => exact h.1
  | cons c s ih =>
      have hrest := ih h.2.2.2
      rw [List.length_cons]
      omega

theorem Holds.tail (h : Holds size b p (c :: s)) : Holds size b (p + 1) s := h.2.2.2

theorem Holds.frame (h : Holds size b p s)
    (same : ∀ i, p ≤ i → i ≤ p + s.length → b' i = b i) : Holds size b' p s := by
  induction s generalizing p with
  | nil => exact ⟨h.1, (same p (Nat.le_refl p) (Nat.le_refl p)).trans h.2⟩
  | cons c s ih =>
      rw [List.length_cons] at same
      obtain ⟨hp, hc, hne, hs⟩ := h
      exact ⟨hp, (same p (by omega) (by omega)).trans hc, hne,
        ih hs fun i hi hle => same i (by omega) (by omega)⟩

theorem Holds.suffix (h : Holds size b p (s ++ t)) : Holds size b (p + s.length) t := by
  induction s generalizing p with
  | nil => exact h
  | cons c s ih =>
      have hrest := ih h.2.2.2
      rwa [List.length_cons, show p + (s.length + 1) = p + 1 + s.length by omega]

/-- A NUL written into a string cuts it there. -/
theorem Holds.cut (h : Holds size b p (s ++ t))
    (same : ∀ i, p ≤ i → i < p + s.length → b' i = b i) (nul : b' (p + s.length) = NUL) :
    Holds size b' p s := by
  induction s generalizing p with
  | nil =>
      have hlt := h.lt
      exact ⟨by omega, nul⟩
  | cons c s ih =>
      rw [List.length_cons] at same nul
      obtain ⟨hp, hc, hne, hs⟩ := h
      exact ⟨hp, (same p (by omega) (by omega)).trans hc, hne,
        ih hs (fun i hi hlt => same i (by omega) (by omega)) (by rw [← nul]; congr 1; omega)⟩

/-- Characters with a NUL behind them hold a string: those before their first NUL. -/
theorem holds_of_list {cs : List Char} (hlt : p + cs.length < size)
    (same : ∀ i (hi : i < cs.length), b (p + i) = cs[i]) (nul : b (p + cs.length) = NUL) :
    Holds size b p (cs.takeWhile (· ≠ NUL)) := by
  induction cs generalizing p with
  | nil => exact ⟨hlt, nul⟩
  | cons c cs ih =>
      rw [List.length_cons] at hlt nul
      have hc : b p = c := same 0 (by simp)
      by_cases hnul : c = NUL
      · rw [List.takeWhile_cons_of_neg (by simpa using hnul)]
        exact ⟨by omega, hc.trans hnul⟩
      · rw [List.takeWhile_cons_of_pos (by simpa using hnul)]
        refine ⟨by omega, hc, hnul, ih (by omega) (fun i hi => ?_) ?_⟩
        · have hnext := same (i + 1) (by rw [List.length_cons]; omega)
          rwa [List.getElem_cons_succ, ← Nat.add_assoc, Nat.add_right_comm] at hnext
        · rwa [Nat.add_right_comm, Nat.add_assoc]

/-! ## The accesses -/

theorem charAt_run (hp : p < size) : charAt size p b = .ok (b p, b) := by
  simp only [charAt]
  rw [if_pos (by omega), Int.toNat_natCast]

theorem setChar_run (hp : p < size) :
    setChar size p c b = .ok ((), fun i => if i = p then c else b i) := by
  simp only [setChar]
  rw [if_pos (by omega), Int.toNat_natCast]

/-- The first character of a string, or its NUL. -/
theorem Holds.charAt_run (h : Holds size b p s) :
    charAt size p b = .ok (s.head?.getD NUL, b) := by
  have hlt := h.lt
  rw [CString.charAt_run (by omega)]
  cases s with
  | nil => rw [h.2]; rfl
  | cons c s => rw [h.2.1]; rfl

/-- The last character of a string. -/
theorem Holds.charAt_last (h : Holds size b p s) (hc : s.getLast? = some c) :
    charAt size (p + s.length - 1) b = .ok (c, b) := by
  obtain ⟨t, rfl⟩ := List.getLast?_eq_some_iff.mp hc
  have hread : charAt size (p + t.length : Nat) b = .ok (c, b) := h.suffix.charAt_run
  rw [List.length_append, List.length_singleton,
    show (p : Int) + ((t.length + 1 : Nat) : Int) - 1 = ((p + t.length : Nat) : Int) by omega]
  exact hread

theorem strFrom_run (h : Holds size b p s) {n : Nat} (hn : s.length < n) :
    strFrom size n p b = .ok (s, b) := by
  induction s generalizing p n with
  | nil =>
      obtain ⟨n, rfl⟩ : ∃ k, n = k + 1 := ⟨n - 1, by rw [List.length_nil] at hn; omega⟩
      rw [strFrom, bind_ok h.charAt_run]
      rfl
  | cons c s ih =>
      rw [List.length_cons] at hn
      obtain ⟨n, rfl⟩ : ∃ k, n = k + 1 := ⟨n - 1, by omega⟩
      rw [strFrom, bind_ok h.charAt_run, List.head?_cons, Option.getD_some, if_neg h.2.2.1,
        bind_ok (ih h.2.2.2 (by omega))]
      rfl

theorem str_run (h : Holds size b p s) : str size p b = .ok (s, b) := by
  have hlt := h.lt
  exact strFrom_run h (by omega)

theorem strlen_run (h : Holds size b p s) : strlen size p b = .ok (s.length, b) := by
  rw [strlen, bind_ok (str_run h)]
  rfl

theorem findFrom_some (h : Holds size b p (s ++ c :: t)) (hc : c ∉ s) {n : Nat}
    (hn : s.length < n) : findFrom size c n p b = .ok (some (p + s.length), b) := by
  induction s generalizing p n with
  | nil =>
      obtain ⟨n, rfl⟩ : ∃ k, n = k + 1 := ⟨n - 1, by rw [List.length_nil] at hn; omega⟩
      rw [findFrom, bind_ok h.charAt_run, List.nil_append, List.head?_cons, Option.getD_some,
        if_pos rfl]
      rfl
  | cons a s ih =>
      rw [List.length_cons] at hn
      rw [List.mem_cons, not_or] at hc
      obtain ⟨n, rfl⟩ : ∃ k, n = k + 1 := ⟨n - 1, by omega⟩
      rw [findFrom, bind_ok h.charAt_run, List.cons_append, List.head?_cons, Option.getD_some,
        if_neg (Ne.symm hc.1), if_neg h.2.2.1, ih h.2.2.2 hc.2 (by omega), List.length_cons,
        show p + 1 + s.length = p + (s.length + 1) by omega]

theorem find_some (h : Holds size b p (s ++ c :: t)) (hc : c ∉ s) :
    find size c p b = .ok (some (p + s.length), b) := by
  have hlt := h.lt
  rw [List.length_append] at hlt
  exact findFrom_some h hc (by omega)

theorem findFrom_none (h : Holds size b p s) (hc : c ∉ s) (hnul : c ≠ NUL) {n : Nat}
    (hn : s.length < n) : findFrom size c n p b = .ok (none, b) := by
  induction s generalizing p n with
  | nil =>
      obtain ⟨n, rfl⟩ : ∃ k, n = k + 1 := ⟨n - 1, by rw [List.length_nil] at hn; omega⟩
      rw [findFrom, bind_ok h.charAt_run, List.head?_nil, Option.getD_none,
        if_neg (Ne.symm hnul), if_pos rfl]
      rfl
  | cons a s ih =>
      rw [List.length_cons] at hn
      rw [List.mem_cons, not_or] at hc
      obtain ⟨n, rfl⟩ : ∃ k, n = k + 1 := ⟨n - 1, by omega⟩
      rw [findFrom, bind_ok h.charAt_run, List.head?_cons, Option.getD_some,
        if_neg (Ne.symm hc.1), if_neg h.2.2.1, ih h.2.2.2 hc.2 (by omega)]

theorem find_none (h : Holds size b p s) (hc : c ∉ s) (hnul : c ≠ NUL) :
    find size c p b = .ok (none, b) := by
  have hlt := h.lt
  exact findFrom_none h hc hnul (by omega)

end Holds

end Jump.Core.CString
