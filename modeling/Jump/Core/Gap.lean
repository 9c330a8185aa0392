import Mathlib.Data.List.Basic
import Mathlib.Data.List.Range
import Mathlib.Logic.Function.Basic

/-! # Gaps in an array

The loops that open a gap in front of an element, in the array itself or while it is copied, and
the one that closes the gaps of the elements that are taken out.
-/

namespace Jump.Core.Gap

variable {α : Type}

/-- The first `n` elements -/
def elements (a : Nat → α) (n : Nat) : List α := (List.range n).map a

@[simp] theorem length_elements (a : Nat → α) (n : Nat) : (elements a n).length = n := by
  rw [elements, List.length_map, List.length_range]

@[simp] theorem getElem_elements (a : Nat → α) (n : Nat) {i : Nat}
    (h : i < (elements a n).length) : (elements a n)[i] = a i := by
  simp only [elements, List.getElem_map, List.getElem_range]

/-- `for (i = b; i < b + n; i++) dst[i + shift] = src[i]` -/
def copy (src : Nat → α) (shift b : Nat) : Nat → (Nat → α) → Nat → α
  | 0, dst => dst
  | n + 1, dst => copy src shift (b + 1) n (Function.update dst (b + shift) (src b))

/-- `for (i = n; i > b; i--) a[i] = a[i - 1]` -/
def shiftUp (b : Nat) : Nat → (Nat → α) → Nat → α
  | 0, a => a
  | i + 1, a => if b < i + 1 then shiftUp b i (Function.update a (i + 1) (a i)) else a

/-- `for (i = i; i < i + n; ++i)` with the write position `j`: an element that is kept moves
down to `j`. -/
def compact (keep : α → Bool) : Nat → Nat → Nat → (Nat → α) → (Nat → α) × Nat
  | 0, _, j, a => (a, j)
  | n + 1, i, j, a =>
    if keep (a i) then
      compact keep n (i + 1) (j + 1) (if i ≠ j then Function.update a j (a i) else a)
    else compact keep n (i + 1) j a

theorem mem_take {a : Nat → α} {n b : Nat} {x : α} (h : x ∈ (elements a n).take b) :
    ∃ i < b, i < n ∧ a i = x := by
  obtain ⟨i, hi, hx⟩ := List.mem_iff_getElem.mp h
  rw [List.length_take, length_elements] at hi
  rw [List.getElem_take, getElem_elements] at hx
  exact ⟨i, by omega, by omega, hx⟩

theorem mem_drop {a : Nat → α} {n b : Nat} {x : α} (h : x ∈ (elements a n).drop b) :
    ∃ i, b ≤ i ∧ i < n ∧ a i = x := by
  obtain ⟨i, hi, hx⟩ := List.mem_iff_getElem.mp h
  rw [List.length_drop, length_elements] at hi
  rw [List.getElem_drop, getElem_elements] at hx
  exact ⟨b + i, by omega, by omega, hx⟩

section Open

variable {src dst a : Nat → α} {shift b n : Nat}

theorem copy_apply (src : Nat → α) (shift n b : Nat) (dst : Nat → α) (j : Nat) :
    copy src shift b n dst j =
      if b + shift ≤ j ∧ j < b + shift + n then src (j - shift) else dst j := by
  induction n generalizing b dst with
  | zero =>
      rw [if_neg (by omega)]
      rfl
  | succ n ih =>
      rw [copy, ih]
      by_cases hj : j = b + shift
      · rw [if_neg (by omega), if_pos (by omega), hj, Function.update_self, Nat.add_sub_cancel]
      · rw [Function.update_of_ne hj]
        by_cases hin : b + shift ≤ j ∧ j < b + shift + (n + 1)
        · rw [if_pos hin, if_pos (by omega)]
        · rw [if_neg hin, if_neg (by omega)]

theorem shiftUp_apply (b n : Nat) (a : Nat → α) (j : Nat) :
    shiftUp b n a j = if b < j ∧ j ≤ n then a (j - 1) else a j := by
  induction n generalizing a with
  | zero =>
      rw [if_neg (by omega)]
      rfl
  | succ n ih =>
      rw [shiftUp]
      by_cases hb : b < n + 1
      · rw [if_pos hb, ih]
        by_cases hj : j = n + 1
        · rw [if_neg (by omega), if_pos (by omega), hj, Function.update_self, Nat.add_sub_cancel]
        · rw [Function.update_of_ne hj]
          by_cases hin : b < j ∧ j ≤ n
          · rw [if_pos hin, if_pos (by omega), Function.update_of_ne (by omega)]
          · rw [if_neg hin, if_neg (by omega)]
      · rw [if_neg hb, if_neg (by omega)]

/-- An element in a gap that was opened in front of number `b` -/
theorem elements_insert {c : Nat → α} {e : α} (hb : b ≤ n) (hlow : ∀ i < b, c i = a i)
    (hgap : c b = e) (hhigh : ∀ i, b ≤ i → i < n → c (i + 1) = a i) :
    elements c (n + 1) = (elements a n).take b ++ e :: (elements a n).drop b := by
  have htake : ((elements a n).take b).length = b := by
    rw [List.length_take, length_elements]
    omega
  apply List.ext_getElem
  · rw [length_elements, List.length_append, List.length_cons, htake, List.length_drop,
      length_elements]
    omega
  · intro i hi hi'
    rw [length_elements] at hi
    rw [getElem_elements, List.getElem_append]
    split
    next hlt =>
      rw [htake] at hlt
      rw [List.getElem_take, getElem_elements]
      exact hlow i hlt
    next hge =>
      rw [htake] at hge
      obtain ⟨m, rfl⟩ : ∃ m, i = b + m := ⟨i - b, by omega⟩
      cases m with
      | zero => simp [htake, hgap]
      | succ m =>
          have hindex : b + (m + 1) - ((elements a n).take b).length = m + 1 := by omega
          simp only [hindex, List.getElem_cons_succ, List.getElem_drop, getElem_elements]
          exact hhigh (b + m) (by omega) (by omega)

end Open

section Close

variable {keep : α → Bool}

theorem elements_succ (a : Nat → α) (n : Nat) : elements a (n + 1) = elements a n ++ [a n] := by
  rw [elements, List.range_succ, List.map_append]
  rfl

theorem elements_congr {a c : Nat → α} {n : Nat} (h : ∀ i < n, a i = c i) :
    elements a n = elements c n := by
  apply List.map_congr_left
  intro i hi
  exact h i (List.mem_range.mp hi)

/-- The rest of the loop, where the elements in front are done -/
theorem compact_rest (a₀ : Nat → α) (n : Nat) : ∀ (i j : Nat) (a : Nat → α), j ≤ i →
    elements a j = (elements a₀ i).filter keep → (∀ m, i ≤ m → a m = a₀ m) →
    elements (compact keep n i j a).1 (compact keep n i j a).2 =
      (elements a₀ (i + n)).filter keep := by
  induction n with
  | zero => exact fun i j a _ hdone _ => hdone
  | succ n ih =>
      intro i j a hj hdone hrest
      have hsplit : (elements a₀ (i + 1)).filter keep =
          elements a j ++ [a i].filter keep := by
        rw [elements_succ, List.filter_append, hdone, hrest i (Nat.le_refl i)]
      have hnext : i + (n + 1) = i + 1 + n := by omega
      rw [compact, hnext]
      by_cases hkeep : keep (a i)
      · rw [if_pos hkeep]
        refine ih (i + 1) (j + 1) _ (by omega) ?_ ?_
        · rw [hsplit, elements_succ, List.filter_cons_of_pos hkeep,
            List.filter_nil]
          by_cases hij : i ≠ j
          · rw [if_pos hij, Function.update_self]
            congr 1
            refine elements_congr fun m hm => ?_
            rw [Function.update_of_ne (by omega)]
          · rw [if_neg hij, not_not.mp hij]
        · intro m hm
          by_cases hij : i ≠ j
          · rw [if_pos hij, Function.update_of_ne (by omega)]
            exact hrest m (by omega)
          · rw [if_neg hij]
            exact hrest m (by omega)
      · rw [if_neg hkeep]
        refine ih (i + 1) j a (by omega) ?_ ?_
        · rw [hsplit, List.filter_cons_of_neg hkeep, List.filter_nil, List.append_nil]
        · intro m hm
          exact hrest m (by omega)

/-- The whole loop takes out what is not kept, and the order stays. -/
theorem elements_compact (keep : α → Bool) (a : Nat → α) (n : Nat) :
    elements (compact keep n 0 0 a).1 (compact keep n 0 0 a).2 =
      (elements a n).filter keep := by
  have hstart : elements a 0 = (elements a 0).filter keep := rfl
  have h := compact_rest a n 0 0 a (Nat.le_refl 0) hstart fun m _ => rfl
  rwa [Nat.zero_add] at h

end Close

end Jump.Core.Gap
