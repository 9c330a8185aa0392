import Mathlib.Algebra.Order.Group.Int
import Mathlib.Order.Defs.LinearOrder

/-! # Binary search

The loop on a closed window, with a three-way comparison of the element in the middle. What it
finds is told in terms of the answers of the comparison only.
-/

namespace Jump.Core.BinarySearch

/-- Where the key is, or in front of what it would go. -/
inductive Place where
  | found (mid : Nat)
  | before (begin : Nat)
deriving DecidableEq

/-- The loop from the window `[begin, stop]` on -/
def search (cmp : Nat → Ordering) (begin stop : Int) : Place :=
  if begin ≤ stop then
    let mid := (begin + stop) / 2
    match cmp mid.toNat with
    | .eq => .found mid.toNat
    | .lt => search cmp (mid + 1) stop
    | .gt => search cmp begin (mid - 1)
  else .before begin.toNat
termination_by (stop + 1 - begin).toNat
decreasing_by
  all_goals omega

/-- The answers of a row in strict order: everything up to a `.lt` is `.lt`, and everything from
a `.gt` on is `.gt`. -/
structure Ordered (cmp : Nat → Ordering) (n : Nat) : Prop where
  lt : ∀ i j, i < j → j < n → cmp j ≠ .gt → cmp i = .lt
  gt : ∀ i j, i < j → j < n → cmp i ≠ .lt → cmp j = .gt

/-- A place that is right for the row -/
def Place.Fits (cmp : Nat → Ordering) (n : Nat) : Place → Prop
  | .found mid => mid < n ∧ cmp mid = .eq
  | .before begin => begin ≤ n ∧ (∀ i < begin, cmp i = .lt) ∧
      ∀ i, begin ≤ i → i < n → cmp i = .gt

variable {cmp : Nat → Ordering} {n : Nat}

theorem search_window (h : Ordered cmp n) (begin stop : Int) (hbegin : 0 ≤ begin)
    (hle : begin ≤ stop + 1) (hstop : stop < n) (hlow : ∀ i : Nat, i < begin → cmp i = .lt)
    (hhigh : ∀ i : Nat, stop < i → i < n → cmp i = .gt) :
    (search cmp begin stop).Fits cmp n := by
  fun_induction search cmp begin stop with
  | case1 begin stop hwindow mid heq =>
      exact ⟨by omega, heq⟩
  | case2 begin stop hwindow mid hlt ih =>
      refine ih (by omega) (by omega) hstop ?_ hhigh
      intro i hi
      by_cases hmid : i = mid.toNat
      · rw [hmid]
        exact hlt
      · refine h.lt i mid.toNat (by omega) (by omega) ?_
        rw [hlt]
        decide
  | case3 begin stop hwindow mid hgt ih =>
      refine ih hbegin (by omega) (by omega) hlow ?_
      intro i hi hin
      by_cases hmid : i = mid.toNat
      · rw [hmid]
        exact hgt
      · refine h.gt mid.toNat i (by omega) hin ?_
        rw [hgt]
        decide
  | case4 begin stop hwindow =>
      refine ⟨by omega, ?_, ?_⟩
      · intro i hi
        exact hlow i (by omega)
      · intro i hi hin
        exact hhigh i (by omega) hin

/-- The search of a whole row -/
theorem search_fits (h : Ordered cmp n) : (search cmp 0 (n - 1)).Fits cmp n := by
  refine search_window h 0 (n - 1) (Int.le_refl 0) (by omega) (by omega) ?_ ?_
  · intro i hi
    omega
  · intro i hi hin
    omega

section Keys

variable {κ : Type} [Ord κ] [Std.TransOrd κ] {key : Nat → κ}

/-- The comparisons of a row in strict order with one key -/
theorem ordered_of_strict (hkey : ∀ i j, i < j → j < n → compare (key i) (key j) = .lt) (k : κ) :
    Ordered (fun i => compare (key i) k) n where
  lt i j hij hj h := by
    have hle : (compare (key j) k).isLE := Ordering.isLE_iff_ne_gt.mpr h
    exact Std.TransCmp.lt_of_lt_of_isLE (hkey i j hij hj) hle
  gt i j hij hj h := by
    have hge : (compare (key i) k).isGE := Ordering.isGE_iff_ne_lt.mpr h
    have hgt : compare (key j) (key i) = .gt := Std.OrientedCmp.gt_of_lt (hkey i j hij hj)
    exact Std.TransCmp.gt_of_gt_of_isGE hgt hge

end Keys

end Jump.Core.BinarySearch
