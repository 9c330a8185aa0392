import Mathlib.Data.List.TakeWhile
import Mathlib.Data.List.Pairwise
import Mathlib.Order.Defs.Unbundled

/-! # Sequences sorted by a strict weak order

Elements carry keys, keys are compared by a Boolean strict weak order, and equal
keys may repeat. A predicate that stays true once it is true cuts a sequence in
two, which is what a bound search finds.
-/

namespace Jump.Core

section Order

variable {κ : Type} {lt : κ → κ → Bool} [IsStrictWeakOrder κ fun a b => lt a b = true]

theorem lt_irrefl_of_weak (x : κ) : ¬ lt x x = true :=
  irrefl (r := fun a b => lt a b = true) x

/-- Negative transitivity. -/
theorem lt_or_lt_of_weak {x y z : κ} (h : lt x z = true) : lt x y = true ∨ lt y z = true := by
  by_contra hn
  rw [not_or] at hn
  obtain ⟨hxy, hyz⟩ := hn
  have hyx : ¬ lt y x = true := fun hyx =>
    hyz (IsTrans.trans (r := fun a b => lt a b = true) _ _ _ hyx h)
  have hzy : ¬ lt z y = true := fun hzy =>
    hxy (IsTrans.trans (r := fun a b => lt a b = true) _ _ _ h hzy)
  exact (@IsStrictWeakOrder.incomp_trans κ (fun a b => lt a b = true) _ x y z ⟨hxy, hyx⟩
    ⟨hyz, hzy⟩).1 h

end Order

section Cut

variable {α : Type} {p : α → Bool} {l r : List α}

/-- The cut of a sequence at a predicate, by what `List` computes. -/
theorem find?_cut (hl : ∀ a ∈ l, ¬ p a) (hr : ∀ a ∈ r, p a) : (l ++ r).find? p = r.head? := by
  rw [List.find?_append, List.find?_eq_none.mpr (by simpa using hl)]
  cases r with
  | nil => rfl
  | cons a r => simp [hr a List.mem_cons_self]

theorem takeWhile_cut (hl : ∀ a ∈ l, ¬ p a) (hr : ∀ a ∈ r, p a) :
    (l ++ r).takeWhile (fun a => !p a) = l := by
  rw [List.takeWhile_append_of_pos (by simpa using hl)]
  cases r with
  | nil => simp
  | cons a r => simp [hr a List.mem_cons_self]

theorem dropWhile_cut (hl : ∀ a ∈ l, ¬ p a) (hr : ∀ a ∈ r, p a) :
    (l ++ r).dropWhile (fun a => !p a) = r := by
  rw [List.dropWhile_append_of_pos (by simpa using hl)]
  cases r with
  | nil => rfl
  | cons a r => simp [hr a List.mem_cons_self]

end Cut

section Sorted

variable {α κ : Type} (lt : κ → κ → Bool) (key : α → κ)

/-- No element has a smaller key than one before it. -/
def Sorted (xs : List α) : Prop := xs.Pairwise fun a b => ¬ lt (key b) (key a) = true

/-- Insert `x` after every element whose key is not greater. -/
def insertUpper (x : α) (xs : List α) : List α :=
  xs.takeWhile (fun a => !lt (key x) (key a)) ++ x :: xs.dropWhile fun a => !lt (key x) (key a)

variable {lt key} {xs l r : List α}

theorem insertUpper_cut {x : α} (hl : ∀ a ∈ l, ¬ lt (key x) (key a) = true)
    (hr : ∀ a ∈ r, lt (key x) (key a) = true) :
    insertUpper lt key x (l ++ r) = l ++ x :: r := by
  rw [insertUpper, takeWhile_cut (p := fun a => lt (key x) (key a)) hl hr,
    dropWhile_cut (p := fun a => lt (key x) (key a)) hl hr]

variable [IsStrictWeakOrder κ fun a b => lt a b = true]

/-- "Greater than `k`" stays true along a sorted sequence. -/
theorem Sorted.greater_mono (h : Sorted lt key xs) (k : κ) :
    xs.Pairwise fun a b => lt k (key a) = true → lt k (key b) = true :=
  h.imp fun hab hka => (lt_or_lt_of_weak hka).resolve_right hab

/-- So does "not less than `k`". -/
theorem Sorted.notLess_mono (h : Sorted lt key xs) (k : κ) :
    xs.Pairwise fun a b => (!lt (key a) k) = true → (!lt (key b) k) = true := by
  refine h.imp fun hab hak => ?_
  simp only [Bool.not_eq_true', Bool.eq_false_iff] at hak ⊢
  exact fun hbk => (lt_or_lt_of_weak hbk).elim hab hak

/-- The first element equal to `k` is the first element not less than `k`, unless
that one is greater. -/
theorem find?_equal_cut {k : κ} (h : Sorted lt key r) (hl : ∀ a ∈ l, lt (key a) k = true)
    (hr : ∀ a ∈ r, ¬ lt (key a) k = true) :
    (l ++ r).find? (fun a => !lt (key a) k && !lt k (key a)) =
      r.head?.filter fun a => !lt k (key a) := by
  have hnone : l.find? (fun a => !lt (key a) k && !lt k (key a)) = none :=
    List.find?_eq_none.mpr fun a ha => by simp [hl a ha]
  rw [List.find?_append, hnone, Option.none_or]
  cases r with
  | nil => rfl
  | cons a r =>
      have hak : lt (key a) k = false := by simpa using hr a List.mem_cons_self
      rw [List.find?_cons, List.head?_cons, hak]
      cases hka : lt k (key a) with
      | false => simp [Option.filter, hka]
      | true =>
          -- whatever follows is not less than `a`, hence greater than `k`
          have hrest : ∀ b ∈ r, lt k (key b) = true := fun b hb =>
            (lt_or_lt_of_weak hka).resolve_right ((List.pairwise_cons.mp h).1 b hb)
          simp only [Bool.not_false, Bool.not_true, Bool.and_false, Option.filter, hka,
            Bool.false_eq_true, if_false]
          exact List.find?_eq_none.mpr (by simpa using fun b hb _ => hrest b hb)

/-- A sorted sequence stays sorted when `x` is put between the elements not
greater and the elements greater than it. -/
theorem Sorted.insert_cut {x : α} (h : Sorted lt key (l ++ r))
    (hl : ∀ a ∈ l, ¬ lt (key x) (key a) = true) (hr : ∀ a ∈ r, lt (key x) (key a) = true) :
    Sorted lt key (l ++ x :: r) := by
  obtain ⟨h1, h2, h3⟩ := List.pairwise_append.mp h
  refine List.pairwise_append.mpr ⟨h1, List.pairwise_cons.mpr ⟨fun b hb => ?_, h2⟩, ?_⟩
  · intro hbx
    have hxx := IsTrans.trans (r := fun a b => lt a b = true) _ _ _ (hr b hb) hbx
    exact lt_irrefl_of_weak _ hxx
  · intro a ha b hb
    rcases List.mem_cons.mp hb with rfl | hb
    · exact hl a ha
    · exact h3 a ha b hb

end Sorted

end Jump.Core
