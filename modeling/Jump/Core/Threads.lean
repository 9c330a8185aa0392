import Mathlib.Algebra.BigOperators.Group.List.Basic
import Mathlib.Algebra.Ring.Nat
import Mathlib.Data.List.Basic

/-! # Threads that take steps in turn

A thread is where its program stands; thread `i` is element `i` of a list. What the
threads hold together is a sum over the list.
-/

namespace Jump.Core.Threads

variable {P : Type*} {f g : P → Nat} {threads : List P} {p p' : P} {i : Nat}

def total (f : P → Nat) (threads : List P) : Nat := (threads.map f).sum

theorem total_concat (f : P → Nat) (l : List P) (p : P) : total f (l ++ [p]) = total f l + f p := by
  simp [total]

/-- A step changes the sum by what it changes in its thread. -/
theorem total_set (f : P → Nat) (h : threads[i]? = some p) (p' : P) :
    total f (threads.set i p') + f p = total f threads + f p' := by
  induction threads generalizing i with
  | nil => cases h
  | cons q threads ih =>
      cases i with
      | zero =>
          cases h
          simp only [total, List.set_cons_zero, List.map_cons, List.sum_cons]
          omega
      | succ i =>
          have hrest := ih h
          simp only [total, List.set_cons_succ, List.map_cons, List.sum_cons] at hrest ⊢
          omega

/-- The sum grows by as much as the thread's share. -/
theorem total_set_add (f : P → Nat) (h : threads[i]? = some p) {n : Nat} (hp : f p' = f p + n) :
    total f (threads.set i p') = total f threads + n := by
  have hset := total_set f h p'
  omega

theorem total_set_sub (f : P → Nat) (h : threads[i]? = some p) {n : Nat} (hp : f p' + n = f p) :
    total f (threads.set i p') + n = total f threads := by
  have hset := total_set f h p'
  omega

theorem total_set_eq (f : P → Nat) (h : threads[i]? = some p) (hp : f p' = f p) :
    total f (threads.set i p') = total f threads := by
  have hset := total_set f h p'
  omega

theorem total_set_le (f : P → Nat) (h : threads[i]? = some p) (hp : f p' ≤ f p) :
    total f (threads.set i p') ≤ total f threads := by
  have hset := total_set f h p'
  omega

theorem mem_set (h : p ∈ threads.set i p') : p = p' ∨ p ∈ threads :=
  (List.mem_or_eq_of_mem_set h).symm

/-- The others stay where they are. -/
theorem mem_set_cases (h : p ∈ threads.set i p') :
    p = p' ∨ ∃ j, j ≠ i ∧ threads[j]? = some p := by
  obtain ⟨j, hj⟩ := List.getElem?_of_mem h
  by_cases hji : j = i
  · subst hji
    rw [List.getElem?_set_self'] at hj
    cases hp : threads[j]? with
    | none =>
        rw [hp] at hj
        cases hj
    | some q =>
        rw [hp] at hj
        cases hj
        exact .inl rfl
  · rw [List.getElem?_set_ne (Ne.symm hji)] at hj
    exact .inr ⟨j, hji, hj⟩

theorem total_cons (f : P → Nat) (p : P) (l : List P) : total f (p :: l) = f p + total f l := by
  simp [total]

theorem le_total (f : P → Nat) (h : p ∈ threads) : f p ≤ total f threads := by
  induction threads with
  | nil => cases h
  | cons q threads ih =>
      rw [total_cons]
      rcases List.mem_cons.mp h with rfl | h
      · omega
      · have hle := ih h
        omega

theorem le_total_of_getElem (f : P → Nat) (h : threads[i]? = some p) : f p ≤ total f threads :=
  le_total f (List.mem_of_getElem? h)

theorem le_total_set (f : P → Nat) (h : threads[i]? = some p) (p' : P) :
    f p' ≤ total f (threads.set i p') := by
  have hset := total_set f h p'
  have hle := le_total_of_getElem f h
  omega

theorem total_mono (h : ∀ p, f p ≤ g p) (threads : List P) : total f threads ≤ total g threads := by
  induction threads with
  | nil => exact Nat.le_refl 0
  | cons p threads ih =>
      have hp := h p
      rw [total_cons, total_cons]
      omega

/-- The others hold no more of `f` than of `g`. -/
theorem total_mono_at (h : ∀ p, f p ≤ g p) (hi : threads[i]? = some p) :
    total f threads + g p ≤ total g threads + f p := by
  induction threads generalizing i with
  | nil => cases hi
  | cons q threads ih =>
      rw [total_cons, total_cons]
      cases i with
      | zero =>
          cases hi
          have hrest := total_mono h threads
          omega
      | succ i =>
          have hrest := ih hi
          have hq := h q
          omega

theorem exists_of_total_pos (h : 0 < total f threads) : ∃ p ∈ threads, 0 < f p := by
  induction threads with
  | nil => cases h
  | cons q threads ih =>
      rw [total_cons] at h
      by_cases hq : 0 < f q
      · exact ⟨q, List.mem_cons_self, hq⟩
      · obtain ⟨p, hp, hpos⟩ := ih (by omega)
        exact ⟨p, List.mem_cons_of_mem q hp, hpos⟩

/-- Two threads that hold something hold it both. -/
theorem add_le_total (f : P → Nat) {j : Nat} (hij : i ≠ j) (h : threads[i]? = some p)
    (h' : threads[j]? = some p') : f p + f p' ≤ total f threads := by
  induction threads generalizing i j with
  | nil => cases h
  | cons q threads ih =>
      rw [total_cons]
      cases i with
      | zero =>
          cases j with
          | zero => exact absurd rfl hij
          | succ j =>
              cases h
              have hj : threads[j]? = some p' := h'
              have hle := le_total_of_getElem f hj
              omega
      | succ i =>
          cases j with
          | zero =>
              cases h'
              have hi : threads[i]? = some p := h
              have hle := le_total_of_getElem f hi
              omega
          | succ j =>
              have hle := ih (fun heq => hij (by rw [heq])) h h'
              omega

end Jump.Core.Threads
