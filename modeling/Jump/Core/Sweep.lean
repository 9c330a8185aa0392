import Mathlib.Data.List.Nodup
import Mathlib.Data.Set.Card

/-! # One sweep over a row of cells that may go out of use

The cells are numbered, and a sweep shows the keys of the cells it finds in use,
by their numbers. Between two looks a key can be freed, which puts its cell out
of use wherever the sweep stands.
-/

namespace Jump.Core

/-- What happened during a sweep, in order. -/
inductive SweepEvent (κ : Type) where
  | visit (key : κ)
  | free (key : κ)
deriving DecidableEq

namespace SweepEvent

variable {κ : Type}

def visited? : SweepEvent κ → Option κ
  | visit key => some key
  | free _ => none

end SweepEvent

/-- The keys that a sweep showed. -/
def visits {κ : Type} (log : List (SweepEvent κ)) : List κ := log.filterMap SweepEvent.visited?

section

variable {κ : Type} {key : κ} {log : List (SweepEvent κ)}

theorem visits_visit : visits (log ++ [.visit key]) = visits log ++ [key] := by
  rw [visits, List.filterMap_append]
  rfl

theorem visits_free : visits (log ++ [.free key]) = visits log := by
  rw [visits, List.filterMap_append]
  exact List.append_nil _

theorem count_visits [DecidableEq κ] : log.count (.visit key) = (visits log).count key := by
  induction log with
  | nil => rfl
  | cons e log ih =>
      cases e with
      | visit k =>
          have hv : visits (.visit k :: log) = k :: visits log := rfl
          rw [hv, List.count_cons, List.count_cons, ih]
          simp
      | free k =>
          have hv : visits (.free k :: log) = visits log := rfl
          rw [hv, List.count_cons, ih]
          simp

end

/-- No key is shown behind the event that freed it. -/
def NoneLate {κ : Type} (log : List (SweepEvent κ)) : Prop :=
  ∀ xs ys key, log = xs ++ .free key :: ys → .visit key ∉ ys

theorem noneLate_concat {κ : Type} {e : SweepEvent κ} {log : List (SweepEvent κ)}
    (h : NoneLate log) (he : ∀ key, e = .visit key → .free key ∉ log) : NoneLate (log ++ [e]) := by
  intro xs ys key hsplit hmem
  rcases List.eq_nil_or_concat ys with rfl | ⟨zs, last, rfl⟩
  · cases hmem
  · rw [List.concat_eq_append] at hsplit hmem
    rw [← List.cons_append, ← List.append_assoc] at hsplit
    obtain ⟨hlog, hlast⟩ := List.append_inj' hsplit rfl
    rcases List.mem_append.mp hmem with hold | hnew
    · exact h xs zs key hlog hold
    · have hkey : e = .visit key := by
        rw [List.singleton_inj.mp hlast]
        exact (List.mem_singleton.mp hnew).symm
      refine he key hkey ?_
      rw [hlog]
      exact List.mem_append_right _ List.mem_cons_self

/-- A sweep has passed the cells below `pos`. `live` are the cells in use when it
began, `key` tells what each of them holds, and `left` are those still in use. -/
structure Sweep {κ : Type} (key : Nat → κ) (live left : Nat → Prop) (pos : Nat)
    (log : List (SweepEvent κ)) : Prop where
  inj : ∀ i j, live i → live j → key i = key j → i = j
  sub : ∀ i, left i → live i
  gone : ∀ i, live i → (left i ↔ .free (key i) ∉ log)
  passed : ∀ i < pos, left i → key i ∈ visits log
  origin : ∀ k ∈ visits log, ∃ i < pos, live i ∧ key i = k
  nodup : (visits log).Nodup
  late : NoneLate log

namespace Sweep

variable {κ : Type} {key : Nat → κ} {live left : Nat → Prop} {pos n : Nat}
  {log : List (SweepEvent κ)}

theorem start (inj : ∀ i j, live i → live j → key i = key j → i = j) :
    Sweep key live live 0 [] where
  inj := inj
  sub _ h := h
  gone i h := ⟨fun _ => List.not_mem_nil, fun _ => h⟩
  passed i hi := absurd hi (Nat.not_lt_zero i)
  origin k hk := absurd hk List.not_mem_nil
  nodup := List.nodup_nil
  late := by
    intro xs ys k h
    simp at h

/-- The sweep goes on to the next cell in use. -/
theorem visit (h : Sweep key live left pos log) {i : Nat} (hpos : pos ≤ i) (hi : left i)
    (skipped : ∀ j, pos ≤ j → j < i → ¬ left j) :
    Sweep key live left (i + 1) (log ++ [.visit (key i)]) where
  inj := h.inj
  sub := h.sub
  gone j hj := by
    rw [h.gone j hj, List.mem_append]
    simp
  passed j hj hl := by
    rw [visits_visit, List.mem_append]
    by_cases hp : j < pos
    · exact Or.inl (h.passed j hp hl)
    · have hji : j = i := by
        by_contra hne
        exact skipped j (by omega) (by omega) hl
      rw [hji]
      exact Or.inr List.mem_cons_self
  origin k hk := by
    rw [visits_visit] at hk
    rcases List.mem_append.mp hk with hold | hnew
    · obtain ⟨j, hj, hl, he⟩ := h.origin k hold
      exact ⟨j, by omega, hl, he⟩
    · exact ⟨i, by omega, h.sub i hi, (List.mem_singleton.mp hnew).symm⟩
  nodup := by
    rw [visits_visit, ← List.concat_eq_append]
    refine h.nodup.concat fun hmem => ?_
    obtain ⟨j, hj, hl, he⟩ := h.origin _ hmem
    have hji := h.inj j i hl (h.sub i hi) he
    omega
  late := by
    refine noneLate_concat h.late fun k hk => ?_
    cases hk
    exact (h.gone i (h.sub i hi)).mp hi

/-- The sweep finds no more cells in use. -/
theorem finish (h : Sweep key live left pos log) (skipped : ∀ j, pos ≤ j → j < n → ¬ left j) :
    Sweep key live left (max pos n) log where
  inj := h.inj
  sub := h.sub
  gone := h.gone
  passed j hj hl := by
    by_cases hp : j < pos
    · exact h.passed j hp hl
    · exact absurd hl (skipped j (by omega) (by omega))
  origin k hk := by
    obtain ⟨j, hj, hl, he⟩ := h.origin k hk
    exact ⟨j, by omega, hl, he⟩
  nodup := h.nodup
  late := h.late

/-- A key is freed. -/
theorem free (h : Sweep key live left pos log) (k : κ) :
    Sweep key live (fun i => left i ∧ key i ≠ k) pos (log ++ [.free k]) where
  inj := h.inj
  sub i hi := h.sub i hi.1
  gone i hi := by
    rw [h.gone i hi, List.mem_append]
    simp
  passed i hi hl := by
    rw [visits_free]
    exact h.passed i hi hl.1
  origin j hj := by
    rw [visits_free] at hj
    exact h.origin j hj
  nodup := by
    rw [visits_free]
    exact h.nodup
  late := by
    refine noneLate_concat h.late fun j hj => ?_
    cases hj

/-- A sweep past every cell has shown each key that was not freed, once. -/
theorem complete [DecidableEq κ] (h : Sweep key live left pos log)
    (bound : ∀ i, live i → i < pos) {i : Nat} (hi : live i) (kept : .free (key i) ∉ log) :
    log.count (.visit (key i)) = 1 := by
  rw [count_visits]
  exact List.count_eq_one_of_mem h.nodup (h.passed i (bound i hi) ((h.gone i hi).mpr kept))

/-- A sweep shows no more keys than there were. -/
theorem length_le (h : Sweep key live left pos log) {keys : Set κ} (fin : keys.Finite)
    (all : ∀ i, live i → key i ∈ keys) : (visits log).length ≤ keys.ncard := by
  classical
  have hsub : ((visits log).toFinset : Set κ) ⊆ keys := by
    intro k hk
    rw [List.coe_toFinset] at hk
    obtain ⟨i, -, hl, rfl⟩ := h.origin k hk
    exact all i hl
  rw [← List.toFinset_card_of_nodup h.nodup, ← Set.ncard_coe_finset]
  exact Set.ncard_le_ncard hsub fin

end Sweep

end Jump.Core
