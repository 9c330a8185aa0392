import Mathlib.Data.List.AList

/-! # A map filled entry by entry

Entries stored into a map one after another: under each key it has the last of them, and
what it had before where no entry has the key.
-/

namespace Jump.Core.LastEntry

section Split

variable {α : Type*} {a : α} {xs : List α}

end Split

variable {κ ρ : Type*} [DecidableEq κ]

/-- A map without dependence of the values on the key -/
abbrev Map (κ ρ : Type*) := AList fun _ : κ => ρ

/-- What the last entry with key `k` holds. -/
def lastEntry (k : κ) (entries : List (κ × ρ)) : Option ρ := entries.reverse.lookup k

/-- The entries are stored from the first to the last. -/
def storeAll (entries : List (κ × ρ)) (m : Map κ ρ) : Map κ ρ :=
  entries.foldl (fun m e => m.insert e.1 e.2) m

section Last

variable {k : κ} {e : κ × ρ} {entries rest : List (κ × ρ)}

theorem lastEntry_append : lastEntry k (entries ++ rest) =
    (lastEntry k rest).or (lastEntry k entries) := by
  rw [lastEntry, List.reverse_append, List.lookup_append]
  rfl

theorem lastEntry_cons : lastEntry k (e :: rest) =
    (lastEntry k rest).or (if k = e.1 then some e.2 else none) := by
  have hone : lastEntry k [e] = if k = e.1 then some e.2 else none := by
    by_cases h : k = e.1
    · rw [if_pos h, h]
      exact List.lookup_cons_self
    · rw [if_neg h]
      exact List.lookup_eq_none_iff.mpr (by simpa using h)
  rw [← hone, ← lastEntry_append, List.singleton_append]

theorem lastEntry_eq_none_iff : lastEntry k entries = none ↔ ∀ e ∈ entries, e.1 ≠ k := by
  induction entries with
  | nil => simp [lastEntry]
  | cons e rest ih =>
      rw [lastEntry_cons, Option.or_eq_none_iff, ih, List.forall_mem_cons]
      by_cases h : k = e.1
      · simp [h]
      · simp [h, Ne.symm h]

theorem lookup_storeAll (entries : List (κ × ρ)) (m : Map κ ρ) (k : κ) :
    (storeAll entries m).lookup k = (lastEntry k entries).or (m.lookup k) := by
  induction entries generalizing m with
  | nil => rfl
  | cons e rest ih =>
      have hstep : storeAll (e :: rest) m = storeAll rest (m.insert e.1 e.2) := rfl
      rw [hstep, ih, lastEntry_cons, Option.or_assoc]
      by_cases h : k = e.1
      · subst h
        rw [AList.lookup_insert, if_pos rfl]
        rfl
      · rw [AList.lookup_insert_ne h, if_neg h]
        rfl

end Last

section Positions

variable {a : κ} {pre post : List κ}

end Positions

end Jump.Core.LastEntry
