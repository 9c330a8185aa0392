import Jump.MemPool.RBTree.Refine

/-! # What a caller is told

The flag of the result should say whether the value went in. It does as long as
there is a free node or an equal key: `InsertNode` answers `end()` when the tree
is full, and `insert_unique` pairs that with `true`.

A serial names its element until an operation erases that element: insertions,
rebalancing and the erasure of others leave it in its node with its data.
-/

namespace Jump.MemPool.RBTree

open Jump.Core Jump.Core.ColoredTree Jump.Core.Ctx Prog

/-! ## The flag of `insert_unique` -/

section Unique

variable {V K : Type} {T : Params V K} {N : Nat} {m : Mem V} {t : ColoredTree Nat}
  {free : List Nat} {v : V}

/-- `insert_unique(v)` returns `true`, with the iterator of the new element, exactly when it
added `v`; with an equal key present, or with no free node left, it returns `false` and
changes nothing. -/
def UniqueExact (T : Params V K) (v : V) (m : Mem V) : Prop :=
  Ends (insertUnique T v) m fun r m' =>
    (r.2 = true → r.1 ∉ serials m ∧ ∃ xs ys, cells m = xs ++ ys ∧
      cells m' = xs ++ (r.1, v) :: ys) ∧
    (r.2 = false → m' = m) ∧
    ((∃ c ∈ cells m, cellEqual T (T.extractKey v) c = true) →
      r.2 = false ∧ ∃ c ∈ cells m, cellEqual T (T.extractKey v) c = true ∧ r.1 = c.1) ∧
    (m.szFreeNode = 0 → r.2 = false)

/-- An equal element is found and reported. -/
theorem insertUnique_present (hi : Inv T N m t free)
    (heq : ∃ c ∈ cells m, cellEqual T (T.extractKey v) c = true) :
    Ends (insertUnique T v) m fun r m' => r.2 = false ∧ m' = m ∧
      ∃ c ∈ cells m, cellEqual T (T.extractKey v) c = true ∧ r.1 = c.1 := by
  refine (insertUnique_ends hi).mono fun r m' h => ?_
  obtain ⟨r, new⟩ := r
  cases new with
  | true =>
      obtain ⟨-, hnone⟩ := h
      obtain ⟨c, hc, hcell⟩ := heq
      rw [cells_eq hi] at hc
      obtain ⟨a, ha, rfl⟩ := List.mem_map.mp hc
      simp only [cellEqual, cellKey, Bool.and_eq_true, Bool.not_eq_true'] at hcell
      rcases hnone a ha with hless | hgreater
      · rw [keyAt, hcell.1] at hless
        cases hless
      · rw [keyAt, hcell.2] at hgreater
        cases hgreater
  | false =>
      obtain ⟨rfl, hmem, hless, hgreater⟩ := h
      refine ⟨rfl, rfl, (r, m'.data r), ?_, ?_, rfl⟩
      · rw [cells_eq hi]
        exact List.mem_map_of_mem hmem
      · have hl : T.compareKey (cellKey T (r, m'.data r)) (T.extractKey v) = false := by
          simpa [keyAt, cellKey] using hless
        have hg : T.compareKey (T.extractKey v) (cellKey T (r, m'.data r)) = false := by
          simpa [keyAt, cellKey] using hgreater
        simp [cellEqual, hl, hg]

/-- With no equal element the result is that of `InsertNode`, flagged `true`. -/
theorem insertUnique_absent (hi : Inv T N m t free)
    (hne : ¬ ∃ c ∈ cells m, cellEqual T (T.extractKey v) c = true) :
    Ends (insertUnique T v) m fun r m' => r.2 = true ∧ Inserted T N v m t free r.1 m' := by
  refine (insertUnique_ends hi).mono fun r m' h => ?_
  obtain ⟨r, new⟩ := r
  cases new with
  | true => exact ⟨rfl, h.1⟩
  | false =>
      obtain ⟨rfl, hmem, hless, hgreater⟩ := h
      refine absurd ⟨(r, m'.data r), ?_, ?_⟩ hne
      · rw [cells_eq hi]
        exact List.mem_map_of_mem hmem
      · have hl : T.compareKey (cellKey T (r, m'.data r)) (T.extractKey v) = false := by
          simpa [keyAt, cellKey] using hless
        have hg : T.compareKey (T.extractKey v) (cellKey T (r, m'.data r)) = false := by
          simpa [keyAt, cellKey] using hgreater
        simp [cellEqual, hl, hg]

/-- A full tree with no equal element answers `(end(), true)` and stays as it is. -/
theorem insertUnique_full (hi : Inv T N m t []) (hne : ¬ ∃ c ∈ cells m,
    cellEqual T (T.extractKey v) c = true) :
    Ends (insertUnique T v) m fun r m' => r = (N, true) ∧ m' = m := by
  refine (insertUnique_absent hi hne).mono fun r m' h => ?_
  obtain ⟨r, new⟩ := r
  obtain ⟨hnew, rfl, rfl⟩ := h
  exact ⟨by rw [← hnew], rfl⟩

/-- A fresh element stands at one place of the sequence. -/
theorem Inserted.placed {i r : Nat} {m' : Mem V} (hi : Inv T N m t (i :: free))
    (h : Inserted T N v m t (i :: free) r m') : r ∉ serials m ∧ ∃ xs ys, cells m = xs ++ ys ∧
      cells m' = xs ++ (r, v) :: ys := by
  obtain ⟨-, hseq⟩ := inserted_seq hi h
  have hlen := length_cells hi
  have hcard := hi.card_add
  have hroom : ¬ (cells m).length = N := by
    rw [List.length_cons] at hcard
    omega
  rw [SeqInsert, if_neg hroom] at hseq
  obtain ⟨-, hnew, hcells⟩ := hseq
  have hserials : (cells m).map (·.1) = serials m := by
    simp [cells, List.map_map, Function.comp_def]
  rw [hserials] at hnew
  exact ⟨hnew, _, _, (List.takeWhile_append_dropWhile).symm, hcells⟩

theorem not_uniqueExact_of_full (hi : Inv T N m t [])
    (hne : ¬ ∃ c ∈ cells m, cellEqual T (T.extractKey v) c = true) : ¬ UniqueExact T v m := by
  intro hexact
  obtain ⟨r, ws, -, ⟨-, -, -, hfull⟩, hr, -⟩ := hexact.and (insertUnique_full hi hne)
  have hzero : m.szFreeNode = 0 := hi.szFree
  have hflag := hfull hzero
  rw [hr] at hflag
  cases hflag

/-- The flag is right exactly when an equal key is present or a node is free. -/
theorem insertUnique_exact_iff {tr : List (Op V K × Res)} (pos : 1 ≤ N) (small : N < INVALID_POINT)
    (hrun : Run T N tr m) (v : V) : UniqueExact T v m ↔
      (∃ c ∈ cells m, cellEqual T (T.extractKey v) c = true) ∨ m.szFreeNode ≠ 0 := by
  obtain ⟨⟨t, free, hi⟩, -⟩ := run_inv pos small hrun
  by_cases heq : ∃ c ∈ cells m, cellEqual T (T.extractKey v) c = true
  · refine iff_of_true ?_ (Or.inl heq)
    refine (insertUnique_present hi heq).mono fun r m' h => ?_
    obtain ⟨hflag, rfl, hcell⟩ := h
    exact ⟨fun htrue => absurd (hflag.symm.trans htrue) (by decide), fun _ => rfl,
      fun _ => ⟨hflag, hcell⟩, fun _ => hflag⟩
  · cases free with
    | nil =>
        have hzero : m.szFreeNode = 0 := hi.szFree
        exact iff_of_false (not_uniqueExact_of_full hi heq) fun h => h.elim heq fun hfree =>
          hfree hzero
    | cons i free =>
        have hfree : m.szFreeNode ≠ 0 := by
          rw [hi.szFree, List.length_cons]
          omega
        refine iff_of_true ?_ (Or.inr hfree)
        refine (insertUnique_absent hi heq).mono fun r m' h => ?_
        obtain ⟨hflag, hins⟩ := h
        exact ⟨fun _ => hins.placed hi, fun hfalse => absurd (hflag.symm.trans hfalse) (by decide),
          fun h => absurd h heq, fun h => absurd h hfree⟩

/-- After one insertion a tree of one node is full. -/
theorem nat_full : ∃ r m, Run natParams 1 [(.insertEqual 5, r)] m ∧ m.szFreeNode = 0 ∧
    ∃ i, cells m = [(i, 5)] := by
  have hinit : Ends (init natParams 1 false) zeroMem fun r m' =>
      r = .ret 0 ∧ Inv natParams 1 m' leaf (List.range 1) := init_ends (by decide) (by decide)
  obtain ⟨_, ws, h, rfl, hi⟩ := hinit
  have hstart : cells (replay ws zeroMem) = [] := by
    rw [cells_eq hi]
    rfl
  obtain ⟨i, ws', hins, hnew⟩ := insertEqual_ends (v := 5) hi
  have hop : (Op.insertEqual 5 : Op Nat Nat).run natParams (replay ws zeroMem) =
      some (.iter i, ws') := by
    have hrun := run_bind (f := fun pos => pure (Res.iter pos)) hins
    simpa [Op.run, run_pure] using hrun
  obtain ⟨-, xs, ys, hold, hcells⟩ := Inserted.placed hi hnew
  obtain ⟨-, t', -, -, hi', -⟩ := hnew
  rw [hstart] at hold
  obtain ⟨rfl, rfl⟩ := List.append_eq_nil_iff.mp hold.symm
  have ha : (Op.insertEqual 5 : Op Nat Nat).Admissible (replay ws zeroMem) := trivial
  exact ⟨_, _, (Run.init h).step ha hop, hi'.szFree, i, hcells⟩

/-- In a full tree of one element 5, `insert_unique(7)` says `true` and adds nothing. -/
theorem insertUnique_full_nat : ∃ r m, Run natParams 1 [(.insertEqual 5, r)] m ∧
    (∃ ws, insertUnique natParams 7 m = some ((1, true), ws) ∧ replay ws m = m) ∧
    ¬ UniqueExact natParams 7 m := by
  obtain ⟨r, m, hrun, hfull, i, hcells⟩ := nat_full
  obtain ⟨⟨t, free, hi⟩, -⟩ := run_inv (by decide) (by decide) hrun
  obtain rfl : free = [] := List.length_eq_zero_iff.mp (hi.szFree.symm.trans hfull)
  have hne : ¬ ∃ c ∈ cells m, cellEqual natParams (natParams.extractKey 7) c = true := by
    rw [hcells]
    simp [cellEqual, cellKey, natParams]
  obtain ⟨res, ws, hres, rfl, hsame⟩ := insertUnique_full hi hne
  exact ⟨r, m, hrun, ⟨ws, hres, hsame⟩, not_uniqueExact_of_full hi hne⟩

theorem insertUnique_exact_iff_nat : ∃ r m, Run natParams 1 [(.insertEqual 5, r)] m ∧
    (UniqueExact natParams 5 m ↔
      (∃ c ∈ cells m, cellEqual natParams (natParams.extractKey 5) c = true) ∨
        m.szFreeNode ≠ 0) := by
  obtain ⟨r, m, hrun, -⟩ := nat_full
  exact ⟨r, m, hrun, insertUnique_exact_iff (by decide) (by decide) hrun 5⟩

end Unique

/-! ## How long a serial is good for -/

section Serials

variable {V K : Type} {T : Params V K} {N : Nat} {m m' : Mem V} {t : ColoredTree Nat}
  {free : List Nat}

/-- The operation is asked to erase the element `c` of the sequence `s`. -/
def Op.Erases (T : Params V K) (N : Nat) : Op V K → Cells V → Nat × V → Prop
  | .clear, _, _ => True
  | .erase pos, _, c => c.1 = pos
  | .eraseRange first last, s, c => ∃ xs ys zs, s = xs ++ (ys ++ zs) ∧
      first = iterAt N (ys ++ zs) ∧ last = iterAt N zs ∧ c ∈ ys
  | .eraseUnique k, s, c => s.find? (cellEqual T k) = some c
  | .eraseEqual k, _, c => cellEqual T k c = true
  | _, _, _ => False

/-- Histories from `m` to a later memory in which no operation erases `c`. The
mapping may be attached anew as long as it is clean. -/
inductive Sparing (T : Params V K) (N : Nat) (c : Nat × V) (m : Mem V) : Mem V → Prop where
  | refl : Sparing T N c m m
  | step {m' : Mem V} {op : Op V K} {r : Res} {ws : List (Write V)} : Sparing T N c m m' →
      op.Admissible m' → ¬ op.Erases T N (cells m') c → op.run T m' = some (r, ws) →
      Sparing T N c m (replay ws m')
  | attach {m' : Mem V} {e : Exit} {ws : List (Write V)} : Sparing T N c m m' →
      m'.dirtyFlag = 0 → init T N true m' = some (e, ws) → Sparing T N c m (replay ws m')

theorem mem_insertUpper {c x : Nat × V} {s : Cells V} (hc : c ∈ s) :
    c ∈ insertUpper T.compareKey (cellKey T) x s := by
  rw [← List.takeWhile_append_dropWhile (p := fun a =>
    !T.compareKey (cellKey T x) (cellKey T a)) (l := s)] at hc
  rw [insertUpper, List.mem_append, List.mem_cons]
  exact (List.mem_append.mp hc).imp id Or.inr

theorem SeqInsert.mem {v : V} {c : Nat × V} {s s' : Cells V} {pos : Nat}
    (h : SeqInsert T N v s pos s') (hc : c ∈ s) : c ∈ s' := by
  rw [SeqInsert] at h
  split at h
  · rwa [h.2]
  · rw [h.2.2]
    exact mem_insertUpper hc

/-- An operation that is not asked to erase an element leaves it where it is. -/
theorem SeqStep.mem {op : Op V K} {s s' : Cells V} {r : Res} {c : Nat × V}
    (h : SeqStep T N op s r s') (hc : c ∈ s) (hnot : ¬ op.Erases T N s c) : c ∈ s' := by
  cases op with
  | clear => exact absurd trivial hnot
  | insertEqual v =>
      obtain ⟨pos, -, hins⟩ := h
      exact hins.mem hc
  | insertUnique v =>
      rw [SeqStep] at h
      split at h
      · obtain ⟨d, -, -, -, rfl⟩ := h
        exact hc
      · obtain ⟨pos, -, hins⟩ := h
        exact hins.mem hc
  | erase pos =>
      obtain ⟨-, rfl⟩ := h
      exact List.mem_filter.mpr ⟨hc, decide_eq_true hnot⟩
  | eraseRange first last =>
      obtain ⟨xs, ys, zs, rfl, hfirst, hlast, -, rfl⟩ := h
      simp only [List.mem_append] at hc ⊢
      rcases hc with hc | hc | hc
      · exact Or.inl hc
      · exact absurd ⟨xs, ys, zs, rfl, hfirst, hlast, hc⟩ hnot
      · exact Or.inr hc
  | eraseUnique k =>
      obtain ⟨-, rfl⟩ := h
      by_cases hall : ∀ a ∈ s, ¬ cellEqual T k a = true
      · rwa [List.eraseP_of_forall_not hall]
      · simp only [not_forall, not_not] at hall
        obtain ⟨a, ha, hp⟩ := hall
        obtain ⟨d, l, l', hl, hd, rfl, hrest⟩ := List.exists_of_eraseP ha hp
        have hfirst : (l ++ d :: l').find? (cellEqual T k) = some d :=
          List.find?_eq_some_iff_append.mpr ⟨hd, l, l', rfl, fun a ha => by simpa using hl a ha⟩
        rw [hrest]
        simp only [List.mem_append, List.mem_cons] at hc ⊢
        rcases hc with hc | rfl | hc
        · exact Or.inl hc
        · exact absurd hfirst hnot
        · exact Or.inr hc
  | eraseEqual k =>
      obtain ⟨-, rfl⟩ := h
      have hp : (!cellEqual T k c) = true := by
        have hne : ¬ cellEqual T k c = true := hnot
        simpa using hne
      exact List.mem_filter.mpr ⟨hc, hp⟩
  | lowerBound k =>
      obtain ⟨-, rfl⟩ := h
      exact hc
  | upperBound k =>
      obtain ⟨-, rfl⟩ := h
      exact hc
  | equalRange k =>
      obtain ⟨-, rfl⟩ := h
      exact hc
  | find k =>
      obtain ⟨-, rfl⟩ := h
      exact hc

/-- Attaching a clean mapping changes nothing. -/
theorem init_clean {e : Exit} {ws : List (Write V)} (clean : m.dirtyFlag = 0)
    (h : init T N true m = some (e, ws)) : replay ws m = m := by
  have hsame : Ends (init T N true) m fun _ m' => m' = m := by
    simp only [init, header, if_true, ends_bind, ends_read, ends_ite, clean, ne_eq, not_true,
      if_false, ends_pure]
    split <;> trivial
  exact hsame.of_eq h

/-- Through such a history the element stays in the sequence, and the invariant holds. -/
theorem Sparing.keeps {c : Nat × V} (hi : Inv T N m t free) (pos : 1 ≤ N) (hc : c ∈ cells m)
    (h : Sparing T N c m m') : (∃ t' free', Inv T N m' t' free') ∧ c ∈ cells m' := by
  induction h with
  | refl => exact ⟨⟨t, free, hi⟩, hc⟩
  | step _ ha hnot hop ih =>
      obtain ⟨⟨t', free', hi'⟩, hc'⟩ := ih
      obtain ⟨hi'', hstep⟩ := (step_ends hi' pos _ ha).of_eq hop
      exact ⟨hi'', hstep.mem hc' hnot⟩
  | attach _ hclean hinit ih =>
      rw [init_clean hclean hinit]
      exact ih

/-- An insertion hands out no serial that names a live element. -/
theorem Inserted.fresh {v : V} {r : Nat} {c : Nat × V} (hi : Inv T N m t free)
    (h : Inserted T N v m t free r m') (hc : c ∈ cells m) : r ≠ c.1 := by
  rw [cells_eq hi] at hc
  obtain ⟨i, hit, rfl⟩ := List.mem_map.mp hc
  have hlt := hi.mem_iff.mp (Or.inl hit)
  cases free with
  | nil =>
      obtain ⟨rfl, -⟩ := h
      exact Nat.ne_of_gt hlt
  | cons j free =>
      obtain ⟨rfl, -⟩ := h
      obtain ⟨-, -, hnot⟩ := hi.free_ne List.mem_cons_self
      exact fun he => hnot (show r ∈ t.toList from he ▸ hit)

end Serials

end Jump.MemPool.RBTree
