import Jump.MemPool.RBTree.Refine

/-! # `Init` on a surviving mapping

With the dirty flag clear the mapping is taken as it is. With the flag set the
tree is rebuilt from the nodes in use, if their number is what the header says.
-/

namespace Jump.MemPool.RBTree

open Jump.Core Jump.Core.ColoredTree Jump.Core.Ctx Prog

variable {V K : Type} {T : Params V K} {N : Nat} {m : Mem V} {t : ColoredTree Nat} {free : List Nat}

/-- The elements of the tree in order. -/
def contents (m : Mem V) : List V := (serials m).map m.data

theorem contents_eq (hi : Inv T N m t free) : contents m = t.toList.map m.data := by
  rw [contents, serials_eq hi]

/-- What `Init(mem, node_num, restore = true)` owes to the operation a crash
interrupted: it returns 0 and the tree is valid, holds the elements from before
or from after the operation, and every node is in the tree or on the free list. -/
def Recovered (T : Params V K) (N : Nat) (before after : List V) (c : Mem V) : Prop :=
  Ends (init T N true) c fun r m => r = .ret 0 ∧ ∃ t free, Valid T N m t ∧
    ((contents m).Perm before ∨ (contents m).Perm after) ∧
    Chain (m.child .right) INVALID_POINT m.freeNodeList free ∧
    (t.toList ++ free).Perm (List.range N) ∧ m.szFreeNode + m.szUseNode = N

/-! ## Rebuilding -/

/-- A first free node takes one more element. -/
theorem Inserted.contents_perm {v : V} {i r : Nat} {m' : Mem V} (hi : Inv T N m t (i :: free))
    (h : Inserted T N v m t (i :: free) r m') :
    r = i ∧ ∃ t', Inv T N m' t' free ∧ (contents m').Perm (v :: contents m) := by
  obtain ⟨rfl, t', xs, ys, hi', hlist, hseq, hdata, -, -⟩ := h
  obtain ⟨-, -, hnot⟩ := hi.free_ne List.mem_cons_self
  have hkeep : ∀ zs : List Nat, (∀ j ∈ zs, j ∈ t.toList) → zs.map m'.data = zs.map m.data := by
    intro zs hz
    refine List.map_congr_left fun j hj => ?_
    have hne : j ≠ r := fun he => hnot (he ▸ hz j hj)
    rw [hdata, if_neg hne]
  refine ⟨rfl, t', hi', ?_⟩
  rw [contents_eq hi', contents_eq hi, hseq, hlist, List.map_append, List.map_append, List.map_cons,
    hkeep xs (fun j hj => by rw [hlist]; exact List.mem_append_left _ hj),
    hkeep ys (fun j hj => by rw [hlist]; exact List.mem_append_right _ hj), hdata, if_pos rfl]
  exact List.perm_middle

theorem insertAll_ends {va : List V} (hi : Inv T N m t free) (fits : va.length ≤ free.length) :
    Ends (insertAll T va) m fun r m' => r = .ret 0 ∧ ∃ t' free', Inv T N m' t' free' ∧
      (contents m').Perm (va ++ contents m) := by
  induction va generalizing m t free with
  | nil => exact ends_pure.mpr ⟨rfl, t, free, hi, List.Perm.refl _⟩
  | cons v va ih =>
      cases free with
      | nil => simp at fits
      | cons i free =>
          simp only [List.length_cons, Nat.add_le_add_iff_right] at fits
          obtain ⟨hiN, -, -⟩ := hi.free_ne List.mem_cons_self
          rw [insertAll, ends_bind]
          refine (insertEqual_ends hi).mono fun r m₁ hins => ?_
          obtain ⟨rfl, t₁, hi₁, hperm⟩ := hins.contents_perm hi
          have hend : r ≠ m₁.numOfNode := by
            rw [hi₁.header]
            omega
          simp only [endIt, header, ends_bind, ends_read, ends_ite, ends_pure, if_neg hend]
          refine (ih hi₁ fits).mono fun r' m₂ h₂ => ?_
          obtain ⟨rfl, t₂, free₂, hi₂, hperm₂⟩ := h₂
          have hmid : (va ++ contents m₁).Perm (va ++ v :: contents m) := hperm.append_left va
          exact ⟨rfl, t₂, free₂, hi₂, hperm₂.trans (hmid.trans List.perm_middle)⟩

theorem rebuild_ends {va : List V} (pos : 1 ≤ N) (small : N < INVALID_POINT)
    (fits : va.length ≤ N) : Ends (rebuild T N va) m fun r m' => r = .ret 0 ∧ ∃ t' free',
      Inv T N m' t' free' ∧ (contents m').Perm va := by
  simp only [rebuild, ends_bind, ends_write]
  refine (clear_ends (T := T) (by simp) pos small).mono fun _ m₁ hi => ?_
  have hroom : va.length ≤ (List.range N).length := by rwa [List.length_range]
  refine (insertAll_ends hi hroom).mono fun r m₂ h₂ => ?_
  obtain ⟨rfl, t', free', hi', hperm⟩ := h₂
  rw [contents_eq hi, toList_leaf, List.map_nil, List.append_nil] at hperm
  exact ⟨rfl, t', free', hi', hperm⟩

/-! ## The outcomes -/

/-- The nodes whose use flag is set. -/
def usedNodes (N : Nat) (m : Mem V) : List Nat := (List.range N).filter fun i => m.useFlag i ≠ 0

theorem usedData_ends {Q : List V → Mem V → Prop} :
    Ends (usedData N) m Q ↔ Q ((usedNodes N m).map m.data) m :=
  ends_read

theorem usedNodes_perm {live rest : List Nat} (nodes : (live ++ rest).Perm (List.range N))
    (used : ∀ i ∈ live, m.useFlag i ≠ 0) (unused : ∀ i ∈ rest, m.useFlag i = 0) :
    (usedNodes N m).Perm live := by
  have hlive : live.filter (fun i => decide (m.useFlag i ≠ 0)) = live :=
    List.filter_eq_self.mpr (by simpa using used)
  have hrest : rest.filter (fun i => decide (m.useFlag i ≠ 0)) = [] :=
    List.filter_eq_nil_iff.mpr (by simpa using unused)
  have hfilter := nodes.symm.filter fun i => decide (m.useFlag i ≠ 0)
  rwa [List.filter_append, hlive, hrest, List.append_nil] at hfilter

variable {before after : List V} {c : Mem V}

/-- A clean mapping is taken as it is. -/
theorem recovered_clean_iff (num : c.numOfNode = N) (clean : c.dirtyFlag = 0) :
    Recovered T N before after c ↔ ∃ t free, Valid T N c t ∧
      ((contents c).Perm before ∨ (contents c).Perm after) ∧
      Chain (c.child .right) INVALID_POINT c.freeNodeList free ∧
      (t.toList ++ free).Perm (List.range N) ∧ c.szFreeNode + c.szUseNode = N := by
  simp only [Recovered, init, header, if_true, ends_bind, ends_read, ends_ite, num, clean,
    not_true, ne_eq, if_false, ends_pure, true_and]

theorem Inv.recovered (hi : Inv T N c t free)
    (same : (contents c).Perm before ∨ (contents c).Perm after) :
    Recovered T N before after c := by
  have hcard := hi.card_add
  have huse := hi.szUse
  have hfree := hi.szFree
  refine (recovered_clean_iff hi.header hi.clean).mpr
    ⟨t, free, hi.toValid, same, hi.freeChain, hi.nodes, ?_⟩
  omega

/-- A clean mapping in which the counters do not add up stays so. -/
theorem not_recovered_of_sum (num : c.numOfNode = N) (clean : c.dirtyFlag = 0)
    (sum : c.szFreeNode + c.szUseNode ≠ N) : ¬ Recovered T N before after c := by
  rw [recovered_clean_iff num clean]
  rintro ⟨t, free, -, -, -, -, h⟩
  exact sum h

/-- A clean mapping that lost a node does not find it again. -/
theorem not_recovered_of_lost {i : Nat} (hv : Valid T N c t) (hc : t.card ≤ N)
    (chain : Chain (c.child .right) INVALID_POINT c.freeNodeList free)
    (stop : INVALID_POINT ∉ free) (small : N < INVALID_POINT) (clean : c.dirtyFlag = 0)
    (hi : i < N) (ht : i ∉ t.toList) (hf : i ∉ free) : ¬ Recovered T N before after c := by
  rw [recovered_clean_iff hv.header clean]
  rintro ⟨t', free', hv', -, chain', nodes, -⟩
  have hlen := nodes.length_eq
  rw [List.length_append, List.length_range] at hlen
  have hc' : t'.card ≤ N := by
    unfold card
    omega
  have hstop : INVALID_POINT ∉ free' := by
    intro h
    have hlt := List.mem_range.mp (nodes.mem_iff.mp (List.mem_append_right _ h))
    omega
  obtain rfl := chain.unique chain' stop hstop
  have hlist : t'.toList = t.toList := by
    rw [← hv'.serials_eq hc', hv.serials_eq hc]
  have hmem := nodes.mem_iff.mpr (List.mem_range.mpr hi)
  rw [hlist] at hmem
  exact (List.mem_append.mp hmem).elim ht hf

/-- A mapping left dirty fails the assertion unless the header counts the used nodes. -/
theorem not_recovered_of_count (num : c.numOfNode = N) (dirty : c.dirtyFlag ≠ 0)
    (count : (usedNodes N c).length ≠ c.szUseNode) : ¬ Recovered T N before after c := by
  simp only [Recovered, init, header, usedData_ends, if_true, ends_bind, ends_read, ends_ite, num,
    not_true, ne_eq, if_false, dirty, not_false_eq_true, ends_pure, List.length_map]
  rw [if_pos count]
  rintro ⟨h, -⟩
  cases h

/-- A mapping left dirty is rebuilt from the used nodes. -/
theorem recovered_of_count (pos : 1 ≤ N) (small : N < INVALID_POINT) (num : c.numOfNode = N)
    (dirty : c.dirtyFlag ≠ 0) (count : (usedNodes N c).length = c.szUseNode)
    (same : ((usedNodes N c).map c.data).Perm before ∨ ((usedNodes N c).map c.data).Perm after) :
    Recovered T N before after c := by
  have hroom : ((usedNodes N c).map c.data).length ≤ N := by
    rw [List.length_map]
    exact (List.length_filter_le _ _).trans (by rw [List.length_range])
  have hrebuild : Ends (rebuild T N ((usedNodes N c).map c.data)) c _ :=
    rebuild_ends pos small hroom
  simp only [Recovered, init, header, usedData_ends, if_true, ends_bind, ends_read, ends_ite, num,
    not_true, ne_eq, if_false, dirty, not_false_eq_true, List.length_map]
  rw [if_neg (not_not.mpr count)]
  refine hrebuild.mono fun r m' h' => ?_
  obtain ⟨rfl, t', free', hi', hperm⟩ := h'
  have hcard := hi'.card_add
  have huse := hi'.szUse
  have hfree := hi'.szFree
  exact ⟨rfl, t', free', hi'.toValid, same.imp hperm.trans hperm.trans, hi'.freeChain, hi'.nodes,
    by omega⟩

/-! ## A dirty image -/

/-- Whatever the links, colours, sizes and free list of a dirty image are, the tree is
rebuilt from the nodes whose use flag is set. -/
theorem init_dirty (T : Params V K) {N : Nat} {m₀ : Mem V} (pos : 1 ≤ N)
    (small : N < INVALID_POINT) (num : m₀.numOfNode = N) (dirty : m₀.dirtyFlag ≠ 0)
    (count : m₀.szUseNode = (usedNodes N m₀).length) :
    ∃ ws, init T N true m₀ = some (.ret 0, ws) ∧ ∃ t free, Valid T N (replay ws m₀) t ∧
      (contents (replay ws m₀)).Perm ((usedNodes N m₀).map m₀.data) ∧
      (replay ws m₀).dirtyFlag = 0 ∧
      Chain ((replay ws m₀).child .right) INVALID_POINT (replay ws m₀).freeNodeList free ∧
      (t.toList ++ free).Perm (List.range N) := by
  have hroom : ((usedNodes N m₀).map m₀.data).length ≤ N := by
    rw [List.length_map]
    exact (List.length_filter_le _ _).trans (by rw [List.length_range])
  have hrebuild : Ends (rebuild T N ((usedNodes N m₀).map m₀.data)) m₀ _ :=
    rebuild_ends pos small hroom
  have hinit : Ends (init T N true) m₀ fun r m => r = .ret 0 ∧ ∃ t free, Inv T N m t free ∧
      (contents m).Perm ((usedNodes N m₀).map m₀.data) := by
    simp only [init, header, usedData_ends, if_true, ends_bind, ends_read, ends_ite, num,
      not_true, ne_eq, if_false, dirty, not_false_eq_true, List.length_map]
    rw [if_neg (not_not.mpr count.symm)]
    exact hrebuild
  obtain ⟨_, ws, h, rfl, t, free, hi, hperm⟩ := hinit
  exact ⟨ws, h, t, free, hi.toValid, hperm, hi.clean, hi.freeChain, hi.nodes⟩

/-- A dirty image of two nodes; node 1 is in use and every link is astray. -/
def dirtyMem : Mem Nat :=
  { zeroMem with
    numOfNode := 2
    szUseNode := 1
    dirtyFlag := 1
    useFlag := fun i => i
    data := fun i => 6 + i }

theorem init_dirty_nat : ∃ ws, init natParams 2 true dirtyMem = some (.ret 0, ws) ∧
    (contents (replay ws dirtyMem)).Perm [7] := by
  obtain ⟨ws, h, -, -, -, hperm, -⟩ := init_dirty natParams (by decide : 1 ≤ 2)
    (by decide) (rfl : dirtyMem.numOfNode = 2) (by decide) (by decide)
  exact ⟨ws, h, hperm⟩

end Jump.MemPool.RBTree
