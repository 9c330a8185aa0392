import Jump.MemPool.RBTree.Tidy
import Jump.MemPool.RBTree.Order

/-! # Iterators

`++` and `--` are inverse to each other along the sequence of the tree followed
by `end()`.

`find_if_exist` compares the key of whatever node the iterator names. A node
outside of the tree has blank data, and at `end()` the walk stops where the
iterator stands when no key is greater than that of blank data.
-/

namespace Jump.MemPool.RBTree

open Jump.Core Jump.Core.ColoredTree Jump.Core.Ctx Prog

variable {V K : Type} {T : Params V K} {N : Nat} {m m' : Mem V} {t : ColoredTree Nat}
  {free : List Nat}

/-- `for (it = begin(); it != end(); ++it)`, with the iterators it passes. -/
def forward : Act V (List Nat) := do
  loop (fun (it, passed) => do
    if it ≠ (← endIt) then return .inl (← increment it, passed ++ [it])
    else return .inr passed) (← turns) (← begin, [])

/-- `--` at an element that has one before it. -/
theorem decrement_prev {xs ys : List Nat} {i j : Nat} (hi : Inv T N m t free)
    (hseq : t.toList = xs ++ j :: i :: ys) :
    Ends (decrement i) m fun it m' => m' = m ∧ it = j := by
  have hseq' : t.toList = (xs ++ [j]) ++ i :: ys := by simp [hseq]
  obtain ⟨k, c, l, r, rfl, hh, hbefore, -⟩ := hi.focus hseq'
  refine decrement_ends hh.toFocus hi.card_le hi.rootBlack ?_
  rw [hbefore]
  simp

/-- `--` at `end()`: the header is told by its colour and by being its grandparent. -/
theorem decrement_end {xs : List Nat} {j : Nat} (hi : Tidy T N m t free)
    (hseq : t.toList = xs ++ [j]) : Ends (decrement N) m fun it m' => m' = m ∧ it = j := by
  have hroot : m.parent N = ptr t := hi.ctx
  have hgrand : m.parent (ptr t) = N := by
    cases t with
    | leaf => simp at hseq
    | node c l i r => exact hi.sub.1
  have hlast : m.child .right N = j := by
    rw [hi.edges .right, hseq]
    simp [rim]
  simp only [decrement, color, parent, right, child, ends_bind, ends_read, ends_ite, hi.headerRed,
    hroot, hgrand, hlast]
  rw [if_pos ⟨trivial, trivial⟩]
  exact ⟨trivial, trivial⟩

theorem begin_ends {i : Nat} {ys : List Nat} (hi : Inv T N m t free) (hseq : t.toList = i :: ys) :
    Ends begin m fun it m' => m' = m ∧ it = i := by
  have hfirst : m.child .left N = i := by
    rw [hi.edges .left, hseq]
    simp [rim]
  simp only [begin, leftmost, ends_read, hi.header, hfirst]
  exact ⟨trivial, trivial⟩

theorem forward_ends (hi : Inv T N m t free) :
    Ends forward m fun passed m' => m' = m ∧ passed = t.toList := by
  have hlen := hi.card_le
  have hstart : m.child .left N = startOf N t.toList := hi.edges .left
  simp only [forward, endIt, begin, header, leftmost, turns, ends_bind, ends_read, hi.header,
    hstart]
  refine ends_loop (fun j ip m' => m' = m ∧ ∃ ys, t.toList = ip.2 ++ ys ∧ ip.1 = startOf N ys ∧
    j = ys.length) ?_ (k := t.card) ⟨rfl, t.toList, rfl, rfl, rfl⟩ (by omega)
  rintro j ⟨it, passed⟩ m' ⟨rfl, ys, hseq, rfl, rfl⟩
  have hne : startOf N ys ≠ N ↔ ys ≠ [] := by
    have hstep : t.toList = passed ++ (ys ++ []) := by rw [hseq, List.append_nil]
    have hiff := start_ne hi hstep
    rwa [List.append_nil] at hiff
  simp only [ends_ite, ends_bind, ends_read, ends_pure, hi.header]
  cases ys with
  | nil =>
      rw [if_neg fun h => hne.mp h rfl]
      simpa using hseq.symm
  | cons y ys =>
      rw [if_pos (hne.mpr (by simp))]
      have hy : startOf N (y :: ys) = y := rfl
      rw [hy]
      refine increment_next hi hseq ?_
      exact ⟨ys.length, by simp, rfl, ys, by simp [hseq], rfl, rfl⟩

/-- From `begin()` the operator `++` passes every element once in key order and then
equals `end()`; `--` undoes every step of it. -/
theorem walk_exact {tr : List (Op V K × Res)} (pos : 1 ≤ N) (small : N < INVALID_POINT)
    (hrun : Run T N tr m) (nonempty : m.szUseNode ≠ 0) :
    (serials m).Nodup ∧ (∀ i, i ∈ serials m ↔ i < N ∧ m.useFlag i ≠ 0) ∧
      Sorted T.compareKey (keyAt T m) (serials m) ∧
      (Ends forward m fun passed m' => m' = m ∧ passed = serials m) ∧
      (∃ i ys, serials m = i :: ys ∧ Ends begin m fun it m' => m' = m ∧ it = i) ∧
      ∀ xs i j ys, serials m ++ [N] = xs ++ i :: j :: ys →
        (Ends (increment i) m fun it m' => m' = m ∧ it = j) ∧
        Ends (decrement j) m fun it m' => m' = m ∧ it = i := by
  obtain ⟨t, free, hi⟩ := run_tidy pos small hrun
  rw [serials_eq hi.toInv]
  refine ⟨(List.nodup_append.mp hi.nodup).1, fun i => ?_, hi.sorted, forward_ends hi.toInv, ?_,
    fun xs i j ys hseq => ?_⟩
  · constructor
    · intro ht
      refine ⟨hi.mem_iff.mp (Or.inl ht), ?_⟩
      rw [hi.used i ht]
      decide
    · rintro ⟨hlt, hflag⟩
      exact (hi.mem_iff.mpr hlt).resolve_right fun hf => hflag (hi.unused i hf)
  · cases ht : t.toList with
    | nil =>
        have hzero := hi.szUse
        rw [card, ht] at hzero
        exact absurd hzero nonempty
    | cons i ys => exact ⟨i, ys, rfl, begin_ends hi.toInv ht⟩
  · -- the last step leads to the header, every other one to a node
    rcases List.eq_nil_or_concat ys with rfl | ⟨zs, z, rfl⟩
    · have hsplit : t.toList ++ [N] = (xs ++ [i]) ++ [j] := by simp [hseq]
      obtain ⟨hlist, hend⟩ := List.append_inj' hsplit rfl
      obtain rfl : N = j := by simpa using hend
      have hlast : t.toList = xs ++ i :: [] := hlist
      exact ⟨increment_next hi.toInv hlast ⟨rfl, rfl⟩, decrement_end hi hlist⟩
    · have hsplit : t.toList ++ [N] = (xs ++ i :: j :: zs) ++ [z] := by simp [hseq]
      obtain ⟨hlist, -⟩ := List.append_inj' hsplit rfl
      exact ⟨increment_next hi.toInv hlist ⟨rfl, rfl⟩, decrement_prev hi.toInv hlist⟩

theorem walk_exact_nat : ∃ tr m, Run natParams 3 tr m ∧ (serials m).length = 2 ∧
    Ends forward m fun passed m' => m' = m ∧ passed = serials m := by
  obtain ⟨tr, m, hrun, hlen⟩ := nat_fill (N := 3) (n := 2) (by decide) (by decide) (by decide)
  obtain ⟨⟨t, free, hi⟩, -⟩ := run_inv (by decide) (by decide) hrun
  have hsize : m.szUseNode = 2 := by rw [hi.szUse, card, ← serials_eq hi, hlen]
  have hwalk := walk_exact (by decide) (by decide) hrun (by rw [hsize]; decide)
  exact ⟨tr, m, hrun, hlen, hwalk.2.2.2.1⟩

/-! ## The membership test at any iterator -/

/-- Two mappings with the same header and the same node array, whatever lies behind it. -/
structure SameArray (m m' : Mem V) : Prop where
  numOfNode : m'.numOfNode = m.numOfNode
  freeNodeList : m'.freeNodeList = m.freeNodeList
  rootNode : m'.rootNode = m.rootNode
  szFreeNode : m'.szFreeNode = m.szFreeNode
  szUseNode : m'.szUseNode = m.szUseNode
  dirtyFlag : m'.dirtyFlag = m.dirtyFlag
  node : ∀ i ≤ m.numOfNode, m'.magicFlag i = m.magicFlag i ∧ m'.useFlag i = m.useFlag i ∧
    m'.parent i = m.parent i ∧ (∀ d, m'.child d i = m.child d i) ∧ m'.color i = m.color i ∧
    m'.size i = m.size i ∧ m'.data i = m.data i

theorem SameArray.inv (h : SameArray m m') (hi : Inv T N m t free) : Inv T N m' t free := by
  have hnode : ∀ i ≤ N, m'.magicFlag i = m.magicFlag i ∧ m'.useFlag i = m.useFlag i ∧
      m'.parent i = m.parent i ∧ (∀ d, m'.child d i = m.child d i) ∧ m'.color i = m.color i ∧
      m'.size i = m.size i ∧ m'.data i = m.data i := by
    intro i hle
    exact h.node i (by rwa [hi.header])
  have hle : ∀ i, i ∈ t.toList ∨ i ∈ free → i ≤ N := fun i hmem =>
    Nat.le_of_lt (hi.mem_iff.mp hmem)
  have hlinks : ∀ i ≤ N, SameAt m m' i := by
    intro i hi'
    obtain ⟨-, -, hp, hd, hc, -, -⟩ := hnode i hi'
    exact ⟨hp, hc, hd⟩
  refine ⟨hi.toValid.congr h.numOfNode (fun j hj => hlinks j ?_) (fun j hj => ?_) fun j hj => ?_,
    ?_, hi.nodes, h.szUseNode.trans hi.szUse, h.szFreeNode.trans hi.szFree, fun j hj => ?_,
    fun j hj => ?_, h.dirtyFlag.trans hi.clean, hi.small⟩
  · rcases List.mem_cons.mp hj with rfl | hj
    · exact Nat.le_refl _
    · exact hle j (Or.inl hj)
  · exact (hnode j (hle j (Or.inl hj))).2.2.2.2.2.1
  · exact (hnode j (hle j (Or.inl hj))).2.2.2.2.2.2
  · rw [h.freeNodeList]
    exact hi.freeChain.congr fun j hj => (hnode j (hle j (Or.inr hj))).2.2.2.1 .right
  · rw [(hnode j (hle j (Or.inl hj))).2.1]
    exact hi.used j hj
  · rw [(hnode j (hle j (Or.inr hj))).2.1]
    exact hi.unused j hj

end Jump.MemPool.RBTree
