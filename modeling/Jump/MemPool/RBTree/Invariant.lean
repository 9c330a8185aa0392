import Jump.Core.Ring
import Jump.Core.SortedSeq
import Jump.MemPool.RBTree.Erase

/-! # The invariant of a `MemRBTree`

`Valid` is the red-black search tree in the node array. `Inv` adds the other
half of the array: every node is either in the tree or on the free list, and
counters and use flags agree with that.
-/

namespace Jump.MemPool.RBTree

open Jump.Core Jump.Core.ColoredTree Jump.Core.Ctx Prog

section Invariant

variable {V K : Type} (T : Params V K)

/-- The key stored in a node. -/
def keyAt (m : Mem V) (i : Nat) : K := T.extractKey (m.data i)

/-- The array holds the red-black search tree `t` below the header `N`. -/
structure Valid (N : Nat) (m : Mem V) (t : ColoredTree Nat) : Prop extends Holds m N [] t where
  balanced : ∃ n, Balanced t n
  rootBlack : t.color = .black
  edges : Edges m N t.toList
  sorted : Sorted T.compareKey (keyAt T m) t.toList

/-- `free` is the free list in order. -/
structure Inv (N : Nat) (m : Mem V) (t : ColoredTree Nat) (free : List Nat) : Prop extends
    Valid T N m t where
  freeChain : Chain (m.child .right) INVALID_POINT m.freeNodeList free
  nodes : (t.toList ++ free).Perm (List.range N)
  szUse : m.szUseNode = t.card
  szFree : m.szFreeNode = free.length
  used : ∀ i ∈ t.toList, m.useFlag i = 1
  unused : ∀ i ∈ free, m.useFlag i = 0
  clean : m.dirtyFlag = 0
  small : N < INVALID_POINT

variable {T} {N : Nat} {m : Mem V} {t : ColoredTree Nat} {free : List Nat}

/-- Only the header and the nodes of the tree matter to a valid tree. -/
theorem Valid.congr {m' : Mem V} (hv : Valid T N m t) (num : m'.numOfNode = m.numOfNode)
    (same : ∀ j ∈ N :: t.toList, SameAt m m' j) (size : ∀ j ∈ t.toList, m'.size j = m.size j)
    (data : ∀ j ∈ t.toList, m'.data j = m.data j) : Valid T N m' t := by
  have hroot := (same N List.mem_cons_self).1
  have hedge := (same N List.mem_cons_self).2.2
  refine ⟨⟨⟨num.trans hv.header, hroot.trans hv.ctx, ?_, hv.distinct⟩, hv.sized.congr size,
    trivial⟩, hv.balanced, hv.rootBlack, fun d => (hedge d).trans (hv.edges d), ?_⟩
  · exact hv.sub.congr fun j hj => same j (List.mem_cons_of_mem N hj)
  · refine List.Pairwise.imp_of_mem (fun {a b} ha hb hab => ?_) hv.sorted
    simp only [keyAt, data a ha, data b hb]
    exact hab

namespace Inv

theorem nodup (hi : Inv T N m t free) : (t.toList ++ free).Nodup :=
  hi.nodes.nodup_iff.mpr List.nodup_range

theorem mem_iff (hi : Inv T N m t free) {i : Nat} : i ∈ t.toList ∨ i ∈ free ↔ i < N := by
  rw [← List.mem_append, hi.nodes.mem_iff, List.mem_range]

theorem card_add (hi : Inv T N m t free) : t.card + free.length = N := by
  have hl := hi.nodes.length_eq
  rw [List.length_append, List.length_range] at hl
  exact hl

theorem card_le (hi : Inv T N m t free) : t.card ≤ N := by
  have hc := hi.card_add
  omega

theorem free_ne (hi : Inv T N m t free) {i : Nat} (hf : i ∈ free) :
    i < N ∧ i ≠ INVALID_POINT ∧ i ∉ t.toList := by
  have hlt := hi.mem_iff.mp (Or.inr hf)
  have hs := hi.small
  exact ⟨hlt, by omega, fun ht => (List.nodup_append.mp hi.nodup).2.2 i ht i hf rfl⟩

end Inv

/-! ## `clear` -/

/-- The cells below `n` are linked in index order. -/
theorem chain_range {next : Nat → Nat} {n : Nat} (h : ∀ i < n, next i = i + 1) :
    Chain next n 0 (List.range n) := by
  induction n with
  | zero => exact rfl
  | succ n ih =>
      rw [List.range_succ, Chain.append_iff]
      exact ⟨n, ih fun i hi => h i (by omega), rfl, h n (by omega)⟩

/-- The empty tree, with the nodes below `j` already on the free list to be. -/
structure Clearing (N j : Nat) (m : Mem V) : Prop where
  numOfNode : m.numOfNode = N
  freeNodeList : m.freeNodeList = 0
  szFreeNode : m.szFreeNode = N
  szUseNode : m.szUseNode = 0
  dirtyFlag : m.dirtyFlag = 0
  root : m.parent N = INVALID_POINT
  edges : ∀ d, m.child d N = N
  right : ∀ i < j, m.child .right i = i + 1
  unused : ∀ i < j, m.useFlag i = 0

/-- The memory after `RBTreeNode::Clear` of node `i`. -/
def cleared (z : V) (i : Nat) (m : Mem V) : Mem V :=
  replay [.magicFlag i MAGIC_FLAG, .useFlag i 0, .parent i INVALID_POINT,
    .child .left i INVALID_POINT, .child .right i INVALID_POINT, .color i .red, .size i 0,
    .data i z] m

theorem clearNode_ends {z : V} {i : Nat} {Q : Unit → Mem V → Prop} :
    Ends (clearNode z i) m Q ↔ Q () (cleared z i m) := by
  simp only [clearNode, setParent, setChild, setColor, setSize, ends_bind, ends_write, cleared,
    replay_cons, replay_nil]

theorem Clearing.turn {z : V} {j : Nat} (hc : Clearing N j m) (hj : j < N) :
    Ends (do
      clearNode z j
      setChild .right j (j + 1)) m fun _ m' => Clearing N (j + 1) m' := by
  simp only [setChild, ends_bind, ends_write, clearNode_ends]
  have hne : N ≠ j := by omega
  refine ⟨by simpa [cleared] using hc.numOfNode, by simpa [cleared] using hc.freeNodeList,
    by simpa [cleared] using hc.szFreeNode, by simpa [cleared] using hc.szUseNode,
    by simpa [cleared] using hc.dirtyFlag, by simpa [cleared, hne] using hc.root,
    fun d => by simpa [cleared, hne] using hc.edges d, fun i hi => ?_, fun i hi => ?_⟩
  · by_cases he : i = j
    · simp [he]
    · simpa [cleared, he] using hc.right i (by omega)
  · by_cases he : i = j
    · simp [cleared, he]
    · simpa [cleared, he] using hc.unused i (by omega)

theorem clear_ends {z : V} (hnum : m.numOfNode = N) (hN : 1 ≤ N) (small : N < INVALID_POINT) :
    Ends (clear z) m fun _ m' => Inv T N m' leaf (List.range N) := by
  have hstart : Clearing N 0 (Store.apply (Write.child .left N N)
      (Store.apply (Write.child .right N N) (cleared z N (replay [.freeNodeList 0,
        .rootNode INVALID_POINT, .szFreeNode N, .szUseNode 0, .dirtyFlag 0] m)))) := by
    refine ⟨by simpa [cleared] using hnum, by simp [cleared], by simp [cleared],
      by simp [cleared], by simp [cleared], by simp [cleared], fun d => ?_,
      fun i hi => absurd hi (by omega), fun i hi => absurd hi (by omega)⟩
    cases d <;> simp
  have hturn : ∀ j (m : Mem V), 0 ≤ j → j < 0 + N → Clearing N j m → Ends (do
      clearNode z j
      setChild .right j (j + 1)) m fun _ m' => Clearing N (j + 1) m' :=
    fun j m _ hj hc => hc.turn (by omega)
  have hloop := ends_times (Clearing N) hturn hstart
  simp only [cleared, replay_cons, replay_nil] at hloop
  simp only [clear, header, setChild, ends_bind, ends_read, ends_write, Mem.numOfNode_apply,
    hnum, clearNode_ends, cleared, replay_cons, replay_nil]
  refine hloop.mono fun _ m' hc => ?_
  · rw [Nat.zero_add] at hc
    simp only [hc.numOfNode]
    have hlast : N - 1 < N := by omega
    have hne : N ≠ N - 1 := by omega
    refine ⟨⟨⟨⟨by simpa using hc.numOfNode, ?_, trivial, ?_⟩, trivial, trivial⟩, ⟨0, .leaf⟩, rfl,
      fun d => ?_, List.Pairwise.nil⟩, ?_, by simp, ?_, ?_, by simp, ?_, ?_, small⟩
    · simpa [LinkedCtx] using hc.root
    · have hi : N ≠ INVALID_POINT := by omega
      simpa using hi
    · simpa [hne, rim_eq_none.mpr] using hc.edges d
    · obtain ⟨M, rfl⟩ : ∃ M, N = M + 1 := ⟨N - 1, by omega⟩
      have hfree : (Store.apply (Write.child .right M INVALID_POINT) m').freeNodeList = 0 := by
        simpa using hc.freeNodeList
      rw [Nat.add_sub_cancel, hfree, List.range_succ, Chain.append_iff]
      refine ⟨M, chain_range fun i hi => ?_, rfl, by simp⟩
      have hiM : i ≠ M := by omega
      simpa [hiM] using hc.right i (by omega)
    · simpa using hc.szUseNode
    · simpa using hc.szFreeNode
    · intro i hi
      simpa using hc.unused i (List.mem_range.mp hi)
    · simpa using hc.dirtyFlag

/-! ## The free list -/

theorem allocNode_empty (hi : Inv T N m t []) {Q : Nat → Mem V → Prop}
    (hQ : Q INVALID_POINT m) : Ends allocNode m Q := by
  have hs : m.szFreeNode = 0 := hi.szFree
  simp only [allocNode, ends_bind, ends_read, ends_ite, ends_pure, hs, if_true]
  exact hQ

/-- The memory after `AllocNode` took node `i` off the free list. -/
def allocated (i : Nat) (m : Mem V) : Mem V :=
  replay [.freeNodeList (m.child .right i), .szUseNode (m.szUseNode + 1),
    .szFreeNode (m.szFreeNode - 1)] m

theorem allocNode_cons {i : Nat} (hi : Inv T N m t (i :: free)) {Q : Nat → Mem V → Prop}
    (hQ : Q i (allocated i m)) : Ends allocNode m Q := by
  have hs : m.szFreeNode ≠ 0 := by
    rw [hi.szFree]
    simp
  have hhead : m.freeNodeList = i := hi.freeChain.1
  simp only [allocNode, right, child, ends_bind, ends_read, ends_ite, ends_write, ends_pure,
    if_neg hs, hhead, Mem.szUseNode_apply, Mem.szFreeNode_apply]
  exact hQ

/-- The memory after `FreeNode`. -/
def freed (z : V) (i : Nat) (m : Mem V) : Mem V :=
  replay [.child .right i m.freeNodeList, .freeNodeList i, .szFreeNode (m.szFreeNode + 1),
    .szUseNode (m.szUseNode - 1)] (cleared z i m)

theorem freeNode_ends {z : V} {i : Nat} {Q : Unit → Mem V → Prop} :
    Ends (freeNode z i) m Q ↔ Q () (freed z i m) := by
  simp only [freeNode, setChild, ends_bind, ends_read, ends_write, clearNode_ends, freed,
    replay_cons, replay_nil, cleared, Mem.freeNodeList_apply, Mem.szFreeNode_apply,
    Mem.szUseNode_apply]

end Invariant

/-! ## Lookups -/

section Lookup

variable {V K : Type} {T : Params V K} {N : Nat} {m : Mem V} {t : ColoredTree Nat} {free : List Nat}
  {k : K}

/-- `key(x)` is not less than `k`. -/
def notLess (T : Params V K) (m : Mem V) (k : K) (i : Nat) : Bool :=
  !T.compareKey (keyAt T m i) k

/-- `key(x)` is greater than `k`. -/
def greater (T : Params V K) (m : Mem V) (k : K) (i : Nat) : Bool :=
  T.compareKey k (keyAt T m i)

/-- Neither key is less than the other. -/
def equalKey (T : Params V K) (m : Mem V) (k : K) (i : Nat) : Bool :=
  !T.compareKey (keyAt T m i) k && !T.compareKey k (keyAt T m i)

/-- A predicate that stays true along the tree cuts its sequence where the search ends. -/
theorem bound_cut {p : Nat → Bool}
    (mono : t.toList.Pairwise fun a b => p a = true → p b = true) :
    ∃ xs ys, t.toList = xs ++ ys ∧ (∀ a ∈ xs, ¬ p a = true) ∧ (∀ a ∈ ys, p a = true) ∧
      ys = after (descend p t []) := by
  obtain ⟨hl, hr⟩ := descend_splits (t := t) (k := []) mono (by simp [before]) (by simp [after])
  refine ⟨_, _, ?_, hl, hr, rfl⟩
  have hp := congrArg toList (plug_descend p t [])
  rw [toList_plug, toList_leaf, List.append_nil] at hp
  exact hp.symm

/-- A search whose predicate stays true along the tree finds the first element it holds of. -/
theorem bound_first (hi : Inv T N m t free) (goLeft : V → Bool)
    (mono : t.toList.Pairwise fun a b => goLeft (m.data a) = true → goLeft (m.data b) = true)
    {Q : Nat → Mem V → Prop}
    (hQ : Q ((t.toList.find? fun i => goLeft (m.data i)).getD N) m) : Ends (bound goLeft) m Q := by
  obtain ⟨xs, ys, hlist, hl, hr, rfl⟩ := bound_cut mono
  refine bound_ends goLeft hi.toFocus hi.card_le ?_
  rw [hlist, find?_cut hl hr] at hQ
  exact hQ

theorem lowerBound_ends (hi : Inv T N m t free) {Q : Nat → Mem V → Prop}
    (hQ : Q ((t.toList.find? (notLess T m k)).getD N) m) : Ends (lowerBound T k) m Q := by
  refine bound_first hi _ ?_ ?_
  · simpa [keyAt] using hi.sorted.notLess_mono k
  · have he : (fun i => decide ¬ T.compareKey (T.extractKey (m.data i)) k = true) =
        notLess T m k := by
      funext i
      simp [notLess, keyAt]
    rw [he]
    exact hQ

theorem upperBound_ends (hi : Inv T N m t free) {Q : Nat → Mem V → Prop}
    (hQ : Q ((t.toList.find? (greater T m k)).getD N) m) : Ends (upperBound T k) m Q :=
  bound_first hi _ (hi.sorted.greater_mono k) hQ

theorem equalRange_ends (hi : Inv T N m t free) {Q : Nat × Nat → Mem V → Prop}
    (hQ : Q ((t.toList.find? (notLess T m k)).getD N, (t.toList.find? (greater T m k)).getD N) m) :
    Ends (equalRange T k) m Q := by
  rw [equalRange, ends_bind]
  refine lowerBound_ends hi ?_
  rw [ends_bind]
  refine upperBound_ends hi ?_
  rw [ends_pure]
  exact hQ

/-- `find` returns the first element equal to `k`. -/
theorem find_ends (hi : Inv T N m t free) {Q : Nat → Mem V → Prop}
    (hQ : Q ((t.toList.find? (equalKey T m k)).getD N) m) : Ends (find T k) m Q := by
  obtain ⟨xs, ys, hlist, hl, hr, -⟩ := bound_cut (p := notLess T m k)
    (hi.sorted.notLess_mono k)
  have hless : ∀ a ∈ xs, T.compareKey (keyAt T m a) k = true := by simpa [notLess] using hl
  have hmore : ∀ a ∈ ys, ¬ T.compareKey (keyAt T m a) k = true := by simpa [notLess] using hr
  have hsorted : Sorted T.compareKey (keyAt T m) ys := by
    have hs := hi.sorted
    rw [hlist] at hs
    exact (List.pairwise_append.mp hs).2.1
  have heq : t.toList.find? (equalKey T m k) = ys.head?.filter fun a =>
      !T.compareKey k (keyAt T m a) := by
    rw [hlist]
    exact find?_equal_cut hsorted hless hmore
  have hnot : t.toList.find? (notLess T m k) = ys.head? := by rw [hlist, find?_cut hl hr]
  rw [find, ends_bind]
  refine lowerBound_ends hi ?_
  rw [heq] at hQ
  rw [hnot]
  simp only [endIt, header, key, value, ends_bind, ends_read, ends_ite, ends_pure, hi.header]
  cases ys with
  | nil => simpa using hQ
  | cons a ys =>
      have ha : a ∈ t.toList := by rw [hlist]; simp
      have hne : a ≠ N := by
        have hlt := hi.mem_iff.mp (Or.inl ha)
        omega
      simp only [List.head?_cons, Option.getD_some, Option.filter] at hQ ⊢
      simp only [hne, if_false]
      by_cases hg : T.compareKey k (keyAt T m a) = true
      · simp only [hg, Bool.not_true, Bool.false_eq_true, if_false, Option.getD_none] at hQ
        rw [keyAt] at hg
        simpa [hg] using hQ
      · simp only [hg, Bool.not_false, if_true, Option.getD_some] at hQ
        rw [keyAt] at hg
        simpa [hg] using hQ

end Lookup

end Jump.MemPool.RBTree
