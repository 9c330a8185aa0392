import Jump.MemPool.LruHash.Code
import Jump.Core.Ring

/-! # The use list and the free list

Two rings through `lst_index_base_`, around the sentinels `N` and `N + 1`, that
share out the `N` nodes; the two counters are their lengths. Taking a node from
either list and moving a node to the front leave everything else as it was.
-/

namespace Jump.MemPool.LruHash

open Jump.Core Prog

variable {V : Type} {N : Nat} {us fs xs ys : List Nat} {m m' m'' : Mem V} {n : Nat}

structure Lists (N : Nat) (us fs : List Nat) (m : Mem V) : Prop where
  num : m.numOfNode = N
  rings : Rings m.idxNext m.idxPrev N (N + 1) us fs
  nodes : (us ++ fs).Perm (List.range N)
  szUse : m.szUsenode = us.length
  szFree : m.szFreenode = fs.length

/-- What is not list links or counters is the same. -/
structure SameCells (m m' : Mem V) : Prop where
  factor : m'.hashFactor = m.hashFactor
  index : m'.hashIndex = m.hashIndex
  priority : m'.priority = m.priority
  value : m'.value = m.value
  washed : m'.washed = m.washed

theorem SameCells.trans (h : SameCells m m') (h' : SameCells m' m'') : SameCells m m'' :=
  ⟨h'.factor.trans h.factor, h'.index.trans h.index, h'.priority.trans h.priority,
    h'.value.trans h.value, h'.washed.trans h.washed⟩

/-- Only list links differ. -/
structure Relinked (m m' : Mem V) : Prop extends SameCells m m' where
  num : m'.numOfNode = m.numOfNode
  szUse : m'.szUsenode = m.szUsenode
  szFree : m'.szFreenode = m.szFreenode

theorem Relinked.trans (h : Relinked m m') (h' : Relinked m' m'') : Relinked m m'' :=
  ⟨h.toSameCells.trans h'.toSameCells, h'.num.trans h.num, h'.szUse.trans h.szUse,
    h'.szFree.trans h.szFree⟩

/-! ## Single edits -/

theorem popFree_ends (hn : m.numOfNode = N)
    (hr : Rings m.idxNext m.idxPrev N (N + 1) us (n :: fs)) :
    Ends (popFree n) m fun _ m' => Relinked m m' ∧
      Rings m'.idxNext m'.idxPrev N (N + 1) us fs ∧ n ∉ N :: us ++ (N + 1) :: fs := by
  have hr' : Rings m.idxNext m.idxPrev N (N + 1) us ([] ++ n :: fs) := hr
  have hprev : m.idxPrev n = N + 1 := hr'.right.prev_eq
  simp only [popFree, freeNode, next, prev, setNext, setPrev, ends_bind, ends_read, ends_write,
    hn, Mem.numOfNode_apply, Mem.idxNext_apply, if_true, Mem.idxPrev_apply]
  refine ⟨⟨⟨rfl, rfl, rfl, rfl, rfl⟩, rfl, rfl, rfl⟩, ?_⟩
  exact hr'.remove_right (fun i _ => by simp [hprev]) fun i _ => by simp [hprev]

theorem pushUse_ends (hn : m.numOfNode = N) (hr : Rings m.idxNext m.idxPrev N (N + 1) us fs)
    (fresh : n ∉ N :: us ++ (N + 1) :: fs) :
    Ends (pushUse n) m fun _ m' => Relinked m m' ∧
      Rings m'.idxNext m'.idxPrev N (N + 1) (n :: us) fs := by
  have hnN : n ≠ N := fun he => fresh (he ▸ List.mem_cons_self)
  have hback : m.idxPrev (m.idxNext N) = N := hr.left.prev_next
  simp only [pushUse, useNode, next, prev, setNext, setPrev, ends_bind, ends_read, ends_write,
    hn, Mem.numOfNode_apply, Mem.idxNext_apply, Mem.idxPrev_apply, if_neg hnN.symm]
  refine ⟨⟨⟨rfl, rfl, rfl, rfl, rfl⟩, rfl, rfl, rfl⟩, hr.push fresh (fun i => ?_) fun i => ?_⟩
  · simp
  · simp [hback]

theorem pushFree_ends (hn : m.numOfNode = N) (hr : Rings m.idxNext m.idxPrev N (N + 1) us fs)
    (fresh : n ∉ N :: us ++ (N + 1) :: fs) :
    Ends (pushFree (m.idxNext (N + 1)) n) m fun _ m' => Relinked m m' ∧
      Rings m'.idxNext m'.idxPrev N (N + 1) us (n :: fs) := by
  have hnN : N + 1 ≠ n := fun he =>
    fresh (he ▸ List.mem_append_right _ List.mem_cons_self)
  have hback : m.idxPrev (m.idxNext (N + 1)) = N + 1 := hr.right.prev_next
  simp only [pushFree, freeNode, prev, setNext, setPrev, ends_bind, ends_read, ends_write,
    hn, Mem.numOfNode_apply, Mem.idxPrev_apply]
  refine ⟨⟨⟨rfl, rfl, rfl, rfl, rfl⟩, rfl, rfl, rfl⟩,
    hr.push_right fresh (fun i => ?_) fun i => ?_⟩
  · simp
  · simp [hback]

theorem unhook_ends (hr : Rings m.idxNext m.idxPrev N (N + 1) (xs ++ n :: ys) fs) :
    Ends (unhook n) m fun _ m' => Relinked m m' ∧
      Rings m'.idxNext m'.idxPrev N (N + 1) (xs ++ ys) fs ∧
        n ∉ N :: (xs ++ ys) ++ (N + 1) :: fs := by
  simp only [unhook, next, prev, setNext, setPrev, ends_bind, ends_read, ends_write,
    Mem.idxPrev_apply]
  refine ⟨⟨⟨rfl, rfl, rfl, rfl, rfl⟩, rfl, rfl, rfl⟩, hr.remove (fun i _ => ?_) fun i _ => ?_⟩
  · simp
  · simp

theorem joinAround_ends (hr : Rings m.idxNext m.idxPrev N (N + 1) (xs ++ n :: ys) fs) :
    Ends (joinAround (m.idxNext n) (m.idxPrev n)) m fun _ m' => Relinked m m' ∧
      m'.idxNext (N + 1) = m.idxNext (N + 1) ∧
      Rings m'.idxNext m'.idxPrev N (N + 1) (xs ++ ys) fs ∧
        n ∉ N :: (xs ++ ys) ++ (N + 1) :: fs := by
  have hfree : N + 1 ≠ m.idxPrev n := fun he => by
    have hm := lastFrom_mem N xs
    rw [← hr.left.prev_eq, ← he] at hm
    exact hr.symm.apart List.mem_cons_self (List.mem_append_left (n :: ys) hm)
  simp only [joinAround, setNext, setPrev, ends_bind, ends_write, Mem.idxNext_apply, if_neg hfree]
  refine ⟨⟨⟨rfl, rfl, rfl, rfl, rfl⟩, rfl, rfl, rfl⟩, trivial,
    hr.remove (fun i _ => ?_) fun i _ => ?_⟩
  · simp
  · simp

/-! ## Moving to the front -/

theorem Lists.moved (h : Lists N (xs ++ n :: ys) fs m) (hk : Relinked m m')
    (hr : Rings m'.idxNext m'.idxPrev N (N + 1) (n :: (xs ++ ys)) fs) :
    Lists N (n :: (xs ++ ys)) fs m' := by
  have hmove : (n :: (xs ++ ys)).Perm (xs ++ n :: ys) := List.perm_middle.symm
  refine ⟨hk.num.trans h.num, hr, (hmove.append_right fs).trans h.nodes, ?_, ?_⟩
  · rw [hk.szUse, h.szUse]
    exact hmove.length_eq.symm
  · rw [hk.szFree, h.szFree]

/-- `moveFront` after `unhook` links as `pushUse` does. -/
theorem moveFront_ends (h : Lists N (xs ++ n :: ys) fs m) :
    Ends (moveFront n) m fun _ m' => SameCells m m' ∧ Lists N (n :: (xs ++ ys)) fs m' := by
  rw [moveFront, ends_bind]
  refine (unhook_ends h.rings).mono fun _ m₁ h₁ => ?_
  obtain ⟨hk, hr, hx⟩ := h₁
  have hn : m₁.numOfNode = N := hk.num.trans h.num
  have hnN : n ≠ N := fun he => hx (he ▸ List.mem_cons_self)
  have hfirst : n ≠ m₁.idxNext N := fun he =>
    hx (he ▸ List.mem_append_left _ hr.left.next_mem)
  simp only [useNode, capacity, next, setNext, setPrev, ends_bind, ends_read, ends_write, hn,
    Mem.numOfNode_apply, Mem.idxNext_apply, if_neg hnN.symm]
  have hk' : Relinked m (Store.apply (.idxNext N n) (Store.apply (.idxPrev n N)
      (Store.apply (.idxPrev (m₁.idxNext N) n) (Store.apply (.idxNext n (m₁.idxNext N)) m₁)))) :=
    hk.trans ⟨⟨rfl, rfl, rfl, rfl, rfl⟩, rfl, rfl, rfl⟩
  refine ⟨hk'.toSameCells, h.moved hk' (hr.push hx (fun i => ?_) fun i => ?_)⟩
  · simp
  · simp only [Mem.idxPrev_apply]
    by_cases hi : i = n
    · subst hi
      simp [hfirst]
    · simp [hi]

theorem moveFrontEqual_ends (h : Lists N (xs ++ n :: ys) fs m) :
    Ends (moveFrontEqual n) m fun _ m' => SameCells m m' ∧ Lists N (n :: (xs ++ ys)) fs m' := by
  rw [moveFrontEqual, ends_bind]
  refine (unhook_ends h.rings).mono fun _ m₁ h₁ => ?_
  obtain ⟨hk₁, hr₁, hx⟩ := h₁
  refine (pushUse_ends (hk₁.num.trans h.num) hr₁ hx).mono fun _ m₂ h₂ => ?_
  obtain ⟨hk₂, hr₂⟩ := h₂
  exact ⟨(hk₁.trans hk₂).toSameCells, h.moved (hk₁.trans hk₂) hr₂⟩

/-! ## Taking and freeing a node -/

theorem Lists.small (h : Lists N us fs m) : us.length + fs.length = N := by
  rw [← List.length_append, h.nodes.length_eq, List.length_range]

theorem createNode_full (h : Lists N us [] m) :
    Ends createNode m fun r m' => r = INVALID_POINT ∧ m' = m := by
  have hsz : m.szFreenode = 0 := h.szFree
  simp only [createNode, szFreenode, ends_bind, ends_read, hsz, if_true, ends_pure]
  exact ⟨trivial, trivial⟩

theorem createNode_ends (h : Lists N us (n :: fs) m) :
    Ends createNode m fun r m' => r = n ∧ SameCells m m' ∧ Lists N (n :: us) fs m' := by
  have hsz : m.szFreenode = fs.length + 1 := h.szFree
  have hnext : m.idxNext (N + 1) = n := h.rings.right.1
  rw [createNode, ends_bind]
  simp only [szFreenode, ends_read, hsz, Nat.add_one_ne_zero, if_false, freeNode, next, ends_bind,
    h.num, hnext]
  refine (popFree_ends h.num h.rings).mono fun _ m₁ h₁ => ?_
  obtain ⟨hk₁, hr₁, hx⟩ := h₁
  refine (pushUse_ends (hk₁.num.trans h.num) hr₁ hx).mono fun _ m₂ h₂ => ?_
  obtain ⟨hk₂, hr₂⟩ := h₂
  have hk := hk₁.trans hk₂
  have hsmall := h.small
  simp only [List.length_cons] at hsmall
  have hfit : us.length + 1 + fs.length = N := by omega
  simp only [szUsenode, szFreenode, setSzUsenode, setSzFreenode, checkSizes, capacity, ends_bind,
    ends_read, ends_write, Mem.szUsenode_apply, Mem.szFreenode_apply, Mem.numOfNode_apply, hk.num,
    hk.szUse, hk.szFree, h.num, h.szUse, hsz, Nat.add_sub_cancel, hfit, if_true,
    ends_pure]
  refine ⟨trivial, hk.toSameCells.trans ⟨rfl, rfl, rfl, rfl, rfl⟩, ?_⟩
  exact ⟨hk.num.trans h.num, hr₂, List.perm_middle.symm.trans h.nodes, rfl, rfl⟩

theorem destroyNode_ends (h : Lists N (xs ++ n :: ys) fs m) :
    Ends (destroyNode n) m fun _ m' => Lists N (xs ++ ys) (n :: fs) m' ∧
      (∀ i, m'.hashIndex i = if i = n then INVALID_POINT else m.hashIndex i) ∧
      m'.hashFactor = m.hashFactor ∧ m'.priority = m.priority ∧ m'.value = m.value ∧
      m'.washed = m.washed := by
  have hmove : (xs ++ ys ++ n :: fs).Perm (xs ++ n :: ys ++ fs) :=
    List.perm_middle.trans ((List.perm_middle.symm).append_right fs)
  have hlen : m.szUsenode = (xs ++ ys).length + 1 := by
    rw [h.szUse]
    exact List.perm_middle.length_eq
  have hfit : (xs ++ ys).length + (fs.length + 1) = N := by
    rw [← h.small, ← h.szUse, hlen]
    omega
  simp only [destroyNode, freeNode, next, prev, ends_bind, ends_read, h.num]
  refine (joinAround_ends h.rings).mono fun _ m₁ h₁ => ?_
  obtain ⟨hk₁, hfirst, hr₁, hx⟩ := h₁
  rw [← hfirst]
  refine (pushFree_ends (hk₁.num.trans h.num) hr₁ hx).mono fun _ m₂ h₂ => ?_
  obtain ⟨hk₂, hr₂⟩ := h₂
  have hk := hk₁.trans hk₂
  simp only [szUsenode, szFreenode, setSzUsenode, setSzFreenode, setIndex, checkSizes, capacity,
    ends_bind, ends_read, ends_write, Mem.szUsenode_apply, Mem.szFreenode_apply,
    Mem.numOfNode_apply, hk.num, hk.szUse, hk.szFree, h.num, hlen, h.szFree, Nat.add_sub_cancel,
    hfit, if_true, ends_pure]
  refine ⟨⟨hk.num.trans h.num, hr₂, hmove.trans h.nodes, rfl, rfl⟩, fun i => ?_, hk.factor,
    hk.priority, hk.value, hk.washed⟩
  simp [hk.index]

end Jump.MemPool.LruHash
