import Jump.MemPool.Fixed.Code

/-! # What the operations of a `FixedMemPool` write

Each operation is a short list of writes, and the invariant is kept write by
write: a block goes from the free list to the lost ones, from there to those
handed out, and back.
-/

namespace Jump.MemPool.Fixed

open Jump.Core Prog

variable {β : Type} {P : Mapping} {N S : Nat} {m : Mem β} {out free lost : List Nat} {o : Nat}

/-! ## Single writes -/

namespace Inv

theorem storeNode (hi : Inv P N S m out free lost) (pos : Nat) (b : β) :
    Inv P N S (Store.apply (Write.node pos b) m) out free lost :=
  ⟨hi.toFits, hi.maxSize, hi.maxNode, hi.nodeSize, hi.blockSize, hi.allocSize, hi.allocNode,
    hi.freeChain, hi.allocated, hi.used⟩

/-- The first block of the free list is taken off. -/
theorem pop (hi : Inv P N S m out (o :: free) lost) :
    Inv P N S (Store.apply (Write.freeList (m.next o)) m) out free (o :: lost) := by
  refine ⟨hi.toFits, hi.maxSize, hi.maxNode, hi.nodeSize, hi.blockSize, hi.allocSize,
    hi.allocNode, hi.freeChain.2, ?_, hi.used⟩
  exact (List.Perm.append_left out List.perm_middle).trans hi.allocated

/-- The block behind the last one is taken from the part never allocated. -/
theorem grow (hi : Inv P N S m out free lost) (room : m.allocNode < N) :
    Inv P N S (Store.apply (Write.allocNode (m.allocNode + 1))
      (Store.apply (Write.allocSize (blockAt (getBlockSize S) (m.allocNode + 1))) m)) out free
      (blockAt (getBlockSize S) m.allocNode :: lost) := by
  refine ⟨hi.toFits, hi.maxSize, hi.maxNode, hi.nodeSize, hi.blockSize, rfl, room,
    hi.freeChain, ?_, hi.used⟩
  have hmid : (out ++ (free ++ blockAt (getBlockSize S) m.allocNode :: lost)).Perm
      (blockAt (getBlockSize S) m.allocNode :: (out ++ (free ++ lost))) :=
    (List.Perm.append_left out List.perm_middle).trans List.perm_middle
  refine hmid.trans ((hi.allocated.cons _).trans ?_)
  change List.Perm _ ((List.range (m.allocNode + 1)).map (blockAt (getBlockSize S)))
  rw [List.range_succ, List.map_append, List.map_singleton]
  exact (List.perm_append_singleton _ _).symm

theorem lost_mem (hi : Inv P N S m out free (o :: lost)) :
    o ∉ out ∧ o ∉ free ∧ o ∉ lost := by
  have hperm : (out ++ (free ++ o :: lost)).Perm (o :: (out ++ (free ++ lost))) :=
    (List.Perm.append_left out List.perm_middle).trans List.perm_middle
  have hnot := (List.nodup_cons.mp (hperm.nodup_iff.mp hi.nodup)).1
  simp only [List.mem_append, not_or] at hnot
  exact hnot

/-- The word of a lost block is written. -/
theorem setNext (hi : Inv P N S m out free (o :: lost)) (n : Nat) :
    Inv P N S (Store.apply (Write.next o n) m) out free (o :: lost) := by
  obtain ⟨ho, hf, -⟩ := hi.lost_mem
  have hkeep : ∀ i, i ≠ o → (Store.apply (Write.next o n) m).next i = m.next i := fun i h =>
    if_neg h
  refine ⟨hi.toFits, hi.maxSize, hi.maxNode, hi.nodeSize, hi.blockSize, hi.allocSize,
    hi.allocNode, hi.freeChain.congr fun i h => ?_, hi.allocated, fun i h => ?_⟩
  · exact hkeep i fun he => hf (he ▸ h)
  · exact (hkeep i fun he => ho (he ▸ h)).trans (hi.used i h)

/-- A lost block marked used counts as handed out. -/
theorem claim (hi : Inv P N S m out free (o :: lost)) (mark : m.next o = 0) :
    Inv P N S m (o :: out) free lost := by
  refine ⟨hi.toFits, hi.maxSize, hi.maxNode, hi.nodeSize, hi.blockSize, hi.allocSize,
    hi.allocNode, hi.freeChain, ?_, fun i h => ?_⟩
  · refine List.Perm.trans ?_ hi.allocated
    exact ((List.Perm.append_left out List.perm_middle).trans List.perm_middle).symm
  · rcases List.mem_cons.mp h with rfl | h
    · exact mark
    · exact hi.used i h

/-- A block handed out may be considered lost. -/
theorem drop (hi : Inv P N S m (o :: out) free lost) : Inv P N S m out free (o :: lost) := by
  refine ⟨hi.toFits, hi.maxSize, hi.maxNode, hi.nodeSize, hi.blockSize, hi.allocSize,
    hi.allocNode, hi.freeChain, ?_, fun i h => hi.used i (List.mem_cons_of_mem o h)⟩
  refine List.Perm.trans ?_ hi.allocated
  exact (List.Perm.append_left out List.perm_middle).trans List.perm_middle

/-- A lost block linked to the free list becomes its head. -/
theorem push (hi : Inv P N S m out free (o :: lost)) (link : m.next o = m.freeList) :
    Inv P N S (Store.apply (Write.freeList o) m) out (o :: free) lost := by
  refine ⟨hi.toFits, hi.maxSize, hi.maxNode, hi.nodeSize, hi.blockSize, hi.allocSize,
    hi.allocNode, ⟨rfl, ?_⟩, ?_, hi.used⟩
  · change Chain m.next INVALID_POINTER (m.next o) free
    rw [link]
    exact hi.freeChain
  · exact (List.Perm.append_left out List.perm_middle.symm).trans hi.allocated

theorem perm {out' : List Nat} (hi : Inv P N S m out free lost) (h : out'.Perm out) :
    Inv P N S m out' free lost :=
  ⟨hi.toFits, hi.maxSize, hi.maxNode, hi.nodeSize, hi.blockSize, hi.allocSize, hi.allocNode,
    hi.freeChain, (h.append_right _).trans hi.allocated, fun i hm => hi.used i (h.mem_iff.mp hm)⟩

end Inv

/-! ## `Alloc` -/

/-- The pointer to the node of block `o`. -/
def nodeAt (P : Mapping) (o : Nat) : Nat := P.header + o + NODE_OFFSET

/-- The writes of `Alloc` to the block. -/
def handOutWrites (zeroed : β) (zero : Bool) (o : Nat) : List (Write β) :=
  (if zero then [.next o 0, .node (o + NODE_OFFSET) zeroed] else []) ++ [.next o 0]

theorem handOut_run {z : β} {zero : Bool} (hf : Fits P N S) (size : m.blockSize = getBlockSize S)
    (ho : Inside P S o) : handOut P z zero (P.header + o) m =
      some (some (nodeAt P o), handOutWrites z zero o) := by
  have hacc : Accessible P (P.header + o) m.blockSize := by
    rw [size]
    exact hf.accessible ho
  cases zero with
  | false =>
      rw [handOut, hf.setNext_eq ho, hf.node_eq ho]
      rfl
  | true =>
      rw [handOut, if_pos rfl, zeroBlock, hf.setNext_eq ho, hf.node_eq ho, hf.ref_inside ho]
      have hzero : (do
          if Accessible P (P.header + o) (← .read fun m => m.blockSize) then
            .write (.next o 0)
            .write (.node (o + NODE_OFFSET) z)
          else .stuck : Act β Unit) m = some ((), [.next o 0, .node (o + NODE_OFFSET) z]) := by
        rw [run_read_bind, if_pos hacc]
        rfl
      rw [run_bind hzero]
      rfl

/-- The first block of the free list is handed out. -/
theorem alloc_cons {z : β} {zero : Bool} (hi : Inv P N S m out (o :: free) lost) :
    alloc P z zero m =
      some (some (nodeAt P o), .freeList (m.next o) :: handOutWrites z zero o) := by
  have hin : Inside P S o := hi.inside (Or.inr (Or.inl List.mem_cons_self))
  have hhead : m.freeList = o := hi.freeChain.1
  have hget : getFreeBlock P m = some (some (P.header + o), [.freeList (m.next o)]) := by
    rw [getFreeBlock, run_read_bind, hhead, if_neg (hi.ne_invalid hin), run_read_bind, hhead,
      hi.deref_inside hin, hi.next_eq hin, run_read_bind]
    rfl
  rw [alloc, run_bind hget]
  simp only [replay_cons, replay_nil]
  have hvalid : isValidBlock P (P.header + o) (Store.apply (Write.freeList (m.next o)) m) = true :=
    hi.pop.isValidBlock_eq (Or.inr (Or.inr List.mem_cons_self))
  rw [run_read_bind, if_pos hvalid, handOut_run hi.toFits hi.pop.blockSize hin]
  rfl

theorem getFreeBlock_nil (hi : Inv P N S m out [] lost) :
    getFreeBlock P m = some (none, []) := by
  have hhead : m.freeList = INVALID_POINTER := hi.freeChain
  rw [getFreeBlock, run_read_bind, hhead, if_pos rfl]
  rfl

/-- The sum that `Alloc` compares with `max_size` does not wrap around. -/
theorem Inv.end_eq (hi : Inv P N S m out free lost) :
    u64 (m.allocSize + m.blockSize) = blockAt (getBlockSize S) (m.allocNode + 1) := by
  have hb := hi.blocks
  have hm := Nat.mul_le_mul_right (getBlockSize S) hi.allocNode
  have hsucc : blockAt (getBlockSize S) (m.allocNode + 1) =
      blockAt (getBlockSize S) m.allocNode + getBlockSize S := by
    rw [blockAt, blockAt, Nat.succ_mul, Nat.add_assoc]
  rw [hi.allocSize, hi.blockSize, hsucc]
  refine u64_of_lt ?_
  unfold blockAt at hb ⊢
  omega

/-- With nothing on the free list the block behind the last one is handed out. -/
theorem alloc_fresh {z : β} {zero : Bool} (hi : Inv P N S m out [] lost)
    (room : m.allocNode < N) : alloc P z zero m =
      some (some (nodeAt P (blockAt (getBlockSize S) m.allocNode)),
        .allocSize (blockAt (getBlockSize S) (m.allocNode + 1)) ::
          .allocNode (m.allocNode + 1) ::
          handOutWrites z zero (blockAt (getBlockSize S) m.allocNode)) := by
  have hgrow := hi.grow room
  have hin : Inside P S (blockAt (getBlockSize S) m.allocNode) :=
    hgrow.inside (Or.inr (Or.inr List.mem_cons_self))
  have hfits : blockAt (getBlockSize S) (m.allocNode + 1) ≤ m.maxSize := by
    rw [hi.maxSize, hi.maxSize_eq]
    have hm := Nat.mul_le_mul_right (getBlockSize S) (show m.allocNode + 1 ≤ N from room)
    unfold blockAt
    omega
  have hcount := hi.count
  have hnum : u32 (m.allocNode + 1) = m.allocNode + 1 := u32_of_lt (by omega)
  have hderef : deref P m.allocSize = P.header + blockAt (getBlockSize S) m.allocNode := by
    rw [hi.allocSize]
    exact hi.deref_inside hin
  rw [alloc, run_bind (getFreeBlock_nil hi)]
  simp only [replay_nil]
  rw [run_read_bind, hi.end_eq, run_read_bind, if_pos hfits, run_read_bind, hderef, run_read_bind,
    run_write_bind, hi.end_eq, run_read_bind, run_write_bind]
  have hkeep : u32 ((Store.apply (Write.allocSize (blockAt (getBlockSize S) (m.allocNode + 1)))
      m).allocNode + 1) = m.allocNode + 1 := hnum
  rw [hkeep, handOut_run hi.toFits hgrow.blockSize hin]
  rfl

/-- When every block is in use `Alloc` returns the null pointer. -/
theorem alloc_full {z : β} {zero : Bool} (hi : Inv P N S m out [] lost) (full : m.allocNode = N) :
    alloc P z zero m = some (none, []) := by
  have hb := hi.blockSize_pos
  have hfits : ¬ blockAt (getBlockSize S) (m.allocNode + 1) ≤ m.maxSize := by
    rw [hi.maxSize, hi.maxSize_eq, full, blockAt, blockAt, Nat.succ_mul]
    omega
  rw [alloc, run_bind (getFreeBlock_nil hi)]
  simp only [replay_nil]
  rw [run_read_bind, hi.end_eq, run_read_bind, if_neg hfits]
  rfl

/-- The writes with which `Alloc` takes block `o` from the free list, or from the
part never allocated. -/
inductive Reserves (m : Mem β) (bs : Nat) : Nat → List (Write β) → Prop where
  | pop (o : Nat) : Reserves m bs o [.freeList (m.next o)]
  | grow : Reserves m bs (blockAt bs m.allocNode)
      [.allocSize (blockAt bs (m.allocNode + 1)), .allocNode (m.allocNode + 1)]

theorem Reserves.node_eq {bs : Nat} {ws : List (Write β)} (h : Reserves m bs o ws) :
    (replay ws m).node = m.node := by
  cases h with
  | pop => rfl
  | grow => rfl

/-- The two outcomes of `Alloc`. -/
theorem Inv.alloc_cases (hi : Inv P N S m out free lost) (z : β) (zero : Bool) :
    (free = [] ∧ m.allocNode = N ∧ alloc P z zero m = some (none, [])) ∨
      ∃ o free' ws, Reserves m (getBlockSize S) o ws ∧
        alloc P z zero m = some (some (nodeAt P o), ws ++ handOutWrites z zero o) ∧
        Inv P N S (replay ws m) out free' (o :: lost) := by
  cases free with
  | cons o free => exact Or.inr ⟨o, free, _, .pop o, alloc_cons hi, hi.pop⟩
  | nil =>
      by_cases hroom : m.allocNode < N
      · exact Or.inr ⟨_, [], _, .grow, alloc_fresh hi hroom, hi.grow hroom⟩
      · have hfull : m.allocNode = N := by
          have hle := hi.allocNode
          omega
        exact Or.inl ⟨rfl, hfull, alloc_full hi hfull⟩

theorem Inv.handOut {z : β} {zero : Bool} (hi : Inv P N S m out free (o :: lost)) :
    Inv P N S (replay (handOutWrites z zero o) m) (o :: out) free lost := by
  have hmark : ∀ m' : Mem β, (Store.apply (Write.next o 0) m').next o = 0 := fun m' => if_pos rfl
  cases zero with
  | false => exact (hi.setNext 0).claim (hmark m)
  | true => exact (((hi.setNext 0).storeNode _ z).setNext 0).claim (hmark _)

/-! ## `Free` -/

/-- What `IsValidBlock` accepts lies where a block could be, and ends below `alloc_size`. -/
theorem valid_block (hi : Inv P N S m out free lost) {b : Nat} (hb : b < 2 ^ 64)
    (hv : isValidBlock P b m = true) : ∃ k, b = P.header + blockAt (getBlockSize S) k ∧
      u64 (b + getBlockSize S) ≤ P.header + blockAt (getBlockSize S) m.allocNode := by
  have ha := hi.address
  have hl := hi.length
  have hm := Nat.mul_le_mul_right (getBlockSize S) hi.allocNode
  have hpos := hi.blockSize_pos
  simp only [isValidBlock, hi.data_eq, hi.blockSize, hi.allocSize] at hv
  rw [u64_of_lt (n := P.header + blockAt (getBlockSize S) m.allocNode)
    (by unfold blockAt at hl ⊢; omega)] at hv
  simp only [ne_eq, decide_eq_true_eq, not_or, not_lt, not_not] at hv
  obtain ⟨hlow, hend, hmod⟩ := hv
  have href : ref P b = b - P.header := by
    unfold ref u64
    omega
  rw [href] at hmod
  have hzero := Nat.sub_mod_eq_zero_of_mod_eq hmod
  have hdiv := Nat.div_add_mod (b - P.header - SIZEOF_HEADER) (getBlockSize S)
  rw [hzero, Nat.add_zero, Nat.mul_comm] at hdiv
  refine ⟨(b - P.header - SIZEOF_HEADER) / getBlockSize S, ?_, hend⟩
  rw [blockAt, hdiv]
  omega

/-- `Free` of a node handed out puts its block in front of the free list. -/
theorem free_used (hi : Inv P N S m out free lost) (ho : o ∈ out) :
    Fixed.free P (nodeAt P o) m = some (0, [.next o m.freeList, .freeList o]) := by
  have hin : Inside P S o := hi.inside (Or.inl ho)
  have hvalid := hi.isValidBlock_eq (Or.inl ho)
  have hused : isUsedBlock P (P.header + o) m = some (true, []) := by
    rw [isUsedBlock, run_read_bind, if_pos hvalid, hi.next_eq hin, run_read_bind, hi.used o ho]
    rfl
  rw [Fixed.free, nodeAt, hi.getBlock_eq hin, run_bind hused]
  simp only [replay_nil, if_true, linkFreeBlock, hi.ref_inside hin, hi.setNext_eq hin]
  rfl

theorem Inv.giveBack (hi : Inv P N S m (o :: out) free lost) :
    Inv P N S (replay [.next o m.freeList, .freeList o] m) out (o :: free) lost :=
  (hi.drop.setNext m.freeList).push (if_pos rfl)

/-- Nothing else than a node handed out can be freed. -/
theorem free_other (hi : Inv P N S m out free []) {p : Nat} (hp : p < 2 ^ 64)
    (hno : ∀ o ∈ out, p ≠ nodeAt P o)
    (nowrap : isValidBlock P (getBlock p) m = true → getBlock p + getBlockSize S < 2 ^ 64) :
    Fixed.free P p m = some (-1, []) := by
  have hb : getBlock p < 2 ^ 64 := u64_lt _
  have hused : isUsedBlock P (getBlock p) m = some (false, []) := by
    rw [isUsedBlock, run_read_bind]
    by_cases hv : isValidBlock P (getBlock p) m = true
    · obtain ⟨k, hk, hend⟩ := valid_block hi hb hv
      rw [u64_of_lt (nowrap hv), hk] at hend
      have hlt : k < m.allocNode := by
        by_contra hle
        have hm := Nat.mul_le_mul_right (getBlockSize S) (not_lt.mp hle)
        have hpos := hi.blockSize_pos
        unfold blockAt at hend
        omega
      rcases hi.mem_iff.mpr ⟨k, hlt, rfl⟩ with ho | hfree | hlost
      · refine absurd ?_ (hno _ ho)
        have hle := (hi.inside (Or.inl ho)).2
        have ha := hi.address
        have hsize := hi.le_blockSize
        rw [nodeAt, ← hk]
        unfold getBlock u64 NODE_OFFSET at hk ⊢
        unfold NODE_OFFSET at hsize
        omega
      · have hin := hi.inside (Or.inr (Or.inl hfree))
        rw [if_pos hv, hk, hi.next_eq hin, run_read_bind]
        simp only [hi.unused hfree, decide_false]
        rfl
      · simp at hlost
    · rw [if_neg hv]
      rfl
  rw [Fixed.free, run_bind hused]
  rfl

/-- A block whose end wraps around is looked for outside of the mapped memory. -/
theorem free_wraps (hi : Inv P N S m out free lost) {p : Nat}
    (hv : isValidBlock P (getBlock p) m = true)
    (wrap : 2 ^ 64 ≤ getBlock p + getBlockSize S) : Fixed.free P p m = none := by
  have hb : getBlock p < 2 ^ 64 := u64_lt _
  obtain ⟨k, hk, -⟩ := valid_block hi hb hv
  have ha := hi.address
  have hl := hi.length
  have hbeyond : N ≤ k := by
    by_contra hlt
    have hle := hi.block_le (not_le.mp hlt)
    omega
  have hm := Nat.mul_le_mul_right (getBlockSize S) hbeyond
  have hnot : ¬ Accessible P (getBlock p) NODE_OFFSET := by
    have href : ref P (getBlock p) = blockAt (getBlockSize S) k := by
      unfold ref u64
      omega
    rw [Accessible, href, hl]
    unfold blockAt NODE_OFFSET
    omega
  have hused : isUsedBlock P (getBlock p) m = none := by
    rw [isUsedBlock, run_read_bind, if_pos hv, next, if_neg hnot]
    rfl
  rw [Fixed.free, run_none hused]

/-! ## `Init`, `Clear` and `CheckHeader` -/

/-- The writes of `Init` without a header check. -/
def initWrites (maxNode nodeSize : Nat) : List (Write β) :=
  [.maxSize (getMaxSize maxNode nodeSize), .maxNode maxNode, .allocSize SIZEOF_HEADER,
    .allocNode 0, .nodeSize nodeSize, .blockSize (getBlockSize nodeSize),
    .freeList INVALID_POINTER]

theorem init_nodeSize : (replay (initWrites N S) m).nodeSize = S := rfl

theorem init_run (hne : P.header ≠ 0) :
    init P N S false m = some (0, initWrites N S) := by
  rw [init, if_neg hne, if_pos (by decide)]
  rfl

theorem Fits.init (hf : Fits P N S) : Inv P N S (replay (initWrites N S) m) [] [] [] := by
  refine ⟨hf, rfl, rfl, rfl, rfl, ?_, Nat.zero_le N, rfl, List.Perm.refl _, by simp⟩
  change SIZEOF_HEADER = blockAt (getBlockSize S) 0
  rw [blockAt, Nat.zero_mul]
  rfl

theorem checkHeader_nodeSize {maxNode nodeSize : Nat}
    (h : checkHeader maxNode nodeSize m = true) : m.nodeSize = nodeSize ∧ m.maxNode = maxNode := by
  simp only [checkHeader, decide_eq_true_eq, not_or, not_not] at h
  exact ⟨h.1, h.2.2.1⟩

/-- The header check accepts the sizes of the pool and no others. -/
theorem Inv.checkHeader_iff (hi : Inv P N S m out free lost) {maxNode nodeSize : Nat} :
    checkHeader maxNode nodeSize m = true ↔ maxNode = N ∧ nodeSize = S := by
  constructor
  · intro h
    obtain ⟨hs, hn⟩ := checkHeader_nodeSize h
    exact ⟨hn.symm.trans hi.maxNode, hs.symm.trans hi.nodeSize⟩
  · rintro ⟨rfl, rfl⟩
    have hm := Nat.mul_le_mul_right (getBlockSize nodeSize) hi.allocNode
    have hb := hi.blocks
    have hsum : u64 (SIZEOF_HEADER + m.allocNode * getBlockSize nodeSize) =
        blockAt (getBlockSize nodeSize) m.allocNode :=
      u64_of_lt (by unfold blockAt at hb; omega)
    have hle : blockAt (getBlockSize nodeSize) m.allocNode ≤
        blockAt (getBlockSize nodeSize) maxNode := by
      unfold blockAt
      omega
    simp only [checkHeader, hi.nodeSize, hi.blockSize, hi.maxNode, hi.maxSize, hi.allocSize, hsum,
      hi.maxSize_eq, ne_eq, not_true, false_or, decide_eq_true_eq]
    omega

theorem clear_run (hi : Inv P N S m out free lost) :
    clear P m = some (0, initWrites N (sizeOfInt (toInt S))) := by
  have hnum : uint32OfInt (toInt N) = N := by
    rw [uint32OfInt_toInt, u32_of_lt hi.count]
  rw [clear, run_read_bind, hi.maxNode, run_read_bind, hi.nodeSize, hnum,
    init_run hi.header_ne]

end Jump.MemPool.Fixed
