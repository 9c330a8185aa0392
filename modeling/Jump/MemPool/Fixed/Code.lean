import Jump.Core.Prog
import Jump.Core.Ring
import Jump.Core.Word
import Mathlib.Data.List.Nodup

/-! # The functions of `FixedMemPool`

The pool keeps its header, its blocks and the free list in one piece of mapped
memory. The free list and `Ref` use offsets from the header; the pointers given
to the program are addresses. A block is the word `next` and the node behind it.

Every block below `alloc_size` is either handed out or on the free list. The
word in front of a block tells which, since no link of the free list is 0.
-/

namespace Jump.MemPool.Fixed

open Jump.Core Prog

/-! ## The functions -/

/-- `sizeof(MemHeader)` -/
def SIZEOF_HEADER : Nat := 56

/-- `offsetof(AllocBlock, node)` -/
def NODE_OFFSET : Nat := 8

def INVALID_POINTER : Nat := 2 ^ 64 - 1

/-- `MemHeader` and the blocks. `next` is the first word of the block at an
offset, `node` what is stored behind it, at the offset of the node. -/
structure Mem (β : Type) where
  maxSize : Nat
  maxNode : Nat
  allocSize : Nat
  allocNode : Nat
  nodeSize : Nat
  blockSize : Nat
  freeList : Nat
  next : Nat → Nat
  node : Nat → β

inductive Write (β : Type) where
  | maxSize (n : Nat)
  | maxNode (n : Nat)
  | allocSize (n : Nat)
  | allocNode (n : Nat)
  | nodeSize (n : Nat)
  | blockSize (n : Nat)
  | freeList (pos : Nat)
  | next (pos n : Nat)
  | node (pos : Nat) (b : β)

namespace Mem

variable {β : Type}

def apply (m : Mem β) : Write β → Mem β
  | .maxSize n => { m with maxSize := n }
  | .maxNode n => { m with maxNode := n }
  | .allocSize n => { m with allocSize := n }
  | .allocNode n => { m with allocNode := n }
  | .nodeSize n => { m with nodeSize := n }
  | .blockSize n => { m with blockSize := n }
  | .freeList pos => { m with freeList := pos }
  | .next pos n => { m with next := fun i => if i = pos then n else m.next i }
  | .node pos b => { m with node := fun i => if i = pos then b else m.node i }

instance : Store (Mem β) (Write β) where
  apply w m := m.apply w

end Mem

/-- Where the pool lies: the address `header_`, and how many bytes are mapped from there. -/
structure Mapping where
  header : Nat
  length : Nat

abbrev Act (β α : Type) : Type := Prog (Mem β) (Write β) α

def getBlockSize (nodeSize : Nat) : Nat := u64 (nodeSize + NODE_OFFSET + 7) / 8 * 8

def getMaxSize (maxNode nodeSize : Nat) : Nat :=
  u64 (SIZEOF_HEADER + maxNode * getBlockSize nodeSize)

section Functions

variable {β : Type} (P : Mapping)

def checkHeader (maxNode nodeSize : Nat) (m : Mem β) : Bool :=
  ¬ (m.nodeSize ≠ nodeSize ∨ m.blockSize ≠ getBlockSize nodeSize ∨ m.maxNode ≠ maxNode ∨
    m.maxSize ≠ getMaxSize maxNode nodeSize ∨
    u64 (SIZEOF_HEADER + m.allocNode * m.blockSize) ≠ m.allocSize ∨
    m.allocSize > getMaxSize maxNode nodeSize)

def ref (p : Nat) : Nat := u64 (2 ^ 64 + p - P.header)

def deref (pos : Nat) : Nat := u64 (P.header + pos)

/-- `data_` -/
def data : Nat := u64 (P.header + SIZEOF_HEADER)

def getBlock (node : Nat) : Nat := u64 (2 ^ 64 + node - NODE_OFFSET)

def isValidBlock (block : Nat) (m : Mem β) : Bool :=
  ¬ (block < data P ∨ u64 (block + m.blockSize) > u64 (P.header + m.allocSize) ∨
    ref P block % m.blockSize ≠ SIZEOF_HEADER % m.blockSize)

/-- The `n` bytes at `p` are mapped and lie behind the header. -/
def Accessible (p n : Nat) : Prop := SIZEOF_HEADER ≤ ref P p ∧ ref P p + n ≤ P.length

instance (p n : Nat) : Decidable (Accessible P p n) := inferInstanceAs (Decidable (_ ∧ _))

/-- `p->next`; outside of the mapped memory there is nothing to read. -/
def next (p : Nat) : Act β Nat := do
  if Accessible P p NODE_OFFSET then .read fun m => m.next (ref P p) else .stuck

def setNext (p n : Nat) : Act β Unit := do
  if Accessible P p NODE_OFFSET then .write (.next (ref P p) n) else .stuck

/-- `memset(p, 0, block_size)` -/
def zeroBlock (zeroed : β) (p : Nat) : Act β Unit := do
  if Accessible P p (← .read fun m => m.blockSize) then
    setNext P p 0
    .write (.node (ref P p + NODE_OFFSET) zeroed)
  else .stuck

def init (maxNode nodeSize : Nat) (check : Bool) : Act β Int := do
  if P.header = 0 then return -1
  else if ¬ check then
    .write (.maxSize (getMaxSize maxNode nodeSize))
    .write (.maxNode maxNode)
    .write (.allocSize SIZEOF_HEADER)
    .write (.allocNode 0)
    .write (.nodeSize nodeSize)
    .write (.blockSize (getBlockSize nodeSize))
    .write (.freeList INVALID_POINTER)
    return 0
  else if ← .read fun m => checkHeader maxNode nodeSize m then return 0
  else return -1

def linkFreeBlock (p : Nat) : Act β Unit := do
  setNext P p (← .read fun m => m.freeList)
  .write (.freeList (ref P p))

/-- `none` is the null pointer. -/
def getFreeBlock : Act β (Option Nat) := do
  if (← .read fun m => m.freeList) = INVALID_POINTER then return none
  else
    let p ← .read fun m => deref P m.freeList
    .write (.freeList (← next P p))
    return some p

/-- The end of `Alloc`, for a block that was found. -/
def handOut (zeroed : β) (zero : Bool) (p : Nat) : Act β (Option Nat) := do
  if zero then zeroBlock P zeroed p
  setNext P p 0
  return some (u64 (p + NODE_OFFSET))

def alloc (zeroed : β) (zero : Bool) : Act β (Option Nat) := do
  match ← getFreeBlock P with
  | none =>
      -- no block was freed, so one is taken from the part never allocated
      if (← .read fun m => u64 (m.allocSize + m.blockSize)) ≤ (← .read fun m => m.maxSize) then
        let p ← .read fun m => deref P m.allocSize
        .write (.allocSize (← .read fun m => u64 (m.allocSize + m.blockSize)))
        .write (.allocNode (← .read fun m => u32 (m.allocNode + 1)))
        handOut P zeroed zero p
      else return none
  | some p =>
      if ← .read fun m => isValidBlock P p m then handOut P zeroed zero p else return none

def isUsedBlock (block : Nat) : Act β Bool := do
  if ← .read fun m => isValidBlock P block m then return (← next P block) = 0
  else return false

def free (node : Nat) : Act β Int := do
  if ← isUsedBlock P (getBlock node) then
    linkFreeBlock P (getBlock node)
    return 0
  else return -1

def clear : Act β Int := do
  let maxNode ← .read fun m => toInt m.maxNode
  let nodeSize ← .read fun m => toInt m.nodeSize
  init P (uint32OfInt maxNode) (sizeOfInt nodeSize) false

end Functions

/-! ## The invariant -/

section Invariant

variable {β : Type} {P : Mapping} {N S : Nat} {m : Mem β} {out free lost : List Nat}

/-- The offset of block `k`, for blocks of `bs` bytes. -/
def blockAt (bs k : Nat) : Nat := SIZEOF_HEADER + k * bs

/-- The mapped memory is what `GetMaxSize(N, S)` asks for, and neither this size
nor one block more wraps around. -/
structure Fits (P : Mapping) (N S : Nat) : Prop where
  header_ne : P.header ≠ 0
  count : N < 2 ^ 32
  node : S + NODE_OFFSET + 7 < 2 ^ 64
  blocks : blockAt (getBlockSize S) N + getBlockSize S < 2 ^ 64
  length : P.length = blockAt (getBlockSize S) N
  address : P.header + P.length < 2 ^ 64

theorem blockAt_lt {bs i j : Nat} (h : i < j) : blockAt bs i + bs ≤ blockAt bs j := by
  have hm : (i + 1) * bs ≤ j * bs := Nat.mul_le_mul_right bs h
  rw [Nat.succ_mul] at hm
  unfold blockAt
  omega

theorem blockAt_inj {bs i j : Nat} (pos : 0 < bs) (h : blockAt bs i = blockAt bs j) : i = j := by
  unfold blockAt at h
  have hm : i * bs = j * bs := by omega
  exact Nat.eq_of_mul_eq_mul_right pos hm

namespace Fits

theorem blockSize_eq (hf : Fits P N S) : getBlockSize S = (S + 15) / 8 * 8 := by
  have hn := hf.node
  unfold NODE_OFFSET at hn
  rw [getBlockSize, NODE_OFFSET, u64_of_lt (by omega)]

theorem le_blockSize (hf : Fits P N S) : S + NODE_OFFSET ≤ getBlockSize S := by
  rw [hf.blockSize_eq, NODE_OFFSET]
  omega

theorem blockSize_pos (hf : Fits P N S) : 0 < getBlockSize S := by
  have h := hf.le_blockSize
  unfold NODE_OFFSET at h
  omega

theorem maxSize_eq (hf : Fits P N S) : getMaxSize N S = blockAt (getBlockSize S) N := by
  have hb := hf.blocks
  rw [getMaxSize]
  exact u64_of_lt (by unfold blockAt at hb; omega)

/-- Every block of the pool ends inside the mapped memory. -/
theorem block_le (hf : Fits P N S) {k : Nat} (hk : k < N) :
    blockAt (getBlockSize S) k + getBlockSize S ≤ P.length := by
  rw [hf.length]
  exact blockAt_lt hk

theorem deref_eq (hf : Fits P N S) {pos : Nat} (h : pos ≤ P.length) :
    deref P pos = P.header + pos := by
  have ha := hf.address
  exact u64_of_lt (by omega)

theorem data_eq (hf : Fits P N S) : data P = P.header + SIZEOF_HEADER := by
  have ha := hf.address
  have hl := hf.length
  unfold blockAt at hl
  exact u64_of_lt (by omega)

theorem ref_eq (hf : Fits P N S) {pos : Nat} (h : pos ≤ P.length) :
    ref P (P.header + pos) = pos := by
  have ha := hf.address
  unfold ref u64
  omega

end Fits

/-- `out` are the offsets of the blocks handed out, `free` those of the free list
in its order, and `lost` those that a crash left in neither. -/
structure Inv (P : Mapping) (N S : Nat) (m : Mem β) (out free lost : List Nat) : Prop extends
    Fits P N S where
  maxSize : m.maxSize = getMaxSize N S
  maxNode : m.maxNode = N
  nodeSize : m.nodeSize = S
  blockSize : m.blockSize = getBlockSize S
  allocSize : m.allocSize = blockAt (getBlockSize S) m.allocNode
  allocNode : m.allocNode ≤ N
  freeChain : Chain m.next INVALID_POINTER m.freeList free
  allocated : (out ++ (free ++ lost)).Perm
    ((List.range m.allocNode).map (blockAt (getBlockSize S)))
  used : ∀ o ∈ out, m.next o = 0

/-- Block `o` lies behind the header and inside the mapped memory. -/
def Inside (P : Mapping) (S o : Nat) : Prop :=
  SIZEOF_HEADER ≤ o ∧ o + getBlockSize S ≤ P.length

namespace Inv

theorem nodup (hi : Inv P N S m out free lost) : (out ++ (free ++ lost)).Nodup := by
  refine hi.allocated.nodup_iff.mpr (List.Nodup.map_on (fun i _ j _ h => ?_) List.nodup_range)
  exact blockAt_inj hi.blockSize_pos h

theorem mem_iff (hi : Inv P N S m out free lost) {o : Nat} :
    o ∈ out ∨ o ∈ free ∨ o ∈ lost ↔ ∃ k < m.allocNode, o = blockAt (getBlockSize S) k := by
  rw [← List.mem_append, ← List.mem_append, hi.allocated.mem_iff, List.mem_map]
  constructor
  · rintro ⟨k, hk, rfl⟩
    exact ⟨k, List.mem_range.mp hk, rfl⟩
  · rintro ⟨k, hk, rfl⟩
    exact ⟨k, List.mem_range.mpr hk, rfl⟩

theorem count_eq (hi : Inv P N S m out free lost) :
    out.length + free.length + lost.length = m.allocNode := by
  have hl := hi.allocated.length_eq
  rw [List.length_append, List.length_append, List.length_map, List.length_range] at hl
  omega

theorem inside (hi : Inv P N S m out free lost) {o : Nat} (ho : o ∈ out ∨ o ∈ free ∨ o ∈ lost) :
    Inside P S o := by
  obtain ⟨k, hk, rfl⟩ := hi.mem_iff.mp ho
  have ha := hi.allocNode
  refine ⟨?_, hi.block_le (by omega)⟩
  unfold blockAt
  omega

theorem not_free (hi : Inv P N S m out free lost) {o : Nat} (ho : o ∈ out) : o ∉ free :=
  fun hf => (List.nodup_append.mp hi.nodup).2.2 o ho o (List.mem_append_left _ hf) rfl

theorem ne_invalid (hi : Inv P N S m out free lost) {o : Nat} (ho : Inside P S o) :
    o ≠ INVALID_POINTER := by
  have hb := ho.2
  have ha := hi.address
  have hp := hi.blockSize_pos
  unfold INVALID_POINTER
  omega

/-- No link of the free list is 0. -/
theorem unused (hi : Inv P N S m out free lost) {o : Nat} (ho : o ∈ free) : m.next o ≠ 0 := by
  obtain ⟨xs, ys, rfl⟩ := List.append_of_mem ho
  obtain ⟨q, -, hq⟩ := Chain.append_iff.mp hi.freeChain
  obtain ⟨rfl, hq⟩ := hq
  cases ys with
  | nil =>
      have hlast : m.next q = INVALID_POINTER := hq
      rw [hlast]
      decide
  | cons y ys =>
      have hnext : m.next q = y := hq.1
      have hy := (hi.inside (o := y) (Or.inr (Or.inl (by simp)))).1
      rw [hnext]
      unfold SIZEOF_HEADER at hy
      omega

end Inv

/-! ## Access to a block -/

section Access

variable {o : Nat}

theorem Fits.deref_inside (hf : Fits P N S) (ho : Inside P S o) : deref P o = P.header + o :=
  hf.deref_eq (by have hb := ho.2; omega)

theorem Fits.ref_inside (hf : Fits P N S) (ho : Inside P S o) : ref P (P.header + o) = o :=
  hf.ref_eq (by have hb := ho.2; omega)

theorem Fits.accessible (hf : Fits P N S) (ho : Inside P S o) :
    Accessible P (P.header + o) (getBlockSize S) := by
  rw [Accessible, hf.ref_inside ho]
  exact ho

theorem Fits.accessible_next (hf : Fits P N S) (ho : Inside P S o) :
    Accessible P (P.header + o) NODE_OFFSET := by
  have hb := hf.le_blockSize
  have hle := ho.2
  rw [Accessible, hf.ref_inside ho]
  exact ⟨ho.1, by omega⟩

theorem Fits.next_eq (hf : Fits P N S) (ho : Inside P S o) :
    (next P (P.header + o) : Act β Nat) = .read fun m => m.next o := by
  rw [next, if_pos (hf.accessible_next ho), hf.ref_inside ho]

theorem Fits.setNext_eq (hf : Fits P N S) (ho : Inside P S o) (n : Nat) :
    (setNext P (P.header + o) n : Act β Unit) = .write (.next o n) := by
  rw [setNext, if_pos (hf.accessible_next ho), hf.ref_inside ho]

theorem Fits.node_eq (hf : Fits P N S) (ho : Inside P S o) :
    u64 (P.header + o + NODE_OFFSET) = P.header + o + NODE_OFFSET := by
  have hb := hf.le_blockSize
  have hle := ho.2
  have ha := hf.address
  exact u64_of_lt (by omega)

theorem Fits.getBlock_eq (hf : Fits P N S) (ho : Inside P S o) :
    getBlock (P.header + o + NODE_OFFSET) = P.header + o := by
  have hb := hf.le_blockSize
  have hle := ho.2
  have ha := hf.address
  unfold getBlock u64 NODE_OFFSET
  omega

/-- A block of the pool is valid for every header that has allocated it. -/
theorem Inv.isValidBlock_eq (hi : Inv P N S m out free lost)
    (ho : o ∈ out ∨ o ∈ free ∨ o ∈ lost) : isValidBlock P (P.header + o) m = true := by
  have hin := hi.inside ho
  obtain ⟨k, hk, rfl⟩ := hi.mem_iff.mp ho
  have ha := hi.address
  have hl := hi.length
  have hsize : blockAt (getBlockSize S) m.allocNode ≤ blockAt (getBlockSize S) N := by
    have hm := Nat.mul_le_mul_right (getBlockSize S) hi.allocNode
    unfold blockAt
    omega
  have hend : blockAt (getBlockSize S) k + getBlockSize S ≤
    blockAt (getBlockSize S) m.allocNode := blockAt_lt hk
  have hmod : blockAt (getBlockSize S) k % getBlockSize S = SIZEOF_HEADER % getBlockSize S := by
    rw [blockAt, Nat.add_mul_mod_self_right]
  have h1 := hin.1
  have h2 := hin.2
  simp only [isValidBlock, hi.data_eq, hi.blockSize, hi.allocSize, hi.ref_inside hin, hmod]
  rw [u64_of_lt (by omega), u64_of_lt (by omega)]
  simp only [ne_eq, not_true, or_false, decide_eq_true_eq]
  omega

end Access

end Invariant

end Jump.MemPool.Fixed
