import Jump.MemPool.Fixed.Effects

/-! # The walk over the blocks of a `FixedMemPool`

`GetNextUsedBlock` goes over the blocks by their addresses, whatever state the
block it starts behind is in.
-/

namespace Jump.MemPool.Fixed

open Jump.Core Prog

variable {β : Type} {P : Mapping} {N S : Nat} {m : Mem β} {out free lost : List Nat}

section Functions

variable (P)

def getFirstBlock : Act β (Option Nat) := do
  let block := data P
  if ← .read fun m => isValidBlock P block m then return some block else return none

def getNextBlock (block : Option Nat) : Act β (Option Nat) := do
  match block with
  | none => getFirstBlock P
  | some p =>
      let next ← .read fun m => u64 (p + m.blockSize)
      if ← .read fun m => isValidBlock P next m then return some next else return none

/-- The turn of `GetNextUsedBlock`. -/
def nextUsedTurn (block : Option Nat) : Act β (Option Nat ⊕ Option Nat) := do
  match ← getNextBlock P block with
  | none => return .inr none
  | some p => if (← next P p) = 0 then return .inr (some p) else return .inl (some p)

/-- There are at most `max_node` blocks to look at. -/
def getNextUsedBlock (block : Option Nat) : Act β (Option Nat) := do
  loop (nextUsedTurn P) (← .read fun m => m.maxNode + 1) block

end Functions

/-- The address of block `k`. -/
def blockPtr (P : Mapping) (S k : Nat) : Nat := P.header + blockAt (getBlockSize S) k

/-- `c` is where the walk stands when the next block to look at is block `k`. -/
def Before (P : Mapping) (S : Nat) (c : Option Nat) (k : Nat) : Prop :=
  (c = none ∧ k = 0) ∨ ∃ j, c = some (blockPtr P S j) ∧ k = j + 1

theorem before_succ (k : Nat) : Before P S (some (blockPtr P S k)) (k + 1) :=
  Or.inr ⟨k, rfl, rfl⟩

theorem blockPtr_succ (k : Nat) : blockPtr P S k + getBlockSize S = blockPtr P S (k + 1) := by
  rw [blockPtr, blockPtr, blockAt, blockAt, Nat.succ_mul]
  omega

/-- One block behind the mapped memory does not wrap around. -/
def NoWrap (P : Mapping) (S : Nat) : Prop := P.header + P.length + getBlockSize S < 2 ^ 64

theorem blockPtr_le (hf : Fits P N S) {k : Nat} (hk : k ≤ N) :
    blockPtr P S k ≤ P.header + P.length := by
  have hm := Nat.mul_le_mul_right (getBlockSize S) hk
  rw [hf.length, blockPtr]
  unfold blockAt
  omega

namespace Inv

/-- The first address behind the blocks is no valid block. -/
theorem isValidBlock_end (hi : Inv P N S m out free lost) (hw : NoWrap P S) :
    isValidBlock P (blockPtr P S m.allocNode) m = false := by
  have hle := blockPtr_le hi.toFits hi.allocNode
  have hpos := hi.blockSize_pos
  unfold NoWrap at hw
  have hend : u64 (P.header + m.allocSize) < u64 (blockPtr P S m.allocNode + m.blockSize) := by
    rw [hi.allocSize, hi.blockSize]
    change u64 (blockPtr P S m.allocNode) < _
    rw [u64_of_lt (by omega), u64_of_lt (by omega)]
    omega
  simp [isValidBlock, hend]

theorem isValidBlock_block (hi : Inv P N S m out free lost) {k : Nat} (hk : k < m.allocNode) :
    isValidBlock P (blockPtr P S k) m = true :=
  hi.isValidBlock_eq (hi.mem_iff.mpr ⟨k, hk, rfl⟩)

theorem getNextBlock_run (hi : Inv P N S m out free lost) (hw : NoWrap P S) {c : Option Nat}
    {k : Nat} (hc : Before P S c k) (hk : k ≤ m.allocNode) :
    getNextBlock P c m =
      some (if k < m.allocNode then some (blockPtr P S k) else none, []) := by
  have hle := blockPtr_le hi.toFits (hk.trans hi.allocNode)
  unfold NoWrap at hw
  have htest : isValidBlock P (blockPtr P S k) m = decide (k < m.allocNode) := by
    by_cases hlt : k < m.allocNode
    · rw [hi.isValidBlock_block hlt, decide_eq_true hlt]
    · obtain rfl : k = m.allocNode := by omega
      rw [hi.isValidBlock_end hw, decide_eq_false hlt]
  have hshow : ((do
      if ← .read fun m => isValidBlock P (blockPtr P S k) m then return some (blockPtr P S k)
      else return none : Act β (Option Nat)) m) =
      some (if k < m.allocNode then some (blockPtr P S k) else none, []) := by
    rw [run_read_bind, htest]
    by_cases hlt : k < m.allocNode
    · simp only [hlt, decide_true, if_true]
      rfl
    · simp only [hlt, decide_false, Bool.false_eq_true, if_false]
      rfl
  rcases hc with ⟨rfl, rfl⟩ | ⟨j, rfl, rfl⟩
  · have hdata : data P = blockPtr P S 0 := by
      rw [hi.data_eq, blockPtr, blockAt, Nat.zero_mul, Nat.add_zero]
    rw [getNextBlock, getFirstBlock, hdata]
    exact hshow
  · have hnext : u64 (blockPtr P S j + m.blockSize) = blockPtr P S (j + 1) := by
      rw [hi.blockSize, blockPtr_succ, u64_of_lt (by omega)]
    simp only [getNextBlock]
    rw [run_read_bind, hnext]
    exact hshow

end Inv

/-- The first block from block `k` on that is in use. -/
def firstUsed (m : Mem β) (S : Nat) : Nat → Nat → Option Nat
  | 0, _ => none
  | n + 1, k => if m.next (blockAt (getBlockSize S) k) = 0 then some k else firstUsed m S n (k + 1)

theorem firstUsed_some {n k i : Nat} (h : firstUsed m S n k = some i) :
    k ≤ i ∧ i < k + n ∧ m.next (blockAt (getBlockSize S) i) = 0 ∧
      ∀ j, k ≤ j → j < i → m.next (blockAt (getBlockSize S) j) ≠ 0 := by
  induction n generalizing k with
  | zero => cases h
  | succ n ih =>
      rw [firstUsed] at h
      split at h
      next hzero =>
        cases h
        exact ⟨Nat.le_refl _, by omega, hzero, fun j h1 h2 => absurd h1 (by omega)⟩
      next hne =>
        obtain ⟨h1, h2, h3, h4⟩ := ih h
        refine ⟨by omega, by omega, h3, fun j hj hji => ?_⟩
        by_cases hjk : j = k
        · rw [hjk]
          exact hne
        · exact h4 j (by omega) hji

theorem firstUsed_none {n k : Nat} (h : firstUsed m S n k = none) :
    ∀ j, k ≤ j → j < k + n → m.next (blockAt (getBlockSize S) j) ≠ 0 := by
  induction n generalizing k with
  | zero => exact fun j h1 h2 => absurd h1 (by omega)
  | succ n ih =>
      rw [firstUsed] at h
      split at h
      next => cases h
      next hne =>
        intro j hj hjn
        by_cases hjk : j = k
        · rw [hjk]
          exact hne
        · exact ih h j (by omega) (by omega)

namespace Inv

theorem nextUsedLoop_run (hi : Inv P N S m out free lost) (hw : NoWrap P S) {c : Option Nat}
    {k n fuel : Nat} (hc : Before P S c k) (hn : k + n = m.allocNode) (enough : n < fuel) :
    loop (nextUsedTurn P) fuel c m = some ((firstUsed m S n k).map (blockPtr P S), []) := by
  induction n generalizing c k fuel with
  | zero =>
      obtain ⟨fuel, rfl⟩ : ∃ f, fuel = f + 1 := ⟨fuel - 1, by omega⟩
      have hturn : nextUsedTurn P c m = some (.inr none, []) := by
        rw [nextUsedTurn, run_bind (hi.getNextBlock_run hw hc (by omega)), if_neg (by omega)]
        rfl
      rw [loop, run_bind hturn]
      rfl
  | succ n ih =>
      obtain ⟨fuel, rfl⟩ : ∃ f, fuel = f + 1 := ⟨fuel - 1, by omega⟩
      have hin : Inside P S (blockAt (getBlockSize S) k) :=
        hi.inside (hi.mem_iff.mpr ⟨k, by omega, rfl⟩)
      have hblock := hi.getNextBlock_run hw hc (by omega)
      rw [if_pos (by omega)] at hblock
      rw [firstUsed]
      by_cases hzero : m.next (blockAt (getBlockSize S) k) = 0
      · have hturn : nextUsedTurn P c m = some (.inr (some (blockPtr P S k)), []) := by
          rw [nextUsedTurn, run_bind hblock]
          simp only [replay_nil, blockPtr]
          rw [hi.next_eq hin, run_read_bind, if_pos hzero]
          rfl
        rw [loop, run_bind hturn, if_pos hzero]
        rfl
      · have hturn : nextUsedTurn P c m = some (.inl (some (blockPtr P S k)), []) := by
          rw [nextUsedTurn, run_bind hblock]
          simp only [replay_nil, blockPtr]
          rw [hi.next_eq hin, run_read_bind, if_neg hzero]
          rfl
        rw [loop, run_bind hturn, if_neg hzero]
        simp only [replay_nil]
        rw [ih (before_succ k) (by omega) (by omega)]
        rfl

/-- `GetNextUsedBlock` returns the next block in use, in the order of the addresses. -/
theorem getNextUsedBlock_run (hi : Inv P N S m out free lost) (hw : NoWrap P S) {c : Option Nat}
    {k : Nat} (hc : Before P S c k) (hk : k ≤ m.allocNode) :
    getNextUsedBlock P c m =
      some ((firstUsed m S (m.allocNode - k) k).map (blockPtr P S), []) := by
  have hn := hi.allocNode
  have hmax := hi.maxNode
  rw [getNextUsedBlock, run_read_bind]
  exact hi.nextUsedLoop_run hw hc (by omega) (by omega)

/-- The word of a block of the pool is 0 when the block is handed out. -/
theorem next_zero_iff (hi : Inv P N S m out free []) {k : Nat} (hk : k < m.allocNode) :
    m.next (blockAt (getBlockSize S) k) = 0 ↔ blockAt (getBlockSize S) k ∈ out := by
  constructor
  · intro hzero
    rcases hi.mem_iff.mpr ⟨k, hk, rfl⟩ with ho | hfree | hlost
    · exact ho
    · exact absurd hzero (hi.unused hfree)
    · cases hlost
  · exact hi.used _

end Inv

end Jump.MemPool.Fixed
