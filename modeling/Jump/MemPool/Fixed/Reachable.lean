import Jump.MemPool.Fixed.Effects

/-! # Runs of a `FixedMemPool`

A run starts with `Init` on any memory and goes on with calls and with the
program's own writes to the nodes it was handed. Two arguments break the pool: a
pointer whose block wraps past the end of the address space and still passes
`IsValidBlock`, and a node size that does not survive the `int` of `Clear`.
-/

namespace Jump.MemPool.Fixed

open Jump.Core Prog

variable {β : Type} {P : Mapping} {N S : Nat} {m : Mem β} {out : List Nat} {z : β}

inductive Op (β : Type) where
  | alloc (zero : Bool)
  | free (node : Nat)
  | clear
  | store (node : Nat) (b : β)

/-- The block of `node` passes `IsValidBlock` although its end wraps around. -/
def Wraps (P : Mapping) (m : Mem β) (node : Nat) : Prop :=
  isValidBlock P (getBlock node) m = true ∧ 2 ^ 64 ≤ getBlock node + m.blockSize

instance (node : Nat) : Decidable (Wraps P m node) := inferInstanceAs (Decidable (_ ∧ _))

/-- The condition on a call: no wrapping pointer, no node size cut by `int`. -/
def Op.Meets (P : Mapping) (m : Mem β) : Op β → Prop
  | .free node => ¬ Wraps P m node
  | .clear => sizeOfInt (toInt m.nodeSize) = m.nodeSize
  | _ => True

/-- One call. `out` are the node pointers handed out and not given back. -/
inductive Step (P : Mapping) (z : β) : Op β → List Nat → Mem β → List Nat → Mem β → Prop where
  | alloc {zero : Bool} {out : List Nat} {m : Mem β} {p : Nat} {ws : List (Write β)} :
      alloc P z zero m = some (some p, ws) → Step P z (.alloc zero) out m (p :: out) (replay ws m)
  | full {zero : Bool} {out : List Nat} {m : Mem β} {ws : List (Write β)} :
      alloc P z zero m = some (none, ws) → Step P z (.alloc zero) out m out (replay ws m)
  | free {p : Nat} {out : List Nat} {m : Mem β} {ws : List (Write β)} : p < 2 ^ 64 →
      free P p m = some (0, ws) → Step P z (.free p) out m (out.erase p) (replay ws m)
  | refused {p : Nat} {out : List Nat} {m : Mem β} {r : Int} {ws : List (Write β)} : p < 2 ^ 64 →
      r ≠ 0 → free P p m = some (r, ws) → Step P z (.free p) out m out (replay ws m)
  | clear {out : List Nat} {m : Mem β} {r : Int} {ws : List (Write β)} :
      clear P m = some (r, ws) → Step P z .clear out m [] (replay ws m)
  | store {p : Nat} {b : β} {out : List Nat} {m : Mem β} : p ∈ out →
      Step P z (.store p b) out m out (Store.apply (Write.node (ref P p) b) m)

/-- Runs whose calls all meet the condition. -/
inductive Run (P : Mapping) (N S : Nat) (z : β) : List Nat → Mem β → Prop where
  | init {m₀ : Mem β} {ws : List (Write β)} : init P N S false m₀ = some (0, ws) →
      Run P N S z [] (replay ws m₀)
  | step {op : Op β} {out out' : List Nat} {m m' : Mem β} : Run P N S z out m → op.Meets P m →
      Step P z op out m out' m' → Run P N S z out' m'

/-- `Free(p)` returns 0 when `p` is the node of a block handed out, and otherwise
-1 with the pool unchanged. -/
def FreesExactly (P : Mapping) (out : List Nat) (m : Mem β) (p : Nat) : Prop :=
  ∃ r ws, free P p m = some (r, ws) ∧ (p ∈ out → r = 0) ∧ (p ∉ out → r = -1 ∧ replay ws m = m)

/-- What the pool promises with the pointers `out` handed out. -/
structure Sound (P : Mapping) (N S : Nat) (out : List Nat) (m : Mem β) : Prop where
  placed : ∀ p ∈ out, ∃ k, p = nodeAt P (blockAt (getBlockSize S) k) ∧
    blockAt (getBlockSize S) k + getBlockSize S ≤ m.maxSize
  disjoint : out.Pairwise fun p q => p + getBlockSize S ≤ q ∨ q + getBlockSize S ≤ p
  freeList : ∃ free, Chain m.next INVALID_POINTER m.freeList free ∧ free.Nodup ∧ ∀ o, o ∈ free ↔
    (∃ k, o = blockAt (getBlockSize S) k ∧ o < m.allocSize) ∧ nodeAt P o ∉ out
  alloc : ∀ z zero, ∃ r ws, alloc P z zero m = some (r, ws) ∧ (r = none ↔ out.length = N)
  free : ∀ p < 2 ^ 64, FreesExactly P out m p ↔ ¬ Wraps P m p
  clear : ∃ ws, clear P m = some (0, ws) ∧
    (checkHeader N S (replay ws m) = true ↔ sizeOfInt (toInt S) = S)
  header : ∀ maxNode nodeSize, checkHeader maxNode nodeSize m = true ↔ maxNode = N ∧ nodeSize = S

theorem nodeAt_inj {i j : Nat} (h : nodeAt P i = nodeAt P j) : i = j := by
  unfold nodeAt at h
  omega

theorem mem_nodes {offs : List Nat} {o : Nat} : nodeAt P o ∈ offs.map (nodeAt P) ↔ o ∈ offs := by
  constructor
  · intro h
    obtain ⟨i, hi, he⟩ := List.mem_map.mp h
    exact nodeAt_inj he ▸ hi
  · exact fun h => List.mem_map_of_mem h

theorem Inv.frees {offs free : List Nat} (hi : Inv P N S m offs free []) {p : Nat}
    (hp : p < 2 ^ 64) : FreesExactly P (offs.map (nodeAt P)) m p ↔ ¬ Wraps P m p := by
  constructor
  · rintro ⟨r, ws, h, -⟩ ⟨hv, hw⟩
    rw [hi.blockSize] at hw
    rw [free_wraps hi hv hw] at h
    cases h
  · intro hw
    by_cases hm : p ∈ offs.map (nodeAt P)
    · obtain ⟨o, ho, rfl⟩ := List.mem_map.mp hm
      exact ⟨0, _, free_used hi ho, fun _ => rfl, fun h => absurd hm h⟩
    · have hno : ∀ o ∈ offs, p ≠ nodeAt P o := fun o ho he =>
        hm (he ▸ List.mem_map_of_mem ho)
      have nowrap : isValidBlock P (getBlock p) m = true →
          getBlock p + getBlockSize S < 2 ^ 64 := by
        intro hv
        rw [← hi.blockSize]
        by_contra hge
        exact hw ⟨hv, not_lt.mp hge⟩
      exact ⟨-1, [], free_other hi hp hno nowrap, fun h => absurd h hm, fun _ => ⟨rfl, rfl⟩⟩

theorem Inv.sound {offs free : List Nat} (hi : Inv P N S m offs free []) :
    Sound P N S (offs.map (nodeAt P)) m := by
  have hmax : m.maxSize = P.length := by
    rw [hi.maxSize, hi.maxSize_eq, hi.length]
  have hnd := hi.nodup
  rw [List.append_nil] at hnd
  refine ⟨fun p hp => ?_, ?_, ⟨free, hi.freeChain, ?_, fun o => ?_⟩, fun z zero => ?_,
    fun p hp => hi.frees hp, ⟨_, clear_run hi, ?_⟩, fun _ _ => hi.checkHeader_iff⟩
  · obtain ⟨o, ho, rfl⟩ := List.mem_map.mp hp
    obtain ⟨k, hk, rfl⟩ := hi.mem_iff.mp (Or.inl ho)
    refine ⟨k, rfl, ?_⟩
    rw [hmax]
    exact (hi.inside (Or.inl ho)).2
  · refine List.pairwise_map.mpr ((List.nodup_append.mp hnd).1.imp_of_mem fun {a b} ha hb hne => ?_)
    obtain ⟨i, -, rfl⟩ := hi.mem_iff.mp (Or.inl ha)
    obtain ⟨j, -, rfl⟩ := hi.mem_iff.mp (Or.inl hb)
    unfold nodeAt
    rcases Nat.lt_trichotomy i j with h | h | h
    · have hle : blockAt (getBlockSize S) i + getBlockSize S ≤ blockAt (getBlockSize S) j :=
        blockAt_lt h
      omega
    · exact absurd (congrArg _ h) hne
    · have hle : blockAt (getBlockSize S) j + getBlockSize S ≤ blockAt (getBlockSize S) i :=
        blockAt_lt h
      omega
  · exact (List.nodup_append.mp hnd).2.1
  · rw [mem_nodes]
    have hbelow : (∃ k, o = blockAt (getBlockSize S) k ∧ o < m.allocSize) ↔
        o ∈ offs ∨ o ∈ free := by
      have hiff := hi.mem_iff (o := o)
      simp only [List.not_mem_nil, or_false] at hiff
      rw [hiff, hi.allocSize]
      constructor
      · rintro ⟨k, rfl, hlt⟩
        refine ⟨k, ?_, rfl⟩
        by_contra hge
        have hm := Nat.mul_le_mul_right (getBlockSize S) (not_lt.mp hge)
        unfold blockAt at hlt
        omega
      · rintro ⟨k, hk, rfl⟩
        refine ⟨k, rfl, ?_⟩
        have hle : blockAt (getBlockSize S) k + getBlockSize S ≤
            blockAt (getBlockSize S) m.allocNode := blockAt_lt hk
        have hpos := hi.blockSize_pos
        omega
    rw [hbelow]
    constructor
    · exact fun h => ⟨Or.inr h, fun ho => hi.not_free ho h⟩
    · rintro ⟨h, hno⟩
      exact h.resolve_left hno
  · have hcount := hi.count_eq
    have hle := hi.allocNode
    rw [List.length_map]
    rcases hi.alloc_cases z zero with ⟨rfl, hfull, h⟩ | ⟨o, free', ws, -, h, hi'⟩
    · refine ⟨none, [], h, ?_⟩
      simp only [List.length_nil] at hcount
      simp only [true_iff]
      omega
    · refine ⟨some _, _, h, ?_⟩
      have hcount' := hi'.count_eq
      have hle' := hi'.allocNode
      simp only [List.length_cons, List.length_nil] at hcount'
      simp only [reduceCtorEq, false_iff]
      omega
  · constructor
    · intro h
      exact init_nodeSize.symm.trans (checkHeader_nodeSize h).1
    · intro h
      rw [h]
      exact (hi.toFits.init (m := m)).checkHeader_iff.mpr ⟨rfl, rfl⟩

/-- What one call does to the blocks. -/
theorem step_inv {offs free : List Nat} {op : Op β} {out' : List Nat} {m' : Mem β}
    (hi : Inv P N S m offs free []) (hm : op.Meets P m)
    (hs : Step P z op (offs.map (nodeAt P)) m out' m') :
    ∃ offs' free', Inv P N S m' offs' free' [] ∧ out' = offs'.map (nodeAt P) := by
  cases hs with
  | alloc h =>
      rename_i zero p ws
      rcases hi.alloc_cases z zero with ⟨-, -, h'⟩ | ⟨o, free', ws', -, h', hi'⟩
      · rw [h] at h'
        cases h'
      · rw [h] at h'
        cases h'
        refine ⟨o :: offs, free', ?_, rfl⟩
        rw [replay_append]
        exact hi'.handOut
  | full h =>
      rename_i zero ws
      rcases hi.alloc_cases z zero with ⟨-, -, h'⟩ | ⟨o, free', ws', -, h', -⟩
      · rw [h] at h'
        cases h'
        exact ⟨offs, free, hi, rfl⟩
      · rw [h] at h'
        cases h'
  | free hp h =>
      rename_i p ws
      obtain ⟨r, ws', h', hin, hout⟩ := (hi.frees hp).mpr hm
      rw [h] at h'
      cases h'
      have hmem : p ∈ offs.map (nodeAt P) := by
        by_contra hno
        have hr := (hout hno).1
        omega
      obtain ⟨o, ho, rfl⟩ := List.mem_map.mp hmem
      have hrun := free_used hi ho
      rw [h] at hrun
      cases hrun
      refine ⟨offs.erase o, o :: free, ?_, ?_⟩
      · exact (hi.perm (List.perm_cons_erase ho).symm).giveBack
      · exact (List.map_erase (fun _ _ he => nodeAt_inj he) offs).symm
  | refused hp hr h =>
      obtain ⟨r, ws', h', hin, hout⟩ := (hi.frees hp).mpr hm
      rw [h] at h'
      cases h'
      have hno := fun hm => hr (hin hm)
      rw [(hout hno).2]
      exact ⟨offs, free, hi, rfl⟩
  | clear h =>
      rw [clear_run hi] at h
      cases h
      have hsize : sizeOfInt (toInt S) = S := by
        have hmeets : sizeOfInt (toInt m.nodeSize) = m.nodeSize := hm
        rwa [hi.nodeSize] at hmeets
      rw [hsize]
      exact ⟨[], [], hi.toFits.init, rfl⟩
  | store _ => exact ⟨offs, free, hi.storeNode _ _, rfl⟩

theorem run_inv (hf : Fits P N S) (hrun : Run P N S z out m) :
    ∃ offs free, Inv P N S m offs free [] ∧ out = offs.map (nodeAt P) := by
  induction hrun with
  | init h =>
      rw [init_run hf.header_ne] at h
      cases h
      exact ⟨[], [], hf.init, rfl⟩
  | step _ hm hs ih =>
      obtain ⟨offs, free, hi, rfl⟩ := ih
      exact step_inv hi hm hs

def zeroMem : Mem Nat where
  maxSize := 0
  maxNode := 0
  allocSize := 0
  allocNode := 0
  nodeSize := 0
  blockSize := 0
  freeList := 0
  next := fun _ => 0
  node := fun _ => 0

end Jump.MemPool.Fixed
