import Jump.Core.Sweep
import Jump.MemPool.Fixed.Walk
import Jump.MemPool.Hash.Cells
import Jump.MemPool.Hash.Refine
import Mathlib.Logic.Relation

/-! # The traversal of a `HashMemPool`

The caller hands `GetNextNode` the node of the call before, and may free keys in
between, the one of this node among them.

`GetValueList` takes every node of the bucket of its key, whatever key the node has.
-/

namespace Jump.MemPool.Hash

open Jump.Core Prog Fixed

section Traversal

variable {V : Type} {T : Params V} {P : Mapping} {B N : Nat} {m : Mem V}
  {chains : Nat → List Nat} {out free lost : List Nat} {o : Nat} {key : UInt64}

section Functions

variable (T P)

/-- `none` is the null pointer, for the first call and at the end. -/
def getNextNode (last : Option Nat) : Act V (Option Nat) := do
  match ← onPool (getNextUsedBlock P (last.map getBlock)) with
  | none => return none
  | some block => return some (u64 (block + NODE_OFFSET))

/-- The caller takes the next node and looks at its key. -/
def look (last : Option Nat) : Act V (Option (Nat × UInt64)) := do
  match ← getNextNode P last with
  | none => return none
  | some p => return some (p, (← node T P p).key)

end Functions

/-- A traversal under way. `last` is the node of the last call, and `ended` tells that the
last call returned the null pointer. -/
structure Traversal (V : Type) where
  mem : Mem V
  last : Option Nat
  ended : Bool
  log : List (SweepEvent UInt64)

namespace Traversal

def start (m : Mem V) : Traversal V where
  mem := m
  last := none
  ended := false
  log := []

/-- What the caller does: it takes the next node, or it frees a key. -/
inductive Step (T : Params V) (P : Mapping) : Traversal V → Traversal V → Prop where
  | next {t : Traversal V} {p : Nat} {key : UInt64} {ws : List (Write V)} : t.ended = false →
      look T P t.last t.mem = some (some (p, key), ws) →
      Step T P t { t with
        mem := replay ws t.mem
        last := some p
        log := t.log ++ [.visit key] }
  | stop {t : Traversal V} {ws : List (Write V)} : t.ended = false →
      look T P t.last t.mem = some (none, ws) →
      Step T P t { t with
        mem := replay ws t.mem
        ended := true }
  | free {t : Traversal V} {r : Int} {ws : List (Write V)} (key : UInt64) :
      Hash.free T P key t.mem = some (r, ws) →
      Step T P t { t with
        mem := replay ws t.mem
        log := t.log ++ [.free key] }

end Traversal

/-! ## One call of `GetNextNode` -/

/-- The key in block `k`. -/
def cellKey (m : Mem V) (S k : Nat) : UInt64 := m.keyOf (blockAt (getBlockSize S) k + NODE_OFFSET)

/-- `last` is the node in front of block `k`, in the order of the blocks. -/
def Passed (P : Mapping) (S : Nat) (last : Option Nat) (k : Nat) : Prop :=
  (last = none ∧ k = 0) ∨ ∃ j, last = some (nodeAt P (blockAt (getBlockSize S) j)) ∧ k = j + 1

namespace Inv

theorem before_of_passed (hi : Inv T P B N m chains out free lost) {last : Option Nat} {k : Nat}
    (h : Passed P T.nodeSize last k) (hk : k ≤ m.pool.allocNode) :
    Before P T.nodeSize (last.map getBlock) k := by
  rcases h with ⟨rfl, rfl⟩ | ⟨j, rfl, rfl⟩
  · exact Or.inl ⟨rfl, rfl⟩
  · have hin : Inside P T.nodeSize (blockAt (getBlockSize T.nodeSize) j) :=
      hi.pool.inside (hi.pool.mem_iff.mpr ⟨j, by omega, rfl⟩)
    refine Or.inr ⟨j, ?_, rfl⟩
    rw [Option.map_some, nodeAt, hi.pool.getBlock_eq hin]
    rfl

/-- `GetNextNode` returns the node of the next block handed out, by the addresses. -/
theorem look_run (hi : Inv T P B N m chains out free []) (hw : NoWrap P T.nodeSize)
    {last : Option Nat} {k : Nat} (h : Passed P T.nodeSize last k) (hk : k ≤ m.pool.allocNode) :
    (look T P last m = some (none, []) ∧
      ∀ j, k ≤ j → j < m.pool.allocNode → blockAt (getBlockSize T.nodeSize) j ∉ out) ∨
    ∃ i, k ≤ i ∧ i < m.pool.allocNode ∧ blockAt (getBlockSize T.nodeSize) i ∈ out ∧
      (∀ j, k ≤ j → j < i → blockAt (getBlockSize T.nodeSize) j ∉ out) ∧
      look T P last m = some (some (nodeAt P (blockAt (getBlockSize T.nodeSize) i),
        cellKey m T.nodeSize i), []) := by
  have hused : onPool (getNextUsedBlock P (last.map getBlock)) m = some
      ((firstUsed m.pool T.nodeSize (m.pool.allocNode - k) k).map (blockPtr P T.nodeSize), []) :=
    zoom_run (hi.pool.getNextUsedBlock_run hw (hi.before_of_passed h hk) hk)
  cases hfirst : firstUsed m.pool T.nodeSize (m.pool.allocNode - k) k with
  | none =>
      rw [hfirst] at hused
      have hnone : getNextNode P last m = some (none, []) := by
        rw [getNextNode, run_bind hused]
        rfl
      refine Or.inl ⟨?_, fun j hj hlt ho => ?_⟩
      · rw [look, run_bind hnone]
        rfl
      · exact firstUsed_none hfirst j hj (by omega) ((hi.pool.next_zero_iff hlt).mpr ho)
  | some i =>
      rw [hfirst] at hused
      obtain ⟨hki, hin, hzero, hskip⟩ := firstUsed_some hfirst
      have hlt : i < m.pool.allocNode := by omega
      have hinside : Inside P T.nodeSize (blockAt (getBlockSize T.nodeSize) i) :=
        hi.pool.inside (hi.pool.mem_iff.mpr ⟨i, hlt, rfl⟩)
      have hnext : getNextNode P last m =
          some (some (nodeAt P (blockAt (getBlockSize T.nodeSize) i)), []) := by
        rw [getNextNode, run_bind hused]
        simp only [Option.map_some, blockPtr]
        rw [hi.pool.node_eq hinside]
        rfl
      refine Or.inr ⟨i, hki, hlt, (hi.pool.next_zero_iff hlt).mp hzero, fun j hj hji ho => ?_, ?_⟩
      · exact hskip j hj hji ((hi.pool.next_zero_iff (by omega)).mpr ho)
      · rw [look, run_bind hnext]
        simp only [replay_nil]
        rw [node_eq hi.pool.toFits hinside, run_read_bind]
        rfl

end Inv

/-! ## Whole traversals -/

/-- Block `k` is handed out. -/
def InUse (n S : Nat) (out : List Nat) (k : Nat) : Prop := k < n ∧ blockAt (getBlockSize S) k ∈ out

/-- A traversal is a sweep over the blocks allocated when it began. -/
def Sweeps (T : Params V) (P : Mapping) (B N n : Nat) (cell : Nat → UInt64) (live : Nat → Prop)
    (t : Traversal V) : Prop :=
  ∃ chains out free pos, Inv T P B N t.mem chains out free [] ∧ t.mem.pool.allocNode = n ∧
    cellKey t.mem T.nodeSize = cell ∧ pos ≤ n ∧
    (if t.ended then pos = n else Passed P T.nodeSize t.last pos) ∧
    Sweep cell live (InUse n T.nodeSize out) pos t.log

/-- One call of `GetNextNode` or `Free` during the sweep. -/
theorem Sweeps.step {n : Nat} {cell : Nat → UInt64} {live : Nat → Prop} {t t' : Traversal V}
    (hs : Sweeps T P B N n cell live t) (hw : NoWrap P T.nodeSize)
    (hstep : Traversal.Step T P t t') : Sweeps T P B N n cell live t' := by
  obtain ⟨chains, out, free, pos, hi, hn, hcell, hpos, hat, hsweep⟩ := hs
  cases hstep with
  | next hopen hlook =>
      rw [hopen, if_neg Bool.false_ne_true] at hat
      rcases hi.look_run hw hat (hn.symm ▸ hpos) with ⟨hnone, -⟩ | ⟨i, hki, hlt, ho, hskip, hsome⟩
      · rw [hlook] at hnone
        cases hnone
      · rw [hlook] at hsome
        cases hsome
        refine ⟨chains, out, free, i + 1, hi, hn, hcell, by omega, ?_, ?_⟩
        · rw [hopen, if_neg Bool.false_ne_true]
          exact Or.inr ⟨i, rfl, rfl⟩
        · rw [hcell]
          exact hsweep.visit hki ⟨by omega, ho⟩ fun j hj hji hl => hskip j hj hji hl.2
  | stop hopen hlook =>
      rw [hopen, if_neg Bool.false_ne_true] at hat
      rcases hi.look_run hw hat (hn.symm ▸ hpos) with ⟨hnone, hskip⟩ | ⟨i, -, -, -, -, hsome⟩
      · rw [hlook] at hnone
        cases hnone
        refine ⟨chains, out, free, n, hi, hn, hcell, Nat.le_refl n, rfl, ?_⟩
        have hend := hsweep.finish (n := n) fun j hj hlt hl => hskip j hj (by omega) hl.2
        rwa [max_eq_right hpos] at hend
      · rw [hlook] at hsome
        cases hsome
  | free key hfree =>
      obtain ⟨⟨chains', out', free', hi', hout⟩, hn', hkey⟩ := hi.free_cells hfree
      refine ⟨chains', out', free', pos, hi', hn'.trans hn, ?_, hpos, hat, ?_⟩
      · rw [← hcell]
        exact funext fun k => congrFun hkey _
      · have hleft : InUse n T.nodeSize out' =
            fun i => InUse n T.nodeSize out i ∧ cell i ≠ key := by
          funext i
          rw [InUse, hout, ← hcell, InUse, cellKey, and_assoc]
        rw [hleft]
        exact hsweep.free key

theorem Sweeps.start (hi : Inv T P B N m chains out free []) :
    Sweeps T P B N m.pool.allocNode (cellKey m T.nodeSize)
      (InUse m.pool.allocNode T.nodeSize out) (.start m) := by
  refine ⟨chains, out, free, 0, hi, rfl, rfl, Nat.zero_le _, Or.inl ⟨rfl, rfl⟩, .start ?_⟩
  intro i j hli hlj he
  exact blockAt_inj hi.pool.blockSize_pos (hi.key_inj hli.2 hlj.2 he)

end Traversal

/-! ## The values of a bucket -/

section ValueList

variable {V : Type} {T : Params V} {P : Mapping} {B N : Nat} {m : Mem V}
  {chains : Nat → List Nat} {out free lost : List Nat} {o : Nat} {key : UInt64}

section Functions

variable (T P)

/-- The turn of `GetValueList` for the position `p` in the chain. -/
def listTurn : List Nat × Nat → Act V ((List Nat × Nat) ⊕ List Nat) :=
  fun (list, p) => do
    if p ≠ 0 then
      let b ← node T P (Fixed.deref P p)
      return .inl (list ++ [Fixed.deref P p], b.next)
    else return .inr list

/-- The pointers stand for those to the values of these nodes. -/
def getValueList (key : UInt64) : Act V (List Nat) := do
  let i ← index key
  let first ← bucket i
  loop (listTurn T P) (← turns) ([], first)

end Functions

theorem listTurn_run (hf : Fits P N T.nodeSize) (ho : Inside P T.nodeSize o) (list : List Nat) :
    listTurn T P (list, o + NODE_OFFSET) m =
      some (.inl (list ++ [nodeAt P o], m.nextOf (o + NODE_OFFSET)), []) := by
  have hne : o + NODE_OFFSET ≠ 0 := by
    unfold NODE_OFFSET
    omega
  simp only [listTurn]
  rw [if_pos hne, deref_node hf ho, node_eq hf ho, run_read_bind]
  rfl

/-- The loop of `GetValueList` on the rest of a chain. -/
theorem listLoop_run (hf : Fits P N T.nodeSize) {xs list : List Nat} {fuel p : Nat}
    (h : Chain m.nextOf 0 p xs) (hin : ∀ r ∈ xs, ∃ o, r = o + NODE_OFFSET ∧ Inside P T.nodeSize o)
    (enough : xs.length < fuel) :
    loop (listTurn T P) fuel (list, p) m = some (list ++ xs.map (deref P), []) := by
  induction xs generalizing fuel p list with
  | nil =>
      obtain rfl : p = 0 := h
      obtain ⟨fuel, rfl⟩ : ∃ f, fuel = f + 1 := ⟨fuel - 1, by simp at enough; omega⟩
      rw [List.map_nil, List.append_nil]
      rfl
  | cons x xs ih =>
      obtain ⟨rfl, ht⟩ := h
      obtain ⟨o, rfl, ho⟩ := hin p List.mem_cons_self
      rw [List.length_cons] at enough
      obtain ⟨fuel, rfl⟩ : ∃ f, fuel = f + 1 := ⟨fuel - 1, by omega⟩
      rw [loop, run_bind (listTurn_run hf ho list)]
      simp only [replay_nil]
      rw [ih ht (fun r hr => hin r (List.mem_cons_of_mem _ hr)) (by omega), List.map_cons,
        deref_node hf ho, List.append_assoc]
      rfl

/-- `GetValueList` returns the nodes of the bucket. -/
theorem getValueList_run (hi : Inv T P B N m chains out free lost) :
    getValueList T P key m = some ((chains (key.toNat % B)).map (deref P), []) := by
  have hlt := hi.slot_lt key
  have hlen := hi.length_le hlt
  have hin : ∀ r ∈ chains (key.toNat % B), ∃ o, r = o + NODE_OFFSET ∧ Inside P T.nodeSize o := by
    intro r hr
    obtain ⟨o, -, he, ho⟩ := hi.inside hlt hr
    exact ⟨o, he, ho⟩
  have hloop : loop (listTurn T P) (m.maxNode + 1)
      ([], m.buckets ((key.toNat % B : Nat) : Int)) m =
      some ((chains (key.toNat % B)).map (deref P), []) := by
    refine listLoop_run hi.pool.toFits (hi.chain _ hlt) hin ?_
    rw [hi.maxNode]
    omega
  rw [getValueList, run_bind (index_run hi.bucketNum hi.pos hi.small), replay_nil,
    run_bind (bucket_run hi.bucketNum hlt), replay_nil, turns, run_read_bind, hloop]
  rfl

/-- The node found is the whole bucket just when the bucket has no node of another key. -/
theorem findNode_toList (hi : Inv T P B N m chains out free lost) :
    (chains (key.toNat % B)).map (deref P) =
        (findNode P m key (chains (key.toNat % B))).toList ↔
      ∀ r ∈ chains (key.toNat % B), m.keyOf r = key := by
  have hinj := hi.keys _ (hi.slot_lt key)
  rw [findNode]
  generalize chains (key.toNat % B) = xs at hinj ⊢
  cases xs with
  | nil => simp
  | cons x xs =>
      constructor
      · intro h
        have hlen := congrArg List.length h
        rw [List.length_map, List.length_cons] at hlen
        cases hfind : (x :: xs).find? fun r => m.keyOf r = key with
        | none =>
            rw [hfind] at hlen
            simp at hlen
        | some s =>
            rw [hfind] at hlen
            obtain rfl : xs = [] := by simpa using hlen
            have hs : s = x := by simpa using List.mem_of_find?_eq_some hfind
            have hk : m.keyOf s = key := by simpa using List.find?_some hfind
            intro r hr
            rw [List.mem_singleton.mp hr, ← hs, hk]
      · intro hall
        have hx := hall x List.mem_cons_self
        cases xs with
        | nil =>
            rw [List.find?_cons_of_pos (by simpa using hx)]
            rfl
        | cons y ys =>
            have hy := hall y (List.mem_cons_of_mem _ List.mem_cons_self)
            rw [List.map_cons, List.map_cons, List.nodup_cons] at hinj
            exact absurd (hx.trans hy.symm ▸ List.mem_cons_self) hinj.1

/-- `GetValueList` gives the node that `Get` finds, and nothing else. -/
def ListsOwn (T : Params V) (P : Mapping) (m : Mem V) (key : UInt64) : Prop :=
  ∃ p, Hash.get T P key m = some (p, []) ∧ getValueList T P key m = some (p.toList, [])

theorem Inv.listsOwn_iff (hi : Inv T P B N m chains out free lost) :
    ListsOwn T P m key ↔
      ∀ other, lookup m other ≠ none → other.toNat % B = key.toNat % B → other = key := by
  have hget : Hash.get T P key m =
      some (findNode P m key (chains (key.toNat % B)), []) := getNode_run hi
  have hiff : ListsOwn T P m key ↔ ∀ r ∈ chains (key.toNat % B), m.keyOf r = key := by
    rw [← findNode_toList (P := P) hi, ListsOwn, hget, getValueList_run hi]
    simp only [Option.some.injEq, Prod.mk.injEq, and_true, exists_eq_left']
  rw [hiff]
  constructor
  · intro hall other hstored hslot
    obtain ⟨o, ho, hk⟩ := hi.lookup_ne_none.mp hstored
    have hmem := hi.mem_chain ho hk
    rw [hslot] at hmem
    exact hk.symm.trans (hall _ hmem)
  · intro hall r hr
    obtain ⟨o, ho, rfl⟩ := hi.linked _ (hi.slot_lt key) r hr
    exact hall _ (hi.lookup_ne_none.mpr ⟨o, ho, rfl⟩) (hi.place _ (hi.slot_lt key) _ hr)

/-- `GetValueList` agrees with `Get` just when no other key stored is in the bucket. -/
theorem getValueList_exact {M : Mapping} {tr : List (Op V × Res × (Nat → V))}
    (hM : Mapped T M B N) (hrun : Run T M B N tr m) (key : UInt64) :
    ListsOwn T (poolAt M B) m key ↔
      ∀ other, lookup m other ≠ none → other.toNat % B = key.toNat % B → other = key := by
  obtain ⟨⟨chains, out, free, hi, -⟩, -⟩ := run_good hM hrun
  exact hi.listsOwn_iff

theorem getValueList_exact_small : ∃ (tr : List (Op Nat × Res × (Nat → Nat))) (m : Mem Nat),
    Run natParams smallMapping 3 2 tr m ∧ ListsOwn natParams (poolAt smallMapping 3) m 7 := by
  obtain ⟨tr, m, hrun, hstored⟩ :=
    run_insert smallMapping_mapped (by decide) zeroMem 7 70
  refine ⟨tr, m, hrun, (getValueList_exact smallMapping_mapped hrun 7).mpr fun other ho _ => ?_⟩
  by_contra hne
  rw [hstored, Function.update_of_ne hne] at ho
  exact ho rfl

/-- The list of the key 4 shows the value of the key 7, where 3 buckets are used. -/
theorem getValueList_collides : ∃ (tr : List (Op Nat × Res × (Nat → Nat))) (m : Mem Nat),
    Run natParams smallMapping 3 2 tr m ∧ ¬ ListsOwn natParams (poolAt smallMapping 3) m 4 := by
  obtain ⟨tr, m, hrun, hstored⟩ :=
    run_insert smallMapping_mapped (by decide) zeroMem 7 70
  obtain ⟨⟨chains, out, free, hi, -⟩, -⟩ := run_good smallMapping_mapped hrun
  refine ⟨tr, m, hrun, fun hlist => ?_⟩
  have h := hi.listsOwn_iff.mp hlist 7 (by rw [hstored, Function.update_self]; simp) (by decide)
  exact absurd h (by decide)

end ValueList

end Jump.MemPool.Hash
