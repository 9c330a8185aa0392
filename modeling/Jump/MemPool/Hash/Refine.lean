import Jump.MemPool.Hash.Calls

/-! # A `HashMemPool` is a finite map

Runs of calls from a fresh pool, against a partial map of bounded size.
-/

namespace Jump.MemPool.Hash

open Jump.Core Prog Fixed

variable {V : Type} {T : Params V} {P : Mapping} {B N : Nat} {m : Mem V}
  {chains : Nat → List Nat} {out free lost : List Nat} {o : Nat} {key : UInt64}

/-! ## The finite map -/

inductive Op (V : Type) where
  | alloc (key : UInt64)
  | insert (key : UInt64) (value : V)
  | get (key : UInt64)
  | assign (key : UInt64) (value : V)
  | free (key : UInt64)

/-- A pointer to a value, or a return code. -/
inductive Res where
  | pointer (p : Option Nat)
  | code (r : Int)

/-- The number of keys of a map. -/
noncomputable def size (M : UInt64 → Option V) : Nat := {key | M key ≠ none}.ncard

/-- A new key is added with value `v`, unless it is present or `N` keys are. -/
def MapAdd (N : Nat) (M : UInt64 → Option V) (key : UInt64) (v : V) (r : Res)
    (at_ : Nat → V) (M' : UInt64 → Option V) : Prop :=
  (r = .pointer none ∧ M' = M ∧ (M key ≠ none ∨ size M = N)) ∨
    ∃ p, r = .pointer (some p) ∧ at_ p = v ∧ M' = Function.update M key (some v) ∧
      M key = none ∧ size M < N

/-- What a call does to the map; `at_ p` is the value that a returned pointer points at. -/
def MapStep (T : Params V) (N : Nat) : Op V → (UInt64 → Option V) → Res → (Nat → V) →
    (UInt64 → Option V) → Prop
  | .alloc key, M, r, at_, M' => MapAdd N M key T.zeroed r at_ M'
  | .insert key v, M, r, at_, M' => MapAdd N M key v r at_ M'
  | .get key, M, r, at_, M' => M' = M ∧ match M key with
      | none => r = .pointer none
      | some v => ∃ p, r = .pointer (some p) ∧ at_ p = v
  | .assign key v, M, r, at_, M' => match M key with
      | none => r = .pointer none ∧ M' = M
      | some _ => ∃ p, r = .pointer (some p) ∧ at_ p = v ∧ M' = Function.update M key (some v)
  | .free key, M, r, _, M' => match M key with
      | none => r = .code FAILED ∧ M' = M
      | some _ => r = .code OK ∧ M' = Function.update M key none

/-! ## The calls -/

/-- The program writes a value through the pointer `Get` returns. -/
def assign (T : Params V) (P : Mapping) (key : UInt64) (value : V) : Act V (Option Nat) := do
  match ← get T P key with
  | none => return none
  | some p =>
      setValue T P p value
      return some p

def Op.run (T : Params V) (P : Mapping) : Op V → Act V Res
  | .alloc key => do return .pointer (← Hash.alloc T P key)
  | .insert key value => do return .pointer (← Hash.insert T P key value)
  | .get key => do return .pointer (← Hash.get T P key)
  | .assign key value => do return .pointer (← Hash.assign T P key value)
  | .free key => do return .code (← Hash.free T P key)

/-- The memory after the pool's part of `Alloc`: block `o` is blank and in hand. -/
theorem Inv.reserve {ws : List (Fixed.Write (HashNode V))} {free' : List Nat}
    (hi : Inv T P B N m chains out free lost) (hw : Reserves m.pool (getBlockSize T.nodeSize) o ws)
    (hp : Fixed.Inv P N T.nodeSize (replay ws m.pool) out free' (o :: lost)) :
    Inv T P B N (replay ((ws ++ handOutWrites T.zeroNode true o).map Write.pool) m) chains out
      free' (o :: lost) ∧
      lookup (replay ((ws ++ handOutWrites T.zeroNode true o).map Write.pool) m) = lookup m := by
  rw [replay_pool, replay_append]
  refine hi.congr (((hp.setNext 0).storeNode _ T.zeroNode).setNext 0) rfl rfl rfl rfl
    fun a ha => ?_
  have hne : a + NODE_OFFSET ≠ o + NODE_OFFSET := fun he =>
    hp.lost_mem.1 (Nat.add_right_cancel he ▸ ha)
  have hnode : (replay (handOutWrites T.zeroNode true o) (replay ws m.pool)).node
      (a + NODE_OFFSET) = (replay ws m.pool).node (a + NODE_OFFSET) := if_neg hne
  exact hnode.trans (congrFun hw.node_eq _)

/-- `Alloc` adds the key with the blank value. -/
theorem Inv.fill {ws : List (Fixed.Write (HashNode V))} {free' : List Nat}
    (hi : Inv T P B N m chains out free lost) (h : lookup m key = none)
    (hw : Reserves m.pool (getBlockSize T.nodeSize) o ws)
    (hp : Fixed.Inv P N T.nodeSize (replay ws m.pool) out free' (o :: lost)) :
    (∃ chains', Inv T P B N (replay (allocWrites T key (key.toNat % B) m o ws) m) chains'
      (o :: out) free' lost) ∧
      lookup (replay (allocWrites T key (key.toNat % B) m o ws) m) =
        Function.update (lookup m) key (some T.zeroed) ∧
      (replay (allocWrites T key (key.toNat % B) m o ws) m).nodeNum = u32 (m.nodeNum + 1) ∧
      (replay (allocWrites T key (key.toNat % B) m o ws) m).pool.node (o + NODE_OFFSET) =
        newNode T key (m.buckets ((key.toNat % B : Nat) : Int)) := by
  obtain ⟨h₁, hl₁⟩ := hi.reserve hw hp
  rw [allocWrites, replay_append]
  have hbucket : (replay ((ws ++ handOutWrites T.zeroNode true o).map Write.pool) m).buckets =
      m.buckets := by
    rw [replay_pool]
  have hmark : (replay ((ws ++ handOutWrites T.zeroNode true o).map Write.pool) m).pool.next o =
      0 := by
    rw [replay_pool, replay_append]
    exact if_pos rfl
  generalize replay ((ws ++ handOutWrites T.zeroNode true o).map Write.pool) m = m₁ at *
  obtain ⟨h₂, hl₂⟩ := h₁.storeLost (newNode T key 0)
  obtain ⟨h₃, hl₃⟩ := h₂.storeLost (newNode T key (m.buckets ((key.toNat % B : Nat) : Int)))
  have hnode : (Store.apply (Write.pool (.node (o + NODE_OFFSET)
      (newNode T key (m.buckets ((key.toNat % B : Nat) : Int)))))
      (Store.apply (Write.pool (.node (o + NODE_OFFSET) (newNode T key 0))) m₁)).pool.node
      (o + NODE_OFFSET) = newNode T key (m.buckets ((key.toNat % B : Nat) : Int)) := if_pos rfl
  have hkey := congrArg HashNode.key hnode
  have hnext := congrArg HashNode.next hnode
  have hvalue := congrArg HashNode.value hnode
  have hlook := hl₃.trans (hl₂.trans hl₁)
  have hfresh := (congrFun hlook key).trans h
  obtain ⟨⟨chains', h₄⟩, hl₄⟩ := h₃.link hmark (show _ = key from hkey) hfresh
    (hnext.trans (congrFun hbucket.symm _))
  obtain ⟨h₅, hl₅⟩ := h₄.storeNodeNum (u32 (m.nodeNum + 1))
  refine ⟨⟨chains', h₅⟩, ?_, rfl, hnode⟩
  refine hl₅.trans (hl₄.trans ?_)
  rw [hlook]
  congr 1
  exact congrArg some hvalue

/-- `Free` removes the key and gives the block back. -/
theorem Inv.remove {xs ys : List Nat} (hi : Inv T P B N m chains out free lost) (ho : o ∈ out)
    (hseq : chains (key.toNat % B) = xs ++ (o + NODE_OFFSET) :: ys)
    (hk : m.keyOf (o + NODE_OFFSET) = key) :
    (∃ chains', Inv T P B N (replay (freeWrites m (key.toNat % B) xs.getLast? o) m) chains'
      (out.erase o) (o :: free) lost) ∧
      lookup (replay (freeWrites m (key.toNat % B) xs.getLast? o) m) =
        Function.update (lookup m) key none := by
  have hun : (∃ chains', Inv T P B N (Store.apply (unlinkWrite m (key.toNat % B) xs.getLast?
      (o + NODE_OFFSET)) m) chains' (out.erase o) free (o :: lost)) ∧
      lookup (Store.apply (unlinkWrite m (key.toNat % B) xs.getLast? (o + NODE_OFFSET)) m) =
        Function.update (lookup m) key none ∧
      (Store.apply (unlinkWrite m (key.toNat % B) xs.getLast? (o + NODE_OFFSET)) m).pool.freeList =
        m.pool.freeList := by
    rcases List.eq_nil_or_concat xs with rfl | ⟨zs, q, rfl⟩
    · obtain ⟨h, hl⟩ := hi.unlinkHead ho hseq hk
      exact ⟨h, hl, rfl⟩
    · have hseq' : chains (key.toNat % B) = zs ++ q :: (o + NODE_OFFSET) :: ys := by
        rw [hseq]
        simp
      obtain ⟨h, hl⟩ := hi.unlinkNext ho hseq' hk
      rw [List.concat_eq_append, List.getLast?_concat]
      exact ⟨h, hl, rfl⟩
  obtain ⟨⟨chains', h₁⟩, hl₁, hhead⟩ := hun
  rw [freeWrites, replay_cons]
  generalize Store.apply (unlinkWrite m (key.toNat % B) xs.getLast? (o + NODE_OFFSET)) m = m₁ at *
  obtain ⟨h₂, hl₂⟩ := h₁.storeNodeNum (u32 (2 ^ 32 - 1 + m.nodeNum))
  obtain ⟨h₃, hl₃⟩ := h₂.setWord m.pool.freeList
  have hlink : (Store.apply (Write.pool (.next o m.pool.freeList))
      (Store.apply (Write.nodeNum (u32 (2 ^ 32 - 1 + m.nodeNum))) m₁)).pool.next o =
      m₁.pool.freeList := (if_pos rfl).trans hhead.symm
  obtain ⟨h₄, hl₄⟩ := h₃.pushFree hlink
  exact ⟨⟨chains', h₄⟩, hl₄.trans (hl₃.trans (hl₂.trans hl₁))⟩

/-! ## The outcomes of a call -/

theorem Inv.alloc_cases (hi : Inv T P B N m chains out free lost) (key : UInt64) :
    (Hash.alloc T P key m = some (none, []) ∧
      (lookup m key ≠ none ∨ out.length + lost.length = N)) ∨
    ∃ o free' ws, lookup m key = none ∧ Reserves m.pool (getBlockSize T.nodeSize) o ws ∧
      Inside P T.nodeSize o ∧
      Hash.alloc T P key m = some (some (nodeAt P o), allocWrites T key (key.toNat % B) m o ws) ∧
      Fixed.Inv P N T.nodeSize (replay ws m.pool) out free' (o :: lost) := by
  by_cases h : lookup m key = none
  · rcases hi.pool.alloc_cases T.zeroNode true with ⟨rfl, hfull, hp⟩ | ⟨o, free', ws, hw, hp, hp'⟩
    · refine Or.inl ⟨alloc_no_room hi h hp, Or.inr ?_⟩
      have hcount := hi.pool.count_eq
      rw [List.length_nil] at hcount
      omega
    · have ho := hp'.inside (Or.inr (Or.inr List.mem_cons_self))
      exact Or.inr ⟨o, free', ws, h, hw, ho, alloc_run hi h ho hp, hp'⟩
  · exact Or.inl ⟨alloc_present hi h, Or.inl h⟩

theorem Inv.free_cases (hi : Inv T P B N m chains out free lost) (key : UInt64) :
    (Hash.free T P key m = some (FAILED, []) ∧ lookup m key = none) ∨
    ∃ o xs ys v, o ∈ out ∧ chains (key.toNat % B) = xs ++ (o + NODE_OFFSET) :: ys ∧
      m.keyOf (o + NODE_OFFSET) = key ∧ lookup m key = some v ∧
      Hash.free T P key m = some (OK, freeWrites m (key.toNat % B) xs.getLast? o) := by
  rcases hi.lookup_cases key with ⟨hnone, -⟩ | ⟨r, hr, hk, hsome⟩
  · exact Or.inl ⟨free_absent hi hnone, hnone⟩
  · obtain ⟨o, ho, rfl, -⟩ := hi.inside (hi.slot_lt key) hr
    obtain ⟨xs, ys, hseq⟩ := List.append_of_mem hr
    exact Or.inr ⟨o, xs, ys, _, ho, hseq, hk, hsome, free_run hi ho hseq hk⟩

/-- `Get` returns the node the key is stored in. -/
theorem Inv.get_cases (hi : Inv T P B N m chains out free lost) (key : UInt64) :
    (Hash.get T P key m = some (none, []) ∧ lookup m key = none) ∨
    ∃ o, Inside P T.nodeSize o ∧ o + NODE_OFFSET ∈ chains (key.toNat % B) ∧
      m.keyOf (o + NODE_OFFSET) = key ∧ lookup m key = some (m.valueOf (o + NODE_OFFSET)) ∧
      Hash.get T P key m = some (some (nodeAt P o), []) := by
  have hget : Hash.get T P key m = some (findNode P m key (chains (key.toNat % B)), []) :=
    getNode_run hi
  rcases hi.lookup_cases key with ⟨hnone, -⟩ | ⟨r, hr, hk, hsome⟩
  · rw [findNode_none hi hnone] at hget
    exact Or.inl ⟨hget, hnone⟩
  · obtain ⟨o, -, rfl, ho⟩ := hi.inside (hi.slot_lt key) hr
    rw [findNode_some hi hr hk, deref_node hi.pool.toFits ho] at hget
    exact Or.inr ⟨o, ho, hr, hk, hsome, hget⟩

/-! ## One step -/

/-- The pool of a run: nothing is lost, and the counter counts. -/
def Good (T : Params V) (P : Mapping) (B N : Nat) (m : Mem V) : Prop :=
  ∃ chains out free, Inv T P B N m chains out free [] ∧ m.nodeNum = out.length

theorem Inv.count_lt {free' : List Nat} {ws : List (Fixed.Write (HashNode V))}
    (hp : Fixed.Inv P N T.nodeSize (replay ws m.pool) out free' (o :: lost)) :
    out.length < N := by
  have hcount := hp.count_eq
  have hle := hp.allocNode
  rw [List.length_cons] at hcount
  omega

theorem Inv.count32 {free' : List Nat} {ws : List (Fixed.Write (HashNode V))}
    (hi : Inv T P B N m chains out free lost)
    (hp : Fixed.Inv P N T.nodeSize (replay ws m.pool) out free' (o :: lost)) :
    out.length + 1 < 2 ^ 32 := by
  have hlt := Inv.count_lt hp
  have h32 := hi.pool.count
  omega

/-- `Insert` adds the key with its value. -/
theorem Inv.fillValue {ws : List (Fixed.Write (HashNode V))} {free' : List Nat}
    (hi : Inv T P B N m chains out free lost) (h : lookup m key = none)
    (hw : Reserves m.pool (getBlockSize T.nodeSize) o ws)
    (hp : Fixed.Inv P N T.nodeSize (replay ws m.pool) out free' (o :: lost)) (v : V) :
    (∃ chains', Inv T P B N (replay (insertWrites T key (key.toNat % B) m o ws v) m) chains'
      (o :: out) free' lost) ∧
      lookup (replay (insertWrites T key (key.toNat % B) m o ws v) m) =
        Function.update (lookup m) key (some v) ∧
      (replay (insertWrites T key (key.toNat % B) m o ws v) m).nodeNum = u32 (m.nodeNum + 1) ∧
      (replay (insertWrites T key (key.toNat % B) m o ws v) m).valueOf (o + NODE_OFFSET) = v := by
  obtain ⟨⟨chains', h'⟩, hl', hnum, hnode⟩ := hi.fill h hw hp
  rw [insertWrites, replay_append]
  have hk : (replay (allocWrites T key (key.toNat % B) m o ws) m).keyOf (o + NODE_OFFSET) = key :=
    congrArg HashNode.key hnode
  obtain ⟨h₂, hl₂⟩ := h'.storeValue (h'.mem_chain List.mem_cons_self hk) hk v
  refine ⟨⟨chains', h₂⟩, ?_, hnum, congrArg HashNode.value (if_pos rfl)⟩
  refine hl₂.trans ?_
  rw [hl', Function.update_idem]

/-- The value a pointer points at. -/
def pointee (P : Mapping) (m : Mem V) (p : Nat) : V := m.valueOf (ref P p)

theorem pointee_node {S : Nat} (hf : Fits P N S) (ho : Inside P S o) :
    pointee P m (nodeAt P o) = m.valueOf (o + NODE_OFFSET) := by
  rw [pointee, ref_node hf ho]

/-- Every call returns, keeps the pool good and is a step of the finite map. -/
theorem Good.step (hg : Good T P B N m) (op : Op V) : ∃ r ws, op.run T P m = some (r, ws) ∧
    Good T P B N (replay ws m) ∧
      MapStep T N op (lookup m) r (pointee P (replay ws m)) (lookup (replay ws m)) := by
  have hg' := hg
  obtain ⟨chains, out, free, hi, hn⟩ := hg
  have hsize : size (lookup m) = out.length := hi.count_keys
  have hf := hi.pool.toFits
  cases op with
  | alloc key =>
      rcases hi.alloc_cases key with ⟨hrun, hwhy⟩ | ⟨o, free', ws, h, hw, ho, hrun, hp⟩
      · refine ⟨.pointer none, [], ?_, hg', Or.inl ⟨rfl, rfl, ?_⟩⟩
        · rw [Op.run, run_bind hrun]
          rfl
        · rw [hsize]
          simpa using hwhy
      · obtain ⟨⟨chains', h'⟩, hl', hnum, hnode⟩ := hi.fill h hw hp
        refine ⟨.pointer (some (nodeAt P o)), allocWrites T key (key.toNat % B) m o ws, ?_,
          ⟨chains', o :: out, free', h', ?_⟩, Or.inr ⟨nodeAt P o, rfl, ?_, hl', h, ?_⟩⟩
        · rw [Op.run, run_bind hrun]
          simp only [run_pure, Option.map_some, List.append_nil]
        · rw [hnum, hn, List.length_cons]
          exact u32_of_lt (Inv.count32 hi hp)
        · rw [pointee_node hf ho, Mem.valueOf, hnode]
          rfl
        · rw [hsize]
          exact Inv.count_lt hp
  | insert key v =>
      rcases hi.alloc_cases key with ⟨hrun, hwhy⟩ | ⟨o, free', ws, h, hw, ho, hrun, hp⟩
      · refine ⟨.pointer none, [], ?_, hg', Or.inl ⟨rfl, rfl, ?_⟩⟩
        · rw [Op.run, run_bind (insert_null hrun)]
          rfl
        · rw [hsize]
          simpa using hwhy
      · obtain ⟨⟨chains', h'⟩, hl', hnum, hv⟩ := hi.fillValue h hw hp v
        refine ⟨.pointer (some (nodeAt P o)), insertWrites T key (key.toNat % B) m o ws v, ?_,
          ⟨chains', o :: out, free', h', ?_⟩, Or.inr ⟨nodeAt P o, rfl, ?_, hl', h, ?_⟩⟩
        · rw [Op.run, run_bind (insert_run hf ho hrun)]
          simp only [run_pure, Option.map_some, List.append_nil]
        · rw [hnum, hn, List.length_cons]
          exact u32_of_lt (Inv.count32 hi hp)
        · rw [pointee_node hf ho]
          exact hv
        · rw [hsize]
          exact Inv.count_lt hp
  | get key =>
      rcases hi.get_cases key with ⟨hrun, hnone⟩ | ⟨o, ho, -, -, hsome, hrun⟩
      · refine ⟨.pointer none, [], ?_, hg', rfl, ?_⟩
        · rw [Op.run, run_bind hrun]
          rfl
        · rw [hnone]
      · refine ⟨.pointer (some (nodeAt P o)), [], ?_, hg', rfl, ?_⟩
        · rw [Op.run, run_bind hrun]
          rfl
        · rw [hsome]
          exact ⟨nodeAt P o, rfl, pointee_node hf ho⟩
  | assign key v =>
      rcases hi.get_cases key with ⟨hrun, hnone⟩ | ⟨o, ho, hr, hk, hsome, hrun⟩
      · refine ⟨.pointer none, [], ?_, hg', ?_⟩
        · rw [Op.run, assign, run_bind (run_bind hrun)]
          rfl
        · simp only [MapStep, hnone]
          exact ⟨trivial, rfl⟩
      · obtain ⟨h₂, hl₂⟩ := hi.storeValue hr hk v
        have hassign : assign T P key v m = some (some (nodeAt P o), [.pool (.node
            (o + NODE_OFFSET) { (m.pool.node (o + NODE_OFFSET)) with value := v })]) := by
          rw [assign, run_bind hrun]
          simp only [replay_nil]
          rw [run_bind (setValue_run hf ho v)]
          rfl
        refine ⟨.pointer (some (nodeAt P o)), [.pool (.node (o + NODE_OFFSET)
          { (m.pool.node (o + NODE_OFFSET)) with value := v })], ?_,
          ⟨chains, out, free, h₂, hn⟩, ?_⟩
        · rw [Op.run, run_bind hassign]
          rfl
        · simp only [MapStep, hsome]
          refine ⟨nodeAt P o, rfl, ?_, hl₂⟩
          rw [pointee_node hf ho]
          exact congrArg HashNode.value (if_pos rfl)
  | free key =>
      rcases hi.free_cases key with ⟨hrun, hnone⟩ | ⟨o, xs, ys, v, ho, hseq, hk, hsome, hrun⟩
      · refine ⟨.code FAILED, [], ?_, hg', ?_⟩
        · rw [Op.run, run_bind hrun]
          rfl
        · simp only [MapStep, hnone]
          exact ⟨trivial, rfl⟩
      · obtain ⟨⟨chains', h'⟩, hl'⟩ := hi.remove ho hseq hk
        refine ⟨.code OK, _, ?_, ⟨chains', out.erase o, o :: free, h', ?_⟩, ?_⟩
        · rw [Op.run, run_bind hrun]
          simp only [run_pure, Option.map_some, List.append_nil]
        · have hnum : (replay (freeWrites m (key.toNat % B) xs.getLast? o) m).nodeNum =
              u32 (2 ^ 32 - 1 + m.nodeNum) := by
            cases xs.getLast? with
            | none => rfl
            | some q => rfl
          have hpos := List.length_pos_of_mem ho
          have hcount := hi.pool.count_eq
          have hle := hi.pool.allocNode
          have h32 := hi.pool.count
          rw [hnum, hn, List.length_erase_of_mem ho, u32]
          omega
        · simp only [MapStep, hsome]
          exact ⟨trivial, hl'⟩

/-! ## Whole runs -/

/-- The mapped memory is what `GetMaxSize(B, N)` asks for, and neither its
addresses nor one block more wrap around. -/
structure Mapped (T : Params V) (M : Mapping) (B N : Nat) : Prop where
  pos : 0 < B
  small : B < 2 ^ 31
  count : N < 2 ^ 32
  node : T.nodeSize + NODE_OFFSET + 7 < 2 ^ 64
  length : M.length = SIZEOF_HASH_HEADER + 8 * B + blockAt (getBlockSize T.nodeSize) N
  address : M.header + M.length + getBlockSize T.nodeSize < 2 ^ 64

theorem Mapped.fits {M : Mapping} (hM : Mapped T M B N) : Fits (poolAt M B) N T.nodeSize := by
  have ha := hM.address
  have hl := hM.length
  have haddr : (poolAt M B).header = M.header + SIZEOF_HASH_HEADER + 8 * B :=
    u64_of_lt (by omega)
  have hlen : (poolAt M B).length = blockAt (getBlockSize T.nodeSize) N := by
    change M.length - (SIZEOF_HASH_HEADER + 8 * B) = _
    omega
  refine ⟨?_, hM.count, hM.node, by omega, hlen, ?_⟩
  · rw [haddr, SIZEOF_HASH_HEADER]
    omega
  · rw [haddr, hlen]
    omega

/-- `Init` without a header check leaves an empty pool. -/
theorem init_ends {M : Mapping} (hM : Mapped T M B N) : Ends (Hash.init T M B N false) m fun r m' =>
    r = OK ∧ Good T (poolAt M B) B N m' ∧ lookup m' = fun _ => none := by
  have hclear : ∀ m : Mem V, m.bucketNum = B → m.maxNode = N → m.nodeNum = 0 →
      m.nodeSize = T.nodeSize → Ends (times (fun i => .write (.bucket i 0)) 0 B) m fun _ m' =>
        m'.bucketNum = B ∧ m'.maxNode = N ∧ m'.nodeNum = 0 ∧ m'.nodeSize = T.nodeSize ∧
          ∀ i < B, m'.buckets (i : Int) = 0 := by
    intro m h1 h2 h3 h4
    have hturn : ∀ (j : Nat) (m : Mem V), 0 ≤ j → j < 0 + B →
        (m.bucketNum = B ∧ m.maxNode = N ∧ m.nodeNum = 0 ∧ m.nodeSize = T.nodeSize ∧
          ∀ i < j, m.buckets (i : Int) = 0) →
        Ends (.write (.bucket j 0) : Act V Unit) m fun _ m' => m'.bucketNum = B ∧ m'.maxNode = N ∧
          m'.nodeNum = 0 ∧ m'.nodeSize = T.nodeSize ∧ ∀ i < j + 1, m'.buckets (i : Int) = 0 := by
      intro j m _ _ hI
      obtain ⟨h1, h2, h3, h4, h5⟩ := hI
      refine ends_write.mpr ⟨h1, h2, h3, h4, fun i hi => ?_⟩
      change (if (i : Int) = (j : Int) then 0 else m.buckets (i : Int)) = 0
      split
      next => rfl
      next hne => exact h5 i (by omega)
    have hloop := ends_times (fun j (m : Mem V) => m.bucketNum = B ∧ m.maxNode = N ∧
      m.nodeNum = 0 ∧ m.nodeSize = T.nodeSize ∧ ∀ i < j, m.buckets (i : Int) = 0) hturn
      ⟨h1, h2, h3, h4, fun i hi => absurd hi (by omega)⟩
    rwa [Nat.zero_add] at hloop
  simp only [Hash.init, Bool.false_eq_true, false_and, if_false, not_false_eq_true, if_true,
    ends_bind, ends_read, ends_ite, ends_write, ends_pure]
  refine (hclear _ rfl rfl rfl rfl).mono fun _ m₁ h₁ => ?_
  obtain ⟨hb, hn, hc, hs, hzero⟩ := h₁
  refine ⟨0, _, zoom_run (init_run hM.fits.header_ne), ?_⟩
  beta_reduce
  rw [if_neg (by decide), replay_pool]
  have hi : Inv T (poolAt M B) B N { m₁ with pool := replay (initWrites N T.nodeSize) m₁.pool }
      (fun _ => []) [] [] [] := by
    refine ⟨hM.fits.init, hb, hn, hs, hM.pos, hM.small, fun i h => hzero i h, fun _ _ => ?_,
      fun _ _ _ h => ?_, fun _ _ _ h => ?_, fun _ h => ?_⟩
    · exact List.nodup_nil
    · simp at h
    · simp at h
    · simp at h
  exact ⟨trivial, ⟨_, _, _, hi, hc⟩, funext fun key => hi.lookup_none (by simp)⟩

/-- Runs with what each call returned and where the pointers pointed after it. -/
inductive Run (T : Params V) (M : Mapping) (B N : Nat) :
    List (Op V × Res × (Nat → V)) → Mem V → Prop where
  | init {m₀ : Mem V} {ws : List (Write V)} : Hash.init T M B N false m₀ = some (OK, ws) →
      Run T M B N [] (replay ws m₀)
  | step {tr : List (Op V × Res × (Nat → V))} {m : Mem V} {op : Op V} {r : Res}
      {ws : List (Write V)} : Run T M B N tr m → op.run T (poolAt M B) m = some (r, ws) →
      Run T M B N (tr ++ [(op, r, pointee (poolAt M B) (replay ws m))]) (replay ws m)

/-- Runs of the finite map. -/
inductive MapRun (T : Params V) (N : Nat) :
    List (Op V × Res × (Nat → V)) → (UInt64 → Option V) → Prop where
  | fresh : MapRun T N [] fun _ => none
  | step {tr : List (Op V × Res × (Nat → V))} {M M' : UInt64 → Option V} {op : Op V} {r : Res}
      {at_ : Nat → V} : MapRun T N tr M → MapStep T N op M r at_ M' →
      MapRun T N (tr ++ [(op, r, at_)]) M'

theorem run_good {M : Mapping} {tr : List (Op V × Res × (Nat → V))} (hM : Mapped T M B N)
    (hrun : Run T M B N tr m) : Good T (poolAt M B) B N m ∧ MapRun T N tr (lookup m) := by
  induction hrun with
  | init h =>
      obtain ⟨-, hg, hl⟩ := (init_ends hM).of_eq h
      rw [hl]
      exact ⟨hg, .fresh⟩
  | step _ hop ih =>
      obtain ⟨hg, hr⟩ := ih
      obtain ⟨r, ws, hop', hg', hstep⟩ := hg.step _
      rw [hop] at hop'
      cases hop'
      exact ⟨hg', hr.step hstep⟩

/-- Values of 8 bytes. -/
def natParams : Params Nat where
  nodeSize := 24
  zeroed := 0

/-- Two nodes in three buckets. -/
def smallMapping : Mapping where
  header := 4096
  length := 168

theorem smallMapping_mapped : Mapped natParams smallMapping 3 2 :=
  ⟨by decide, by decide, by decide, by decide, by decide, by decide⟩

def zeroMem : Mem Nat where
  bucketNum := 0
  maxNode := 0
  nodeNum := 0
  nodeSize := 0
  buckets := fun _ => 0
  pool := ⟨0, 0, 0, 0, 0, 0, 0, fun _ => 0, fun _ => ⟨0, 0, 0⟩⟩

/-- A pool with one key. -/
theorem run_insert {M : Mapping} (hM : Mapped T M B N) (hN : 0 < N) (m₀ : Mem V) (key : UInt64)
    (v : V) : ∃ tr m, Run T M B N tr m ∧
      lookup m = Function.update (fun _ => none) key (some v) := by
  obtain ⟨r₀, ws₀, hinit, rfl, hg, hempty⟩ := init_ends (m := m₀) hM
  obtain ⟨r, ws, hop, -, hmap⟩ := hg.step (.insert key v)
  refine ⟨_, _, (Run.init hinit).step hop, ?_⟩
  rcases hmap with ⟨-, -, hpresent | hfull⟩ | ⟨p, -, -, hupdate, -⟩
  · exact absurd (congrFun hempty key) hpresent
  · rw [hempty, size] at hfull
    simp only [ne_eq, not_true_eq_false, Set.ofPred_false, Set.ncard_empty] at hfull
    omega
  · rw [hupdate, hempty]

end Jump.MemPool.Hash
