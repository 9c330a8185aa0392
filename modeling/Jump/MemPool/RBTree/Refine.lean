import Jump.Core.SortedSeq
import Jump.MemPool.RBTree.Code
import Jump.MemPool.RBTree.InsertNode
import Jump.MemPool.RBTree.Remove

/-! # Runs of a `MemRBTree`

A `MemRBTree` is for a sequence of at most `node_num` cells in key order. A cell is an
element with the iterator that stands for it; `end()` is the iterator `node_num`.

A run starts with `Init(mem, node_num, restore = false)` on any memory and goes
on with operations whose iterators are live. Every state of a run is a valid
tree, every operation returns, and the run is a run of the sorted sequence.
-/

namespace Jump.MemPool.RBTree

/-! ## The sorted sequence -/

section Sequence

open Jump.Core

variable {V K : Type}

/-- The public operations; an iterator is its serial. -/
inductive Op (V K : Type) where
  | clear
  | insertEqual (v : V)
  | insertUnique (v : V)
  | erase (pos : Nat)
  | eraseRange (first last : Nat)
  | eraseUnique (k : K)
  | eraseEqual (k : K)
  | lowerBound (k : K)
  | upperBound (k : K)
  | equalRange (k : K)
  | find (k : K)

inductive Res where
  | done
  | iter (pos : Nat)
  | iterNew (pos : Nat) (inserted : Bool)
  | range (first last : Nat)
  | count (n : Nat)
  deriving DecidableEq, Repr

abbrev Cells (V : Type) : Type := List (Nat × V)

section Spec

variable (T : Params V K) (N : Nat)

def cellKey (c : Nat × V) : K := T.extractKey c.2

def cellNotLess (k : K) (c : Nat × V) : Bool := !T.compareKey (cellKey T c) k

def cellGreater (k : K) (c : Nat × V) : Bool := T.compareKey k (cellKey T c)

def cellEqual (k : K) (c : Nat × V) : Bool :=
  !T.compareKey (cellKey T c) k && !T.compareKey k (cellKey T c)

/-- The iterator of a cell that may not be there. -/
def iterOf (c : Option (Nat × V)) : Nat := (c.map (·.1)).getD N

/-- The iterator at the start of what is left of the sequence. -/
def iterAt (s : Cells V) : Nat := iterOf N s.head?

/-- `insert_equal`: full, or `v` in a fresh cell after every cell whose key is not greater. -/
def SeqInsert (v : V) (s : Cells V) (pos : Nat) (s' : Cells V) : Prop :=
  if s.length = N then pos = N ∧ s' = s
  else pos < N ∧ pos ∉ s.map (·.1) ∧ s' = insertUpper T.compareKey (cellKey T) (pos, v) s

/-- The operations on the sequence. -/
def SeqStep : Op V K → Cells V → Res → Cells V → Prop
  | .clear, _, r, s' => r = .done ∧ s' = []
  | .insertEqual v, s, r, s' => ∃ pos, r = .iter pos ∧ SeqInsert T N v s pos s'
  | .insertUnique v, s, r, s' =>
      if s.any (cellEqual T (T.extractKey v)) then
        ∃ c ∈ s, cellEqual T (T.extractKey v) c ∧ r = .iterNew c.1 false ∧ s' = s
      else ∃ pos, r = .iterNew pos true ∧ SeqInsert T N v s pos s'
  | .erase pos, s, r, s' => r = .done ∧ s' = s.filter fun c => c.1 ≠ pos
  | .eraseRange first last, s, r, s' => ∃ xs ys zs, s = xs ++ (ys ++ zs) ∧
      first = iterAt N (ys ++ zs) ∧ last = iterAt N zs ∧ r = .count ys.length ∧ s' = xs ++ zs
  | .eraseUnique k, s, r, s' =>
      r = .count (if s.any (cellEqual T k) then 1 else 0) ∧ s' = s.eraseP (cellEqual T k)
  | .eraseEqual k, s, r, s' =>
      r = .count (s.countP (cellEqual T k)) ∧ s' = s.filter fun c => !cellEqual T k c
  | .lowerBound k, s, r, s' => r = .iter (iterOf N (s.find? (cellNotLess T k))) ∧ s' = s
  | .upperBound k, s, r, s' => r = .iter (iterOf N (s.find? (cellGreater T k))) ∧ s' = s
  | .equalRange k, s, r, s' => r = .range (iterOf N (s.find? (cellNotLess T k)))
      (iterOf N (s.find? (cellGreater T k))) ∧ s' = s
  | .find k, s, r, s' => r = .iter (iterOf N (s.find? (cellEqual T k))) ∧ s' = s

/-- Runs of the sequence from the empty one, with what each operation returned. -/
inductive SeqRun : List (Op V K × Res) → Cells V → Prop where
  | fresh : SeqRun [] []
  | step {tr : List (Op V K × Res)} {s s' : Cells V} {op : Op V K} {r : Res} :
      SeqRun tr s → SeqStep T N op s r s' → SeqRun (tr ++ [(op, r)]) s'

end Spec

end Sequence

section Runs

open Jump.Core Jump.Core.ColoredTree Jump.Core.Ctx Prog

variable {V K : Type} {T : Params V K} {N : Nat} {m : Mem V} {t : ColoredTree Nat} {free : List Nat}

/-! ## Reading the sequence off the array -/

/-- The nodes below `pos` in order. -/
def inorder (m : Mem V) : Nat → Nat → List Nat
  | 0, _ => []
  | fuel + 1, pos =>
      if pos = INVALID_POINT then []
      else inorder m fuel (m.child .left pos) ++ pos :: inorder m fuel (m.child .right pos)

def serials (m : Mem V) : List Nat := inorder m (m.numOfNode + 1) (m.parent m.numOfNode)

/-- The elements of the tree in order, each with its iterator. -/
def cells (m : Mem V) : Cells V := (serials m).map fun i => (i, m.data i)

theorem inorder_eq {p fuel : Nat} (hl : Linked m p t) (hi : INVALID_POINT ∉ t.toList)
    (hf : t.card < fuel) : inorder m fuel (ptr t) = t.toList := by
  induction t generalizing p fuel with
  | leaf =>
      cases fuel with
      | zero => rfl
      | succ fuel => simp [inorder]
  | node c l i r ihl ihr =>
      cases fuel with
      | zero => omega
      | succ fuel =>
          simp only [toList_node, List.mem_append, List.mem_cons, not_or] at hi
          rw [card_node] at hf
          obtain ⟨-, -, hcl, hcr, hll, hlr⟩ := hl
          have hne : i ≠ INVALID_POINT := fun he => hi.2.1 he.symm
          rw [ptr_node, inorder, if_neg hne, hcl, hcr, ihl hll hi.1 (by omega),
            ihr hlr hi.2.2 (by omega), toList_node]

theorem Valid.serials_eq (hv : Valid T N m t) (hc : t.card ≤ N) : serials m = t.toList := by
  have hroot : m.parent N = ptr t := hv.ctx
  rw [serials, hv.header, hroot]
  exact inorder_eq hv.sub hv.invalid_not_mem (by omega)

theorem serials_eq (hi : Inv T N m t free) : serials m = t.toList :=
  hi.toValid.serials_eq hi.card_le

theorem cells_eq (hi : Inv T N m t free) : cells m = t.toList.map fun i => (i, m.data i) := by
  rw [cells, serials_eq hi]

theorem length_cells (hi : Inv T N m t free) : (cells m).length = t.card := by
  rw [cells_eq hi, List.length_map, card]

namespace Op

def run (T : Params V K) : Op V K → Act V Res
  | .clear => do
      RBTree.clear T.zeroed
      return .done
  | .insertEqual v => do return .iter (← RBTree.insertEqual T v)
  | .insertUnique v => do
      let (pos, inserted) ← RBTree.insertUnique T v
      return .iterNew pos inserted
  | .erase pos => do
      RBTree.erase T.zeroed pos
      return .done
  | .eraseRange first last => do return .count (← RBTree.eraseRange T.zeroed first last)
  | .eraseUnique k => do return .count (← RBTree.eraseUnique T k)
  | .eraseEqual k => do return .count (← RBTree.eraseEqual T k)
  | .lowerBound k => do return .iter (← RBTree.lowerBound T k)
  | .upperBound k => do return .iter (← RBTree.upperBound T k)
  | .equalRange k => do
      let (first, last) ← RBTree.equalRange T k
      return .range first last
  | .find k => do return .iter (← RBTree.find T k)

/-- The iterators an operation is given are live ones, and a range is a range. -/
def Admissible (m : Mem V) : Op V K → Prop
  | .erase pos => pos ∈ serials m
  | .eraseRange first last => ∃ xs ys zs, serials m = xs ++ (ys ++ zs) ∧
      first = startOf m.numOfNode (ys ++ zs) ∧ last = startOf m.numOfNode zs
  | _ => True

end Op

/-- Runs with what each operation returned. -/
inductive Run (T : Params V K) (N : Nat) : List (Op V K × Res) → Mem V → Prop where
  | init {m₀ : Mem V} {ws : List (Write V)} : init T N false m₀ = some (.ret 0, ws) →
      Run T N [] (replay ws m₀)
  | step {tr : List (Op V K × Res)} {m : Mem V} {op : Op V K} {r : Res} {ws : List (Write V)} :
      Run T N tr m → op.Admissible m → op.run T m = some (r, ws) →
      Run T N (tr ++ [(op, r)]) (replay ws m)

/-! ## One step -/

theorem inserted_seq {v : V} {r : Nat} {m' : Mem V} (hi : Inv T N m t free)
    (h : Inserted T N v m t free r m') :
    (∃ t' free', Inv T N m' t' free') ∧ SeqInsert T N v (cells m) r (cells m') := by
  have hlen := length_cells hi
  have hcard := hi.card_add
  cases free with
  | nil =>
      obtain ⟨rfl, rfl⟩ := h
      simp only [List.length_nil] at hcard
      refine ⟨⟨t, [], hi⟩, ?_⟩
      rw [SeqInsert, if_pos (by omega)]
      exact ⟨rfl, rfl⟩
  | cons i free =>
      obtain ⟨rfl, t', xs, ys, hi', hlist, hseq, hdata, hl, hr⟩ := h
      simp only [List.length_cons] at hcard
      obtain ⟨hlt, -, hnot⟩ := hi.free_ne (i := r) List.mem_cons_self
      have hkeep : ∀ zs : List Nat, (∀ j ∈ zs, j ∈ t.toList) →
          zs.map (fun j => (j, m'.data j)) = zs.map (fun j => (j, m.data j)) := by
        intro zs hz
        refine List.map_congr_left fun j hj => ?_
        have hne : j ≠ r := fun he => hnot (he ▸ hz j hj)
        rw [hdata, if_neg hne]
      refine ⟨⟨t', free, hi'⟩, ?_⟩
      rw [SeqInsert, if_neg (by omega)]
      refine ⟨hlt, ?_, ?_⟩
      · rw [cells_eq hi, List.map_map]
        simpa [Function.comp_def] using hnot
      · rw [cells_eq hi, cells_eq hi', hseq, hlist, List.map_append, List.map_append, List.map_cons,
          hkeep xs (fun j hj => by rw [hlist]; exact List.mem_append_left _ hj),
          hkeep ys (fun j hj => by rw [hlist]; exact List.mem_append_right _ hj), hdata, if_pos rfl]
        refine (insertUpper_cut (fun c hc => ?_) fun c hc => ?_).symm
        · obtain ⟨a, ha, rfl⟩ := List.mem_map.mp hc
          exact hl a ha
        · obtain ⟨a, ha, rfl⟩ := List.mem_map.mp hc
          exact hr a ha

theorem removed_seq {xs : List Nat} {m' : Mem V} (h : Removed T N m xs m') :
    (∃ t' free', Inv T N m' t' free') ∧ cells m' = xs.map fun i => (i, m.data i) := by
  obtain ⟨t', free', hi', rfl, hdata⟩ := h
  refine ⟨⟨t', free', hi'⟩, ?_⟩
  rw [cells_eq hi']
  exact List.map_congr_left fun j hj => by rw [hdata j hj]

theorem iterAt_cells (m : Mem V) (ys : List Nat) :
    iterAt N (ys.map fun i => (i, m.data i)) = startOf N ys := by
  cases ys <;> rfl

theorem iterOf_find (hi : Inv T N m t free) {p : Nat → Bool} {q : Nat × V → Bool}
    (h : ∀ i, q (i, m.data i) = p i) :
    iterOf N ((cells m).find? q) = (t.toList.find? p).getD N := by
  have hq : (q ∘ fun i => (i, m.data i)) = p := funext h
  rw [cells_eq hi, List.find?_map, hq, iterOf, Option.map_map]
  cases t.toList.find? p <;> rfl

theorem any_cells (hi : Inv T N m t free) (k : K) :
    (cells m).any (cellEqual T k) = t.toList.any (equalKey T m k) := by
  rw [cells_eq hi, List.any_map]
  rfl

/-- Every operation keeps the invariant and does on the sequence what it is for. -/
theorem step_ends (hi : Inv T N m t free) (pos : 1 ≤ N) (op : Op V K) (ha : op.Admissible m) :
    Ends (op.run T) m fun r m' => (∃ t' free', Inv T N m' t' free') ∧
      SeqStep T N op (cells m) r (cells m') := by
  have hser := serials_eq hi
  cases op with
  | clear =>
      simp only [Op.run, ends_bind, ends_pure]
      refine (clear_ends (T := T) hi.header pos hi.small).mono fun _ m' hi' => ?_
      exact ⟨⟨_, _, hi'⟩, rfl, by rw [cells_eq hi']; rfl⟩
  | insertEqual v =>
      simp only [Op.run, ends_bind, ends_pure]
      refine (insertEqual_ends hi).mono fun r m' h' => ?_
      obtain ⟨hi', hseq⟩ := inserted_seq hi h'
      exact ⟨hi', r, rfl, hseq⟩
  | insertUnique v =>
      simp only [Op.run, ends_bind, ends_pure]
      refine (insertUnique_ends hi).mono fun r m' h' => ?_
      obtain ⟨r, new⟩ := r
      cases new with
      | true =>
          obtain ⟨hins, hnone⟩ := h'
          obtain ⟨hi', hseq⟩ := inserted_seq hi hins
          have hany : ¬ (cells m).any (cellEqual T (T.extractKey v)) = true := by
            rw [any_cells hi, List.any_eq_true]
            rintro ⟨a, hat, heq⟩
            simp only [equalKey, Bool.and_eq_true, Bool.not_eq_true'] at heq
            rcases hnone a hat with h | h
            · rw [heq.1] at h
              cases h
            · rw [heq.2] at h
              cases h
          refine ⟨hi', ?_⟩
          rw [SeqStep, if_neg hany]
          exact ⟨r, rfl, hseq⟩
      | false =>
          obtain ⟨rfl, hrt, h1, h2⟩ := h'
          have heq : equalKey T m' (T.extractKey v) r = true := by simp [equalKey, h1, h2]
          have hany : (cells m').any (cellEqual T (T.extractKey v)) = true := by
            rw [any_cells hi, List.any_eq_true]
            exact ⟨r, hrt, heq⟩
          refine ⟨⟨t, free, hi⟩, ?_⟩
          rw [SeqStep, if_pos hany]
          refine ⟨(r, m'.data r), ?_, heq, rfl, rfl⟩
          rw [cells_eq hi]
          exact List.mem_map_of_mem hrt
  | erase i =>
      rw [Op.Admissible, hser] at ha
      obtain ⟨xs, ys, hseq⟩ := List.append_of_mem ha
      have hnd := (List.nodup_append.mp hi.nodup).1
      rw [hseq] at hnd
      have hperm : (xs ++ i :: ys).Perm (i :: (xs ++ ys)) := List.perm_middle
      have hnot := (List.nodup_cons.mp (hperm.nodup_iff.mp hnd)).1
      rw [List.mem_append, not_or] at hnot
      simp only [Op.run, ends_bind, ends_pure]
      refine (erase_ends hi hseq).mono fun _ m' h' => ?_
      obtain ⟨t', hi', hseq', hdata⟩ := h'
      have hrem : Removed T N m (xs ++ ys) m' :=
          ⟨t', _, hi', hseq', fun j hj => hdata j fun he => by
        rw [he] at hj
        exact (List.mem_append.mp hj).elim hnot.1 hnot.2⟩
      obtain ⟨hi'', hcells⟩ := removed_seq hrem
      refine ⟨hi'', rfl, ?_⟩
      have hkeep : ∀ zs : List Nat, i ∉ zs →
          (zs.map fun j => (j, m.data j)).filter (fun c => decide (c.1 ≠ i)) =
            zs.map fun j => (j, m.data j) := by
        intro zs hz
        refine List.filter_eq_self.mpr fun c hc => ?_
        obtain ⟨j, hj, rfl⟩ := List.mem_map.mp hc
        have hne : j ≠ i := fun he => hz (he ▸ hj)
        simpa using hne
      rw [hcells, cells_eq hi, hseq, List.map_append, List.map_append, List.map_cons,
        List.filter_append, List.filter_cons, hkeep xs hnot.1, hkeep ys hnot.2]
      simp
  | eraseRange first last =>
      obtain ⟨xs, ys, zs, hseq, rfl, rfl⟩ := ha
      rw [hser] at hseq
      simp only [Op.run, ends_bind, ends_pure, hi.header]
      refine (eraseRange_ends hi pos hseq).mono fun n m' h' => ?_
      obtain ⟨rfl, hrem⟩ := h'
      obtain ⟨hi', hcells⟩ := removed_seq hrem
      refine ⟨hi', xs.map (fun i => (i, m.data i)), ys.map (fun i => (i, m.data i)),
        zs.map (fun i => (i, m.data i)), ?_, ?_, ?_, ?_, ?_⟩
      · rw [cells_eq hi, hseq, List.map_append, List.map_append]
      · rw [← List.map_append, iterAt_cells]
      · rw [iterAt_cells]
      · rw [List.length_map]
      · rw [hcells, List.map_append]
  | eraseUnique k =>
      simp only [Op.run, ends_bind, ends_pure]
      refine (eraseUnique_ends hi).mono fun n m' h' => ?_
      rcases h' with ⟨rfl, rfl, hnone⟩ | ⟨rfl, xs, i, ys, hseq, heq, hbefore, hrem⟩
      · have hany : ¬ (cells m').any (cellEqual T k) = true := by
          rw [any_cells hi, List.any_eq_true]
          rintro ⟨a, hat, h⟩
          exact hnone a hat h
        refine ⟨⟨t, free, hi⟩, by rw [if_neg hany], ?_⟩
        refine (List.eraseP_of_forall_not fun c hc h => ?_).symm
        exact hany (List.any_eq_true.mpr ⟨c, hc, h⟩)
      · obtain ⟨hi', hcells⟩ := removed_seq hrem
        have hany : (cells m).any (cellEqual T k) = true := by
          rw [any_cells hi, List.any_eq_true]
          exact ⟨i, by rw [hseq]; simp, heq⟩
        refine ⟨hi', by rw [if_pos hany], ?_⟩
        have hx : ∀ c ∈ xs.map (fun j => (j, m.data j)), ¬ cellEqual T k c = true := by
          intro c hc
          obtain ⟨a, hax, rfl⟩ := List.mem_map.mp hc
          exact hbefore a hax
        have hp : cellEqual T k (i, m.data i) = true := heq
        rw [hcells, cells_eq hi, hseq, List.map_append, List.map_append, List.map_cons,
          List.eraseP_append_right _ hx, List.eraseP_cons_of_pos hp]
  | eraseEqual k =>
      simp only [Op.run, ends_bind, ends_pure]
      refine (eraseEqual_ends hi pos).mono fun n m' h' => ?_
      obtain ⟨xs, ys, zs, hseq, hx, hy, hz, rfl, hrem⟩ := h'
      obtain ⟨hi', hcells⟩ := removed_seq hrem
      have hnx : ∀ c ∈ xs.map (fun j => (j, m.data j)), cellEqual T k c = false := by
        intro c hc
        obtain ⟨a, hax, rfl⟩ := List.mem_map.mp hc
        have h : T.compareKey (cellKey T (a, m.data a)) k = true := hx a hax
        simp [cellEqual, h]
      have hpy : ∀ c ∈ ys.map (fun j => (j, m.data j)), cellEqual T k c = true := by
        intro c hc
        obtain ⟨a, hax, rfl⟩ := List.mem_map.mp hc
        exact hy a hax
      have hnz : ∀ c ∈ zs.map (fun j => (j, m.data j)), cellEqual T k c = false := by
        intro c hc
        obtain ⟨a, hax, rfl⟩ := List.mem_map.mp hc
        have h : T.compareKey k (cellKey T (a, m.data a)) = true := hz a hax
        simp [cellEqual, h]
      refine ⟨hi', ?_, ?_⟩
      · rw [cells_eq hi, hseq, List.map_append, List.map_append, List.countP_append,
          List.countP_append, List.countP_eq_zero.mpr (by simpa using hnx),
          List.countP_eq_length.mpr (by simpa using hpy),
          List.countP_eq_zero.mpr (by simpa using hnz), List.length_map]
        simp
      · rw [hcells, cells_eq hi, hseq, List.map_append, List.map_append, List.map_append,
          List.filter_append, List.filter_append, List.filter_eq_self.mpr (by simpa using hnx),
          List.filter_eq_nil_iff.mpr (by simpa using hpy),
          List.filter_eq_self.mpr (by simpa using hnz), List.nil_append]
  | lowerBound k =>
      simp only [Op.run, ends_bind, ends_pure]
      refine lowerBound_ends hi ⟨⟨t, free, hi⟩, ?_, rfl⟩
      rw [iterOf_find hi (p := notLess T m k) fun i => rfl]
  | upperBound k =>
      simp only [Op.run, ends_bind, ends_pure]
      refine upperBound_ends hi ⟨⟨t, free, hi⟩, ?_, rfl⟩
      rw [iterOf_find hi (p := greater T m k) fun i => rfl]
  | equalRange k =>
      simp only [Op.run, ends_bind, ends_pure]
      refine equalRange_ends hi ⟨⟨t, free, hi⟩, ?_, rfl⟩
      rw [iterOf_find hi (p := notLess T m k) fun i => rfl,
        iterOf_find hi (p := greater T m k) fun i => rfl]
  | find k =>
      simp only [Op.run, ends_bind, ends_pure]
      refine find_ends hi ⟨⟨t, free, hi⟩, ?_, rfl⟩
      rw [iterOf_find hi (p := equalKey T m k) fun i => rfl]

/-! ## Whole runs -/

theorem init_ends {m₀ : Mem V} (pos : 1 ≤ N) (small : N < INVALID_POINT) :
    Ends (init T N false) m₀ fun r m' => r = .ret 0 ∧ Inv T N m' leaf (List.range N) := by
  simp only [init, rebuild, Bool.false_eq_true, if_false, ends_bind, ends_write, insertAll,
    ends_pure]
  refine (clear_ends (T := T) ?_ pos small).mono fun _ m' hi => ⟨trivial, hi⟩
  simp

theorem run_inv {tr : List (Op V K × Res)} (pos : 1 ≤ N) (small : N < INVALID_POINT)
    (hrun : Run T N tr m) : (∃ t free, Inv T N m t free) ∧ SeqRun T N tr (cells m) := by
  induction hrun with
  | init hinit =>
      have hi := ((init_ends pos small).of_eq hinit).2
      refine ⟨⟨_, _, hi⟩, ?_⟩
      rw [cells_eq hi]
      exact .fresh
  | step hrun ha hop ih =>
      obtain ⟨⟨t, free, hi⟩, hseq⟩ := ih
      obtain ⟨hi', hstep⟩ := (step_ends hi pos _ ha).of_eq hop
      exact ⟨hi', hseq.step hstep⟩

/-- After `Init` every history of operations keeps a valid red-black search tree,
and no operation gets stuck. -/
theorem reachable_valid (T : Params V K) (N : Nat) (pos : 1 ≤ N) (small : N < INVALID_POINT) :
    (∀ m₀ : Mem V, ∃ ws, init T N false m₀ = some (.ret 0, ws)) ∧
      ∀ tr m, Run T N tr m → (∃ t, Valid T N m t) ∧
        ∀ op : Op V K, op.Admissible m → ∃ r ws, op.run T m = some (r, ws) := by
  constructor
  · intro m₀
    have hinit : Ends (init T N false) m₀ fun r m' =>
        r = .ret 0 ∧ Inv T N m' leaf (List.range N) := init_ends pos small
    obtain ⟨r, ws, h, rfl, -⟩ := hinit
    exact ⟨ws, h⟩
  · intro tr m hrun
    obtain ⟨⟨t, free, hi⟩, -⟩ := run_inv pos small hrun
    refine ⟨⟨t, hi.toValid⟩, fun op ha => ?_⟩
    obtain ⟨r, ws, h, -⟩ := step_ends hi pos op ha
    exact ⟨r, ws, h⟩

/-- Natural numbers as their own keys. -/
def natParams : Params Nat Nat where
  extractKey := id
  compareKey := fun a b => decide (a < b)
  strictWeak :=
    { irrefl := fun a => by simp
      trans := fun a b c => by
        simp only [decide_eq_true_eq]
        omega
      incomp_trans := fun a b c => by
        simp only [decide_eq_true_eq]
        omega }
  zeroed := 0

/-- A mapping of zero bytes. -/
def zeroMem : Mem Nat where
  numOfNode := 0
  freeNodeList := 0
  rootNode := 0
  szFreeNode := 0
  szUseNode := 0
  dirtyFlag := 0
  magicFlag := fun _ => 0
  useFlag := fun _ => 0
  parent := fun _ => 0
  child := fun _ _ => 0
  color := fun _ => .red
  size := fun _ => 0
  data := fun _ => 0

theorem reachable_valid_nat : ∃ r m, Run natParams 3 [(.insertEqual 5, r)] m ∧
    ∃ t, Valid natParams 3 m t := by
  obtain ⟨hinit, hrun⟩ := reachable_valid natParams 3 (by decide) (by decide)
  obtain ⟨ws, hws⟩ := hinit zeroMem
  have ha : (Op.insertEqual 5 : Op Nat Nat).Admissible (replay ws zeroMem) := trivial
  obtain ⟨r, ws', h⟩ := (hrun _ _ (.init hws)).2 _ ha
  have hstep := (Run.init hws).step ha h
  exact ⟨r, _, hstep, (hrun _ _ hstep).1⟩

end Runs

end Jump.MemPool.RBTree
