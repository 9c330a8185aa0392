import Jump.MemPool.LruHash.Evict

/-! # Runs of a `mem_lru_hashtable`

A run starts with `initialize` on any memory and goes on with any operations; an
operation that does not return, which only `washout` may do, ends it. Every state of
a run is a valid table, and the run is a run of the row.
-/

namespace Jump.MemPool.LruHash

open Jump.Core Prog

section Runs

variable {V K : Type} {T : Params V K} {N numnode : Nat} {m m' : Mem V}

/-- `fuel` is for `washout`. -/
def Op.run (T : Params V K) (fuel : Nat) : Op V K → Act V Res
  | .clear => do
      LruHash.clear
      return .done
  | .reattach numnode => do return .flag (← initializeTable T numnode true).isSome
  | .insert v prio => do
      let (pos, inserted) ← LruHash.insert T v prio
      return .iterNew pos inserted
  | .insertEqual v prio => do
      let (pos, inserted) ← LruHash.insertEqual T v prio
      return .iterNew pos inserted
  | .erase k => do return .flag (← LruHash.erase T k)
  | .eraseIter itseq => do return .flag (← LruHash.eraseIter T itseq)
  | .eraseValue v => do return .flag (← LruHash.eraseValue T v)
  | .eraseEqual k => do return .count (← LruHash.eraseEqual T k)
  | .eraseEqualValue v => do return .flag (← LruHash.eraseEqualValue T v)
  | .active k prio => do return .flag (← LruHash.active T k prio)
  | .activeValue v prio => do return .flag (← LruHash.activeValue T v prio)
  | .activeEqual k prio => do return .count (← LruHash.activeEqual T k prio)
  | .mark k prio => do return .flag (← LruHash.mark T k prio)
  | .markValue v prio => do return .flag (← LruHash.markValue T v prio)
  | .markEqual k prio => do return .flag (← LruHash.markEqual T k prio)
  | .expire expireTime => do return .count (← LruHash.expire T expireTime)
  | .disuse disuseNum disuseEqual => do
      return .count (← LruHash.disuse T disuseNum disuseEqual)
  | .washout washPriority numWash => do
      LruHash.washout T fuel washPriority numWash
      return .done

/-- Runs with what each operation returned. -/
inductive Run (T : Params V K) (numnode : Nat) : List (Op V K × Res) → Mem V → Prop where
  | init {m₀ : Mem V} {ws : List (Write V)} :
      initializeTable T numnode false m₀ = some (some (), ws) → Run T numnode [] (replay ws m₀)
  | step {tr : List (Op V K × Res)} {m : Mem V} {op : Op V K} {r : Res} {fuel : Nat}
      {ws : List (Write V)} : Run T numnode tr m → op.run T fuel m = some (r, ws) →
      Run T numnode (tr ++ [(op, r)]) (replay ws m)

/-- Runs of the row, with what each operation returned and all calls of the functor. -/
inductive LruRun (T : Params V K) (N : Nat) :
    List (Op V K × Res) → List (Nat × V) → List (Entry V) → Prop where
  | fresh : LruRun T N [] [] []
  | step {tr : List (Op V K × Res)} {w w' : List (Nat × V)} {s s' : List (Entry V)} {op : Op V K}
      {r : Res} : LruRun T N tr w s → LruStep T N op s r w' s' →
      LruRun T N (tr ++ [(op, r)]) (w ++ w') s'

/-! ## One step -/

theorem reattach_ends (hn : numnode ≠ 0) :
    Ends (initializeTable T numnode true) m fun _ m' => m' = m := by
  rw [initializeTable, if_neg hn]
  simp only [true_and, if_true, capacity, ends_bind, ends_read, ends_ite, ends_pure, ends_write]
  split_ifs with hc
  rw [not_or, not_not, not_not] at hc
  rw [hc.1, hc.2]
  rfl

theorem clear_refines {us fs : List Nat} {ch : Nat → List Nat} (h : Inv T N us fs ch m) :
    Refines T N .clear (do
      LruHash.clear
      return .done) m := by
  simp only [Refines, ends_bind, ends_pure]
  refine (clear_ends (T := T) h.pos h.bound h.num).mono fun _ m' hr => ?_
  obtain ⟨hi, hw⟩ := hr
  exact ⟨⟨_, _, _, hi⟩, [], by simp [hw], rfl, rfl, hi.entries_eq⟩

theorem reattach_refines (h : Valid T N m) (hn : numnode ≠ 0) :
    Refines T N (.reattach numnode) (do
      return .flag (← initializeTable T numnode true).isSome) m := by
  simp only [Refines, ends_bind, ends_pure]
  refine (reattach_ends hn).mono fun r m' hr => ?_
  subst hr
  exact ⟨h, [], by simp, ⟨_, rfl⟩, rfl, rfl⟩

/-- What `washout` did when it returned. -/
theorem washout_returns (h : Valid T N m) {fuel p num : Nat} {r : Res} {ws : List (Write V)}
    (hrun : (Op.washout p num : Op V K).run T fuel m = some (r, ws)) :
    Valid T N (replay ws m) ∧ ∃ w, (replay ws m).washed = m.washed ++ w ∧
      LruStep T N (.washout p num) (entries m) r w (entries (replay ws m)) := by
  obtain ⟨u, ws, ws', hwash, hdone, rfl⟩ := bind_eq_some.mp hrun
  obtain ⟨rfl, rfl⟩ := pure_eq_some.mp hdone
  rw [List.append_nil]
  by_cases hall : ∀ e ∈ (entries m).take num, e.priority < p
  · have hmore := washout_mono hwash (Nat.le_max_left fuel ((entries m).length + 1))
    obtain ⟨hv, hw, hs⟩ := (washout_ends h hall (by omega)).of_eq hmore
    exact ⟨hv, _, hw, hall, rfl, rfl, hs⟩
  · rw [washout_stuck h hall fuel] at hwash
    cases hwash

theorem refines_step (h : Valid T N m) (op : Op V K) {fuel : Nat} {r : Res} {ws : List (Write V)}
    (hrun : op.run T fuel m = some (r, ws)) : Valid T N (replay ws m) ∧ ∃ w,
      (replay ws m).washed = m.washed ++ w ∧
        LruStep T N op (entries m) r w (entries (replay ws m)) := by
  obtain ⟨us, fs, ch, hi⟩ := h
  have of : Refines T N op (op.run T fuel) m → _ := fun href => href.of_eq hrun
  cases op with
  | clear => exact of (clear_refines hi)
  | reattach numnode =>
      by_cases hn : numnode = 0
      · rw [Op.run, initializeTable, if_pos hn, run_none rfl] at hrun
        cases hrun
      · exact of (reattach_refines ⟨us, fs, ch, hi⟩ hn)
  | insert v prio => exact of (insert_refines hi)
  | insertEqual v prio => exact of (insertEqual_refines hi)
  | erase k => exact of (erase_refines hi)
  | eraseIter itseq => exact of (eraseIter_refines hi)
  | eraseValue v => exact of (eraseValue_refines hi)
  | eraseEqual k => exact of (eraseEqual_refines hi)
  | eraseEqualValue v => exact of (eraseEqualValue_refines hi)
  | active k prio => exact of (active_refines hi)
  | activeValue v prio => exact of (activeValue_refines hi)
  | activeEqual k prio => exact of (activeEqual_refines hi)
  | mark k prio => exact of (mark_refines hi)
  | markValue v prio => exact of (markValue_refines hi)
  | markEqual k prio => exact of (markEqual_refines hi)
  | expire expireTime => exact of (expire_refines ⟨us, fs, ch, hi⟩)
  | disuse disuseNum disuseEqual => exact of (disuse_refines ⟨us, fs, ch, hi⟩)
  | washout washPriority numWash => exact washout_returns ⟨us, fs, ch, hi⟩ hrun

theorem init_valid {m₀ : Mem V} {ws : List (Write V)}
    (h : initializeTable T numnode false m₀ = some (some (), ws)) :
    Valid T (getNextPrime numnode) (replay ws m₀) ∧ entries (replay ws m₀) = [] := by
  by_cases hn : numnode = 0
  · rw [initializeTable, if_pos hn] at h
    cases h
  · have hi := ((initializeTable_ends hn).of_eq h).2
    exact ⟨⟨_, _, _, hi⟩, hi.entries_eq⟩

/-! ## Whole runs -/

theorem run_valid {tr : List (Op V K × Res)} (h : Run T numnode tr m) :
    Valid T (getNextPrime numnode) m := by
  induction h with
  | init hinit => exact (init_valid hinit).1
  | step hrun hop ih => exact (refines_step ih _ hop).1

/-- The nodes that the free list passes. -/
def freeList (m : Mem V) : List Nat :=
  follow m.idxNext (m.numOfNode + 1) m.numOfNode (m.idxNext (m.numOfNode + 1))

/-- The nodes on chain `b`. -/
def chainOf (m : Mem V) (b : Nat) : List Nat :=
  follow m.hashIndex INVALID_POINT m.numOfNode (m.hashFactor b)

theorem Lists.freeList_eq {us fs : List Nat} (h : Lists N us fs m) : freeList m = fs := by
  have hsmall := h.small
  rw [freeList, h.num]
  exact h.rings.right.chain.follow_eq (List.nodup_cons.mp h.rings.symm.distinct_left).1 (by omega)

theorem Inv.chainOf_eq {us fs : List Nat} {ch : Nat → List Nat} (h : Inv T N us fs ch m) {b : Nat}
    (hb : b < N) : chainOf m b = ch b := by
  rw [chainOf, h.num]
  exact (h.chain b hb).follow_eq (h.invalid_not_mem hb) (h.length_chain hb)

/-- Both lists are rings that share out the nodes, and the chains hold the used nodes,
each on the chain of its hash. -/
structure WellFormed (T : Params V K) (N : Nat) (m : Mem V) : Prop where
  capacity : m.numOfNode = N
  useRing : Ring m.idxNext m.idxPrev N (useList m)
  freeRing : Ring m.idxNext m.idxPrev (N + 1) (freeList m)
  partition : (useList m ++ freeList m).Perm (List.range N)
  chains : ∀ b < N, Chain m.hashIndex INVALID_POINT (m.hashFactor b) (chainOf m b)
  acyclic : ∀ b < N, (chainOf m b).Nodup
  used : ∀ i ∈ useList m, ∀ b < N,
    (i ∈ chainOf m b ↔ b = T.hashFun (T.extractKey (m.value i)) % N)
  unused : ∀ i ∈ freeList m, ∀ b < N, i ∉ chainOf m b
  szUsenode : m.szUsenode = (useList m).length
  szFreenode : m.szFreenode = (freeList m).length

theorem Valid.wellFormed (h : Valid T N m) : WellFormed T N m := by
  obtain ⟨us, fs, ch, hi⟩ := h
  have hu := hi.useList_eq
  have hf := hi.freeList_eq
  refine ⟨hi.num, hu ▸ hi.rings.left, hf ▸ hi.rings.right, ?_, fun b hb => ?_, fun b hb => ?_,
    fun i hui b hb => ?_, fun i hfi b hb => ?_, hu ▸ hi.szUse, hf ▸ hi.szFree⟩
  · rw [hu, hf]
    exact hi.nodes
  · rw [hi.chainOf_eq hb]
    exact hi.chain b hb
  · rw [hi.chainOf_eq hb]
    exact hi.toBuckets.distinct b hb
  · rw [hu] at hui
    rw [hi.chainOf_eq hb, hi.members b hb i]
    exact ⟨fun hm => hm.2.symm, fun he => ⟨hui, he.symm⟩⟩
  · rw [hf] at hfi
    rw [hi.chainOf_eq hb]
    exact fun hm => hi.not_mem_of_free hfi (hi.used hb hm)

/-- Every history of operations keeps both lists and all chains intact. -/
theorem run_wellFormed {tr : List (Op V K × Res)} (h : Run T numnode tr m) :
    WellFormed T (getNextPrime numnode) m :=
  (run_valid h).wellFormed

/-- Natural numbers as their own keys and hashes. -/
def natParams : Params Nat Nat where
  hashFun := id
  extractKey := id
  equalKey := fun a b => a == b
  washoutFun := id
  sizeofValue := 8
  equiv := ⟨fun a => by simp, fun h => by simpa using Eq.symm (by simpa using h), fun h h' => by
    simp only [beq_iff_eq] at *
    exact h.trans h'⟩
  hash_eq := fun a b h => by simpa using h
  washout_key := fun _ => rfl

/-- A mapping of zero bytes. -/
def zeroMem : Mem Nat where
  sizeOfMem := 0
  numOfNode := 0
  szFreenode := 0
  szUsenode := 0
  szUseindex := 0
  hashFactor := fun _ => 0
  hashIndex := fun _ => 0
  idxNext := fun _ => 0
  idxPrev := fun _ => 0
  priority := fun _ => 0
  value := fun _ => 0
  washed := []

/-- A table that holds one element. -/
theorem run_nat (v prio : Nat) : ∃ r m pos, Run natParams 1 [(.insert v prio, r)] m ∧
    entries m = [⟨pos, v, prio⟩] := by
  have hstart : Ends (initializeTable natParams 1 false) zeroMem fun r m' => r = some () ∧
      Inv natParams (getNextPrime 1) [] (List.range (getNextPrime 1)) (fun _ => []) m' :=
    initializeTable_ends (by decide)
  obtain ⟨r, ws, hinit, rfl, hi⟩ := hstart
  have hstep : Refines natParams (getNextPrime 1) (.insert v prio)
      ((Op.insert v prio).run natParams 0) (replay ws zeroMem) := insert_refines hi
  obtain ⟨r, ws', hrun, hv, w, -, -, hins⟩ := hstep
  have hnone : entries (replay ws zeroMem) = [] := hi.entries_eq
  rw [hnone] at hins
  rcases hins with ⟨e, he, -⟩ | ⟨-, hadd⟩
  · cases he
  · have hpos : ¬ ([] : List (Entry Nat)).length = getNextPrime 1 := by decide
    rw [Added, if_neg hpos] at hadd
    obtain ⟨pos, -, -, -, hs⟩ := hadd
    exact ⟨r, _, pos, (Run.init hinit).step hrun, hs⟩

theorem run_wellFormed_nat : ∃ r m, Run natParams 1 [(.insert 7 5, r)] m ∧
    WellFormed natParams 53 m := by
  obtain ⟨r, m, pos, hrun, -⟩ := run_nat 7 5
  exact ⟨r, m, hrun, run_wellFormed hrun⟩

end Runs

/-! ## `washout`, `active_equal` and `mark_equal`

`washout` is exact where every element it has to pass is below the limit; anywhere
else it does not return. `active_equal` and `mark_equal` change the right elements,
but neither counts them, so what they return is right only when there are none.
 -/

section Exact

variable {V K : Type} {T : Params V K} {N numnode : Nat} {m : Mem V} {s : List (Entry V)}

/-! ## `washout` -/

/-- The row without the first `n` elements that are below `p`. -/
def withoutFirst (p : Nat) : Nat → List (Entry V) → List (Entry V)
  | 0, s => s
  | _ + 1, [] => []
  | n + 1, e :: s => if e.priority < p then withoutFirst p n s else e :: withoutFirst p (n + 1) s

/-- `washout` returns, the first `n` elements below `p` are gone and no others, and the
functor was called once on each of them, in use order. -/
def WashoutExact (T : Params V K) (p n : Nat) (m : Mem V) : Prop :=
  ∃ fuel ws, washout T fuel p n m = some ((), ws) ∧
    entries (replay ws m) = withoutFirst p n (entries m) ∧
    (replay ws m).washed =
      m.washed ++ (((entries m).filter (·.priority < p)).take n).map Entry.call

/-- Where the first `n` elements are below `p`, they are the ones to go. -/
theorem withoutFirst_take {p n : Nat} (h : ∀ e ∈ s.take n, e.priority < p) :
    withoutFirst p n s = s.drop n ∧ (s.filter (·.priority < p)).take n = s.take n := by
  induction s generalizing n with
  | nil => cases n <;> exact ⟨rfl, rfl⟩
  | cons e s ih =>
      cases n with
      | zero => exact ⟨rfl, rfl⟩
      | succ n =>
          rw [List.take_succ_cons, List.forall_mem_cons] at h
          obtain ⟨hdrop, htake⟩ := ih h.2
          refine ⟨?_, ?_⟩
          · rw [withoutFirst, if_pos h.1, hdrop, List.drop_succ_cons]
          · simp only [List.filter_cons, h.1, decide_true, if_true, List.take_succ_cons, htake]

theorem Valid.washout_iff (h : Valid T N m) {p n : Nat} :
    WashoutExact T p n m ↔ ∀ e ∈ (entries m).take n, e.priority < p := by
  constructor
  · rintro ⟨fuel, ws, hrun, -⟩
    by_contra hbad
    rw [washout_stuck h hbad fuel] at hrun
    cases hrun
  · intro hall
    obtain ⟨hdrop, htake⟩ := withoutFirst_take hall
    obtain ⟨u, ws, hrun, -, hw, hs⟩ := washout_ends h hall (Nat.lt_succ_self _)
    exact ⟨_, ws, hrun, by rw [hs, hdrop], by rw [hw, htake]⟩

/-- On every reached table `washout` is exact if and only if the elements it would pass
first are all below the limit. -/
theorem washout_exact_iff {tr : List (Op V K × Res)} (h : Run T numnode tr m) (p n : Nat) :
    WashoutExact T p n m ↔ ∀ e ∈ (entries m).take n, e.priority < p :=
  (run_valid h).washout_iff

theorem washout_exact_nat : ∃ r m, Run natParams 1 [(.insert 7 5, r)] m ∧
    WashoutExact natParams 6 1 m := by
  obtain ⟨r, m, pos, hrun, hs⟩ := run_nat 7 5
  exact ⟨r, m, hrun, (washout_exact_iff hrun 6 1).mpr (by simp [hs])⟩

/-- One element with priority 5 and the limit 5: `washout` never returns. -/
theorem washout_never_returns : ¬ ∀ r m, Run natParams 1 [(.insert 7 5, r)] m →
    WashoutExact natParams 5 1 m := by
  intro hall
  obtain ⟨r, m, pos, hrun, hs⟩ := run_nat 7 5
  have hbelow := (run_valid hrun).washout_iff.mp (hall r m hrun)
  rw [hs] at hbelow
  exact Nat.lt_irrefl 5 (hbelow ⟨pos, 7, 5⟩ (by simp))

/-! ## `active_equal` and `mark_equal` -/

/-- The elements with the key, with the new priority, are in front of the others, and
their number is returned. -/
def ActiveEqualExact (T : Params V K) (k : K) (prio : Nat) (m : Mem V) : Prop :=
  ∃ r ws, activeEqual T k prio m = some (r, ws) ∧ r = (entries m).countP (hasKey T k) ∧
    ∃ moved : List (Entry V), moved.Perm ((entries m).filter (hasKey T k)) ∧
      entries (replay ws m) =
        moved.map (Entry.mark prio) ++ (entries m).filter fun e => !hasKey T k e

/-- The elements with the key have the new priority in their places, and `true` is
returned when there are any. -/
def MarkEqualExact (T : Params V K) (k : K) (prio : Nat) (m : Mem V) : Prop :=
  ∃ r ws, markEqual T k prio m = some (r, ws) ∧
    (r = true ↔ ∃ e ∈ entries m, hasKey T k e = true) ∧
    entries (replay ws m) =
      (entries m).map fun e => if hasKey T k e then e.mark prio else e

theorem Valid.equal_iff (h : Valid T N m) {k : K} {prio : Nat} :
    (ActiveEqualExact T k prio m ∧ MarkEqualExact T k prio m) ↔
      ∀ e ∈ entries m, ¬ hasKey T k e = true := by
  obtain ⟨us, fs, ch, hi⟩ := h
  obtain ⟨ra, wa, hactive, rfl, -, -, hmoved⟩ := activeEqual_ends hi k prio
  obtain ⟨rm, wm, hmark, rfl, -, -, hplaces⟩ := markEqual_ends hi k prio
  constructor
  · rintro ⟨⟨r, ws, hrun, hcount, -⟩, -⟩
    rw [hactive] at hrun
    cases hrun
    exact List.countP_eq_zero.mp hcount.symm
  · intro hnone
    refine ⟨⟨0, wa, hactive, (List.countP_eq_zero.mpr hnone).symm, hmoved⟩,
      ⟨false, wm, hmark, ?_, hplaces⟩⟩
    simpa using hnone

/-- On every reached table the two functions do and return what they should if and only
if no element has the key. -/
theorem equal_exact_iff {tr : List (Op V K × Res)} (h : Run T numnode tr m) (k : K) (prio : Nat) :
    (ActiveEqualExact T k prio m ∧ MarkEqualExact T k prio m) ↔
      ∀ e ∈ entries m, ¬ hasKey T k e = true :=
  (run_valid h).equal_iff

theorem equal_exact_nat : ∃ r m, Run natParams 1 [(.insert 7 5, r)] m ∧
    ActiveEqualExact natParams 8 6 m ∧ MarkEqualExact natParams 8 6 m := by
  obtain ⟨r, m, pos, hrun, hs⟩ := run_nat 7 5
  refine ⟨r, m, hrun, (equal_exact_iff hrun 8 6).mpr ?_⟩
  rw [hs]
  simp [hasKey, natParams]

/-- One element with the key 7: `active_equal` returns 0 and `mark_equal` `false`. -/
theorem equal_not_counted : ¬ ∀ r m, Run natParams 1 [(.insert 7 5, r)] m →
    ActiveEqualExact natParams 7 6 m ∧ MarkEqualExact natParams 7 6 m := by
  intro hall
  obtain ⟨r, m, pos, hrun, hs⟩ := run_nat 7 5
  have hnone := (run_valid hrun).equal_iff.mp (hall r m hrun)
  rw [hs] at hnone
  exact hnone ⟨pos, 7, 5⟩ (by simp) rfl

end Exact

end Jump.MemPool.LruHash
