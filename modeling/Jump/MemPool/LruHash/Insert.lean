import Jump.MemPool.LruHash.Invariant
import Mathlib.Data.List.Perm.Subperm

/-! # A fresh table, chains and insertion

`initialize` without `brestore` leaves every bucket empty and every node on the
free list, in index order, whatever the memory held before.

The search for a node, and the walk that remembers the link before it and takes the
node off the chain and the use list.

The elements are read off the use list. A new one goes to its front and either in
front of its chain or behind an element with its key.
-/

namespace Jump.MemPool.LruHash

open Jump.Core Prog

section Init

variable {V K : Type} {T : Params V K} {N : Nat} {m : Mem V} {w : List (Nat × V)}

/-! ## The prime list -/

theorem getNextPrime_mem (n : Nat) : getNextPrime n ∈ primesList := by
  rw [getNextPrime]
  cases h : primesList.find? (n ≤ ·) with
  | none => decide
  | some p => exact List.mem_of_find?_eq_some h

theorem primesList_range : ∀ p ∈ primesList, 0 < p ∧ p < INVALID_POINT := by decide

theorem primesList_fixed : ∀ p ∈ primesList, getNextPrime p = p := by decide

theorem getNextPrime_pos (n : Nat) : 0 < getNextPrime n :=
  (primesList_range _ (getNextPrime_mem n)).1

theorem getNextPrime_lt (n : Nat) : getNextPrime n < INVALID_POINT :=
  (primesList_range _ (getNextPrime_mem n)).2

theorem getNextPrime_idem (n : Nat) : getNextPrime (getNextPrime n) = getNextPrime n :=
  primesList_fixed _ (getNextPrime_mem n)

/-! ## The loop of `clear` -/

/-- The first `i` nodes are linked. -/
structure Cleared (N : Nat) (w : List (Nat × V)) (i : Nat) (m : Mem V) : Prop where
  num : m.numOfNode = N
  szFree : m.szFreenode = N
  szUse : m.szUsenode = 0
  useNext : m.idxNext N = N
  usePrev : m.idxPrev N = N
  factor : ∀ j < i, m.hashFactor j = INVALID_POINT
  next : ∀ j < i, m.idxNext j = if j = N - 1 then N + 1 else j + 1
  prev : ∀ j < i, m.idxPrev j = if j = 0 then N + 1 else j - 1
  freeNext : m.idxNext (N + 1) = if i = 0 then N + 1 else 0
  freePrev : m.idxPrev (N + 1) = if i = N then N - 1 else N + 1
  washed : m.washed = w

theorem wrapped_pred {i : Nat} (h : i ≠ 0) (hi : i < INVALID_POINT) :
    (i + INVALID_POINT) % 2 ^ 64 = i - 1 := by
  rw [INVALID_POINT] at *
  omega

theorem clearTurn_ends {i : Nat} (hi : i < N) (hN : N < INVALID_POINT) (h : Cleared N w i m) :
    Ends (clearTurn i) m fun _ m' => Cleared N w (i + 1) m' := by
  obtain ⟨h1, h2, h3, h4, h5, h6, h7, h8, h9, h10, h11⟩ := h
  have hiN : N ≠ i := by omega
  have hiN' : N + 1 ≠ i := by omega
  have hpred := fun h0 : i ≠ 0 => wrapped_pred h0 (by omega)
  rw [if_neg (Nat.ne_of_lt hi)] at h10
  simp only [clearTurn, linkFirst, linkLast, capacity, freeNode, LruHash.next, LruHash.prev,
    setNext, setPrev, setFactor, setIndex, setPriority, ends_bind, ends_read, ends_write,
    ends_ite, ends_pure, Mem.numOfNode_apply, Mem.idxNext_apply, Mem.idxPrev_apply, h1,
    if_neg hiN', h10]
  split_ifs with hf hl hl
  · constructor <;> simp <;> grind
  · constructor <;> simp <;> grind
  · constructor <;> simp <;> grind
  · constructor <;> simp <;> grind

theorem row_linked {next prev : Nat → Nat} {k n s : Nat}
    (fwd : ∀ j < k + n, next j = if j = k + n - 1 then s else j + 1)
    (back : ∀ j < k + n, prev j = if j = 0 then s else j - 1) (close : prev s = k + n - 1)
    (hk : 0 < k) : Linked next prev (k - 1) (List.range' k n) s := by
  induction n generalizing k with
  | zero =>
      have hlast : k - 1 = k + 0 - 1 := by omega
      refine ⟨?_, close⟩
      rw [fwd (k - 1) (by omega), if_pos hlast]
  | succ n ih =>
      have hstep : k - 1 ≠ k + (n + 1) - 1 := by omega
      have hrest := ih (k := k + 1)
        (fun j hj => by rw [fwd j (by omega), show k + (n + 1) = k + 1 + n by omega])
        (fun j hj => back j (by omega)) (by omega) (by omega)
      refine ⟨?_, ?_, hrest⟩
      · rw [fwd (k - 1) (by omega), if_neg hstep]
        omega
      · rw [back k (by omega), if_neg (by omega)]

/-- All nodes on the free list, in index order. -/
theorem Cleared.lists (h : Cleared N w N m) (hN : 0 < N) : Lists N [] (List.range N) m := by
  obtain ⟨n, rfl⟩ : ∃ n, N = n + 1 := ⟨N - 1, by omega⟩
  have hrange : List.range (n + 1) = 0 :: List.range' 1 n := by
    rw [List.range_eq_range', List.range'_succ]
  refine ⟨h.num, ⟨⟨h.useNext, h.usePrev⟩, ?_, ?_⟩, List.Perm.refl _, h.szUse, ?_⟩
  · have hnext := h.freeNext
    have hprev := h.prev 0 (by omega)
    have hclose := h.freePrev
    rw [if_neg (by omega)] at hnext
    rw [if_pos rfl] at hprev hclose
    rw [hrange]
    refine ⟨hnext, hprev, ?_⟩
    have hrow : Linked m.idxNext m.idxPrev (1 - 1) (List.range' 1 n) (n + 1 + 1) :=
      row_linked (fun j hj => by rw [h.next j (by omega), Nat.add_comm 1 n])
        (fun j hj => h.prev j (by omega)) (by rw [hclose, Nat.add_comm 1 n]) (by omega)
    exact hrow
  · have hd : (List.range (n + 1)).Nodup := List.nodup_range
    simp only [List.singleton_append, List.nodup_cons, List.mem_cons, List.mem_range]
    exact ⟨by omega, by omega, hd⟩
  · rw [h.szFree, List.length_range]

theorem clear_ends (hN : 0 < N) (hb : N < INVALID_POINT) (h : m.numOfNode = N) :
    Ends clear m fun _ m' =>
      Inv T N [] (List.range N) (fun _ => []) m' ∧ m'.washed = m.washed := by
  simp only [clear, capacity, useNode, freeNode, setNext, setPrev, setSzFreenode, setSzUsenode,
    ends_bind, ends_read, ends_write, Mem.numOfNode_apply, h]
  refine (ends_times (Cleared N m.washed) (fun j m' _ hj hc => ?_) ?_).mono fun _ m' hc => ?_
  · exact clearTurn_ends (by omega) hb hc
  · constructor <;> simp [h]
    omega
  · rw [Nat.zero_add] at hc
    refine ⟨⟨hc.lists hN, ⟨fun b hb => hc.factor b hb, fun b _ => List.nodup_nil,
      fun b _ i => by simp, fun b _ k => (leading_of_none (by simp)).block⟩, hN, hb⟩, hc.washed⟩

/-- `initialize` without `brestore`, on any memory. -/
theorem initializeTable_ends {numnode : Nat} (hn : numnode ≠ 0) :
    Ends (initializeTable T numnode false) m fun r m' => r = some () ∧
      Inv T (getNextPrime numnode) [] (List.range (getNextPrime numnode)) (fun _ => []) m' := by
  rw [initializeTable, if_neg hn]
  simp only [Bool.false_eq_true, false_and, if_false, capacity, ends_bind, ends_read, ends_write,
    ends_pure, getallocsize, getNextPrime_idem]
  exact (clear_ends (T := T) (getNextPrime_pos numnode) (getNextPrime_lt numnode) rfl).mono
    fun _ m' h => ⟨trivial, h.1⟩

end Init

/-! ## Walking a chain -/

section Chains

variable {V K : Type} {T : Params V K} {N : Nat} {us fs : List Nat} {ch : Nat → List Nat}
  {m m' : Mem V} {n b : Nat} {k : K} {xs ys : List Nat}

/-- What a link to the row `xs` holds. -/
def headOr (xs : List Nat) : Nat := xs.head?.getD INVALID_POINT

@[simp] theorem headOr_nil : headOr [] = INVALID_POINT := rfl

@[simp] theorem headOr_cons (x : Nat) (xs : List Nat) : headOr (x :: xs) = x := rfl

theorem chain_start {next : Nat → Nat} {p : Nat} (h : Chain next INVALID_POINT p xs) :
    p = headOr xs := by
  cases xs with
  | nil => exact h
  | cons x xs => exact h.1

namespace Inv

theorem factor_eq (h : Inv T N us fs ch m) (hb : b < N) : m.hashFactor b = headOr (ch b) :=
  chain_start (h.chain b hb)

theorem index_eq (h : Inv T N us fs ch m) (hb : b < N) (hn : ch b = xs ++ n :: ys) :
    m.hashIndex n = headOr ys := by
  have hc := h.chain b hb
  rw [hn, Chain.append_iff] at hc
  obtain ⟨q, -, -, hy⟩ := hc
  exact chain_start hy

theorem length_chain (h : Inv T N us fs ch m) (hb : b < N) : (ch b).length ≤ N := by
  have hsub : (ch b).Subperm us :=
    List.subperm_of_subset (h.toBuckets.distinct b hb) fun i hi => h.used hb hi
  have hsmall := h.small
  exact Nat.le_trans hsub.length_le (by omega)

end Inv

/-! ## Search -/

/-- A test that reads the memory only. -/
def Tests (test : Nat → Act V Bool) (p : Nat → Bool) (m : Mem V) : Prop :=
  ∀ i, Ends (test i) m fun r m' => r = p i ∧ m' = m

theorem holdsKey_tests : Tests (holdsKey T k) (nodeHasKey T m k) m := fun i => by
  simp only [holdsKey, value, ends_bind, ends_read, ends_pure]
  exact ⟨rfl, trivial⟩

/-- The first node of the chain that passes, or `INVALID_POINT`. -/
theorem search_ends (h : Inv T N us fs ch m) (hb : b < N) {test : Nat → Act V Bool}
    {p : Nat → Bool} (htest : Tests test p m) :
    Ends (search test b) m fun r m' => m' = m ∧
      ((r = INVALID_POINT ∧ ∀ i ∈ ch b, ¬ p i = true) ∨
        ∃ xs ys, ch b = xs ++ r :: ys ∧ p r = true ∧ ∀ i ∈ xs, ¬ p i = true) := by
  have hlen := h.length_chain hb
  rw [search, ends_bind]
  simp only [turns, factor, ends_read, ends_bind, h.num, h.factor_eq hb]
  refine ends_loop (fun (c : Nat) (first : Nat) m' => m' = m ∧ ∃ xs ys, ch b = xs ++ ys ∧
    first = headOr ys ∧ (∀ i ∈ xs, ¬ p i = true) ∧ c = ys.length) ?_
    ⟨rfl, [], ch b, rfl, rfl, by simp, rfl⟩ (by omega)
  rintro c first m' ⟨rfl, xs, ys, hch, rfl, hxs, rfl⟩
  cases ys with
  | nil =>
      simp only [headOr_nil, ne_eq, not_true_eq_false, if_false, ends_pure, Sum.elim_inr]
      rw [List.append_nil] at hch
      exact ⟨trivial, Or.inl ⟨trivial, hch ▸ hxs⟩⟩
  | cons n ys =>
      have hn : n ≠ INVALID_POINT := h.ne_invalid (h.used hb (by simp [hch]))
      simp only [headOr_cons, ne_eq, hn, not_false_eq_true, if_true, ends_bind]
      refine (htest n).mono fun r m₁ hr => ?_
      obtain ⟨rfl, rfl⟩ := hr
      by_cases hp : p n = true
      · simp only [hp, if_true, ends_pure, Sum.elim_inr]
        exact ⟨trivial, Or.inr ⟨xs, ys, hch, trivial, hxs⟩⟩
      · simp only [hp, Bool.false_eq_true, if_false, index, ends_bind, ends_read, ends_pure,
          Sum.elim_inl, h.index_eq hb hch]
        refine ⟨ys.length, by simp, trivial, xs ++ [n], ys, by simp [hch], rfl, fun i hi => ?_, rfl⟩
        rcases List.mem_append.mp hi with hi | hi
        · exact hxs i hi
        · rwa [List.mem_singleton.mp hi]

/-! ## Taking a node off its chain -/

/-- The elements and the calls of the washout functor are the same. -/
structure Kept (m m' : Mem V) : Prop where
  value : m'.value = m.value
  priority : m'.priority = m.priority
  washed : m'.washed = m.washed

theorem Kept.refl (m : Mem V) : Kept m m := ⟨rfl, rfl, rfl⟩

theorem Kept.trans {m'' : Mem V} (h : Kept m m') (h' : Kept m' m'') : Kept m m'' :=
  ⟨h'.value.trans h.value, h'.priority.trans h.priority, h'.washed.trans h.washed⟩

/-- The link behind `xs` leads past `n`. -/
structure Bypassed (N : Nat) (us fs : List Nat) (b n : Nat) (xs : List Nat) (m m' : Mem V) :
    Prop extends Kept m m', Lists N us fs m' where
  factor : ∀ i, m'.hashFactor i = if i = b ∧ xs = [] then m.hashIndex n else m.hashFactor i
  index : ∀ i, m'.hashIndex i = if xs.getLast? = some i then m.hashIndex n else m.hashIndex i

theorem bypass_ends (h : Inv T N us fs ch m) (hb : b < N) (hch : ch b = xs ++ n :: ys) {q : Nat}
    (hq : ∀ i, xs.getLast? = some i → q = i) :
    Ends (bypass b q n) m fun _ m' => Bypassed N us fs b n xs m m' := by
  have hd := h.toBuckets.distinct b hb
  rw [hch] at hd
  simp only [bypass, factor, index, setFactor, setIndex, ends_bind, ends_read, ends_ite,
    ends_write, h.factor_eq hb, hch]
  cases hl : xs.getLast? with
  | none =>
      obtain rfl := List.getLast?_eq_none_iff.mp hl
      simp only [List.nil_append, headOr_cons, if_true]
      refine ⟨⟨rfl, rfl, rfl⟩, ⟨h.num, h.rings, h.nodes, h.szUse, h.szFree⟩, fun i => ?_,
        fun i => ?_⟩
      · simp only [Mem.hashFactor_apply, and_true]
      · simp
  | some z =>
      obtain rfl := hq z hl
      have hne : n ≠ headOr (xs ++ n :: ys) := by
        cases xs with
        | nil => cases hl
        | cons x xs =>
            intro he
            have hx : n = x := he
            exact (List.nodup_cons.mp (List.perm_middle.nodup_iff.mp hd)).1 (by simp [hx])
      have hxs : xs ≠ [] := List.ne_nil_of_mem (List.mem_of_getLast? hl)
      rw [if_neg hne]
      refine ⟨⟨rfl, rfl, rfl⟩, ⟨h.num, h.rings, h.nodes, h.szUse, h.szFree⟩, by simp [hxs],
        fun i => ?_⟩
      simp [hl, eq_comm]

/-- A bypassed node is freed. -/
theorem destroy_ends (h : Inv T N us fs ch m) (hb : b < N) (hch : ch b = xs ++ n :: ys)
    {l r : List Nat} (hu : us = l ++ n :: r) {m₁ : Mem V} (hby : Bypassed N us fs b n xs m m₁) :
    Ends (destroyNode n) m₁ fun _ m' => Kept m m' ∧
      Inv T N (l ++ r) (n :: fs) (Function.update ch b (xs ++ ys)) m' := by
  subst hu
  refine (destroyNode_ends hby.toLists).mono fun _ m' h' => ?_
  obtain ⟨hlists, hindex, hfactor, hprio, hvalue, hwashed⟩ := h'
  have hkept : Kept m m' := hby.toKept.trans ⟨hvalue, hprio, hwashed⟩
  have hn := (List.nodup_cons.mp (List.perm_middle.nodup_iff.mp h.toLists.distinct)).1
  refine ⟨hkept, hlists, h.unlink hb hch (fun i => ?_) (fun i => ?_) (fun i hi => ?_)
    hkept.value, h.pos, h.bound⟩
  · by_cases hi : i = n
    · subst hi
      simp [hn]
    · simp [hi]
  · rw [hfactor, hby.factor]
  · rw [hindex, if_neg hi, hby.index]

/-- The first node of the chain that passes is erased. -/
theorem eraseFirst_ends (h : Inv T N us fs ch m) (hb : b < N) {test : Nat → Act V Bool}
    {p : Nat → Bool} (htest : Tests test p m) :
    Ends (eraseFirst test b) m fun r m' => Kept m m' ∧
      ((r = false ∧ m' = m ∧ ∀ i ∈ ch b, ¬ p i = true) ∨
        ∃ n l r', r = true ∧ p n = true ∧ n ∈ ch b ∧ us = l ++ n :: r' ∧
          ∃ ch', Inv T N (l ++ r') (n :: fs) ch' m') := by
  have hlen := h.length_chain hb
  rw [eraseFirst, ends_bind]
  simp only [turns, factor, ends_read, ends_bind, h.num, h.factor_eq hb]
  refine ends_loop (fun (c : Nat) (at_ : Nat × Nat) m' => m' = m ∧ ∃ xs ys, ch b = xs ++ ys ∧
    at_.2 = headOr ys ∧ (∀ i, xs.getLast? = some i → at_.1 = i) ∧ (∀ i ∈ xs, ¬ p i = true) ∧
      c = ys.length) ?_ ⟨rfl, [], ch b, rfl, rfl, by simp, by simp, rfl⟩ (by omega)
  rintro c ⟨q, first⟩ m' ⟨rfl, xs, ys, hch, rfl, hq, hxs, rfl⟩
  cases ys with
  | nil =>
      simp only [headOr_nil, ne_eq, not_true_eq_false, if_false, ends_pure, Sum.elim_inr]
      rw [List.append_nil] at hch
      exact ⟨Kept.refl _, Or.inl ⟨trivial, trivial, hch ▸ hxs⟩⟩
  | cons n ys =>
      have hused : n ∈ us := h.used hb (by simp [hch])
      have hn : n ≠ INVALID_POINT := h.ne_invalid hused
      simp only [headOr_cons, ne_eq, hn, not_false_eq_true, if_true, ends_bind]
      refine (htest n).mono fun r m₁ hr => ?_
      obtain ⟨rfl, rfl⟩ := hr
      by_cases hp : p n = true
      · simp only [hp, if_true, ends_bind, ends_pure, Sum.elim_inr]
        refine (bypass_ends h hb hch hq).mono fun _ m₂ hby => ?_
        obtain ⟨l, r', hu⟩ := List.append_of_mem hused
        refine (destroy_ends h hb hch hu hby).mono fun _ m₃ h₃ => ?_
        exact ⟨h₃.1, Or.inr ⟨n, l, r', trivial, hp, by simp [hch], hu, _, h₃.2⟩⟩
      · simp only [hp, Bool.false_eq_true, if_false, index, ends_bind, ends_read, ends_pure,
          Sum.elim_inl, h.index_eq hb hch]
        refine ⟨ys.length, by simp, trivial, xs ++ [n], ys, by simp [hch], rfl, by simp,
          fun i hi => ?_, rfl⟩
        rcases List.mem_append.mp hi with hi | hi
        · exact hxs i hi
        · rwa [List.mem_singleton.mp hi]

end Chains

/-! ## Insertion -/

section Insert

variable {V K : Type} {T : Params V K} {N : Nat} {us fs : List Nat} {ch : Nat → List Nat}
  {m m' : Mem V} {n b : Nat} {k : K} {v : V} {prio : Nat}

/-! ## The elements in use order -/

def entryOf (m : Mem V) (i : Nat) : Entry V := ⟨i, m.value i, m.priority i⟩

/-- The nodes that the use list passes. -/
def useList (m : Mem V) : List Nat :=
  follow m.idxNext m.numOfNode m.numOfNode (m.idxNext m.numOfNode)

def entries (m : Mem V) : List (Entry V) := (useList m).map (entryOf m)

theorem Lists.useList_eq (h : Lists N us fs m) : useList m = us := by
  have hsmall := h.small
  rw [useList, h.num]
  exact h.rings.left.chain.follow_eq (List.nodup_cons.mp h.rings.distinct_left).1 (by omega)

theorem Inv.entries_eq (h : Inv T N us fs ch m) : entries m = us.map (entryOf m) := by
  rw [entries, h.useList_eq]

theorem Kept.entryOf_eq (h : Kept m m') : entryOf m' = entryOf m := by
  funext i
  rw [entryOf, entryOf, h.value, h.priority]

theorem hasKey_entryOf {i : Nat} : hasKey T k (entryOf m i) = nodeHasKey T m k i := rfl

/-- Whether an element has the key is seen on the key's chain. -/
theorem Inv.any_hasKey (h : Inv T N us fs ch m) :
    (∀ e ∈ entries m, ¬ hasKey T k e = true) ↔
      ∀ i ∈ ch (T.hashFun k % N), ¬ nodeHasKey T m k i = true := by
  rw [h.entries_eq, List.forall_mem_map]
  constructor
  · exact fun hall i hi => hall i (h.used (Nat.mod_lt _ h.pos) hi)
  · exact fun hall i hi hk => hall i (h.mem_chain hi hk) hk

/-- A state of the table. -/
def Valid (T : Params V K) (N : Nat) (m : Mem V) : Prop := ∃ us fs ch, Inv T N us fs ch m

/-- The program is a step of the row. -/
def Refines (T : Params V K) (N : Nat) (op : Op V K) (x : Act V Res) (m : Mem V) : Prop :=
  Ends x m fun r m' => Valid T N m' ∧
    ∃ w, m'.washed = m.washed ++ w ∧ LruStep T N op (entries m) r w (entries m')

/-! ## A new element -/

/-- Where a new element goes on its chain. -/
def Place (T : Params V K) (N : Nat) (ch : Nat → List Nat) (m : Mem V) (v : V) (first : Nat) :
    Prop :=
  (first = INVALID_POINT ∧
      ∀ i ∈ ch (bucketOf T N v), ¬ nodeHasKey T m (T.extractKey v) i = true) ∨
    ∃ xs ys, ch (bucketOf T N v) = xs ++ first :: ys ∧
      nodeHasKey T m (T.extractKey v) first = true

/-- What is left to see once `n` is in use and on its chain. -/
theorem added_of (h : Inv T N us (n :: fs) ch m) {ch' : Nat → List Nat}
    (hl : Lists N (n :: us) fs m') (hb : Buckets T N (n :: us) ch' m')
    (value : ∀ i, m'.value i = if i = n then v else m.value i)
    (priority : ∀ i, m'.priority i = if i = n then prio else m.priority i) :
    Valid T N m' ∧ Added N v prio (entries m) (.iterNew n true) (entries m') := by
  have hi : Inv T N (n :: us) fs ch' m' := ⟨hl, hb, h.pos, h.bound⟩
  have hfresh : n ∉ us := h.not_mem_of_free List.mem_cons_self
  have hsmall := h.small
  simp only [List.length_cons] at hsmall
  refine ⟨⟨n :: us, fs, ch', hi⟩, ?_⟩
  rw [Added, if_neg, h.entries_eq, hi.entries_eq]
  · refine ⟨n, h.free_lt List.mem_cons_self, ?_, rfl, ?_⟩
    · simpa [entryOf, Function.comp_def] using hfresh
    · rw [List.map_cons, entryOf, value, priority, if_pos rfl, if_pos rfl]
      refine congrArg _ (List.map_congr_left fun i hiu => ?_)
      have hne : i ≠ n := fun he => hfresh (he ▸ hiu)
      rw [entryOf, entryOf, value, priority, if_neg hne, if_neg hne]
  · rw [h.entries_eq, List.length_map]
    omega

theorem place_ends (h : Inv T N us fs ch m) {first : Nat} (hplace : Place T N ch m v first) :
    Ends (placeNode (chainIn (bucketOf T N v) first) v prio) m fun r m' => Valid T N m' ∧
      m'.washed = m.washed ∧ Added N v prio (entries m) (.iterNew r.1 r.2) (entries m') := by
  have hb := h.bucket_lt v
  rw [placeNode, ends_bind]
  cases fs with
  | nil =>
      have hlen : (entries m).length = N := by
        have hsmall := h.small
        rw [h.entries_eq, List.length_map]
        simpa using hsmall
      refine (createNode_full h.toLists).mono fun r m₁ hr => ?_
      obtain ⟨rfl, rfl⟩ := hr
      simp only [if_true, ends_pure, Added, hlen]
      exact ⟨⟨us, [], ch, h⟩, trivial, trivial, trivial⟩
  | cons n fs =>
      have hfresh : n ∉ us := h.not_mem_of_free List.mem_cons_self
      have hn : n ≠ INVALID_POINT :=
        Nat.ne_of_lt (Nat.lt_trans (h.free_lt List.mem_cons_self) h.bound)
      refine (createNode_ends h.toLists).mono fun r m₁ hr => ?_
      obtain ⟨hrn, same, hl⟩ := hr
      rw [hrn, if_neg hn]
      rcases hplace with ⟨rfl, habsent⟩ | ⟨xs, ys, hch, hkey⟩
      · simp only [chainIn, if_true, chainFront, setIndex, setFactor, factor, setValue,
          setPriority, ends_bind, ends_read, ends_write, ends_pure]
        refine And.imp_right (fun hadd => ⟨same.washed, hadd⟩) (added_of h
          ⟨hl.num, hl.rings, hl.nodes, hl.szUse, hl.szFree⟩ (h.toBuckets.front hb rfl hfresh
            (fun i => ?_) habsent (fun i => ?_) fun i => ?_) (fun i => ?_) fun i => ?_)
        all_goals simp [same.value, same.factor, same.index, same.priority]
      · have hf : first ≠ INVALID_POINT := h.ne_invalid (h.used hb (by simp [hch]))
        have hfn : first ≠ n := fun he => hfresh (he ▸ h.used hb (by simp [hch]))
        simp only [chainIn, if_neg hf, chainBehind, setIndex, index, setValue, setPriority,
          ends_bind, ends_read, ends_write, ends_pure]
        refine And.imp_right (fun hadd => ⟨same.washed, hadd⟩) (added_of h
          ⟨hl.num, hl.rings, hl.nodes, hl.szUse, hl.szFree⟩ (h.toBuckets.behind hb rfl hfresh
            (fun i => ?_) hch hkey ?_ fun i => ?_) (fun i => ?_) fun i => ?_)
        · simp [same.value]
        · exact same.factor
        · simp [same.index]
        · simp [same.value]
        · simp [same.priority]

/-! ## The two insertions -/

theorem search_place (h : Inv T N us fs ch m) :
    Ends (search (holdsKey T (T.extractKey v)) (bucketOf T N v)) m fun first m' =>
      m' = m ∧ Place T N ch m v first :=
  (search_ends h (h.bucket_lt v) holdsKey_tests).mono fun _ _ hr =>
    ⟨hr.1, hr.2.imp_right fun ⟨xs, ys, hch, hkey, _⟩ => ⟨xs, ys, hch, hkey⟩⟩

theorem insertEqual_refines (h : Inv T N us fs ch m) :
    Refines T N (.insertEqual v prio) (do
      let (pos, inserted) ← insertEqual T v prio
      return .iterNew pos inserted) m := by
  simp only [Refines, insertEqual, bktNumValue, bktNumKey, capacity, ends_bind, ends_read,
    ends_pure, h.num]
  refine (search_place h).mono fun first m₁ hr => ?_
  obtain ⟨rfl, hplace⟩ := hr
  refine (place_ends h hplace).mono fun r m₂ hr => ?_
  exact ⟨hr.1, [], by rw [hr.2.1, List.append_nil], rfl, hr.2.2⟩

theorem insert_ends (h : Inv T N us fs ch m) :
    Ends (insert T v prio) m fun r m' => Valid T N m' ∧ m'.washed = m.washed ∧
      ((∃ e ∈ entries m, hasKey T (T.extractKey v) e = true ∧ r = (e.node, false) ∧
          entries m' = entries m) ∨
        (∀ e ∈ entries m, ¬ hasKey T (T.extractKey v) e = true) ∧
          Added N v prio (entries m) (.iterNew r.1 r.2) (entries m')) := by
  simp only [insert, bktNumValue, bktNumKey, capacity, ends_bind, ends_read, ends_pure, h.num]
  refine (search_place h).mono fun first m₁ hr => ?_
  obtain ⟨rfl, hplace⟩ := hr
  rcases hplace with ⟨rfl, habsent⟩ | ⟨xs, ys, hch, hkey⟩
  · have hlink : chainIn (V := V) (bucketOf T N v) INVALID_POINT = chainFront (bucketOf T N v) :=
      funext fun n => if_pos rfl
    rw [if_neg (by simp)]
    refine (hlink ▸ place_ends h (Or.inl ⟨rfl, habsent⟩)).mono fun r m₂ hr => ?_
    exact ⟨hr.1, hr.2.1, Or.inr ⟨h.any_hasKey.mpr habsent, hr.2.2⟩⟩
  · have hu : first ∈ us := h.used (h.bucket_lt v) (by simp [hch])
    rw [if_pos (h.ne_invalid hu)]
    refine ends_pure.mpr ⟨⟨us, fs, ch, h⟩, rfl, Or.inl ⟨entryOf m₁ first, ?_, hkey, rfl, rfl⟩⟩
    rw [h.entries_eq]
    exact List.mem_map_of_mem hu

theorem insert_refines (h : Inv T N us fs ch m) :
    Refines T N (.insert v prio) (do
      let (pos, inserted) ← insert T v prio
      return .iterNew pos inserted) m := by
  simp only [Refines, ends_bind, ends_pure]
  refine (insert_ends h).mono fun r m' hr => ?_
  obtain ⟨hv, hw, hins⟩ := hr
  refine ⟨hv, [], by rw [hw, List.append_nil], rfl, hins.imp_left ?_⟩
  rintro ⟨e, he, hk, rfl, hs⟩
  exact ⟨e, he, hk, rfl, hs⟩

end Insert

end Jump.MemPool.LruHash
