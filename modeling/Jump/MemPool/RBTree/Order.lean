import Jump.MemPool.RBTree.Refine
import Jump.Core.Word

/-! # Order statistics

`get_iter_by_order` descends and `get_order` climbs; both count with the cached
`size_` fields, in `int`.
-/

namespace Jump.MemPool.RBTree

open Jump.Core Jump.Core.ColoredTree Jump.Core.Ctx Prog

section Code

variable {V : Type}

/-- `r += n` for an `int` and a `size_t`. -/
def addSize (r : Int) (n : Nat) : Int := toInt (u64 (sizeOfInt r + n))

/-- `if (pos != INVALID_POINT) r += size(pos)` -/
def addSizeOf (r : Int) (pos : Nat) : Act V Int := do
  if pos ≠ INVALID_POINT then return addSize r (← size pos) else return r

def ithnodeTurn : Nat × Int → Act V ((Nat × Int) ⊕ Nat) := fun (x, num) => do
  if x ≠ INVALID_POINT then
    let r ← addSizeOf 1 (← left x)
    if r = num then return .inr x
    else if r > num then return .inl (← left x, num)
    else return .inl (← right x, num - r)
  else return .inr INVALID_POINT

def getIthnode (num : Int) : Act V Nat := do
  let x ← root
  if num ≤ 0 then return INVALID_POINT
  else if x = INVALID_POINT then return INVALID_POINT
  else if num > toInt (← size x) then return INVALID_POINT
  else loop ithnodeTurn (← turns) (x, num)

def ithnumTurn : Nat × Int → Act V ((Nat × Int) ⊕ Int) := fun (x, num) => do
  if x ≠ (← root) then
    let y ← parent x
    if x = (← right y) then return .inl (y, ← addSizeOf (num + 1) (← left y))
    else return .inl (y, num)
  else return .inr num

def getIthnum (pos : Nat) : Act V Int := do
  let num ← addSizeOf 1 (← left pos)
  loop ithnumTurn (← turns) (pos, num)

def getIterByOrder (order : Int) : Act V Nat := do
  let x ← getIthnode order
  if x = INVALID_POINT then endIt else return x

variable {K : Type} (T : Params V K)

def findIfExist (pos : Nat) : Act V Bool := do
  let first ← lowerBound T (← key T pos)
  let last ← upperBound T (← key T pos)
  loop (fun t => do
    if t ≠ last then
      if t = pos then return .inr true else return .inl (← increment t)
    else return .inr (t = pos : Bool)) (← turns) first

def getOrder (pos : Nat) (ignoreCheck : Bool) : Act V Int := do
  let found ← (if ignoreCheck then return true else findIfExist T pos : Act V Bool)
  if found then getIthnum pos else return 0

end Code

variable {V K : Type} {T : Params V K} {N : Nat} {m : Mem V} {t : ColoredTree Nat} {free : List Nat}

/-! ## Counting -/

theorem addSize_of_lt {r : Int} {n : Nat} (nonneg : 0 ≤ r) (fits : r + n < 2 ^ 31) :
    addSize r n = r + n := by
  obtain ⟨k, rfl⟩ := Int.eq_ofNat_of_zero_le nonneg
  have hk : sizeOfInt (k : Int) = k := by
    unfold sizeOfInt
    omega
  rw [addSize, hk, u64_of_lt (by omega), toInt_of_lt (by omega)]
  omega

theorem addSizeOf_ends {s : ColoredTree Nat} {r : Int} (sized : Sized m s)
    (valid : INVALID_POINT ∉ s.toList) (nonneg : 0 ≤ r) (fits : r + s.card < 2 ^ 31)
    {Q : Int → Mem V → Prop} : Ends (addSizeOf r (ptr s)) m Q ↔ Q (r + s.card) m := by
  cases s with
  | leaf => simp [addSizeOf]
  | node c l i u =>
      have hi : i ≠ INVALID_POINT := fun he => valid (by simp [he])
      have hsize : m.size i = l.card + u.card + 1 := sized.1
      rw [card_node] at fits
      simp only [addSizeOf, ptr_node, ne_eq, hi, not_false_eq_true, if_true, size, ends_bind,
        ends_read, ends_pure]
      rw [hsize, addSize_of_lt nonneg fits, card_node]

/-! ## Down to an element -/

/-- Turn by turn the place looked for is counted from the left end of the subtree. -/
theorem ithnodeTurn_ends {k : Ctx Nat} {s : ColoredTree Nat} {num : Int} (hh : Holds m N k s)
    (low : 1 ≤ num) (high : num ≤ s.card) (fits : s.card < 2 ^ 31) :
    Ends (ithnodeTurn (ptr s, num)) m fun r m' => m' = m ∧ r.elim
      (fun xn : Nat × Int => ∃ (k' : Ctx Nat) (s' : ColoredTree Nat), plug k' s' = plug k s ∧
        Holds m N k' s' ∧ xn.1 = ptr s' ∧ 1 ≤ xn.2 ∧ xn.2 ≤ s'.card ∧
        xn.2 + (before k').length = num + (before k).length ∧ s'.card < s.card)
      fun x => (plug k s).toList[(num + (before k).length - 1).toNat]? = some x := by
  cases s with
  | leaf =>
      rw [card_leaf] at high
      omega
  | node c l i u =>
      have hi : i ≠ INVALID_POINT := hh.toFocus.ptr_ne (by simp)
      obtain ⟨-, -, hl, hr, -, -⟩ := hh.sub
      have hleft : Holds m N (⟨.left, c, i, u⟩ :: k) l := holds_up_iff.mpr hh
      have hright : Holds m N (⟨.right, c, i, l⟩ :: k) u := holds_up_iff.mpr hh
      rw [card_node] at high fits
      simp only [ithnodeTurn, ptr_node, ne_eq, hi, not_false_eq_true, if_true, left, right, child,
        ends_bind, ends_read, ends_ite, ends_pure, hl]
      rw [addSizeOf_ends hleft.sized hleft.invalid_not_mem (by omega) (by omega)]
      by_cases heq : 1 + (l.card : Int) = num
      · rw [if_pos heq]
        refine ⟨rfl, ?_⟩
        have hidx : (num + (before k).length - 1).toNat = (before k ++ l.toList).length := by
          rw [List.length_append]
          simp only [card] at heq
          omega
        have hlist : (plug k (node c l i u)).toList =
            (before k ++ l.toList) ++ i :: (u.toList ++ after k) := by
          simp [toList_plug]
        rw [Sum.elim_inr, hidx, hlist, List.getElem?_append_right (Nat.le_refl _), Nat.sub_self]
        rfl
      · rw [if_neg heq]
        by_cases hgt : 1 + (l.card : Int) > num
        · rw [if_pos hgt]
          refine ⟨rfl, _, l, rfl, hleft, hl, low, by simp; omega, rfl, ?_⟩
          rw [card_node]
          omega
        · rw [if_neg hgt]
          refine ⟨rfl, _, u, rfl, hright, hr, by simp; omega, by simp; omega, ?_, ?_⟩
          · simp only [before, List.length_append, List.length_singleton]
            simp only [card]
            omega
          · rw [card_node]
            omega

theorem getIthnode_ends (hi : Inv T N m t free) (fits : t.card < 2 ^ 31) (num : Int) :
    Ends (getIthnode num) m fun x m' => m' = m ∧
      if 1 ≤ num ∧ num ≤ t.card then t.toList[(num - 1).toNat]? = some x
      else x = INVALID_POINT := by
  have hroot : m.parent N = ptr t := hi.ctx
  simp only [getIthnode, root, size, turns, ends_bind, ends_read, ends_ite, ends_pure, hi.header,
    hroot]
  by_cases hlow : num ≤ 0
  · rw [if_pos hlow, if_neg (by omega)]
    exact ⟨trivial, trivial⟩
  · rw [if_neg hlow]
    by_cases hleaf : t = leaf
    · subst hleaf
      rw [if_pos ptr_leaf, if_neg (by simp; omega)]
      exact ⟨trivial, trivial⟩
    · rw [if_neg (hi.ptr_ne hleaf)]
      have hsize : m.size (ptr t) = t.card := by
        cases t with
        | leaf => exact absurd rfl hleaf
        | node c l i u => rw [ptr_node, card_node, hi.sized.1]
      rw [hsize, toInt_of_lt fits]
      by_cases hhigh : num > t.card
      · rw [if_pos hhigh, if_neg (by omega)]
        exact ⟨trivial, trivial⟩
      · have hin : 1 ≤ num ∧ num ≤ t.card := by omega
        rw [if_neg hhigh]
        simp only [hin, true_and, if_true]
        have hfuel := hi.card_le
        refine ends_loop (fun (j : Nat) (xn : Nat × Int) m' => m' = m ∧
          ∃ (k : Ctx Nat) (s : ColoredTree Nat), plug k s = t ∧ Holds m N k s ∧ xn.1 = ptr s ∧
            1 ≤ xn.2 ∧ xn.2 ≤ s.card ∧ xn.2 + (before k).length = num ∧ j = s.card) ?_
          (k := t.card) ⟨rfl, [], t, rfl, hi.toHolds, rfl, hin.1, hin.2, by simp [before], rfl⟩
          (by omega)
        rintro j ⟨x, num'⟩ m' ⟨rfl, k, s, hplug, hh, hx, hlow', hhigh', hnum, rfl⟩
        simp only at hx hlow' hhigh' hnum
        have hcard : s.card ≤ t.card := by
          rw [← hplug, card_plug]
          omega
        rw [hx]
        refine (ithnodeTurn_ends hh hlow' hhigh' (by omega)).mono fun r m'' h => ?_
        obtain ⟨rfl, hr⟩ := h
        cases r with
        | inl xn =>
            obtain ⟨k', s', hplug', hh', hx', hl', hh'', hnum', hlt⟩ := hr
            exact ⟨s'.card, hlt, rfl, k', s', hplug'.trans hplug, hh', hx', hl', hh'',
              hnum'.trans hnum, rfl⟩
        | inr x =>
            refine ⟨rfl, ?_⟩
            rw [Sum.elim_inr, hplug, hnum] at hr
            exact hr

/-! ## Up from an element -/

/-- Turn by turn the count is that of the elements from the left end of the subtree. -/
theorem ithnumTurn_ends {k : Ctx Nat} {s : ColoredTree Nat} {num : Int} (hh : Holds m N k s)
    (hs : s ≠ leaf) (nonneg : 0 ≤ num) (fits : num + (before k).length < 2 ^ 31) :
    Ends (ithnumTurn (ptr s, num)) m fun r m' => m' = m ∧
      match k with
      | [] => r = .inr num
      | f :: k => ∃ num', r = .inl (f.label, num') ∧ 0 ≤ num' ∧
          num' + (before k).length = num + (before (f :: k)).length := by
  have hroot := hh.toFocus.ptr_eq_root_iff
  rw [← hh.header] at hroot
  simp only [ithnumTurn, root, parent, left, right, child, ends_bind, ends_read, ends_ite,
    ends_pure]
  cases k with
  | nil =>
      rw [if_neg (not_not.mpr (hroot.mpr rfl))]
      exact ⟨trivial, trivial⟩
  | cons f k =>
      have hpar : m.parent (ptr s) = f.label := by
        cases s with
        | leaf => exact absurd rfl hs
        | node c l i u => exact hh.sub.1
      have hside := hh.toFocus.child_eq_ptr_iff hs .right
      have hsib := holds_sibling_iff.mp hh
      rw [if_pos fun he => List.cons_ne_nil f k (hroot.mp he), hpar]
      obtain ⟨d, c, a, sib⟩ := f
      cases d with
      | left =>
          rw [if_neg fun he => Dir.noConfusion (hside.mp he.symm)]
          exact ⟨trivial, num, rfl, nonneg, rfl⟩
      | right =>
          rw [if_pos (hside.mpr rfl).symm]
          have hchild : m.child .left a = ptr sib := hh.ctx.2.2.2.1
          simp only [before, List.length_append, List.length_singleton] at fits
          rw [hchild, addSizeOf_ends hsib.sized hsib.invalid_not_mem (by omega)
            (by simp only [card]; omega)]
          refine ⟨rfl, _, rfl, by omega, ?_⟩
          simp only [before, List.length_append, List.length_singleton, card]
          omega

theorem getIthnum_ends {k : Ctx Nat} {c : Color} {l u : ColoredTree Nat} {i : Nat}
    (hh : Holds m N k (node c l i u)) (hcard : (plug k (node c l i u)).card ≤ N)
    (fits : (plug k (node c l i u)).card < 2 ^ 31) :
    Ends (getIthnum i) m fun num m' => m' = m ∧
      num = (before k).length + l.card + 1 := by
  have hlen := Focus.length_le hcard
  have hall := card_plug k (node c l i u)
  rw [card_node, labels, List.length_append] at hall
  have hleft : Holds m N (⟨.left, c, i, u⟩ :: k) l := holds_up_iff.mpr hh
  have hl : m.child .left i = ptr l := hh.sub.2.2.1
  simp only [getIthnum, left, child, turns, ends_bind, ends_read, hl]
  rw [addSizeOf_ends hleft.sized hleft.invalid_not_mem (by omega) (by omega)]
  simp only [hh.header]
  refine ends_loop (fun (j : Nat) (xn : Nat × Int) m' => m' = m ∧
    ∃ (k' : Ctx Nat) (s : ColoredTree Nat), Holds m N k' s ∧ s ≠ leaf ∧ xn.1 = ptr s ∧ 0 ≤ xn.2 ∧
      xn.2 + (before k').length = (before k).length + l.card + 1 ∧ j = k'.length) ?_
    (k := k.length) ⟨rfl, k, _, hh, by simp, rfl, by simp; omega, by simp; omega, rfl⟩ (by omega)
  rintro j ⟨x, num⟩ m' ⟨rfl, k', s, hh', hs, hx, hnum, hsum, rfl⟩
  simp only at hx hnum hsum
  rw [hx]
  refine (ithnumTurn_ends hh' hs hnum (by omega)).mono fun r m'' h => ?_
  obtain ⟨rfl, hr⟩ := h
  cases k' with
  | nil =>
      rw [hr]
      refine ⟨rfl, ?_⟩
      simpa [before] using hsum
  | cons f k' =>
      obtain ⟨num', rfl, hnum', hsum'⟩ := hr
      refine ⟨k'.length, by simp, rfl, k', _, holds_up_iff.mp hh', ?_, by simp,
        hnum', by omega, rfl⟩
      cases f.dir <;> simp [join]

/-- The position of a live element is counted from 1. -/
theorem getIthnum_rank (hi : Inv T N m t free) (fits : t.card < 2 ^ 31) {xs ys : List Nat}
    {i : Nat} (hseq : t.toList = xs ++ i :: ys) :
    Ends (getIthnum i) m fun num m' => m' = m ∧ num = xs.length + 1 := by
  obtain ⟨k, c, l, r, rfl, hh, rfl, -⟩ := hi.focus hseq
  refine (getIthnum_ends hh hi.card_le fits).mono fun num m' h => ?_
  obtain ⟨rfl, rfl⟩ := h
  refine ⟨rfl, ?_⟩
  rw [List.length_append, card]
  omega

/-! ## The membership test -/

/-- The walk over a range finds the iterator in it or at its end. -/
theorem findIfExist_loop {xs ys zs : List Nat} {pos : Nat} (hi : Inv T N m t free)
    (hseq : t.toList = xs ++ (ys ++ zs)) :
    Ends (loop (fun t => do
      if t ≠ startOf N zs then
        if t = pos then return .inr true else return .inl (← increment t)
      else return .inr (t = pos : Bool) : Nat → Act V (Nat ⊕ Bool)) (N + 3)
      (startOf N (ys ++ zs))) m fun b m' => m' = m ∧
        (b = true ↔ pos ∈ ys ∨ pos = startOf N zs) := by
  have hlen : ys.length ≤ N := by
    have hc := hi.card_le
    have hl := congrArg List.length hseq
    simp only [List.length_append] at hl
    simp only [card] at hc
    omega
  refine ends_loop (fun j p m' => m' = m ∧ ∃ xs' ys', t.toList = xs' ++ (ys' ++ zs) ∧
    p = startOf N (ys' ++ zs) ∧ (pos ∈ ys ↔ pos ∈ ys') ∧ j = ys'.length) ?_
    (k := ys.length) ⟨rfl, xs, ys, hseq, rfl, Iff.rfl, rfl⟩ (by omega)
  rintro j p m' ⟨rfl, xs', ys', hseq', rfl, hmem, rfl⟩
  have hne := start_ne hi hseq'
  simp only [ends_ite, ends_bind, ends_pure]
  cases ys' with
  | nil =>
      rw [if_neg fun h => hne.mp h rfl]
      refine ⟨trivial, ?_⟩
      rw [hmem]
      simp [eq_comm]
  | cons y ys' =>
      rw [if_pos (hne.mpr (by simp))]
      have hstart : startOf N (y :: ys' ++ zs) = y := rfl
      rw [hstart]
      by_cases hy : y = pos
      · rw [if_pos hy]
        refine ⟨trivial, ?_⟩
        rw [hmem, hy]
        simp
      · rw [if_neg hy]
        refine increment_next hi hseq' ?_
        refine ⟨ys'.length, by simp, rfl, xs' ++ [y], ys', by simp [hseq'], rfl, ?_, rfl⟩
        rw [hmem, List.mem_cons]
        exact or_iff_right fun he => hy he.symm

/-- The test says yes at a live element, and at `end()` when no key is greater than the
key of the header's data. -/
theorem findIfExist_ends (hi : Inv T N m t free) (pos : Nat) :
    Ends (findIfExist T pos) m fun b m' => m' = m ∧ (b = true ↔ pos ∈ t.toList ∨
      (pos = N ∧ ∀ i ∈ t.toList, ¬ T.compareKey (keyAt T m N) (keyAt T m i) = true)) := by
  obtain ⟨xs, ys, zs, hseq, hx, hy, hz, hlow, hup⟩ := three_parts hi (keyAt T m pos)
  simp only [findIfExist, key, value, turns, ends_bind, ends_read, ends_pure]
  refine lowerBound_ends hi (upperBound_ends hi ?_)
  simp only [keyAt] at hlow hup
  simp only [hi.header]
  rw [hlow, hup]
  refine (findIfExist_loop hi hseq).mono fun b m' h => ?_
  obtain ⟨rfl, hb⟩ := h
  refine ⟨rfl, hb.trans ?_⟩
  have hself : ∀ k : K, ¬ T.compareKey k k = true := lt_irrefl_of_weak
  constructor
  · rintro (hmem | hend)
    · refine Or.inl ?_
      rw [hseq]
      simp [hmem]
    · cases zs with
      | nil =>
          have hpos : pos = N := hend
          refine Or.inr ⟨hpos, fun i hi' hgt => ?_⟩
          rw [hseq, List.append_nil, List.mem_append] at hi'
          rcases hi' with hi' | hi'
          · have hless := hx i hi'
            rw [hpos] at hless
            exact hself _ (IsTrans.trans (r := fun a b => T.compareKey a b = true) _ _ _ hless hgt)
          · have heq := hy i hi'
            rw [hpos] at heq
            simp [equalKey, hgt] at heq
      | cons z zs =>
          have hpos : pos = z := hend
          exact absurd (hz z (by simp)) (by rw [hpos]; exact hself _)
  · rintro (hmem | ⟨rfl, hall⟩)
    · rw [hseq, List.mem_append, List.mem_append] at hmem
      rcases hmem with hmem | hmem | hmem
      · exact absurd (hx pos hmem) (hself _)
      · exact Or.inl hmem
      · exact absurd (hz pos hmem) (hself _)
    · refine Or.inr ?_
      cases zs with
      | nil => rfl
      | cons z zs => exact absurd (hz z (by simp)) (hall z (by rw [hseq]; simp))

/-! ## Positions -/

theorem getOrder_live (hi : Inv T N m t free) (fits : t.card < 2 ^ 31) {xs ys : List Nat}
    {i : Nat} (hseq : t.toList = xs ++ i :: ys) (ignoreCheck : Bool) :
    Ends (getOrder T i ignoreCheck) m fun num m' => m' = m ∧ num = xs.length + 1 := by
  have hrank := getIthnum_rank hi fits hseq
  have hmem : i ∈ t.toList := by rw [hseq]; simp
  rw [getOrder, ends_bind]
  cases ignoreCheck with
  | true => simpa using hrank
  | false =>
      refine (findIfExist_ends hi i).mono fun b m' h => ?_
      obtain ⟨rfl, hb⟩ := h
      rw [if_pos (hb.mpr (Or.inl hmem))]
      exact hrank

theorem getIterByOrder_ends (hi : Inv T N m t free) (fits : t.card < 2 ^ 31) (k : Int) :
    Ends (getIterByOrder k) m fun it m' => m' = m ∧
      if 1 ≤ k ∧ k ≤ t.card then t.toList[(k - 1).toNat]? = some it else it = N := by
  rw [getIterByOrder, ends_bind]
  refine (getIthnode_ends hi fits k).mono fun x m' h => ?_
  obtain ⟨rfl, hx⟩ := h
  simp only [endIt, header, ends_ite, ends_read, ends_pure, hi.header]
  by_cases hin : 1 ≤ k ∧ k ≤ t.card
  · simp only [hin, true_and, if_true] at hx ⊢
    have hmem : x ∈ t.toList := List.mem_of_getElem? hx
    have hlt := hi.mem_iff.mp (Or.inl hmem)
    have hsmall := hi.small
    rw [if_neg (by omega)]
    exact hx
  · simp only [if_neg hin] at hx ⊢
    rw [if_pos hx]
    exact ⟨trivial, trivial⟩

/-- Both directions of the order statistics against the sequence of the tree. -/
def OrderExact (T : Params V K) (m : Mem V) : Prop :=
  (∀ k : Int, -2 ^ 31 ≤ k → k < 2 ^ 31 → Ends (getIterByOrder k) m fun it m' => m' = m ∧
    if 1 ≤ k ∧ k ≤ (serials m).length then (serials m)[(k - 1).toNat]? = some it
    else it = m.numOfNode) ∧
  ∀ xs i ys, serials m = xs ++ i :: ys → ∀ ignoreCheck,
    Ends (getOrder T i ignoreCheck) m (fun num m' => m' = m ∧ num = xs.length + 1) ∧
    Ends (do getIterByOrder (← getOrder T i ignoreCheck)) m fun it m' => m' = m ∧ it = i

/-- Positions and elements correspond as long as their number is an `int`. -/
theorem order_exact {tr : List (Op V K × Res)} (pos : 1 ≤ N) (small : N < INVALID_POINT)
    (hrun : Run T N tr m) (fits : (serials m).length < 2 ^ 31) : OrderExact T m := by
  obtain ⟨⟨t, free, hi⟩, -⟩ := run_inv pos small hrun
  have hser := serials_eq hi
  rw [hser] at fits
  rw [OrderExact, hser, hi.header]
  refine ⟨fun k _ _ => getIterByOrder_ends hi fits k, fun xs i ys hseq ignoreCheck => ?_⟩
  have horder := getOrder_live hi fits hseq ignoreCheck
  refine ⟨horder, ?_⟩
  rw [ends_bind]
  refine horder.mono fun num m' h => ?_
  obtain ⟨rfl, rfl⟩ := h
  refine (getIterByOrder_ends hi fits _).mono fun it m' h => ?_
  obtain ⟨rfl, hit⟩ := h
  have hlen : xs.length + 1 ≤ t.card := by
    simp only [card, hseq, List.length_append, List.length_cons]
    omega
  have hidx : ((xs.length : Int) + 1 - 1).toNat = xs.length := by omega
  rw [if_pos (by omega), hidx, hseq, List.getElem?_append_right (Nat.le_refl _),
    Nat.sub_self] at hit
  exact ⟨rfl, (Option.some.inj hit).symm⟩

/-- A tree can be filled to any size up to its capacity. -/
theorem nat_fill {N n : Nat} (pos : 1 ≤ N) (small : N < INVALID_POINT) (le : n ≤ N) :
    ∃ tr m, Run natParams N tr m ∧ (serials m).length = n := by
  induction n with
  | zero =>
      have hinit : Ends (init natParams N false) zeroMem fun r m' =>
          r = .ret 0 ∧ Inv natParams N m' leaf (List.range N) := init_ends pos small
      obtain ⟨_, ws, h, rfl, hi⟩ := hinit
      exact ⟨_, _, .init h, by rw [serials_eq hi]; rfl⟩
  | succ n ih =>
      obtain ⟨tr, m, hrun, hlen⟩ := ih (by omega)
      obtain ⟨⟨t, free, hi⟩, -⟩ := run_inv pos small hrun
      have ha : (Op.insertEqual 0 : Op Nat Nat).Admissible m := trivial
      obtain ⟨r, ws, hop, hi', i, -, hseq⟩ := step_ends hi pos _ ha
      refine ⟨_, _, hrun.step ha hop, ?_⟩
      have hcells : ∀ m : Mem Nat, (cells m).length = (serials m).length := fun m =>
        List.length_map _
      rw [SeqInsert, if_neg (by rw [hcells, hlen]; omega)] at hseq
      obtain ⟨-, -, hseq⟩ := hseq
      rw [← hcells, hseq, insertUpper, List.length_append, List.length_cons, Nat.add_succ,
        ← List.length_append, List.takeWhile_append_dropWhile, hcells, hlen]

/-- With 2^31 elements `(int)size(root())` is negative and no order is found. -/
theorem order_overflow : ∃ tr m, Run natParams (2 ^ 31) tr m ∧ (serials m).length = 2 ^ 31 ∧
    ¬ OrderExact natParams m := by
  obtain ⟨tr, m, hrun, hlen⟩ := nat_fill (N := 2 ^ 31) (by decide) (by decide) (Nat.le_refl _)
  refine ⟨tr, m, hrun, hlen, fun hexact => ?_⟩
  obtain ⟨⟨t, free, hi⟩, -⟩ := run_inv (by decide) (by decide) hrun
  have hser := serials_eq hi
  have hroot : m.parent (2 ^ 31) = ptr t := hi.ctx
  have hcard : t.card = 2 ^ 31 := by rw [card, ← hser, hlen]
  have hleaf : t ≠ leaf := by
    rintro rfl
    cases hcard
  have hsize : m.size (ptr t) = 2 ^ 31 := by
    cases t with
    | leaf => exact absurd rfl hleaf
    | node c l i u => rw [ptr_node, hi.sized.1, ← card_node c l u i, hcard]
  have hneg : (1 : Int) > toInt (2 ^ 31) := by decide
  have hend : Ends (getIterByOrder 1) m fun it m' => m' = m ∧ it = 2 ^ 31 := by
    simp only [getIterByOrder, getIthnode, root, size, ends_bind, ends_read, ends_ite, ends_pure,
      hi.header, hroot, hsize, endIt, header]
    rw [if_neg (by decide), if_neg (hi.ptr_ne hleaf), if_pos hneg, if_pos trivial]
    exact ⟨trivial, trivial⟩
  obtain ⟨it, ws, -, ⟨-, hfirst⟩, -, rfl⟩ := (hexact.1 1 (by decide) (by decide)).and hend
  rw [if_pos (by rw [hlen]; decide), hser] at hfirst
  have hlt := hi.mem_iff.mp (Or.inl (List.mem_of_getElem? hfirst))
  omega

theorem order_exact_nat : ∃ tr m, Run natParams 3 tr m ∧ (serials m).length = 2 ∧
    OrderExact natParams m := by
  obtain ⟨tr, m, hrun, hlen⟩ := nat_fill (N := 3) (n := 2) (by decide) (by decide) (by decide)
  exact ⟨tr, m, hrun, hlen, order_exact (by decide) (by decide) hrun (by rw [hlen]; decide)⟩

end Jump.MemPool.RBTree
