import Jump.MemPool.RBTree.Invariant

/-! # Removing elements

`erase` of one iterator, of a range, and by key. A range is given by where it
lies in the sequence of the tree.
-/

namespace Jump.MemPool.RBTree

open Jump.Core Jump.Core.ColoredTree Jump.Core.Ctx Prog

variable {V K : Type} {T : Params V K} {N : Nat} {m : Mem V} {t : ColoredTree Nat} {free : List Nat}

/-- Every live node is in focus with what comes before and after it. -/
theorem Inv.focus (hi : Inv T N m t free) {xs ys : List Nat} {i : Nat}
    (hseq : t.toList = xs ++ i :: ys) : ∃ k c l r, t = plug k (node c l i r) ∧
      Holds m N k (node c l i r) ∧ before k ++ l.toList = xs ∧ r.toList ++ after k = ys := by
  obtain ⟨k, c, l, r, rfl⟩ := exists_plug_of_mem (t := t) (a := i) (by rw [hseq]; simp)
  have hh : Holds m N k (node c l i r) := by
    have hp := holds_plug_iff.mpr hi.toHolds
    rwa [List.append_nil] at hp
  have hnd := (List.nodup_append.mp hi.nodup).1
  have hlist : (plug k (node c l i r)).toList =
      (before k ++ l.toList) ++ i :: (r.toList ++ after k) := by
    simp [toList_plug]
  rw [hlist] at hseq hnd
  rw [hseq] at hnd
  have hix : i ∉ xs := fun hm => (List.nodup_append.mp hnd).2.2 i hm i (by simp) rfl
  have hiy : i ∉ ys := by
    have hy := (List.nodup_append.mp hnd).2.1
    exact (List.nodup_cons.mp hy).1
  obtain ⟨h1, -, h2⟩ := (List.append_cons_inj_of_notMem hix hiy).mp hseq.symm
  obtain rfl := h1
  obtain rfl := h2
  exact ⟨k, c, l, r, rfl, hh, rfl, rfl⟩

/-- The invariant with node `i` moved from the tree to the free list. -/
theorem Inv.remove {t' : ColoredTree Nat} {z : V} {m₁ : Mem V} {xs ys : List Nat} {i : Nat}
    (hi : Inv T N m t free) (hseq : t.toList = xs ++ i :: ys) (kept : Kept m m₁)
    (hh : Holds m₁ N [] t') (balanced : ∃ n, Balanced t' n) (root : t'.color = .black)
    (hseq' : t'.toList = xs ++ ys) (edges : Edges m₁ N t'.toList)
    (links : ∀ j ∉ N :: i :: t'.toList, ∀ d, m₁.child d j = m.child d j) :
    Inv T N (freed z i m₁) t' (i :: free) := by
  have hnd := hi.nodup
  rw [hseq, List.append_assoc, List.cons_append] at hnd
  have hperm : (xs ++ i :: (ys ++ free)).Perm (i :: (xs ++ (ys ++ free))) := List.perm_middle
  obtain ⟨hnot, -⟩ := List.nodup_cons.mp (hperm.nodup_iff.mp hnd)
  rw [List.mem_append, List.mem_append, not_or, not_or] at hnot
  obtain ⟨hix, hiy, hif⟩ := hnot
  have hit : i ∉ t'.toList := by
    rw [hseq', List.mem_append, not_or]
    exact ⟨hix, hiy⟩
  have hmem : i ∈ t.toList := by rw [hseq]; simp
  have hiN : i < N := hi.mem_iff.mp (Or.inl hmem)
  have hold : ∀ j ∈ t'.toList, j ∈ t.toList := by
    intro j hj
    rw [hseq'] at hj
    rw [hseq]
    simp only [List.mem_append, List.mem_cons] at hj ⊢
    tauto
  have hdata : ∀ j, j ≠ i → (freed z i m₁).data j = m.data j := by
    intro j hj
    simp [freed, cleared, hj, kept.data]
  have huse : ∀ j, (freed z i m₁).useFlag j = if j = i then 0 else m.useFlag j := by
    intro j
    simp [freed, cleared, kept.useFlag]
  have hchild : ∀ j, j ≠ i → ∀ d, (freed z i m₁).child d j = m₁.child d j := by
    intro j hj d
    simp [freed, cleared, hj]
  have same : ∀ j, j ≠ i → SameAt m₁ (freed z i m₁) j := by
    intro j hj
    simp [SameAt, freed, cleared, hj]
  have hNi : N ≠ i := by omega
  have hcard : t.card = t'.card + 1 := by
    simp only [card, hseq, hseq', List.length_append, List.length_cons]
    omega
  refine ⟨⟨⟨⟨?_, ?_, ?_, hh.distinct⟩, ?_, trivial⟩, balanced, root, fun d => ?_, ?_⟩, ⟨?_, ?_⟩,
    ?_, ?_, ?_, fun j hj => ?_, fun j hj => ?_, ?_, hi.small⟩
  · have hn := hh.header
    simpa [freed, cleared] using hn
  · have hr := hh.ctx
    simp only [LinkedCtx] at hr ⊢
    simpa [freed, cleared, hNi] using hr
  · exact hh.sub.congr fun j hj => same j fun he => hit (he ▸ hj)
  · refine hh.sized.congr fun j hj => ?_
    have hji : j ≠ i := fun he => hit (he ▸ hj)
    simp [freed, cleared, hji]
  · rw [hchild N hNi]
    exact edges d
  · have hs := hi.sorted
    rw [hseq] at hs
    rw [hseq']
    have hsub : List.Sublist (xs ++ ys) (xs ++ i :: ys) :=
      List.Sublist.append_left (List.sublist_cons_self i ys) xs
    refine List.Pairwise.imp_of_mem (fun {a b} ha hb hab => ?_) (hs.sublist hsub)
    have hne : ∀ a ∈ xs ++ ys, a ≠ i := fun a ha he => by
      rw [he, ← hseq'] at ha
      exact hit ha
    simp only [keyAt, hdata a (hne a ha), hdata b (hne b hb)]
    exact hab
  · simp [freed]
  · have hhead : (freed z i m₁).child .right i = m.freeNodeList := by
      simp [freed, kept.freeNodeList]
    rw [hhead]
    refine hi.freeChain.congr fun j hj => ?_
    have hji : j ≠ i := fun he => hif (he ▸ hj)
    have hjf := hi.free_ne hj
    rw [hchild j hji, links j fun hm => ?_]
    simp only [List.mem_cons] at hm
    rcases hm with hm | hm | hm
    · omega
    · exact hji hm
    · exact hjf.2.2 (hold j hm)
  · have hnodes := hi.nodes
    rw [hseq] at hnodes
    rw [hseq']
    refine List.Perm.trans ?_ hnodes
    rw [List.append_assoc, List.append_assoc, List.cons_append]
    exact List.Perm.append_left _ List.perm_middle
  · have hs := kept.szUseNode
    have hu := hi.szUse
    simp only [freed, replay_cons, replay_nil, Mem.szUseNode_apply]
    omega
  · have hs := kept.szFreeNode
    have hf := hi.szFree
    simp only [freed, replay_cons, replay_nil, Mem.szFreeNode_apply, List.length_cons]
    omega
  · rw [huse, if_neg fun he : j = i => hit (he ▸ hj)]
    exact hi.used j (hold j hj)
  · rw [huse]
    by_cases he : j = i
    · rw [if_pos he]
    · rw [if_neg he]
      exact hi.unused j ((List.mem_cons.mp hj).resolve_left he)
  · have hc := kept.dirtyFlag
    have hclean := hi.clean
    simpa [freed, cleared] using hc.trans hclean

/-- `erase` at a live iterator removes that element and nothing else. -/
theorem erase_ends {z : V} {xs ys : List Nat} {i : Nat} (hi : Inv T N m t free)
    (hseq : t.toList = xs ++ i :: ys) : Ends (erase z i) m fun _ m' => ∃ t',
      Inv T N m' t' (i :: free) ∧ t'.toList = xs ++ ys ∧ ∀ j, j ≠ i → m'.data j = m.data j := by
  obtain ⟨k, c, l, r, rfl, hh, rfl, rfl⟩ := hi.focus hseq
  obtain ⟨n, hb⟩ := hi.balanced
  rw [erase, ends_bind]
  refine (rbTreeBalanceForErase_ends hh hi.edges hb hi.rootBlack hi.card_le hi.clean).mono ?_
  intro y m₁ h₁
  obtain ⟨rfl, hkept, t', n', hh', hb', hroot, hseq', hedges, hlinks⟩ := h₁
  refine freeNode_ends.mpr ⟨t', ?_, hseq', fun j hj => ?_⟩
  · exact hi.remove hseq hkept hh' ⟨n', hb'⟩ hroot hseq' hedges hlinks
  · simp [freed, cleared, hj, hkept.data]

/-! ## Ranges -/

/-- The serial of the iterator at the start of `ys`, when `ys` ends the sequence. -/
def startOf (N : Nat) (ys : List Nat) : Nat := ys.head?.getD N

theorem increment_next {xs ys : List Nat} {i : Nat} (hi : Inv T N m t free)
    (hseq : t.toList = xs ++ i :: ys) {Q : Nat → Mem V → Prop} (hQ : Q (startOf N ys) m) :
    Ends (increment i) m Q := by
  obtain ⟨k, c, l, r, rfl, hh, rfl, rfl⟩ := hi.focus hseq
  refine (increment_ends hh.toFocus hi.card_le).mono fun j m' h' => ?_
  obtain ⟨rfl, rfl⟩ := h'
  exact hQ

/-- The start of a tail tells how much of the range is left. -/
theorem start_ne {xs ys zs : List Nat} (hi : Inv T N m t free)
    (hseq : t.toList = xs ++ (ys ++ zs)) : startOf N (ys ++ zs) ≠ startOf N zs ↔ ys ≠ [] := by
  constructor
  · rintro hne rfl
    exact hne rfl
  · intro hys
    cases ys with
    | nil => exact absurd rfl hys
    | cons y ys =>
        have hy : y ∈ t.toList := by rw [hseq]; simp
        have hyN : y < N := hi.mem_iff.mp (Or.inl hy)
        have hnd := (List.nodup_append.mp hi.nodup).1
        rw [hseq] at hnd
        have hyz := (List.nodup_append.mp hnd).2.1
        rw [List.cons_append, List.nodup_cons, List.mem_append, not_or] at hyz
        cases zs with
        | nil => simpa [startOf] using Nat.ne_of_lt hyN
        | cons z zs =>
            simp only [startOf, List.cons_append, List.head?_cons, Option.getD_some]
            intro he
            exact hyz.1.2 (he ▸ List.mem_cons_self)

/-- The elements of a range are gone, the others are as before. -/
def Removed (T : Params V K) (N : Nat) (m : Mem V) (xs : List Nat) (m' : Mem V) : Prop :=
  ∃ t' free', Inv T N m' t' free' ∧ t'.toList = xs ∧ ∀ j ∈ xs, m'.data j = m.data j

/-- The loop over a range keeps whatever every erasure in it keeps. -/
theorem eraseRange_loop {z : V} {P : Mem V → Prop} {xs ys zs : List Nat} (hi : Inv T N m t free)
    (hseq : t.toList = xs ++ (ys ++ zs)) (hP : P m)
    (keeps : ∀ (m : Mem V) t free xs i ys, Inv T N m t free → t.toList = xs ++ i :: ys → P m →
      Ends (erase z i) m fun _ m' => P m') :
    Ends (loop (fun (first, num) => do
      if first ≠ startOf N zs then
        let next ← increment first
        erase z first
        return .inl (next, num + 1)
      else return .inr num : Nat × Nat → Act V ((Nat × Nat) ⊕ Nat)) (N + 3)
      (startOf N (ys ++ zs), 0)) m fun n m' =>
        n = ys.length ∧ Removed T N m (xs ++ zs) m' ∧ P m' := by
  have hlen : ys.length ≤ N := by
    have hc := hi.card_le
    have hl := congrArg List.length hseq
    simp only [List.length_append] at hl
    simp only [card] at hc
    omega
  refine ends_loop (fun j fn m' => ∃ ys' t' free', Inv T N m' t' free' ∧
    t'.toList = xs ++ (ys' ++ zs) ∧ fn.1 = startOf N (ys' ++ zs) ∧ fn.2 + ys'.length = ys.length ∧
    (∀ j ∈ xs ++ zs, m'.data j = m.data j) ∧ P m' ∧ j = ys'.length) ?_
    (k := ys.length) ⟨ys, t, free, hi, hseq, rfl, by simp, fun _ _ => rfl, hP, rfl⟩ (by omega)
  rintro j ⟨first, num⟩ m' ⟨ys', t', free', hi', hseq', rfl, hnum, hdata, hP', rfl⟩
  have hne := start_ne hi' hseq'
  simp only at hnum
  simp only [ends_ite, ends_bind, ends_pure]
  cases ys' with
  | nil =>
      rw [if_neg fun h => hne.mp h rfl]
      simp only [List.length_nil, Nat.add_zero] at hnum
      exact ⟨hnum, ⟨t', free', hi', hseq', hdata⟩, hP'⟩
  | cons y ys' =>
      rw [if_pos (hne.mpr (by simp))]
      have hstart : startOf N (y :: ys' ++ zs) = y := rfl
      rw [hstart]
      refine increment_next hi' hseq' ?_
      have hkeep := keeps m' t' free' xs y (ys' ++ zs) hi' hseq' hP'
      refine ((erase_ends hi' hseq').and hkeep).mono fun _ m'' h'' => ?_
      obtain ⟨⟨t'', hi'', hseq'', hdata''⟩, hP''⟩ := h''
      refine ⟨ys'.length, by simp, ys', t'', _, hi'', hseq'', rfl, ?_, fun j hj => ?_, hP'', rfl⟩
      · simp only [List.length_cons] at hnum
        omega
      · have hjy : j ≠ y := by
          rintro rfl
          have hnd := (List.nodup_append.mp hi'.nodup).1
          rw [hseq'] at hnd
          obtain ⟨-, hyz, hx⟩ := List.nodup_append.mp hnd
          rcases List.mem_append.mp hj with hj | hj
          · exact hx j hj j (by simp) rfl
          · rw [List.cons_append, List.nodup_cons, List.mem_append, not_or] at hyz
            exact hyz.1.2 hj
        rw [hdata'' j hjy]
        exact hdata j hj

/-- `erase(first, last)` removes the range, also through `clear()`. -/
theorem eraseRange_ends {z : V} {xs ys zs : List Nat} (hi : Inv T N m t free) (pos : 1 ≤ N)
    (hseq : t.toList = xs ++ (ys ++ zs)) :
    Ends (eraseRange z (startOf N (ys ++ zs)) (startOf N zs)) m fun n m' =>
      n = ys.length ∧ Removed T N m (xs ++ zs) m' := by
  have hmem : ∀ j ∈ t.toList, j < N := fun j hj => hi.mem_iff.mp (Or.inl hj)
  simp only [eraseRange, begin, leftmost, endIt, header, turns, ends_bind, ends_read, ends_ite,
    ends_pure, hi.header, hi.edges .left]
  by_cases hall : startOf N (ys ++ zs) = (rim .left t.toList).getD N ∧ startOf N zs = N
  · rw [if_pos hall]
    -- the range is the whole sequence
    have hzs : zs = [] := by
      cases zs with
      | nil => rfl
      | cons z zs =>
          have hz := hmem z (by rw [hseq]; simp)
          have he : z = N := hall.2
          omega
    have hxs : xs = [] := by
      cases xs with
      | nil => rfl
      | cons x xs =>
          have he := hall.1
          rw [hseq] at he
          have hx := hmem x (by rw [hseq]; simp)
          have hnd := (List.nodup_append.mp hi.nodup).1
          rw [hseq, List.cons_append, List.nodup_cons, List.mem_append, not_or] at hnd
          simp only [rim, List.cons_append, List.head?_cons, Option.getD_some, startOf] at he
          cases hyz : (ys ++ zs).head? with
          | none =>
              rw [hyz, Option.getD_none] at he
              omega
          | some y =>
              rw [hyz, Option.getD_some] at he
              exact absurd (he ▸ List.mem_of_head? hyz) hnd.1.2
    subst hzs hxs
    have hn : m.szUseNode = ys.length := by
      rw [hi.szUse, card, hseq]
      simp
    rw [hn]
    refine (clear_ends (T := T) hi.header pos hi.small).mono fun _ m' h' => ?_
    exact ⟨rfl, leaf, _, h', rfl, by simp⟩
  · rw [if_neg hall]
    have hloop := eraseRange_loop (z := z) (P := fun _ => True) hi hseq trivial
      fun m t free xs i ys hi hseq _ => (erase_ends hi hseq).mono fun _ _ _ => trivial
    exact hloop.mono fun n m' h => ⟨h.1, h.2.1⟩

/-! ## By key -/

theorem eraseUnique_ends {k : K} (hi : Inv T N m t free) :
    Ends (eraseUnique T k) m fun n m' =>
      (n = 0 ∧ m' = m ∧ ∀ a ∈ t.toList, ¬ equalKey T m k a = true) ∨
      (n = 1 ∧ ∃ xs i ys, t.toList = xs ++ i :: ys ∧ equalKey T m k i = true ∧
        (∀ a ∈ xs, ¬ equalKey T m k a = true) ∧ Removed T N m (xs ++ ys) m') := by
  rw [eraseUnique, ends_bind]
  refine find_ends hi ?_
  simp only [endIt, header, ends_bind, ends_read, ends_ite, ends_pure, hi.header]
  cases hfind : t.toList.find? (equalKey T m k) with
  | none =>
      simp only [Option.getD_none, ne_eq, not_true, if_false]
      exact Or.inl ⟨trivial, trivial, List.find?_eq_none.mp hfind⟩
  | some i =>
      obtain ⟨hp, xs, ys, hseq, hbefore⟩ := List.find?_eq_some_iff_append.mp hfind
      have hne : i ≠ N := by
        have hlt := hi.mem_iff.mp (Or.inl (show i ∈ t.toList by rw [hseq]; simp))
        omega
      simp only [Option.getD_some]
      rw [if_pos hne]
      refine (erase_ends hi hseq).mono fun _ m' h' => ?_
      obtain ⟨t', hi', hseq', hdata⟩ := h'
      refine Or.inr ⟨trivial, xs, i, ys, hseq, hp, fun a ha => ?_, t', _, hi', hseq',
        fun j hj => ?_⟩
      · simpa using hbefore a ha
      · refine hdata j ?_
        rintro rfl
        have hnd := (List.nodup_append.mp hi.nodup).1
        rw [hseq] at hnd
        have hperm : (xs ++ j :: ys).Perm (j :: (xs ++ ys)) := List.perm_middle
        exact (List.nodup_cons.mp (hperm.nodup_iff.mp hnd)).1 hj

/-- The sequence of the tree by its comparison with `k`. -/
theorem three_parts (hi : Inv T N m t free) (k : K) : ∃ xs ys zs, t.toList = xs ++ (ys ++ zs) ∧
    (∀ a ∈ xs, T.compareKey (keyAt T m a) k = true) ∧ (∀ a ∈ ys, equalKey T m k a = true) ∧
    (∀ a ∈ zs, T.compareKey k (keyAt T m a) = true) ∧
    (t.toList.find? (notLess T m k)).getD N = startOf N (ys ++ zs) ∧
    (t.toList.find? (greater T m k)).getD N = startOf N zs := by
  obtain ⟨l, r, hlist, hl, hr, -⟩ := bound_cut (p := notLess T m k) (hi.sorted.notLess_mono k)
  obtain ⟨l', r', hlist', hl', hr', -⟩ := bound_cut (p := greater T m k) (hi.sorted.greater_mono k)
  have hless : ∀ a ∈ l, T.compareKey (keyAt T m a) k = true := by simpa [notLess] using hl
  have hasymm : ∀ a ∈ l, ¬ T.compareKey k (keyAt T m a) = true := by
    intro a ha hka
    have htrans := IsTrans.trans (r := fun a b => T.compareKey a b = true) _ _ _ hka (hless a ha)
    exact lt_irrefl_of_weak _ htrans
  have hfind : t.toList.find? (notLess T m k) = r.head? := by rw [hlist, find?_cut hl hr]
  have hfind' : t.toList.find? (greater T m k) = r'.head? := by rw [hlist', find?_cut hl' hr']
  have hsplit := hlist.symm.trans hlist'
  -- the elements less than `k` come before the first element greater than `k`
  have hprefix : ∃ ys, l' = l ++ ys ∧ r = ys ++ r' := by
    rcases List.append_eq_append_iff.mp hsplit with ⟨ys, h1, h2⟩ | ⟨ys, h1, h2⟩
    · exact ⟨ys, h1, h2⟩
    · cases ys with
      | nil =>
          rw [List.append_nil] at h1
          exact ⟨[], by rw [h1, List.append_nil], by rw [h2]; rfl⟩
      | cons y ys =>
          exact absurd (hr' y (by rw [h2]; simp)) (hasymm y (by rw [h1]; simp))
  obtain ⟨ys, rfl, rfl⟩ := hprefix
  refine ⟨l, ys, r', hlist, hless, fun a ha => ?_, hr', by rw [hfind]; rfl, by rw [hfind']; rfl⟩
  have h1 := hr a (List.mem_append_left _ ha)
  have h2 := hl' a (List.mem_append_right _ ha)
  simp only [notLess, greater] at h1 h2
  simp [equalKey, h1, h2]

theorem eraseEqual_ends {k : K} (hi : Inv T N m t free) (pos : 1 ≤ N) :
    Ends (eraseEqual T k) m fun n m' => ∃ xs ys zs, t.toList = xs ++ (ys ++ zs) ∧
      (∀ a ∈ xs, T.compareKey (keyAt T m a) k = true) ∧ (∀ a ∈ ys, equalKey T m k a = true) ∧
      (∀ a ∈ zs, T.compareKey k (keyAt T m a) = true) ∧ n = ys.length ∧
      Removed T N m (xs ++ zs) m' := by
  obtain ⟨xs, ys, zs, hseq, hx, hy, hz, hlow, hup⟩ := three_parts hi k
  rw [eraseEqual, ends_bind]
  refine lowerBound_ends hi ?_
  rw [ends_bind]
  refine upperBound_ends hi ?_
  rw [hlow, hup]
  refine (eraseRange_ends hi pos hseq).mono fun n m' h' => ?_
  exact ⟨xs, ys, zs, hseq, hx, hy, hz, h'⟩

end Jump.MemPool.RBTree
