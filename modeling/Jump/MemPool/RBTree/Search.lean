import Jump.MemPool.RBTree.Rotate

/-! # Walks that only read

Descents from the root, the walk to an extreme node, and the two iterator steps.
Each is described by the context of the place where it ends.
-/

namespace Jump.MemPool.RBTree

open Jump.Core Jump.Core.ColoredTree Jump.Core.Ctx Prog

variable {V : Type} {m : Mem V} {h : Nat}

theorem Focus.length_le {k : Ctx Nat} {t : ColoredTree Nat} {n : Nat} (hn : (plug k t).card ≤ n) :
    t.card + k.length ≤ n := by
  rw [card_plug] at hn
  have hl := length_le_labels k
  omega

/-- A node of the tree is neither the header nor the invalid index. -/
theorem Focus.mem_ne {k : Ctx Nat} {t : ColoredTree Nat} (hf : Focus m h k t) {i : Nat}
    (hi : i ∈ t.toList ∨ i ∈ labels k) : i ≠ h ∧ i ≠ INVALID_POINT := by
  have hd := hf.distinct
  simp only [List.nodup_cons, List.mem_cons, List.mem_append, not_or] at hd
  constructor
  · rintro rfl
    exact hi.elim hd.1.2.1 hd.1.2.2
  · rintro rfl
    exact hi.elim hd.2.1.1 hd.2.1.2

theorem Focus.ptr_ne {k : Ctx Nat} {t : ColoredTree Nat} (hf : Focus m h k t) (ht : t ≠ leaf) :
    ptr t ≠ INVALID_POINT :=
  (hf.mem_ne (Or.inl (ptr_mem ht))).2

/-- The subtree on side `d` of the focus, as a focus. -/
theorem Focus.down {k : Ctx Nat} {c : Color} {d : Dir} {t u : ColoredTree Nat} {i : Nat}
    (hf : Focus m h k (join c d t i u)) : Focus m h (⟨d, c, i, u⟩ :: k) t :=
  focus_up_iff.mpr hf

/-! ## The extreme node -/

theorem extreme_ends {k : Ctx Nat} {t : ColoredTree Nat} (d : Dir) (hf : Focus m h k t)
    (ht : t ≠ leaf)
    (hn : t.card ≤ h) : Ends (extreme d (ptr t)) m fun y m' => m' = m ∧
      ∃ k' c x, t = plug k' (join c d leaf y x) ∧ ∀ f ∈ k', f.dir = d := by
  simp only [extreme, turns, ends_bind, ends_read, hf.header]
  refine ends_loop (fun j pos m' => m' = m ∧ ∃ k' s, t = plug k' s ∧ (∀ f ∈ k', f.dir = d) ∧
    Focus m h (k' ++ k) s ∧ s ≠ leaf ∧ pos = ptr s ∧ j = s.card) ?_
    (k := t.card) ⟨rfl, [], t, rfl, by simp, hf, ht, rfl, rfl⟩ (by omega)
  rintro j pos m' ⟨rfl, k', s, rfl, hdir, hs, hne, rfl, rfl⟩
  cases s with
  | leaf => exact absurd rfl hne
  | node c l i r =>
      obtain ⟨s', u, hj⟩ := node_eq_join c d l r i
      rw [hj] at hs
      have hc : m'.child d i = ptr s' := (linked_join.mp hs.sub).2.2.1
      simp only [child, ptr_node, ends_bind, ends_read, ends_ite, ends_pure, hc]
      by_cases hs' : s' = leaf
      · subst hs'
        simp only [ptr_leaf, ne_eq, not_true, if_false, Sum.elim_inr]
        exact ⟨trivial, k', c, u, by rw [hj], hdir⟩
      · rw [if_pos (hs.down.ptr_ne hs')]
        refine ⟨s'.card, ?_, trivial, ⟨d, c, i, u⟩ :: k', s', ?_, ?_, hs.down, hs', rfl, rfl⟩
        · rw [hj, card_join]
          omega
        · rw [plug_cons, hj]
        · intro f hf
          rcases List.mem_cons.mp hf with rfl | hf
          · rfl
          · exact hdir f hf

theorem head_of_extreme {k : Ctx Nat} {c : Color} {y : Nat} {x : ColoredTree Nat}
    (hd : ∀ f ∈ k, f.dir = .left) : (plug k (join c .left leaf y x)).toList.head? = some y := by
  simp [toList_plug, before_eq_nil hd, join]

theorem last_of_extreme {k : Ctx Nat} {c : Color} {y : Nat} {x : ColoredTree Nat}
    (hd : ∀ f ∈ k, f.dir = .right) :
    (plug k (join c .right leaf y x)).toList.getLast? = some y := by
  simp [toList_plug, after_eq_nil hd, join]

theorem minimum_ends {k : Ctx Nat} {t : ColoredTree Nat} (hf : Focus m h k t) (ht : t ≠ leaf)
    (hn : t.card ≤ h) :
    Ends (minimum (ptr t)) m fun y m' => m' = m ∧ t.toList.head? = some y := by
  refine (extreme_ends .left hf ht hn).mono fun y m' h' => ?_
  obtain ⟨rfl, k', c, x, rfl, hd⟩ := h'
  exact ⟨rfl, head_of_extreme hd⟩

theorem maximum_ends {k : Ctx Nat} {t : ColoredTree Nat} (hf : Focus m h k t) (ht : t ≠ leaf)
    (hn : t.card ≤ h) :
    Ends (maximum (ptr t)) m fun y m' => m' = m ∧ t.toList.getLast? = some y := by
  refine (extreme_ends .right hf ht hn).mono fun y m' h' => ?_
  obtain ⟨rfl, k', c, x, rfl, hd⟩ := h'
  exact ⟨rfl, last_of_extreme hd⟩

/-! ## Iterator steps -/

/-- The climb ends at the nearest node with the start on its other side; when
there is none it ends at the header, with the pair swapped if the root is the
header's `d` node. -/
theorem climb_ends {k : Ctx Nat} {t : ColoredTree Nat} (d : Dir) (hf : Focus m h k t)
    (ht : t ≠ leaf)
    (hn : k.length ≤ h) : Ends (climb d (ptr t)) m fun r m' => m' = m ∧
      match nearest d.flip k with
      | some a => r.2 = a ∧ m.child d r.1 ≠ a
      | none => (r = (m.parent h, h) ∧ m.child d (m.parent h) ≠ h) ∨
          (r = (h, m.parent h) ∧ m.child d h = m.parent h) := by
  have hpar : ∀ {k : Ctx Nat} {t : ColoredTree Nat}, Focus m h k t → t ≠ leaf →
      m.parent (ptr t) = up h k := by
    intro k t hf ht
    cases t with
    | leaf => exact absurd rfl ht
    | node c l i r => exact hf.sub.1
  -- a child of a tree node is never the node above it
  have hchild : ∀ {k : Ctx Nat} {t : ColoredTree Nat}, Focus m h k t → t ≠ leaf →
      m.child d (ptr t) ≠ up h k := by
    intro k t hf ht
    cases t with
    | leaf => exact absurd rfl ht
    | node c l i r =>
        obtain ⟨s, u, hj⟩ := node_eq_join c d l r i
        rw [hj] at hf
        rw [ptr_node, (linked_join.mp hf.sub).2.2.1]
        intro e
        have hdd := hf.distinct
        simp only [List.nodup_cons, List.mem_cons, List.mem_append, List.nodup_append,
          not_or] at hdd
        have hup : up h k ≠ INVALID_POINT := by
          rcases up_mem_labels (h := h) (k := k) with hu | hu
          · rw [hu]
            exact hf.header_ne
          · exact (hf.mem_ne (Or.inr hu)).2
        rcases ptr_eq_or_mem s with hp | hp
        · exact hup (e.symm.trans hp)
        · have hpj : ptr s ∈ (join c d s i u).toList := mem_toList_join.mpr (Or.inl hp)
          rcases up_mem_labels (h := h) (k := k) with hu | hu
          · exact (hf.mem_ne (Or.inl hpj)).1 (e.trans hu)
          · exact hdd.2.2.2.2 _ hpj _ hu e
  simp only [climb, parent, turns, ends_bind, ends_read, hf.header, hpar hf ht]
  refine ends_loop (fun j sy m' => m' = m ∧
    ((∃ k' t', Focus m h k' t' ∧ t' ≠ leaf ∧ sy = (ptr t', up h k') ∧
      nearest d.flip k' = nearest d.flip k ∧ j = k'.length + 1) ∨
     (sy = (h, m.parent h) ∧ m.child d h = m.parent h ∧ m.child d (m.parent h) ≠ h ∧
      nearest d.flip k = none ∧ j = 0))) ?_
    (k := k.length + 1) ⟨rfl, Or.inl ⟨k, t, hf, ht, rfl, rfl, rfl⟩⟩ (by omega)
  rintro j ⟨s, y⟩ m' ⟨rfl, hcase⟩
  rcases hcase with ⟨k', t', hf', ht', hsy, hnear, rfl⟩ | ⟨hsy, hch, hroot, hnear, rfl⟩
  · cases hsy
    simp only [child, ends_bind, ends_read, ends_ite, ends_pure]
    cases k' with
    | nil =>
        have hr : m'.parent h = ptr t' := hf'.ctx
        have hc := hchild hf' ht'
        rw [up_nil] at hc
        by_cases he : ptr t' = m'.child d h
        · rw [if_pos (by simpa using he)]
          exact ⟨0, by simp, trivial, Or.inr ⟨by simp [hr], by rw [← he, hr], by rwa [hr],
            hnear.symm, rfl⟩⟩
        · rw [if_neg (by simpa using he), Sum.elim_inr, ← hnear]
          exact ⟨trivial, Or.inl ⟨by rw [hr]; rfl, by rwa [hr]⟩⟩
    | cons f k' =>
        have hside := hf'.child_eq_ptr_iff ht' d
        rw [up_cons]
        by_cases he : d = f.dir
        · rw [if_pos (hside.mpr he).symm]
          have hne : f.dir ≠ d.flip := by
            rw [← he]
            exact Dir.ne_flip d
          have hup := focus_up_iff.mp hf'
          have hj : join f.color f.dir t' f.label f.sibling ≠ leaf := by
            cases f.dir <;> simp [join]
          refine ⟨k'.length + 1, by simp, trivial, Or.inl ⟨k', _, hup, hj, ?_, ?_, rfl⟩⟩
          · have hp := hpar hup hj
            rw [ptr_join] at hp ⊢
            rw [hp]
          · rw [← hnear, nearest, if_neg hne]
        · rw [if_neg fun e => he (hside.mp e.symm), Sum.elim_inr]
          have hfd : f.dir = d.flip := (Dir.eq_or_eq_flip d f.dir).resolve_left fun e => he e.symm
          rw [← hnear, nearest, if_pos hfd]
          exact ⟨trivial, rfl, hchild hf' ht'⟩
  · cases hsy
    simp only [child, ends_bind, ends_read, ends_ite, ends_pure]
    rw [if_neg (Ne.symm hroot), Sum.elim_inr, hnear]
    exact ⟨trivial, Or.inr ⟨rfl, hch⟩⟩

/-- `operator++`: the next node in order, the header after the last one. -/
theorem increment_ends {k : Ctx Nat} {c : Color} {l r : ColoredTree Nat} {i : Nat}
    (hf : Focus m h k (node c l i r)) (hn : (plug k (node c l i r)).card ≤ h) :
    Ends (increment i) m fun j m' => m' = m ∧
      j = ((r.toList ++ after k).head?).getD h := by
  have hlen := Focus.length_le hn
  rw [card_node] at hlen
  have hr : m.child .right i = ptr r := hf.sub.2.2.2.1
  have hdown : Focus m h (⟨.right, c, i, l⟩ :: k) r := Focus.down (d := .right) hf
  simp only [increment, right, child, ends_bind, ends_read, ends_ite, hr]
  by_cases hrl : r = leaf
  · subst hrl
    rw [if_neg (by simp)]
    refine (climb_ends .right hf (by simp) (by omega)).mono fun sy m' h' => ?_
    obtain ⟨rfl, hcase⟩ := h'
    simp only [Dir.flip, nearest_left] at hcase
    simp only [toList_leaf, List.nil_append, ends_pure]
    cases ha : (after k).head? with
    | some a =>
        simp only [ha] at hcase
        rw [hcase.1, if_pos hcase.2]
        exact ⟨trivial, rfl⟩
    | none =>
        simp only [ha] at hcase
        rcases hcase with ⟨rfl, hne⟩ | ⟨rfl, he⟩
        · rw [if_pos hne]
          exact ⟨trivial, rfl⟩
        · rw [if_neg (not_not.mpr he)]
          exact ⟨trivial, rfl⟩
  · rw [if_pos (hdown.ptr_ne hrl)]
    refine (minimum_ends hdown hrl (by omega)).mono fun y m' h' => ?_
    obtain ⟨rfl, hy⟩ := h'
    refine ⟨rfl, ?_⟩
    rw [List.head?_append, hy]
    rfl

/-- `operator--` at a node that has a predecessor. -/
theorem decrement_ends {k : Ctx Nat} {c : Color} {l r : ColoredTree Nat} {i j : Nat}
    (hf : Focus m h k (node c l i r)) (hn : (plug k (node c l i r)).card ≤ h)
    (root : (plug k (node c l i r)).color = .black)
    (hj : (before k ++ l.toList).getLast? = some j) :
    Ends (decrement i) m fun j' m' => m' = m ∧ j' = j := by
  have hlen := Focus.length_le hn
  rw [card_node] at hlen
  have hl : m.child .left i = ptr l := hf.sub.2.2.1
  have hpar : m.parent i = up h k := hf.sub.1
  have hcol : m.color i = c := hf.sub.2.1
  have hdown : Focus m h (⟨.left, c, i, r⟩ :: k) l := Focus.down (d := .left) hf
  -- a tree node is not mistaken for the header
  have hnot : ¬ (c = .red ∧ m.parent (up h k) = i) := by
    rintro ⟨rfl, he⟩
    cases k with
    | nil => simp at root
    | cons f k =>
        have hp : m.parent f.label = up h k := hf.ctx.1
        rw [up_cons, hp] at he
        have hmem : i ∈ (node .red l i r).toList := by simp
        rcases up_mem_labels (h := h) (k := k) with hu | hu
        · exact (hf.mem_ne (Or.inl hmem)).1 (he.symm.trans hu)
        · have hd := hf.distinct
          simp only [List.nodup_cons, List.nodup_append] at hd
          exact hd.2.2.2.2 i hmem _ (mem_labels_cons.mpr (Or.inr (Or.inr hu))) he.symm
  simp only [decrement, color, parent, left, child, ends_bind, ends_read, ends_ite, hcol, hpar, hl]
  rw [if_neg hnot]
  by_cases hll : l = leaf
  · subst hll
    rw [if_neg (by simp)]
    rw [toList_leaf, List.append_nil, ← nearest_right] at hj
    refine (climb_ends .left hf (by simp) (by omega)).mono fun sy m' h' => ?_
    obtain ⟨rfl, hcase⟩ := h'
    simp only [Dir.flip, hj] at hcase
    simpa using hcase.1
  · rw [if_pos (hdown.ptr_ne hll)]
    refine (maximum_ends hdown hll (by omega)).mono fun y m' h' => ?_
    obtain ⟨rfl, hy⟩ := h'
    rw [List.getLast?_append, hy] at hj
    exact ⟨rfl, Option.some.inj hj⟩

/-! ## Descents -/

/-- The side of the last node passed on which the descent ended. -/
def endsLeft : Ctx Nat → Bool
  | [] => true
  | f :: _ => f.dir = .left

theorem descendTo_ends {t : ColoredTree Nat} (goLeft : V → Bool) (hf : Focus m h [] t)
    (hn : t.card ≤ h) {Q : Nat × Bool → Mem V → Prop}
    (hQ : Q (up h (descend (fun i => goLeft (m.data i)) t []),
      endsLeft (descend (fun i => goLeft (m.data i)) t [])) m) :
    Ends (descendTo goLeft) m Q := by
  have hr : m.parent h = ptr t := hf.ctx
  simp only [descendTo, root, header, turns, ends_bind, ends_read, hf.header, hr]
  refine ends_loop (fun j xyc m' => m' = m ∧ ∃ k s, Focus m h k s ∧
    xyc = (ptr s, up h k, endsLeft k) ∧ descend (fun i => goLeft (m.data i)) s k =
      descend (fun i => goLeft (m.data i)) t [] ∧ j = s.card) ?_
    (k := t.card) ⟨rfl, [], t, hf, rfl, rfl, rfl⟩ (by omega)
  rintro j ⟨x, y, comp⟩ m' ⟨rfl, k, s, hs, hxyc, hdesc, rfl⟩
  cases hxyc
  cases s with
  | leaf =>
      simp only [ptr_leaf, ne_eq, not_true, if_false, ends_pure, Sum.elim_inr]
      rw [← hdesc] at hQ
      exact hQ
  | node c l i r =>
      have hi : i ≠ INVALID_POINT := hs.ptr_ne (by simp)
      simp only [ptr_node, ne_eq, hi, not_false_eq_true, if_true, value, child, ends_bind,
        ends_read, ends_pure, Sum.elim_inl]
      by_cases hg : goLeft (m'.data i)
      · have hd : Focus m' h (⟨.left, c, i, r⟩ :: k) l := Focus.down (d := .left) hs
        refine ⟨l.card, by rw [card_node]; omega, trivial, _, l, hd, ?_, ?_, rfl⟩
        · have hc : m'.child .left i = ptr l := hs.sub.2.2.1
          simp [hg, hc, endsLeft]
        · rw [← hdesc, descend, if_pos hg]
      · have hd : Focus m' h (⟨.right, c, i, l⟩ :: k) r := Focus.down (d := .right) hs
        refine ⟨r.card, by rw [card_node]; omega, trivial, _, r, hd, ?_, ?_, rfl⟩
        · have hc : m'.child .right i = ptr r := hs.sub.2.2.2.1
          simp [hg, hc, endsLeft]
        · rw [← hdesc, descend, if_neg hg]

theorem bound_ends {t : ColoredTree Nat} (goLeft : V → Bool) (hf : Focus m h [] t)
    (hn : t.card ≤ h) {Q : Nat → Mem V → Prop}
    (hQ : Q ((after (descend (fun i => goLeft (m.data i)) t [])).head?.getD h) m) :
    Ends (bound goLeft) m Q := by
  have hr : m.parent h = ptr t := hf.ctx
  simp only [bound, root, header, turns, ends_bind, ends_read, hf.header, hr]
  refine ends_loop (fun j xy m' => m' = m ∧ ∃ k s, Focus m h k s ∧
    xy = (ptr s, (after k).head?.getD h) ∧ descend (fun i => goLeft (m.data i)) s k =
      descend (fun i => goLeft (m.data i)) t [] ∧ j = s.card) ?_
    (k := t.card) ⟨rfl, [], t, hf, rfl, rfl, rfl⟩ (by omega)
  rintro j ⟨x, y⟩ m' ⟨rfl, k, s, hs, hxy, hdesc, rfl⟩
  cases hxy
  cases s with
  | leaf =>
      simp only [ptr_leaf, ne_eq, not_true, if_false, ends_pure, Sum.elim_inr]
      rw [← hdesc] at hQ
      exact hQ
  | node c l i r =>
      have hi : i ≠ INVALID_POINT := hs.ptr_ne (by simp)
      simp only [ptr_node, ne_eq, hi, not_false_eq_true, if_true, value, left, right, child,
        ends_bind, ends_read, ends_ite, ends_pure]
      by_cases hg : goLeft (m'.data i)
      · have hd : Focus m' h (⟨.left, c, i, r⟩ :: k) l := Focus.down (d := .left) hs
        rw [if_pos hg, Sum.elim_inl]
        refine ⟨l.card, by rw [card_node]; omega, trivial, _, l, hd, ?_, ?_, rfl⟩
        · have hc : m'.child .left i = ptr l := hs.sub.2.2.1
          simp [hc, after]
        · rw [← hdesc, descend, if_pos hg]
      · have hd : Focus m' h (⟨.right, c, i, l⟩ :: k) r := Focus.down (d := .right) hs
        rw [if_neg hg, Sum.elim_inl]
        refine ⟨r.card, by rw [card_node]; omega, trivial, _, r, hd, ?_, ?_, rfl⟩
        · have hc : m'.child .right i = ptr r := hs.sub.2.2.2.1
          simp [hc, after]
        · rw [← hdesc, descend, if_neg hg]

end Jump.MemPool.RBTree
