import Jump.MemPool.RBTree.Rotate

/-! # Rebalancing after an insertion

The position that `RBTreeBalance` carries is always a red node with balanced
black subtrees; the only fault left in the tree is a red parent above it.
-/

namespace Jump.MemPool.RBTree

open Jump.Core Jump.Core.ColoredTree Jump.Core.Ctx Prog

variable {V : Type}

/-! ## Reading a colour -/

theorem color_of_linked {m : Mem V} {p : Nat} {t : ColoredTree Nat} (h : Linked m p t)
    (ht : t ≠ leaf) :
    m.color (ptr t) = t.color := by
  cases t with
  | leaf => exact absurd rfl ht
  | node c l i r => exact h.2.1

theorem isRed_ends {m : Mem V} {p : Nat} {t : ColoredTree Nat} (h : Linked m p t)
    (hi : INVALID_POINT ∉ t.toList) {Q : Bool → Mem V → Prop} :
    Ends (isRed (ptr t)) m Q ↔ Q (decide (t.color = .red)) m := by
  by_cases ht : t = leaf
  · subst ht
    simp [isRed]
  · have hp : ptr t ≠ INVALID_POINT := fun e => ht (eq_leaf_of_ptr hi e)
    simp [isRed, hp, color_of_linked h ht]

theorem isBlack_ends {m : Mem V} {p : Nat} {t : ColoredTree Nat} (h : Linked m p t)
    (hi : INVALID_POINT ∉ t.toList) {Q : Bool → Mem V → Prop} :
    Ends (isBlack (ptr t)) m Q ↔ Q (decide (t.color = .black)) m := by
  by_cases ht : t = leaf
  · subst ht
    simp [isBlack]
  · have hp : ptr t ≠ INVALID_POINT := fun e => ht (eq_leaf_of_ptr hi e)
    simp [isBlack, hp, color_of_linked h ht]

section Balance

variable {m : Mem V} {h : Nat}

/-- The loop state of `RBTreeBalance`: `k` frames are left above the position. -/
def Rising (h : Nat) (xs : List Nat) (m₀ : Mem V) (j pos : Nat) (m : Mem V) : Prop :=
  ∃ k e l r n, Holds m h k (join .red e l pos r) ∧ Balanced l n ∧ Balanced r n ∧
    l.color = .black ∧ r.color = .black ∧ Fits k n ∧
    (plug k (join .red e l pos r)).toList = xs ∧ Outside xs m₀ m ∧ k.length = j

/-- After `turnOutside` the position is an outer child. -/
theorem turnOutside_ends {xs : List Nat} {m₀ : Mem V} {f g : Frame Nat} {k : Ctx Nat}
    {e : Dir} {l r : ColoredTree Nat} {pos n : Nat}
    (hh : Holds m h (f :: g :: k) (join .red e l pos r)) (hl : Balanced l n) (hr : Balanced r n)
    (cl : l.color = .black) (cr : r.color = .black) (hs : Balanced f.sibling n)
    (cs : f.sibling.color = .black) (cf : f.color = .red)
    (hxs : (plug (f :: g :: k) (join .red e l pos r)).toList = xs) (hout : Outside xs m₀ m) :
    Ends (turnOutside g.dir pos) m fun pos' m' => ∃ e' l' r' p s,
      Holds m' h (⟨g.dir, .red, p, s⟩ :: g :: k) (join .red e' l' pos' r') ∧ Balanced l' n ∧
        Balanced r' n ∧ l'.color = .black ∧ r'.color = .black ∧ Balanced s n ∧
        s.color = .black ∧
        (plug (⟨g.dir, .red, p, s⟩ :: g :: k) (join .red e' l' pos' r')).toList = xs ∧
        Outside xs m₀ m' := by
  obtain ⟨fd, fc, p, s⟩ := f
  simp only at cf hs cs
  subst cf
  have hpar : m.parent pos = p := by
    have hsub := hh.sub
    exact (linked_join.mp hsub).1
  have hside := hh.toFocus.child_eq_ptr_iff (by cases e <;> simp [join]) g.dir.flip
  rw [ptr_join] at hside
  simp only [turnOutside, parent, child, ends_bind, ends_read, ends_ite, hpar]
  split
  next hin =>
    have hfd : g.dir.flip = fd := hside.mp hin.symm
    -- name the subtrees of the position along the rotation
    obtain ⟨l', r', hlr, hl', hr', cl', cr'⟩ : ∃ l' r', join .red e l pos r =
        join .red g.dir l' pos r' ∧ Balanced l' n ∧ Balanced r' n ∧ l'.color = .black ∧
          r'.color = .black := by
      rcases join_eq_join Color.red g.dir e l r pos with hj | hj
      · exact ⟨l, r, hj, hl, hr, cl, cr⟩
      · exact ⟨r, l, hj, hr, hl, cr, cl⟩
    rw [hlr, ← hfd, plug_cons, join_flip] at hxs
    rw [hlr, ← hfd, holds_up_iff, join_flip] at hh
    simp only at hh hxs
    refine (rotate_ends hh).mono fun _ m' h' => ?_
    obtain ⟨hh', hout'⟩ := h'
    simp only [ends_pure]
    refine ⟨g.dir, s, l', pos, r', holds_up_iff.mpr hh', hs, hl', cs, cl', hr', cr', ?_, ?_⟩
    · rw [← hxs, plug_cons]
      exact toList_plug_congr _ (toList_rotate ..)
    · refine hout.trans (hout'.mono fun i hi => ?_)
      rw [← hxs]
      exact (toList_plug_perm _ _).mem_iff.mpr hi
  next hin =>
    have hfd : g.dir = fd := by
      rcases Dir.eq_or_eq_flip g.dir fd with hd | hd
      · exact hd.symm
      · exact absurd (hside.mpr hd.symm).symm hin
    simp only [ends_pure]
    subst hfd
    exact ⟨e, l, r, p, s, hh, hl, hr, cl, cr, hs, cs, hxs, hout⟩

/-- One turn below a red parent: recolour and rise by two, or rotate and be done. -/
theorem balanceUnder_ends {xs : List Nat} {m₀ : Mem V} {f g : Frame Nat} {k : Ctx Nat}
    {e : Dir} {l r : ColoredTree Nat} {pos n : Nat}
    (hh : Holds m h (f :: g :: k) (join .red e l pos r)) (hl : Balanced l n) (hr : Balanced r n)
    (cl : l.color = .black) (cr : r.color = .black) (hk : Fits (f :: g :: k) n)
    (cf : f.color = .red) (cg : g.color = .black)
    (hxs : (plug (f :: g :: k) (join .red e l pos r)).toList = xs) (hout : Outside xs m₀ m) :
    Ends (balanceUnder g.dir pos) m fun res m' => ∃ pos', res = .inl pos' ∧
      ∃ j < k.length + 2, Rising h xs m₀ j pos' m' := by
  obtain ⟨hs, hsc, hgs, -, hkf⟩ := hk
  have cs := (hsc cf).1
  simp only [cf, cg, Color.height, Nat.add_zero] at hgs hkf
  obtain ⟨gd, gc, gi, gs⟩ := g
  simp only at cg hgs hkf
  subst cg
  have hpar : m.parent pos = f.label := (linked_join.mp hh.sub).1
  have hgg := hh.ctx.2.2.2.2.2
  have hgpar : m.parent f.label = gi := hh.ctx.1
  have hunc : m.child gd.flip gi = ptr gs := hgg.2.2.2.1
  have hgl : Linked m gi gs := hgg.2.2.2.2.1
  have hgi : INVALID_POINT ∉ gs.toList := by
    have hsib := (holds_sibling_iff.mp (holds_up_iff.mp hh)).toFocus
    exact hsib.invalid_not_mem
  simp only [balanceUnder, parent, child, setColor, ends_bind, ends_read, hpar, hgpar, hunc,
    isRed_ends hgl hgi, ends_ite]
  by_cases hred : gs.color = .red
  · -- the uncle is red: three colours change, the red node is now the grandparent
    simp only [hred, decide_true, if_true, ends_write, ends_pure, Mem.parent_apply, hpar, hgpar]
    obtain ⟨gl, gu, gr, rfl⟩ : ∃ gl gu gr, gs = node .red gl gu gr := by
      cases gs with
      | leaf => cases hred
      | node c gl gu gr =>
          cases hred
          exact ⟨gl, gu, gr, rfl⟩
    have h1 := (holds_up_iff.mp hh)
    rw [cf] at h1
    have h2 := holds_sibling_iff.mp (Holds.recolor (b := .black) h1)
    have h3 := Holds.recolor (b := .black) (d := .left) (c := .red) h2
    have h4 := holds_up_iff.mp (holds_sibling_iff.mpr h3)
    have h5 := Holds.recolor (b := .red) h4
    have hlist : (plug k (join .red gd (join .black f.dir (join .red e l pos r) f.label f.sibling)
        gi (join .black .left gl gu gr))).toList = xs := by
      rw [← hxs, plug_cons, plug_cons]
      refine toList_plug_congr _ ?_
      cases gd <;> cases f.dir <;> simp [join]
    have hmem : ∀ i, i ∈ (join .red gd (join .black f.dir (join .red e l pos r) f.label f.sibling)
        gi (join .black .left gl gu gr)).toList → i ∈ xs := by
      intro i hi
      rw [← hlist]
      exact (toList_plug_perm _ _).mem_iff.mpr (List.mem_append_left _ hi)
    obtain ⟨gn, hgn, hgl', hgr', -⟩ := balanced_node_iff.mp hgs
    obtain rfl : n = gn := hgn
    refine ⟨gi, rfl, k.length, by omega, k, gd, _, _, n + 1, h5, ?_, ?_, by simp, by simp, hkf,
      hlist, ?_, rfl⟩
    · refine balanced_join_iff.mpr ⟨n, rfl, ?_, hs, by simp⟩
      exact balanced_join_iff.mpr ⟨n, rfl, hl, hr, fun _ => ⟨cl, cr⟩⟩
    · show Balanced (join .black .left gl gu gr) (n + 1)
      exact balanced_join_iff.mpr ⟨n, rfl, hgl', hgr', by simp⟩
    · refine ((hout.trans (Outside.recolor (hmem f.label ?_))).trans
        (Outside.recolor (hmem gu ?_))).trans (Outside.recolor (hmem gi ?_))
      · simp [mem_toList_join]
      · simp [mem_toList_join]
      · simp [mem_toList_join]
  · simp only [hred, decide_false, Bool.false_eq_true, if_false]
    have cgs : gs.color = .black := by
      cases hc : gs.color with
      | red => exact absurd hc hred
      | black => rfl
    refine (turnOutside_ends hh hl hr cl cr hs cs cf hxs hout).mono fun pos' m' h' => ?_
    obtain ⟨e', l', r', p, s, hh', hl', hr', cl', cr', hs', cs', hxs', hout'⟩ := h'
    have hpar' : m'.parent pos' = p := (linked_join.mp hh'.sub).1
    have hgpar' : m'.parent p = gi := hh'.ctx.1
    simp only [ends_write, hpar', Mem.parent_apply, hgpar']
    have h1 := Holds.recolor (b := .black) (holds_up_iff.mp hh')
    have h2 := Holds.recolor (b := .red) (holds_up_iff.mp h1)
    simp only at h2
    rw [← join_flip _ gd, ← join_flip _ gd] at h2
    refine (rotate_ends h2).mono fun _ m'' h'' => ?_
    obtain ⟨h3, hout''⟩ := h''
    rw [join_flip] at h3
    simp only [ends_pure]
    have hlist : (plug (⟨gd, .black, p, join .red gd.flip gs gi s⟩ :: k)
        (join .red e' l' pos' r')).toList = xs := by
      rw [← hxs', plug_cons, plug_cons, plug_cons]
      refine toList_plug_congr _ ?_
      cases gd <;> simp [join, Dir.flip]
    have hmem : ∀ i, i ∈ (join .black gd (join .red e' l' pos' r') p
        (join .red gd.flip gs gi s)).toList ++ labels k → i ∈ xs := by
      intro i hi
      rw [← hlist, plug_cons]
      exact (toList_plug_perm _ _).mem_iff.mpr hi
    refine ⟨pos', rfl, k.length + 1, by omega, _, e', l', r', n, holds_up_iff.mpr h3, hl', hr',
      cl', cr', ⟨?_, by simp, hkf⟩, hlist, ?_, by simp⟩
    · exact balanced_join_iff.mpr ⟨n, rfl, hgs, hs', fun _ => ⟨cgs, cs'⟩⟩
    · refine ((hout'.trans (Outside.recolor (hmem p ?_))).trans
        (Outside.recolor (hmem gi ?_))).trans (hout''.mono fun i hi => hmem i ?_)
      · simp [mem_toList_join]
      · simp [mem_toList_join]
      · simp only [List.mem_append, mem_toList_join] at hi ⊢
        tauto

theorem balanceTurn_ends {xs : List Nat} {m₀ : Mem V} {j pos : Nat}
    (hr : Rising h xs m₀ j pos m) : Ends (balanceTurn pos) m fun res m' =>
      res.elim (fun pos' => ∃ j' < j, Rising h xs m₀ j' pos' m') fun _ =>
        m' = m ∧ ∃ k t n, Holds m h k t ∧ Balanced t n ∧ Fits k n ∧ t ≠ leaf ∧
          topColor k ≠ some .red ∧ (plug k t).toList = xs ∧ Outside xs m₀ m := by
  obtain ⟨k, e, l, r, n, hh, hl, hr, cl, cr, hk, hxs, hout, rfl⟩ := hr
  have ht : Balanced (join .red e l pos r) n :=
    balanced_join_iff.mpr ⟨n, rfl, hl, hr, fun _ => ⟨cl, cr⟩⟩
  have hne : join .red e l pos r ≠ leaf := by cases e <;> simp [join]
  have hroot : pos = m.parent m.numOfNode ↔ k = [] := by
    have hi := hh.toFocus.ptr_eq_root_iff
    rwa [ptr_join, ← hh.header] at hi
  simp only [balanceTurn, root, parent, color, left, child, ends_bind, ends_read, ends_ite,
    ends_pure, hroot]
  cases k with
  | nil =>
      simp only [if_true, Sum.elim_inr]
      exact ⟨trivial, [], _, n, hh, ht, hk, hne, by simp [topColor], hxs, hout⟩
  | cons f k =>
      have hpar : m.parent pos = f.label := (linked_join.mp hh.sub).1
      have hcol : m.color f.label = f.color := hh.ctx.2.1
      simp only [reduceCtorEq, if_false, hpar, hcol]
      by_cases cf : f.color = .red
      · have htop := (hk.2.1 cf).2
        cases k with
        | nil => simp [topColor] at htop
        | cons g k =>
            have cg : g.color = .black := by simpa [topColor] using htop
            have hgpar : m.parent f.label = g.label := hh.ctx.1
            have hside := (holds_up_iff.mp hh).toFocus.child_eq_ptr_iff
              (by cases f.dir <;> simp [join]) .left
            rw [ptr_join] at hside
            simp only [cf, hgpar, ne_eq, not_true, if_false]
            have hturn := balanceUnder_ends hh hl hr cl cr hk cf cg hxs hout
            have hgoal : Ends (balanceUnder g.dir pos) m fun res m' =>
                res.elim (fun pos' => ∃ j' < (f :: g :: k).length, Rising h xs m₀ j' pos' m')
                  fun _ => m' = m ∧ ∃ k t n, Holds m h k t ∧ Balanced t n ∧ Fits k n ∧
                    t ≠ leaf ∧ topColor k ≠ some .red ∧ (plug k t).toList = xs ∧
                      Outside xs m₀ m := by
              refine hturn.mono fun res m' h' => ?_
              obtain ⟨pos', rfl, j, hj, hrise⟩ := h'
              exact ⟨j, hj, hrise⟩
            by_cases hd : g.dir = .left
            · rw [if_pos (hside.mpr hd.symm).symm]
              rwa [hd] at hgoal
            · have hd' : g.dir = .right := by
                cases hg : g.dir with
                | left => exact absurd hg hd
                | right => rfl
              rw [if_neg fun e => hd (hside.mp e.symm).symm]
              rwa [hd'] at hgoal
      · simp only [cf, ne_eq, not_false_eq_true, if_true, Sum.elim_inr]
        exact ⟨trivial, f :: k, _, n, hh, ht, hk, hne, by simpa [topColor] using cf, hxs, hout⟩

/-- `RBTreeBalance` at a freshly linked node: the whole tree is balanced with a
black root and holds the same sequence. -/
theorem rbTreeBalance_ends {k : Ctx Nat} {c : Color} {pos n : Nat}
    (hh : Holds m h k (node c leaf pos leaf)) (hk : Fits k 0) (hn : k.length ≤ n)
    (hnum : n ≤ h) : Ends (rbTreeBalance pos) m fun _ m' =>
      ∃ t n', Holds m' h [] t ∧ Balanced t n' ∧ t.color = .black ∧
        t.toList = (plug k (node c leaf pos leaf)).toList ∧
        Outside (plug k (node c leaf pos leaf)).toList m m' := by
  have hxs : ∀ c', (plug k (node c' leaf pos leaf)).toList =
      (plug k (node c leaf pos leaf)).toList := fun c' => toList_plug_congr k rfl
  generalize hL : (plug k (node c leaf pos leaf)).toList = xs at hxs ⊢
  have hpos : pos ∈ xs := by
    rw [← hL, toList_plug]
    simp
  have hstart : Rising h xs m k.length pos (Store.apply (Write.color pos .red) m) :=
    ⟨k, .left, leaf, leaf, 0, Holds.recolor (d := .left) hh, .leaf, .leaf, rfl, rfl, hk,
      hxs .red, Outside.recolor hpos, rfl⟩
  simp only [rbTreeBalance, setColor, turns, root, ends_bind, ends_read, ends_write,
    Mem.numOfNode_apply, hh.header]
  refine ends_loop (fun j pos m' => Rising h xs m j pos m') ?_ hstart (by omega)
  intro j pos' m' hr
  refine (balanceTurn_ends hr).mono fun res m'' h'' => ?_
  cases res with
  | inl pos'' => exact h''
  | inr _ =>
      obtain ⟨rfl, k', t, n', hh', ht, hk', hne, htop, hxs', hout⟩ := h''
      obtain ⟨n'', hb⟩ := hk'.balanced_blacken ht htop
      have hwhole : Holds m'' h [] (plug k' t) := holds_plug_iff.mp (by rwa [List.append_nil])
      have hroot : m''.parent h = ptr (plug k' t) := hwhole.ctx
      have hmem : ptr (plug k' t) ∈ xs := hxs' ▸ ptr_mem (plug_ne_leaf hne)
      simp only [Sum.elim_inr, hh'.header, hroot]
      refine ⟨(plug k' t).blacken, n'', ?_, hb, by simp, by simpa using hxs',
        hout.trans (Outside.recolor hmem)⟩
      cases hT : plug k' t with
      | leaf => exact absurd hT (plug_ne_leaf hne)
      | node c l i r =>
          rw [hT] at hwhole
          exact Holds.recolor (d := .left) hwhole

end Balance

end Jump.MemPool.RBTree
