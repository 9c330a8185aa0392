import Jump.MemPool.RBTree.Insert

/-! # Rebalancing after an erasure

The loop of `RBTreeBalanceForErase` carries a subtree that is one black node
short. Each turn either moves the shortage one level up or repays it by a
rotation at the parent.
-/

namespace Jump.MemPool.RBTree

open Jump.Core Jump.Core.ColoredTree Jump.Core.Ctx Prog

variable {V : Type}

/-- The memory, reached from `m₀`, holds the sequence `xs` of nodes, seen from the
hole of `k`; only children and colours of these nodes have changed. -/
structure Seen (h : Nat) (xs : List Nat) (m₀ m : Mem V) (k : Ctx Nat) (t : ColoredTree Nat) :
    Prop extends
    Holds m h k t where
  seq : (plug k t).toList = xs
  outside : Outside xs m₀ m

section Seen

variable {h : Nat} {xs : List Nat} {m₀ m : Mem V} {k : Ctx Nat} {t : ColoredTree Nat}

theorem seen_up_iff {f : Frame Nat} : Seen h xs m₀ m (f :: k) t ↔
    Seen h xs m₀ m k (join f.color f.dir t f.label f.sibling) := by
  constructor
  · intro hs
    exact ⟨holds_up_iff.mp hs.toHolds, hs.seq, hs.outside⟩
  · intro hs
    exact ⟨holds_up_iff.mpr hs.toHolds, hs.seq, hs.outside⟩

theorem seen_sibling_iff {d : Dir} {c : Color} {i : Nat} {s : ColoredTree Nat} :
    Seen h xs m₀ m (⟨d, c, i, s⟩ :: k) t ↔ Seen h xs m₀ m (⟨d.flip, c, i, t⟩ :: k) s := by
  rw [seen_up_iff, seen_up_iff, join_flip]

theorem Seen.down {c : Color} {d : Dir} {u : ColoredTree Nat} {i : Nat}
    (hs : Seen h xs m₀ m k (join c d t i u)) : Seen h xs m₀ m (⟨d, c, i, u⟩ :: k) t :=
  seen_up_iff.mpr hs

theorem Seen.mem {i : Nat} (hs : Seen h xs m₀ m k t) (hi : i ∈ t.toList) : i ∈ xs := by
  rw [← hs.seq]
  exact (toList_plug_perm k t).mem_iff.mpr (List.mem_append_left _ hi)

theorem Seen.recolor {c b : Color} {d : Dir} {t u : ColoredTree Nat} {i : Nat}
    (hs : Seen h xs m₀ m k (join c d t i u)) :
    Seen h xs m₀ (Store.apply (Write.color i b) m) k (join b d t i u) := by
  have hi : i ∈ xs := hs.mem (mem_toList_join.mpr (Or.inr (Or.inl rfl)))
  refine ⟨hs.toHolds.recolor, ?_, hs.outside.trans (Outside.recolor hi)⟩
  rw [← hs.seq]
  exact toList_plug_congr k (toList_join_recolor ..)

theorem Seen.rotate {cx cy : Color} {d : Dir} {a b c : ColoredTree Nat} {x y : Nat}
    (hs : Seen h xs m₀ m k (join cx d a x (join cy d b y c))) :
    Ends (rbTreeRotate d x) m fun _ m' =>
      Seen h xs m₀ m' k (join cy d (join cx d a x b) y c) := by
  refine (rotate_ends hs.toHolds).mono fun _ m' h' => ?_
  obtain ⟨hh, hout⟩ := h'
  refine ⟨hh, ?_, hs.outside.trans (hout.mono fun i hi => ?_)⟩
  · rw [← hs.seq]
    exact toList_plug_congr k (toList_rotate ..)
  · rw [← hs.seq]
    exact (toList_plug_perm k _).mem_iff.mpr hi

end Seen

/-! ## Colours -/

theorem eq_join_of_red {t : ColoredTree Nat} (d : Dir) (hc : t.color = .red) :
    ∃ a w b, t = join .red d a w b := by
  cases t with
  | leaf => cases hc
  | node c l i r =>
      cases hc
      obtain ⟨a, b, hj⟩ := node_eq_join .red d l r i
      exact ⟨a, i, b, hj⟩

theorem eq_join_of_black {t : ColoredTree Nat} (d : Dir) (hc : t.color = .black) (ht : t ≠ leaf) :
    ∃ a w b, t = join .black d a w b := by
  cases t with
  | leaf => exact absurd rfl ht
  | node c l i r =>
      cases hc
      obtain ⟨a, b, hj⟩ := node_eq_join .black d l r i
      exact ⟨a, i, b, hj⟩

theorem black_of_not_red {c : Color} (h : c ≠ .red) : c = .black := by
  cases c with
  | red => exact absurd rfl h
  | black => rfl

theorem red_of_not_black {c : Color} (h : c ≠ .black) : c = .red := by
  cases c with
  | red => rfl
  | black => exact absurd rfl h

/-- The subtree is one black node short of `n + 1`; a red root would repay it. -/
def Short (t : ColoredTree Nat) (n : Nat) : Prop :=
  (t.color = .black ∧ Balanced t n) ∨ (t.color = .red ∧ Balanced t.blacken (n + 1))

/-! ## One turn -/

section Turn

variable {h : Nat} {xs : List Nat} {m₀ m : Mem V} {k : Ctx Nat} {x s : ColoredTree Nat} {d : Dir}
  {c : Color} {p n : Nat}

/-- After `blackSibling` the sibling is black; a rotation leaves the parent red. -/
theorem blackSibling_ends (hs : Seen h xs m₀ m (⟨d, c, p, s⟩ :: k) x)
    (hk : Fits (⟨d, c, p, s⟩ :: k) (n + 1)) :
    Ends (blackSibling d p) m fun w m' => ∃ c' s' k', w = ptr s' ∧
      Seen h xs m₀ m' (⟨d, c', p, s'⟩ :: k') x ∧ Fits (⟨d, c', p, s'⟩ :: k') (n + 1) ∧
      s'.color = .black ∧ (c' = .red ∨ k'.length = k.length) := by
  obtain ⟨hsib, hred, hfits⟩ := hk
  simp only at hsib hred hfits
  have hchild : m.child d.flip p = ptr s := hs.ctx.2.2.2.1
  have hcol : m.color (ptr s) = s.color := color_of_linked hs.ctx.2.2.2.2.1 hsib.ne_leaf
  simp only [blackSibling, child, color, setColor, ends_bind, ends_read, ends_write, ends_ite,
    ends_pure, hchild, hcol]
  by_cases hc : s.color = .red
  · rw [if_pos hc]
    have hcb : c = .black := black_of_not_red fun e => by
      have hb := (hred e).1
      rw [hc] at hb
      cases hb
    obtain ⟨a, w, b, rfl⟩ := eq_join_of_red d hc
    have h1 := (seen_sibling_iff.mp hs).recolor (b := .black)
    have h2 := (seen_up_iff.mp (seen_sibling_iff.mpr h1)).recolor (b := .red)
    rw [ptr_join]
    refine h2.rotate.mono fun _ m' h3 => ?_
    have h4 := h3.down.down
    obtain ⟨j, hj, ha, hb, hab⟩ := balanced_join_iff.mp hsib
    obtain rfl : n + 1 = j := hj
    have hfits' : Fits k (n + 1 + 1) := by
      rw [hcb] at hfits
      exact hfits
    refine ⟨.red, a, _, h4.ctx.2.2.2.1, h4, ⟨ha, fun _ => ⟨(hab rfl).1, rfl⟩, hb, ?_, hfits'⟩,
      (hab rfl).1, Or.inl rfl⟩
    simp
  · rw [if_neg hc]
    exact ⟨c, s, k, rfl, hs, ⟨hsib, hred, hfits⟩, black_of_not_red hc, Or.inr rfl⟩

/-- After `redFarChild` the far child of the sibling is red. -/
theorem redFarChild_ends {a b : ColoredTree Nat} {w : Nat}
    (hs : Seen h xs m₀ m (⟨d, c, p, join .black d a w b⟩ :: k) x) (ha : Balanced a n)
    (hb : Balanced b n) (red : ¬ (a.color = .black ∧ b.color = .black)) :
    Ends (redFarChild d w p) m fun w' m' => ∃ a' b',
      Seen h xs m₀ m' (⟨d, c, p, join .black d a' w' b'⟩ :: k) x ∧ Balanced a' n ∧
        Balanced b' n ∧ b'.color = .red := by
  have hsub := (seen_sibling_iff.mp hs)
  obtain ⟨-, -, hnear, hfar, hla, hlb⟩ := linked_join.mp hsub.sub
  have hib : INVALID_POINT ∉ b.toList := fun hi =>
    hsub.invalid_not_mem (mem_toList_join.mpr (Or.inr (Or.inr hi)))
  simp only [redFarChild, child, ends_bind, ends_read, hfar, isBlack_ends hlb hib,
    decide_eq_true_eq, ends_ite]
  by_cases hbb : b.color = .black
  · rw [if_pos hbb]
    have har : a.color = .red := red_of_not_black fun e => red ⟨e, hbb⟩
    obtain ⟨a₁, v, a₂, rfl⟩ := eq_join_of_red d har
    obtain ⟨j, hj, h1, h2, hcol⟩ := balanced_join_iff.mp ha
    obtain rfl : n = j := hj
    have hv : v ≠ INVALID_POINT := fun e => hsub.invalid_not_mem
      (mem_toList_join.mpr (Or.inl (mem_toList_join.mpr (Or.inr (Or.inl e.symm)))))
    rw [ptr_join] at hnear
    simp only [setColor, ends_write, hnear]
    rw [if_pos hv]
    -- recolour the near child and the sibling, then rotate the sibling away from the hole
    have h3 := hsub.down.recolor (b := .black)
    have h4 := (seen_up_iff.mp h3).recolor (b := .red)
    simp only at h4
    rw [← join_flip _ d, ← join_flip _ d] at h4
    refine h4.rotate.mono fun _ m' h5 => ?_
    rw [join_flip, join_flip] at h5
    have h6 := seen_sibling_iff.mpr h5
    have hptr : m'.child d.flip p = v := by
      have hc := h6.ctx.2.2.2.1
      rwa [ptr_join] at hc
    refine ⟨a₁, join .red d a₂ w b, ?_, h1, ?_, by simp⟩
    · rw [hptr]
      exact h6
    · exact balanced_join_iff.mpr ⟨n, rfl, h2, hb, fun _ => ⟨(hcol rfl).2, hbb⟩⟩
  · rw [if_neg hbb]
    simp only [ends_pure]
    exact ⟨a, b, hs, ha, hb, red_of_not_black hbb⟩

/-- The loop state: the subtree `x` in the hole is one black node short. -/
def Owing (h : Nat) (xs : List Nat) (m₀ : Mem V) (j : Nat) (xp : Nat × Nat) (m : Mem V) : Prop :=
  ∃ k x n, Seen h xs m₀ m k x ∧ Short x n ∧ Fits k (n + 1) ∧ xp = (ptr x, up h k) ∧
    j = if x.color = .red then 0 else k.length + 1

/-- The state in which the loop stops: blackening `x` balances the whole tree. -/
def Repaid (h : Nat) (xs : List Nat) (m₀ : Mem V) (pos : Nat) (m : Mem V) : Prop :=
  ∃ k x n, Seen h xs m₀ m k x ∧ Balanced x.blacken n ∧ Fits k n ∧ pos = ptr x

/-- With two black nephews the sibling turns red and the shortage moves to the parent. -/
theorem raise_owing {a b : ColoredTree Nat} {w : Nat}
    (hs : Seen h xs m₀ m (⟨d, c, p, join .black d a w b⟩ :: k) x) (hx : Balanced x n)
    (hk : Fits (⟨d, c, p, join .black d a w b⟩ :: k) (n + 1))
    (ha : a.color = .black) (hb : b.color = .black) {j : Nat} (hj : c = .red ∨ k.length < j) :
    Ends (do
      setColor w .red
      return (p, ← parent p)) m fun xp m' => ∃ j' < j + 1, Owing h xs m₀ j' xp m' := by
  obtain ⟨hsib, -, hfits⟩ := hk
  obtain ⟨i, hi, ha', hb', -⟩ := balanced_join_iff.mp hsib
  obtain rfl : n = i := Nat.succ.inj hi
  have h1 := seen_up_iff.mp (seen_sibling_iff.mpr ((seen_sibling_iff.mp hs).recolor (b := .red)))
  have hsw : Balanced (join .red d a w b) n :=
    balanced_join_iff.mpr ⟨n, rfl, ha', hb', fun _ => ⟨ha, hb⟩⟩
  have hpar : m.parent p = up h k := hs.ctx.1
  simp only [setColor, parent, ends_bind, ends_read, ends_write, ends_pure, Mem.parent_apply, hpar]
  simp only at h1
  cases c with
  | red =>
      have hblack : Balanced (join .red d x p (join .red d a w b)).blacken (n + 1) := by
        have hj : (join .red d x p (join .red d a w b)).blacken =
            join .black d x p (join .red d a w b) := by cases d <;> rfl
        rw [hj]
        exact balanced_join_iff.mpr ⟨n, rfl, hx, hsw, by simp⟩
      exact ⟨0, by omega, k, _, n, h1, Or.inr ⟨by simp, hblack⟩, hfits, by simp, by simp⟩
  | black =>
      have hup : Balanced (join .black d x p (join .red d a w b)) (n + 1) :=
        balanced_join_iff.mpr ⟨n, rfl, hx, hsw, by simp⟩
      have hlt : k.length < j := hj.resolve_left (by simp)
      exact ⟨k.length + 1, by omega, k, _, n + 1, h1, Or.inl ⟨by simp, hup⟩, hfits, by simp,
        by simp⟩

/-- A red far nephew repays the shortage: one rotation at the parent. -/
theorem repay_ends {a b : ColoredTree Nat} {w : Nat}
    (hs : Seen h xs m₀ m (⟨d, c, p, join .black d a w b⟩ :: k) x) (hx : Balanced x n)
    (hxb : x.color = .black) (hfits : Fits k (n + 1 + c.height))
    (htop : c = .red → topColor k = some .black) (ha : Balanced a n) (hb : Balanced b n)
    (hbr : b.color = .red) :
    Ends (do
      setColor w (← color p)
      setColor p .black
      if (← child d.flip w) ≠ INVALID_POINT then setColor (← child d.flip w) .black
      rbTreeRotate d p
      return .inr (ptr x) : Act V ((Nat × Nat) ⊕ Nat)) m fun r m' =>
        ∃ pos, r = .inr pos ∧ Repaid h xs m₀ pos m' := by
  obtain ⟨b₁, v, b₂, rfl⟩ := eq_join_of_red d hbr
  have hsub := seen_sibling_iff.mp hs
  have hcol : m.color p = c := hs.ctx.2.1
  have hfar : m.child d.flip w = v := by
    have hl := (linked_join.mp hsub.sub).2.2.2.1
    rwa [ptr_join] at hl
  have hv : v ≠ INVALID_POINT := fun e => hsub.invalid_not_mem
    (mem_toList_join.mpr (Or.inr (Or.inr (mem_toList_join.mpr (Or.inr (Or.inl e.symm))))))
  simp only [setColor, color, child, ends_bind, ends_read, ends_write, ends_ite, ends_pure, hcol,
    Mem.child_apply, hfar]
  rw [if_pos hv]
  -- the three colours, then the rotation
  have h1 := hsub.recolor (b := c)
  have h2 := (seen_up_iff.mp (seen_sibling_iff.mpr h1)).recolor (b := .black)
  have h3 := seen_sibling_iff.mp h2.down
  rw [← join_flip _ d] at h3
  have h4 := h3.down.recolor (b := .black)
  have h5 := seen_up_iff.mp h4
  simp only at h5
  rw [join_flip] at h5
  have h6 := seen_up_iff.mp (seen_sibling_iff.mpr h5)
  refine h6.rotate.mono fun _ m' h7 => ?_
  have h8 := h7.down.down
  obtain ⟨i, hi, hb₁, hb₂, -⟩ := balanced_join_iff.mp hb
  obtain rfl : n = i := hi
  have hfarb : Balanced (join .black d b₁ v b₂) (n + 1) :=
    balanced_join_iff.mpr ⟨n, rfl, hb₁, hb₂, by simp⟩
  refine ⟨ptr x, rfl, _, x, n, h8, ?_, ⟨ha, (by simp), hfarb, ?_, hfits⟩, rfl⟩
  · rwa [blacken_of_black hxb]
  · exact fun e => ⟨by simp, htop e⟩

theorem eraseUnder_ends (hs : Seen h xs m₀ m (⟨d, c, p, s⟩ :: k) x) (hx : Balanced x n)
    (hxb : x.color = .black) (hk : Fits (⟨d, c, p, s⟩ :: k) (n + 1)) :
    Ends (eraseUnder d (ptr x) p) m fun r m' => r.elim
      (fun xp => ∃ j < k.length + 2, Owing h xs m₀ j xp m') fun pos => Repaid h xs m₀ pos m' := by
  simp only [eraseUnder, ends_bind]
  refine (blackSibling_ends hs hk).mono fun w m' h' => ?_
  obtain ⟨c', s', k', rfl, hs', hk', hsb, hlen⟩ := h'
  obtain ⟨hsib, hred, hfits⟩ := hk'
  obtain ⟨a, w, b, rfl⟩ := eq_join_of_black d hsb hsib.ne_leaf
  obtain ⟨i, hi, ha, hb, -⟩ := balanced_join_iff.mp hsib
  obtain rfl : n = i := Nat.succ.inj hi
  have hsub := seen_sibling_iff.mp hs'
  obtain ⟨-, -, hnear, hfar, hla, hlb⟩ := linked_join.mp hsub.sub
  have hia : INVALID_POINT ∉ a.toList := fun hi =>
    hsub.invalid_not_mem (mem_toList_join.mpr (Or.inl hi))
  have hib : INVALID_POINT ∉ b.toList := fun hi =>
    hsub.invalid_not_mem (mem_toList_join.mpr (Or.inr (Or.inr hi)))
  simp only [child, ends_read, ptr_join, hnear, hfar, isBlack_ends hla hia, isBlack_ends hlb hib,
    ends_ite, decide_eq_true_eq]
  by_cases hab : a.color = .black ∧ b.color = .black
  · rw [if_pos hab]
    have hj : c' = .red ∨ k'.length < k.length + 1 := by
      rcases hlen with hr | hl
      · exact Or.inl hr
      · exact Or.inr (by omega)
    have hraise := raise_owing hs' hx ⟨hsib, hred, hfits⟩ hab.1 hab.2 hj
    simp only [ends_bind, ends_pure] at hraise ⊢
    exact hraise
  · rw [if_neg hab]
    rw [ends_bind]
    refine (redFarChild_ends hs' ha hb hab).mono fun w' m'' h'' => ?_
    obtain ⟨a', b', hs'', ha', hb', hbr⟩ := h''
    refine (repay_ends hs'' hx hxb hfits (fun e => (hred e).2) ha' hb' hbr).mono ?_
    rintro r m''' ⟨pos, rfl, hpaid⟩
    exact hpaid

theorem eraseTurn_ends {j : Nat} {xp : Nat × Nat} (ho : Owing h xs m₀ j xp m) :
    Ends (eraseTurn xp) m fun r m' => r.elim (fun xp' => ∃ j' < j, Owing h xs m₀ j' xp' m')
      fun pos => Repaid h xs m₀ pos m' := by
  obtain ⟨k, x, n, hs, hshort, hk, rfl, rfl⟩ := ho
  have hroot : ptr x = m.parent m.numOfNode ↔ k = [] := by
    rw [hs.header]
    exact hs.toFocus.ptr_eq_root_iff
  simp only [eraseTurn, root, left, child, ends_bind, ends_read, ends_ite, ends_pure, hroot]
  by_cases hnil : k = []
  · subst hnil
    rw [if_pos rfl, Sum.elim_inr]
    rcases hshort with ⟨hxb, hx⟩ | ⟨-, hx⟩
    · exact ⟨[], x, n, hs, by rwa [blacken_of_black hxb], trivial, rfl⟩
    · exact ⟨[], x, n + 1, hs, hx, trivial, rfl⟩
  · rw [if_neg hnil]
    rw [isBlack_ends hs.sub hs.invalid_not_mem]
    rcases hshort with ⟨hxb, hx⟩ | ⟨hxr, hx⟩
    · simp only [hxb, decide_true, not_true, if_false, reduceCtorEq]
      cases k with
      | nil => exact absurd rfl hnil
      | cons f k =>
          obtain ⟨d, c, p, s⟩ := f
          have hturn := eraseUnder_ends hs hx hxb hk
          have hsib : s ≠ leaf := hk.1.ne_leaf
          simp only [up_cons]
          -- the sibling is a node, so the position is the left child exactly on the left side
          have hside : ptr x = m.child .left p ↔ d = .left := by
            cases d with
            | left =>
                have hc : m.child .left p = ptr x := hs.ctx.2.2.1
                simp [hc]
            | right =>
                have hc : m.child .left p = ptr s := hs.ctx.2.2.2.1
                have hne : ptr x ≠ ptr s := by
                  intro e
                  have hmem : ptr s ∈ labels (⟨.right, c, p, s⟩ :: k) :=
                    mem_labels_cons.mpr (Or.inr (Or.inl (ptr_mem hsib)))
                  exact hs.toFocus.ptr_not_mem_labels (e ▸ hmem)
                simp [hc, hne]
          simp only [hside]
          cases d with
          | left =>
              rw [if_pos rfl]
              exact hturn
          | right =>
              rw [if_neg Dir.noConfusion]
              exact hturn
    · simp only [hxr, reduceCtorEq, decide_false, Bool.false_eq_true, not_false_eq_true, if_true,
        Sum.elim_inr]
      exact ⟨k, x, n + 1, hs, hx, hk, rfl⟩

end Turn

/-- The rebalancing of an erasure: from a tree that is one black node short in
the hole to a balanced tree with a black root. -/
theorem eraseBalance_ends {h : Nat} {m : Mem V} {k : Ctx Nat} {x : ColoredTree Nat} {n : Nat}
    (hh : Holds m h k x) (hx : Balanced x n) (hk : Fits k (n + 1)) (hlen : k.length ≤ h) :
    Ends (eraseBalance (ptr x) (up h k)) m fun _ m' => ∃ t n', Holds m' h [] t ∧ Balanced t n' ∧
      t.color = .black ∧ t.toList = (plug k x).toList ∧ Outside (plug k x).toList m m' := by
  have hshort : Short x n := by
    cases hc : x.color with
    | black => exact Or.inl ⟨hc, hx⟩
    | red =>
        have hb := hx.blacken
        rw [if_pos hc] at hb
        exact Or.inr ⟨hc, hb⟩
  generalize hL : (plug k x).toList = xs
  have hstart : Owing h xs m (if x.color = .red then 0 else k.length + 1) (ptr x, up h k) m :=
    ⟨k, x, n, ⟨hh, hL, Outside.refl xs m⟩, hshort, hk, rfl, rfl⟩
  have hfuel : (if x.color = .red then 0 else k.length + 1) < h + 3 := by
    split <;> omega
  simp only [eraseBalance, turns, ends_bind, ends_read, hh.header]
  refine ends_loop (Owing h xs m) (fun j xp m' ho => eraseTurn_ends ho) hstart hfuel |>.mono ?_
  intro pos m' hr
  obtain ⟨k', x', n', hs, hx', hk', rfl⟩ := hr
  obtain ⟨n'', hb, hroot⟩ := hk'.balanced_plug hx' (by simp)
  simp only [setColor, ends_ite, ends_write, ends_pure]
  -- blackening the last position
  have hdone : ∀ m'' : Mem V, Seen h xs m m'' k' x'.blacken → ∃ t n', Holds m'' h [] t ∧
      Balanced t n' ∧ t.color = .black ∧ t.toList = xs ∧ Outside xs m m'' := by
    intro m'' hs'
    refine ⟨plug k' x'.blacken, n'', ?_, hb, hroot, hs'.seq, hs'.outside⟩
    exact holds_plug_iff.mp (by rw [List.append_nil]; exact hs'.toHolds)
  cases x' with
  | leaf =>
      rw [if_neg (by simp)]
      exact hdone m' hs
  | node c l i r =>
      have hi : ptr (node c l i r) ≠ INVALID_POINT := fun e =>
        hs.invalid_not_mem (by rw [← e]; simp)
      rw [if_pos hi]
      exact hdone _ (Seen.recolor (d := .left) hs)

end Jump.MemPool.RBTree
