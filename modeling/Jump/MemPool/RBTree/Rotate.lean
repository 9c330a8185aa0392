import Jump.MemPool.RBTree.Linked

/-! # Rotations of the linked tree

`rbTreeRotate` turns the tree in the hole as the textbook rotation does, keeps
the context, and recomputes the two sizes it disturbs. Nodes outside the tree
keep their children and colours, the header keeps its minimum and maximum.
-/

namespace Jump.MemPool.RBTree

open Jump.Core Jump.Core.ColoredTree Jump.Core.Ctx Prog

variable {V : Type}

/-! ## The link to the hole -/

/-- The memory in which the link to the hole of `k` is `q`. -/
def setLink (h : Nat) (k : Ctx Nat) (q : Nat) (m : Mem V) : Mem V :=
  match k with
  | [] => Store.apply (Write.parent h q) m
  | f :: _ => Store.apply (Write.child f.dir f.label q) m

section SetLink

variable {m : Mem V} {h q : Nat} {k : Ctx Nat}

theorem setLink_parent {i : Nat} (hi : i ≠ h) : (setLink h k q m).parent i = m.parent i := by
  cases k <;> simp [setLink, hi]

theorem setLink_child {i : Nat} (hi : i ∉ labels k) (d : Dir) :
    (setLink h k q m).child d i = m.child d i := by
  cases k with
  | nil => simp [setLink]
  | cons f k =>
      have hne : i ≠ f.label := fun e => hi (e ▸ mem_labels_cons.mpr (Or.inl rfl))
      simp [setLink, hne]

@[simp] theorem setLink_color : (setLink h k q m).color = m.color := by
  cases k <;> rfl

@[simp] theorem setLink_size : (setLink h k q m).size = m.size := by
  cases k <;> rfl

@[simp] theorem setLink_numOfNode : (setLink h k q m).numOfNode = m.numOfNode := by
  cases k <;> rfl

theorem linkedCtx_setLink {p : Nat} (hk : LinkedCtx m h k p) (distinct : (h :: labels k).Nodup) :
    LinkedCtx (setLink h k q m) h k q := by
  cases k with
  | nil => simp [setLink, LinkedCtx]
  | cons f k =>
      obtain ⟨h1, h2, h3, h4, h5, h6⟩ := hk
      have hd := (List.Perm.nodup_iff (List.Perm.cons h (labels_cons_perm f k))).mp distinct
      simp only [List.nodup_cons, List.mem_cons, List.mem_append, not_or] at hd
      obtain ⟨⟨hfl, -, hhk⟩, ⟨hfs, hfk⟩, -⟩ := hd
      have hne : ∀ {i}, i ≠ f.label → SameAt m (setLink h (f :: k) q m) i := by
        intro i hi
        simp [SameAt, setLink, hi]
      refine ⟨by simpa [setLink] using h1, by simpa [setLink] using h2, by simp [setLink],
        by simpa [setLink] using h4, ?_, ?_⟩
      · exact h5.congr fun i hi => hne fun e => hfs (e ▸ hi)
      · exact h6.congr (fun i hi => hne fun e => hfk (e ▸ hi)) (by simp [setLink])

/-- `relink` finds the link that leads to `x`, whichever side is compared first. -/
theorem relink_ends {x : Nat} (d : Dir) (header : m.numOfNode = h) (hk : LinkedCtx m h k x)
    (hp : m.parent x = up h k) (hx : x ∉ labels k) (hn : x ≠ INVALID_POINT)
    {Q : Unit → Mem V → Prop} (hQ : Q () (setLink h k q m)) : Ends (relink d x q) m Q := by
  cases k with
  | nil =>
      have hroot : x = m.parent h := Eq.symm hk
      simp only [relink, root, RBTree.header, setParent, ends_bind, ends_read, ends_ite,
        ends_write, header, if_pos hroot]
      exact hQ
  | cons f k =>
      have hroot : x ≠ m.parent m.numOfNode := by
        rw [header]
        exact fun e => hx (e ▸ hk.root_mem (by simp))
      obtain ⟨-, -, hc, hs, -, -⟩ := hk
      simp only [up_cons] at hp
      simp only [relink, root, RBTree.header, parent, child, setParent, setChild, ends_bind,
        ends_read, ends_ite, ends_write, if_neg hroot, hp]
      rcases Dir.eq_or_eq_flip f.dir d with rfl | rfl
      · rw [if_pos hc.symm]
        exact hQ
      · have hne : x ≠ m.child f.dir.flip f.label := by
          rw [hs]
          intro e
          rcases ptr_eq_or_mem f.sibling with hi | hi
          · exact hn (e.trans hi)
          · exact hx (e ▸ mem_labels_cons.mpr (Or.inr (Or.inl hi)))
        rw [if_neg hne, Dir.flip_flip]
        exact hQ

end SetLink

/-! ## Sizes -/

/-- `resize` writes the size of the subtree once the sizes below are right. -/
theorem resize_ends {m : Mem V} {x : Nat} {t u : ColoredTree Nat} {d : Dir}
    (ht : m.child d x = ptr t) (hu : m.child d.flip x = ptr u)
    (hst : Sized m t) (hsu : Sized m u)
    (distinct : (x :: INVALID_POINT :: (t.toList ++ u.toList)).Nodup)
    {Q : Unit → Mem V → Prop}
    (hQ : Q () (Store.apply (Write.size x (t.card + u.card + 1)) m)) :
    Ends (resize x) m Q := by
  simp only [List.nodup_cons, List.mem_cons, List.mem_append, not_or] at distinct
  obtain ⟨⟨-, hxt, hxu⟩, ⟨hit, hiu⟩, -⟩ := distinct
  -- what `resize` adds for one child
  have hsz : ∀ v : ColoredTree Nat, x ∉ v.toList → INVALID_POINT ∉ v.toList → Sized m v →
      (ptr v ≠ INVALID_POINT → ptr v ≠ x ∧ m.size (ptr v) = v.card) ∧
        (ptr v = INVALID_POINT → v.card = 0) := by
    intro v hx hi hv
    refine ⟨fun hne => ?_, fun he => ?_⟩
    · have hvl : v ≠ leaf := fun e => hne (by rw [e]; rfl)
      refine ⟨fun e => hx (e ▸ ptr_mem hvl), ?_⟩
      cases v with
      | leaf => exact absurd rfl hvl
      | node c l i r => simpa using hv.1
    · rw [eq_leaf_of_ptr hi he]
      rfl
  have hsides : ∃ l r : ColoredTree Nat, m.child .left x = ptr l ∧ m.child .right x = ptr r ∧
      l.card + r.card = t.card + u.card ∧
      (x ∉ l.toList ∧ INVALID_POINT ∉ l.toList ∧ Sized m l) ∧
      (x ∉ r.toList ∧ INVALID_POINT ∉ r.toList ∧ Sized m r) := by
    cases d
    · exact ⟨t, u, ht, hu, rfl, ⟨hxt, hit, hst⟩, ⟨hxu, hiu, hsu⟩⟩
    · exact ⟨u, t, hu, ht, Nat.add_comm _ _, ⟨hxu, hiu, hsu⟩, ⟨hxt, hit, hst⟩⟩
  obtain ⟨l, r, hl, hr, hsum, ⟨hxl, hil, hsl⟩, ⟨hxr, hir, hsr⟩⟩ := hsides
  obtain ⟨hl1, hl0⟩ := hsz l hxl hil hsl
  obtain ⟨hr1, hr0⟩ := hsz r hxr hir hsr
  rw [← hsum] at hQ
  by_cases hln : ptr l = INVALID_POINT <;> by_cases hrn : ptr r = INVALID_POINT
  · have h1 := hl0 hln
    have h2 := hr0 hrn
    simpa [resize, hl, hr, hln, hrn, h1, h2] using hQ
  · have h1 := hl0 hln
    obtain ⟨h2, h3⟩ := hr1 hrn
    simpa [resize, hl, hr, hln, hrn, h1, h2, h3, Mem.apply_size_size, Nat.add_comm] using hQ
  · have h1 := hr0 hrn
    obtain ⟨h2, h3⟩ := hl1 hln
    simpa [resize, hl, hr, hln, hrn, h1, h2, h3, Mem.apply_size_size, Nat.add_comm] using hQ
  · obtain ⟨h2, h3⟩ := hl1 hln
    obtain ⟨h4, h5⟩ := hr1 hrn
    simpa [resize, hl, hr, hln, hrn, h2, h3, h4, h5, Mem.apply_size_size, ← Nat.add_assoc,
      Nat.add_comm] using hQ

/-! ## The tree with its sizes -/

/-- `Focus` with every `size_` right. -/
structure Holds (m : Mem V) (h : Nat) (k : Ctx Nat) (t : ColoredTree Nat) : Prop extends
    Focus m h k t where
  sized : Sized m t
  sizedCtx : SizedCtx m k t.card

theorem holds_up_iff {m : Mem V} {h : Nat} {f : Frame Nat} {k : Ctx Nat} {t : ColoredTree Nat} :
    Holds m h (f :: k) t ↔ Holds m h k (join f.color f.dir t f.label f.sibling) := by
  constructor
  · intro hh
    obtain ⟨hs, hk⟩ := sized_up_iff.mp ⟨hh.sized, hh.sizedCtx⟩
    exact ⟨focus_up_iff.mp hh.toFocus, hs, hk⟩
  · intro hh
    obtain ⟨hs, hk⟩ := sized_up_iff.mpr ⟨hh.sized, hh.sizedCtx⟩
    exact ⟨focus_up_iff.mpr hh.toFocus, hs, hk⟩

theorem holds_plug_iff {m : Mem V} {h : Nat} {k k' : Ctx Nat} {t : ColoredTree Nat} :
    Holds m h (k ++ k') t ↔ Holds m h k' (plug k t) := by
  induction k generalizing t with
  | nil => rfl
  | cons f k ih => exact holds_up_iff.trans ih

/-- The focus moves to the sibling of the hole. -/
theorem holds_sibling_iff {m : Mem V} {h : Nat} {d : Dir} {c : Color} {i : Nat} {k : Ctx Nat}
    {t s : ColoredTree Nat} : Holds m h (⟨d, c, i, s⟩ :: k) t ↔
      Holds m h (⟨d.flip, c, i, t⟩ :: k) s := by
  rw [holds_up_iff, holds_up_iff, join_flip]

/-- Outside the nodes `l` no child link and no colour differs. -/
def Outside (l : List Nat) (m m' : Mem V) : Prop :=
  ∀ i ∉ l, (∀ d, m'.child d i = m.child d i) ∧ m'.color i = m.color i

theorem Outside.refl (l : List Nat) (m : Mem V) : Outside l m m :=
  fun _ _ => ⟨fun _ => rfl, rfl⟩

theorem Outside.mono {l l' : List Nat} {m m' : Mem V} (h : Outside l m m')
    (hl : ∀ i ∈ l, i ∈ l') : Outside l' m m' :=
  fun i hi => h i fun hi' => hi (hl i hi')

theorem Outside.trans {l : List Nat} {m m' m'' : Mem V} (h : Outside l m m')
    (h' : Outside l m' m'') : Outside l m m'' := by
  intro i hi
  have h1 := h i hi
  have h2 := h' i hi
  exact ⟨fun d => (h2.1 d).trans (h1.1 d), h2.2.trans h1.2⟩

theorem Outside.recolor {l : List Nat} {m : Mem V} {i : Nat} {c : Color} (hi : i ∈ l) :
    Outside l m (Store.apply (Write.color i c) m) := by
  intro j hj
  have hne : j ≠ i := fun e => hj (e ▸ hi)
  simp [hne]

/-- Recolouring one node. -/
theorem Holds.recolor {m : Mem V} {h : Nat} {k : Ctx Nat} {c b : Color} {d : Dir}
    {t u : ColoredTree Nat} {i : Nat} (hh : Holds m h k (join c d t i u)) :
    Holds (Store.apply (Write.color i b) m) h k (join b d t i u) := by
  obtain ⟨⟨hn, hk, hs, hd⟩, hz, hzk⟩ := hh
  have hperm := (toList_join_perm c d t u i).append_right (labels k)
  have hperm' := (toList_join_perm b d t u i).append_right (labels k)
  have hdd := (List.Perm.nodup_iff (((hperm.trans hperm'.symm).cons _).cons h)).mp hd
  have hdi := (List.Perm.nodup_iff ((hperm.cons INVALID_POINT).cons h)).mp hd
  simp only [List.nodup_cons, List.mem_cons, List.mem_append, List.cons_append, not_or] at hdi
  obtain ⟨-, -, ⟨⟨hit, hiu⟩, hik⟩, -⟩ := hdi
  have same : ∀ j, j ≠ i → SameAt m (Store.apply (Write.color i b) m) j := by
    intro j hj
    simp [SameAt, hj]
  obtain ⟨h1, -, h3, h4, h5, h6⟩ := linked_join.mp hs
  refine ⟨⟨by simpa using hn, ?_, ?_, hdd⟩, ?_, ?_⟩
  · rw [ptr_join] at hk ⊢
    exact hk.congr (fun j hj => same j fun e => hik (e ▸ hj)) (by simp)
  · refine linked_join.mpr
      ⟨by simpa using h1, by simp, by simpa using h3, by simpa using h4, ?_, ?_⟩
    · exact h5.congr fun j hj => same j fun e => hit (e ▸ hj)
    · exact h6.congr fun j hj => same j fun e => hiu (e ▸ hj)
  · obtain ⟨hz1, hz2, hz3⟩ := sized_join.mp hz
    exact sized_join.mpr ⟨by simpa using hz1, hz2.congr (by simp), hz3.congr (by simp)⟩
  · rw [card_join] at hzk ⊢
    exact hzk.congr (by simp)

/-! ## Rotation -/

section Rotation

variable {m : Mem V} {h : Nat} {k : Ctx Nat} {cx cy : Color} {d : Dir} {a b c : ColoredTree Nat}
  {x y : Nat}

theorem rotate_perm : ((join cy d (join cx d a x b) y c).toList ++ labels k).Perm
    ((join cx d a x (join cy d b y c)).toList ++ labels k) := by
  rw [toList_rotate cx cy]

theorem rotate_ends (hh : Holds m h k (join cx d a x (join cy d b y c))) :
    Ends (rbTreeRotate d x) m fun _ m' =>
      Holds m' h k (join cy d (join cx d a x b) y c) ∧
        Outside ((join cx d a x (join cy d b y c)).toList ++ labels k) m m' := by
  obtain ⟨⟨hn, hk, hs, hd⟩, hz, hzk⟩ := hh
  obtain ⟨px, colx, dx, fx, la, hyt⟩ := linked_join.mp hs
  obtain ⟨py, coly, dy, fy, lb, lc⟩ := linked_join.mp hyt
  obtain ⟨-, sa, hzy⟩ := sized_join.mp hz
  obtain ⟨-, sb, sc⟩ := sized_join.mp hzy
  rw [ptr_join] at hk fx
  -- all indices in play are distinct
  have hperm : ((join cx d a x (join cy d b y c)).toList ++ labels k).Perm
      (x :: y :: (a.toList ++ (b.toList ++ c.toList) ++ labels k)) := by
    refine ((toList_join_perm cx d a _ x).append_right _).trans (List.Perm.cons x ?_)
    refine (List.Perm.append_right _ ((toList_join_perm cy d b c y).append_left _)).trans ?_
    exact (List.perm_middle.append_right _)
  have hdd := (List.Perm.nodup_iff ((hperm.cons INVALID_POINT).cons h)).mp hd
  simp only [List.nodup_cons, List.mem_cons, List.mem_append, List.nodup_append, not_or] at hdd
  obtain ⟨⟨hhi, hhx, hhy, ⟨hha, hhb, hhc⟩, hhk⟩, ⟨hix, hiy, ⟨hia, hib, hic⟩, hik⟩,
    ⟨hxy, ⟨hxa, hxb, hxc⟩, hxk⟩, ⟨⟨hya, hyb, hyc⟩, hyk⟩, ⟨da, ⟨db, dc, hbc⟩, habc⟩, dk, htk⟩ := hdd
  have hbne : ∀ i, i ∉ b.toList → i ≠ INVALID_POINT → i ≠ ptr b := by
    intro i hi hi' e
    rcases ptr_eq_or_mem b with hp | hp
    · exact hi' (e.trans hp)
    · exact hi (e ▸ hp)
  -- everything from `parent(y) = parent(x)` on, from the memory in which `b` hangs below `x`
  have rest : ∀ m₂ : Mem V, (b ≠ leaf → m₂.parent (ptr b) = x) →
      (∀ i, i ≠ ptr b → m₂.parent i = m.parent i) →
      (∀ e i, m₂.child e i = if e = d.flip ∧ i = x then ptr b else m.child e i) →
      m₂.color = m.color → m₂.size = m.size → m₂.numOfNode = h →
      Ends (do
        setParent y (← parent x)
        relink d x y
        setChild d y x
        setParent x y
        resize x
        resize y) m₂ fun _ m' =>
      Holds m' h k (join cy d (join cx d a x b) y c) ∧
        Outside ((join cx d a x (join cy d b y c)).toList ++ labels k) m m' := by
    intro m₂ hb hp hc hcol hsz hnum
    have hpx : m₂.parent x = up h k := by rw [hp x (hbne x hxb (Ne.symm hix)), px]
    simp only [parent, setParent, setChild, ends_bind, ends_read, ends_write, hpx]
    have hk₃ : LinkedCtx (Store.apply (Write.parent y (up h k)) m₂) h k x := by
      refine hk.congr (fun i hi => ?_) ?_
      · have hiy' : i ≠ y := fun e => hyk (e ▸ hi)
        have hix' : i ≠ x := fun e => hxk (e ▸ hi)
        have hib' : i ≠ ptr b := hbne i (fun hb => htk i (Or.inr (Or.inl hb)) i hi rfl)
          (fun e => hik (e ▸ hi))
        simp [SameAt, hiy', hix', hp i hib', hc, hcol]
      · simp [hhy, hp h (hbne h hhb hhi)]
    refine relink_ends d (by simpa using hnum) hk₃ (by simpa [hxy] using hpx) hxk (Ne.symm hix) ?_
    -- the memory after `relink`, by what it holds
    have hk₄ := linkedCtx_setLink (q := y) hk₃ (by simpa using ⟨hhk, dk⟩)
    have hp₄ : ∀ i, i ≠ h → (setLink h k y (Store.apply (Write.parent y (up h k)) m₂)).parent i =
        if i = y then up h k else m₂.parent i := by
      intro i hi
      rw [setLink_parent hi]
      simp
    have hc₄ : ∀ e i, i ∉ labels k →
        (setLink h k y (Store.apply (Write.parent y (up h k)) m₂)).child e i =
          if e = d.flip ∧ i = x then ptr b else m.child e i := by
      intro e i hi
      rw [setLink_child hi]
      simp [hc]
    have hcol₄ : (setLink h k y (Store.apply (Write.parent y (up h k)) m₂)).color = m.color := by
      rw [setLink_color, ← hcol]
      rfl
    have hsz₄ : (setLink h k y (Store.apply (Write.parent y (up h k)) m₂)).size = m.size := by
      rw [setLink_size, ← hsz]
      rfl
    have hnum₄ : (setLink h k y (Store.apply (Write.parent y (up h k)) m₂)).numOfNode = h := by
      rw [setLink_numOfNode]
      simpa using hnum
    generalize setLink h k y (Store.apply (Write.parent y (up h k)) m₂) = m₄ at *
    have hyx : y ≠ x := Ne.symm hxy
    have hdf : d ≠ d.flip := Dir.ne_flip d
    refine resize_ends (t := a) (u := b) (d := d) ?_ ?_ ?_ ?_ ?_ ?_
    · simp [hc₄ _ x hxk, hxy, hdf, dx]
    · simp [hc₄ _ x hxk, hxy]
    · exact sa.congr (by simp [hsz₄])
    · exact sb.congr (by simp [hsz₄])
    · simp [List.nodup_append, Ne.symm hix, hxa, hxb, hia, hib, da, db]
      exact fun i hi j hj => habc i hi j (Or.inl hj)
    refine resize_ends (t := join cx d a x b) (u := c) (d := d) ?_ ?_ ?_ ?_ ?_ ?_
    · simp
    · simp [hc₄ _ y hyk, hyx, fy]
    · refine sized_join.mpr ⟨by simp, ?_, ?_⟩
      · exact sa.congr fun i hi => by
          have hne : i ≠ x := fun e => hxa (e ▸ hi)
          simp [hsz₄, hne]
      · exact sb.congr fun i hi => by
          have hne : i ≠ x := fun e => hxb (e ▸ hi)
          simp [hsz₄, hne]
    · exact sc.congr fun i hi => by
        have hne : i ≠ x := fun e => hxc (e ▸ hi)
        simp [hsz₄, hne]
    · have hj := (toList_join_perm cx d a b x).append_right c.toList
      refine (List.Perm.nodup_iff ((hj.cons INVALID_POINT).cons y)).mpr ?_
      simp only [List.nodup_cons, List.mem_cons, List.mem_append, List.cons_append,
        List.nodup_append, not_or]
      refine ⟨⟨Ne.symm hiy, hyx, ⟨hya, hyb⟩, hyc⟩, ⟨hix, ⟨hia, hib⟩, hic⟩, ⟨⟨hxa, hxb⟩, hxc⟩,
        ⟨da, db, fun i hi j hj => habc i hi j (Or.inl hj)⟩, dc, ?_⟩
      rintro i (hi | hi) j hj
      · exact habc i hi j (Or.inr hj)
      · exact hbc i hi j hj
    -- what the final memory holds away from `x` and `y`
    have same : ∀ i, i ≠ x → i ≠ y → i ≠ h → i ≠ ptr b → i ∉ labels k → SameAt m
        (Store.apply (Write.size y ((join cx d a x b).card + c.card + 1))
          (Store.apply (Write.size x (a.card + b.card + 1)) (Store.apply (Write.parent x y)
            (Store.apply (Write.child d y x) m₄)))) i := by
      intro i hix hiy hih hib hik
      simp [SameAt, hix, hiy, hp₄ i hih, hp i hib, hcol₄, hc₄ _ i hik]
    have away : ∀ t : ColoredTree Nat, t = a ∨ t = b ∨ t = c → ∀ i ∈ t.toList,
        i ≠ x ∧ i ≠ y ∧ i ≠ h ∧ i ∉ labels k := by
      have hmem : ∀ i, i ∈ a.toList ∨ i ∈ b.toList ∨ i ∈ c.toList →
          i ≠ x ∧ i ≠ y ∧ i ≠ h ∧ i ∉ labels k := by
        intro i hi
        refine ⟨?_, ?_, ?_, fun hk => htk i hi i hk rfl⟩
        · rintro rfl
          tauto
        · rintro rfl
          tauto
        · rintro rfl
          tauto
      rintro t (rfl | rfl | rfl) i hi
      · exact hmem i (Or.inl hi)
      · exact hmem i (Or.inr (Or.inl hi))
      · exact hmem i (Or.inr (Or.inr hi))
    refine ⟨⟨⟨by simp [hnum₄], ?_, ?_, ?_⟩, ?_, ?_⟩, ?_⟩
    · rw [ptr_join]
      refine hk₄.congr (fun i hi => ?_) (by simp [hhx])
      have hix' : i ≠ x := fun e => hxk (e ▸ hi)
      have hiy' : i ≠ y := fun e => hyk (e ▸ hi)
      simp [SameAt, hix', hiy']
    · refine linked_join.mpr ⟨?_, ?_, ?_, ?_, linked_join.mpr ⟨?_, ?_, ?_, ?_, ?_, ?_⟩, ?_⟩
      · simp [hyx, hp₄ y (Ne.symm hhy)]
      · simp [hcol₄, coly]
      · simp
      · simp [hc₄ _ y hyk, hyx, fy]
      · simp
      · simp [hcol₄, colx]
      · simp [hc₄ _ x hxk, hxy, hdf, dx]
      · simp [hc₄ _ x hxk, hxy]
      · refine la.congr fun i hi => ?_
        obtain ⟨h1, h2, h3, h4⟩ := away a (Or.inl rfl) i hi
        exact same i h1 h2 h3 (hbne i (fun hb => habc i hi i (Or.inl hb) rfl)
          fun e => hia (e ▸ hi)) h4
      · refine lb.reroot (fun hne => ?_) (fun i hi hne => ?_) db fun i hi => ?_
        · obtain ⟨h1, h2, h3, h4⟩ := away b (Or.inr (Or.inl rfl)) _ (ptr_mem hne)
          simp [h1, hp₄ _ h3, h2, hb hne]
        · obtain ⟨h1, h2, h3, h4⟩ := away b (Or.inr (Or.inl rfl)) i hi
          exact (same i h1 h2 h3 hne h4).1
        · obtain ⟨h1, h2, h3, h4⟩ := away b (Or.inr (Or.inl rfl)) i hi
          simp [hcol₄, hc₄ _ i h4, h1, h2]
      · refine lc.congr fun i hi => ?_
        obtain ⟨h1, h2, h3, h4⟩ := away c (Or.inr (Or.inr rfl)) i hi
        exact same i h1 h2 h3 (hbne i (fun hb => hbc i hb i hi rfl) fun e => hic (e ▸ hi)) h4
    · exact (List.Perm.nodup_iff ((rotate_perm.cons _).cons h)).mpr hd
    · refine sized_join.mpr ⟨by simp, sized_join.mpr ⟨by simp [hxy], ?_, ?_⟩, ?_⟩
      · exact sa.congr fun i hi => by simp [hsz₄, (away a (Or.inl rfl) i hi).1,
          (away a (Or.inl rfl) i hi).2.1]
      · exact sb.congr fun i hi => by simp [hsz₄, (away b (Or.inr (Or.inl rfl)) i hi).1,
          (away b (Or.inr (Or.inl rfl)) i hi).2.1]
      · exact sc.congr fun i hi => by simp [hsz₄, (away c (Or.inr (Or.inr rfl)) i hi).1,
          (away c (Or.inr (Or.inr rfl)) i hi).2.1]
    · have hcard : (join cy d (join cx d a x b) y c).card =
          (join cx d a x (join cy d b y c)).card := by
        simp only [card, toList_rotate cx cy]
      rw [hcard]
      refine hzk.congr fun i hi => ?_
      have hix' : i ≠ x := fun e => hxk (e ▸ hi)
      have hiy' : i ≠ y := fun e => hyk (e ▸ hi)
      simp [hsz₄, hix', hiy']
    · intro i hi
      simp only [List.mem_append, mem_toList_join, not_or] at hi
      obtain ⟨⟨hia, hix, hib, hiy, hic⟩, hik⟩ := hi
      simp [hcol₄, hc₄ _ i hik, hix, hiy]
  -- the branch on `left(y) != INVALID_POINT`
  have hdf : d ≠ d.flip := Dir.ne_flip d
  simp only [parent, setParent, setChild, ends_bind, ends_read, ends_write] at rest
  simp only [rbTreeRotate, parent, child, setParent, setChild, ends_bind, ends_read, ends_write,
    ends_ite, fx, Mem.child_apply, hdf, false_and, if_false, dy]
  split
  next hne =>
    refine rest _ ?_ ?_ ?_ ?_ ?_ ?_
    · simp
    · exact fun i hi => by simp [hi]
    · exact fun e i => by simp
    · rfl
    · rfl
    · simpa using hn
  next hne =>
    have hbl : b = leaf := eq_leaf_of_ptr hib (not_not.mp hne)
    refine rest _ (fun h => absurd hbl h) ?_ ?_ ?_ ?_ ?_
    · exact fun i _ => by simp
    · exact fun e i => by simp
    · rfl
    · rfl
    · simpa using hn

end Rotation

end Jump.MemPool.RBTree
