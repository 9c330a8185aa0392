import Jump.MemPool.RBTree.Code

/-! # Trees in the node array

`Linked` says that a node array holds a tree below a given parent, `LinkedCtx`
that it holds the rest of the tree around a hole. Both read the links of their
own nodes only, so a write elsewhere does not disturb them.
-/

namespace Jump.MemPool.RBTree

open Jump.Core Jump.Core.ColoredTree Jump.Core.Ctx Prog

variable {V : Type}

/-- The index that stands for a subtree. -/
def ptr : ColoredTree Nat → Nat
  | leaf => INVALID_POINT
  | node _ _ i _ => i

/-- The node the hole hangs on; `h` is the header. -/
def up (h : Nat) : Ctx Nat → Nat
  | [] => h
  | f :: _ => f.label

@[simp] theorem ptr_leaf : ptr leaf = INVALID_POINT := rfl

@[simp] theorem ptr_node (c : Color) (l r : ColoredTree Nat) (i : Nat) :
    ptr (node c l i r) = i := rfl

@[simp] theorem ptr_join (c : Color) (d : Dir) (t u : ColoredTree Nat) (i : Nat) :
    ptr (join c d t i u) = i := by cases d <;> rfl

@[simp] theorem up_nil (h : Nat) : up h [] = h := rfl

@[simp] theorem up_cons (h : Nat) (f : Frame Nat) (k : Ctx Nat) : up h (f :: k) = f.label := rfl

theorem ptr_mem {t : ColoredTree Nat} (ht : t ≠ leaf) : ptr t ∈ t.toList := by
  cases t with
  | leaf => exact absurd rfl ht
  | node c l i r => simp

theorem ptr_eq_or_mem (t : ColoredTree Nat) : ptr t = INVALID_POINT ∨ ptr t ∈ t.toList := by
  cases t with
  | leaf => exact Or.inl rfl
  | node c l i r => exact Or.inr (by simp)

theorem up_mem_labels {h : Nat} {k : Ctx Nat} : up h k = h ∨ up h k ∈ labels k := by
  cases k with
  | nil => exact Or.inl rfl
  | cons f k => exact Or.inr (mem_labels_cons.mpr (Or.inl rfl))

theorem eq_leaf_of_ptr {t : ColoredTree Nat} (hn : INVALID_POINT ∉ t.toList)
    (h : ptr t = INVALID_POINT) : t = leaf := by
  by_contra hne
  exact hn (h ▸ ptr_mem hne)

/-- The tree sits in the array with its root's parent `p`. -/
def Linked (m : Mem V) : Nat → ColoredTree Nat → Prop
  | _, leaf => True
  | p, node c l i r => m.parent i = p ∧ m.color i = c ∧ m.child .left i = ptr l ∧
      m.child .right i = ptr r ∧ Linked m i l ∧ Linked m i r

/-- The context sits in the array, and the link to its hole is `q`. -/
def LinkedCtx (m : Mem V) (h : Nat) : Ctx Nat → Nat → Prop
  | [], q => m.parent h = q
  | f :: k, q => m.parent f.label = up h k ∧ m.color f.label = f.color ∧
      m.child f.dir f.label = q ∧ m.child f.dir.flip f.label = ptr f.sibling ∧
      Linked m f.label f.sibling ∧ LinkedCtx m h k f.label

/-- `size_` of every node of the tree is the size of its subtree. -/
def Sized (m : Mem V) : ColoredTree Nat → Prop
  | leaf => True
  | node _ l i r => m.size i = l.card + r.card + 1 ∧ Sized m l ∧ Sized m r

/-- As `Sized`, for a hole that stands for `n` nodes. -/
def SizedCtx (m : Mem V) : Ctx Nat → Nat → Prop
  | [], _ => True
  | f :: k, n => m.size f.label = n + f.sibling.card + 1 ∧ Sized m f.sibling ∧
      SizedCtx m k (n + f.sibling.card + 1)

theorem linked_join {m : Mem V} {p : Nat} {c : Color} {d : Dir} {t u : ColoredTree Nat} {i : Nat} :
    Linked m p (join c d t i u) ↔ m.parent i = p ∧ m.color i = c ∧ m.child d i = ptr t ∧
      m.child d.flip i = ptr u ∧ Linked m i t ∧ Linked m i u := by
  cases d
  · exact Iff.rfl
  · simp only [join, Linked, Dir.flip]
    tauto

theorem sized_join {m : Mem V} {c : Color} {d : Dir} {t u : ColoredTree Nat} {i : Nat} :
    Sized m (join c d t i u) ↔ m.size i = t.card + u.card + 1 ∧ Sized m t ∧ Sized m u := by
  cases d
  · exact Iff.rfl
  · simp only [join, Sized, Nat.add_comm t.card]
    tauto

/-- The links of node `i` are the same in both memories. -/
def SameAt (m m' : Mem V) (i : Nat) : Prop :=
  m'.parent i = m.parent i ∧ m'.color i = m.color i ∧ ∀ d, m'.child d i = m.child d i

theorem Linked.reroot {m m' : Mem V} {p p' : Nat} {t : ColoredTree Nat} (h : Linked m p t)
    (root : t ≠ leaf → m'.parent (ptr t) = p')
    (parent : ∀ i ∈ t.toList, i ≠ ptr t → m'.parent i = m.parent i)
    (distinct : t.toList.Nodup)
    (rest : ∀ i ∈ t.toList, m'.color i = m.color i ∧ ∀ d, m'.child d i = m.child d i) :
    Linked m' p' t := by
  induction t generalizing p p' with
  | leaf => trivial
  | node c l i r ihl ihr =>
      simp only [toList_node] at distinct rest parent
      have hi := rest i (by simp)
      rw [List.nodup_append, List.nodup_cons] at distinct
      obtain ⟨dl, ⟨hir, dr⟩, hlr⟩ := distinct
      have hil : i ∉ l.toList := fun hm => hlr i hm i (by simp) rfl
      refine ⟨root (by simp), by rw [hi.1]; exact h.2.1, by rw [hi.2]; exact h.2.2.1,
        by rw [hi.2]; exact h.2.2.2.1, ?_, ?_⟩
      · have hp : ∀ j ∈ l.toList, m'.parent j = m.parent j := fun j hj =>
          parent j (by simp [hj]) fun e => hil ((show j = i from e) ▸ hj)
        refine ihl h.2.2.2.2.1 (fun hne => ?_) (fun j hj _ => hp j hj) dl
          fun j hj => rest j (by simp [hj])
        rw [hp _ (ptr_mem hne)]
        cases l with
        | leaf => exact absurd rfl hne
        | node => exact h.2.2.2.2.1.1
      · have hp : ∀ j ∈ r.toList, m'.parent j = m.parent j := fun j hj =>
          parent j (by simp [hj]) fun e => hir ((show j = i from e) ▸ hj)
        refine ihr h.2.2.2.2.2 (fun hne => ?_) (fun j hj _ => hp j hj) dr
          fun j hj => rest j (by simp [hj])
        rw [hp _ (ptr_mem hne)]
        cases r with
        | leaf => exact absurd rfl hne
        | node => exact h.2.2.2.2.2.1

theorem Linked.congr {m m' : Mem V} {p : Nat} {t : ColoredTree Nat} (h : Linked m p t)
    (same : ∀ i ∈ t.toList, SameAt m m' i) : Linked m' p t := by
  induction t generalizing p with
  | leaf => trivial
  | node c l i r ihl ihr =>
      obtain ⟨hp, hc, hd⟩ := same i (by simp)
      obtain ⟨h1, h2, h3, h4, h5, h6⟩ := h
      exact ⟨hp.trans h1, hc.trans h2, (hd _).trans h3, (hd _).trans h4,
        ihl h5 fun j hj => same j (by simp [hj]), ihr h6 fun j hj => same j (by simp [hj])⟩

theorem LinkedCtx.congr {m m' : Mem V} {h : Nat} {k : Ctx Nat} {q : Nat}
    (hk : LinkedCtx m h k q) (same : ∀ i ∈ labels k, SameAt m m' i)
    (root : m'.parent h = m.parent h) : LinkedCtx m' h k q := by
  induction k generalizing q with
  | nil => exact root.trans hk
  | cons f k ih =>
      obtain ⟨hp, hc, hd⟩ := same f.label (mem_labels_cons.mpr (Or.inl rfl))
      obtain ⟨h1, h2, h3, h4, h5, h6⟩ := hk
      refine ⟨hp.trans h1, hc.trans h2, (hd _).trans h3, (hd _).trans h4, ?_, ?_⟩
      · exact h5.congr fun i hi => same i (mem_labels_cons.mpr (Or.inr (Or.inl hi)))
      · exact ih h6 fun i hi => same i (mem_labels_cons.mpr (Or.inr (Or.inr hi)))

theorem Sized.congr {m m' : Mem V} {t : ColoredTree Nat} (h : Sized m t)
    (same : ∀ i ∈ t.toList, m'.size i = m.size i) : Sized m' t := by
  induction t with
  | leaf => trivial
  | node c l i r ihl ihr =>
      obtain ⟨h1, h2, h3⟩ := h
      exact ⟨(same i (by simp)).trans h1, ihl h2 fun j hj => same j (by simp [hj]),
        ihr h3 fun j hj => same j (by simp [hj])⟩

theorem SizedCtx.congr {m m' : Mem V} {k : Ctx Nat} {n : Nat} (hk : SizedCtx m k n)
    (same : ∀ i ∈ labels k, m'.size i = m.size i) : SizedCtx m' k n := by
  induction k generalizing n with
  | nil => trivial
  | cons f k ih =>
      obtain ⟨h1, h2, h3⟩ := hk
      refine ⟨(same f.label (mem_labels_cons.mpr (Or.inl rfl))).trans h1, ?_, ?_⟩
      · exact h2.congr fun i hi => same i (mem_labels_cons.mpr (Or.inr (Or.inl hi)))
      · exact ih h3 fun i hi => same i (mem_labels_cons.mpr (Or.inr (Or.inr hi)))

/-! ## Moving the focus -/

/-- The array holds `plug k t`, seen from the hole of `k`; no index is used twice. -/
structure Focus (m : Mem V) (h : Nat) (k : Ctx Nat) (t : ColoredTree Nat) : Prop where
  header : m.numOfNode = h
  ctx : LinkedCtx m h k (ptr t)
  sub : Linked m (up h k) t
  distinct : (h :: INVALID_POINT :: (t.toList ++ labels k)).Nodup

theorem distinct_up_iff {h : Nat} {f : Frame Nat} {k : Ctx Nat} {t : ColoredTree Nat} :
    (h :: INVALID_POINT :: (t.toList ++ labels (f :: k))).Nodup ↔
      (h :: INVALID_POINT ::
        ((join f.color f.dir t f.label f.sibling).toList ++ labels k)).Nodup := by
  refine List.Perm.nodup_iff (List.Perm.cons h (List.Perm.cons _ ?_))
  refine (List.Perm.append_left _ (labels_cons_perm f k)).trans ?_
  refine List.perm_middle.trans ?_
  rw [← List.append_assoc]
  exact (toList_join_perm f.color f.dir t f.sibling f.label).symm.append_right _

theorem focus_up_iff {m : Mem V} {h : Nat} {f : Frame Nat} {k : Ctx Nat} {t : ColoredTree Nat} :
    Focus m h (f :: k) t ↔ Focus m h k (join f.color f.dir t f.label f.sibling) := by
  constructor
  · rintro ⟨hn, ⟨h1, h2, h3, h4, h5, h6⟩, hs, hd⟩
    exact ⟨hn, by rwa [ptr_join], linked_join.mpr ⟨h1, h2, h3, h4, hs, h5⟩,
      distinct_up_iff.mp hd⟩
  · rintro ⟨hn, hk, hs, hd⟩
    obtain ⟨h1, h2, h3, h4, h5, h6⟩ := linked_join.mp hs
    rw [ptr_join] at hk
    exact ⟨hn, ⟨h1, h2, h3, h4, h6, hk⟩, h5, distinct_up_iff.mpr hd⟩

theorem focus_plug_iff {m : Mem V} {h : Nat} {k k' : Ctx Nat} {t : ColoredTree Nat} :
    Focus m h (k ++ k') t ↔ Focus m h k' (plug k t) := by
  induction k generalizing t with
  | nil => rfl
  | cons f k ih => exact focus_up_iff.trans ih

theorem sized_up_iff {m : Mem V} {f : Frame Nat} {k : Ctx Nat} {t : ColoredTree Nat} :
    (Sized m t ∧ SizedCtx m (f :: k) t.card) ↔
      (Sized m (join f.color f.dir t f.label f.sibling) ∧
        SizedCtx m k (join f.color f.dir t f.label f.sibling).card) := by
  rw [sized_join, card_join, SizedCtx]
  tauto

section Focus

variable {m : Mem V} {h : Nat} {k : Ctx Nat} {t : ColoredTree Nat}

theorem Focus.header_ne (hf : Focus m h k t) : h ≠ INVALID_POINT := by
  have hd := hf.distinct
  simp only [List.nodup_cons, List.mem_cons, not_or] at hd
  exact hd.1.1

theorem Focus.invalid_not_mem (hf : Focus m h k t) : INVALID_POINT ∉ t.toList := by
  have hd := hf.distinct
  simp only [List.nodup_cons, List.mem_cons, List.mem_append, not_or] at hd
  exact hd.2.1.1

theorem Focus.ptr_eq_invalid (hf : Focus m h k t) : ptr t = INVALID_POINT ↔ t = leaf := by
  constructor
  · exact eq_leaf_of_ptr hf.invalid_not_mem
  · rintro rfl
    rfl

/-- Below a non-empty context the root is a node of the context. -/
theorem LinkedCtx.root_mem {q : Nat} (hk : LinkedCtx m h k q) (hne : k ≠ []) :
    m.parent h ∈ labels k := by
  induction k generalizing q with
  | nil => exact absurd rfl hne
  | cons f k ih =>
      cases k with
      | nil => exact mem_labels_cons.mpr (Or.inl hk.2.2.2.2.2)
      | cons g k => exact mem_labels_cons.mpr (Or.inr (Or.inr (ih hk.2.2.2.2.2 (by simp))))

theorem Focus.ptr_not_mem_labels (hf : Focus m h k t) : ptr t ∉ labels k := by
  have hd := hf.distinct
  simp only [List.nodup_cons, List.mem_cons, List.mem_append, not_or, List.nodup_append] at hd
  obtain ⟨-, ⟨-, hik⟩, -, -, hdis⟩ := hd
  rcases ptr_eq_or_mem t with hp | hp
  · rwa [hp]
  · exact fun hm => hdis _ hp _ hm rfl

/-- The hole is at the root exactly when the focus is on the root pointer. -/
theorem Focus.ptr_eq_root_iff (hf : Focus m h k t) : ptr t = m.parent h ↔ k = [] := by
  constructor
  · intro he
    by_contra hne
    exact hf.ptr_not_mem_labels (he ▸ hf.ctx.root_mem hne)
  · rintro rfl
    exact hf.ctx.symm

/-- Which side of its parent the hole hangs on is read off the array. -/
theorem Focus.child_eq_ptr_iff {f : Frame Nat} (hf : Focus m h (f :: k) t) (ht : t ≠ leaf)
    (d : Dir) :
    m.child d f.label = ptr t ↔ d = f.dir := by
  obtain ⟨-, -, hc, hs, -, -⟩ := hf.ctx
  constructor
  · intro he
    rcases Dir.eq_or_eq_flip f.dir d with hd | hd
    · exact hd
    · subst hd
      rw [hs] at he
      have hp := hf.ptr_not_mem_labels
      rcases ptr_eq_or_mem f.sibling with hi | hi
      · exact absurd (he.symm.trans hi) fun hi' => ht (hf.ptr_eq_invalid.mp hi')
      · exact absurd (mem_labels_cons.mpr (Or.inr (Or.inl (he ▸ hi)))) hp
  · rintro rfl
    exact hc

end Focus

end Jump.MemPool.RBTree
