import Jump.MemPool.RBTree.EraseBalance
import Jump.MemPool.RBTree.Search

/-! # Taking a node out of the tree

A node with one child at most is spliced out of its place. A node with two
children is replaced by its successor, which is spliced out first. Both leave
every size on the way from the hole to the root one too large.
-/

namespace Jump.MemPool.RBTree

open Jump.Core Jump.Core.ColoredTree Jump.Core.Ctx Prog

variable {V : Type}

/-- The header's `left_` and `right_` are the ends of the sequence. -/
def Edges (m : Mem V) (h : Nat) (xs : List Nat) : Prop :=
  ∀ d, m.child d h = (rim d xs).getD h

/-- The memory after `cur`, of colour `c`, left the tree; `x` is in the hole. -/
structure Unlinked (h cur : Nat) (xs : List Nat) (c : Color) (m₀ m : Mem V) (k : Ctx Nat)
    (x : ColoredTree Nat) : Prop extends Focus m h k x where
  sized : Sized m x
  stale : SizedCtx m k (x.card + 1)
  seq : (plug k x).toList = xs
  edges : Edges m h xs
  color : m.color cur = c
  outside : ∀ i ∉ h :: cur :: xs, ∀ d, m.child d i = m₀.child d i

/-! ## Splicing -/

/-- The memory in which `s` took the place of the node in the hole of `k`. -/
def spliced (h : Nat) (k : Ctx Nat) (s : ColoredTree Nat) (m : Mem V) : Mem V :=
  setLink h k (ptr s)
    (if ptr s ≠ INVALID_POINT then Store.apply (Write.parent (ptr s) (up h k)) m else m)

section Splice

variable {m : Mem V} {h : Nat} {k : Ctx Nat} {s : ColoredTree Nat} {c : Color} {e : Dir} {cur : Nat}

theorem spliced_parent {i : Nat} (hi : i ≠ h) : (spliced h k s m).parent i =
    if ptr s ≠ INVALID_POINT ∧ i = ptr s then up h k else m.parent i := by
  rw [spliced, setLink_parent hi]
  by_cases hs : ptr s ≠ INVALID_POINT
  · simp [hs]
  · simp [hs]

theorem spliced_child {i : Nat} (hi : i ∉ labels k) (d : Dir) :
    (spliced h k s m).child d i = m.child d i := by
  rw [spliced, setLink_child hi]
  split <;> rfl

@[simp] theorem spliced_color : (spliced h k s m).color = m.color := by
  rw [spliced, setLink_color]
  split <;> rfl

@[simp] theorem spliced_size : (spliced h k s m).size = m.size := by
  rw [spliced, setLink_size]
  split <;> rfl

@[simp] theorem spliced_numOfNode : (spliced h k s m).numOfNode = m.numOfNode := by
  rw [spliced, setLink_numOfNode]
  split <;> rfl

/-- The names in play when `cur` with its only child `s` is in the hole. -/
theorem Focus.splice_distinct (hf : Focus m h k (join c e s cur leaf)) :
    (h :: INVALID_POINT :: cur :: (s.toList ++ labels k)).Nodup := by
  have hp := (toList_join_perm c e s leaf cur).append_right (labels k)
  rw [toList_leaf, List.append_nil] at hp
  exact (List.Perm.nodup_iff ((hp.cons _).cons h)).mp hf.distinct

theorem Focus.splice (hf : Focus m h k (join c e s cur leaf)) : Focus (spliced h k s m) h k s := by
  have hd := hf.splice_distinct
  simp only [List.nodup_cons, List.mem_cons, List.mem_append, List.nodup_append, not_or] at hd
  obtain ⟨⟨hhi, hhc, hhs, hhk⟩, ⟨hic, his, hik⟩, ⟨hcs, hck⟩, ds, dk, hsk⟩ := hd
  obtain ⟨-, -, -, -, hl, -⟩ := linked_join.mp hf.sub
  have hne : ∀ i, i ≠ INVALID_POINT → i ∉ s.toList → ¬ (ptr s ≠ INVALID_POINT ∧ i = ptr s) := by
    rintro i hi hs ⟨-, rfl⟩
    exact (ptr_eq_or_mem s).elim hi hs
  refine ⟨?_, ?_, ?_, ?_⟩
  · rw [spliced_numOfNode]
    exact hf.header
  · have hk := hf.ctx
    rw [ptr_join] at hk
    refine linkedCtx_setLink (hk.congr (fun i hi => ?_) ?_) (List.nodup_cons.mpr ⟨hhk, dk⟩)
    · have hi' : i ≠ ptr s := fun he => (ptr_eq_or_mem s).elim (fun hp => hik (hp ▸ he ▸ hi))
        fun hp => hsk _ (he ▸ hp) _ hi rfl
      split
      · simp [SameAt, hi']
      · exact ⟨rfl, rfl, fun _ => rfl⟩
    · have hh' : h ≠ ptr s := fun he => (ptr_eq_or_mem s).elim (fun hp => hhi (he.trans hp))
        fun hp => hhs (he ▸ hp)
      split
      · simp [hh']
      · rfl
  · refine hl.reroot (fun hs => ?_) (fun i hi hne' => ?_) ds fun i hi => ?_
    · have hp : ptr s ≠ INVALID_POINT := fun he => his (he ▸ ptr_mem hs)
      rw [spliced_parent fun he : ptr s = h => hhs (he ▸ ptr_mem hs), if_pos ⟨hp, rfl⟩]
    · rw [spliced_parent fun he : i = h => hhs (he ▸ hi), if_neg fun hc => hne' hc.2]
    · refine ⟨by rw [spliced_color], fun d => spliced_child (fun hk => hsk i hi i hk rfl) d⟩
  · simp only [List.nodup_cons, List.mem_cons, List.mem_append, List.nodup_append, not_or]
    exact ⟨⟨hhi, hhs, hhk⟩, ⟨his, hik⟩, ds, dk, hsk⟩

/-- Moving an end of the header does not disturb the tree. -/
theorem Focus.setEdge {t : ColoredTree Nat} {d : Dir} {v : Nat} (hf : Focus m h k t) :
    Focus (Store.apply (Write.child d h v) m) h k t := by
  have hd := hf.distinct
  simp only [List.nodup_cons, List.mem_cons, List.mem_append, not_or] at hd
  obtain ⟨⟨-, hht, hhk⟩, -⟩ := hd
  have same : ∀ i, i ≠ h → SameAt m (Store.apply (Write.child d h v) m) i := by
    intro i hi
    simp [SameAt, hi]
  refine ⟨by simpa using hf.header, ?_, ?_, hf.distinct⟩
  · exact hf.ctx.congr (fun i hi => same i fun he => hhk (he ▸ hi)) (by simp)
  · exact hf.sub.congr fun i hi => same i fun he => hht (he ▸ hi)

theorem splice_lists (c : Color) (e : Dir) (s : ColoredTree Nat) (cur : Nat) (k : Ctx Nat) :
    ∃ xs ys,
    (plug k (join c e s cur leaf)).toList = xs ++ cur :: ys ∧ (plug k s).toList = xs ++ ys ∧
      ∀ d, (match d with | .left => xs | .right => ys) = [] →
        beside d k = [] ∧ (e = d → s = leaf) := by
  have hleaf : s.toList = [] → s = leaf := by
    intro hs
    cases s with
    | leaf => rfl
    | node c l i r => simp at hs
  cases e with
  | left =>
      refine ⟨before k ++ s.toList, after k, by simp [toList_plug, join], by simp [toList_plug],
        fun d hd => ?_⟩
      cases d with
      | left =>
          obtain ⟨hb, hs⟩ := List.append_eq_nil_iff.mp hd
          exact ⟨hb, fun _ => hleaf hs⟩
      | right => exact ⟨hd, by simp⟩
  | right =>
      refine ⟨before k, s.toList ++ after k, by simp [toList_plug, join], by simp [toList_plug],
        fun d hd => ?_⟩
      cases d with
      | left => exact ⟨hd, by simp⟩
      | right =>
          obtain ⟨hs, ha⟩ := List.append_eq_nil_iff.mp hd
          exact ⟨ha, fun _ => hleaf hs⟩

theorem Mem.apply_child_self {d : Dir} {i p : Nat} (hp : m.child d i = p) :
    Store.apply (Write.child d i p) m = m := by
  simp only [Mem.apply_def, Mem.apply]
  congr 1
  funext e j
  split
  next he => rw [he.1, he.2, hp]
  next => rfl

theorem Mem.apply_size_self {i : Nat} : Store.apply (Write.size i (m.size i)) m = m := by
  simp only [Mem.apply_def, Mem.apply]
  congr 1
  funext j
  split
  next he => rw [he]
  next => rfl

/-- One end of the header after the splice. -/
theorem eraseExtreme_ends {m' : Mem V} {d : Dir} (hf : Focus m h k (join c e s cur leaf))
    (hs : Focus m' h k s) (hcard : s.card ≤ h)
    (old : m'.child d h = (rim d (plug k (join c e s cur leaf)).toList).getD h)
    (hpar : m'.parent cur = up h k) (hflip : m'.child d.flip cur = m.child d.flip cur)
    {Q : Unit → Mem V → Prop}
    (hQ : Q () (Store.apply (Write.child d h ((rim d (plug k s).toList).getD h)) m')) :
    Ends (eraseExtreme d cur (ptr s)) m' Q := by
  obtain ⟨xs, ys, hold, hnew, hbeside⟩ := splice_lists c e s cur k
  have hcur : cur ≠ h ∧ cur ≠ INVALID_POINT :=
    hf.mem_ne (Or.inl (mem_toList_join.mpr (Or.inr (Or.inl rfl))))
  have hnodup : (xs ++ cur :: ys).Nodup := by
    have hd := hf.distinct
    simp only [List.nodup_cons] at hd
    rw [← hold]
    exact (toList_plug_perm k _).nodup_iff.mpr hd.2.2
  simp only [eraseExtreme, header, child, parent, setChild, ends_bind, ends_read, ends_ite,
    ends_write, ends_pure, hs.header, hpar, hflip]
  by_cases hrim : rim d (xs ++ cur :: ys) = some cur
  · obtain ⟨hb, hes⟩ := hbeside d (rim_middle hnodup hrim)
    rw [hold, hrim, Option.getD_some] at old
    rw [if_pos old]
    -- the child of `cur` away from the end it is at
    have hchild : m.child d.flip cur = ptr s ∧ s ≠ leaf ∨ m.child d.flip cur = INVALID_POINT ∧
        s = leaf := by
      obtain ⟨-, -, h1, h2, -, -⟩ := linked_join.mp hf.sub
      rcases Dir.eq_or_eq_flip d e with he | he
      · subst he
        exact Or.inr ⟨h2, hes rfl⟩
      · subst he
        by_cases hsl : s = leaf
        · exact Or.inr ⟨by rw [h1, hsl]; rfl, hsl⟩
        · exact Or.inl ⟨h1, hsl⟩
    rcases hchild with ⟨hc, hsl⟩ | ⟨hc, hsl⟩
    · have hp : ptr s ≠ INVALID_POINT := hs.ptr_ne hsl
      rw [hc, if_neg hp]
      refine (extreme_ends d hs hsl hcard).mono fun y m'' h'' => ?_
      obtain ⟨rfl, k', c', x, rfl, hdir⟩ := h''
      have hend : rim d (plug k' (join c' d leaf y x)).toList = some y := by
        cases d with
        | left => exact head_of_extreme hdir
        | right => exact last_of_extreme hdir
      rw [rim_plug hb hsl, hend, Option.getD_some] at hQ
      exact hQ
    · subst hsl
      rw [hc, if_pos rfl]
      cases k with
      | nil => simpa [rim_eq_none.mpr] using hQ
      | cons f k =>
          rw [rim_plug_leaf hb, Option.getD_some] at hQ
          exact hQ
  · have hne : m'.child d h ≠ cur := by
      rw [old, hold]
      cases hr : rim d (xs ++ cur :: ys) with
      | none => exact Ne.symm hcur.1
      | some a =>
          rw [hr] at hrim
          exact fun he => hrim (congrArg some he)
    rw [if_neg hne]
    rw [hnew, rim_erase_middle hrim, ← hold, Mem.apply_child_self old] at hQ
    exact hQ

theorem eraseSplice_ends (hh : Holds m h k (join c e s cur leaf))
    (edges : Edges m h (plug k (join c e s cur leaf)).toList) (hcard : s.card ≤ h) :
    Ends (eraseSplice cur (ptr s)) m fun xp m' => xp = up h k ∧
      Unlinked h cur (plug k s).toList c m m' k s := by
  have hf := hh.toFocus
  have hd := hf.splice_distinct
  simp only [List.nodup_cons, List.mem_cons, List.mem_append, List.nodup_append, not_or] at hd
  obtain ⟨⟨hhi, hhc, hhs, hhk⟩, ⟨hic, his, hik⟩, ⟨hcs, hck⟩, ds, dk, hsk⟩ := hd
  obtain ⟨hpar, hcol, -, -, -, -⟩ := linked_join.mp hf.sub
  have hcp : ¬ (ptr s ≠ INVALID_POINT ∧ cur = ptr s) := by
    rintro ⟨hi, rfl⟩
    exact (ptr_eq_or_mem s).elim hi hcs
  have hsp := hf.splice
  -- what `relink` needs, with the parent of `s` already moved
  have hlink : LinkedCtx (if ptr s ≠ INVALID_POINT then
      Store.apply (Write.parent (ptr s) (up h k)) m else m) h k cur := by
    have hk := hf.ctx
    rw [ptr_join] at hk
    refine hk.congr (fun i hi => ?_) ?_
    · have hi' : i ≠ ptr s := fun he => (ptr_eq_or_mem s).elim (fun hp => hik (hp ▸ he ▸ hi))
        fun hp => hsk _ (he ▸ hp) _ hi rfl
      split
      · simp [SameAt, hi']
      · exact ⟨rfl, rfl, fun _ => rfl⟩
    · have hh' : h ≠ ptr s := fun he => (ptr_eq_or_mem s).elim (fun hp => hhi (he.trans hp))
        fun hp => hhs (he ▸ hp)
      split
      · simp [hh']
      · rfl
  have hrest : Ends (do
      relink .left cur (ptr s)
      setSize cur (← size cur)
      eraseExtreme .left cur (ptr s)
      eraseExtreme .right cur (ptr s)
      return up h k) (if ptr s ≠ INVALID_POINT then
        Store.apply (Write.parent (ptr s) (up h k)) m else m) fun xp m' => xp = up h k ∧
      Unlinked h cur (plug k s).toList c m m' k s := by
    simp only [ends_bind]
    refine relink_ends .left ?_ hlink ?_ hck (Ne.symm hic) ?_
    · split
      · exact hf.header
      · exact hf.header
    · split
      next hp =>
        have hne : cur ≠ ptr s := fun he => hcp ⟨hp, he⟩
        simpa [hne] using hpar
      next => exact hpar
    rw [← spliced]
    simp only [setSize, size, ends_read, ends_write]
    rw [Mem.apply_size_self]
    have hp' : (spliced h k s m).parent cur = up h k := by
      rw [spliced_parent (Ne.symm hhc), if_neg hcp, hpar]
    have hc' : ∀ d, (spliced h k s m).child d cur = m.child d cur := fun d =>
      spliced_child hck d
    have hold : ∀ d, (spliced h k s m).child d h = m.child d h := fun d => spliced_child hhk d
    refine eraseExtreme_ends hf hsp hcard ((hold _).trans (edges .left)) hp' (hc' _) ?_
    refine eraseExtreme_ends hf hsp.setEdge hcard ?_ (by simpa using hp') ?_ ?_
    · have he := (hold .right).trans (edges .right)
      simpa using he
    · have he := hc' Dir.right.flip
      simpa [Ne.symm hhc] using he
    simp only [ends_pure]
    refine ⟨trivial, ⟨hsp.setEdge.setEdge, ?_, ?_, rfl, ?_, ?_, ?_⟩⟩
    · obtain ⟨-, hss, -⟩ := sized_join.mp hh.sized
      exact hss.congr (by simp)
    · have hk := hh.sizedCtx
      rw [card_join, card_leaf, Nat.add_zero] at hk
      exact hk.congr (by simp)
    · intro d
      cases d <;> simp
    · simpa using hcol
    · intro i hi d
      simp only [List.mem_cons, not_or] at hi
      have hk : i ∉ labels k := fun hm => hi.2.2 (by
        rw [toList_plug_perm k s |>.mem_iff]
        exact List.mem_append_right _ hm)
      simp [hi.1, spliced_child hk]
  simp only [ends_bind] at hrest
  simp only [eraseSplice, parent, setParent, ends_bind, ends_read, ends_ite, ends_write, hpar]
  split
  next hp => simpa only [if_pos hp] using hrest
  next hp => simpa only [if_neg hp] using hrest

end Splice

/-! ## The successor takes the place -/

theorem ptr_plug_congr {k : Ctx Nat} {t t' : ColoredTree Nat} (h : ptr t = ptr t') :
    ptr (plug k t) = ptr (plug k t') := by
  induction k generalizing t t' with
  | nil => exact h
  | cons f k ih => exact ih (by simp)

theorem ptr_plug_mem {f : Frame Nat} {k : Ctx Nat} {t : ColoredTree Nat} :
    ptr (plug (f :: k) t) ∈ labels (f :: k) := by
  induction k generalizing f t with
  | nil => simp [mem_labels_cons]
  | cons g k ih => exact mem_labels_cons.mpr (Or.inr (Or.inr ih))

/-- Sizes of a composed context. -/
theorem sizedCtx_append_iff {m : Mem V} {k k' : Ctx Nat} {n : Nat} :
    SizedCtx m (k ++ k') n ↔ SizedCtx m k n ∧ SizedCtx m k' (n + (labels k).length) := by
  induction k generalizing n with
  | nil => simp [SizedCtx]
  | cons f k ih =>
      have hl := (labels_cons_perm f k).length_eq
      rw [List.length_cons, List.length_append] at hl
      have hn : n + f.sibling.card + 1 + (labels k).length = n + (labels (f :: k)).length := by
        rw [hl, card]
        omega
      simp only [List.cons_append, SizedCtx, ih, hn]
      tauto

section Transplant

variable {m : Mem V} {h : Nat} {k rk : Ctx Nat} {l x : ColoredTree Nat} {c cy : Color} {cur y : Nat}

/-- The names in play when `y` is the successor of `cur`. -/
theorem Focus.transplant_distinct
    (hf : Focus m h k (node c l cur (plug rk (node cy leaf y x)))) :
    (h :: INVALID_POINT :: cur :: y :: (l.toList ++ (plug rk x).toList ++ labels k)).Nodup := by
  have hr : (plug rk (node cy leaf y x)).toList.Perm (y :: (plug rk x).toList) := by
    simp only [toList_plug, toList_node, toList_leaf, List.nil_append]
    rw [List.append_assoc, List.append_assoc]
    exact List.perm_middle
  have hp : ((node c l cur (plug rk (node cy leaf y x))).toList ++ labels k).Perm
      (cur :: y :: (l.toList ++ (plug rk x).toList ++ labels k)) := by
    refine (List.perm_middle.append_right _).trans (List.Perm.cons cur ?_)
    refine (List.Perm.append_right _ (hr.append_left _)).trans ?_
    exact List.perm_middle.append_right _
  exact (List.Perm.nodup_iff ((hp.cons _).cons h)).mp hf.distinct

/-- The memory in which the place of `cur` is empty and `y` has its children. -/
structure Prepared (m m₂ : Mem V) (h : Nat) (k rk : Ctx Nat) (c : Color) (l r x : ColoredTree Nat)
    (cur y : Nat) : Prop where
  numOfNode : m₂.numOfNode = h
  color : m₂.color = m.color
  size : m₂.size = m.size
  parent : ∀ i, i ≠ ptr l → i ≠ ptr r → i ≠ ptr x → m₂.parent i = m.parent i
  parent_x : x ≠ leaf → rk ≠ [] → m₂.parent (ptr x) = up h (rk ++ ⟨.right, c, cur, l⟩ :: k)
  parent_l : m₂.parent (ptr l) = y
  parent_r : r ≠ leaf → m₂.parent (ptr r) = y
  child : ∀ i d, i ≠ cur → i ≠ y →
    m₂.child d i = (spliced h (rk ++ ⟨.right, c, cur, l⟩ :: k) x m).child d i
  left_y : m₂.child .left y = ptr l
  right_y : m₂.child .right y = ptr r

theorem Prepared.ends {m₂ : Mem V} {r : ColoredTree Nat} (hp : Prepared m m₂ h k rk c l r x cur y)
    (hh : Holds m h k (node c l cur (plug rk (node cy leaf y x)))) (hl : l ≠ leaf)
    (hr : plug rk x = r) (hrk : ∀ f ∈ rk, f.dir = .left)
    (edges : Edges m h (plug k (node c l cur (plug rk (node cy leaf y x)))).toList) (xp : Nat) :
    Ends (do
      relink .left cur y
      setParent y (← RBTree.parent cur)
      let c ← RBTree.color y
      setColor y (← RBTree.color cur)
      setColor cur c
      setSize y (← RBTree.size cur)
      return xp) m₂ fun xp' m' => xp' = xp ∧
        Unlinked h cur (plug (rk ++ ⟨.right, c, y, l⟩ :: k) x).toList cy m m'
          (rk ++ ⟨.right, c, y, l⟩ :: k) x := by
  have hf := hh.toFocus
  have hd := hf.transplant_distinct
  have hrx : ∀ i ∈ x.toList, i ∈ r.toList := fun i hi => by
    rw [← hr]
    exact (toList_plug_perm rk x).mem_iff.mpr (List.mem_append_left _ hi)
  have hrl : ∀ i ∈ labels rk, i ∈ r.toList := fun i hi => by
    rw [← hr]
    exact (toList_plug_perm rk x).mem_iff.mpr (List.mem_append_right _ hi)
  rw [hr] at hd
  simp only [List.nodup_cons, List.mem_cons, List.mem_append, List.nodup_append, not_or] at hd
  obtain ⟨⟨hhi, hhc, hhy, ⟨hhl, hhr⟩, hhk⟩, ⟨hic, hiy, ⟨hil, hir⟩, hik⟩,
    ⟨hcy, ⟨hcl, hcr⟩, hck⟩, ⟨⟨hyl, hyr⟩, hyk⟩, ⟨dl, dr, hlr⟩, dk, htk⟩ := hd
  -- a name outside `l` and `r` is none of their root pointers
  have out : ∀ i, i ≠ INVALID_POINT → i ∉ l.toList → i ∉ r.toList →
      i ≠ ptr l ∧ i ≠ ptr r ∧ i ≠ ptr x := by
    intro i hi hil hir
    refine ⟨fun he => ?_, fun he => ?_, fun he => ?_⟩
    · exact (ptr_eq_or_mem l).elim (fun hp => hi (he.trans hp)) fun hp => hil (he ▸ hp)
    · exact (ptr_eq_or_mem r).elim (fun hp => hi (he.trans hp)) fun hp => hir (he ▸ hp)
    · exact (ptr_eq_or_mem x).elim (fun hp => hi (he.trans hp)) fun hp => hir (hrx _ (he ▸ hp))
  have hsame : ∀ i, i ≠ INVALID_POINT → i ∉ l.toList → i ∉ r.toList →
      m₂.parent i = m.parent i := by
    intro i hi hil hir
    obtain ⟨h1, h2, h3⟩ := out i hi hil hir
    exact hp.parent i h1 h2 h3
  obtain ⟨hparc, hcolc, hleftc, -, hll, hlr'⟩ := hf.sub
  -- the tree with `y` spliced out, below `cur`
  have hsub : Holds m h (rk ++ ⟨.right, c, cur, l⟩ :: k) (node cy leaf y x) :=
    holds_plug_iff.mpr (holds_up_iff.mpr hh)
  have hcoly : m.color y = cy := hsub.sub.2.1
  have hspl : Focus (spliced h (rk ++ ⟨.right, c, cur, l⟩ :: k) x m) h k (node c l cur r) := by
    have hs := Focus.splice (e := .right) hsub.toFocus
    rw [focus_plug_iff, focus_up_iff, hr] at hs
    exact hs
  have hchild : ∀ i, i ≠ cur → i ≠ y → i ∉ r.toList → ∀ d, m₂.child d i = m.child d i := by
    intro i hic hiy hir d
    rw [hp.child i d hic hiy]
    cases rk with
    | nil =>
        rw [List.nil_append, spliced]
        simp only [setLink, Mem.child_apply, hic, and_false, if_false]
        split <;> simp
    | cons f rk =>
        have hif : i ≠ f.label := by
          rintro rfl
          exact hir (hrl _ (mem_labels_cons.mpr (Or.inl rfl)))
        rw [List.cons_append, spliced]
        simp only [setLink, Mem.child_apply, hif, and_false, if_false]
        split <;> simp
  have hlink : LinkedCtx m₂ h k cur := by
    refine hf.ctx.congr (fun i hi => ⟨?_, by rw [hp.color], fun d => ?_⟩) ?_
    · exact hsame i (fun he => hik (he ▸ hi)) (fun hl => htk i (Or.inl hl) i hi rfl)
        fun hr => htk i (Or.inr hr) i hi rfl
    · exact hchild i (fun he => hck (he ▸ hi)) (fun he => hyk (he ▸ hi))
        (fun hr => htk i (Or.inr hr) i hi rfl) d
    · exact hsame h hhi hhl hhr
  have hparc₂ : m₂.parent cur = up h k := (hsame cur (Ne.symm hic) hcl hcr).trans hparc
  simp only [ends_bind]
  refine relink_ends .left hp.numOfNode hlink hparc₂ hck (Ne.symm hic) ?_
  have hlink' := linkedCtx_setLink (q := y) hlink (List.nodup_cons.mpr ⟨hhk, dk⟩)
  have hpar' : ∀ i, i ≠ h → (setLink h k y m₂).parent i = m₂.parent i := fun i => setLink_parent
  have hchild' : ∀ i, i ∉ labels k → ∀ d, (setLink h k y m₂).child d i = m₂.child d i :=
    fun i hi d => setLink_child hi d
  have hcol' : (setLink h k y m₂).color = m.color := by rw [setLink_color, hp.color]
  have hsz' : (setLink h k y m₂).size = m.size := by rw [setLink_size, hp.size]
  have hnum' : (setLink h k y m₂).numOfNode = h := by rw [setLink_numOfNode, hp.numOfNode]
  generalize setLink h k y m₂ = m₃ at *
  have hcurp : m₃.parent cur = up h k := (hpar' cur (Ne.symm hhc)).trans hparc₂
  simp only [RBTree.parent, RBTree.color, RBTree.size, setParent, setColor, setSize, ends_read,
    ends_write, ends_pure, Mem.color_apply, Mem.size_apply, hcurp, hcol', hsz', hcolc, hcoly]
  have hwhole : Focus (Store.apply (Write.size y (m.size cur)) (Store.apply (Write.color cur cy)
      (Store.apply (Write.color y c) (Store.apply (Write.parent y (up h k)) m₃)))) h k
      (node c l y r) := by
    refine ⟨by simpa using hnum', ?_, ?_, ?_⟩
    · refine hlink'.congr (fun i hi => ?_) ?_
      · have hiy : i ≠ y := fun he => hyk (he ▸ hi)
        have hic : i ≠ cur := fun he => hck (he ▸ hi)
        simp [SameAt, hiy, hic]
      · simp [hhy]
    · refine ⟨by simp, by simp [Ne.symm hcy], ?_, ?_, ?_, ?_⟩
      · simpa [hchild' y hyk] using hp.left_y
      · simpa [hchild' y hyk] using hp.right_y
      · refine hll.reroot (fun hne => ?_) (fun i hi hne => ?_) dl fun i hi => ?_
        · have hly : ptr l ≠ y := fun he => hyl (he ▸ ptr_mem hne)
          have hlh : ptr l ≠ h := fun he => hhl (he ▸ ptr_mem hne)
          simp [hly, hpar' _ hlh, hp.parent_l]
        · have hiy : i ≠ y := fun he => hyl (he ▸ hi)
          have hih : i ≠ h := fun he => hhl (he ▸ hi)
          have hir' : i ≠ ptr r := fun he => (ptr_eq_or_mem r).elim (fun hp => hil (hp ▸ he ▸ hi))
            fun hp => hlr i hi _ hp he
          have hix : i ≠ ptr x := fun he => (ptr_eq_or_mem x).elim (fun hp => hil (hp ▸ he ▸ hi))
            fun hp => hlr i hi _ (hrx _ hp) he
          simp [hiy, hpar' i hih, hp.parent i hne hir' hix]
        · have hiy : i ≠ y := fun he => hyl (he ▸ hi)
          have hic' : i ≠ cur := fun he => hcl (he ▸ hi)
          have hik' : i ∉ labels k := fun hk => htk i (Or.inl hi) i hk rfl
          have hc := hchild i hic' hiy (fun hr => hlr i hi i hr rfl)
          simp [hiy, hic', hcol', hchild' i hik', hc]
      · refine hspl.sub.2.2.2.2.2.reroot (fun hne => ?_) (fun i hi hne => ?_) dr fun i hi => ?_
        · have hry : ptr r ≠ y := fun he => hyr (he ▸ ptr_mem hne)
          have hrh : ptr r ≠ h := fun he => hhr (he ▸ ptr_mem hne)
          simp [hry, hpar' _ hrh, hp.parent_r hne]
        · have hiy : i ≠ y := fun he => hyr (he ▸ hi)
          have hih : i ≠ h := fun he => hhr (he ▸ hi)
          have hil' : i ≠ ptr l := fun he => hlr _ (he ▸ ptr_mem hl) i hi he.symm
          rw [spliced_parent hih]
          by_cases hix : i = ptr x
          · have hxi : ptr x ≠ INVALID_POINT := fun he => hir (he ▸ hix ▸ hi)
            have hxl : x ≠ leaf := fun he => hxi (by rw [he]; rfl)
            have hrk0 : rk ≠ [] := by
              rintro rfl
              exact hne (hix.trans (by rw [← hr]; rfl))
            rw [if_pos ⟨hxi, hix⟩]
            have hpx := hp.parent_x hxl hrk0
            rw [← hix] at hpx
            simp [hiy, hpar' i hih, hpx]
          · rw [if_neg fun hc => hix hc.2]
            simp [hiy, hpar' i hih, hp.parent i hil' hne hix]
        · have hiy : i ≠ y := fun he => hyr (he ▸ hi)
          have hic' : i ≠ cur := fun he => hcr (he ▸ hi)
          have hik' : i ∉ labels k := fun hk => htk i (Or.inr hi) i hk rfl
          simp [hiy, hic', hcol', hchild' i hik', hp.child i _ hic' hiy]
    · have hp' : ((node c l y r).toList ++ labels k).Perm
          (y :: (l.toList ++ r.toList ++ labels k)) := List.perm_middle.append_right _
      refine (List.Perm.nodup_iff ((hp'.cons _).cons h)).mpr ?_
      simp only [List.nodup_cons, List.mem_cons, List.mem_append, List.nodup_append, not_or]
      exact ⟨⟨hhi, hhy, ⟨hhl, hhr⟩, hhk⟩, ⟨hiy, ⟨hil, hir⟩, hik⟩, ⟨⟨hyl, hyr⟩, hyk⟩,
        ⟨dl, dr, hlr⟩, dk, htk⟩
  have hseq : (plug (rk ++ ⟨.right, c, y, l⟩ :: k) x).toList =
      (before k ++ l.toList) ++ (y :: r.toList ++ after k) := by
    rw [plug_append, hr, plug_cons, toList_plug]
    simp [join]
  have hold : (plug k (node c l cur (plug rk (node cy leaf y x)))).toList =
      (before k ++ l.toList) ++ cur :: (y :: r.toList ++ after k) := by
    have hb : before rk = [] := before_eq_nil hrk
    rw [← hr]
    simp [toList_plug, hb]
  refine ⟨trivial, ⟨?_, ?_, ?_, rfl, ?_, by simp, ?_⟩⟩
  · rw [focus_plug_iff, focus_up_iff, hr]
    exact hwhole
  · refine hsub.sized.2.2.congr fun i hi => ?_
    have hiy : i ≠ y := fun he => hyr (he ▸ hrx i hi)
    simp [hiy, hsz']
  · have hstale := hsub.sizedCtx
    rw [card_node, card_leaf, Nat.zero_add, sizedCtx_append_iff] at hstale
    obtain ⟨h1, h2, h3, h4⟩ := hstale
    refine sizedCtx_append_iff.mpr ⟨h1.congr fun i hi => ?_, ?_, h3.congr fun i hi => ?_,
      h4.congr fun i hi => ?_⟩
    · have hiy : i ≠ y := fun he => hyr (he ▸ hrl i hi)
      simp [hiy, hsz']
    · simpa using h2
    · have hiy : i ≠ y := fun he => hyl (he ▸ hi)
      simp [hiy, hsz']
    · have hiy : i ≠ y := fun he => hyk (he ▸ hi)
      simp [hiy, hsz']
  · -- `cur` lies between its subtrees, so it is no end of the sequence
    intro d
    have hnodup : ((before k ++ l.toList) ++ cur :: (y :: r.toList ++ after k)).Nodup := by
      have hn := hf.distinct
      simp only [List.nodup_cons] at hn
      rw [← hold]
      exact (toList_plug_perm k _).nodup_iff.mpr hn.2.2
    have hmid : rim d ((before k ++ l.toList) ++ cur :: (y :: r.toList ++ after k)) ≠ some cur := by
      intro he
      have hnil := rim_middle hnodup he
      cases d with
      | left =>
          have hln : l.toList = [] := (List.append_eq_nil_iff.mp hnil).2
          cases l with
          | leaf => exact hl rfl
          | node c l i r => simp at hln
      | right => simp at hnil
    rw [hseq, rim_erase_middle hmid, ← hold]
    have hc := (hchild' h hhk d).trans (hchild h hhc hhy hhr d)
    simpa using hc.trans (edges d)
  · intro i hi d
    rw [hseq] at hi
    simp only [List.mem_cons, List.mem_append, not_or] at hi
    obtain ⟨-, hic, ⟨hib, -⟩, ⟨hiy, hir⟩, hia⟩ := hi
    have hik : i ∉ labels k := fun hm => (List.mem_append.mp hm).elim hib hia
    have hc := (hchild' i hik d).trans (hchild i hic hiy hir d)
    simpa using hc

variable (rk cur) in
/-- The assignments that take a successor below the right child out of its place. -/
theorem prepared_of_deep {M : Mem V} {f : Frame Nat} {r : ColoredTree Nat} (hdir : f.dir = .left)
    (hxr : x ≠ leaf → ptr x ≠ ptr r) (hyf : y ≠ f.label) (hnum : M.numOfNode = h)
    (hcol : M.color = m.color) (hsz : M.size = m.size)
    (hpar : ∀ i, i ≠ ptr l → i ≠ ptr x → M.parent i = m.parent i)
    (hpx : x ≠ leaf → M.parent (ptr x) = f.label) (hpl : M.parent (ptr l) = y)
    (hch : ∀ d i, M.child d i = if d = .left ∧ i = y then ptr l else m.child d i) :
    Prepared m (Store.apply (Write.parent (ptr r) y) (Store.apply (Write.child .right y (ptr r))
      (Store.apply (Write.child .left f.label (ptr x)) M))) h k (f :: rk) c l r x cur y := by
  refine ⟨by simpa using hnum, hcol, hsz, ?_, ?_, ?_, by simp, ?_, ?_, by simp⟩
  · intro i hil hir hix
    simp [hir, hpar i hil hix]
  · intro hx _
    simpa [hxr hx] using hpx hx
  · by_cases he : ptr l = ptr r
    · simp [he]
    · simpa [he] using hpl
  · intro i d hic hiy
    have keep : ∀ q, (if ptr x ≠ INVALID_POINT then Store.apply (Write.parent (ptr x) q) m
        else m).child d i = m.child d i := by
      intro q
      split <;> rfl
    rw [List.cons_append, spliced]
    simp only [setLink, Mem.child_apply, hdir, hiy, hch, keep, and_false, if_false]
  · simp [hyf, hch]

theorem eraseTransplant_ends
    (hh : Holds m h k (node c l cur (plug rk (node cy leaf y x)))) (hl : l ≠ leaf)
    (hrk : ∀ f ∈ rk, f.dir = .left)
    (edges : Edges m h (plug k (node c l cur (plug rk (node cy leaf y x)))).toList) :
    Ends (eraseTransplant cur y (ptr x)) m fun xp m' =>
      xp = up h (rk ++ ⟨.right, c, y, l⟩ :: k) ∧
      Unlinked h cur (plug (rk ++ ⟨.right, c, y, l⟩ :: k) x).toList cy m m'
        (rk ++ ⟨.right, c, y, l⟩ :: k) x := by
  have hf := hh.toFocus
  have hd := hf.transplant_distinct
  simp only [List.nodup_cons, List.mem_cons, List.mem_append, List.nodup_append, not_or] at hd
  obtain ⟨⟨-, -, hhy, -, -⟩, ⟨-, hiy, ⟨hil, hir⟩, -⟩, ⟨hcy, ⟨hcl, hcr⟩, -⟩, ⟨⟨hyl, hyr⟩, -⟩,
    ⟨-, -, hlr⟩, -, -⟩ := hd
  have hsub : Holds m h (rk ++ ⟨.right, c, cur, l⟩ :: k) (node cy leaf y x) :=
    holds_plug_iff.mpr (holds_up_iff.mpr hh)
  obtain ⟨hpary, -, -, hrighty, -, hlx⟩ := hsub.sub
  obtain ⟨-, -, hleftc, hrightc, -, -⟩ := hf.sub
  have hly : y ≠ ptr l := fun he => hyl (he ▸ ptr_mem hl)
  have hcurl : cur ≠ ptr l := fun he => hcl (he ▸ ptr_mem hl)
  simp only [eraseTransplant, left, right, parent, child, setParent, setChild, ends_bind, ends_read,
    ends_write, Mem.child_apply, hleftc, hrightc]
  cases rk with
  | nil =>
      -- the successor is the right child itself
      have hprep : Prepared m (Store.apply (Write.child .left y (ptr l))
          (Store.apply (Write.parent (ptr l) y) m)) h k [] c l x x cur y := by
        refine ⟨by simpa using hf.header, rfl, rfl, ?_, fun _ hne => absurd rfl hne, by simp, ?_,
          ?_, by simp, by simpa using hrighty⟩
        · intro i hil _ _
          simp [hil]
        · intro hx
          have hpx : m.parent (ptr x) = y := by
            cases x with
            | leaf => exact absurd rfl hx
            | node cx a i b => exact hlx.1
          by_cases he : ptr x = ptr l
          · simp [he]
          · simpa [he] using hpx
        · intro i d hic hiy'
          rw [List.nil_append, spliced]
          simp only [setLink, Mem.child_apply, hic, hiy', and_false, if_false]
          split <;> simp
      have hends := hprep.ends hh hl rfl hrk edges y
      simp only [parent, setParent, ends_bind] at hends
      simpa [Ne.symm hcy] using hends
  | cons f rk =>
      obtain ⟨fd, fc, p, fs⟩ := f
      obtain rfl : fd = .left := hrk _ List.mem_cons_self
      have hroot : ptr (plug (⟨.left, fc, p, fs⟩ :: rk) (node cy leaf y x)) =
          ptr (plug (⟨.left, fc, p, fs⟩ :: rk) x) := by
        rw [plug_cons, plug_cons]
        exact ptr_plug_congr (by simp)
      have hmem : ∀ i ∈ labels (⟨.left, fc, p, fs⟩ :: rk),
          i ∈ (plug (⟨.left, fc, p, fs⟩ :: rk) x).toList := fun i hi =>
        (toList_plug_perm _ _).mem_iff.mpr (List.mem_append_right _ hi)
      have hmemx : ∀ i ∈ x.toList, i ∈ (plug (⟨.left, fc, p, fs⟩ :: rk) x).toList := fun i hi =>
        (toList_plug_perm _ _).mem_iff.mpr (List.mem_append_left _ hi)
      have hyp : y ≠ p := fun he => hyr (hmem _ (he ▸ mem_labels_cons.mpr (Or.inl rfl)))
      have hyroot : y ≠ ptr (plug (⟨.left, fc, p, fs⟩ :: rk) x) := fun he =>
        hyr (hmem _ (he ▸ ptr_plug_mem))
      have hxroot : x ≠ leaf → ptr x ≠ ptr (plug (⟨.left, fc, p, fs⟩ :: rk) x) := by
        intro hx he
        have hnot := (Focus.splice (e := .right) hsub.toFocus).ptr_not_mem_labels
        exact hnot (mem_labels_append.mpr (Or.inl (he ▸ ptr_plug_mem)))
      have hlx' : x ≠ leaf → ptr l ≠ ptr x := fun hx he =>
        hlr _ (ptr_mem hl) _ (hmemx _ (ptr_mem hx)) he
      have hinv : ptr x ≠ INVALID_POINT ↔ x ≠ leaf := by
        constructor
        · rintro hne rfl
          exact hne rfl
        · exact fun hx he => hir (hmemx _ (he ▸ ptr_mem hx))
      have hne : y ≠ ptr (plug (⟨.left, fc, p, fs⟩ :: rk) (node cy leaf y x)) := by rwa [hroot]
      simp only [reduceCtorEq, false_and, if_false, ends_ite]
      rw [if_pos hne]
      have hyx : y ≠ ptr x := by
        intro he
        exact (ptr_eq_or_mem x).elim (fun hp => hiy (hp.symm.trans he.symm))
          fun hp => hyr (he ▸ hmemx _ hp)
      rw [List.cons_append, up_cons] at hpary
      simp only at hpary
      simp only [ends_bind, ends_read, ends_write, ends_ite, ends_pure, Mem.parent_apply,
        Mem.child_apply, reduceCtorEq, false_and, and_false, if_false, hly, hyx, hcy, hpary,
        hrightc, hroot]
      split
      next hx =>
        have hprep := prepared_of_deep rk cur (m := m) (l := l) (y := y) (M :=
          Store.apply (Write.parent (ptr x) p)
          (Store.apply (Write.child .left y (ptr l)) (Store.apply (Write.parent (ptr l) y) m)))
          (k := k) (c := c) (f := ⟨.left, fc, p, fs⟩) rfl hxroot hyp
          hf.header rfl rfl (fun i hil hix => by simp [hil, hix]) (by simp)
          (by simp [hlx' (hinv.mp hx)]) (by simp)
        have hends := hprep.ends hh hl rfl hrk edges p
        simp only [parent, setParent, ends_bind, ends_read, ends_write, ends_pure, List.cons_append,
          up_cons] at hends ⊢
        exact hends
      next hx =>
        have hxl : x = leaf := by
          by_contra hne
          exact hx (hinv.mpr hne)
        have hprep := prepared_of_deep rk cur (m := m) (l := l) (y := y) (M :=
          Store.apply (Write.child .left y (ptr l))
          (Store.apply (Write.parent (ptr l) y) m))
          (k := k) (c := c) (f := ⟨.left, fc, p, fs⟩) rfl hxroot hyp
          hf.header rfl rfl (fun i hil _ => by simp [hil]) (fun hne => absurd hxl hne)
          (by simp) (by simp)
        have hends := hprep.ends hh hl rfl hrk edges p
        simp only [parent, setParent, ends_bind, ends_read, ends_write, ends_pure, List.cons_append,
          up_cons] at hends ⊢
        exact hends

end Transplant

end Jump.MemPool.RBTree
