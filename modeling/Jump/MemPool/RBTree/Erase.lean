import Jump.MemPool.RBTree.WriteOrder
import Jump.MemPool.RBTree.Rotate
import Jump.MemPool.RBTree.Unlink

/-! # `RBTreeBalanceForErase`

Insertion and erasure first change the tree and then walk to the root and count
every node on the way up or down by one.

For an erasure the node is unlinked, the sizes above are counted down, and a missing black node
is repaid. The result is a balanced tree on the remaining sequence.
-/

namespace Jump.MemPool.RBTree

open Jump.Core Jump.Core.ColoredTree Jump.Core.Ctx Prog

/-! ## Sizes along the way to the root -/

section Sizes

variable {V : Type}

/-- `size_` of the nodes `l` changed by `f`. -/
def resized (f : Nat → Nat) (l : List Nat) (m : Mem V) : Mem V :=
  { m with size := fun i => if i ∈ l then f (m.size i) else m.size i }

/-- The nodes on the way from the hole to the root. -/
def spine (k : Ctx Nat) : List Nat := k.map (·.label)

theorem spine_subset {k : Ctx Nat} {i : Nat} (hi : i ∈ spine k) : i ∈ labels k := by
  induction k with
  | nil => exact hi
  | cons f k ih =>
      simp only [spine, List.map_cons, List.mem_cons] at hi
      rcases hi with hi | hi
      · exact mem_labels_cons.mpr (Or.inl hi)
      · exact mem_labels_cons.mpr (Or.inr (Or.inr (ih hi)))

theorem spine_nodup {k : Ctx Nat} (h : (labels k).Nodup) : (spine k).Nodup := by
  induction k with
  | nil => exact List.nodup_nil
  | cons f k ih =>
      have hd := (labels_cons_perm f k).nodup_iff.mp h
      rw [List.nodup_cons, List.mem_append, not_or, List.nodup_append] at hd
      exact List.nodup_cons.mpr ⟨fun hm => hd.1.2 (spine_subset hm), ih hd.2.2.1⟩

theorem linkedCtx_suffix {m : Mem V} {h q : Nat} {k₁ k₂ : Ctx Nat}
    (hk : LinkedCtx m h (k₁ ++ k₂) q) : ∃ q', LinkedCtx m h k₂ q' := by
  induction k₁ generalizing q with
  | nil => exact ⟨q, hk⟩
  | cons f k₁ ih => exact ih hk.2.2.2.2.2

theorem apply_size_resized {f : Nat → Nat} {l : List Nat} {m : Mem V} {y : Nat} (hy : y ∉ l) :
    Store.apply (Write.size y (f ((resized f l m).size y))) (resized f l m) =
      resized f (l ++ [y]) m := by
  simp only [Mem.apply_def, Mem.apply, resized, hy, if_false]
  congr 1
  funext i
  by_cases hi : i = y
  · simp [hi]
  · simp [hi]

theorem resizePath_ends {f : Nat → Nat} {m : Mem V} {h q : Nat} {k : Ctx Nat}
    (header : m.numOfNode = h) (hk : LinkedCtx m h k q) (distinct : (h :: labels k).Nodup)
    (hlen : k.length ≤ h) {Q : Unit → Mem V → Prop} (hQ : Q () (resized f (spine k) m)) :
    Ends (resizePath f (up h k)) m Q := by
  rw [List.nodup_cons] at distinct
  simp only [resizePath, turns, ends_bind, ends_read, header]
  refine ends_loop (fun j y m' => ∃ k₁ k₂, k = k₁ ++ k₂ ∧ y = up h k₂ ∧
    m' = resized f (spine k₁) m ∧ k₂.length = j) ?_ ⟨[], k, rfl, rfl, by simp [resized, spine], rfl⟩
    (by omega)
  rintro j y m' ⟨k₁, k₂, rfl, rfl, rfl, rfl⟩
  have hnum : (resized f (spine k₁) m).numOfNode = h := header
  simp only [RBTree.header, size, setSize, parent, ends_bind, ends_read, ends_ite, hnum]
  cases k₂ with
  | nil => simpa [spine] using hQ
  | cons g k₂ =>
      have hg : g.label ∈ labels (k₁ ++ g :: k₂) :=
        mem_labels_append.mpr (Or.inr (mem_labels_cons.mpr (Or.inl rfl)))
      have hne : g.label ≠ h := fun e => distinct.1 (e ▸ hg)
      have hnot : g.label ∉ spine k₁ := by
        have hd := spine_nodup distinct.2
        simp only [spine, List.map_append, List.map_cons, List.nodup_append] at hd
        exact fun hm => hd.2.2 _ hm g.label (by simp) rfl
      obtain ⟨q', hk'⟩ := linkedCtx_suffix hk
      simp only [up_cons, ne_eq, hne, not_false_eq_true, if_true, ends_write, ends_pure,
        Sum.elim_inl]
      refine ⟨k₂.length, by simp, k₁ ++ [g], k₂, by simp, ?_, ?_, rfl⟩
      · simp only [Mem.parent_apply]
        exact hk'.1
      · rw [apply_size_resized hnot]
        simp [spine]

/-- Counting the spine by `f` turns sizes for a hole of `n` nodes into sizes for one of `n'`. -/
theorem sizedCtx_resized {f : Nat → Nat} {m : Mem V} {k : Ctx Nat} {n n' : Nat}
    (hk : SizedCtx m k n) (hf : ∀ c, f (n + c) = n' + c) (distinct : (labels k).Nodup)
    {l : List Nat} (hl : ∀ i ∈ labels k, i ∈ l ↔ i ∈ spine k) :
    SizedCtx (resized f l m) k n' := by
  induction k generalizing n n' with
  | nil => trivial
  | cons g k ih =>
      have hd := (labels_cons_perm g k).nodup_iff.mp distinct
      rw [List.nodup_cons, List.mem_append, not_or, List.nodup_append] at hd
      obtain ⟨⟨hgs, hgk⟩, -, hdk, hsk⟩ := hd
      obtain ⟨h1, h2, h3⟩ := hk
      refine ⟨?_, ?_, ?_⟩
      · have hm : g.label ∈ l :=
          (hl _ (mem_labels_cons.mpr (Or.inl rfl))).mpr (by simp [spine])
        simp only [resized, hm, if_true, h1, Nat.add_assoc]
        exact hf _
      · refine h2.congr fun i hi => ?_
        have hm : i ∉ l := by
          rw [hl i (mem_labels_cons.mpr (Or.inr (Or.inl hi)))]
          simp only [spine, List.map_cons, List.mem_cons, not_or]
          exact ⟨fun e => hgs (e ▸ hi), fun h => hsk i hi i (spine_subset h) rfl⟩
        simp [resized, hm]
      · refine ih h3 (fun c => ?_) hdk fun i hi => ?_
        · have hc := hf (g.sibling.card + 1 + c)
          simpa only [Nat.add_assoc] using hc
        · rw [hl i (mem_labels_cons.mpr (Or.inr (Or.inr hi)))]
          simp only [spine, List.map_cons, List.mem_cons, or_iff_right_iff_imp]
          exact fun e => absurd (e ▸ hi) hgk

/-- Resizing leaves every link alone. -/
theorem linkedCtx_resized {f : Nat → Nat} {l : List Nat} {m : Mem V} {h q : Nat} {k : Ctx Nat}
    (hk : LinkedCtx m h k q) : LinkedCtx (resized f l m) h k q :=
  hk.congr (fun _ _ => ⟨rfl, rfl, fun _ => rfl⟩) rfl

theorem linked_resized {f : Nat → Nat} {l : List Nat} {m : Mem V} {p : Nat} {t : ColoredTree Nat}
    (ht : Linked m p t) : Linked (resized f l m) p t :=
  ht.congr fun _ _ => ⟨rfl, rfl, fun _ => rfl⟩

/-- The walk turns a linked tree with stale sizes on the spine into one with right sizes. -/
theorem resizePath_holds {f : Nat → Nat} {m : Mem V} {h n : Nat} {k : Ctx Nat} {t : ColoredTree Nat}
    (hf : Focus m h k t) (hs : Sized m t) (hk : SizedCtx m k n)
    (count : ∀ c, f (n + c) = t.card + c) (hlen : k.length ≤ h) :
    Ends (resizePath f (up h k)) m fun _ m' => Holds m' h k t ∧ m' = resized f (spine k) m := by
  have hd := hf.distinct
  simp only [List.nodup_cons, List.mem_cons, List.mem_append, List.nodup_append, not_or] at hd
  obtain ⟨⟨-, -, hhk⟩, -, -, hdk, htk⟩ := hd
  refine resizePath_ends hf.header hf.ctx (List.nodup_cons.mpr ⟨hhk, hdk⟩) hlen ⟨?_, rfl⟩
  refine ⟨⟨hf.header, linkedCtx_resized hf.ctx, linked_resized hf.sub, hf.distinct⟩, ?_, ?_⟩
  · refine hs.congr fun i hi => ?_
    have hm : i ∉ spine k := fun h => htk i hi i (spine_subset h) rfl
    simp [resized, hm]
  · exact sizedCtx_resized hk count hdk fun i _ => Iff.rfl

end Sizes

/-! ## Erasure -/

section Erase

variable {V : Type} {m : Mem V} {h : Nat} {k : Ctx Nat} {l r : ColoredTree Nat} {c : Color}
  {cur : Nat}

/-- What balance leaves around a removed node of colour `c` with child `x`. -/
structure Gap (k : Ctx Nat) (x : ColoredTree Nat) (c : Color) : Prop where
  child : Balanced x 0
  fits : Fits k c.height
  red : c = .red → x.color = .black
  top : topColor k ≠ some .black → c = .black

theorem gap_of_balanced {d : Dir} {x : ColoredTree Nat} {a n : Nat}
    (hb : Balanced (plug k (join c d leaf a x)) n)
    (root : (plug k (join c d leaf a x)).color = .black) : Gap k x c := by
  obtain ⟨n', hfits, hjoin, htop⟩ := fits_of_balanced_plug hb root
  obtain ⟨j, rfl, hleaf, hx, hred⟩ := balanced_join_iff.mp hjoin
  obtain rfl : j = 0 := balanced_leaf_iff.mp hleaf
  rw [Nat.zero_add] at hfits
  exact ⟨hx, hfits, fun hc => (hred hc).2, fun ht => by simpa using htop ht⟩

theorem Gap.relabel {d : Dir} {k' : Ctx Nat} {x s : ColoredTree Nat} {a b : Nat} {c' : Color}
    (hg : Gap (k ++ ⟨d, c', a, s⟩ :: k') x c) : Gap (k ++ ⟨d, c', b, s⟩ :: k') x c := by
  refine ⟨hg.child, fits_relabel hg.fits, hg.red, fun ht => hg.top fun he => ht ?_⟩
  cases k with
  | nil => exact he
  | cons f k => exact he

/-- Which node is unlinked, and what stands in the hole afterwards. -/
theorem unlink_ends (hh : Holds m h k (node c l cur r))
    (edges : Edges m h (plug k (node c l cur r)).toList) {n : Nat}
    (hb : Balanced (plug k (node c l cur r)) n)
    (root : (plug k (node c l cur r)).color = .black)
    (hcard : (plug k (node c l cur r)).card ≤ h) :
    Ends (do
      let (y, x) ← eraseChoose cur
      let (y, xParent) ← (if y ≠ cur then do
          let xParent ← eraseTransplant cur y x
          return (cur, xParent)
        else do
          let xParent ← eraseSplice cur x
          return (y, xParent) : Act V (Nat × Nat))
      return (y, x, xParent)) m fun res m' => ∃ k' x c', res = (cur, ptr x, up h k') ∧
        Unlinked h cur (before k ++ l.toList ++ (r.toList ++ after k)) c' m m' k' x ∧
        Gap k' x c' ∧ Kept m m' := by
  have hlen := Focus.length_le hcard
  rw [card_node] at hlen
  obtain ⟨-, -, hleft, hright, -, -⟩ := hh.sub
  have hinv : ∀ t : ColoredTree Nat, t = l ∨ t = r → (ptr t = INVALID_POINT ↔ t = leaf) := by
    intro t ht
    constructor
    · intro he
      refine eq_leaf_of_ptr (fun hi => hh.invalid_not_mem ?_) he
      rcases ht with rfl | rfl
      · simp [hi]
      · simp [hi]
    · rintro rfl
      rfl
  simp only [eraseChoose, RBTree.left, RBTree.right, RBTree.child, ends_bind, ends_read, ends_ite,
    ends_pure, hleft, hright]
  by_cases hl : l = leaf
  · subst hl
    rw [ptr_leaf, if_pos rfl, if_neg (not_not.mpr rfl)]
    have hspl := eraseSplice_ends (e := .right) hh edges (by omega)
    refine (ends_link hspl (eraseSplice_emits _ _)).mono fun xp m' h' => ?_
    obtain ⟨⟨rfl, hu⟩, hkept⟩ := h'
    refine ⟨k, r, c, rfl, ?_, gap_of_balanced (d := .left) hb root, hkept⟩
    rw [toList_plug] at hu
    simpa using hu
  · rw [if_neg fun he => hl ((hinv l (Or.inl rfl)).mp he)]
    by_cases hr : r = leaf
    · subst hr
      rw [ptr_leaf, if_pos rfl, if_neg (not_not.mpr rfl)]
      have hspl := eraseSplice_ends (e := .left) hh edges (by omega)
      refine (ends_link hspl (eraseSplice_emits _ _)).mono fun xp m' h' => ?_
      obtain ⟨⟨rfl, hu⟩, hkept⟩ := h'
      refine ⟨k, l, c, rfl, ?_, gap_of_balanced (d := .right) hb root, hkept⟩
      rw [toList_plug] at hu
      simpa using hu
    · rw [if_neg fun he => hr ((hinv r (Or.inr rfl)).mp he)]
      have hdown : Focus m h (⟨.right, c, cur, l⟩ :: k) r := Focus.down (d := .right) hh.toFocus
      refine (extreme_ends .left hdown hr (by omega)).mono fun y m' h' => ?_
      obtain ⟨rfl, rk, cy, x, rfl, hdir⟩ := h'
      -- the successor is the leftmost node on the right
      have hsub : Focus m' h (rk ++ ⟨.right, c, cur, l⟩ :: k) (node cy leaf y x) :=
        focus_plug_iff.mpr hdown
      have hry : m'.child .right y = ptr x := hsub.sub.2.2.2.1
      have hne : y ≠ cur := by
        have hd := hh.toFocus.distinct
        rintro rfl
        have hy : y ∈ (plug rk (join cy .left leaf y x)).toList :=
          (toList_plug_perm _ _).mem_iff.mpr (List.mem_append_left _ (by simp [join]))
        simp only [List.nodup_cons, List.nodup_append, toList_node] at hd
        exact hd.2.2.1.2.1.1 hy
      have hbefore : before rk = [] := before_eq_nil hdir
      rw [hry, if_pos hne]
      have hgap : Gap (rk ++ ⟨.right, c, cur, l⟩ :: k) x cy := by
        refine gap_of_balanced (d := .left) (a := y) (n := n) ?_ ?_
        · rw [plug_append]
          exact hb
        · rw [plug_append]
          exact root
      have htr := eraseTransplant_ends (y := y) hh hl hdir edges
      refine (ends_link htr (eraseTransplant_emits _ _ _)).mono fun xp m'' h'' => ?_
      obtain ⟨⟨rfl, hu⟩, hkept⟩ := h''
      refine ⟨_, x, cy, rfl, ?_, hgap.relabel, hkept⟩
      have hseq : (plug (rk ++ ⟨.right, c, y, l⟩ :: k) x).toList = before k ++ l.toList ++
          ((plug rk (join cy .left leaf y x)).toList ++ after k) := by
        simp [plug_append, toList_plug, join, hbefore]
      rwa [← hseq]

/-- A memory with the same links and sizes holds the same tree. -/
theorem Holds.congr {m m' : Mem V} {t : ColoredTree Nat} (hh : Holds m h k t)
    (num : m'.numOfNode = m.numOfNode) (same : ∀ i, SameAt m m' i)
    (size : ∀ i, m'.size i = m.size i) : Holds m' h k t :=
  ⟨⟨num.trans hh.header, hh.ctx.congr (fun i _ => same i) (same h).1,
    hh.sub.congr fun i _ => same i, hh.distinct⟩,
    hh.sized.congr fun i _ => size i, hh.sizedCtx.congr fun i _ => size i⟩

/-- The rest of the erasure, from the unlinked node on. -/
theorem repair_ends {m' : Mem V} {x : ColoredTree Nat} {xs : List Nat}
    (hu : Unlinked h cur xs c m m' k x) (hg : Gap k x c) (hlen : k.length ≤ h) :
    Ends (do
      resizePath (· - 1) (up h k)
      if (← RBTree.color cur) ≠ .red then eraseBalance (ptr x) (up h k)) m' fun _ m'' =>
        Kept m' m'' ∧ ∃ t n', Holds m'' h [] t ∧ Balanced t n' ∧ t.color = .black ∧
          t.toList = xs ∧ Edges m'' h xs ∧ ∀ i ∉ h :: cur :: xs, ∀ d, m''.child d i =
            m.child d i := by
  have hhead : h ∉ xs := by
    have hd := hu.distinct
    simp only [List.nodup_cons, List.mem_cons, not_or] at hd
    rw [← hu.seq]
    exact fun hm => hd.1.2 ((toList_plug_perm k x).mem_iff.mp hm)
  simp only [ends_bind]
  have hpath := resizePath_holds (f := (· - 1)) hu.toFocus hu.sized hu.stale
    (fun c => by omega) hlen
  refine (ends_link hpath (resizePath_emits _ _)).mono fun _ m₂ h₂ => ?_
  obtain ⟨⟨hh₂, rfl⟩, hkept₂⟩ := h₂
  have hcol : (resized (· - 1) (spine k) m').color cur = c := hu.color
  simp only [RBTree.color, ends_read, ends_ite, hcol]
  by_cases hc : c = .red
  · rw [if_neg (not_not.mpr hc)]
    have hx := hg.red hc
    have hfits := hg.fits
    rw [hc] at hfits
    obtain ⟨n', hb, hroot⟩ := Fits.balanced_plug hfits hg.child fun _ => hx
    refine ends_pure.mpr ⟨hkept₂, plug k x, n', ?_, hb, hroot, hu.seq, hu.edges, hu.outside⟩
    exact holds_plug_iff.mp (by rwa [List.append_nil])
  · rw [if_pos hc]
    have hfits := hg.fits
    rw [black_of_not_red hc] at hfits
    have hbal := eraseBalance_ends hh₂ hg.child hfits hlen
    refine (ends_link hbal (eraseBalance_emits _ _)).mono fun _ m₃ h₃ => ?_
    obtain ⟨⟨t, n', hh₃, hb, hroot, hseq, hout⟩, hkept₃⟩ := h₃
    rw [hu.seq] at hseq hout
    refine ⟨hkept₂.trans hkept₃, t, n', hh₃, hb, hroot, hseq, fun d => ?_, fun i hi d => ?_⟩
    · exact ((hout h hhead).1 d).trans (hu.edges d)
    · have hix : i ∉ xs := fun hm => hi (List.mem_cons_of_mem _ (List.mem_cons_of_mem _ hm))
      exact ((hout i hix).1 d).trans (hu.outside i hi d)

theorem rbTreeBalanceForErase_ends (hh : Holds m h k (node c l cur r))
    (edges : Edges m h (plug k (node c l cur r)).toList) {n : Nat}
    (hb : Balanced (plug k (node c l cur r)) n)
    (root : (plug k (node c l cur r)).color = .black)
    (hcard : (plug k (node c l cur r)).card ≤ h) (clean : m.dirtyFlag = 0) :
    Ends (rbTreeBalanceForErase cur) m fun y m' => y = cur ∧ Kept m m' ∧ ∃ t n', Holds m' h [] t ∧
      Balanced t n' ∧ t.color = .black ∧
      t.toList = before k ++ l.toList ++ (r.toList ++ after k) ∧ Edges m' h t.toList ∧
      ∀ i ∉ h :: cur :: t.toList, ∀ d, m'.child d i = m.child d i := by
  have hh₁ : Holds (Store.apply (Write.dirtyFlag 1) m) h k (node c l cur r) :=
    hh.congr rfl (fun i => ⟨rfl, rfl, fun _ => rfl⟩) fun _ => rfl
  have hunlink := unlink_ends hh₁ edges hb root hcard
  simp only [ends_bind, ends_pure] at hunlink
  simp only [rbTreeBalanceForErase, setDirtyFlag, clearDiryFlag, ends_bind, ends_write]
  refine hunlink.mono fun yx m₁ h₁ => h₁.mono fun yp m₂ h₂ => ?_
  obtain ⟨k', x, c', hres, hu, hg, hkept⟩ := h₂
  simp only [Prod.mk.injEq] at hres
  obtain ⟨hy, hx, hxp⟩ := hres
  have hlen : k'.length ≤ h := by
    have hl := congrArg List.length hu.seq
    have hc := card_plug k' x
    have hold := card_plug k (node c l cur r)
    have hk' := length_le_labels k'
    simp only [card, toList_node, labels, List.length_append,
      List.length_cons] at hl hc hold hcard hk'
    omega
  -- clearing the flag ends the operation
  have hdone : ∀ m₃ : Mem V, (Kept m₂ m₃ ∧ ∃ t n', Holds m₃ h [] t ∧ Balanced t n' ∧
      t.color = .black ∧ t.toList = before k ++ l.toList ++ (r.toList ++ after k) ∧
      Edges m₃ h (before k ++ l.toList ++ (r.toList ++ after k)) ∧
      ∀ i ∉ h :: cur :: (before k ++ l.toList ++ (r.toList ++ after k)), ∀ d,
        m₃.child d i = m.child d i) →
      Kept m (Store.apply (Write.dirtyFlag 0) m₃) ∧ ∃ t n',
        Holds (Store.apply (Write.dirtyFlag 0) m₃) h [] t ∧ Balanced t n' ∧ t.color = .black ∧
        t.toList = before k ++ l.toList ++ (r.toList ++ after k) ∧
        Edges (Store.apply (Write.dirtyFlag 0) m₃) h t.toList ∧ ∀ i ∉ h :: cur :: t.toList, ∀ d,
          (Store.apply (Write.dirtyFlag 0) m₃).child d i = m.child d i := by
    rintro m₃ ⟨hkept', t, n', hh', hb', hroot, hseq, hedges, hout⟩
    have hall := hkept.trans hkept'
    refine ⟨⟨hall.numOfNode, hall.freeNodeList, hall.szFreeNode, hall.szUseNode, clean.symm,
      hall.useFlag, hall.data⟩, t, n', ?_, hb', hroot, hseq, ?_, ?_⟩
    · exact hh'.congr rfl (fun i => ⟨rfl, rfl, fun _ => rfl⟩) fun _ => rfl
    · rw [hseq]
      exact hedges
    · rw [hseq]
      exact hout
  have hrepair := repair_ends hu hg hlen
  simp only [ends_bind] at hrepair
  simp only [hy, hx, hxp]
  refine hrepair.mono fun _ m₃ h₃ => h₃.mono fun col m₄ h₄ => ?_
  rw [ends_ite] at h₄ ⊢
  split
  next hc =>
    rw [if_pos hc] at h₄
    simp only [ends_bind, ends_write, ends_pure]
    exact h₄.mono fun _ m₅ h₅ => ⟨trivial, hdone m₅ h₅⟩
  next hc =>
    rw [if_neg hc, ends_pure] at h₄
    simp only [ends_bind, ends_write, ends_pure]
    exact ⟨trivial, hdone m₄ h₄⟩

end Erase

end Jump.MemPool.RBTree
