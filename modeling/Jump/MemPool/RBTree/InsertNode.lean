import Jump.MemPool.RBTree.Invariant

/-! # `InsertNode` and the two insertions

The new node is hung into the hole the descent found, then counted into the
sizes above it, then the colours are balanced.
-/

namespace Jump.MemPool.RBTree

open Jump.Core Jump.Core.ColoredTree Jump.Core.Ctx Prog

variable {V K : Type} {T : Params V K} {N : Nat} {m : Mem V} {k : Ctx Nat} {i : Nat}

/-- The new node hangs in the hole of `k`; nothing but the link to the hole and
the ends of the header has changed. -/
structure Hung (N : Nat) (k : Ctx Nat) (i : Nat) (m m' : Mem V) : Prop where
  ctx : LinkedCtx m' N k i
  edges : Edges m' N (plug k (node .red leaf i leaf)).toList
  parent : ∀ j, j ≠ N → m'.parent j = m.parent j
  child : ∀ j, j ≠ N → j ∉ labels k → ∀ d, m'.child d j = m.child d j
  size : m'.size = m.size
  kept : Kept m m'

/-- A node of the tree is the end of the sequence on side `d` exactly when nothing
is beside it. -/
theorem edge_eq_iff {f : Frame Nat} (hf : Focus m N (f :: k) leaf)
    (edges : Edges m N (plug (f :: k) leaf).toList) :
    m.child f.dir N = f.label ↔ beside f.dir (f :: k) = [] := by
  constructor
  · intro he
    by_contra hne
    have hrim := rim_plug_of_beside hne leaf
    cases hr : rim f.dir (beside f.dir (f :: k)) with
    | none => exact hne (rim_eq_none.mp hr)
    | some a =>
        have hchild := edges f.dir
        rw [hrim, hr, Option.getD_some, he] at hchild
        have hmem := rim_mem hr
        rw [← hchild] at hmem
        -- the label of the frame is on the other side of the hole
        have hd := hf.distinct
        simp only [toList_leaf, List.nil_append, List.nodup_cons, labels, List.nodup_append] at hd
        obtain ⟨-, -, -, -, hdis⟩ := hd
        obtain ⟨d, c, a, s⟩ := f
        cases d with
        | left => exact hdis _ hmem a (by simp [after]) rfl
        | right => exact hdis a (by simp [before]) _ hmem rfl
  · intro hb
    rw [edges f.dir, rim_plug_leaf hb, Option.getD_some]

/-- One branch of `insertLink` below a node. -/
theorem hang_ends {f : Frame Nat} (hf : Focus m N (f :: k) leaf)
    (edges : Edges m N (plug (f :: k) leaf).toList) :
    Ends (do
      setChild f.dir f.label i
      if f.label = (← child f.dir (← header)) then setChild f.dir (← header) i : Act V Unit) m
      fun _ m' => Hung N (f :: k) i m m' := by
  have hd := hf.distinct
  simp only [toList_leaf, List.nil_append, List.nodup_cons, List.mem_cons, not_or] at hd
  obtain ⟨⟨hNi, hNk⟩, -, dk⟩ := hd
  have hfN : f.label ≠ N := fun he => hNk (he ▸ mem_labels_cons.mpr (Or.inl rfl))
  have hlink := linkedCtx_setLink (q := i) hf.ctx (List.nodup_cons.mpr ⟨hNk, dk⟩)
  rw [setLink] at hlink
  have hlist : ∀ d, beside d (f :: k) ≠ [] → rim d (plug (f :: k) (node .red leaf i leaf)).toList =
      rim d (plug (f :: k) leaf).toList := fun d hb => by
    rw [rim_plug_of_beside hb, rim_plug_of_beside hb]
  have hother : beside f.dir.flip (f :: k) ≠ [] := by
    obtain ⟨d, c, a, s⟩ := f
    cases d <;> simp [beside, before, after, Dir.flip]
  have hiff := edge_eq_iff hf edges
  simp only [setChild, child, header, ends_bind, ends_read, ends_ite, ends_write, ends_pure,
    Mem.numOfNode_apply, hf.header, Mem.child_apply, Ne.symm hfN, and_false, if_false]
  by_cases he : m.child f.dir N = f.label
  · rw [if_pos he.symm]
    refine ⟨?_, fun d => ?_, fun j hj => by simp, fun j hj hk d => ?_, rfl,
      ⟨rfl, rfl, rfl, rfl, rfl, rfl, rfl⟩⟩
    · refine hlink.congr (fun j hj => ?_) (by simp)
      have hjN : j ≠ N := fun e => hNk (e ▸ hj)
      simp [SameAt, hjN]
    · rcases Dir.eq_or_eq_flip f.dir d with rfl | rfl
      · rw [rim_plug (hiff.mp he) (by simp)]
        cases f.dir <;> simp [rim]
      · rw [hlist _ hother, ← edges f.dir.flip]
        simp [Ne.symm hfN]
    · have hjf : j ≠ f.label := fun e => hk (e ▸ mem_labels_cons.mpr (Or.inl rfl))
      simp [hj, hjf]
  · rw [if_neg fun e => he e.symm]
    refine ⟨hlink, fun d => ?_, fun j hj => by simp, fun j hj hk d => ?_, rfl,
      ⟨rfl, rfl, rfl, rfl, rfl, rfl, rfl⟩⟩
    · have hb : beside d (f :: k) ≠ [] := by
        rcases Dir.eq_or_eq_flip f.dir d with rfl | rfl
        · exact fun hb => he (hiff.mpr hb)
        · exact hother
      rw [hlist d hb, ← edges d]
      simp [Ne.symm hfN]
    · have hjf : j ≠ f.label := fun e => hk (e ▸ mem_labels_cons.mpr (Or.inl rfl))
      simp [hjf]

theorem insertLink_ends {v : V} (hf : Focus m N k leaf)
    (edges : Edges m N (plug k leaf).toList)
    (side : ∀ f ∈ k.head?, f.dir = .left ↔
      T.compareKey (T.extractKey v) (keyAt T m f.label) = true) :
    Ends (insertLink T i INVALID_POINT (up N k) v) m fun _ m' => Hung N k i m m' := by
  simp only [insertLink, key, header, value, leftmost, rightmost, setParent, setChild, ends_bind,
    ends_read, ends_ite, ends_write, ends_pure, hf.header, ne_eq, not_true, false_or]
  cases k with
  | nil =>
      simp only [up_nil, true_or, if_true, Mem.numOfNode_apply, hf.header]
      have hne := hf.header_ne
      refine ⟨by simp [LinkedCtx], fun d => ?_, fun j hj => by simp [hj],
        fun j hj _ d => by simp [hj], rfl, ⟨rfl, rfl, rfl, rfl, rfl, rfl, rfl⟩⟩
      cases d <;> simp [rim]
  | cons f k =>
      have hfN : f.label ≠ N := by
        have hd := hf.distinct
        simp only [List.nodup_cons, List.mem_cons, List.mem_append, not_or] at hd
        exact fun he => hd.1.2.2 (he ▸ mem_labels_cons.mpr (Or.inl rfl))
      have hhang := hang_ends (i := i) hf edges
      have hside := side f rfl
      simp only [up_cons, hfN, false_or]
      rw [keyAt] at hside
      by_cases hd : f.dir = .left
      · rw [if_pos (hside.mp hd)]
        rw [hd] at hhang
        simpa [hfN, hf.header] using hhang
      · have hr : f.dir = .right := by
          rcases Dir.eq_or_eq_flip .left f.dir with h | h
          · exact absurd h hd
          · exact h
        rw [if_neg fun hc => hd (hside.mpr hc)]
        rw [hr] at hhang
        simpa [hfN, hf.header] using hhang

/-! ## The new node -/

/-- The fields `InsertNode` gives the new node. -/
def filled (N : Nat) (k : Ctx Nat) (i : Nat) (v : V) (m : Mem V) : Mem V :=
  replay [.parent i (up N k), .child .left i INVALID_POINT, .child .right i INVALID_POINT,
    .data i v, .useFlag i 1, .size i 1] m

section New

variable {v : V} {t : ColoredTree Nat} {free : List Nat} {m₁ m₂ m₃ : Mem V}

theorem keyAt_insert {m' : Mem V} (hdata : ∀ j, m'.data j = if j = i then v else m.data j)
    (j : Nat) :
    keyAt T m' j = if j = i then T.extractKey v else keyAt T m j := by
  rw [keyAt, hdata]
  split <;> rfl

/-- The sequence with the new node between the smaller and the greater keys. -/
theorem sorted_insert {m' : Mem V} {xs ys : List Nat}
    (hs : Sorted T.compareKey (keyAt T m) (xs ++ ys)) (hi : i ∉ xs ++ ys)
    (hdata : ∀ j, m'.data j = if j = i then v else m.data j)
    (hl : ∀ a ∈ xs, ¬ T.compareKey (T.extractKey v) (keyAt T m a) = true)
    (hr : ∀ a ∈ ys, T.compareKey (T.extractKey v) (keyAt T m a) = true) :
    Sorted T.compareKey (keyAt T m') (xs ++ i :: ys) := by
  have hkey := keyAt_insert (T := T) hdata
  have hold : ∀ a ∈ xs ++ ys, keyAt T m' a = keyAt T m a := by
    intro a ha
    have hne : a ≠ i := fun he => hi (he ▸ ha)
    rw [hkey, if_neg hne]
  have hnew : keyAt T m' i = T.extractKey v := by rw [hkey, if_pos rfl]
  refine Sorted.insert_cut ?_ (fun a ha => ?_) fun a ha => ?_
  · refine List.Pairwise.imp_of_mem (fun {a b} ha hb hab => ?_) hs
    rw [hold a ha, hold b hb]
    exact hab
  · rw [hnew, hold a (List.mem_append_left _ ha)]
    exact hl a ha
  · rw [hnew, hold a (List.mem_append_right _ ha)]
    exact hr a ha

/-- With the new node hung and filled in, only sizes and colours are left to do. -/
theorem Hung.focus (hu : Hung N k i m m₁) (hh : Holds m N [] (plug k leaf))
    (hiN : i ≠ N) (hinv : i ≠ INVALID_POINT) (hik : i ∉ labels k) :
    Focus (filled N k i v m₁) N k (node (m₁.color i) leaf i leaf) ∧
      SizedCtx (filled N k i v m₁) k 0 := by
  have hk : Holds m N k leaf := by
    have hp := holds_plug_iff.mpr hh
    rwa [List.append_nil] at hp
  have hne : ∀ j ∈ labels k, j ≠ i := fun j hj he => hik (he ▸ hj)
  refine ⟨⟨?_, ?_, ?_, ?_⟩, ?_⟩
  · have hn := hu.kept.numOfNode
    simpa [filled] using hn.trans hk.header
  · refine hu.ctx.congr (fun j hj => ?_) ?_
    · simp [SameAt, filled, hne j hj]
    · simp [filled, Ne.symm hiN]
  · refine ⟨by simp [filled], by simp [filled], by simp [filled], by simp [filled], trivial,
      trivial⟩
  · have hd := hk.distinct
    simp only [toList_leaf, List.nil_append, List.nodup_cons, List.mem_cons, not_or] at hd
    simp only [toList_node, toList_leaf, List.nil_append, List.cons_append, List.nodup_cons,
      List.mem_cons, not_or]
    exact ⟨⟨hd.1.1, Ne.symm hiN, hd.1.2⟩, ⟨Ne.symm hinv, hd.2.1⟩, hik, hd.2.2⟩
  · refine SizedCtx.congr hk.sizedCtx fun j hj => ?_
    simp [filled, hne j hj, hu.size]

end New

theorem insertNode_full {t : ColoredTree Nat} {x p : Nat} {v : V} (hi : Inv T N m t []) :
    Ends (insertNode T x p v) m fun r m' => r = N ∧ m' = m := by
  rw [insertNode, ends_bind]
  refine allocNode_empty hi ?_
  simp only [if_true, endIt, header, ends_read]
  exact ⟨hi.header, trivial⟩

/-- The invariant with node `i` moved from the free list into the tree. -/
theorem Inv.insert {t t' : ColoredTree Nat} {free : List Nat} {xs ys : List Nat} {v : V}
    {m' : Mem V}
    (hi : Inv T N m t (i :: free)) (hlist : t.toList = xs ++ ys)
    (hh : Holds m' N [] t') (balanced : ∃ n, Balanced t' n) (root : t'.color = .black)
    (hseq : t'.toList = xs ++ i :: ys) (edges : Edges m' N (xs ++ i :: ys))
    (links : ∀ j ∈ free, m'.child .right j = m.child .right j)
    (data : ∀ j, m'.data j = if j = i then v else m.data j)
    (use : ∀ j, m'.useFlag j = if j = i then 1 else m.useFlag j)
    (head : m'.freeNodeList = m.child .right i) (szUse : m'.szUseNode = m.szUseNode + 1)
    (szFree : m'.szFreeNode = m.szFreeNode - 1) (clean : m'.dirtyFlag = 0)
    (hl : ∀ a ∈ xs, ¬ T.compareKey (T.extractKey v) (keyAt T m a) = true)
    (hr : ∀ a ∈ ys, T.compareKey (T.extractKey v) (keyAt T m a) = true) :
    Inv T N m' t' free := by
  obtain ⟨-, -, hit⟩ := hi.free_ne List.mem_cons_self
  have hcard : t'.card = t.card + 1 := by
    simp only [card, hseq, hlist, List.length_append, List.length_cons]
    omega
  have hfree : ∀ j ∈ free, j ≠ i := by
    rintro j hj rfl
    have hnd := hi.nodup
    rw [List.nodup_append, List.nodup_cons] at hnd
    exact hnd.2.1.1 hj
  refine ⟨⟨hh, balanced, root, by rwa [hseq], ?_⟩, ?_, ?_, ?_, ?_, fun j hj => ?_, fun j hj => ?_,
    clean, hi.small⟩
  · have hs := hi.sorted
    rw [hlist] at hs hit
    rw [hseq]
    exact sorted_insert hs hit data hl hr
  · rw [head]
    exact hi.freeChain.2.congr links
  · have hnodes := hi.nodes
    rw [hlist] at hnodes
    rw [hseq]
    refine List.Perm.trans ?_ hnodes
    rw [List.append_assoc, List.append_assoc, List.cons_append]
    exact List.Perm.append_left _ List.perm_middle.symm
  · rw [szUse, hcard, hi.szUse]
  · rw [szFree, hi.szFree, List.length_cons, Nat.add_sub_cancel]
  · rw [use]
    by_cases he : j = i
    · rw [if_pos he]
    · rw [if_neg he]
      refine hi.used j ?_
      rw [hseq] at hj
      rw [hlist]
      simp only [List.mem_append, List.mem_cons] at hj ⊢
      tauto
  · rw [use, if_neg (hfree j hj)]
    exact hi.unused j (List.mem_cons_of_mem i hj)

theorem insertNode_ends {t : ColoredTree Nat} {free : List Nat} {v : V}
    (hi : Inv T N m t (i :: free))
    (ht : plug k leaf = t)
    (side : ∀ f ∈ k.head?, f.dir = .left ↔
      T.compareKey (T.extractKey v) (keyAt T m f.label) = true)
    (hl : ∀ a ∈ before k, ¬ T.compareKey (T.extractKey v) (keyAt T m a) = true)
    (hr : ∀ a ∈ after k, T.compareKey (T.extractKey v) (keyAt T m a) = true) :
    Ends (insertNode T INVALID_POINT (up N k) v) m fun r m' => r = i ∧
      ∃ t', Inv T N m' t' free ∧ t'.toList = before k ++ i :: after k ∧
        ∀ j, m'.data j = if j = i then v else m.data j := by
  subst ht
  obtain ⟨hiN, hinv, hit⟩ := hi.free_ne List.mem_cons_self
  have hmem : ∀ j, j ∈ (plug k leaf).toList ↔ j ∈ labels k := by
    intro j
    rw [(toList_plug_perm k leaf).mem_iff, toList_leaf, List.nil_append]
  have hik : i ∉ labels k := fun h => hit ((hmem i).mpr h)
  have hlist : (plug k leaf).toList = before k ++ after k := by simp [toList_plug]
  rw [insertNode, ends_bind]
  refine allocNode_cons hi ?_
  simp only [if_neg hinv, setDirtyFlag, ends_bind, ends_write]
  -- the memory in which the node is allocated and the flag is set
  have hstart : Holds (Store.apply (Write.dirtyFlag 1) (allocated i m)) N [] (plug k leaf) :=
    hi.toHolds.congr rfl (fun j => ⟨rfl, rfl, fun _ => rfl⟩) fun _ => rfl
  have hfocus : Focus (Store.apply (Write.dirtyFlag 1) (allocated i m)) N k leaf := by
    have hp := focus_plug_iff.mpr hstart.toFocus
    rwa [List.append_nil] at hp
  refine (insertLink_ends hfocus hi.edges side).mono fun _ m₁ hu => ?_
  simp only [setParent, setChild, setSize, ends_write]
  obtain ⟨hf, hsz⟩ := hu.focus (v := v) hstart (by omega) hinv hik
  change Ends _ (filled N k i v m₁) _
  have hlen : k.length ≤ N := by
    have hc := Focus.length_le hi.card_le
    omega
  have hpath := resizePath_holds (f := (· + 1)) hf (by simp [Sized, filled]) hsz
    (fun c => by simp; omega) hlen
  refine hpath.mono fun _ m₂ h₂ => ?_
  obtain ⟨hh₂, rfl⟩ := h₂
  obtain ⟨n, hb⟩ := hi.balanced
  obtain ⟨n', hfits, hleaf, -⟩ := fits_of_balanced_plug hb hi.rootBlack
  obtain rfl : n' = 0 := balanced_leaf_iff.mp hleaf
  have hbal := rbTreeBalance_ends hh₂ hfits hlen (Nat.le_refl N)
  refine (ends_link hbal (rbTreeBalance_emits i)).mono fun _ m₃ h₃ => ?_
  obtain ⟨⟨t', n'', hh₃, hb', hroot, hseq, hout⟩, hkept⟩ := h₃
  have hnew : (plug k (node (m₁.color i) leaf i leaf)).toList = before k ++ i :: after k := by
    simp [toList_plug]
  rw [hnew] at hseq hout
  simp only [clearDiryFlag, ends_write, ends_pure]
  -- a name outside the new sequence, other than the header, keeps its links
  have hlinks : ∀ j, j ∉ before k ++ i :: after k → ∀ d, m₃.child d j = m₁.child d j := by
    intro j hj d
    have hji : j ≠ i := fun he => hj (by rw [he]; simp)
    rw [(hout j hj).1 d]
    simp [resized, filled, hji]
  have hNseq : N ∉ before k ++ i :: after k := by
    have hd := hh₃.distinct
    simp only [List.nodup_cons, List.mem_cons, List.mem_append, not_or] at hd
    rw [← hseq]
    exact hd.1.2.1
  have hfreelinks : ∀ j ∈ free, m₃.child .right j = m.child .right j := by
    intro j hj
    obtain ⟨hjN, -, hjt⟩ := hi.free_ne (List.mem_cons_of_mem i hj)
    have hji : j ≠ i := by
      rintro rfl
      have hnd := hi.nodup
      rw [List.nodup_append, List.nodup_cons] at hnd
      exact hnd.2.1.1 hj
    have hjk : j ∉ labels k := fun h => hjt ((hmem j).mpr h)
    rw [hlinks j (fun hm => ?_) .right, hu.child j (by omega) hjk .right]
    · rfl
    · simp only [List.mem_append, List.mem_cons] at hm
      rcases hm with hm | hm | hm
      · exact hjk (List.mem_append_left _ hm)
      · exact hji hm
      · exact hjk (List.mem_append_right _ hm)
  have hedges : Edges m₃ N (before k ++ i :: after k) := by
    intro d
    have he := hu.edges d
    have hlist' : (plug k (node .red leaf i leaf)).toList = before k ++ i :: after k := by
      simp [toList_plug]
    rw [hlist'] at he
    exact (hlinks N hNseq d).trans he
  have hdata : ∀ j, m₃.data j = if j = i then v else m.data j := by
    intro j
    have hd := hu.kept.data
    rw [hkept.data]
    simp [resized, filled, hd, allocated]
  have huse : ∀ j, m₃.useFlag j = if j = i then 1 else m.useFlag j := by
    intro j
    have hd := hu.kept.useFlag
    rw [hkept.useFlag]
    simp [resized, filled, hd, allocated]
  have hhead : m₃.freeNodeList = m.child .right i := by
    have hd := hu.kept.freeNodeList
    rw [hkept.freeNodeList]
    simp [resized, filled, hd, allocated]
  have hszUse : m₃.szUseNode = m.szUseNode + 1 := by
    have hd := hu.kept.szUseNode
    rw [hkept.szUseNode]
    simp [resized, filled, hd, allocated]
  have hszFree : m₃.szFreeNode = m.szFreeNode - 1 := by
    have hd := hu.kept.szFreeNode
    rw [hkept.szFreeNode]
    simp [resized, filled, hd, allocated]
  have hh₄ : Holds (Store.apply (Write.dirtyFlag 0) m₃) N [] t' :=
    hh₃.congr rfl (fun j => ⟨rfl, rfl, fun _ => rfl⟩) fun _ => rfl
  have hinv' : Inv T N (Store.apply (Write.dirtyFlag 0) m₃) t' free :=
    hi.insert hlist hh₄ ⟨n'', hb'⟩ hroot hseq hedges hfreelinks hdata huse hhead hszUse hszFree
      rfl hl hr
  exact ⟨trivial, t', hinv', hseq, hdata⟩

/-! ## The insertions -/

/-- `v` went into the first free node, after every element whose key is not
greater; with no free node left nothing happened and the result is `end()`. -/
def Inserted (T : Params V K) (N : Nat) (v : V) (m : Mem V) (t : ColoredTree Nat) (free : List Nat)
    (r : Nat) (m' : Mem V) : Prop :=
  match free with
  | [] => r = N ∧ m' = m
  | i :: free => r = i ∧ ∃ t' xs ys, Inv T N m' t' free ∧ t.toList = xs ++ ys ∧
      t'.toList = xs ++ i :: ys ∧ (∀ j, m'.data j = if j = i then v else m.data j) ∧
      (∀ a ∈ xs, ¬ T.compareKey (T.extractKey v) (keyAt T m a) = true) ∧
      ∀ a ∈ ys, T.compareKey (T.extractKey v) (keyAt T m a) = true

section Insert

variable {t : ColoredTree Nat} {free : List Nat} {v : V}

/-- The hole the descent for `v` ends in. -/
def place (T : Params V K) (m : Mem V) (t : ColoredTree Nat) (v : V) : Ctx Nat :=
  descend (fun i => T.compareKey (T.extractKey v) (keyAt T m i)) t []

theorem plug_place : plug (place T m t v) leaf = t := plug_descend _ t []

theorem place_splits (hi : Inv T N m t free) :
    (∀ a ∈ before (place T m t v), ¬ T.compareKey (T.extractKey v) (keyAt T m a) = true) ∧
      ∀ a ∈ after (place T m t v), T.compareKey (T.extractKey v) (keyAt T m a) = true :=
  descend_splits (hi.sorted.greater_mono (T.extractKey v)) (by simp [before]) (by simp [after])

theorem place_dir : ∀ f ∈ place T m t v,
    f.dir = .left ↔ T.compareKey (T.extractKey v) (keyAt T m f.label) = true :=
  descend_dir (by simp)

theorem place_focus (hi : Inv T N m t free) : Focus m N (place T m t v) leaf := by
  have hf := hi.toFocus
  rw [← plug_place (T := T) (m := m) (t := t) (v := v)] at hf
  have hp := focus_plug_iff.mpr hf
  rwa [List.append_nil] at hp

theorem insertNode_inserted (hi : Inv T N m t free) :
    Ends (insertNode T INVALID_POINT (up N (place T m t v)) v) m (Inserted T N v m t free) := by
  cases free with
  | nil => exact insertNode_full hi
  | cons i free =>
      obtain ⟨hl, hr⟩ := place_splits (v := v) hi
      have side : ∀ f ∈ (place T m t v).head?, f.dir = .left ↔
          T.compareKey (T.extractKey v) (keyAt T m f.label) = true :=
        fun f hf => place_dir f (List.mem_of_head? hf)
      refine (insertNode_ends hi plug_place side hl hr).mono fun r m' h' => ?_
      obtain ⟨rfl, t', hi', hseq, hdata⟩ := h'
      have hlist : t.toList = before (place T m t v) ++ after (place T m t v) := by
        rw [← plug_place (T := T) (m := m) (t := t) (v := v), toList_plug, plug_place]
        simp
      exact ⟨rfl, t', _, _, hi', hlist, hseq, hdata, hl, hr⟩

theorem insertEqual_ends (hi : Inv T N m t free) :
    Ends (insertEqual T v) m (Inserted T N v m t free) := by
  rw [insertEqual, ends_bind]
  exact descendTo_ends _ hi.toFocus hi.card_le (insertNode_inserted hi)

/-- The last element whose key is not greater than that of `v`. -/
theorem place_pred (hi : Inv T N m t free) {j : Nat}
    (hj : (before (place T m t v)).getLast? = some j) :
    Ends (if endsLeft (place T m t v) then decrement (up N (place T m t v))
      else pure (up N (place T m t v))) m fun j' m' => m' = m ∧ j' = j := by
  have hf := place_focus (v := v) hi
  have ht : plug (place T m t v) leaf = t := plug_place
  generalize place T m t v = k at hj hf ht ⊢
  cases k with
  | nil => simp [before] at hj
  | cons f k =>
      obtain ⟨d, c, a, s⟩ := f
      cases d with
      | left =>
          have hnode : Focus m N k (node c leaf a s) := focus_up_iff.mp hf
          have htree : plug k (node c leaf a s) = t := ht
          simp only [endsLeft, decide_true, if_true, up_cons]
          refine decrement_ends hnode ?_ ?_ ?_
          · rw [htree]
            exact hi.card_le
          · rw [htree]
            exact hi.rootBlack
          · simpa [before] using hj
      | right =>
          simp only [endsLeft, reduceCtorEq, decide_false, Bool.false_eq_true, if_false, up_cons,
            ends_pure]
          simp [before] at hj
          exact ⟨trivial, hj⟩

theorem place_list (m : Mem V) (t : ColoredTree Nat) (v : V) :
    t.toList = before (place T m t v) ++ after (place T m t v) := by
  have hp := congrArg toList (plug_place (T := T) (m := m) (t := t) (v := v))
  rw [toList_plug, toList_leaf, List.append_nil] at hp
  exact hp.symm

/-- The descent that ended to the left of its last node is at `begin()` when no
key is smaller. -/
theorem place_begin (hi : Inv T N m t free) (hleft : endsLeft (place T m t v) = true) :
    up N (place T m t v) = m.child .left N ↔ before (place T m t v) = [] := by
  have hf := place_focus (v := v) hi
  have ht : plug (place T m t v) leaf = t := plug_place
  have hedges := hi.edges
  generalize place T m t v = k at hleft hf ht ⊢
  subst ht
  cases k with
  | nil => simp [hedges .left, rim, before]
  | cons f k =>
      obtain ⟨d, c, a, s⟩ := f
      obtain rfl : d = .left := by simpa [endsLeft] using hleft
      exact eq_comm.trans (edge_eq_iff hf hedges)

/-- When the greatest key not greater than that of `v` is smaller, no key is equal. -/
theorem smaller_of_pred (hi : Inv T N m t free) {j : Nat}
    (hj : (before (place T m t v)).getLast? = some j)
    (hlt : T.compareKey (keyAt T m j) (T.extractKey v) = true) :
    ∀ a ∈ before (place T m t v), T.compareKey (keyAt T m a) (T.extractKey v) = true := by
  obtain ⟨xs, hxs⟩ := List.getLast?_eq_some_iff.mp hj
  have hs := hi.sorted
  rw [place_list (T := T) m t v, hxs, List.append_assoc] at hs
  obtain ⟨-, -, hsx⟩ := List.pairwise_append.mp hs
  rw [hxs]
  intro a ha
  rcases List.mem_append.mp ha with ha | ha
  · have hja := hsx a ha j (by simp)
    exact (lt_or_lt_of_weak hlt).resolve_left hja
  · rw [List.mem_singleton.mp ha]
    exact hlt

/-- `insert_unique` found an equal element, or there is none and it inserted. -/
def InsertedUnique (T : Params V K) (N : Nat) (v : V) (m : Mem V) (t : ColoredTree Nat)
    (free : List Nat)
    (r : Nat × Bool) (m' : Mem V) : Prop :=
  if r.2 then Inserted T N v m t free r.1 m' ∧ ∀ a ∈ t.toList,
    T.compareKey (keyAt T m a) (T.extractKey v) = true ∨
      T.compareKey (T.extractKey v) (keyAt T m a) = true
  else m' = m ∧ r.1 ∈ t.toList ∧ ¬ T.compareKey (keyAt T m r.1) (T.extractKey v) = true ∧
    ¬ T.compareKey (T.extractKey v) (keyAt T m r.1) = true

/-- `insert_unique` inserts at the place of `v` when the keys before it are smaller,
and returns the last element before it otherwise. -/
theorem insertUnique_rule (hi : Inv T N m t free) {Q : Nat × Bool → Mem V → Prop}
    (hinsert : (∀ a ∈ before (place T m t v),
      T.compareKey (keyAt T m a) (T.extractKey v) = true) →
      Ends (insertNode T INVALID_POINT (up N (place T m t v)) v) m fun r m' => Q (r, true) m')
    (hfound : ∀ j ∈ before (place T m t v),
      ¬ T.compareKey (keyAt T m j) (T.extractKey v) = true → Q (j, false) m) :
    Ends (insertUnique T v) m Q := by
  have hplace : descend (fun i => beforeData T (T.extractKey v) (m.data i)) t [] =
      place T m t v := rfl
  rw [insertUnique, ends_bind]
  refine descendTo_ends _ hi.toFocus hi.card_le ?_
  simp only [begin, leftmost, key, value, ends_bind, ends_read, ends_ite, ends_pure, hi.header,
    hplace]
  by_cases hbegin : endsLeft (place T m t v) = true ∧ up N (place T m t v) = m.child .left N
  · rw [if_pos hbegin]
    have hnil := (place_begin hi hbegin.1).mp hbegin.2
    exact hinsert (by rw [hnil]; simp)
  · rw [if_neg hbegin]
    -- otherwise some key is not greater, and `j` is the last of them
    have hne : before (place T m t v) ≠ [] := by
      intro hnil
      by_cases hleft : endsLeft (place T m t v) = true
      · exact hbegin ⟨hleft, (place_begin hi hleft).mpr hnil⟩
      · generalize place T m t v = k at hnil hleft
        cases k with
        | nil => exact hleft rfl
        | cons f k =>
            obtain ⟨d, c, a, s⟩ := f
            cases d with
            | left => simp [endsLeft] at hleft
            | right => simp [before] at hnil
    obtain ⟨j, hj⟩ : ∃ j, (before (place T m t v)).getLast? = some j :=
      ⟨_, List.getLast?_eq_getLast_of_ne_nil hne⟩
    have hpred := place_pred hi hj
    have hmem : j ∈ before (place T m t v) := List.mem_of_getLast? hj
    have hfinish : ∀ j' m', m' = m ∧ j' = j →
        if T.compareKey (T.extractKey (m'.data j')) (T.extractKey v) = true then
          Ends (insertNode T INVALID_POINT (up N (place T m t v)) v) m' fun r m' => Q (r, true) m'
        else Q (j', false) m' := by
      intro j' m' hjm
      obtain ⟨rfl, rfl⟩ := hjm
      split
      next hlt => exact hinsert (smaller_of_pred hi hj hlt)
      next hlt => exact hfound j' hmem hlt
    split
    next hleft =>
      rw [if_pos hleft] at hpred
      exact hpred.mono hfinish
    next hleft =>
      rw [if_neg hleft, ends_pure] at hpred
      exact hfinish _ _ hpred

theorem insertUnique_ends (hi : Inv T N m t free) :
    Ends (insertUnique T v) m (InsertedUnique T N v m t free) := by
  obtain ⟨hl, hr⟩ := place_splits (v := v) hi
  have hlist := place_list (T := T) m t v
  refine insertUnique_rule hi (fun hsmall => ?_) fun j hmem hlt => ?_
  · refine (insertNode_inserted hi).mono fun r m' hins => ⟨hins, fun a ha => ?_⟩
    rw [hlist] at ha
    rcases List.mem_append.mp ha with ha | ha
    · exact Or.inl (hsmall a ha)
    · exact Or.inr (hr a ha)
  · refine ⟨rfl, ?_, hlt, hl j hmem⟩
    rw [hlist]
    exact List.mem_append_left _ hmem

end Insert

end Jump.MemPool.RBTree
