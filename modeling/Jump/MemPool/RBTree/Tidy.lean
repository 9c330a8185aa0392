import Jump.MemPool.RBTree.Refine

/-! # What lies outside of the tree

The iterators read the colour of the header and the data of whatever node they
stand at. The header stays red, and neither it nor a free node ever holds data.
-/

namespace Jump.MemPool.RBTree

open Jump.Core Jump.Core.ColoredTree Jump.Core.Ctx Prog

variable {V K : Type} {T : Params V K} {N : Nat} {m : Mem V} {t : ColoredTree Nat} {free : List Nat}

variable (T) in
/-- The invariant with a red header and blank data outside of the tree. -/
structure Tidy (N : Nat) (m : Mem V) (t : ColoredTree Nat) (free : List Nat) : Prop extends
    Inv T N m t free where
  headerRed : m.color N = .red
  blank : ∀ i ∈ N :: free, m.data i = T.zeroed

/-! ## Which nodes are coloured -/

/-- A write that colours no node outside of `S`. -/
def Write.Colors (S : Nat → Prop) : Write V → Prop
  | .color pos _ => S pos
  | _ => True

theorem Write.Colors.apply {S : Nat → Prop} {w : Write V} (hw : w.Colors S) {i : Nat} (hi : ¬ S i)
    (m : Mem V) : (Store.apply w m).color i = m.color i := by
  cases w with
  | color pos c =>
      have hne : i ≠ pos := fun he => hi (he ▸ hw)
      simp [hne]
  | _ => rfl

theorem ends_colors {α : Type} {x : Act V α} {Q : α → Mem V → Prop} {S : Nat → Prop} {i : Nat}
    (h : Ends x m Q) (hx : Emits x (Write.Colors S)) (hi : ¬ S i) :
    Ends x m fun a m' => Q a m' ∧ m'.color i = m.color i := by
  refine (h.emits hx).mono fun a m' h' => ?_
  obtain ⟨hq, ws, rfl, hw⟩ := h'
  exact ⟨hq, replay_unchanged (fun m => m.color i) (fun w hmem m => (hw w hmem).apply hi m) m⟩

section Emits

variable {S : Nat → Prop}

theorem relink_colors (d : Dir) (x y : Nat) :
    Emits (relink d x y : Act V Unit) (Write.Colors S) := by
  unfold relink
  repeat' first
    | exact emits_read
    | exact emits_write trivial
    | apply Emits.ite
    | refine Emits.bind ?_ fun _ => ?_

theorem insertLink_colors (currPos x parentPos : Nat) (v : V) :
    Emits (insertLink T currPos x parentPos v) (Write.Colors S) := by
  unfold insertLink key
  repeat' first
    | exact emits_read
    | exact emits_write trivial
    | exact emits_pure
    | apply Emits.ite
    | refine Emits.bind ?_ fun _ => ?_

theorem eraseSplice_colors (curPos x : Nat) :
    Emits (eraseSplice curPos x : Act V Nat) (Write.Colors S) := by
  unfold eraseSplice eraseExtreme
  repeat' first
    | exact emits_read
    | exact emits_write trivial
    | exact emits_pure
    | exact relink_colors _ _ _
    | exact extreme_emits _ _
    | apply Emits.ite
    | refine Emits.bind ?_ fun _ => ?_

theorem eraseTransplant_colors {curPos y : Nat} (x : Nat) (hcur : S curPos) (hy : S y) :
    Emits (eraseTransplant curPos y x : Act V Nat) (Write.Colors S) := by
  unfold eraseTransplant
  repeat' first
    | exact emits_read
    | exact emits_write trivial
    | exact emits_write hcur
    | exact emits_write hy
    | exact emits_pure
    | exact relink_colors _ _ _
    | apply Emits.ite
    | refine Emits.bind ?_ fun _ => ?_

end Emits

/-! ## Insertion -/

theorem insertNode_header {k : Ctx Nat} {i : Nat} {v : V} (hi : Inv T N m t (i :: free))
    (ht : plug k leaf = t) (side : ∀ f ∈ k.head?, f.dir = .left ↔
      T.compareKey (T.extractKey v) (keyAt T m f.label) = true) :
    Ends (insertNode T INVALID_POINT (up N k) v) m fun _ m' => m'.color N = m.color N := by
  subst ht
  obtain ⟨hiN, hinv, hit⟩ := hi.free_ne List.mem_cons_self
  have hik : i ∉ labels k := by
    intro h
    refine hit ((toList_plug_perm k leaf).mem_iff.mpr ?_)
    rwa [toList_leaf, List.nil_append]
  rw [insertNode, ends_bind]
  refine allocNode_cons hi ?_
  simp only [if_neg hinv, setDirtyFlag, ends_bind, ends_write]
  have hstart : Holds (Store.apply (Write.dirtyFlag 1) (allocated i m)) N [] (plug k leaf) :=
    hi.toHolds.congr rfl (fun j => ⟨rfl, rfl, fun _ => rfl⟩) fun _ => rfl
  have hfocus : Focus (Store.apply (Write.dirtyFlag 1) (allocated i m)) N k leaf := by
    have hp := focus_plug_iff.mpr hstart.toFocus
    rwa [List.append_nil] at hp
  have hlink := ends_colors (insertLink_ends hfocus hi.edges side)
    (insertLink_colors (S := fun _ => False) i _ _ v) (i := N) id
  refine hlink.mono fun _ m₁ h₁ => ?_
  obtain ⟨hu, hcol₁⟩ := h₁
  simp only [setParent, setChild, setSize, ends_write]
  obtain ⟨hf, hsz⟩ := hu.focus (v := v) hstart (by omega) hinv hik
  change Ends _ (filled N k i v m₁) _
  have hlen : k.length ≤ N := by
    have hc := Focus.length_le hi.card_le
    omega
  have hpath := resizePath_holds (f := (· + 1)) hf (by simp [Sized, filled]) hsz
    (fun c => by simp; omega) hlen
  refine hpath.mono fun _ m₂ h₂ => ?_
  obtain ⟨hh₂, rfl⟩ := h₂
  obtain ⟨n, hb⟩ := hi.balanced
  obtain ⟨n', hfits, hleaf, -⟩ := fits_of_balanced_plug hb hi.rootBlack
  obtain rfl : n' = 0 := balanced_leaf_iff.mp hleaf
  refine (rbTreeBalance_ends hh₂ hfits hlen (Nat.le_refl N)).mono fun _ m₃ h₃ => ?_
  obtain ⟨t', n'', hh₃, -, -, hseq, hout⟩ := h₃
  have hN : N ∉ (plug k (node (m₁.color i) leaf i leaf)).toList := by
    have hd := hh₃.distinct
    simp only [List.nodup_cons, List.mem_cons, List.mem_append, not_or] at hd
    rw [← hseq]
    exact hd.1.2.1
  simp only [clearDiryFlag, ends_write, ends_pure]
  have hcol₃ := (hout N hN).2
  have hcol₂ : (filled N k i v m₁).color N = m₁.color N := by simp [filled]
  exact hcol₃.trans (hcol₂.trans hcol₁)

theorem insertNode_tidy {v : V} (hi : Tidy T N m t free) :
    Ends (insertNode T INVALID_POINT (up N (place T m t v)) v) m fun r m' =>
      Inserted T N v m t free r m' ∧ ∃ t', Tidy T N m' t' free.tail := by
  have hins := insertNode_inserted (v := v) hi.toInv
  cases free with
  | nil =>
      refine hins.mono fun r m' h => ⟨h, t, ?_⟩
      obtain ⟨-, rfl⟩ := h
      exact hi
  | cons i free =>
      have side : ∀ f ∈ (place T m t v).head?, f.dir = .left ↔
          T.compareKey (T.extractKey v) (keyAt T m f.label) = true :=
        fun f hf => place_dir f (List.mem_of_head? hf)
      have hcol := insertNode_header hi.toInv plug_place side
      refine (hins.and hcol).mono fun r m' h => ⟨h.1, ?_⟩
      obtain ⟨⟨-, t', -, -, hi', -, -, hdata, -, -⟩, hred⟩ := h
      refine ⟨t', hi', hred.trans hi.headerRed, fun j hj => ?_⟩
      have hji : j ≠ i := by
        have hlt := (hi.free_ne List.mem_cons_self).1
        have hnd := hi.nodup
        rw [List.nodup_append, List.nodup_cons] at hnd
        rintro rfl
        rcases List.mem_cons.mp hj with rfl | hj
        · omega
        · exact hnd.2.1.1 hj
      rw [hdata, if_neg hji]
      refine hi.blank j ?_
      rcases List.mem_cons.mp hj with rfl | hj
      · exact List.mem_cons_self
      · exact List.mem_cons_of_mem _ (List.mem_cons_of_mem _ hj)

/-! ## Erasure -/

section Erase

variable {h : Nat} {k : Ctx Nat} {c : Color} {l r : ColoredTree Nat} {cur : Nat}

/-- The node taken out of its place is the erased one or its successor. -/
theorem eraseChoose_mem (hf : Focus m h k (node c l cur r))
    (hcard : (plug k (node c l cur r)).card ≤ h) :
    Ends (eraseChoose cur) m fun yx m' => m' = m ∧ yx.1 ∈ (node c l cur r).toList := by
  have hlen := Focus.length_le hcard
  rw [card_node] at hlen
  obtain ⟨-, -, hleft, hright, -, -⟩ := hf.sub
  have hcur : cur ∈ (node c l cur r).toList := by simp
  simp only [eraseChoose, left, right, child, ends_bind, ends_read, ends_ite, ends_pure, hleft,
    hright]
  by_cases hl : ptr l = INVALID_POINT
  · rw [if_pos hl]
    exact ⟨trivial, hcur⟩
  · rw [if_neg hl]
    by_cases hr : ptr r = INVALID_POINT
    · rw [if_pos hr]
      exact ⟨trivial, hcur⟩
    · rw [if_neg hr]
      have hne : r ≠ leaf := fun he => hr (by rw [he, ptr_leaf])
      have hdown : Focus m h (⟨.right, c, cur, l⟩ :: k) r := Focus.down (d := .right) hf
      refine (extreme_ends .left hdown hne (by omega)).mono fun y m' h' => ?_
      obtain ⟨rfl, rk, cy, x, rfl, -⟩ := h'
      refine ⟨rfl, ?_⟩
      have hy : y ∈ (plug rk (join cy .left leaf y x)).toList :=
        (toList_plug_perm _ _).mem_iff.mpr (List.mem_append_left _ (by simp [join]))
      rw [toList_node]
      exact List.mem_append_right _ (List.mem_cons_of_mem _ hy)

/-- Moving the nodes around colours the node taken out and its successor only. -/
theorem move_colors {S : Nat → Prop} {yx : Nat × Nat} (hcur : S cur) (hy : S yx.1) :
    Emits (if yx.1 ≠ cur then do
        let xParent ← eraseTransplant cur yx.1 yx.2
        return (cur, xParent)
      else do
        let xParent ← eraseSplice cur yx.2
        return (yx.1, xParent) : Act V (Nat × Nat)) (Write.Colors S) :=
  ((eraseTransplant_colors yx.2 hcur hy).bind fun _ => emits_pure).ite
    ((eraseSplice_colors _ _).bind fun _ => emits_pure)

/-- The rest of the erasure colours nodes of the tree only. -/
theorem repair_header {m' : Mem V} {x : ColoredTree Nat} {xs : List Nat}
    (hu : Unlinked h cur xs c m m' k x) (hg : Gap k x c) (hlen : k.length ≤ h) :
    Ends (do
      resizePath (· - 1) (up h k)
      if (← RBTree.color cur) ≠ .red then eraseBalance (ptr x) (up h k)) m' fun _ m'' =>
        m''.color h = m'.color h := by
  have hhead : h ∉ (plug k x).toList := by
    have hd := hu.distinct
    simp only [List.nodup_cons, List.mem_cons, not_or] at hd
    exact fun hm => hd.1.2 ((toList_plug_perm k x).mem_iff.mp hm)
  simp only [ends_bind]
  have hpath := resizePath_holds (f := (· - 1)) hu.toFocus hu.sized hu.stale
    (fun c => by omega) hlen
  refine hpath.mono fun _ m₂ h₂ => ?_
  obtain ⟨hh₂, rfl⟩ := h₂
  have hcol : (resized (· - 1) (spine k) m').color cur = c := hu.color
  simp only [RBTree.color, ends_read, ends_ite, hcol]
  by_cases hc : c = .red
  · rw [if_neg (not_not.mpr hc)]
    exact ends_pure.mpr rfl
  · rw [if_pos hc]
    have hfits := hg.fits
    rw [black_of_not_red hc] at hfits
    refine (eraseBalance_ends hh₂ hg.child hfits hlen).mono fun _ m₃ h₃ => ?_
    obtain ⟨t, n', -, -, -, -, hout⟩ := h₃
    exact (hout h hhead).2

theorem rbTreeBalanceForErase_header (hh : Holds m h k (node c l cur r))
    (edges : Edges m h (plug k (node c l cur r)).toList) {n : Nat}
    (hb : Balanced (plug k (node c l cur r)) n)
    (root : (plug k (node c l cur r)).color = .black)
    (hcard : (plug k (node c l cur r)).card ≤ h) :
    Ends (rbTreeBalanceForErase cur) m fun _ m' => m'.color h = m.color h := by
  have hh₁ : Holds (Store.apply (Write.dirtyFlag 1) m) h k (node c l cur r) :=
    hh.congr rfl (fun i => ⟨rfl, rfl, fun _ => rfl⟩) fun _ => rfl
  have hunlink := unlink_ends hh₁ edges hb root hcard
  simp only [ends_bind, ends_pure] at hunlink
  have hmem : h ∉ (node c l cur r).toList := fun hm => (hh.mem_ne (Or.inl hm)).1 rfl
  simp only [rbTreeBalanceForErase, setDirtyFlag, clearDiryFlag, ends_bind, ends_write]
  refine (hunlink.and (eraseChoose_mem hh₁.toFocus hcard)).mono fun yx m₁ h₁ => ?_
  obtain ⟨hmove, rfl, hy⟩ := h₁
  have hmoved := ends_colors hmove (move_colors (S := (· ∈ (node c l cur r).toList)) (by simp) hy)
    hmem
  refine hmoved.mono fun yp m₂ h₂ => ?_
  obtain ⟨⟨k', x, c', hres, hu, hg, -⟩, hcol⟩ := h₂
  simp only [Prod.mk.injEq] at hres
  obtain ⟨hy, hx, hxp⟩ := hres
  have hlen : k'.length ≤ h := by
    have hl := congrArg List.length hu.seq
    have hc := card_plug k' x
    have hold := card_plug k (node c l cur r)
    have hk' := length_le_labels k'
    simp only [card, toList_node, labels, List.length_append,
      List.length_cons] at hl hc hold hcard hk'
    omega
  have hrepair := repair_header hu hg hlen
  simp only [ends_bind] at hrepair
  simp only [hy, hx, hxp]
  refine hrepair.mono fun _ m₃ h₃ => h₃.mono fun col m₄ h₄ => ?_
  rw [ends_ite] at h₄ ⊢
  split
  next hc =>
    rw [if_pos hc] at h₄
    simp only [ends_bind, ends_write, ends_pure]
    exact h₄.mono fun _ m₅ h₅ => h₅.trans hcol
  next hc =>
    rw [if_neg hc, ends_pure] at h₄
    simp only [ends_bind, ends_write, ends_pure]
    exact h₄.trans hcol

end Erase

theorem erase_tidy {xs ys : List Nat} {i : Nat} (hi : Tidy T N m t free)
    (hseq : t.toList = xs ++ i :: ys) : Ends (erase T.zeroed i) m fun _ m' => ∃ t',
      Tidy T N m' t' (i :: free) ∧ t'.toList = xs ++ ys ∧ ∀ j, j ≠ i → m'.data j = m.data j := by
  have herase := erase_ends (z := T.zeroed) hi.toInv hseq
  have hlt : i < N := hi.mem_iff.mp (Or.inl (by rw [hseq]; simp))
  have hNi : N ≠ i := by omega
  have hheader : Ends (erase T.zeroed i) m fun _ m' => m'.color N = m.color N ∧
      m'.data i = T.zeroed := by
    obtain ⟨k, c, l, r, rfl, hh, rfl, rfl⟩ := hi.focus hseq
    obtain ⟨n, hb⟩ := hi.balanced
    rw [erase, ends_bind]
    refine (rbTreeBalanceForErase_header hh hi.edges hb hi.rootBlack hi.card_le).mono ?_
    intro y m₁ h₁
    refine freeNode_ends.mpr ⟨?_, by simp [freed, cleared]⟩
    simpa [freed, cleared, hNi] using h₁
  refine (herase.and hheader).mono fun _ m' h' => ?_
  obtain ⟨⟨t', hi', hseq', hdata⟩, hcol, hzero⟩ := h'
  refine ⟨t', ⟨hi', hcol.trans hi.headerRed, fun j hj => ?_⟩, hseq', hdata⟩
  by_cases hji : j = i
  · rw [hji, hzero]
  · rw [hdata j hji]
    refine hi.blank j ?_
    rcases List.mem_cons.mp hj with rfl | hj
    · exact List.mem_cons_self
    · exact List.mem_cons_of_mem _ ((List.mem_cons.mp hj).resolve_left hji)

/-! ## `clear` -/

/-- The header and the nodes below `j` are cleared. -/
structure Wiped (z : V) (N j : Nat) (m : Mem V) : Prop where
  numOfNode : m.numOfNode = N
  headerRed : m.color N = .red
  header : m.data N = z
  blank : ∀ i < j, m.data i = z

theorem Wiped.turn {z : V} {j : Nat} (hw : Wiped z N j m) (hj : j < N) :
    Ends (do
      clearNode z j
      setChild .right j (j + 1)) m fun _ m' => Wiped z N (j + 1) m' := by
  simp only [setChild, ends_bind, ends_write, clearNode_ends]
  have hne : N ≠ j := by omega
  refine ⟨by simpa [cleared] using hw.numOfNode, by simpa [cleared, hne] using hw.headerRed,
    by simpa [cleared, hne] using hw.header, fun i hi => ?_⟩
  by_cases he : i = j
  · simp [cleared, he]
  · simpa [cleared, he] using hw.blank i (by omega)

theorem clear_wiped {z : V} (hnum : m.numOfNode = N) :
    Ends (clear z) m fun _ m' => Wiped z N N m' := by
  have hstart : Wiped z N 0 (Store.apply (Write.child .left N N)
      (Store.apply (Write.child .right N N) (cleared z N (replay [.freeNodeList 0,
        .rootNode INVALID_POINT, .szFreeNode N, .szUseNode 0, .dirtyFlag 0] m)))) :=
    ⟨by simpa [cleared] using hnum, by simp [cleared], by simp [cleared],
      fun i hi => absurd hi (by omega)⟩
  have hturn : ∀ j (m : Mem V), 0 ≤ j → j < 0 + N → Wiped z N j m → Ends (do
      clearNode z j
      setChild .right j (j + 1)) m fun _ m' => Wiped z N (j + 1) m' :=
    fun j m _ hj hw => hw.turn (by omega)
  have hloop := ends_times (Wiped z N) hturn hstart
  simp only [cleared, replay_cons, replay_nil] at hloop
  simp only [clear, header, setChild, ends_bind, ends_read, ends_write, Mem.numOfNode_apply,
    hnum, clearNode_ends, cleared, replay_cons, replay_nil]
  refine hloop.mono fun _ m' hw => ?_
  rw [Nat.zero_add] at hw
  exact ⟨by simpa using hw.numOfNode, by simpa using hw.headerRed, by simpa using hw.header,
    fun i hi => by simpa using hw.blank i hi⟩

theorem clear_tidy (hnum : m.numOfNode = N) (pos : 1 ≤ N) (small : N < INVALID_POINT) :
    Ends (clear T.zeroed) m fun _ m' => Tidy T N m' leaf (List.range N) := by
  refine ((clear_ends (T := T) hnum pos small).and (clear_wiped hnum)).mono fun _ m' h => ?_
  obtain ⟨hi, hw⟩ := h
  refine ⟨hi, hw.headerRed, fun i hmem => ?_⟩
  rcases List.mem_cons.mp hmem with rfl | hmem
  · exact hw.header
  · exact hw.blank i (List.mem_range.mp hmem)

/-! ## Whole runs -/

/-- `Tidy` told apart from the invariant, by the use flags. -/
structure Spare (T : Params V K) (N : Nat) (m : Mem V) : Prop where
  headerRed : m.color N = .red
  header : m.data N = T.zeroed
  blank : ∀ i < N, m.useFlag i = 0 → m.data i = T.zeroed

theorem tidy_iff : Tidy T N m t free ↔ Inv T N m t free ∧ Spare T N m := by
  constructor
  · intro hi
    refine ⟨hi.toInv, hi.headerRed, hi.blank N List.mem_cons_self, fun i hlt hflag => ?_⟩
    refine hi.blank i (List.mem_cons_of_mem _ ?_)
    refine (hi.mem_iff.mpr hlt).resolve_left fun ht => ?_
    rw [hi.used i ht] at hflag
    cases hflag
  · rintro ⟨hi, hs⟩
    refine ⟨hi, hs.headerRed, fun i hmem => ?_⟩
    rcases List.mem_cons.mp hmem with rfl | hmem
    · exact hs.header
    · exact hs.blank i (hi.mem_iff.mp (Or.inr hmem)) (hi.unused i hmem)

theorem erase_spare {xs ys : List Nat} {i : Nat} (hi : Inv T N m t free)
    (hseq : t.toList = xs ++ i :: ys) (hs : Spare T N m) :
    Ends (erase T.zeroed i) m fun _ m' => Spare T N m' := by
  refine (erase_tidy (tidy_iff.mpr ⟨hi, hs⟩) hseq).mono fun _ m' h => ?_
  obtain ⟨t', hi', -, -⟩ := h
  exact (tidy_iff.mp hi').2

theorem eraseRange_spare {xs ys zs : List Nat} (hi : Inv T N m t free) (hs : Spare T N m)
    (pos : 1 ≤ N) (hseq : t.toList = xs ++ (ys ++ zs)) :
    Ends (eraseRange T.zeroed (startOf N (ys ++ zs)) (startOf N zs)) m fun _ m' =>
      Spare T N m' := by
  simp only [eraseRange, begin, leftmost, endIt, header, turns, ends_bind, ends_read, ends_ite,
    ends_pure, hi.header]
  split
  · refine (clear_tidy (T := T) hi.header pos hi.small).mono fun _ m' hi' => ?_
    exact (tidy_iff.mp hi').2
  · refine (eraseRange_loop hi hseq hs fun m t free xs i ys hi hseq hs => ?_).mono
      fun n m' h => h.2.2
    exact erase_spare hi hseq hs

theorem insertUnique_spare {v : V} (hi : Tidy T N m t free) :
    Ends (insertUnique T v) m fun _ m' => Spare T N m' := by
  refine insertUnique_rule hi.toInv (fun _ => ?_) fun _ _ _ => (tidy_iff.mp hi).2
  refine (insertNode_tidy hi).mono fun r m' h => ?_
  obtain ⟨-, t', hi'⟩ := h
  exact (tidy_iff.mp hi').2

/-- Every operation keeps what lies outside of the tree tidy. -/
theorem step_spare (hi : Tidy T N m t free) (pos : 1 ≤ N) (op : Op V K) (ha : op.Admissible m) :
    Ends (op.run T) m fun _ m' => Spare T N m' := by
  have hser := serials_eq hi.toInv
  have hs := (tidy_iff.mp hi).2
  cases op with
  | clear =>
      simp only [Op.run, ends_bind, ends_pure]
      refine (clear_tidy (T := T) hi.header pos hi.small).mono fun _ m' hi' => ?_
      exact (tidy_iff.mp hi').2
  | insertEqual v =>
      simp only [Op.run, ends_bind, ends_pure, insertEqual]
      refine descendTo_ends _ hi.toFocus hi.card_le ?_
      refine (insertNode_tidy hi).mono fun r m' h => ?_
      obtain ⟨-, t', hi'⟩ := h
      exact (tidy_iff.mp hi').2
  | insertUnique v =>
      simp only [Op.run, ends_bind, ends_pure]
      exact insertUnique_spare hi
  | erase i =>
      rw [Op.Admissible, hser] at ha
      obtain ⟨xs, ys, hseq⟩ := List.append_of_mem ha
      simp only [Op.run, ends_bind, ends_pure]
      exact erase_spare hi.toInv hseq hs
  | eraseRange first last =>
      obtain ⟨xs, ys, zs, hseq, rfl, rfl⟩ := ha
      rw [hser] at hseq
      simp only [Op.run, ends_bind, ends_pure, hi.header]
      exact eraseRange_spare hi.toInv hs pos hseq
  | eraseUnique k =>
      simp only [Op.run, eraseUnique, ends_bind, ends_pure]
      refine find_ends hi.toInv ?_
      simp only [endIt, header, ends_read, ends_ite, ends_bind, ends_pure, hi.header]
      cases hfind : t.toList.find? (equalKey T m k) with
      | none =>
          rw [Option.getD_none, if_neg (not_not.mpr rfl)]
          exact hs
      | some i =>
          have hmem := List.mem_of_find?_eq_some hfind
          obtain ⟨xs, ys, hseq⟩ := List.append_of_mem hmem
          have hlt := hi.mem_iff.mp (Or.inl hmem)
          rw [Option.getD_some, if_pos (by omega)]
          exact erase_spare hi.toInv hseq hs
  | eraseEqual k =>
      obtain ⟨xs, ys, zs, hseq, -, -, -, hlow, hup⟩ := three_parts hi.toInv k
      simp only [Op.run, eraseEqual, ends_bind, ends_pure]
      refine lowerBound_ends hi.toInv (upperBound_ends hi.toInv ?_)
      rw [hlow, hup]
      exact eraseRange_spare hi.toInv hs pos hseq
  | lowerBound k =>
      simp only [Op.run, ends_bind, ends_pure]
      exact lowerBound_ends hi.toInv hs
  | upperBound k =>
      simp only [Op.run, ends_bind, ends_pure]
      exact upperBound_ends hi.toInv hs
  | equalRange k =>
      simp only [Op.run, ends_bind, ends_pure]
      exact equalRange_ends hi.toInv hs
  | find k =>
      simp only [Op.run, ends_bind, ends_pure]
      exact find_ends hi.toInv hs

theorem run_tidy {tr : List (Op V K × Res)} (pos : 1 ≤ N) (small : N < INVALID_POINT)
    (hrun : Run T N tr m) : ∃ t free, Tidy T N m t free := by
  induction hrun with
  | @init m₀ ws hinit =>
      have hclear : Ends (init T N false) m₀ fun _ m' => Tidy T N m' leaf (List.range N) := by
        simp only [init, rebuild, Bool.false_eq_true, if_false, ends_bind, ends_write, insertAll,
          ends_pure]
        exact clear_tidy (by simp) pos small
      exact ⟨_, _, hclear.of_eq hinit⟩
  | step hrun ha hop ih =>
      obtain ⟨t, free, hi⟩ := ih
      obtain ⟨⟨t', free', hi'⟩, -⟩ := (step_ends hi.toInv pos _ ha).of_eq hop
      exact ⟨t', free', tidy_iff.mpr ⟨hi', (step_spare hi pos _ ha).of_eq hop⟩⟩

end Jump.MemPool.RBTree
