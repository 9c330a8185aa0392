import Jump.MemPool.RBTree.Code

/-! # The order of the writes

Rotations, rebalancing and relinking write links, colours and sizes only. What a crash
leaves behind depends on the order in which an operation writes the counters, the free
list head, the use flag and the dirty flag; between those the link writes come in blocks
whose contents do not matter here.
-/

namespace Jump.MemPool.RBTree

open Jump.Core Prog

/-! ## What the tree surgery writes -/

section Effects

variable {V : Type}

/-- A write to `parent_`, `left_`, `right_`, `color_` or `size_`. -/
def Write.IsLink : Write V → Prop
  | .parent _ _ | .child _ _ _ | .color _ _ | .size _ _ => True
  | _ => False

/-- The fields that no link write touches. -/
structure Kept (m m' : Mem V) : Prop where
  numOfNode : m'.numOfNode = m.numOfNode
  freeNodeList : m'.freeNodeList = m.freeNodeList
  szFreeNode : m'.szFreeNode = m.szFreeNode
  szUseNode : m'.szUseNode = m.szUseNode
  dirtyFlag : m'.dirtyFlag = m.dirtyFlag
  useFlag : m'.useFlag = m.useFlag
  data : m'.data = m.data

theorem Kept.refl (m : Mem V) : Kept m m := ⟨rfl, rfl, rfl, rfl, rfl, rfl, rfl⟩

theorem Kept.trans {m m' m'' : Mem V} (h : Kept m m') (h' : Kept m' m'') : Kept m m'' :=
  ⟨h'.1.trans h.1, h'.2.trans h.2, h'.3.trans h.3, h'.4.trans h.4, h'.5.trans h.5,
    h'.6.trans h.6, h'.7.trans h.7⟩

theorem Write.IsLink.kept {w : Write V} (hw : w.IsLink) (m : Mem V) :
    Kept m (Store.apply w m) := by
  cases w with
  | parent => exact ⟨rfl, rfl, rfl, rfl, rfl, rfl, rfl⟩
  | child => exact ⟨rfl, rfl, rfl, rfl, rfl, rfl, rfl⟩
  | color => exact ⟨rfl, rfl, rfl, rfl, rfl, rfl, rfl⟩
  | size => exact ⟨rfl, rfl, rfl, rfl, rfl, rfl, rfl⟩
  | _ => exact hw.elim

theorem kept_replay {ws : List (Write V)} (hw : ∀ w ∈ ws, w.IsLink) (m : Mem V) :
    Kept m (replay ws m) := by
  induction ws generalizing m with
  | nil => exact Kept.refl m
  | cons w ws ih =>
      exact ((hw w List.mem_cons_self).kept m).trans
        (ih (fun v hv => hw v (List.mem_cons_of_mem w hv)) _)

/-- A run of a program that writes links only keeps the other fields. -/
theorem ends_link {α : Type} {x : Act V α} {m : Mem V} {Q : α → Mem V → Prop}
    (h : Ends x m Q) (hx : Emits x Write.IsLink) :
    Ends x m fun a m' => Q a m' ∧ Kept m m' := by
  refine (h.emits hx).mono fun a m' h' => ?_
  obtain ⟨hq, ws, rfl, hw⟩ := h'
  exact ⟨hq, kept_replay hw m⟩

/-! ## The functions that write links only -/

section Links

variable {W : Write V → Prop}

theorem isRed_emits (pos : Nat) : Emits (isRed pos) W :=
  emits_pure.ite (emits_read.bind fun _ => emits_pure)

theorem isBlack_emits (pos : Nat) : Emits (isBlack pos) W :=
  emits_pure.ite (emits_read.bind fun _ => emits_pure)

theorem extreme_emits (d : Dir) (pos : Nat) : Emits (extreme d pos) W :=
  emits_read.bind fun fuel => Emits.loop (fun _ => emits_read.bind fun _ =>
    (emits_read.bind fun _ => emits_pure).ite emits_pure) fuel pos

end Links

theorem relink_emits (d : Dir) (x y : Nat) : Emits (relink d x y : Act V Unit) Write.IsLink := by
  unfold relink
  repeat' first
    | exact emits_read
    | exact emits_write trivial
    | apply Emits.ite
    | refine Emits.bind ?_ fun _ => ?_

theorem resize_emits (x : Nat) : Emits (resize x : Act V Unit) Write.IsLink := by
  unfold resize
  repeat' first
    | exact emits_read
    | exact emits_write trivial
    | exact emits_pure
    | apply Emits.ite
    | refine Emits.bind ?_ fun _ => ?_

theorem rbTreeRotate_emits (d : Dir) (x : Nat) :
    Emits (rbTreeRotate d x : Act V Unit) Write.IsLink := by
  unfold rbTreeRotate
  repeat' first
    | exact emits_read
    | exact emits_write trivial
    | exact emits_pure
    | exact relink_emits _ _ _
    | exact resize_emits _
    | apply Emits.ite
    | refine Emits.bind ?_ fun _ => ?_

theorem balanceUnder_emits (d : Dir) (pos : Nat) :
    Emits (balanceUnder d pos : Act V (Nat ⊕ Unit)) Write.IsLink := by
  unfold balanceUnder turnOutside
  repeat' first
    | exact emits_read
    | exact emits_write trivial
    | exact emits_pure
    | exact isRed_emits _
    | exact rbTreeRotate_emits _ _
    | apply Emits.ite
    | refine Emits.bind ?_ fun _ => ?_

theorem rbTreeBalance_emits (pos : Nat) : Emits (rbTreeBalance pos : Act V Unit) Write.IsLink := by
  have turn : ∀ p, Emits (balanceTurn p : Act V (Nat ⊕ Unit)) Write.IsLink := by
    intro p
    unfold balanceTurn
    repeat' first
      | exact emits_read
      | exact emits_pure
      | exact balanceUnder_emits _ _
      | apply Emits.ite
      | refine Emits.bind ?_ fun _ => ?_
  exact (emits_write trivial).bind fun _ => emits_read.bind fun fuel =>
    (Emits.loop turn fuel pos).bind fun _ => emits_read.bind fun _ => emits_write trivial

theorem resizePath_emits (f : Nat → Nat) (y : Nat) :
    Emits (resizePath f y : Act V Unit) Write.IsLink := by
  refine emits_read.bind fun fuel => Emits.loop (fun z => ?_) fuel y
  exact emits_read.bind fun _ => (emits_read.bind fun _ => (emits_write trivial).bind fun _ =>
    emits_read.bind fun _ => emits_pure).ite emits_pure

theorem eraseChoose_emits {W : Write V → Prop} (curPos : Nat) : Emits (eraseChoose curPos) W := by
  unfold eraseChoose
  repeat' first
    | exact emits_read
    | exact emits_pure
    | exact extreme_emits _ _
    | apply Emits.ite
    | refine Emits.bind ?_ fun _ => ?_

theorem eraseTransplant_emits (curPos y x : Nat) :
    Emits (eraseTransplant curPos y x : Act V Nat) Write.IsLink := by
  unfold eraseTransplant
  repeat' first
    | exact emits_read
    | exact emits_write trivial
    | exact emits_pure
    | exact relink_emits _ _ _
    | apply Emits.ite
    | refine Emits.bind ?_ fun _ => ?_

theorem eraseSplice_emits (curPos x : Nat) :
    Emits (eraseSplice curPos x : Act V Nat) Write.IsLink := by
  unfold eraseSplice eraseExtreme
  repeat' first
    | exact emits_read
    | exact emits_write trivial
    | exact emits_pure
    | exact relink_emits _ _ _
    | exact extreme_emits _ _
    | apply Emits.ite
    | refine Emits.bind ?_ fun _ => ?_

theorem eraseUnder_emits (d : Dir) (x xParent : Nat) :
    Emits (eraseUnder d x xParent : Act V ((Nat × Nat) ⊕ Nat)) Write.IsLink := by
  unfold eraseUnder blackSibling redFarChild
  repeat' first
    | exact emits_read
    | exact emits_write trivial
    | exact emits_pure
    | exact isBlack_emits _
    | exact rbTreeRotate_emits _ _
    | apply Emits.ite
    | refine Emits.bind ?_ fun _ => ?_

theorem eraseBalance_emits (x xParent : Nat) :
    Emits (eraseBalance x xParent : Act V Unit) Write.IsLink := by
  have turn : ∀ p, Emits (eraseTurn p : Act V ((Nat × Nat) ⊕ Nat)) Write.IsLink := by
    rintro ⟨x, xParent⟩
    unfold eraseTurn
    repeat' first
      | exact emits_read
      | exact emits_pure
      | exact isBlack_emits _
      | exact eraseUnder_emits _ _ _
      | apply Emits.ite
      | refine Emits.bind ?_ fun _ => ?_
  exact emits_read.bind fun fuel => (Emits.loop turn fuel _).bind fun _ =>
    (emits_write trivial).ite emits_pure

end Effects

section WriteOrder

variable {V K : Type} {T : Params V K} {m : Mem V}

def AllLink (ws : List (Write V)) : Prop := ∀ w ∈ ws, w.IsLink

theorem AllLink.append {ws ws' : List (Write V)} (h : AllLink ws) (h' : AllLink ws') :
    AllLink (ws ++ ws') :=
  fun w hw => (List.mem_append.mp hw).elim (h w) (h' w)

/-- The writes of `AllocNode`. -/
def allocWrites (m : Mem V) : List (Write V) :=
  [.freeNodeList (m.child .right m.freeNodeList), .szUseNode (m.szUseNode + 1),
    .szFreeNode (m.szFreeNode - 1)]

/-- The writes of `InsertNode` for the value `v`. -/
def insertWrites (m : Mem V) (v : V) (l₁ l₂ : List (Write V)) : List (Write V) :=
  allocWrites m ++ (.dirtyFlag 1 :: (l₁ ++ (.data m.freeNodeList v ::
    .useFlag m.freeNodeList 1 :: (l₂ ++ [.dirtyFlag 0]))))

/-- The writes of `FreeNode` to the node itself. -/
def clearWrites (zeroed : V) (i : Nat) (m : Mem V) : List (Write V) :=
  [.magicFlag i MAGIC_FLAG, .useFlag i 0, .parent i INVALID_POINT, .child .left i INVALID_POINT,
    .child .right i INVALID_POINT, .color i .red, .size i 0, .data i zeroed,
    .child .right i m.freeNodeList]

/-- The writes of `FreeNode`. -/
def freeWrites (zeroed : V) (i : Nat) (m : Mem V) : List (Write V) :=
  clearWrites zeroed i m ++
    [.freeNodeList i, .szFreeNode (m.szFreeNode + 1), .szUseNode (m.szUseNode - 1)]

/-- The writes of `erase`. -/
def eraseWrites (m : Mem V) (zeroed : V) (i : Nat) (l : List (Write V)) : List (Write V) :=
  .dirtyFlag 1 :: (l ++ (.dirtyFlag 0 :: freeWrites zeroed i m))

/-! ## Searches write nothing -/

section Quiet

variable {W : Write V → Prop}

theorem climb_emits (d : Dir) (serial : Nat) : Emits (climb d serial) W := by
  refine emits_read.bind fun fuel => emits_read.bind fun p => Emits.loop (fun sy => ?_) fuel _
  obtain ⟨s, y⟩ := sy
  exact emits_read.bind fun _ => (emits_read.bind fun _ => emits_pure).ite emits_pure

theorem decrement_emits (serial : Nat) : Emits (decrement serial) W := by
  unfold decrement
  repeat' first
    | exact emits_read
    | exact emits_pure
    | exact extreme_emits _ _
    | exact climb_emits _ _
    | apply Emits.ite
    | refine Emits.bind ?_ fun _ => ?_

theorem descendTo_emits (goLeft : V → Bool) : Emits (descendTo goLeft) W :=
  emits_read.bind fun fuel => emits_read.bind fun _ => emits_read.bind fun _ =>
    Emits.loop (fun _ => (emits_read.bind fun _ => emits_read.bind fun _ => emits_pure).ite
      emits_pure) fuel _

end Quiet

theorem insertLink_emits (currPos x parentPos : Nat) (v : V) :
    Emits (insertLink T currPos x parentPos v) Write.IsLink := by
  unfold insertLink key
  repeat' first
    | exact emits_read
    | exact emits_write trivial
    | exact emits_pure
    | apply Emits.ite
    | refine Emits.bind ?_ fun _ => ?_

/-! ## The writing operations -/

theorem allocNode_writes {r : Nat} {ws : List (Write V)} (h : allocNode m = some (r, ws)) :
    (m.szFreeNode = 0 ∧ r = INVALID_POINT ∧ ws = []) ∨
      (m.szFreeNode ≠ 0 ∧ r = m.freeNodeList ∧ ws = allocWrites m) := by
  rw [allocNode, read_bind] at h
  split at h
  next hz => exact Or.inl ⟨hz, pure_eq_some.mp h⟩
  next hz =>
    simp only [right, child, read_bind, write_bind, pure_eq_some] at h
    obtain ⟨ws₁, ⟨ws₂, ⟨ws₃, ⟨hr, rfl⟩, rfl⟩, rfl⟩, rfl⟩ := h
    exact Or.inr ⟨hz, hr, by simp [allocWrites]⟩

theorem insertNode_writes {x p : Nat} {v : V} {r : Nat} {ws : List (Write V)}
    (head : m.szFreeNode ≠ 0 → m.freeNodeList ≠ INVALID_POINT)
    (h : insertNode T x p v m = some (r, ws)) :
    (m.szFreeNode = 0 ∧ ws = []) ∨
      (m.szFreeNode ≠ 0 ∧ ∃ l₁ l₂, AllLink l₁ ∧ AllLink l₂ ∧ ws = insertWrites m v l₁ l₂) := by
  obtain ⟨pos, ws₁, ws₂, halloc, hrest, rfl⟩ := bind_eq_some.mp h
  rcases allocNode_writes halloc with ⟨hz, rfl, rfl⟩ | ⟨hz, rfl, rfl⟩
  · rw [if_pos rfl] at hrest
    cases hrest
    exact Or.inl ⟨hz, rfl⟩
  · rw [if_neg (head hz)] at hrest
    obtain ⟨ws₃, hlink, rfl⟩ := write_bind.mp hrest
    obtain ⟨-, l, ws₄, -, hl, hfill, rfl⟩ := (insertLink_emits _ x p v).split hlink
    simp only [setParent, setChild, setSize, write_bind] at hfill
    obtain ⟨ws₅, ⟨ws₆, ⟨ws₇, ⟨ws₈, ⟨ws₉, ⟨ws₁₀, hpath, rfl⟩, rfl⟩, rfl⟩, rfl⟩, rfl⟩, rfl⟩ := hfill
    obtain ⟨-, l', ws₁₁, -, hl', hbal, rfl⟩ := (resizePath_emits _ p).split hpath
    obtain ⟨-, l'', ws₁₂, -, hl'', hclear, rfl⟩ := (rbTreeBalance_emits _).split hbal
    simp only [clearDiryFlag, write_bind, pure_eq_some] at hclear
    obtain ⟨ws₁₃, ⟨-, rfl⟩, rfl⟩ := hclear
    refine Or.inr ⟨hz, l ++ [.parent m.freeNodeList p, .child .left m.freeNodeList INVALID_POINT,
      .child .right m.freeNodeList INVALID_POINT], .size m.freeNodeList 1 :: (l' ++ l''),
        ?_, ?_, ?_⟩
    · refine AllLink.append hl fun w hw => ?_
      simp only [List.mem_cons, List.not_mem_nil, or_false] at hw
      rcases hw with rfl | rfl | rfl
      · trivial
      · trivial
      · trivial
    · refine fun w hw => ?_
      rcases List.mem_cons.mp hw with rfl | hw
      · trivial
      · exact AllLink.append hl' hl'' w hw
    · simp [insertWrites]

theorem rbTreeBalanceForErase_writes {i r : Nat} {ws : List (Write V)}
    (h : rbTreeBalanceForErase i m = some (r, ws)) :
    ∃ l, AllLink l ∧ ws = .dirtyFlag 1 :: (l ++ [.dirtyFlag 0]) := by
  obtain ⟨ws₁, hchoose, rfl⟩ := write_bind.mp h
  obtain ⟨yx, l, ws₂, -, hl, hunlink, rfl⟩ := (eraseChoose_emits i).split hchoose
  obtain ⟨y, x⟩ := yx
  have hemits : Emits (if y ≠ i then do
      let xParent ← eraseTransplant i y x
      return (i, xParent)
    else do
      let xParent ← eraseSplice i x
      return (y, xParent) : Act V (Nat × Nat)) Write.IsLink :=
    ((eraseTransplant_emits i y x).bind fun _ => emits_pure).ite
      ((eraseSplice_emits i x).bind fun _ => emits_pure)
  obtain ⟨yp, l', ws₃, -, hl', hpath, rfl⟩ := hemits.split hunlink
  obtain ⟨-, l'', ws₄, -, hl'', hcolor, rfl⟩ := (resizePath_emits _ _).split hpath
  simp only [color, read_bind] at hcolor
  split at hcolor
  next =>
    obtain ⟨-, l₃, ws₅, -, hl₃, hclear, rfl⟩ := (eraseBalance_emits _ _).split hcolor
    simp only [clearDiryFlag, write_bind, pure_eq_some] at hclear
    obtain ⟨ws₆, ⟨-, rfl⟩, rfl⟩ := hclear
    exact ⟨l ++ (l' ++ (l'' ++ l₃)), AllLink.append hl
      (AllLink.append hl' (AllLink.append hl'' hl₃)),
      by simp⟩
  next =>
    simp only [clearDiryFlag, write_bind, pure_eq_some] at hcolor
    obtain ⟨ws₅, ⟨-, rfl⟩, rfl⟩ := hcolor
    exact ⟨l ++ (l' ++ l''), AllLink.append hl (AllLink.append hl' hl''), by simp⟩

theorem clearNode_writes {zeroed : V} {i : Nat} {u : Unit} {ws : List (Write V)}
    (h : clearNode zeroed i m = some (u, ws)) : ws = [.magicFlag i MAGIC_FLAG, .useFlag i 0,
      .parent i INVALID_POINT, .child .left i INVALID_POINT, .child .right i INVALID_POINT,
      .color i .red, .size i 0, .data i zeroed] := by
  simp only [clearNode, setParent, setChild, setColor, setSize, write_bind, write_eq_some] at h
  obtain ⟨ws₁, ⟨ws₂, ⟨ws₃, ⟨ws₄, ⟨ws₅, ⟨ws₆, ⟨ws₇, rfl, rfl⟩, rfl⟩, rfl⟩, rfl⟩, rfl⟩, rfl⟩,
      rfl⟩ := h
  rfl

theorem freeNode_writes {zeroed : V} {i : Nat} {u : Unit} {ws : List (Write V)}
    (h : freeNode zeroed i m = some (u, ws)) : ws = freeWrites zeroed i m := by
  obtain ⟨u', ws₁, ws₂, h₁, h₂, rfl⟩ := bind_eq_some.mp h
  obtain rfl := clearNode_writes h₁
  simp only [setChild, read_bind, write_bind, write_eq_some] at h₂
  obtain ⟨ws₃, ⟨ws₄, ⟨ws₅, rfl, rfl⟩, rfl⟩, rfl⟩ := h₂
  simp [freeWrites, clearWrites]

theorem erase_writes {zeroed : V} {i : Nat} {u : Unit} {ws : List (Write V)}
    (h : erase zeroed i m = some (u, ws)) : ∃ l, AllLink l ∧ ws = eraseWrites m zeroed i l := by
  obtain ⟨y, ws₁, ws₂, h₁, h₂, rfl⟩ := bind_eq_some.mp h
  obtain ⟨l, hl, rfl⟩ := rbTreeBalanceForErase_writes h₁
  have hkept := kept_replay hl (Store.apply (Write.dirtyFlag 1) m)
  refine ⟨l, hl, ?_⟩
  obtain rfl := freeNode_writes h₂
  have hfree := hkept.freeNodeList
  have huse := hkept.szUseNode
  have hszFree := hkept.szFreeNode
  simp [eraseWrites, freeWrites, clearWrites, replay_append, hfree, huse, hszFree]

/-- `insert_equal` writes what `InsertNode` writes. -/
theorem insertEqual_writes {v : V} {r : Nat} {ws : List (Write V)}
    (head : m.szFreeNode ≠ 0 → m.freeNodeList ≠ INVALID_POINT)
    (h : insertEqual T v m = some (r, ws)) :
    (m.szFreeNode = 0 ∧ ws = []) ∨
      (m.szFreeNode ≠ 0 ∧ ∃ l₁ l₂, AllLink l₁ ∧ AllLink l₂ ∧ ws = insertWrites m v l₁ l₂) := by
  obtain ⟨yc, -, hins⟩ := (descendTo_emits _).skip h
  exact insertNode_writes head hins

/-- So does `insert_unique`, unless it finds an equal element. -/
theorem insertUnique_writes {v : V} {r : Nat × Bool} {ws : List (Write V)}
    (head : m.szFreeNode ≠ 0 → m.freeNodeList ≠ INVALID_POINT)
    (h : insertUnique T v m = some (r, ws)) : ws = [] ∨ (r.2 = true ∧ m.szFreeNode ≠ 0 ∧
      ∃ l₁ l₂, AllLink l₁ ∧ AllLink l₂ ∧ ws = insertWrites m v l₁ l₂) := by
  have hins : ∀ {p ws}, (do
      let r ← insertNode T INVALID_POINT p v
      return (r, true) : Act V (Nat × Bool)) m = some (r, ws) → ws = [] ∨ (r.2 = true ∧
      m.szFreeNode ≠ 0 ∧ ∃ l₁ l₂, AllLink l₁ ∧ AllLink l₂ ∧ ws = insertWrites m v l₁ l₂) := by
    intro p ws h
    obtain ⟨r', ws₁, ws₂, h₁, h₂, rfl⟩ := bind_eq_some.mp h
    cases h₂
    rw [List.append_nil]
    exact (insertNode_writes head h₁).imp And.right fun h => ⟨rfl, h⟩
  obtain ⟨yc, -, hrest⟩ := (descendTo_emits _).skip h
  simp only [begin, leftmost, read_bind] at hrest
  split at hrest
  next => exact hins hrest
  next =>
    -- the position is stepped back first, which writes nothing
    have hcheck : ∀ {j ws}, (do
        if T.compareKey (← key T j) (T.extractKey v) then
          return (← insertNode T INVALID_POINT yc.1 v, true)
        else return (j, false) : Act V (Nat × Bool)) m = some (r, ws) → ws = [] ∨ (r.2 = true ∧
        m.szFreeNode ≠ 0 ∧ ∃ l₁ l₂, AllLink l₁ ∧ AllLink l₂ ∧ ws = insertWrites m v l₁ l₂) := by
      intro j ws h
      obtain ⟨k, -, h⟩ := Emits.skip (emits_read.bind fun _ => emits_pure) h
      split at h
      next => exact hins h
      next =>
        cases h
        exact Or.inl rfl
    split at hrest
    next =>
      obtain ⟨j, -, hj⟩ := (decrement_emits yc.1).skip hrest
      exact hcheck hj
    next =>
      obtain ⟨j, -, hj⟩ := Emits.skip emits_pure hrest
      exact hcheck hj

end WriteOrder

end Jump.MemPool.RBTree
