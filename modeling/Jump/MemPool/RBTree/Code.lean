import Jump.Core.ColoredTree
import Jump.Core.Prog
import Mathlib.Algebra.Ring.Nat
import Mathlib.Order.Defs.Unbundled

/-! # The functions of `MemRBTree`

The mapped memory holds the header and the node array with one node more than the tree can
store (node `num_of_node_` is the tree header and `end()`).

Every function is the source function on that memory, its assignments in
program order. `left_` and `right_` are one array read with a direction, so a
pair of mirrored source functions (or mirrored branches) is one definition taken
at both directions. A loop runs on fuel that exceeds the number of nodes.
-/

namespace Jump.MemPool.RBTree

/-! ## The mapped memory -/

section Memory

open Jump.Core

/-- `static_cast<size_t>(-1)` -/
def INVALID_POINT : Nat := 2 ^ 64 - 1

def MAGIC_FLAG : Nat := 0x9528

/-- The template parameters, with the pattern `memset(&data_, 0, sizeof(data_))` leaves. -/
structure Params (V K : Type) where
  extractKey : V → K
  compareKey : K → K → Bool
  strictWeak : IsStrictWeakOrder K fun a b => compareKey a b = true
  zeroed : V

instance {V K : Type} (T : Params V K) :
    IsStrictWeakOrder K fun a b => T.compareKey a b = true := T.strictWeak

/-- `RBTreeHeader` and the node array `data_`. Each node field is a function of
the node index: `m.parent i` is `data_[i].parent_`, and `m.child d i` is
`data_[i].left_` or `data_[i].right_`. -/
structure Mem (V : Type) where
  numOfNode : Nat
  freeNodeList : Nat
  rootNode : Nat
  szFreeNode : Nat
  szUseNode : Nat
  dirtyFlag : Nat
  magicFlag : Nat → Nat
  useFlag : Nat → Nat
  parent : Nat → Nat
  child : Dir → Nat → Nat
  color : Nat → Color
  size : Nat → Nat
  data : Nat → V

/-- One assignment to a header field or to a field of a node. -/
inductive Write (V : Type) where
  | numOfNode (n : Nat)
  | freeNodeList (p : Nat)
  | rootNode (p : Nat)
  | szFreeNode (n : Nat)
  | szUseNode (n : Nat)
  | dirtyFlag (b : Nat)
  | magicFlag (pos n : Nat)
  | useFlag (pos n : Nat)
  | parent (pos p : Nat)
  | child (d : Dir) (pos p : Nat)
  | color (pos : Nat) (c : Color)
  | size (pos n : Nat)
  | data (pos : Nat) (v : V)

namespace Mem

variable {V : Type}

def apply (m : Mem V) : Write V → Mem V
  | .numOfNode n => { m with numOfNode := n }
  | .freeNodeList p => { m with freeNodeList := p }
  | .rootNode p => { m with rootNode := p }
  | .szFreeNode n => { m with szFreeNode := n }
  | .szUseNode n => { m with szUseNode := n }
  | .dirtyFlag b => { m with dirtyFlag := b }
  | .magicFlag pos n => { m with magicFlag := fun i => if i = pos then n else m.magicFlag i }
  | .useFlag pos n => { m with useFlag := fun i => if i = pos then n else m.useFlag i }
  | .parent pos p => { m with parent := fun i => if i = pos then p else m.parent i }
  | .child d pos p =>
      { m with child := fun e i => if e = d ∧ i = pos then p else m.child e i }
  | .color pos c => { m with color := fun i => if i = pos then c else m.color i }
  | .size pos n => { m with size := fun i => if i = pos then n else m.size i }
  | .data pos v => { m with data := fun i => if i = pos then v else m.data i }

instance : Store (Mem V) (Write V) where
  apply w m := m.apply w

theorem apply_def (w : Write V) (m : Mem V) : Store.apply w m = m.apply w := rfl

section Reads

variable (m : Mem V) (w : Write V) (i : Nat)

@[simp] theorem numOfNode_apply : (Store.apply w m).numOfNode =
    match w with | .numOfNode n => n | _ => m.numOfNode := by cases w <;> rfl

@[simp] theorem freeNodeList_apply : (Store.apply w m).freeNodeList =
    match w with | .freeNodeList p => p | _ => m.freeNodeList := by cases w <;> rfl

@[simp] theorem szFreeNode_apply : (Store.apply w m).szFreeNode =
    match w with | .szFreeNode n => n | _ => m.szFreeNode := by cases w <;> rfl

@[simp] theorem szUseNode_apply : (Store.apply w m).szUseNode =
    match w with | .szUseNode n => n | _ => m.szUseNode := by cases w <;> rfl

@[simp] theorem dirtyFlag_apply : (Store.apply w m).dirtyFlag =
    match w with | .dirtyFlag b => b | _ => m.dirtyFlag := by cases w <;> rfl

@[simp] theorem useFlag_apply : (Store.apply w m).useFlag i =
    match w with | .useFlag pos n => if i = pos then n else m.useFlag i | _ => m.useFlag i := by
  cases w <;> rfl

@[simp] theorem parent_apply : (Store.apply w m).parent i =
    match w with | .parent pos p => if i = pos then p else m.parent i | _ => m.parent i := by
  cases w <;> rfl

@[simp] theorem child_apply (e : Dir) : (Store.apply w m).child e i =
    match w with
    | .child d pos p => if e = d ∧ i = pos then p else m.child e i
    | _ => m.child e i := by
  cases w <;> rfl

@[simp] theorem color_apply : (Store.apply w m).color i =
    match w with | .color pos c => if i = pos then c else m.color i | _ => m.color i := by
  cases w <;> rfl

@[simp] theorem size_apply : (Store.apply w m).size i =
    match w with | .size pos n => if i = pos then n else m.size i | _ => m.size i := by
  cases w <;> rfl

@[simp] theorem data_apply : (Store.apply w m).data i =
    match w with | .data pos v => if i = pos then v else m.data i | _ => m.data i := by
  cases w <;> rfl

end Reads

theorem apply_size_size (m : Mem V) (pos a b : Nat) :
    Store.apply (Write.size pos b) (Store.apply (Write.size pos a) m) =
      Store.apply (Write.size pos b) m := by
  simp only [apply_def, apply]
  congr 1
  funext i
  split <;> simp_all

end Mem

end Memory

section Code

open Jump.Core Prog

abbrev Act (V α : Type) : Type := Prog (Mem V) (Write V) α

section Nodes

variable {V : Type}

/-! ## Field access -/

@[simp] def header : Act V Nat := .read fun m => m.numOfNode
@[simp] def parent (pos : Nat) : Act V Nat := .read fun m => m.parent pos
@[simp] def child (d : Dir) (pos : Nat) : Act V Nat := .read fun m => m.child d pos
@[simp] def left (pos : Nat) : Act V Nat := child .left pos
@[simp] def right (pos : Nat) : Act V Nat := child .right pos
@[simp] def color (pos : Nat) : Act V Color := .read fun m => m.color pos
@[simp] def size (pos : Nat) : Act V Nat := .read fun m => m.size pos
@[simp] def value (pos : Nat) : Act V V := .read fun m => m.data pos
@[simp] def root : Act V Nat := .read fun m => m.parent m.numOfNode
@[simp] def leftmost : Act V Nat := .read fun m => m.child .left m.numOfNode
@[simp] def rightmost : Act V Nat := .read fun m => m.child .right m.numOfNode
@[simp] def setParent (pos p : Nat) : Act V Unit := .write (.parent pos p)
@[simp] def setChild (d : Dir) (pos p : Nat) : Act V Unit := .write (.child d pos p)
@[simp] def setColor (pos : Nat) (c : Color) : Act V Unit := .write (.color pos c)
@[simp] def setSize (pos n : Nat) : Act V Unit := .write (.size pos n)
@[simp] def setDirtyFlag : Act V Unit := .write (.dirtyFlag 1)
@[simp] def clearDiryFlag : Act V Unit := .write (.dirtyFlag 0)

/-- Fuel for one walk: more than the nodes of any path, with the header. -/
@[simp] def turns : Act V Nat := .read fun m => m.numOfNode + 3

/-- `pos != INVALID_POINT && color(pos) == RB_TREE_RED` -/
def isRed (pos : Nat) : Act V Bool := do
  if pos = INVALID_POINT then return false else return (← color pos) = .red

/-- `pos == INVALID_POINT || color(pos) == RB_TREE_BLACK` -/
def isBlack (pos : Nat) : Act V Bool := do
  if pos = INVALID_POINT then return true else return (← color pos) = .black

/-- Walk to the last node on side `d`. -/
def extreme (d : Dir) (pos : Nat) : Act V Nat := do
  loop (fun pos => do
    if (← child d pos) ≠ INVALID_POINT then return .inl (← child d pos)
    else return .inr pos) (← turns) pos

def minimum (pos : Nat) : Act V Nat := extreme .left pos
def maximum (pos : Nat) : Act V Nat := extreme .right pos

/-! ## Allocation -/

def allocNode : Act V Nat := do
  if (← .read fun m => m.szFreeNode) = 0 then return INVALID_POINT
  else
    let pos ← .read fun m => m.freeNodeList
    .write (.freeNodeList (← right pos))
    .write (.szUseNode ((← .read fun m => m.szUseNode) + 1))
    .write (.szFreeNode ((← .read fun m => m.szFreeNode) - 1))
    return pos

/-- `RBTreeNode::Clear` -/
def clearNode (zeroed : V) (pos : Nat) : Act V Unit := do
  .write (.magicFlag pos MAGIC_FLAG)
  .write (.useFlag pos 0)
  setParent pos INVALID_POINT
  setChild .left pos INVALID_POINT
  setChild .right pos INVALID_POINT
  setColor pos .red
  setSize pos 0
  .write (.data pos zeroed)

def freeNode (zeroed : V) (pos : Nat) : Act V Unit := do
  clearNode zeroed pos
  setChild .right pos (← .read fun m => m.freeNodeList)
  .write (.freeNodeList pos)
  .write (.szFreeNode ((← .read fun m => m.szFreeNode) + 1))
  .write (.szUseNode ((← .read fun m => m.szUseNode) - 1))

/-- `MemRBTree::clear` -/
def clear (zeroed : V) : Act V Unit := do
  .write (.freeNodeList 0)
  .write (.rootNode INVALID_POINT)
  .write (.szFreeNode (← header))
  .write (.szUseNode 0)
  .write (.dirtyFlag 0)
  clearNode zeroed (← header)
  setChild .right (← header) (← header)
  setChild .left (← header) (← header)
  times (fun i => do
    clearNode zeroed i
    setChild .right i (i + 1)) 0 (← header)
  setChild .right ((← header) - 1) INVALID_POINT

/-! ## Rotations -/

/-- Let the link that leads to `x` lead to `y`; `d` is the side compared first. -/
def relink (d : Dir) (x y : Nat) : Act V Unit := do
  if x = (← root) then setParent (← header) y
  else if x = (← child d (← parent x)) then setChild d (← parent x) y
  else setChild d.flip (← parent x) y

/-- Recompute `size_` from the children. -/
def resize (x : Nat) : Act V Unit := do
  setSize x 1
  if (← left x) ≠ INVALID_POINT then setSize x ((← size x) + (← size (← left x)))
  if (← right x) ≠ INVALID_POINT then setSize x ((← size x) + (← size (← right x)))

def rbTreeRotate (d : Dir) (x : Nat) : Act V Unit := do
  let y ← child d.flip x
  setChild d.flip x (← child d y)
  if (← child d y) ≠ INVALID_POINT then setParent (← child d y) x
  setParent y (← parent x)
  relink d x y
  setChild d y x
  setParent x y
  resize x
  resize y

def rbTreeRotateLeft (x : Nat) : Act V Unit := rbTreeRotate .left x
def rbTreeRotateRight (x : Nat) : Act V Unit := rbTreeRotate .right x

/-! ## Insertion -/

/-- An inner child is rotated to the outside; the position moves to its old parent. -/
def turnOutside (d : Dir) (pos : Nat) : Act V Nat := do
  if pos = (← child d.flip (← parent pos)) then
    let pos ← parent pos
    rbTreeRotate d pos
    return pos
  else return pos

/-- The turn of `RBTreeBalance` for a parent that is the `d` child of the grandparent. -/
def balanceUnder (d : Dir) (pos : Nat) : Act V (Nat ⊕ Unit) := do
  let uncle ← child d.flip (← parent (← parent pos))
  if ← isRed uncle then
    setColor (← parent pos) .black
    setColor uncle .black
    setColor (← parent (← parent pos)) .red
    return .inl (← parent (← parent pos))
  else
    let pos ← turnOutside d pos
    setColor (← parent pos) .black
    setColor (← parent (← parent pos)) .red
    rbTreeRotate d.flip (← parent (← parent pos))
    return .inl pos

def balanceTurn (pos : Nat) : Act V (Nat ⊕ Unit) := do
  if pos = (← root) then return .inr ()
  else if (← color (← parent pos)) ≠ .red then return .inr ()
  else if (← parent pos) = (← left (← parent (← parent pos))) then balanceUnder .left pos
  else balanceUnder .right pos

def rbTreeBalance (pos : Nat) : Act V Unit := do
  setColor pos .red
  loop balanceTurn (← turns) pos
  setColor (← root) .black

/-- `size_` of every node from `y` up to the root becomes `f size_`. -/
def resizePath (f : Nat → Nat) (y : Nat) : Act V Unit := do
  loop (fun y => do
    if y ≠ (← header) then
      setSize y (f (← size y))
      return .inl (← parent y)
    else return .inr ()) (← turns) y

/-! ## Erasure -/

/-- The node taken out of its place and the child that takes its place. -/
def eraseChoose (curPos : Nat) : Act V (Nat × Nat) := do
  if (← left curPos) = INVALID_POINT then return (curPos, ← right curPos)
  else if (← right curPos) = INVALID_POINT then return (curPos, ← left curPos)
  else
    let y ← minimum (← right curPos)
    return (y, ← right y)

/-- The successor `y` moves into the place of `curPos`; the result is `x_parent`. -/
def eraseTransplant (curPos y x : Nat) : Act V Nat := do
  setParent (← left curPos) y
  setChild .left y (← left curPos)
  let xParent ← (if y ≠ (← right curPos) then do
      let xParent ← parent y
      if x ≠ INVALID_POINT then setParent x (← parent y)
      setChild .left (← parent y) x
      setChild .right y (← right curPos)
      setParent (← right curPos) y
      return xParent
    else return y : Act V Nat)
  relink .left curPos y
  setParent y (← parent curPos)
  let c ← color y
  setColor y (← color curPos)
  setColor curPos c
  setSize y (← size curPos)
  return xParent

/-- `leftmost` (`rightmost`) moves on when the erased node was it. -/
def eraseExtreme (d : Dir) (curPos x : Nat) : Act V Unit := do
  if (← child d (← header)) = curPos then
    if (← child d.flip curPos) = INVALID_POINT then setChild d (← header) (← parent curPos)
    else setChild d (← header) (← extreme d x)

/-- The only child `x` takes the place of `curPos`; the result is `x_parent`. -/
def eraseSplice (curPos x : Nat) : Act V Nat := do
  let xParent ← parent curPos
  if x ≠ INVALID_POINT then setParent x (← parent curPos)
  relink .left curPos x
  setSize curPos (← size curPos)
  eraseExtreme .left curPos x
  eraseExtreme .right curPos x
  return xParent

/-- A red sibling of `x` is rotated away; the result is the new sibling. -/
def blackSibling (d : Dir) (xParent : Nat) : Act V Nat := do
  let w ← child d.flip xParent
  if (← color w) = .red then
    setColor w .black
    setColor xParent .red
    rbTreeRotate d xParent
    return (← child d.flip xParent)
  else return w

/-- A sibling with a black far child is rotated so that its far child is red. -/
def redFarChild (d : Dir) (w xParent : Nat) : Act V Nat := do
  if ← isBlack (← child d.flip w) then
    if (← child d w) ≠ INVALID_POINT then setColor (← child d w) .black
    setColor w .red
    rbTreeRotate d.flip w
    return (← child d.flip xParent)
  else return w

/-- The turn of the rebalancing loop for `x` on side `d` of `x_parent`. -/
def eraseUnder (d : Dir) (x xParent : Nat) : Act V ((Nat × Nat) ⊕ Nat) := do
  let w ← blackSibling d xParent
  let near ← isBlack (← child d w)
  let far ← isBlack (← child d.flip w)
  if near ∧ far then
    setColor w .red
    return .inl (xParent, ← parent xParent)
  else
    let w ← redFarChild d w xParent
    setColor w (← color xParent)
    setColor xParent .black
    if (← child d.flip w) ≠ INVALID_POINT then setColor (← child d.flip w) .black
    rbTreeRotate d xParent
    return .inr x

def eraseTurn : Nat × Nat → Act V ((Nat × Nat) ⊕ Nat) := fun (x, xParent) => do
  if x = (← root) then return .inr x
  else
    let black ← isBlack x
    if ¬ black then return .inr x
    else if x = (← left xParent) then eraseUnder .left x xParent
    else eraseUnder .right x xParent

def eraseBalance (x xParent : Nat) : Act V Unit := do
  let x ← loop eraseTurn (← turns) (x, xParent)
  if x ≠ INVALID_POINT then setColor x .black

def rbTreeBalanceForErase (curPos : Nat) : Act V Nat := do
  setDirtyFlag
  let (y, x) ← eraseChoose curPos
  let (y, xParent) ← (if y ≠ curPos then do
      let xParent ← eraseTransplant curPos y x
      return (curPos, xParent)
    else do
      let xParent ← eraseSplice curPos x
      return (y, xParent) : Act V (Nat × Nat))
  resizePath (· - 1) xParent
  if (← color y) ≠ .red then eraseBalance x xParent
  clearDiryFlag
  return y

/-! ## Iterators

An iterator of the tree is its serial.
-/

def begin : Act V Nat := leftmost
def endIt : Act V Nat := header

/-- Go up while `serial` is the `d` child of `y`. -/
def climb (d : Dir) (serial : Nat) : Act V (Nat × Nat) := do
  loop (fun (serial, y) => do
    if serial = (← child d y) then return .inl (y, ← parent y)
    else return .inr (serial, y)) (← turns) (serial, ← parent serial)

def increment (serial : Nat) : Act V Nat := do
  if (← right serial) ≠ INVALID_POINT then minimum (← right serial)
  else
    let (serial, y) ← climb .right serial
    if (← right serial) ≠ y then return y else return serial

def decrement (serial : Nat) : Act V Nat := do
  if (← color serial) = .red ∧ (← parent (← parent serial)) = serial then right serial
  else if (← left serial) ≠ INVALID_POINT then maximum (← left serial)
  else
    let (_, y) ← climb .left serial
    return y

/-- `erase(const iterator&)` -/
def erase (zeroed : V) (pos : Nat) : Act V Unit := do
  let _ ← rbTreeBalanceForErase pos
  freeNode zeroed pos

/-- `erase(iterator, iterator)`; the result is the number of erased elements. -/
def eraseRange (zeroed : V) (first last : Nat) : Act V Nat := do
  if first = (← begin) ∧ last = (← endIt) then
    let num ← .read fun m => m.szUseNode
    clear zeroed
    return num
  else
    loop (fun (first, num) => do
      if first ≠ last then
        let next ← increment first
        erase zeroed first
        return .inl (next, num + 1)
      else return .inr num) (← turns) (first, 0)

/-! ## Descents -/

/-- Down from the root to `INVALID_POINT`, left where `goLeft` holds of the node's
data. The result is the last node passed (the header when there is none) and
the last comparison. -/
def descendTo (goLeft : V → Bool) : Act V (Nat × Bool) := do
  loop (fun (x, y, comp) => do
    if x ≠ INVALID_POINT then
      let comp := goLeft (← value x)
      return .inl (← child (if comp then .left else .right) x, x, comp)
    else return .inr (y, comp)) (← turns) (← root, ← header, true)

/-- As `descendTo`, but the result is the last node at which the way turned left. -/
def bound (goLeft : V → Bool) : Act V Nat := do
  loop (fun (x, y) => do
    if x ≠ INVALID_POINT then
      if goLeft (← value x) then return .inl (← left x, x)
      else return .inl (← right x, y)
    else return .inr y) (← turns) (← root, ← header)

end Nodes

section Keys

variable {V K : Type} (T : Params V K)

def key (pos : Nat) : Act V K := do return T.extractKey (← value pos)

/-- `_compare_key()(_extract_key()(v), key(x))` -/
def beforeData (k : K) (v : V) : Bool := T.compareKey k (T.extractKey v)

/-- Link the allocated node below `parentPos` and move `leftmost` and `rightmost` on. -/
def insertLink (currPos x parentPos : Nat) (v : V) : Act V Unit := do
  if parentPos = (← header) ∨ x ≠ INVALID_POINT ∨
      T.compareKey (T.extractKey v) (← key T parentPos) then
    setChild .left parentPos currPos
    if parentPos = (← header) then
      setParent (← header) currPos
      setChild .right (← header) currPos
    else if parentPos = (← leftmost) then setChild .left (← header) currPos
  else
    setChild .right parentPos currPos
    if parentPos = (← rightmost) then setChild .right (← header) currPos

def insertNode (x parentPos : Nat) (v : V) : Act V Nat := do
  let currPos ← allocNode
  if currPos = INVALID_POINT then endIt
  else
    setDirtyFlag
    insertLink T currPos x parentPos v
    setParent currPos parentPos
    setChild .left currPos INVALID_POINT
    setChild .right currPos INVALID_POINT
    .write (.data currPos v)
    .write (.useFlag currPos 1)
    setSize currPos 1
    resizePath (· + 1) parentPos
    rbTreeBalance currPos
    clearDiryFlag
    return currPos

def insertEqual (v : V) : Act V Nat := do
  let (y, _) ← descendTo (beforeData T (T.extractKey v))
  insertNode T INVALID_POINT y v

def insertUnique (v : V) : Act V (Nat × Bool) := do
  let (y, comp) ← descendTo (beforeData T (T.extractKey v))
  if comp ∧ y = (← begin) then return (← insertNode T INVALID_POINT y v, true)
  else
    let j ← (if comp then decrement y else return y : Act V Nat)
    if T.compareKey (← key T j) (T.extractKey v) then
      return (← insertNode T INVALID_POINT y v, true)
    else return (j, false)

def lowerBound (k : K) : Act V Nat := bound fun v => ¬ T.compareKey (T.extractKey v) k

def upperBound (k : K) : Act V Nat := bound fun v => T.compareKey k (T.extractKey v)

def equalRange (k : K) : Act V (Nat × Nat) := do return (← lowerBound T k, ← upperBound T k)

def find (k : K) : Act V Nat := do
  let j ← bound fun v => ¬ T.compareKey (T.extractKey v) k
  if j = (← endIt) then endIt
  else if T.compareKey k (← key T j) then endIt
  else return j

def eraseUnique (k : K) : Act V Nat := do
  let it ← find T k
  if it ≠ (← endIt) then
    erase T.zeroed it
    return 1
  else return 0

def eraseEqual (k : K) : Act V Nat := do
  let itL ← lowerBound T k
  let itU ← upperBound T k
  eraseRange T.zeroed itL itU

/-! ## Initialisation -/

inductive Exit where
  | ret (code : Int)
  | assertFailed
  deriving DecidableEq, Repr

/-- The data of the nodes whose use flag is set, in index order. -/
def usedData (nodeNum : Nat) : Act V (List V) :=
  .read fun m => ((List.range nodeNum).filter fun i => m.useFlag i ≠ 0).map m.data

def insertAll : List V → Act V Exit
  | [] => return .ret 0
  | v :: va => do
      let iter ← insertEqual T v
      if iter = (← endIt) then return .ret (-2) else insertAll va

/-- The part of `Init` for `restore == false`, followed by the insertions of `va`. -/
def rebuild (nodeNum : Nat) (va : List V) : Act V Exit := do
  .write (.numOfNode nodeNum)
  clear T.zeroed
  insertAll T va

def init (nodeNum : Nat) (restore : Bool) : Act V Exit := do
  if restore then
    if (← header) ≠ nodeNum then return .ret (-1)
    else if (← .read fun m => m.dirtyFlag) ≠ 0 then
      let va ← usedData nodeNum
      if va.length ≠ (← .read fun m => m.szUseNode) then return .assertFailed
      else rebuild T nodeNum va
    else return .ret 0
  else rebuild T nodeNum []

end Keys

end Code

end Jump.MemPool.RBTree
