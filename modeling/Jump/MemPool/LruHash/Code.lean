import Jump.Core.Prog
import Mathlib.Algebra.Ring.Nat
import Mathlib.Order.Defs.Unbundled

/-! # The functions of `mem_lru_hashtable`

The mapped memory holds the header, the bucket heads, the chain links, the list links with
the two sentinels behind the nodes (`lst_use_node_` is index `num_of_node_`,
`lst_free_node_` the one after), the priorities and the values.

Every function is the source function on that memory, its assignments in
program order; an iterator is its serial. The loops that the source writes out in
several functions are one definition each: the search for the first equal key, the
search that remembers the link before it, and the relinking of a list node. A loop
runs on fuel that exceeds the number of nodes; `washout` alone takes its fuel as an
argument.
-/

namespace Jump.MemPool.LruHash

/-! ## The mapped memory -/

section Memory

open Jump.Core

/-- `_memory_base::_INVALID_POINT`, `static_cast<size_t>(-1)` -/
def INVALID_POINT : Nat := 2 ^ 64 - 1

/-- The template parameters. Equal keys hash equally, and the washout functor leaves
the key of the value it is called on. -/
structure Params (V K : Type) where
  hashFun : K → Nat
  extractKey : V → K
  equalKey : K → K → Bool
  washoutFun : V → V
  /-- `sizeof(_value_type)` -/
  sizeofValue : Nat
  equiv : Equivalence fun a b => equalKey a b = true
  hash_eq : ∀ a b, equalKey a b = true → hashFun a = hashFun b
  washout_key : ∀ v, extractKey (washoutFun v) = extractKey v

/-- `_lru_hashhead` and the arrays behind it. `washed` is outside the mapping: the
calls the washout functor received, each with the value it was called on. -/
structure Mem (V : Type) where
  sizeOfMem : Nat
  numOfNode : Nat
  szFreenode : Nat
  szUsenode : Nat
  szUseindex : Nat
  hashFactor : Nat → Nat
  hashIndex : Nat → Nat
  idxNext : Nat → Nat
  idxPrev : Nat → Nat
  priority : Nat → Nat
  value : Nat → V
  washed : List (Nat × V)

/-- One assignment to a field, or a call of the washout functor on `value_base_[pos]`
that leaves `v` there. -/
inductive Write (V : Type) where
  | sizeOfMem (n : Nat)
  | numOfNode (n : Nat)
  | szFreenode (n : Nat)
  | szUsenode (n : Nat)
  | szUseindex (n : Nat)
  | hashFactor (b n : Nat)
  | hashIndex (pos n : Nat)
  | idxNext (pos n : Nat)
  | idxPrev (pos n : Nat)
  | priority (pos n : Nat)
  | value (pos : Nat) (v : V)
  | washed (pos : Nat) (v : V)

namespace Mem

variable {V : Type}

def apply (m : Mem V) : Write V → Mem V
  | .sizeOfMem n => { m with sizeOfMem := n }
  | .numOfNode n => { m with numOfNode := n }
  | .szFreenode n => { m with szFreenode := n }
  | .szUsenode n => { m with szUsenode := n }
  | .szUseindex n => { m with szUseindex := n }
  | .hashFactor b n => { m with hashFactor := fun i => if i = b then n else m.hashFactor i }
  | .hashIndex pos n => { m with hashIndex := fun i => if i = pos then n else m.hashIndex i }
  | .idxNext pos n => { m with idxNext := fun i => if i = pos then n else m.idxNext i }
  | .idxPrev pos n => { m with idxPrev := fun i => if i = pos then n else m.idxPrev i }
  | .priority pos n => { m with priority := fun i => if i = pos then n else m.priority i }
  | .value pos v => { m with value := fun i => if i = pos then v else m.value i }
  | .washed pos v => { m with
      value := fun i => if i = pos then v else m.value i
      washed := m.washed ++ [(pos, m.value pos)] }

instance : Store (Mem V) (Write V) where
  apply w m := m.apply w

section Reads

variable (m : Mem V) (w : Write V) (i : Nat)

@[simp] theorem sizeOfMem_apply : (Store.apply w m).sizeOfMem =
    match w with | .sizeOfMem n => n | _ => m.sizeOfMem := by cases w <;> rfl

@[simp] theorem numOfNode_apply : (Store.apply w m).numOfNode =
    match w with | .numOfNode n => n | _ => m.numOfNode := by cases w <;> rfl

@[simp] theorem szFreenode_apply : (Store.apply w m).szFreenode =
    match w with | .szFreenode n => n | _ => m.szFreenode := by cases w <;> rfl

@[simp] theorem szUsenode_apply : (Store.apply w m).szUsenode =
    match w with | .szUsenode n => n | _ => m.szUsenode := by cases w <;> rfl

@[simp] theorem hashFactor_apply : (Store.apply w m).hashFactor i =
    match w with
    | .hashFactor b n => if i = b then n else m.hashFactor i
    | _ => m.hashFactor i := by
  cases w <;> rfl

@[simp] theorem hashIndex_apply : (Store.apply w m).hashIndex i =
    match w with
    | .hashIndex pos n => if i = pos then n else m.hashIndex i
    | _ => m.hashIndex i := by
  cases w <;> rfl

@[simp] theorem idxNext_apply : (Store.apply w m).idxNext i =
    match w with | .idxNext pos n => if i = pos then n else m.idxNext i | _ => m.idxNext i := by
  cases w <;> rfl

@[simp] theorem idxPrev_apply : (Store.apply w m).idxPrev i =
    match w with | .idxPrev pos n => if i = pos then n else m.idxPrev i | _ => m.idxPrev i := by
  cases w <;> rfl

@[simp] theorem priority_apply : (Store.apply w m).priority i =
    match w with | .priority pos n => if i = pos then n else m.priority i | _ => m.priority i := by
  cases w <;> rfl

@[simp] theorem value_apply : (Store.apply w m).value i =
    match w with
    | .value pos v => if i = pos then v else m.value i
    | .washed pos v => if i = pos then v else m.value i
    | _ => m.value i := by
  cases w <;> rfl

@[simp] theorem washed_apply : (Store.apply w m).washed =
    match w with | .washed pos _ => m.washed ++ [(pos, m.value pos)] | _ => m.washed := by
  cases w <;> rfl

end Reads

end Mem

end Memory

section Code

open Jump.Core Prog

abbrev Act (V α : Type) : Type := Prog (Mem V) (Write V) α

/-- `__MEM_PRIME_LIST_BODY` -/
def primesList : List Nat :=
  [53, 97, 193, 389, 769, 1543, 3079, 6151, 12289, 21101, 31957, 42953, 53657, 63761, 73009,
    83207, 93199, 101051, 111187, 120851, 130699, 141283, 150383, 161503, 170899, 181639, 191657,
    203431, 252817, 310823, 408869, 510989, 603881, 710531, 803171, 909613, 1008853, 1572869,
    3145739, 6291469, 12582917, 25165843, 50331653, 100663319, 201326611, 402653189, 805306457,
    1610612741, 3221225473, 4294967291]

/-- The first prime of the list from `n` on, or the last of the list. -/
def getNextPrime (n : Nat) : Nat := (primesList.find? (n ≤ ·)).getD 4294967291

/-- `sizeof(_lru_hashhead)`, `sizeof(_mem_list_index)`; the other cells have 8 bytes. -/
def allocSize (sizeofValue numnode : Nat) : Nat :=
  (40 + 8 * numnode + 8 * numnode + 8 * numnode + 16 * (numnode + 2) + 8 * numnode +
    sizeofValue * numnode) % 2 ^ 64

/-- The size and the adjusted `numnode`. -/
def getallocsize (sizeofValue numnode : Nat) : Nat × Nat :=
  (allocSize sizeofValue (getNextPrime numnode), getNextPrime numnode)

section Nodes

variable {V : Type}

/-! ## Field access -/

@[simp] def capacity : Act V Nat := .read fun m => m.numOfNode
@[simp] def useNode : Act V Nat := .read fun m => m.numOfNode
@[simp] def freeNode : Act V Nat := .read fun m => m.numOfNode + 1
@[simp] def next (pos : Nat) : Act V Nat := .read fun m => m.idxNext pos
@[simp] def prev (pos : Nat) : Act V Nat := .read fun m => m.idxPrev pos
@[simp] def setNext (pos n : Nat) : Act V Unit := .write (.idxNext pos n)
@[simp] def setPrev (pos n : Nat) : Act V Unit := .write (.idxPrev pos n)
@[simp] def factor (idx : Nat) : Act V Nat := .read fun m => m.hashFactor idx
@[simp] def index (pos : Nat) : Act V Nat := .read fun m => m.hashIndex pos
@[simp] def setFactor (idx n : Nat) : Act V Unit := .write (.hashFactor idx n)
@[simp] def setIndex (pos n : Nat) : Act V Unit := .write (.hashIndex pos n)
@[simp] def value (pos : Nat) : Act V V := .read fun m => m.value pos
@[simp] def setValue (pos : Nat) (v : V) : Act V Unit := .write (.value pos v)
@[simp] def priority (pos : Nat) : Act V Nat := .read fun m => m.priority pos
@[simp] def setPriority (pos n : Nat) : Act V Unit := .write (.priority pos n)
@[simp] def szFreenode : Act V Nat := .read fun m => m.szFreenode
@[simp] def szUsenode : Act V Nat := .read fun m => m.szUsenode
@[simp] def setSzFreenode (n : Nat) : Act V Unit := .write (.szFreenode n)
@[simp] def setSzUsenode (n : Nat) : Act V Unit := .write (.szUsenode n)

/-- Fuel for one walk: more than the nodes. -/
@[simp] def turns : Act V Nat := .read fun m => m.numOfNode + 3

def size : Act V Nat := szUsenode
def empty : Act V Bool := do return (← szFreenode) = (← capacity)
def full : Act V Bool := do return (← szFreenode) = 0

/-! ## Initialisation -/

/-- The free sentinel leads to the first node. -/
def linkFirst (i : Nat) : Act V Unit := do
  if i = 0 then
    setPrev i (← next (← freeNode))
    setNext (← freeNode) 0

/-- The last node leads to the free sentinel. -/
def linkLast (i : Nat) : Act V Unit := do
  if i = (← capacity) - 1 then
    setNext i (← prev (← freeNode))
    setPrev (← freeNode) ((← capacity) - 1)

/-- One turn of the loop in `clear`. -/
def clearTurn (i : Nat) : Act V Unit := do
  setFactor i INVALID_POINT
  setIndex i INVALID_POINT
  setPriority i 0
  setNext i (i + 1)
  setPrev i ((i + INVALID_POINT) % 2 ^ 64)
  linkFirst i
  linkLast i

def clear : Act V Unit := do
  setSzFreenode (← capacity)
  setSzUsenode 0
  .write (.szUseindex 0)
  setNext (← useNode) (← capacity)
  setPrev (← useNode) (← capacity)
  setNext (← freeNode) ((← capacity) + 1)
  setPrev (← freeNode) ((← capacity) + 1)
  times clearTurn 0 (← capacity)

/-! ## List nodes -/

/-- `assert(sz_usenode_ + sz_freenode_ == num_of_node_)` -/
def checkSizes : Act V Unit := do
  if (← szUsenode) + (← szFreenode) = (← capacity) then return () else stuck

/-- The first free node is taken off the free list. -/
def popFree (node : Nat) : Act V Unit := do
  setNext (← freeNode) (← next node)
  setPrev (← next (← freeNode)) (← prev node)

/-- `node` is put at the head of the use list. -/
def pushUse (node : Nat) : Act V Unit := do
  setNext node (← next (← useNode))
  setPrev node (← prev (← next (← useNode)))
  setPrev (← next (← useNode)) node
  setNext (← useNode) node

def createNode : Act V Nat := do
  if (← szFreenode) = 0 then return INVALID_POINT
  else
    let node ← next (← freeNode)
    popFree node
    pushUse node
    setSzUsenode ((← szUsenode) + 1)
    setSzFreenode ((← szFreenode) - 1)
    checkSizes
    return node

/-- `pos` is put at the head of the free list; `freenext` was there before. -/
def pushFree (freenext pos : Nat) : Act V Unit := do
  setNext pos freenext
  setPrev pos (← prev freenext)
  setNext (← freeNode) pos
  setPrev freenext pos

def joinAround (posNext posPrev : Nat) : Act V Unit := do
  setPrev posNext posPrev
  setNext posPrev posNext

def destroyNode (pos : Nat) : Act V Unit := do
  let freenext ← next (← freeNode)
  let posNext ← next pos
  let posPrev ← prev pos
  joinAround posNext posPrev
  pushFree freenext pos
  setSzUsenode ((← szUsenode) - 1)
  setSzFreenode ((← szFreenode) + 1)
  setIndex pos INVALID_POINT
  checkSizes

/-- `first` is taken off the use list. -/
def unhook (first : Nat) : Act V Unit := do
  let firstPrv ← prev first
  let firstNxt ← next first
  setNext firstPrv (← next first)
  setPrev firstNxt (← prev first)

/-- The relinking of `active` and `active_value`. -/
def moveFront (first : Nat) : Act V Unit := do
  unhook first
  setNext first (← next (← useNode))
  setPrev (← next (← useNode)) first
  setPrev first (← capacity)
  setNext (← useNode) first

/-- The relinking of `active_equal`, which reads the sentinel's index from the old head. -/
def moveFrontEqual (first : Nat) : Act V Unit := do
  unhook first
  setNext first (← next (← useNode))
  setPrev first (← prev (← next (← useNode)))
  setPrev (← next (← useNode)) first
  setNext (← useNode) first

/-! ## Chain nodes -/

/-- Walk a chain up to the first node that passes the test. -/
def search (test : Nat → Act V Bool) (idx : Nat) : Act V Nat := do
  loop (fun first => do
    if first ≠ INVALID_POINT then
      if ← test first then return .inr first else return .inl (← index first)
    else return .inr first) (← turns) (← factor idx)

/-- `first` is taken off its chain. -/
def bypass (idx prev first : Nat) : Act V Unit := do
  if first = (← factor idx) then setFactor idx (← index first)
  else setIndex prev (← index first)

/-- Walk a chain up to the first node that passes the test, and free it. -/
def eraseFirst (test : Nat → Act V Bool) (idx : Nat) : Act V Bool := do
  loop (fun (prev, first) => do
    if first ≠ INVALID_POINT then
      if ← test first then
        bypass idx prev first
        destroyNode first
        return .inr true
      else return .inl (first, ← index first)
    else return .inr false) (← turns) (← factor idx, ← factor idx)

end Nodes

section Keys

variable {V K : Type} (T : Params V K)

/-- `initialize`; `none` is the null pointer. -/
def initializeTable (numnode : Nat) (brestore : Bool) : Act V (Option Unit) := do
  if numnode = 0 then stuck
  else if brestore ∧
      ((getallocsize T.sizeofValue (getNextPrime numnode)).1 ≠ (← .read fun m => m.sizeOfMem) ∨
        (getallocsize T.sizeofValue (getNextPrime numnode)).2 ≠ (← capacity)) then
    return none
  else
    .write (.sizeOfMem (getallocsize T.sizeofValue (getNextPrime numnode)).1)
    .write (.numOfNode (getallocsize T.sizeofValue (getNextPrime numnode)).2)
    if brestore then return some ()
    else
      clear
      return some ()

def bktNumKey (k : K) : Act V Nat := do return T.hashFun k % (← capacity)

def bktNumValue (v : V) : Act V Nat := bktNumKey T (T.extractKey v)

/-- `equal_key(get_key(value_base_[first]), key)` -/
def holdsKey (k : K) (first : Nat) : Act V Bool := do
  return T.equalKey (T.extractKey (← value first)) k

/-! ## Iteration -/

/-- `end()` -/
def endIt : Nat := INVALID_POINT

def begin : Act V Nat := do
  loop (fun i => do
    if i < (← capacity) then
      if (← factor i) ≠ INVALID_POINT then return .inr (← factor i) else return .inl (i + 1)
    else return .inr endIt) (← turns) 0

/-- `operator++` -/
def increment (serial : Nat) : Act V Nat := do
  let oldseq := serial
  let serial ← index serial
  if serial = INVALID_POINT then
    loop (fun (bucket, serial) => do
      if serial = INVALID_POINT ∧ bucket + 1 < (← capacity) then
        return .inl (bucket + 1, ← factor (bucket + 1))
      else return .inr serial) (← turns) (← bktNumValue T (← value oldseq), serial)
  else return serial

def gotoNextEqual (serial : Nat) : Act V Nat := do
  let oldseq := serial
  let serial ← index serial
  if serial ≠ INVALID_POINT then
    if T.equalKey (T.extractKey (← value oldseq)) (T.extractKey (← value serial)) then
      return serial
    else return INVALID_POINT
  else return serial

/-! ## Lookup -/

def find (k : K) : Act V Nat := do search (holdsKey T k) (← bktNumKey T k)

def findValue (v : V) : Act V Nat := find T (T.extractKey v)

def count (k : K) : Act V Nat := do
  loop (fun (equalCount, first) => do
    if first ≠ INVALID_POINT then
      if ← holdsKey T k first then return .inl (equalCount + 1, ← index first)
      else return .inl (equalCount, ← index first)
    else return .inr equalCount) (← turns) (0, ← factor (← bktNumKey T k))

def countValue (v : V) : Act V Nat := count T (T.extractKey v)

/-- The caller's loop over `it = find(key)` and `it.goto_next_equal()` up to `end()`. -/
def equalNodes (k : K) : Act V (List Nat) := do
  loop (fun (visited, it) => do
    if it ≠ endIt then return .inl (visited ++ [it], ← gotoNextEqual T it)
    else return .inr visited) (← turns) ([], ← find T k)

/-- The caller's loop over `it = begin()` and `++it` up to `end()`. -/
def allNodes : Act V (List Nat) := do
  loop (fun (visited, it) => do
    if it ≠ endIt then return .inl (visited ++ [it], ← increment T it)
    else return .inr visited) (← turns) ([], ← begin)

/-! ## Insertion -/

/-- `newnode` goes in front of chain `idx`. -/
def chainFront (idx newnode : Nat) : Act V Unit := do
  setIndex newnode (← factor idx)
  setFactor idx newnode

/-- `newnode` goes behind `first` on its chain. -/
def chainBehind (first newnode : Nat) : Act V Unit := do
  setIndex newnode (← index first)
  setIndex first newnode

/-- In front of the chain when no node on it has the key, else behind that node. -/
def chainIn (idx first newnode : Nat) : Act V Unit := do
  if first = INVALID_POINT then chainFront idx newnode else chainBehind first newnode

/-- The new element on a node from the free list, which `link` puts on its chain. -/
def placeNode (link : Nat → Act V Unit) (v : V) (prio : Nat) : Act V (Nat × Bool) := do
  let newnode ← createNode
  if newnode = INVALID_POINT then return (INVALID_POINT, false)
  else
    link newnode
    setValue newnode v
    setPriority newnode prio
    return (newnode, true)

def insert (v : V) (prio : Nat) : Act V (Nat × Bool) := do
  let idx ← bktNumValue T v
  let first ← search (holdsKey T (T.extractKey v)) idx
  if first ≠ INVALID_POINT then return (first, false)
  else placeNode (chainFront idx) v prio

def insertEqual (v : V) (prio : Nat) : Act V (Nat × Bool) := do
  let idx ← bktNumValue T v
  let first ← search (holdsKey T (T.extractKey v)) idx
  placeNode (chainIn idx first) v prio

/-! ## Erasure -/

def erase (k : K) : Act V Bool := do eraseFirst (holdsKey T k) (← bktNumKey T k)

/-- `erase(const iterator &it)` -/
def eraseIter (itseq : Nat) : Act V Bool := do
  eraseFirst (fun first => return first = itseq) (← bktNumValue T (← value itseq))

def eraseValue (v : V) : Act V Bool := erase T (T.extractKey v)

def eraseEqual (k : K) : Act V Nat := do
  let idx ← bktNumKey T k
  loop (fun (eraseCount, prev, first) => do
    if first ≠ INVALID_POINT then
      if ← holdsKey T k first then
        bypass idx prev first
        let delPos := first
        let first ← index first
        destroyNode delPos
        return .inl (eraseCount + 1, prev, first)
      else if eraseCount > 0 then return .inr eraseCount
      else return .inl (eraseCount, first, ← index first)
    else return .inr eraseCount) (← turns) (0, ← factor idx, ← factor idx)

/-- The count becomes a `bool`. -/
def eraseEqualValue (v : V) : Act V Bool := do return (← eraseEqual T (T.extractKey v)) ≠ 0

/-! ## Activation and marks -/

/-- The first node with the key is changed by `change`. -/
def onFirst (k : K) (change : Nat → Act V Unit) : Act V Bool := do
  let first ← search (holdsKey T k) (← bktNumKey T k)
  if first ≠ INVALID_POINT then
    change first
    return true
  else return false

def active (k : K) (prio : Nat) : Act V Bool :=
  onFirst T k fun first => do
    setPriority first prio
    moveFront first

def activeValue (v : V) (prio : Nat) : Act V Bool :=
  onFirst T (T.extractKey v) fun first => do
    setPriority first prio
    setValue first v
    moveFront first

def mark (k : K) (prio : Nat) : Act V Bool := onFirst T k fun first => setPriority first prio

def markValue (v : V) (prio : Nat) : Act V Bool :=
  onFirst T (T.extractKey v) fun first => do
    setPriority first prio
    setValue first v

/-- The walk of `active_equal` and `mark_equal` over the chain. The count that ends it
early stays as it starts: neither loop adds to it. -/
def onEqual (k : K) (change : Nat → Act V Unit) : Act V Nat := do
  loop (fun (changeCount, first) => do
    if first ≠ INVALID_POINT then
      if ← holdsKey T k first then
        change first
        return .inl (changeCount, ← index first)
      else if changeCount > 0 then return .inr changeCount
      else return .inl (changeCount, ← index first)
    else return .inr changeCount) (← turns) (0, ← factor (← bktNumKey T k))

def activeEqual (k : K) (prio : Nat) : Act V Nat :=
  onEqual T k fun first => do
    setPriority first prio
    moveFrontEqual first

/-- The count becomes a `bool`. -/
def markEqual (k : K) (prio : Nat) : Act V Bool := do
  return (← onEqual T k fun first => setPriority first prio) ≠ 0

/-! ## Eviction -/

/-- The washout functor on a node's value, then the node's erasure by iterator. -/
def evict (delIter : Nat) : Act V Unit := do
  .write (.washed delIter (T.washoutFun (← value delIter)))
  let _ ← eraseIter T delIter

def expire (expireTime : Nat) : Act V Nat := do
  loop (fun (listIdx, expireNum) => do
    if listIdx ≠ (← capacity) then
      if (← priority listIdx) ≤ expireTime then
        evict T listIdx
        return .inl (← prev (← useNode), expireNum + 1)
      else return .inr expireNum
    else return .inr expireNum) (← turns) (← prev (← useNode), 0)

/-- The loop of `disuse`: the number of evicted nodes and the last one's priority, read
from the node after it was freed. -/
def disuseLoop (disuseNum : Nat) : Act V (Nat × Nat) := do
  loop (fun (i, listIdx, factDelNum, disusePriority) => do
    if i < disuseNum ∧ listIdx ≠ (← capacity) then
      evict T listIdx
      let disusePriority ← priority listIdx
      return .inl (i + 1, ← prev (← useNode), factDelNum + 1, disusePriority)
    else return .inr (factDelNum, disusePriority)) (← turns) (0, ← prev (← useNode), 0, 0)

def disuse (disuseNum : Nat) (disuseEqual : Bool) : Act V Nat := do
  let (factDelNum, disusePriority) ← disuseLoop T disuseNum
  if disuseEqual ∧ disuseNum > 0 then return factDelNum + (← expire T disusePriority)
  else return factDelNum

/-- One turn of `washout`. At a node that is kept the walk stays where it is. -/
def washoutTurn (washPriority numWash : Nat) : Nat × Nat → Act V (Nat × Nat ⊕ Unit)
  | (listIdx, numDel) => do
      if listIdx ≠ (← capacity) ∧ numDel < numWash then
        if (← priority listIdx) < washPriority then
          let delIter := listIdx
          let listIdx ← next listIdx
          evict T delIter
          return .inl (listIdx, numDel + 1)
        else return .inl (listIdx, numDel)
      else return .inr ()

def washout (fuel washPriority numWash : Nat) : Act V Unit := do
  loop (washoutTurn T washPriority numWash) fuel (← next (← useNode), 0)

end Keys

end Code

end Jump.MemPool.LruHash
