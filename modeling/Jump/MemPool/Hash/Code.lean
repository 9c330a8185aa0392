import Jump.MemPool.Fixed.Code
import Jump.MemPool.Fixed.Effects
import Mathlib.Data.Set.Card

/-! # The functions of `HashMemPool`

The header, the bucket array and a `FixedMemPool` of hash nodes lie one behind
the other in the mapped memory. Buckets and nodes are linked by the offset of
the next node from the pool header, 0 ends a chain.

The nodes of the blocks handed out by the pool are the nodes of the bucket
chains, each on the chain its key belongs to, no key twice.
-/

namespace Jump.MemPool.Hash

/-! ## The functions -/

section Code

open Jump.Core Prog

structure HashNode (V : Type) where
  key : UInt64
  value : V
  next : Nat

/-- `sizeof(HashNode)`, and the value that zero bytes make. -/
structure Params (V : Type) where
  nodeSize : Nat
  zeroed : V

/-- The node that `memset` leaves. -/
def Params.zeroNode {V : Type} (T : Params V) : HashNode V where
  key := 0
  value := T.zeroed
  next := 0

/-- `HashHeader`, the buckets and the pool. -/
structure Mem (V : Type) where
  bucketNum : Nat
  maxNode : Nat
  nodeNum : Nat
  nodeSize : Nat
  buckets : Int → Nat
  pool : Fixed.Mem (HashNode V)

inductive Write (V : Type) where
  | bucketNum (n : Nat)
  | maxNode (n : Nat)
  | nodeNum (n : Nat)
  | nodeSize (n : Nat)
  | bucket (index : Int) (pos : Nat)
  | pool (w : Fixed.Write (HashNode V))

namespace Mem

variable {V : Type}

def apply (m : Mem V) : Write V → Mem V
  | .bucketNum n => { m with bucketNum := n }
  | .maxNode n => { m with maxNode := n }
  | .nodeNum n => { m with nodeNum := n }
  | .nodeSize n => { m with nodeSize := n }
  | .bucket index pos => { m with buckets := fun i => if i = index then pos else m.buckets i }
  | .pool w => { m with pool := Store.apply w m.pool }

instance : Store (Mem V) (Write V) where
  apply w m := m.apply w

end Mem

abbrev Act (V α : Type) : Type := Prog (Mem V) (Write V) α

/-- `sizeof(HashHeader)` -/
def SIZEOF_HASH_HEADER : Nat := 24

def OK : Int := 0

def FAILED : Int := -1

/-- Where the pool lies behind the header and the buckets. -/
def poolAt (M : Fixed.Mapping) (bucketNum : Nat) : Fixed.Mapping where
  header := u64 (M.header + SIZEOF_HASH_HEADER + 8 * bucketNum)
  length := M.length - (SIZEOF_HASH_HEADER + 8 * bucketNum)

section Functions

variable {V : Type} (T : Params V) (P : Fixed.Mapping)

/-- A function of `mem_pool_`. -/
def onPool {α : Type} (x : Fixed.Act (HashNode V) α) : Act V α := zoom Mem.pool Write.pool x

/-- `*p` for a pointer to a node. -/
def node (p : Nat) : Act V (HashNode V) := do
  if Fixed.Accessible P p T.nodeSize then .read fun m => m.pool.node (Fixed.ref P p) else .stuck

def setNode (p : Nat) (b : HashNode V) : Act V Unit := do
  if Fixed.Accessible P p T.nodeSize then .write (.pool (.node (Fixed.ref P p) b)) else .stuck

def setKey (p : Nat) (key : UInt64) : Act V Unit := do
  setNode T P p { (← node T P p) with key := key }

def setValue (p : Nat) (value : V) : Act V Unit := do
  setNode T P p { (← node T P p) with value := value }

def setNext (p next : Nat) : Act V Unit := do
  setNode T P p { (← node T P p) with next := next }

/-- `int index = key % header_->bucket_num` -/
def index (key : UInt64) : Act V Int := .read fun m => toInt (key.toNat % m.bucketNum)

def bucket (index : Int) : Act V Nat := do
  if 0 ≤ index ∧ index < (← .read fun m => m.bucketNum) then .read fun m => m.buckets index
  else .stuck

def setBucket (index : Int) (pos : Nat) : Act V Unit := do
  if 0 ≤ index ∧ index < (← .read fun m => m.bucketNum) then .write (.bucket index pos)
  else .stuck

/-- Fuel for one chain: more than there are nodes. -/
def turns : Act V Nat := .read fun m => m.maxNode + 1

def init (M : Fixed.Mapping) (bucketNum maxNode : Nat) (check : Bool) : Act V Int := do
  if check ∧ ((← .read fun m => m.bucketNum) ≠ bucketNum ∨ (← .read fun m => m.maxNode) ≠ maxNode ∨
      (← .read fun m => m.nodeSize) ≠ T.nodeSize) then return FAILED
  else
    if ¬ check then
      .write (.bucketNum bucketNum)
      .write (.maxNode maxNode)
      .write (.nodeNum 0)
      .write (.nodeSize T.nodeSize)
      times (fun i => .write (.bucket i 0)) 0 bucketNum
    let ret ← onPool (Fixed.init (poolAt M bucketNum) maxNode T.nodeSize check)
    if ret ≠ 0 then return FAILED else return OK

/-- The turn of `GetNode` for the position `p` in the chain. -/
def getTurn (key : UInt64) (p : Nat) : Act V (Nat ⊕ Option Nat) := do
  if p ≠ 0 then
    let b ← node T P (Fixed.deref P p)
    if b.key = key then return .inr (some (Fixed.deref P p)) else return .inl b.next
  else return .inr none

/-- `none` is the null pointer. -/
def getNode (key : UInt64) : Act V (Option Nat) := do
  let i ← index key
  let first ← bucket i
  loop (getTurn T P key) (← turns) first

/-- The end of `Alloc`, for the node that the pool returned. -/
def linkNode (key : UInt64) (p : Nat) : Act V Unit := do
  setKey T P p key
  let i ← index key
  let first ← bucket i
  if first = 0 then
    setNext T P p 0
    setBucket i (Fixed.ref P p)
  else
    setNext T P p first
    setBucket i (Fixed.ref P p)
  .write (.nodeNum (← .read fun m => u32 (m.nodeNum + 1)))

/-- The result stands for the pointer to the value of that node. -/
def alloc (key : UInt64) : Act V (Option Nat) := do
  match ← getNode T P key with
  | some _ => return none
  | none =>
      match ← onPool (Fixed.alloc P T.zeroNode true) with
      | none => return none
      | some p =>
          linkNode T P key p
          return some p

def insert (key : UInt64) (value : V) : Act V (Option Nat) := do
  match ← alloc T P key with
  | none => return none
  | some p =>
      setValue T P p value
      return some p

def get (key : UInt64) : Act V (Option Nat) := getNode T P key

/-- The turn of `Free` for the pointer `p` behind the node `prev`. -/
def freeTurn (key : UInt64) (i : Int) : Option Nat × Nat → Act V ((Option Nat × Nat) ⊕ Int) :=
  fun (prev, p) => do
    if p ≠ 0 then
      let b ← node T P (Fixed.deref P p)
      if b.key = key then
        match prev with
        | some q => setNext T P q b.next
        | none => setBucket i b.next
        .write (.nodeNum (← .read fun m => u32 (2 ^ 32 - 1 + m.nodeNum)))
        let ret ← onPool (Fixed.free P (Fixed.deref P p))
        if ret ≠ 0 then return .inr FAILED else return .inr OK
      else return .inl (some (Fixed.deref P p), b.next)
    else return .inr FAILED

def free (key : UInt64) : Act V Int := do
  let i ← index key
  let first ← bucket i
  loop (freeTurn T P key i) (← turns) (none, first)

end Functions

end Code

/-! ## The invariant -/

section Invariant

open Jump.Core Prog Fixed

variable {V : Type} {T : Params V} {P : Mapping} {B N : Nat} {m : Mem V}
  {chains : Nat → List Nat} {out free lost : List Nat}

namespace Mem

def keyOf (m : Mem V) (r : Nat) : UInt64 := (m.pool.node r).key

def valueOf (m : Mem V) (r : Nat) : V := (m.pool.node r).value

def nextOf (m : Mem V) (r : Nat) : Nat := (m.pool.node r).next

end Mem

/-- `chains i` are the nodes of bucket `i`, by their offsets in the pool. -/
structure Inv (T : Params V) (P : Mapping) (B N : Nat) (m : Mem V) (chains : Nat → List Nat)
    (out free lost : List Nat) : Prop where
  pool : Fixed.Inv P N T.nodeSize m.pool out free lost
  bucketNum : m.bucketNum = B
  maxNode : m.maxNode = N
  nodeSize : m.nodeSize = T.nodeSize
  pos : 0 < B
  small : B < 2 ^ 31
  chain : ∀ i < B, Chain m.nextOf 0 (m.buckets i) (chains i)
  keys : ∀ i < B, ((chains i).map m.keyOf).Nodup
  place : ∀ i < B, ∀ r ∈ chains i, (m.keyOf r).toNat % B = i
  linked : ∀ i < B, ∀ r ∈ chains i, ∃ o ∈ out, r = o + NODE_OFFSET
  member : ∀ o ∈ out, ∃ i < B, o + NODE_OFFSET ∈ chains i

/-! ## What the pool stores -/

/-- The nodes from `p` on. -/
def chainFrom (m : Mem V) : Nat → Nat → List Nat
  | 0, _ => []
  | fuel + 1, p => if p = 0 then [] else p :: chainFrom m fuel (m.nextOf p)

/-- The nodes of a bucket. -/
def bucketNodes (m : Mem V) (i : Nat) : List Nat := chainFrom m (m.maxNode + 1) (m.buckets i)

/-- The value stored under a key. -/
def lookup (m : Mem V) (key : UInt64) : Option V :=
  ((bucketNodes m (key.toNat % m.bucketNum)).find? fun r => m.keyOf r = key).map m.valueOf

theorem chainFrom_eq {fuel p : Nat} {xs : List Nat} (h : Chain m.nextOf 0 p xs) (h0 : 0 ∉ xs)
    (hf : xs.length < fuel) : chainFrom m fuel p = xs := by
  induction xs generalizing p fuel with
  | nil =>
      obtain rfl : p = 0 := h
      cases fuel with
      | zero => rfl
      | succ fuel => exact if_pos rfl
  | cons x xs ih =>
      obtain ⟨rfl, ht⟩ := h
      simp only [List.mem_cons, not_or] at h0
      cases fuel with
      | zero => simp at hf
      | succ fuel =>
          rw [List.length_cons] at hf
          rw [chainFrom, if_neg (Ne.symm h0.1), ih ht h0.2 (by omega)]

namespace Inv

theorem slot_lt (hi : Inv T P B N m chains out free lost) (key : UInt64) : key.toNat % B < B :=
  Nat.mod_lt _ hi.pos

theorem nodup (hi : Inv T P B N m chains out free lost) {i : Nat} (h : i < B) :
    (chains i).Nodup :=
  List.Nodup.of_map _ (hi.keys i h)

theorem zero_not_mem (hi : Inv T P B N m chains out free lost) {i : Nat} (h : i < B) :
    0 ∉ chains i := by
  intro h0
  obtain ⟨o, -, he⟩ := hi.linked i h 0 h0
  unfold NODE_OFFSET at he
  omega

/-- No chain has more nodes than the pool. -/
theorem length_le (hi : Inv T P B N m chains out free lost) {i : Nat} (h : i < B) :
    (chains i).length ≤ N := by
  have hsub : chains i ⊆ out.map (· + NODE_OFFSET) := by
    intro r hr
    obtain ⟨o, ho, rfl⟩ := hi.linked i h r hr
    exact List.mem_map_of_mem ho
  have hle := (List.subperm_of_subset (hi.nodup h) hsub).length_le
  have hcount := hi.pool.count_eq
  have ha := hi.pool.allocNode
  rw [List.length_map] at hle
  omega

theorem bucketNodes_eq (hi : Inv T P B N m chains out free lost) {i : Nat} (h : i < B) :
    bucketNodes m i = chains i := by
  have hle := hi.length_le h
  rw [bucketNodes, hi.maxNode]
  exact chainFrom_eq (hi.chain i h) (hi.zero_not_mem h) (by omega)

theorem lookup_eq (hi : Inv T P B N m chains out free lost) (key : UInt64) :
    lookup m key = ((chains (key.toNat % B)).find? fun r => m.keyOf r = key).map m.valueOf := by
  rw [lookup, hi.bucketNum, hi.bucketNodes_eq (hi.slot_lt key)]

theorem lookup_none (hi : Inv T P B N m chains out free lost) {key : UInt64}
    (h : ∀ r ∈ chains (key.toNat % B), m.keyOf r ≠ key) : lookup m key = none := by
  rw [hi.lookup_eq, List.find?_eq_none.mpr (by simpa using h)]
  rfl

theorem lookup_some (hi : Inv T P B N m chains out free lost) {key : UInt64} {r : Nat}
    (hr : r ∈ chains (key.toNat % B)) (hk : m.keyOf r = key) :
    lookup m key = some (m.valueOf r) := by
  have hinj := hi.keys _ (hi.slot_lt key)
  have hfind : (chains (key.toNat % B)).find? (fun r => m.keyOf r = key) = some r := by
    rw [List.find?_eq_some_iff_append]
    obtain ⟨xs, ys, hxy⟩ := List.append_of_mem hr
    refine ⟨by simpa using hk, xs, ys, hxy, fun a ha => ?_⟩
    rw [hxy, List.map_append, List.map_cons] at hinj
    have hne := (List.nodup_append.mp hinj).2.2 (m.keyOf a) (List.mem_map_of_mem ha) (m.keyOf r)
      List.mem_cons_self
    rw [hk] at hne
    simpa using hne
  rw [hi.lookup_eq, hfind]
  rfl

/-- A key is stored when some chain node has it. -/
theorem lookup_cases (hi : Inv T P B N m chains out free lost) (key : UInt64) :
    (lookup m key = none ∧ ∀ r ∈ chains (key.toNat % B), m.keyOf r ≠ key) ∨
      ∃ r ∈ chains (key.toNat % B), m.keyOf r = key ∧ lookup m key = some (m.valueOf r) := by
  by_cases h : ∃ r ∈ chains (key.toNat % B), m.keyOf r = key
  · obtain ⟨r, hr, hk⟩ := h
    exact Or.inr ⟨r, hr, hk, hi.lookup_some hr hk⟩
  · have hno : ∀ r ∈ chains (key.toNat % B), m.keyOf r ≠ key := fun r hr hk => h ⟨r, hr, hk⟩
    exact Or.inl ⟨hi.lookup_none hno, hno⟩

theorem mem_chain (hi : Inv T P B N m chains out free lost) {o : Nat} {key : UInt64}
    (ho : o ∈ out) (hk : m.keyOf (o + NODE_OFFSET) = key) :
    o + NODE_OFFSET ∈ chains (key.toNat % B) := by
  obtain ⟨i, h, hr⟩ := hi.member o ho
  rw [← hk, hi.place i h _ hr]
  exact hr

/-- No two nodes in use hold one key. -/
theorem key_inj (hi : Inv T P B N m chains out free lost) {a b : Nat} (ha : a ∈ out)
    (hb : b ∈ out) (he : m.keyOf (a + NODE_OFFSET) = m.keyOf (b + NODE_OFFSET)) : a = b := by
  have hra := hi.mem_chain ha he
  have hrb := hi.mem_chain hb rfl
  have hsame := List.inj_on_of_nodup_map (hi.keys _ (hi.slot_lt _)) hra hrb he
  omega

/-- A key is stored when a node in use holds it. -/
theorem lookup_ne_none (hi : Inv T P B N m chains out free lost) {key : UInt64} :
    lookup m key ≠ none ↔ ∃ o ∈ out, m.keyOf (o + NODE_OFFSET) = key := by
  rcases hi.lookup_cases key with ⟨hnone, hno⟩ | ⟨r, hr, hk, hsome⟩
  · simp only [hnone, not_true, ne_eq, false_iff, not_exists, not_and]
    exact fun o ho hk => hno _ (hi.mem_chain ho hk) hk
  · rw [hsome]
    simp only [ne_eq, reduceCtorEq, not_false_eq_true, true_iff]
    obtain ⟨o, ho, rfl⟩ := hi.linked _ (hi.slot_lt key) r hr
    exact ⟨o, ho, hk⟩

/-- The keys stored are as many as the nodes. -/
theorem count_keys (hi : Inv T P B N m chains out free lost) :
    {key | lookup m key ≠ none}.ncard = out.length := by
  have hout := (List.nodup_append.mp hi.pool.nodup).1
  have hnd : (out.map fun o => m.keyOf (o + NODE_OFFSET)).Nodup :=
    List.Nodup.map_on (fun a ha b hb he => hi.key_inj ha hb he) hout
  have hset : {key | lookup m key ≠ none} =
      ((out.map fun o => m.keyOf (o + NODE_OFFSET)).toFinset : Set UInt64) := by
    ext key
    rw [List.coe_toFinset]
    change lookup m key ≠ none ↔ key ∈ out.map fun o => m.keyOf (o + NODE_OFFSET)
    rw [hi.lookup_ne_none, List.mem_map]
  rw [hset, Set.ncard_coe_finset, List.toFinset_card_of_nodup hnd, List.length_map]

end Inv

end Invariant

end Jump.MemPool.Hash
