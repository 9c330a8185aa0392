import Jump.Core.Outcome
import Jump.Core.Word
import Mathlib.Logic.Function.Basic

/-! # The socket buffer of `lua-socket.c`

The chunks of a socket are in nodes that come from a pool and go back to it. A node has an address,
and 0 is the null pointer; `msg` is what a pointer to a chunk points to. The calls get what Lua
passes to them: integers of 64 bits, and strings of any length.
-/

namespace Jump.Skynet.LuaSocket

open Jump.Core

/-- A null pointer that is followed, bytes outside of a chunk or of the separator, and a failed
assertion. -/
inductive Fault where
  | null
  | bounds
  | assertion
deriving DecidableEq

abbrev Checked := Outcome Fault

def LARGE_PAGE_NODE : Nat := 12

/-- `struct buffer_node` -/
structure BufferNode where
  msg : List UInt8
  sz : Int
  next : Nat

/-- `struct socket_buffer` -/
structure SocketBuffer where
  size : Int
  offset : Int
  head : Nat
  tail : Nat

/-- The table `pool`: its first element and its length, and the nodes in the userdata behind it.
`lua_newuserdata` takes memory from `brk` on. -/
structure Pool where
  node : Nat → BufferNode
  freeNode : Nat
  len : Nat
  brk : Nat

/-- `lnewbuffer` -/
def newbuffer : SocketBuffer := ⟨0, 0, 0, 0⟩

/-- An empty table. -/
def newpool : Pool := ⟨fun _ => ⟨[], 0, 0⟩, 0, 0, 1⟩

namespace Pool

/-- `*p` -/
def get (pool : Pool) (p : Nat) : Checked BufferNode := do
  .assert .null (p ≠ 0)
  return pool.node p

/-- `*p = n` -/
def set (pool : Pool) (p : Nat) (n : BufferNode) : Pool :=
  { pool with node := Function.update pool.node p n }

/-- `lnewpool` -/
def grow (pool : Pool) (sz : Nat) : Pool :=
  { pool with
    node := fun p =>
      if pool.brk ≤ p ∧ p < pool.brk + sz then
        ⟨[], 0, if p + 1 < pool.brk + sz then p + 1 else 0⟩
      else pool.node p
    brk := pool.brk + sz }

end Pool

/-- The node that `lpushbuffer` takes from the pool. -/
def takeNode (pool : Pool) : Checked (Nat × Pool) := do
  let (freeNode, pool) :=
    if pool.freeNode = 0 then
      let tsz := if pool.len = 0 then pool.len + 1 else pool.len
      let size := if tsz ≤ LARGE_PAGE_NODE - 3 then 8 <<< tsz else 8 <<< (LARGE_PAGE_NODE - 3)
      (pool.brk, { pool.grow size with len := tsz + 1 })
    else (pool.freeNode, pool)
  let node ← pool.get freeNode
  return (freeNode, { pool with freeNode := node.next })

/-- `lpushbuffer` -/
def lpushbuffer (sb : SocketBuffer) (pool : Pool) (msg : List UInt8) (sz : Int) :
    Checked (SocketBuffer × Pool) := do
  let (freeNode, pool) ← takeNode pool
  let pool := pool.set freeNode ⟨msg, sz, 0⟩
  if sb.head = 0 then
    .assert .assertion (sb.tail = 0)
    return ({ sb with head := freeNode, tail := freeNode, size := sb.size + sz }, pool)
  else
    let tail ← pool.get sb.tail
    return ({ sb with tail := freeNode, size := sb.size + sz },
      pool.set sb.tail { tail with next := freeNode })

/-- `return_free_node` -/
def returnFreeNode (sb : SocketBuffer) (pool : Pool) : Checked (SocketBuffer × Pool) := do
  let freeNode ← pool.get sb.head
  return ({ sb with
      offset := 0, head := freeNode.next, tail := if freeNode.next = 0 then 0 else sb.tail },
    { pool.set sb.head ⟨[], 0, pool.freeNode⟩ with freeNode := sb.head })

/-- The `n` bytes at `msg + offset`. -/
def bytesAt (msg : List UInt8) (offset n : Int) : Checked (List UInt8) := do
  .assert .bounds (0 ≤ n ∧ 0 ≤ offset ∧ offset + n ≤ msg.length)
  return (msg.drop offset.toNat).take n.toNat

/-- The loop of `pop_lstring`, which passes every node once at most; `b` is what the buffer `b`
holds. -/
def popLoop (skip : Int) : Nat → SocketBuffer → Pool → Nat → Int → List UInt8 →
    Checked (List UInt8 × SocketBuffer × Pool)
  | 0, _, _, _, _, _ => .stuck
  | fuel + 1, sb, pool, current, sz, b => do
    let node ← pool.get current
    let bytes := node.sz - sb.offset
    if sz ≤ bytes then
      let more ← (if skip < sz then bytesAt node.msg sb.offset (sz - skip) else .ok [])
      let sb := { sb with offset := sb.offset + sz }
      if bytes = sz then
        let (sb, pool) ← returnFreeNode sb pool
        return (b ++ more, sb, pool)
      else return (b ++ more, sb, pool)
    else
      let realSz := sz - skip
      let more ←
        (if 0 < realSz then bytesAt node.msg sb.offset (if realSz < bytes then realSz else bytes)
        else .ok [])
      let (sb, pool) ← returnFreeNode sb pool
      let sz := sz - bytes
      if sz = 0 then return (b ++ more, sb, pool)
      else
        .assert .assertion (sb.head ≠ 0)
        popLoop skip fuel sb pool sb.head sz (b ++ more)

/-- `pop_lstring`, with the string that it pushes. -/
def popLstring (sb : SocketBuffer) (pool : Pool) (sz skip : Int) :
    Checked (List UInt8 × SocketBuffer × Pool) := do
  let current ← pool.get sb.head
  if sz < current.sz - sb.offset then
    let s ← bytesAt current.msg sb.offset (sz - skip)
    return (s, { sb with offset := sb.offset + sz }, pool)
  else if sz = current.sz - sb.offset then
    let s ← bytesAt current.msg sb.offset (sz - skip)
    let (sb, pool) ← returnFreeNode sb pool
    return (s, sb, pool)
  else popLoop skip pool.brk sb pool sb.head sz []

/-- `lpopbuffer`, with the string or nil; the size is the second result. -/
def lpopbuffer (sb : SocketBuffer) (pool : Pool) (n : Int) :
    Checked (Option (List UInt8) × SocketBuffer × Pool) := do
  let sz := Int.bmod n (2 ^ 32)
  if sb.size < sz ∨ sz = 0 then return (none, sb, pool)
  else
    let (s, sb, pool) ← popLstring sb pool sz 0
    return (some s, { sb with size := sb.size - sz }, pool)

/-- The loop of `lclearbuffer` and of `lreadall`. -/
def readLoop : Nat → SocketBuffer → Pool → List UInt8 → Checked (List UInt8 × SocketBuffer × Pool)
  | 0, _, _, _ => .stuck
  | fuel + 1, sb, pool, b =>
    if sb.head = 0 then .ok (b, sb, pool)
    else do
      let current ← pool.get sb.head
      let more ← bytesAt current.msg sb.offset (current.sz - sb.offset)
      let (sb, pool) ← returnFreeNode sb pool
      readLoop fuel sb pool (b ++ more)

/-- `lreadall` -/
def lreadall (sb : SocketBuffer) (pool : Pool) : Checked (List UInt8 × SocketBuffer × Pool) := do
  let (b, sb, pool) ← readLoop pool.brk sb pool []
  return (b, { sb with size := 0 }, pool)

/-- `lclearbuffer` -/
def lclearbuffer (sb : SocketBuffer) (pool : Pool) : Checked (SocketBuffer × Pool) :=
  clear pool.brk sb pool
where
  clear : Nat → SocketBuffer → Pool → Checked (SocketBuffer × Pool)
    | 0, _, _ => .stuck
    | fuel + 1, sb, pool =>
      if sb.head = 0 then .ok ({ sb with size := 0 }, pool)
      else do
        let (sb, pool) ← returnFreeNode sb pool
        clear fuel sb pool

/-- `memcmp(msg + offset, sep + at, n) == 0` -/
def sameBytes (msg : List UInt8) (offset : Int) (sep : List UInt8) (p n : Int) : Checked Bool := do
  let a ← bytesAt msg offset n
  let b ← bytesAt sep p n
  return a = b

/-- `check_sep`, where `p` is how far `sep` has moved. -/
def checkSep (pool : Pool) (sep : List UInt8) : Nat → Nat → Int → Int → Int → Checked Bool
  | 0, _, _, _, _ => .stuck
  | fuel + 1, node, start, p, seplen => do
    let n ← pool.get node
    let sz := n.sz - start
    if seplen ≤ sz then sameBytes n.msg start sep p seplen
    else
      let same ← (if 0 < sz then sameBytes n.msg start sep p sz else .ok true)
      if same then checkSep pool sep fuel n.next 0 (p + sz) (seplen - sz)
      else return false

/-- The loop of `lreadline` for `count` more values of `i`, with the one where it finds `sep`. -/
def readlineLoop (pool : Pool) (sep : List UInt8) (seplen : Int) :
    Nat → Nat → Nat → Int → Int → Checked (Option Nat)
  | 0, _, _, _, _ => .ok none
  | count + 1, i, current, start, bytes => do
    let found ← checkSep pool sep pool.brk current start 0 seplen
    if found then return some i
    else if bytes - 1 = 0 then
      let node ← pool.get current
      if node.next = 0 then return none
      else
        let next ← pool.get node.next
        readlineLoop pool sep seplen count (i + 1) node.next 0 next.sz
    else readlineLoop pool sep seplen count (i + 1) current (start + 1) (bytes - 1)

/-- What `lreadline` returns. -/
inductive Line where
  | nothing
  | found
  | line (s : List UInt8)
deriving DecidableEq

/-- `lreadline`. The length of `sep` is a `size_t`, and the loop, `check_sep` and `pop_lstring` take
it as an `int`. -/
def lreadline (sb : SocketBuffer) (pool : Pool) (check : Bool) (sep : List UInt8) :
    Checked (Line × SocketBuffer × Pool) :=
  if sb.head = 0 then .ok (.nothing, sb, pool)
  else do
    let seplen := toInt sep.length
    let current ← pool.get sb.head
    let count := (sb.size - seplen + 1).toNat
    match ← readlineLoop pool sep seplen count 0 sb.head sb.offset (current.sz - sb.offset) with
    | none => return (.nothing, sb, pool)
    | some i =>
      if check then return (.found, sb, pool)
      else
        let (s, sb, pool) ← popLstring sb pool (toInt (i + sep.length)) seplen
        return (.line s, { sb with size := Int.bmod (sb.size - (i + sep.length : Nat)) (2 ^ 32) },
          pool)

/-! ## Calls -/

inductive Call where
  | push (msg : List UInt8)
  | pop (sz : Nat)
  | readline (check : Bool) (sep : List UInt8)
  | readall
  | clear
deriving DecidableEq

/-- What a call returns; a `pop` also the size, as `push` does. -/
inductive Answer where
  | size (n : Int)
  | popped (s : Option (List UInt8)) (n : Int)
  | line (l : Line)
  | all (s : List UInt8)
  | cleared
deriving DecidableEq

def call (sb : SocketBuffer) (pool : Pool) : Call → Checked (Answer × SocketBuffer × Pool)
  | .push msg => do
    let (sb, pool) ← lpushbuffer sb pool msg msg.length
    return (.size sb.size, sb, pool)
  | .pop sz => do
    let (s, sb, pool) ← lpopbuffer sb pool sz
    return (.popped s sb.size, sb, pool)
  | .readline check sep => do
    let (l, sb, pool) ← lreadline sb pool check sep
    return (.line l, sb, pool)
  | .readall => do
    let (s, sb, pool) ← lreadall sb pool
    return (.all s, sb, pool)
  | .clear => do
    let (sb, pool) ← lclearbuffer sb pool
    return (.cleared, sb, pool)

/-- A sequence of calls. -/
def runCalls (sb : SocketBuffer) (pool : Pool) : List Call →
    Checked (List Answer × SocketBuffer × Pool)
  | [] => .ok ([], sb, pool)
  | c :: cs => do
    let (a, sb, pool) ← call sb pool c
    let (as, sb, pool) ← runCalls sb pool cs
    return (a :: as, sb, pool)

end Jump.Skynet.LuaSocket
