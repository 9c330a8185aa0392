import Jump.Core.Bytes
import Jump.Core.Word
import Mathlib.Data.List.Basic

/-! # Lua values, and the blocks they are written to

The values that `lua-seri.c` reads from a Lua stack and leaves on one. A table is here the
values at the keys from 1 to its `lua_rawlen`, of which some may be nil, and its other entries
in the order in which `lua_next` comes to them. Two values that are equal here are built alike;
a table that is stored under two keys is two tables.

A message is written into a chain of blocks of 128 bytes. A block is given by what has been
written into it.
-/

namespace Jump.Skynet.LuaSeri

/-- `number` is a float, by its bits. `unsupported` is a function, a thread or a full
userdata. -/
inductive Value where
  | nil
  | boolean (b : Bool)
  | integer (i : Int64)
  | number (bits : UInt64)
  | string (bytes : List UInt8)
  | lightuserdata (p : UInt64)
  | table (array : List Value) (hash : List (Value × Value))
  | unsupported (typename : String)

/-! ## Float keys -/

def exponent (bits : UInt64) : Nat := bits.toNat / 2 ^ 52 % 2 ^ 11

def fraction (bits : UInt64) : Nat := bits.toNat % 2 ^ 52

def isNaN (bits : UInt64) : Bool := exponent bits = 2047 ∧ fraction bits ≠ 0

/-- The magnitude of a float that has an integer value. -/
def magnitude (bits : UInt64) : Option Nat :=
  if exponent bits = 2047 then none
  else if exponent bits = 0 then if fraction bits = 0 then some 0 else none
  else
    let m := 2 ^ 52 + fraction bits
    if 1075 ≤ exponent bits then some (m * 2 ^ (exponent bits - 1075))
    else if m % 2 ^ (1075 - exponent bits) = 0 then some (m / 2 ^ (1075 - exponent bits))
    else none

/-- `numisinteger`: the value of a float that is an integer in the range of `lua_Integer`. -/
def numisinteger (bits : UInt64) : Option Int64 :=
  (magnitude bits).bind fun m =>
    let n : Int := if bits.toNat / 2 ^ 63 = 1 then -m else m
    if -2 ^ 63 ≤ n ∧ n < 2 ^ 63 then some (Int64.ofInt n) else none

/-! ## Tables -/

/-- Equality of two keys without metamethods; no two tables are the same one. -/
def rawequal : Value → Value → Bool
  | .boolean a, .boolean b => a = b
  | .integer a, .integer b => a = b
  | .number a, .number b => a = b
  | .string a, .string b => a = b
  | .lightuserdata a, .lightuserdata b => a = b
  | _, _ => false

def isNil : Value → Bool
  | .nil => true
  | _ => false

/-- The entry of `key` in the hash part set to `value`. -/
def setHash (hash : List (Value × Value)) (key value : Value) : List (Value × Value) :=
  if isNil value then hash.filter fun e => !rawequal e.1 key
  else if hash.any fun e => rawequal e.1 key then
    hash.map fun e => if rawequal e.1 key then (e.1, value) else e
  else hash ++ [(key, value)]

/-- The index in the array part that an integer key stands for. -/
def arrayIndex (size : Nat) (i : Int64) : Option Nat :=
  if 0 < i.toInt ∧ i.toInt ≤ size then some (i.toInt.toNat - 1) else none

/-- `lua_rawset` of a table, or its error. -/
def rawset (array : List Value) (hash : List (Value × Value)) (key value : Value) :
    Except String (List Value × List (Value × Value)) :=
  let setInteger (i : Int64) :=
    match arrayIndex array.length i with
    | some n => .ok (array.set n value, hash)
    | none => .ok (array, setHash hash (.integer i) value)
  match key with
  | .nil => .error "table index is nil"
  | .integer i => setInteger i
  | .number bits =>
    match numisinteger bits with
    | some i => setInteger i
    | none =>
      if isNaN bits then .error "table index is NaN"
      else .ok (array, setHash hash (.number bits) value)
  | key => .ok (array, setHash hash key value)

/-- The entries of a table as `lua_next` goes through them. -/
def entries (array : List Value) (hash : List (Value × Value)) : List (Value × Value) :=
  (array.zipIdx.filter fun e => !isNil e.1).map (fun e => (.integer (Int64.ofNat (e.2 + 1)), e.1))
    ++ hash

/-- The keys that Lua stores outside an array part of `size` values. -/
def IsHashKey (size : Nat) : Value → Prop
  | .nil => False
  | .integer i => arrayIndex size i = none
  | .number bits => numisinteger bits = none ∧ isNaN bits = false
  | _ => True

/-- The values that a Lua table can hold and that have a serial form, with tables nested at most
`n` deep. -/
inductive Packable : Nat → Value → Prop
  | nil {n : Nat} : Packable n .nil
  | boolean {n : Nat} (b : Bool) : Packable n (.boolean b)
  | integer {n : Nat} (i : Int64) : Packable n (.integer i)
  | number {n : Nat} (bits : UInt64) : Packable n (.number bits)
  | string {n : Nat} (bytes : List UInt8) : Packable n (.string bytes)
  | lightuserdata {n : Nat} (p : UInt64) : Packable n (.lightuserdata p)
  | table {n : Nat} {array : List Value} {hash : List (Value × Value)}
      (elements : ∀ v ∈ array, Packable n v)
      (keys : ∀ e ∈ hash, Packable n e.1)
      (values : ∀ e ∈ hash, Packable n e.2)
      (stored : ∀ e ∈ hash, IsHashKey array.length e.1 ∧ isNil e.2 = false)
      (distinct : hash.Pairwise fun d e => rawequal d.1 e.1 = false) :
      Packable (n + 1) (.table array hash)

/-- A new key is stored behind the others. -/
theorem rawset_new {array : List Value} {hash : List (Value × Value)} {key value : Value}
    (hkey : IsHashKey array.length key) (hvalue : isNil value = false)
    (hnew : ∀ e ∈ hash, rawequal e.1 key = false) :
    rawset array hash key value = .ok (array, hash ++ [(key, value)]) := by
  have hset : setHash hash key value = hash ++ [(key, value)] := by
    have hany : ¬ hash.any (fun e => rawequal e.1 key) = true := by
      rw [List.any_eq_true]
      intro ⟨e, he, heq⟩
      rw [hnew e he] at heq
      exact Bool.false_ne_true heq
    rw [setHash, if_neg (by rw [hvalue]; decide), if_neg hany]
  cases key with
  | nil => exact hkey.elim
  | integer i =>
      have hindex : arrayIndex array.length i = none := hkey
      simp only [rawset, hindex, hset]
  | number bits =>
      have hinteger : numisinteger bits = none := hkey.1
      have hnan : isNaN bits = false := hkey.2
      simp only [rawset, hinteger, hnan, hset]
      rfl
  | boolean b => simp only [rawset, hset]
  | string bytes => simp only [rawset, hset]
  | lightuserdata p => simp only [rawset, hset]
  | table a h => simp only [rawset, hset]
  | unsupported typename => simp only [rawset, hset]

/-! ## Write blocks -/

section Blocks

open Jump.Core

def blockSize : Nat := 128

/-- The chain of blocks up to `current`; `ptr` is the length of `current`. -/
structure WriteBlock where
  full : List (List UInt8)
  current : List UInt8
  len : Int
  size_full : ∀ block ∈ full, block.length = blockSize
  size_current : current.length ≤ blockSize
  len_eq : len = toInt (full.flatten ++ current).length

namespace WriteBlock

def ptr (b : WriteBlock) : Nat := b.current.length

/-- Everything written so far. -/
def contents (b : WriteBlock) : List UInt8 := b.full.flatten ++ b.current

end WriteBlock

def wbInit : WriteBlock where
  full := []
  current := []
  len := 0
  size_full := by simp
  size_current := Nat.zero_le _
  len_eq := rfl

/-- The next block of the chain. -/
def blkAlloc (b : WriteBlock) (h : b.ptr = blockSize) : WriteBlock where
  full := b.full ++ [b.current]
  current := []
  len := b.len
  size_full := by
    intro block hb
    rcases List.mem_append.mp hb with hb | hb
    · exact b.size_full block hb
    · rw [List.mem_singleton.mp hb]
      exact h
  size_current := Nat.zero_le _
  len_eq := by
    rw [b.len_eq, List.flatten_append, List.flatten_singleton, List.append_nil]

private theorem toInt_add (m n : Nat) : Int.bmod (toInt m + n) (2 ^ 32) = toInt (m + n) := by
  unfold toInt
  exact Int.bmod_add_bmod

/-- `memcpy` to `b->ptr`; `b->len` is an `int`. -/
def copy (b : WriteBlock) (bytes : List UInt8) (h : b.ptr + bytes.length ≤ blockSize) :
    WriteBlock where
  full := b.full
  current := b.current ++ bytes
  len := Int.bmod (b.len + bytes.length) (2 ^ 32)
  size_full := b.size_full
  size_current := by
    rw [List.length_append]
    exact h
  len_eq := by
    rw [b.len_eq, toInt_add, ← List.length_append, List.append_assoc]

/-- The block in which `wb_push` goes on. -/
def freshBlock (b : WriteBlock) : WriteBlock :=
  if h : b.ptr = blockSize then blkAlloc b h else b

theorem ptr_freshBlock (b : WriteBlock) : (freshBlock b).ptr < blockSize := by
  unfold freshBlock
  split
  · exact Nat.zero_lt_of_lt (by decide : 0 < blockSize)
  · rename_i h
    exact Nat.lt_of_le_of_ne b.size_current h

def wbPush (wb : WriteBlock) (buf : List UInt8) : WriteBlock :=
  let b := freshBlock wb
  if h : b.ptr + buf.length ≤ blockSize then copy b buf h
  else
    have hfill : b.ptr + (buf.take (blockSize - b.ptr)).length ≤ blockSize := by
      have hptr : b.ptr < blockSize := ptr_freshBlock wb
      rw [List.length_take]
      omega
    wbPush (copy b (buf.take (blockSize - b.ptr)) hfill) (buf.drop (blockSize - b.ptr))
termination_by buf.length
decreasing_by
  have hptr := ptr_freshBlock wb
  rw [List.length_drop]
  omega

/-- `seri`: the first `len` bytes of the chain, unless it reads something that was not
written. -/
def seriLoop : List (List UInt8) → Nat → Option (List UInt8)
  | [], len => if len = 0 then some [] else none
  | b :: next, len =>
    if len = 0 then some []
    else if blockSize ≤ len then
      if b.length = blockSize then (seriLoop next (len - blockSize)).map (b ++ ·) else none
    else if len ≤ b.length then some (b.take len)
    else none

/-- The buffer and the size that `seri` leaves on the stack. -/
def seri (b : WriteBlock) : Option (List UInt8 × Int) :=
  (seriLoop (b.full ++ [b.current]) b.len.toNat).map fun buffer => (buffer, b.len)

/-! ## The chain as one text -/

theorem contents_wbInit : wbInit.contents = [] := rfl

theorem contents_freshBlock (b : WriteBlock) : (freshBlock b).contents = b.contents := by
  unfold freshBlock
  split
  · rw [WriteBlock.contents, WriteBlock.contents, blkAlloc]
    simp only
    rw [List.flatten_append, List.flatten_singleton, List.append_nil]
  · rfl

theorem contents_copy (b : WriteBlock) (bytes : List UInt8)
    (h : b.ptr + bytes.length ≤ blockSize) :
    (copy b bytes h).contents = b.contents ++ bytes :=
  (List.append_assoc b.full.flatten b.current bytes).symm

/-- However the blocks are crossed. -/
theorem contents_wbPush (wb : WriteBlock) (buf : List UInt8) :
    (wbPush wb buf).contents = wb.contents ++ buf := by
  fun_induction wbPush wb buf with
  | case1 wb buf b hfits => rw [contents_copy, contents_freshBlock]
  | case2 wb buf b hfits hfill ih =>
      rw [ih, contents_copy, contents_freshBlock, List.append_assoc, List.take_append_drop]

theorem seriLoop_flatten (full : List (List UInt8)) (current : List UInt8)
    (hfull : ∀ block ∈ full, block.length = blockSize) (hcurrent : current.length ≤ blockSize) :
    seriLoop (full ++ [current]) (full.flatten ++ current).length =
      some (full.flatten ++ current) := by
  induction full with
  | nil =>
      rw [List.flatten_nil, List.nil_append, List.nil_append, seriLoop]
      by_cases hzero : current.length = 0
      · rw [if_pos hzero, List.eq_nil_of_length_eq_zero hzero]
      rw [if_neg hzero]
      by_cases hfill : blockSize ≤ current.length
      · have hsize : current.length = blockSize := Nat.le_antisymm hcurrent hfill
        rw [if_pos hfill, if_pos hsize, hsize, Nat.sub_self]
        simp only [seriLoop, if_pos, Option.map_some, List.append_nil]
      · rw [if_neg hfill, if_pos (Nat.le_refl _), List.take_length]
  | cons block full ih =>
      have hsize : block.length = blockSize := hfull block List.mem_cons_self
      have hrest := ih fun b hb => hfull b (List.mem_cons_of_mem _ hb)
      have hpos : 0 < blockSize := by decide
      have hlen : ((block :: full).flatten ++ current).length =
          blockSize + (full.flatten ++ current).length := by
        rw [List.flatten_cons, List.append_assoc, List.length_append, hsize]
      rw [hlen, List.cons_append, seriLoop, if_neg (by omega), if_pos (Nat.le_add_right _ _),
        if_pos hsize, Nat.add_sub_cancel_left, hrest, Option.map_some, List.flatten_cons,
        List.append_assoc]

/-- The buffer holds everything that was written. -/
theorem seri_eq (b : WriteBlock) (h : b.contents.length < 2 ^ 31) :
    seri b = some (b.contents, (b.contents.length : Int)) := by
  have hlen : b.len = (b.contents.length : Int) := by
    rw [b.len_eq]
    exact toInt_of_lt h
  have hloop : seriLoop (b.full ++ [b.current]) b.contents.length = some b.contents :=
    seriLoop_flatten b.full b.current b.size_full b.size_current
  rw [seri, hlen, Int.toNat_natCast, hloop, Option.map_some]

end Blocks

end Jump.Skynet.LuaSeri
