import Jump.Core.Feistel
import Jump.Core.Outcome
import Jump.Core.Word
import Mathlib.Data.List.Basic
import Mathlib.Data.List.GetD
import Mathlib.Tactic.IntervalCases

/-! # DES of `lua-crypt.c`

A text is cut into blocks of eight bytes, with one byte `0x80` and zeros behind its end, and each
block goes through the sixteen rounds by itself. Texts are given as lists of bytes.
-/

namespace Jump.Skynet.Crypt

open Jump.Core

/-- `error` is what `luaL_error` raises. `outside` is a read in front of the buffer, `size` a length
that an `int` does not hold, and `endless` a call that calls itself with what it was called with. -/
inductive Fault where
  | error (message : String)
  | outside
  | size
  | endless
deriving DecidableEq

abbrev M := Outcome Fault

/-! ## The tables -/

def SB1 : List UInt32 :=
  [ 0x01010400, 0x00000000, 0x00010000, 0x01010404, 0x01010004, 0x00010404,
    0x00000004, 0x00010000, 0x00000400, 0x01010400, 0x01010404, 0x00000400,
    0x01000404, 0x01010004, 0x01000000, 0x00000004, 0x00000404, 0x01000400,
    0x01000400, 0x00010400, 0x00010400, 0x01010000, 0x01010000, 0x01000404,
    0x00010004, 0x01000004, 0x01000004, 0x00010004, 0x00000000, 0x00000404,
    0x00010404, 0x01000000, 0x00010000, 0x01010404, 0x00000004, 0x01010000,
    0x01010400, 0x01000000, 0x01000000, 0x00000400, 0x01010004, 0x00010000,
    0x00010400, 0x01000004, 0x00000400, 0x00000004, 0x01000404, 0x00010404,
    0x01010404, 0x00010004, 0x01010000, 0x01000404, 0x01000004, 0x00000404,
    0x00010404, 0x01010400, 0x00000404, 0x01000400, 0x01000400, 0x00000000,
    0x00010004, 0x00010400, 0x00000000, 0x01010004 ]

def SB2 : List UInt32 :=
  [ 0x80108020, 0x80008000, 0x00008000, 0x00108020, 0x00100000, 0x00000020,
    0x80100020, 0x80008020, 0x80000020, 0x80108020, 0x80108000, 0x80000000,
    0x80008000, 0x00100000, 0x00000020, 0x80100020, 0x00108000, 0x00100020,
    0x80008020, 0x00000000, 0x80000000, 0x00008000, 0x00108020, 0x80100000,
    0x00100020, 0x80000020, 0x00000000, 0x00108000, 0x00008020, 0x80108000,
    0x80100000, 0x00008020, 0x00000000, 0x00108020, 0x80100020, 0x00100000,
    0x80008020, 0x80100000, 0x80108000, 0x00008000, 0x80100000, 0x80008000,
    0x00000020, 0x80108020, 0x00108020, 0x00000020, 0x00008000, 0x80000000,
    0x00008020, 0x80108000, 0x00100000, 0x80000020, 0x00100020, 0x80008020,
    0x80000020, 0x00100020, 0x00108000, 0x00000000, 0x80008000, 0x00008020,
    0x80000000, 0x80100020, 0x80108020, 0x00108000 ]

def SB3 : List UInt32 :=
  [ 0x00000208, 0x08020200, 0x00000000, 0x08020008, 0x08000200, 0x00000000,
    0x00020208, 0x08000200, 0x00020008, 0x08000008, 0x08000008, 0x00020000,
    0x08020208, 0x00020008, 0x08020000, 0x00000208, 0x08000000, 0x00000008,
    0x08020200, 0x00000200, 0x00020200, 0x08020000, 0x08020008, 0x00020208,
    0x08000208, 0x00020200, 0x00020000, 0x08000208, 0x00000008, 0x08020208,
    0x00000200, 0x08000000, 0x08020200, 0x08000000, 0x00020008, 0x00000208,
    0x00020000, 0x08020200, 0x08000200, 0x00000000, 0x00000200, 0x00020008,
    0x08020208, 0x08000200, 0x08000008, 0x00000200, 0x00000000, 0x08020008,
    0x08000208, 0x00020000, 0x08000000, 0x08020208, 0x00000008, 0x00020208,
    0x00020200, 0x08000008, 0x08020000, 0x08000208, 0x00000208, 0x08020000,
    0x00020208, 0x00000008, 0x08020008, 0x00020200 ]

def SB4 : List UInt32 :=
  [ 0x00802001, 0x00002081, 0x00002081, 0x00000080, 0x00802080, 0x00800081,
    0x00800001, 0x00002001, 0x00000000, 0x00802000, 0x00802000, 0x00802081,
    0x00000081, 0x00000000, 0x00800080, 0x00800001, 0x00000001, 0x00002000,
    0x00800000, 0x00802001, 0x00000080, 0x00800000, 0x00002001, 0x00002080,
    0x00800081, 0x00000001, 0x00002080, 0x00800080, 0x00002000, 0x00802080,
    0x00802081, 0x00000081, 0x00800080, 0x00800001, 0x00802000, 0x00802081,
    0x00000081, 0x00000000, 0x00000000, 0x00802000, 0x00002080, 0x00800080,
    0x00800081, 0x00000001, 0x00802001, 0x00002081, 0x00002081, 0x00000080,
    0x00802081, 0x00000081, 0x00000001, 0x00002000, 0x00800001, 0x00002001,
    0x00802080, 0x00800081, 0x00002001, 0x00002080, 0x00800000, 0x00802001,
    0x00000080, 0x00800000, 0x00002000, 0x00802080 ]

def SB5 : List UInt32 :=
  [ 0x00000100, 0x02080100, 0x02080000, 0x42000100, 0x00080000, 0x00000100,
    0x40000000, 0x02080000, 0x40080100, 0x00080000, 0x02000100, 0x40080100,
    0x42000100, 0x42080000, 0x00080100, 0x40000000, 0x02000000, 0x40080000,
    0x40080000, 0x00000000, 0x40000100, 0x42080100, 0x42080100, 0x02000100,
    0x42080000, 0x40000100, 0x00000000, 0x42000000, 0x02080100, 0x02000000,
    0x42000000, 0x00080100, 0x00080000, 0x42000100, 0x00000100, 0x02000000,
    0x40000000, 0x02080000, 0x42000100, 0x40080100, 0x02000100, 0x40000000,
    0x42080000, 0x02080100, 0x40080100, 0x00000100, 0x02000000, 0x42080000,
    0x42080100, 0x00080100, 0x42000000, 0x42080100, 0x02080000, 0x00000000,
    0x40080000, 0x42000000, 0x00080100, 0x02000100, 0x40000100, 0x00080000,
    0x00000000, 0x40080000, 0x02080100, 0x40000100 ]

def SB6 : List UInt32 :=
  [ 0x20000010, 0x20400000, 0x00004000, 0x20404010, 0x20400000, 0x00000010,
    0x20404010, 0x00400000, 0x20004000, 0x00404010, 0x00400000, 0x20000010,
    0x00400010, 0x20004000, 0x20000000, 0x00004010, 0x00000000, 0x00400010,
    0x20004010, 0x00004000, 0x00404000, 0x20004010, 0x00000010, 0x20400010,
    0x20400010, 0x00000000, 0x00404010, 0x20404000, 0x00004010, 0x00404000,
    0x20404000, 0x20000000, 0x20004000, 0x00000010, 0x20400010, 0x00404000,
    0x20404010, 0x00400000, 0x00004010, 0x20000010, 0x00400000, 0x20004000,
    0x20000000, 0x00004010, 0x20000010, 0x20404010, 0x00404000, 0x20400000,
    0x00404010, 0x20404000, 0x00000000, 0x20400010, 0x00000010, 0x00004000,
    0x20400000, 0x00404010, 0x00004000, 0x00400010, 0x20004010, 0x00000000,
    0x20404000, 0x20000000, 0x00400010, 0x20004010 ]

def SB7 : List UInt32 :=
  [ 0x00200000, 0x04200002, 0x04000802, 0x00000000, 0x00000800, 0x04000802,
    0x00200802, 0x04200800, 0x04200802, 0x00200000, 0x00000000, 0x04000002,
    0x00000002, 0x04000000, 0x04200002, 0x00000802, 0x04000800, 0x00200802,
    0x00200002, 0x04000800, 0x04000002, 0x04200000, 0x04200800, 0x00200002,
    0x04200000, 0x00000800, 0x00000802, 0x04200802, 0x00200800, 0x00000002,
    0x04000000, 0x00200800, 0x04000000, 0x00200800, 0x00200000, 0x04000802,
    0x04000802, 0x04200002, 0x04200002, 0x00000002, 0x00200002, 0x04000000,
    0x04000800, 0x00200000, 0x04200800, 0x00000802, 0x00200802, 0x04200800,
    0x00000802, 0x04000002, 0x04200802, 0x04200000, 0x00200800, 0x00000000,
    0x00000002, 0x04200802, 0x00000000, 0x00200802, 0x04200000, 0x00000800,
    0x04000002, 0x04000800, 0x00000800, 0x00200002 ]

def SB8 : List UInt32 :=
  [ 0x10001040, 0x00001000, 0x00040000, 0x10041040, 0x10000000, 0x10001040,
    0x00000040, 0x10000000, 0x00040040, 0x10040000, 0x10041040, 0x00041000,
    0x10041000, 0x00041040, 0x00001000, 0x00000040, 0x10040000, 0x10000040,
    0x10001000, 0x00001040, 0x00041000, 0x00040040, 0x10040040, 0x10041000,
    0x00001040, 0x00000000, 0x00000000, 0x10040040, 0x10000040, 0x10001000,
    0x00041040, 0x00040000, 0x00041040, 0x00040000, 0x10041000, 0x00001000,
    0x00000040, 0x10040040, 0x00001000, 0x00041040, 0x10001000, 0x00000040,
    0x10000040, 0x10040000, 0x10040040, 0x10000000, 0x00040000, 0x10001040,
    0x00000000, 0x10041040, 0x00040040, 0x10000040, 0x10040000, 0x10001000,
    0x10001040, 0x00000000, 0x10041040, 0x00041000, 0x00041000, 0x00001040,
    0x00001040, 0x00040040, 0x10000000, 0x10041000 ]

def LHs : List UInt32 :=
  [ 0x00000000, 0x00000001, 0x00000100, 0x00000101, 0x00010000, 0x00010001,
    0x00010100, 0x00010101, 0x01000000, 0x01000001, 0x01000100, 0x01000101,
    0x01010000, 0x01010001, 0x01010100, 0x01010101 ]

def RHs : List UInt32 :=
  [ 0x00000000, 0x01000000, 0x00010000, 0x01010000, 0x00000100, 0x01000100,
    0x00010100, 0x01010100, 0x00000001, 0x01000001, 0x00010001, 0x01010001,
    0x00000101, 0x01000101, 0x00010101, 0x01010101 ]

/-! ## One block -/

/-- `GET_UINT32` -/
def getUint32 (b : List UInt8) (i : Nat) : UInt32 :=
  (b.getD i 0).toUInt32 <<< 24 ||| (b.getD (i + 1) 0).toUInt32 <<< 16 |||
    (b.getD (i + 2) 0).toUInt32 <<< 8 ||| (b.getD (i + 3) 0).toUInt32

/-- `PUT_UINT32` -/
def putUint32 (n : UInt32) : List UInt8 :=
  [(n >>> 24).toUInt8, (n >>> 16).toUInt8, (n >>> 8).toUInt8, n.toUInt8]

/-- The bits of `mask` in `b` change places with those `n` higher in `a`. -/
def exchange (n mask a b : UInt32) : UInt32 × UInt32 :=
  let t := ((a >>> n) ^^^ b) &&& mask
  (a ^^^ (t <<< n), b ^^^ t)

/-- `DES_IP` -/
def desIP (x y : UInt32) : UInt32 × UInt32 :=
  let (x, y) := exchange 4 0x0F0F0F0F x y
  let (x, y) := exchange 16 0x0000FFFF x y
  let (y, x) := exchange 2 0x33333333 y x
  let (y, x) := exchange 8 0x00FF00FF y x
  let y := (y <<< 1) ||| (y >>> 31)
  let (x, y) := exchange 0 0xAAAAAAAA x y
  let x := (x <<< 1) ||| (x >>> 31)
  (x, y)

/-- `DES_FP` -/
def desFP (x y : UInt32) : UInt32 × UInt32 :=
  let x := (x <<< 31) ||| (x >>> 1)
  let (x, y) := exchange 0 0xAAAAAAAA x y
  let y := (y <<< 31) ||| (y >>> 1)
  let (y, x) := exchange 8 0x00FF00FF y x
  let (y, x) := exchange 2 0x33333333 y x
  let (x, y) := exchange 16 0x0000FFFF x y
  let (x, y) := exchange 4 0x0F0F0F0F x y
  (x, y)

def lookup (table : List UInt32) (t : UInt32) : UInt32 := table.getD (t &&& 0x3F).toNat 0

/-- What `DES_ROUND` adds to `Y`. -/
def desRound (sk : UInt32 × UInt32) (x : UInt32) : UInt32 :=
  let t := sk.1 ^^^ x
  let even := lookup SB8 t ^^^ lookup SB6 (t >>> 8) ^^^ lookup SB4 (t >>> 16) ^^^
    lookup SB2 (t >>> 24)
  let t := sk.2 ^^^ ((x <<< 28) ||| (x >>> 4))
  let odd := lookup SB7 t ^^^ lookup SB5 (t >>> 8) ^^^ lookup SB3 (t >>> 16) ^^^
    lookup SB1 (t >>> 24)
  even ^^^ odd

/-- The two subkeys of each round. -/
abbrev Subkeys := List (UInt32 × UInt32)

/-- The sixteen rounds. The halves change places in each round as the arguments of the macro do. -/
def desCrypt (sk : Subkeys) (input : List UInt8) : List UInt8 :=
  let p := Feistel.network (· ^^^ ·) desRound sk
    (desIP (getUint32 input 0) (getUint32 input 4))
  let (y, x) := desFP p.2 p.1
  putUint32 y ++ putUint32 x

/-! ## The key -/

/-- The nibbles of `x` are looked up and moved to their places. -/
def half (table : List UInt32) (x : UInt32) (places : List (UInt32 × UInt32)) : UInt32 :=
  places.foldl (fun r s => r ||| (table.getD ((x >>> s.1) &&& 0xF).toNat 0 <<< s.2)) 0

/-- Permuted choice 1. -/
def permutedChoice1 (key : List UInt8) : UInt32 × UInt32 :=
  let x := getUint32 key 0
  let y := getUint32 key 4
  let (y, x) := exchange 4 0x0F0F0F0F y x
  let (y, x) := exchange 0 0x10101010 y x
  let x := half LHs x
    [(0, 3), (8, 2), (16, 1), (24, 0), (5, 7), (13, 6), (21, 5), (29, 4)]
  let y := half RHs y
    [(1, 3), (9, 2), (17, 1), (25, 0), (4, 7), (12, 6), (20, 5), (28, 4)]
  (x &&& 0x0FFFFFFF, y &&& 0x0FFFFFFF)

def rotate (i : Nat) (x : UInt32) : UInt32 :=
  if i < 2 ∨ i = 8 ∨ i = 15 then ((x <<< 1) ||| (x >>> 27)) &&& 0x0FFFFFFF
  else ((x <<< 2) ||| (x >>> 26)) &&& 0x0FFFFFFF

/-- The bits of each word that its mask shows. -/
def bits (words : List (UInt32 × UInt32)) : UInt32 :=
  words.foldl (fun r w => r ||| (w.1 &&& w.2)) 0

def evenSubkey (x y : UInt32) : UInt32 :=
  bits [
    (x <<< 4, 0x24000000), (x <<< 28, 0x10000000), (x <<< 14, 0x08000000),
    (x <<< 18, 0x02080000), (x <<< 6, 0x01000000), (x <<< 9, 0x00200000),
    (x >>> 1, 0x00100000), (x <<< 10, 0x00040000), (x <<< 2, 0x00020000),
    (x >>> 10, 0x00010000), (y >>> 13, 0x00002000), (y >>> 4, 0x00001000),
    (y <<< 6, 0x00000800), (y >>> 1, 0x00000400), (y >>> 14, 0x00000200),
    (y, 0x00000100), (y >>> 5, 0x00000020), (y >>> 10, 0x00000010),
    (y >>> 3, 0x00000008), (y >>> 18, 0x00000004), (y >>> 26, 0x00000002),
    (y >>> 24, 0x00000001)]

def oddSubkey (x y : UInt32) : UInt32 :=
  bits [
    (x <<< 15, 0x20000000), (x <<< 17, 0x10000000), (x <<< 10, 0x08000000),
    (x <<< 22, 0x04000000), (x >>> 2, 0x02000000), (x <<< 1, 0x01000000),
    (x <<< 16, 0x00200000), (x <<< 11, 0x00100000), (x <<< 3, 0x00080000),
    (x >>> 6, 0x00040000), (x <<< 15, 0x00020000), (x >>> 4, 0x00010000),
    (y >>> 2, 0x00002000), (y <<< 8, 0x00001000), (y >>> 14, 0x00000808),
    (y >>> 9, 0x00000400), (y, 0x00000200), (y <<< 7, 0x00000100),
    (y >>> 7, 0x00000020), (y >>> 3, 0x00000011), (y <<< 2, 0x00000004),
    (y >>> 21, 0x00000002)]

/-- The rounds from the `i`-th on. -/
def subkeysFrom : Nat → Nat → UInt32 → UInt32 → Subkeys
  | 0, _, _, _ => []
  | left + 1, i, x, y =>
      let x := rotate i x
      let y := rotate i y
      (evenSubkey x y, oddSubkey x y) :: subkeysFrom left (i + 1) x y

def desMainKs (key : List UInt8) : Subkeys :=
  let (x, y) := permutedChoice1 key
  subkeysFrom 16 0 x y

def desKey (key : List UInt8) : M Subkeys :=
  if key.length ≠ 8 then
    .fail (.error ("Invalid key size " ++ toString (toInt key.length) ++ ", need 8 bytes"))
  else .ok (desMainKs key)

/-! ## A whole text -/

/-- The first blocks of `text`. -/
def cryptBlocks (sk : Subkeys) : Nat → List UInt8 → List UInt8
  | 0, _ => []
  | n + 1, text => desCrypt sk (text.take 8) ++ cryptBlocks sk n (text.drop 8)

/-- `ldesencode`: the blocks of `text`, and one more with what is left of it. -/
def desencode (key text : List UInt8) : M (List UInt8) := do
  let sk ← desKey key
  let textsz := text.length
  if 2 ^ 31 ≤ textsz then .fail .size
  else
    let rest := text.drop (8 * (textsz / 8))
    let tail := (List.range 8).map fun j =>
      if j < rest.length then rest.getD j 0 else if j = rest.length then 0x80 else 0
    .ok (cryptBlocks sk (textsz / 8) text ++ desCrypt sk tail)

/-- The loop over the padding, with `i` one larger than in the source. The bound is compared as an
unsigned number, which -1 is not below. -/
def paddingLoop (buffer : List UInt8) : Nat → Nat → M Nat
  | 0, _ => .fail .outside
  | i + 1, padding =>
      if i < buffer.length - 8 then .ok padding
      else if buffer.getD i 0 = 0 then paddingLoop buffer i (padding + 1)
      else if buffer.getD i 0 = 0x80 then .ok padding
      else .fail (.error "Invalid des crypt text")

/-- `ldesdecode` -/
def desdecode (key text : List UInt8) : M (List UInt8) := do
  let sk ← desKey key
  let textsz := text.length
  if textsz % 8 ≠ 0 ∨ textsz = 0 then
    .fail (.error ("Invalid des crypt text length " ++ toString (toInt textsz)))
  else if 2 ^ 31 ≤ textsz then .fail .size
  else do
    let buffer := cryptBlocks sk.reverse (textsz / 8) text
    let padding ← paddingLoop buffer textsz 1
    if 8 < padding then .fail (.error "Invalid des crypt text")
    else .ok (buffer.take (textsz - padding))

example : desCrypt (desMainKs [0x13, 0x34, 0x57, 0x79, 0x9B, 0xBC, 0xDF, 0xF1])
    [0x01, 0x23, 0x45, 0x67, 0x89, 0xAB, 0xCD, 0xEF] =
      [0x85, 0xE8, 0x13, 0x54, 0x0F, 0x0A, 0xB4, 0x05] := by decide +kernel

/-! ## Words and bytes -/

@[simp] theorem length_putUint32 (n : UInt32) : (putUint32 n).length = 4 := rfl

theorem getUint32_append (n n' : UInt32) : getUint32 (putUint32 n ++ putUint32 n') 0 = n := by
  apply UInt32.toBitVec_inj.mp
  simp only [getUint32, putUint32, List.cons_append, List.getD_cons_zero, List.getD_cons_succ,
    UInt32.toBitVec_or, UInt32.toBitVec_shiftLeft, UInt8.toBitVec_toUInt32,
    UInt32.toBitVec_toUInt8, UInt32.toBitVec_shiftRight]
  apply BitVec.eq_of_getLsbD_eq
  intro i hi
  interval_cases i <;> simp

theorem getUint32_append_right (n n' : UInt32) :
    getUint32 (putUint32 n ++ putUint32 n') 4 = n' := by
  have hshift : getUint32 (putUint32 n ++ putUint32 n') 4 = getUint32 (putUint32 n' ++ []) 0 := rfl
  have hword := getUint32_append n' 0
  rw [hshift]
  exact hword

theorem putUint32_getUint32 (a b c d : UInt8) (rest : List UInt8) :
    putUint32 (getUint32 (a :: b :: c :: d :: rest) 0) = [a, b, c, d] := by
  simp only [getUint32, putUint32, List.getD_cons_zero, List.getD_cons_succ]
  refine congrArg₂ _ ?_ (congrArg₂ _ ?_ (congrArg₂ _ ?_ (congrArg₂ _ ?_ rfl)))
  all_goals
    apply UInt8.toBitVec_inj.mp
    simp only [UInt32.toBitVec_or, UInt32.toBitVec_shiftLeft, UInt8.toBitVec_toUInt32,
      UInt32.toBitVec_toUInt8, UInt32.toBitVec_shiftRight]
    apply BitVec.eq_of_getLsbD_eq
    intro i hi
    interval_cases i <;> simp

/-! ## The permutations -/

/-- A mask that loses no bit on its way up is put back by a second exchange. -/
theorem exchange_exchange {n mask : UInt32} (h : (mask <<< n) >>> n = mask) (a b : UInt32) :
    exchange n mask (exchange n mask a b).1 (exchange n mask a b).2 = (a, b) := by
  have hmask : ∀ i, mask.toBitVec.getLsbD i = true → n.toNat % 32 + i < 32 := by
    intro i hi
    rw [← h] at hi
    simp at hi
    omega
  have hsame : (((a ^^^ ((((a >>> n) ^^^ b) &&& mask) <<< n)) >>> n) ^^^
      (b ^^^ (((a >>> n) ^^^ b) &&& mask))) &&& mask = ((a >>> n) ^^^ b) &&& mask := by
    apply UInt32.toBitVec_inj.mp
    apply BitVec.eq_of_getLsbD_eq
    intro i hi
    simp
    cases hm : mask.toBitVec.getLsbD i with
    | false => simp
    | true =>
      simp [hmask i hm]
  simp only [exchange, hsame, UInt32.xor_assoc, UInt32.xor_self, UInt32.xor_zero]

theorem rotl_rotr (y : UInt32) :
    (((y <<< 1) ||| (y >>> 31)) <<< 31) ||| (((y <<< 1) ||| (y >>> 31)) >>> 1) = y := by
  apply UInt32.toBitVec_inj.mp
  apply BitVec.eq_of_getLsbD_eq
  intro i hi
  interval_cases i <;> simp

theorem rotr_rotl (y : UInt32) :
    (((y <<< 31) ||| (y >>> 1)) <<< 1) ||| (((y <<< 31) ||| (y >>> 1)) >>> 31) = y := by
  apply UInt32.toBitVec_inj.mp
  apply BitVec.eq_of_getLsbD_eq
  intro i hi
  interval_cases i <;> simp

theorem desFP_desIP (x y : UInt32) : desFP (desIP x y).1 (desIP x y).2 = (x, y) := by
  have hshift : ∀ n mask : UInt32, (mask <<< n) >>> n = mask → ∀ a b,
      exchange n mask (exchange n mask a b).1 (exchange n mask a b).2 = (a, b) :=
    fun n mask h a b => exchange_exchange h a b
  simp only [desIP, desFP, rotl_rotr, hshift 0 0xAAAAAAAA (by decide),
    hshift 8 0x00FF00FF (by decide), hshift 2 0x33333333 (by decide),
    hshift 16 0x0000FFFF (by decide), hshift 4 0x0F0F0F0F (by decide)]

theorem desIP_desFP (x y : UInt32) : desIP (desFP x y).1 (desFP x y).2 = (x, y) := by
  have hshift : ∀ n mask : UInt32, (mask <<< n) >>> n = mask → ∀ a b,
      exchange n mask (exchange n mask a b).1 (exchange n mask a b).2 = (a, b) :=
    fun n mask h a b => exchange_exchange h a b
  simp only [desIP, desFP, rotr_rotl, hshift 0 0xAAAAAAAA (by decide),
    hshift 8 0x00FF00FF (by decide), hshift 2 0x33333333 (by decide),
    hshift 16 0x0000FFFF (by decide), hshift 4 0x0F0F0F0F (by decide)]

/-! ## Blocks -/

theorem length_desCrypt (sk : Subkeys) (input : List UInt8) : (desCrypt sk input).length = 8 := by
  simp only [desCrypt, List.length_append, length_putUint32]

/-- The subkeys in the reverse order take the block back. -/
theorem desCrypt_reverse (sk : Subkeys) {input : List UInt8} (h : input.length = 8) :
    desCrypt sk.reverse (desCrypt sk input) = input := by
  have hadd : ∀ a b : UInt32, (a ^^^ b) ^^^ b = a := by
    intro a b
    rw [UInt32.xor_assoc, UInt32.xor_self, UInt32.xor_zero]
  have hback := Feistel.network_reverse (f := desRound) hadd sk
    (desIP (getUint32 input 0) (getUint32 input 4))
  rcases input with _ | ⟨a, _ | ⟨b, _ | ⟨c, _ | ⟨d, low⟩⟩⟩⟩
  case cons.cons.cons.cons =>
    rcases low with _ | ⟨e, _ | ⟨f, _ | ⟨g, _ | ⟨h', rest⟩⟩⟩⟩
    case cons.cons.cons.cons =>
      obtain rfl : rest = [] := List.eq_nil_of_length_eq_zero (by simpa using h)
      have hswap : ∀ p : UInt32 × UInt32, (p.2, p.1) = p.swap := fun _ => rfl
      have hlow : getUint32 [a, b, c, d, e, f, g, h'] 4 = getUint32 [e, f, g, h'] 0 := rfl
      rw [desCrypt, desCrypt]
      dsimp only
      rw [getUint32_append, getUint32_append_right, desIP_desFP, hswap, hback]
      simp only [Prod.fst_swap, Prod.snd_swap, desFP_desIP]
      rw [putUint32_getUint32, hlow, putUint32_getUint32]
      rfl
    all_goals simp at h
  all_goals simp at h

theorem length_cryptBlocks (sk : Subkeys) (n : Nat) (text : List UInt8) :
    (cryptBlocks sk n text).length = 8 * n := by
  induction n generalizing text with
  | zero => rfl
  | succ n ih =>
      rw [cryptBlocks, List.length_append, length_desCrypt, ih]
      omega

theorem cryptBlocks_reverse (sk : Subkeys) {n : Nat} {text : List UInt8}
    (h : text.length = 8 * n) : cryptBlocks sk.reverse n (cryptBlocks sk n text) = text := by
  induction n generalizing text with
  | zero => exact (List.eq_nil_of_length_eq_zero (by simpa using h)).symm
  | succ n ih =>
      have hblock : (text.take 8).length = 8 := by
        rw [List.length_take]
        omega
      have hrest : (text.drop 8).length = 8 * n := by
        rw [List.length_drop]
        omega
      have htake : (desCrypt sk (text.take 8) ++ cryptBlocks sk n (text.drop 8)).take 8 =
          desCrypt sk (text.take 8) := List.take_left' (length_desCrypt sk (text.take 8))
      have hdrop : (desCrypt sk (text.take 8) ++ cryptBlocks sk n (text.drop 8)).drop 8 =
          cryptBlocks sk n (text.drop 8) := List.drop_left' (length_desCrypt sk (text.take 8))
      rw [cryptBlocks, cryptBlocks, htake, hdrop, desCrypt_reverse sk hblock, ih hrest,
        List.take_append_drop]

theorem cryptBlocks_append (sk : Subkeys) {n : Nat} {text : List UInt8}
    (h : text.length = 8 * n) (tail : List UInt8) (m : Nat) :
    cryptBlocks sk (n + m) (text ++ tail) = cryptBlocks sk n text ++ cryptBlocks sk m tail := by
  induction n generalizing text with
  | zero =>
      obtain rfl : text = [] := List.eq_nil_of_length_eq_zero (by simpa using h)
      rw [Nat.zero_add]
      rfl
  | succ n ih =>
      have hrest : (text.drop 8).length = 8 * n := by
        rw [List.length_drop]
        omega
      have htake : (text ++ tail).take 8 = text.take 8 := List.take_append_of_le_length (by omega)
      have hdrop : (text ++ tail).drop 8 = text.drop 8 ++ tail :=
        List.drop_append_of_le_length (by omega)
      rw [Nat.add_right_comm, cryptBlocks, cryptBlocks, htake, hdrop, ih hrest, List.append_assoc]

/-! ## The padding -/

def padded (text : List UInt8) : List UInt8 :=
  text ++ 0x80 :: List.replicate (7 - text.length % 8) 0

theorem length_padded (text : List UInt8) :
    (padded text).length = 8 * (text.length / 8 + 1) := by
  rw [padded, List.length_append, List.length_cons, List.length_replicate]
  omega

/-- The last block of `ldesencode`. -/
theorem tail_eq {rest : List UInt8} (h : rest.length < 8) :
    ((List.range 8).map fun j =>
      if j < rest.length then rest.getD j 0 else if j = rest.length then 0x80 else 0) =
      rest ++ 0x80 :: List.replicate (7 - rest.length) 0 := by
  apply List.ext_getElem
  · simp only [List.length_map, List.length_range, List.length_append, List.length_cons,
      List.length_replicate]
    omega
  · intro j hj hj'
    simp only [List.getElem_map, List.getElem_range]
    by_cases hlt : j < rest.length
    · rw [if_pos hlt, List.getElem_append_left hlt, List.getD_eq_getElem _ _ hlt]
    · rw [if_neg hlt, List.getElem_append_right (by omega)]
      by_cases heq : j = rest.length
      · subst heq
        simp only [if_true, Nat.sub_self, List.getElem_cons_zero]
      · have hbehind : ∃ i, j - rest.length = i + 1 := ⟨j - rest.length - 1, by omega⟩
        obtain ⟨i, hi⟩ := hbehind
        simp only [if_neg heq, hi, List.getElem_cons_succ, List.getElem_replicate]

theorem desencode_eq {key text : List UInt8} {sk : Subkeys} (hkey : desKey key = .ok sk)
    (h : text.length < 2 ^ 31) :
    desencode key text = .ok (cryptBlocks sk (text.length / 8 + 1) (padded text)) := by
  have hrest : (text.drop (8 * (text.length / 8))).length = text.length % 8 := by
    rw [List.length_drop]
    omega
  have hwhole : (text.take (8 * (text.length / 8))).length = 8 * (text.length / 8) := by
    rw [List.length_take]
    omega
  have hblocks := cryptBlocks_append sk hwhole (text.drop (8 * (text.length / 8))) 0
  rw [List.take_append_drop, Nat.add_zero] at hblocks
  have hpadded : padded text = text.take (8 * (text.length / 8)) ++
      (text.drop (8 * (text.length / 8)) ++
        0x80 :: List.replicate (7 - text.length % 8) 0) := by
    rw [padded, ← List.append_assoc, List.take_append_drop]
  have htail : (text.drop (8 * (text.length / 8)) ++
      0x80 :: List.replicate (7 - text.length % 8) 0).length = 8 := by
    rw [List.length_append, hrest, List.length_cons, List.length_replicate]
    omega
  unfold desencode
  rw [hkey, Outcome.ok_bind]
  dsimp only
  rw [if_neg (by omega), tail_eq (by omega), hrest, hpadded, cryptBlocks_append sk hwhole, hblocks]
  simp only [cryptBlocks, List.append_nil]
  rw [List.take_of_length_le (Nat.le_of_eq htail)]

/-- The zeros at the end of a list, or `n` of them. -/
theorem zeros_or (n : Nat) {b : List UInt8} (h : n ≤ b.length) :
    (∃ front, b = front ++ List.replicate n 0) ∨
      ∃ front c k, k < n ∧ c ≠ 0 ∧ b = front ++ c :: List.replicate k 0 := by
  induction n with
  | zero => exact .inl ⟨b, (List.append_nil b).symm⟩
  | succ n ih =>
      rcases ih (by omega) with ⟨front, hb⟩ | ⟨front, c, k, hk, hc, hb⟩
      · rcases List.eq_nil_or_concat front with hnil | ⟨front', c, hfront⟩
        · rw [hb, hnil, List.nil_append, List.length_replicate] at h
          omega
        · rw [hfront, List.concat_eq_append, List.append_assoc, List.singleton_append] at hb
          by_cases hc : c = 0
          · exact .inl ⟨front', by rw [hb, hc, List.replicate_succ]⟩
          · exact .inr ⟨front', c, n, by omega, hc, hb⟩
      · exact .inr ⟨front, c, k, by omega, hc, hb⟩

theorem paddingLoop_zeros {k : Nat} (hk : k ≤ 8) (front : List UInt8)
    (h : 8 ≤ front.length + k) :
    paddingLoop (front ++ List.replicate k 0) (front.length + k) 1 =
      paddingLoop (front ++ List.replicate k 0) front.length (k + 1) := by
  induction k generalizing front with
  | zero => rfl
  | succ k ih =>
      have hsplit : front ++ List.replicate (k + 1) 0 =
          (front ++ [0]) ++ List.replicate k (0 : UInt8) := by
        rw [List.append_assoc, List.replicate_succ, List.singleton_append]
      have hlen : (front ++ [(0 : UInt8)]).length = front.length + 1 := by simp
      have hstart := ih (by omega) (front ++ [0]) (by omega)
      have hzero : (front ++ List.replicate (k + 1) (0 : UInt8)).getD front.length 0 = 0 := by
        simp
      have hbound : ¬ front.length < (front ++ List.replicate (k + 1) (0 : UInt8)).length - 8 := by
        rw [List.length_append, List.length_replicate]
        omega
      rw [← hsplit, hlen] at hstart
      rw [← Nat.add_assoc, Nat.add_right_comm, hstart, paddingLoop, if_neg hbound, if_pos hzero]

theorem paddingLoop_stop {k : Nat} {c : UInt8} (hk : k < 8) (hc : c ≠ 0) (front : List UInt8)
    (h : 8 ≤ front.length + (k + 1)) :
    paddingLoop (front ++ c :: List.replicate k 0) (front.length + (k + 1)) 1 =
      if c = 0x80 then .ok (k + 1) else .fail (.error "Invalid des crypt text") := by
  have hsplit : front ++ c :: List.replicate k 0 = (front ++ [c]) ++ List.replicate k 0 := by
    rw [List.append_assoc, List.singleton_append]
  have hlen : (front ++ [c]).length = front.length + 1 := by simp
  have hstart := paddingLoop_zeros (Nat.le_of_lt hk) (front ++ [c]) (by omega)
  have hbyte : (front ++ c :: List.replicate k 0).getD front.length 0 = c := by simp
  have hbound : ¬ front.length < (front ++ c :: List.replicate k (0 : UInt8)).length - 8 := by
    rw [List.length_append, List.length_cons, List.length_replicate]
    omega
  rw [← hsplit, hlen] at hstart
  rw [Nat.add_comm k 1, ← Nat.add_assoc, hstart, paddingLoop, if_neg hbound, hbyte, if_neg hc,
    Nat.add_comm 1 k]

/-- Padding of more than eight bytes is not accepted, whether or not the loop finds its end. -/
theorem paddingLoop_long (front : List UInt8) :
    paddingLoop (front ++ List.replicate 8 0) (front.length + 8) 1 =
      if front = [] then .fail .outside else .ok 9 := by
  rw [paddingLoop_zeros (Nat.le_refl 8) front (by omega)]
  rcases List.eq_nil_or_concat front with rfl | ⟨front', c, rfl⟩
  · rfl
  · have hlen : (front' ++ [c]).length = front'.length + 1 := by simp
    have hbound : front'.length < (front' ++ [c] ++ List.replicate 8 (0 : UInt8)).length - 8 := by
      rw [List.length_append, hlen, List.length_replicate]
      omega
    rw [List.concat_eq_append, hlen, paddingLoop, if_pos hbound, if_neg (by simp)]

/-! ## Decoding what was encoded -/

theorem desdecode_eq {key text : List UInt8} {sk : Subkeys} {n : Nat}
    (hkey : desKey key = .ok sk) (h : text.length < 2 ^ 31) (hn : text.length = 8 * (n + 1)) :
    desdecode key text =
      (paddingLoop (cryptBlocks sk.reverse (n + 1) text) (8 * (n + 1)) 1 >>= fun padding =>
        if 8 < padding then .fail (.error "Invalid des crypt text")
        else .ok ((cryptBlocks sk.reverse (n + 1) text).take (8 * (n + 1) - padding))) := by
  have hblocks : 8 * (n + 1) / 8 = n + 1 := by omega
  unfold desdecode
  rw [hkey, Outcome.ok_bind]
  dsimp only
  rw [if_neg (by omega), if_neg (by omega), hn, hblocks]

theorem desdecode_desencode {key text : List UInt8} {sk : Subkeys} (hkey : desKey key = .ok sk)
    (h : 8 * (text.length / 8 + 1) < 2 ^ 31) :
    desdecode key (cryptBlocks sk (text.length / 8 + 1) (padded text)) = .ok text := by
  have hlen := length_cryptBlocks sk (text.length / 8 + 1) (padded text)
  have hback := cryptBlocks_reverse sk (length_padded text)
  have hpadding : paddingLoop (padded text) (8 * (text.length / 8 + 1)) 1 =
      .ok (7 - text.length % 8 + 1) := by
    have hstop := paddingLoop_stop (k := 7 - text.length % 8) (c := 0x80) (by omega) (by decide)
      text (by omega)
    rw [if_pos rfl, show text.length + (7 - text.length % 8 + 1) = 8 * (text.length / 8 + 1) by
      omega] at hstop
    exact hstop
  rw [desdecode_eq hkey (hlen ▸ h) hlen, hback, hpadding, Outcome.ok_bind, if_neg (by omega),
    padded, show 8 * (text.length / 8 + 1) - (7 - text.length % 8 + 1) = text.length by omega,
    List.take_left]

/-- What `ldesdecode` does with the end of its buffer. -/
theorem desdecode_buffer {key text : List UInt8} {sk : Subkeys} {n : Nat}
    (hkey : desKey key = .ok sk) (h : text.length < 2 ^ 31) (hn : text.length = 8 * (n + 1)) :
    (∃ front, cryptBlocks sk.reverse (n + 1) text = padded front ∧
        desdecode key text = .ok front) ∨
      (∃ front, cryptBlocks sk.reverse (n + 1) text = front ++ List.replicate 8 0 ∧
        desdecode key text =
          if front = [] then .fail .outside else .fail (.error "Invalid des crypt text")) ∨
      ∃ front c k, c ≠ 0 ∧ c ≠ 0x80 ∧ k < 8 ∧
        cryptBlocks sk.reverse (n + 1) text = front ++ c :: List.replicate k 0 ∧
        desdecode key text = .fail (.error "Invalid des crypt text") := by
  have hlen := length_cryptBlocks sk.reverse (n + 1) text
  rw [desdecode_eq hkey h hn]
  generalize cryptBlocks sk.reverse (n + 1) text = buffer at hlen
  rcases zeros_or 8 (b := buffer) (by omega) with ⟨front, rfl⟩ | ⟨front, c, k, hk, hc, rfl⟩
  · rw [List.length_append, List.length_replicate] at hlen
    refine .inr (.inl ⟨front, rfl, ?_⟩)
    rw [← hlen, paddingLoop_long]
    by_cases hfront : front = []
    · rw [if_pos hfront, if_pos hfront]
      rfl
    · rw [if_neg hfront, if_neg hfront, Outcome.ok_bind, if_pos (by decide)]
  · rw [List.length_append, List.length_cons, List.length_replicate] at hlen
    rw [← hlen, paddingLoop_stop hk hc front (by omega)]
    by_cases h80 : c = 0x80
    · have hpad : k = 7 - front.length % 8 := by omega
      refine .inl ⟨front, by rw [h80, padded, ← hpad], ?_⟩
      rw [if_pos h80, Outcome.ok_bind, if_neg (by omega), Nat.add_sub_cancel, List.take_left]
    · refine .inr (.inr ⟨front, c, k, hc, h80, hk, rfl, ?_⟩)
      rw [if_neg h80]
      rfl

theorem desKey_eq (key : List UInt8) : (key.length = 8 ∧ desKey key = .ok (desMainKs key)) ∨
    (key.length ≠ 8 ∧ ∃ message, desKey key = .fail (.error message)) := by
  unfold desKey
  by_cases h : key.length = 8
  · exact .inl ⟨h, if_neg (not_not.mpr h)⟩
  · exact .inr ⟨h, _, if_pos h⟩

/-- A text that is not a number of blocks. -/
theorem desdecode_length {key text : List UInt8} {sk : Subkeys} (hkey : desKey key = .ok sk)
    (h : text.length % 8 ≠ 0 ∨ text.length = 0) :
    ∃ message, desdecode key text = .fail (.error message) := by
  unfold desdecode
  rw [hkey, Outcome.ok_bind]
  dsimp only
  rw [if_pos h]
  exact ⟨_, rfl⟩

theorem desencode_eq_ok_iff {key text plain : List UInt8} {sk : Subkeys}
    (hkey : desKey key = .ok sk) (h : text.length < 2 ^ 31) :
    desencode key plain = .ok text ↔
      text = cryptBlocks sk (plain.length / 8 + 1) (padded plain) := by
  by_cases hlong : 2 ^ 31 ≤ plain.length
  · have hfail : desencode key plain = .fail .size := by
      unfold desencode
      rw [hkey, Outcome.ok_bind]
      dsimp only
      rw [if_pos hlong]
    constructor
    · intro hok
      rw [hfail] at hok
      cases hok
    · intro htext
      have hlen := length_cryptBlocks sk (plain.length / 8 + 1) (padded plain)
      rw [← htext] at hlen
      omega
  · rw [desencode_eq hkey (by omega)]
    constructor
    · intro hok
      exact (Outcome.ok.inj hok).symm
    · intro htext
      rw [htext]

theorem cryptBlocks_eq_iff {sk : Subkeys} {n : Nat} {text buffer : List UInt8}
    (hbuffer : buffer.length = 8 * n) (h : text.length = 8 * n) :
    cryptBlocks sk.reverse n text = buffer ↔ text = cryptBlocks sk n buffer := by
  constructor
  · intro heq
    have hback := cryptBlocks_reverse sk.reverse h
    rw [List.reverse_reverse, heq] at hback
    exact hback.symm
  · intro heq
    rw [heq, cryptBlocks_reverse sk hbuffer]

/-- The plain texts that `ldesdecode` gives. -/
theorem desdecode_eq_ok_iff {key text plain : List UInt8} {sk : Subkeys}
    (hkey : desKey key = .ok sk) (h : text.length < 2 ^ 31) :
    desdecode key text = .ok plain ↔
      text = cryptBlocks sk (plain.length / 8 + 1) (padded plain) := by
  constructor
  · intro hok
    by_cases hwhole : text.length % 8 ≠ 0 ∨ text.length = 0
    · obtain ⟨message, hfail⟩ := desdecode_length hkey hwhole
      rw [hfail] at hok
      cases hok
    have hn : text.length = 8 * (text.length / 8 - 1 + 1) := by omega
    rcases desdecode_buffer hkey h hn with
      ⟨front, hb, hres⟩ | ⟨front, -, hres⟩ | ⟨_, _, _, _, _, _, _, hres⟩
    · obtain rfl := Outcome.ok.inj (hres.symm.trans hok)
      have hlen := length_cryptBlocks sk.reverse (text.length / 8 - 1 + 1) text
      rw [hb, length_padded] at hlen
      have hblocks : text.length / 8 - 1 + 1 = front.length / 8 + 1 := by omega
      rw [hblocks] at hb hn
      exact (cryptBlocks_eq_iff (length_padded front) hn).mp hb
    · rw [hres] at hok
      split at hok <;> cases hok
    · rw [hres] at hok
      cases hok
  · intro htext
    have hlen := length_cryptBlocks sk (plain.length / 8 + 1) (padded plain)
    rw [← htext] at hlen
    rw [htext, desdecode_desencode hkey (by omega)]

/-- The text for which the loop runs out of the buffer. -/
theorem desdecode_eq_outside_iff {key text : List UInt8} {sk : Subkeys}
    (hkey : desKey key = .ok sk) (h : text.length < 2 ^ 31) :
    desdecode key text = .fail .outside ↔ text = desCrypt sk (List.replicate 8 0) := by
  have hone : desCrypt sk (List.replicate 8 0) = cryptBlocks sk 1 (List.replicate 8 0) := by
    simp [cryptBlocks]
  constructor
  · intro hout
    by_cases hwhole : text.length % 8 ≠ 0 ∨ text.length = 0
    · obtain ⟨message, hfail⟩ := desdecode_length hkey hwhole
      rw [hfail] at hout
      cases hout
    have hn : text.length = 8 * (text.length / 8 - 1 + 1) := by omega
    rcases desdecode_buffer hkey h hn with
      ⟨front, -, hres⟩ | ⟨front, hb, hres⟩ | ⟨_, _, _, _, _, _, _, hres⟩
    · rw [hres] at hout
      cases hout
    · rw [hres] at hout
      by_cases hfront : front = []
      · have hlen := length_cryptBlocks sk.reverse (text.length / 8 - 1 + 1) text
        rw [hb, hfront, List.nil_append, List.length_replicate] at hlen
        have hblocks : text.length / 8 - 1 + 1 = 1 := by omega
        rw [hblocks] at hb hn
        rw [hone]
        exact (cryptBlocks_eq_iff (by simp) hn).mp (by rw [hb, hfront, List.nil_append])
      · rw [if_neg hfront] at hout
        cases hout
    · rw [hres] at hout
      cases hout
  · intro htext
    have hlen : text.length = 8 * (0 + 1) := by rw [htext, length_desCrypt]
    have hb : cryptBlocks sk.reverse 1 text = List.replicate 8 0 :=
      (cryptBlocks_eq_iff (by simp) hlen).mpr (htext.trans hone)
    have hlong : paddingLoop (List.replicate 8 0) 8 1 = .fail .outside := paddingLoop_long []
    rw [desdecode_eq hkey h hlen, hb, hlong]
    rfl

/-- `ldesdecode` accepts what `ldesencode` makes of some text, and gives this text. It reads in
front of its buffer for the one block that eight zeros are encoded to. -/
theorem desdecode_exact (key text : List UInt8) (h : text.length < 2 ^ 31) :
    (∀ plain, desdecode key text = .ok plain ↔ desencode key plain = .ok text) ∧
      (desdecode key text = .fail .outside ↔
        key.length = 8 ∧ text = desCrypt (desMainKs key) (List.replicate 8 0)) := by
  rcases desKey_eq key with ⟨hlen, hkey⟩ | ⟨hlen, message, hkey⟩
  · refine ⟨fun plain => ?_, ?_⟩
    · rw [desdecode_eq_ok_iff hkey h, desencode_eq_ok_iff hkey h]
    · rw [desdecode_eq_outside_iff hkey h]
      exact ⟨fun htext => ⟨hlen, htext⟩, fun htext => htext.2⟩
  · have hdec : desdecode key text = .fail (.error message) := by
      unfold desdecode
      rw [hkey]
      rfl
    have henc : ∀ plain, desencode key plain = .fail (.error message) := by
      intro plain
      unfold desencode
      rw [hkey]
      rfl
    refine ⟨fun plain => ?_, ?_⟩
    · rw [hdec, henc]
      exact ⟨nofun, nofun⟩
    · rw [hdec]
      exact ⟨nofun, fun htext => absurd htext.1 hlen⟩

theorem desdecode_exact_sample :
    (∀ plain, desdecode [1, 2, 3, 4, 5, 6, 7, 8] [0, 0, 0, 0, 0, 0, 0, 0] = .ok plain ↔
        desencode [1, 2, 3, 4, 5, 6, 7, 8] plain = .ok [0, 0, 0, 0, 0, 0, 0, 0]) ∧
      (desdecode [1, 2, 3, 4, 5, 6, 7, 8] [0, 0, 0, 0, 0, 0, 0, 0] = .fail .outside ↔
        ([1, 2, 3, 4, 5, 6, 7, 8] : List UInt8).length = 8 ∧ [0, 0, 0, 0, 0, 0, 0, 0] =
          desCrypt (desMainKs [1, 2, 3, 4, 5, 6, 7, 8]) (List.replicate 8 0)) :=
  desdecode_exact [1, 2, 3, 4, 5, 6, 7, 8] [0, 0, 0, 0, 0, 0, 0, 0] (by decide)

end Jump.Skynet.Crypt
