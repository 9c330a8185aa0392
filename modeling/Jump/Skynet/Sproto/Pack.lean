import Jump.Core.Buffer

/-! # Packing

`sproto_pack` and `sproto_unpack` of `sproto.c`. The source is a list of the bytes that can be
read, of which the first `srcsz` are the ones to pack. A read behind the list and a write behind
the destination are faults. The sizes do not overflow an `int`.
-/

namespace Jump.Skynet.Sproto

open Jump.Core

/-- `n` bytes at `p`. -/
def read (mem : List UInt8) (p n : Nat) : Option (List UInt8) :=
  if p + n ≤ mem.length then some ((mem.drop p).take n) else none

/-! ## `sproto_pack` -/

structure SegState where
  header : Nat
  notzero : Nat
  buffer : Nat
  sz : Int
  des : Buffer

/-- The loop of `pack_seg`, at the byte `i` of the segment. -/
def segLoop : List UInt8 → Nat → SegState → Option SegState
  | [], _, s => some s
  | b :: src, i, s =>
    if b ≠ 0 then
      let s := { s with notzero := s.notzero + 1, header := s.header ||| 1 <<< i }
      if 0 < s.sz then
        (s.des.put s.buffer b).bind fun des =>
          segLoop src (i + 1) { s with des := des, buffer := s.buffer + 1, sz := s.sz - 1 }
      else segLoop src (i + 1) s
    else segLoop src (i + 1) s

/-- `pack_seg` -/
def packSeg (src : List UInt8) (buffer : Nat) (sz : Int) (n : Nat) (des : Buffer) :
    Option (Nat × Buffer) :=
  (segLoop src 0 ⟨0, 0, buffer + 1, sz - 1, des⟩).bind fun s =>
    let notzero := if (s.notzero = 7 ∨ s.notzero = 6) ∧ 0 < n then 8 else s.notzero
    if notzero = 8 then some (if 0 < n then 8 else 10, s.des)
    else if sz - 1 < 0 then some (notzero + 1, s.des)
    else (s.des.put buffer (UInt8.ofNat s.header)).map fun des => (notzero + 1, des)

/-- `write_ff` of the `n` bytes at `src`. -/
def writeFF (mem : List UInt8) (src des n : Nat) (d : Buffer) : Option Buffer :=
  let align8 := (n + 7) / 8 * 8
  (d.put des 0xff).bind fun d =>
  (d.put (des + 1) (UInt8.ofNat (align8 / 8 - 1))).bind fun d =>
  (read mem src n).bind fun bytes =>
  (d.putAll (des + 2) bytes).bind fun d =>
    d.putAll (des + 2 + n) (List.replicate (align8 - n) 0)

/-- The variables of the loop; `ffSrcstart` is an offset in the source, where every block starts
because a padded segment has a zero byte. -/
structure PackState where
  ffSrcstart : Nat
  ffDesstart : Nat
  ffN : Nat
  size : Nat
  buffer : Nat
  bufsz : Int
  des : Buffer

/-- The segment at `i`, padded in `tmp` if it is not whole. -/
def segment (mem : List UInt8) (srcsz i : Nat) : Option (List UInt8) :=
  let padding := i + 8 - srcsz
  if 0 < padding then
    (read mem i (8 - padding)).map fun src => src ++ List.replicate padding 0
  else read mem i 8

/-- What follows `pack_seg` in the loop. -/
def afterSeg (mem : List UInt8) (i n : Nat) (s : PackState) : Option PackState :=
  if n = 10 then
    -- first FF
    some { s with ffSrcstart := i, ffDesstart := s.buffer, ffN := 1 }
  else if n = 8 ∧ 0 < s.ffN then
    if s.ffN + 1 = 256 then
      if 0 ≤ s.bufsz then
        (writeFF mem s.ffSrcstart s.ffDesstart (256 * 8) s.des).map fun des =>
          { s with ffN := 0, des := des }
      else some { s with ffN := 0 }
    else some { s with ffN := s.ffN + 1 }
  else if 0 < s.ffN then
    if 0 ≤ s.bufsz then
      (writeFF mem s.ffSrcstart s.ffDesstart (s.ffN * 8) s.des).map fun des =>
        { s with ffN := 0, des := des }
    else some { s with ffN := 0 }
  else some s

def packStep (mem : List UInt8) (srcsz i : Nat) (s : PackState) : Option PackState :=
  (segment mem srcsz i).bind fun src =>
  (packSeg src s.buffer s.bufsz s.ffN s.des).bind fun r =>
  (afterSeg mem i r.1 { s with bufsz := s.bufsz - r.1, des := r.2 }).map fun s =>
    { s with buffer := s.buffer + r.1, size := s.size + r.1 }

/-- The loop from `i` on, for as many segments as there can be. -/
def packLoop (mem : List UInt8) (srcsz : Nat) : Nat → Nat → PackState → Option PackState
  | 0, _, s => some s
  | segs + 1, i, s =>
    if i < srcsz then (packStep mem srcsz i s).bind (packLoop mem srcsz segs (i + 8)) else some s

/-- What follows the loop. -/
def packEnd (mem : List UInt8) (srcsz : Nat) (s : PackState) : Option (Nat × Buffer) :=
  if 0 ≤ s.bufsz then
    if s.ffN = 1 then
      (writeFF mem s.ffSrcstart s.ffDesstart 8 s.des).map fun des => (s.size, des)
    else if 1 < s.ffN then
      (writeFF mem s.ffSrcstart s.ffDesstart (srcsz - s.ffSrcstart) s.des).map
        fun des => (s.size, des)
    else some (s.size, s.des)
  else some (s.size, s.des)

/-- The size that `sproto_pack` returns and the destination. -/
def sprotoPack (mem : List UInt8) (srcsz : Nat) (bytes : Bytes.Memory) (bufsz : Int) :
    Option (Nat × Buffer) :=
  (packLoop mem srcsz ((srcsz + 7) / 8) 0 ⟨0, 0, 0, 0, 0, bufsz, ⟨bufsz, bytes⟩⟩).bind
    (packEnd mem srcsz)

/-! ## `sproto_unpack` -/

/-- `malformed` is the return value -1. -/
inductive Stop where
  | fault
  | malformed
deriving DecidableEq

def orFault {α : Type} : Option α → Except Stop α
  | none => .error .fault
  | some a => .ok a

structure UnpackState where
  src : Nat
  srcsz : Int
  size : Nat
  buffer : Nat
  bufsz : Int
  des : Buffer

/-- A byte of the output. -/
def UnpackState.emit (s : UnpackState) (b : UInt8) : Except Stop UnpackState :=
  if 0 < s.bufsz then
    (orFault (s.des.put s.buffer b)).map fun des =>
      { s with des := des, bufsz := s.bufsz - 1, buffer := s.buffer + 1, size := s.size + 1 }
  else .ok { s with size := s.size + 1 }

/-- The loop over the bits of `header`, from the bit `i` on. The source is read only where there is
room for its byte. -/
def unpackBits (mem : List UInt8) (header : UInt8) :
    Nat → Nat → UnpackState → Except Stop UnpackState
  | 0, _, s => .ok s
  | bits + 1, i, s =>
    if header.toNat >>> i &&& 1 = 1 then
      if s.srcsz < 0 then .error .malformed
      else
        (if 0 < s.bufsz then orFault mem[s.src]? else .ok 0).bind fun b =>
        (s.emit b).bind fun s =>
          unpackBits mem header bits (i + 1) { s with src := s.src + 1, srcsz := s.srcsz - 1 }
    else (s.emit 0).bind (unpackBits mem header bits (i + 1))

/-- An FF block, behind its first byte. -/
def unpackFF (mem : List UInt8) (s : UnpackState) : Except Stop UnpackState :=
  if s.srcsz < 0 then .error .malformed
  else
    (orFault mem[s.src]?).bind fun b =>
      let n := (b.toNat + 1) * 8
      if s.srcsz < n + 1 then .error .malformed
      else
        let src := s.src + 1
        (if (n : Int) ≤ s.bufsz then
            (orFault (read mem src n)).bind fun bytes => orFault (s.des.putAll s.buffer bytes)
          else .ok s.des).map fun des =>
            ⟨src + n, s.srcsz - (n + 1), s.size + n, s.buffer + n, s.bufsz - n, des⟩

/-- The loop; every round takes a byte of the source. -/
def unpackLoop (mem : List UInt8) : Nat → UnpackState → Except Stop UnpackState
  | 0, s => .ok s
  | fuel + 1, s =>
    if 0 < s.srcsz then
      (orFault mem[s.src]?).bind fun header =>
        let s := { s with src := s.src + 1, srcsz := s.srcsz - 1 }
        (if header = 0xff then unpackFF mem s else unpackBits mem header 8 0 s).bind
          (unpackLoop mem fuel)
    else .ok s

/-- The size that `sproto_unpack` returns and the destination. -/
def sprotoUnpack (mem : List UInt8) (srcsz : Nat) (bytes : Bytes.Memory) (bufsz : Int) :
    Except Stop (Nat × Buffer) :=
  (unpackLoop mem srcsz ⟨0, srcsz, 0, 0, bufsz, ⟨bufsz, bytes⟩⟩).map fun s => (s.size, s.des)

end Jump.Skynet.Sproto
