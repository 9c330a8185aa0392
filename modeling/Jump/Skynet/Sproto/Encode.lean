import Jump.Core.Buffer
import Jump.Core.Bytes
import Jump.Core.Word
import Jump.Skynet.Sproto.Types

/-! # Encoding

`sproto_encode` of `sproto.c`. The buffer is a destination of bounded size, and a pointer is an
address in it; a write behind the buffer is a fault. The sizes do not overflow an `int`.
-/

namespace Jump.Skynet.Sproto

open Jump.Core

inductive Halt where
  /-- A write behind the buffer. -/
  | outside
  /-- Not a result of the source. -/
  | outOfFuel
deriving DecidableEq

/-- Where `args->value` points to: to a local variable, or into the buffer. -/
inductive Place where
  | number
  | buffer (p : Nat)

/-- `sproto_arg` without `ud`, of which the callback is a closure. -/
structure Arg where
  tagname : String
  tagid : Nat
  type : Kind
  subtype : Nat
  value : Place
  length : Int
  index : Nat
  mainindex : Int

/-- What a callback returns, the local variable and the buffer. -/
structure Reply where
  sz : Int
  number : UInt64
  d : Buffer

abbrev Callback := Arg → Buffer → Except Halt Reply

def write (d : Buffer) (p : Nat) (bytes : List UInt8) : Except Halt Buffer :=
  match d.putAll p bytes with
  | some d => .ok d
  | none => .error .outside

def fillSize (d : Buffer) (data : Nat) (sz : Int) : Except Halt (Int × Buffer) := do
  let d ← write d data (LittleEndian.encode 4 sz.toNat)
  .ok (sz + 4, d)

/-- `encode_integer` and `encode_uint64`, which differ in the width; the size is compared as a
`size_t`. -/
def encodeNumber (width v : Nat) (d : Buffer) (data : Nat) (size : Int) :
    Except Halt (Int × Buffer) :=
  if sizeOfInt size < 4 + width then .ok (-1, d)
  else do
    let d ← write d (data + 4) (LittleEndian.encode width v)
    fillSize d data width

def encodeInteger (v : Nat) (d : Buffer) (data : Nat) (size : Int) : Except Halt (Int × Buffer) :=
  encodeNumber 4 v d data size

def encodeUint64 (v : Nat) (d : Buffer) (data : Nat) (size : Int) : Except Halt (Int × Buffer) :=
  encodeNumber 8 v d data size

def encodeObject (cb : Callback) (args : Arg) (d : Buffer) (data : Nat) (size : Int) :
    Except Halt (Int × Buffer) :=
  if size < 4 then .ok (-1, d)
  else do
    let r ← cb { args with value := .buffer (data + 4), length := size - 4 } d
    if r.sz ≤ 0 then .ok (r.sz, r.d)
    else fillSize r.d data (if args.type = .string then r.sz - 1 else r.sz)

def u32Of (number : UInt64) : Nat := number.toNat % 2 ^ 32

def uint32ToUint64 (negative : Bool) (d : Buffer) (buffer : Nat) : Except Halt Buffer :=
  write d (buffer + 4) (List.replicate 4 (if negative then 0xff else 0))

/-- The loop that rearranges the numbers below `count`, the last one first. -/
def rearrange (header : Nat) : Nat → Buffer → Except Halt Buffer
  | 0, d => .ok d
  | i + 1, d => do
    let d ← write d (header + 1 + i * 8) (d.slice (header + 1 + i * 4) 4)
    let negative : Bool := d.bytes (header + 1 + i * 8 + 3) &&& 0x80 ≠ 0
    let d ← uint32ToUint64 negative d (header + 1 + i * 8)
    rearrange header i d

structure IntState where
  d : Buffer
  buffer : Nat
  size : Int
  intlen : Nat
  index : Nat

/-- The numbers written so far made 64 bits wide, or `NULL`. -/
def widen (header : Nat) (s : IntState) : Except Halt (Option IntState) :=
  if s.intlen = 4 then
    let size := s.size - ((s.index - 1) * 4 : Nat)
    if sizeOfInt size < 8 then .ok none
    else do
      let d ← rearrange header (s.index - 1) s.d
      .ok (some ⟨d, s.buffer + (s.index - 1) * 4, size, 8, s.index⟩)
  else .ok (some s)

/-- A 32-bit number among numbers of `intlen` bytes. -/
def putDword (d : Buffer) (buffer intlen v : Nat) : Except Halt Buffer := do
  let d ← write d buffer (LittleEndian.encode 4 v)
  if intlen = 8 then uint32ToUint64 (2 ^ 31 ≤ v) d buffer else .ok d

/-- The loop of `encode_integer_array`. -/
def integerLoop (cb : Callback) (args : Arg) (header : Nat) :
    Nat → IntState → Except Halt (Option IntState)
  | 0, _ => .error .outOfFuel
  | fuel + 1, s => do
    let r ← cb { args with value := .number, length := 8, index := s.index } s.d
    if r.sz < 0 then .ok none
    else if r.sz = 0 then .ok (some { s with d := r.d })
    else if sizeOfInt s.size < 8 then .ok none
    else if r.sz = 4 then do
      let d ← putDword r.d s.buffer s.intlen (u32Of r.number)
      integerLoop cb args header fuel
        ⟨d, s.buffer + s.intlen, s.size - s.intlen, s.intlen, s.index + 1⟩
    else if r.sz ≠ 8 then .ok none
    else do
      match ← widen header { s with d := r.d } with
      | none => .ok none
      | some s => do
        let d ← write s.d s.buffer (LittleEndian.encode 8 r.number.toNat)
        integerLoop cb args header fuel
          ⟨d, s.buffer + s.intlen, s.size - s.intlen, s.intlen, s.index + 1⟩

/-- `encode_integer_array`: the end of the numbers, or `NULL`. Every round takes four bytes, so
that the size bounds their number. -/
def encodeIntegerArray (cb : Callback) (args : Arg) (d : Buffer) (buffer : Nat) (size : Int) :
    Except Halt (Option (Nat × Buffer)) :=
  if size < 1 then .ok none
  else do
    match ← integerLoop cb args buffer (size.toNat + 1) ⟨d, buffer + 1, size - 1, 4, 1⟩ with
    | none => .ok none
    | some s =>
      if s.buffer = buffer + 1 then .ok (some (buffer, s.d))
      else do
        let d ← write s.d buffer [UInt8.ofNat s.intlen]
        .ok (some (s.buffer, d))

/-- The loop of `encode_array` over booleans: the end of the array, or `none` for -1. -/
def booleanLoop (cb : Callback) (args : Arg) :
    Nat → Nat → Buffer → Nat → Int → Except Halt (Option (Nat × Buffer))
  | 0, _, _, _, _ => .error .outOfFuel
  | fuel + 1, index, d, buffer, size => do
    let r ← cb { args with value := .number, length := 4, index := index } d
    if r.sz < 0 then .ok none
    else if r.sz = 0 then .ok (some (buffer, r.d))
    else if size < 1 then .ok none
    else do
      let d ← write r.d buffer [if u32Of r.number = 0 then 0 else 1]
      booleanLoop cb args fuel (index + 1) d (buffer + 1) (size - 1)

/-- The loop of `encode_array` over strings and structs. -/
def objectLoop (cb : Callback) (args : Arg) :
    Nat → Nat → Buffer → Nat → Int → Except Halt (Option (Nat × Buffer))
  | 0, _, _, _, _ => .error .outOfFuel
  | fuel + 1, index, d, buffer, size =>
    if size < 4 then .ok none
    else do
      let size := size - 4
      let r ← cb { args with value := .buffer (buffer + 4), length := size, index := index } d
      if r.sz = 0 then .ok (some (buffer, r.d))
      else if r.sz < 0 then .ok none
      else do
        let sz := if args.type = .string then r.sz - 1 else r.sz
        let (_, d) ← fillSize r.d buffer sz
        objectLoop cb args fuel (index + 1) d (buffer + 4 + sz.toNat) (size - sz)

/-- The elements of an array in `encode_array`. -/
def encodeElements (cb : Callback) (args : Arg) (fuel : Nat) (d : Buffer) (buffer : Nat)
    (size : Int) : Except Halt (Option (Nat × Buffer)) :=
  match args.type with
  | .integer => encodeIntegerArray cb args d buffer size
  | .boolean => booleanLoop cb args fuel 1 d buffer size
  | _ => objectLoop cb args fuel 1 d buffer size

def encodeArray (cb : Callback) (args : Arg) (d : Buffer) (data : Nat) (size : Int) :
    Except Halt (Int × Buffer) :=
  if size < 4 then .ok (-1, d)
  else do
    match ← encodeElements cb args (size.toNat + 1) d (data + 4) (size - 4) with
    | none => .ok (-1, d)
    | some (buffer, d) =>
      let sz : Int := buffer - (data + 4 : Nat)
      if sz = 0 then .ok (0, d) else fillSize d data sz

/-- What the loop of `sproto_encode` does for a field before it writes the record: `sz`, `value`
and the buffer. -/
def encodeField (cb : Callback) (f : Field) (d : Buffer) (data : Nat) (size : Int) :
    Except Halt (Int × Nat × Buffer) :=
  let args : Arg := ⟨f.name, f.tag, f.kind, f.st, .number, 0, 0, f.key⟩
  if f.array then do
    let (sz, d) ← encodeArray cb args d data size
    .ok (sz, 0, d)
  else
    match f.kind with
    | .integer | .boolean => do
      let r ← cb { args with length := 8 } d
      if r.sz < 0 then .ok (-1, 0, r.d)
      else if r.sz = 0 then .ok (0, 0, r.d)
      else if r.sz = 4 then
        if u32Of r.number < 0x7fff then .ok (2, (u32Of r.number + 1) * 2, r.d)
        else do
          let (sz, d) ← encodeInteger (u32Of r.number) r.d data size
          .ok (sz, 0, d)
      else if r.sz = 8 then do
        let (sz, d) ← encodeUint64 r.number.toNat r.d data size
        .ok (sz, 0, d)
      else .ok (-1, 0, r.d)
    | .struct | .string => do
      let (sz, d) ← encodeObject cb args d data size
      .ok (sz, 0, d)

structure EncodeState where
  d : Buffer
  data : Nat
  size : Int
  index : Nat
  lasttag : Int

/-- The record of a field of which `sz` bytes of data were written, or `none` for -1. -/
def putRecord (header : Nat) (f : Field) (sz : Int) (value : Nat) (d : Buffer) (s : EncodeState) :
    Except Halt (Option EncodeState) :=
  let data := if value = 0 then s.data + sz.toNat else s.data
  let size := if value = 0 then s.size - sz else s.size
  let record := header + 2 + 2 * s.index
  let tag := (f.tag : Int) - s.lasttag - 1
  if 0 < tag then
    let skip := (tag - 1) * 2 + 1
    if 0xffff < skip then .ok none
    else do
      let d ← write d record (LittleEndian.encode 2 skip.toNat)
      let d ← write d (record + 2) (LittleEndian.encode 2 value)
      .ok (some ⟨d, data, size, s.index + 2, f.tag⟩)
  else do
    let d ← write d record (LittleEndian.encode 2 value)
    .ok (some ⟨d, data, size, s.index + 1, f.tag⟩)

/-- The loop of `sproto_encode`, or `none` for -1. -/
def encodeLoop (cb : Callback) (header : Nat) :
    List Field → EncodeState → Except Halt (Option EncodeState)
  | [], s => .ok (some s)
  | f :: rest, s => do
    let (sz, value, d) ← encodeField cb f s.d s.data s.size
    if sz < 0 then .ok none
    else if 0 < sz then do
      match ← putRecord header f sz value d s with
      | none => .ok none
      | some s => encodeLoop cb header rest s
    else encodeLoop cb header rest { s with d := d }

/-- The `memmove` at the end of `sproto_encode`. -/
def moveData (st : SprotoType) (header index datasz : Nat) (d : Buffer) : Except Halt Buffer :=
  if index = st.maxn then .ok d
  else
    write d (header + 2 + index * 2) (d.slice (header + (2 + st.maxn * 2)) datasz)

/-- `sproto_encode` into the `size` bytes at `header`. -/
def sprotoEncode (st : SprotoType) (d : Buffer) (header : Nat) (size : Int) (cb : Callback) :
    Except Halt (Int × Buffer) :=
  let headerSz := 2 + st.maxn * 2
  if size < headerSz then .ok (-1, d)
  else do
    match ← encodeLoop cb header st.f ⟨d, header + headerSz, size - headerSz, 0, -1⟩ with
    | none => .ok (-1, d)
    | some s => do
      let d ← write s.d header (LittleEndian.encode 2 s.index)
      let datasz := s.data - (header + headerSz)
      let d ← moveData st header s.index datasz d
      .ok (2 + s.index * 2 + datasz, d)

end Jump.Skynet.Sproto
