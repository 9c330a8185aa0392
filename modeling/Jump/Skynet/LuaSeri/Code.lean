import Jump.Skynet.LuaSeri.Value

/-! # Serialisation of a message

`_luaseri_pack` and `_luaseri_unpack` of `lua-seri.c`. `Except.error` is a Lua error. The machine
is little-endian.
-/

namespace Jump.Skynet.LuaSeri

open Jump.Core

@[match_pattern] abbrev typeNil : Nat := 0
@[match_pattern] abbrev typeBoolean : Nat := 1
@[match_pattern] abbrev typeNumber : Nat := 2
@[match_pattern] abbrev typeNumberZero : Nat := 0
@[match_pattern] abbrev typeNumberByte : Nat := 1
@[match_pattern] abbrev typeNumberWord : Nat := 2
@[match_pattern] abbrev typeNumberDword : Nat := 4
@[match_pattern] abbrev typeNumberQword : Nat := 6
@[match_pattern] abbrev typeNumberReal : Nat := 8
@[match_pattern] abbrev typeUserdata : Nat := 3
@[match_pattern] abbrev typeShortString : Nat := 4
@[match_pattern] abbrev typeLongString : Nat := 5
@[match_pattern] abbrev typeTable : Nat := 6

def maxCookie : Nat := 32

def maxDepth : Nat := 32

/-- `COMBINE_TYPE` in a `uint8_t`. -/
def combineType (t : Nat) (v : Int) : UInt8 := UInt8.ofNat t ||| UInt8.ofInt v <<< 3

/-! ## `_luaseri_pack` -/

def wbNil (wb : WriteBlock) : WriteBlock := wbPush wb [UInt8.ofNat typeNil]

def wbBoolean (wb : WriteBlock) (boolean : Bool) : WriteBlock :=
  wbPush wb [combineType typeBoolean (if boolean then 1 else 0)]

/-- The lowest `width` bytes of a number behind their type. -/
def wbNumber (wb : WriteBlock) (cookie width : Nat) (bits : UInt64) : WriteBlock :=
  wbPush (wbPush wb [combineType typeNumber cookie]) (LittleEndian.encode width bits.toNat)

def wbInteger (wb : WriteBlock) (v : Int64) : WriteBlock :=
  if v.toInt = 0 then wbPush wb [combineType typeNumber typeNumberZero]
  else if v.toInt ≠ Int.bmod v.toInt (2 ^ 32) then wbNumber wb typeNumberQword 8 v.toUInt64
  else if v.toInt < 0 then wbNumber wb typeNumberDword 4 v.toUInt64
  else if v.toInt < 0x100 then wbNumber wb typeNumberByte 1 v.toUInt64
  else if v.toInt < 0x10000 then wbNumber wb typeNumberWord 2 v.toUInt64
  else wbNumber wb typeNumberDword 4 v.toUInt64

def wbReal (wb : WriteBlock) (v : UInt64) : WriteBlock := wbNumber wb typeNumberReal 8 v

def wbPointer (wb : WriteBlock) (v : UInt64) : WriteBlock :=
  wbPush (wbPush wb [UInt8.ofNat typeUserdata]) (LittleEndian.encode 8 v.toNat)

/-- The length is an `int`. -/
def wbString (wb : WriteBlock) (str : List UInt8) (len : Int) : WriteBlock :=
  if len < maxCookie then
    let wb := wbPush wb [combineType typeShortString len]
    if 0 < len then wbPush wb (str.take len.toNat) else wb
  else
    let wb :=
      if len < 0x10000 then
        wbPush (wbPush wb [combineType typeLongString 2]) (LittleEndian.encode 2 len.toNat)
      else
        wbPush (wbPush wb [combineType typeLongString 4]) (LittleEndian.encode 4 len.toNat)
    wbPush wb (str.take len.toNat)

/-- The head of a table in `wb_table_array`. -/
def wbArraySize (wb : WriteBlock) (arraySize : Int) : WriteBlock :=
  if maxCookie - 1 ≤ arraySize then
    wbInteger (wbPush wb [combineType typeTable (maxCookie - 1)]) (Int64.ofInt arraySize)
  else wbPush wb [combineType typeTable arraySize]

section Pack

variable (pack : WriteBlock → Value → Except String WriteBlock)

def wbElements : WriteBlock → List Value → Except String WriteBlock
  | wb, [] => .ok wb
  | wb, v :: rest => do
    let wb ← pack wb v
    wbElements wb rest

def wbTableArray (wb : WriteBlock) (array : List Value) (arraySize : Int) :
    Except String WriteBlock :=
  wbElements pack (wbArraySize wb arraySize) (array.take arraySize.toNat)

/-- The entries that `wb_table_hash` leaves to the array part. -/
def inArray (arraySize : Int) : Value → Bool
  | .integer x => 0 < x.toInt ∧ x.toInt ≤ arraySize
  | _ => false

def wbTableHash (arraySize : Int) : WriteBlock → List (Value × Value) → Except String WriteBlock
  | wb, [] => .ok (wbNil wb)
  | wb, (key, value) :: rest =>
    if inArray arraySize key then wbTableHash arraySize wb rest
    else do
      let wb ← pack wb key
      let wb ← pack wb value
      wbTableHash arraySize wb rest

def wbTable (wb : WriteBlock) (array : List Value) (hash : List (Value × Value)) :
    Except String WriteBlock := do
  let arraySize := toInt array.length
  let wb ← wbTableArray pack wb array arraySize
  wbTableHash pack arraySize wb (entries array hash)

end Pack

/-- `pack_one`; the first argument is `MAX_DEPTH + 1 - depth`. -/
def packOne : Nat → WriteBlock → Value → Except String WriteBlock
  | 0, _, _ => .error "serialize can't pack too depth table"
  | room + 1, b, v =>
    match v with
    | .nil => .ok (wbNil b)
    | .integer x => .ok (wbInteger b x)
    | .number n => .ok (wbReal b n)
    | .boolean x => .ok (wbBoolean b x)
    | .string str => .ok (wbString b str (toInt str.length))
    | .lightuserdata p => .ok (wbPointer b p)
    | .table array hash => wbTable (packOne room) b array hash
    | .unsupported typename => .error s!"Unsupport type {typename} to serialize"

/-- `pack_from` -/
def packFrom : WriteBlock → List Value → Except String WriteBlock :=
  wbElements (packOne (maxDepth + 1))

/-- The buffer and the size, or `none` after a read of unwritten memory. -/
def luaseriPack (vs : List Value) : Except String (Option (List UInt8 × Int)) :=
  (packFrom wbInit vs).map seri

/-! ## `_luaseri_unpack`

A `read_block` is given by the bytes from `ptr` on. Each recursion of the source reads a byte
first, so that the number of bytes bounds it.
-/

inductive Halt where
  | error (message : String)
  /-- Not a result of the source. -/
  | outOfFuel
deriving DecidableEq

abbrev ReadBlock := List UInt8

def rbRead (rb : ReadBlock) (sz : Nat) : Option (List UInt8 × ReadBlock) :=
  if rb.length < sz then none else some (rb.take sz, rb.drop sz)

def invalidStreamLine {α : Type} (rb : ReadBlock) (line : Nat) : Except Halt α :=
  .error (.error s!"Invalid serialize stream {rb.length} (line:{line})")

/-- `rb_read` with the check of its result at `line`. -/
def rbReadAt (rb : ReadBlock) (sz line : Nat) : Except Halt (List UInt8 × ReadBlock) :=
  match rbRead rb sz with
  | some r => .ok r
  | none => invalidStreamLine rb line

def getInteger (rb : ReadBlock) (cookie : Nat) : Except Halt (Int64 × ReadBlock) :=
  match cookie with
  | typeNumberZero => .ok (0, rb)
  | typeNumberByte => do
    let (pn, rb) ← rbReadAt rb 1 339
    .ok (Int64.ofInt (LittleEndian.decode pn), rb)
  | typeNumberWord => do
    let (pn, rb) ← rbReadAt rb 2 347
    .ok (Int64.ofInt (LittleEndian.decode pn), rb)
  | typeNumberDword => do
    let (pn, rb) ← rbReadAt rb 4 355
    .ok (Int64.ofInt (LittleEndian.decodeSigned pn), rb)
  | typeNumberQword => do
    let (pn, rb) ← rbReadAt rb 8 363
    .ok (Int64.ofInt (LittleEndian.decodeSigned pn), rb)
  | _ => invalidStreamLine rb 368

def getReal (rb : ReadBlock) : Except Halt (UInt64 × ReadBlock) := do
  let (pn, rb) ← rbReadAt rb 8 378
  .ok (UInt64.ofNat (LittleEndian.decode pn), rb)

def getPointer (rb : ReadBlock) : Except Halt (UInt64 × ReadBlock) := do
  let (v, rb) ← rbReadAt rb 8 388
  .ok (UInt64.ofNat (LittleEndian.decode v), rb)

/-- `get_buffer`; a negative length passes the check and is then no length of a string. -/
def getBuffer (rb : ReadBlock) (len : Int) : Except Halt (Value × ReadBlock) :=
  if len < 0 then .error (.error "memory allocation error: block too big")
  else do
    let (p, rb) ← rbReadAt rb len.toNat 398
    .ok (.string p, rb)

/-- The array size of a table in `unpack_table`. -/
def getArraySize (rb : ReadBlock) (arraySize : Nat) : Except Halt (Int × ReadBlock) :=
  if arraySize = maxCookie - 1 then do
    let (t, rb) ← rbReadAt rb 1 411
    let type := LittleEndian.decode t
    let cookie := type >>> 3
    if type &&& 7 ≠ typeNumber ∨ cookie = typeNumberReal then invalidStreamLine rb 416
    else do
      let (n, rb) ← getInteger rb cookie
      .ok (Int.bmod n.toInt (2 ^ 32), rb)
  else .ok (arraySize, rb)

section Unpack

variable (one : ReadBlock → Except Halt (Value × ReadBlock))

/-- The first loop of `unpack_table`. -/
def unpackArray : Nat → ReadBlock → Except Halt (List Value × ReadBlock)
  | 0, rb => .ok ([], rb)
  | n + 1, rb => do
    let (v, rb) ← one rb
    let (rest, rb) ← unpackArray n rb
    .ok (v :: rest, rb)

/-- The second loop of `unpack_table`. -/
def unpackHash : Nat → List Value → List (Value × Value) → ReadBlock →
    Except Halt (Value × ReadBlock)
  | 0, _, _, _ => .error .outOfFuel
  | fuel + 1, array, hash, rb => do
    let (key, rb) ← one rb
    if isNil key then .ok (.table array hash, rb)
    else do
      let (value, rb) ← one rb
      match rawset array hash key value with
      | .error message => .error (.error message)
      | .ok (array, hash) => unpackHash fuel array hash rb

def unpackTable (rb : ReadBlock) (arraySize : Nat) : Except Halt (Value × ReadBlock) := do
  let (size, rb) ← getArraySize rb arraySize
  let (array, rb) ← unpackArray one size.toNat rb
  unpackHash one (rb.length + 1) array [] rb

def pushValue (rb : ReadBlock) (type cookie : Nat) : Except Halt (Value × ReadBlock) :=
  match type with
  | typeNil => .ok (.nil, rb)
  | typeBoolean => .ok (.boolean (cookie ≠ 0), rb)
  | typeNumber =>
    if cookie = typeNumberReal then do
      let (n, rb) ← getReal rb
      .ok (.number n, rb)
    else do
      let (n, rb) ← getInteger rb cookie
      .ok (.integer n, rb)
  | typeUserdata => do
    let (p, rb) ← getPointer rb
    .ok (.lightuserdata p, rb)
  | typeShortString => getBuffer rb cookie
  | typeLongString =>
    if cookie = 2 then do
      let (plen, rb) ← rbReadAt rb 2 464
      getBuffer rb (LittleEndian.decode plen)
    else if cookie ≠ 4 then invalidStreamLine rb 471
    else do
      let (plen, rb) ← rbReadAt rb 4 475
      getBuffer rb (toInt (LittleEndian.decode plen))
  | typeTable => unpackTable one rb cookie
  | _ => invalidStreamLine rb 488

end Unpack

def unpackOne : Nat → ReadBlock → Except Halt (Value × ReadBlock)
  | 0, _ => .error .outOfFuel
  | fuel + 1, rb => do
    let (t, rb) ← rbReadAt rb 1 499
    let type := LittleEndian.decode t
    pushValue (unpackOne fuel) rb (type &&& 7) (type >>> 3)

/-- The loop of `_luaseri_unpack`. -/
def unpackLoop : Nat → ReadBlock → Except Halt (List Value)
  | 0, _ => .error .outOfFuel
  | fuel + 1, rb =>
    match rbRead rb 1 with
    | none => .ok []
    | some (t, rb) => do
      let type := LittleEndian.decode t
      let (v, rb) ← pushValue (unpackOne (rb.length + 1)) rb (type &&& 7) (type >>> 3)
      let rest ← unpackLoop fuel rb
      .ok (v :: rest)

/-- The arguments of `_luaseri_unpack`: nothing or nil, a string, or a pointer and a size that
is not larger than the buffer. -/
inductive Arguments where
  | noneornil
  | string (bytes : List UInt8)
  | userdata (buffer : Option (List UInt8)) (len : Int)

def unpackBuffer (buffer : Option (List UInt8)) (len : Int) : Except Halt (List Value) :=
  if len = 0 then .ok []
  else
    match buffer with
    | none => .error (.error "deserialize null pointer")
    | some bytes => unpackLoop (len.toNat + 1) (bytes.take len.toNat)

/-- The values that are left on the stack. -/
def luaseriUnpack : Arguments → Except Halt (List Value)
  | .noneornil => .ok []
  | .string bytes => unpackBuffer (some bytes) (toInt bytes.length)
  | .userdata buffer len => unpackBuffer buffer len

/-! ## Unpacking any stream -/

/-- The result is an error of the source, or leaves fewer than `n` bytes. -/
def Leaves {α : Type} (n : Nat) : Except Halt (α × ReadBlock) → Prop
  | .ok r => r.2.length < n
  | .error (.error _) => True
  | .error .outOfFuel => False

theorem Leaves.bind {α β : Type} {n m : Nat} {x : Except Halt (α × ReadBlock)}
    {f : α × ReadBlock → Except Halt (β × ReadBlock)} (hx : Leaves n x)
    (hf : ∀ r, r.2.length < n → Leaves m (f r)) : Leaves m (x >>= f) := by
  match x, hx with
  | .ok r, hr => exact hf r hr
  | .error (.error _), _ => exact trivial

theorem Leaves.mono {α : Type} {n m : Nat} {x : Except Halt (α × ReadBlock)} (hx : Leaves n x)
    (h : n ≤ m) : Leaves m x := by
  match x, hx with
  | .ok r, hr => exact Nat.lt_of_lt_of_le hr h
  | .error (.error _), _ => exact trivial

/-- A step that reads nothing more. -/
theorem Leaves.value {α β : Type} {n : Nat} {x : Except Halt (α × ReadBlock)}
    {f : α × ReadBlock → Except Halt (β × ReadBlock)} (hx : Leaves n x)
    (hf : ∀ r, ∃ b, f r = .ok (b, r.2)) : Leaves n (x >>= f) :=
  hx.bind fun r hr => by
    obtain ⟨b, hb⟩ := hf r
    rw [hb]
    exact hr

section Unpack

variable {one : ReadBlock → Except Halt (Value × ReadBlock)} {n : Nat}

end Unpack

end Jump.Skynet.LuaSeri
