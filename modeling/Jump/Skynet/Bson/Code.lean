import Jump.Core.Bytes
import Jump.Core.Outcome
import Jump.Core.Strtoll
import Jump.Core.Word

/-! # Encoding and decoding of BSON

`lencode` and `ldecode` of `lua-bson.c`. A table is its entries in the order in which `lua_next`
comes to them. Both recursions run on the Lua stack, and `room` is how many slots of it are left:
Lua gives a C function `LUA_MINSTACK` slots, and `lua_checkstack` is not called for more. The
machine is little-endian.
-/

namespace Jump.Skynet.Bson

open Jump.Core

/-- A value is pushed on a full Lua stack, an `int` overflows, memory outside of a block is read,
and `luaL_error`. -/
inductive Fault where
  | stack
  | overflow
  | bounds
  | luaError (msg : String)
deriving DecidableEq

abbrev Checked := Outcome Fault

inductive Key where
  | integer (i : Int64)
  | string (s : List UInt8)
deriving DecidableEq

/-- `number` is a float, by its bits. -/
inductive Value where
  | integer (i : Int64)
  | number (d : UInt64)
  | boolean (b : Bool)
  | string (s : List UInt8)
  | table (entries : List (Key × Value))

def LUA_MINSTACK : Nat := 20

def DEFAULT_CAP : Nat := 64

@[match_pattern] abbrev BSON_REAL : Nat := 1
@[match_pattern] abbrev BSON_STRING : Nat := 2
@[match_pattern] abbrev BSON_DOCUMENT : Nat := 3
@[match_pattern] abbrev BSON_ARRAY : Nat := 4
@[match_pattern] abbrev BSON_BINARY : Nat := 5
@[match_pattern] abbrev BSON_OBJECTID : Nat := 7
@[match_pattern] abbrev BSON_BOOLEAN : Nat := 8
@[match_pattern] abbrev BSON_DATE : Nat := 9
@[match_pattern] abbrev BSON_NULL : Nat := 10
@[match_pattern] abbrev BSON_REGEX : Nat := 11
@[match_pattern] abbrev BSON_DBPOINTER : Nat := 12
@[match_pattern] abbrev BSON_JSCODE : Nat := 13
@[match_pattern] abbrev BSON_SYMBOL : Nat := 14
@[match_pattern] abbrev BSON_CODEWS : Nat := 15
@[match_pattern] abbrev BSON_INT32 : Nat := 16
@[match_pattern] abbrev BSON_TIMESTAMP : Nat := 17
@[match_pattern] abbrev BSON_INT64 : Nat := 18
@[match_pattern] abbrev BSON_MINKEY : Nat := 255
@[match_pattern] abbrev BSON_MAXKEY : Nat := 127

/-- The bytes of a text. -/
def text (cs : List Char) : List UInt8 := cs.map fun c => UInt8.ofNat c.toNat

/-- The text in some bytes. -/
def chars (bytes : List UInt8) : List Char := bytes.map fun b => Char.ofNat b.toNat

/-! ## `struct bson` -/

/-- The bytes that are written are at `ptr`; `size` is their number. -/
structure Bson where
  cap : Nat
  bytes : List UInt8

/-- `bson_create` -/
def create : Bson := ⟨DEFAULT_CAP, []⟩

/-- The loop of `bson_reserve`, which doubles an `int`. -/
def double : Nat → Nat → Nat → Checked Nat
  | 0, _, _ => .stuck
  | fuel + 1, cap, size => do
    .assert .overflow (cap * 2 < 2 ^ 31)
    if cap * 2 ≤ size then double fuel (cap * 2) size else return cap * 2

/-- `bson_reserve` -/
def reserve (b : Bson) (sz : Nat) : Checked Bson := do
  .assert .overflow (b.bytes.length + sz < 2 ^ 31)
  if b.bytes.length + sz ≤ b.cap then return b
  else
    let cap ← double 32 b.cap (b.bytes.length + sz)
    return { b with cap := cap }

/-- What all the functions that write do: they reserve room and put some bytes there. -/
def write (bytes : List UInt8) (b : Bson) : Checked Bson := do
  let b ← reserve b bytes.length
  return { b with bytes := b.bytes ++ bytes }

def writeByte (v : UInt8) : Bson → Checked Bson := write [v]

def writeInt32 (v : Int) : Bson → Checked Bson := write (LittleEndian.encode 4 (uint32OfInt v))

def writeInt64 (v : UInt64) : Bson → Checked Bson := write (LittleEndian.encode 8 v.toNat)

def writeDouble (d : UInt64) : Bson → Checked Bson := write (LittleEndian.encode 8 d.toNat)

def writeString (key : List UInt8) : Bson → Checked Bson := write (key ++ [0])

/-- `reserve_length`; what is in the four bytes does not matter. -/
def reserveLength : Bson → Checked Bson := write [0, 0, 0, 0]

def writeLength (v : Nat) (off : Nat) (b : Bson) : Bson :=
  { b with bytes := b.bytes.take off ++ LittleEndian.encode 4 v ++ b.bytes.drop (off + 4) }

/-- What `body` writes behind a length that is put there afterwards. -/
def withLength (length : Nat → Nat → Nat) (body : Bson → Checked Bson) (b : Bson) :
    Checked Bson := do
  let off := b.bytes.length
  let b ← reserveLength b
  let b ← body b
  return writeLength (length off b.bytes.length) off b

def appendKey (type : Nat) (key : List UInt8) (bs : Bson) : Checked Bson := do
  let bs ← writeByte (UInt8.ofNat type) bs
  writeString key bs

/-! ## Encoding -/

/-- `append_number` for an integer; `si` is an `int`. -/
def appendInteger (key : List UInt8) (i : Int64) (bs : Bson) : Checked Bson := do
  let si := Int.bmod (i.toInt / 2 ^ 31) (2 ^ 32)
  if si = 0 ∨ si = -1 then
    let bs ← appendKey BSON_INT32 key bs
    writeInt32 i.toInt bs
  else
    let bs ← appendKey BSON_INT64 key bs
    writeInt64 i.toUInt64 bs

/-- `append_number` for a float. -/
def appendReal (key : List UInt8) (d : UInt64) (bs : Bson) : Checked Bson := do
  let bs ← appendKey BSON_REAL key bs
  writeDouble d bs

/-- `write_binary` -/
def writeBinary (buffer : List UInt8) : Bson → Checked Bson :=
  withLength (fun _ _ => buffer.length - 1) (write buffer)

/-- The pattern and the options of a regular expression: they end at the last two zeros. -/
def writeRegex (str : List UInt8) (bs : Bson) : Checked Bson := do
  let str := str.dropLast
  .assert .bounds (0 ∈ str)
  let i := (str.reverse.takeWhile (· ≠ 0)).length
  let bs ← writeString (str.take (str.length - i - 1)) bs
  writeString (str.drop (str.length - i)) bs

/-- The strings that stand for other types: a zero and the type come before the data. -/
def appendObject (key : List UInt8) (subt : Nat) (data : List UInt8) (bs : Bson) :
    Checked Bson := do
  let bs ← appendKey subt key bs
  match subt with
  | BSON_BINARY => writeBinary data bs
  | BSON_OBJECTID =>
    .assert (.luaError "Invalid object id") (data.length = 12)
    write data bs
  | BSON_JSCODE | BSON_DBPOINTER | BSON_SYMBOL | BSON_CODEWS => write data bs
  | BSON_DATE =>
    .assert (.luaError "Invalid date") (data.length = 4)
    writeInt64 (UInt64.ofNat (LittleEndian.decode data * 1000)) bs
  | BSON_TIMESTAMP =>
    .assert (.luaError "Invalid timestamp") (data.length = 8)
    write data bs
  | BSON_REGEX => writeRegex data bs
  | BSON_MINKEY | BSON_MAXKEY | BSON_NULL => return bs
  | _ => .fail (.luaError s!"Invalid subtype {subt}")

/-- The case `LUA_TSTRING` of `append_one`. -/
def appendString (key str : List UInt8) (bs : Bson) : Checked Bson :=
  match str with
  | 0 :: subt :: data => appendObject key subt.toNat data bs
  | _ => do
    let bs ← appendKey BSON_STRING key bs
    withLength (fun _ _ => str.length + 1) (writeString str) bs

def appendBoolean (key : List UInt8) (v : Bool) (bs : Bson) : Checked Bson := do
  let bs ← appendKey BSON_BOOLEAN key bs
  writeByte (if v then 1 else 0) bs

/-- `lua_rawlen`: a border of the table, and the only one if its integer keys are a sequence. -/
def rawlen (entries : List (Key × Value)) : Nat :=
  ((List.range entries.length).takeWhile fun i =>
    entries.any fun e => e.1 = .integer (Int64.ofNat (i + 1))).length

/-- What `append_table` calls an array: nothing comes after its last index. -/
def isArray (entries : List (Key × Value)) : Bool :=
  0 < rawlen entries ∧
    entries.getLast?.map Prod.fst = some (.integer (Int64.ofNat (rawlen entries)))

/-- `bson_numstr` -/
def numstr (i : Nat) : List UInt8 := text (Strtoll.printNat i)

/-- `pack_dict`, with its loop. -/
def packDict (room : Nat) (loop : Bson → Checked Bson) : Bson → Checked Bson :=
  withLength (fun off size => size - off) fun b => do
    .assert .stack (1 ≤ room)
    let b ← loop b
    writeByte 0 b

mutual

/-- `append_one`, with `append_table` -/
def appendOne (room : Nat) (key : List UInt8) (bs : Bson) : Value → Checked Bson
  | .integer i => appendInteger key i bs
  | .number d => appendReal key d bs
  | .boolean v => appendBoolean key v bs
  | .string str => appendString key str bs
  | .table entries => do
    .assert .stack (rawlen entries = 0 ∨ (if isArray entries then 1 else 2) ≤ room)
    let bs ← appendKey (if isArray entries then BSON_ARRAY else BSON_DOCUMENT) key bs
    packDict room (fun bs => packEntries room (isArray entries) bs entries) bs

/-- The loop of `pack_dict`. -/
def packEntries (room : Nat) (array : Bool) (bs : Bson) : List (Key × Value) → Checked Bson
  | [] => .ok bs
  | (key, value) :: rest => do
    .assert .stack (2 ≤ room)
    let bs ←
      match array, key with
      | true, .integer i => appendOne (room - 2) (numstr (uint32OfInt (i.toInt - 1))) bs value
      | true, .string _ => .fail (.luaError "Invalid array key type : string")
      | false, .integer i =>
        .assert .stack (3 ≤ room)
        appendOne (room - 3) (text (Strtoll.printInt i.toInt)) bs value
      | false, .string s => appendOne (room - 2) s bs value
    packEntries room array bs rest

end

/-- `lencode` of a table -/
def lencode (room : Nat) (entries : List (Key × Value)) : Checked (List UInt8) := do
  let b ← packDict room (fun bs => packEntries room false bs entries) create
  return b.bytes

/-! ## `struct bson_reader`

A reader is given by the bytes from `ptr` on, and `size` is their number.
-/

abbrev Reader := List UInt8

def checkReader (br : Reader) (sz : Int) : Checked Unit :=
  .assert (.luaError s!"Invalid bson block ({br.length}:{sz})") (sz ≤ br.length)

/-- `read_bytes`, which moves back for a negative number. -/
def readBytes (sz : Int) (br : Reader) : Checked (List UInt8 × Reader) := do
  checkReader br sz
  .assert .bounds (0 ≤ sz)
  return (br.take sz.toNat, br.drop sz.toNat)

def readByte (br : Reader) : Checked (Nat × Reader) := do
  let (b, br) ← readBytes 1 br
  return (LittleEndian.decode b, br)

def readInt32 (br : Reader) : Checked (Int × Reader) := do
  let (b, br) ← readBytes 4 br
  return (LittleEndian.decodeSigned b, br)

/-- `read_int64` and `read_double` -/
def readWord (br : Reader) : Checked (UInt64 × Reader) := do
  let (b, br) ← readBytes 8 br
  return (UInt64.ofNat (LittleEndian.decode b), br)

/-- `read_cstring` -/
def readCstring (br : Reader) : Checked (List UInt8 × Reader) := do
  .assert (.luaError "Invalid bson block : cstring") (0 ∈ br)
  let key := br.takeWhile (· ≠ 0)
  return (key, br.drop (key.length + 1))

/-! ## Decoding -/

/-- `strtol(key, NULL, 10)` -/
def strtol (key : List UInt8) : Int :=
  let signed := Strtoll.readSign ((chars key).dropWhile Strtoll.isSpace)
  let n := Strtoll.readDigits 10 0 signed.2
  if signed.1 then max (-n) Strtoll.LLONG_MIN else min n Strtoll.LLONG_MAX

/-- `make_object` -/
def makeObject (type : Nat) (data : List UInt8) : Value := .string (0 :: UInt8.ofNat type :: data)

/-- `lua_rawset` -/
def rawset (entries : List (Key × Value)) (key : Key) (value : Value) : List (Key × Value) :=
  if entries.any fun e => e.1 = key then
    entries.map fun e => if e.1 = key then (key, value) else e
  else entries ++ [(key, value)]

/-- A string behind its length, of which `head` more bytes are read. -/
def readSized (type : Nat) (head : Int) (t : Reader) : Checked (Value × Reader) := do
  let (sz, rest) ← readInt32 t
  let (data, rest) ← readBytes (sz + head) rest
  return (makeObject type (t.take 4 ++ data), rest)

/-- The value that `unpack_dict` pushes; `dict` is `unpack_dict` for a table in the table. -/
def unpackValue (dict : Bool → Reader → Checked (Value × Reader)) (bt : Nat) (t : Reader) :
    Checked (Value × Reader) :=
  match bt with
  | BSON_REAL => do
    let (d, t) ← readWord t
    return (.number d, t)
  | BSON_BOOLEAN => do
    let (b, t) ← readByte t
    return (.boolean (b ≠ 0), t)
  | BSON_STRING => do
    let (sz, t) ← readInt32 t
    .assert (.luaError s!"Invalid bson string , length = {sz}") (0 < sz)
    let (str, t) ← readBytes sz t
    return (.string str.dropLast, t)
  | BSON_DOCUMENT => dict false t
  | BSON_ARRAY => dict true t
  | BSON_BINARY => do
    let (sz, t) ← readInt32 t
    let (subtype, t) ← readByte t
    let (data, t) ← readBytes sz t
    return (makeObject BSON_BINARY (UInt8.ofNat subtype :: data), t)
  | BSON_OBJECTID => do
    let (data, t) ← readBytes 12 t
    return (makeObject BSON_OBJECTID data, t)
  | BSON_DATE => do
    let (date, t) ← readWord t
    let v := Int.tdiv date.toInt64.toInt 1000
    return (makeObject BSON_DATE (LittleEndian.encode 4 (uint32OfInt v)), t)
  | BSON_MINKEY | BSON_MAXKEY | BSON_NULL => .ok (makeObject bt [], t)
  | BSON_REGEX => do
    let (r1, t) ← readCstring t
    let (r2, t) ← readCstring t
    return (makeObject BSON_REGEX (r1 ++ 0 :: r2 ++ [0]), t)
  | BSON_INT32 => do
    let (i, t) ← readInt32 t
    return (.integer (Int64.ofInt i), t)
  | BSON_TIMESTAMP => do
    let (data, t) ← readBytes 8 t
    return (makeObject BSON_TIMESTAMP data, t)
  | BSON_INT64 => do
    let (i, t) ← readWord t
    return (.integer i.toInt64, t)
  | BSON_DBPOINTER => readSized bt 12 t
  | BSON_JSCODE | BSON_SYMBOL => readSized bt 0 t
  | BSON_CODEWS => readSized bt (-4) t
  | _ => .fail (.luaError s!"Invalid bson type : {bt}")

/-- The loop of `unpack_dict`. Every round reads a byte first. -/
def unpackEntries (dict : Bool → Reader → Checked (Value × Reader)) (room : Nat) (array : Bool) :
    Nat → Reader → List (Key × Value) → Checked (List (Key × Value))
  | 0, _, _ => .stuck
  | fuel + 1, t, entries =>
    if t = [] then .ok entries
    else do
      let (bt, t) ← readByte t
      let (key, t) ← readCstring t
      .assert .stack (2 ≤ room)
      let key := if array then .integer (Int64.ofInt (Int.bmod (strtol key + 1) (2 ^ 32)))
        else .string key
      .assert .stack (bt = BSON_DOCUMENT ∨ bt = BSON_ARRAY ∨ 3 ≤ room)
      let (value, t) ← unpackValue dict bt t
      unpackEntries dict room array fuel t (rawset entries key value)

/-- `unpack_dict`. A table in a table is shorter. -/
def unpackDict : Nat → Nat → Bool → Reader → Checked (Value × Reader)
  | 0, _, _, _ => .stuck
  | fuel + 1, room, array, br => do
    let (sz, br) ← readInt32 br
    let (t, br) ← readBytes (sz - 5) br
    let (zero, br) ← readByte br
    .assert (.luaError "Invalid document end") (zero = 0)
    .assert .stack (1 ≤ room)
    let entries ← unpackEntries (unpackDict fuel (room - 2)) room array (t.length + 1) t []
    return (.table entries, br)

/-- `ldecode` of the bytes in a userdata -/
def ldecode (room : Nat) (data : List UInt8) : Checked Value := do
  let len := LittleEndian.decodeSigned (data.take 4)
  .assert .bounds (4 ≤ data.length ∧ 0 ≤ len ∧ len ≤ data.length)
  let (value, _) ← unpackDict data.length room false (data.take len.toNat)
  return value

end Jump.Skynet.Bson
