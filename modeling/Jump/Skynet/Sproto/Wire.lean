import Jump.Skynet.Sproto.Encode

/-! # Values and their wire format

The values of a type, the callback that hands them to `sproto_encode`, the bytes that stand for
them, and the room that the encoder wants while it writes these.
-/

namespace Jump.Skynet.Sproto

open Jump.Core

/-- `dword` and `qword` are integers that the callback gives in 32 and in 64 bits. A struct has
for a tag the values of an array, or at most one value. -/
inductive Value where
  | dword (v : UInt32)
  | qword (v : UInt64)
  | boolean (b : Bool)
  | string (s : List UInt8)
  | struct (fields : List (Nat × List Value))

abbrev Fields := List (Nat × List Value)

def given (fields : Fields) (tag : Nat) : List Value := (fields.lookup tag).getD []

/-- The values of a kind, with structs nested at most `n` deep. -/
inductive HasKind (types : Nat → SprotoType) : Nat → Kind → Nat → Value → Prop
  | dword {n st : Nat} (v : UInt32) : HasKind types n .integer st (.dword v)
  | qword {n st : Nat} (v : UInt64) : HasKind types n .integer st (.qword v)
  | boolean {n st : Nat} (b : Bool) : HasKind types n .boolean st (.boolean b)
  | string {n st : Nat} (s : List UInt8) : HasKind types n .string st (.string s)
  | struct {n st : Nat} {fields : Fields}
      (kinds : ∀ f ∈ (types st).f, ∀ v ∈ given fields f.tag, HasKind types n f.kind f.st v)
      (single : ∀ f ∈ (types st).f, f.array = false → (given fields f.tag).length ≤ 1) :
      HasKind types (n + 1) .struct st (.struct fields)

/-! ## The callback -/

section Give

variable (encode : Nat → Fields → Buffer → Nat → Int → Except Halt (Int × Buffer))

/-- The reply for a value; `encode` writes a struct. -/
def reply (args : Arg) (d : Buffer) : Value → Except Halt Reply
  | .dword v => .ok ⟨4, v.toUInt64, d⟩
  | .qword v => .ok ⟨8, v, d⟩
  | .boolean b => .ok ⟨4, if b then 1 else 0, d⟩
  | .string s =>
    match args.value with
    | .number => .ok ⟨-1, 0, d⟩
    | .buffer p =>
      if args.length < s.length then .ok ⟨-1, 0, d⟩
      else do
        let d ← write d p s
        .ok ⟨s.length + 1, 0, d⟩
  | .struct fields =>
    match args.value with
    | .number => .ok ⟨-1, 0, d⟩
    | .buffer p => do
      let (sz, d) ← encode args.subtype fields d p args.length
      .ok ⟨sz, 0, d⟩

/-- The callback for a struct; 0 is a missing value and the end of an array. -/
def give (fields : Fields) : Callback := fun args d =>
  match (given fields args.tagid)[args.index - 1]? with
  | some v => reply encode args d v
  | none => .ok ⟨0, 0, d⟩

end Give

/-- `sproto_encode` of a struct whose values the callback gives, `n` structs deep. -/
def encodeStruct (types : Nat → SprotoType) :
    Nat → Nat → Fields → Buffer → Nat → Int → Except Halt (Int × Buffer)
  | 0, _, _, d, _, _ => .ok (-1, d)
  | n + 1, st, fields, d, header, size =>
    sprotoEncode (types st) d header size (give (encodeStruct types n) fields)

/-! ## The bytes -/

/-- What stands for a field: nothing, a value in the record, or data behind the records. -/
inductive Part where
  | absent
  | inline (word : Nat)
  | data (bytes : List UInt8)
deriving DecidableEq

namespace Part

def bytes : Part → List UInt8
  | data bytes => bytes
  | _ => []

/-- The word in the record. -/
def value : Part → Nat
  | inline w => w * 2
  | _ => 0

end Part

def word (n : Nat) : List UInt8 := LittleEndian.encode 2 n

def dword (n : Nat) : List UInt8 := LittleEndian.encode 4 n

/-- Bytes behind their length. -/
def sized (bytes : List UInt8) : List UInt8 := dword bytes.length ++ bytes

/-- A 32-bit number as a 64-bit one of the same sign. -/
def signExtend (v : Nat) : Nat := if 2 ^ 31 ≤ v then v + (2 ^ 64 - 2 ^ 32) else v

def isQword : Value → Bool
  | .qword _ => true
  | _ => false

/-- The number that an integer or a boolean is decoded to. -/
def numberOf : Value → Nat
  | .dword v => signExtend v.toNat
  | .qword v => v.toNat
  | .boolean b => if b then 1 else 0
  | _ => 0

def width (vs : List Value) : Nat := if vs.any isQword then 8 else 4

def numbers (width : Nat) (vs : List Value) : List UInt8 :=
  vs.flatMap fun v => LittleEndian.encode width (numberOf v)

/-- The numbers of an array, all as wide as the widest. -/
def integerBytes (vs : List Value) : List UInt8 :=
  UInt8.ofNat (width vs) :: numbers (width vs) vs

section Wire

variable (sub : Nat → Fields → List UInt8)

def bodyBytes (st : Nat) : Value → List UInt8
  | .string s => s
  | .struct fields => sub st fields
  | _ => []

def arrayBytes (f : Field) (vs : List Value) : List UInt8 :=
  match f.kind with
  | .integer => integerBytes vs
  | .boolean => vs.map fun v => UInt8.ofNat (numberOf v)
  | _ => vs.flatMap fun v => sized (bodyBytes sub f.st v)

def part (f : Field) (vs : List Value) : Part :=
  match vs with
  | [] => .absent
  | v :: _ =>
    if f.array then .data (sized (arrayBytes sub f vs))
    else
      match v with
      | .dword n =>
        if n.toNat < 0x7fff then .inline (n.toNat + 1) else .data (sized (dword n.toNat))
      | .qword n => .data (sized (LittleEndian.encode 8 n.toNat))
      | .boolean b => .inline ((if b then 1 else 0) + 1)
      | v => .data (sized (bodyBytes sub f.st v))

def parts (st : SprotoType) (fields : Fields) : List (Nat × Part) :=
  st.f.map fun f => (f.tag, part sub f (given fields f.tag))

end Wire

/-- The record of a field, behind one that skips the tags from `next` on. -/
def recordsOf (next tag : Nat) (p : Part) : List Nat :=
  (if next < tag then [(tag - next - 1) * 2 + 1] else []) ++ [p.value]

/-- The records from the tag `next` on. -/
def records : Nat → List (Nat × Part) → List Nat
  | _, [] => []
  | next, (tag, p) :: rest =>
    if p = .absent then records next rest else recordsOf next tag p ++ records (tag + 1) rest

def dataBytes (ps : List (Nat × Part)) : List UInt8 := ps.flatMap fun e => e.2.bytes

def structBytes (ps : List (Nat × Part)) : List UInt8 :=
  word (records 0 ps).length ++ (records 0 ps).flatMap word ++ dataBytes ps

def wire (types : Nat → SprotoType) : Nat → Nat → Fields → List UInt8
  | 0, _, _ => []
  | n + 1, st, fields => structBytes (parts (wire types n) (types st) fields)

/-! ## The room

`left` is the room that is left after the data, `full` that it does not fit, and `overrun` that
32-bit numbers are widened although there is no room for it: the 32-bit difference is compared
as an unsigned number.
-/

inductive Space where
  | overrun
  | full
  | left (room : Nat)
deriving DecidableEq

namespace Space

def bind (s : Space) (f : Nat → Space) : Space :=
  match s with
  | overrun => overrun
  | full => full
  | left room => f room

end Space

/-- Room between `k` numbers of 32 bits, and for one of 64 bits behind them. -/
def widenSpace (room k : Nat) : Space :=
  if room < 4 * k then .overrun
  else if room - 4 * k < 8 then .full
  else .left (room - 4 * k)

/-- The numbers of an array, of which `k` are written with `intlen` bytes each. -/
def integerSpace : Nat → Nat → Nat → List Value → Space
  | room, _, _, [] => .left room
  | room, intlen, k, v :: rest =>
    if room < 8 then .full
    else if isQword v ∧ intlen = 4 then
      (widenSpace room k).bind fun room => integerSpace (room - 8) 8 (k + 1) rest
    else integerSpace (room - intlen) intlen (k + 1) rest

def booleanSpace : Nat → List Value → Space
  | room, [] => .left room
  | room, _ :: rest => if room < 1 then .full else booleanSpace (room - 1) rest

section Room

variable (sub : Nat → Fields → Nat → Space)

def bodySpace (st : Nat) (room : Nat) : Value → Space
  | .string s => if room < s.length then .full else .left (room - s.length)
  | .struct fields => sub st fields room
  | _ => .full

/-- Every string or struct takes its length, and so does the end of the array. -/
def objectSpace (st : Nat) : Nat → List Value → Space
  | room, [] => if room < 4 then .full else .left room
  | room, v :: rest =>
    if room < 4 then .full
    else (bodySpace sub st (room - 4) v).bind fun room => objectSpace st room rest

def arraySpace (f : Field) (room : Nat) (vs : List Value) : Space :=
  if room < 4 then .full
  else
    match f.kind with
    | .integer => if room - 4 < 1 then .full else integerSpace (room - 5) 4 0 vs
    | .boolean => booleanSpace (room - 4) vs
    | _ => objectSpace sub f.st (room - 4) vs

def numberSpace (room : Nat) : Value → Space
  | .dword n =>
    if n.toNat < 0x7fff then .left room
    else if room < 8 then .full
    else .left (room - 8)
  | .qword _ => if room < 12 then .full else .left (room - 12)
  | _ => .left room

/-- The room behind the only value, if there is one. -/
def headSpace (room : Nat) (space : Value → Space) : List Value → Space
  | [] => .left room
  | v :: _ => space v

def fieldSpace (f : Field) (room : Nat) (vs : List Value) : Space :=
  if f.array then
    (arraySpace sub f room vs).bind fun left => if vs = [] then .left room else .left left
  else
    match f.kind with
    | .integer | .boolean => headSpace room (numberSpace room) vs
    | _ => if room < 4 then .full else headSpace room (bodySpace sub f.st (room - 4)) vs

def fieldsSpace (fields : Fields) : Nat → List Field → Space
  | room, [] => .left room
  | room, f :: rest =>
    (fieldSpace sub f room (given fields f.tag)).bind fun room => fieldsSpace fields room rest

end Room

/-- The header is written for all records, and takes less room in the end. -/
def structSpace (types : Nat → SprotoType) : Nat → Nat → Fields → Nat → Space
  | 0, _, _, _ => .full
  | n + 1, st, fields, room =>
    let headerSz := 2 + (types st).maxn * 2
    if room < headerSz then .full
    else
      (fieldsSpace (structSpace types n) fields (room - headerSz) (types st).f).bind fun _ =>
        .left (room - (wire types (n + 1) st fields).length)

end Jump.Skynet.Sproto
