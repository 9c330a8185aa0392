import Jump.Core.Bytes
import Jump.Core.Word
import Jump.Skynet.Sproto.Pack
import Jump.Skynet.Sproto.Types

/-! # Decoding

`sproto_decode` of `sproto.c`. The input is a list of bytes, and a pointer is an offset in it. A
read behind the input, or a value that does not lie in it, is a fault.
-/

namespace Jump.Skynet.Sproto

open Jump.Core

/-- What `args->value` and `args->length` stand for. -/
inductive Datum where
  | number (v : UInt64)
  | bytes (value : List UInt8)

structure DecodeArg where
  tagname : String
  tagid : Nat
  type : Kind
  subtype : Nat
  value : Datum
  index : Nat
  mainindex : Int

/-- The callback with the state that `ud` points to. -/
abbrev DecodeCallback (σ : Type) := σ → DecodeArg → Option (σ × Int)

def toword (mem : List UInt8) (p : Nat) : Option Nat := (read mem p 2).map LittleEndian.decode

def todword (mem : List UInt8) (p : Nat) : Option Nat := (read mem p 4).map LittleEndian.decode

def expand64 (v : Nat) : Nat := if v &&& 0x80000000 ≠ 0 then v ||| (2 ^ 64 - 2 ^ 32) else v

section Callback

variable {σ : Type} (cb : DecodeCallback σ)

/-- A value of `length` bytes, which is an `int`. -/
def cbBytes (mem : List UInt8) (args : DecodeArg) (p : Nat) (length : Int) (ud : σ) :
    Option (σ × Int) :=
  if length < 0 then none
  else (read mem p length.toNat).bind fun value => cb ud { args with value := .bytes value }

/-- The result of a callback for a number is not looked at. -/
def cbNumber (args : DecodeArg) (v : Nat) (ud : σ) : Option σ :=
  (cb ud { args with value := .number (UInt64.ofNat v) }).map Prod.fst

/-- `decode_array_object`; every round takes four bytes. -/
def decodeArrayObject (mem : List UInt8) (args : DecodeArg) :
    Nat → Nat → Nat → Int → σ → Option (σ × Int)
  | 0, _, _, _, _ => none
  | fuel + 1, index, stream, sz, ud =>
    if 0 < sz then
      if sz < 4 then some (ud, -1)
      else do
        let hsz ← todword mem stream
        let sz := sz - 4
        if uint32OfInt sz < hsz then some (ud, -1)
        else do
          let (ud, r) ← cbBytes cb mem { args with index := index } (stream + 4) (toInt hsz) ud
          if r ≠ 0 then some (ud, -1)
          else
            decodeArrayObject mem args fuel (index + 1) (stream + 4 + hsz)
              (toInt (uint32OfInt (sz - hsz))) ud
    else some (ud, 0)

/-- The numbers from `i` on in `decode_array`, which `get` reads. -/
def decodeNumbers (args : DecodeArg) (get : Nat → Option Nat) : Nat → Nat → σ → Option σ
  | 0, _, ud => some ud
  | count + 1, i, ud => do
    let value ← get i
    let ud ← cbNumber cb { args with index := i + 1 } value ud
    decodeNumbers args get count (i + 1) ud

def getDword (mem : List UInt8) (stream i : Nat) : Option Nat :=
  (todword mem (stream + i * 4)).map expand64

def getQword (mem : List UInt8) (stream : Nat) : Option Nat := do
  let low ← todword mem stream
  let hi ← todword mem (stream + 4)
  some (low ||| hi <<< 32)

def getByte (mem : List UInt8) (stream i : Nat) : Option Nat :=
  (read mem (stream + i) 1).map LittleEndian.decode

def decodeArray (mem : List UInt8) (args : DecodeArg) (stream : Nat) (ud : σ) :
    Option (σ × Int) := do
  let sz ← todword mem stream
  let stream := stream + 4
  match args.type with
  | .integer =>
    if sz < 1 then some (ud, -1)
    else do
      let len ← getByte mem stream 0
      let stream := stream + 1
      let sz := sz - 1
      if len = 4 then
        if sz % 4 ≠ 0 then some (ud, -1)
        else do
          let ud ← decodeNumbers cb args (getDword mem stream) (sz / 4) 0 ud
          some (ud, 0)
      else if len = 8 then
        if sz % 8 ≠ 0 then some (ud, -1)
        else do
          let ud ← decodeNumbers cb args (fun i => getQword mem (stream + i * 8)) (sz / 8) 0 ud
          some (ud, 0)
      else some (ud, -1)
  | .boolean => do
    let ud ← decodeNumbers cb args (getByte mem stream) sz 0 ud
    some (ud, 0)
  | _ => decodeArrayObject cb mem args (sz + 1) 1 stream (toInt sz) ud

/-- What the loop of `sproto_decode` does with the data of a field at `currentdata`. -/
def decodeData (mem : List UInt8) (f : Field) (args : DecodeArg) (currentdata : Nat) (ud : σ) :
    Option (σ × Int) :=
  if f.array then do
    let (ud, r) ← decodeArray cb mem args currentdata ud
    some (ud, if r ≠ 0 then -1 else 0)
  else
    match f.kind with
    | .integer => do
      let sz ← todword mem currentdata
      if sz = 4 then do
        let v ← todword mem (currentdata + 4)
        let ud ← cbNumber cb args (expand64 v) ud
        some (ud, 0)
      else if sz ≠ 8 then some (ud, -1)
      else do
        let v ← getQword mem (currentdata + 4)
        let ud ← cbNumber cb args v ud
        some (ud, 0)
    | .boolean => some (ud, -1)
    | _ => do
      let sz ← todword mem currentdata
      let (ud, r) ← cbBytes cb mem args (currentdata + 4) (toInt sz) ud
      some (ud, if r ≠ 0 then -1 else 0)

/-- The field at a record, which is a value or stands for the data at `currentdata`. -/
def decodeField (mem : List UInt8) (f : Field) (value : Int) (currentdata : Nat) (ud : σ) :
    Option (σ × Int) :=
  let args : DecodeArg := ⟨f.name, f.tag, f.kind, f.st, .number 0, 0, f.key⟩
  if value < 0 then decodeData cb mem f args currentdata ud
  else if f.array ∨ f.kind ≠ .integer ∧ f.kind ≠ .boolean then some (ud, -1)
  else do
    let ud ← cbNumber cb args value.toNat ud
    some (ud, 0)

/-- How far the loop of `sproto_decode` moves on in the data, or `none` for -1. -/
def dataSize (mem : List UInt8) (value : Int) (datastream : Nat) (size : Int) :
    Option (Option Nat) :=
  if value < 0 then
    if size < 4 then some none
    else do
      let sz ← todword mem datastream
      if uint32OfInt size < u32 (sz + 4) then some none else some (some (u32 (sz + 4)))
  else some (some 0)

/-- The loop of `sproto_decode` over the records at `stream`; the result is the `size` that is
left, or -1. -/
def decodeLoop (st : SprotoType) (mem : List UInt8) :
    Nat → Nat → Int → Nat → Int → σ → Option (σ × Int)
  | 0, _, _, _, size, ud => some (ud, size)
  | fn + 1, stream, tag, datastream, size, ud => do
    let value ← toword mem stream
    let tag := tag + 1
    if value % 2 = 1 then
      decodeLoop st mem fn (stream + 2) (tag + (value / 2 : Nat)) datastream size ud
    else
      let value : Int := (value / 2 : Nat) - 1
      match ← dataSize mem value datastream size with
      | none => some (ud, -1)
      | some sz =>
        match findtag st tag with
        | none => decodeLoop st mem fn (stream + 2) tag (datastream + sz) (size - sz) ud
        | some f => do
          let (ud, r) ← decodeField cb mem f value datastream ud
          if r ≠ 0 then some (ud, -1)
          else decodeLoop st mem fn (stream + 2) tag (datastream + sz) (size - sz) ud

/-- `sproto_decode` of the `size` bytes of `mem`. -/
def sprotoDecode (st : SprotoType) (mem : List UInt8) (size : Int) (ud : σ) :
    Option (σ × Int) :=
  if size < 2 then some (ud, -1)
  else do
    let fn ← toword mem 0
    let left := size - 2
    if left < fn * 2 then some (ud, -1)
    else do
      let (ud, r) ← decodeLoop cb st mem fn 2 (-1) (2 + fn * 2) (left - fn * 2) ud
      some (ud, if r < 0 then -1 else size - r)

end Callback

end Jump.Skynet.Sproto
