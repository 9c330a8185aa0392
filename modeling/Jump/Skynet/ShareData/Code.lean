import Jump.Core.Outcome
import Mathlib.Algebra.Ring.Nat
import Mathlib.Logic.Function.Basic

/-! # Shared configuration tables

`lua-sharedata.c`: a Lua table is converted into tables of its own, which every Lua state may read.
The keys from 1 to `lua_rawlen` go into an array and all others into a hash with one slot for each
of them; a key whose main slot is taken goes into a free slot behind it. Strings are numbered, and
a string or a string key is stored by its number.
-/

namespace Jump.Skynet.ShareData

open Jump.Core

inductive Key where
  | integer (i : Int64)
  | string (str : List UInt8)
deriving DecidableEq

/-- A value of a Lua table. `number` is a float, by its bits. A table is given by its `lua_rawlen`
and its entries in the order in which `lua_next` comes to them. -/
inductive Value where
  | integer (i : Int64)
  | number (bits : UInt64)
  | boolean (b : Bool)
  | string (str : List UInt8)
  | table (rawlen : Nat) (entries : List (Key × Value))

/-- `key` and `keytype` of a node. -/
inductive NodeKey where
  | integer (key : Int32)
  | string (index : Nat)
deriving DecidableEq

/-- `next` is `none` for -1. -/
structure Node (V : Type) where
  v : V
  key : NodeKey
  next : Option Nat
  keyhash : UInt32
  nocolliding : Bool

/-- A slot of `hash` that is not filled (`VALUETYPE_NIL`) holds nothing that could be read. -/
structure Table (V : Type) where
  sizearray : Nat
  array : Nat → V
  sizehash : Nat
  hash : Nat → Option (Node V)

/-- `union value` with its type. -/
inductive Conf where
  | nil
  | real (n : UInt64)
  | string (index : Nat)
  | boolean (b : Bool)
  | table (tbl : Table Conf)
  | integer (d : Int64)

/-- `slot` is the failed `assert(n)`, `unset` a look at a node that is not filled, `endless` a
chain that comes back to itself. -/
inductive Fault where
  | slot
  | unset
  | endless
deriving DecidableEq

abbrev M := Outcome Fault

/-- The strings in the order of their numbers. The first one has the number 2. -/
abbrev Strings := List (List UInt8)

/-- `lua_tolstring` on the state that holds the strings. -/
def tolstring (strings : Strings) (index : Nat) : Option (List UInt8) := strings[index - 2]?

def stringindex (strings : Strings) (str : List UInt8) : Nat × Strings :=
  if str ∈ strings then (strings.idxOf str + 2, strings)
  else (strings.length + 2, strings ++ [str])

/-- The bytes at `l - 1`, `l - 1 - step`, ... go into the hash. -/
def calchash (str : List UInt8) : UInt32 :=
  let l := str.length
  let step := l / 2 ^ 5 + 1
  (List.range (l / step)).foldl
    (fun h i => h ^^^ ((h <<< 5) + (h >>> 2) + (str.getD (l - i * step - 1) 0).toUInt32))
    (UInt32.ofNat l)

/-- The keys of the array are not counted. -/
def countsize {V : Type} (sizearray : Nat) (entries : List (Key × V)) : Nat :=
  entries.countP fun e =>
    match e.1 with
    | .integer nkey => ¬ (0 < nkey.toInt ∧ nkey.toInt ≤ sizearray)
    | .string _ => true

/-- Where `ishashkey` puts a key. -/
inductive Place where
  | array (key : Nat)
  | hash (key : NodeKey) (keyhash : UInt32)

/-- The key in the array that an `int` is. -/
def arrayKey (sizearray : Nat) (key : Int32) : Option Nat :=
  if 0 < key.toInt ∧ key.toInt ≤ sizearray then some key.toInt.toNat else none

def ishashkey (sizearray : Nat) (strings : Strings) : Key → Place × Strings
  | .integer i =>
      match arrayKey sizearray i.toInt32 with
      | some key => (.array key, strings)
      | none => (.hash (.integer i.toInt32) i.toInt32.toUInt32, strings)
  | .string str =>
      let (index, strings) := stringindex strings str
      (.hash (.string index) (calchash str), strings)

/-- What `setvalue` does with a value of the Lua table. -/
abbrev Setter := Strings → M (Conf × Strings)

def Table.slot (tbl : Table Conf) (keyhash : UInt32) : Nat := keyhash.toNat % tbl.sizehash

/-- The first pass: the array, and the slots that are the main slot of some key. -/
def fillnocolliding (tbl : Table Conf) (strings : Strings) :
    List (Key × Setter) → M (Table Conf × Strings)
  | [] => .ok (tbl, strings)
  | (k, setvalue) :: entries =>
      match ishashkey tbl.sizearray strings k with
      | (.array key, strings) => do
          let (v, strings) ← setvalue strings
          fillnocolliding { tbl with array := Function.update tbl.array (key - 1) v } strings
            entries
      | (.hash key keyhash, strings) =>
          match tbl.hash (tbl.slot keyhash) with
          | some _ => fillnocolliding tbl strings entries
          | none => do
              let (v, strings) ← setvalue strings
              let n : Node Conf := ⟨v, key, none, keyhash, true⟩
              fillnocolliding
                { tbl with hash := Function.update tbl.hash (tbl.slot keyhash) (some n) } strings
                entries

/-- The second pass: the keys that were not filled in go into the free slots. -/
def fillcolliding (tbl : Table Conf) (strings : Strings) :
    List (Key × Setter) → M (Table Conf × Strings)
  | [] => .ok (tbl, strings)
  | (k, setvalue) :: entries =>
      match ishashkey tbl.sizearray strings k with
      | (.array _, strings) => fillcolliding tbl strings entries
      | (.hash key keyhash, strings) =>
          match tbl.hash (tbl.slot keyhash) with
          | none => .fail .unset
          | some mainpos =>
              if mainpos.key = key then fillcolliding tbl strings entries
              else
                match (List.range tbl.sizehash).find? fun i => (tbl.hash i).isNone with
                | none => .fail .slot
                | some i => do
                    let (v, strings) ← setvalue strings
                    let n : Node Conf := ⟨v, key, mainpos.next, keyhash, false⟩
                    let main : Node Conf := { mainpos with next := some i, nocolliding := false }
                    fillcolliding
                      { tbl with
                        hash := Function.update
                          (Function.update tbl.hash (tbl.slot keyhash) (some main)) i (some n) }
                      strings entries

/-- The array alone, by `lua_rawgeti`. -/
def fillarray (entries : List (Key × Setter)) (tbl : Table Conf) (strings : Strings) :
    List Nat → M (Table Conf × Strings)
  | [] => .ok (tbl, strings)
  | i :: rest =>
      match entries.find? fun e => e.1 = .integer (Int64.ofNat (i + 1)) with
      | none => fillarray entries tbl strings rest
      | some (_, setvalue) => do
          let (v, strings) ← setvalue strings
          fillarray entries { tbl with array := Function.update tbl.array i v } strings rest

def convtable (rawlen : Nat) (entries : List (Key × Setter)) (strings : Strings) :
    M (Table Conf × Strings) :=
  let tbl : Table Conf := ⟨rawlen, fun _ => .nil, countsize rawlen entries, fun _ => none⟩
  if tbl.sizehash ≠ 0 then do
    let (tbl, strings) ← fillnocolliding tbl strings entries
    fillcolliding tbl strings entries
  else fillarray entries tbl strings (List.range rawlen)

mutual

def setvalue : Value → Setter
  | .integer i => fun strings => .ok (.integer i, strings)
  | .number n => fun strings => .ok (.real n, strings)
  | .boolean b => fun strings => .ok (.boolean b, strings)
  | .string str => fun strings =>
      let (index, strings) := stringindex strings str
      .ok (.string index, strings)
  | .table rawlen entries => fun strings => do
      let (tbl, strings) ← convtable rawlen (setvalues entries) strings
      .ok (.table tbl, strings)

/-- The values behind the keys. -/
def setvalues : List (Key × Value) → List (Key × Setter)
  | [] => []
  | (k, v) :: entries => (k, setvalue v) :: setvalues entries

end

/-- The key that `lookup_key` looks for: `key`, or `str` when it is a string. -/
inductive Sought where
  | integer (key : Int32)
  | string (str : List UInt8)
deriving DecidableEq

def isKey (strings : Strings) : NodeKey → Sought → Bool
  | .integer key, .integer sought => key = sought
  | .string index, .string sought => tolstring strings index = some sought
  | .integer _, .string _ | .string _, .integer _ => false

/-- The loop of `lookup_key`, which a chain ends within `sizehash` rounds. -/
def walk (strings : Strings) (tbl : Table Conf) (keyhash : UInt32) (key : Sought) :
    Nat → Nat → M (Option Nat)
  | 0, _ => .fail .endless
  | rounds + 1, slot =>
      match tbl.hash slot with
      | none => .fail .unset
      | some n =>
          if keyhash = n.keyhash ∧ isKey strings n.key key = true then .ok (some slot)
          else
            match n.next with
            | none => .ok none
            | some next => walk strings tbl keyhash key rounds next

/-- `lookup_key`: the slot of the node. -/
def lookupKey (strings : Strings) (tbl : Table Conf) (keyhash : UInt32) (key : Sought) :
    M (Option Nat) :=
  if tbl.sizehash = 0 then .ok none
  else
    match tbl.hash (tbl.slot keyhash) with
    | none => .fail .unset
    | some n =>
        if keyhash ≠ n.keyhash ∧ n.nocolliding = true then .ok none
        else walk strings tbl keyhash key tbl.sizehash (tbl.slot keyhash)

/-- The hash of a key and the key that is looked up. -/
def sought : Key → UInt32 × Sought
  | .integer i => (i.toInt32.toUInt32, .integer i.toInt32)
  | .string str => (calchash str, .string str)

/-- The key that is an index of the array, when it is one. -/
def inArray (sizearray : Nat) : Key → Option Nat
  | .integer i => arrayKey sizearray i.toInt32
  | .string _ => none

/-- `lindexconf`. A key that is not there gives `nil`. -/
def lindexconf (strings : Strings) (tbl : Table Conf) (k : Key) : M Conf :=
  match inArray tbl.sizearray k with
  | some key => .ok (tbl.array (key - 1))
  | none => do
      let found ← lookupKey strings tbl (sought k).1 (sought k).2
      match found with
      | none => .ok .nil
      | some slot =>
          match tbl.hash slot with
          | none => .fail .unset
          | some n => .ok n.v

def pushkey (strings : Strings) (tbl : Table Conf) (slot : Nat) : M Key :=
  match tbl.hash slot with
  | none => .fail .unset
  | some n =>
      match n.key with
      | .integer key => .ok (.integer key.toInt64)
      | .string index =>
          match tolstring strings index with
          | none => .fail .unset
          | some str => .ok (.string str)

def pushfirsthash (strings : Strings) (tbl : Table Conf) : M (Option Key) :=
  if tbl.sizehash ≠ 0 then do
    let k ← pushkey strings tbl 0
    .ok (some k)
  else .ok none

def Conf.isNil : Conf → Bool
  | .nil => true
  | _ => false

/-- The array from the index `i` on, and the hash behind it. -/
def nextInArray (strings : Strings) (tbl : Table Conf) (i : Nat) : M (Option Key) :=
  match (List.range' i (tbl.sizearray - i)).find? fun j => !(tbl.array j).isNil with
  | some j => .ok (some (.integer (Int64.ofNat (j + 1))))
  | none => pushfirsthash strings tbl

def lnextkey (strings : Strings) (tbl : Table Conf) : Option Key → M (Option Key)
  | none => nextInArray strings tbl 0
  | some k =>
      match inArray tbl.sizearray k with
      | some key => nextInArray strings tbl key
      | none => do
          let found ← lookupKey strings tbl (sought k).1 (sought k).2
          match found with
          | none => .ok none
          | some slot =>
              if slot + 1 = tbl.sizehash then .ok none
              else do
                let k ← pushkey strings tbl (slot + 1)
                .ok (some k)

/-- The keys to which `lnextkey` comes from a key on, in at most so many rounds. -/
def keysFrom (strings : Strings) (tbl : Table Conf) : Nat → Option Key → M (List Key)
  | 0, _ => .fail .endless
  | rounds + 1, k => do
      let next ← lnextkey strings tbl k
      match next with
      | none => .ok []
      | some next => do
          let rest ← keysFrom strings tbl rounds (some next)
          .ok (next :: rest)

end Jump.Skynet.ShareData
