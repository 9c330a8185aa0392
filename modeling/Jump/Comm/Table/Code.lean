import Jump.Core.LastEntry

/-! # Loading a configuration table

`CommLoad::loadCSV2Map` and `find`, with `sepstr` as it cuts a line into cells. The
generated message classes are parameters: what `createMessage` knows of a message name,
what `setValue` makes of a cell, and the key of a record. `none` stands for a process that
ends here: a failed `assert`, a read behind the cells of the row, a null dereference.
-/

namespace Jump.Comm.Table

open Jump.Core.LastEntry

abbrev Str := List Char

section Text

/-- The loop of `sepstr`, where `sStr` is what `pos` has not passed yet. -/
def sepstrLoop (sSep : Str) (withEmpty : Bool) : Nat → Str → List Str
  | 0, _ => []
  | fuel + 1, sStr =>
      let pos1 := sStr.findIdx? fun c => sSep.contains c
      let s := (pos1.map fun i => sStr.take i).getD sStr
      let vt := if withEmpty ∨ s ≠ [] then [s] else []
      match pos1 with
      | none => vt
      | some i => vt ++ sepstrLoop sSep withEmpty fuel (sStr.drop (i + 1))

/-- `YAC_Common::sepstr<string>`: every character of `sSep` separates. -/
def sepstr (sStr sSep : Str) (withEmpty : Bool) : List Str :=
  sepstrLoop sSep withEmpty (sStr.length + 1) sStr

/-- What one `getline` after another reads of a file. -/
def getlines : Str → List Str
  | [] => []
  | c :: fin =>
      if c = '\n' then [] :: getlines fin
      else match getlines fin with
        | [] => [[c]]
        | line :: lines => (c :: line) :: lines

end Text

/-- What the message class of a table is known by. -/
structure Descriptor where
  /-- `field(i)->name()` -/
  fields : List Str
  /-- `dynamic_cast<value*>` succeeds on the message. -/
  isValue : Bool

/-- The fields of a message, name and value -/
abbrev Record (ν : Type) := List (Str × ν)

/-- The generated code, and the `getKey` of the call -/
structure Classes (κ ν : Type) where
  createMessage : Str → Option Descriptor
  /-- What the field of this name holds after `setValue` of the cell. -/
  setValue : Str → Str → ν
  getKey : Record ν → κ

/-- The state of `loadCSV2Map` in front of the data rows -/
structure Opened where
  descriptor : Descriptor
  /-- The row with the field names -/
  header : Str
  lines : List Str

/-- Column numbers by field name -/
def Opened.mFields (t : Opened) : Map Str Nat :=
  storeAll (sepstr t.header [','] false).zipIdx ∅

section Load

variable {κ ν : Type} [DecidableEq κ] (c : Classes κ ν)

/-- `loadCSV2Map` up to the loop over the data rows, `none` where it returns `false`. -/
def openTable (csv_file : Option Str) : Option Opened := do
  match getlines (← csv_file) with
  | first :: _ :: third :: lines =>
      let name ← (sepstr first [','] false).head?
      if (sepstr third [','] false).length = 0 then none
      else
        let descriptor ← c.createMessage (['p', 'r', 'o', 't', 'o', 'c', 'o', 'l', '.'] ++ name)
        pure ⟨descriptor, third, lines⟩
  | _ => none

/-- The cell under the column of one field, set as its value -/
def readField (t : Opened) (vUnits : List Str) (strFieldName : Str) : Option (Str × ν) := do
  let col ← t.mFields.lookup strFieldName
  let unit ← vUnits[col]?
  pure (strFieldName, c.setValue strFieldName unit)

/-- The fields of one row, one after another -/
def fillFields (t : Opened) (vUnits : List Str) : Option (Record ν) :=
  t.descriptor.fields.mapM (readField c t vUnits)

/-- The record of one row, with the cast to the type of the records -/
def readRecord (t : Opened) (vUnits : List Str) : Option (Record ν) := do
  let msg ← fillFields c t vUnits
  if t.descriptor.isValue then pure msg else none

/-- The length check of a data row -/
def Opened.Long (t : Opened) (line : Str) : Prop :=
  t.mFields.entries.length ≤ (sepstr line [','] true).length

instance (t : Opened) (line : Str) : Decidable (t.Long line) :=
  inferInstanceAs (Decidable (_ ≤ _))

/-- The loop over the data rows, with what it returns and leaves in `_conf` -/
def loadRows (t : Opened) :
    List Str → Map κ (Record ν) → Option (Bool × Map κ (Record ν))
  | [], conf => some (true, conf)
  | line :: lines, conf =>
      if t.Long line then do
        let record ← readRecord c t (sepstr line [','] true)
        loadRows t lines (conf.insert (c.getKey record) record)
      else some (false, conf)

def loadCSV2Map (csv_file : Option Str) (conf : Map κ (Record ν)) :
    Option (Bool × Map κ (Record ν)) :=
  match openTable c csv_file with
  | none => some (false, conf)
  | some t => loadRows c t t.lines conf

def find (conf : Map κ (Record ν)) (k : κ) : Option (Record ν) := conf.lookup k

end Load

end Jump.Comm.Table
