import Mathlib.Logic.Function.Basic

/-! # Global names

The names in `cmaster.lua` and in the `cslave.lua` of each node. The links between the master and
its slaves keep the order of the messages. What the slaves tell their harbor services is left out.
-/

namespace Jump.Skynet.GlobalNames

abbrev Name := List UInt8

/-- A name that `globalname` of `manager.lua` lets through; the packages of such a name are short
enough for `pack_package`. -/
structure GlobalName where
  name : Name
  not_address : name.head? ≠ some 58
  not_local : name.head? ≠ some 46
  length_le : name.length ≤ 16

/-- `globalname` and `queryname`, with the sessions of the responses that wait. -/
structure Slave where
  globalname : Name → Option Nat
  queryname : Name → List Nat

/-- The packages of a slave for the master. -/
inductive Package where
  | R (name : Name) (address : Nat)
  | Q (name : Name)
deriving DecidableEq

structure Answer (ι : Type) where
  slave : ι
  session : Nat
  name : Name
  address : Option Nat
deriving DecidableEq

/-- The master and its slaves, the packages that they have still to read, and the answers that
`QUERYNAME` gave. -/
structure Net (ι : Type) where
  globalName : Name → Option Nat
  slave : ι → Slave
  up : ι → List Package
  down : ι → List (Name × Nat)
  answers : List (Answer ι)

variable {ι : Type} [DecidableEq ι]

def start : Net ι := ⟨fun _ => none, fun _ => ⟨fun _ => none, fun _ => []⟩, fun _ => [],
  fun _ => [], []⟩

/-- `globalname[name] = address` and `response_name`. -/
def Net.setName (s : Net ι) (i : ι) (name : Name) (address : Nat) : Net ι :=
  { s with
    slave := Function.update s.slave i
      ⟨Function.update (s.slave i).globalname name (some address),
        Function.update (s.slave i).queryname name []⟩
    answers := s.answers ++
      ((s.slave i).queryname name).map fun session => ⟨i, session, name, some address⟩ }

def Net.write (s : Net ι) (i : ι) (package : Package) : Net ι :=
  { s with up := Function.update s.up i (s.up i ++ [package]) }

/-- `harbor.REGISTER` -/
def Net.register (s : Net ι) (i : ι) (name : Name) (handle : Nat) : Net ι :=
  if ((s.slave i).globalname name).isSome then s
  else (s.setName i name handle).write i (.R name handle)

def Net.answer (s : Net ι) (answer : Answer ι) : Net ι :=
  { s with answers := s.answers ++ [answer] }

/-- `harbor.QUERYNAME`; `localname` is what `skynet.localname` gives in each node. -/
def Net.queryname (localname : ι → Name → Option Nat) (s : Net ι) (i : ι) (session : Nat)
    (name : Name) : Net ι :=
  if name.head? = some 46 then s.answer ⟨i, session, name, localname i name⟩
  else
    match (s.slave i).globalname name with
    | some result => s.answer ⟨i, session, name, some result⟩
    | none =>
      { s with
        slave := Function.update s.slave i
          ⟨(s.slave i).globalname, Function.update (s.slave i).queryname name
            ((s.slave i).queryname name ++ [session])⟩ }

/-- `monitor_harbor` for a query of the harbor service. -/
def Net.monitorHarbor (s : Net ι) (i : ι) (name : Name) : Net ι :=
  if ((s.slave i).globalname name).isSome then s else s.write i (.Q name)

/-- `dispatch_slave` -/
def Net.dispatchSlave (s : Net ι) (i : ι) : Net ι :=
  match s.up i with
  | [] => s
  | .R name address :: rest =>
    { s with
      globalName := if (s.globalName name).isSome then s.globalName
        else Function.update s.globalName name (some address)
      up := Function.update s.up i rest
      down := fun j => s.down j ++ [(name, address)] }
  | .Q name :: rest =>
    { s with
      up := Function.update s.up i rest
      down := match s.globalName name with
        | some address => Function.update s.down i (s.down i ++ [(name, address)])
        | none => s.down }

/-- `monitor_master` for a package `N`. -/
def Net.monitorMaster (s : Net ι) (i : ι) : Net ι :=
  match s.down i with
  | [] => s
  | (name, address) :: rest =>
    { s.setName i name address with down := Function.update s.down i rest }

inductive Action (ι : Type) where
  | register (i : ι) (name : GlobalName) (handle : Nat)
  | queryname (i : ι) (session : Nat) (name : Name)
  | monitorHarbor (i : ι) (name : Name)
  | dispatchSlave (i : ι)
  | monitorMaster (i : ι)

def step (localname : ι → Name → Option Nat) (s : Net ι) : Action ι → Net ι
  | .register i name handle => s.register i name.name handle
  | .queryname i session name => s.queryname localname i session name
  | .monitorHarbor i name => s.monitorHarbor i name
  | .dispatchSlave i => s.dispatchSlave i
  | .monitorMaster i => s.monitorMaster i

def run (localname : ι → Name → Option Nat) (actions : List (Action ι)) (s : Net ι) : Net ι :=
  actions.foldl (step localname) s

/-- No message is in flight. -/
def Net.Quiet (s : Net ι) : Prop := ∀ i, s.up i = [] ∧ s.down i = []

end Jump.Skynet.GlobalNames
