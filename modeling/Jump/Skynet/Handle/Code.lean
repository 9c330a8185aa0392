import Mathlib.Data.List.Basic
import Mathlib.Logic.Function.Basic

/-! # The functions of `skynet_handle.c`

A handle is 32 bits wide: the harbor in the high byte, and below it a number
whose low bits are the slot of the context. The storage does not keep the
handles of the slots; it reads them from the contexts (`skynet_context_handle`),
so every function takes them as an argument.
-/

namespace Jump.Skynet.Handle

def HANDLE_MASK : UInt32 := 0xffffff

def HANDLE_REMOTE_SHIFT : UInt32 := 24

def DEFAULT_SLOT_SIZE : Nat := 4

/-- `struct handle_name` -/
structure HandleName where
  name : String
  handle : UInt32
deriving DecidableEq

/-- `struct handle_storage`. The array `slot` has `slotSize` entries. -/
structure HandleStorage (C : Type) where
  harbor : UInt32
  handleIndex : UInt32
  slotSize : Nat
  slot : Nat → Option C
  name : List HandleName

/-- What stops the process in `skynet_handle_register`: one of its two assertions,
or a slot without context in a table found full. -/
inductive Abort where
  | tooManySlots
  | newSlotTaken
  | nullContext
deriving DecidableEq

variable {C : Type}

/-- `handle & (slot_size - 1)` -/
def hash (slotSize : Nat) (handle : UInt32) : Nat :=
  (handle &&& UInt32.ofNat (slotSize - 1)).toNat

/-- `skynet_handle_init` -/
def init (harbor : UInt32) : HandleStorage C where
  harbor := (harbor &&& 0xff) <<< HANDLE_REMOTE_SHIFT
  handleIndex := 1
  slotSize := DEFAULT_SLOT_SIZE
  slot := fun _ => none
  name := []

/-- The handle, without harbor, that the slot loop tries at `i`. -/
def candidate (s : HandleStorage C) (i : Nat) : UInt32 :=
  (UInt32.ofNat i + s.handleIndex) &&& HANDLE_MASK

/-- The slot loop: the first candidate whose slot is free. -/
def freeHandle (s : HandleStorage C) : Option UInt32 :=
  ((List.range s.slotSize).map (candidate s)).find?
    (fun handle => (s.slot (hash s.slotSize handle)).isNone)

def store (s : HandleStorage C) (handle : UInt32) (ctx : C) : HandleStorage C :=
  { s with
    slot := Function.update s.slot (hash s.slotSize handle) (some ctx)
    handleIndex := handle + 1 }

section Functions

variable (contextHandle : C → UInt32)

/-- The loop that fills `new_slot` from the slots `is`. -/
def rehash (s : HandleStorage C) (newSlot : Nat → Option C) :
    List Nat → Except Abort (Nat → Option C)
  | [] => .ok newSlot
  | i :: is =>
    match s.slot i with
    | none => .error .nullContext
    | some ctx =>
      let h := hash (s.slotSize * 2) (contextHandle ctx)
      if newSlot h = none then
        rehash s (Function.update newSlot h (some ctx)) is
      else .error .newSlotTaken

/-- `skynet_handle_register`; `fuel` bounds the rounds of the outer loop. -/
def register (ctx : C) : Nat → HandleStorage C →
    Option (Except Abort (UInt32 × HandleStorage C))
  | 0, _ => none
  | fuel + 1, s =>
    match freeHandle s with
    | some handle => some (.ok (handle ||| s.harbor, store s handle ctx))
    | none =>
      if s.slotSize * 2 - 1 ≤ HANDLE_MASK.toNat then
        match rehash contextHandle s (fun _ => none) (List.range s.slotSize) with
        | .error e => some (.error e)
        | .ok newSlot =>
          register ctx fuel { s with slot := newSlot, slotSize := s.slotSize * 2 }
      else some (.error .tooManySlots)

/-- `skynet_handle_retire`: the result, the context to release, and the storage. -/
def retire (handle : UInt32) (s : HandleStorage C) :
    Int × Option C × HandleStorage C :=
  match s.slot (hash s.slotSize handle) with
  | none => (0, none, s)
  | some ctx =>
    if contextHandle ctx = handle then
      (1, some ctx,
        { s with
          slot := Function.update s.slot (hash s.slotSize handle) none
          name := s.name.filter (fun n => n.handle ≠ handle) })
    else (0, none, s)

/-- `skynet_handle_grab`, without the reference that it adds. -/
def grab (handle : UInt32) (s : HandleStorage C) : Option C :=
  match s.slot (hash s.slotSize handle) with
  | none => none
  | some ctx => if contextHandle ctx = handle then some ctx else none

end Functions

end Jump.Skynet.Handle
