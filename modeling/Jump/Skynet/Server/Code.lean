import Jump.Core.RingBuffer
import Jump.Core.Threads
import Mathlib.Data.List.Basic

/-! # Contexts and their message queues

`skynet_context_new`, `skynet_context_release`, `skynet_context_push`,
`skynet_handle_grab`, `skynet_handle_retire` and `skynet_context_message_dispatch` with
the functions of `skynet_mq.c`, as threads that take one atomic step after the other: an
atomic operation, a section between `LOCK` and `UNLOCK`, or an access to a context. A call
that a service makes inside of its init function or its callback is a thread of its own.

The table of handles is that of `Jump.Skynet.Handle`. Here it finds a context only if the
context is stored in it and has the handle; whether it finds one is left open.
-/

namespace Jump.Skynet.Server

open Jump.Core

/-- `struct skynet_context`. The last two say whether the table has it, and whether its count
has reached zero. -/
structure Context where
  ref : Int
  handle : Nat
  queue : Option Nat
  init : Bool
  cb : Bool
  stored : Bool
  deleted : Bool

/-- What becomes of a message: it is passed to the callback, freed because there is none, or
freed by `drop_message`. -/
inductive Fate where
  | called
  | noCallback
  | dropped
deriving DecidableEq

/-- `struct message_queue` without the counters of its overload warning. The other members
record what has happened: the context it was made for, whether `_release` has freed it, how
often it was marked, the messages pushed, the one that a worker has popped and not yet passed
on, and what became of those before it. -/
structure MessageQueue where
  handle : Nat
  ring : RingBuffer Nat
  inGlobal : Bool
  release : Bool
  owner : Nat
  freed : Bool
  marked : Nat
  pushed : List Nat
  taken : Option Nat
  log : List (Nat × Fate)

def DEFAULT_QUEUE_SIZE : Nat := 64

/-- `skynet_mq_create` -/
def mqCreate (handle owner : Nat) : MessageQueue where
  handle := handle
  ring := .empty DEFAULT_QUEUE_SIZE (by decide) 0
  inGlobal := true
  release := false
  owner := owner
  freed := false
  marked := 0
  pushed := []
  taken := none
  log := []

/-- What follows a `skynet_context_release` or `skynet_mq_release`. -/
inductive Then where
  | finish
  /-- `return skynet_globalmq_pop()` -/
  | pop (weight : Int)
  /-- the worker's next queue -/
  | work (q : Nat) (weight : Int)
  /-- `skynet_context_new` after a successful init -/
  | newTail (c q : Nat)
  /-- `skynet_context_new` after a failed init: the handle is retired, -/
  | newRetire (handle q : Nat)
  /-- and the queue released -/
  | newDrop (q : Nat)
deriving DecidableEq

/-- Where a thread stands; a step is about to do what the constructor says. -/
inductive Pc where
  | done
  /-- `skynet_context_push(handle, m)` -/
  | push (handle m : Nat)
  | pushQueue (c m : Nat)
  /-- `skynet_handle_grab(handle)`, some use of the context, and its release -/
  | grab (handle : Nat)
  | use (c : Nat)
  /-- `skynet_handle_retire(handle)` -/
  | retire (handle : Nat) (next : Then)
  /-- `skynet_context_release(c)`, and `delete_context(c)` in two parts -/
  | release (c : Nat) (next : Then)
  | markRelease (c : Nat) (next : Then)
  | free (c : Nat) (next : Then)
  /-- `skynet_context_new` -/
  | newMalloc
  | newRegister (c : Nat)
  | newHandle (c handle : Nat)
  | newQueue (c handle : Nat)
  | newInit (c q : Nat)
  | newFailed (c q : Nat)
  | newReady (c q : Nat)
  | newPush (c q : Nat) (ret : Bool)
  | newError (c : Nat)
  /-- `skynet_context_message_dispatch`: `skynet_globalmq_pop`, and the queue `q` -/
  | pop (weight : Int)
  | work (q : Nat) (weight : Int)
  | message (c q i n : Nat) (weight : Int)
  | got (c q m i n : Nat) (weight : Int)
  | call (c q i n : Nat) (weight : Int)
  | next (c q : Nat) (weight : Int)
  | requeue (c q nq : Nat) (weight : Int)
  /-- `skynet_mq_release(q)`, and `_drop_queue(q)` in two parts -/
  | drop (q : Nat) (next : Then)
  | dropping (q : Nat) (next : Then)
  | freeQueue (q : Nat) (next : Then)
deriving DecidableEq

/-- What must not happen: an access to a context whose count has reached zero, a queue pointer
that was not set, or a failed assertion. -/
inductive Fault where
  | deletedContext (c : Nat)
  | noQueue (c : Nat)
  | linkedTwice (q : Nat)
  | markedTwice (q : Nat)
  | otherQueue (q : Nat)
  | notInit (c : Nat)
deriving DecidableEq

structure State where
  context : Nat → Context
  contexts : Nat
  queue : Nat → MessageQueue
  queues : Nat
  global : List Nat
  faults : List Fault
  threads : List Pc

/-- What the environment decides: what the table finds, the handle that it gives, how the init
function ends, or that a service calls `skynet_callback`. -/
inductive Choice where
  | go
  | found (c : Option Nat)
  | handle (handle : Nat)
  | init (ok : Bool)
  | callback
deriving DecidableEq

namespace State

def setContext (s : State) (c : Nat) (x : Context) : State :=
  { s with context := Function.update s.context c x }

def setQueue (s : State) (q : Nat) (x : MessageQueue) : State :=
  { s with queue := Function.update s.queue q x }

def fault (s : State) (f : Fault) : State := { s with faults := s.faults ++ [f] }

/-- A check, which leaves a fault behind when it fails. -/
def check (s : State) (ok : Bool) (f : Fault) : State := if ok then s else s.fault f

/-- An access to a context. -/
def touch (s : State) (c : Nat) : State :=
  s.check (!(s.context c).deleted) (.deletedContext c)

/-- What `skynet_handle_grab` and `skynet_handle_retire` may find. -/
def Finds (s : State) (handle c : Nat) : Prop :=
  c < s.contexts ∧ (s.context c).stored = true ∧ (s.context c).handle = handle

instance (s : State) (handle c : Nat) : Decidable (s.Finds handle c) := by
  unfold Finds
  infer_instance

/-- `skynet_context_grab` -/
def contextGrab (s : State) (c : Nat) : State :=
  s.setContext c { s.context c with ref := (s.context c).ref + 1 }

/-- `skynet_globalmq_push` -/
def globalPush (s : State) (q : Nat) : State :=
  let s := s.check (decide (q ∉ s.global)) (.linkedTwice q)
  { s with global := s.global ++ [q] }

/-- `skynet_mq_push` -/
def mqPush (s : State) (q m : Nat) : State :=
  let x := s.queue q
  let s' := s.setQueue q
    { x with ring := x.ring.push m, inGlobal := true, pushed := x.pushed ++ [m] }
  if x.inGlobal then s' else s'.globalPush q

/-- `skynet_mq_mark_release` -/
def mqMarkRelease (s : State) (q : Nat) : State :=
  let x := s.queue q
  let s := s.check (!x.release) (.markedTwice q)
  let s' := s.setQueue q { x with release := true, marked := x.marked + 1 }
  if x.inGlobal then s' else s'.globalPush q

end State

/-- Where a thread goes on after a release; `ret` says that the context is still there. -/
def Then.resume (next : Then) (ret : Bool) : Pc :=
  match next with
  | .finish => .done
  | .pop weight => .pop weight
  | .work q weight => .work q weight
  | .newTail c q => if ret then .newReady c q else .newPush c q false
  | .newRetire handle q => .retire handle (.newDrop q)
  | .newDrop q => .drop q .finish

/-- The end of a round of the loop in `skynet_context_message_dispatch`. -/
def loop (c q i n : Nat) (weight : Int) : Pc :=
  if i + 1 < n then .message c q (i + 1) n weight else .next c q weight

/-- One step of a thread. -/
def move (s : State) : Pc → Choice → Option (State × Pc)
  | .push _ _, .found none => some (s, .done)
  | .push handle m, .found (some c) =>
    if s.Finds handle c then some (s.contextGrab c, .pushQueue c m) else none
  | .pushQueue c m, .go =>
    let s := s.touch c
    match (s.context c).queue with
    | none => some (s.fault (.noQueue c), .release c .finish)
    | some q => some (s.mqPush q m, .release c .finish)
  | .grab _, .found none => some (s, .done)
  | .grab handle, .found (some c) =>
    if s.Finds handle c then some (s.contextGrab c, .use c) else none
  | .use c, .go => some (s.touch c, .release c .finish)
  | .retire _ next, .found none => some (s, next.resume true)
  | .retire handle next, .found (some c) =>
    if s.Finds handle c then
      some (s.setContext c { s.context c with stored := false }, .release c next)
    else none
  | .release c next, .go =>
    let s := s.touch c
    let ref := (s.context c).ref - 1
    if ref = 0 then
      some (s.setContext c { s.context c with ref := ref, deleted := true }, .markRelease c next)
    else some (s.setContext c { s.context c with ref := ref }, next.resume true)
  | .markRelease c next, .go =>
    match (s.context c).queue with
    | none => some (s.fault (.noQueue c), .free c next)
    | some q => some (s.mqMarkRelease q, .free c next)
  | .free _ next, .go => some (s, next.resume false)
  | .newMalloc, .go =>
    let s' := s.setContext s.contexts ⟨2, 0, none, false, false, false, false⟩
    some ({ s' with contexts := s.contexts + 1 }, .newRegister s.contexts)
  | .newRegister c, .handle handle =>
    let s := s.touch c
    some (s.setContext c { s.context c with stored := true }, .newHandle c handle)
  | .newHandle c handle, .go =>
    let s := s.touch c
    some (s.setContext c { s.context c with handle := handle }, .newQueue c handle)
  | .newQueue c handle, .go =>
    let s := s.touch c
    let s' := (s.setQueue s.queues (mqCreate handle c)).setContext c
      { s.context c with queue := some s.queues }
    some ({ s' with queues := s.queues + 1 }, .newInit c s.queues)
  | .newInit c q, .callback =>
    let s := s.touch c
    some (s.setContext c { s.context c with cb := true }, .newInit c q)
  | .newInit c q, .init ok =>
    some (s, if ok then .release c (.newTail c q) else .newFailed c q)
  | .newFailed c q, .go =>
    some (s.touch c, .release c (.newRetire (s.context c).handle q))
  | .newReady c q, .go =>
    let s := s.touch c
    some (s.setContext c { s.context c with init := true }, .newPush c q true)
  | .newPush c q ret, .go => some (s.globalPush q, if ret then .newError c else .done)
  | .newError c, .go => some (s.touch c, .done)
  | .pop weight, .go =>
    match s.global with
    | [] => some (s, .done)
    | q :: rest => some ({ s with global := rest }, .work q weight)
  | .work q weight, .found none => some (s, .drop q (.pop weight))
  | .work q weight, .found (some c) =>
    if s.Finds (s.queue q).handle c then some (s.contextGrab c, .message c q 0 1 weight) else none
  | .message c q i n weight, .go =>
    let x := s.queue q
    match x.ring.pop with
    | none => some (s.setQueue q { x with inGlobal := false }, .release c (.pop weight))
    | some (m, ring) =>
      some (s.setQueue q { x with ring := ring, taken := some m }, .got c q m i n weight)
  | .got c q m i n weight, .go =>
    let s := s.touch c
    let x := s.queue q
    let n := if i = 0 ∧ 0 ≤ weight then x.ring.length >>> weight.toNat else n
    if (s.context c).cb then
      let s := s.check (s.context c).init (.notInit c)
      some (s.setQueue q { x with taken := none, log := x.log ++ [(m, .called)] },
        .call c q i n weight)
    else
      some (s.setQueue q { x with taken := none, log := x.log ++ [(m, .noCallback)] },
        loop c q i n weight)
  | .call c q i n weight, .callback =>
    let s := s.touch c
    some (s.setContext c { s.context c with cb := true }, .call c q i n weight)
  | .call c q i n weight, .go => some (s.touch c, loop c q i n weight)
  | .next c q weight, .go =>
    let s := s.touch c
    let s := s.check (decide ((s.context c).queue = some q)) (.otherQueue q)
    match s.global with
    | [] => some (s, .release c (.work q weight))
    | nq :: rest => some ({ s with global := rest }, .requeue c q nq weight)
  | .requeue c q nq weight, .go => some (s.globalPush q, .release c (.work nq weight))
  | .drop q next, .go =>
    if (s.queue q).release then some (s, .dropping q next)
    else some (s.globalPush q, next.resume false)
  | .dropping q next, .go =>
    let x := s.queue q
    match x.ring.pop with
    | none => some (s.setQueue q { x with inGlobal := false }, .freeQueue q next)
    | some (m, ring) =>
      some (s.setQueue q { x with ring := ring, log := x.log ++ [(m, .dropped)] },
        .dropping q next)
  | .freeQueue q next, .go =>
    some (s.setQueue q { s.queue q with freed := true }, next.resume false)
  | _, _ => none

/-- A thread starts one of the functions, or thread `i` takes a step. -/
inductive Action where
  | push (handle m : Nat)
  | grab (handle : Nat)
  | retire (handle : Nat)
  | new
  | dispatch (weight : Int)
  | step (i : Nat) (choice : Choice)

def start : State where
  context := fun _ => ⟨0, 0, none, false, false, false, false⟩
  contexts := 0
  queue := fun _ => mqCreate 0 0
  queues := 0
  global := []
  faults := []
  threads := []

def State.spawn (s : State) (pc : Pc) : State := { s with threads := s.threads ++ [pc] }

def step (s : State) : Action → Option State
  | .push handle m => some (s.spawn (.push handle m))
  | .grab handle => some (s.spawn (.grab handle))
  | .retire handle => some (s.spawn (.retire handle .finish))
  | .new => some (s.spawn .newMalloc)
  | .dispatch weight => some (s.spawn (.pop weight))
  | .step i choice => do
    let pc ← s.threads[i]?
    let (s', pc') ← move s pc choice
    return { s' with threads := s.threads.set i pc' }

end Jump.Skynet.Server
