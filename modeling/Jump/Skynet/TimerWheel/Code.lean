import Jump.Core.Word
import Mathlib.Data.List.Basic
import Mathlib.Logic.Function.Basic

/-! # The timer wheel of `skynet_timer.c`

A linked list is a list of its nodes, first one first. The sections between `LOCK`
and `UNLOCK` are single steps, so `timer_add` can come between any two steps of the
thread that runs `timer_update`.
-/

namespace Jump.Skynet.TimerWheel

open Jump.Core

def TIME_NEAR_SHIFT : Nat := 8
def TIME_NEAR : Nat := 1 <<< TIME_NEAR_SHIFT
def TIME_LEVEL_SHIFT : Nat := 6
def TIME_LEVEL : Nat := 1 <<< TIME_LEVEL_SHIFT
def TIME_NEAR_MASK : Nat := TIME_NEAR - 1
def TIME_LEVEL_MASK : Nat := TIME_LEVEL - 1

structure TimerEvent where
  handle : Nat
  session : Int
deriving DecidableEq

/-- `struct timer_node` and the event behind it. -/
structure TimerNode where
  expire : Nat
  event : TimerEvent
deriving DecidableEq

/-- `near[idx]` and `t[level][idx]` -/
inductive Slot where
  | near (idx : Nat)
  | t (level idx : Nat)
deriving DecidableEq

structure Timer where
  list : Slot → List TimerNode
  time : Nat

/-- Empty lists, at any time. -/
def create (time : Nat) : Timer := ⟨fun _ => [], time⟩

def linkClear (T : Timer) (slot : Slot) : Timer :=
  { T with list := Function.update T.list slot [] }

def link (T : Timer) (slot : Slot) (node : TimerNode) : Timer :=
  { T with list := Function.update T.list slot (T.list slot ++ [node]) }

/-- The loop of `add_node`: `n` more rounds, with the level and the mask. -/
def findLevel (time currentTime : Nat) : Nat → Nat → Nat → Nat
  | 0, i, _ => i
  | n + 1, i, mask =>
    if time ||| (mask - 1) = currentTime ||| (mask - 1) then i
    else findLevel time currentTime n (i + 1) (u32 (mask <<< TIME_LEVEL_SHIFT))

/-- The list that `add_node` takes. -/
def slotOf (time currentTime : Nat) : Slot :=
  if time ||| TIME_NEAR_MASK = currentTime ||| TIME_NEAR_MASK then
    .near (time &&& TIME_NEAR_MASK)
  else
    let i := findLevel time currentTime 3 0 (TIME_NEAR <<< TIME_LEVEL_SHIFT)
    .t i ((time >>> (TIME_NEAR_SHIFT + i * TIME_LEVEL_SHIFT)) &&& TIME_LEVEL_MASK)

def addNode (T : Timer) (node : TimerNode) : Timer :=
  link T (slotOf node.expire T.time) node

def timerAdd (T : Timer) (event : TimerEvent) (time : Int) : Timer :=
  addNode T ⟨u32 (uint32OfInt time + T.time), event⟩

def moveList (T : Timer) (level idx : Nat) : Timer :=
  (T.list (.t level idx)).foldl addNode (linkClear T (.t level idx))

/-- The loop of `timer_shift`. There is a digit other than zero in one of four rounds. -/
def shiftLoop (T : Timer) (ct : Nat) : Nat → Nat → Nat → Nat → Timer
  | 0, _, _, _ => T
  | n + 1, mask, time, i =>
    if ct &&& (mask - 1) = 0 then
      let idx := time &&& TIME_LEVEL_MASK
      if idx ≠ 0 then moveList T i idx
      else shiftLoop T ct n (mask <<< TIME_LEVEL_SHIFT) (time >>> TIME_LEVEL_SHIFT) (i + 1)
    else T

def timerShift (T : Timer) : Timer :=
  let ct := u32 (T.time + 1)
  let T' := { T with time := ct }
  if ct = 0 then moveList T' 3 0
  else shiftLoop T' ct 4 TIME_NEAR (ct >>> TIME_NEAR_SHIFT) 0

/-- Where the thread of `timer_update` is: outside, before a `timer_execute` (the first or the
second one), in `dispatch_list` at the node `current`, at the condition of the loop after it,
or before `timer_shift`. -/
inductive Pc where
  | idle
  | execute (second : Bool)
  | dispatch (second : Bool) (idx : Nat) (current : TimerNode) (next : List TimerNode)
  | again (second : Bool) (idx : Nat)
  | shift
deriving DecidableEq

/-- The timer, its thread, and what has happened: how many times `timer_shift` ran, the timers
added, with the tick that each is for, and those dispatched, with the tick of that. -/
structure State where
  T : Timer
  pc : Pc
  ticks : Nat
  added : List (Nat × TimerNode)
  log : List (Nat × TimerNode)

/-- The part of `timer_execute` that holds the lock. -/
def executeSection (s : State) (second : Bool) (idx : Nat) : State :=
  match s.T.list (.near idx) with
  | [] => { s with pc := if second then .idle else .shift }
  | current :: next =>
    { s with T := linkClear s.T (.near idx), pc := .dispatch second idx current next }

/-- The next step of the thread of `timer_update`. -/
def updateStep (s : State) : State :=
  match s.pc with
  | .idle => { s with pc := .execute false }
  | .execute second => executeSection s second (s.T.time &&& TIME_NEAR_MASK)
  | .dispatch second idx current next =>
    { s with
      log := s.log ++ [(s.ticks, current)]
      pc := match next with
        | [] => .again second idx
        | node :: rest => .dispatch second idx node rest }
  | .again second idx => executeSection s second idx
  | .shift => { s with T := timerShift s.T, ticks := s.ticks + 1, pc := .execute true }

/-- The times of `timer_add`. -/
abbrev Delay : Type := { time : Int // 0 < time ∧ time < 2 ^ 31 }

inductive Action where
  | add (event : TimerEvent) (time : Delay)
  | update

def step (s : State) : Action → State
  | .add event time =>
    { s with
      T := timerAdd s.T event time.1
      added := s.added ++
        [(s.ticks + time.1.toNat, ⟨u32 (uint32OfInt time.1 + s.T.time), event⟩)] }
  | .update => updateStep s

def start (time : UInt32) : State := ⟨create time.toNat, .idle, 0, [], []⟩

def run (time : UInt32) (actions : List Action) : State := actions.foldl step (start time)

end Jump.Skynet.TimerWheel
