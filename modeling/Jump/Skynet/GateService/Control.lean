import Jump.Core.CString
import Jump.Core.Strtoll
import Jump.Skynet.GateService.Code
import Jump.Skynet.Sending.Code

/-! # The commands of the gate

`_ctrl` works on a copy of the message with a NUL behind it. Every access to the copy is checked,
and so is every access to the literals that the message is compared with.
-/

namespace Jump.Skynet.GateService

open Jump.Core Jump.Core.CString

/-- What a message asks for, with the strings that `strtol`, `strtoul` and `skynet_queryname`
get. -/
inductive Request where
  | nothing
  | kick (uid : List Char)
  | forward (id agent client : List Char)
  | broker (name : List Char)
  | start
  | close
deriving DecidableEq

namespace Control

def KICK : List Char := ['k', 'i', 'c', 'k']
def FORWARD : List Char := ['f', 'o', 'r', 'w', 'a', 'r', 'd']
def BROKER : List Char := ['b', 'r', 'o', 'k', 'e', 'r']
def START : List Char := ['s', 't', 'a', 'r', 't']
def CLOSE : List Char := ['c', 'l', 'o', 's', 'e']

/-! ## The code -/

/-- The array `tmp` -/
def tmp (msg : List Char) : Nat → Char := fun i => (msg[i]?).getD NUL

section Code

variable (size : Nat)

/-- `for (i = 0; i < sz; i++)` up to the first blank, with `n` characters left -/
def commandLoop : Nat → Nat → Access Nat
  | 0, i => return i
  | n + 1, i => do
      let c ← charAt size i
      if c = ' ' then return i else commandLoop n (i + 1)

/-- `memcmp(command, literal, n) == 0` from the character `i` on. It reads up to the first
difference. -/
def memcmpLoop : List Char → Nat → Nat → Access Bool
  | _, 0, _ => return true
  | [], _ + 1, _ => throw .outOfBounds
  | d :: literal, n + 1, i => do
      let c ← charAt size i
      if c = d then memcmpLoop literal n (i + 1) else return false

def memcmp (literal : List Char) (n : Nat) : Access Bool := memcmpLoop size (literal ++ [NUL]) n 0

/-- `while (command_sz < sz)` of `_parm` -/
def skipLoop : Nat → Nat → Access Nat
  | 0, i => return i
  | n + 1, i => do
      let c ← charAt size i
      if c ≠ ' ' then return i else skipLoop n (i + 1)

/-- `for (i = command_sz; i < sz; i++)` of `_parm` -/
def moveLoop (command_sz : Nat) : Nat → Nat → Access Nat
  | 0, i => return i
  | n + 1, i => do
      let c ← charAt size i
      setChar size (i - command_sz : Nat) c
      moveLoop command_sz n (i + 1)

/-- `_parm` -/
def parm (sz command_sz : Nat) : Access Unit := do
  let command_sz ← skipLoop size (sz - command_sz) command_sz
  let i ← moveLoop size command_sz (sz - command_sz) command_sz
  setChar size (i - command_sz : Nat) NUL

/-- `strsep(&p, " ")`: the new `p`; the token is the old one. -/
def strsep (p : Nat) : Access (Option Nat) := do
  match ← find size ' ' p with
  | none => return none
  | some q =>
    setChar size q NUL
    return some (q + 1)

/-- The branch of `forward` behind `_parm` -/
def forwardCommand : Access Request := do
  match ← strsep size 0 with
  | none => return .nothing
  | some agent =>
    let idstr ← str size 0
    match ← strsep size agent with
    | none => return .nothing
    | some client => return .forward idstr (← str size (agent + 1)) (← str size (client + 1))

/-- `_ctrl` up to the calls that act on the gate; `sz` is not 0. -/
def command (sz : Nat) : Access Request := do
  let i ← commandLoop size sz 0
  if ← memcmp size KICK i then
    parm size sz i
    return .kick (← str size 0)
  else if ← memcmp size FORWARD i then
    parm size sz i
    forwardCommand size
  else if ← memcmp size BROKER i then
    parm size sz i
    return .broker (← str size 0)
  else if ← memcmp size START i then return .start
  else if ← memcmp size CLOSE i then return .close
  else
    let _ ← str size 0
    return .nothing

end Code

/-- The request that `_ctrl` takes the message for, or the access that went wrong. -/
def parse (msg : List Char) : Except CString.Fault Request :=
  if msg.length = 0 then .ok .nothing
  else (command (msg.length + 1) msg.length (tmp msg)).map Prod.fst

end Control

/-- `strtol(s, NULL, 10)`, a `long` -/
def strtol10 (s : List Char) : Int :=
  let signed := Strtoll.readSign (s.dropWhile Strtoll.isSpace)
  let n := Strtoll.readDigits 10 0 signed.2
  if signed.1 then max (-n) (-9223372036854775808) else min n 9223372036854775807

/-- `strtol` into an `int`, and `strtoul` with base 16 into a `uint32_t` -/
def intOf (s : List Char) : Int := toInt (uint32OfInt (strtol10 s))
def handleOf (s : List Char) : Nat := u32 (Sending.strtoul16 s)

/-- What `_ctrl` does for a request; `queryname` stands for `skynet_queryname`. -/
def Gate.perform (queryname : List Char → Nat) (g : Gate) : Request → Option (Gate × List Out)
  | .nothing => some (g, [])
  | .kick uid => g.step (.kick (intOf uid))
  | .forward id agent client => g.step (.forward (intOf id) (handleOf agent) (handleOf client))
  | .broker name => g.step (.broker (queryname name))
  | .start => g.step .start
  | .close => g.step .stop

/-- The bytes of a message as characters -/
def chars (msg : List UInt8) : List Char := msg.map fun b => Char.ofNat b.toNat

/-- `_ctrl` -/
def Gate.ctrl (queryname : List Char → Nat) (g : Gate) (msg : List UInt8) :
    Option (Gate × List Out) :=
  match Control.parse (chars msg) with
  | .ok request => g.perform queryname request
  | .error _ => none

namespace Control

/-! ## What the messages mean -/

/-- The first token, the text behind it and its blanks, and the string that this text holds -/
def token (msg : List Char) : List Char := msg.takeWhile (· ≠ ' ')
def rest (msg : List Char) : List Char := (msg.dropWhile (· ≠ ' ')).dropWhile (· = ' ')
def arg (msg : List Char) : List Char := (rest msg).takeWhile (· ≠ NUL)

/-- A string up to its first blank, and behind it -/
def cutBlank (s : List Char) : Option (List Char × List Char) :=
  if ' ' ∈ s then some (s.takeWhile (· ≠ ' '), (s.dropWhile (· ≠ ' ')).drop 1) else none

/-- The three pieces of the arguments of `forward` -/
def pieces (s : List Char) : Option (List Char × List Char × List Char) :=
  (cutBlank s).bind fun a => (cutBlank a.2).map fun b => (a.1, b.1, b.2)

/-- The pieces for the handles begin with a `:`. -/
def forwardRequest (s : List Char) : Request :=
  match pieces s with
  | none => .nothing
  | some (id, agent, client) => .forward id (agent.drop 1) (client.drop 1)

/-- The request of a message by its first token -/
def meaning (msg : List Char) : Request :=
  if token msg = KICK then .kick (arg msg)
  else if token msg = FORWARD then forwardRequest (arg msg)
  else if token msg = BROKER then .broker (arg msg)
  else if token msg = START then .start
  else if token msg = CLOSE then .close
  else .nothing

/-- The string behind the NUL of the arguments, in `tmp` as `_parm` leaves it -/
def behind (msg : List Char) : List Char :=
  ((rest msg ++ NUL :: msg.drop ((rest msg).length + 1)).drop ((arg msg).length + 1)).takeWhile
    (· ≠ NUL)

/-- The first token is no other text that passes the comparison with a literal, nor does it go on
behind the NUL of one, and the pieces of a `forward` are not empty (or what lies there is). -/
def PlainToken (msg : List Char) : Prop :=
  (∀ literal ∈ [KICK, FORWARD, BROKER, START, CLOSE],
    (literal ++ [NUL] <+: token msg → token msg = literal ++ [NUL]) ∧
    (token msg <+: literal ++ [NUL] →
      token msg = literal ∨ literal = FORWARD ∧ pieces (arg msg) = none)) ∧
  (token msg = FORWARD → ∀ id agent client, pieces (arg msg) = some (id, agent, client) →
    (agent = [] → client = []) ∧ (client = [] → behind msg = []))

def Plain (msg : List Char) : Prop := msg = [] ∨ PlainToken msg

end Control

end Jump.Skynet.GateService
