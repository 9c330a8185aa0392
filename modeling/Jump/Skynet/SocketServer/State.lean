import Jump.Core.Outcome
import Jump.Core.Word
import Mathlib.Data.List.Basic
import Mathlib.Logic.Function.Basic

/-! # The sockets of the socket server

The slots of `socket_server.c` with their write buffers, the poll set, and what has been done to
buffers and descriptors; and the functions that send, queue and free the buffers of a socket. A
buffer and a descriptor stand for one allocation each: what is allocated again later is another
one. What lies in a buffer is left out.
-/

namespace Jump.Skynet.SocketServer

open Jump.Core

/-! ## The slots -/

def MAX_SOCKET : Nat := 65536
def MAX_EVENT : Nat := 64

/-- `SOCKET_TYPE_…` -/
inductive SocketType where
  | invalid
  | reserve
  | plisten
  | listen
  | connecting
  | connected
  | halfclose
  | paccept
  | bind
deriving DecidableEq

/-- `PROTOCOL_…` -/
inductive Protocol where
  | tcp
  | udp
  | udpv6
deriving DecidableEq

/-- The first byte of an address. -/
def Protocol.byte : Protocol → UInt8
  | .tcp => 0
  | .udp => 1
  | .udpv6 => 2

inductive Priority where
  | high
  | low
deriving DecidableEq

/-- `struct write_buffer`, at the address `node`. The pointer `ptr` is counted from `buffer`. -/
structure WriteBuffer where
  node : Nat
  buffer : Nat
  ptr : Int
  sz : Nat
  userobject : Bool
  udpAddress : List UInt8
deriving DecidableEq

/-- `struct wb_list`: the buffers from `head` on, and the address in `tail`. -/
structure WbList where
  chain : List WriteBuffer
  tail : Option Nat
deriving DecidableEq

/-- `clear_wb_list` -/
def WbList.empty : WbList := ⟨[], none⟩

/-- `struct socket` without the size of its next read. -/
structure Socket where
  opaqueData : Nat
  high : WbList
  low : WbList
  wbSize : Int
  fd : Int
  id : Int
  protocol : Protocol
  type : SocketType
  udpAddress : List UInt8

/-- `struct socket_object_interface`: where the data of an object is, counted from the object,
and how long it is. -/
structure ObjectInterface where
  buffer : Nat → Int
  size : Nat → Nat

/-- What is done with buffers and descriptors. -/
inductive Effect where
  /-- A caller hands a buffer or a user object over. -/
  | handed (buffer : Nat) (userobject : Bool)
  /-- `n` bytes from `ptr` on go out. -/
  | write (fd : Int) (buffer : Nat) (ptr : Int) (n : Nat)
  /-- `skynet_free`, or `soi.free` for a user object -/
  | free (buffer : Nat) (userobject : Bool)
  /-- A descriptor from `socket` or `accept`, or one that a caller gives to `socket_server_bind` -/
  | obtain (fd : Int)
  | given (fd : Int)
  | close (fd : Int)
deriving DecidableEq

/-- The slots, the poll set with the slot and the write flag of each descriptor in it, the next
address of a write buffer, and the effects so far. -/
structure Sockets where
  slot : Nat → Socket
  soi : ObjectInterface
  poll : Int → Option (Nat × Bool)
  node : Nat
  log : List Effect

/-- An assertion, by the function that it is in. -/
inductive Fault where
  | forceClose
  | newFd
  | checkWbList
  | sendBuffer
  | raiseUncomplete
  | appendSendbuffer
  | sendSocket
deriving DecidableEq

abbrev M := Outcome Fault

/-- What `write` and `sendto` return. -/
inductive WriteResult where
  | ok (n : Nat)
  | eintr
  | eagain
  | error
deriving DecidableEq

/-- `HASH_ID` -/
def hashId (id : Int) : Nat := uint32OfInt id % MAX_SOCKET

namespace Socket

def list (s : Socket) : Priority → WbList
  | .high => s.high
  | .low => s.low

def setList (s : Socket) (l : WbList) : Priority → Socket
  | .high => { s with high := l }
  | .low => { s with low := l }

/-- `send_buffer_empty` -/
def sendBufferEmpty (s : Socket) : Bool := s.high.chain.isEmpty && s.low.chain.isEmpty

end Socket

namespace Sockets

variable (w : Sockets)

def set (h : Nat) (s : Socket) : Sockets := { w with slot := Function.update w.slot h s }

def setType (h : Nat) (type : SocketType) : Sockets := w.set h { w.slot h with type := type }

def emit (effects : List Effect) : Sockets := { w with log := w.log ++ effects }

/-- `sp_add`; a descriptor that is in the poll set cannot be added. -/
def spAdd (fd : Int) (h : Nat) (ok : Bool) : Bool × Sockets :=
  if ok ∧ w.poll fd = none then
    (true, { w with poll := Function.update w.poll fd (some (h, false)) })
  else (false, w)

/-- `sp_del` -/
def spDel (fd : Int) : Sockets := { w with poll := Function.update w.poll fd none }

/-- `sp_write`, which does nothing for a descriptor that is not in the poll set. -/
def spWrite (fd : Int) (h : Nat) (enable : Bool) : Sockets :=
  if (w.poll fd).isSome then { w with poll := Function.update w.poll fd (some (h, enable)) } else w

/-- `close`, which takes the descriptor out of the poll set too. -/
def close (fd : Int) : Sockets := (w.spDel fd).emit [.close fd]

@[simp] theorem set_slot (h : Nat) (s : Socket) : (w.set h s).slot h = s :=
  Function.update_self ..

theorem set_slot_ne {h i : Nat} (hi : i ≠ h) (s : Socket) : (w.set h s).slot i = w.slot i :=
  Function.update_of_ne hi ..

@[simp] theorem set_set (h : Nat) (s t : Socket) : (w.set h s).set h t = w.set h t := by
  rw [set, set, set, Function.update_idem]

@[simp] theorem setType_slot (h : Nat) (type : SocketType) :
    (w.setType h type).slot h = { w.slot h with type := type } := Function.update_self ..

@[simp] theorem set_log (h : Nat) (s : Socket) : (w.set h s).log = w.log := rfl

@[simp] theorem set_poll (h : Nat) (s : Socket) : (w.set h s).poll = w.poll := rfl

@[simp] theorem set_soi (h : Nat) (s : Socket) : (w.set h s).soi = w.soi := rfl

@[simp] theorem emit_slot (es : List Effect) : (w.emit es).slot = w.slot := rfl

@[simp] theorem emit_log (es : List Effect) : (w.emit es).log = w.log ++ es := rfl

@[simp] theorem emit_poll (es : List Effect) : (w.emit es).poll = w.poll := rfl

@[simp] theorem emit_soi (es : List Effect) : (w.emit es).soi = w.soi := rfl

theorem emit_nil : w.emit [] = w := by
  rw [emit, List.append_nil]

@[simp] theorem spDel_slot (fd : Int) : (w.spDel fd).slot = w.slot := rfl

@[simp] theorem spDel_log (fd : Int) : (w.spDel fd).log = w.log := rfl

@[simp] theorem spDel_soi (fd : Int) : (w.spDel fd).soi = w.soi := rfl

@[simp] theorem close_slot (fd : Int) : (w.close fd).slot = w.slot := rfl

@[simp] theorem close_log (fd : Int) : (w.close fd).log = w.log ++ [.close fd] := rfl

@[simp] theorem close_soi (fd : Int) : (w.close fd).soi = w.soi := rfl

@[simp] theorem spWrite_slot (fd : Int) (h : Nat) (enable : Bool) :
    (w.spWrite fd h enable).slot = w.slot := by
  unfold spWrite
  split <;> rfl

@[simp] theorem spWrite_log (fd : Int) (h : Nat) (enable : Bool) :
    (w.spWrite fd h enable).log = w.log := by
  unfold spWrite
  split <;> rfl

@[simp] theorem spWrite_soi (fd : Int) (h : Nat) (enable : Bool) :
    (w.spWrite fd h enable).soi = w.soi := by
  unfold spWrite
  split <;> rfl

theorem spAdd_ok {fd : Int} {h : Nat} {ok : Bool} (hok : (w.spAdd fd h ok).1 = true) :
    w.poll fd = none ∧
      (w.spAdd fd h ok).2.poll = Function.update w.poll fd (some (h, false)) := by
  unfold spAdd at hok ⊢
  split
  · rename_i hadd
    exact ⟨hadd.2, rfl⟩
  · rename_i hadd
    rw [if_neg hadd] at hok
    cases hok

theorem spAdd_not_ok {fd : Int} {h : Nat} {ok : Bool} (hok : (w.spAdd fd h ok).1 = false) :
    (w.spAdd fd h ok).2.poll = w.poll := by
  unfold spAdd at hok ⊢
  split
  · rename_i hadd
    rw [if_pos hadd] at hok
    cases hok
  · rfl

theorem spWrite_poll_ne {fd fd' : Int} (hne : fd' ≠ fd) (h : Nat) (enable : Bool) :
    (w.spWrite fd h enable).poll fd' = w.poll fd' := by
  unfold spWrite
  split
  · exact Function.update_of_ne hne ..
  · rfl

theorem spWrite_poll_some {fd : Int} {e : Nat × Bool} (he : w.poll fd = some e) (h : Nat)
    (enable : Bool) : (w.spWrite fd h enable).poll fd = some (h, enable) := by
  unfold spWrite
  rw [he, if_pos (Option.isSome_some (a := e))]
  exact Function.update_self ..

theorem spWrite_poll_none {fd : Int} (hnone : w.poll fd = none) (h : Nat) (enable : Bool) :
    w.spWrite fd h enable = w := by
  unfold spWrite
  rw [hnone]
  rfl

theorem spWrite_poll_congr {w w' : Sockets} (hpoll : w'.poll = w.poll) (fd : Int) (h : Nat)
    (enable : Bool) : (w'.spWrite fd h enable).poll = (w.spWrite fd h enable).poll := by
  unfold spWrite
  rw [hpoll]
  split
  · rfl
  · exact hpoll

theorem spWrite_poll_update (fd : Int) (h : Nat) (enable : Bool) (v : Option (Nat × Bool)) :
    Function.update (w.spWrite fd h enable).poll fd v = Function.update w.poll fd v := by
  unfold spWrite
  split
  · exact Function.update_idem ..
  · rfl

@[simp] theorem spAdd_slot (fd : Int) (h : Nat) (ok : Bool) :
    (w.spAdd fd h ok).2.slot = w.slot := by
  unfold spAdd
  split <;> rfl

@[simp] theorem spAdd_log (fd : Int) (h : Nat) (ok : Bool) :
    (w.spAdd fd h ok).2.log = w.log := by
  unfold spAdd
  split <;> rfl

@[simp] theorem spAdd_soi (fd : Int) (h : Nat) (ok : Bool) :
    (w.spAdd fd h ok).2.soi = w.soi := by
  unfold spAdd
  split <;> rfl

end Sockets

/-! ## Write buffers and `force_close` -/

/-- `struct send_object` -/
structure SendObject where
  buffer : Int
  sz : Nat
  userobject : Bool

/-- `send_object_init` -/
def sendObjectInit (soi : ObjectInterface) (object : Nat) (sz : Int) : SendObject :=
  if sz < 0 then ⟨soi.buffer object, soi.size object, true⟩ else ⟨0, sz.toNat, false⟩

/-- `write_buffer_free` -/
def WriteBuffer.free (wb : WriteBuffer) : Effect := .free wb.buffer wb.userobject

/-- How the loop of `send_list_tcp` or `send_list_udp` ends. -/
inductive Ending where
  | drained
  | again
  | failed
deriving DecidableEq

/-- The buffers that are left, the bytes that went out, and the answers that are left. -/
structure Progress where
  chain : List WriteBuffer
  sent : Nat
  effects : List Effect
  ws : List WriteResult
  ending : Ending

/-- The loop of `send_list_tcp`. -/
def sendTcp (fd : Int) : List WriteResult → List WriteBuffer → M Progress
  | ws, [] => .ok ⟨[], 0, [], ws, .drained⟩
  | [], _ :: _ => .stuck
  | .eintr :: ws, chain => sendTcp fd ws chain
  | .eagain :: ws, chain => .ok ⟨chain, 0, [], ws, .again⟩
  | .error :: ws, chain => .ok ⟨chain, 0, [], ws, .failed⟩
  | .ok n :: ws, tmp :: rest =>
    if n = tmp.sz then
      (sendTcp fd ws rest).bind fun p => .ok { p with
        sent := n + p.sent
        effects := .write fd tmp.buffer tmp.ptr n :: tmp.free :: p.effects }
    else if n < tmp.sz then
      .ok ⟨{ tmp with ptr := tmp.ptr + n, sz := tmp.sz - n } :: rest, n,
        [.write fd tmp.buffer tmp.ptr n], ws, .again⟩
    else .stuck

/-- The loop of `send_list_udp`: a buffer is sent as a whole or stays. -/
def sendUdp (fd : Int) : List WriteResult → List WriteBuffer → M Progress
  | ws, [] => .ok ⟨[], 0, [], ws, .drained⟩
  | [], _ :: _ => .stuck
  | .ok n :: ws, tmp :: rest =>
    (sendUdp fd ws rest).bind fun p => .ok { p with
      sent := tmp.sz + p.sent
      effects := .write fd tmp.buffer tmp.ptr n :: tmp.free :: p.effects }
  | _ :: ws, chain => .ok ⟨chain, 0, [], ws, .again⟩

/-- `list_uncomplete` -/
def listUncomplete (l : WbList) : Bool :=
  match l.chain with
  | [] => false
  | wb :: _ => wb.ptr ≠ 0

/-- `raise_uncomplete` -/
def raiseUncomplete (s : Socket) : M Socket :=
  match s.low.chain with
  | [] => .fail .raiseUncomplete
  | tmp :: rest => do
    let low : WbList := if rest = [] then .empty else ⟨rest, s.low.tail⟩
    .assert .raiseUncomplete (s.high.chain = [])
    return { s with low := low, high := ⟨[tmp], some tmp.node⟩ }

namespace Sockets

variable (w : Sockets)

/-- `force_close` -/
def forceClose (h : Nat) : M Sockets :=
  let s := w.slot h
  if s.type = .invalid then return w
  else do
    .assert .forceClose (s.type ≠ .reserve)
    let w := w.emit ((s.high.chain ++ s.low.chain).map WriteBuffer.free)
    let w := if s.type ≠ .paccept ∧ s.type ≠ .plisten then w.spDel s.fd else w
    let w := if s.type ≠ .bind then w.close s.fd else w
    return w.set h { s with high := .empty, low := .empty, type := .invalid }

/-- `send_list`; the flag says that the socket was closed. -/
def sendList (h : Nat) (priority : Priority) (ws : List WriteResult) :
    M (Sockets × Bool × List WriteResult) := do
  let s := w.slot h
  let l := s.list priority
  let p ← if s.protocol = .tcp then sendTcp s.fd ws l.chain else sendUdp s.fd ws l.chain
  let tail := if p.ending = .drained then none else l.tail
  let w := (w.emit p.effects).set h
    { s.setList ⟨p.chain, tail⟩ priority with wbSize := s.wbSize - p.sent }
  if p.ending = .failed then
    let w ← w.forceClose h
    return (w, true, p.ws)
  else return (w, false, p.ws)

/-- `send_buffer` -/
def sendBuffer (h : Nat) (ws : List WriteResult) : M (Sockets × Bool) := do
  .assert .sendBuffer (listUncomplete (w.slot h).low = false)
  let (w, closed, ws) ← w.sendList h .high ws
  if closed then return (w, true)
  else if (w.slot h).high.chain = [] then
    if (w.slot h).low.chain ≠ [] then
      let (w, closed, _) ← w.sendList h .low ws
      if closed then return (w, true)
      else if listUncomplete (w.slot h).low then
        let s ← raiseUncomplete (w.slot h)
        return (w.set h s, false)
      else return (w, false)
    else
      let w := w.spWrite (w.slot h).fd h false
      if (w.slot h).type = .halfclose then
        let w ← w.forceClose h
        return (w, true)
      else return (w, false)
  else return (w, false)

/-- `append_sendbuffer_` and its callers. -/
def appendSendbuffer (h : Nat) (priority : Priority) (buffer : Nat) (sz : Int) (n : Nat)
    (udpAddress : List UInt8) : M Sockets := do
  let s := w.slot h
  let so := sendObjectInit w.soi buffer sz
  let buf : WriteBuffer := ⟨w.node, buffer, so.buffer + n, so.sz - n, so.userobject, udpAddress⟩
  let l := s.list priority
  let w := { w with node := w.node + 1 }
  if l.chain ≠ [] then
    .assert .appendSendbuffer (l.tail = l.chain.getLast?.map WriteBuffer.node)
  return w.set h { s.setList ⟨l.chain ++ [buf], some buf.node⟩ priority with
    wbSize := s.wbSize + buf.sz }

/-- `send_socket`; `ws` is what its one write returns. -/
def sendSocket (id : Int) (buffer : Nat) (sz : Int) (priority : Priority)
    (udpAddress : Option (List UInt8)) (ws : WriteResult) : M (Sockets × Bool) := do
  let h := hashId id
  let s := w.slot h
  let so := sendObjectInit w.soi buffer sz
  if s.type = .invalid ∨ s.id ≠ id ∨ s.type = .halfclose ∨ s.type = .paccept then
    return (w.emit [.free buffer so.userobject], false)
  else
    .assert .sendSocket (s.type ≠ .plisten ∧ s.type ≠ .listen)
    let address := udpAddress.getD s.udpAddress
    if s.sendBufferEmpty ∧ s.type = .connected then
      if s.protocol = .tcp then
        match ws with
        | .error =>
          let w ← w.forceClose h
          return (w, true)
        | _ =>
          let n := match ws with
            | .ok n => n
            | _ => 0
          .answers (n ≤ so.sz)
          let w := w.emit [.write s.fd buffer so.buffer n]
          if n = so.sz then return (w.emit [.free buffer so.userobject], false)
          else
            let w ← w.appendSendbuffer h .high buffer sz n []
            return (w.spWrite s.fd h true, false)
      else
        let w := match ws with
          | .ok n => w.emit [.write s.fd buffer so.buffer n]
          | _ => w
        if ws = .ok so.sz then return (w.emit [.free buffer so.userobject], false)
        else
          let w ← w.appendSendbuffer h priority buffer sz 0 address
          return (w.spWrite s.fd h true, false)
    else
      let w ← w.appendSendbuffer h priority buffer sz 0 (if s.protocol = .tcp then [] else address)
      return (w, false)

end Sockets

end Jump.Skynet.SocketServer
