import Jump.Skynet.SocketServer.State

/-! # The socket server

The commands of `ctrl_cmd`, `socket_server_poll`, and the threads that call the functions of
`skynet_socket.c`. The steps between which threads can come are a look at a slot, a compare and
swap, a store, a write to the pipe, and a command or an event up to the point where its slot is
invalid. The pipe is a queue of commands, which it is as long as no host name is 232 bytes long
(`Pipe.inStep_iff`).
-/

namespace Jump.Skynet.SocketServer

open Jump.Core

inductive Kind where
  | data
  | close
  | open
  | accept
  | error
  | exit
  | udp
deriving DecidableEq

/-- `struct socket_message` without its data. -/
structure SocketMessage where
  kind : Kind
  opaqueData : Nat
  id : Int
  ud : Int
deriving DecidableEq

/-- The requests, by the type of the command. -/
inductive Command where
  | start (id : Int) (opaqueData : Nat)
  | bind (id fd : Int) (opaqueData : Nat)
  | listen (id fd : Int) (opaqueData : Nat)
  | close (id : Int) (opaqueData : Nat)
  | open (id port : Int) (opaqueData : Nat) (host : List UInt8)
  | exit
  | send (id sz : Int) (buffer : Nat)
  | sendLow (id sz : Int) (buffer : Nat)
  | sendUdp (id sz : Int) (buffer : Nat) (address : List UInt8)
  | setUdp (id : Int) (address : List UInt8)
  | setopt (id what value : Int)
  | udp (id fd : Int) (family : Protocol) (opaqueData : Nat)

/-- Where `reserve_id` stands; a step is about to do what the constructor says. -/
inductive Reserve where
  | fetch (i : Nat)
  | wrap (i : Nat)
  | look (i : Nat) (id : Int)
  | cas (i : Nat) (id : Int)
  | storeId (id : Int)
  | storeFd (id : Int)
deriving DecidableEq

/-- Where the socket thread stands in `socket_server_poll`. -/
inductive Poll where
  | loop
  /-- `open_socket` or `add_udp_socket` after a failed `new_fd` -/
  | failed (id : Int) (msg : Option SocketMessage)
  /-- `clear_closed_event`, and the return with the message -/
  | clear (msg : SocketMessage)
  | report (msg : SocketMessage)
  /-- `report_accept` in `reserve_id`, and after it -/
  | accepting (r : Reserve) (fd : Int) (listener : Nat)
  | accepted (id fd : Int) (listener : Nat)
  | stopped

/-- What `accept` and `read` return. -/
inductive Accept where
  | fd (fd : Int)
  | limit
  | other
deriving DecidableEq

inductive Read where
  | data (n : Nat)
  | otherFamily
  | eof
  | again
  | error
deriving DecidableEq

/-- What the kernel answers in a step: the results of `write` and `sendto`, whether `sp_add`
succeeds, the sockets that are tried and closed before the one that connects or is connecting,
whether the pipe is seen to be readable, and the events, each with its descriptor (none for the
pipe). -/
structure Answers where
  ws : List WriteResult
  add : Bool
  tried : List Int
  sock : Option (Int × Bool)
  accept : Accept
  read : Read
  connectError : Bool
  hasCmd : Bool
  wait : List (Option Int × Bool × Bool)

namespace Sockets

variable (w : Sockets)

/-- A descriptor that is not one of those before. -/
def Fresh (fd : Int) : Prop := Effect.obtain fd ∉ w.log ∧ Effect.given fd ∉ w.log

instance (fd : Int) : Decidable (w.Fresh fd) := inferInstanceAs (Decidable (_ ∧ _))

/-- A descriptor from `socket` or `accept`. -/
def obtain (fd : Int) : M Sockets := do
  .answers (w.Fresh fd)
  return w.emit [.obtain fd]

/-- Descriptors that are closed again at once. -/
def tryAll (w : Sockets) : List Int → M Sockets
  | [] => .ok w
  | fd :: fds => (w.obtain fd).bind fun w => tryAll (w.close fd) fds

/-- `new_fd`; `add` is what `sp_add` answers if it is called. -/
def newFd (id fd : Int) (protocol : Protocol) (opaqueData : Nat) (add : Option Bool) :
    M (Bool × Sockets) := do
  let h := hashId id
  .assert .newFd ((w.slot h).type = .reserve)
  let (ok, w) := match add with
    | none => (true, w)
    | some answer => w.spAdd fd h answer
  if ok then
    let s := { w.slot h with
      id := id, fd := fd, protocol := protocol, opaqueData := opaqueData, wbSize := 0 }
    .assert .checkWbList (s.high = .empty ∧ s.low = .empty)
    return (true, w.set h s)
  else return (false, w.setType h .invalid)

/-- `open_socket` -/
def openSocket (id : Int) (opaqueData : Nat) (k : Answers) : M (Sockets × Poll) := do
  let error := ⟨.error, opaqueData, id, 0⟩
  let w ← w.tryAll k.tried
  match k.sock with
  | none => return (w.setType (hashId id) .invalid, .clear error)
  | some (sock, connected) =>
    let w ← w.obtain sock
    let (ok, w) ← w.newFd id sock .tcp opaqueData (some k.add)
    if ok then
      if connected then
        return (w.setType (hashId id) .connected, .clear ⟨.open, opaqueData, id, 0⟩)
      else return ((w.setType (hashId id) .connecting).spWrite sock (hashId id) true, .loop)
    else return (w.close sock, .failed id (some error))

/-- `listen_socket` -/
def listenSocket (id fd : Int) (opaqueData : Nat) : M (Sockets × Poll) := do
  let (ok, w) ← w.newFd id fd .tcp opaqueData none
  if ok then return (w.setType (hashId id) .plisten, .loop)
  else return (w.close fd, .failed id (some ⟨.error, opaqueData, id, 0⟩))

/-- `close_socket` -/
def closeSocket (id : Int) (opaqueData : Nat) (ws : List WriteResult) : M (Sockets × Poll) := do
  let h := hashId id
  let s := w.slot h
  if s.type = .invalid ∨ s.id ≠ id then return (w, .clear ⟨.close, opaqueData, id, 0⟩)
  else
    let (w, closed) ← if s.sendBufferEmpty then .ok (w, false) else w.sendBuffer h ws
    if closed then return (w, .clear ⟨.close, s.opaqueData, s.id, 0⟩)
    else if (w.slot h).sendBufferEmpty then
      let w ← w.forceClose h
      return (w, .clear ⟨.close, opaqueData, id, 0⟩)
    else return (w.setType h .halfclose, .loop)

/-- `bind_socket` -/
def bindSocket (id fd : Int) (opaqueData : Nat) (add : Bool) : M (Sockets × Poll) := do
  let (ok, w) ← w.newFd id fd .tcp opaqueData (some add)
  if ok then return (w.setType (hashId id) .bind, .clear ⟨.open, opaqueData, id, 0⟩)
  else return (w, .clear ⟨.error, opaqueData, id, 0⟩)

/-- `start_socket` -/
def startSocket (id : Int) (opaqueData : Nat) (add : Bool) : Sockets × Poll :=
  let h := hashId id
  let s := w.slot h
  if s.type = .invalid ∨ s.id ≠ id then (w, .clear ⟨.error, opaqueData, id, 0⟩)
  else if s.type = .paccept ∨ s.type = .plisten then
    let (ok, w) := w.spAdd s.fd h add
    if ok then
      let type := if s.type = .paccept then .connected else .listen
      (w.set h { s with type := type, opaqueData := opaqueData },
        .clear ⟨.open, opaqueData, id, 0⟩)
    else (w.setType h .invalid, .clear ⟨.error, opaqueData, id, 0⟩)
  else if s.type = .connected then
    (w.set h { s with opaqueData := opaqueData }, .clear ⟨.open, opaqueData, id, 0⟩)
  else (w, .loop)

/-- `add_udp_socket` -/
def addUdpSocket (id fd : Int) (family : Protocol) (opaqueData : Nat) (add : Bool) :
    M (Sockets × Poll) := do
  let h := hashId id
  let (ok, w) ← w.newFd id fd family opaqueData (some add)
  if ok then
    return (w.set h { w.slot h with type := .connected, udpAddress := List.replicate 19 0 }, .loop)
  else return (w.close fd, .failed id none)

/-- `set_udp_address` -/
def setUdpAddress (id : Int) (address : List UInt8) : Sockets × Poll :=
  let h := hashId id
  let s := w.slot h
  if s.type = .invalid ∨ s.id ≠ id then (w, .loop)
  else if address.head? ≠ some s.protocol.byte then (w, .clear ⟨.error, s.opaqueData, s.id, 0⟩)
  else
    let n := if s.protocol = .udp then 1 + 2 + 4 else 1 + 2 + 16
    (w.set h { s with udpAddress := address.take n ++ s.udpAddress.drop n }, .loop)

/-- The switch of `ctrl_cmd`. -/
def ctrlCmd (cmd : Command) (k : Answers) : M (Sockets × Poll) :=
  let send (id sz : Int) (buffer : Nat) (priority : Priority) (address : Option (List UInt8)) := do
    let (w, closed) ← w.sendSocket id buffer sz priority address (k.ws.headD .eagain)
    let s := w.slot (hashId id)
    return (w, if closed then .clear ⟨.close, s.opaqueData, s.id, 0⟩ else .loop)
  match cmd with
  | .start id opaqueData => .ok (w.startSocket id opaqueData k.add)
  | .bind id fd opaqueData => w.bindSocket id fd opaqueData k.add
  | .listen id fd opaqueData => w.listenSocket id fd opaqueData
  | .close id opaqueData => w.closeSocket id opaqueData k.ws
  | .open id _ opaqueData _ => w.openSocket id opaqueData k
  | .exit => .ok (w, .clear ⟨.exit, 0, 0, 0⟩)
  | .send id sz buffer => send id sz buffer .high none
  | .sendLow id sz buffer => send id sz buffer .low none
  | .sendUdp id sz buffer address => send id sz buffer .high (some address)
  | .setUdp id address => .ok (w.setUdpAddress id address)
  | .setopt _ _ _ => .ok (w, .loop)
  | .udp id fd family opaqueData => w.addUdpSocket id fd family opaqueData k.add

/-- `report_connect` -/
def reportConnect (h : Nat) (k : Answers) : M (Sockets × Poll) := do
  let s := w.slot h
  if k.connectError then
    let w ← w.forceClose h
    return (w, .report ⟨.error, s.opaqueData, s.id, 0⟩)
  else
    let w := w.setType h .connected
    let w := if s.sendBufferEmpty then w.spWrite s.fd h false else w
    return (w, .report ⟨.open, s.opaqueData, s.id, 0⟩)

/-- `report_accept` up to `reserve_id` -/
def reportAccept (h : Nat) (k : Answers) : M (Sockets × Poll) :=
  let s := w.slot h
  match k.accept with
  | .other => .ok (w, .loop)
  | .limit => .ok (w, .report ⟨.error, s.opaqueData, s.id, 0⟩)
  | .fd fd => (w.obtain fd).bind fun w => .ok (w, .accepting (.fetch 0) fd h)

/-- `report_accept` after `reserve_id` -/
def acceptSocket (id fd : Int) (listener : Nat) : M (Sockets × Poll) := do
  let s := w.slot listener
  let (ok, w) ← w.newFd id fd .tcp s.opaqueData none
  if ok then return (w.setType (hashId id) .paccept, .report ⟨.accept, s.opaqueData, s.id, id⟩)
  else return (w.close fd, .loop)

/-- `forward_message_tcp` -/
def forwardTcp (h : Nat) (k : Answers) : M (Sockets × Option SocketMessage) :=
  let s := w.slot h
  match k.read with
  | .again | .otherFamily => .ok (w, none)
  | .error => (w.forceClose h).bind fun w => .ok (w, some ⟨.error, s.opaqueData, s.id, 0⟩)
  | .eof => (w.forceClose h).bind fun w => .ok (w, some ⟨.close, s.opaqueData, s.id, 0⟩)
  | .data n => .ok (w, if s.type = .halfclose then none else some ⟨.data, s.opaqueData, s.id, n⟩)

/-- `forward_message_udp` -/
def forwardUdp (h : Nat) (k : Answers) : M (Sockets × Option SocketMessage) :=
  let s := w.slot h
  match k.read with
  | .again | .otherFamily => .ok (w, none)
  | .error => (w.forceClose h).bind fun w => .ok (w, some ⟨.error, s.opaqueData, s.id, 0⟩)
  | .eof => .ok (w, some ⟨.udp, s.opaqueData, s.id, 0⟩)
  | .data n => .ok (w, some ⟨.udp, s.opaqueData, s.id, n⟩)

end Sockets

/-- `struct event` -/
structure Event where
  s : Option Nat
  read : Bool
  write : Bool
deriving DecidableEq

namespace Sockets

variable (w : Sockets)

/-- The switch of `socket_server_poll` for an event of the slot `h`: the sockets, the event if it
is looked at again, and how it goes on. -/
def handleEvent (h : Nat) (e : Event) (k : Answers) : M (Sockets × Option Event × Poll) :=
  let s := w.slot h
  match s.type with
  | .connecting => (w.reportConnect h k).bind fun r => .ok (r.1, none, r.2)
  | .listen => (w.reportAccept h k).bind fun r => .ok (r.1, none, r.2)
  | .invalid => .ok (w, none, .loop)
  | _ => do
    if e.read then
      let kept := if e.write then some { e with read := false } else none
      let (w, msg) ← if s.protocol = .tcp then w.forwardTcp h k else w.forwardUdp h k
      match msg with
      | none => return (w, kept, .loop)
      | some msg =>
        if msg.kind = .udp then return (w, some e, .report msg) else return (w, kept, .clear msg)
    else if e.write then
      let (w, closed) ← w.sendBuffer h k.ws
      return (w, none, if closed then .clear ⟨.close, s.opaqueData, s.id, 0⟩ else .loop)
    else return (w, none, .loop)

end Sockets

/-! ## Threads -/

/-- What a thread in `reserve_id` wants the id for. -/
inductive Pending where
  | open (port : Int) (opaqueData : Nat) (host : List UInt8)
  | listen (fd : Int) (opaqueData : Nat)
  | bind (fd : Int) (opaqueData : Nat)
  | udp (fd : Int) (family : Protocol) (opaqueData : Nat)

def Pending.command (id : Int) : Pending → Command
  | .open port opaqueData host => .open id port opaqueData host
  | .listen fd opaqueData => .listen id fd opaqueData
  | .bind fd opaqueData => .bind id fd opaqueData
  | .udp fd family opaqueData => .udp id fd family opaqueData

/-- What is done when there is no id. -/
def Pending.giveUp (w : Sockets) : Pending → Sockets
  | .listen fd _ | .udp fd _ _ => w.close fd
  | .open _ _ _ | .bind _ _ => w

/-- `skynet_socket_send`, `skynet_socket_send_lowpriority` or `skynet_socket_udp_send` -/
inductive SendKind where
  | high
  | low
  | udp (address : List UInt8)
deriving DecidableEq

/-- The size of an address, by its first byte. -/
def addrsz (address : List UInt8) : Option Nat :=
  if address.head? = some Protocol.udp.byte then some (1 + 2 + 4)
  else if address.head? = some Protocol.udpv6.byte then some (1 + 2 + 16)
  else none

/-- The command of a send, if it is not refused for its address. -/
def SendKind.command (id sz : Int) (buffer : Nat) : SendKind → Option Command
  | .high => some (.send id sz buffer)
  | .low => some (.sendLow id sz buffer)
  | .udp address => (addrsz address).map fun n => .sendUdp id sz buffer (address.take n)

/-- Where a thread stands in a call. -/
inductive Thread where
  | done (ret : Int)
  | reserve (r : Reserve) (p : Pending)
  /-- `send_request`, the last thing that the call does -/
  | request (cmd : Command) (ret : Int)
  /-- a send before it looks at the slot, before `send_request`, and before it reads `wb_size` -/
  | send (kind : SendKind) (id sz : Int) (buffer : Nat)
  | sendRequest (cmd : Command) (low : Bool) (id : Int) (buffer : Nat)
  | checkWsz (id : Int) (buffer : Nat)

inductive Call where
  | connect (port : Int) (opaqueData : Nat) (host : List UInt8)
  | listen (tried : List Int) (fd : Option Int) (opaqueData : Nat)
  | bind (fd : Int) (opaqueData : Nat)
  | udp (tried : List Int) (fd : Option Int) (family : Protocol) (opaqueData : Nat)
  | start (id : Int) (opaqueData : Nat)
  | close (id : Int) (opaqueData : Nat)
  | nodelay (id : Int)
  | exit
  | send (kind : SendKind) (id sz : Int) (buffer : Nat)
  | udpConnect (id : Int) (address : Option (List UInt8))

structure Server where
  sockets : Sockets
  allocId : Int
  pipe : List Command
  checkctrl : Bool
  ev : List Event
  pc : Poll
  out : List SocketMessage
  threads : List Thread

/-- What a step of `reserve_id` leads to: another step, or its result. -/
inductive Reserved where
  | go (r : Reserve)
  | done (id : Int)

/-- A step of `reserve_id`, with the new value of `alloc_id`. -/
def reserveStep (w : Sockets) (allocId : Int) : Reserve → Sockets × Int × Reserved
  | .fetch i =>
    if i < MAX_SOCKET then
      let id := toInt (uint32OfInt (allocId + 1))
      (w, id, .go (if id < 0 then .wrap i else .look i id))
    else (w, allocId, .done (-1))
  | .wrap i =>
    let id : Int := (uint32OfInt allocId &&& 0x7fffffff : Nat)
    (w, id, .go (.look i id))
  | .look i id =>
    (w, allocId, .go (if (w.slot (hashId id)).type = .invalid then .cas i id else .fetch (i + 1)))
  | .cas i id =>
    if (w.slot (hashId id)).type = .invalid then
      (w.setType (hashId id) .reserve, allocId, .go (.storeId id))
    else (w, allocId, .go (.fetch i))
  | .storeId id =>
    (w.set (hashId id) { w.slot (hashId id) with id := id }, allocId, .go (.storeFd id))
  | .storeFd id =>
    (w.set (hashId id) { w.slot (hashId id) with fd := -1 }, allocId, .done id)

namespace Server

/-- The beginning of a call, up to the first thing that other threads can see. -/
def call (s : Server) : Call → M (Sockets × Thread)
  | .connect port opaqueData host =>
    if host.length + 24 > 256 then .ok (s.sockets, .done (-1))
    else .ok (s.sockets, .reserve (.fetch 0) (.open port opaqueData host))
  | .listen tried fd opaqueData => do
    let w ← s.sockets.tryAll tried
    match fd with
    | none => return (w, .done (-1))
    | some fd => return (← w.obtain fd, .reserve (.fetch 0) (.listen fd opaqueData))
  | .bind fd opaqueData => do
    .answers (Effect.obtain fd ∉ s.sockets.log)
    return (s.sockets.emit [.given fd], .reserve (.fetch 0) (.bind fd opaqueData))
  | .udp tried fd family opaqueData => do
    let w ← s.sockets.tryAll tried
    match fd with
    | none => return (w, .done (-1))
    | some fd => return (← w.obtain fd, .reserve (.fetch 0) (.udp fd family opaqueData))
  | .start id opaqueData => .ok (s.sockets, .request (.start id opaqueData) 0)
  | .close id opaqueData => .ok (s.sockets, .request (.close id opaqueData) 0)
  | .nodelay id => .ok (s.sockets, .request (.setopt id 1 1) 0)
  | .exit => .ok (s.sockets, .request .exit 0)
  | .send kind id sz buffer => do
    .answers (∀ userobject, Effect.handed buffer userobject ∉ s.sockets.log)
    return (s.sockets.emit [.handed buffer (sz < 0)], .send kind id sz buffer)
  | .udpConnect id address =>
    match address with
    | none => .ok (s.sockets, .done (-1))
    | some address => .ok (s.sockets, .request (.setUdp id address) 0)

/-- `check_wsz` of a failed send -/
def refuse (s : Server) (buffer : Nat) : Server × Thread :=
  ({ s with sockets := s.sockets.emit [.free buffer false] }, .done (-1))

/-- A step of a thread. -/
def threadStep (s : Server) : Thread → M (Server × Thread)
  | .done _ => .stuck
  | .reserve r p =>
    let (w, allocId, reserved) := reserveStep s.sockets s.allocId r
    let s := { s with sockets := w, allocId := allocId }
    match reserved with
    | .go r => .ok (s, .reserve r p)
    | .done id =>
      if id < 0 then .ok ({ s with sockets := p.giveUp w }, .done (-1))
      else .ok (s, .request (p.command id) id)
  | .request cmd ret => .ok ({ s with pipe := s.pipe ++ [cmd] }, .done ret)
  | .send kind id sz buffer =>
    let x := s.sockets.slot (hashId id)
    if x.id ≠ id ∨ x.type = .invalid then
      if kind = .low then .ok (s, .done 0) else .ok (s.refuse buffer)
    else
      match kind.command id sz buffer with
      | none => .ok (s.refuse buffer)
      | some cmd => .ok (s, .sendRequest cmd (kind = .low) id buffer)
  | .sendRequest cmd low id buffer =>
    .ok ({ s with pipe := s.pipe ++ [cmd] }, if low then .done 0 else .checkWsz id buffer)
  | .checkWsz id buffer =>
    if (s.sockets.slot (hashId id)).wbSize < 0 then .ok (s.refuse buffer) else .ok (s, .done 0)

/-- An event that `clear_closed_event` clears. -/
def closedEvent (w : Sockets) (id : Int) (e : Event) : Bool :=
  e.s.any fun h => (w.slot h).type = .invalid ∧ (w.slot h).id = id

/-- `clear_closed_event` -/
def clearClosedEvent (s : Server) (msg : SocketMessage) : List Event :=
  if msg.kind = .close ∨ msg.kind = .error then
    s.ev.map fun e => if closedEvent s.sockets msg.id e then { e with s := none } else e
  else s.ev

/-- The events of `sp_wait`. -/
def waitEvents (w : Sockets) (wait : List (Option Int × Bool × Bool)) : List Event :=
  wait.map fun e => ⟨e.1.bind fun fd => (w.poll fd).map Prod.fst, e.2.1, e.2.2⟩

/-- A round of the loop in `socket_server_poll`. -/
def pollStep (s : Server) (k : Answers) : M Server :=
  if s.checkctrl then
    match s.pipe with
    | cmd :: rest =>
      if k.hasCmd then
        (s.sockets.ctrlCmd cmd k).bind fun r =>
          .ok { s with sockets := r.1, pc := r.2, pipe := rest }
      else .ok { s with checkctrl := false }
    | [] => .ok { s with checkctrl := false }
  else
    match s.ev with
    | [] => do
      .answers ((k.wait.map Prod.fst).Nodup ∧ k.wait.length ≤ MAX_EVENT ∧
        ∀ e ∈ k.wait, e.1.all fun fd => (s.sockets.poll fd).isSome)
      return { s with ev := waitEvents s.sockets k.wait, checkctrl := true }
    | e :: rest =>
      match e.s with
      | none => .ok { s with ev := rest }
      | some h =>
        (s.sockets.handleEvent h e k).bind fun r =>
          .ok { s with sockets := r.1, ev := r.2.1.toList ++ rest, pc := r.2.2 }

/-- A step of the socket thread. -/
def socketStep (s : Server) (k : Answers) : M Server :=
  match s.pc with
  | .loop => s.pollStep k
  | .failed id msg => .ok { s with
      sockets := s.sockets.setType (hashId id) .invalid
      pc := match msg with
        | some msg => .clear msg
        | none => .loop }
  | .clear msg => .ok { s with
      ev := s.clearClosedEvent msg
      out := s.out ++ [msg]
      pc := if msg.kind = .exit then .stopped else .loop }
  | .report msg => .ok { s with out := s.out ++ [msg], pc := .loop }
  | .accepting r fd listener =>
    let (w, allocId, reserved) := reserveStep s.sockets s.allocId r
    let s := { s with sockets := w, allocId := allocId }
    match reserved with
    | .go r => .ok { s with pc := .accepting r fd listener }
    | .done id =>
      if id < 0 then .ok { s with sockets := w.close fd, pc := .loop }
      else .ok { s with pc := .accepted id fd listener }
  | .accepted id fd listener =>
    (s.sockets.acceptSocket id fd listener).bind fun r =>
      .ok { s with sockets := r.1, pc := r.2 }
  | .stopped => .stuck

/-- A call begins, thread `i` takes a step, or the socket thread does. -/
inductive Action where
  | call (call : Call)
  | thread (i : Nat)
  | socket (k : Answers)

def step (s : Server) : Action → M Server
  | .call call => (s.call call).bind fun r =>
      .ok { s with sockets := r.1, threads := s.threads ++ [r.2] }
  | .thread i =>
    match s.threads[i]? with
    | none => .stuck
    | some t => (s.threadStep t).bind fun r =>
        .ok { r.1 with threads := r.1.threads.set i r.2 }
  | .socket k => s.socketStep k

/-- `socket_server_create`. What the memory of the slots holds besides is not known. -/
def create (memory : Nat → Socket) (soi : ObjectInterface) : Server where
  sockets :=
    { slot := fun h => { memory h with type := .invalid, high := .empty, low := .empty }
      soi := soi
      poll := fun _ => none
      node := 0
      log := [] }
  allocId := 0
  pipe := []
  checkctrl := true
  ev := []
  pc := .loop
  out := []
  threads := []

end Server

end Jump.Skynet.SocketServer
