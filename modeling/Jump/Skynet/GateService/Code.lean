import Jump.Core.Bytes
import Jump.Core.Word
import Jump.Skynet.GateService.HashId
import Mathlib.Logic.Function.Basic

/-! # The gate

`databuffer.h`. The nodes of a `messagepool_list` lie side by side, and 0 is the null pointer.
`none` stands for a failed assertion, a null pointer that is followed or a loop that does not
end.

`service_gate.c`. Bytes that arrive on a connection are collected in its buffer, and every
complete frame is sent on to the broker, the agent of the connection or the watchdog.
-/

namespace Jump.Skynet.GateService

open Jump.Core

/-! ## The buffer of a connection -/

def MESSAGEPOOL : Nat := 1023

/-- `struct message` -/
structure Message where
  buffer : List UInt8
  size : Nat
  next : Nat
deriving DecidableEq

/-- `struct databuffer` -/
structure DataBuffer where
  header : Int
  offset : Nat
  size : Nat
  head : Nat
  tail : Nat
deriving DecidableEq

/-- The databuffer that `memset` leaves. -/
def DataBuffer.zero : DataBuffer := ⟨0, 0, 0, 0, 0⟩

/-- `struct messagepool`: how many lists there are, the free list, and the nodes. -/
structure MessagePool where
  pool : Nat
  freelist : Nat
  message : Nat → Message

def MessagePool.zero : MessagePool := ⟨0, 0, fun _ => ⟨[], 0, 0⟩⟩

/-- The last node of the pool. -/
def MessagePool.limit (mp : MessagePool) : Nat := mp.pool * MESSAGEPOOL

/-- `_return_message` -/
def returnMessage (db : DataBuffer) (mp : MessagePool) : Option (DataBuffer × MessagePool) :=
  let m := db.head
  if m = 0 then none
  else
    let next := (mp.message m).next
    let mp' : MessagePool :=
      { mp with message := Function.update mp.message m ⟨[], 0, mp.freelist⟩, freelist := m }
    if next = 0 then
      if db.tail = m then some ({ db with head := 0, tail := 0 }, mp') else none
    else some ({ db with head := next }, mp')

/-- `for (;;)` of `databuffer_read`, for at most `fuel` rounds. -/
def readLoop : Nat → DataBuffer → MessagePool → Nat → Option (List UInt8 × DataBuffer × MessagePool)
  | 0, _, _, _ => none
  | fuel + 1, db, mp, sz =>
    let current := mp.message db.head
    let bsz := current.size - db.offset
    if db.head = 0 then none
    else if sz < bsz then
      some ((current.buffer.drop db.offset).take sz, { db with offset := db.offset + sz }, mp)
    else if bsz = sz then
      (returnMessage { db with offset := 0 } mp).map fun r =>
        ((current.buffer.drop db.offset).take sz, r.1, r.2)
    else
      (returnMessage db mp).bind fun r =>
        (readLoop fuel { r.1 with offset := 0 } r.2 (sz - bsz)).map fun t =>
          ((current.buffer.drop db.offset).take bsz ++ t.1, t.2.1, t.2.2)

def databufferRead (db : DataBuffer) (mp : MessagePool) (sz : Nat) :
    Option (List UInt8 × DataBuffer × MessagePool) :=
  if db.size < sz then none else readLoop (sz + 1) { db with size := db.size - sz } mp sz

/-- The node that `databuffer_push` takes, from the free list or from a new list. -/
def takeMessage (mp : MessagePool) : Nat × MessagePool :=
  if mp.freelist ≠ 0 then (mp.freelist, { mp with freelist := (mp.message mp.freelist).next })
  else
    let m := mp.limit + 1
    (m, {
      pool := mp.pool + 1
      freelist := m + 1
      message := fun p =>
        if m < p ∧ p < m + MESSAGEPOOL then
          ⟨[], 0, if p + 1 < m + MESSAGEPOOL then p + 1 else 0⟩
        else mp.message p })

def databufferPush (db : DataBuffer) (mp : MessagePool) (data : List UInt8) :
    Option (DataBuffer × MessagePool) :=
  let (m, mp) := takeMessage mp
  let mp := { mp with message := Function.update mp.message m ⟨data, data.length, 0⟩ }
  let db := { db with size := db.size + data.length }
  if db.head = 0 then
    if db.tail = 0 then some ({ db with head := m, tail := m }, mp) else none
  else
    let last := mp.message db.tail
    some ({ db with tail := m },
      { mp with message := Function.update mp.message db.tail { last with next := m } })

/-- `header == 'S' ? 2 : 4` -/
inductive HeaderStyle where
  | S
  | L
deriving DecidableEq

def HeaderStyle.size : HeaderStyle → Nat
  | S => 2
  | L => 4

/-- The header that the bytes make, high byte first. With 4 bytes it is shifted into the sign. -/
def HeaderStyle.header (style : HeaderStyle) (plen : List UInt8) : Int :=
  match style with
  | S => BigEndian.decode plen
  | L => toInt (BigEndian.decode plen)

def databufferReadheader (db : DataBuffer) (mp : MessagePool) (style : HeaderStyle) :
    Option (Int × DataBuffer × MessagePool) :=
  if db.header = 0 then
    if db.size < style.size then some (-1, db, mp)
    else
      (databufferRead db mp style.size).map fun r =>
        let db := { r.2.1 with header := style.header r.1 }
        (if (db.size : Int) < db.header then -1 else db.header, db, r.2.2)
  else some (if (db.size : Int) < db.header then -1 else db.header, db, mp)

def databufferReset (db : DataBuffer) : DataBuffer := { db with header := 0 }

/-- `while (db->head)` of `databuffer_clear`, for at most `fuel` rounds. -/
def clearLoop : Nat → DataBuffer → MessagePool → Option MessagePool
  | 0, _, _ => none
  | fuel + 1, db, mp =>
    if db.head = 0 then some mp
    else (returnMessage db mp).bind fun r => clearLoop fuel r.1 r.2

/-- Every node is in the list at most once. -/
def databufferClear (db : DataBuffer) (mp : MessagePool) : Option (DataBuffer × MessagePool) :=
  (clearLoop (mp.limit + 1) db mp).map fun mp => (.zero, mp)

/-! ## The service -/

def PTYPE_TEXT : Nat := 0
def PTYPE_TAG_DONTCOPY : Nat := 0x10000

/-- `struct connection` -/
structure Connection where
  id : Int
  agent : Nat
  client : Nat
  buffer : DataBuffer

/-- The connection after `memset`. -/
def Connection.zero : Connection := ⟨0, 0, 0, .zero⟩

/-- `struct gate` -/
structure Gate where
  listenId : Int
  watchdog : Nat
  broker : Nat
  clientTag : Nat
  headerSize : HeaderStyle
  hash : Hashid
  conn : Nat → Connection
  mp : MessagePool

/-- `gate_create` and `gate_init` -/
def gateInit (style : HeaderStyle) (watchdog clientTag max : Nat) (listenId : Int) : Gate where
  listenId := listenId
  watchdog := watchdog
  broker := 0
  clientTag := clientTag
  headerSize := style
  hash := hashidInit max
  conn _ := { Connection.zero with id := -1 }
  mp := .zero

/-- What the gate asks of the framework. -/
inductive Out where
  | send (source destination type : Nat) (msg : List UInt8)
  | socketStart (id : Int)
  | socketClose (id : Int)
  | socketSend (id : Int) (msg : List UInt8)
deriving DecidableEq

def text (s : String) : List UInt8 := s.toList.map fun c => UInt8.ofNat c.toNat

/-- `_report` -/
def report (g : Gate) (data : List UInt8) : List Out :=
  if g.watchdog = 0 then [] else [.send 0 g.watchdog PTYPE_TEXT data]

/-- `"%d data "` -/
def dataText (id : Int) : List UInt8 := text (toString id ++ " data ")

/-- `_forward`; the connection's buffer and the pool are passed along. -/
def forward (g : Gate) (c : Connection) (db : DataBuffer) (mp : MessagePool) (size : Nat) :
    Option (DataBuffer × MessagePool × List Out) :=
  if g.broker ≠ 0 then do
    let (temp, db, mp) ← databufferRead db mp size
    return (db, mp, [.send 0 g.broker (g.clientTag ||| PTYPE_TAG_DONTCOPY) temp])
  else if c.agent ≠ 0 then do
    let (temp, db, mp) ← databufferRead db mp size
    return (db, mp, [.send c.client c.agent (g.clientTag ||| PTYPE_TAG_DONTCOPY) temp])
  else if g.watchdog ≠ 0 then do
    let (temp, db, mp) ← databufferRead db mp size
    return (db, mp, [.send 0 g.watchdog (PTYPE_TEXT ||| PTYPE_TAG_DONTCOPY)
      (dataText c.id ++ temp)])
  else return (db, mp, [])

/-- `for (;;)` of `dispatch_message`, for at most `fuel` rounds. -/
def dispatchLoop (g : Gate) (c : Connection) (id : Int) :
    Nat → DataBuffer → MessagePool → Option (DataBuffer × MessagePool × List Out)
  | 0, _, _ => none
  | fuel + 1, db, mp => do
    let (size, db, mp) ← databufferReadheader db mp g.headerSize
    if size < 0 then return (db, mp, [])
    else if size > 0 then
      if size ≥ 0x1000000 then
        let (db, mp) ← databufferClear db mp
        return (db, mp, [.socketClose id])
      else
        let (db, mp, outs) ← forward g c db mp size.toNat
        let (db, mp, more) ← dispatchLoop g c id fuel (databufferReset db) mp
        return (db, mp, outs ++ more)
    else dispatchLoop g c id fuel db mp

def Gate.setBuffer (g : Gate) (i : Nat) (db : DataBuffer) (mp : MessagePool) : Gate :=
  { g with conn := Function.update g.conn i { g.conn i with buffer := db }, mp := mp }

/-- Every round but the last takes a header of two or four bytes. -/
def dispatchMessage (g : Gate) (i : Nat) (id : Int) (data : List UInt8) :
    Option (Gate × List Out) := do
  let (db, mp) ← databufferPush (g.conn i).buffer g.mp data
  let (db, mp, outs) ← dispatchLoop g (g.conn i) id (db.size + 5) db mp
  return (g.setBuffer i db mp, outs)

/-- A message that the gate's callback takes; of a text message, the command in it. -/
inductive Event where
  | data (id : Int) (buffer : List UInt8)
  | connect (id : Int)
  | close (id : Int)
  | accept (id ud : Int)
  | kick (uid : Int)
  | forward (id : Int) (agent client : Nat)
  | broker (handle : Nat)
  | start
  | stop
  | client (uid : Int) (msg : List UInt8)
deriving DecidableEq

def Gate.step (g : Gate) : Event → Option (Gate × List Out)
  | .data id buffer => do
    let i ← g.hash.lookup id
    if i ≥ 0 then dispatchMessage g i.toNat id buffer else return (g, [.socketClose id])
  | .connect id => do
    if id = g.listenId then return (g, [])
    else
      let i ← g.hash.lookup id
      if i ≥ 0 then return (g, report g (text (toString id ++ " open ")))
      else return (g, [.socketClose id])
  | .close id => do
    let (i, hash) ← g.hash.remove id
    if i ≥ 0 then
      let (_, mp) ← databufferClear (g.conn i.toNat).buffer g.mp
      let conn := Function.update g.conn i.toNat { Connection.zero with id := -1 }
      return ({ g with hash := hash, conn := conn, mp := mp },
        report g (text (toString id ++ " close")))
    else return (g, [])
  | .accept id ud => do
    if g.listenId ≠ id then none
    else if g.hash.full then return (g, [.socketClose ud])
    else
      let (i, hash) ← g.hash.insert ud
      let conn := Function.update g.conn i.toNat { g.conn i.toNat with id := ud }
      return ({ g with hash := hash, conn := conn }, [.socketStart ud])
  | .kick uid => do
    let i ← g.hash.lookup uid
    if i ≥ 0 then return (g, [.socketClose uid]) else return (g, [])
  | .forward id agent client => do
    let i ← g.hash.lookup id
    if i ≥ 0 then
      let c := { g.conn i.toNat with agent := agent, client := client }
      return ({ g with conn := Function.update g.conn i.toNat c }, [])
    else return (g, [])
  | .broker handle => return ({ g with broker := handle }, [])
  | .start => return (g, [.socketStart g.listenId])
  | .stop =>
    if g.listenId ≥ 0 then return ({ g with listenId := -1 }, [.socketClose g.listenId])
    else return (g, [])
  | .client uid msg => do
    let i ← g.hash.lookup uid
    if i ≥ 0 then return (g, [.socketSend uid msg]) else return (g, [])

end Jump.Skynet.GateService
