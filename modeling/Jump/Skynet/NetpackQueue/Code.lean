import Jump.Core.RingBuffer
import Jump.Core.Word

/-! # Packets of a socket

`lua-netpack.c`: a payload is sent behind its length, two bytes of which the high one comes
first, and the bytes that arrive on the connections are cut into the payloads again. The queue
of Lua is an `Option`, which is `none` before the first packet is kept in it.
-/

namespace Jump.Skynet.NetpackQueue

open Jump.Core

def QUEUESIZE : Nat := 1024
def HASHSIZE : Nat := 4096

/-- `struct netpack` -/
structure Netpack where
  id : Int
  size : Nat
  buffer : List UInt8
deriving DecidableEq, Inhabited

/-- `struct uncomplete`. The buffer has the bytes that were copied into it; `read` is their
number, or `-1` when of the length only `header` is there. -/
structure Uncomplete where
  pack : Netpack
  read : Int
  header : UInt8
deriving DecidableEq

/-- `struct queue`, with the lists of `hash`. -/
structure Queue where
  hash : Nat → List Uncomplete
  queue : RingBuffer Netpack

/-! ## The queue and the partial packets -/

def hashFd (fd : Int) : Nat :=
  let a := fd >>> (24 : Nat)
  let b := fd >>> (12 : Nat)
  let c := fd
  uint32OfInt (a + b + c) % HASHSIZE

/-- The first entry of the connection, and the list without it. -/
def unlink (fd : Int) : List Uncomplete → Option (Uncomplete × List Uncomplete)
  | [] => none
  | uc :: next =>
    if uc.pack.id = fd then some (uc, next)
    else (unlink fd next).map fun r => (r.1, uc :: r.2)

def Queue.setHash (q : Queue) (h : Nat) (list : List Uncomplete) : Queue :=
  { q with hash := Function.update q.hash h list }

def findUncomplete (q : Option Queue) (fd : Int) : Option (Uncomplete × Queue) :=
  match q with
  | none => none
  | some q => (unlink fd (q.hash (hashFd fd))).map fun r => (r.1, q.setHash (hashFd fd) r.2)

/-- `get_queue` -/
def getQueue (q : Option Queue) : Queue :=
  q.getD ⟨fun _ => [], RingBuffer.empty QUEUESIZE (by decide) default⟩

/-- `push_data` and `expand_queue`. -/
def pushData (q : Option Queue) (fd : Int) (buffer : List UInt8) (size : Nat) : Queue :=
  let q := getQueue q
  { q with queue := q.queue.pushEnlarging QUEUESIZE (by decide) ⟨fd, size, buffer⟩ }

/-- The entry goes to the front of its list. -/
def Queue.link (q : Queue) (fd : Int) (uc : Uncomplete) : Queue :=
  q.setHash (hashFd fd) (uc :: q.hash (hashFd fd))

/-- `save_uncomplete` and what the callers fill in. -/
def saveUncomplete (q : Option Queue) (fd : Int) (uc : Uncomplete) : Queue :=
  (getQueue q).link fd uc

/-- `read_size` -/
def readSize (b₀ b₁ : UInt8) : Nat := b₀.toNat <<< 8 ||| b₁.toNat

/-- `push_more`; a read behind the message is `none`. -/
def pushMore (q : Option Queue) (fd : Int) : List UInt8 → Option Queue
  | [] => none
  | [header] => some (saveUncomplete q fd ⟨⟨fd, 0, []⟩, -1, header⟩)
  | b₀ :: b₁ :: buffer =>
    let packSize := readSize b₀ b₁
    if buffer.length < packSize then
      some (saveUncomplete q fd ⟨⟨fd, packSize, buffer⟩, buffer.length, 0⟩)
    else
      let q := pushData q fd (buffer.take packSize) packSize
      let rest := buffer.drop packSize
      if 0 < rest.length then pushMore (some q) fd rest else some q
termination_by buffer => buffer.length
decreasing_by
  simp only [List.length_drop, List.length_cons]
  omega

def closeUncomplete (q : Option Queue) (fd : Int) : Option Queue :=
  match findUncomplete q fd with
  | some (_, q) => some q
  | none => q

/-! ## Messages of the socket server -/

/-- What `filter` returns behind the queue. -/
inductive Event where
  | nothing
  | data (fd : Int) (buffer : List UInt8) (size : Nat)
  | more
  | error (id : Int) (text : List UInt8)
  | opened (ud : Int) (text : List UInt8)
  | close (id : Int)
deriving DecidableEq

/-- The second byte of the length of a packet, where it was not there yet. -/
def readHeader (uc : Uncomplete) (buffer : List UInt8) : Option (Uncomplete × List UInt8) :=
  if uc.read < 0 then
    if uc.read = -1 then
      match buffer with
      | [] => none
      | byte :: buffer =>
        some ({ uc with
          pack := { uc.pack with size := byte.toNat ||| uc.header.toNat <<< 8, buffer := [] }
          read := 0 }, buffer)
    else none
  else some (uc, buffer)

/-- `filter_data_` for a connection with a partial packet. -/
def fillUncomplete (q : Queue) (fd : Int) (uc : Uncomplete) (buffer : List UInt8) :
    Option (Option Queue × Event) :=
  let need := uc.pack.size - uc.read
  if buffer.length < need then
    some (some (q.link fd
      { uc with
        pack := { uc.pack with buffer := uc.pack.buffer ++ buffer }
        read := uc.read + buffer.length }), .nothing)
  else
    let whole := uc.pack.buffer ++ buffer.take need.toNat
    let rest := buffer.drop need.toNat
    if rest.length = 0 then some (some q, .data fd whole uc.pack.size)
    else
      -- more data
      (pushMore (some (pushData (some q) fd whole uc.pack.size)) fd rest).map
        fun q => (some q, .more)

/-- `filter_data_` for the others. -/
def firstPacket (q : Option Queue) (fd : Int) : List UInt8 → Option (Option Queue × Event)
  | [] => none
  | [header] => some (some (saveUncomplete q fd ⟨⟨fd, 0, []⟩, -1, header⟩), .nothing)
  | b₀ :: b₁ :: buffer =>
    let packSize := readSize b₀ b₁
    if buffer.length < packSize then
      some (some (saveUncomplete q fd ⟨⟨fd, packSize, buffer⟩, buffer.length, 0⟩), .nothing)
    else if buffer.length = packSize then
      -- just one package
      some (q, .data fd buffer buffer.length)
    else
      -- more data
      (pushMore (some (pushData q fd (buffer.take packSize) packSize)) fd
        (buffer.drop packSize)).map fun q => (some q, .more)

/-- `filter_data_` -/
def filterData (q : Option Queue) (fd : Int) (buffer : List UInt8) :
    Option (Option Queue × Event) :=
  match findUncomplete q fd with
  | some (uc, q) => (readHeader uc buffer).bind fun r => fillUncomplete q fd r.1 r.2
  | none => firstPacket q fd buffer

/-- A `struct skynet_socket_message`; `other` is UDP or a warning. -/
inductive Message where
  | data (id : Int) (buffer : List UInt8)
  | connect (id : Int)
  | close (id : Int)
  | accept (id ud : Int) (text : List UInt8)
  | error (id : Int) (text : List UInt8)
  | other (id : Int)
deriving DecidableEq

/-- `lfilter` -/
def filter (q : Option Queue) : Message → Option (Option Queue × Event)
  | .data id buffer => filterData q id buffer
  | .connect _ => some (q, .nothing)
  | .close id => some (closeUncomplete q id, .close id)
  | .accept _ ud text => some (q, .opened ud text)
  | .error id text => some (closeUncomplete q id, .error id text)
  | .other _ => some (q, .nothing)

/-- `lpop` -/
def pop (q : Option Queue) : Option (Netpack × Queue) :=
  q.bind fun q => q.queue.pop.map fun r => (r.1, { q with queue := r.2 })

/-- The packets of a loop of at most `fuel` calls of `pop`. -/
def popAll : Nat → Option Queue → List Netpack × Option Queue
  | 0, q => ([], q)
  | fuel + 1, q =>
    match pop q with
    | none => ([], q)
    | some (np, q) =>
      let r := popAll fuel (some q)
      (np :: r.1, r.2)

/-- A service that takes every packet before the next message: `dispatch_msg` for `data` and
`dispatch_queue` for `more`. -/
def receive (q : Option Queue) (m : Message) : Option (List Netpack × Option Queue) :=
  (filter q m).map fun r =>
    match r.2 with
    | .data fd buffer size => ([⟨fd, size, buffer⟩], r.1)
    | .more => popAll (getQueue r.1).queue.cap r.1
    | _ => ([], r.1)

/-- The packets of a run, in the order in which the service gets them. -/
def receiveAll : Option Queue → List Message → Option (List Netpack)
  | _, [] => some []
  | q, m :: ms => (receive q m).bind fun r => (receiveAll r.2 ms).map (r.1 ++ ·)

/-! ## Packets to send -/

def writeSize (len : Nat) : List UInt8 :=
  [UInt8.ofNat (len >>> 8 &&& 0xff), UInt8.ofNat (len &&& 0xff)]

/-- The two bytes of the length and the payload, if that is not too long. -/
def frame (payload : List UInt8) : Except String (List UInt8) :=
  let len := payload.length
  if 0x10000 < len then
    .error s!"Invalid size (too long) of data : {toInt (len % 2 ^ 32)}"
  else .ok (writeSize len ++ payload)

/-- `lpack` -/
def pack (ptr : List UInt8) : Except String (List UInt8) := frame ptr

/-- `lpack_string` -/
def packString (ptr : List UInt8) : Except String (List UInt8) := frame ptr

/-- `lpack_padding`: the cookie goes behind the content. -/
def packPadding (cookie ptr : List UInt8) : Except String (List UInt8) := frame (ptr ++ cookie)

/-- A call of one of the three. -/
inductive Call where
  | pack (ptr : List UInt8)
  | packString (ptr : List UInt8)
  | packPadding (cookie ptr : List UInt8)
deriving DecidableEq

def Call.run : Call → Except String (List UInt8)
  | .pack ptr => NetpackQueue.pack ptr
  | .packString ptr => NetpackQueue.packString ptr
  | .packPadding cookie ptr => NetpackQueue.packPadding cookie ptr

def Call.payload : Call → List UInt8
  | .pack ptr => ptr
  | .packString ptr => ptr
  | .packPadding cookie ptr => ptr ++ cookie

end Jump.Skynet.NetpackQueue
