import Jump.Core.Bytes
import Jump.Core.Word
import Mathlib.Logic.Function.Basic

/-! # The link between two harbors

`send_remote` and `push_socket_data` of `service_harbor.c`. A message goes over the link as
its size (4 bytes, high byte first), its payload and a cookie of 12 bytes.
-/

namespace Jump.Skynet.HarborLink

open Jump.Core

def HEADER_COOKIE_LENGTH : Nat := 12
def HANDLE_MASK : Nat := 0xffffff
def HANDLE_REMOTE_SHIFT : Nat := 24
def PTYPE_TAG_DONTCOPY : Nat := 0x10000
def REMOTE_MAX : Nat := 256

/-- `struct remote_message_header` -/
structure RemoteMessageHeader where
  source : Nat
  destination : Nat
  session : Nat
deriving DecidableEq

/-- The cookie of `remote_send_handle`. -/
def cookie (source destination type : Nat) (session : Int) : RemoteMessageHeader where
  source := source
  destination := (destination &&& HANDLE_MASK) ||| u32 (type <<< HANDLE_REMOTE_SHIFT)
  session := uint32OfInt session

/-- `to_bigendian` -/
def toBigendian (n : Nat) : List UInt8 := BigEndian.encode 4 n

def headerToMessage (header : RemoteMessageHeader) : List UInt8 :=
  toBigendian header.source ++ toBigendian header.destination ++ toBigendian header.session

/-- `from_bigendian` of the 4 bytes at `p` -/
def fromBigendian (message : List UInt8) (p : Nat) : Nat :=
  BigEndian.decode ((message.drop p).take 4)

def messageToHeader (message : List UInt8) : RemoteMessageHeader where
  source := fromBigendian message 0
  destination := fromBigendian message 4
  session := fromBigendian message 8

/-- The bytes that `send_remote` writes to the link. -/
def sendRemote (buffer : List UInt8) (cookie : RemoteMessageHeader) : List UInt8 :=
  toBigendian (u32 (buffer.length + HEADER_COOKIE_LENGTH)) ++ buffer ++ headerToMessage cookie

inductive Status where
  | wait
  | handshake
  | header
  | content
  | down
deriving DecidableEq

/-- `struct slave` without the queue of messages that wait for the link. -/
structure Slave where
  fd : Int
  status : Status
  length : Nat
  read : Nat
  size : List UInt8
  recvBuffer : List UInt8
deriving DecidableEq

structure Harbor where
  id : Nat
  s : Nat → Slave

/-- What `push_socket_data` does besides decoding: the `skynet_send` of
`forward_local_messsage`, the queue that a handshake sends, and the link that is closed. -/
inductive Event where
  | forward (source destination type : Nat) (session : Int) (msg : List UInt8)
  | dispatchQueue (id : Nat)
  | closeHarbor (id : Nat)
  | invalidFd (fd : Int)
deriving DecidableEq

/-- `memcpy(buffer + p, bytes, size)` -/
def memcpy (buffer : List UInt8) (p : Nat) (bytes : List UInt8) : List UInt8 :=
  buffer.take p ++ bytes ++ buffer.drop (p + bytes.length)

def forwardLocalMessage (h : Harbor) (msg : List UInt8) : Event :=
  let header := messageToHeader (msg.drop (msg.length - HEADER_COOKIE_LENGTH))
  .forward header.source
    ((header.destination &&& HANDLE_MASK) ||| u32 (h.id <<< HANDLE_REMOTE_SHIFT))
    ((header.destination >>> HANDLE_REMOTE_SHIFT) ||| PTYPE_TAG_DONTCOPY)
    (toInt header.session) (msg.take (msg.length - HEADER_COOKIE_LENGTH))

/-- How a pass of the loop ends: it returns, or goes on with the rest of the buffer. -/
inductive Pass where
  | ret (s : Slave) (events : List Event)
  | again (s : Slave) (buffer : List UInt8) (events : List Event)

/-- `case STATUS_CONTENT` -/
def passContent (h : Harbor) (s : Slave) (buffer : List UInt8) : Pass :=
  let need := s.length - s.read
  if buffer.length < need then
    .ret { s with
      recvBuffer := memcpy s.recvBuffer s.read buffer
      read := s.read + buffer.length } []
  else
    let message := memcpy s.recvBuffer s.read (buffer.take need)
    let s := { s with length := 0, read := 0, recvBuffer := [], status := .header }
    if buffer.length = need then .ret s [forwardLocalMessage h message]
    else .again s (buffer.drop need) [forwardLocalMessage h message]

/-- `case STATUS_HEADER` -/
def passHeader (h : Harbor) (id : Nat) (s : Slave) (buffer : List UInt8) : Pass :=
  let need := 4 - s.read
  if buffer.length < need then
    .ret { s with size := memcpy s.size s.read buffer, read := s.read + buffer.length } []
  else
    let size := memcpy s.size s.read (buffer.take need)
    let s := { s with size := size }
    if size.take 1 ≠ [0] then .ret { s with status := .down } [.closeHarbor id]
    else
      let length := BigEndian.decode (size.drop 1)
      let s := { s with
        length := length, read := 0, recvBuffer := List.replicate length 0, status := .content }
      if buffer.length = need then .ret s [] else passContent h s (buffer.drop need)

/-- `case STATUS_HANDSHAKE` -/
def passHandshake (h : Harbor) (id : Nat) (s : Slave) (buffer : List UInt8) : Pass :=
  match buffer with
  | [] => .ret s []
  | remoteId :: buffer =>
    if remoteId.toNat ≠ id then .ret { s with status := .down } [.closeHarbor id]
    else
      let s := { s with status := .header }
      match buffer with
      | [] => .again s [] [.dispatchQueue id]
      | _ =>
        match passHeader h id s buffer with
        | .ret s events => .ret s (.dispatchQueue id :: events)
        | .again s buffer events => .again s buffer (.dispatchQueue id :: events)

def pass (h : Harbor) (id : Nat) (s : Slave) (buffer : List UInt8) : Pass :=
  match s.status with
  | .handshake => passHandshake h id s buffer
  | .header => passHeader h id s buffer
  | .content => passContent h s buffer
  | _ => .ret s []

/-- `for (;;)`, for at most `fuel` passes. -/
def loop (h : Harbor) (id : Nat) : Nat → Slave → List UInt8 → Option (Slave × List Event)
  | 0, _, _ => none
  | fuel + 1, s, buffer =>
    match pass h id s buffer with
    | .ret s events => some (s, events)
    | .again s buffer events => (loop h id fuel s buffer).map fun r => (r.1, events ++ r.2)

/-- The first slave with the descriptor. -/
def Harbor.find (h : Harbor) (fd : Int) : Option Nat :=
  (List.range' 1 (REMOTE_MAX - 1)).find? fun i => (h.s i).fd = fd

/-- `push_socket_data`. Every pass but the last takes bytes from the buffer, so that these are
enough. -/
def pushSocketData (h : Harbor) (fd : Int) (buffer : List UInt8) : Option (Harbor × List Event) :=
  match h.find fd with
  | none => some (h, [.invalidFd fd])
  | some id =>
    (loop h id (buffer.length + 2) (h.s id) buffer).map fun r =>
      ({ h with s := Function.update h.s id r.1 }, r.2)

end Jump.Skynet.HarborLink
