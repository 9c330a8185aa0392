import Jump.Core.RingBuffer
import Jump.Skynet.HarborLink.Code

/-! # The harbor service

`service_harbor.c`: what the service of a node does with the messages that leave the node, the
commands of its slave and the events of its sockets. A failed assertion is `none`.
-/

namespace Jump.Skynet.HarborService

open Jump.Core
open Jump.Skynet.HarborLink

def GLOBALNAME_LENGTH : Nat := 16
def DEFAULT_QUEUE_SIZE : Nat := 1024
def PTYPE_TEXT : Nat := 0
def PTYPE_ERROR : Nat := 7

/-- The buffer of a message. Its number is the place of the message in the run, which stands
for its address. -/
structure Buffer where
  number : Nat
  bytes : List UInt8
deriving DecidableEq, Inhabited

/-- `struct harbor_msg` -/
structure HarborMsg where
  header : RemoteMessageHeader
  buffer : Buffer
deriving DecidableEq

instance : Inhabited HarborMsg := ⟨⟨⟨0, 0, 0⟩, default⟩⟩

/-- `struct harbor_msg_queue` -/
abbrev HarborMsgQueue := RingBuffer HarborMsg

/-- `new_queue` -/
def newQueue : HarborMsgQueue := RingBuffer.empty DEFAULT_QUEUE_SIZE (by decide) default

/-- The messages of `while ((m = pop_queue(queue)) != NULL)`. -/
def popQueue (queue : HarborMsgQueue) : List HarborMsg := queue.drain queue.cap

/-! ## What the service asks for -/

inductive Data where
  | null
  | text (bytes : List UInt8)
  | buffer (b : Buffer)
deriving DecidableEq

/-- `skynet_send`, `send_remote`, the byte of `handshake`, `skynet_socket_start` and
`skynet_socket_close`, `skynet_free` of a message and `skynet_error`. -/
inductive Effect where
  | send (source destination type : Nat) (session : Int) (data : Data)
  | sendRemote (fd : Int) (m : HarborMsg)
  | handshake (fd : Int) (id : UInt8)
  | start (fd : Int)
  | close (fd : Int)
  | free (b : Buffer)
  | error (text : String)
deriving DecidableEq

/-- The bytes that `skynet_socket_send` gets. -/
def Effect.written : Effect → Option (Int × List UInt8)
  | .sendRemote fd m => some (fd, HarborLink.sendRemote m.buffer.bytes m.header)
  | .handshake fd id => some (fd, [id])
  | _ => none

/-! ## Names -/

/-- `char name[GLOBALNAME_LENGTH]` -/
abbrev Name := List UInt8

/-- The word `ptr[i]` of a name. -/
def nameWord (name : Name) (i : Nat) : Nat :=
  BigEndian.decode ((name.drop (4 * i)).take 4).reverse

def nameHash (name : Name) : Nat :=
  nameWord name 0 ^^^ nameWord name 1 ^^^ nameWord name 2 ^^^ nameWord name 3

/-- The characters that `strncmp` compares. -/
def nameText (name : Name) : List UInt8 := (name.take GLOBALNAME_LENGTH).takeWhile (· ≠ 0)

/-- `struct keyvalue` -/
structure KeyValue where
  key : Name
  hash : Nat
  value : Nat
  queue : Option HarborMsgQueue

/-- The comparison of `hash_search`. -/
def KeyValue.matches (node : KeyValue) (name : Name) : Bool :=
  node.hash = nameHash name ∧ nameText node.key = nameText name

/-- `struct hashmap`. A node with the hash of a name is in the bucket of that hash, so that the
buckets only shorten the search. -/
abbrev Hashmap := List KeyValue

def hashSearch (map : Hashmap) (name : Name) : Option KeyValue :=
  map.find? (·.matches name)

def newNode (name : Name) : KeyValue where
  key := name
  hash := nameHash name
  value := 0
  queue := none

/-- `hash_search`, and `hash_insert` if there is no node. -/
def hashNode (map : Hashmap) (name : Name) : KeyValue × Hashmap :=
  match hashSearch map name with
  | some node => (node, map)
  | none => (newNode name, newNode name :: map)

/-- The map after a write through the pointer to the node of a name. -/
def hashWrite (node : KeyValue) (name : Name) : Hashmap → Hashmap
  | [] => []
  | n :: map => if n.matches name then node :: map else n :: hashWrite node name map

/-! ## The service -/

/-- `struct harbor`. The queue of a slave stands beside the slave. -/
structure Service where
  id : Nat
  slave : Nat
  map : Hashmap
  s : Nat → Slave
  queue : Nat → Option HarborMsgQueue

namespace Service

/-- What the decoder of a link uses. -/
def harbor (h : Service) : Harbor := ⟨h.id, h.s⟩

def setSlave (h : Service) (id : Nat) (s : Slave) : Service :=
  { h with s := Function.update h.s id s }

def setQueue (h : Service) (id : Nat) (queue : Option HarborMsgQueue) : Service :=
  { h with queue := Function.update h.queue id queue }

end Service

def nameString (name : Name) : String :=
  String.ofList ((nameText name).map fun b => Char.ofNat b.toNat)

def bytesOf (text : String) : List UInt8 := text.toList.map fun c => UInt8.ofNat c.toNat

def hex (n : Nat) : String := String.ofList (Nat.toDigits 16 n)

/-- `release_queue` -/
def releaseQueue : Option HarborMsgQueue → List Effect
  | none => []
  | some queue => (popQueue queue).map fun m => .free m.buffer

/-- Every message of a queue is written to the link, and its buffer is freed. -/
def sendQueue (fd : Int) (msgs : List HarborMsg) : List Effect :=
  msgs.flatMap fun m => [.sendRemote fd m, .free m.buffer]

def reportHarborDown (h : Service) (id : Nat) : Effect :=
  .send 0 h.slave PTYPE_TEXT 0 (.text (bytesOf ("D " ++ toString id)))

/-- `dispatch_name_queue`, with the queue that is left in the node. -/
def dispatchNameQueue (h : Service) (node : KeyValue) (queue : HarborMsgQueue) :
    Option (Service × Option HarborMsgQueue × List Effect) :=
  let handle := node.value
  let harborId := handle >>> HANDLE_REMOTE_SHIFT
  if harborId = 0 then none
  else
    let s := h.s harborId
    if s.fd = 0 then
      if s.status = .down then
        some (h, some queue, [.error ("Drop message to " ++ nameString node.key ++ " (in harbor " ++
          toString harborId ++ ")")])
      else
        match h.queue harborId with
        | none => some (h.setQueue harborId (some queue), none, [])
        | some waiting =>
          let merged := (popQueue queue).foldl RingBuffer.pushReserved waiting
          some (h.setQueue harborId (some merged), none, [])
    else
      let patched := (popQueue queue).map fun m =>
        { m with header := { m.header with
          destination := m.header.destination ||| (handle &&& HANDLE_MASK) } }
      some (h, none, sendQueue s.fd patched)

/-- `dispatch_queue` -/
def dispatchQueue (h : Service) (id : Nat) : Option (Service × List Effect) :=
  let fd := (h.s id).fd
  if fd = 0 then none
  else
    match h.queue id with
    | none => some (h, [])
    | some queue => some (h.setQueue id none, sendQueue fd (popQueue queue))

/-- `close_harbor`, whose status the decoder sets. -/
def closeHarbor (h : Service) (id : Nat) : Service × List Effect :=
  let fd := (h.s id).fd
  (h.setQueue id none, (if fd ≠ 0 then [.close fd] else []) ++ releaseQueue (h.queue id))

/-! ## What arrives over a link -/

/-- What `forward_local_messsage` does; `alive` are the handles that `skynet_send` finds. -/
def forwarded (alive : Nat → Bool) (source destination type : Nat) (session : Int)
    (msg : List UInt8) : List Effect :=
  .send source destination type session (.text msg) ::
    if alive destination then []
    else [.send destination source PTYPE_ERROR session .null,
      .error ("Unknown destination :" ++ hex destination ++ " from :" ++ hex source)]

/-- The line that is logged when a link is closed: `s` is the slave before the buffer came. -/
def closedText (s : Slave) (id : Nat) (fd : Int) (buffer : List UInt8) : String :=
  match s.status, buffer with
  | .handshake, remoteId :: _ =>
    if remoteId.toNat ≠ id then
      "Invalid shakehand id (" ++ toString id ++ ") from fd = " ++ toString fd ++
        " , harbor = " ++ toString remoteId.toNat
    else "Message is too long from harbor " ++ toString id
  | _, _ => "Message is too long from harbor " ++ toString id

/-- What one event of the decoder makes the service do. -/
def perform (fd : Int) (buffer : List UInt8) (alive : Nat → Bool) (before : Service)
    (h : Service) : Event → Option (Service × List Effect)
  | .forward source destination type session msg =>
    some (h, forwarded alive source destination type session msg)
  | .dispatchQueue id => dispatchQueue h id
  | .closeHarbor id =>
    let r := closeHarbor h id
    some (r.1, .error (closedText (before.s id) id fd buffer) :: r.2)
  | .invalidFd fd => some (h, [.error ("Invalid socket fd (" ++ toString fd ++ ") data")])

def performAll (fd : Int) (buffer : List UInt8) (alive : Nat → Bool) (before : Service) :
    Service → List Event → Option (Service × List Effect)
  | h, [] => some (h, [])
  | h, e :: events => do
    let (h, effects) ← perform fd buffer alive before h e
    let (h, more) ← performAll fd buffer alive before h events
    return (h, effects ++ more)

/-- `push_socket_data` -/
def pushSocketData (h : Service) (fd : Int) (buffer : List UInt8) (alive : Nat → Bool) :
    Option (Service × List Effect) := do
  let (link, events) ← HarborLink.pushSocketData h.harbor fd buffer
  performAll fd buffer alive h { h with s := link.s } events

/-! ## Messages that leave the node -/

/-- `update_name` -/
def updateName (h : Service) (name : Name) (handle : Nat) : Option (Service × List Effect) := do
  let (node, map) := hashNode h.map name
  let node := { node with value := handle }
  match node.queue with
  | none => return ({ h with map := hashWrite node name map }, [])
  | some queue =>
    let (h, left, effects) ← dispatchNameQueue h node queue
    return ({ h with map := hashWrite { node with queue := none } name map },
      effects ++ releaseQueue left)

/-- `remote_send_handle`; the flag says that the message is kept. -/
def remoteSendHandle (h : Service) (source destination type : Nat) (session : Int)
    (msg : Buffer) : Bool × Service × List Effect :=
  let harborId := destination >>> HANDLE_REMOTE_SHIFT
  if harborId = h.id then
    (true, h, [.send source destination (type ||| PTYPE_TAG_DONTCOPY) session (.buffer msg)])
  else
    let s := h.s harborId
    if s.fd = 0 ∨ s.status = .handshake then
      if s.status = .down then
        (false, h, [.send destination source PTYPE_ERROR 0 .null,
          .error ("Drop message to harbor " ++ toString harborId ++ " from " ++ hex source ++
            " to " ++ hex destination ++ " (session = " ++ toString session ++ ", msgsz = " ++
            toString msg.bytes.length ++ ")")])
      else
        let queue := (h.queue harborId).getD newQueue
        let header := {
          source := source
          destination := u32 (type <<< HANDLE_REMOTE_SHIFT) ||| (destination &&& HANDLE_MASK)
          session := uint32OfInt session }
        (true, h.setQueue harborId (some (queue.pushReserved ⟨header, msg⟩)), [])
    else (false, h, [.sendRemote s.fd ⟨cookie source destination type session, msg⟩])

/-- The question for a name: `Q`, a blank and the name up to its end. -/
def query (name : Name) : List UInt8 := bytesOf "Q " ++ nameText name

/-- `remote_send_name` -/
def remoteSendName (h : Service) (source : Nat) (name : Name) (type : Nat) (session : Int)
    (msg : Buffer) : Bool × Service × List Effect :=
  let (node, map) := hashNode h.map name
  if node.value = 0 then
    let queue := node.queue.getD newQueue
    let header := {
      source := source
      destination := u32 (type <<< HANDLE_REMOTE_SHIFT)
      session := uint32OfInt session }
    let node := { node with queue := some (queue.pushReserved ⟨header, msg⟩) }
    (true, { h with map := hashWrite node name map },
      [.send 0 h.slave PTYPE_TEXT 0 (.text (query name))])
  else remoteSendHandle { h with map := map } source node.value type session msg

/-! ## Commands -/

def isspace (b : UInt8) : Bool := b = 32 ∨ 9 ≤ b ∧ b ≤ 13

def isdigit (b : UInt8) : Bool := 48 ≤ b ∧ b ≤ 57

/-- `%d`: the number in `int` and what follows it. The digits are read into a `long`. -/
def scanInt (text : List UInt8) : Option (Int × List UInt8) :=
  let text := text.dropWhile isspace
  let (negative, text) := match text with
    | 45 :: rest => (true, rest)
    | 43 :: rest => (false, rest)
    | rest => (false, rest)
  let digits := text.takeWhile isdigit
  if digits = [] then none
  else
    let n : Nat := digits.foldl (fun n b => n * 10 + (b.toNat - 48)) 0
    let long : Int := if negative then max (-n : Int) (-2 ^ 63) else min (n : Int) (2 ^ 63 - 1)
    some (Int.bmod long (2 ^ 32), text.dropWhile isdigit)

/-- `sscanf(buffer, "%d %d", &fd, &id)` -/
def scanFdId (buffer : List UInt8) : Int × Int :=
  match scanInt (buffer.takeWhile (· ≠ 0)) with
  | none => (0, 0)
  | some (fd, rest) =>
    match scanInt rest with
    | none => (fd, 0)
    | some (id, _) => (fd, id)

def textString (text : List UInt8) : String :=
  String.ofList ((text.takeWhile (· ≠ 0)).map fun b => Char.ofNat b.toNat)

/-- `handshake` -/
def handshake (h : Service) (id : Nat) : Effect :=
  .handshake (h.s id).fd (UInt8.ofNat h.id)

/-- `case 'N'` -/
def commandName (h : Service) (name : List UInt8) (source : Nat) :
    Option (Service × List Effect) :=
  if name.length = 0 ∨ name.length ≥ GLOBALNAME_LENGTH then
    some (h, [.error ("Invalid global name " ++ textString name)])
  else updateName h (name ++ List.replicate (GLOBALNAME_LENGTH - name.length) 0) source

/-- `case 'S'` and `case 'A'` after the numbers are read. -/
def connect (h : Service) (command : UInt8) (fd : Int) (id : Nat) :
    Option (Service × List Effect) :=
  if (h.s id).fd ≠ 0 then
    some (h, [.error ("Harbor " ++ toString id ++ " alreay exist")])
  else do
    let status := if command = 83 then Status.handshake else .header
    let h := h.setSlave id { h.s id with fd := fd, status := status }
    let effects := [.start fd, handshake h id]
    if command = 83 then return (h, effects)
    else
      let (h, more) ← dispatchQueue h id
      return (h, effects ++ more)

/-- `case 'S'` and `case 'A'` -/
def commandConnect (h : Service) (command : UInt8) (numbers : List UInt8) :
    Option (Service × List Effect) :=
  let (fd, id) := scanFdId numbers
  if fd = 0 ∨ id ≤ 0 ∨ id ≥ REMOTE_MAX then
    some (h, [.error ("Invalid command " ++ textString [command] ++ " " ++ textString numbers)])
  else connect h command fd id.toNat

/-- `harbor_command`. An `S` or `A` without its second character overruns the copy. -/
def harborCommand (h : Service) (msg : List UInt8) (source : Nat) :
    Option (Service × List Effect) :=
  match msg with
  | 78 :: rest => commandName h (rest.drop 1) source
  | 83 :: _ :: numbers => commandConnect h 83 numbers
  | 65 :: _ :: numbers => commandConnect h 65 numbers
  | [83] => none
  | [65] => none
  | _ => some (h, [.error ("Unknown command " ++ textString msg)])

/-! ## The loop of the service -/

/-- A message that comes to the service. `message` is of any type but those of sockets and
commands; a `handle` of 0 means that it goes to the name. -/
inductive Input where
  | data (fd : Int) (buffer : List UInt8) (alive : Nat → Bool)
  | closed (fd : Int)
  | connect
  | otherSocket
  | command (msg : List UInt8) (source : Nat)
  | message (source type : Nat) (session : Int) (name : Name) (handle : Nat) (bytes : List UInt8)

/-- `mainloop`, for the message with the number `k`. -/
def mainloop (k : Nat) (h : Service) : Input → Option (Service × List Effect)
  | .data fd buffer alive => pushSocketData h fd buffer alive
  | .closed fd =>
    match h.harbor.find fd with
    | some id => some (h, [reportHarborDown h id])
    | none => some (h, [.error ("Unkown fd (" ++ toString fd ++ ") closed")])
  | .connect => some (h, [])
  | .otherSocket => some (h, [.error "recv invalid socket message type 6"])
  | .command msg source => harborCommand h msg source
  | .message source type session name handle bytes =>
    let r := if handle = 0 then remoteSendName h source name type session ⟨k, bytes⟩
      else remoteSendHandle h source handle type session ⟨k, bytes⟩
    some (r.2.1, r.2.2 ++ if r.1 then [] else [.free ⟨k, bytes⟩])

/-- `harbor_init` -/
def harborInit (id slave : Nat) : Service where
  id := id
  slave := slave
  map := []
  s _ := { fd := 0, status := .wait, length := 0, read := 0, size := [0, 0, 0, 0],
           recvBuffer := [] }
  queue _ := none

/-- The messages from the `k`th on, and what the service does for each of them. -/
def run : Nat → Service → List Input → Option (Service × List (List Effect))
  | _, h, [] => some (h, [])
  | k, h, i :: inputs => do
    let (h, effects) ← mainloop k h i
    let (h, more) ← run (k + 1) h inputs
    return (h, effects :: more)

end Jump.Skynet.HarborService
