import Jump.Core.RingBuffer
import Jump.Core.Word
import Jump.Skynet.Handle.Code

/-! # Sending a message

`skynet_send` and `skynet_sendname` of `skynet_server.c` down to the queue of the receiver, and
`dispatch_message` from there to its callback. The type of a message travels in the high bits
of its size. A failed assertion is `none`.
-/

namespace Jump.Skynet.Sending

open Jump.Core
open Jump.Skynet.Handle (HandleStorage HandleName)

def HANDLE_MASK : Nat := 0xffffff
def HANDLE_REMOTE_SHIFT : Nat := 24
def GLOBALNAME_LENGTH : Nat := 16
def PTYPE_SYSTEM : Int := 4
def PTYPE_HARBOR : Int := 5
def PTYPE_TAG_DONTCOPY : Nat := 0x10000
def PTYPE_TAG_ALLOCSESSION : Nat := 0x20000

/-- A buffer; `none` is the null pointer. -/
abbrev Buffer := Option (List UInt8)

/-- `struct remote_message` -/
structure RemoteMessage where
  name : List Char
  handle : UInt32
  message : Buffer
  sz : Nat

/-- `sizeof(struct remote_message)` -/
def sizeofRemoteMessage : Nat := 40

/-- What the pointer of a message leads to. -/
inductive Data where
  | buffer (message : Buffer)
  | remote (rmsg : RemoteMessage)

/-- `struct skynet_message` -/
structure Message where
  source : UInt32
  session : Int
  data : Data
  sz : Nat

structure Context where
  handle : UInt32
  sessionId : Int
  queue : RingBuffer Message

/-- The contexts of the process and the table that finds them, with `REMOTE` and `HARBOR`. -/
structure Node where
  storage : HandleStorage Nat
  context : Nat → Context
  remote : Option Nat
  harbor : UInt32

/-- What a call does besides: the text for the logger, and `skynet_free(data)`. -/
inductive Event where
  | error (text : String)
  | free
deriving DecidableEq

structure Sent where
  ret : Int
  node : Node
  events : List Event

/-! ## Type and size in one number -/

/-- `type << HANDLE_REMOTE_SHIFT`, an `int` -/
def shiftType (type : Int) : Int := toInt (uint32OfInt type <<< HANDLE_REMOTE_SHIFT)

/-- `sz | type << HANDLE_REMOTE_SHIFT`, a `size_t` -/
def pack (sz : Nat) (type : Int) : Nat := sz ||| sizeOfInt (shiftType type)

/-- `int type = sz >> HANDLE_REMOTE_SHIFT` -/
def messageType (sz : Nat) : Int := toInt (sz >>> HANDLE_REMOTE_SHIFT)

/-- `sz & HANDLE_MASK` -/
def messageSize (sz : Nat) : Nat := sz &&& HANDLE_MASK

/-- `type & 0xff` -/
def baseType (type : Int) : Nat := uint32OfInt type &&& 0xff

def hasTag (type : Int) (tag : Nat) : Bool := uint32OfInt type &&& tag ≠ 0

/-! ## Names and numbers -/

/-- `strcmp` of the names in the binary search of `skynet_handle_findname`; `fuel` bounds the
rounds, which halve what is between `first` and `last`. -/
def findnameLoop (names : List HandleName) (name : String) : Nat → Int → Int → UInt32
  | 0, _, _ => 0
  | fuel + 1, first, last =>
    if first ≤ last then
      let mid := (first + last).tdiv 2
      match names[mid.toNat]? with
      | none => 0
      | some n =>
        match compare n.name name with
        | .eq => n.handle
        | .lt => findnameLoop names name fuel (mid + 1) last
        | .gt => findnameLoop names name fuel first (mid - 1)
    else 0

/-- `skynet_handle_findname` -/
def findname (s : HandleStorage Nat) (name : String) : UInt32 :=
  findnameLoop s.name name (s.name.length + 1) 0 (s.name.length - 1)

def hexDigit (c : Char) : Option Nat :=
  if '0' ≤ c ∧ c ≤ '9' then some (c.toNat - '0'.toNat)
  else if 'a' ≤ c ∧ c ≤ 'f' then some (c.toNat - 'a'.toNat + 10)
  else if 'A' ≤ c ∧ c ≤ 'F' then some (c.toNat - 'A'.toNat + 10)
  else none

/-- The digits up to the first character that is none. -/
def hexValue : Nat → List Char → Nat
  | acc, [] => acc
  | acc, c :: cs =>
    match hexDigit c with
    | none => acc
    | some d => hexValue (16 * acc + d) cs

/-- `0x` before a digit -/
def dropHexPrefix : List Char → List Char
  | '0' :: x :: c :: cs =>
    if (x = 'x' ∨ x = 'X') ∧ (hexDigit c).isSome then c :: cs else '0' :: x :: c :: cs
  | cs => cs

def isspace (c : Char) : Bool := c = ' ' ∨ 9 ≤ c.toNat ∧ c.toNat ≤ 13

/-- `strtoul(s, NULL, 16)`, an `unsigned long`. What is too large becomes `ULONG_MAX`. -/
def strtoul16 (s : List Char) : Nat :=
  let (negative, digits) := match s.dropWhile isspace with
    | '-' :: cs => (true, cs)
    | '+' :: cs => (false, cs)
    | cs => (false, cs)
  let value := hexValue 0 (dropHexPrefix digits)
  if 2 ^ 64 ≤ value then 2 ^ 64 - 1
  else if negative then u64 (2 ^ 64 - value)
  else value

/-- `copy_name` -/
def copyName (addr : String) : List Char :=
  (addr.toList ++ List.replicate GLOBALNAME_LENGTH (Char.ofNat 0)).take GLOBALNAME_LENGTH

/-! ## The way to the queue -/

namespace Node

def setContext (n : Node) (ctx : Nat) (x : Context) : Node :=
  { n with context := Function.update n.context ctx x }

/-- `skynet_mq_push(ctx->queue, &smsg)` -/
def mqPush (n : Node) (ctx : Nat) (smsg : Message) : Node :=
  n.setContext ctx { n.context ctx with queue := (n.context ctx).queue.push smsg }

/-- `skynet_context_push`, which returns `-1` if there is no context. -/
def contextPush (n : Node) (handle : UInt32) (smsg : Message) : Option Node :=
  (Handle.grab (fun ctx => (n.context ctx).handle) handle n.storage).map fun ctx =>
    n.mqPush ctx smsg

/-- `skynet_context_send` -/
def contextSend (n : Node) (ctx : Nat) (msg : Data) (sz : Nat) (source : UInt32) (type : Int)
    (session : Int) : Node :=
  n.mqPush ctx { source := source, session := session, data := msg, sz := pack sz type }

/-- `skynet_harbor_send` -/
def harborSend (n : Node) (rmsg : RemoteMessage) (source : UInt32) (session : Int) : Option Node :=
  let type := messageType rmsg.sz
  let rmsg := { rmsg with sz := messageSize rmsg.sz }
  match n.remote with
  | none => none
  | some ctx =>
    if type ≠ PTYPE_SYSTEM ∧ type ≠ PTYPE_HARBOR then
      some (n.contextSend ctx (.remote rmsg) sizeofRemoteMessage source type session)
    else none

/-- `skynet_harbor_message_isremote` -/
def isremote (n : Node) (handle : UInt32) : Option Bool :=
  if n.harbor ≠ ~~~0 then
    let h := handle &&& ~~~Handle.HANDLE_MASK
    some (h ≠ n.harbor ∧ h ≠ 0)
  else none

/-- `skynet_context_newsession` -/
def newsession (n : Node) (ctx : Nat) : Int × Node :=
  let session := toInt (uint32OfInt ((n.context ctx).sessionId + 1))
  let session := if session ≤ 0 then 1 else session
  (session, n.setContext ctx { n.context ctx with sessionId := session })

/-- `_filter_args`: the session, the data and the size, with the node after it. -/
def filterArgs (n : Node) (ctx : Nat) (type session : Int) (data : Buffer) (sz : Nat) :
    Option (Int × Buffer × Nat × Node) :=
  let needcopy := !hasTag type PTYPE_TAG_DONTCOPY
  let allocsession := hasTag type PTYPE_TAG_ALLOCSESSION
  if allocsession ∧ session ≠ 0 then none
  else
    let (session, n) := if allocsession then n.newsession ctx else (session, n)
    let data := if needcopy then data.map fun bytes => bytes.take sz ++ [0] else data
    some (session, data, pack sz (baseType type), n)

def tooLarge (destination : UInt32) (sz : Nat) : String :=
  "The message to " ++ String.ofList (Nat.toDigits 16 destination.toNat) ++
    " is too large (sz = " ++ toString sz ++ ")"

/-- `skynet_send` -/
def send (n : Node) (ctx : Nat) (source destination : UInt32) (type session : Int) (data : Buffer)
    (sz : Nat) : Option Sent :=
  if messageSize sz ≠ sz then some ⟨-1, n, [.error (tooLarge destination sz), .free]⟩
  else do
    let (session, data, sz, n) ← n.filterArgs ctx type session data sz
    let source := if source = 0 then (n.context ctx).handle else source
    if destination = 0 then return ⟨session, n, []⟩
    if ← n.isremote destination then
      let rmsg := { name := [], handle := destination, message := data, sz := sz }
      let n ← n.harborSend rmsg source session
      return ⟨session, n, []⟩
    else
      match n.contextPush destination ⟨source, session, .buffer data, sz⟩ with
      | none => return ⟨-1, n, [.free]⟩
      | some n => return ⟨session, n, []⟩

/-- `skynet_sendname` -/
def sendname (n : Node) (ctx : Nat) (source : UInt32) (addr : String) (type session : Int)
    (data : Buffer) (sz : Nat) : Option Sent :=
  let source := if source = 0 then (n.context ctx).handle else source
  match addr.toList with
  | ':' :: hex => n.send ctx source (UInt32.ofNat (strtoul16 hex)) type session data sz
  | '.' :: name =>
    let des := findname n.storage (String.ofList name)
    if des = 0 then some ⟨-1, n, if hasTag type PTYPE_TAG_DONTCOPY then [.free] else []⟩
    else n.send ctx source des type session data sz
  | _ => do
    let (session, data, sz, n) ← n.filterArgs ctx type session data sz
    let rmsg := { name := copyName addr, handle := 0, message := data, sz := sz }
    let n ← n.harborSend rmsg source session
    return ⟨session, n, []⟩

end Node

/-! ## From the queue to the callback -/

/-- The arguments of `ctx->cb`. -/
structure Call where
  type : Int
  session : Int
  source : UInt32
  data : Data
  sz : Nat

/-- `dispatch_message` -/
def dispatchMessage (msg : Message) : Call where
  type := messageType msg.sz
  session := msg.session
  source := msg.source
  data := msg.data
  sz := messageSize msg.sz

/-- `skynet_context_dispatchall`, for at most `fuel` messages. -/
def dispatchall : Nat → RingBuffer Message → List Call
  | 0, _ => []
  | fuel + 1, q =>
    match q.pop with
    | none => []
    | some (msg, q) => dispatchMessage msg :: dispatchall fuel q

end Jump.Skynet.Sending
