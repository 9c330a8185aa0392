import Jump.Core.Bytes
import Jump.Core.Word
import Mathlib.Data.List.Basic

/-! # A client's packet from the gate to its handler

The code that a packet runs through, with the bytes of the received message that it
looks at or changes: `_forward` of the gate, `skynet_send`, `dispatcher::dispatch`,
the callback of the game service, and `Register` and `Login` up to `ParseFromArray`.

Both sides have the low byte first and the same layout, so the head of a packet arrives as
the value that was copied into the message.
-/

namespace Jump.Zone

open Jump.Core Jump.Core.Bytes

/-! ## The way of a packet -/

/-- A message as the callback of a service gets it, `msg` and `sz`, and the memory that comes
after it. -/
structure Message where
  bytes : List UInt8
  behind : Memory

namespace Message

def sz (m : Message) : Nat := m.bytes.length

def memory (m : Message) : Memory := ofList m.bytes m.behind

end Message

/-- Some bytes that are read or written, counted from the start of the message. -/
structure Access where
  start : Nat
  len : Nat
deriving DecidableEq

def Access.Inside (sz : Nat) (a : Access) : Prop := a.len = 0 ∨ a.start + a.len ≤ sz

instance (sz : Nat) (a : Access) : Decidable (a.Inside sz) := by
  unfold Access.Inside
  infer_instance

/-- `struct PkgHead`, 20 bytes with the two that follow `ttl`. -/
structure PkgHead where
  ttl : Nat
  cmd : Nat
  clientFd : Nat
  ret : Int
  bodyLen : Nat
deriving DecidableEq

namespace PkgHead

def size : Nat := 20

def ttlAt : Nat := 0
def cmdAt : Nat := 4
def clientFdAt : Nat := 8
def retAt : Nat := 12
def bodyLenAt : Nat := 16

/-- What `*(PkgHead*)msg` is. -/
def read (m : Memory) (p : Nat) : PkgHead where
  ttl := load m 2 (p + ttlAt)
  cmd := load m 4 (p + cmdAt)
  clientFd := load m 4 (p + clientFdAt)
  ret := toInt (load m 4 (p + retAt))
  bodyLen := load m 4 (p + bodyLenAt)

/-- `ntohs`, the machine having the low byte first. -/
def ntohs (v : Nat) : Nat := (v % 256) * 256 + v / 256 % 256

/-- `ntohl` -/
def ntohl (v : Nat) : Nat :=
  (v % 256) * 16777216 + (v / 256 % 256) * 65536 + (v / 65536 % 256) * 256 + v / 16777216 % 256

/-- `PkgHead::unpack` on the head at `p`. -/
def unpack (m : Memory) (p : Nat) : Memory :=
  let m₁ := store m 2 (p + ttlAt) (ntohs (load m 2 (p + ttlAt)))
  let m₂ := store m₁ 4 (p + cmdAt) (ntohl (load m₁ 4 (p + cmdAt)))
  store m₂ 4 (p + bodyLenAt) (ntohl (load m₂ 4 (p + bodyLenAt)))

def unpackAccesses (p : Nat) : List Access :=
  [⟨p + ttlAt, 2⟩, ⟨p + cmdAt, 4⟩, ⟨p + bodyLenAt, 4⟩]

end PkgHead

def AUTH_SVR : Nat := 0x0001
def LOGIN_SVR : Nat := 0x0002
def CMD_REG_REQ : Nat := 0x00020000
def CMD_LOGIN_REQ : Nat := 0x00020001
def HANDLE_MASK : Nat := 0xffffff

/-- `GET_CMD_SVR_TYPE` -/
def getCmdSvrType (cmd : Nat) : Nat := cmd / 65536

/-- What the packet meets on its way: the gate's watchdog, the handle that
`skynet_handle_findname("game")` returns, and the handles of local services, to which
`skynet_send` gets a message through. -/
structure Env where
  watchdog : Nat
  game : Nat
  delivers : Nat → Bool

/-- `skynet_send`: whether the service gets a message of `sz` bytes. -/
def skynetSend (env : Env) (destination sz : Nat) : Bool :=
  sz ≤ HANDLE_MASK && destination != 0 && env.delivers destination

def blank : UInt8 := 32

def ofText (s : String) : List UInt8 := s.toList.map fun c => UInt8.ofNat c.toNat

/-- The digits of `%d` for the id of a connection, which is not negative. -/
def decimal (id : Nat) : List UInt8 := (Nat.toDigits 10 id).map fun c => UInt8.ofNat c.toNat

/-- `_forward` for a packet whose length was in its header; a longer packet closes the
connection, and an empty one is skipped. -/
def forward (env : Env) (id : Nat) (payload : List UInt8) (behind : Memory) : Option Message :=
  if payload.length = 0 ∨ 0x1000000 ≤ payload.length then none
  else
    let tmp := decimal id ++ ofText " data " ++ payload
    if skynetSend env env.watchdog tmp.length then some ⟨tmp, behind⟩ else none

/-- The loop at the start of `dispatch`: `space_counter` and `header_index`. -/
def scanHeader : List UInt8 → Nat → Nat × Nat
  | [], spaceCounter => (spaceCounter, 0)
  | c :: rest, spaceCounter =>
    if spaceCounter < 2 then
      let r := scanHeader rest (if c = blank then spaceCounter + 1 else spaceCounter)
      (r.1, r.2 + 1)
    else (spaceCounter, 0)

/-- `YAC_Common::sepstr` without empty parts. -/
def sepstr (s : List UInt8) (sep : UInt8) : List (List UInt8) :=
  (s.splitOn sep).filter fun part => part ≠ []

/-- `YAC_Common::strto<uint32_t>` of a text of digits. -/
def strto (s : List UInt8) : Nat :=
  min (s.foldl (fun v c => v * 10 + (c.toNat - 48)) 0) (2 ^ 32 - 1)

/-- What a callback does with its message: the bytes it looks at, and what it sends on. -/
structure Handled where
  accesses : List Access
  sent : Option (List UInt8)

/-- `dispatcher::dispatch` -/
def dispatch (env : Env) (msg : Message) : Handled :=
  let r := scanHeader msg.bytes 0
  let headerIndex := r.2
  let vExtHead := sepstr (msg.bytes.take headerIndex) blank
  let header : List Access := [⟨0, headerIndex⟩]
  if vExtHead.length < 2 then ⟨header, none⟩
  else if r.1 = 2 ∧ vExtHead[1]? = some (ofText "data") then
    let unpacked := PkgHead.unpack msg.memory headerIndex
    let memory := store unpacked 4 (headerIndex + PkgHead.clientFdAt)
      (strto (vExtHead.headD []))
    let pkgLen := msg.sz - headerIndex
    let head := PkgHead.unpackAccesses headerIndex ++
      [⟨headerIndex + PkgHead.clientFdAt, 4⟩, ⟨headerIndex + PkgHead.cmdAt, 4⟩]
    let cmdType := getCmdSvrType (load memory 4 (headerIndex + PkgHead.cmdAt))
    let module : Int := if cmdType = LOGIN_SVR then toInt env.game else 0
    if 0 < module then
      if pkgLen ≤ HANDLE_MASK then
        ⟨header ++ head ++ [⟨headerIndex, pkgLen⟩],
          if skynetSend env (uint32OfInt module) pkgLen then
            some (slice memory headerIndex pkgLen)
          else none⟩
      else ⟨header ++ head, none⟩
    else ⟨header ++ head, none⟩
  else ⟨header, none⟩

/-- `ParseFromArray(p, n)` reads up to `n` bytes. -/
def parseFromArray (p : Nat) (n : Int) : Access := ⟨p, n.toNat⟩

/-- `Register::Init`, which `Register::Enter` starts with. -/
def registerInit (head : PkgHead) (body : Nat) : List Access :=
  [parseFromArray body (toInt head.bodyLen)]

/-- `Login::Enter` -/
def loginEnter (head : PkgHead) (body : Nat) : List Access :=
  [parseFromArray body (toInt head.bodyLen)]

/-- `Game::cmdDispatch` -/
def cmdDispatch (head : PkgHead) (body : Nat) : List Access :=
  if head.cmd = CMD_REG_REQ then registerInit head body
  else if head.cmd = CMD_LOGIN_REQ then loginEnter head body
  else []

/-- The callback of the game service. -/
def gameCallback (msg : Message) : List Access :=
  ⟨0, PkgHead.size⟩ :: cmdDispatch (PkgHead.read msg.memory 0) PkgHead.size

/-- The messages that a packet leads to, each with its length and what is done with it. The
memory after the first is `behind`, and after the copy for the game service `behind'`. -/
def process (env : Env) (id : Nat) (payload : List UInt8) (behind behind' : Memory) :
    List (Nat × List Access) :=
  match forward env id payload behind with
  | none => []
  | some msg =>
    let handled := dispatch env msg
    match handled.sent with
    | none => [(msg.sz, handled.accesses)]
    | some copy =>
      [(msg.sz, handled.accesses), (copy.length, gameCallback ⟨copy, behind'⟩)]

/-- Nothing outside of a message is touched. -/
def Inside (hops : List (Nat × List Access)) : Prop :=
  ∀ hop ∈ hops, ∀ a ∈ hop.2, a.Inside hop.1

instance (hops : List (Nat × List Access)) : Decidable (Inside hops) := by
  unfold Inside
  infer_instance

/-! ## The head on its way and back -/

/-- The value of a `PkgHead` -/
structure Header where
  ttl : UInt16
  cmd : UInt32
  clientFd : UInt32
  ret : Int32
  bodyLen : UInt32
deriving DecidableEq

namespace Header

def ntohs (v : UInt16) : UInt16 := UInt16.ofNat (PkgHead.ntohs v.toNat)

def ntohl (v : UInt32) : UInt32 := UInt32.ofNat (PkgHead.ntohl v.toNat)

/-- The same as `ntohl` on a machine with the low byte first -/
def htonl (v : UInt32) : UInt32 := ntohl v

def unpack (h : Header) : Header :=
  { h with ttl := ntohs h.ttl, cmd := ntohl h.cmd, bodyLen := ntohl h.bodyLen }

def pack (h : Header) : Header :=
  { h with cmd := htonl h.cmd, ret := (htonl h.ret.toUInt32).toInt32, bodyLen := htonl h.bodyLen }

/-- The head that `sendToClinet` puts in front of a body of this size. -/
def sendToClinet (pkgHead : Header) (pkgBodySize : UInt32) : Header :=
  pack { pkgHead with bodyLen := pkgBodySize }

/-- The head that `send_msg` of the test client puts in front of its body. -/
def sendMsg (pkgHead : Header) (pkgBodySize : UInt32) : Header :=
  pack { pkgHead with bodyLen := pkgBodySize }

/-- The head that `dispatch` passes on, for the connection `fd`. -/
def dispatch (head : Header) (fd : UInt32) : Header := { unpack head with clientFd := fd }

/-- The head that `printRSP` shows. -/
def printRSP (pkgHead : Header) : Header := unpack pkgHead

section Bytes

variable {m : Memory} {p : Nat} {h : Header}

/-- The value as the fields of a head in memory -/
def toPkgHead (h : Header) : PkgHead where
  ttl := h.ttl.toNat
  cmd := h.cmd.toNat
  clientFd := h.clientFd.toNat
  ret := h.ret.toInt
  bodyLen := h.bodyLen.toNat

theorem ntohs_toNat (v : UInt16) : (ntohs v).toNat = PkgHead.ntohs v.toNat := by
  have hlt : PkgHead.ntohs v.toNat < 65536 := by
    unfold PkgHead.ntohs
    omega
  rw [ntohs, UInt16.toNat_ofNat', Nat.mod_eq_of_lt hlt]

theorem ntohl_toNat (v : UInt32) : (ntohl v).toNat = PkgHead.ntohl v.toNat := by
  have hlt : PkgHead.ntohl v.toNat < 4294967296 := by
    unfold PkgHead.ntohl
    omega
  rw [ntohl, UInt32.toNat_ofNat', Nat.mod_eq_of_lt hlt]

/-- The fields of a head in memory after `unpack` -/
theorem read_unpack (m : Memory) (p : Nat) : PkgHead.read (PkgHead.unpack m p) p =
    { PkgHead.read m p with
      ttl := PkgHead.ntohs (PkgHead.read m p).ttl
      cmd := PkgHead.ntohl (PkgHead.read m p).cmd
      bodyLen := PkgHead.ntohl (PkgHead.read m p).bodyLen } := by
  have httl : PkgHead.ntohs (load m 2 (p + 0)) < 256 ^ 2 := by
    unfold PkgHead.ntohs
    omega
  have hlt : ∀ v, PkgHead.ntohl v < 256 ^ 4 := by
    intro v
    unfold PkgHead.ntohl
    omega
  simp only [PkgHead.read, PkgHead.unpack, PkgHead.ttlAt, PkgHead.cmdAt, PkgHead.clientFdAt,
    PkgHead.retAt, PkgHead.bodyLenAt, PkgHead.mk.injEq]
  refine ⟨?_, ?_, ?_, ?_, ?_⟩
  · rw [load_store_frame (by omega), load_store_frame (by omega), load_store,
      Nat.mod_eq_of_lt httl]
  · rw [load_store_frame (by omega), load_store, load_store_frame (by omega),
      Nat.mod_eq_of_lt (hlt _)]
  · rw [load_store_frame (by omega), load_store_frame (by omega), load_store_frame (by omega)]
  · rw [load_store_frame (by omega), load_store_frame (by omega), load_store_frame (by omega)]
  · rw [load_store, load_store_frame (by omega), load_store_frame (by omega),
      Nat.mod_eq_of_lt (hlt _)]

/-- `unpack` on the bytes of a head is `unpack` on its value. -/
theorem read_unpack_value (hread : PkgHead.read m p = h.toPkgHead) :
    PkgHead.read (PkgHead.unpack m p) p = h.unpack.toPkgHead := by
  rw [read_unpack, hread]
  simp only [toPkgHead, unpack, ntohs_toNat, ntohl_toNat]

end Bytes

section Swap

/-- The two bytes of a number are the same. -/
def Mirrored16 (v : UInt16) : Prop := v.toNat % 256 = v.toNat / 256

/-- The four bytes of a number are the same from both ends. -/
def Mirrored32 (v : UInt32) : Prop :=
  v.toNat % 256 = v.toNat / 16777216 ∧ v.toNat / 256 % 256 = v.toNat / 65536 % 256

variable {a b c d : Nat}

theorem ntohs_bytes (ha : a < 256) (hb : b < 256) :
    PkgHead.ntohs (a * 256 + b) = b * 256 + a := by
  unfold PkgHead.ntohs
  omega

theorem ntohl_bytes (ha : a < 256) (hb : b < 256) (hc : c < 256) (hd : d < 256) :
    PkgHead.ntohl (a * 16777216 + b * 65536 + c * 256 + d) =
      d * 16777216 + c * 65536 + b * 256 + a := by
  unfold PkgHead.ntohl
  omega

theorem exists_bytes16 (v : UInt16) : ∃ a b, a < 256 ∧ b < 256 ∧ v.toNat = a * 256 + b := by
  have hlt := v.toNat_lt
  exact ⟨v.toNat / 256, v.toNat % 256, by omega, by omega, by omega⟩

theorem exists_bytes32 (v : UInt32) : ∃ a b c d, a < 256 ∧ b < 256 ∧ c < 256 ∧ d < 256 ∧
    v.toNat = a * 16777216 + b * 65536 + c * 256 + d := by
  have hlt := v.toNat_lt
  exact ⟨v.toNat / 16777216, v.toNat / 65536 % 256, v.toNat / 256 % 256, v.toNat % 256,
    by omega, by omega, by omega, by omega, by omega⟩

theorem ntohs_ntohs (v : UInt16) : ntohs (ntohs v) = v := by
  obtain ⟨a, b, ha, hb, hv⟩ := exists_bytes16 v
  rw [← UInt16.toNat_inj, ntohs_toNat, ntohs_toNat, hv, ntohs_bytes ha hb, ntohs_bytes hb ha]

theorem ntohl_htonl (v : UInt32) : ntohl (htonl v) = v := by
  obtain ⟨a, b, c, d, ha, hb, hc, hd, hv⟩ := exists_bytes32 v
  rw [htonl, ← UInt32.toNat_inj, ntohl_toNat, ntohl_toNat, hv, ntohl_bytes ha hb hc hd,
    ntohl_bytes hd hc hb ha]

theorem ntohs_eq_iff (v : UInt16) : ntohs v = v ↔ Mirrored16 v := by
  obtain ⟨a, b, ha, hb, hv⟩ := exists_bytes16 v
  rw [← UInt16.toNat_inj, ntohs_toNat, Mirrored16, hv, ntohs_bytes ha hb]
  omega

/-- The bytes of a number, the low one first -/
theorem bytes_of (hb : b < 256) (hc : c < 256) (hd : d < 256) {n : Nat}
    (hn : n = a * 16777216 + b * 65536 + c * 256 + d) :
    n % 256 = d ∧ n / 256 % 256 = c ∧ n / 65536 % 256 = b ∧ n / 16777216 = a := by
  refine ⟨by omega, by omega, by omega, by omega⟩

theorem htonl_eq_iff (v : UInt32) : htonl v = v ↔ Mirrored32 v := by
  obtain ⟨a, b, c, d, ha, hb, hc, hd, hv⟩ := exists_bytes32 v
  obtain ⟨h₀, h₁, h₂, h₃⟩ := bytes_of hb hc hd hv
  have hswap : (htonl v).toNat = d * 16777216 + c * 65536 + b * 256 + a := by
    rw [htonl, ntohl_toNat, hv, ntohl_bytes ha hb hc hd]
  obtain ⟨g₀, g₁, -, -⟩ := bytes_of hc hb ha hswap
  rw [Mirrored32, h₀, h₁, h₂, h₃]
  constructor
  · intro heq
    rw [heq] at g₀ g₁
    exact ⟨h₀.symm.trans g₀, h₁.symm.trans g₁⟩
  · intro hmirror
    rw [← UInt32.toNat_inj, hswap, hv, hmirror.1, hmirror.2]

theorem toInt32_eq_iff (v : UInt32) (r : Int32) : v.toInt32 = r ↔ v = r.toUInt32 := by
  constructor
  · intro h
    rw [← h, UInt32.toUInt32_toInt32]
  · intro h
    rw [h, Int32.toInt32_toUInt32]

end Swap

section Exchange

variable (h : Header) (size size' fd : UInt32)

/-- The fields that both sides use are the same. -/
structure Same (sent received : Header) : Prop where
  ttl : received.ttl = sent.ttl
  cmd : received.cmd = sent.cmd
  ret : received.ret = sent.ret
  bodyLen : received.bodyLen = sent.bodyLen

theorem Same.clientFd {sent received : Header} (hsame : Same sent received) :
    Same sent { received with clientFd := fd } :=
  ⟨hsame.ttl, hsame.cmd, hsame.ret, hsame.bodyLen⟩

theorem unpack_mk (ttl : UInt16) (cmd clientFd : UInt32) (ret : Int32) (bodyLen : UInt32) :
    unpack ⟨ttl, cmd, clientFd, ret, bodyLen⟩ =
      ⟨ntohs ttl, ntohl cmd, clientFd, ret, ntohl bodyLen⟩ := rfl

theorem pack_mk (ttl : UInt16) (cmd clientFd : UInt32) (ret : Int32) (bodyLen : UInt32) :
    pack ⟨ttl, cmd, clientFd, ret, bodyLen⟩ =
      ⟨ttl, htonl cmd, clientFd, (htonl ret.toUInt32).toInt32, htonl bodyLen⟩ := rfl

/-- `unpack` undoes `pack` but for the `ttl`, which only `unpack` turns round, and `ret`, which
only `pack` does. -/
theorem unpack_pack : unpack (pack h) =
    { h with ttl := ntohs h.ttl, ret := (htonl h.ret.toUInt32).toInt32 } := by
  cases h with
  | mk ttl cmd clientFd ret bodyLen =>
      rw [pack_mk, unpack_mk, ntohl_htonl, ntohl_htonl]

theorem same_unpack_pack_iff :
    Same h (unpack (pack h)) ↔ Mirrored16 h.ttl ∧ Mirrored32 h.ret.toUInt32 := by
  rw [unpack_pack, ← ntohs_eq_iff, ← htonl_eq_iff, ← toInt32_eq_iff]
  generalize htonl h.ret.toUInt32 = ret
  constructor
  · intro hsame
    exact ⟨hsame.ttl, hsame.ret⟩
  · intro heq
    exact ⟨heq.1, rfl, heq.2, rfl⟩

/-- What holds of a head in a request and a response, each with its size, and of the `ttl` in
the response to a request whose head the server sends back. -/
structure Exchanged : Prop where
  request : Same { h with bodyLen := size } (dispatch (sendMsg h size) fd)
  response : Same { h with bodyLen := size } (printRSP (sendToClinet h size))
  echo : (printRSP (sendToClinet (dispatch (sendMsg h size) fd) size')).ttl = h.ttl

theorem unpack_pack_ttl : (unpack (pack h)).ttl = ntohs h.ttl := by
  rw [unpack_pack]

/-- A head that comes back is unpacked twice. -/
theorem echo_ttl :
    (printRSP (sendToClinet (dispatch (sendMsg h size) fd) size')).ttl = h.ttl := by
  have hthere : (dispatch (sendMsg h size) fd).ttl = ntohs h.ttl :=
    unpack_pack_ttl { h with bodyLen := size }
  have hback : (printRSP (sendToClinet (dispatch (sendMsg h size) fd) size')).ttl =
      ntohs (dispatch (sendMsg h size) fd).ttl :=
    unpack_pack_ttl { dispatch (sendMsg h size) fd with bodyLen := size' }
  rw [hback, hthere, ntohs_ntohs]

theorem exchanged_iff :
    Exchanged h size size' fd ↔ Mirrored16 h.ttl ∧ Mirrored32 h.ret.toUInt32 := by
  have hsame := same_unpack_pack_iff { h with bodyLen := size }
  constructor
  · intro hex
    exact hsame.mp hex.response
  · intro hmirror
    have hresponse := hsame.mpr hmirror
    exact ⟨hresponse.clientFd fd, hresponse, echo_ttl h size size' fd⟩

theorem not_exchanged_one : ¬ Exchanged ⟨1, 0x20001, 5, 0, 0⟩ 7 7 5 ∧
    ¬ Exchanged ⟨0, 0x20001, 5, 1, 0⟩ 7 7 5 := by
  constructor
  · intro hex
    have httl := hex.request.ttl
    revert httl
    decide
  · intro hex
    have hret := hex.response.ret
    revert hret
    decide

end Exchange

end Header

end Jump.Zone
