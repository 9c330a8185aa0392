import Jump.Core.Word
import Mathlib.Logic.Function.Basic
import Std.Data.String.ToInt

/-! # The transactions `Register` and `Login`

A transaction is an object that its issuing thread and the callbacks of its Redis
commands work on. Redis executes one command after the other; the keys of the server
are built from prefixes.
-/

namespace Jump.GameServer

open Jump.Core

/-! ## The commands that the game server sends to Redis -/

inductive Command (V : Type) where
  | getset (key : String) (value : V)
  | incr (key : String)
  | mset (pairs : List (String × V))
  | get (key : String)
deriving DecidableEq

/-- What a callback can learn from its `Command`: `ok()` with the reply, the nil reply, or
one of the other statuses. -/
inductive Reply (V : Type) where
  | value (v : V)
  | integer (n : Nat)
  | done
  | nil
  | failed
deriving DecidableEq

/-- The values of the string keys and of the counters. -/
structure Redis (V : Type) where
  store : String → Option V
  counter : String → Nat

namespace Redis

variable {V : Type}

def set (r : Redis V) (key : String) (value : V) : Redis V :=
  { r with store := Function.update r.store key (some value) }

def find (r : Redis V) (key : String) : Reply V :=
  match r.store key with
  | some v => .value v
  | none => .nil

def exec (r : Redis V) : Command V → Reply V × Redis V
  | .getset key value => (r.find key, r.set key value)
  | .incr key =>
    (.integer (r.counter key + 1),
      { r with counter := Function.update r.counter key (r.counter key + 1) })
  | .mset pairs => (.done, pairs.foldl (fun r p => r.set p.1 p.2) r)
  | .get key => (r.find key, r)

end Redis

def REGINFOPREFIX : String := "reg_"

def NICKPREFIX : String := "nick_"

def UIDKEY : String := "sole_uid_in_one_redis"

def PROFILEPREFIX : String := "user_"

def UIDBASE : Int := 1000000

def nickKey (name : String) : String := NICKPREFIX ++ name

def reginfoKey (account : String) : String := REGINFOPREFIX ++ account

/-- `CommFunc::getProfileKey`; `I2S` prints its argument as an `int`. -/
def getProfileKey (uid zoneId : Nat) : String :=
  PROFILEPREFIX ++ (toInt uid).repr ++ "_" ++ (toInt zoneId).repr

section Keys

theorem reginfoKey_inj {a b : String} : reginfoKey a = reginfoKey b ↔ a = b := by
  simp [reginfoKey]

theorem ne_of_head {p q a b : String} (h : p.toList.head? ≠ q.toList.head?)
    (hp : p ≠ "") (hq : q ≠ "") : p ++ a ≠ q ++ b := by
  intro heq
  apply h
  have hlist := congrArg String.toList heq
  rw [String.toList_append, String.toList_append] at hlist
  have hhead := congrArg List.head? hlist
  have hpl : p.toList ≠ [] := by simpa using hp
  have hql : q.toList ≠ [] := by simpa using hq
  rwa [List.head?_append, List.head?_append, List.head?_eq_some_head hpl,
    List.head?_eq_some_head hql, Option.some_or, Option.some_or,
    ← List.head?_eq_some_head hpl, ← List.head?_eq_some_head hql] at hhead

theorem nickKey_ne_reginfoKey (a b : String) : nickKey a ≠ reginfoKey b :=
  ne_of_head (by decide) (by decide) (by decide)

theorem nickKey_ne_profileKey (a : String) (uid zoneId : Nat) :
    nickKey a ≠ getProfileKey uid zoneId := by
  unfold nickKey getProfileKey
  rw [String.append_assoc, String.append_assoc]
  exact ne_of_head (by decide) (by decide) (by decide)

theorem reginfoKey_ne_profileKey (a : String) (uid zoneId : Nat) :
    reginfoKey a ≠ getProfileKey uid zoneId := by
  unfold reginfoKey getProfileKey
  rw [String.append_assoc, String.append_assoc]
  exact ne_of_head (by decide) (by decide) (by decide)

theorem underscore_notMem_repr (z : Int) : '_' ∉ z.repr.toList := by
  have hnat : ∀ n : Nat, '_' ∉ n.repr.toList := by
    intro n hmem
    rw [Nat.repr, String.toList_ofList] at hmem
    have hdigit := Nat.isDigit_of_mem_toDigits (by decide) (by decide) hmem
    revert hdigit
    decide
  cases z with
  | ofNat n => exact hnat n
  | negSucc n =>
      intro hmem
      rw [Int.repr, String.toList_append] at hmem
      rcases List.mem_append.mp hmem with hmem | hmem
      · revert hmem
        decide
      · exact hnat _ hmem

theorem append_inj_of_notMem {α : Type} {c : α} {l l' r r' : List α} (hl : c ∉ l)
    (hl' : c ∉ l') (heq : l ++ c :: r = l' ++ c :: r') : l = l' := by
  induction l generalizing l' with
  | nil =>
      cases l' with
      | nil => rfl
      | cons a l' =>
          have hc : c = a := List.head_eq_of_cons_eq heq
          exact absurd (hc ▸ List.mem_cons_self) hl'
  | cons a l ih =>
      cases l' with
      | nil =>
          have hc : a = c := List.head_eq_of_cons_eq heq
          exact absurd (hc ▸ List.mem_cons_self) hl
      | cons a' l' =>
          rw [List.cons_append, List.cons_append, List.cons.injEq] at heq
          rw [heq.1, ih (fun h => hl (List.mem_cons_of_mem a h))
            (fun h => hl' (List.mem_cons_of_mem a' h)) heq.2]

/-- The key of a profile gives the uid away. -/
theorem uid_of_profileKey {uid zoneId uid' zoneId' : Nat} (hu : uid < 2 ^ 32)
    (hu' : uid' < 2 ^ 32) (heq : getProfileKey uid zoneId = getProfileKey uid' zoneId') :
    uid = uid' := by
  unfold getProfileKey at heq
  rw [String.append_assoc, String.append_assoc, String.append_assoc, String.append_assoc] at heq
  have hlist := congrArg String.toList (String.append_right_inj _ |>.mp heq)
  have hsep : "_".toList = ['_'] := by decide
  simp only [String.toList_append, hsep, List.singleton_append] at hlist
  have hrepr := append_inj_of_notMem (underscore_notMem_repr _) (underscore_notMem_repr _)
    hlist
  have hint := congrArg uint32OfInt (Int.repr_inj.mp (String.toList_inj.mp hrepr))
  rwa [uint32OfInt_toInt, uint32OfInt_toInt, u32_of_lt hu, u32_of_lt hu'] at hint

end Keys

/-! ## A transaction with what happened to it -/

def RET_OK : Int := 0
def RET_REDIS_ERR_GET : Int := 2
def RET_REDIS_ERR_SET : Int := 3
def RET_REDIS_ERR_INCR : Int := 4
def RET_REG_ERR_DUPLICATE_NAME : Int := 101

/-- The size of the buffer of `sendToClinet`. -/
def MAX_BUFF : Nat := 102400

/-- `sizeof(PkgHead)` -/
def SIZEOF_PKG_HEAD : Nat := 20

/-- `PlayerID` and `PPlayerId` -/
structure PlayerID where
  uid : Nat
  zoneId : Nat
deriving DecidableEq

structure PAccount where
  historyTotal : Int
  balance : Int
  lastRechargeTime : Int
  lastConsumeTime : Int
deriving DecidableEq

structure PTokenMoney where
  gold : Int
deriving DecidableEq

structure PBaseInfo where
  name : String
  registerTime : Int
  loginTime : Int
  gender : Int
deriving DecidableEq

structure PProfile where
  playerId : PlayerID
  account : PAccount
  tokenMoney : PTokenMoney
  baseInfo : PBaseInfo
deriving DecidableEq

structure PReginfo where
  account : String
  passwd : String
  uid : Int
  zoneId : Int
  name : String
deriving DecidableEq

structure RegReq where
  account : String
  passwd : String
  zoneId : Int
  name : String
deriving DecidableEq

structure LoginReq where
  uid : Int
  zoneId : Int
deriving DecidableEq

/-- What `cmdDispatch` makes a transaction of: the command, and what `ParseFromArray` makes
of the body. -/
inductive Req where
  | reg (body : Option RegReq)
  | login (body : Option LoginReq)
deriving DecidableEq

/-- The byte strings stored in Redis, as protobuf writes and reads them, and the size of a
response with or without a profile. -/
structure Codec (V : Type) where
  one : V
  reginfo : PReginfo → V
  profile : PProfile → V
  parseProfile : V → Option PProfile
  byteSize : Option PProfile → Nat

/-- Whether a response fits into the buffer of `sendToClinet`, behind its length and the
header. -/
def Codec.fits {V : Type} (cdc : Codec V) (rsp : Option PProfile) : Bool :=
  4 + (SIZEOF_PKG_HEAD + cdc.byteSize rsp) ≤ MAX_BUFF

/-- The profiles in memory; at most `maxNode` of them. -/
structure Pool where
  maxNode : Nat
  used : Nat
  profile : PlayerID → Option PProfile

namespace Pool

/-- `PlayerDataMgr::Add` for a player that is not in the pool, and the assignment to the new
node. Without a free node the constructor runs on `NULL` and the process ends. -/
def add (pool : Pool) (id : PlayerID) (p : PProfile) : Option Pool :=
  if pool.used < pool.maxNode then
    some { pool with
      used := pool.used + 1
      profile := Function.update pool.profile id (some p) }
  else none

/-- `PlayerDataMgr::Del`; the destructor is called on `NULL` if the player is not there. -/
def del (pool : Pool) (id : PlayerID) : Option Pool :=
  match pool.profile id with
  | none => none
  | some _ => some { pool with
      used := pool.used - 1
      profile := Function.update pool.profile id none }

end Pool

/-- The function that the reply of a command is given to. -/
inductive Callback where
  | gotName
  | gotUid
  | gotProfile
  | gotLogin
deriving DecidableEq

/-- The command of a transaction on its way to Redis, or its reply on the way back. -/
inductive Wait (V : Type) where
  | nothing
  | sent (callback : Callback) (command : Command V)
  | back (callback : Callback) (reply : Reply V)
deriving DecidableEq

/-- A call of `sendToClinet`, and whether the response went to the socket. -/
structure Answer where
  ret : Int
  profile : Option PProfile
  sent : Bool
deriving DecidableEq

structure Txn (V : Type) where
  req : Req
  ret : Int
  rsp : Option PProfile
  player : Option PlayerID
  wait : Wait V
  inEnter : Bool
  answers : List Answer
  destroyed : Nat
  lateTouches : Nat

namespace Txn

variable {V : Type}

/-- The transaction as `cmdDispatch` creates it. -/
def new (ret : Int) (req : Req) : Txn V where
  req := req
  ret := ret
  rsp := none
  player := none
  wait := .nothing
  inEnter := true
  answers := []
  destroyed := 0
  lateTouches := 0

/-- Members are read or written. -/
def touch (t : Txn V) : Txn V :=
  if t.destroyed = 0 then t else { t with lateTouches := t.lateTouches + 1 }

/-- `Base::Exit` -/
def exit (t : Txn V) : Txn V :=
  { t.touch with destroyed := t.destroyed + 1 }

def sendToClinet (cdc : Codec V) (t : Txn V) : Txn V :=
  { t with answers := t.answers ++ [⟨t.ret, t.rsp, cdc.fits t.rsp⟩] }

/-- `Base::Send2Client` -/
def send2Client (cdc : Codec V) (t : Txn V) : Txn V :=
  (t.touch.sendToClinet cdc).exit

def command (t : Txn V) (callback : Callback) (c : Command V) : Txn V :=
  { t with wait := .sent callback c }

section Fields

variable (cdc : Codec V) (t : Txn V) (cb : Callback) (c : Command V)

@[simp] theorem touch_req : t.touch.req = t.req := by unfold touch; split <;> rfl
@[simp] theorem touch_ret : t.touch.ret = t.ret := by unfold touch; split <;> rfl
@[simp] theorem touch_rsp : t.touch.rsp = t.rsp := by unfold touch; split <;> rfl
@[simp] theorem touch_player : t.touch.player = t.player := by unfold touch; split <;> rfl
@[simp] theorem touch_wait : t.touch.wait = t.wait := by unfold touch; split <;> rfl
@[simp] theorem touch_inEnter : t.touch.inEnter = t.inEnter := by unfold touch; split <;> rfl
@[simp] theorem touch_answers : t.touch.answers = t.answers := by unfold touch; split <;> rfl
@[simp] theorem touch_destroyed : t.touch.destroyed = t.destroyed := by
  unfold touch; split <;> rfl

@[simp] theorem command_req : (t.command cb c).req = t.req := rfl
@[simp] theorem command_player : (t.command cb c).player = t.player := rfl
@[simp] theorem command_wait : (t.command cb c).wait = .sent cb c := rfl
@[simp] theorem command_answers : (t.command cb c).answers = t.answers := rfl

@[simp] theorem send2Client_req : (t.send2Client cdc).req = t.req := by
  simp [send2Client, exit, sendToClinet]
@[simp] theorem send2Client_player : (t.send2Client cdc).player = t.player := by
  simp [send2Client, exit, sendToClinet]
@[simp] theorem send2Client_wait : (t.send2Client cdc).wait = t.wait := by
  simp [send2Client, exit, sendToClinet]
@[simp] theorem send2Client_inEnter : (t.send2Client cdc).inEnter = t.inEnter := by
  simp [send2Client, exit, sendToClinet]
@[simp] theorem send2Client_answers : (t.send2Client cdc).answers =
    t.answers ++ [⟨t.ret, t.rsp, cdc.fits t.rsp⟩] := by
  simp [send2Client, exit, sendToClinet]

end Fields

end Txn

section Register

variable {V : Type} (cdc : Codec V)

/-- `Register::Enter` up to its last line. -/
def Register.enter (t : Txn V) : Option RegReq → Txn V
  | none => t.touch
  | some req => t.touch.command .gotName (.getset (nickKey req.name) cdc.one)

def Register.getUid (t : Txn V) : Txn V :=
  t.touch.command .gotUid (.incr UIDKEY)

def Register.gotNameReply (t : Txn V) : Reply V → Txn V
  | .nil => Register.getUid t
  | .failed => { t.touch with ret := RET_REDIS_ERR_GET }.send2Client cdc
  | _ => { t.touch with ret := RET_REG_ERR_DUPLICATE_NAME }.send2Client cdc

def Register.initReginfo (req : RegReq) (uid : Int) : PReginfo where
  account := req.account
  passwd := req.passwd
  uid := uid
  zoneId := req.zoneId
  name := req.name

/-- The profile that `InitProfile` writes. -/
def Register.newProfile (req : RegReq) (id : PlayerID) (now : Int) : PProfile where
  playerId := id
  account := ⟨0, 0, 0, 0⟩
  tokenMoney := ⟨0⟩
  baseInfo := ⟨req.name, now, now, 0⟩

/-- `Register::InitProfile`: the player whose node `_p_profile` points to. A profile that is
in the pool already is left as it is. -/
def Register.initProfile (req : RegReq) (uid now : Int) (pool : Pool) :
    Option (PlayerID × Pool) :=
  let id : PlayerID := ⟨uint32OfInt uid, uint32OfInt req.zoneId⟩
  match pool.profile id with
  | some _ => some (id, pool)
  | none => (pool.add id (Register.newProfile req id now)).map fun pool' => (id, pool')

/-- `Register::SetProfile` -/
def Register.setProfile (req : RegReq) (uid now : Int) (t : Txn V) (pool : Pool) :
    Option (Txn V × Pool) :=
  match Register.initProfile req uid now pool with
  | none => none
  | some (id, pool') =>
    match pool'.profile id with
    | none => none
    | some p =>
      let pairs :=
        [(reginfoKey req.account, cdc.reginfo (Register.initReginfo req uid)),
          (getProfileKey p.playerId.uid p.playerId.zoneId, cdc.profile p)]
      some ({ t.touch with player := some id }.command .gotProfile (.mset pairs), pool')

/-- The callback of `GetUid`. -/
def Register.gotUidReply (req : RegReq) (now : Int) (t : Txn V) (pool : Pool) :
    Reply V → Option (Txn V × Pool)
  | .integer n => Register.setProfile cdc req (UIDBASE + toInt n) now t pool
  | _ => some ({ t.touch with ret := RET_REDIS_ERR_INCR }.send2Client cdc, pool)

/-- The callback of `SetProfile`. -/
def Register.gotProfileReply (t : Txn V) (pool : Pool) (reply : Reply V) :
    Option (Txn V × Pool) :=
  match t.player with
  | none => none
  | some player =>
    match pool.profile player, reply with
    | none, _ => none
    | some p, .done => some ({ t.touch with ret := RET_OK, rsp := some p }.send2Client cdc, pool)
    | some p, _ =>
      (pool.del p.playerId).map fun pool' =>
        ({ t.touch with ret := RET_REDIS_ERR_SET }.send2Client cdc, pool')

end Register

section Login

variable {V : Type} (cdc : Codec V)

def LoginReq.playerID (req : LoginReq) : PlayerID :=
  ⟨uint32OfInt req.uid, uint32OfInt req.zoneId⟩

/-- `Login::Enter` up to its last line. -/
def Login.enter (t : Txn V) (pool : Pool) : Option LoginReq → Txn V
  | none => t.touch
  | some req =>
    match pool.profile req.playerID with
    | some p => { t.touch with rsp := some p }.sendToClinet cdc
    | none =>
      t.touch.command .gotLogin (.get (getProfileKey req.playerID.uid req.playerID.zoneId))

/-- The callback of `Login::Enter`. -/
def Login.gotReply (req : LoginReq) (t : Txn V) (pool : Pool) :
    Reply V → Option (Txn V × Pool)
  | .value v =>
    match cdc.parseProfile v with
    | none => some (t.touch, pool)
    | some p =>
      match pool.profile req.playerID with
      | some _ => some (t.touch, pool)
      | none =>
        (pool.add req.playerID p).map fun pool' =>
          ({ t.touch with rsp := some p }.sendToClinet cdc, pool')
  | _ => some (t.touch, pool)

end Login

end Jump.GameServer
