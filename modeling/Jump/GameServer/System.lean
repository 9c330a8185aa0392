import Jump.GameServer.Transaction
import Mathlib.Algebra.Ring.Nat

/-! # Transactions, Redis and the replies in between

A step is a piece of one transaction: the issuing thread enters or leaves `Enter`,
Redis executes the command that the transaction waits for, the reply turns into an
error, or the callback gets the reply. Any transaction may take the next step.
-/

namespace Jump.GameServer

/-! ## The steps -/

section Steps

/-- The game server and its Redis; `ι` names the transactions. `log` is the history of what
Redis executed, the last command first. -/
structure System (ι V : Type) where
  redis : Redis V
  pool : Pool
  txn : ι → Option (Txn V)
  log : List (ι × Command V × Reply V)

inductive Event (ι : Type) where
  | enter (i : ι) (ret : Int) (req : Req)
  | leave (i : ι)
  | exec (i : ι)
  | fail (i : ι)
  | deliver (i : ι) (now : Int)

variable {ι V : Type} [DecidableEq ι] (cdc : Codec V)

def System.put (s : System ι V) (i : ι) (t : Txn V) : System ι V :=
  { s with txn := Function.update s.txn i (some t) }

/-- `Game::cmdDispatch` up to the last line of `Enter`. -/
def cmdDispatch (pool : Pool) (ret : Int) (req : Req) : Txn V :=
  match req with
  | .reg body => Register.enter cdc (Txn.new ret req) body
  | .login body => Login.enter cdc (Txn.new ret req) pool body

/-- The reply is given to its callback. -/
def callback (cb : Callback) (reply : Reply V) (now : Int) (t : Txn V) (pool : Pool) :
    Option (Txn V × Pool) :=
  match cb, t.req with
  | .gotName, _ => some (Register.gotNameReply cdc t reply, pool)
  | .gotUid, .reg (some req) => Register.gotUidReply cdc req now t pool reply
  | .gotProfile, _ => Register.gotProfileReply cdc t pool reply
  | .gotLogin, .login (some req) => Login.gotReply cdc req t pool reply
  | _, _ => none

/-- One step; `none` where the event cannot happen, or ends the process. -/
def step (s : System ι V) : Event ι → Option (System ι V)
  | .enter i ret req =>
    match s.txn i with
    | some _ => none
    | none => some (s.put i (cmdDispatch cdc s.pool ret req))
  | .leave i =>
    match s.txn i with
    | none => none
    | some t =>
      if t.inEnter then some (s.put i { t.touch with inEnter := false }) else none
  | .exec i =>
    match s.txn i with
    | none => none
    | some t =>
      match t.wait with
      | .sent cb c =>
        let r := s.redis.exec c
        some ({ s with redis := r.2, log := (i, c, r.1) :: s.log }.put i
          { t with wait := .back cb r.1 })
      | _ => none
  | .fail i =>
    match s.txn i with
    | none => none
    | some t =>
      match t.wait with
      | .nothing => none
      | .sent cb _ => some (s.put i { t with wait := .back cb .failed })
      | .back cb _ => some (s.put i { t with wait := .back cb .failed })
  | .deliver i now =>
    match s.txn i with
    | none => none
    | some t =>
      match t.wait with
      | .back cb reply =>
        (callback cdc cb reply now { t with wait := .nothing } s.pool).map fun r =>
          { s with pool := r.2 }.put i r.1
      | _ => none

/-- A state before the first transaction: the profiles in Redis belong to uids that were
given out. -/
structure Start (s : System ι V) : Prop where
  txn : ∀ i, s.txn i = none
  pool : ∀ id, s.pool.profile id = none
  log : s.log = []
  profiles : ∀ uid zoneId, uid < 2 ^ 32 → s.redis.store (getProfileKey uid zoneId) ≠ none →
    uid ≤ UIDBASE.toNat + s.redis.counter UIDKEY

/-- The states that are reached from `s₀` when every step satisfies `P`. -/
inductive Run (P : System ι V → Event ι → Prop) (s₀ : System ι V) : System ι V → Prop
  | start : Run P s₀ s₀
  | step {s s' : System ι V} {e : Event ι} (hrun : Run P s₀ s) (hP : P s e)
      (hs : step cdc s e = some s') : Run P s₀ s'

/-- The state after the events, if all of them can happen and satisfy `p`. -/
def runEvents (p : System ι V → Event ι → Bool) (s : System ι V) :
    List (Event ι) → Option (System ι V)
  | [] => some s
  | e :: es =>
    if p s e then (step cdc s e).bind fun s' => runEvents p s' es else none

theorem Run.of_events {p : System ι V → Event ι → Bool} {s₀ s s' : System ι V}
    (hrun : Run cdc (fun s e => p s e = true) s₀ s) (es : List (Event ι))
    (h : runEvents cdc p s es = some s') : Run cdc (fun s e => p s e = true) s₀ s' := by
  induction es generalizing s with
  | nil =>
      cases h
      exact hrun
  | cons e es ih =>
      unfold runEvents at h
      split at h
      · rename_i hp
        rw [Option.bind_eq_some_iff] at h
        obtain ⟨s₁, hs, h⟩ := h
        exact ih (hrun.step hp hs) h
      · cases h

/-- A plain way to store what the server writes. -/
inductive Plain where
  | one
  | reginfo (r : PReginfo)
  | profile (p : PProfile)
deriving DecidableEq

def plainCodec : Codec Plain where
  one := .one
  reginfo := .reginfo
  profile := .profile
  parseProfile
    | .profile p => some p
    | _ => none
  byteSize
    | none => 0
    | some _ => 64

/-- No key in Redis, and room for four profiles. -/
def emptySystem : System Nat Plain where
  redis := ⟨fun _ => none, fun _ => 0⟩
  pool := ⟨4, 0, fun _ => none⟩
  txn := fun _ => none
  log := []

theorem emptySystem_start : Start emptySystem :=
  ⟨fun _ => rfl, fun _ => rfl, rfl, fun _ _ _ hne => absurd rfl hne⟩

/-- A registration whose commands all succeed, one step after the other. -/
def registration (i : Nat) (req : RegReq) : List (Event Nat) :=
  [.enter i RET_OK (.reg (some req)), .leave i, .exec i, .deliver i 7, .exec i, .deliver i 7,
    .exec i, .deliver i 7]

end Steps

/-! ## What a transaction has reached -/

section Reached

open Jump.Core

variable {ι V : Type} (cdc : Codec V)

/-- The `GETSET` of `i` found no value under the nickname. -/
def Created (s : System ι V) (i : ι) (name : String) : Prop :=
  ∃ v, (i, .getset (nickKey name) v, .nil) ∈ s.log

/-- The `INCR` of `i` gave `n`. -/
def Numbered (s : System ι V) (i : ι) (n : Nat) : Prop :=
  (i, .incr UIDKEY, .integer n) ∈ s.log

/-- A uid from before the first transaction, or of a transaction past `InitProfile`. -/
def Used (c₀ : Nat) (s : System ι V) (uid : Nat) : Prop :=
  uid ≤ UIDBASE.toNat + c₀ ∨
  ∃ i n t, Numbered s i n ∧ uid = UIDBASE.toNat + n ∧ s.txn i = some t ∧ t.player ≠ none

/-- The node of the transaction holds its player. -/
structure Profiled (s : System ι V) (i : ι) (t : Txn V) (n : Nat) (p : PProfile) : Prop where
  numbered : Numbered s i n
  uid : p.playerId.uid = UIDBASE.toNat + n
  player : t.player = some p.playerId
  stored : s.pool.profile p.playerId = some p

/-- What the command or reply says that a registration waits for. -/
def RegWait (s : System ι V) (i : ι) (t : Txn V) (req : RegReq) : Wait V → Prop
  | .nothing => True
  | .sent .gotName c => t.player = none ∧ c = .getset (nickKey req.name) cdc.one
  | .back .gotName r => t.player = none ∧ (r = .nil → Created s i req.name)
  | .sent .gotUid c => t.player = none ∧ Created s i req.name ∧ c = .incr UIDKEY
  | .back .gotUid r =>
    t.player = none ∧ Created s i req.name ∧ ∀ n, r = .integer n → Numbered s i n
  | .sent .gotProfile c => Created s i req.name ∧ ∃ n p v w zoneId, Profiled s i t n p ∧
      c = .mset [(reginfoKey req.account, v), (getProfileKey p.playerId.uid zoneId, w)]
  | .back .gotProfile _ => Created s i req.name ∧ ∃ n p, Profiled s i t n p
  | .sent .gotLogin _ => False
  | .back .gotLogin _ => False

/-- What the command or reply says that a login waits for. -/
def LoginWait (s : System ι V) (req : LoginReq) : Wait V → Prop
  | .nothing => True
  | .sent .gotLogin c => c = .get (getProfileKey req.playerID.uid req.playerID.zoneId)
  | .back .gotLogin r => (∃ v, r = .value v) →
      s.redis.store (getProfileKey req.playerID.uid req.playerID.zoneId) ≠ none
  | _ => False

structure RegInv (s : System ι V) (i : ι) (t : Txn V) (req : RegReq) : Prop where
  wait : RegWait cdc s i t req t.wait
  answered : t.answers ≠ [] → t.wait = .nothing
  ok : ∀ a ∈ t.answers, a.ret = RET_OK → Created s i req.name ∧
    ∃ n p, Numbered s i n ∧ a.profile = some p ∧ p.playerId.uid = UIDBASE.toNat + n
  player : t.player ≠ none → Created s i req.name
  mset : ∀ pairs r, (i, .mset pairs, r) ∈ s.log → Created s i req.name

def TxnInv (s : System ι V) (i : ι) (t : Txn V) : Prop :=
  match t.req with
  | .reg (some req) => RegInv cdc s i t req
  | .reg none => t.wait = .nothing
  | .login (some req) => LoginWait s req t.wait
  | .login none => t.wait = .nothing

theorem txnInv_reg {s : System ι V} {i : ι} {t : Txn V} {req : RegReq}
    (h : t.req = .reg (some req)) : TxnInv cdc s i t ↔ RegInv cdc s i t req := by
  unfold TxnInv
  rw [h]

theorem txnInv_login {s : System ι V} {i : ι} {t : Txn V} {req : LoginReq}
    (h : t.req = .login (some req)) : TxnInv cdc s i t ↔ LoginWait s req t.wait := by
  unfold TxnInv
  rw [h]

theorem txnInv_unparsed {s : System ι V} {i : ι} {t : Txn V}
    (h : t.req = .reg none ∨ t.req = .login none) : TxnInv cdc s i t ↔ t.wait = .nothing := by
  unfold TxnInv
  rcases h with h | h <;> rw [h]

structure Inv (c₀ : Nat) (s : System ι V) : Prop where
  named : ∀ i k v r, (i, .getset k v, r) ∈ s.log → s.redis.store k ≠ none
  named_once : ∀ i j k v w, (i, .getset k v, .nil) ∈ s.log → (j, .getset k w, .nil) ∈ s.log →
    i = j
  counted : c₀ ≤ s.redis.counter UIDKEY
  number_range : ∀ i n, Numbered s i n → c₀ < n ∧ n ≤ s.redis.counter UIDKEY
  number_once : ∀ i j n, Numbered s i n → Numbered s j n → i = j
  pool_used : ∀ id, s.pool.profile id ≠ none → Used c₀ s id.uid
  store_used : ∀ uid zoneId, uid < 2 ^ 32 →
    s.redis.store (getProfileKey uid zoneId) ≠ none → Used c₀ s uid
  logged : ∀ i c r, (i, c, r) ∈ s.log → s.txn i ≠ none
  txn : ∀ i t, s.txn i = some t → TxnInv cdc s i t

/-- Nothing that was reached is lost. -/
structure Grows (s s' : System ι V) : Prop where
  log : ∀ e ∈ s.log, e ∈ s'.log
  store : ∀ k, s.redis.store k ≠ none → s'.redis.store k ≠ none
  counter : s.redis.counter UIDKEY ≤ s'.redis.counter UIDKEY
  txn : ∀ i t, s.txn i = some t → ∃ t', s'.txn i = some t' ∧ t'.req = t.req ∧
    (t.player ≠ none → t'.player ≠ none)

namespace Grows

variable {s s' : System ι V} {i : ι}

theorem created (hg : Grows s s') {name : String} (h : Created s i name) :
    Created s' i name := by
  obtain ⟨v, hv⟩ := h
  exact ⟨v, hg.log _ hv⟩

theorem numbered (hg : Grows s s') {n : Nat} (h : Numbered s i n) : Numbered s' i n :=
  hg.log _ h

theorem used (hg : Grows s s') {c₀ uid : Nat} (h : Used c₀ s uid) : Used c₀ s' uid := by
  rcases h with h | ⟨i, n, t, hn, huid, ht, hplayer⟩
  · exact Or.inl h
  · obtain ⟨t', ht', -, hplayer'⟩ := hg.txn i t ht
    exact Or.inr ⟨i, n, t', hg.numbered hn, huid, ht', hplayer' hplayer⟩

theorem profiled (hg : Grows s s') {t : Txn V} {n : Nat} {p : PProfile}
    (h : Profiled s i t n p)
    (hpool : s'.pool.profile p.playerId = s.pool.profile p.playerId) :
    Profiled s' i t n p where
  numbered := hg.numbered h.numbered
  uid := h.uid
  player := h.player
  stored := hpool.trans h.stored

/-- A transaction that another one leaves alone keeps what it has reached. -/
theorem txnInv (hg : Grows s s') {t : Txn V} (h : TxnInv cdc s i t)
    (hpool : ∀ n p, Profiled s i t n p →
      s'.pool.profile p.playerId = s.pool.profile p.playerId)
    (hmset : ∀ pairs r, (i, .mset pairs, r) ∈ s'.log → (i, .mset pairs, r) ∈ s.log) :
    TxnInv cdc s' i t := by
  unfold TxnInv at h ⊢
  split at h
  · rename_i req hreq
    refine ⟨?_, h.answered, ?_, fun hp => hg.created (h.player hp),
      fun pairs r hmem => hg.created (h.mset pairs r (hmset pairs r hmem))⟩
    · have hwait := h.wait
      cases hw : t.wait with
      | nothing => trivial
      | sent cb c =>
          rw [hw] at hwait
          cases cb with
          | gotName => exact hwait
          | gotUid => exact ⟨hwait.1, hg.created hwait.2.1, hwait.2.2⟩
          | gotProfile =>
              obtain ⟨hc, n, p, v, w, z, hp, heq⟩ := hwait
              exact ⟨hg.created hc, n, p, v, w, z, hg.profiled hp (hpool n p hp), heq⟩
          | gotLogin => exact hwait
      | back cb r =>
          rw [hw] at hwait
          cases cb with
          | gotName => exact ⟨hwait.1, fun hr => hg.created (hwait.2 hr)⟩
          | gotUid =>
              exact ⟨hwait.1, hg.created hwait.2.1, fun n hr => hg.numbered (hwait.2.2 n hr)⟩
          | gotProfile =>
              obtain ⟨hc, n, p, hp⟩ := hwait
              exact ⟨hg.created hc, n, p, hg.profiled hp (hpool n p hp)⟩
          | gotLogin => exact hwait
    · intro a ha hret
      obtain ⟨hc, n, p, hn, hp, huid⟩ := h.ok a ha hret
      exact ⟨hg.created hc, n, p, hg.numbered hn, hp, huid⟩
  · exact h
  · rename_i req hreq
    cases hw : t.wait with
    | nothing => trivial
    | sent cb c =>
        rw [hw] at h
        cases cb <;> exact h
    | back cb r =>
        rw [hw] at h
        cases cb with
        | gotLogin => exact fun hv => hg.store _ (h hv)
        | _ => exact h
  · exact h

end Grows

theorem uid_eq {n : Nat} (hn : n < 2 ^ 31 - UIDBASE.toNat) :
    uint32OfInt (UIDBASE + toInt n) = UIDBASE.toNat + n := by
  have hbase : UIDBASE.toNat = 1000000 := rfl
  rw [hbase] at hn ⊢
  rw [toInt_of_lt (by omega)]
  unfold uint32OfInt UIDBASE
  omega

theorem Start.inv {s : System ι V} (h : Start s) :
    Inv cdc (s.redis.counter UIDKEY) s where
  named := by simp [h.log]
  named_once := by simp [h.log]
  counted := Nat.le_refl _
  number_range := by simp [Numbered, h.log]
  number_once := by simp [Numbered, h.log]
  pool_used := by simp [h.pool]
  store_used := fun uid zoneId hlt hne => Or.inl (h.profiles uid zoneId hlt hne)
  logged := by simp [h.log]
  txn := by simp [h.txn]

end Reached

end Jump.GameServer
