import Jump.GameServer.Steps

/-! # The invariant along the callbacks -/

namespace Jump.GameServer

open Jump.Core

variable {ι V : Type} [DecidableEq ι] {cdc : Codec V} {c₀ : Nat} {s : System ι V} {i : ι}

/-- The state after a callback of `i`. -/
def called (s : System ι V) (i : ι) (t' : Txn V) (pool' : Pool) : System ι V :=
  { s with pool := pool' }.put i t'

/-- The transaction while its callback runs. -/
def running (t : Txn V) : Txn V := { t with wait := .nothing }

theorem callback_gotUid {t : Txn V} {req : RegReq} (h : t.req = .reg (some req))
    (r : Reply V) (now : Int) (pool : Pool) :
    callback cdc .gotUid r now t pool = Register.gotUidReply cdc req now t pool r := by
  simp only [callback, h]

theorem callback_gotLogin {t : Txn V} {req : LoginReq} (h : t.req = .login (some req))
    (r : Reply V) (now : Int) (pool : Pool) :
    callback cdc .gotLogin r now t pool = Login.gotReply cdc req t pool r := by
  simp only [callback, h]

section Register

variable {t t' : Txn V} {req : RegReq} {pool' : Pool}

omit [DecidableEq ι] in
theorem answers_nil (h : RegInv cdc s i t req) {cb : Callback} {r : Reply V}
    (hwait : t.wait = .back cb r) : t.answers = [] := by
  by_contra hne
  have hnothing := h.answered hne
  rw [hwait] at hnothing
  cases hnothing

/-- The last callback of a registration answers and leaves nothing to wait for. -/
theorem RegInv.close (h : RegInv cdc s i t req) {a : Answer} (hwait : t'.wait = .nothing)
    (hplayer : t'.player = t.player) (hanswers : t'.answers = [a])
    (hok : a.ret = RET_OK → Created s i req.name ∧
      ∃ n p, Numbered s i n ∧ a.profile = some p ∧ p.playerId.uid = UIDBASE.toNat + n) :
    RegInv cdc (called s i t' pool') i t' req := by
  refine ⟨by rw [hwait]; trivial, fun _ => hwait, ?_, ?_, h.mset⟩
  · intro b hb hret
    rw [hanswers, List.mem_singleton] at hb
    subst hb
    exact hok hret
  · intro hp
    rw [hplayer] at hp
    exact h.player hp

theorem Inv.deliver_name (hi : Inv cdc c₀ s) (ht : s.txn i = some t)
    (hreq : t.req = .reg (some req)) {r : Reply V} (hwait : t.wait = .back .gotName r) :
    Inv cdc c₀ (called s i (Register.gotNameReply cdc (running t) r) s.pool) := by
  have hreg := (txnInv_reg cdc hreq).mp (hi.txn i t ht)
  have hw := hreg.wait
  rw [hwait] at hw
  have hnil := answers_nil hreg hwait
  have hclose : ∀ ret, ret ≠ RET_OK →
      Inv cdc c₀ (called s i ({ (running t).touch with ret := ret }.send2Client cdc) s.pool) := by
    intro ret hret
    refine hi.quiet ?_ (PoolStep.of_eq rfl) ((txnInv_reg cdc ?_).mpr
      (hreg.close (a := ⟨ret, t.rsp, cdc.fits t.rsp⟩) ?_ ?_ ?_ fun hok => absurd hok hret))
    · intro t₀ ht₀
      rw [ht] at ht₀
      cases ht₀
      simp [running]
    · simpa [running] using hreq
    · simp [running]
    · simp [running]
    · simp [running, hnil]
  cases r with
  | nil =>
      have hreq' : (Register.gotNameReply cdc (running t) .nil).req = .reg (some req) := by
        simpa [Register.gotNameReply, Register.getUid, running] using hreq
      refine hi.quiet ?_ (PoolStep.of_eq rfl) ((txnInv_reg cdc hreq').mpr ?_)
      · intro t₀ ht₀
        rw [ht] at ht₀
        cases ht₀
        simp [Register.gotNameReply, Register.getUid, running]
      · refine ⟨?_, ?_, ?_, ?_, hreg.mset⟩
        · exact ⟨by simpa [Register.gotNameReply, Register.getUid, running] using hw.1,
            hw.2 rfl, rfl⟩
        · simp [Register.gotNameReply, Register.getUid, running, hnil]
        · simp [Register.gotNameReply, Register.getUid, running, hnil]
        · simp [Register.gotNameReply, Register.getUid, running, hw.1]
  | failed => exact hclose RET_REDIS_ERR_GET (by decide)
  | value v => exact hclose RET_REG_ERR_DUPLICATE_NAME (by decide)
  | integer n => exact hclose RET_REG_ERR_DUPLICATE_NAME (by decide)
  | done => exact hclose RET_REG_ERR_DUPLICATE_NAME (by decide)

omit [DecidableEq ι] in
/-- The player of a number just given out is not in the pool. -/
theorem Inv.player_new (hi : Inv cdc c₀ s) (ht : s.txn i = some t) (hplayer : t.player = none)
    {n : Nat} (hn : Numbered s i n) {id : PlayerID} (huid : id.uid = UIDBASE.toNat + n) :
    s.pool.profile id = none := by
  by_contra hne
  have hrange := hi.number_range i n hn
  rcases hi.pool_used id hne with hle | ⟨j, m, tj, hm, huid', hj, hjplayer⟩
  · omega
  · have hmn : m = n := by omega
    subst hmn
    have hij := hi.number_once i j m hn hm
    subst hij
    rw [ht] at hj
    cases hj
    exact hjplayer hplayer

theorem setProfile_cases {uid now : Int} {pool : Pool} {id : PlayerID}
    (hid : id = ⟨uint32OfInt uid, uint32OfInt req.zoneId⟩) (hnone : pool.profile id = none)
    (h : Register.setProfile cdc req uid now t pool = some (t', pool')) :
    let p := Register.newProfile req id now
    t'.req = t.req ∧ t'.player = some id ∧ t'.answers = t.answers ∧
    t'.wait = .sent .gotProfile
      (.mset [(reginfoKey req.account, cdc.reginfo (Register.initReginfo req uid)),
        (getProfileKey id.uid id.zoneId, cdc.profile p)]) ∧
    pool'.profile = Function.update pool.profile id (some p) := by
  subst hid
  unfold Register.setProfile Register.initProfile Pool.add at h
  simp only [hnone] at h
  split at h
  · simp at h
  · rename_i id' pool₁ hadd
    split at hadd
    · simp only [Option.map_some, Option.some.injEq, Prod.mk.injEq] at hadd
      obtain ⟨rfl, rfl⟩ := hadd
      simp only [Function.update_self, Option.some.injEq, Prod.mk.injEq] at h
      obtain ⟨rfl, rfl⟩ := h
      exact ⟨by simp, rfl, by simp, rfl, rfl⟩
    · simp at hadd

theorem Inv.deliver_uid (hi : Inv cdc c₀ s)
    (hcount : s.redis.counter UIDKEY < 2 ^ 31 - UIDBASE.toNat) (ht : s.txn i = some t)
    (hreq : t.req = .reg (some req)) {r : Reply V} (hwait : t.wait = .back .gotUid r)
    {now : Int} (h : Register.gotUidReply cdc req now (running t) s.pool r = some (t', pool')) :
    Inv cdc c₀ (called s i t' pool') := by
  have hreg := (txnInv_reg cdc hreq).mp (hi.txn i t ht)
  have hw := hreg.wait
  rw [hwait] at hw
  have hnil := answers_nil hreg hwait
  obtain ⟨hplayer, hcreated, hnumbered⟩ := hw
  have hclose : some ({ (running t).touch with ret := RET_REDIS_ERR_INCR }.send2Client cdc,
      s.pool) = some (t', pool') → Inv cdc c₀ (called s i t' pool') := by
    intro heq
    cases heq
    refine hi.quiet ?_ (PoolStep.of_eq rfl) ((txnInv_reg cdc ?_).mpr
      (hreg.close (a := ⟨RET_REDIS_ERR_INCR, t.rsp, cdc.fits t.rsp⟩) ?_ ?_ ?_
        fun hok => absurd hok (show RET_REDIS_ERR_INCR ≠ RET_OK by decide)))
    · intro t₀ ht₀
      rw [ht] at ht₀
      cases ht₀
      simp [running]
    · simpa [running] using hreq
    · simp [running]
    · simp [running]
    · simp [running, hnil]
  cases r with
  | integer n =>
      have hn := hnumbered n rfl
      have hrange := hi.number_range i n hn
      obtain ⟨id, hid⟩ : ∃ id : PlayerID,
          id = ⟨uint32OfInt (UIDBASE + toInt n), uint32OfInt req.zoneId⟩ := ⟨_, rfl⟩
      have hlt : n < 2 ^ 31 - UIDBASE.toNat := by omega
      have huid : id.uid = UIDBASE.toNat + n := by
        simp only [hid]
        exact uid_eq hlt
      have hnone := hi.player_new ht hplayer hn huid
      have hrun : Register.setProfile cdc req (UIDBASE + toInt n) now (running t) s.pool =
          some (t', pool') := h
      obtain ⟨hreq', hplayer', hanswers', hwait', hpool⟩ := setProfile_cases hid hnone hrun
      have hanswers : t'.answers = [] := hanswers'.trans hnil
      refine hi.quiet ?_ ?_ ((txnInv_reg cdc (hreq'.trans hreq)).mpr ?_)
      · intro t₀ ht₀
        rw [ht] at ht₀
        cases ht₀
        exact ⟨hreq', fun _ => by simp [hplayer']⟩
      · intro id'
        by_cases heq : id' = id
        · subst heq
          exact Or.inr (Or.inl ⟨hnone, Or.inr ⟨i, n, t', hn, huid, put_self _, by simp [hplayer']⟩⟩)
        · left
          show pool'.profile id' = s.pool.profile id'
          rw [hpool, Function.update_of_ne heq]
      · refine ⟨?_, ?_, ?_, fun _ => hcreated, hreg.mset⟩
        · rw [hwait']
          refine ⟨hcreated, n, Register.newProfile req id now, _, _, id.zoneId,
            ⟨hn, huid, hplayer', ?_⟩, rfl⟩
          show pool'.profile id = _
          rw [hpool, Function.update_self]
        · simp [hanswers]
        · simp [hanswers]
  | value v => exact hclose h
  | done => exact hclose h
  | nil => exact hclose h
  | failed => exact hclose h

theorem Inv.deliver_profile (hi : Inv cdc c₀ s) (ht : s.txn i = some t)
    (hreq : t.req = .reg (some req)) {r : Reply V} (hwait : t.wait = .back .gotProfile r)
    (h : Register.gotProfileReply cdc (running t) s.pool r = some (t', pool')) :
    Inv cdc c₀ (called s i t' pool') := by
  have hreg := (txnInv_reg cdc hreq).mp (hi.txn i t ht)
  have hw := hreg.wait
  rw [hwait] at hw
  have hnil := answers_nil hreg hwait
  obtain ⟨hcreated, n, p, hp⟩ := hw
  have hplayer : (running t).player = some p.playerId := hp.player
  have hclose : (s.pool.del p.playerId).map (fun pool' =>
        ({ (running t).touch with ret := RET_REDIS_ERR_SET }.send2Client cdc, pool')) =
      some (t', pool') → Inv cdc c₀ (called s i t' pool') := by
    intro heq
    unfold Pool.del at heq
    simp only [hp.stored, Option.map_some, Option.some.injEq, Prod.mk.injEq] at heq
    obtain ⟨rfl, rfl⟩ := heq
    refine hi.quiet ?_ ?_ ((txnInv_reg cdc ?_).mpr
      (hreg.close (a := ⟨RET_REDIS_ERR_SET, t.rsp, cdc.fits t.rsp⟩) ?_ ?_ ?_
        fun hok => absurd hok (show RET_REDIS_ERR_SET ≠ RET_OK by decide)))
    · intro t₀ ht₀
      rw [ht] at ht₀
      cases ht₀
      simp [running]
    · intro id
      by_cases heq : id = p.playerId
      · subst heq
        exact Or.inr (Or.inr ⟨Function.update_self .., n, hp.numbered, hp.uid⟩)
      · exact Or.inl (Function.update_of_ne heq ..)
    · simpa [running] using hreq
    · simp [running]
    · simp [running]
    · simp [running, hnil]
  unfold Register.gotProfileReply at h
  simp only [hplayer, hp.stored] at h
  cases r with
  | done =>
      cases h
      refine hi.quiet ?_ (PoolStep.of_eq rfl) ((txnInv_reg cdc ?_).mpr
        (hreg.close (a := ⟨RET_OK, some p, cdc.fits (some p)⟩) ?_ ?_ ?_
          fun _ => ⟨hcreated, n, p, hp.numbered, rfl, hp.uid⟩))
      · intro t₀ ht₀
        rw [ht] at ht₀
        cases ht₀
        simp [running]
      · simpa [running] using hreq
      · simp [running]
      · simp [running]
      · simp [running, hnil]
  | value v => exact hclose h
  | integer m => exact hclose h
  | nil => exact hclose h
  | failed => exact hclose h

end Register

section Login

variable {t t' : Txn V} {req : LoginReq} {pool' : Pool}

theorem Inv.deliver_login (hi : Inv cdc c₀ s) (ht : s.txn i = some t)
    (hreq : t.req = .login (some req)) {r : Reply V} (hwait : t.wait = .back .gotLogin r)
    (h : Login.gotReply cdc req (running t) s.pool r = some (t', pool')) :
    Inv cdc c₀ (called s i t' pool') := by
  have hw := (txnInv_login cdc hreq).mp (hi.txn i t ht)
  rw [hwait] at hw
  have hsilent : ((running t).touch, s.pool) = (t', pool') →
      Inv cdc c₀ (called s i t' pool') := by
    intro heq
    cases heq
    have hreq' : (running t).touch.req = .login (some req) := by simpa [running] using hreq
    refine hi.quiet ?_ (PoolStep.of_eq rfl) ((txnInv_login cdc hreq').mpr ?_)
    · intro t₀ ht₀
      rw [ht] at ht₀
      cases ht₀
      simp [running]
    · simp only [Txn.touch_wait]
      trivial
  unfold Login.gotReply at h
  cases r with
  | value v =>
      cases hparse : cdc.parseProfile v with
      | none =>
          simp only [hparse, Option.some.injEq] at h
          exact hsilent h
      | some p =>
          cases hpool : s.pool.profile req.playerID with
          | some q =>
              simp only [hparse, hpool, Option.some.injEq] at h
              exact hsilent h
          | none =>
              simp only [hparse, hpool, Pool.add] at h
              split at h
              · simp only [Option.map_some, Option.some.injEq, Prod.mk.injEq] at h
                obtain ⟨rfl, rfl⟩ := h
                have hreq' : ({ (running t).touch with rsp := some p }.sendToClinet cdc).req =
                    .login (some req) := by simpa [Txn.sendToClinet, running] using hreq
                have htxn : ∀ t₀, s.txn i = some t₀ →
                    ({ (running t).touch with rsp := some p }.sendToClinet cdc).req = t₀.req ∧
                    (t₀.player ≠ none →
                      ({ (running t).touch with rsp := some p }.sendToClinet cdc).player ≠
                        none) := by
                  intro t₀ ht₀
                  rw [ht] at ht₀
                  cases ht₀
                  simp [Txn.sendToClinet, running]
                refine hi.quiet htxn ?_ ((txnInv_login cdc hreq').mpr ?_)
                · intro id
                  by_cases heq : id = req.playerID
                  · subst heq
                    have hused := hi.store_used _ _ (uint32OfInt_lt _) (hw ⟨v, rfl⟩)
                    have hg := Grows.put htxn (fun j hj => put_other (s := { s with pool := _ })
                      _ hj) (put_self _) (fun _ h => h) (fun _ h => h) (Nat.le_refl _)
                    exact Or.inr (Or.inl ⟨hpool, hg.used hused⟩)
                  · exact Or.inl (Function.update_of_ne heq ..)
                · simp only [Txn.sendToClinet, Txn.touch_wait]
                  trivial
              · cases h
  | integer n => exact hsilent (Option.some.inj h)
  | done => exact hsilent (Option.some.inj h)
  | nil => exact hsilent (Option.some.inj h)
  | failed => exact hsilent (Option.some.inj h)

end Login

theorem Inv.enter (hi : Inv cdc c₀ s) (hnone : s.txn i = none) (ret : Int) (req : Req) :
    Inv cdc c₀ (s.put i (cmdDispatch cdc s.pool ret req)) := by
  have hmset : ∀ {c r}, (i, c, r) ∉ s.log := fun hmem => hi.logged i _ _ hmem hnone
  refine hi.quiet ?_ (PoolStep.of_eq rfl) ?_
  · intro t ht
    rw [hnone] at ht
    cases ht
  · cases req with
    | reg body =>
        cases body with
        | none => exact (txnInv_unparsed cdc (Or.inl rfl)).mpr rfl
        | some req =>
            refine (txnInv_reg cdc rfl).mpr ⟨⟨rfl, rfl⟩, ?_, ?_, ?_, ?_⟩
            · intro hne
              exact absurd rfl hne
            · intro a ha
              cases ha
            · intro hne
              exact absurd rfl hne
            · intro pairs r hmem
              exact absurd hmem hmset
    | login body =>
        cases body with
        | none => exact (txnInv_unparsed cdc (Or.inr rfl)).mpr rfl
        | some req =>
            cases hpool : s.pool.profile req.playerID with
            | none =>
                have hwait : (cmdDispatch cdc s.pool ret (.login (some req))).wait =
                    .sent .gotLogin
                      (.get (getProfileKey req.playerID.uid req.playerID.zoneId)) := by
                  simp [cmdDispatch, Login.enter, hpool]
                have hreq : (cmdDispatch cdc s.pool ret (.login (some req))).req =
                    .login (some req) := by
                  simp [cmdDispatch, Login.enter, hpool, Txn.new]
                refine (txnInv_login cdc hreq).mpr ?_
                rw [hwait]
                rfl
            | some p =>
                have hwait : (cmdDispatch cdc s.pool ret (.login (some req))).wait =
                    .nothing := by
                  simp [cmdDispatch, Login.enter, hpool, Txn.sendToClinet, Txn.new]
                have hreq : (cmdDispatch cdc s.pool ret (.login (some req))).req =
                    .login (some req) := by
                  simp [cmdDispatch, Login.enter, hpool, Txn.new, Txn.sendToClinet]
                refine (txnInv_login cdc hreq).mpr ?_
                rw [hwait]
                trivial

omit [DecidableEq ι] in
theorem RegWait.fail {t : Txn V} {req : RegReq} {cb : Callback}
    (hwait : (∃ c, t.wait = .sent cb c) ∨ ∃ r, t.wait = .back cb r)
    (h : RegWait cdc s i t req t.wait) :
    RegWait cdc s i { t with wait := .back cb .failed } req (.back cb .failed) := by
  rcases hwait with ⟨c, hwait⟩ | ⟨r, hwait⟩
  · rw [hwait] at h
    cases cb with
    | gotName => exact ⟨h.1, by simp⟩
    | gotUid => exact ⟨h.1, h.2.1, by simp⟩
    | gotProfile =>
        obtain ⟨hc, n, p, _, _, _, hp, _⟩ := h
        exact ⟨hc, n, p, hp.numbered, hp.uid, hp.player, hp.stored⟩
    | gotLogin => exact h
  · rw [hwait] at h
    cases cb with
    | gotName => exact ⟨h.1, by simp⟩
    | gotUid => exact ⟨h.1, h.2.1, by simp⟩
    | gotProfile =>
        obtain ⟨hc, n, p, hp⟩ := h
        exact ⟨hc, n, p, hp.numbered, hp.uid, hp.player, hp.stored⟩
    | gotLogin => exact h

/-- A step that changes neither Redis nor the pool. -/
theorem Inv.move (hi : Inv cdc c₀ s) {t t' : Txn V} (ht : s.txn i = some t)
    (hreq : t'.req = t.req) (hplayer : t'.player = t.player) (hmine : TxnInv cdc s i t') :
    Inv cdc c₀ (s.put i t') := by
  have htxn : ∀ t₀, s.txn i = some t₀ → t'.req = t₀.req ∧
      (t₀.player ≠ none → t'.player ≠ none) := by
    intro t₀ ht₀
    rw [ht] at ht₀
    cases ht₀
    exact ⟨hreq, fun hne => hplayer ▸ hne⟩
  have hg : Grows s (s.put i t') :=
    Grows.put htxn (fun j hj => put_other _ hj) (put_self _) (fun _ h => h) (fun _ h => h)
      (Nat.le_refl _)
  exact hi.quiet htxn (PoolStep.of_eq rfl)
    (hg.txnInv cdc hmine (fun _ _ _ => rfl) (fun _ _ h => h))

/-- A command fails, whether Redis executed it or not. -/
theorem Inv.fail (hi : Inv cdc c₀ s) {t : Txn V} (ht : s.txn i = some t) {cb : Callback}
    (hwait : (∃ c, t.wait = .sent cb c) ∨ ∃ r, t.wait = .back cb r) :
    Inv cdc c₀ (s.put i { t with wait := .back cb .failed }) := by
  have hmine := hi.txn i t ht
  have hbusy : t.wait ≠ .nothing := by
    rcases hwait with ⟨c, hwait⟩ | ⟨r, hwait⟩ <;> simp [hwait]
  refine hi.move ht ?_ ?_ ?_
  · rfl
  · rfl
  obtain ⟨req, hreq⟩ : ∃ req, t.req = req := ⟨_, rfl⟩
  cases req with
  | reg body =>
      cases body with
      | none => exact absurd ((txnInv_unparsed cdc (Or.inl hreq)).mp hmine) hbusy
      | some req =>
          have hreg := (txnInv_reg cdc hreq).mp hmine
          have hnil : t.answers = [] := by
            by_contra hne
            exact hbusy (hreg.answered hne)
          have hreq' : ({ t with wait := .back cb .failed } : Txn V).req = .reg (some req) := hreq
          refine (txnInv_reg cdc hreq').mpr
            ⟨hreg.wait.fail hwait, ?_, ?_, hreg.player, hreg.mset⟩
          · intro hne
            exact absurd hnil hne
          · intro a ha
            rw [hnil] at ha
            cases ha
  | login body =>
      cases body with
      | none => exact absurd ((txnInv_unparsed cdc (Or.inr hreq)).mp hmine) hbusy
      | some req =>
          have hw := (txnInv_login cdc hreq).mp hmine
          have hreq' : ({ t with wait := .back cb .failed } : Txn V).req = .login (some req) :=
            hreq
          refine (txnInv_login cdc hreq').mpr ?_
          rcases hwait with ⟨c, hwait⟩ | ⟨r, hwait⟩ <;> rw [hwait] at hw <;> cases cb with
          | gotLogin =>
              rintro ⟨v, hv⟩
              cases hv
          | _ => exact absurd hw id

theorem Inv.leave (hi : Inv cdc c₀ s) {t : Txn V} (ht : s.txn i = some t) :
    Inv cdc c₀ (s.put i { t.touch with inEnter := false }) :=
  hi.move ht (by simp) (by simp)
    ((hi.txn i t ht).congr (by simp) (by simp) (by simp) (by simp))

/-- Every step keeps the invariant. -/
theorem Inv.step (hi : Inv cdc c₀ s)
    (hcount : s.redis.counter UIDKEY < 2 ^ 31 - UIDBASE.toNat) {e : Event ι}
    {s' : System ι V} (hs : Jump.GameServer.step cdc s e = some s') : Inv cdc c₀ s' := by
  cases e with
  | enter i ret req =>
      simp only [Jump.GameServer.step] at hs
      split at hs
      · cases hs
      · rename_i hnone
        cases hs
        exact hi.enter hnone ret req
  | leave i =>
      simp only [Jump.GameServer.step] at hs
      split at hs
      · cases hs
      · rename_i t ht
        split at hs
        · cases hs
          exact hi.leave ht
        · cases hs
  | exec i =>
      simp only [Jump.GameServer.step] at hs
      split at hs
      · cases hs
      · rename_i t ht
        split at hs
        · rename_i cb c hwait
          cases hs
          exact hi.exec_step hcount ht hwait
        · cases hs
  | fail i =>
      simp only [Jump.GameServer.step] at hs
      split at hs
      · cases hs
      · rename_i t ht
        split at hs
        · cases hs
        · rename_i cb c hwait
          cases hs
          exact hi.fail ht (Or.inl ⟨c, hwait⟩)
        · rename_i cb r hwait
          cases hs
          exact hi.fail ht (Or.inr ⟨r, hwait⟩)
  | deliver i now =>
      simp only [Jump.GameServer.step] at hs
      split at hs
      · cases hs
      · rename_i t ht
        split at hs
        · rename_i cb r hwait
          rw [Option.map_eq_some_iff] at hs
          obtain ⟨⟨t', pool'⟩, hcall, rfl⟩ := hs
          have hmine := hi.txn i t ht
          cases hreq : t.req with
          | reg body =>
              cases body with
              | none =>
                  rw [(txnInv_unparsed cdc (Or.inl hreq)).mp hmine] at hwait
                  cases hwait
              | some req =>
                  have hw := ((txnInv_reg cdc hreq).mp hmine).wait
                  rw [hwait] at hw
                  have hreq' : (running t).req = .reg (some req) := hreq
                  cases cb with
                  | gotName =>
                      cases hcall
                      exact hi.deliver_name ht hreq hwait
                  | gotUid =>
                      have hrun := (callback_gotUid hreq' r now s.pool).symm.trans hcall
                      exact hi.deliver_uid hcount ht hreq hwait hrun
                  | gotProfile => exact hi.deliver_profile ht hreq hwait hcall
                  | gotLogin => exact absurd hw id
          | login body =>
              cases body with
              | none =>
                  rw [(txnInv_unparsed cdc (Or.inr hreq)).mp hmine] at hwait
                  cases hwait
              | some req =>
                  have hw := (txnInv_login cdc hreq).mp hmine
                  rw [hwait] at hw
                  have hreq' : (running t).req = .login (some req) := hreq
                  cases cb with
                  | gotLogin =>
                      have hrun := (callback_gotLogin hreq' r now s.pool).symm.trans hcall
                      exact hi.deliver_login ht hreq hwait hrun
                  | _ => exact absurd hw id
        · cases hs

end Jump.GameServer
