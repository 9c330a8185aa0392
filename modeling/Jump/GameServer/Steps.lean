import Jump.GameServer.System

/-! # The invariant along a run -/

namespace Jump.GameServer

open Jump.Core

variable {ι V : Type} [DecidableEq ι] {cdc : Codec V} {c₀ : Nat} {s s' : System ι V} {i : ι}

@[simp] theorem put_redis (t : Txn V) : (s.put i t).redis = s.redis := rfl
@[simp] theorem put_pool (t : Txn V) : (s.put i t).pool = s.pool := rfl
@[simp] theorem put_log (t : Txn V) : (s.put i t).log = s.log := rfl
@[simp] theorem put_self (t : Txn V) : (s.put i t).txn i = some t := Function.update_self ..

theorem put_other (t : Txn V) {j : ι} (h : j ≠ i) : (s.put i t).txn j = s.txn j :=
  Function.update_of_ne h ..

omit [DecidableEq ι] in
/-- The invariant reads only these members of a transaction. -/
theorem TxnInv.congr {t t' : Txn V} (h : TxnInv cdc s i t) (hreq : t'.req = t.req)
    (hwait : t'.wait = t.wait) (hplayer : t'.player = t.player)
    (hanswers : t'.answers = t.answers) : TxnInv cdc s i t' := by
  unfold TxnInv at h ⊢
  rw [hreq]
  split at h
  · rename_i req _
    refine ⟨?_, by rw [hanswers, hwait]; exact h.answered, by rw [hanswers]; exact h.ok,
      by rw [hplayer]; exact h.player, h.mset⟩
    have hw := h.wait
    rw [hwait]
    cases hcase : t.wait with
    | nothing => trivial
    | sent cb c =>
        rw [hcase] at hw
        cases cb with
        | gotName => exact ⟨hplayer.trans hw.1, hw.2⟩
        | gotUid => exact ⟨hplayer.trans hw.1, hw.2⟩
        | gotProfile =>
            obtain ⟨hc, n, p, v, w, z, hp, heq⟩ := hw
            exact ⟨hc, n, p, v, w, z, ⟨hp.numbered, hp.uid, hplayer.trans hp.player, hp.stored⟩,
              heq⟩
        | gotLogin => exact hw
    | back cb r =>
        rw [hcase] at hw
        cases cb with
        | gotName => exact ⟨hplayer.trans hw.1, hw.2⟩
        | gotUid => exact ⟨hplayer.trans hw.1, hw.2⟩
        | gotProfile =>
            obtain ⟨hc, n, p, hp⟩ := hw
            exact ⟨hc, n, p, ⟨hp.numbered, hp.uid, hplayer.trans hp.player, hp.stored⟩⟩
        | gotLogin => exact hw
  · rw [hwait]
    exact h
  · rw [hwait]
    exact h
  · rw [hwait]
    exact h

/-- What a step of `i` may do to the pool: leave a node, add one for a uid in use, or delete
its own. -/
def PoolStep (c₀ : Nat) (s s' : System ι V) (i : ι) : Prop :=
  ∀ id, s'.pool.profile id = s.pool.profile id ∨
    (s.pool.profile id = none ∧ Used c₀ s' id.uid) ∨
    (s'.pool.profile id = none ∧ ∃ n, Numbered s i n ∧ id.uid = UIDBASE.toNat + n)

omit [DecidableEq ι] in
theorem PoolStep.of_eq (h : s'.pool = s.pool) : PoolStep c₀ s s' i := by
  intro id
  rw [h]
  exact Or.inl rfl

theorem Grows.put {t' : Txn V} (htxn : ∀ t, s.txn i = some t → t'.req = t.req ∧
      (t.player ≠ none → t'.player ≠ none))
    (hother : ∀ j ≠ i, s'.txn j = s.txn j) (hself : s'.txn i = some t')
    (hlog : ∀ e ∈ s.log, e ∈ s'.log)
    (hstore : ∀ k, s.redis.store k ≠ none → s'.redis.store k ≠ none)
    (hcounter : s.redis.counter UIDKEY ≤ s'.redis.counter UIDKEY) : Grows s s' := by
  refine ⟨hlog, hstore, hcounter, ?_⟩
  intro j t hj
  by_cases heq : j = i
  · subst heq
    exact ⟨t', hself, htxn t hj⟩
  · exact ⟨t, (hother j heq).trans hj, rfl, id⟩

/-- A step that leaves Redis alone. -/
theorem Inv.quiet (hi : Inv cdc c₀ s) {pool' : Pool} {t' : Txn V}
    (htxn : ∀ t, s.txn i = some t → t'.req = t.req ∧ (t.player ≠ none → t'.player ≠ none))
    (hpool : PoolStep c₀ s ({ s with pool := pool' }.put i t') i)
    (hmine : TxnInv cdc ({ s with pool := pool' }.put i t') i t') :
    Inv cdc c₀ ({ s with pool := pool' }.put i t') := by
  have hother : ∀ j ≠ i, ({ s with pool := pool' }.put i t').txn j = s.txn j :=
    fun j hj => put_other t' hj
  have hg : Grows s ({ s with pool := pool' }.put i t') :=
    Grows.put htxn hother (put_self t') (fun _ h => h) (fun _ h => h) (Nat.le_refl _)
  constructor
  · exact hi.named
  · exact hi.named_once
  · exact hi.counted
  · exact hi.number_range
  · exact hi.number_once
  · intro id hne
    rcases hpool id with heq | ⟨-, hused⟩ | ⟨hnone, -⟩
    · exact hg.used (hi.pool_used id (heq ▸ hne))
    · exact hused
    · exact absurd hnone hne
  · intro uid zoneId hlt hne
    exact hg.used (hi.store_used uid zoneId hlt hne)
  · intro j c r hmem
    by_cases hj : j = i
    · subst hj
      simp
    · rw [hother j hj]
      exact hi.logged j c r hmem
  · intro j t hj
    by_cases heq : j = i
    · subst heq
      rw [put_self] at hj
      cases hj
      exact hmine
    · rw [hother j heq] at hj
      refine hg.txnInv cdc (hi.txn j t hj) (fun n p hp => ?_) (fun _ _ h => h)
      rcases hpool p.playerId with hsame | ⟨hnone, -⟩ | ⟨-, m, hm, huid⟩
      · exact hsame
      · exact absurd (hnone.symm.trans hp.stored) (by simp)
      · have hmn : m = n := by
          have := hp.uid
          omega
        subst hmn
        exact absurd (hi.number_once j i m hp.numbered hm) heq

section Exec

theorem find_nil {r : Redis V} {k : String} (h : r.find k = .nil) : r.store k = none := by
  unfold Redis.find at h
  split at h
  · cases h
  · assumption

theorem set_store {r : Redis V} {k k' : String} {v : V} (h : r.store k ≠ none) :
    (r.set k' v).store k ≠ none := by
  unfold Redis.set
  by_cases heq : k = k'
  · subst heq
    simp
  · show Function.update r.store k' (some v) k ≠ none
    rw [Function.update_of_ne heq]
    exact h

theorem mset_store {k : String} (pairs : List (String × V)) {r : Redis V}
    (h : r.store k ≠ none) :
    (pairs.foldl (fun r p => r.set p.1 p.2) r).store k ≠ none := by
  induction pairs generalizing r with
  | nil => exact h
  | cons p pairs ih => exact ih (set_store h)

theorem mset_counter (pairs : List (String × V)) (r : Redis V) :
    (pairs.foldl (fun r p => r.set p.1 p.2) r).counter = r.counter := by
  induction pairs generalizing r with
  | nil => rfl
  | cons p pairs ih => exact ih _

/-- Redis drops no key. -/
theorem exec_store {r : Redis V} (c : Command V) {k : String} (h : r.store k ≠ none) :
    (r.exec c).2.store k ≠ none := by
  cases c with
  | getset key v => exact set_store h
  | incr key => exact h
  | mset pairs => exact mset_store pairs h
  | get key => exact h

theorem exec_counter (r : Redis V) (c : Command V) (key : String) :
    r.counter key ≤ (r.exec c).2.counter key := by
  cases c with
  | getset key' v => exact Nat.le_refl _
  | incr key' =>
      simp only [Redis.exec, Function.update_apply]
      split
      · rename_i heq
        rw [heq]
        omega
      · exact Nat.le_refl _
  | mset pairs =>
      show r.counter key ≤ (pairs.foldl (fun r p => r.set p.1 p.2) r).counter key
      exact Nat.le_of_eq (congrFun (mset_counter pairs r) key).symm
  | get key' => exact Nat.le_refl _

/-- Redis after the command of `i`, with the reply on its way. -/
def executed (s : System ι V) (i : ι) (t : Txn V) (cb : Callback) (c : Command V) :
    System ι V :=
  { s with redis := (s.redis.exec c).2, log := (i, c, (s.redis.exec c).1) :: s.log }.put i
    { t with wait := .back cb (s.redis.exec c).1 }

theorem executed_grows {t : Txn V} (ht : s.txn i = some t) (cb : Callback) (c : Command V) :
    Grows s (executed s i t cb c) := by
  have hself : (executed s i t cb c).txn i =
      some { t with wait := .back cb (s.redis.exec c).1 } := put_self _
  refine Grows.put ?_ (fun j hj => put_other _ hj) hself
    (fun e he => List.mem_cons_of_mem _ he) (fun k hk => exec_store c hk)
    (exec_counter s.redis c UIDKEY)
  intro t₀ ht₀
  rw [ht] at ht₀
  cases ht₀
  exact ⟨rfl, id⟩

/-- A command of `i` that stores profiles only for uids in use. -/
theorem Inv.exec (hi : Inv cdc c₀ s) {t : Txn V} (ht : s.txn i = some t) {cb : Callback}
    {c : Command V}
    (hkeys : ∀ uid zoneId, uid < 2 ^ 32 →
      (s.redis.exec c).2.store (getProfileKey uid zoneId) ≠ none →
      s.redis.store (getProfileKey uid zoneId) ≠ none ∨ Used c₀ s uid)
    (hmine : TxnInv cdc (executed s i t cb c) i
      { t with wait := .back cb (s.redis.exec c).1 }) :
    Inv cdc c₀ (executed s i t cb c) := by
  have hg := executed_grows ht cb c
  have hlog : (executed s i t cb c).log = (i, c, (s.redis.exec c).1) :: s.log := rfl
  constructor
  · intro j k v r hmem
    rw [hlog] at hmem
    rcases List.mem_cons.mp hmem with heq | hmem
    · cases heq
      show Function.update s.redis.store k (some v) k ≠ none
      simp
    · exact hg.store k (hi.named j k v r hmem)
  · intro j j' k v w hmem hmem'
    rw [hlog] at hmem hmem'
    -- a nil reply to the newest command means that nobody named the key before
    have hnew : ∀ {j k v w}, (j, Command.getset k v, Reply.nil) ∈ s.log →
        (i, c, (s.redis.exec c).1) ≠ (i, .getset k w, .nil) := by
      intro j k v w hold heq
      rw [Prod.mk.injEq, Prod.mk.injEq] at heq
      obtain ⟨-, rfl, hreply⟩ := heq
      exact hi.named j k v .nil hold (find_nil hreply)
    rcases List.mem_cons.mp hmem with heq | hold <;>
      rcases List.mem_cons.mp hmem' with heq' | hold'
    · rw [Prod.mk.injEq] at heq heq'
      exact heq.1.trans heq'.1.symm
    · have hj : j = i := congrArg Prod.fst heq
      subst hj
      exact absurd heq.symm (hnew hold')
    · have hj : j' = i := congrArg Prod.fst heq'
      subst hj
      exact absurd heq'.symm (hnew hold)
    · exact hi.named_once j j' k v w hold hold'
  · exact Nat.le_trans hi.counted hg.counter
  · intro j n hmem
    rcases List.mem_cons.mp hmem with heq | hmem
    · cases heq
      have hcounted := hi.counted
      show c₀ < s.redis.counter UIDKEY + 1 ∧
        s.redis.counter UIDKEY + 1 ≤
          Function.update s.redis.counter UIDKEY (s.redis.counter UIDKEY + 1) UIDKEY
      rw [Function.update_self]
      omega
    · have hrange := hi.number_range j n hmem
      exact ⟨hrange.1, Nat.le_trans hrange.2 hg.counter⟩
  · intro j j' n hmem hmem'
    have hnew : ∀ {j n}, Numbered s j n →
        (i, c, (s.redis.exec c).1) ≠ (i, .incr UIDKEY, .integer n) := by
      intro j n hold heq
      cases heq
      have hrange := hi.number_range j _ hold
      omega
    rcases List.mem_cons.mp hmem with heq | hold <;>
      rcases List.mem_cons.mp hmem' with heq' | hold'
    · rw [Prod.mk.injEq] at heq heq'
      exact heq.1.trans heq'.1.symm
    · have hj : j = i := congrArg Prod.fst heq
      subst hj
      exact absurd heq.symm (hnew hold')
    · have hj : j' = i := congrArg Prod.fst heq'
      subst hj
      exact absurd heq'.symm (hnew hold)
    · exact hi.number_once j j' n hold hold'
  · intro id hne
    exact hg.used (hi.pool_used id hne)
  · intro uid zoneId hlt hne
    rcases hkeys uid zoneId hlt hne with hold | hused
    · exact hg.used (hi.store_used uid zoneId hlt hold)
    · exact hg.used hused
  · intro j c' r hmem
    rw [hlog] at hmem
    by_cases hj : j = i
    · subst hj
      simp [executed]
    · rw [show (executed s i t cb c).txn j = s.txn j from put_other _ hj]
      rcases List.mem_cons.mp hmem with heq | hmem
      · exact absurd (congrArg Prod.fst heq) hj
      · exact hi.logged j c' r hmem
  · intro j t' hj
    by_cases heq : j = i
    · subst heq
      have hself : (executed s j t cb c).txn j =
          some { t with wait := .back cb (s.redis.exec c).1 } := put_self _
      rw [hself] at hj
      cases hj
      exact hmine
    · rw [show (executed s i t cb c).txn j = s.txn j from put_other _ heq] at hj
      refine hg.txnInv cdc (hi.txn j t' hj) (fun _ _ _ => rfl) ?_
      intro pairs r hmem
      rcases List.mem_cons.mp hmem with heq' | hmem
      · exact absurd (congrArg Prod.fst heq') heq
      · exact hmem

/-- `i` waits for Redis, and Redis executes its command. -/
theorem Inv.exec_step (hi : Inv cdc c₀ s)
    (hcount : s.redis.counter UIDKEY < 2 ^ 31 - UIDBASE.toNat) {t : Txn V} (ht : s.txn i = some t)
    {cb : Callback} {c : Command V} (hwait : t.wait = .sent cb c) :
    Inv cdc c₀ (executed s i t cb c) := by
  have hg := executed_grows ht cb c
  have hmine := hi.txn i t ht
  cases hreq : t.req with
  | reg body =>
      cases body with
      | none =>
          rw [(txnInv_unparsed cdc (Or.inl hreq)).mp hmine] at hwait
          cases hwait
      | some req =>
          have hreg := (txnInv_reg cdc hreq).mp hmine
          have hw := hreg.wait
          rw [hwait] at hw
          -- what is left to show of the new state of `i`
          have hrest : ∀ hnew : RegWait cdc (executed s i t cb c) i
                { t with wait := .back cb (s.redis.exec c).1 } req
                (.back cb (s.redis.exec c).1),
              (∀ pairs, c = .mset pairs → Created s i req.name) →
              TxnInv cdc (executed s i t cb c) i
                { t with wait := .back cb (s.redis.exec c).1 } := by
            intro hnew hmset
            have hreq' : { t with wait := .back cb (s.redis.exec c).1 }.req =
                .reg (some req) := hreq
            refine (txnInv_reg cdc hreq').mpr
              ⟨hnew, ?_, ?_, fun hp => hg.created (hreg.player hp), ?_⟩
            · intro hne
              have hnothing := hreg.answered hne
              rw [hwait] at hnothing
              cases hnothing
            · intro a ha
              have hnothing := hreg.answered (List.ne_nil_of_mem ha)
              rw [hwait] at hnothing
              cases hnothing
            · intro pairs r hmem
              rcases List.mem_cons.mp hmem with heq | hold
              · rw [Prod.mk.injEq, Prod.mk.injEq] at heq
                exact hg.created (hmset pairs heq.2.1.symm)
              · exact hg.created (hreg.mset pairs r hold)
          cases cb with
          | gotName =>
              obtain ⟨hplayer, rfl⟩ := hw
              refine hi.exec ht ?_ (hrest ⟨hplayer, fun hr => ?_⟩ (by simp))
              · intro uid zoneId _ hne
                left
                have hkey := (nickKey_ne_profileKey req.name uid zoneId).symm
                simpa only [Redis.exec, Redis.set, Function.update_of_ne hkey] using hne
              · refine ⟨cdc.one, ?_⟩
                rw [← hr]
                exact List.mem_cons_self
          | gotUid =>
              obtain ⟨hplayer, hcreated, rfl⟩ := hw
              refine hi.exec ht ?_
                (hrest ⟨hplayer, hg.created hcreated, fun n hr => ?_⟩ (by simp))
              · intro uid zoneId _ hne
                exact Or.inl hne
              · unfold Numbered
                rw [← hr]
                exact List.mem_cons_self
          | gotProfile =>
              obtain ⟨hcreated, n, p, v, w, z, hp, rfl⟩ := hw
              refine hi.exec ht ?_ (hrest ⟨hg.created hcreated, n, p, ?_⟩ fun _ _ => hcreated)
              · intro uid zoneId hlt hne
                have hkey := (reginfoKey_ne_profileKey req.account uid zoneId).symm
                simp only [Redis.exec, List.foldl_cons, List.foldl_nil, Redis.set,
                  Function.update_apply, if_neg hkey] at hne
                split at hne
                · rename_i heq
                  have hrange := hi.number_range i n hp.numbered
                  have huid := uid_of_profileKey hlt (by rw [hp.uid]; omega) heq
                  right
                  rw [huid]
                  exact Or.inr ⟨i, n, t, hp.numbered, hp.uid, ht, by rw [hp.player]; simp⟩
                · exact Or.inl hne
              · have hprof := hg.profiled hp rfl
                exact ⟨hprof.numbered, hprof.uid, hprof.player, hprof.stored⟩
          | gotLogin => exact absurd hw id
  | login body =>
      cases body with
      | none =>
          rw [(txnInv_unparsed cdc (Or.inr hreq)).mp hmine] at hwait
          cases hwait
      | some req =>
          have hw := (txnInv_login cdc hreq).mp hmine
          rw [hwait] at hw
          cases cb with
          | gotLogin =>
              have hc : c = .get (getProfileKey req.playerID.uid req.playerID.zoneId) := hw
              subst hc
              have hreq' : { t with wait := .back .gotLogin (s.redis.exec (.get
                  (getProfileKey req.playerID.uid req.playerID.zoneId))).1 }.req =
                .login (some req) := hreq
              refine hi.exec ht (fun _ _ _ hne => Or.inl hne)
                ((txnInv_login cdc hreq').mpr ?_)
              intro ⟨v, hv⟩ hnone
              have hnone' : s.redis.store (getProfileKey req.playerID.uid req.playerID.zoneId) =
                none := hnone
              simp only [Redis.exec, Redis.find, hnone'] at hv
              cases hv
          | _ => exact absurd hw id

end Exec

end Jump.GameServer
