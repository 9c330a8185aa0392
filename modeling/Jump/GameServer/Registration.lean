import Jump.GameServer.Callbacks

/-! # What registrations guarantee each other -/

namespace Jump.GameServer

open Jump.Core

variable {ι V : Type} [DecidableEq ι] {cdc : Codec V} {P : System ι V → Event ι → Prop}
  {s₀ s s' : System ι V} {i j : ι}

/-- Redis changes only when it executes a command. -/
theorem step_redis {e : Event ι} (hs : step cdc s e = some s') :
    s'.redis = s.redis ∨ ∃ i t cb c, e = .exec i ∧ s.txn i = some t ∧ t.wait = .sent cb c ∧
      s' = executed s i t cb c := by
  cases e with
  | enter i ret req =>
      simp only [step] at hs
      split at hs <;> cases hs
      exact Or.inl rfl
  | leave i =>
      simp only [step] at hs
      split at hs
      · cases hs
      · split at hs <;> cases hs
        exact Or.inl rfl
  | exec i =>
      simp only [step] at hs
      split at hs
      · cases hs
      · rename_i t ht
        split at hs
        · rename_i cb c hwait
          cases hs
          exact Or.inr ⟨i, t, cb, c, rfl, ht, hwait, rfl⟩
        · cases hs
  | fail i =>
      simp only [step] at hs
      split at hs
      · cases hs
      · split at hs <;> cases hs <;> exact Or.inl rfl
  | deliver i now =>
      simp only [step] at hs
      split at hs
      · cases hs
      · split at hs
        · rw [Option.map_eq_some_iff] at hs
          obtain ⟨r, -, rfl⟩ := hs
          exact Or.inl rfl
        · cases hs

theorem step_counter {e : Event ι} (hs : step cdc s e = some s') :
    s.redis.counter UIDKEY ≤ s'.redis.counter UIDKEY := by
  rcases step_redis hs with heq | ⟨i, t, cb, c, -, -, -, rfl⟩
  · exact Nat.le_of_eq (by rw [heq])
  · exact exec_counter s.redis c UIDKEY

theorem run_inv (hstart : Start s₀) (hrun : Run cdc P s₀ s)
    (hcount : s.redis.counter UIDKEY < 2 ^ 31 - UIDBASE.toNat) :
    Inv cdc (s₀.redis.counter UIDKEY) s := by
  induction hrun with
  | start => exact hstart.inv cdc
  | step hprev _ hs ih =>
      have hcount' := Nat.lt_of_le_of_lt (step_counter hs) hcount
      exact (ih hcount').step hcount' hs

/-- Two registrations that answered `RET_OK` have different names and different uids. -/
theorem registered_distinct (hstart : Start s₀) (hrun : Run cdc P s₀ s)
    (hcount : s.redis.counter UIDKEY < 2 ^ 31 - UIDBASE.toNat) (hij : i ≠ j)
    {t u : Txn V} (ht : s.txn i = some t) (hu : s.txn j = some u) {req req' : RegReq}
    (hreq : t.req = .reg (some req)) (hreq' : u.req = .reg (some req')) {a b : Answer}
    (ha : a ∈ t.answers) (hb : b ∈ u.answers) (hok : a.ret = RET_OK) (hok' : b.ret = RET_OK) :
    req.name ≠ req'.name ∧ ∃ p q, a.profile = some p ∧ b.profile = some q ∧
      p.playerId.uid ≠ q.playerId.uid := by
  have hi := run_inv hstart hrun hcount
  have hreg := (txnInv_reg cdc hreq).mp (hi.txn i t ht)
  have hreg' := (txnInv_reg cdc hreq').mp (hi.txn j u hu)
  obtain ⟨⟨v, hv⟩, n, p, hn, hp, huid⟩ := hreg.ok a ha hok
  obtain ⟨⟨w, hw⟩, m, q, hm, hq, huid'⟩ := hreg'.ok b hb hok'
  constructor
  · intro heq
    rw [heq] at hv
    exact hij (hi.named_once i j _ v w hv hw)
  · refine ⟨p, q, hp, hq, fun heq => ?_⟩
    have hnm : n = m := by omega
    subst hnm
    exact hij (hi.number_once i j n hn hm)

section Two

def red : RegReq := ⟨"jump", "first", 1, "red"⟩

def blue : RegReq := ⟨"jump", "second", 1, "blue"⟩

/-- Two registrations for one account. -/
def twoRegistrations : List (Event Nat) :=
  registration 0 red ++ registration 1 blue

/-- What is left of the request and the answers of `i`. -/
def outcome (s : System Nat Plain) (i : Nat) : Option (Req × List Answer) :=
  (s.txn i).map fun t => (t.req, t.answers)

theorem outcome_eq {s : System Nat Plain} {i : Nat} {o : Req × List Answer}
    (h : outcome s i = some o) : ∃ t, s.txn i = some t ∧ t.req = o.1 ∧ t.answers = o.2 := by
  unfold outcome at h
  rw [Option.map_eq_some_iff] at h
  obtain ⟨t, ht, rfl⟩ := h
  exact ⟨t, ht, rfl, rfl⟩

/-- The answer to a registration for zone 1. -/
def registered (uid : Nat) (name : String) : Answer where
  ret := RET_OK
  profile := some ⟨⟨uid, 1⟩, ⟨0, 0, 0, 0⟩, ⟨0⟩, ⟨name, 7, 7, 0⟩⟩
  sent := true

theorem twoRegistrations_run : ∃ s,
    runEvents plainCodec (fun _ _ => true) emptySystem twoRegistrations = some s ∧
    s.redis.counter UIDKEY = 2 ∧
    outcome s 0 = some (.reg (some red), [registered 1000001 "red"]) ∧
    outcome s 1 = some (.reg (some blue), [registered 1000002 "blue"]) := by
  have hcheck : (runEvents plainCodec (fun _ _ => true) emptySystem twoRegistrations).any
      (fun s => decide (s.redis.counter UIDKEY = 2 ∧
        outcome s 0 = some (.reg (some red),
          [registered 1000001 "red"]) ∧
        outcome s 1 = some (.reg (some blue),
          [registered 1000002 "blue"]))) = true := by decide +kernel
  rw [Option.any_eq_true] at hcheck
  obtain ⟨s, hs, hall⟩ := hcheck
  exact ⟨s, hs, of_decide_eq_true hall⟩

theorem registered_distinct_two : red.name ≠ blue.name ∧ ∃ p q,
    (registered 1000001 "red").profile = some p ∧
    (registered 1000002 "blue").profile = some q ∧ p.playerId.uid ≠ q.playerId.uid := by
  obtain ⟨s, hs, hcount, h₀, h₁⟩ := twoRegistrations_run
  obtain ⟨t, ht, hreq, hans⟩ := outcome_eq h₀
  obtain ⟨u, hu, hreq', hans'⟩ := outcome_eq h₁
  have hrun := Run.of_events plainCodec .start twoRegistrations hs
  exact registered_distinct emptySystem_start hrun (by rw [hcount]; decide) (by decide) ht hu
    hreq hreq' (by rw [hans]; exact List.mem_singleton_self _)
    (by rw [hans']; exact List.mem_singleton_self _) rfl rfl

end Two

/-- Nothing is left of the transaction but the number it took. -/
structure Undone (s : System ι V) (i : ι) (t : Txn V) (req : RegReq) : Prop where
  name : Created s i req.name → s.redis.store (nickKey req.name) = none
  keys : ∀ pairs r, (i, .mset pairs, r) ∈ s.log → ∀ p ∈ pairs, s.redis.store p.1 = none
  profile : ∀ id, t.player = some id → s.pool.profile id = none

/-- A registration that did not answer `RET_OK` is undone exactly if it never took its name. -/
theorem undone_iff (hstart : Start s₀) (hrun : Run cdc P s₀ s)
    (hcount : s.redis.counter UIDKEY < 2 ^ 31 - UIDBASE.toNat) {t : Txn V}
    (ht : s.txn i = some t) {req : RegReq} (hreq : t.req = .reg (some req)) :
    (∃ a ∈ t.answers, a.ret ≠ RET_OK) → (Undone s i t req ↔ ¬ Created s i req.name) := by
  have hi := run_inv hstart hrun hcount
  have hreg := (txnInv_reg cdc hreq).mp (hi.txn i t ht)
  intro _
  constructor
  · intro hundone hcreated
    obtain ⟨v, hv⟩ := hcreated
    exact hi.named i _ v .nil hv (hundone.name ⟨v, hv⟩)
  · intro hno
    constructor
    · intro hcreated
      exact absurd hcreated hno
    · intro pairs r hmem
      exact absurd (hreg.mset pairs r hmem) hno
    · intro id hplayer
      exact absurd (hreg.player (by simp [hplayer])) hno

section Failed

/-- A registration whose `INCR` fails. -/
def failedRegistration : List (Event Nat) :=
  [.enter 0 RET_OK (.reg (some red)), .leave 0, .exec 0, .deliver 0 7, .fail 0, .deliver 0 7]

/-- The check of `Created` on a given history. -/
def created (s : System Nat Plain) (i : Nat) (name : String) : Bool :=
  s.log.any fun
    | (j, .getset k _, .nil) => j == i && k == nickKey name
    | _ => false

theorem created_sound {s : System Nat Plain} {i : Nat} {name : String}
    (h : created s i name = true) : Created s i name := by
  unfold created at h
  rw [List.any_eq_true] at h
  obtain ⟨e, hmem, he⟩ := h
  split at he
  · rename_i j k v
    rw [Bool.and_eq_true, beq_iff_eq, beq_iff_eq] at he
    obtain ⟨rfl, rfl⟩ := he
    exact ⟨v, hmem⟩
  · cases he

theorem failedRegistration_run : ∃ s,
    runEvents plainCodec (fun _ _ => true) emptySystem failedRegistration = some s ∧
    s.redis.counter UIDKEY = 0 ∧ created s 0 "red" = true ∧
    s.redis.store (nickKey "red") = some .one ∧
    outcome s 0 = some (.reg (some red), [⟨RET_REDIS_ERR_INCR, none, true⟩]) := by
  have hcheck : (runEvents plainCodec (fun _ _ => true) emptySystem failedRegistration).any
      (fun s => decide (s.redis.counter UIDKEY = 0 ∧ created s 0 "red" = true ∧
        s.redis.store (nickKey "red") = some .one ∧
        outcome s 0 = some (.reg (some red), [⟨RET_REDIS_ERR_INCR, none, true⟩]))) =
      true := by decide +kernel
  rw [Option.any_eq_true] at hcheck
  obtain ⟨s, hs, hall⟩ := hcheck
  exact ⟨s, hs, of_decide_eq_true hall⟩

theorem undone_iff_failed : ∃ (s : System Nat Plain) (t : Txn Plain), s.txn 0 = some t ∧
    t.answers = [⟨RET_REDIS_ERR_INCR, none, true⟩] ∧
    (Undone s 0 t red ↔ ¬ Created s 0 "red") := by
  obtain ⟨s, hs, hcount, -, -, h⟩ := failedRegistration_run
  obtain ⟨t, ht, hreq, hans⟩ := outcome_eq h
  have hrun := Run.of_events plainCodec .start failedRegistration hs
  refine ⟨s, t, ht, hans, undone_iff emptySystem_start hrun ?_ ht hreq ?_⟩
  · rw [hcount]
    decide
  · rw [hans]
    exact ⟨_, List.mem_singleton_self _, by decide⟩

/-- The name of the failed registration stays taken. -/
theorem name_stays_taken : ∃ s t,
    runEvents plainCodec (fun _ _ => true) emptySystem failedRegistration = some s ∧
    s.txn 0 = some t ∧ t.answers = [⟨RET_REDIS_ERR_INCR, none, true⟩] ∧
    ¬ Undone s 0 t red := by
  obtain ⟨s, hs, -, hcreated, hstore, h⟩ := failedRegistration_run
  obtain ⟨t, ht, -, hans⟩ := outcome_eq h
  refine ⟨s, t, hs, ht, hans, fun hundone => ?_⟩
  have hnone := hundone.name (created_sound hcreated)
  rw [show red.name = "red" from rfl, hstore] at hnone
  cases hnone

end Failed

/-- The account of a registration that answered `RET_OK` is written again only by a
registration for the same account under another name, which was free. -/
theorem reginfo_changed (hstart : Start s₀) (hrun : Run cdc P s₀ s)
    (hcount : s.redis.counter UIDKEY < 2 ^ 31 - UIDBASE.toNat) {t : Txn V}
    (ht : s.txn i = some t) {req : RegReq} (hreq : t.req = .reg (some req)) {a : Answer}
    (ha : a ∈ t.answers) (hok : a.ret = RET_OK) {e : Event ι} (hs : step cdc s e = some s')
    (hchange : s'.redis.store (reginfoKey req.account) ≠
      s.redis.store (reginfoKey req.account)) :
    ∃ j u req', e = .exec j ∧ s.txn j = some u ∧ u.req = .reg (some req') ∧
      Created s j req'.name ∧ req'.account = req.account ∧ req'.name ≠ req.name := by
  have hi := run_inv hstart hrun hcount
  have hreg := (txnInv_reg cdc hreq).mp (hi.txn i t ht)
  obtain ⟨⟨v, hv⟩, -⟩ := hreg.ok a ha hok
  rcases step_redis hs with heq | ⟨j, u, cb, c, he, hu, hwait, rfl⟩
  · rw [heq] at hchange
    exact absurd rfl hchange
  have hmine := hi.txn j u hu
  have hchange' : (s.redis.exec c).2.store (reginfoKey req.account) ≠
      s.redis.store (reginfoKey req.account) := hchange
  cases hreq' : u.req with
  | reg body =>
      cases body with
      | none =>
          rw [(txnInv_unparsed cdc (Or.inl hreq')).mp hmine] at hwait
          cases hwait
      | some req' =>
          have hw := ((txnInv_reg cdc hreq').mp hmine).wait
          rw [hwait] at hw
          cases cb with
          | gotName =>
              obtain ⟨-, rfl⟩ := hw
              have hkey := (nickKey_ne_reginfoKey req'.name req.account).symm
              have hsame : Function.update s.redis.store (nickKey req'.name) (some cdc.one)
                  (reginfoKey req.account) = s.redis.store (reginfoKey req.account) :=
                Function.update_of_ne hkey ..
              exact absurd hsame hchange'
          | gotUid =>
              obtain ⟨-, -, rfl⟩ := hw
              exact absurd rfl hchange'
          | gotProfile =>
              obtain ⟨⟨w, hw'⟩, n, p, v', w', z, -, rfl⟩ := hw
              have hprofile := reginfoKey_ne_profileKey req.account p.playerId.uid z
              have haccount : req'.account = req.account := by
                by_contra hne
                have hkey : reginfoKey req.account ≠ reginfoKey req'.account := by
                  intro heq
                  exact hne (reginfoKey_inj.mp heq).symm
                apply hchange'
                simp only [Redis.exec, List.foldl_cons, List.foldl_nil, Redis.set]
                rw [Function.update_of_ne hprofile, Function.update_of_ne hkey]
              refine ⟨j, u, req', he, hu, hreq', ⟨w, hw'⟩, haccount, fun hname => ?_⟩
              rw [hname] at hw'
              have hji := hi.named_once j i _ w v hw' hv
              subst hji
              rw [ht] at hu
              cases hu
              rw [hreg.answered (List.ne_nil_of_mem ha)] at hwait
              cases hwait
          | gotLogin => exact absurd hw id
  | login body =>
      cases body with
      | none =>
          rw [(txnInv_unparsed cdc (Or.inr hreq')).mp hmine] at hwait
          cases hwait
      | some req' =>
          have hw := (txnInv_login cdc hreq').mp hmine
          rw [hwait] at hw
          cases cb with
          | gotLogin =>
              have hc : c = .get (getProfileKey req'.playerID.uid req'.playerID.zoneId) := hw
              subst hc
              exact absurd rfl hchange'
          | _ => exact absurd hw id

section Account

/-- Two registrations for one account, up to the `MSET` of the second. -/
def beforeSecond : List (Event Nat) :=
  twoRegistrations.take 14

theorem beforeSecond_run : ∃ s s',
    runEvents plainCodec (fun _ _ => true) emptySystem beforeSecond = some s ∧
    step plainCodec s (.exec 1) = some s' ∧ s.redis.counter UIDKEY = 2 ∧
    outcome s 0 = some (.reg (some red), [registered 1000001 "red"]) ∧
    s.redis.store (reginfoKey "jump") = some (.reginfo ⟨"jump", "first", 1000001, 1, "red"⟩) ∧
    s'.redis.store (reginfoKey "jump") =
      some (.reginfo ⟨"jump", "second", 1000002, 1, "blue"⟩) := by
  have hcheck : (runEvents plainCodec (fun _ _ => true) emptySystem beforeSecond).any
      (fun s => (step plainCodec s (.exec 1)).any fun s' =>
        decide (s.redis.counter UIDKEY = 2 ∧
          outcome s 0 = some (.reg (some red), [registered 1000001 "red"]) ∧
          s.redis.store (reginfoKey "jump") =
            some (.reginfo ⟨"jump", "first", 1000001, 1, "red"⟩) ∧
          s'.redis.store (reginfoKey "jump") =
            some (.reginfo ⟨"jump", "second", 1000002, 1, "blue"⟩))) = true := by
    decide +kernel
  rw [Option.any_eq_true] at hcheck
  obtain ⟨s, hs, hcheck⟩ := hcheck
  rw [Option.any_eq_true] at hcheck
  obtain ⟨s', hs', hall⟩ := hcheck
  exact ⟨s, s', hs, hs', of_decide_eq_true hall⟩

theorem reginfo_changed_second : ∃ s : System Nat Plain, ∃ j u req',
    Event.exec 1 = Event.exec j ∧ s.txn j = some u ∧ u.req = .reg (some req') ∧
      Created s j req'.name ∧ req'.account = red.account ∧ req'.name ≠ red.name := by
  obtain ⟨s, s', hs, hs', hcount, h, hold, hnew⟩ := beforeSecond_run
  obtain ⟨t, ht, hreq, hans⟩ := outcome_eq h
  have hrun := Run.of_events plainCodec .start beforeSecond hs
  refine ⟨s, reginfo_changed emptySystem_start hrun ?_ ht hreq
    (by rw [hans]; exact List.mem_singleton_self _) rfl hs' ?_⟩
  · rw [hcount]
    decide
  · rw [show red.account = "jump" from rfl, hold, hnew]
    decide

/-- The second registration replaces the password and the uid of the account. -/
theorem reginfo_replaced : ∃ s s' t,
    runEvents plainCodec (fun _ _ => true) emptySystem beforeSecond = some s ∧
    step plainCodec s (.exec 1) = some s' ∧ s.txn 0 = some t ∧
    t.req = .reg (some red) ∧ t.answers = [registered 1000001 "red"] ∧
    s'.redis.store (reginfoKey red.account) ≠ s.redis.store (reginfoKey red.account) := by
  obtain ⟨s, s', hs, hs', -, h, hold, hnew⟩ := beforeSecond_run
  obtain ⟨t, ht, hreq, hans⟩ := outcome_eq h
  refine ⟨s, s', t, hs, hs', ht, hreq, hans, ?_⟩
  rw [show red.account = "jump" from rfl, hold, hnew]
  decide

end Account

end Jump.GameServer
