import Jump.GameServer.Transaction
import Jump.MemPool.Hash.Cells
import Jump.MemPool.Hash.Refine

/-! # `PlayerDataMgr` over the hash pool

The profiles of the players lie in a `HashMemPool`, and the transactions work on
the pointers that `PlayerDataMgr` returns. Here these pointers are followed; what
the transactions do apart from that is in `Jump.GameServer.Transaction`.

Where a profile is missing, `Del` and both transactions use the null pointer. `none`
as the outcome of a call is the end of the process.
-/

namespace Jump.GameServer.ProfilePool

/-! ## The functions -/

section Code

open Jump.Core Prog Jump.MemPool

/-- The pool's view of a profile, the value that `PProfile()` makes, and whether the code of
`new(tmp) PProfile` looks at `tmp` before it calls the constructor, which is up to the
compiler. -/
structure Build (V : Type) extends Hash.Params V where
  constructed : V
  testsNull : Bool

/-- `PlayerID::id`; `_uid` is the lower half. -/
def idOf (player : PlayerID) : UInt64 :=
  UInt64.ofNat (player.uid % 2 ^ 32 + player.zoneId % 2 ^ 32 * 2 ^ 32)

abbrev Act (V α : Type) : Type := Hash.Act V α

section PlayerDataMgr

variable {V : Type} (C : Build V) (P : Fixed.Mapping)

/-- `new(tmp) PProfile` -/
def construct : Option Nat → Act V (Option Nat)
  | some p => do
      Hash.setValue C.toParams P p C.constructed
      return some p
  | none => if C.testsNull then return none else stuck

/-- `profile->~PProfile()`, which goes through the object. -/
def destroy : Option Nat → Act V Unit
  | some p => do
      let _ ← Hash.node C.toParams P p
      return ()
  | none => stuck

/-- `*profile` -/
def deref : Option Nat → Act V V
  | some p => do return (← Hash.node C.toParams P p).value
  | none => stuck

/-- `*profile = value` -/
def assign (value : V) : Option Nat → Act V Unit
  | some p => Hash.setValue C.toParams P p value
  | none => stuck

/-- What `Add` does under the read lock. -/
def addFind (id : UInt64) : Act V (Option Nat) := Hash.get C.toParams P id

/-- What `Add` does under the write lock. -/
def addAlloc (id : UInt64) : Act V (Option Nat) := do
  construct C P (← Hash.alloc C.toParams P id)

/-- The profile, and `exist`. -/
def add (id : UInt64) : Act V (Option Nat × Bool) := do
  let profile ← addFind C P id
  if profile ≠ none then return (profile, true)
  else return (← addAlloc C P id, false)

def getProfile (id : UInt64) : Act V (Option Nat) := Hash.get C.toParams P id

/-- What `Del` does behind `GetProfile`. A missing profile is logged, and the code goes on. -/
def delFree (id : UInt64) (profile : Option Nat) : Act V Int := do
  destroy C P profile
  Hash.free C.toParams P id

def del (id : UInt64) : Act V Int := do
  delFree C P id (← getProfile C P id)

end PlayerDataMgr

section Callers

variable (C : Build PProfile) (P : Fixed.Mapping)

def Register.playerID (req : RegReq) (uid : Int) : PlayerID :=
  ⟨uint32OfInt uid, uint32OfInt req.zoneId⟩

/-- `Register::InitProfile`: `_p_profile`, and what it returns. -/
def Register.initProfile (req : RegReq) (uid now : Int) : Act PProfile (Option Nat × Int) := do
  match ← add C P (idOf (Register.playerID req uid)) with
  | (none, _) => return (none, -1)
  | (some p, true) => return (some p, -1)
  | (some p, false) =>
      assign C P (GameServer.Register.newProfile req (Register.playerID req uid) now) (some p)
      return (some p, 0)

variable {W : Type} (cdc : Codec W)

/-- `Register::SetProfile`: `_p_profile` and the command. The return value of `InitProfile` is
not looked at. -/
def Register.setProfile (req : RegReq) (uid now : Int) :
    Act PProfile (Option Nat × Command W) := do
  let r ← Register.initProfile C P req uid now
  let profile ← deref C P r.1
  return (r.1, .mset
    [(reginfoKey req.account, cdc.reginfo (GameServer.Register.initReginfo req uid)),
      (getProfileKey profile.playerId.uid profile.playerId.zoneId, cdc.profile profile)])

/-- The callback of `SetProfile`: what it answers. -/
def Register.gotProfileReply (p : Option Nat) (ok : Bool) :
    Act PProfile (Int × Option PProfile) := do
  let profile ← deref C P p
  if ok then return (RET_OK, some profile)
  else
    let _ ← del C P (idOf profile.playerId)
    return (RET_REDIS_ERR_SET, none)

/-- The callback of `Login::Enter` for a profile that was parsed: what it answers, if it does. -/
def Login.gotReply (req : LoginReq) (profile : PProfile) : Act PProfile (Option PProfile) := do
  match ← add C P (idOf req.playerID) with
  | (_, true) => return none
  | (p, false) =>
      assign C P profile p
      return some (← deref C P p)

end Callers

end Code

/-! ## Missing profiles -/

section Missing

open Jump.Core Prog Jump.MemPool Jump.MemPool.Hash
open Jump.MemPool.Fixed (Mapping Fits Inside nodeAt)

section PlayerDataMgr

variable {V : Type} {C : Build V} {P : Mapping} {B N : Nat} {m : Hash.Mem V}
  {chains : Nat → List Nat} {out free : List Nat} {id : UInt64}

theorem addAlloc_null (h : Hash.alloc C.toParams P id m = some (none, [])) :
    addAlloc C P id m = if C.testsNull then some (none, []) else none := by
  rw [addAlloc, run_bind h, construct]
  cases C.testsNull with
  | false => rfl
  | true => rfl

/-- With a block `Add` does what `Insert` does with the constructed profile. -/
theorem addAlloc_some {p : Nat} {ws : List (Write V)}
    (h : Hash.alloc C.toParams P id m = some (some p, ws)) :
    addAlloc C P id m = Hash.insert C.toParams P id C.constructed m := by
  rw [addAlloc, Hash.insert, run_bind h, run_bind h]
  simp only [construct]

/-- A missing player in a full pool, and one for whom there is room. -/
theorem addAlloc_cases (hi : Hash.Inv C.toParams P B N m chains out free [])
    (habs : lookup m id = none) :
    (size (lookup m) = N ∧ addAlloc C P id m = if C.testsNull then some (none, []) else none) ∨
    (size (lookup m) < N ∧ ∃ p ws,
      Hash.insert C.toParams P id C.constructed m = some (some p, ws) ∧
      addAlloc C P id m = some (some p, ws)) := by
  have hsize : size (lookup m) = out.length := hi.count_keys
  rcases hi.alloc_cases id with ⟨hrun, hwhy⟩ | ⟨o, free', ws, -, -, ho, hrun, hp⟩
  · refine Or.inl ⟨?_, addAlloc_null hrun⟩
    rw [List.length_nil] at hwhy
    have hfull := hwhy.resolve_left (not_not.mpr habs)
    omega
  · have hlt := Hash.Inv.count_lt hp
    have hins := insert_run (v := C.constructed) hi.pool.toFits ho hrun
    exact Or.inr ⟨by omega, _, _, hins, (addAlloc_some hrun).trans hins⟩

theorem add_absent (hi : Hash.Inv C.toParams P B N m chains out free [])
    (habs : lookup m id = none) :
    add C P id m = (addAlloc C P id m).map fun r => ((r.1, false), r.2) := by
  have hget : addFind C P id m = some (none, []) := by
    rw [addFind]
    exact hi.get_none_iff.mpr habs
  have hrest : (addAlloc C P id >>= fun p => pure (p, false) : Act V (Option Nat × Bool)) m =
      (addAlloc C P id m).map fun r => ((r.1, false), r.2) := by
    cases h : addAlloc C P id m with
    | none => rw [run_none h, Option.map_none]
    | some r => rw [run_bind h, run_pure, Option.map_some, Option.map_some, List.append_nil]
  rw [add, run_bind hget, replay_nil, if_neg (not_not.mpr rfl), hrest]
  simp only [Option.map_map, Function.comp_def, List.nil_append]

/-- The node of a player is mapped. -/
def Stored (C : Build V) (P : Mapping) (p : Option Nat) : Prop :=
  ∃ o, p = some (nodeAt P o) ∧ Inside P C.nodeSize o

theorem addFind_stored (hi : Hash.Inv C.toParams P B N m chains out free [])
    (hin : lookup m id ≠ none) : ∃ p, addFind C P id m = some (some p, []) ∧
      Stored C P (some p) := by
  rcases hi.get_cases id with ⟨-, hnone⟩ | ⟨o, ho, -, -, -, hget⟩
  · exact absurd hnone hin
  · exact ⟨_, hget, o, rfl, ho⟩

/-- `Add` returns a profile where the player is in the pool or there is room. -/
theorem add_ends (hi : Hash.Inv C.toParams P B N m chains out free [])
    (h : lookup m id ≠ none ∨ size (lookup m) < N) :
    Ends (add C P id) m fun r _ => Stored C P r.1 := by
  by_cases habs : lookup m id = none
  · have hroom := h.resolve_left (not_not.mpr habs)
    rcases addAlloc_cases (C := C) hi habs with ⟨hfull, -⟩ | ⟨-, p, ws, hins, hadd⟩
    · omega
    · obtain ⟨o, chains', free', rfl, -, hi', -⟩ := hi.insert_cells _ hins
      refine ⟨(some (nodeAt P o), false), ws, ?_, o, rfl,
        hi'.pool.inside (Or.inl List.mem_cons_self)⟩
      rw [add_absent hi habs, hadd]
      rfl
  · obtain ⟨p, hget, hp⟩ := addFind_stored (C := C) hi habs
    refine ⟨(some p, true), [], ?_, hp⟩
    rw [add, run_bind hget, replay_nil, if_pos (Option.some_ne_none p)]
    rfl

/-- What `Add` does for a missing player of a full pool. -/
theorem add_full (hi : Hash.Inv C.toParams P B N m chains out free []) (habs : lookup m id = none)
    (hfull : size (lookup m) = N) :
    add C P id m = if C.testsNull then some ((none, false), []) else none := by
  rw [add_absent hi habs]
  rcases addAlloc_cases (C := C) hi habs with ⟨-, hadd⟩ | ⟨hroom, -⟩
  · rw [hadd]
    cases C.testsNull with
    | false => rfl
    | true => rfl
  · omega

theorem del_absent (hi : Hash.Inv C.toParams P B N m chains out free [])
    (habs : lookup m id = none) :
    del C P id m = none := by
  have hget : getProfile C P id m = some (none, []) := hi.get_none_iff.mpr habs
  rw [del, run_bind hget]
  rfl

/-- `Del` of a player in the pool. -/
theorem del_stored (hi : Hash.Inv C.toParams P B N m chains out free [])
    (hin : lookup m id ≠ none) : ∃ ws, del C P id m = some (OK, ws) ∧
      Hash.free C.toParams P id m = some (OK, ws) := by
  rcases hi.free_cases id with ⟨-, hnone⟩ | ⟨o, xs, ys, v, ho, -, hk, -, hfree⟩
  · exact absurd hnone hin
  · have hget : getProfile C P id m = some (some (nodeAt P o), []) := by
      rw [getProfile]
      exact hi.get_iff.mpr ⟨o, ho, hk, rfl⟩
    have hdestroy : destroy C P (some (nodeAt P o)) m = some ((), []) := by
      rw [destroy, node_eq hi.pool.toFits (hi.pool.inside (Or.inl ho)), run_read_bind]
      rfl
    refine ⟨_, ?_, hfree⟩
    rw [del, run_bind hget, replay_nil, delFree, run_bind hdestroy, replay_nil, hfree]
    simp only [Option.map_some, List.nil_append]

theorem deref_ends {p : Option Nat} (hf : Fits P N C.nodeSize) (hp : Stored C P p) :
    Ends (deref C P p) m fun _ m' => m' = m := by
  obtain ⟨o, rfl, ho⟩ := hp
  rw [deref, node_eq hf ho]
  simp

theorem assign_ends {p : Option Nat} (hf : Fits P N C.nodeSize) (hp : Stored C P p) (v : V) :
    Ends (assign C P v p) m fun _ _ => True := by
  obtain ⟨o, rfl, ho⟩ := hp
  exact ⟨(), _, setValue_run hf ho v, trivial⟩

end PlayerDataMgr

section Callers

variable {W : Type} {cdc : Codec W} {C : Build PProfile} {P : Mapping} {B N : Nat}
  {m : Hash.Mem PProfile} {chains : Nat → List Nat} {out free : List Nat} {id : UInt64}

theorem initProfile_ends (hi : Hash.Inv C.toParams P B N m chains out free []) {req : RegReq}
    {uid now : Int} (h : lookup m (idOf (Register.playerID req uid)) ≠ none ∨
      size (lookup m) < N) :
    Ends (Register.initProfile C P req uid now) m fun r _ => Stored C P r.1 := by
  rw [Register.initProfile, ends_bind]
  refine (add_ends (C := C) hi h).mono fun r m' hr => ?_
  obtain ⟨p, exist⟩ := r
  have hp := hr
  obtain ⟨o, rfl, ho⟩ := hr
  cases exist with
  | true => exact ends_pure.mpr hp
  | false =>
      rw [ends_bind]
      exact (assign_ends hi.pool.toFits hp _).mono fun _ _ _ => ends_pure.mpr hp

/-- `SetProfile` gets past `_p_profile` where the player is in the pool or there is room. -/
theorem setProfile_ends (hi : Hash.Inv C.toParams P B N m chains out free []) {req : RegReq}
    {uid now : Int} (h : lookup m (idOf (Register.playerID req uid)) ≠ none ∨
      size (lookup m) < N) :
    Ends (Register.setProfile C P cdc req uid now) m fun _ _ => True := by
  rw [Register.setProfile, ends_bind]
  refine (initProfile_ends hi h).mono fun r m' hr => ?_
  rw [ends_bind]
  exact (deref_ends hi.pool.toFits hr).mono fun _ _ _ => ends_pure.mpr trivial

theorem setProfile_full (hi : Hash.Inv C.toParams P B N m chains out free []) {req : RegReq}
    {uid now : Int} (habs : lookup m (idOf (Register.playerID req uid)) = none)
    (hfull : size (lookup m) = N) : Register.setProfile C P cdc req uid now m = none := by
  have hadd := add_full (C := C) hi habs hfull
  rw [Register.setProfile]
  cases htest : C.testsNull with
  | false =>
      rw [htest, if_neg Bool.false_ne_true] at hadd
      rw [run_none (by rw [Register.initProfile, run_none hadd])]
  | true =>
      rw [htest, if_pos rfl] at hadd
      have hinit : Register.initProfile C P req uid now m = some ((none, -1), []) := by
        rw [Register.initProfile, run_bind hadd]
        rfl
      rw [run_bind hinit]
      rfl

/-- The callback of `SetProfile` after a failed command, where the player of the profile has
left the pool in the meantime. -/
theorem gotProfileReply_absent (hi : Hash.Inv C.toParams P B N m chains out free []) {o : Nat}
    (ho : Inside P C.nodeSize o)
    (habs : lookup m (idOf (m.valueOf (o + Fixed.NODE_OFFSET)).playerId) = none) :
    Register.gotProfileReply C P (some (nodeAt P o)) false m = none := by
  have hderef : deref C P (some (nodeAt P o)) m =
      some (m.valueOf (o + Fixed.NODE_OFFSET), []) := by
    rw [deref, node_eq hi.pool.toFits ho, run_read_bind]
    rfl
  rw [Register.gotProfileReply, run_bind hderef, replay_nil, if_neg Bool.false_ne_true,
    run_none (del_absent hi habs)]
  rfl

theorem gotReply_ends (hi : Hash.Inv C.toParams P B N m chains out free []) {req : LoginReq}
    {profile : PProfile} (h : lookup m (idOf req.playerID) ≠ none ∨ size (lookup m) < N) :
    Ends (Login.gotReply C P req profile) m fun _ _ => True := by
  rw [Login.gotReply, ends_bind]
  refine (add_ends (C := C) hi h).mono fun r m' hr => ?_
  obtain ⟨p, exist⟩ := r
  cases exist with
  | true => exact ends_pure.mpr trivial
  | false =>
      rw [ends_bind]
      refine (assign_ends hi.pool.toFits hr _).mono fun _ _ _ => ?_
      rw [ends_bind]
      exact (deref_ends hi.pool.toFits hr).mono fun _ _ _ => ends_pure.mpr trivial

theorem gotReply_full (hi : Hash.Inv C.toParams P B N m chains out free []) {req : LoginReq}
    {profile : PProfile} (habs : lookup m (idOf req.playerID) = none)
    (hfull : size (lookup m) = N) : Login.gotReply C P req profile m = none := by
  have hadd := add_full (C := C) hi habs hfull
  rw [Login.gotReply]
  cases htest : C.testsNull with
  | false =>
      rw [htest, if_neg Bool.false_ne_true] at hadd
      rw [run_none hadd]
  | true =>
      rw [htest, if_pos rfl] at hadd
      rw [run_bind hadd]
      rfl

/-- A full pool and an absent player are failures that every function reports, with the pool
as it was. -/
structure HandlesMissing (cdc : Codec W) (C : Build PProfile) (P : Mapping) (N : Nat)
    (m : Hash.Mem PProfile) (id : UInt64) : Prop where
  add : lookup m id = none → size (lookup m) = N → ∃ exist,
    add C P id m = some ((none, exist), [])
  del : lookup m id = none → del C P id m = some (-1, [])
  setProfile : lookup m id = none → size (lookup m) = N → ∀ req uid now,
    idOf (Register.playerID req uid) = id →
      ∃ r, Register.setProfile C P cdc req uid now m = some (r, [])
  gotReply : lookup m id = none → size (lookup m) = N → ∀ (req : LoginReq) profile,
    idOf req.playerID = id → ∃ r, Login.gotReply C P req profile m = some (r, [])

theorem HandlesMissing.of_stored (h : lookup m id ≠ none) : HandlesMissing cdc C P N m id :=
  ⟨fun habs => absurd habs h, fun habs => absurd habs h, fun habs => absurd habs h,
    fun habs => absurd habs h⟩

theorem HandlesMissing.stored (hi : Hash.Inv C.toParams P B N m chains out free [])
    (h : HandlesMissing cdc C P N m id) : lookup m id ≠ none := by
  intro habs
  have hdel := h.del habs
  rw [del_absent hi habs] at hdel
  cases hdel

end Callers

section Returns

variable {W : Type} {cdc : Codec W} {C : Build PProfile} {P : Mapping} {B N : Nat}
  {m : Hash.Mem PProfile} {chains : Nat → List Nat} {out free : List Nat} {id : UInt64}

/-- The player is in the pool, or there is a block for it. -/
def HasRoom (N : Nat) (m : Hash.Mem PProfile) (id : UInt64) : Prop :=
  lookup m id ≠ none ∨ size (lookup m) < N

theorem not_hasRoom (hi : Hash.Inv C.toParams P B N m chains out free []) :
    ¬ HasRoom N m id ↔ lookup m id = none ∧ size (lookup m) = N := by
  have hsize : size (lookup m) = out.length := hi.count_keys
  have hcount := hi.pool.count_eq
  have hle := hi.pool.allocNode
  rw [HasRoom, not_or, not_not]
  exact and_congr_right fun _ => ⟨fun h => by omega, fun h => by omega⟩

theorem returns_iff {α : Type} {x : Hash.Act PProfile α} {Q : α → Hash.Mem PProfile → Prop}
    (hi : Hash.Inv C.toParams P B N m chains out free []) (ends : HasRoom N m id → Ends x m Q)
    (full : lookup m id = none → size (lookup m) = N → x m = none) :
    (∃ r, x m = some r) ↔ HasRoom N m id := by
  constructor
  · rintro ⟨r, hr⟩
    by_contra hroom
    obtain ⟨habs, hfull⟩ := (not_hasRoom hi).mp hroom
    rw [full habs hfull] at hr
    cases hr
  · intro hroom
    obtain ⟨a, ws, hx, -⟩ := ends hroom
    exact ⟨_, hx⟩

theorem del_returns (hi : Hash.Inv C.toParams P B N m chains out free []) :
    (∃ r, del C P id m = some r) ↔ lookup m id ≠ none := by
  constructor
  · rintro ⟨r, hr⟩ habs
    rw [del_absent hi habs] at hr
    cases hr
  · intro hin
    obtain ⟨ws, hdel, -⟩ := del_stored hi hin
    exact ⟨_, hdel⟩

theorem add_returns (hi : Hash.Inv C.toParams P B N m chains out free []) :
    (∃ r, add C P id m = some r) ↔ HasRoom N m id ∨ C.testsNull := by
  by_cases hroom : HasRoom N m id
  · obtain ⟨a, ws, hadd, -⟩ := add_ends (C := C) hi hroom
    exact ⟨fun _ => Or.inl hroom, fun _ => ⟨_, hadd⟩⟩
  · obtain ⟨habs, hfull⟩ := (not_hasRoom hi).mp hroom
    rw [add_full (C := C) hi habs hfull]
    cases C.testsNull with
    | false => simpa using hroom
    | true => simp

/-- `Del` needs the player in the pool, both transactions need the player or room for it, and
`Add` needs one of these or a compiler that tests the pointer. All of them handle a missing
profile only where none is missing. -/
theorem handlesMissing_iff {M : Mapping} {tr : List (Op PProfile × Res × (Nat → PProfile))}
    (hM : Mapped C.toParams M B N) (hrun : Hash.Run C.toParams M B N tr m) (id : UInt64) :
    (HandlesMissing cdc C (poolAt M B) N m id ↔ lookup m id ≠ none) ∧
    ((∃ r, del C (poolAt M B) id m = some r) ↔ lookup m id ≠ none) ∧
    ((∃ r, add C (poolAt M B) id m = some r) ↔ HasRoom N m id ∨ C.testsNull) ∧
    (∀ req uid now, idOf (Register.playerID req uid) = id →
      ((∃ r, Register.setProfile C (poolAt M B) cdc req uid now m = some r) ↔ HasRoom N m id)) ∧
    ∀ (req : LoginReq) profile, idOf req.playerID = id →
      ((∃ r, Login.gotReply C (poolAt M B) req profile m = some r) ↔ HasRoom N m id) := by
  obtain ⟨⟨chains, out, free, hi, -⟩, -⟩ := run_good hM hrun
  refine ⟨⟨fun h => h.stored hi, .of_stored⟩, del_returns hi, add_returns hi, ?_, ?_⟩
  · intro req uid now hid
    subst hid
    exact returns_iff hi (setProfile_ends hi) (setProfile_full hi)
  · intro req profile hid
    subst hid
    exact returns_iff hi (gotReply_ends hi) (gotReply_full hi)

def smallBuild : Build PProfile where
  nodeSize := 24
  zeroed := ⟨⟨0, 0⟩, ⟨0, 0, 0, 0⟩, ⟨0⟩, ⟨"", 0, 0, 0⟩⟩
  constructed := ⟨⟨0, 0⟩, ⟨0, 0, 0, 0⟩, ⟨0⟩, ⟨"", 0, 0, 0⟩⟩
  testsNull := true

def blankCodec : Codec Nat where
  one := 1
  reginfo := fun _ => 0
  profile := fun _ => 0
  parseProfile := fun _ => none
  byteSize := fun _ => 0

def blankMem : Hash.Mem PProfile where
  bucketNum := 0
  maxNode := 0
  nodeNum := 0
  nodeSize := 0
  buckets := fun _ => 0
  pool := ⟨0, 0, 0, 0, 0, 0, 0, fun _ => 0, fun _ => ⟨0, smallBuild.zeroed, 0⟩⟩

theorem smallBuild_mapped : Mapped smallBuild.toParams smallMapping 3 2 :=
  ⟨by decide, by decide, by decide, by decide, by decide, by decide⟩

/-- The player with the id 7 is in the pool. -/
theorem handlesMissing_seven : ∃ tr m,
    Hash.Run smallBuild.toParams smallMapping 3 2 tr m ∧
      HandlesMissing blankCodec smallBuild (poolAt smallMapping 3) 2 m 7 := by
  obtain ⟨tr, m, hrun, hstored⟩ :=
    run_insert smallBuild_mapped (by decide) blankMem 7 smallBuild.constructed
  refine ⟨tr, m, hrun, (handlesMissing_iff smallBuild_mapped hrun 7).1.mpr ?_⟩
  rw [hstored, Function.update_self]
  simp

/-- Nothing handles the missing player with the id 9. -/
theorem missing_nine : ∃ tr m, Hash.Run smallBuild.toParams smallMapping 3 2 tr m ∧
    ¬ HandlesMissing blankCodec smallBuild (poolAt smallMapping 3) 2 m 9 := by
  obtain ⟨tr, m, hrun, hstored⟩ :=
    run_insert smallBuild_mapped (by decide) blankMem 7 smallBuild.constructed
  obtain ⟨⟨chains, out, free, hi, -⟩, -⟩ := run_good smallBuild_mapped hrun
  refine ⟨tr, m, hrun, fun h => h.stored hi ?_⟩
  rw [hstored, Function.update_of_ne (by decide)]

end Returns

end Missing

end Jump.GameServer.ProfilePool
