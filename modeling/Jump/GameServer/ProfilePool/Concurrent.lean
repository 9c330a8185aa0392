import Jump.GameServer.ProfilePool.Code
import Mathlib.Logic.Relation

/-! # Calls of `PlayerDataMgr` side by side

The sections between lock and unlock are atomic. `Add` has two of them, and other
calls can run in between.
-/

namespace Jump.GameServer.ProfilePool

open Jump.Core Prog Jump.MemPool Jump.MemPool.Hash
open Jump.MemPool.Fixed (Mapping Fits Inside nodeAt)

/-- Where a caller stands: `added` behind the read lock of `Add`, which found nothing, and
`deleting` behind the `GetProfile` of `Del`. -/
inductive Phase where
  | idle
  | added (id : UInt64)
  | deleting (id : UInt64) (profile : Option Nat)
deriving DecidableEq

/-- What the calls returned, and which players `Del` took out of the pool. -/
inductive Event where
  | added (id : UInt64) (profile : Option Nat) (exist : Bool)
  | found (id : UInt64) (profile : Option Nat)
  | removed (id : UInt64)
deriving DecidableEq

/-- The last event is the first of `log`. -/
structure State (V : Type) where
  mem : Hash.Mem V
  phase : Nat → Phase
  log : List Event

namespace State

variable {V : Type}

def start (m : Hash.Mem V) : State V where
  mem := m
  phase := fun _ => .idle
  log := []

/-- Caller `i` leaves a section with the memory `m`. -/
def leave (s : State V) (m : Hash.Mem V) (i : Nat) (phase : Phase) (events : List Event) :
    State V where
  mem := m
  phase := Function.update s.phase i phase
  log := events ++ s.log

end State

/-- A section that a caller enters. -/
inductive Section where
  | addFind (id : UInt64)
  | addAlloc (id : UInt64)
  | getProfile (id : UInt64)
  | delFind (id : UInt64)
  | delFree (id : UInt64)

/-- One section, from lock to unlock. The process does not go on where a section ends it. -/
inductive Step {V : Type} (C : Build V) (P : Mapping) (i : Nat) :
    Section → State V → State V → Prop where
  | addHit {s : State V} {id : UInt64} {p : Nat} {ws : List (Hash.Write V)} :
      s.phase i = .idle → addFind C P id s.mem = some (some p, ws) →
      Step C P i (.addFind id) s (s.leave (replay ws s.mem) i .idle [.added id (some p) true])
  | addMiss {s : State V} {id : UInt64} {ws : List (Hash.Write V)} :
      s.phase i = .idle → addFind C P id s.mem = some (none, ws) →
      Step C P i (.addFind id) s (s.leave (replay ws s.mem) i (.added id) [])
  | addAlloc {s : State V} {id : UInt64} {p : Option Nat} {ws : List (Hash.Write V)} :
      s.phase i = .added id → addAlloc C P id s.mem = some (p, ws) →
      Step C P i (.addAlloc id) s (s.leave (replay ws s.mem) i .idle [.added id p false])
  | getProfile {s : State V} {id : UInt64} {p : Option Nat} {ws : List (Hash.Write V)} :
      s.phase i = .idle → getProfile C P id s.mem = some (p, ws) →
      Step C P i (.getProfile id) s (s.leave (replay ws s.mem) i .idle [.found id p])
  | delFind {s : State V} {id : UInt64} {p : Option Nat} {ws : List (Hash.Write V)} :
      s.phase i = .idle → getProfile C P id s.mem = some (p, ws) →
      Step C P i (.delFind id) s (s.leave (replay ws s.mem) i (.deleting id p) [])
  | delFree {s : State V} {id : UInt64} {p : Option Nat} {r : Int} {ws : List (Hash.Write V)} :
      s.phase i = .deleting id p → delFree C P id p s.mem = some (r, ws) →
      Step C P i (.delFree id) s
        (s.leave (replay ws s.mem) i .idle (if r = OK then [.removed id] else []))

/-- The second section of `Add` is entered where the player is still missing and a block is
left. -/
def Meets {V : Type} (N : Nat) (s : State V) : Section → Prop
  | .addAlloc id => lookup s.mem id = none ∧ size (lookup s.mem) < N
  | _ => True

/-! ## What the calls of `Add` agree on -/

/-- What `Add` returned for a player since it last left the pool. -/
def addsSince (id : UInt64) : List Event → List (Option Nat × Bool)
  | [] => []
  | .added id' p exist :: log =>
      if id' = id then (p, exist) :: addsSince id log else addsSince id log
  | .found _ _ :: log => addsSince id log
  | .removed id' :: log => if id' = id then [] else addsSince id log

/-- The calls return one profile, and one of them has made it. -/
def Agree (adds : List (Option Nat × Bool)) : Prop :=
  adds = [] ∨ ∃ p : Nat, (∀ r ∈ adds, r.1 = some p) ∧ adds.countP (fun r => !r.2) = 1

/-- The player was missing at the start, or has left the pool. -/
def WasMissing {V : Type} (m : Hash.Mem V) (log : List Event) (id : UInt64) : Prop :=
  lookup m id = none ∨ .removed id ∈ log

/-- What `Add` returned since a player was missing, and the pointer that the pool has for it. -/
def Tracked (adds : List (Option Nat × Bool)) : Option Nat → Prop
  | none => adds = []
  | some p => (∀ r ∈ adds, r.1 = some p) ∧ adds.countP (fun r => !r.2) = 1

theorem Tracked.agree {adds : List (Option Nat × Bool)} {q : Option Nat} (h : Tracked adds q) :
    Agree adds := by
  cases q with
  | none => exact Or.inl h
  | some p => exact Or.inr ⟨p, h⟩

section Sound

variable {V : Type} {C : Build V} {P : Mapping} {B N : Nat} {m : Hash.Mem V} {s s' : State V}

/-- The pool is sound, and knows the pointers that were returned. -/
structure Sound (C : Build V) (P : Mapping) (B N : Nat) (m : Hash.Mem V) (s : State V) : Prop where
  pool : ∃ chains out free, Hash.Inv C.toParams P B N s.mem chains out free []
  tracked : ∀ id q, WasMissing m s.log id → Hash.get C.toParams P id s.mem = some (q, []) →
    Tracked (addsSince id s.log) q

theorem get_quiet {chains : Nat → List Nat} {out free lost : List Nat} {id : UInt64}
    (hi : Hash.Inv C.toParams P B N m chains out free lost) {q : Option Nat}
    {ws : List (Hash.Write V)} (h : Hash.get C.toParams P id m = some (q, ws)) : ws = [] := by
  rcases hi.get_cases id with ⟨hrun, -⟩ | ⟨o, -, -, -, -, hrun⟩
  · rw [hrun] at h
    cases h
    rfl
  · rw [hrun] at h
    cases h
    rfl

theorem destroy_some {p : Option Nat} {u : Unit} {ws : List (Hash.Write V)}
    (h : destroy C P p m = some (u, ws)) : ws = [] := by
  cases p with
  | none => cases h
  | some p =>
      have hnode : Emits (Hash.node C.toParams P p) fun _ => False := emits_read.ite emits_stuck
      exact (hnode.bind fun _ => emits_pure).quiet h

/-- A section that only looks leaves the state sound, whatever event it logs of other players. -/
theorem Sound.look (hs : Sound C P B N m s) {i : Nat} {phase : Phase} {events : List Event}
    (hmiss : ∀ id, WasMissing m (events ++ s.log) id → WasMissing m s.log id)
    (hadds : ∀ id q, Hash.get C.toParams P id s.mem = some (q, []) →
      Tracked (addsSince id s.log) q → Tracked (addsSince id (events ++ s.log)) q) :
    Sound C P B N m (s.leave s.mem i phase events) where
  pool := hs.pool
  tracked id q hm hget := hadds id q hget (hs.tracked id q (hmiss id hm) hget)

theorem Sound.addAlloc (hs : Sound C P B N m s) {i : Nat} {id : UInt64} {p : Option Nat}
    {ws : List (Hash.Write V)} (hmeets : Meets N s (.addAlloc id))
    (hrun : addAlloc C P id s.mem = some (p, ws)) :
    Sound C P B N m (s.leave (replay ws s.mem) i .idle [.added id p false]) := by
  obtain ⟨chains, out, free, hi⟩ := hs.pool
  obtain ⟨habs, hroom⟩ := hmeets
  rcases addAlloc_cases (C := C) hi habs with ⟨hfull, -⟩ | ⟨-, p', ws', hins, hadd⟩
  · omega
  · rw [hrun] at hadd
    cases hadd
    obtain ⟨o, chains', free', -, -, hi', -⟩ := hi.insert_cells _ hins
    obtain ⟨hself, hother⟩ := hi.insert_get hins
    refine ⟨⟨chains', o :: out, free', hi'⟩, fun other q hm hget => ?_⟩
    have hm' : WasMissing m s.log other := hm.imp_right fun h => by
      simpa [State.leave] using h
    change Hash.get C.toParams P other (replay ws s.mem) = some (q, []) at hget
    change Tracked (addsSince other (.added id (some p') false :: s.log)) q
    rw [addsSince]
    by_cases he : id = other
    · subst he
      have hnone := hs.tracked id none hm' (hi.get_none_iff.mpr habs)
      rw [hself] at hget
      cases hget
      rw [if_pos rfl, show addsSince id s.log = [] from hnone]
      simp [Tracked]
    · rw [if_neg he]
      rw [hother other (Ne.symm he)] at hget
      exact hs.tracked other q hm' hget

theorem Sound.delFree (hs : Sound C P B N m s) {i : Nat} {id : UInt64} {p : Option Nat} {r : Int}
    {ws : List (Hash.Write V)} (hrun : delFree C P id p s.mem = some (r, ws)) :
    Sound C P B N m
      (s.leave (replay ws s.mem) i .idle (if r = OK then [.removed id] else [])) := by
  obtain ⟨chains, out, free, hi⟩ := hs.pool
  obtain ⟨u, ws₁, ws₂, hdestroy, hfree, rfl⟩ := bind_eq_some.mp hrun
  obtain rfl := destroy_some hdestroy
  rw [replay_nil] at hfree
  rw [List.nil_append]
  obtain ⟨⟨chains', out', free', hi', -⟩, -, -⟩ := hi.free_cells hfree
  obtain ⟨hself, hother⟩ := hi.free_get hfree
  refine ⟨⟨chains', out', free', hi'⟩, fun other q hm hget => ?_⟩
  change Hash.get C.toParams P other (replay ws₂ s.mem) = some (q, []) at hget
  change Tracked (addsSince other ((if r = OK then [.removed id] else []) ++ s.log)) q
  by_cases he : id = other
  · subst he
    rw [hself] at hget
    cases hget
    rcases hi.free_cases id with ⟨habs, hnone⟩ | ⟨o, xs, ys, v, -, -, -, -, hfound⟩
    · rw [hfree] at habs
      cases habs
      exact hs.tracked id none hm (hi.get_none_iff.mpr hnone)
    · rw [hfree] at hfound
      cases hfound
      simp [Tracked, addsSince]
  · rw [hother other (Ne.symm he)] at hget
    have hlog : addsSince other ((if r = OK then [.removed id] else []) ++ s.log) =
        addsSince other s.log := by
      split
      next => exact if_neg he
      next => rfl
    have hm' : WasMissing m s.log other := hm.imp_right fun h => by
      simp only [State.leave, List.mem_append] at h
      refine h.resolve_left fun hnew => ?_
      split at hnew
      next =>
        have hid : other = id := by simpa using hnew
        exact he hid.symm
      next => cases hnew
    rw [hlog]
    exact hs.tracked other q hm' hget

theorem Sound.step {i : Nat} {sec : Section} (hs : Sound C P B N m s)
    (hstep : Step C P i sec s s') (hmeets : Meets N s sec) : Sound C P B N m s' := by
  obtain ⟨chains, out, free, hi⟩ := hs.pool
  cases hstep with
  | @addHit _ id p ws hphase hrun =>
      obtain rfl := get_quiet hi hrun
      refine hs.look (fun other h => h.imp_right fun h => by simpa using h)
        fun other q hget ht => ?_
      change Tracked (addsSince other (.added id (some p) true :: s.log)) q
      rw [addsSince]
      split
      next he =>
        subst he
        obtain rfl : some p = q := by
          rw [show Hash.get C.toParams P id s.mem = _ from hrun] at hget
          cases hget
          rfl
        obtain ⟨hall, hcount⟩ := ht
        exact ⟨List.forall_mem_cons.mpr ⟨rfl, hall⟩, by rw [List.countP_cons]; simpa using hcount⟩
      next => exact ht
  | addMiss hphase hrun =>
      obtain rfl := get_quiet hi hrun
      exact hs.look (fun _ h => h) fun _ _ _ h => h
  | addAlloc hphase hrun => exact hs.addAlloc hmeets hrun
  | getProfile hphase hrun =>
      obtain rfl := get_quiet hi hrun
      exact hs.look (fun other h => h.imp_right fun h => by simpa using h) fun _ _ _ h => h
  | delFind hphase hrun =>
      obtain rfl := get_quiet hi hrun
      exact hs.look (fun _ h => h) fun _ _ _ h => h
  | delFree hphase hrun => exact hs.delFree hrun

/-- One section whose condition holds. -/
def MeetingStep (C : Build V) (P : Mapping) (N : Nat) (s s' : State V) : Prop :=
  ∃ i sec, Step C P i sec s s' ∧ Meets N s sec

/-- The calls of `Add` for a missing player agree in every run in which no `Add` enters its
second section for a player who is in the pool by then, or with the pool full. Such a second
section returns. -/
theorem adds_agree {M : Mapping} {tr : List (Op V × Res × (Nat → V))}
    (hM : Mapped C.toParams M B N) (hrun : Hash.Run C.toParams M B N tr m)
    (hsteps : Relation.ReflTransGen (MeetingStep C (poolAt M B) N) (.start m) s) :
    (∀ id, WasMissing m s.log id → Agree (addsSince id s.log)) ∧
    ∀ id, Meets N s (.addAlloc id) → ∃ p ws, addAlloc C (poolAt M B) id s.mem =
      some (some p, ws) := by
  obtain ⟨⟨chains, out, free, hi, -⟩, -⟩ := run_good hM hrun
  have hsound : Sound C (poolAt M B) B N m s := by
    induction hsteps with
    | refl =>
        refine ⟨⟨chains, out, free, hi⟩, fun id q hm hget => ?_⟩
        have hnone : lookup m id = none := hm.resolve_right List.not_mem_nil
        rw [show Hash.get C.toParams (poolAt M B) id (State.start m).mem = _ from
          hi.get_none_iff.mpr hnone] at hget
        cases hget
        rfl
    | tail _ hstep ih =>
        obtain ⟨i, sec, hone, hmeets⟩ := hstep
        exact ih.step hone hmeets
  obtain ⟨chains', out', free', hi'⟩ := hsound.pool
  constructor
  · intro id hm
    rcases hi'.get_cases id with ⟨hget, -⟩ | ⟨o, -, -, -, -, hget⟩
    · exact (hsound.tracked id _ hm hget).agree
    · exact (hsound.tracked id _ hm hget).agree
  · intro id hmeets
    rcases addAlloc_cases (C := C) hi' hmeets.1 with ⟨hfull, -⟩ | ⟨-, p, ws, -, hadd⟩
    · have hroom := hmeets.2
      omega
    · exact ⟨p, ws, hadd⟩

end Sound

/-- The first `Add` for the player 9 in an empty pool, up to its second section. -/
theorem add_nine : ∃ (m : Hash.Mem PProfile) (p : Nat) (ws : List (Hash.Write PProfile)),
    Hash.Run smallBuild.toParams smallMapping 3 2 [] m ∧ Meets 2 (.start m) (.addAlloc 9) ∧
      addFind smallBuild (poolAt smallMapping 3) 9 m = some (none, []) ∧
      addAlloc smallBuild (poolAt smallMapping 3) 9 m = some (some p, ws) ∧
      addFind smallBuild (poolAt smallMapping 3) 9 (replay ws m) = some (some p, []) ∧
      addAlloc smallBuild (poolAt smallMapping 3) 9 (replay ws m) = some (none, []) := by
  obtain ⟨r, ws₀, hinit, rfl, ⟨chains, out, free, hi, -⟩, hempty⟩ :=
    init_ends (m := blankMem) smallBuild_mapped
  have habs : lookup (replay ws₀ blankMem) 9 = none := congrFun hempty 9
  have hroom : size (lookup (replay ws₀ blankMem)) < 2 := by
    rw [hempty, size]
    simp
  rcases addAlloc_cases (C := smallBuild) hi habs with ⟨hfull, -⟩ | ⟨-, p, ws, hins, hadd⟩
  · omega
  · obtain ⟨o, chains', free', -, -, hi', hk, -⟩ := hi.insert_cells _ hins
    have hin : lookup (replay ws (replay ws₀ blankMem)) 9 ≠ none :=
      hi'.lookup_ne_none.mpr ⟨o, List.mem_cons_self, hk⟩
    exact ⟨_, p, ws, .init hinit, ⟨habs, hroom⟩, hi.get_none_iff.mpr habs, hadd,
      (hi.insert_get hins).1, addAlloc_null (alloc_present hi' hin)⟩

/-- Two calls of `Add` for the player 9, one behind the other. -/
theorem adds_agree_nine : ∃ (m : Hash.Mem PProfile) (s : State PProfile) (p : Nat),
    Relation.ReflTransGen (MeetingStep smallBuild (poolAt smallMapping 3) 2) (.start m) s ∧
      addsSince 9 s.log = [(some p, true), (some p, false)] ∧ Agree (addsSince 9 s.log) := by
  obtain ⟨m, p, ws, hrun, hmeets, hmiss, halloc, hhit, -⟩ := add_nine
  have h₁ := Step.addMiss (i := 0) (s := .start m) rfl hmiss
  have h₂ := Step.addAlloc (i := 0) (s := (State.start m).leave m 0 (.added 9) []) rfl halloc
  have h₃ := Step.addHit (i := 1) (s := ((State.start m).leave m 0 (.added 9) []).leave
    (replay ws m) 0 .idle [.added 9 (some p) false]) rfl hhit
  have hsteps : Relation.ReflTransGen (MeetingStep smallBuild (poolAt smallMapping 3) 2)
      (.start m) _ :=
    ((Relation.ReflTransGen.single ⟨0, _, h₁, trivial⟩).tail ⟨0, _, h₂, hmeets⟩).tail
      ⟨1, _, h₃, trivial⟩
  exact ⟨m, _, p, hsteps, rfl,
    (adds_agree smallBuild_mapped hrun hsteps).1 9 (Or.inl hmeets.1)⟩

/-- Two calls find the player 9 missing before one of them adds it: the other returns no
profile. -/
theorem adds_disagree : ∃ (m : Hash.Mem PProfile) (s : State PProfile),
    Hash.Run smallBuild.toParams smallMapping 3 2 [] m ∧ lookup m 9 = none ∧
      Relation.ReflTransGen (fun s s' => ∃ i sec, Step smallBuild
        (poolAt smallMapping 3) i sec s s')
        (.start m) s ∧ ¬ Agree (addsSince 9 s.log) := by
  obtain ⟨m, p, ws, hrun, hmeets, hmiss, halloc, -, hnull⟩ := add_nine
  have h₁ := Step.addMiss (i := 0) (s := .start m) rfl hmiss
  have h₂ := Step.addMiss (i := 1) (s := (State.start m).leave m 0 (.added 9) []) rfl hmiss
  have h₃ := Step.addAlloc (i := 0) (s := ((State.start m).leave m 0 (.added 9) []).leave m 1
    (.added 9) []) rfl halloc
  have h₄ := Step.addAlloc (i := 1) (s := (((State.start m).leave m 0 (.added 9) []).leave m 1
    (.added 9) []).leave (replay ws m) 0 .idle [.added 9 (some p) false]) rfl hnull
  refine ⟨m, _, hrun, hmeets.1, (((Relation.ReflTransGen.single ⟨0, _, h₁⟩).tail ⟨1, _, h₂⟩).tail
    ⟨0, _, h₃⟩).tail ⟨1, _, h₄⟩, fun hagree => ?_⟩
  rcases hagree with hnil | ⟨q, hall, -⟩
  · cases hnil
  · have hfirst := hall (none, false) List.mem_cons_self
    cases hfirst

end Jump.GameServer.ProfilePool
