import Jump.Core.StableQueue
import Jump.Skynet.TimerWheel.Wheel

/-! # The wheel is a sorted queue

Between two runs of `timer_update` the timers dispatched are those that a stable queue
sorted by expiry gives out, and the timers of a tick are dispatched in it.
-/

namespace Jump.Skynet.TimerWheel

open Jump.Core Jump.Core.StableQueue

/-- The nodes in the hands of `dispatch_list`. -/
def Pc.inHand : Pc → List TimerNode
  | .dispatch _ _ current next => current :: next
  | _ => []

/-- Before the second `timer_execute` of a tick has looked at its list. -/
def Pc.fresh : Pc → Bool
  | .execute true => true
  | _ => false

/-- The list that the loop of `timer_execute` looks at again. -/
def Pc.idx : Pc → Option Nat
  | .dispatch _ idx _ _ => some idx
  | .again _ idx => some idx
  | _ => none

namespace State

/-- The timers that wait in the wheel. -/
def waiting (s : State) : List (Nat × TimerNode) :=
  if s.pc.fresh then s.added.filter fun x => s.ticks ≤ x.1
  else s.added.filter fun x => s.ticks < x.1

/-- The last tick whose timers have left the wheel. -/
def done (s : State) : Nat := if s.pc.fresh then s.ticks - 1 else s.ticks

end State

structure Good (time₀ : Nat) (s : State) : Prop where
  wheel : Wheel time₀ s.ticks s.T s.waiting
  expire : ∀ x ∈ s.added, x.2.expire = u32 (time₀ + x.1)
  given : s.log ++ s.pc.inHand.map (fun n => (s.ticks, n)) = byKey s.done s.added
  started : s.pc.fresh = true → 0 < s.ticks
  idx : ∀ idx, s.pc.idx = some idx → idx = s.T.time &&& TIME_NEAR_MASK

namespace Good

variable {time₀ : Nat} {s : State}

theorem start (time : UInt32) : Good time.toNat (TimerWheel.start time) := by
  refine ⟨Wheel.start time, ?_, rfl, ?_, ?_⟩
  · intro x hx
    cases hx
  · intro h
    cases h
  · intro idx h
    cases h

theorem add (h : Good time₀ s) (event : TimerEvent) (time : Delay) :
    Good time₀ (step s (.add event time)) := by
  have hlater : s.ticks < s.ticks + time.1.toNat := by
    have hpos := time.2.1
    omega
  have hwheel := h.wheel.add event time
  refine ⟨?_, ?_, ?_, h.started, h.idx⟩
  · have hwaiting : (step s (.add event time)).waiting = s.waiting ++
        [(s.ticks + time.1.toNat, ⟨u32 (uint32OfInt time.1 + s.T.time), event⟩)] := by
      unfold State.waiting step
      simp only
      split
      · simp [hlater.le]
      · simp [hlater]
    rw [hwaiting]
    exact hwheel
  · intro x hx
    rcases List.mem_append.mp hx with hx | hx
    · exact h.expire x hx
    · refine hwheel.expire x ?_
      exact List.mem_append_right _ hx
  · have hdone : s.done < s.ticks + time.1.toNat := by
      unfold State.done
      split <;> omega
    show s.log ++ s.pc.inHand.map (fun n => (s.ticks, n)) = byKey s.done (s.added ++ _)
    rw [byKey_append hdone]
    exact h.given

/-- The list of this time is empty once its nodes have been taken. -/
theorem near_empty (h : Good time₀ s) (hfresh : s.pc.fresh = false) :
    s.T.list (.near (s.T.time &&& TIME_NEAR_MASK)) = [] := by
  rw [h.wheel.near_list, List.map_eq_nil_iff, List.filter_eq_nil_iff]
  intro x hx
  unfold State.waiting at hx
  rw [hfresh, if_neg (by decide)] at hx
  have hlater := (List.mem_filter.mp hx).2
  rw [decide_eq_true_eq] at hlater ⊢
  omega

/-- Nothing happens to the timers while the thread goes on to `pc`. -/
theorem go (h : Good time₀ s) {pc : Pc} (hfresh : pc.fresh = s.pc.fresh)
    (hhand : pc.inHand = s.pc.inHand)
    (hidx : ∀ idx, pc.idx = some idx → idx = s.T.time &&& TIME_NEAR_MASK) :
    Good time₀ { s with pc := pc } := by
  have hwaiting : ({ s with pc := pc } : State).waiting = s.waiting := by
    unfold State.waiting
    rw [hfresh]
  have hdone : ({ s with pc := pc } : State).done = s.done := by
    unfold State.done
    rw [hfresh]
  refine ⟨?_, h.expire, ?_, ?_, hidx⟩
  · rw [hwaiting]
    exact h.wheel
  · rw [hdone]
    simp only [hhand]
    exact h.given
  · intro hpc
    simp only [hfresh] at hpc
    exact h.started hpc

theorem executeSection_eq {second : Bool} {idx : Nat}
    (hempty : s.T.list (.near idx) = []) : executeSection s second idx =
      { s with pc := if second then .idle else .shift } := by
  unfold executeSection
  rw [hempty]

/-- The second look at the list, and the first `timer_execute` of a tick. -/
theorem again (h : Good time₀ s) (hfresh : s.pc.fresh = false) (hhand : s.pc.inHand = [])
    (second : Bool) :
    Good time₀ (executeSection s second (s.T.time &&& TIME_NEAR_MASK)) := by
  rw [executeSection_eq (h.near_empty hfresh)]
  apply h.go
  · rw [hfresh]
    cases second <;> rfl
  · rw [hhand]
    cases second <;> rfl
  · intro idx hidx
    cases second <;> cases hidx

/-- What expires with this tick is taken out of the wheel. -/
theorem execute (h : Good time₀ s) (hpc : s.pc = .execute true) :
    Good time₀ (executeSection s true (s.T.time &&& TIME_NEAR_MASK)) := by
  have hfresh : s.pc.fresh = true := by rw [hpc]; rfl
  have hpos := h.started hfresh
  have hwaiting : s.waiting = s.added.filter fun x => s.ticks ≤ x.1 := if_pos hfresh
  have hdone : s.done = s.ticks - 1 := if_pos hfresh
  have hlist := h.wheel.near_list
  have htake := h.wheel.take
  have hgiven := h.given
  have hhand : s.pc.inHand = [] := by rw [hpc]; rfl
  have hnow : s.waiting.filter (fun x => x.1 = s.ticks) = withKey s.ticks s.added := by
    rw [hwaiting, List.filter_filter]
    apply List.filter_congr
    intro x _
    by_cases hx : x.1 = s.ticks
    · simp [hx]
    · simp [hx]
  have hrest : s.waiting.filter (fun x => s.ticks < x.1) =
      s.added.filter fun x => s.ticks < x.1 := by
    rw [hwaiting, List.filter_filter]
    apply List.filter_congr
    intro x _
    by_cases hx : s.ticks < x.1
    · simp [hx, hx.le]
    · simp [hx]
  have hsucc : byKey s.ticks s.added = s.log ++ withKey s.ticks s.added := by
    rw [hdone, hhand, List.map_nil, List.append_nil] at hgiven
    rw [hgiven]
    obtain ⟨k, hk⟩ : ∃ k, s.ticks = k + 1 := ⟨s.ticks - 1, by omega⟩
    rw [hk]
    exact byKey_succ
  rw [hnow] at hlist
  rw [hrest] at htake
  have hpair : ((withKey s.ticks s.added).map Prod.snd).map (fun n => (s.ticks, n)) =
      withKey s.ticks s.added := by
    rw [List.map_map]
    calc (withKey s.ticks s.added).map ((fun n => (s.ticks, n)) ∘ Prod.snd)
        = (withKey s.ticks s.added).map id := by
          apply List.map_congr_left
          intro x hx
          rw [← (mem_withKey.mp hx).2]
          rfl
      _ = withKey s.ticks s.added := List.map_id _
  unfold executeSection
  cases hcase : s.T.list (.near (s.T.time &&& TIME_NEAR_MASK)) with
  | nil =>
      rw [hcase, eq_comm, List.map_eq_nil_iff] at hlist
      have hsame : (s.added.filter fun x => s.ticks ≤ x.1) =
          s.added.filter fun x => s.ticks < x.1 := by
        apply List.filter_congr
        intro x hx
        have hne : x.1 ≠ s.ticks := by
          intro heq
          have hmem := mem_withKey.mpr ⟨hx, heq⟩
          rw [hlist] at hmem
          cases hmem
        rw [decide_eq_decide]
        omega
      have hwheel := h.wheel
      rw [hwaiting, hsame] at hwheel
      refine ⟨hwheel, h.expire, ?_, ?_, ?_⟩
      · show s.log ++ [] = byKey s.ticks s.added
        rw [hsucc, hlist]
      · intro hidle
        cases hidle
      · intro idx hidx
        cases hidx
  | cons current next =>
      refine ⟨htake, h.expire, ?_, ?_, ?_⟩
      · show s.log ++ (current :: next).map (fun n => (s.ticks, n)) = byKey s.ticks s.added
        rw [hsucc, ← hcase, hlist, hpair]
      · intro hdispatch
        cases hdispatch
      · intro idx hidx
        exact (Option.some.inj hidx).symm

/-- The timers that wait for the next tick are those that waited for a later one. -/
theorem shift (h : Good time₀ s) (hpc : s.pc = .shift) : Good time₀ (updateStep s) := by
  have hfresh : s.pc.fresh = false := by rw [hpc]; rfl
  have hwaiting : s.waiting = s.added.filter fun x => s.ticks < x.1 := by
    unfold State.waiting
    rw [hfresh]
    rfl
  have hdone : s.done = s.ticks := by
    unfold State.done
    rw [hfresh]
    rfl
  have hgiven := h.given
  have hhand : s.pc.inHand = [] := by rw [hpc]; rfl
  rw [hdone, hhand] at hgiven
  have hshift := h.wheel.shift (by
    rw [hwaiting]
    intro x hx
    have hlater := (List.mem_filter.mp hx).2
    rwa [decide_eq_true_eq] at hlater)
  rw [hwaiting] at hshift
  unfold updateStep
  rw [hpc]
  refine ⟨hshift, h.expire, ?_, ?_, ?_⟩
  · exact hgiven
  · intro _
    exact Nat.succ_pos _
  · intro idx hidx
    cases hidx

theorem dispatch (h : Good time₀ s) {second : Bool} {idx : Nat} {current : TimerNode}
    {next : List TimerNode} (hpc : s.pc = .dispatch second idx current next) :
    Good time₀ (updateStep s) := by
  have hgiven := h.given
  have hwheel := h.wheel
  have hidx := h.idx idx (by rw [hpc]; rfl)
  unfold State.waiting at hwheel
  unfold State.done at hgiven
  rw [hpc] at hwheel hgiven
  unfold updateStep
  rw [hpc]
  cases next with
  | nil =>
      refine ⟨hwheel, h.expire, ?_, ?_, ?_⟩
      · show s.log ++ [(s.ticks, current)] ++ [] = byKey s.ticks s.added
        rw [List.append_nil]
        exact hgiven
      · intro hfresh
        cases hfresh
      · intro i hi
        rw [← Option.some.inj hi]
        exact hidx
  | cons node rest =>
      refine ⟨hwheel, h.expire, ?_, ?_, ?_⟩
      · show s.log ++ [(s.ticks, current)] ++ (node :: rest).map (fun n => (s.ticks, n)) =
          byKey s.ticks s.added
        rw [List.append_assoc]
        exact hgiven
      · intro hfresh
        cases hfresh
      · intro i hi
        rw [← Option.some.inj hi]
        exact hidx

theorem update (h : Good time₀ s) : Good time₀ (updateStep s) := by
  cases hpc : s.pc with
  | idle =>
      unfold updateStep
      rw [hpc]
      exact h.go (by rw [hpc]; rfl) (by rw [hpc]; rfl) (by intro idx hidx; cases hidx)
  | execute second =>
      have hsection : updateStep s =
          executeSection s second (s.T.time &&& TIME_NEAR_MASK) := by
        unfold updateStep
        rw [hpc]
      rw [hsection]
      cases second with
      | false => exact h.again (by rw [hpc]; rfl) (by rw [hpc]; rfl) false
      | true => exact h.execute hpc
  | dispatch second idx current next => exact h.dispatch hpc
  | again second idx =>
      have hsection : updateStep s = executeSection s second idx := by
        unfold updateStep
        rw [hpc]
      rw [hsection, h.idx idx (by rw [hpc]; rfl)]
      exact h.again (by rw [hpc]; rfl) (by rw [hpc]; rfl) second
  | shift => exact h.shift hpc

theorem run (time : UInt32) (actions : List Action) :
    Good time.toNat (TimerWheel.run time actions) := by
  unfold TimerWheel.run
  have hstart := Good.start time
  generalize TimerWheel.start time = s at hstart
  induction actions generalizing s with
  | nil => exact hstart
  | cons action actions ih =>
      apply ih
      cases action with
      | add event time => exact hstart.add event time
      | update => exact hstart.update

end Good

section Returns

theorem updateStep_keeps (s : State) :
    (updateStep s).added = s.added ∧ s.ticks ≤ (updateStep s).ticks := by
  unfold updateStep
  split
  · exact ⟨rfl, Nat.le_refl _⟩
  · unfold executeSection
    split <;> exact ⟨rfl, Nat.le_refl _⟩
  · exact ⟨rfl, Nat.le_refl _⟩
  · unfold executeSection
    split <;> exact ⟨rfl, Nat.le_refl _⟩
  · exact ⟨rfl, Nat.le_succ _⟩

/-- Some steps of its thread alone bring `timer_update` to its end, with `k` more ticks. -/
def Returns (k : Nat) (s : State) : Prop :=
  ∃ n, (updateStep^[n] s).pc = .idle ∧ (updateStep^[n] s).added = s.added ∧
    s.ticks + k ≤ (updateStep^[n] s).ticks

variable {time₀ k : Nat} {s : State}

theorem Returns.of_step (h : Returns k (updateStep s)) : Returns k s := by
  obtain ⟨n, hidle, hadded, hticks⟩ := h
  obtain ⟨hkeep, hle⟩ := updateStep_keeps s
  refine ⟨n + 1, hidle, hadded.trans hkeep, ?_⟩
  rw [Function.iterate_succ_apply]
  omega

theorem Returns.of_idle (h : s.pc = .idle) : Returns 0 s := ⟨0, h, rfl, Nat.le_refl _⟩

theorem updateStep_again (h : Good time₀ s) {second : Bool} {idx : Nat}
    (hpc : s.pc = .again second idx) :
    updateStep s = { s with pc := if second then .idle else .shift } := by
  have hidx := h.idx idx (by rw [hpc]; rfl)
  unfold updateStep
  rw [hpc]
  apply Good.executeSection_eq
  rw [hidx]
  exact h.near_empty (by rw [hpc]; rfl)

theorem updateStep_first (h : Good time₀ s) (hpc : s.pc = .execute false) :
    updateStep s = { s with pc := .shift } := by
  unfold updateStep
  rw [hpc]
  exact Good.executeSection_eq (h.near_empty (by rw [hpc]; rfl))

/-- `dispatch_list` gets to the end of its list. -/
theorem returns_dispatch {second : Bool} {idx : Nat} {current : TimerNode}
    {next : List TimerNode} (h : Good time₀ s)
    (hagain : ∀ s', Good time₀ s' → s'.pc = .again second idx → Returns 0 s')
    (hpc : s.pc = .dispatch second idx current next) : Returns 0 s := by
  induction next generalizing s current with
  | nil =>
      apply Returns.of_step
      refine hagain _ h.update ?_
      unfold updateStep
      rw [hpc]
  | cons node rest ih =>
      apply Returns.of_step
      apply ih h.update
      unfold updateStep
      rw [hpc]

theorem returns_second (h : Good time₀ s) (hpc : s.pc = .execute true) : Returns 0 s := by
  have hagain : ∀ idx s', Good time₀ s' → s'.pc = .again true idx → Returns 0 s' := by
    intro idx s' h' hpc'
    apply Returns.of_step
    rw [updateStep_again h' hpc']
    exact Returns.of_idle rfl
  apply Returns.of_step
  have hupdate := h.update
  have hstep : updateStep s = executeSection s true (s.T.time &&& TIME_NEAR_MASK) := by
    unfold updateStep
    rw [hpc]
  rw [hstep] at hupdate ⊢
  unfold executeSection at hupdate ⊢
  split
  · exact Returns.of_idle rfl
  · rename_i hcase
    simp only [hcase] at hupdate
    exact returns_dispatch hupdate (hagain _) rfl

theorem returns_shift (h : Good time₀ s) (hpc : s.pc = .shift) : Returns 1 s := by
  have hstep : (updateStep s).pc = .execute true ∧ (updateStep s).ticks = s.ticks + 1 := by
    unfold updateStep
    rw [hpc]
    exact ⟨rfl, rfl⟩
  obtain ⟨n, hidle, hadded, hticks⟩ := returns_second h.update hstep.1
  refine ⟨n + 1, hidle, hadded.trans (updateStep_keeps s).1, ?_⟩
  rw [Function.iterate_succ_apply, ← hstep.2]
  exact hticks

theorem Returns.mono {j : Nat} (h : Returns k s) (hj : j ≤ k) : Returns j s := by
  obtain ⟨n, hidle, hadded, hticks⟩ := h
  exact ⟨n, hidle, hadded, by omega⟩

theorem returns (h : Good time₀ s) : Returns 0 s := by
  have hagain : ∀ second idx s', Good time₀ s' → s'.pc = .again second idx → Returns 0 s' := by
    intro second idx s' h' hpc'
    have hstep := updateStep_again h' hpc'
    have hupdate := h'.update
    apply Returns.of_step
    rw [hstep] at hupdate ⊢
    cases second with
    | false => exact (returns_shift hupdate rfl).mono (by decide)
    | true => exact Returns.of_idle rfl
  cases hpc : s.pc with
  | idle => exact Returns.of_idle hpc
  | execute second =>
      cases second with
      | false =>
          have hupdate := h.update
          apply Returns.of_step
          rw [updateStep_first h hpc] at hupdate ⊢
          exact (returns_shift hupdate rfl).mono (by decide)
      | true => exact returns_second h hpc
  | dispatch second idx current next => exact returns_dispatch h (hagain second idx) hpc
  | again second idx => exact hagain second idx s h hpc
  | shift => exact (returns_shift h hpc).mono (by decide)

/-- A call of `timer_update` is a tick. -/
theorem returns_tick (h : Good time₀ s) (hpc : s.pc = .idle) : Returns 1 s := by
  have hstep : updateStep s = { s with pc := .execute false } := by
    unfold updateStep
    rw [hpc]
  have hupdate := h.update
  apply Returns.of_step
  rw [hstep] at hupdate ⊢
  have hfirst := updateStep_first hupdate rfl
  have hupdate' := hupdate.update
  apply Returns.of_step
  rw [hfirst] at hupdate' ⊢
  exact returns_shift hupdate' rfl

theorem Good.iterate (h : Good time₀ s) (n : Nat) : Good time₀ (updateStep^[n] s) := by
  induction n generalizing s with
  | zero => exact h
  | succ n ih => exact ih h.update

/-- The ticks go on. -/
theorem returns_ticks (h : Good time₀ s) (k : Nat) : Returns k s := by
  induction k with
  | zero => exact returns h
  | succ k ih =>
      obtain ⟨n, hidle, hadded, hticks⟩ := ih
      obtain ⟨m, hidle', hadded', hticks'⟩ := returns_tick (h.iterate n) hidle
      refine ⟨m + n, ?_, ?_, ?_⟩
      · rw [Function.iterate_add_apply]
        exact hidle'
      · rw [Function.iterate_add_apply]
        exact hadded'.trans hadded
      · rw [Function.iterate_add_apply]
        omega

theorem run_append_update (time : UInt32) (actions : List Action) (n : Nat) :
    run time (actions ++ List.replicate n .update) = updateStep^[n] (run time actions) := by
  unfold run
  rw [List.foldl_append]
  generalize actions.foldl step (start time) = s
  induction n generalizing s with
  | zero => rfl
  | succ n ih => exact ih (step s .update)

end Returns

/-- At every moment the timers dispatched are the first ones of the queue sorted by expiry, and
when `timer_update` has returned they are all that the queue has up to this tick. A timer is in
the queue with the tick that makes the time its expiry. The thread of `timer_update` alone
brings the wheel to any later tick. -/
theorem dispatched_sorted (time : UInt32) (actions : List Action) :
    (run time actions).T.time = u32 (time.toNat + (run time actions).ticks) ∧
    (∀ x ∈ (run time actions).added, x.2.expire = u32 (time.toNat + x.1)) ∧
    (run time actions).log <+:
      (ofList (run time actions).added).takeWhile (fun x => x.1 ≤ (run time actions).ticks) ∧
    ((run time actions).pc = .idle → (run time actions).log =
      (ofList (run time actions).added).takeWhile fun x => x.1 ≤ (run time actions).ticks) ∧
    ∀ k, ∃ n, (run time (actions ++ List.replicate n .update)).pc = .idle ∧
      (run time (actions ++ List.replicate n .update)).added = (run time actions).added ∧
      (run time actions).ticks + k ≤ (run time (actions ++ List.replicate n .update)).ticks := by
  have h := Good.run time actions
  have hreturns := returns_ticks h
  simp only [run_append_update]
  generalize run time actions = s at *
  rw [takeWhile_ofList]
  have hgiven := h.given
  refine ⟨h.wheel.time, h.expire, ?_, ?_, hreturns⟩
  · have hprefix : s.log <+: byKey s.done s.added := ⟨_, hgiven⟩
    refine hprefix.trans ?_
    unfold State.done
    split
    · rename_i hfresh
      have hpos := h.started hfresh
      obtain ⟨k, hk⟩ : ∃ k, s.ticks = k + 1 := ⟨s.ticks - 1, by omega⟩
      rw [hk, byKey_succ]
      exact List.prefix_append _ _
    · exact List.prefix_refl _
  · intro hpc
    unfold State.done at hgiven
    rw [hpc] at hgiven
    simpa [Pc.inHand, Pc.fresh] using hgiven

end Jump.Skynet.TimerWheel
