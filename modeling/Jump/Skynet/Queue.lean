import Jump.Core.Outcome
import Mathlib.Data.List.Nodup
import Mathlib.Logic.Function.Basic

/-! # `skynet.queue`

`queue.lua` with `skynet.wait` and `skynet.wakeup`. A step of a coroutine goes from one point at
which it may yield to the next: a call up to its function or to the wait, the way from the wait to
the function, and the way from the function to the caller. Between its steps a coroutine may yield
as it likes. A coroutine that waits in the queue is woken by the queue alone.
-/

namespace Jump.Skynet.Queue

open Jump.Core

/-- `assert(ref == 0)` -/
inductive Fault where
  | refNotZero
deriving DecidableEq

abbrev M := Outcome Fault

/-- The variables of the queue, those of the scheduler that it uses, the calls in whose functions a
coroutine is (the last one first), the call with which it waits, and what happened so far: the
coroutine of each call, the calls that waited, those that entered and those that returned, with
their errors. -/
structure State (E : Type) where
  currentThread : Option Nat
  ref : Int
  threadQueue : List Nat
  sleepSession : Nat → Bool
  wakeupSession : Nat → Bool
  inside : Nat → List Nat
  waiting : Nat → Option Nat
  callers : List Nat
  queued : List Nat
  entered : List Nat
  returned : List (Nat × Option E)

namespace State

variable {E : Type} (s : State E)

def start : State E where
  currentThread := none
  ref := 0
  threadQueue := []
  sleepSession _ := false
  wakeupSession _ := false
  inside _ := []
  waiting _ := none
  callers := []
  queued := []
  entered := []
  returned := []

/-- `skynet.wakeup` -/
def wakeup (t : Nat) : State E :=
  if s.sleepSession t = true ∧ s.wakeupSession t = false then
    { s with wakeupSession := Function.update s.wakeupSession t true }
  else s

/-- From `current_thread = thread` to the function. -/
def enter (t id : Nat) : State E := { s with
  currentThread := some t
  ref := s.ref + 1
  inside := Function.update s.inside t (id :: s.inside t)
  entered := s.entered ++ [id] }

/-- The coroutine `t` calls, which it can when it does not wait. -/
def call (t : Nat) : M (State E) := do
  .answers (s.waiting t = none)
  let id := s.callers.length
  let s := { s with callers := s.callers ++ [t] }
  if s.currentThread ≠ none ∧ s.currentThread ≠ some t then
    return { s with
      threadQueue := s.threadQueue ++ [t]
      sleepSession := Function.update s.sleepSession t true
      waiting := Function.update s.waiting t (some id)
      queued := s.queued ++ [id] }
  else return s.enter t id

/-- `dispatch_wakeup` picks the coroutine `t`, which returns from its wait. -/
def resume (t : Nat) : M (State E) := do
  .answers (s.wakeupSession t = true)
  let s : State E := { s with wakeupSession := Function.update s.wakeupSession t false }
  if s.sleepSession t = true then
    match s.waiting t with
    | none => .stuck
    | some id =>
      let s : State E := { s with
        sleepSession := Function.update s.sleepSession t false
        waiting := Function.update s.waiting t none }
      .assert .refNotZero (s.ref = 0)
      return s.enter t id
  else return s

/-- The function of the last call in which `t` is ends, with an error or without. -/
def finish (t : Nat) (err : Option E) : M (State E) :=
  match s.inside t with
  | [] => .stuck
  | id :: rest => do
    .answers (s.waiting t = none)
    let s : State E := { s with ref := s.ref - 1, inside := Function.update s.inside t rest }
    let s := if s.ref = 0 then
        match s.threadQueue with
        | [] => { s with currentThread := none }
        | u :: queue => ({ s with currentThread := some u, threadQueue := queue }).wakeup u
      else s
    return { s with returned := s.returned ++ [(id, err)] }

end State

inductive Action (E : Type) where
  | call (t : Nat)
  | resume (t : Nat)
  | finish (t : Nat) (err : Option E)

variable {E : Type}

def step (s : State E) : Action E → M (State E)
  | .call t => s.call t
  | .resume t => s.resume t
  | .finish t err => s.finish t err

inductive Reachable : State E → Prop
  | start : Reachable State.start
  | step {s s' : State E} {a : Action E} (hs : Reachable s) (hstep : step s a = .ok s') :
      Reachable s'

/-! ## Who waits -/

/-- The coroutine to which the queue was given and which is not back yet. -/
def State.handed (s : State E) : List Nat := if s.ref = 0 then s.currentThread.toList else []

/-- The coroutines that wait, in the order in which they will enter. -/
def State.line (s : State E) : List Nat := s.handed ++ s.threadQueue

structure Inv (s : State E) : Prop where
  nodup : s.line.Nodup
  waits (t : Nat) : t ∈ s.line ↔ s.waiting t ≠ none
  sleeps (t : Nat) : s.sleepSession t = true ↔ t ∈ s.line
  wakes (t : Nat) : s.wakeupSession t = true ↔ t ∈ s.handed
  free : s.currentThread = none → s.ref = 0 ∧ s.threadQueue = []
  holds (t : Nat) : s.currentThread = some t →
    s.ref = (s.inside t).length ∧ t ∉ s.threadQueue
  others (t : Nat) : s.currentThread ≠ some t → s.inside t = []

/-- What a step does. -/
inductive Change (s : State E) : State E → Prop
  | waits {t u : Nat} (hu : s.currentThread = some u) (hne : u ≠ t) (ht : s.waiting t = none) :
      Change s { s with
        callers := s.callers ++ [t]
        threadQueue := s.threadQueue ++ [t]
        sleepSession := Function.update s.sleepSession t true
        waiting := Function.update s.waiting t (some s.callers.length)
        queued := s.queued ++ [s.callers.length] }
  | enters {t : Nat} (hfree : s.currentThread = none ∨ s.currentThread = some t)
      (ht : s.waiting t = none) :
      Change s (({ s with callers := s.callers ++ [t] } : State E).enter t s.callers.length)
  | resumes {t id : Nat} (hcurrent : s.currentThread = some t) (href : s.ref = 0)
      (hid : s.waiting t = some id) :
      Change s (({ s with
        wakeupSession := Function.update s.wakeupSession t false
        sleepSession := Function.update s.sleepSession t false
        waiting := Function.update s.waiting t none } : State E).enter t id)
  | returns {t id : Nat} {rest : List Nat} (err : Option E) (hinside : s.inside t = id :: rest)
      (hrest : rest ≠ []) :
      Change s { s with
        ref := s.ref - 1
        inside := Function.update s.inside t rest
        returned := s.returned ++ [(id, err)] }
  | frees {t id : Nat} (err : Option E) (hinside : s.inside t = [id])
      (hqueue : s.threadQueue = []) :
      Change s { s with
        ref := s.ref - 1
        inside := Function.update s.inside t []
        currentThread := none
        threadQueue := []
        returned := s.returned ++ [(id, err)] }
  | hands {t u id : Nat} {queue : List Nat} (err : Option E) (hinside : s.inside t = [id])
      (hqueue : s.threadQueue = u :: queue) :
      Change s { s with
        ref := s.ref - 1
        inside := Function.update s.inside t []
        currentThread := some u
        threadQueue := queue
        wakeupSession := Function.update s.wakeupSession u true
        returned := s.returned ++ [(id, err)] }

section Step

variable {s s' : State E} {t u id : Nat}

theorem mem_handed : t ∈ s.handed ↔ s.ref = 0 ∧ s.currentThread = some t := by
  unfold State.handed
  split
  · rename_i href
    rw [Option.mem_toList]
    exact ⟨fun hcurrent => ⟨href, hcurrent⟩, fun hboth => hboth.2⟩
  · rename_i href
    exact ⟨fun hmem => absurd hmem List.not_mem_nil, fun hboth => absurd hboth.1 href⟩

theorem mem_line : t ∈ s.line ↔ (s.ref = 0 ∧ s.currentThread = some t) ∨ t ∈ s.threadQueue := by
  rw [State.line, List.mem_append, mem_handed]

/-- A coroutine inside of a function holds the queue. -/
theorem Inv.current (hs : Inv s) (hinside : s.inside t ≠ []) : s.currentThread = some t := by
  by_contra hne
  exact hinside (hs.others t hne)

/-- No step from here fails, and each does one of these things. -/
theorem step_ends (hs : Inv s) (a : Action E) : (step s a).Ends (Change s) fun _ => False := by
  cases a with
  | call t =>
      refine Outcome.Ends.bind .answers fun _ ht => ?_
      dsimp only
      split
      · rename_i htaken
        obtain ⟨u, hcurrent⟩ := Option.ne_none_iff_exists'.mp htaken.1
        have hne : u ≠ t := by
          intro heq
          rw [hcurrent, heq] at htaken
          exact htaken.2 rfl
        exact .waits hcurrent hne ht
      · rename_i hfree
        have hmine : s.currentThread = none ∨ s.currentThread = some t := by
          by_cases hnone : s.currentThread = none
          · exact Or.inl hnone
          · exact Or.inr (not_not.mp fun hother => hfree ⟨hnone, hother⟩)
        exact .enters hmine ht
  | resume t =>
      refine Outcome.Ends.bind .answers fun _ hwake => ?_
      obtain ⟨href, hcurrent⟩ := mem_handed.mp ((hs.wakes t).mp hwake)
      have hline : t ∈ s.line := mem_line.mpr (Or.inl ⟨href, hcurrent⟩)
      dsimp only
      rw [if_pos ((hs.sleeps t).mpr hline)]
      cases hid : s.waiting t with
      | none => exact absurd hid ((hs.waits t).mp hline)
      | some id =>
          refine Outcome.Ends.bind (.assert fun hne => hne href) fun _ _ => ?_
          exact .resumes hcurrent href hid
  | finish t err =>
      cases hinside : s.inside t with
      | nil =>
          simp only [step, State.finish, hinside]
          trivial
      | cons id rest =>
          have hcurrent := hs.current (t := t) (by simp [hinside])
          obtain ⟨href, hqueue⟩ := hs.holds t hcurrent
          rw [hinside, List.length_cons] at href
          simp only [step, State.finish, hinside]
          refine Outcome.Ends.bind .answers fun _ _ => ?_
          cases rest with
          | cons id' rest =>
              have hne : s.ref - 1 ≠ 0 := by
                rw [href, List.length_cons]
                omega
              rw [if_neg hne]
              exact .returns err hinside (by simp)
          | nil =>
              have hzero : s.ref - 1 = 0 := by
                rw [href]
                rfl
              rw [if_pos hzero]
              cases hnext : s.threadQueue with
              | nil =>
                  dsimp only
                  exact .frees err hinside hnext
              | cons u queue =>
                  have hline : u ∈ s.line := mem_line.mpr (Or.inr (by simp [hnext]))
                  have hsleep := (hs.sleeps u).mpr hline
                  have hwake : s.wakeupSession u = false := by
                    rw [← Bool.not_eq_true, hs.wakes, mem_handed]
                    intro hhanded
                    rw [href] at hhanded
                    simp at hhanded
                  simp only [State.wakeup, hsleep, hwake, and_self, if_true]
                  exact .hands err hinside hnext

theorem handed_of_ne (href : s.ref ≠ 0) : s.handed = [] := if_neg href

theorem start_inv : Inv (State.start : State E) where
  nodup := List.nodup_nil
  waits _ := ⟨fun hmem => absurd hmem List.not_mem_nil, fun hne => absurd rfl hne⟩
  sleeps _ := ⟨nofun, fun hmem => absurd hmem List.not_mem_nil⟩
  wakes _ := ⟨nofun, fun hmem => absurd hmem List.not_mem_nil⟩
  free _ := ⟨rfl, rfl⟩
  holds _ hcurrent := nomatch hcurrent
  others _ _ := rfl

theorem Inv.waits_step (hs : Inv s) (hu : s.currentThread = some u) (hne : u ≠ t)
    (ht : s.waiting t = none) {callers queued : List Nat} (heq : s' = { s with
      callers := callers
      threadQueue := s.threadQueue ++ [t]
      sleepSession := Function.update s.sleepSession t true
      waiting := Function.update s.waiting t (some id)
      queued := queued }) : s'.line = s.line ++ [t] ∧ Inv s' := by
  have hnew : t ∉ s.line := fun hmem => (hs.waits t).mp hmem ht
  have hline : s'.line = s.line ++ [t] := by
    rw [heq]
    exact (List.append_assoc ..).symm
  have hmem : ∀ v, v ∈ s'.line ↔ v ∈ s.line ∨ v = t := by
    intro v
    rw [hline, List.mem_append, List.mem_singleton]
  have hwaiting : s'.waiting = Function.update s.waiting t (some id) := by rw [heq]
  have hsleep : s'.sleepSession = Function.update s.sleepSession t true := by rw [heq]
  have hcurrent : s'.currentThread = some u := by
    rw [heq]
    exact hu
  refine ⟨hline, ?_, fun v => ?_, fun v => ?_, ?_, fun hnone => ?_, fun v hv => ?_, ?_⟩
  · rw [hline]
    exact List.Nodup.append hs.nodup (List.nodup_singleton t) (List.disjoint_singleton.mpr hnew)
  · rw [hmem, hs.waits, hwaiting]
    by_cases hv : v = t
    · simp [hv]
    · simp [hv]
  · rw [hmem, ← hs.sleeps, hsleep]
    by_cases hv : v = t
    · simp [hv]
    · simp [hv]
  · rw [heq]
    exact hs.wakes
  · rw [hcurrent] at hnone
    cases hnone
  · rw [hcurrent] at hv
    obtain rfl := Option.some.inj hv
    obtain ⟨href, hqueue⟩ := hs.holds u hu
    rw [heq]
    refine ⟨href, ?_⟩
    rw [List.mem_append, List.mem_singleton]
    exact fun hor => hor.elim hqueue hne
  · rw [heq]
    exact hs.others

/-- Who enters without waiting -/
theorem Inv.free_or_mine (hs : Inv s) (hfree : s.currentThread = none ∨ s.currentThread = some t)
    (ht : s.waiting t = none) :
    s.ref = (s.inside t).length ∧ t ∉ s.threadQueue ∧ s.handed = [] := by
  cases hfree with
  | inl hnone =>
      obtain ⟨href, hqueue⟩ := hs.free hnone
      have hempty : s.inside t = [] := hs.others t (by simp [hnone])
      refine ⟨?_, ?_, ?_⟩
      · rw [href, hempty]
        rfl
      · rw [hqueue]
        exact List.not_mem_nil
      · rw [State.handed, hnone]
        exact ite_self _
  | inr hmine =>
      obtain ⟨href, hqueue⟩ := hs.holds t hmine
      refine ⟨href, hqueue, handed_of_ne fun hzero => ?_⟩
      have hline : t ∈ s.line := mem_line.mpr (Or.inl ⟨hzero, hmine⟩)
      exact (hs.waits t).mp hline ht

/-- A coroutine is inside, and nobody is handed the queue. -/
theorem Inv.of_busy {queue : List Nat} (hcurrent : s.currentThread = some t)
    (href : s.ref = (s.inside t).length) (hinside : s.inside t ≠ [])
    (hqueue : s.threadQueue = queue) (ht : t ∉ queue) (hnodup : queue.Nodup)
    (hwaits : ∀ v, v ∈ queue ↔ s.waiting v ≠ none)
    (hsleeps : ∀ v, s.sleepSession v = true ↔ v ∈ queue) (hwakes : ∀ v, s.wakeupSession v = false)
    (hothers : ∀ v, v ≠ t → s.inside v = []) : s.line = queue ∧ Inv s := by
  have hne : s.ref ≠ 0 := by
    rw [href]
    exact_mod_cast fun hlen => hinside (List.length_eq_zero_iff.mp hlen)
  have hhanded := handed_of_ne hne
  have hline : s.line = queue := by
    rw [State.line, hhanded, hqueue]
    rfl
  refine ⟨hline, ?_, fun v => ?_, fun v => ?_, fun v => ?_, fun hnone => ?_, fun v hv => ?_,
    fun v hv => ?_⟩
  · rw [hline]
    exact hnodup
  · rw [hline]
    exact hwaits v
  · rw [hline]
    exact hsleeps v
  · rw [hhanded, hwakes v]
    simp
  · rw [hcurrent] at hnone
    cases hnone
  · rw [hcurrent] at hv
    obtain rfl := Option.some.inj hv
    rw [hqueue]
    exact ⟨href, ht⟩
  · rw [hcurrent] at hv
    exact hothers v fun heq => hv (by rw [heq])

theorem Inv.enters_step (hs : Inv s)
    (hfree : s.currentThread = none ∨ s.currentThread = some t) (ht : s.waiting t = none)
    (callers : List Nat) (id : Nat)
    (heq : s' = ({ s with callers := callers } : State E).enter t id) :
    s'.line = s.line ∧ Inv s' := by
  obtain ⟨href, hqueue, hhanded⟩ := hs.free_or_mine hfree ht
  have hline : s.line = s.threadQueue := by
    rw [State.line, hhanded, List.nil_append]
  have hinside : s'.inside t = id :: s.inside t := by
    rw [heq]
    exact Function.update_self ..
  rw [hline]
  apply Inv.of_busy (t := t)
  · rw [heq]
    rfl
  · rw [hinside, heq]
    change s.ref + 1 = _
    rw [href, List.length_cons]
    rfl
  · rw [hinside]
    simp
  · rw [heq]
    rfl
  · exact hqueue
  · rw [← hline]
    exact hs.nodup
  · intro v
    rw [heq, ← hline]
    exact hs.waits v
  · intro v
    rw [heq, ← hline]
    exact hs.sleeps v
  · intro v
    rw [heq, ← Bool.not_eq_true]
    change ¬ s.wakeupSession v = true
    rw [hs.wakes, hhanded]
    exact List.not_mem_nil
  · intro v hv
    rw [heq]
    change Function.update s.inside t _ v = []
    rw [Function.update_of_ne hv]
    apply hs.others
    cases hfree with
    | inl hnone => simp [hnone]
    | inr hmine =>
        rw [hmine]
        exact fun hsome => hv (Option.some.inj hsome).symm

theorem Inv.resumes_step (hs : Inv s) (id : Nat) (hcurrent : s.currentThread = some t)
    (href : s.ref = 0) (heq : s' = ({ s with
      wakeupSession := Function.update s.wakeupSession t false
      sleepSession := Function.update s.sleepSession t false
      waiting := Function.update s.waiting t none } : State E).enter t id) :
    s.line = t :: s'.line ∧ Inv s' := by
  obtain ⟨hlen, hqueue⟩ := hs.holds t hcurrent
  have hempty : s.inside t = [] := by
    rw [href] at hlen
    exact List.length_eq_zero_iff.mp (by omega)
  have hhanded : s.handed = [t] := by
    rw [State.handed, if_pos href, hcurrent]
    rfl
  have hline : s.line = t :: s.threadQueue := by
    rw [State.line, hhanded]
    rfl
  have hinside : s'.inside t = [id] := by
    rw [heq]
    change Function.update s.inside t (id :: s.inside t) t = [id]
    rw [Function.update_self, hempty]
  have hbusy : s'.line = s.threadQueue ∧ Inv s' := by
    apply Inv.of_busy (t := t)
    · rw [heq]
      rfl
    · rw [hinside, heq]
      change s.ref + 1 = _
      rw [href]
      rfl
    · rw [hinside]
      simp
    · rw [heq]
      rfl
    · exact hqueue
    · have hnodup := hs.nodup
      rw [hline] at hnodup
      exact (List.nodup_cons.mp hnodup).2
    · intro v
      have hwaits := hs.waits v
      rw [hline, List.mem_cons] at hwaits
      rw [heq]
      change _ ↔ Function.update s.waiting t none v ≠ none
      by_cases hv : v = t
      · rw [hv, Function.update_self]
        exact ⟨fun hmem => absurd hmem hqueue, fun hne => absurd rfl hne⟩
      · rw [Function.update_of_ne hv, ← hwaits]
        exact ⟨Or.inr, fun hor => hor.resolve_left hv⟩
    · intro v
      have hsleeps := hs.sleeps v
      rw [hline, List.mem_cons] at hsleeps
      rw [heq]
      change Function.update s.sleepSession t false v = true ↔ _
      by_cases hv : v = t
      · rw [hv, Function.update_self]
        exact ⟨nofun, fun hmem => absurd hmem hqueue⟩
      · rw [Function.update_of_ne hv, hsleeps]
        exact ⟨fun hor => hor.resolve_left hv, Or.inr⟩
    · intro v
      rw [heq]
      change Function.update s.wakeupSession t false v = false
      by_cases hv : v = t
      · rw [hv, Function.update_self]
      · rw [Function.update_of_ne hv, ← Bool.not_eq_true, hs.wakes, hhanded]
        simpa using hv
    · intro v hv
      rw [heq]
      change Function.update s.inside t _ v = []
      rw [Function.update_of_ne hv]
      apply hs.others
      rw [hcurrent]
      exact fun hsome => hv (Option.some.inj hsome).symm
  rw [hline, hbusy.1]
  exact ⟨rfl, hbusy.2⟩

/-- Nobody is handed the queue while its holder is inside. -/
theorem Inv.busy (hs : Inv s) (hinside : s.inside t ≠ []) :
    s.currentThread = some t ∧ s.ref = (s.inside t).length ∧ t ∉ s.threadQueue ∧
      s.handed = [] ∧ s.line = s.threadQueue := by
  have hcurrent := hs.current hinside
  obtain ⟨href, hqueue⟩ := hs.holds t hcurrent
  have hne : s.ref ≠ 0 := by
    rw [href]
    exact_mod_cast fun hlen => hinside (List.length_eq_zero_iff.mp hlen)
  have hhanded := handed_of_ne hne
  refine ⟨hcurrent, href, hqueue, hhanded, ?_⟩
  rw [State.line, hhanded]
  rfl

theorem Inv.returns_step (hs : Inv s) {rest : List Nat} (hinside : s.inside t = id :: rest)
    (hrest : rest ≠ []) {returned : List (Nat × Option E)} (heq : s' = { s with
      ref := s.ref - 1
      inside := Function.update s.inside t rest
      returned := returned }) : s'.line = s.line ∧ Inv s' := by
  obtain ⟨hcurrent, href, hqueue, hhanded, hline⟩ := hs.busy (t := t) (by simp [hinside])
  have hinside' : s'.inside t = rest := by
    rw [heq]
    exact Function.update_self ..
  rw [hline]
  apply Inv.of_busy (t := t)
  · rw [heq]
    exact hcurrent
  · rw [hinside', heq]
    change s.ref - 1 = _
    rw [href, hinside, List.length_cons]
    omega
  · rw [hinside']
    exact hrest
  · rw [heq]
  · exact hqueue
  · rw [← hline]
    exact hs.nodup
  · intro v
    rw [heq, ← hline]
    exact hs.waits v
  · intro v
    rw [heq, ← hline]
    exact hs.sleeps v
  · intro v
    rw [heq, ← Bool.not_eq_true]
    change ¬ s.wakeupSession v = true
    rw [hs.wakes, hhanded]
    exact List.not_mem_nil
  · intro v hv
    rw [heq]
    change Function.update s.inside t _ v = []
    rw [Function.update_of_ne hv]
    apply hs.others
    rw [hcurrent]
    exact fun hsome => hv (Option.some.inj hsome).symm

theorem Inv.frees_step (hs : Inv s) (hinside : s.inside t = [id]) (hnext : s.threadQueue = [])
    {returned : List (Nat × Option E)} (heq : s' = { s with
      ref := s.ref - 1
      inside := Function.update s.inside t []
      currentThread := none
      threadQueue := []
      returned := returned }) : s'.line = s.line ∧ Inv s' := by
  obtain ⟨hcurrent, href, hqueue, hhanded, hline⟩ := hs.busy (t := t) (by simp [hinside])
  rw [hnext] at hline
  have hhanded' : s'.handed = [] := by
    rw [heq]
    exact ite_self _
  have hline' : s'.line = [] := by
    rw [State.line, hhanded', heq]
    rfl
  have hempty : ∀ v, s'.inside v = [] := by
    intro v
    rw [heq]
    change Function.update s.inside t [] v = []
    by_cases hv : v = t
    · rw [hv, Function.update_self]
    · rw [Function.update_of_ne hv]
      apply hs.others
      rw [hcurrent]
      exact fun hsome => hv (Option.some.inj hsome).symm
  rw [hline]
  refine ⟨hline', ?_, fun v => ?_, fun v => ?_, fun v => ?_, fun _ => ?_, fun v hv => ?_,
    fun v _ => hempty v⟩
  · rw [hline']
    exact List.nodup_nil
  · rw [hline', ← hline, heq]
    exact hs.waits v
  · rw [hline', ← hline, heq]
    exact hs.sleeps v
  · rw [hhanded', ← hhanded, heq]
    exact hs.wakes v
  · rw [heq]
    refine ⟨?_, rfl⟩
    change s.ref - 1 = 0
    rw [href, hinside]
    rfl
  · rw [heq] at hv
    cases hv

theorem Inv.hands_step (hs : Inv s) {queue : List Nat} (hinside : s.inside t = [id])
    (hnext : s.threadQueue = u :: queue) {returned : List (Nat × Option E)} (heq : s' = { s with
      ref := s.ref - 1
      inside := Function.update s.inside t []
      currentThread := some u
      threadQueue := queue
      wakeupSession := Function.update s.wakeupSession u true
      returned := returned }) : s'.line = s.line ∧ Inv s' := by
  obtain ⟨hcurrent, href, hqueue, hhanded, hline⟩ := hs.busy (t := t) (by simp [hinside])
  rw [hnext] at hline hqueue
  have hne : u ≠ t := fun h => hqueue (by simp [h])
  have href' : s'.ref = 0 := by
    rw [heq]
    change s.ref - 1 = 0
    rw [href, hinside]
    rfl
  have hcurrent' : s'.currentThread = some u := by rw [heq]
  have hhanded' : s'.handed = [u] := by
    rw [State.handed, if_pos href', hcurrent']
    rfl
  have hline' : s'.line = u :: queue := by
    rw [State.line, hhanded', heq]
    rfl
  have hempty : ∀ v, s'.inside v = [] := by
    intro v
    rw [heq]
    change Function.update s.inside t [] v = []
    by_cases hv : v = t
    · rw [hv, Function.update_self]
    · rw [Function.update_of_ne hv]
      apply hs.others
      rw [hcurrent]
      exact fun hsome => hv (Option.some.inj hsome).symm
  have hnodup := hs.nodup
  rw [hline] at hnodup ⊢
  refine ⟨hline', ?_, fun v => ?_, fun v => ?_, fun v => ?_, fun hnone => ?_, fun v hv => ?_,
    fun v _ => hempty v⟩
  · rw [hline']
    exact hnodup
  · rw [hline', ← hline, heq]
    exact hs.waits v
  · rw [hline', ← hline, heq]
    exact hs.sleeps v
  · rw [hhanded', heq]
    change Function.update s.wakeupSession u true v = true ↔ _
    by_cases hv : v = u
    · simp [hv]
    · rw [Function.update_of_ne hv, hs.wakes, hhanded]
      simp [hv]
  · rw [hcurrent'] at hnone
    cases hnone
  · rw [hcurrent'] at hv
    obtain rfl := Option.some.inj hv
    rw [hempty, href', heq]
    exact ⟨rfl, (List.nodup_cons.mp hnodup).1⟩

theorem Change.inv (hs : Inv s) (h : Change s s') : Inv s' := by
  cases h with
  | waits hu hne ht => exact (hs.waits_step hu hne ht rfl).2
  | enters hfree ht => exact (hs.enters_step hfree ht _ _ rfl).2
  | resumes hcurrent href hid => exact (hs.resumes_step _ hcurrent href rfl).2
  | returns err hinside hrest => exact (hs.returns_step hinside hrest rfl).2
  | frees err hinside hnext => exact (hs.frees_step hinside hnext rfl).2
  | hands err hinside hnext => exact (hs.hands_step hinside hnext rfl).2

theorem Reachable.inv (hs : Reachable s) : Inv s := by
  induction hs with
  | start => exact start_inv
  | @step s s' a _ hstep ih => exact ((step_ends ih a).of_ok hstep).inv ih

/-! ## What happened so far -/

/-- The calls in the order in which they wait and enter, each with its coroutine. -/
structure Past (s : State E) : Prop where
  order : s.queued = s.entered.filter (· ∈ s.queued) ++ s.line.filterMap s.waiting
  ascending : s.queued.Pairwise (· < ·)
  old (id : Nat) : id ∈ s.queued ∨ id ∈ s.entered → id < s.callers.length
  once : s.entered.Nodup
  pending (t id : Nat) : s.waiting t = some id →
    id ∉ s.entered ∧ id ∈ s.queued ∧ s.callers[id]? = some t
  active (t id : Nat) : id ∈ s.inside t → id ∈ s.entered ∧ s.callers[id]? = some t
  nested (t : Nat) : (s.inside t).Nodup
  ended : (s.returned.map Prod.fst).Nodup
  gone (r : Nat × Option E) : r ∈ s.returned → r.1 ∈ s.entered ∧ ∀ t, r.1 ∉ s.inside t

theorem start_past : Past (State.start : State E) where
  order := rfl
  ascending := .nil
  old _ hor := by simp [State.start] at hor
  once := List.nodup_nil
  pending _ _ hid := nomatch hid
  active _ _ hid := absurd hid List.not_mem_nil
  nested _ := List.nodup_nil
  ended := List.nodup_nil
  gone _ hr := absurd hr List.not_mem_nil

theorem getElem?_concat {callers : List Nat} (h : callers[id]? = some t) :
    (callers ++ [u])[id]? = some t := by
  rw [List.getElem?_append_left (List.getElem?_eq_some_iff.mp h).choose]
  exact h

theorem filterMap_update {line : List Nat} {waiting : Nat → Option Nat} {v : Option Nat}
    (ht : t ∉ line) : line.filterMap (Function.update waiting t v) = line.filterMap waiting := by
  apply List.filterMap_congr
  intro u hu
  have hne : u ≠ t := fun heq => ht (by rw [← heq]; exact hu)
  exact Function.update_of_ne hne ..

theorem Past.waits_step (hp : Past s) (hs : Inv s) (ht : s.waiting t = none)
    (hline : s'.line = s.line ++ [t]) (heq : s' = { s with
      callers := s.callers ++ [t]
      threadQueue := s.threadQueue ++ [t]
      sleepSession := Function.update s.sleepSession t true
      waiting := Function.update s.waiting t (some s.callers.length)
      queued := s.queued ++ [s.callers.length] }) : Past s' := by
  have hnew : t ∉ s.line := fun hmem => (hs.waits t).mp hmem ht
  have hlast : s.callers.length ∉ s.queued ∧ s.callers.length ∉ s.entered :=
    ⟨fun hmem => Nat.lt_irrefl _ (hp.old _ (Or.inl hmem)),
      fun hmem => Nat.lt_irrefl _ (hp.old _ (Or.inr hmem))⟩
  have hwaiting : s'.waiting = Function.update s.waiting t (some s.callers.length) := by rw [heq]
  have hqueued : s'.queued = s.queued ++ [s.callers.length] := by rw [heq]
  have hcallers : s'.callers = s.callers ++ [t] := by rw [heq]
  have hentered : s'.entered = s.entered := by rw [heq]
  have hfilter : s.entered.filter (· ∈ s.queued ++ [s.callers.length]) =
      s.entered.filter (· ∈ s.queued) := by
    apply List.filter_congr
    intro id hid
    have hne : id ≠ s.callers.length := fun h => hlast.2 (h ▸ hid)
    simp [hne]
  refine ⟨?_, ?_, fun id hor => ?_, ?_, fun v id hid => ?_, fun v id hid => ?_, ?_, ?_, ?_⟩
  · rw [hline, hqueued, hentered, hfilter, List.filterMap_append, hwaiting,
      filterMap_update hnew, ← List.append_assoc, ← hp.order]
    simp
  · rw [hqueued, List.pairwise_append]
    refine ⟨hp.ascending, List.pairwise_singleton .., fun id hid n hn => ?_⟩
    rw [List.mem_singleton.mp hn]
    exact hp.old id (Or.inl hid)
  · rw [hqueued, hentered, List.mem_append, List.mem_singleton] at hor
    rw [hcallers, List.length_append]
    obtain (hold | rfl) | hold := hor
    · exact Nat.lt_succ_of_lt (hp.old id (Or.inl hold))
    · exact Nat.lt_succ_self _
    · exact Nat.lt_succ_of_lt (hp.old id (Or.inr hold))
  · rw [hentered]
    exact hp.once
  · rw [hwaiting] at hid
    rw [hqueued, hentered, hcallers, List.mem_append]
    by_cases hv : v = t
    · rw [hv, Function.update_self] at hid
      obtain rfl := Option.some.inj hid
      refine ⟨hlast.2, Or.inr (List.mem_singleton_self _), ?_⟩
      rw [hv]
      exact List.getElem?_concat_length
    · rw [Function.update_of_ne hv] at hid
      obtain ⟨hnot, hmem, hcaller⟩ := hp.pending v id hid
      exact ⟨hnot, Or.inl hmem, getElem?_concat hcaller⟩
  · rw [heq] at hid
    obtain ⟨hmem, hcaller⟩ := hp.active v id hid
    rw [hentered, hcallers]
    exact ⟨hmem, getElem?_concat hcaller⟩
  · rw [heq]
    exact hp.nested
  · rw [heq]
    exact hp.ended
  · rw [heq]
    exact hp.gone

/-- A call enters its function. -/
theorem Past.enter_step (hp : Past s) (hentered : s'.entered = s.entered ++ [id])
    (hinside : s'.inside = Function.update s.inside t (id :: s.inside t))
    (hqueued : s'.queued = s.queued) (hreturned : s'.returned = s.returned)
    (hlen : s.callers.length ≤ s'.callers.length)
    (hcallers : ∀ n v : Nat, s.callers[n]? = some v → s'.callers[n]? = some v)
    (hnew : id ∉ s.entered) (hcaller : s'.callers[id]? = some t)
    (hwaiting : ∀ v n, s'.waiting v = some n → s.waiting v = some n ∧ n ≠ id)
    (horder : s.entered.filter (· ∈ s.queued) ++ s.line.filterMap s.waiting =
      (s.entered ++ [id]).filter (· ∈ s.queued) ++ s'.line.filterMap s'.waiting) : Past s' := by
  have hlast : id < s'.callers.length := (List.getElem?_eq_some_iff.mp hcaller).choose
  have hinside_of : ∀ v n, n ∈ s'.inside v → n ∈ s.inside v ∨ n = id ∧ v = t := by
    intro v n hn
    rw [hinside] at hn
    by_cases hv : v = t
    · rw [hv, Function.update_self, List.mem_cons] at hn
      rw [hv]
      exact hn.symm.imp_right fun h => ⟨h, rfl⟩
    · rw [Function.update_of_ne hv] at hn
      exact Or.inl hn
  refine ⟨?_, ?_, fun n hor => ?_, ?_, fun v n hn => ?_, fun v n hn => ?_, fun v => ?_, ?_,
    fun r hr => ?_⟩
  · rw [hqueued, hentered, ← horder]
    exact hp.order
  · rw [hqueued]
    exact hp.ascending
  · rw [hqueued, hentered, List.mem_append, List.mem_singleton] at hor
    obtain hold | hold | rfl := hor
    · exact Nat.lt_of_lt_of_le (hp.old n (Or.inl hold)) hlen
    · exact Nat.lt_of_lt_of_le (hp.old n (Or.inr hold)) hlen
    · exact hlast
  · rw [hentered]
    exact List.Nodup.append hp.once (List.nodup_singleton id) (List.disjoint_singleton.mpr hnew)
  · obtain ⟨hbefore, hne⟩ := hwaiting v n hn
    obtain ⟨hnot, hmem, hcaller'⟩ := hp.pending v n hbefore
    rw [hentered, hqueued, List.mem_append, List.mem_singleton]
    exact ⟨fun hor => hor.elim hnot hne, hmem, hcallers n v hcaller'⟩
  · rw [hentered, List.mem_append, List.mem_singleton]
    obtain hold | ⟨rfl, rfl⟩ := hinside_of v n hn
    · obtain ⟨hmem, hcaller'⟩ := hp.active v n hold
      exact ⟨Or.inl hmem, hcallers n v hcaller'⟩
    · exact ⟨Or.inr rfl, hcaller⟩
  · rw [hinside]
    by_cases hv : v = t
    · rw [hv, Function.update_self]
      exact List.nodup_cons.mpr ⟨fun hmem => hnew (hp.active t id hmem).1, hp.nested t⟩
    · rw [Function.update_of_ne hv]
      exact hp.nested v
  · rw [hreturned]
    exact hp.ended
  · rw [hreturned] at hr
    obtain ⟨hmem, hgone⟩ := hp.gone r hr
    rw [hentered, List.mem_append]
    refine ⟨Or.inl hmem, fun v hv => ?_⟩
    obtain hold | ⟨heq, _⟩ := hinside_of v r.1 hv
    · exact hgone v hold
    · rw [heq] at hmem
      exact hnew hmem

/-- A call returns to its caller. -/
theorem Past.leave_step (hp : Past s) {rest : List Nat} {err : Option E}
    (hinside : s.inside t = id :: rest) (hinside' : s'.inside = Function.update s.inside t rest)
    (hreturned : s'.returned = s.returned ++ [(id, err)]) (hline : s'.line = s.line)
    (hwaiting : s'.waiting = s.waiting) (hcallers : s'.callers = s.callers)
    (hqueued : s'.queued = s.queued) (hentered : s'.entered = s.entered) : Past s' := by
  have hmine : id ∈ s.inside t := by
    rw [hinside]
    exact List.mem_cons_self
  have hstack := hp.nested t
  rw [hinside, List.nodup_cons] at hstack
  have hsub : ∀ v n, n ∈ s'.inside v → n ∈ s.inside v ∧ n ≠ id := by
    intro v n hn
    rw [hinside'] at hn
    by_cases hv : v = t
    · rw [hv, Function.update_self] at hn
      rw [hv, hinside]
      exact ⟨List.mem_cons_of_mem id hn, fun heq => hstack.1 (by rw [← heq]; exact hn)⟩
    · rw [Function.update_of_ne hv] at hn
      refine ⟨hn, fun heq => hv ?_⟩
      rw [heq] at hn
      have hcaller := (hp.active v id hn).2
      rw [(hp.active t id hmine).2] at hcaller
      exact (Option.some.inj hcaller).symm
  have hnew : id ∉ s.returned.map Prod.fst := by
    intro hmem
    obtain ⟨r, hr, rfl⟩ := List.mem_map.mp hmem
    exact (hp.gone r hr).2 t hmine
  refine ⟨?_, ?_, ?_, ?_, ?_, fun v n hn => ?_, fun v => ?_, ?_, fun r hr => ?_⟩
  · rw [hqueued, hentered, hline, hwaiting]
    exact hp.order
  · rw [hqueued]
    exact hp.ascending
  · rw [hqueued, hentered, hcallers]
    exact hp.old
  · rw [hentered]
    exact hp.once
  · rw [hwaiting, hentered, hqueued, hcallers]
    exact hp.pending
  · rw [hentered, hcallers]
    exact hp.active v n (hsub v n hn).1
  · rw [hinside']
    by_cases hv : v = t
    · rw [hv, Function.update_self]
      exact hstack.2
    · rw [Function.update_of_ne hv]
      exact hp.nested v
  · rw [hreturned, List.map_append]
    exact List.Nodup.append hp.ended (List.nodup_singleton id) (List.disjoint_singleton.mpr hnew)
  · rw [hreturned, List.mem_append, List.mem_singleton] at hr
    rw [hentered]
    obtain hold | rfl := hr
    · obtain ⟨hmem, hgone⟩ := hp.gone r hold
      exact ⟨hmem, fun v hv => hgone v (hsub v r.1 hv).1⟩
    · exact ⟨(hp.active t id hmine).1, fun v hv => (hsub v id hv).2 rfl⟩

theorem Change.past (hs : Inv s) (hp : Past s) (h : Change s s') : Past s' := by
  cases h with
  | waits hu hne ht => exact hp.waits_step hs ht (hs.waits_step hu hne ht rfl).1 rfl
  | @enters t hfree ht =>
      have hline := (hs.enters_step hfree ht (s.callers ++ [t]) s.callers.length rfl).1
      have hnew : s.callers.length ∉ s.entered :=
        fun hmem => Nat.lt_irrefl _ (hp.old _ (Or.inr hmem))
      have hnot : s.callers.length ∉ s.queued :=
        fun hmem => Nat.lt_irrefl _ (hp.old _ (Or.inl hmem))
      refine hp.enter_step rfl rfl rfl rfl ?_ (fun n v hv => getElem?_concat hv) hnew
        List.getElem?_concat_length (fun v n hn => ⟨hn, ?_⟩) ?_
      · exact List.length_append.symm ▸ Nat.le_add_right ..
      · intro heq
        rw [heq] at hn
        exact hnot (hp.pending v _ hn).2.1
      · rw [hline, List.filter_append, List.filter_singleton, decide_eq_false hnot, cond_false,
          List.append_nil]
        rfl
  | @resumes t id hcurrent href hid =>
      obtain ⟨hline, _⟩ := hs.resumes_step id hcurrent href rfl
      obtain ⟨hnew, hmem, hcaller⟩ := hp.pending t id hid
      refine hp.enter_step rfl rfl rfl rfl (Nat.le_refl _) (fun n v hv => hv) hnew hcaller
        (fun v n hn => ?_) ?_
      · change Function.update s.waiting t none v = some n at hn
        by_cases hv : v = t
        · rw [hv, Function.update_self] at hn
          cases hn
        · rw [Function.update_of_ne hv] at hn
          refine ⟨hn, fun heq => hv ?_⟩
          rw [heq] at hn
          have hcaller' := (hp.pending v id hn).2.2
          rw [hcaller] at hcaller'
          exact (Option.some.inj hcaller').symm
      · have hnodup := hs.nodup
        rw [hline, List.nodup_cons] at hnodup
        rw [hline, List.filterMap_cons_some hid, List.filter_append, List.filter_singleton,
          decide_eq_true hmem, cond_true, List.append_assoc]
        congr 2
        exact (filterMap_update hnodup.1).symm
  | returns err hinside hrest =>
      exact hp.leave_step hinside rfl rfl (hs.returns_step hinside hrest rfl).1 rfl rfl rfl rfl
  | frees err hinside hnext =>
      exact hp.leave_step hinside rfl rfl (hs.frees_step hinside hnext rfl).1 rfl rfl rfl rfl
  | hands err hinside hnext =>
      exact hp.leave_step hinside rfl rfl (hs.hands_step hinside hnext rfl).1 rfl rfl rfl rfl

theorem Reachable.past (hs : Reachable s) : Past s := by
  induction hs with
  | start => exact start_past
  | @step s s' a hs hstep ih => exact ((step_ends hs.inv a).of_ok hstep).past hs.inv ih

/-! ## What the queue promises -/

structure Sound (s : State E) : Prop where
  /-- At most one coroutine is inside. -/
  exclusive (t u : Nat) : s.inside t ≠ [] → s.inside u ≠ [] → t = u
  /-- A coroutine that is inside enters at once when it calls again. -/
  reentrant (t : Nat) : s.inside t ≠ [] → ∃ s', step s (.call t) = .ok s' ∧
    s'.waiting t = none ∧ s'.inside t = s.callers.length :: s.inside t
  /-- `assert(ref == 0)` does not fail. -/
  asserts (a : Action E) (e : Fault) : step s a ≠ .fail e
  /-- The calls that waited entered in their order, and the others of them will. -/
  inOrder : s.queued.Pairwise (· < ·) ∧
    s.queued = s.entered.filter (· ∈ s.queued) ++ s.line.filterMap s.waiting
  line (t : Nat) : t ∈ s.line ↔ s.waiting t ≠ none
  once : s.entered.Nodup
  /-- The first one that waits can enter as soon as nobody is inside. -/
  next (t id : Nat) (rest : List Nat) : (∀ u, s.inside u = []) → s.line = t :: rest →
    s.waiting t = some id → ∃ s', step s (.resume t) = .ok s' ∧ s'.inside t = [id] ∧ s'.line = rest
  /-- A function's error goes to the call that it belongs to, and to no other. -/
  errors (t : Nat) (err : Option E) (s' : State E) : step s (.finish t err) = .ok s' →
    ∃ id rest, s.inside t = id :: rest ∧ s.callers[id]? = some t ∧
      s'.returned = s.returned ++ [(id, err)] ∧ id ∉ s.returned.map Prod.fst
  silent (t : Nat) (s' : State E) : step s (.call t) = .ok s' ∨ step s (.resume t) = .ok s' →
    s'.returned = s.returned

theorem Inv.waiting_of_inside (hs : Inv s) (hinside : s.inside t ≠ []) : s.waiting t = none := by
  obtain ⟨_, _, hqueue, _, hline⟩ := hs.busy hinside
  by_contra hne
  have hmem := (hs.waits t).mpr hne
  rw [hline] at hmem
  exact hqueue hmem

theorem Inv.call_of_inside (hs : Inv s) (hinside : s.inside t ≠ []) : ∃ s',
    step s (.call t) = .ok s' ∧ s'.waiting t = none ∧
      s'.inside t = s.callers.length :: s.inside t := by
  have ht := hs.waiting_of_inside hinside
  have hcurrent := hs.current hinside
  refine ⟨({ s with callers := s.callers ++ [t] } : State E).enter t s.callers.length, ?_, ht, ?_⟩
  · change State.call s t = _
    unfold State.call
    rw [Outcome.answers_bind ht]
    change (if _ then _ else _) = _
    rw [if_neg (fun hboth => hboth.2 hcurrent)]
    rfl
  · exact Function.update_self ..

theorem Inv.resume_next (hs : Inv s) {rest : List Nat} (hfree : ∀ u, s.inside u = [])
    (hline : s.line = t :: rest) (hid : s.waiting t = some id) : ∃ s',
    step s (.resume t) = .ok s' ∧ s'.inside t = [id] ∧ s'.line = rest := by
  have hcurrent : ∃ u, s.currentThread = some u := by
    by_contra hnone
    have hnone' : s.currentThread = none := by
      cases h : s.currentThread with
      | none => rfl
      | some u => exact absurd ⟨u, h⟩ hnone
    obtain ⟨_, hqueue⟩ := hs.free hnone'
    rw [State.line, State.handed, hnone', hqueue] at hline
    simp at hline
  obtain ⟨u, hu⟩ := hcurrent
  have href : s.ref = 0 := by
    rw [(hs.holds u hu).1, hfree u]
    rfl
  have hhanded : s.handed = [u] := by
    rw [State.handed, if_pos href, hu]
    rfl
  have hhead := hline
  rw [State.line, hhanded, List.singleton_append, List.cons.injEq] at hhead
  obtain rfl := hhead.1
  have hwake : s.wakeupSession u = true := (hs.wakes u).mpr (by simp [hhanded])
  have hsleep : s.sleepSession u = true :=
    (hs.sleeps u).mpr (mem_line.mpr (Or.inl ⟨href, hu⟩))
  have hstep : step s (.resume u) = .ok (({ s with
      wakeupSession := Function.update s.wakeupSession u false
      sleepSession := Function.update s.sleepSession u false
      waiting := Function.update s.waiting u none } : State E).enter u id) := by
    change State.resume s u = _
    unfold State.resume
    rw [Outcome.answers_bind hwake]
    change (if s.sleepSession u = true then _ else _) = _
    rw [if_pos hsleep]
    dsimp only
    rw [hid]
    dsimp only
    exact Outcome.assert_bind href _
  refine ⟨_, hstep, ?_, ?_⟩
  · change Function.update s.inside u (id :: s.inside u) u = [id]
    rw [Function.update_self, hfree u]
  · have hnext := (hs.resumes_step id hu href rfl).1
    rw [hline] at hnext
    exact (List.cons.inj hnext).2.symm

theorem wakeup_returned (s : State E) (t : Nat) : (s.wakeup t).returned = s.returned := by
  unfold State.wakeup
  split
  · rfl
  · rfl

theorem finish_returns (s : State E) (t : Nat) (err : Option E) :
    (step s (.finish t err)).Ensures fun s' => ∃ id rest, s.inside t = id :: rest ∧
      s'.returned = s.returned ++ [(id, err)] := by
  cases hinside : s.inside t with
  | nil =>
      simp only [step, State.finish, hinside]
      exact .stuck
  | cons id rest =>
      simp only [step, State.finish, hinside]
      refine .bind .answers fun _ _ => .pure ⟨id, rest, rfl, ?_⟩
      split
      · split
        · rfl
        · rw [wakeup_returned]
      · rfl

theorem Past.finish (hp : Past s) {err : Option E} (hstep : step s (.finish t err) = .ok s') :
    ∃ id rest, s.inside t = id :: rest ∧ s.callers[id]? = some t ∧
      s'.returned = s.returned ++ [(id, err)] ∧ id ∉ s.returned.map Prod.fst := by
  obtain ⟨id, rest, hinside, hreturned⟩ := finish_returns s t err s' hstep
  have hmine : id ∈ s.inside t := by simp [hinside]
  refine ⟨id, rest, hinside, (hp.active t id hmine).2, hreturned, fun hmem => ?_⟩
  obtain ⟨r, hr, rfl⟩ := List.mem_map.mp hmem
  exact (hp.gone r hr).2 t hmine

theorem call_silent (s : State E) (t : Nat) :
    (step s (.call t)).Ensures fun s' => s'.returned = s.returned := by
  refine Outcome.Ensures.bind .answers fun _ _ => ?_
  dsimp only
  split
  · exact .pure rfl
  · exact .pure rfl

theorem resume_silent (s : State E) (t : Nat) :
    (step s (.resume t)).Ensures fun s' => s'.returned = s.returned := by
  refine Outcome.Ensures.bind .answers fun _ _ => ?_
  dsimp only
  split
  · split
    · exact .stuck
    · exact .bind .assert fun _ _ => .pure rfl
  · exact .pure rfl

theorem queue_sound (hs : Reachable s) : Sound s where
  exclusive t u ht hu := by
    have hcurrent := hs.inv.current ht
    rw [hs.inv.current hu] at hcurrent
    exact (Option.some.inj hcurrent).symm
  reentrant t ht := hs.inv.call_of_inside ht
  asserts a e hfail := (step_ends hs.inv a).of_fail hfail
  inOrder := ⟨hs.past.ascending, hs.past.order⟩
  line := hs.inv.waits
  once := hs.past.once
  next t id rest hfree hline hid := hs.inv.resume_next hfree hline hid
  errors t err s' hstep := hs.past.finish hstep
  silent t s' hor := hor.elim (call_silent s t s') (resume_silent s t s')

/-- One coroutine calls twice, another waits and enters, and the first one gets its error. -/
theorem queue_sound_two : ∃ s : State Nat, s.entered = [0, 1, 2] ∧ s.queued = [2] ∧
    s.returned = [(1, some 7), (0, none)] ∧ Sound s := by
  have hfirst := Reachable.step (E := Nat) (a := .call 1) .start rfl
  have hnested := hfirst.step (a := .call 1) rfl
  have hwait := hnested.step (a := .call 2) rfl
  have herror := hwait.step (a := .finish 1 (some 7)) rfl
  have hdone := herror.step (a := .finish 1 none) rfl
  have hlast := hdone.step (a := .resume 2) rfl
  exact ⟨_, rfl, rfl, rfl, queue_sound hlast⟩

end Step

end Jump.Skynet.Queue
