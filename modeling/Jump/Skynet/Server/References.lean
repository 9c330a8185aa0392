import Jump.Skynet.Server.Code
import Mathlib.Tactic.Ring

/-! # Who counts in `ref`

A context's count is the number of threads that have to release it, and one more while it
is in the table.
-/

namespace Jump.Skynet.Server

open Jump.Core Jump.Core.Threads

/-- One for `c`, and nothing for the others. -/
def one (c c' : Nat) : Nat := if c' = c then 1 else 0

@[simp]
theorem one_self (c : Nat) : one c c = 1 := if_pos rfl

theorem one_of_ne {c c' : Nat} (h : c' ≠ c) : one c c' = 0 := if_neg h

namespace Pc

/-- The releases of `c` that a thread still has to do. Before the registration the creator
has that of the table, too. -/
def refs (c : Nat) : Pc → Nat
  | .newRegister c' => 2 * one c' c
  | .pushQueue c' _ | .use c' | .release c' _ | .newHandle c' _ | .newQueue c' _
  | .newInit c' _ | .newFailed c' _ | .message c' _ _ _ _ | .got c' _ _ _ _ _
  | .call c' _ _ _ _ | .next c' _ _ | .requeue c' _ _ _ => one c' c
  | _ => 0

/-- The creator has not set `ctx->queue` yet. -/
def early (c : Nat) : Pc → Nat
  | .newRegister c' | .newHandle c' _ | .newQueue c' _ => one c' c
  | _ => 0

/-- The creator has released the context and goes on to use it. -/
def tail (c : Nat) : Pc → Nat
  | .newReady c' _ | .newPush c' _ true | .newError c' => one c' c
  | _ => 0

/-- `delete_context` is going to mark the queue. -/
def marking (c : Nat) : Pc → Nat
  | .markRelease c' _ => one c' c
  | _ => 0

/-- The creator goes on with the context that it has released. -/
def Ok : Pc → Prop
  | .release c k | .markRelease c k | .free c k => ∀ c' q, k = .newTail c' q → c' = c
  | .retire _ k | .drop _ k | .dropping _ k | .freeQueue _ k => ∀ c q, k ≠ .newTail c q
  | _ => True

end Pc

/-- What counting reads and writes of a context. -/
structure Counted where
  ref : Int
  queue : Option Nat
  stored : Bool
  deleted : Bool

def Context.counted (x : Context) : Counted := ⟨x.ref, x.queue, x.stored, x.deleted⟩

/-- And of a queue. -/
structure Marked where
  owner : Nat
  release : Bool
  marked : Nat

def MessageQueue.mark (x : MessageQueue) : Marked := ⟨x.owner, x.release, x.marked⟩

structure Counts where
  context : Nat → Counted
  contexts : Nat
  queue : Nat → Marked
  queues : Nat

def State.counts (s : State) : Counts :=
  ⟨fun c => (s.context c).counted, s.contexts, fun q => (s.queue q).mark, s.queues⟩

namespace Counts

def setContext (s : Counts) (c : Nat) (x : Counted) : Counts :=
  { s with context := Function.update s.context c x }

def setQueue (s : Counts) (q : Nat) (x : Marked) : Counts :=
  { s with queue := Function.update s.queue q x }

@[simp]
theorem setContext_self (s : Counts) (c : Nat) : s.setContext c (s.context c) = s := by
  simp [setContext]

@[simp]
theorem setQueue_self (s : Counts) (q : Nat) : s.setQueue q (s.queue q) = s := by
  simp [setQueue]

end Counts

namespace State

variable (s : State)

theorem check_eq (b : Bool) (f : Fault) :
    s.check b f = { s with faults := (s.check b f).faults } := by
  unfold check
  split <;> rfl

@[simp]
theorem counts_check (b : Bool) (f : Fault) : (s.check b f).counts = s.counts := by
  rw [check_eq]
  rfl

@[simp]
theorem counts_fault (f : Fault) : (s.fault f).counts = s.counts := rfl

@[simp]
theorem counts_touch (c : Nat) : (s.touch c).counts = s.counts := counts_check s _ _

theorem queue_check (b : Bool) (f : Fault) : (s.check b f).queue = s.queue := by
  rw [check_eq]

@[simp]
theorem context_touch (c : Nat) : (s.touch c).context = s.context := by
  rw [touch, check_eq]

@[simp]
theorem counts_setContext (c : Nat) (x : Context) :
    (s.setContext c x).counts = s.counts.setContext c x.counted := by
  unfold counts setContext Counts.setContext
  congr 1
  funext c'
  by_cases hc : c' = c
  · subst hc
    simp
  · simp [hc]

@[simp]
theorem counts_setQueue (q : Nat) (x : MessageQueue) :
    (s.setQueue q x).counts = s.counts.setQueue q x.mark := by
  unfold counts setQueue Counts.setQueue
  congr 1
  funext q'
  by_cases hq : q' = q
  · subst hq
    simp
  · simp [hq]

@[simp]
theorem counts_globalPush (q : Nat) : (s.globalPush q).counts = s.counts := by
  show (s.check _ _).counts = s.counts
  exact counts_check s _ _

/-- The other members of a context do not count. -/
theorem counts_setContext_same {c : Nat} {x : Context}
    (h : x.counted = (s.context c).counted) : (s.setContext c x).counts = s.counts := by
  rw [counts_setContext, h]
  exact Counts.setContext_self s.counts c

theorem counts_setQueue_same {q : Nat} {x : MessageQueue} (h : x.mark = (s.queue q).mark) :
    (s.setQueue q x).counts = s.counts := by
  rw [counts_setQueue, h]
  exact Counts.setQueue_self s.counts q

theorem counts_touch_setContext {c : Nat} {x : Context}
    (h : x.counted = ((s.touch c).context c).counted) :
    ((s.touch c).setContext c x).counts = s.counts := by
  rw [counts_setContext_same (s.touch c) h, counts_touch]

@[simp]
theorem counts_contextGrab (c : Nat) : (s.contextGrab c).counts =
    s.counts.setContext c { s.counts.context c with ref := (s.context c).ref + 1 } :=
  counts_setContext s c _

@[simp]
theorem counts_mqPush (q m : Nat) : (s.mqPush q m).counts = s.counts := by
  have hset := s.counts_setQueue_same (q := q)
    (x := { s.queue q with
      ring := (s.queue q).ring.push m, inGlobal := true, pushed := (s.queue q).pushed ++ [m] }) rfl
  simp only [mqPush]
  split
  · exact hset
  · rw [counts_globalPush, hset]

@[simp]
theorem counts_mqMarkRelease (q : Nat) : (s.mqMarkRelease q).counts =
    s.counts.setQueue q ⟨(s.queue q).owner, true, (s.queue q).marked + 1⟩ := by
  simp only [mqMarkRelease]
  split
  · simp only [counts_setQueue, counts_check]
    rfl
  · simp only [counts_globalPush, counts_setQueue, counts_check]
    rfl

end State

def bit (b : Bool) : Nat := if b then 1 else 0

/-- What a step of a thread does to the counts. Besides those that leave them alone, a step
counts a holder of one context up or down, or a service is set up, or its queue is marked. -/
inductive CountStep (s : Counts) (pc : Pc) (s' : Counts) (pc' : Pc) : Prop
  | quiet (state : s' = s) (refs : ∀ c, pc'.refs c = pc.refs c)
      (early : ∀ c, pc'.early c = pc.early c) (tail : ∀ c, pc'.tail c ≤ pc.tail c)
      (marking : ∀ c, pc'.marking c = pc.marking c)
  | count (c : Nat) (x : Counted) (state : s' = s.setContext c x)
      (queue : x.queue = (s.context c).queue)
      (refs : ∀ c', c' ≠ c → pc'.refs c' = pc.refs c')
      (balance : (2 ≤ pc.refs c → (s.context c).stored = false) →
        x.ref + pc.refs c + bit (s.context c).stored =
          (s.context c).ref + pc'.refs c + bit x.stored)
      (single : pc'.refs c ≤ 1)
      (held : (s.context c).stored = true ∨ 0 < pc.refs c)
      (deleted : x.deleted = true ∧ x.ref = 0 ∨
        x.deleted = (s.context c).deleted ∧ (x.ref ≠ 0 ∨ x.stored = true ∨ 0 < pc'.refs c))
      (last : x.deleted = true → (s.context c).deleted = true ∨
        (∃ k, pc = .release c k) ∧ (s.context c).ref = 1)
      (early : ∀ c, pc'.early c = pc.early c)
      (tail : ∀ c', pc'.tail c' ≤ pc.tail c' ∨ c' = c ∧ x.deleted = (s.context c).deleted)
      (others : ∀ c', c' ≠ c → pc'.marking c' = pc.marking c')
      (marking : (s.context c).deleted = false → pc'.marking c = pc.marking c + bit x.deleted)
  | malloc (state : s' = { s.setContext s.contexts ⟨2, none, false, false⟩ with
        contexts := s.contexts + 1 })
      (refs : ∀ c, pc'.refs c = pc.refs c + 2 * one s.contexts c)
      (early : ∀ c, pc'.early c = pc.early c + one s.contexts c)
      (tail : ∀ c, pc'.tail c = pc.tail c) (marking : ∀ c, pc'.marking c = pc.marking c)
  | newQueue (c : Nat) (state : s' = { (s.setQueue s.queues ⟨c, false, 0⟩).setContext c
        { s.context c with queue := some s.queues } with queues := s.queues + 1 })
      (refs : ∀ c', pc'.refs c' = pc.refs c')
      (early : ∀ c', pc'.early c' + one c c' = pc.early c')
      (tail : ∀ c', pc'.tail c' = pc.tail c') (marking : ∀ c', pc'.marking c' = pc.marking c')
  | mark (c : Nat) (state : match (s.context c).queue with
        | none => s' = s
        | some q => s' = s.setQueue q ⟨(s.queue q).owner, true, (s.queue q).marked + 1⟩)
      (refs : ∀ c', pc'.refs c' = pc.refs c') (early : ∀ c', pc'.early c' = pc.early c')
      (tail : ∀ c', pc'.tail c' = pc.tail c')
      (marking : ∀ c', pc'.marking c' + one c c' = pc.marking c')

section Resume

variable (k : Then) (b : Bool) (c : Nat)

@[simp]
theorem refs_resume : (k.resume b).refs c = 0 := by
  cases k <;> cases b <;> rfl

@[simp]
theorem early_resume : (k.resume b).early c = 0 := by
  cases k <;> cases b <;> rfl

@[simp]
theorem marking_resume : (k.resume b).marking c = 0 := by
  cases k <;> cases b <;> rfl

@[simp]
theorem tail_resume_false : (k.resume false).tail c = 0 := by
  cases k <;> rfl

theorem tail_resume (h : ∀ c' q, k ≠ .newTail c' q) : (k.resume b).tail c = 0 := by
  cases k with
  | newTail c' q => exact absurd rfl (h c' q)
  | _ => cases b <;> rfl

end Resume

section Loop

variable (c q i n : Nat) (weight : Int) (c' : Nat)

@[simp]
theorem refs_loop : (loop c q i n weight).refs c' = one c c' := by
  unfold loop
  split <;> rfl

@[simp]
theorem early_loop : (loop c q i n weight).early c' = 0 := by
  unfold loop
  split <;> rfl

@[simp]
theorem tail_loop : (loop c q i n weight).tail c' = 0 := by
  unfold loop
  split <;> rfl

@[simp]
theorem marking_loop : (loop c q i n weight).marking c' = 0 := by
  unfold loop
  split <;> rfl

end Loop

/-- What a thread holds stays the same. -/
structure Pc.Keeps (pc pc' : Pc) : Prop where
  refs : ∀ c, pc'.refs c = pc.refs c
  early : ∀ c, pc'.early c = pc.early c
  tail : ∀ c, pc'.tail c ≤ pc.tail c
  marking : ∀ c, pc'.marking c = pc.marking c

theorem CountStep.of_keeps {s s' : Counts} {pc pc' : Pc} (hs : s' = s) (h : pc.Keeps pc') :
    CountStep s pc s' pc' :=
  .quiet hs h.refs h.early h.tail h.marking

theorem keeps_loop (c q i n : Nat) (weight : Int) {pc : Pc} (hrefs : ∀ c', pc.refs c' = one c c')
    (hearly : ∀ c', pc.early c' = 0) (hmarking : ∀ c', pc.marking c' = 0) :
    pc.Keeps (loop c q i n weight) where
  refs c' := by rw [refs_loop, hrefs]
  early c' := by rw [early_loop, hearly]
  tail c' := by
    rw [tail_loop]
    exact Nat.zero_le _
  marking c' := by rw [marking_loop, hmarking]

theorem keeps_resume {k : Then} {b : Bool} {pc : Pc} (hk : b = false ∨ ∀ c q, k ≠ .newTail c q)
    (hrefs : ∀ c', pc.refs c' = 0) (hearly : ∀ c', pc.early c' = 0)
    (hmarking : ∀ c', pc.marking c' = 0) : pc.Keeps (k.resume b) where
  refs c' := by rw [refs_resume, hrefs]
  early c' := by rw [early_resume, hearly]
  tail c' := by
    rcases hk with rfl | hk
    · rw [tail_resume_false]
      exact Nat.zero_le _
    · rw [tail_resume k b c' hk]
      exact Nat.zero_le _
  marking c' := by rw [marking_resume, hmarking]

theorem keeps_of_eq {pc pc' : Pc} (hrefs : ∀ c, pc'.refs c = pc.refs c)
    (hearly : ∀ c, pc'.early c = pc.early c) (htail : ∀ c, pc'.tail c = pc.tail c)
    (hmarking : ∀ c, pc'.marking c = pc.marking c) : pc.Keeps pc' :=
  ⟨hrefs, hearly, fun c => Nat.le_of_eq (htail c), hmarking⟩

theorem counts_grab {s : State} {handle c : Nat} {pc pc' : Pc} (hfound : s.Finds handle c)
    (hrefs : ∀ c', pc'.refs c' = pc.refs c' + one c c') (hpc : pc.refs c = 0)
    (hearly : ∀ c', pc'.early c' = pc.early c') (htail : ∀ c', pc'.tail c' = pc.tail c')
    (hmarking : ∀ c', pc'.marking c' = pc.marking c') :
    CountStep s.counts pc (s.contextGrab c).counts pc' := by
  have hc := hrefs c
  rw [one_self] at hc
  refine .count c { s.counts.context c with ref := (s.context c).ref + 1 }
    (s.counts_contextGrab c) rfl ?_ (fun _ => ?_) ?_ (.inl hfound.2.1) (.inr ⟨rfl, .inr (.inr ?_)⟩)
      (fun h => .inl h)
    hearly (fun c' => .inl (Nat.le_of_eq (htail c'))) (fun c' _ => hmarking c') ?_
  · intro c' hne
    rw [hrefs c', one_of_ne hne]
    rfl
  · show (s.context c).ref + 1 + pc.refs c + bit _ = (s.context c).ref + pc'.refs c + bit _
    rw [hc]
    push_cast
    ring
  · omega
  · show 0 < pc'.refs c
    omega
  · intro hdeleted
    show pc'.marking c = pc.marking c + bit (s.context c).deleted
    rw [hmarking c, show (s.context c).deleted = false from hdeleted]
    rfl

theorem move_counts {s s' : State} {pc pc' : Pc} {choice : Choice} (hok : pc.Ok)
    (h : move s pc choice = some (s', pc')) : CountStep s.counts pc s'.counts pc' := by
  revert h
  fun_cases move s pc choice
  all_goals intro h
  all_goals first
    | cases h; done
    | obtain ⟨rfl, rfl⟩ := Prod.mk.inj (Option.some.inj h)
  all_goals clear h
  all_goals try
    refine .quiet ?_ (fun _ => ?_) (fun _ => ?_) (fun _ => ?_) (fun _ => ?_) <;>
      simp +zetaDelta [Pc.refs, Pc.early, Pc.tail, Pc.marking]
    done
  case case2 handle m c hfound =>
    exact counts_grab hfound (fun _ => (Nat.zero_add _).symm) rfl (fun _ => rfl) (fun _ => rfl)
      (fun _ => rfl)
  case case7 handle c hfound =>
    exact counts_grab hfound (fun _ => (Nat.zero_add _).symm) rfl (fun _ => rfl) (fun _ => rfl)
      (fun _ => rfl)
  case case10 handle k =>
    exact .of_keeps rfl (keeps_resume (.inr hok) (fun _ => rfl) (fun _ => rfl) (fun _ => rfl))
  case case17 c k =>
    exact .of_keeps rfl (keeps_resume (.inl rfl) (fun _ => rfl) (fun _ => rfl) (fun _ => rfl))
  case case43 q k _ =>
    exact .of_keeps (s.counts_globalPush q)
      (keeps_resume (.inl rfl) (fun _ => rfl) (fun _ => rfl) (fun _ => rfl))
  case case46 q k =>
    exact .of_keeps (s.counts_setQueue_same rfl)
      (keeps_resume (.inl rfl) (fun _ => rfl) (fun _ => rfl) (fun _ => rfl))
  case case20 c handle x =>
    exact .of_keeps (s.counts_touch_setContext (by rfl))
      (keeps_of_eq (fun _ => rfl) (fun _ => rfl) (fun _ => rfl) (fun _ => rfl))
  case case22 c q x =>
    exact .of_keeps (s.counts_touch_setContext (by rfl))
      (keeps_of_eq (fun _ => rfl) (fun _ => rfl) (fun _ => rfl) (fun _ => rfl))
  case case25 c q x =>
    exact .of_keeps (s.counts_touch_setContext (by rfl))
      (keeps_of_eq (fun _ => rfl) (fun _ => rfl) (fun _ => rfl) (fun _ => rfl))
  case case37 c q i n weight x =>
    exact .of_keeps (s.counts_touch_setContext (by rfl))
      (keeps_of_eq (fun _ => rfl) (fun _ => rfl) (fun _ => rfl) (fun _ => rfl))
  case case29 weight q rest _ =>
    exact .of_keeps rfl
      (keeps_of_eq (fun _ => rfl) (fun _ => rfl) (fun _ => rfl) (fun _ => rfl))
  case case31 q weight c hfound =>
    exact counts_grab hfound (fun _ => (Nat.zero_add _).symm) rfl (fun _ => rfl) (fun _ => rfl)
      (fun _ => rfl)
  case case33 c q i n weight x _ =>
    exact .of_keeps (s.counts_setQueue_same rfl)
      (keeps_of_eq (fun _ => rfl) (fun _ => rfl) (fun _ => rfl) (fun _ => rfl))
  case case34 c q i n weight x m ring _ =>
    exact .of_keeps (s.counts_setQueue_same rfl)
      (keeps_of_eq (fun _ => rfl) (fun _ => rfl) (fun _ => rfl) (fun _ => rfl))
  case case44 q k x _ =>
    exact .of_keeps (s.counts_setQueue_same rfl)
      (keeps_of_eq (fun _ => rfl) (fun _ => rfl) (fun _ => rfl) (fun _ => rfl))
  case case45 q k x m ring _ =>
    exact .of_keeps (s.counts_setQueue_same rfl)
      (keeps_of_eq (fun _ => rfl) (fun _ => rfl) (fun _ => rfl) (fun _ => rfl))
  case case38 c q i n weight =>
    exact .of_keeps (s.counts_touch c)
      (keeps_loop c q i n weight (fun _ => rfl) (fun _ => rfl) (fun _ => rfl))
  case case36 c q m i n weight s₁ x n' _ =>
    refine .of_keeps (Eq.trans (State.counts_setQueue_same _ ?_) (s.counts_touch c))
      (keeps_loop c q i n' weight (fun _ => rfl) (fun _ => rfl) (fun _ => rfl))
    rfl
  case case35 c q m i n weight s₁ x n' _ s₂ =>
    have hs : s₂.counts = s.counts := (State.counts_check _ _ _).trans (s.counts_touch c)
    have hx : x = s₂.queue q := by
      show (s.touch c).queue q = _
      rw [State.queue_check]
    refine .of_keeps (Eq.trans (State.counts_setQueue_same _ ?_) hs)
      (keeps_of_eq (fun _ => rfl) (fun _ => rfl) (fun _ => rfl) (fun _ => rfl))
    rw [← hx]
    rfl
  case case40 c q weight s₁ s₂ nq rest _ =>
    have hs : s₂.counts = s.counts := (State.counts_check _ _ _).trans (s.counts_touch c)
    exact .of_keeps hs
      (keeps_of_eq (fun _ => rfl) (fun _ => rfl) (fun _ => rfl) (fun _ => rfl))
  case case23 c q ok =>
    cases ok
    · exact .of_keeps rfl
        (keeps_of_eq (fun _ => rfl) (fun _ => rfl) (fun _ => rfl) (fun _ => rfl))
    · exact .of_keeps rfl
        (keeps_of_eq (fun _ => rfl) (fun _ => rfl) (fun _ => rfl) (fun _ => rfl))
  case case26 c q ret =>
    cases ret
    · exact .of_keeps (s.counts_globalPush q)
        (keeps_of_eq (fun _ => rfl) (fun _ => rfl) (fun _ => rfl) (fun _ => rfl))
    · exact .of_keeps (s.counts_globalPush q)
        (keeps_of_eq (fun _ => rfl) (fun _ => rfl) (fun _ => rfl) (fun _ => rfl))
  case case11 handle k c hfound =>
    refine .count c { s.counts.context c with stored := false }
      (s.counts_setContext c _) rfl ?_ (fun _ => ?_) (Nat.le_of_eq (one_self c)) (.inl hfound.2.1)
        (.inr ⟨rfl, .inr (.inr ?_)⟩) (fun h => .inl h)
      (fun _ => rfl) (fun _ => .inl (Nat.le_refl _)) (fun _ _ => rfl) ?_
    · intro c' hne
      exact one_of_ne hne
    · show (s.context c).ref + (0 : Nat) + (bit (s.context c).stored : Nat) =
        (s.context c).ref + (one c c : Nat) + (bit false : Nat)
      rw [hfound.2.1, one_self]
      simp [bit]
    · show 0 < one c c
      rw [one_self]
      exact Nat.one_pos
    · intro hdeleted
      show 0 = 0 + bit (s.context c).deleted
      rw [show (s.context c).deleted = false from hdeleted]
      rfl
  case case13 c k s₁ ref hzero =>
    have hctx : s₁.context = s.context := s.context_touch c
    have hc : (s.context c).ref - 1 = 0 := by
      rw [← hctx]
      exact hzero
    refine .count c { s.counts.context c with ref := 0, deleted := true } ?_ rfl ?_ (fun _ => ?_)
      (Nat.zero_le 1) (.inr ?_) (.inl ⟨rfl, rfl⟩) (fun _ => .inr ⟨⟨k, rfl⟩, ?_⟩) (fun _ => rfl)
      (fun _ => .inl (Nat.le_refl _)) ?_ (fun _ => one_self c)
    · rw [State.counts_setContext, s.counts_touch, hctx, hzero]
      rfl
    · intro c' hne
      exact (one_of_ne hne).symm
    · show (0 : Int) + (one c c : Nat) + (bit (s.context c).stored : Nat) =
        (s.context c).ref + (0 : Nat) + (bit (s.context c).stored : Nat)
      rw [one_self]
      push_cast
      omega
    · show 0 < one c c
      rw [one_self]
      exact Nat.one_pos
    · show (s.context c).ref = 1
      omega
    · intro c' hne
      exact one_of_ne hne
  case case14 c k s₁ ref hne =>
    have hctx : s₁.context = s.context := s.context_touch c
    have hc : (s.context c).ref - 1 ≠ 0 := by
      rw [← hctx]
      exact hne
    refine .count c { s.counts.context c with ref := (s.context c).ref - 1 } ?_ rfl ?_
      (fun _ => ?_) ?_ (.inr ?_) (.inr ⟨rfl, .inl hc⟩) (fun h => .inl h)
        (fun c' => early_resume k true c')
      ?_ (fun c' _ => marking_resume k true c') ?_
    · rw [State.counts_setContext, s.counts_touch]
      congr 1
      show Context.counted { s₁.context c with ref := (s₁.context c).ref - 1 } = _
      rw [hctx]
      rfl
    · intro c' hne
      rw [refs_resume]
      exact (one_of_ne hne).symm
    · show (s.context c).ref - 1 + (one c c : Nat) + (bit (s.context c).stored : Nat) =
        (s.context c).ref + ((k.resume true).refs c : Nat) + (bit (s.context c).stored : Nat)
      rw [refs_resume, one_self]
      push_cast
      ring
    · rw [refs_resume]
      exact Nat.zero_le 1
    · show 0 < one c c
      rw [one_self]
      exact Nat.one_pos
    · intro c'
      by_cases hk : ∃ q, k = .newTail c' q
      · obtain ⟨q, rfl⟩ := hk
        exact .inr ⟨hok c' q rfl, rfl⟩
      · left
        have hzero : (k.resume true).tail c' = 0 := by
          cases k with
          | newTail c'' q => exact one_of_ne (fun h => hk ⟨q, by rw [h]⟩)
          | _ => rfl
        rw [hzero]
        exact Nat.zero_le _
    · intro hdeleted
      show (k.resume true).marking c = 0 + bit (s.context c).deleted
      rw [marking_resume, show (s.context c).deleted = false from hdeleted]
      rfl
  case case15 c k hqueue =>
    have hcounts : s.counts.context c = (s.context c).counted := rfl
    refine .mark c ?_ (fun _ => rfl) (fun _ => rfl) (fun _ => rfl) (fun _ => Nat.zero_add _)
    rw [show (s.counts.context c).queue = none from hqueue]
    exact s.counts_fault (.noQueue c)
  case case16 c k q hqueue =>
    refine .mark c ?_ (fun _ => rfl) (fun _ => rfl) (fun _ => rfl) (fun _ => Nat.zero_add _)
    rw [show (s.counts.context c).queue = some q from hqueue]
    exact s.counts_mqMarkRelease q
  case case18 s' =>
    refine .malloc ?_ (fun _ => (Nat.zero_add _).symm) (fun _ => (Nat.zero_add _).symm)
      (fun _ => rfl) (fun _ => rfl)
    show { s'.counts with contexts := s.contexts + 1 } = _
    rw [s.counts_setContext]
    rfl
  case case19 c handle s₁ =>
    have hctx : s₁.context = s.context := s.context_touch c
    refine .count c { s.counts.context c with stored := true } ?_ rfl ?_ (fun hstored => ?_)
      (Nat.le_of_eq (one_self c)) (.inr ?_) (.inr ⟨rfl, .inr (.inl rfl)⟩) (fun h => .inl h)
      (fun _ => rfl) (fun _ => .inl (Nat.le_refl _)) (fun _ _ => rfl) ?_
    · rw [State.counts_setContext, s.counts_touch, hctx]
      rfl
    · intro c' hne
      show one c c' = 2 * one c c'
      rw [one_of_ne hne]
    · have htwo : Pc.refs c (.newRegister c) = 2 := by
        show 2 * one c c = 2
        rw [one_self]
      have hfalse : (s.context c).stored = false := hstored (by rw [htwo])
      show (s.context c).ref + (Pc.refs c (.newRegister c) : Nat) +
          (bit (s.context c).stored : Nat) =
        (s.context c).ref + (one c c : Nat) + (bit true : Nat)
      rw [htwo, hfalse, one_self]
      show (s.context c).ref + 2 + 0 = (s.context c).ref + 1 + 1
      ring
    · show 0 < 2 * one c c
      rw [one_self]
      exact Nat.two_pos
    · intro hdeleted
      show 0 = 0 + bit (s.context c).deleted
      rw [show (s.context c).deleted = false from hdeleted]
      rfl
  case case21 c handle s₁ s' =>
    have hs : s₁.counts = s.counts := s.counts_touch c
    have hctx : s₁.context = s.context := s.context_touch c
    refine .newQueue c ?_ (fun _ => rfl) (fun _ => Nat.zero_add _) (fun _ => rfl) (fun _ => rfl)
    show { s'.counts with queues := s₁.counts.queues + 1 } = _
    have hqueues : s₁.queues = s.queues := congrArg Counts.queues hs
    rw [State.counts_setContext, State.counts_setQueue, hs, hctx, hqueues]
    rfl

end Jump.Skynet.Server
