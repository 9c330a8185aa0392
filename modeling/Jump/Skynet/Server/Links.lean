import Jump.Skynet.Server.Counting

/-! # Who has a queue

A queue is in the global queue, or a thread has it, or it has been freed. The flags
`in_global` and `release` tell a thread that links a queue whether another one has it.
-/

namespace Jump.Skynet.Server

open Jump.Core Jump.Core.Threads

def Then.holds (q : Nat) : Then → Nat
  | .work q' _ | .newTail _ q' | .newRetire _ q' | .newDrop q' => one q' q
  | _ => 0

/-- How often a thread has the queue `q`. -/
def Pc.holds (q : Nat) : Pc → Nat
  | .newInit _ q' | .newFailed _ q' | .newReady _ q' | .newPush _ q' _ | .work q' _
  | .message _ q' _ _ _ | .got _ q' _ _ _ _ | .call _ q' _ _ _ | .next _ q' _ => one q' q
  | .requeue _ q' nq _ => one q' q + one nq q
  | .drop q' k | .dropping q' k | .freeQueue q' k => one q' q + k.holds q
  | .retire _ k | .release _ k | .markRelease _ k | .free _ k => k.holds q
  | _ => 0

@[simp]
theorem holds_resume (k : Then) (b : Bool) (q : Nat) : (k.resume b).holds q = k.holds q := by
  cases k <;> cases b <;> rfl

@[simp]
theorem holds_loop (c q i n : Nat) (weight : Int) (q' : Nat) :
    (loop c q i n weight).holds q' = one q q' := by
  unfold loop
  split <;> rfl

/-- What linking reads and writes of a queue. -/
structure Flags where
  inGlobal : Bool
  release : Bool
  freed : Bool

def MessageQueue.flags (x : MessageQueue) : Flags := ⟨x.inGlobal, x.release, x.freed⟩

structure Links where
  queue : Nat → Flags
  queues : Nat
  global : List Nat

def State.links (s : State) : Links := ⟨fun q => (s.queue q).flags, s.queues, s.global⟩

namespace Links

def setQueue (s : Links) (q : Nat) (x : Flags) : Links :=
  { s with queue := Function.update s.queue q x }

def push (s : Links) (q : Nat) : Links := { s with global := s.global ++ [q] }

/-- What the global queue, a thread and the freed memory have of a queue. -/
def share (s : Links) (pc : Pc) (q : Nat) : Nat :=
  s.global.count q + pc.holds q + bit (s.queue q).freed

@[simp]
theorem setQueue_self (s : Links) (q : Nat) : s.setQueue q (s.queue q) = s := by
  simp [setQueue]

theorem setQueue_of_ne (s : Links) (x : Flags) {q q' : Nat} (h : q' ≠ q) :
    (s.setQueue q x).queue q' = s.queue q' := by
  simp [setQueue, h]

theorem setQueue_self' (s : Links) (q : Nat) (x : Flags) : (s.setQueue q x).queue q = x := by
  simp [setQueue]

theorem share_setQueue {s : Links} {pc : Pc} {q : Nat} {x : Flags}
    (h : x.freed = (s.queue q).freed) (q' : Nat) :
    (s.setQueue q x).share pc q' = s.share pc q' := by
  unfold share
  by_cases hq : q' = q
  · rw [hq, setQueue_self', h]
    rfl
  · rw [setQueue_of_ne s x hq]
    rfl

theorem count_push (s : Links) (q q' : Nat) :
    (s.push q).global.count q' = s.global.count q' + one q q' := by
  show (s.global ++ [q]).count q' = _
  rw [List.count_append, List.count_singleton]
  unfold one
  by_cases h : q' = q
  · simp [h]
  · simp [h, Ne.symm h]

end Links

namespace State

variable (s : State)

@[simp]
theorem links_check (b : Bool) (f : Fault) : (s.check b f).links = s.links := by
  rw [check_eq]
  rfl

@[simp]
theorem links_fault (f : Fault) : (s.fault f).links = s.links := rfl

@[simp]
theorem links_touch (c : Nat) : (s.touch c).links = s.links := links_check s _ _

@[simp]
theorem links_setContext (c : Nat) (x : Context) : (s.setContext c x).links = s.links := rfl

@[simp]
theorem links_contextGrab (c : Nat) : (s.contextGrab c).links = s.links := rfl

@[simp]
theorem links_setQueue (q : Nat) (x : MessageQueue) :
    (s.setQueue q x).links = s.links.setQueue q x.flags := by
  unfold links setQueue Links.setQueue
  congr 1
  funext q'
  by_cases hq : q' = q
  · subst hq
    simp
  · simp [hq]

theorem links_setQueue_same {q : Nat} {x : MessageQueue} (h : x.flags = (s.queue q).flags) :
    (s.setQueue q x).links = s.links := by
  rw [links_setQueue, h]
  exact Links.setQueue_self s.links q

@[simp]
theorem links_globalPush (q : Nat) : (s.globalPush q).links = s.links.push q := by
  show (s.check _ _).links.push q = s.links.push q
  rw [links_check]

theorem links_mqPush (q m : Nat) : (s.mqPush q m).links =
    if (s.queue q).inGlobal then s.links.setQueue q { (s.queue q).flags with inGlobal := true }
    else (s.links.setQueue q { (s.queue q).flags with inGlobal := true }).push q := by
  simp only [mqPush]
  split
  · exact s.links_setQueue q _
  · rw [links_globalPush, links_setQueue]
    rfl

theorem links_mqMarkRelease (q : Nat) : (s.mqMarkRelease q).links =
    if (s.queue q).inGlobal then s.links.setQueue q { (s.queue q).flags with release := true }
    else (s.links.setQueue q { (s.queue q).flags with release := true }).push q := by
  simp only [mqMarkRelease]
  split
  · rw [links_setQueue, links_check]
    rfl
  · rw [links_globalPush, links_setQueue, links_check]
    rfl

end State

/-- What a step of a thread does to the links. A thread passes a queue on, or it takes it up
because the flags say that nobody has it, or it lets an empty queue go. -/
inductive LinkStep (queueOf : Nat → Option Nat) (s : Links) (pc : Pc) (s' : Links) (pc' : Pc) :
    Prop
  | pass (queues : s'.queues = s.queues)
      (inGlobal : ∀ q, (s'.queue q).inGlobal = (s.queue q).inGlobal)
      (release : ∀ q, (s'.queue q).release = (s.queue q).release)
      (freed : ∀ q, (s'.queue q).freed = true →
        (s.queue q).freed = true ∨ ∃ k, pc = .freeQueue q k)
      (kept : ∀ q, (s.queue q).freed = true → (s'.queue q).freed = true)
      (share : ∀ q, s.share pc q ≤ 1 → s'.share pc' q = s.share pc q)
  | take (q : Nat) (user : ∃ c, queueOf c = some q ∧
        ((∃ m, pc = .pushQueue c m) ∨ ∃ k, pc = .markRelease c k))
      (queues : s'.queues = s.queues)
      (x : Flags) (queue : s'.queue = (s.setQueue q x).queue)
      (freed : x.freed = (s.queue q).freed)
      (flags : x.inGlobal = true ∧ x.release = (s.queue q).release ∨
        x.inGlobal = (s.queue q).inGlobal ∧ x.release = true)
      (share : ∀ q', s'.share pc' q' = s.share pc q' + one q q' * bit (!(s.queue q).inGlobal))
  | drop (q : Nat) (queues : s'.queues = s.queues)
      (queue : s'.queue = (s.setQueue q { s.queue q with inGlobal := false }).queue)
      (share : (∃ c i n weight, pc = .message c q i n weight) ∧
          (∀ q', s'.share pc' q' + one q q' = s.share pc q') ∨
        (∃ k, pc = .dropping q k) ∧ ∀ q', s'.share pc' q' = s.share pc q')
  | create (queues : s'.queues = s.queues + 1)
      (queue : s'.queue = (s.setQueue s.queues ⟨true, false, false⟩).queue)
      (share : ∀ q', s'.share pc' q' + one s.queues q' * bit (s.queue s.queues).freed =
        s.share pc q' + one s.queues q')

section Shapes

variable {queueOf : Nat → Option Nat} {s s' : Links} {pc pc' : Pc} {q : Nat}

theorem LinkStep.of_same (hs : s' = s)
    (h : ∀ q, pc'.holds q = pc.holds q) : LinkStep queueOf s pc s' pc' := by
  subst hs
  exact .pass rfl (fun _ => rfl) (fun _ => rfl) (fun _ hf => .inl hf) (fun _ => id)
    (fun q _ => by rw [Links.share, Links.share, h q])

/-- `skynet_globalmq_push` of a queue that the thread has. -/
theorem LinkStep.of_push (hs : s' = s.push q)
    (h : ∀ q', pc'.holds q' + one q q' = pc.holds q') : LinkStep queueOf s pc s' pc' := by
  subst hs
  refine .pass rfl (fun _ => rfl) (fun _ => rfl) (fun _ hf => .inl hf) (fun _ => id)
    fun q' _ => ?_
  have hcount := s.count_push q q'
  have hq := h q'
  show (s.push q).global.count q' + pc'.holds q' + bit (s.queue q').freed = _
  unfold Links.share
  omega

/-- `skynet_globalmq_pop` -/
theorem LinkStep.of_pop {rest : List Nat} (hglobal : s.global = q :: rest)
    (hs : s' = { s with global := rest }) (h : ∀ q', pc'.holds q' = pc.holds q' + one q q') :
      LinkStep queueOf s pc s' pc' := by
  subst hs
  refine .pass rfl (fun _ => rfl) (fun _ => rfl) (fun _ hf => .inl hf) (fun _ => id)
    fun q' _ => ?_
  have hcount : s.global.count q' = rest.count q' + one q q' := by
    rw [hglobal, List.count_cons]
    unfold one
    by_cases hq : q' = q
    · simp [hq]
    · simp [hq, Ne.symm hq]
  have hq := h q'
  show rest.count q' + pc'.holds q' + bit (s.queue q').freed = _
  unfold Links.share
  omega

/-- A queue is linked unless the flags say that it is. -/
theorem LinkStep.of_take {x : Flags}
    (user : ∃ c, queueOf c = some q ∧ ((∃ m, pc = .pushQueue c m) ∨ ∃ k, pc = .markRelease c k))
    (hs : s' = if (s.queue q).inGlobal then s.setQueue q x else (s.setQueue q x).push q)
    (hfreed : x.freed = (s.queue q).freed)
    (hflags : x.inGlobal = true ∧ x.release = (s.queue q).release ∨
      x.inGlobal = (s.queue q).inGlobal ∧ x.release = true)
    (h : ∀ q', pc'.holds q' = pc.holds q') : LinkStep queueOf s pc s' pc' := by
  have hqueue : s'.queue = (s.setQueue q x).queue := by
    rw [hs]
    split <;> rfl
  have hqueues : s'.queues = s.queues := by
    rw [hs]
    split <;> rfl
  have hglobal : ∀ q', s'.global.count q' =
      s.global.count q' + one q q' * bit (!(s.queue q).inGlobal) := by
    intro q'
    rw [hs]
    cases (s.queue q).inGlobal with
    | true => exact (Nat.add_zero _).symm
    | false =>
        rw [if_neg (by decide), Links.count_push]
        exact (congrArg _ (Nat.mul_one _)).symm
  have hsame : ∀ q', (s'.queue q').freed = (s.queue q').freed := by
    intro q'
    rw [hqueue]
    by_cases hq : q' = q
    · rw [hq, Links.setQueue_self', hfreed]
    · rw [Links.setQueue_of_ne s x hq]
  refine .take q user hqueues x hqueue hfreed hflags fun q' => ?_
  unfold Links.share
  rw [hglobal, hsame, h q']
  omega

/-- Both flags are clear only where they were, or after a thread has found the queue empty. -/
theorem LinkStep.flags (h : LinkStep queueOf s pc s' pc') (hin : (s'.queue q).inGlobal = false)
    (hrelease : (s'.queue q).release = false) :
    (s.queue q).inGlobal = false ∧ (s.queue q).release = false ∨
      (∃ c i n weight, pc = .message c q i n weight) ∨ ∃ k, pc = .dropping q k := by
  cases h with
  | pass queues inGlobal release freed kept share =>
      exact .inl ⟨(inGlobal q).symm.trans hin, (release q).symm.trans hrelease⟩
  | take q' user queues x queue freed flags share =>
      rw [queue] at hin hrelease
      by_cases hq : q = q'
      · rw [hq, Links.setQueue_self'] at hin hrelease
        rcases flags with ⟨hx, -⟩ | ⟨-, hx⟩
        · rw [hx] at hin
          cases hin
        · rw [hx] at hrelease
          cases hrelease
      · rw [Links.setQueue_of_ne s x hq] at hin hrelease
        exact .inl ⟨hin, hrelease⟩
  | drop q' queues queue share =>
      by_cases hq : q = q'
      · rw [hq]
        rcases share with ⟨hpc, -⟩ | ⟨hpc, -⟩
        · exact .inr (.inl hpc)
        · exact .inr (.inr hpc)
      · rw [queue, Links.setQueue_of_ne s _ hq] at hin hrelease
        exact .inl ⟨hin, hrelease⟩
  | create queues queue share =>
      rw [queue] at hin hrelease
      by_cases hq : q = s.queues
      · rw [hq, Links.setQueue_self'] at hin
        cases hin
      · rw [Links.setQueue_of_ne s _ hq] at hin hrelease
        exact .inl ⟨hin, hrelease⟩

/-- A mark stays. -/
theorem LinkStep.release (h : LinkStep queueOf s pc s' pc') (hq : q ≠ s.queues)
    (hrelease : (s.queue q).release = true) : (s'.queue q).release = true := by
  cases h with
  | pass queues inGlobal release freed kept share => rw [release q, hrelease]
  | take q' user queues x queue freed flags share =>
      rw [queue]
      by_cases hne : q = q'
      · subst hne
        rw [Links.setQueue_self']
        rcases flags with ⟨-, hx⟩ | ⟨-, hx⟩
        · rw [hx, hrelease]
        · exact hx
      · rw [Links.setQueue_of_ne s x hne, hrelease]
  | drop q' queues queue share =>
      rw [queue]
      by_cases hne : q = q'
      · subst hne
        rw [Links.setQueue_self']
        exact hrelease
      · rw [Links.setQueue_of_ne s _ hne, hrelease]
  | create queues queue share => rw [queue, Links.setQueue_of_ne s _ hq, hrelease]

theorem LinkStep.freed (h : LinkStep queueOf s pc s' pc') (hfreed : (s'.queue q).freed = true) :
    (s.queue q).freed = true ∨ ∃ k, pc = .freeQueue q k := by
  cases h with
  | pass queues inGlobal release freed kept share => exact freed q hfreed
  | take q' user queues x queue freed flags share =>
      rw [queue] at hfreed
      by_cases hne : q = q'
      · subst hne
        rw [Links.setQueue_self', freed] at hfreed
        exact .inl hfreed
      · rw [Links.setQueue_of_ne s x hne] at hfreed
        exact .inl hfreed
  | drop q' queues queue share =>
      rw [queue] at hfreed
      by_cases hne : q = q'
      · subst hne
        rw [Links.setQueue_self'] at hfreed
        exact .inl hfreed
      · rw [Links.setQueue_of_ne s _ hne] at hfreed
        exact .inl hfreed
  | create queues queue share =>
      rw [queue] at hfreed
      by_cases hne : q = s.queues
      · rw [hne, Links.setQueue_self'] at hfreed
        cases hfreed
      · rw [Links.setQueue_of_ne s _ hne] at hfreed
        exact .inl hfreed

theorem LinkStep.kept (h : LinkStep queueOf s pc s' pc') (hq : q ≠ s.queues)
    (hfreed : (s.queue q).freed = true) : (s'.queue q).freed = true := by
  cases h with
  | pass queues inGlobal release freed kept share => exact kept q hfreed
  | take q' user queues x queue freed flags share =>
      rw [queue]
      by_cases hne : q = q'
      · subst hne
        rw [Links.setQueue_self', freed, hfreed]
      · rw [Links.setQueue_of_ne s x hne, hfreed]
  | drop q' queues queue share =>
      rw [queue]
      by_cases hne : q = q'
      · subst hne
        rw [Links.setQueue_self']
        exact hfreed
      · rw [Links.setQueue_of_ne s _ hne, hfreed]
  | create queues queue share => rw [queue, Links.setQueue_of_ne s _ hq, hfreed]

end Shapes

def State.queueOf (s : State) (c : Nat) : Option Nat := (s.context c).queue

theorem move_links {s s' : State} {pc pc' : Pc} {choice : Choice}
    (h : move s pc choice = some (s', pc')) : LinkStep s.queueOf s.links pc s'.links pc' := by
  revert h
  fun_cases move s pc choice
  all_goals intro h
  all_goals first
    | cases h; done
    | obtain ⟨rfl, rfl⟩ := Prod.mk.inj (Option.some.inj h)
  all_goals clear h
  all_goals try
    refine .of_same ?_ (fun _ => ?_) <;> simp +zetaDelta [Pc.holds, Then.holds]
    done
  case case5 c m s₁ q hqueue =>
    have hs : s₁.links = s.links := s.links_touch c
    have huser : s.queueOf c = some q := by
      show (s.context c).queue = some q
      rw [← s.context_touch c]
      exact hqueue
    refine .of_take (s := s.links) (q := q) (x := { (s₁.queue q).flags with inGlobal := true })
      ⟨c, huser, .inl ⟨m, rfl⟩⟩ ?_ ?_ (.inl ⟨rfl, ?_⟩) (fun _ => rfl)
    · rw [← hs]
      exact s₁.links_mqPush q m
    · rw [← hs]
      rfl
    · rw [← hs]
      rfl
  case case16 c k q hqueue =>
    exact .of_take ⟨c, hqueue, .inr ⟨k, rfl⟩⟩ (s.links_mqMarkRelease q) rfl (.inr ⟨rfl, rfl⟩)
      (fun _ => rfl)
  case case10 handle k => exact .of_same rfl (holds_resume k true)
  case case17 c k => exact .of_same rfl (holds_resume k false)
  case case14 c k s₁ ref _ => exact .of_same (s.links_touch c) (holds_resume k true)
  case case18 s' => exact .of_same rfl (fun _ => rfl)
  case case23 c q ok =>
    cases ok
    · exact .of_same rfl (fun _ => rfl)
    · exact .of_same rfl (fun _ => rfl)
  case case26 c q ret =>
    cases ret
    · exact .of_push (s.links_globalPush q) (fun _ => Nat.zero_add _)
    · exact .of_push (s.links_globalPush q) (fun _ => Nat.zero_add _)
  case case29 weight q rest hglobal =>
    exact .of_pop hglobal rfl (fun _ => (Nat.zero_add _).symm)
  case case40 c q weight s₁ s₂ nq rest hglobal =>
    have hs : s₂.links = s.links := (State.links_check _ _ _).trans (s.links_touch c)
    have hglobal' : s.links.global = nq :: rest := by
      rw [← hs]
      exact hglobal
    refine .of_pop hglobal' ?_ (fun _ => rfl)
    rw [← hs]
    rfl
  case case41 c q nq weight =>
    exact .of_push (s.links_globalPush q) (fun _ => Nat.add_comm _ _)
  case case43 q k _ =>
    refine .of_push (s.links_globalPush q) (fun q' => ?_)
    rw [holds_resume]
    exact Nat.add_comm _ _
  case case33 c q i n weight x _ =>
    have hs : (s.setQueue q { x with inGlobal := false }).links =
      s.links.setQueue q { s.links.queue q with inGlobal := false } := s.links_setQueue q _
    refine .drop q rfl ?_ (.inl ⟨⟨c, i, n, weight, rfl⟩, fun q' => ?_⟩)
    · rw [hs]
    · rw [hs, Links.share_setQueue (by rfl)]
      simp only [Links.share, Pc.holds, Then.holds]
      omega
  case case44 q k x _ =>
    have hs : (s.setQueue q { x with inGlobal := false }).links =
      s.links.setQueue q { s.links.queue q with inGlobal := false } := s.links_setQueue q _
    refine .drop q rfl ?_ (.inr ⟨⟨k, rfl⟩, fun q' => ?_⟩)
    · rw [hs]
    · rw [hs, Links.share_setQueue (by rfl)]
      rfl
  case case34 c q i n weight x m ring _ =>
    exact .of_same (s.links_setQueue_same rfl) (fun _ => rfl)
  case case45 q k x m ring _ =>
    exact .of_same (s.links_setQueue_same rfl) (fun _ => rfl)
  case case38 c q i n weight => exact .of_same (s.links_touch c) (holds_loop c q i n weight)
  case case36 c q m i n weight s₁ x n' _ =>
    refine .of_same (Eq.trans (State.links_setQueue_same _ ?_) (s.links_touch c))
      (holds_loop c q i n' weight)
    rfl
  case case35 c q m i n weight s₁ x n' _ s₂ =>
    have hs : s₂.links = s.links := (State.links_check _ _ _).trans (s.links_touch c)
    have hx : x = s₂.queue q := by
      show (s.touch c).queue q = _
      rw [State.queue_check]
    refine .of_same (Eq.trans (State.links_setQueue_same _ ?_) hs) (fun _ => rfl)
    rw [← hx]
    rfl
  case case46 q k =>
    have hs : (s.setQueue q { s.queue q with freed := true }).links =
      s.links.setQueue q { s.links.queue q with freed := true } := s.links_setQueue q _
    rw [hs]
    have hflags : ∀ q', (s.links.setQueue q { s.links.queue q with freed := true }).queue q' =
        { s.links.queue q' with freed := decide (q' = q) || (s.links.queue q').freed } := by
      intro q'
      by_cases hq : q' = q
      · rw [hq, Links.setQueue_self']
        simp
      · rw [Links.setQueue_of_ne _ _ hq]
        simp [hq]
    refine .pass rfl (fun q' => by rw [hflags]) (fun q' => by rw [hflags]) ?_
      (fun q' hf => by simp [hflags, hf]) ?_
    · intro q' hfreed
      rw [hflags] at hfreed
      rcases Bool.or_eq_true_iff.mp hfreed with hq | hq
      · rw [decide_eq_true_eq] at hq
        exact .inr ⟨k, by rw [hq]⟩
      · exact .inl hq
    · intro q' hle
      unfold Links.share at hle ⊢
      rw [hflags, holds_resume]
      simp only [Pc.holds] at hle ⊢
      show s.links.global.count q' + k.holds q' + bit _ = _
      by_cases hq : q' = q
      · subst hq
        rw [one_self] at hle ⊢
        cases hf : (s.links.queue q').freed with
        | true =>
            rw [hf] at hle
            simp only [bit, if_true] at hle
            omega
        | false =>
            simp only [decide_true, Bool.true_or, bit, if_true, Bool.false_eq_true, if_false]
            omega
      · rw [one_of_ne hq, decide_eq_false hq, Bool.false_or]
        omega
  case case21 c handle s₁ s' =>
    have hs : s₁.links = s.links := s.links_touch c
    have hqueues : s₁.queues = s.queues := congrArg Links.queues hs
    have hlinks : (s₁.setQueue s₁.queues (mqCreate handle c)).links =
        s.links.setQueue s.queues ⟨true, false, false⟩ := by
      rw [State.links_setQueue, hs, hqueues]
      rfl
    have hqueue : ∀ q, (s'.queue q).flags =
        (s.links.setQueue s.queues ⟨true, false, false⟩).queue q := fun q =>
      congrFun (congrArg Links.queue hlinks) q
    have hglobal : s'.global = s.global := congrArg Links.global hlinks
    refine .create (congrArg (· + 1) hqueues) (funext hqueue) fun q' => ?_
    show s'.global.count q' + one s₁.queues q' + bit (s'.queue q').flags.freed + _ =
      s.global.count q' + 0 + bit (s.links.queue q').freed + one s.queues q'
    rw [hglobal, hqueues, hqueue]
    show _ + one s.queues q' * bit (s.links.queue s.queues).freed = _
    by_cases hq : q' = s.queues
    · rw [hq, Links.setQueue_self', one_self]
      simp only [bit, Bool.false_eq_true, if_false]
      omega
    · rw [Links.setQueue_of_ne _ _ hq, one_of_ne hq]
      omega

end Jump.Skynet.Server
