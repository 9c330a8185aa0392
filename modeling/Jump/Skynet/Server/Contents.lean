import Jump.Skynet.Server.Lifetime

/-! # What is in a queue

The messages pushed to a queue are those that have been dealt with, the one that a worker has
popped, and those in the ring, in this order.
-/

namespace Jump.Skynet.Server

open Jump.Core Jump.Core.Threads

structure Content where
  owner : Nat
  handle : Nat
  ring : List Nat
  pushed : List Nat
  taken : Option Nat
  log : List (Nat × Fate)

def MessageQueue.content (x : MessageQueue) : Content :=
  ⟨x.owner, x.handle, x.ring.toList, x.pushed, x.taken, x.log⟩

/-- The message that a worker has popped. -/
def Pc.hand : Pc → Option (Nat × Nat)
  | .got _ q m _ _ _ => some (q, m)
  | _ => none

structure Contents where
  queue : Nat → Content
  queues : Nat

def State.contents (s : State) : Contents := ⟨fun q => (s.queue q).content, s.queues⟩

namespace Contents

def setQueue (s : Contents) (q : Nat) (x : Content) : Contents :=
  { s with queue := Function.update s.queue q x }

@[simp]
theorem setQueue_self (s : Contents) (q : Nat) : s.setQueue q (s.queue q) = s := by
  simp [setQueue]

theorem setQueue_of_ne (s : Contents) (x : Content) {q q' : Nat} (h : q' ≠ q) :
    (s.setQueue q x).queue q' = s.queue q' := by
  simp [setQueue, h]

theorem setQueue_self' (s : Contents) (q : Nat) (x : Content) : (s.setQueue q x).queue q = x := by
  simp [setQueue]

end Contents

namespace State

variable (s : State)

@[simp]
theorem contents_check (b : Bool) (f : Fault) : (s.check b f).contents = s.contents := by
  rw [check_eq]
  rfl

@[simp]
theorem contents_fault (f : Fault) : (s.fault f).contents = s.contents := rfl

@[simp]
theorem contents_touch (c : Nat) : (s.touch c).contents = s.contents := contents_check s _ _

@[simp]
theorem contents_setContext (c : Nat) (x : Context) : (s.setContext c x).contents = s.contents :=
  rfl

@[simp]
theorem contents_contextGrab (c : Nat) : (s.contextGrab c).contents = s.contents := rfl

@[simp]
theorem contents_setQueue (q : Nat) (x : MessageQueue) :
    (s.setQueue q x).contents = s.contents.setQueue q x.content := by
  unfold contents setQueue Contents.setQueue
  congr 1
  funext q'
  by_cases hq : q' = q
  · subst hq
    simp
  · simp [hq]

theorem contents_setQueue_same {q : Nat} {x : MessageQueue}
    (h : x.content = (s.queue q).content) : (s.setQueue q x).contents = s.contents := by
  rw [contents_setQueue, h]
  exact Contents.setQueue_self s.contents q

@[simp]
theorem contents_globalPush (q : Nat) : (s.globalPush q).contents = s.contents :=
  contents_check s _ _

theorem contents_mqPush (q m : Nat) : (s.mqPush q m).contents =
    s.contents.setQueue q { (s.queue q).content with
      ring := (s.queue q).content.ring ++ [m], pushed := (s.queue q).pushed ++ [m] } := by
  have hset : (s.setQueue q { s.queue q with
      ring := (s.queue q).ring.push m, inGlobal := true,
      pushed := (s.queue q).pushed ++ [m] }).contents = _ := s.contents_setQueue q _
  simp only [MessageQueue.content, RingBuffer.toList_push] at hset
  simp only [mqPush]
  split
  · exact hset
  · rw [contents_globalPush]
    exact hset

@[simp]
theorem contents_mqMarkRelease (q : Nat) : (s.mqMarkRelease q).contents = s.contents := by
  have hset : ((s.check (!(s.queue q).release) (.markedTwice q)).setQueue q { s.queue q with
      release := true, marked := (s.queue q).marked + 1 }).contents = s.contents := by
    rw [contents_setQueue, contents_check]
    exact Contents.setQueue_self s.contents q
  simp only [mqMarkRelease]
  split
  · exact hset
  · rw [contents_globalPush]
    exact hset

end State

/-- What a step of a thread does to the contents of the queues. -/
inductive ContentStep (queueOf : Nat → Option Nat) (l l' : Links) (s : Contents) (pc : Pc)
    (s' : Contents) (pc' : Pc) : Prop
  | same (state : s' = s) (hand : pc'.hand = pc.hand)
      (message : ∀ c q i n weight, pc = .message c q i n weight → (s.queue q).ring = [])
      (dropping : ∀ q k, pc = .dropping q k → (s.queue q).ring = [])
      (free : ∀ q k, pc' = .freeQueue q k → pc = .dropping q k)
  | push (c q m : Nat) (hpc : pc = .pushQueue c m) (hqueue : queueOf c = some q)
      (state : s' = s.setQueue q { s.queue q with
        ring := (s.queue q).ring ++ [m], pushed := (s.queue q).pushed ++ [m] })
      (linked : (l'.queue q).inGlobal = true) (hand : pc'.hand = none)
      (free : ∀ q k, pc' ≠ .freeQueue q k)
  | pop (c q m i n : Nat) (weight : Int) (ring : List Nat) (hpc : pc = .message c q i n weight)
      (hring : (s.queue q).ring = m :: ring)
      (state : s' = s.setQueue q { s.queue q with ring := ring, taken := some m }) (links : l' = l)
      (hand : pc'.hand = some (q, m)) (free : ∀ q k, pc' ≠ .freeQueue q k)
  | handle (c q m i n : Nat) (weight : Int) (fate : Fate) (hpc : pc = .got c q m i n weight)
      (hfate : fate ≠ .dropped)
      (state : s' = s.setQueue q { s.queue q with
        taken := none, log := (s.queue q).log ++ [(m, fate)] })
      (hand : pc'.hand = none) (free : ∀ q k, pc' ≠ .freeQueue q k)
  | drop (q m : Nat) (k : Then) (ring : List Nat) (hpc : pc = .dropping q k)
      (hring : (s.queue q).ring = m :: ring)
      (state : s' = s.setQueue q { s.queue q with
        ring := ring, log := (s.queue q).log ++ [(m, .dropped)] })
      (links : l' = l) (hand : pc'.hand = none) (free : ∀ q k, pc' ≠ .freeQueue q k)
  | create (owner handle : Nat)
      (state : s' = { s.setQueue s.queues ⟨owner, handle, [], [], none, []⟩ with
        queues := s.queues + 1 })
      (hpc : pc = .newQueue owner handle) (hand : pc'.hand = none)
      (free : ∀ q k, pc' ≠ .freeQueue q k)

@[simp]
theorem hand_resume (k : Then) (b : Bool) : (k.resume b).hand = none := by
  cases k <;> cases b <;> rfl

@[simp]
theorem hand_loop (c q i n : Nat) (weight : Int) : (loop c q i n weight).hand = none := by
  unfold loop
  split <;> rfl

theorem resume_ne_free (k : Then) (b : Bool) (q : Nat) (k' : Then) :
    k.resume b ≠ .freeQueue q k' := by
  cases k <;> cases b <;> exact nofun

theorem loop_ne_free (c q i n : Nat) (weight : Int) (q' : Nat) (k : Then) :
    loop c q i n weight ≠ .freeQueue q' k := by
  unfold loop
  split <;> exact nofun

/-- A step that leaves the contents alone. -/
theorem ContentStep.of_same {queueOf : Nat → Option Nat} {l l' : Links} {s s' : Contents}
    {pc pc' : Pc}
    (hs : s' = s) (hand : pc'.hand = pc.hand)
    (message : ∀ c q i n weight, pc ≠ .message c q i n weight)
    (dropping : ∀ q k, pc ≠ .dropping q k) (free : ∀ q k, pc' ≠ .freeQueue q k) :
    ContentStep queueOf l l' s pc s' pc' :=
  .same hs hand (fun c q i n weight h => absurd h (message c q i n weight))
    (fun q k h => absurd h (dropping q k)) (fun q k h => absurd h (free q k))

theorem move_contents {s s' : State} {pc pc' : Pc} {choice : Choice}
    (h : move s pc choice = some (s', pc')) :
    ContentStep s.queueOf s.links s'.links s.contents pc s'.contents pc' := by
  revert h
  fun_cases move s pc choice
  all_goals intro h
  all_goals first
    | cases h; done
    | obtain ⟨rfl, rfl⟩ := Prod.mk.inj (Option.some.inj h)
  all_goals clear h
  all_goals try
    refine .of_same ?_ ?_ ?_ ?_ ?_ <;> simp +zetaDelta [Pc.hand]
    done
  case case10 handle k =>
    exact .of_same rfl (hand_resume k _) (by simp) (by simp) (resume_ne_free k _)
  case case17 c k => exact .of_same rfl (hand_resume k _) (by simp) (by simp) (resume_ne_free k _)
  case case14 c k s₁ ref _ =>
    exact .of_same (s.contents_touch c) (hand_resume k _) (by simp) (by simp) (resume_ne_free k _)
  case case43 q k _ =>
    exact .of_same (s.contents_globalPush q) (hand_resume k _) (by simp) (by simp)
      (resume_ne_free k _)
  case case46 q k =>
    exact .of_same (s.contents_setQueue_same rfl) (hand_resume k _) (by simp) (by simp)
      (resume_ne_free k _)
  case case38 c q i n weight =>
    exact .of_same (s.contents_touch c) (hand_loop c q i n weight) (by simp) (by simp)
      (loop_ne_free c q i n weight)
  case case18 s' => exact .of_same rfl rfl (by simp) (by simp) (by simp)
  case case23 c q ok =>
    cases ok
    · exact .of_same rfl rfl (by simp) (by simp) (by simp)
    · exact .of_same rfl rfl (by simp) (by simp) (by simp)
  case case26 c q ret =>
    cases ret
    · exact .of_same (s.contents_globalPush q) rfl (by simp) (by simp) (by simp)
    · exact .of_same (s.contents_globalPush q) rfl (by simp) (by simp) (by simp)
  case case29 weight q rest _ => exact .of_same rfl rfl (by simp) (by simp) (by simp)
  case case40 c q weight s₁ s₂ nq rest _ =>
    have hs : s₂.contents = s.contents := (State.contents_check _ _ _).trans (s.contents_touch c)
    exact .of_same hs rfl (by simp) (by simp) (by simp)
  case case5 c m s₁ q hqueue =>
    have hs : s₁.contents = s.contents := s.contents_touch c
    have huser : s.queueOf c = some q := by
      show (s.context c).queue = some q
      rw [← s.context_touch c]
      exact hqueue
    refine .push c q m rfl huser ?_ ?_ rfl (by simp)
    · rw [State.contents_mqPush, hs, ← hs]
      rfl
    · rw [s₁.links_mqPush q m]
      split
      · rw [Links.setQueue_self']
      · show ((s₁.links.setQueue q _).queue q).inGlobal = true
        rw [Links.setQueue_self']
  case case33 c q i n weight x hring =>
    refine .same (s.contents_setQueue_same rfl) rfl ?_ (by simp) (by simp)
    rintro c' q' i' n' weight' ⟨⟩
    exact RingBuffer.pop_none.mp hring
  case case44 q k x hring =>
    refine .same (s.contents_setQueue_same rfl) rfl (by simp) ?_ ?_
    · rintro q' k' ⟨⟩
      exact RingBuffer.pop_none.mp hring
    · rintro q' k' ⟨⟩
      rfl
  case case34 c q i n weight x m ring hring =>
    refine .pop c q m i n weight ring.toList rfl (RingBuffer.toList_pop hring) ?_
      (s.links_setQueue_same rfl) rfl (by simp)
    rw [State.contents_setQueue]
    rfl
  case case45 q k x m ring hring =>
    refine .drop q m k ring.toList rfl (RingBuffer.toList_pop hring) ?_
      (s.links_setQueue_same rfl) rfl (by simp)
    rw [State.contents_setQueue]
    rfl
  case case36 c q m i n weight s₁ x n' _ =>
    have hs : s₁.contents = s.contents := s.contents_touch c
    refine .handle c q m i n weight .noCallback rfl (by decide) ?_ (hand_loop c q i n' weight)
      (loop_ne_free c q i n' weight)
    rw [State.contents_setQueue, hs, ← hs]
    rfl
  case case35 c q m i n weight s₁ x n' _ s₂ =>
    have hs : s₁.contents = s.contents := s.contents_touch c
    have hs₂ : s₂.contents = s.contents := (State.contents_check _ _ _).trans hs
    refine .handle c q m i n weight .called rfl (by decide) ?_ rfl (by simp)
    rw [State.contents_setQueue, hs₂, ← hs]
    rfl
  case case21 c handle s₁ s' =>
    have hs : s₁.contents = s.contents := s.contents_touch c
    have hqueues : s₁.queues = s.queues := congrArg Contents.queues hs
    have hset : (s₁.setQueue s₁.queues (mqCreate handle c)).contents =
        s.contents.setQueue s.queues ⟨c, handle, [], [], none, []⟩ := by
      rw [State.contents_setQueue, hs, hqueues]
      rfl
    refine .create c handle ?_ rfl rfl (by simp)
    show { s'.contents with queues := s₁.queues + 1 } = _
    rw [hqueues]
    show { (s₁.setQueue s₁.queues (mqCreate handle c)).contents with queues := s.queues + 1 } = _
    rw [hset]
    rfl

namespace Contents

variable {queueOf : Nat → Option Nat} {s s' : Contents} {pc pc' : Pc}

/-- The messages of a queue, in the order they were pushed. -/
def messages (x : Content) : List Nat := x.log.map Prod.fst ++ x.taken.toList ++ x.ring

structure Inv (s : Contents) (links : Links) (threads : List Pc) : Prop where
  whole : ∀ q, (s.queue q).pushed = messages (s.queue q)
  hand : ∀ p ∈ threads, ∀ q m, p.hand = some (q, m) → (s.queue q).taken = some m
  taken : ∀ q m, (s.queue q).taken = some m → ∃ p ∈ threads, p.hand = some (q, m)
  idle : ∀ q, (links.queue q).inGlobal = false → (links.queue q).release = false →
    (s.queue q).ring = []
  freeing : ∀ p ∈ threads, ∀ q k, p = .freeQueue q k → (s.queue q).ring = []
  freed : ∀ q, (links.queue q).freed = true → (s.queue q).ring = []
  dropped : ∀ q, ∀ e ∈ (s.queue q).log, e.2 = .dropped → (links.queue q).release = true
  fresh : ∀ q, s.queues ≤ q → (s.queue q).log = []

theorem exists_hand_set {threads : List Pc} {i : Nat} {x : Nat × Nat} (hi : threads[i]? = some pc)
    (hx : ∃ p ∈ threads, p.hand = some x) (hpc : pc.hand = some x → pc'.hand = some x) :
    ∃ p ∈ threads.set i pc', p.hand = some x := by
  obtain ⟨p, hp, hhand⟩ := hx
  obtain ⟨j, hj⟩ := List.getElem?_of_mem hp
  by_cases hij : i = j
  · subst hij
    rw [hi] at hj
    cases hj
    refine ⟨pc', List.mem_of_getElem? (i := i) ?_, hpc hhand⟩
    rw [List.getElem?_set_self' , hi]
    rfl
  · refine ⟨p, List.mem_of_getElem? (i := j) ?_, hhand⟩
    rw [List.getElem?_set_ne hij]
    exact hj

theorem holds_of_hand {p : Pc} {q m : Nat} (h : p.hand = some (q, m)) : 0 < p.holds q := by
  cases p with
  | got c q' m' i n weight =>
      cases h
      exact holds_pos (Nat.le_refl _)
  | _ => cases h

theorem holds_of_free {q : Nat} {k : Then} : 0 < Pc.holds q (.freeQueue q k) :=
  holds_pos (Nat.le_add_right _ _)

/-- While another thread has the queue, no message of it is in a worker's hand. -/
theorem Inv.taken_none {l : Links} {threads : List Pc} {i q : Nat} (h : s.Inv l threads)
    (hl : l.Inv threads) (hi : threads[i]? = some pc) (hholds : 0 < pc.holds q)
    (hhand : pc.hand = none) : (s.queue q).taken = none := by
  cases ht : (s.queue q).taken with
  | none => rfl
  | some m =>
      obtain ⟨p, hp, hhand'⟩ := h.taken q m ht
      obtain ⟨j, hj⟩ := List.getElem?_of_mem hp
      have hij := hl.holder_unique hi hj hholds (holds_of_hand hhand')
      subst hij
      rw [hi] at hj
      cases hj
      rw [hhand] at hhand'
      cases hhand'

/-- The invariant after a step that changes the contents of one queue, which the thread has or
pushes to. -/
theorem Inv.set {l l' : Links} {threads : List Pc} {i q : Nat} {x : Content}
    (h : s.Inv l threads) (hqueues : l.queues = s.queues) (hi : threads[i]? = some pc)
    (hlink : LinkStep queueOf l pc l' pc') (hs : s'.queue = (s.setQueue q x).queue)
    (hle : s.queues ≤ s'.queues) (hlt : q < s'.queues)
    (message : ∀ c q' i n weight, pc = .message c q' i n weight → q' = q)
    (dropping : ∀ q' k, pc = .dropping q' k → q' = q) (free : ∀ q' k, pc' ≠ .freeQueue q' k)
    (hand : ∀ q' m, pc.hand = some (q', m) → q' = q)
    (hand' : ∀ q' m, pc'.hand = some (q', m) → q' = q ∧ x.taken = some m)
    (whole : x.pushed = messages x)
    (others : ∀ j p m, j ≠ i → threads[j]? = some p → p.hand = some (q, m) → x.taken = some m)
    (taken : ∀ m, x.taken = some m → ∃ p ∈ threads.set i pc', p.hand = some (q, m))
    (idle : (l'.queue q).inGlobal = false → (l'.queue q).release = false → x.ring = [])
    (freeing : ∀ j k, j ≠ i → threads[j]? = some (.freeQueue q k) → x.ring = [])
    (freed : (l'.queue q).freed = true → x.ring = [])
    (dropped : ∀ e ∈ x.log, e.2 = .dropped → (l'.queue q).release = true) :
    s'.Inv l' (threads.set i pc') := by
  have hmem : pc ∈ threads := List.mem_of_getElem? hi
  have hself : s'.queue q = x := by
    rw [hs]
    exact s.setQueue_self' q x
  have hother : ∀ q', q' ≠ q → s'.queue q' = s.queue q' := by
    intro q' hne
    rw [hs]
    exact s.setQueue_of_ne x hne
  constructor
  · intro q'
    by_cases hne : q' = q
    · rw [hne, hself, whole]
    · rw [hother q' hne]
      exact h.whole q'
  · intro p hp q' m hpm
    rcases mem_set_cases hp with rfl | ⟨j, hj, hp⟩
    · obtain ⟨rfl, ht⟩ := hand' q' m hpm
      rw [hself, ht]
    · by_cases hne : q' = q
      · subst hne
        rw [hself]
        exact others j p m hj hp hpm
      · rw [hother q' hne]
        exact h.hand p (List.mem_of_getElem? hp) q' m hpm
  · intro q' m ht
    by_cases hne : q' = q
    · subst hne
      rw [hself] at ht
      exact taken m ht
    · rw [hother q' hne] at ht
      exact exists_hand_set hi (h.taken q' m ht) fun hpc => absurd (hand q' m hpc) hne
  · intro q' hin hrel
    by_cases hne : q' = q
    · rw [hne] at hin hrel ⊢
      rw [hself]
      exact idle hin hrel
    · rw [hother q' hne]
      rcases hlink.flags hin hrel with ⟨hin, hrel⟩ | ⟨c, i, n, weight, hpc⟩ | ⟨k, hpc⟩
      · exact h.idle q' hin hrel
      · exact absurd (message c q' i n weight hpc) hne
      · exact absurd (dropping q' k hpc) hne
  · intro p hp q' k hpk
    rcases mem_set_cases hp with rfl | ⟨j, hj, hp⟩
    · exact absurd hpk (free q' k)
    · subst hpk
      by_cases hne : q' = q
      · subst hne
        rw [hself]
        exact freeing j k hj hp
      · rw [hother q' hne]
        exact h.freeing _ (List.mem_of_getElem? hp) q' k rfl
  · intro q' hf
    by_cases hne : q' = q
    · rw [hne] at hf ⊢
      rw [hself]
      exact freed hf
    · rw [hother q' hne]
      rcases hlink.freed hf with hf | ⟨k, hpc⟩
      · exact h.freed q' hf
      · exact h.freeing pc hmem q' k hpc
  · intro q' e he hd
    by_cases hne : q' = q
    · rw [hne, hself] at he
      rw [hne]
      exact dropped e he hd
    · rw [hother q' hne] at he
      by_cases hq : q' = l.queues
      · rw [h.fresh q' (by omega)] at he
        exact absurd he List.not_mem_nil
      · exact hlink.release hq (h.dropped q' e he hd)
  · intro q' hge
    rw [hother q' (by omega)]
    exact h.fresh q' (by omega)

theorem Inv.step {l l' : Links} {threads : List Pc} {i : Nat} (h : s.Inv l threads)
    (hl : l.Inv threads) (hqueues : l.queues = s.queues) (hi : threads[i]? = some pc)
    (huser : ∀ q c, queueOf c = some q →
      ((∃ m, pc = .pushQueue c m) ∨ ∃ k, pc = .markRelease c k) →
        q < l.queues ∧ (l.queue q).release = false)
    (hlink : LinkStep queueOf l pc l' pc') (hstep : ContentStep queueOf l l' s pc s' pc') :
    s'.Inv l' (threads.set i pc') := by
  have hmem : pc ∈ threads := List.mem_of_getElem? hi
  cases hstep with
  | same state hand message dropping free =>
      subst state
      constructor
      · exact h.whole
      · intro p hp q m hpm
        rcases mem_set hp with rfl | hp
        · rw [hand] at hpm
          exact h.hand pc hmem q m hpm
        · exact h.hand p hp q m hpm
      · intro q m ht
        exact exists_hand_set hi (h.taken q m ht) fun hpc => hand.trans hpc
      · intro q hin hrel
        rcases hlink.flags hin hrel with ⟨hin, hrel⟩ | ⟨c, i, n, weight, hpc⟩ | ⟨k, hpc⟩
        · exact h.idle q hin hrel
        · exact message c q i n weight hpc
        · exact dropping q k hpc
      · intro p hp q k hpk
        rcases mem_set hp with rfl | hp
        · exact dropping q k (free q k hpk)
        · exact h.freeing p hp q k hpk
      · intro q hf
        rcases hlink.freed hf with hf | ⟨k, hpc⟩
        · exact h.freed q hf
        · exact h.freeing pc hmem q k hpc
      · intro q e he hd
        by_cases hq : q = l.queues
        · rw [h.fresh q (by omega)] at he
          exact absurd he List.not_mem_nil
        · exact hlink.release hq (h.dropped q e he hd)
      · exact h.fresh
  | push c q m hpc hqueue state linked hand free =>
      obtain ⟨hlt, hrelease⟩ := huser q c hqueue (.inl ⟨m, hpc⟩)
      subst state hpc
      refine h.set hqueues hi hlink rfl (Nat.le_refl _) (hqueues ▸ hlt)
        nofun nofun free nofun ?_ ?_ ?_ ?_ ?_ ?_ ?_ ?_
      · intro q' m' hm
        rw [hand] at hm
        cases hm
      · show (s.queue q).pushed ++ [m] = _ ++ _ ++ ((s.queue q).ring ++ [m])
        rw [← List.append_assoc]
        exact congrArg (· ++ [m]) (h.whole q)
      · intro j p m' _ hp hpm
        exact h.hand p (List.mem_of_getElem? hp) q m' hpm
      · intro m' ht
        exact exists_hand_set hi (h.taken q m' ht) nofun
      · intro hin _
        rw [linked] at hin
        cases hin
      · intro j k _ hp
        have hmarked := hl.drops _ (List.mem_of_getElem? hp) q rfl
        rw [hrelease] at hmarked
        cases hmarked
      · intro hf
        rcases hlink.freed hf with hf | ⟨k, hpc⟩
        · have hmarked := hl.freed q hf
          rw [hrelease] at hmarked
          cases hmarked
        · cases hpc
      · intro e he hd
        exact hlink.release (Nat.ne_of_lt hlt) (h.dropped q e he hd)
  | pop c q m i' n weight ring hpc hring state links hand free =>
      subst state hpc
      have hholds : 0 < Pc.holds q (.message c q i' n weight) := holds_pos (Nat.le_refl _)
      have hlt := hl.lt_queues hmem hholds
      have hnone : (s.queue q).taken = none := h.taken_none hl hi hholds rfl
      refine h.set hqueues hi hlink rfl (Nat.le_refl _) (hqueues ▸ hlt)
        ?_ nofun free nofun ?_ ?_ ?_ ?_ ?_ ?_ ?_ ?_
      · rintro _ _ _ _ _ ⟨⟩
        rfl
      · intro q' m' hm
        rw [hand] at hm
        cases hm
        exact ⟨rfl, rfl⟩
      · have hwhole := h.whole q
        unfold messages at hwhole ⊢
        rw [hnone, hring] at hwhole
        show (s.queue q).pushed = _ ++ [m] ++ ring
        rw [hwhole]
        simp
      · intro j p m' hj hp hpm
        have ht := h.hand p (List.mem_of_getElem? hp) q m' hpm
        rw [hnone] at ht
        cases ht
      · intro m' ht
        cases ht
        exact ⟨pc', List.mem_set (by exact (List.getElem?_eq_some_iff.mp hi).1) _, hand⟩
      · intro hin hrel
        rw [links] at hin hrel
        have hempty := h.idle q hin hrel
        rw [hring] at hempty
        cases hempty
      · intro j k hj hp
        exact absurd (hl.holder_unique hp hi holds_of_free hholds) hj
      · intro hf
        rw [links, hl.not_freed hmem hholds] at hf
        cases hf
      · intro e he hd
        rw [links]
        exact h.dropped q e he hd
  | handle c q m i' n weight fate hpc hfate state hand free =>
      subst state hpc
      have hholds : 0 < Pc.holds q (.got c q m i' n weight) := holds_pos (Nat.le_refl _)
      have hlt := hl.lt_queues hmem hholds
      have htaken : (s.queue q).taken = some m := h.hand _ hmem q m rfl
      refine h.set hqueues hi hlink rfl (Nat.le_refl _) (hqueues ▸ hlt)
        nofun nofun free ?_ ?_ ?_ ?_ nofun ?_ ?_ ?_ ?_
      · rintro q' m' ⟨⟩
        rfl
      · intro q' m' hm
        rw [hand] at hm
        cases hm
      · have hwhole := h.whole q
        unfold messages at hwhole ⊢
        rw [htaken] at hwhole
        show (s.queue q).pushed = ((s.queue q).log ++ [(m, fate)]).map Prod.fst ++ [] ++ _
        rw [hwhole]
        simp
      · intro j p m' hj hp hpm
        exact absurd (hl.holder_unique hp hi (holds_of_hand hpm) hholds) hj
      · intro hin hrel
        rcases hlink.flags hin hrel with ⟨hin, hrel⟩ | ⟨_, _, _, _, hpc⟩ | ⟨_, hpc⟩
        · exact h.idle q hin hrel
        · cases hpc
        · cases hpc
      · intro j k hj hp
        exact absurd (hl.holder_unique hp hi holds_of_free hholds) hj
      · intro hf
        rcases hlink.freed hf with hf | ⟨_, hpc⟩
        · rw [hl.not_freed hmem hholds] at hf
          cases hf
        · cases hpc
      · intro e he hd
        rcases List.mem_append.mp he with he | he
        · exact hlink.release (Nat.ne_of_lt hlt) (h.dropped q e he hd)
        · rw [List.mem_singleton.mp he] at hd
          exact absurd hd hfate
  | drop q m k ring hpc hring state links hand free =>
      subst state hpc
      have hholds : 0 < Pc.holds q (.dropping q k) := holds_pos (Nat.le_add_right _ _)
      have hlt := hl.lt_queues hmem hholds
      have hnone : (s.queue q).taken = none := h.taken_none hl hi hholds rfl
      refine h.set hqueues hi hlink rfl (Nat.le_refl _) (hqueues ▸ hlt)
        nofun ?_ free nofun ?_ ?_ ?_ ?_ ?_ ?_ ?_ ?_
      · rintro _ _ ⟨⟩
        rfl
      · intro q' m' hm
        rw [hand] at hm
        cases hm
      · have hwhole := h.whole q
        unfold messages at hwhole ⊢
        rw [hnone, hring] at hwhole
        show (s.queue q).pushed = ((s.queue q).log ++ [(m, Fate.dropped)]).map Prod.fst ++
          (s.queue q).taken.toList ++ ring
        rw [hwhole, hnone]
        simp
      · intro j p m' hj hp hpm
        exact absurd (hl.holder_unique hp hi (holds_of_hand hpm) hholds) hj
      · intro m' ht
        have ht' : (s.queue q).taken = some m' := ht
        rw [hnone] at ht'
        cases ht'
      · intro hin hrel
        rw [links] at hin hrel
        have hempty := h.idle q hin hrel
        rw [hring] at hempty
        cases hempty
      · intro j k' hj hp
        exact absurd (hl.holder_unique hp hi holds_of_free hholds) hj
      · intro hf
        rw [links, hl.not_freed hmem hholds] at hf
        cases hf
      · intro e he hd
        rw [links]
        exact hl.drops _ hmem q rfl
  | create owner handle state hpc hand free =>
      subst state hpc
      refine h.set hqueues hi hlink rfl (Nat.le_succ _) (Nat.lt_succ_self _) nofun nofun free nofun
        ?_ rfl ?_ nofun (fun _ _ => rfl) (fun _ _ _ _ => rfl) (fun _ => rfl) nofun
      · intro q' m' hm
        rw [hand] at hm
        cases hm
      · intro j p m' _ hp hpm
        have hlt := hl.lt_queues (List.mem_of_getElem? hp) (holds_of_hand hpm)
        omega

end Contents

end Jump.Skynet.Server
