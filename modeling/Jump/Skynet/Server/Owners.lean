import Jump.Skynet.Server.Contents

/-! # Whose queue it is

A worker finds the context of a queue by the handle of the queue. As long as no handle is
given out again while a queue still has it, it finds the context that the queue was made for.
-/

namespace Jump.Skynet.Server

open Jump.Core Jump.Core.Threads

/-- A context whose queue is still to be made, and the handle for both. -/
def Pc.names : Pc → Option (Nat × Nat)
  | .newHandle c handle | .newQueue c handle => some (c, handle)
  | _ => none

/-- The context and the queue that a thread works on. -/
def Pc.user : Pc → Option (Nat × Nat)
  | .message c q _ _ _ | .got c q _ _ _ _ | .call c q _ _ _ | .next c q _ | .requeue c q _ _ =>
    some (c, q)
  | _ => none

/-- The handles that are in use, by a queue or by a service that has none yet. -/
def State.claims (s : State) : List (Nat × Nat) :=
  s.threads.filterMap Pc.names ++ ((List.range s.queues).filter fun q => !(s.queue q).freed).map
    fun q => ((s.queue q).owner, (s.queue q).handle)

/-- What finding the context of a queue reads and writes. -/
structure Names where
  handle : Nat → Nat
  queueOf : Nat → Option Nat
  owner : Nat → Nat × Nat
  queues : Nat

def State.names (s : State) : Names where
  handle c := (s.context c).handle
  queueOf := s.queueOf
  owner q := ((s.queue q).owner, (s.queue q).handle)
  queues := s.queues

namespace State

variable (s : State)

@[simp]
theorem names_check (b : Bool) (f : Fault) : (s.check b f).names = s.names := by
  rw [check_eq]
  rfl

@[simp]
theorem names_fault (f : Fault) : (s.fault f).names = s.names := rfl

@[simp]
theorem names_touch (c : Nat) : (s.touch c).names = s.names := names_check s _ _

theorem names_setContext (c : Nat) (x : Context) : (s.setContext c x).names =
    { s.names with
      handle := Function.update s.names.handle c x.handle
      queueOf := Function.update s.names.queueOf c x.queue } := by
  have hhandle : (s.setContext c x).names.handle = Function.update s.names.handle c x.handle := by
    funext c'
    by_cases hc : c' = c
    · subst hc
      simp [names, setContext]
    · simp [names, setContext, hc]
  have hqueue : (s.setContext c x).names.queueOf = Function.update s.names.queueOf c x.queue := by
    funext c'
    by_cases hc : c' = c
    · subst hc
      simp [names, setContext, queueOf]
    · simp [names, setContext, queueOf, hc]
  rw [← hhandle, ← hqueue]
  rfl

theorem names_setContext_same {c : Nat} {x : Context} (hhandle : x.handle = (s.context c).handle)
    (hqueue : x.queue = (s.context c).queue) : (s.setContext c x).names = s.names := by
  have hh : Function.update s.names.handle c (s.context c).handle = s.names.handle :=
    Function.update_eq_self c _
  have hq : Function.update s.names.queueOf c (s.context c).queue = s.names.queueOf :=
    Function.update_eq_self c _
  rw [names_setContext, hhandle, hqueue, hh, hq]

@[simp]
theorem names_contextGrab (c : Nat) : (s.contextGrab c).names = s.names :=
  s.names_setContext_same rfl rfl

theorem names_setQueue (q : Nat) (x : MessageQueue) : (s.setQueue q x).names =
    { s.names with owner := Function.update s.names.owner q (x.owner, x.handle) } := by
  have howner : (s.setQueue q x).names.owner =
      Function.update s.names.owner q (x.owner, x.handle) := by
    funext q'
    by_cases hq : q' = q
    · subst hq
      simp [names, setQueue]
    · simp [names, setQueue, hq]
  rw [← howner]
  rfl

theorem names_setQueue_same {q : Nat} {x : MessageQueue} (howner : x.owner = (s.queue q).owner)
    (hhandle : x.handle = (s.queue q).handle) : (s.setQueue q x).names = s.names := by
  have ho : Function.update s.names.owner q ((s.queue q).owner, (s.queue q).handle) =
      s.names.owner := Function.update_eq_self q _
  rw [names_setQueue, howner, hhandle, ho]

@[simp]
theorem names_globalPush (q : Nat) : (s.globalPush q).names = s.names := names_check s _ _

@[simp]
theorem names_mqPush (q m : Nat) : (s.mqPush q m).names = s.names := by
  have hset : (s.setQueue q { s.queue q with
      ring := (s.queue q).ring.push m, inGlobal := true,
      pushed := (s.queue q).pushed ++ [m] }).names = s.names := s.names_setQueue_same rfl rfl
  simp only [mqPush]
  split
  · exact hset
  · rw [names_globalPush]
    exact hset

@[simp]
theorem names_mqMarkRelease (q : Nat) : (s.mqMarkRelease q).names = s.names := by
  have hset : ((s.check (!(s.queue q).release) (.markedTwice q)).setQueue q { s.queue q with
      release := true, marked := (s.queue q).marked + 1 }).names = s.names := by
    rw [names_setQueue_same, names_check]
    · rw [queue_check]
    · rw [queue_check]
  simp only [mqMarkRelease]
  split
  · exact hset
  · rw [names_globalPush]
    exact hset

end State

/-- What a step of a thread does to the handles and the pointers. -/
inductive NameStep (stored : Nat → Bool) (contexts : Nat) (s : Names) (pc : Pc) (s' : Names)
    (pc' : Pc) : Prop
  | same (state : s' = s) (names : pc'.names = none)
      (kept : ∀ c handle, pc ≠ .newQueue c handle)
      (user : ∀ x, pc'.user = some x → pc.user = some x)
  | malloc (state : s' = { s with
        handle := Function.update s.handle contexts 0
        queueOf := Function.update s.queueOf contexts none })
      (names : pc'.names = none) (user : pc'.user = none)
      (kept : ∀ c handle, pc ≠ .newQueue c handle)
  | register (c handle : Nat) (state : s' = s) (hpc : pc = .newRegister c)
      (hpc' : pc' = .newHandle c handle)
  | handle (c handle : Nat) (state : s' = { s with handle := Function.update s.handle c handle })
      (hpc : pc = .newHandle c handle) (hpc' : pc' = .newQueue c handle)
  | newQueue (c handle : Nat) (state : s' = { s with
        queueOf := Function.update s.queueOf c (some s.queues)
        owner := Function.update s.owner s.queues (c, handle)
        queues := s.queues + 1 })
      (hpc : pc = .newQueue c handle) (names : pc'.names = none) (user : pc'.user = none)
  | work (c q : Nat) (weight : Int) (state : s' = s) (hpc : pc = .work q weight)
      (found : stored c = true ∧ s.handle c = (s.owner q).2) (hpc' : pc' = .message c q 0 1 weight)

@[simp]
theorem names_resume (k : Then) (b : Bool) : (k.resume b).names = none := by
  cases k <;> cases b <;> rfl

@[simp]
theorem user_resume (k : Then) (b : Bool) : (k.resume b).user = none := by
  cases k <;> cases b <;> rfl

@[simp]
theorem names_loop (c q i n : Nat) (weight : Int) : (loop c q i n weight).names = none := by
  unfold loop
  split <;> rfl

@[simp]
theorem user_loop (c q i n : Nat) (weight : Int) : (loop c q i n weight).user = some (c, q) := by
  unfold loop
  split <;> rfl

def State.stored (s : State) (c : Nat) : Bool := (s.context c).stored

/-- A step that leaves the handles and the pointers alone. -/
theorem NameStep.of_same {stored : Nat → Bool} {contexts : Nat} {s s' : Names} {pc pc' : Pc}
    (hs : s' = s) (names : pc'.names = none) (kept : ∀ c handle, pc ≠ .newQueue c handle)
    (user : pc'.user = none ∨ pc'.user = pc.user) : NameStep stored contexts s pc s' pc' := by
  refine .same hs names kept fun x hx => ?_
  rcases user with user | user
  · rw [user] at hx
    cases hx
  · exact user.symm.trans hx

theorem move_names {s s' : State} {pc pc' : Pc} {choice : Choice}
    (h : move s pc choice = some (s', pc')) :
    NameStep s.stored s.contexts s.names pc s'.names pc' := by
  revert h
  fun_cases move s pc choice
  all_goals intro h
  all_goals first
    | cases h; done
    | obtain ⟨rfl, rfl⟩ := Prod.mk.inj (Option.some.inj h)
  all_goals clear h
  all_goals try
    refine .of_same ?_ ?_ ?_ ?_ <;> simp +zetaDelta [Pc.names, Pc.user]
    done
  case case10 handle k => exact .of_same rfl (names_resume k _) (by simp) (.inl (user_resume k _))
  case case17 c k => exact .of_same rfl (names_resume k _) (by simp) (.inl (user_resume k _))
  case case43 q k _ =>
    exact .of_same (s.names_globalPush q) (names_resume k _) (by simp) (.inl (user_resume k _))
  case case46 q k =>
    exact .of_same (s.names_setQueue_same rfl rfl) (names_resume k _) (by simp)
      (.inl (user_resume k _))
  case case11 handle k c _ =>
    exact .of_same (s.names_setContext_same rfl rfl) rfl (by simp) (.inl rfl)
  case case13 c k s₁ ref _ =>
    refine .of_same (Eq.trans (State.names_setContext_same _ ?_ ?_) (s.names_touch c)) rfl (by simp)
      (.inl rfl)
    · rfl
    · rfl
  case case14 c k s₁ ref _ =>
    refine .of_same (Eq.trans (State.names_setContext_same _ ?_ ?_) (s.names_touch c))
      (names_resume k _) (by simp) (.inl (user_resume k _))
    · rfl
    · rfl
  case case22 c q s₁ =>
    refine .of_same (Eq.trans (State.names_setContext_same _ ?_ ?_) (s.names_touch c)) rfl (by simp)
      (.inl rfl)
    · rfl
    · rfl
  case case25 c q s₁ =>
    refine .of_same (Eq.trans (State.names_setContext_same _ ?_ ?_) (s.names_touch c)) rfl (by simp)
      (.inl rfl)
    · rfl
    · rfl
  case case37 c q i n weight s₁ =>
    refine .of_same (Eq.trans (State.names_setContext_same _ ?_ ?_) (s.names_touch c)) rfl (by simp)
      (.inr rfl)
    · rfl
    · rfl
  case case23 c q ok =>
    cases ok
    · exact .of_same rfl rfl (by simp) (.inl rfl)
    · exact .of_same rfl rfl (by simp) (.inl rfl)
  case case26 c q ret =>
    cases ret
    · exact .of_same (s.names_globalPush q) rfl (by simp) (.inl rfl)
    · exact .of_same (s.names_globalPush q) rfl (by simp) (.inl rfl)
  case case29 weight q rest _ => exact .of_same rfl rfl (by simp) (.inl rfl)
  case case33 c q i n weight x _ =>
    exact .of_same (s.names_setQueue_same rfl rfl) rfl (by simp) (.inl rfl)
  case case34 c q i n weight x m ring _ =>
    exact .of_same (s.names_setQueue_same rfl rfl) rfl (by simp) (.inr rfl)
  case case44 q k x _ => exact .of_same (s.names_setQueue_same rfl rfl) rfl (by simp) (.inl rfl)
  case case45 q k x m ring _ =>
    exact .of_same (s.names_setQueue_same rfl rfl) rfl (by simp) (.inl rfl)
  case case36 c q m i n weight s₁ x n' _ =>
    refine .of_same (Eq.trans (State.names_setQueue_same _ ?_ ?_) (s.names_touch c))
      (names_loop c q i n' weight) (by simp) (.inr (user_loop c q i n' weight))
    · rfl
    · rfl
  case case38 c q i n weight =>
    exact .of_same (s.names_touch c) (names_loop c q i n weight) (by simp)
      (.inr (user_loop c q i n weight))
  case case35 c q m i n weight s₁ x n' _ s₂ =>
    have hs : s₂.names = s.names := (State.names_check _ _ _).trans (s.names_touch c)
    have hx : x = s₂.queue q := by
      show (s.touch c).queue q = _
      rw [State.queue_check]
    refine .of_same (Eq.trans (State.names_setQueue_same _ ?_ ?_) hs) rfl (by simp) (.inr rfl)
    · rw [← hx]
    · rw [← hx]
  case case40 c q weight s₁ s₂ nq rest _ =>
    have hs : s₂.names = s.names := (State.names_check _ _ _).trans (s.names_touch c)
    exact .of_same hs rfl (by simp) (.inr rfl)
  case case18 s' => exact .malloc (s.names_setContext s.contexts _) rfl rfl (by simp)
  case case19 c handle s₁ =>
    refine .register c handle (Eq.trans (State.names_setContext_same _ ?_ ?_) (s.names_touch c))
      rfl rfl
    · rfl
    · rfl
  case case20 c handle s₁ =>
    have hs : s₁.names = s.names := s.names_touch c
    refine .handle c handle ?_ rfl rfl
    have hqueue : Function.update s₁.names.queueOf c (s₁.context c).queue = s₁.names.queueOf :=
      Function.update_eq_self c _
    rw [State.names_setContext, hqueue, hs]
  case case21 c handle s₁ s' =>
    have hs : s₁.names = s.names := s.names_touch c
    have hqueues : s₁.queues = s.queues := congrArg Names.queues hs
    refine .newQueue c handle ?_ rfl rfl rfl
    have hhandle : Function.update s₁.names.handle c (s₁.context c).handle = s₁.names.handle :=
      Function.update_eq_self c _
    have hset : s'.names = { s.names with
        queueOf := Function.update s.names.queueOf c (some s.queues)
        owner := Function.update s.names.owner s.queues (c, handle) } := by
      show ((s₁.setQueue s₁.queues (mqCreate handle c)).setContext c _).names = _
      rw [State.names_setContext, State.names_setQueue]
      show Names.mk (Function.update s₁.names.handle c (s₁.context c).handle) _ _ _ = _
      rw [hhandle, hs, hqueues]
      rfl
    show { s'.names with queues := s₁.queues + 1 } = _
    rw [hset, hqueues]
    rfl
  case case31 q weight c hfound =>
    exact .work c q weight (s.names_contextGrab c) rfl ⟨hfound.2.1, hfound.2.2⟩ rfl

/-- A queue that has not been freed, or a creator that has not made its queue, uses a handle. -/
def Names.Claims (s : Names) (freed : Nat → Bool) (threads : List Pc) (x : Nat × Nat) : Prop :=
  (∃ p ∈ threads, p.names = some x) ∨ ∃ q, q < s.queues ∧ freed q = false ∧ s.owner q = x

theorem early_of_names {p : Pc} {c handle : Nat} (h : p.names = some (c, handle)) :
    p.early c = 1 := by
  cases p with
  | newHandle c' handle' =>
      cases h
      exact one_self c
  | newQueue c' handle' =>
      cases h
      exact one_self c
  | _ => cases h

namespace Counts

variable {s : Counts} {threads : List Pc}

/-- A creator that has a handle has no queue yet, and is alone. -/
theorem Inv.named (h : s.Inv threads) {p : Pc} {c handle : Nat} (hp : p ∈ threads)
    (hnames : p.names = some (c, handle)) :
    c < s.contexts ∧ (s.context c).queue = none ∧ total (Pc.early c) threads = 1 := by
  have hone := early_of_names hnames
  have hle := le_total (Pc.early c) hp
  have hrefs := total_mono (early_le_refs c) threads
  obtain ⟨hc, -, -⟩ := h.alive (c := c) (.inr (by omega))
  have hearly := h.early c hc
  cases hq : (s.context c).queue with
  | none =>
      rw [hq] at hearly
      exact ⟨hc, rfl, hearly⟩
  | some q =>
      rw [hq] at hearly
      simp only [bit, Option.isNone_some, Bool.false_eq_true, if_false] at hearly
      omega

theorem Inv.named_unique (h : s.Inv threads) {i j : Nat} {p p' : Pc} {c handle handle' : Nat}
    (hi : threads[i]? = some p) (hj : threads[j]? = some p') (hp : p.names = some (c, handle))
    (hp' : p'.names = some (c, handle')) : i = j := by
  by_contra hij
  have hle := add_le_total (Pc.early c) hij hi hj
  have hone := early_of_names hp
  have hone' := early_of_names hp'
  have htotal := (h.named (List.mem_of_getElem? hi) hp).2.2
  omega

end Counts

namespace Names

structure Inv (s : Names) (freed : Nat → Bool) (threads : List Pc) : Prop where
  unique : ∀ x y, s.Claims freed threads x → s.Claims freed threads y → x.2 = y.2 → x.1 = y.1
  nonzero : ∀ x, s.Claims freed threads x → x.2 ≠ 0
  queue : ∀ q, q < s.queues →
    s.queueOf (s.owner q).1 = some q ∧ s.handle (s.owner q).1 = (s.owner q).2
  named : ∀ p ∈ threads, ∀ c handle, p = .newQueue c handle → s.handle c = handle
  handle : ∀ c, s.handle c ≠ 0 → .newQueue c (s.handle c) ∈ threads ∨
    ∃ q, q < s.queues ∧ s.owner q = (c, s.handle c)
  user : ∀ p ∈ threads, ∀ c q, p.user = some (c, q) → s.queueOf c = some q

variable {stored : Nat → Bool} {contexts i : Nat} {s s' : Names} {freed freed' : Nat → Bool}
  {threads : List Pc} {pc pc' : Pc}

theorem mem_set_of_ne {p : Pc} (hi : threads[i]? = some pc) (hp : p ∈ threads) (hne : p ≠ pc) :
    p ∈ threads.set i pc' := by
  obtain ⟨j, hj⟩ := List.getElem?_of_mem hp
  refine List.mem_of_getElem? (i := j) ?_
  rw [List.getElem?_set_ne]
  · exact hj
  · rintro rfl
    rw [hi] at hj
    exact hne (Option.some.inj hj).symm

theorem mem_set_self (hi : threads[i]? = some pc) : pc' ∈ threads.set i pc' :=
  List.mem_set (List.getElem?_eq_some_iff.mp hi).1 pc'

/-- A handle that a queue or a creator uses after a step was in use before, if the thread did not
get it. -/
theorem claims_of_set {x : Nat × Nat} (hi : threads[i]? = some pc) (howner : s'.owner = s.owner)
    (hqueues : s'.queues = s.queues) (hnames : pc'.names = some x → pc.names = some x)
    (hfreed : ∀ q, q < s.queues → freed' q = false → freed q = false)
    (h : s'.Claims freed' (threads.set i pc') x) : s.Claims freed threads x := by
  rcases h with ⟨p, hp, hx⟩ | ⟨q, hq, hf, hx⟩
  · rcases mem_set hp with rfl | hp
    · exact .inl ⟨pc, List.mem_of_getElem? hi, hnames hx⟩
    · exact .inl ⟨p, hp, hx⟩
  · rw [hqueues] at hq
    rw [howner] at hx
    exact .inr ⟨q, hq, hfreed q hq hf, hx⟩

/-- The context that a worker finds is the one its queue was made for. -/
theorem Inv.found (h : s.Inv freed threads) {c q : Nat} (hq : q < s.queues)
    (hlive : freed q = false) (hhandle : s.handle c = (s.owner q).2)
    (hstored : ∀ q', s.queueOf c = some q' → freed q' = false) : s.queueOf c = some q := by
  have hclaim : s.Claims freed threads (s.owner q) := .inr ⟨q, hq, hlive, rfl⟩
  have hzero : s.handle c ≠ 0 := by
    rw [hhandle]
    exact h.nonzero _ hclaim
  have hc : s.Claims freed threads (c, s.handle c) := by
    rcases h.handle c hzero with hmem | ⟨q', hq', howner⟩
    · exact .inl ⟨_, hmem, rfl⟩
    · have hqueue := (h.queue q' hq').1
      rw [howner] at hqueue
      exact .inr ⟨q', hq', hstored q' hqueue, howner⟩
  have heq := h.unique _ _ hc hclaim hhandle
  have heq' : c = (s.owner q).1 := heq
  rw [heq']
  exact (h.queue q hq).1

theorem Inv.step {k : Counts} (h : s.Inv freed threads) (hk : k.Inv threads)
    (hqueueOf : ∀ c, (k.context c).queue = s.queueOf c) (hcontexts : k.contexts = contexts)
    (hi : threads[i]? = some pc)
    (hfreed : ∀ q, q < s.queues → freed' q = false → freed q = false)
    (hfresh : ∀ c handle, pc = .newRegister c → pc' = .newHandle c handle →
      handle ≠ 0 ∧ ∀ x, s.Claims freed threads x → x.2 ≠ handle)
    (hlive : ∀ q weight, pc = .work q weight → q < s.queues ∧ freed q = false)
    (hstored : ∀ c q, stored c = true → s.queueOf c = some q → freed q = false)
    (hstep : NameStep stored contexts s pc s' pc') : s'.Inv freed' (threads.set i pc') := by
  have hmem : pc ∈ threads := List.mem_of_getElem? hi
  cases hstep with
  | same state names kept user =>
      subst state
      have hclaims : ∀ x, s'.Claims freed' (threads.set i pc') x → s'.Claims freed threads x :=
        fun x hx => claims_of_set hi rfl rfl (fun hn => absurd (names.symm.trans hn) nofun)
          hfreed hx
      constructor
      · intro x y hx hy
        exact h.unique x y (hclaims x hx) (hclaims y hy)
      · intro x hx
        exact h.nonzero x (hclaims x hx)
      · exact h.queue
      · intro p hp c handle hpc
        rcases mem_set hp with rfl | hp
        · rw [hpc] at names
          cases names
        · exact h.named p hp c handle hpc
      · intro c hc
        refine (h.handle c hc).imp_left fun hp => mem_set_of_ne hi hp ?_
        exact Ne.symm (kept c _)
      · intro p hp c q hu
        rcases mem_set hp with rfl | hp
        · exact h.user pc hmem c q (user (c, q) hu)
        · exact h.user p hp c q hu
  | malloc state names user kept =>
      have hblank : s.queueOf contexts = none := by
        rw [← hqueueOf, hk.blank contexts (Nat.le_of_eq hcontexts)]
      have hhandle : ∀ c, c ≠ contexts → s'.handle c = s.handle c := by
        intro c hc
        rw [state]
        exact Function.update_of_ne hc _ _
      have hqueue : ∀ c, c ≠ contexts → s'.queueOf c = s.queueOf c := by
        intro c hc
        rw [state]
        exact Function.update_of_ne hc _ _
      have howner : s'.owner = s.owner := by rw [state]
      have hqueues : s'.queues = s.queues := by rw [state]
      have hzero : s'.handle contexts = 0 := by
        rw [state]
        exact Function.update_self _ _ _
      have hclaims : ∀ x, s'.Claims freed' (threads.set i pc') x → s.Claims freed threads x :=
        fun x hx => claims_of_set hi howner hqueues (fun hn => absurd (names.symm.trans hn) nofun)
          hfreed hx
      -- nothing has to do with the new context yet
      have hold : ∀ c q, s.queueOf c = some q → c ≠ contexts := by
        rintro c q hq rfl
        rw [hblank] at hq
        cases hq
      constructor
      · intro x y hx hy
        exact h.unique x y (hclaims x hx) (hclaims y hy)
      · intro x hx
        exact h.nonzero x (hclaims x hx)
      · intro q hq
        rw [hqueues] at hq
        obtain ⟨hqueue', hhandle'⟩ := h.queue q hq
        have hne := hold _ q hqueue'
        rw [howner, hqueue _ hne, hhandle _ hne]
        exact ⟨hqueue', hhandle'⟩
      · intro p hp c handle hpc
        rcases mem_set hp with rfl | hp
        · rw [hpc] at names
          cases names
        · have hnames : p.names = some (c, handle) := by
            rw [hpc]
            rfl
          have hlt := (hk.named hp hnames).1
          rw [hhandle c (by omega)]
          exact h.named p hp c handle hpc
      · intro c hc
        have hne : c ≠ contexts := by
          rintro rfl
          exact hc hzero
        rw [hhandle c hne] at hc ⊢
        rw [hqueues, howner]
        refine (h.handle c hc).imp_left fun hp => mem_set_of_ne hi hp ?_
        exact Ne.symm (kept c _)
      · intro p hp c q hu
        rcases mem_set hp with rfl | hp
        · rw [user] at hu
          cases hu
        · have hq := h.user p hp c q hu
          rw [hqueue c (hold c q hq)]
          exact hq
  | register c handle state hpc hpc' =>
      obtain ⟨hzero, hnew⟩ := hfresh c handle hpc hpc'
      subst state hpc hpc'
      have hclaims : ∀ x, s'.Claims freed' (threads.set i (.newHandle c handle)) x →
          x = (c, handle) ∨ s'.Claims freed threads x := by
        rintro x (⟨p, hp, hx⟩ | ⟨q, hq, hf, hx⟩)
        · rcases mem_set hp with rfl | hp
          · exact .inl (Option.some.inj hx).symm
          · exact .inr (.inl ⟨p, hp, hx⟩)
        · exact .inr (.inr ⟨q, hq, hfreed q hq hf, hx⟩)
      constructor
      · intro x y hx hy hxy
        rcases hclaims x hx with rfl | hx
        · rcases hclaims y hy with rfl | hy
          · rfl
          · exact absurd hxy.symm (hnew y hy)
        · rcases hclaims y hy with rfl | hy
          · exact absurd hxy (hnew x hx)
          · exact h.unique x y hx hy hxy
      · intro x hx
        rcases hclaims x hx with rfl | hx
        · exact hzero
        · exact h.nonzero x hx
      · exact h.queue
      · intro p hp c' handle' hpc
        rcases mem_set hp with rfl | hp
        · cases hpc
        · exact h.named p hp c' handle' hpc
      · intro c' hc
        exact (h.handle c' hc).imp_left fun hp => mem_set_of_ne hi hp nofun
      · intro p hp c' q hu
        rcases mem_set hp with rfl | hp
        · cases hu
        · exact h.user p hp c' q hu
  | handle c handle state hpc hpc' =>
      subst hpc hpc'
      have hnone : s.queueOf c = none := by
        rw [← hqueueOf]
        exact (hk.named hmem rfl).2.1
      have hself : s'.handle c = handle := by
        rw [state]
        exact Function.update_self _ _ _
      have hhandle : ∀ c', c' ≠ c → s'.handle c' = s.handle c' := by
        intro c' hc
        rw [state]
        exact Function.update_of_ne hc _ _
      have hqueueOf' : s'.queueOf = s.queueOf := by rw [state]
      have howner : s'.owner = s.owner := by rw [state]
      have hqueues : s'.queues = s.queues := by rw [state]
      have hclaims : ∀ x, s'.Claims freed' (threads.set i (.newQueue c handle)) x →
          s.Claims freed threads x :=
        fun x hx => claims_of_set hi howner hqueues
          (fun (hn : Pc.names (.newQueue c handle) = some x) => hn) hfreed hx
      constructor
      · intro x y hx hy
        exact h.unique x y (hclaims x hx) (hclaims y hy)
      · intro x hx
        exact h.nonzero x (hclaims x hx)
      · intro q hq
        rw [hqueues] at hq
        obtain ⟨hqueue', hhandle'⟩ := h.queue q hq
        have hne : (s.owner q).1 ≠ c := by
          intro heq
          rw [heq, hnone] at hqueue'
          cases hqueue'
        rw [howner, hqueueOf', hhandle _ hne]
        exact ⟨hqueue', hhandle'⟩
      · intro p hp c' handle' hpc
        rcases mem_set_cases hp with rfl | ⟨j, hj, hold⟩
        · cases hpc
          exact hself
        · subst hpc
          by_cases hne : c' = c
          · subst hne
            exact absurd (hk.named_unique hold hi rfl rfl) hj
          · rw [hhandle c' hne]
            exact h.named _ (List.mem_of_getElem? hold) c' handle' rfl
      · intro c' hc
        by_cases hne : c' = c
        · rw [hne, hself]
          exact .inl (mem_set_self hi)
        · rw [hhandle c' hne] at hc ⊢
          rw [hqueues, howner]
          exact (h.handle c' hc).imp_left fun hp => mem_set_of_ne hi hp nofun
      · intro p hp c' q hu
        rw [hqueueOf']
        rcases mem_set hp with rfl | hp
        · cases hu
        · exact h.user p hp c' q hu
  | newQueue c handle state hpc names user =>
      subst hpc
      have hnone : s.queueOf c = none := by
        rw [← hqueueOf]
        exact (hk.named hmem rfl).2.1
      have hself : s'.queueOf c = some s.queues := by
        rw [state]
        exact Function.update_self _ _ _
      have hqueue : ∀ c', c' ≠ c → s'.queueOf c' = s.queueOf c' := by
        intro c' hc
        rw [state]
        exact Function.update_of_ne hc _ _
      have hownerSelf : s'.owner s.queues = (c, handle) := by
        rw [state]
        exact Function.update_self _ _ _
      have howner : ∀ q, q ≠ s.queues → s'.owner q = s.owner q := by
        intro q hq
        rw [state]
        exact Function.update_of_ne hq _ _
      have hhandle : s'.handle = s.handle := by rw [state]
      have hqueues : s'.queues = s.queues + 1 := by rw [state]
      have hclaims : ∀ x, s'.Claims freed' (threads.set i pc') x → s.Claims freed threads x := by
        rintro x (⟨p, hp, hx⟩ | ⟨q, hq, hf, hx⟩)
        · rcases mem_set hp with rfl | hp
          · rw [names] at hx
            cases hx
          · exact .inl ⟨p, hp, hx⟩
        · by_cases hne : q = s.queues
          · rw [hne, hownerSelf] at hx
            exact .inl ⟨_, hmem, congrArg some hx⟩
          · rw [howner q hne] at hx
            exact .inr ⟨q, by omega, hfreed q (by omega) hf, hx⟩
      constructor
      · intro x y hx hy
        exact h.unique x y (hclaims x hx) (hclaims y hy)
      · intro x hx
        exact h.nonzero x (hclaims x hx)
      · intro q hq
        rw [hhandle]
        by_cases hne : q = s.queues
        · rw [hne, hownerSelf]
          exact ⟨hself, h.named _ hmem c handle rfl⟩
        · obtain ⟨hqueue', hhandle'⟩ := h.queue q (by omega)
          have hc : (s.owner q).1 ≠ c := by
            intro heq
            rw [heq, hnone] at hqueue'
            cases hqueue'
          rw [howner q hne, hqueue _ hc]
          exact ⟨hqueue', hhandle'⟩
      · intro p hp c' handle' hpc
        rw [hhandle]
        rcases mem_set hp with rfl | hp
        · rw [hpc] at names
          cases names
        · exact h.named p hp c' handle' hpc
      · intro c' hc
        rw [hhandle] at hc ⊢
        rcases h.handle c' hc with hp | ⟨q, hq, hown⟩
        · by_cases hne : c' = c
          · subst hne
            refine .inr ⟨s.queues, by omega, ?_⟩
            rw [hownerSelf, h.named _ hmem c' handle rfl]
          · refine .inl (mem_set_of_ne hi hp ?_)
            intro heq
            exact hne (Pc.newQueue.inj heq).1
        · refine .inr ⟨q, by omega, ?_⟩
          rw [howner q (Nat.ne_of_lt hq), hown]
      · intro p hp c' q hu
        rcases mem_set hp with rfl | hp
        · rw [user] at hu
          cases hu
        · have hq := h.user p hp c' q hu
          have hne : c' ≠ c := by
            rintro rfl
            rw [hnone] at hq
            cases hq
          rw [hqueue c' hne]
          exact hq
  | work c q weight state hpc found hpc' =>
      obtain ⟨hq, hf⟩ := hlive q weight hpc
      subst state hpc hpc'
      have hfound := h.found hq hf found.2 fun q' hq' => hstored c q' found.1 hq'
      have hclaims : ∀ x, s'.Claims freed' (threads.set i (.message c q 0 1 weight)) x →
          s'.Claims freed threads x :=
        fun x hx => claims_of_set hi rfl rfl
          (fun (hn : Pc.names (.message c q 0 1 weight) = some x) => by cases hn) hfreed hx
      constructor
      · intro x y hx hy
        exact h.unique x y (hclaims x hx) (hclaims y hy)
      · intro x hx
        exact h.nonzero x (hclaims x hx)
      · exact h.queue
      · intro p hp c' handle' hpc
        rcases mem_set hp with rfl | hp
        · cases hpc
        · exact h.named p hp c' handle' hpc
      · intro c' hc
        exact (h.handle c' hc).imp_left fun hp => mem_set_of_ne hi hp nofun
      · intro p hp c' q' hu
        rcases mem_set hp with rfl | hp
        · cases hu
          exact hfound
        · exact h.user p hp c' q' hu

end Names

end Jump.Skynet.Server
