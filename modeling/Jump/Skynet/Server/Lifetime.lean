import Jump.Skynet.Server.Linking

/-! # The lifetime of a context

As long as nobody releases the last reference before `skynet_context_new` is done with the
context, a context is deleted once, after it was retired and released by all that had
grabbed it, and is not used afterwards.
-/

namespace Jump.Skynet.Server

open Jump.Core Jump.Core.Threads

theorem ok_resume {k : Then} (b : Bool) : (k.resume b).Ok := by
  cases k with
  | newRetire handle q => exact fun _ _ hf => by cases hf
  | newDrop q => exact fun _ _ hf => by cases hf
  | _ => cases b <;> trivial

theorem ok_loop (c q i n : Nat) (weight : Int) : (loop c q i n weight).Ok := by
  unfold loop
  split <;> trivial

theorem move_ok {s s' : State} {pc pc' : Pc} {choice : Choice} (hok : pc.Ok)
    (h : move s pc choice = some (s', pc')) : pc'.Ok := by
  revert h
  fun_cases move s pc choice
  all_goals intro h
  all_goals first
    | cases h; done
    | obtain ⟨rfl, rfl⟩ := Prod.mk.inj (Option.some.inj h)
  all_goals first
    | trivial
    | exact ok_resume _
    | exact ok_loop _ _ _ _ _
    | exact hok
    | exact fun c' q hk => absurd hk (hok c' q)
    | (intro _ _ hk; cases hk)
    | skip
  case case23 c q ok =>
    cases ok
    · trivial
    · intro c' q' hk
      cases hk
      rfl
  case case26 c q ret =>
    cases ret
    · trivial
    · trivial

/-- The steps that leave a fault behind. -/
def State.Blames (s : State) (pc : Pc) : Fault → Prop
  | .deletedContext c => (s.context c).deleted = true ∧ (0 < pc.refs c ∨ 0 < pc.tail c)
  | .noQueue c => (s.context c).queue = none ∧
      ((∃ m, pc = .pushQueue c m) ∨ ∃ k, pc = .markRelease c k)
  | .linkedTwice q => q ∈ s.global ∧ (0 < pc.holds q ∨ (s.queue q).inGlobal = false ∧
      ∃ c, (s.context c).queue = some q ∧
        ((∃ m, pc = .pushQueue c m) ∨ ∃ k, pc = .markRelease c k))
  | .markedTwice q => (s.queue q).release = true ∧
      ∃ c k, (s.context c).queue = some q ∧ pc = .markRelease c k
  | .otherQueue q => ∃ c weight, pc = .next c q weight ∧ (s.context c).queue ≠ some q
  | .notInit c => ∃ q m i n weight, pc = .got c q m i n weight ∧ (s.context c).init = false

namespace State

variable {s s' : State} {pc : Pc} {f g : Fault} {b : Bool}

theorem mem_check (h : f ∈ (s.check b g).faults) : f ∈ s.faults ∨ b = false ∧ f = g := by
  cases b with
  | true => exact .inl h
  | false => simpa [check, fault] using h

theorem mem_touch {c : Nat} (h : f ∈ (s.touch c).faults)
    (hpc : 0 < pc.refs c ∨ 0 < pc.tail c) : f ∈ s.faults ∨ s.Blames pc f := by
  rcases mem_check h with h | ⟨hd, rfl⟩
  · exact .inl h
  · refine .inr ⟨?_, hpc⟩
    simpa using hd

theorem mem_globalPush {q : Nat} (h : f ∈ (s.globalPush q).faults) :
    f ∈ s.faults ∨ q ∈ s.global ∧ f = .linkedTwice q := by
  rcases mem_check h with h | ⟨hmem, rfl⟩
  · exact .inl h
  · exact .inr ⟨by simpa using hmem, rfl⟩

theorem blames_push {q : Nat} (h : f ∈ (s.globalPush q).faults) (hpc : 0 < pc.holds q) :
    f ∈ s.faults ∨ s.Blames pc f := by
  rcases mem_globalPush h with h | ⟨hmem, rfl⟩
  · exact .inl h
  · exact .inr ⟨hmem, .inl hpc⟩

theorem mem_mqPush {q m : Nat} (h : f ∈ (s.mqPush q m).faults) :
    f ∈ s.faults ∨ (q ∈ s.global ∧ (s.queue q).inGlobal = false) ∧ f = .linkedTwice q := by
  simp only [mqPush] at h
  split at h
  · exact .inl h
  · rename_i hin
    rcases mem_globalPush h with h | ⟨hmem, rfl⟩
    · exact .inl h
    · exact .inr ⟨⟨hmem, Bool.eq_false_iff.mpr hin⟩, rfl⟩

theorem mem_mqMarkRelease {q : Nat} (h : f ∈ (s.mqMarkRelease q).faults) :
    f ∈ s.faults ∨ (s.queue q).release = true ∧ f = .markedTwice q ∨
      (q ∈ s.global ∧ (s.queue q).inGlobal = false) ∧ f = .linkedTwice q := by
  have hcheck : ∀ g ∈ (s.check (!(s.queue q).release) (.markedTwice q)).faults,
      g ∈ s.faults ∨ (s.queue q).release = true ∧ g = .markedTwice q := by
    intro g hg
    rcases mem_check hg with hg | ⟨hrelease, rfl⟩
    · exact .inl hg
    · exact .inr ⟨by simpa using hrelease, rfl⟩
  simp only [mqMarkRelease] at h
  split at h
  · rcases hcheck f h with h | h
    · exact .inl h
    · exact .inr (.inl h)
  · rename_i hin
    rcases mem_globalPush h with h | ⟨hmem, rfl⟩
    · rcases hcheck f h with h | h
      · exact .inl h
      · exact .inr (.inl h)
    · refine .inr (.inr ⟨⟨?_, Bool.eq_false_iff.mpr hin⟩, rfl⟩)
      rw [check_eq] at hmem
      exact hmem

end State

theorem refs_pos {pc : Pc} {c : Nat} (h : pc.refs c = one c c) : 0 < pc.refs c := by
  rw [h, one_self]
  exact Nat.one_pos

theorem tail_pos {pc : Pc} {c : Nat} (h : pc.tail c = one c c) : 0 < pc.tail c := by
  rw [h, one_self]
  exact Nat.one_pos

theorem holds_pos {pc : Pc} {q : Nat} (h : one q q ≤ pc.holds q) : 0 < pc.holds q := by
  rw [one_self] at h
  exact h

theorem move_faults {s s' : State} {pc pc' : Pc} {choice : Choice}
    (h : move s pc choice = some (s', pc')) (f : Fault) (hf : f ∈ s'.faults) :
    f ∈ s.faults ∨ s.Blames pc f := by
  revert h
  fun_cases move s pc choice
  all_goals intro h
  all_goals first
    | cases h; done
    | obtain ⟨rfl, rfl⟩ := Prod.mk.inj (Option.some.inj h)
  all_goals clear h
  all_goals first
    | exact .inl hf
    | exact State.mem_touch hf (.inl (refs_pos rfl))
    | exact State.mem_touch hf (.inr (tail_pos rfl))
    | skip
  case case4 c m s₁ hqueue =>
    have hq : (s.context c).queue = none := by
      rw [← s.context_touch c]
      exact hqueue
    rcases List.mem_append.mp hf with hf | hf
    · exact State.mem_touch hf (.inl (refs_pos rfl))
    · rw [List.mem_singleton.mp hf]
      exact .inr ⟨hq, .inl ⟨m, rfl⟩⟩
  case case5 c m s₁ q hqueue =>
    have hq : (s.context c).queue = some q := by
      rw [← s.context_touch c]
      exact hqueue
    rcases State.mem_mqPush hf with hf | ⟨⟨hmem, hin⟩, rfl⟩
    · exact State.mem_touch hf (.inl (refs_pos rfl))
    · have hs : s₁.links = s.links := s.links_touch c
      have hglobal : s₁.global = s.global := congrArg Links.global hs
      have hflags : (s₁.queue q).inGlobal = (s.queue q).inGlobal :=
        congrArg Flags.inGlobal (congrFun (congrArg Links.queue hs) q)
      rw [hglobal] at hmem
      rw [hflags] at hin
      exact .inr ⟨hmem, .inr ⟨hin, c, hq, .inl ⟨m, rfl⟩⟩⟩
  case case15 c k hqueue =>
    rcases List.mem_append.mp hf with hf | hf
    · exact .inl hf
    · rw [List.mem_singleton.mp hf]
      exact .inr ⟨hqueue, .inr ⟨k, rfl⟩⟩
  case case16 c k q hqueue =>
    rcases State.mem_mqMarkRelease hf with hf | ⟨hrelease, rfl⟩ | ⟨⟨hmem, hin⟩, rfl⟩
    · exact .inl hf
    · exact .inr ⟨hrelease, c, k, hqueue, rfl⟩
    · exact .inr ⟨hmem, .inr ⟨hin, c, hqueue, .inr ⟨k, rfl⟩⟩⟩
  case case19 c handle s₁ =>
    refine State.mem_touch hf (.inl ?_)
    show 0 < 2 * one c c
    rw [one_self]
    exact Nat.two_pos
  case case26 c q ret => exact State.blames_push hf (holds_pos (Nat.le_refl _))
  case case41 c q nq weight => exact State.blames_push hf (holds_pos (Nat.le_add_right _ _))
  case case43 q k _ => exact State.blames_push hf (holds_pos (Nat.le_add_right _ _))
  case case35 c q m i n weight s₁ x n' _ s₂ =>
    rcases State.mem_check hf with hf | ⟨hinit, rfl⟩
    · exact State.mem_touch hf (.inl (refs_pos rfl))
    · refine .inr ⟨q, m, i, n, weight, rfl, ?_⟩
      rw [← s.context_touch c]
      exact hinit
  case case39 c q weight s₁ s₂ _ =>
    rcases State.mem_check hf with hf | ⟨hq, rfl⟩
    · exact State.mem_touch hf (.inl (refs_pos rfl))
    · refine .inr ⟨c, weight, rfl, ?_⟩
      rw [← s.context_touch c]
      exact of_decide_eq_false hq
  case case40 c q weight s₁ s₂ nq rest _ =>
    rcases State.mem_check hf with hf | ⟨hq, rfl⟩
    · exact State.mem_touch hf (.inl (refs_pos rfl))
    · refine .inr ⟨c, weight, rfl, ?_⟩
      rw [← s.context_touch c]
      exact of_decide_eq_false hq

/-- A thread that has not got anything yet. -/
structure Pc.Idle (pc : Pc) : Prop where
  refs : ∀ c, pc.refs c = 0
  early : ∀ c, pc.early c = 0
  tail : ∀ c, pc.tail c = 0
  marking : ∀ c, pc.marking c = 0
  holds : ∀ q, pc.holds q = 0
  drops : ∀ q, ¬pc.drops q
  ok : pc.Ok

theorem total_spawn {f : Pc → Nat} {threads : List Pc} {pc : Pc} (h : f pc = 0) :
    total f (threads ++ [pc]) = total f threads := by
  rw [total_concat, h, Nat.add_zero]

theorem Counts.Inv.spawn {s : Counts} {threads : List Pc} {pc : Pc} (h : s.Inv threads)
    (hpc : pc.Idle) : s.Inv (threads ++ [pc]) where
  blank := h.blank
  ref c := by rw [total_spawn (hpc.refs c), h.ref c]
  deleted := h.deleted
  register p hp c htwo := by
    rcases List.mem_append.mp hp with hp | hp
    · exact h.register p hp c htwo
    · rw [List.mem_singleton.mp hp, hpc.refs c] at htwo
      omega
  early c hc := by rw [total_spawn (hpc.early c), h.early c hc]
  queue := h.queue
  release := h.release
  marked c := by rw [total_spawn (hpc.marking c), h.marked c]
  tail c hpos := by
    rw [total_spawn (hpc.tail c)] at hpos
    exact h.tail c hpos

theorem Links.Inv.spawn {s : Links} {threads : List Pc} {pc : Pc} (h : s.Inv threads)
    (hpc : pc.Idle) : s.Inv (threads ++ [pc]) := by
  have hplaces : ∀ q, s.places (threads ++ [pc]) q = s.places threads q := by
    intro q
    unfold Links.places
    rw [total_spawn (hpc.holds q)]
  refine ⟨?_, ?_, ?_, h.freed, ?_⟩
  · intro q
    rw [hplaces]
    exact h.once q
  · intro q
    rw [hplaces]
    exact h.idle q
  · intro q
    rw [hplaces]
    exact h.fresh q
  · intro p hp q hd
    rcases List.mem_append.mp hp with hp | hp
    · exact h.drops p hp q hd
    · rw [List.mem_singleton.mp hp] at hd
      exact absurd hd (hpc.drops q)

/-- A use of deleted memory, or a queue that is linked or marked for the second time. -/
def Fault.Lifetime : Fault → Prop
  | .deletedContext _ | .linkedTwice _ | .markedTwice _ => True
  | _ => False

namespace State

structure Inv (s : State) : Prop where
  counts : s.counts.Inv s.threads
  links : s.links.Inv s.threads
  ok : ∀ p ∈ s.threads, p.Ok
  faults : ∀ f ∈ s.faults, ¬f.Lifetime

/-- Whoever releases the last reference, the creator is done with the context. -/
def Clean (s : State) : Action → Prop
  | .step i _ =>
    match s.threads[i]? with
    | some (.release c _) => (s.context c).ref = 1 → total (Pc.tail c) s.threads = 0
    | _ => True
  | _ => True

instance (s : State) (a : Action) : Decidable (s.Clean a) := by
  unfold Clean
  split
  · split <;> infer_instance
  · infer_instance

variable {s s' : State} {pc pc' : Pc} {i : Nat} {choice : Choice}

theorem Inv.spawn (h : s.Inv) (hpc : pc.Idle) : (s.spawn pc).Inv where
  counts := h.counts.spawn hpc
  links := h.links.spawn hpc
  ok p hp := by
    rcases List.mem_append.mp hp with hp | hp
    · exact h.ok p hp
    · rw [List.mem_singleton.mp hp]
      exact hpc.ok
  faults := h.faults

/-- A context that a thread counts on has not marked its queue. -/
theorem Inv.unmarked (h : s.Inv) (hmem : pc ∈ s.threads) {c q : Nat}
    (hqueue : (s.context c).queue = some q)
    (hpc : (∃ m, pc = .pushQueue c m) ∨ ∃ k, pc = .markRelease c k) :
    q < s.queues ∧ (s.queue q).release = false := by
  have hq : (s.counts.context c).queue = some q := hqueue
  refine ⟨(h.counts.queue c q hq).1, ?_⟩
  have hmarked := h.counts.marked c
  have hmarks : s.counts.marks c = (s.queue q).marked := by
    unfold Counts.marks
    rw [hq]
    rfl
  have hzero : s.counts.marks c = 0 := by
    rcases hpc with ⟨m, rfl⟩ | ⟨k, rfl⟩
    · have hle := le_total (Pc.refs c) hmem
      have hone : Pc.refs c (.pushQueue c m) = 1 := one_self c
      obtain ⟨-, -, halive⟩ := h.counts.alive (c := c) (.inr (by omega))
      rw [halive] at hmarked
      simp only [bit, Bool.false_eq_true, if_false] at hmarked
      omega
    · have hle := le_total (Pc.marking c) hmem
      have hone : Pc.marking c (.markRelease c k) = 1 := one_self c
      have hbit : bit (s.counts.context c).deleted ≤ 1 := by
        unfold bit
        split <;> omega
      omega
  cases hr : (s.queue q).release with
  | false => rfl
  | true =>
      have hpos := (h.counts.release q).mp hr
      have hpos' : 0 < (s.queue q).marked := hpos
      omega

/-- What a step is to blame for, it cannot do. -/
theorem Inv.blameless (h : s.Inv) (hmem : pc ∈ s.threads) {f : Fault} (hf : f.Lifetime) :
    ¬s.Blames pc f := by
  cases f with
  | deletedContext c =>
      rintro ⟨hdeleted, hpc | hpc⟩
      · have hle := le_total (Pc.refs c) hmem
        obtain ⟨-, -, halive⟩ := h.counts.alive (c := c) (.inr (by omega))
        have hdeleted' : (s.counts.context c).deleted = true := hdeleted
        rw [halive] at hdeleted'
        cases hdeleted'
      · have hle := le_total (Pc.tail c) hmem
        obtain ⟨-, halive⟩ := h.counts.tail c (by omega)
        have hdeleted' : (s.counts.context c).deleted = true := hdeleted
        rw [halive] at hdeleted'
        cases hdeleted'
  | linkedTwice q =>
      rintro ⟨hglobal, hpc⟩
      have hcount : 0 < s.links.global.count q := List.count_pos_iff.mpr hglobal
      have honce := h.links.once q
      have hplaces : s.links.places s.threads q = s.links.global.count q +
        total (Pc.holds q) s.threads + bit (s.links.queue q).freed := rfl
      rcases hpc with hholds | ⟨hin, c, hqueue, hpc⟩
      · have hle := le_total (Pc.holds q) hmem
        omega
      · obtain ⟨-, hrelease⟩ := h.unmarked hmem hqueue hpc
        have hzero := h.links.idle q hin hrelease
        omega
  | markedTwice q =>
      rintro ⟨hrelease, c, k, hqueue, hpc⟩
      obtain ⟨-, hrelease'⟩ := h.unmarked hmem hqueue (.inr ⟨k, hpc⟩)
      rw [hrelease] at hrelease'
      cases hrelease'
  | noQueue c => exact hf.elim
  | otherQueue q => exact hf.elim
  | notInit c => exact hf.elim

theorem Inv.move (h : s.Inv) (hi : s.threads[i]? = some pc)
    (hclean : ∀ c k, pc = .release c k → (s.context c).ref = 1 →
      total (Pc.tail c) s.threads = 0)
    (hmove : move s pc choice = some (s', pc')) :
    Inv { s' with threads := s.threads.set i pc' } := by
  have hmem : pc ∈ s.threads := List.mem_of_getElem? hi
  have hcounts : s'.counts.Inv (s.threads.set i pc') :=
    h.counts.step hi hclean (move_counts (h.ok pc hmem) hmove)
  have hlinks : s'.links.Inv (s.threads.set i pc') :=
    h.links.step hi (fun _ => move_drops hmove)
      (fun _ _ hqueue hpc => h.unmarked hmem hqueue hpc) (move_links hmove)
  refine ⟨hcounts, hlinks, ?_, ?_⟩
  · intro p hp
    rcases mem_set hp with rfl | hp
    · exact move_ok (h.ok pc hmem) hmove
    · exact h.ok p hp
  · intro f hf hlife
    rcases move_faults hmove f hf with hf | hf
    · exact h.faults f hf hlife
    · exact h.blameless hmem hlife hf

theorem Inv.step (h : s.Inv) {a : Action} (hclean : s.Clean a) (hstep : step s a = some s') :
    s'.Inv := by
  cases a with
  | step i choice =>
      simp only [Server.step, Option.bind_eq_bind, Option.bind_eq_some_iff] at hstep
      obtain ⟨pc, hi, ⟨s₁, pc'⟩, hmove, hs⟩ := hstep
      obtain rfl := Option.some.inj hs
      refine h.move hi (fun c k hpc hone => ?_) hmove
      rw [hpc] at hi
      simp only [Clean, hi] at hclean
      exact hclean hone
  | push handle m =>
      obtain rfl := Option.some.inj hstep
      exact h.spawn ⟨fun _ => rfl, fun _ => rfl, fun _ => rfl, fun _ => rfl, fun _ => rfl,
        fun _ => id, trivial⟩
  | grab handle =>
      obtain rfl := Option.some.inj hstep
      exact h.spawn ⟨fun _ => rfl, fun _ => rfl, fun _ => rfl, fun _ => rfl, fun _ => rfl,
        fun _ => id, trivial⟩
  | retire handle =>
      obtain rfl := Option.some.inj hstep
      exact h.spawn ⟨fun _ => rfl, fun _ => rfl, fun _ => rfl, fun _ => rfl, fun _ => rfl,
        fun _ => id, fun _ _ hk => nomatch hk⟩
  | new =>
      obtain rfl := Option.some.inj hstep
      exact h.spawn ⟨fun _ => rfl, fun _ => rfl, fun _ => rfl, fun _ => rfl, fun _ => rfl,
        fun _ => id, trivial⟩
  | dispatch weight =>
      obtain rfl := Option.some.inj hstep
      exact h.spawn ⟨fun _ => rfl, fun _ => rfl, fun _ => rfl, fun _ => rfl, fun _ => rfl,
        fun _ => id, trivial⟩

theorem inv_start : start.Inv where
  counts := {
    blank := fun _ _ => rfl
    ref := fun _ => rfl
    deleted := fun _ h => absurd h (Nat.not_lt_zero _)
    register := fun _ h => absurd h List.not_mem_nil
    early := fun _ h => absurd h (Nat.not_lt_zero _)
    queue := fun _ _ h => by cases h
    release := fun _ => ⟨fun h => absurd h Bool.false_ne_true, fun h => absurd h
      (Nat.not_lt_zero _)⟩
    marked := fun _ => rfl
    tail := fun _ h => absurd h (Nat.not_lt_zero _) }
  links := {
    once := fun _ => Nat.zero_le 1
    idle := fun _ _ _ => rfl
    fresh := fun _ _ => rfl
    freed := fun _ h => by cases h
    drops := fun _ h => absurd h List.not_mem_nil }
  ok := fun _ h => absurd h List.not_mem_nil
  faults := fun _ h => absurd h List.not_mem_nil

end State

/-- The states that are reached when every step satisfies `P`. -/
inductive Run (P : State → Action → Prop) : State → Prop
  | start : Run P start
  | step {s s' : State} {a : Action} (hrun : Run P s) (hP : P s a) (hs : step s a = some s') :
      Run P s'

theorem Run.inv {s : State} (hrun : Run State.Clean s) : s.Inv := by
  induction hrun with
  | start => exact State.inv_start
  | step _ hclean hs ih => exact ih.step hclean hs

/-- What the table, `delete_context` and the threads do with the contexts. A `delete_context`
has marked the queue of its context, or is about to. -/
structure Lifetimes (s : State) : Prop where
  stored : ∀ c, (s.context c).stored = true → 1 ≤ (s.context c).ref
  found : ∀ handle c, s.Finds handle c → (s.context c).deleted = false
  deleted : ∀ c, c < s.contexts → ((s.context c).deleted = true ↔
    (s.context c).stored = false ∧ total (Pc.refs c) s.threads = 0)
  once : ∀ c q, (s.context c).queue = some q →
    (s.queue q).marked + total (Pc.marking c) s.threads = bit (s.context c).deleted
  freed : ∀ q, s.global.count q + total (Pc.holds q) s.threads + bit (s.queue q).freed ≤ 1
  marked : ∀ q, (s.queue q).freed = true → 1 ≤ (s.queue q).marked
  accesses : ∀ f ∈ s.faults, ¬f.Lifetime

/-- In every run whose steps are `Clean`. -/
theorem context_lifetimes {s : State} (hrun : Run State.Clean s) : Lifetimes s := by
  have h := hrun.inv
  have halive : ∀ c, (s.context c).stored = true → c < s.contexts ∧
      0 < (s.context c).ref ∧ (s.context c).deleted = false :=
    fun c hstored => h.counts.alive (.inl hstored)
  refine ⟨?_, ?_, ?_, ?_, h.links.once, ?_, h.faults⟩
  · intro c hstored
    exact (halive c hstored).2.1
  · intro handle c hfound
    exact (halive c hfound.2.1).2.2
  · intro c hc
    have href : (s.context c).ref = bit (s.context c).stored + total (Pc.refs c) s.threads :=
      h.counts.ref c
    have hdeleted : (s.context c).deleted = true ↔ (s.context c).ref = 0 := h.counts.deleted c hc
    rw [hdeleted]
    cases hstored : (s.context c).stored with
    | false =>
        rw [hstored] at href
        simp only [bit, Bool.false_eq_true, if_false] at href
        constructor
        · intro hzero
          exact ⟨rfl, by omega⟩
        · rintro ⟨-, hzero⟩
          omega
    | true =>
        have hpos := (halive c hstored).2.1
        constructor
        · intro hzero
          omega
        · rintro ⟨hf, -⟩
          cases hf
  · intro c q hqueue
    have hmarked := h.counts.marked c
    have hq : (s.counts.context c).queue = some q := hqueue
    unfold Counts.marks at hmarked
    rw [hq] at hmarked
    exact hmarked
  · intro q hfreed
    exact (h.counts.release q).mp (h.links.freed q hfreed)

/-- The state after the actions, if all of them can happen and satisfy `P`. -/
def runActions (P : State → Action → Prop) [∀ s a, Decidable (P s a)] (s : State) :
    List Action → Option State
  | [] => some s
  | a :: as => if P s a then (step s a).bind fun s' => runActions P s' as else none

theorem Run.of_actions {P : State → Action → Prop} [∀ s a, Decidable (P s a)] {s s' : State}
    (hrun : Run P s) (as : List Action) (h : runActions P s as = some s') : Run P s' := by
  induction as generalizing s with
  | nil =>
      cases h
      exact hrun
  | cons a as ih =>
      unfold runActions at h
      split at h
      · rename_i hP
        obtain ⟨s₁, hs, hrest⟩ := Option.bind_eq_some_iff.mp h
        exact ih (.step hrun hP hs) hrest
      · cases h

/-- `skynet_context_new` up to the release of its reference. -/
def launch : List Action :=
  [.new, .step 0 .go, .step 0 (.handle 1), .step 0 .go, .step 0 .go, .step 0 (.init true)]

/-- The service is retired when its creator is done. -/
def retireLate : List Action :=
  launch ++ [.step 0 .go, .step 0 .go, .step 0 .go, .step 0 .go, .retire 1,
    .step 1 (.found (some 0)), .step 1 .go, .step 1 .go, .step 1 .go]

theorem context_lifetimes_launch :
    ∃ s, runActions State.Clean start retireLate = some s ∧ Lifetimes s := by
  have hsome : (runActions State.Clean start retireLate).isSome = true := by decide
  obtain ⟨s, hs⟩ := Option.isSome_iff_exists.mp hsome
  exact ⟨s, hs, context_lifetimes (Run.of_actions .start retireLate hs)⟩

/-- Another thread retires a new service between its creator's release and
`ctx->init = true`. -/
def retireEarly : List Action :=
  launch ++ [.retire 1, .step 0 .go, .step 1 (.found (some 0)), .step 1 .go, .step 1 .go,
    .step 1 .go, .step 0 .go]

theorem used_after_delete :
    ∃ s, Run (fun _ _ => True) s ∧ Fault.deletedContext 0 ∈ s.faults := by
  have hfaults : (runActions (fun _ _ => True) start retireEarly).map State.faults =
    some [.deletedContext 0] := by decide
  obtain ⟨s, hs, hf⟩ := Option.map_eq_some_iff.mp hfaults
  refine ⟨s, Run.of_actions .start retireEarly hs, ?_⟩
  rw [hf]
  exact List.mem_singleton.mpr rfl

end Jump.Skynet.Server
