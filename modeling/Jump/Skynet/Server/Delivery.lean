import Jump.Skynet.Server.Owners

/-! # Scheduling

Every message that is pushed to a queue is passed to the callback of the context that the
queue was made for, or freed, in the order of the pushes, as long as no handle is given out
again while a queue still has it, and no message is pushed before the queue is there.
-/

namespace Jump.Skynet.Server

open Jump.Core Jump.Core.Threads

namespace Links

/-- A flag that is set says that the queue is somewhere. -/
def Busy (s : Links) (threads : List Pc) : Prop :=
  ∀ q, q < s.queues → (s.queue q).inGlobal = true ∨ (s.queue q).release = true →
    s.places threads q = 1

variable {queueOf : Nat → Option Nat} {s s' : Links} {threads : List Pc} {pc pc' : Pc} {i : Nat}

theorem Busy.step (h : s.Busy threads) (hl : s.Inv threads) (hi : threads[i]? = some pc)
    (huser : ∀ q c, queueOf c = some q →
      ((∃ m, pc = .pushQueue c m) ∨ ∃ k, pc = .markRelease c k) →
        q < s.queues ∧ (s.queue q).release = false)
    (hmessage : ∀ c q i n weight, pc = .message c q i n weight → (s.queue q).release = false)
    (hstep : LinkStep queueOf s pc s' pc') : s'.Busy (threads.set i pc') := by
  have hmem : pc ∈ threads := List.mem_of_getElem? hi
  have hset : ∀ q, s'.places (threads.set i pc') q + s.share pc q =
      s.places threads q + s'.share pc' q := fun q => places_set hi q
  have hshare : ∀ q, s.share pc q ≤ s.places threads q := fun q => share_le_places hi q
  intro q hq hflag
  have hset := hset q
  cases hstep with
  | pass queues inGlobal release freed kept share =>
      rw [queues] at hq
      rw [inGlobal, release] at hflag
      have hone := h q hq hflag
      have heq := share q (by have hle := hshare q; omega)
      omega
  | take q' user queues x queue freed flags share =>
      obtain ⟨c, hqueue, hpc⟩ := user
      obtain ⟨hlt, hrelease⟩ := huser q' c hqueue hpc
      have hshare' := share q
      rw [queues] at hq
      by_cases hne : q = q'
      · subst hne
        rw [one_self] at hshare'
        cases hin : (s.queue q).inGlobal with
        | true =>
            have hone := h q hq (.inl hin)
            rw [hin] at hshare'
            simp only [bit, Bool.not_true, Bool.false_eq_true, if_false] at hshare'
            omega
        | false =>
            have hzero := hl.idle q hin hrelease
            rw [hin] at hshare'
            simp only [bit, Bool.not_false, if_true] at hshare'
            omega
      · rw [one_of_ne hne] at hshare'
        rw [queue, setQueue_of_ne s x hne] at hflag
        have hone := h q hq hflag
        omega
  | drop q' queues queue share =>
      rw [queues] at hq
      rw [queue] at hflag
      by_cases hne : q = q'
      · subst hne
        rw [setQueue_self'] at hflag
        have hrelease : (s.queue q).release = true := hflag.resolve_left (by simp)
        rcases share with ⟨⟨c, i, n, weight, hpc⟩, -⟩ | ⟨-, hs⟩
        · rw [hmessage c q i n weight hpc] at hrelease
          cases hrelease
        · have hone := h q hq (.inr hrelease)
          have hshare' := hs q
          omega
      · rw [setQueue_of_ne s _ hne] at hflag
        have hone := h q hq hflag
        rcases share with ⟨-, hs⟩ | ⟨-, hs⟩
        · have hshare' := hs q
          rw [one_of_ne hne] at hshare'
          omega
        · have hshare' := hs q
          omega
  | create queues queue share =>
      have hshare' := share q
      by_cases hne : q = s.queues
      · subst hne
        have hzero := hl.fresh s.queues (Nat.le_refl _)
        have hle := hshare s.queues
        have hfreed : bit (s.queue s.queues).freed = 0 := by
          unfold places at hzero
          omega
        rw [one_self, hfreed] at hshare'
        omega
      · rw [one_of_ne hne] at hshare'
        rw [queue, setQueue_of_ne s _ hne] at hflag
        have hone := h q (by omega) hflag
        omega

end Links

namespace State

/-- A handle is given out only when no queue and no creator has it, and nobody pushes to a
context before its creator has stored the queue. -/
def Fresh (s : State) : Action → Prop
  | .step i choice =>
    match s.threads[i]?, choice with
    | some (.newRegister _), .handle handle => handle ≠ 0 ∧ ∀ x ∈ s.claims, x.2 ≠ handle
    | some (.pushQueue c _), _ => (s.context c).queue ≠ none
    | _, _ => True
  | _ => True

instance (s : State) (a : Action) : Decidable (s.Fresh a) :=
  decidable_of_bool
    (match a with
    | .step i choice =>
      match s.threads[i]?, choice with
      | some (.newRegister _), .handle handle => handle ≠ 0 ∧ ∀ x ∈ s.claims, x.2 ≠ handle
      | some (.pushQueue c _), _ => (s.context c).queue ≠ none
      | _, _ => true
    | _ => true)
    (by
      unfold Fresh
      split
      · split <;> simp
      · simp)

structure Scheduling (s : State) : Prop where
  inv : s.Inv
  contents : s.contents.Inv s.links s.threads
  names : s.names.Inv (fun q => (s.queue q).freed) s.threads
  busy : s.links.Busy s.threads
  faults : ∀ f ∈ s.faults, ∃ c, f = .notInit c

theorem mem_claims {s : State} {x : Nat × Nat} :
    x ∈ s.claims ↔ s.names.Claims (fun q => (s.queue q).freed) s.threads x := by
  unfold claims Names.Claims
  rw [List.mem_append, List.mem_filterMap, List.mem_map]
  refine or_congr Iff.rfl ?_
  constructor
  · rintro ⟨q, hq, hx⟩
    obtain ⟨hlt, hf⟩ := List.mem_filter.mp hq
    exact ⟨q, List.mem_range.mp hlt, by simpa using hf, hx⟩
  · rintro ⟨q, hlt, hf, hx⟩
    exact ⟨q, List.mem_filter.mpr ⟨List.mem_range.mpr hlt, by simpa using hf⟩, hx⟩

variable {s s' : State} {pc pc' : Pc} {i : Nat} {choice : Choice}

theorem Inv.alive_of_refs (h : s.Inv) (hmem : pc ∈ s.threads) {c : Nat} (hpc : 0 < pc.refs c) :
    (s.context c).deleted = false := by
  have hle := le_total (Pc.refs c) hmem
  exact (h.counts.alive (c := c) (.inr (by omega))).2.2

/-- The queue of a context that has not been deleted is not marked. -/
theorem Inv.release_of_alive (h : s.Inv) {c q : Nat} (hqueue : (s.context c).queue = some q)
    (halive : (s.context c).deleted = false) : (s.queue q).release = false := by
  have hq : (s.counts.context c).queue = some q := hqueue
  have ha : (s.counts.context c).deleted = false := halive
  have hmarked := h.counts.marked c
  unfold Counts.marks at hmarked
  rw [hq, ha] at hmarked
  have hzero : (s.queue q).marked = 0 := by
    have hsum : (s.queue q).marked + total (Pc.marking c) s.threads = 0 := hmarked
    omega
  cases hr : (s.queue q).release with
  | false => rfl
  | true =>
      have hpos : 0 < (s.queue q).marked := (h.counts.release q).mp hr
      omega

theorem Scheduling.move (h : s.Scheduling) (hi : s.threads[i]? = some pc)
    (hclean : ∀ c k, pc = .release c k → (s.context c).ref = 1 →
      total (Pc.tail c) s.threads = 0)
    (hregister : ∀ c handle, pc = .newRegister c → pc' = .newHandle c handle →
      handle ≠ 0 ∧ ∀ x ∈ s.claims, x.2 ≠ handle)
    (hpush : ∀ c m, pc = .pushQueue c m → (s.context c).queue ≠ none)
    (hmove : move s pc choice = some (s', pc')) :
    Scheduling { s' with threads := s.threads.set i pc' } := by
  have hmem : pc ∈ s.threads := List.mem_of_getElem? hi
  have hlink := move_links hmove
  have huser := fun q c (hqueue : s.queueOf c = some q) hpc => h.inv.unmarked hmem hqueue hpc
  have hfreed : ∀ q, q < s.queues → (s'.queue q).freed = false → (s.queue q).freed = false := by
    intro q hq hf
    cases hf' : (s.queue q).freed with
    | false => rfl
    | true =>
        have hkept : (s'.queue q).freed = true := hlink.kept (Nat.ne_of_lt hq) hf'
        rw [hf] at hkept
        cases hkept
  have hcontents := move_contents hmove
  have hnames := move_names hmove
  refine ⟨h.inv.move hi hclean hmove, ?_, ?_, ?_, ?_⟩
  · exact h.contents.step h.inv.links rfl hi huser hlink hcontents
  · refine h.names.step h.inv.counts (fun _ => rfl) rfl hi hfreed ?_ ?_ ?_ hnames
    · intro c handle hpc hpc'
      obtain ⟨hzero, hnew⟩ := hregister c handle hpc hpc'
      exact ⟨hzero, fun x hx => hnew x (mem_claims.mpr hx)⟩
    · intro q weight hpc
      have hholds : 0 < pc.holds q := by
        rw [hpc]
        exact holds_pos (Nat.le_refl _)
      exact ⟨h.inv.links.lt_queues hmem hholds, h.inv.links.not_freed hmem hholds⟩
    · intro c q hstored hqueue
      have halive := (h.inv.counts.alive (c := c) (.inl hstored)).2.2
      have hrelease := h.inv.release_of_alive hqueue halive
      cases hf : (s.queue q).freed with
      | false => rfl
      | true =>
          have hmarked : (s.queue q).release = true := h.inv.links.freed q hf
          rw [hrelease] at hmarked
          cases hmarked
  · refine h.busy.step h.inv.links hi huser ?_ hlink
    intro c q j n weight hpc
    have hqueue := h.names.user pc hmem c q (by rw [hpc]; rfl)
    refine h.inv.release_of_alive hqueue (h.inv.alive_of_refs hmem ?_)
    rw [hpc]
    exact refs_pos rfl
  · intro f hf
    rcases move_faults hmove f hf with hf | hf
    · exact h.faults f hf
    · cases f with
      | deletedContext c => exact absurd hf (h.inv.blameless hmem trivial)
      | linkedTwice q => exact absurd hf (h.inv.blameless hmem trivial)
      | markedTwice q => exact absurd hf (h.inv.blameless hmem trivial)
      | notInit c => exact ⟨c, rfl⟩
      | noQueue c =>
          obtain ⟨hnone, ⟨m, hpc⟩ | ⟨k, hpc⟩⟩ := hf
          · exact absurd hnone (hpush c m hpc)
          · have hle := le_total (Pc.marking c) hmem
            rw [hpc] at hle
            have hone : Pc.marking c (.markRelease c k) = 1 := one_self c
            obtain ⟨-, q, hq⟩ := h.inv.counts.marking (c := c) (by omega)
            have hq' : (s.context c).queue = some q := hq
            rw [hnone] at hq'
            cases hq'
      | otherQueue q =>
          obtain ⟨c, weight, hpc, hne⟩ := hf
          exact absurd (h.names.user pc hmem c q (by rw [hpc]; rfl)) hne

theorem Scheduling.spawn (h : s.Scheduling) (hpc : pc.Idle) (hhand : pc.hand = none)
    (hnames : pc.names = none) (huser : pc.user = none) (hfree : ∀ q k, pc ≠ .freeQueue q k)
    (hqueue : ∀ c handle, pc ≠ .newQueue c handle) : (s.spawn pc).Scheduling := by
  have hold : ∀ {p : Pc}, p ∈ s.threads ++ [pc] → p ∈ s.threads ∨ p = pc := fun hp =>
    (List.mem_append.mp hp).imp_right List.mem_singleton.mp
  refine ⟨h.inv.spawn hpc, ?_, ?_, ?_, h.faults⟩
  · refine ⟨h.contents.whole, ?_, ?_, h.contents.idle, ?_, h.contents.freed,
      h.contents.dropped, h.contents.fresh⟩
    · intro p hp q m hm
      rcases hold hp with hp | rfl
      · exact h.contents.hand p hp q m hm
      · rw [hhand] at hm
        cases hm
    · intro q m ht
      obtain ⟨p, hp, hm⟩ := h.contents.taken q m ht
      exact ⟨p, List.mem_append_left _ hp, hm⟩
    · intro p hp q k hk
      rcases hold hp with hp | rfl
      · exact h.contents.freeing p hp q k hk
      · exact absurd hk (hfree q k)
  · have hclaims : ∀ x, s.names.Claims (fun q => (s.queue q).freed) (s.threads ++ [pc]) x →
        s.names.Claims (fun q => (s.queue q).freed) s.threads x := by
      rintro x (⟨p, hp, hx⟩ | hx)
      · rcases hold hp with hp | rfl
        · exact .inl ⟨p, hp, hx⟩
        · rw [hnames] at hx
          cases hx
      · exact .inr hx
    refine ⟨fun x y hx hy => h.names.unique x y (hclaims x hx) (hclaims y hy),
      fun x hx => h.names.nonzero x (hclaims x hx), h.names.queue, ?_, ?_, ?_⟩
    · intro p hp c handle hq
      rcases hold hp with hp | rfl
      · exact h.names.named p hp c handle hq
      · exact absurd hq (hqueue c handle)
    · intro c hc
      exact (h.names.handle c hc).imp_left (List.mem_append_left _)
    · intro p hp c q hu
      rcases hold hp with hp | rfl
      · exact h.names.user p hp c q hu
      · rw [huser] at hu
        cases hu
  · intro q hq hflag
    show s.links.global.count q + total (Pc.holds q) (s.threads ++ [pc]) + _ = 1
    rw [total_spawn (hpc.holds q)]
    exact h.busy q hq hflag

theorem Scheduling.step (h : s.Scheduling) {a : Action} (hclean : s.Clean a) (hfresh : s.Fresh a)
    (hstep : step s a = some s') : s'.Scheduling := by
  cases a with
  | step i choice =>
      simp only [Server.step, Option.bind_eq_bind, Option.bind_eq_some_iff] at hstep
      obtain ⟨pc, hi, ⟨s₁, pc'⟩, hmove, hs⟩ := hstep
      obtain rfl := Option.some.inj hs
      refine h.move hi ?_ ?_ ?_ hmove
      · intro c k hpc hone
        rw [hpc] at hi
        simp only [Clean, hi] at hclean
        exact hclean hone
      · intro c handle hpc hpc'
        subst hpc hpc'
        cases choice with
        | handle handle' =>
            have heq : handle' = handle := by
              simp only [Server.move, Option.some.injEq, Prod.mk.injEq] at hmove
              exact (Pc.newHandle.inj hmove.2).2
            simp only [Fresh, hi] at hfresh
            rw [← heq]
            exact hfresh
        | _ => cases hmove
      · intro c m hpc
        rw [hpc] at hi
        simp only [Fresh, hi] at hfresh
        exact hfresh
  | push handle m =>
      obtain rfl := Option.some.inj hstep
      exact h.spawn ⟨fun _ => rfl, fun _ => rfl, fun _ => rfl, fun _ => rfl, fun _ => rfl,
        fun _ => id, trivial⟩ rfl rfl rfl (by simp) (by simp)
  | grab handle =>
      obtain rfl := Option.some.inj hstep
      exact h.spawn ⟨fun _ => rfl, fun _ => rfl, fun _ => rfl, fun _ => rfl, fun _ => rfl,
        fun _ => id, trivial⟩ rfl rfl rfl (by simp) (by simp)
  | retire handle =>
      obtain rfl := Option.some.inj hstep
      exact h.spawn ⟨fun _ => rfl, fun _ => rfl, fun _ => rfl, fun _ => rfl, fun _ => rfl,
        fun _ => id, fun _ _ hk => by cases hk⟩ rfl rfl rfl (by simp) (by simp)
  | new =>
      obtain rfl := Option.some.inj hstep
      exact h.spawn ⟨fun _ => rfl, fun _ => rfl, fun _ => rfl, fun _ => rfl, fun _ => rfl,
        fun _ => id, trivial⟩ rfl rfl rfl (by simp) (by simp)
  | dispatch weight =>
      obtain rfl := Option.some.inj hstep
      exact h.spawn ⟨fun _ => rfl, fun _ => rfl, fun _ => rfl, fun _ => rfl, fun _ => rfl,
        fun _ => id, trivial⟩ rfl rfl rfl (by simp) (by simp)

/-- The steps in question. -/
def Meets (s : State) (a : Action) : Prop := s.Clean a ∧ s.Fresh a

instance (s : State) (a : Action) : Decidable (s.Meets a) :=
  inferInstanceAs (Decidable (_ ∧ _))

end State

end Jump.Skynet.Server
