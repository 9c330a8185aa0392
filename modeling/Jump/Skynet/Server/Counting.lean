import Jump.Skynet.Server.References

/-! # The counts along a run

Every step keeps the count of a context equal to the number of those that hold it. With it
go the marks of the queue: a context that has been deleted has marked its queue once, or is
about to.
-/

namespace Jump.Skynet.Server

open Jump.Core Jump.Core.Threads

namespace Counts

/-- How often the queue of a context has been marked. -/
def marks (s : Counts) (c : Nat) : Nat :=
  match (s.context c).queue with
  | none => 0
  | some q => (s.queue q).marked

structure Inv (s : Counts) (threads : List Pc) : Prop where
  blank : ∀ c, s.contexts ≤ c → s.context c = ⟨0, none, false, false⟩
  ref : ∀ c, (s.context c).ref = bit (s.context c).stored + total (Pc.refs c) threads
  deleted : ∀ c, c < s.contexts → ((s.context c).deleted = true ↔ (s.context c).ref = 0)
  register : ∀ p ∈ threads, ∀ c, 2 ≤ p.refs c →
    (s.context c).ref = 2 ∧ (s.context c).stored = false
  early : ∀ c, c < s.contexts → total (Pc.early c) threads = bit (s.context c).queue.isNone
  queue : ∀ c q, (s.context c).queue = some q → q < s.queues ∧ (s.queue q).owner = c
  release : ∀ q, (s.queue q).release = true ↔ 0 < (s.queue q).marked
  marked : ∀ c, s.marks c + total (Pc.marking c) threads = bit (s.context c).deleted
  tail : ∀ c, 0 < total (Pc.tail c) threads →
    c < s.contexts ∧ (s.context c).deleted = false

variable {s s' : Counts} {threads : List Pc} {pc pc' : Pc} {i c : Nat}

/-- The only field of the counts that a step of `c`'s holders changes. -/
theorem setContext_of_ne (x : Counted) {c' : Nat} (h : c' ≠ c) :
    (s.setContext c x).context c' = s.context c' := by
  simp [setContext, h]

theorem setContext_self' (x : Counted) : (s.setContext c x).context c = x := by
  simp [setContext]

/-- Who is counted finds the context alive. -/
theorem Inv.alive (h : s.Inv threads) (hheld : (s.context c).stored = true ∨
    0 < total (Pc.refs c) threads) : c < s.contexts ∧ 0 < (s.context c).ref ∧
      (s.context c).deleted = false := by
  have href := h.ref c
  have hpos : 0 < (s.context c).ref := by
    rcases hheld with hstored | hrefs
    · rw [hstored] at href
      simp only [bit, if_true] at href
      omega
    · omega
  have hc : c < s.contexts := by
    by_contra hge
    rw [h.blank c (by omega)] at hpos
    exact absurd hpos (lt_irrefl 0)
  refine ⟨hc, hpos, ?_⟩
  have hdeleted := h.deleted c hc
  cases hd : (s.context c).deleted with
  | false => rfl
  | true =>
      have hzero := hdeleted.mp hd
      omega

theorem setQueue_of_ne (x : Marked) {q q' : Nat} (h : q' ≠ q) :
    (s.setQueue q x).queue q' = s.queue q' := by
  simp [setQueue, h]

theorem setQueue_self' {q : Nat} (x : Marked) : (s.setQueue q x).queue q = x := by
  simp [setQueue]

theorem Inv.quiet (h : s.Inv threads) (hi : threads[i]? = some pc) (hk : pc.Keeps pc') :
    s.Inv (threads.set i pc') where
  blank := h.blank
  ref c := by rw [total_set_eq _ hi (hk.refs c), h.ref c]
  deleted := h.deleted
  register p hp c htwo := by
    rcases mem_set hp with rfl | hp
    · exact h.register pc (List.mem_of_getElem? hi) c (by rwa [← hk.refs c])
    · exact h.register p hp c htwo
  early c hc := by rw [total_set_eq _ hi (hk.early c), h.early c hc]
  queue := h.queue
  release := h.release
  marked c := by rw [total_set_eq _ hi (hk.marking c), h.marked c]
  tail c hpos := h.tail c (lt_of_lt_of_le hpos (total_set_le _ hi (hk.tail c)))

/-- The marks of a context depend on its queue only. -/
theorem marks_setContext {x : Counted} (hqueue : x.queue = (s.context c).queue) (c' : Nat) :
    (s.setContext c x).marks c' = s.marks c' := by
  unfold marks
  by_cases hc : c' = c
  · subst hc
    rw [setContext_self', hqueue]
    rfl
  · rw [setContext_of_ne x hc]
    rfl

theorem early_le_refs (c : Nat) (pc : Pc) : pc.early c ≤ pc.refs c := by
  cases pc with
  | newRegister c' =>
      show one c' c ≤ 2 * one c' c
      omega
  | newHandle c' handle => exact Nat.le_refl _
  | newQueue c' handle => exact Nat.le_refl _
  | _ => exact Nat.zero_le _

theorem Inv.malloc (h : s.Inv threads) (hi : threads[i]? = some pc)
    (refs : ∀ c, pc'.refs c = pc.refs c + 2 * one s.contexts c)
    (early : ∀ c, pc'.early c = pc.early c + one s.contexts c)
    (tail : ∀ c, pc'.tail c = pc.tail c) (marking : ∀ c, pc'.marking c = pc.marking c) :
    Inv { s.setContext s.contexts ⟨2, none, false, false⟩ with contexts := s.contexts + 1 }
      (threads.set i pc') := by
  have hself : (s.setContext s.contexts ⟨2, none, false, false⟩).context s.contexts =
      ⟨2, none, false, false⟩ := setContext_self' _
  have hblank := h.blank s.contexts (Nat.le_refl _)
  have href := h.ref s.contexts
  have hmarked := h.marked s.contexts
  rw [hblank] at href hmarked
  simp only [bit, Bool.false_eq_true, if_false] at href hmarked
  have hrefs : total (Pc.refs s.contexts) threads = 0 := by omega
  have hearly : total (Pc.early s.contexts) threads = 0 := by
    have hle := total_mono (early_le_refs s.contexts) threads
    omega
  refine ⟨?_, ?_, ?_, ?_, ?_, ?_, h.release, ?_, ?_⟩
  · intro c hge
    show (s.setContext s.contexts _).context c = _
    have hge' : s.contexts + 1 ≤ c := hge
    rw [setContext_of_ne _ (by omega)]
    exact h.blank c (by omega)
  · intro c
    show ((s.setContext s.contexts _).context c).ref = bit (Counted.stored _) + _
    by_cases hc : c = s.contexts
    · subst hc
      rw [hself, total_set_add _ hi (refs s.contexts), hrefs, one_self]
      rfl
    · have hsame := refs c
      rw [one_of_ne hc] at hsame
      rw [setContext_of_ne _ hc, total_set_eq _ hi hsame]
      exact h.ref c
  · intro c hlt
    show (Counted.deleted _ = true ↔ ((s.setContext s.contexts _).context c).ref = 0)
    by_cases hc : c = s.contexts
    · subst hc
      rw [hself]
      decide
    · have hlt' : c < s.contexts + 1 := hlt
      rw [setContext_of_ne _ hc]
      exact h.deleted c (by omega)
  · intro p hp c htwo
    show ((s.setContext s.contexts _).context c).ref = 2 ∧ Counted.stored _ = false
    by_cases hc : c = s.contexts
    · subst hc
      rw [hself]
      exact ⟨rfl, rfl⟩
    · rw [setContext_of_ne _ hc]
      rcases mem_set hp with rfl | hp
      · rw [refs c, one_of_ne hc] at htwo
        exact h.register pc (List.mem_of_getElem? hi) c htwo
      · exact h.register p hp c htwo
  · intro c hlt
    show _ = bit (Counted.queue ((s.setContext s.contexts _).context c)).isNone
    by_cases hc : c = s.contexts
    · subst hc
      rw [hself, total_set_add _ hi (early s.contexts), hearly, one_self]
      rfl
    · have hlt' : c < s.contexts + 1 := hlt
      have hsame := early c
      rw [one_of_ne hc] at hsame
      rw [setContext_of_ne _ hc, total_set_eq _ hi hsame]
      exact h.early c (by omega)
  · intro c q hq
    have hq' : ((s.setContext s.contexts ⟨2, none, false, false⟩).context c).queue = some q := hq
    by_cases hc : c = s.contexts
    · subst hc
      rw [hself] at hq'
      cases hq'
    · rw [setContext_of_ne _ hc] at hq'
      exact h.queue c q hq'
  · intro c
    show (s.setContext s.contexts _).marks c + _ =
      bit ((s.setContext s.contexts ⟨2, none, false, false⟩).context c).deleted
    rw [marks_setContext (by rw [hblank]), total_set_eq _ hi (marking c)]
    by_cases hc : c = s.contexts
    · subst hc
      rw [hself]
      exact hmarked
    · rw [setContext_of_ne _ hc]
      exact h.marked c
  · intro c htail
    rw [total_set_eq _ hi (tail c)] at htail
    obtain ⟨hlt, halive⟩ := h.tail c htail
    show c < s.contexts + 1 ∧
      ((s.setContext s.contexts ⟨2, none, false, false⟩).context c).deleted = false
    rw [setContext_of_ne _ (by omega)]
    exact ⟨by omega, halive⟩

theorem Inv.newQueue (h : s.Inv threads) (hi : threads[i]? = some pc)
    (state : s' = { (s.setQueue s.queues ⟨c, false, 0⟩).setContext c
        { s.context c with queue := some s.queues } with queues := s.queues + 1 })
    (refs : ∀ c', pc'.refs c' = pc.refs c') (early : ∀ c', pc'.early c' + one c c' = pc.early c')
    (tail : ∀ c', pc'.tail c' = pc.tail c') (marking : ∀ c', pc'.marking c' = pc.marking c') :
    s'.Inv (threads.set i pc') := by
  have hearly : total (Pc.early c) threads = total (Pc.early c) (threads.set i pc') + 1 := by
    have hsub := total_set_sub _ hi (early c)
    rw [one_self] at hsub
    exact hsub.symm
  have hrefs := total_mono (early_le_refs c) threads
  obtain ⟨hc, -, -⟩ := h.alive (c := c) (.inr (by omega))
  have hnone : (s.context c).queue = none ∧ total (Pc.early c) (threads.set i pc') = 0 := by
    have hbit := h.early c hc
    cases hq : (s.context c).queue with
    | none =>
        rw [hq, hearly] at hbit
        exact ⟨rfl, by simpa [bit] using hbit⟩
    | some q =>
        rw [hq, hearly] at hbit
        simp [bit] at hbit
  have hself : s'.context c = { s.context c with queue := some s.queues } := by
    rw [state]
    exact setContext_self' _
  have hother : ∀ c', c' ≠ c → s'.context c' = s.context c' := by
    intro c' hne
    rw [state]
    exact setContext_of_ne _ hne
  -- all but the queue is as before
  have hkeep : ∀ c', (s'.context c').ref = (s.context c').ref ∧
      (s'.context c').stored = (s.context c').stored ∧
      (s'.context c').deleted = (s.context c').deleted := by
    intro c'
    by_cases hne : c' = c
    · rw [hne, hself]
      exact ⟨rfl, rfl, rfl⟩
    · rw [hother c' hne]
      exact ⟨rfl, rfl, rfl⟩
  have hfresh : s'.queue s.queues = ⟨c, false, 0⟩ := by
    rw [state]
    exact setQueue_self' (s := s) _
  have hqueue : ∀ q, q ≠ s.queues → s'.queue q = s.queue q := by
    intro q hne
    rw [state]
    exact setQueue_of_ne (s := s) _ hne
  have hcontexts : s'.contexts = s.contexts := by rw [state]; rfl
  have hqueues : s'.queues = s.queues + 1 := by rw [state]
  have hmarks : ∀ c', s'.marks c' = s.marks c' := by
    intro c'
    unfold marks
    by_cases hne : c' = c
    · rw [hne, hself, hnone.1]
      show (s'.queue s.queues).marked = 0
      rw [hfresh]
    · rw [hother c' hne]
      cases hq : (s.context c').queue with
      | none => rfl
      | some q =>
          show (s'.queue q).marked = (s.queue q).marked
          rw [hqueue q (Nat.ne_of_lt (h.queue c' q hq).1)]
  constructor
  · intro c' hge
    rw [hcontexts] at hge
    have hne : c' ≠ c := by
      rintro rfl
      exact absurd hc (Nat.not_lt.mpr hge)
    rw [hother c' hne]
    exact h.blank c' hge
  · intro c'
    rw [total_set_eq _ hi (refs c'), (hkeep c').1, (hkeep c').2.1]
    exact h.ref c'
  · intro c' hlt
    rw [hcontexts] at hlt
    rw [(hkeep c').1, (hkeep c').2.2]
    exact h.deleted c' hlt
  · intro p hp c' htwo
    rw [(hkeep c').1, (hkeep c').2.1]
    rcases mem_set hp with rfl | hp
    · rw [refs c'] at htwo
      exact h.register pc (List.mem_of_getElem? hi) c' htwo
    · exact h.register p hp c' htwo
  · intro c' hlt
    rw [hcontexts] at hlt
    by_cases hne : c' = c
    · rw [hne, hself, hnone.2]
      rfl
    · have hsame := early c'
      rw [one_of_ne hne] at hsame
      rw [hother c' hne, total_set_eq _ hi hsame]
      exact h.early c' hlt
  · intro c' q hq
    rw [hqueues]
    by_cases hne : c' = c
    · rw [hne, hself] at hq
      cases hq
      rw [hfresh, hne]
      exact ⟨Nat.lt_succ_self _, rfl⟩
    · rw [hother c' hne] at hq
      obtain ⟨hlt, howner⟩ := h.queue c' q hq
      rw [hqueue q (Nat.ne_of_lt hlt)]
      exact ⟨Nat.lt_succ_of_lt hlt, howner⟩
  · intro q
    by_cases hq : q = s.queues
    · rw [hq, hfresh]
      exact ⟨fun hf => absurd hf Bool.false_ne_true, fun hf => absurd hf (lt_irrefl 0)⟩
    · rw [hqueue q hq]
      exact h.release q
  · intro c'
    rw [hmarks, total_set_eq _ hi (marking c'), (hkeep c').2.2]
    exact h.marked c'
  · intro c' htail
    rw [total_set_eq _ hi (tail c')] at htail
    rw [hcontexts, (hkeep c').2.2]
    exact h.tail c' htail

/-- A context whose queue is going to be marked has been deleted, and has a queue. -/
theorem Inv.marking (h : s.Inv threads) (hpos : 0 < total (Pc.marking c) threads) :
    (s.context c).deleted = true ∧ ∃ q, (s.context c).queue = some q := by
  have hdeleted : (s.context c).deleted = true := by
    have hmarked := h.marked c
    cases hd : (s.context c).deleted with
    | true => rfl
    | false =>
        rw [hd] at hmarked
        simp only [bit, Bool.false_eq_true, if_false] at hmarked
        omega
  have hc : c < s.contexts := by
    by_contra hge
    rw [h.blank c (by omega)] at hdeleted
    cases hdeleted
  refine ⟨hdeleted, ?_⟩
  cases hq : (s.context c).queue with
  | some q => exact ⟨q, rfl⟩
  | none =>
      have hearly := h.early c hc
      rw [hq] at hearly
      simp only [bit, Option.isNone_none, if_true] at hearly
      have hrefs := total_mono (early_le_refs c) threads
      obtain ⟨-, -, halive⟩ := h.alive (c := c) (.inr (by omega))
      rw [hdeleted] at halive
      cases halive

theorem Inv.mark (h : s.Inv threads) (hi : threads[i]? = some pc)
    (state : match (s.context c).queue with
      | none => s' = s
      | some q => s' = s.setQueue q ⟨(s.queue q).owner, true, (s.queue q).marked + 1⟩)
    (refs : ∀ c', pc'.refs c' = pc.refs c') (early : ∀ c', pc'.early c' = pc.early c')
    (tail : ∀ c', pc'.tail c' = pc.tail c')
    (marking : ∀ c', pc'.marking c' + one c c' = pc.marking c') : s'.Inv (threads.set i pc') := by
  have hmarking : total (Pc.marking c) threads = total (Pc.marking c) (threads.set i pc') + 1 := by
    have hsub := total_set_sub _ hi (marking c)
    rw [one_self] at hsub
    exact hsub.symm
  obtain ⟨hdeleted, q, hq⟩ := h.marking (c := c) (by omega)
  have hmarked := h.marked c
  rw [hdeleted] at hmarked
  simp only [bit, if_true] at hmarked
  rw [hq] at state
  have hmarks : s.marks c = (s.queue q).marked := by
    unfold marks
    rw [hq]
  have hself : s'.queue q = ⟨(s.queue q).owner, true, (s.queue q).marked + 1⟩ := by
    rw [state]
    exact setQueue_self' _
  have hother : ∀ q', q' ≠ q → s'.queue q' = s.queue q' := by
    intro q' hne
    rw [state]
    exact setQueue_of_ne _ hne
  have hcontext : s'.context = s.context := by rw [state]; rfl
  have hcontexts : s'.contexts = s.contexts := by rw [state]; rfl
  have hqueues : s'.queues = s.queues := by rw [state]; rfl
  constructor
  · rw [hcontext, hcontexts]
    exact h.blank
  · intro c'
    rw [hcontext, total_set_eq _ hi (refs c')]
    exact h.ref c'
  · rw [hcontext, hcontexts]
    exact h.deleted
  · intro p hp c' htwo
    rw [hcontext]
    rcases mem_set hp with rfl | hp
    · rw [refs c'] at htwo
      exact h.register pc (List.mem_of_getElem? hi) c' htwo
    · exact h.register p hp c' htwo
  · intro c' hlt
    rw [hcontexts] at hlt
    rw [hcontext, total_set_eq _ hi (early c')]
    exact h.early c' hlt
  · intro c' q' hq'
    rw [hcontext] at hq'
    obtain ⟨hlt, howner⟩ := h.queue c' q' hq'
    rw [hqueues]
    refine ⟨hlt, ?_⟩
    by_cases hne : q' = q
    · rw [hne, hself]
      rw [hne] at howner
      exact howner
    · rw [hother q' hne]
      exact howner
  · intro q'
    by_cases hne : q' = q
    · rw [hne, hself]
      exact ⟨fun _ => Nat.succ_pos _, fun _ => rfl⟩
    · rw [hother q' hne]
      exact h.release q'
  · intro c'
    rw [hcontext]
    by_cases hne : c' = c
    · have hmarks' : s'.marks c = (s.queue q).marked + 1 := by
        unfold marks
        rw [hcontext, hq]
        show (s'.queue q).marked = _
        rw [hself]
      rw [hne, hmarks', hdeleted]
      simp only [bit, if_true]
      omega
    · have hsame := marking c'
      rw [one_of_ne hne] at hsame
      have hmarks' : s'.marks c' = s.marks c' := by
        unfold marks
        rw [hcontext]
        cases hq' : (s.context c').queue with
        | none => rfl
        | some q' =>
            show (s'.queue q').marked = (s.queue q').marked
            have hne' : q' ≠ q := by
              rintro rfl
              exact hne ((h.queue c' q' hq').2.symm.trans (h.queue c q' hq).2)
            rw [hother q' hne']
      rw [hmarks', total_set_eq _ hi hsame]
      exact h.marked c'
  · intro c' htail
    rw [total_set_eq _ hi (tail c')] at htail
    rw [hcontext, hcontexts]
    exact h.tail c' htail

theorem Inv.step (h : s.Inv threads) (hi : threads[i]? = some pc)
    (hclean : ∀ c k, pc = .release c k → (s.context c).ref = 1 → total (Pc.tail c) threads = 0)
    (hstep : CountStep s pc s' pc') : s'.Inv (threads.set i pc') := by
  have hmem : pc ∈ threads := List.mem_of_getElem? hi
  cases hstep with
  | quiet state refs early tail marking =>
      rw [state]
      exact h.quiet hi ⟨refs, early, tail, marking⟩
  | count c x state queue refs balance single held deleted last early tail others marking =>
      subst state
      have hheld : (s.context c).stored = true ∨ 0 < total (Pc.refs c) threads :=
        held.imp_right fun hpos => lt_of_lt_of_le hpos (le_total _ hmem)
      obtain ⟨hc, hpos, halive⟩ := h.alive hheld
      have hbalance := balance fun htwo => (h.register pc hmem c htwo).2
      have hset := total_set (Pc.refs c) hi pc'
      have href := h.ref c
      have hx : x.ref = bit x.stored + total (Pc.refs c) (threads.set i pc') := by omega
      refine ⟨?_, ?_, ?_, ?_, ?_, ?_, h.release, ?_, ?_⟩
      · intro c' hge
        have hne : c' ≠ c := by
          rintro rfl
          exact absurd hc (Nat.not_lt.mpr hge)
        rw [setContext_of_ne x hne]
        exact h.blank c' hge
      · intro c'
        by_cases hne : c' = c
        · subst hne
          rw [setContext_self']
          exact hx
        · rw [setContext_of_ne x hne, total_set_eq _ hi (refs c' hne)]
          exact h.ref c'
      · intro c' hc'
        by_cases hne : c' = c
        · subst hne
          rw [setContext_self']
          rcases deleted with ⟨hd, hzero⟩ | ⟨hd, hkept⟩
          · exact ⟨fun _ => hzero, fun _ => hd⟩
          · rw [hd, halive]
            refine ⟨fun hf => absurd hf (by decide), fun hzero => ?_⟩
            have hle := le_total_set (Pc.refs c') hi pc'
            rcases hkept with hkept | hkept | hkept
            · exact absurd hzero hkept
            · rw [hkept] at hx
              simp only [bit, if_true] at hx
              omega
            · omega
        · rw [setContext_of_ne x hne]
          exact h.deleted c' hc'
      · intro p hp c' htwo
        have hne : c' ≠ c := by
          rintro rfl
          rcases mem_set_cases hp with rfl | ⟨j, hj, hp⟩
          · omega
          · -- two threads cannot both have two of the two references
            obtain ⟨htwo', hstored⟩ := h.register p (List.mem_of_getElem? hp) c' htwo
            have hle := add_le_total (Pc.refs c') hj hp hi
            rcases held with hst | hst
            · rw [hstored] at hst
              cases hst
            · rw [hstored] at href
              simp only [bit, Bool.false_eq_true, if_false] at href
              omega
        rw [setContext_of_ne x hne]
        rcases mem_set hp with rfl | hp
        · exact h.register pc hmem c' (by rwa [← refs c' hne])
        · exact h.register p hp c' htwo
      · intro c' hc'
        rw [total_set_eq _ hi (early c'), h.early c' hc']
        by_cases hne : c' = c
        · subst hne
          rw [setContext_self', queue]
        · rw [setContext_of_ne x hne]
      · intro c' q hq
        by_cases hne : c' = c
        · subst hne
          rw [setContext_self', queue] at hq
          exact h.queue c' q hq
        · rw [setContext_of_ne x hne] at hq
          exact h.queue c' q hq
      · intro c'
        rw [marks_setContext queue]
        by_cases hne : c' = c
        · subst hne
          have hmarked := h.marked c'
          rw [halive] at hmarked
          rw [setContext_self', total_set_add _ hi (marking halive)]
          simp only [bit, Bool.false_eq_true, if_false] at hmarked
          omega
        · rw [setContext_of_ne x hne, total_set_eq _ hi (others c' hne)]
          exact h.marked c'
      · intro c' htail
        by_cases hne : c' = c
        · subst hne
          refine ⟨hc, ?_⟩
          rw [setContext_self']
          cases hd : x.deleted with
          | false => rfl
          | true =>
              rcases last hd with hd' | ⟨⟨k, hk⟩, hone⟩
              · rw [halive] at hd'
                cases hd'
              · have hzero := hclean c' k hk hone
                rcases tail c' with hle | ⟨-, hd'⟩
                · have hle' := total_set_le (Pc.tail c') hi hle
                  omega
                · rw [hd, halive] at hd'
                  cases hd'
        · rw [setContext_of_ne x hne]
          have hle : pc'.tail c' ≤ pc.tail c' := (tail c').resolve_right fun hc' => hne hc'.1
          exact h.tail c' (lt_of_lt_of_le htail (total_set_le _ hi hle))
  | malloc state refs early tail marking =>
      subst state
      exact h.malloc hi refs early tail marking
  | newQueue c state refs early tail marking =>
      exact h.newQueue hi state refs early tail marking
  | mark c state refs early tail marking => exact h.mark hi state refs early tail marking

end Counts

end Jump.Skynet.Server
