import Jump.Skynet.Server.Links

/-! # The links along a run

A queue is in one place: once in the global queue, or with one thread, or freed. Its flags
are clear only when it is nowhere, and a thread frees it only after it was marked.
-/

namespace Jump.Skynet.Server

open Jump.Core Jump.Core.Threads

/-- `skynet_mq_release` has found the mark. -/
def Pc.drops (q : Nat) : Pc → Prop
  | .dropping q' _ | .freeQueue q' _ => q' = q
  | _ => False

theorem Pc.holds_of_drops {pc : Pc} {q : Nat} (h : pc.drops q) : 0 < pc.holds q := by
  cases pc with
  | dropping q' k =>
      cases h
      show 0 < one q q + k.holds q
      rw [one_self]
      omega
  | freeQueue q' k =>
      cases h
      show 0 < one q q + k.holds q
      rw [one_self]
      omega
  | _ => exact h.elim

theorem drops_resume (k : Then) (b : Bool) (q : Nat) : ¬(k.resume b).drops q := by
  cases k <;> cases b <;> exact id

theorem drops_loop (c q i n : Nat) (weight : Int) (q' : Nat) :
    ¬(loop c q i n weight).drops q' := by
  unfold loop
  split <;> exact id

theorem move_drops {s s' : State} {pc pc' : Pc} {choice : Choice} {q : Nat}
    (h : move s pc choice = some (s', pc')) (hdrops : pc'.drops q) :
    pc.drops q ∨ 0 < pc.holds q ∧ (s.queue q).release = true := by
  revert h
  fun_cases move s pc choice
  all_goals intro h
  all_goals first
    | cases h; done
    | obtain ⟨rfl, rfl⟩ := Prod.mk.inj (Option.some.inj h)
  all_goals first
    | exact hdrops.elim
    | exact absurd hdrops (drops_resume _ _ _)
    | exact absurd hdrops (drops_loop _ _ _ _ _ _)
    | exact .inl hdrops
    | skip
  case case23 c q ok =>
    cases ok
    · exact hdrops.elim
    · exact hdrops.elim
  case case26 c q ret =>
    cases ret
    · exact hdrops.elim
    · exact hdrops.elim
  case case42 q' k hrelease =>
    cases hdrops
    refine .inr ⟨?_, hrelease⟩
    show 0 < one q q + k.holds q
    rw [one_self]
    omega

namespace Links

/-- In how many places a queue is. -/
def places (s : Links) (threads : List Pc) (q : Nat) : Nat :=
  s.global.count q + total (Pc.holds q) threads + bit (s.queue q).freed

structure Inv (s : Links) (threads : List Pc) : Prop where
  once : ∀ q, s.places threads q ≤ 1
  idle : ∀ q, (s.queue q).inGlobal = false → (s.queue q).release = false → s.places threads q = 0
  fresh : ∀ q, s.queues ≤ q → s.places threads q = 0
  freed : ∀ q, (s.queue q).freed = true → (s.queue q).release = true
  drops : ∀ p ∈ threads, ∀ q, p.drops q → (s.queue q).release = true

variable {queueOf : Nat → Option Nat} {s s' : Links} {threads : List Pc} {pc pc' : Pc} {i : Nat}

/-- A step changes the places of a queue by what it changes of the thread's share. -/
theorem places_set (hi : threads[i]? = some pc) (q : Nat) :
    s'.places (threads.set i pc') q + s.share pc q = s.places threads q + s'.share pc' q := by
  have hset := total_set (Pc.holds q) hi pc'
  unfold places share
  omega

theorem share_le_places (hi : threads[i]? = some pc) (q : Nat) :
    s.share pc q ≤ s.places threads q := by
  have hle := le_total_of_getElem (Pc.holds q) hi
  unfold places share
  omega

theorem places_pos_of_drops {p : Pc} {q : Nat} (hp : p ∈ threads) (h : p.drops q) :
    0 < s.places threads q := by
  have hpos := Pc.holds_of_drops h
  have hle := le_total (Pc.holds q) hp
  unfold places
  omega

theorem places_pos_of_freed {q : Nat} (h : (s.queue q).freed = true) :
    0 < s.places threads q := by
  unfold places
  rw [h]
  exact Nat.succ_pos _

theorem places_pos_of_holds {p : Pc} {q : Nat} (hp : p ∈ threads) (h : 0 < p.holds q) :
    0 < s.places threads q := by
  have hle := le_total (Pc.holds q) hp
  unfold places
  omega

/-- A queue that is somewhere keeps its mark, and a thread that drops a queue has seen it. -/
theorem Inv.of_release (h : s.Inv threads) (hi : threads[i]? = some pc)
    (once : ∀ q, s'.places (threads.set i pc') q ≤ 1)
    (idle : ∀ q, (s'.queue q).inGlobal = false → (s'.queue q).release = false →
      s'.places (threads.set i pc') q = 0)
    (fresh : ∀ q, s'.queues ≤ q → s'.places (threads.set i pc') q = 0)
    (hrelease : ∀ q, 0 < s.places threads q → (s.queue q).release = true →
      (s'.queue q).release = true)
    (hfreed : ∀ q, (s'.queue q).freed = true → (s.queue q).freed = true ∨ pc.drops q)
    (hdrops : ∀ q, pc'.drops q → pc.drops q ∨ 0 < pc.holds q ∧ (s.queue q).release = true) :
    s'.Inv (threads.set i pc') := by
  have hmem : pc ∈ threads := List.mem_of_getElem? hi
  have hold : ∀ p ∈ threads, ∀ q, p.drops q → (s'.queue q).release = true := fun p hp q hd =>
    hrelease q (places_pos_of_drops hp hd) (h.drops p hp q hd)
  refine ⟨once, idle, fresh, ?_, ?_⟩
  · intro q hf
    rcases hfreed q hf with hf | hd
    · exact hrelease q (places_pos_of_freed hf) (h.freed q hf)
    · exact hold pc hmem q hd
  · intro p hp q hd
    rcases mem_set hp with rfl | hp
    · rcases hdrops q hd with hd | ⟨hholds, hrel⟩
      · exact hold pc hmem q hd
      · exact hrelease q (places_pos_of_holds hmem hholds) hrel
    · exact hold p hp q hd

theorem Inv.step (h : s.Inv threads) (hi : threads[i]? = some pc)
    (hdrops : ∀ q, pc'.drops q → pc.drops q ∨ 0 < pc.holds q ∧ (s.queue q).release = true)
    (huser : ∀ q c, queueOf c = some q →
      ((∃ m, pc = .pushQueue c m) ∨ ∃ k, pc = .markRelease c k) →
        q < s.queues ∧ (s.queue q).release = false)
    (hstep : LinkStep queueOf s pc s' pc') : s'.Inv (threads.set i pc') := by
  have hmem : pc ∈ threads := List.mem_of_getElem? hi
  have hset : ∀ q, s'.places (threads.set i pc') q + s.share pc q =
      s.places threads q + s'.share pc' q := fun q => places_set hi q
  have hshare : ∀ q, s.share pc q ≤ s.places threads q := fun q => share_le_places hi q
  cases hstep with
  | pass queues inGlobal release freed kept share =>
      have hplaces : ∀ q, s'.places (threads.set i pc') q = s.places threads q := by
        intro q
        have hset := hset q
        have hone := h.once q
        have heq := share q ((hshare q).trans hone)
        omega
      refine h.of_release hi ?_ ?_ ?_ ?_ ?_ hdrops
      · intro q
        rw [hplaces]
        exact h.once q
      · intro q hin hrel
        rw [hplaces]
        exact h.idle q ((inGlobal q).symm.trans hin) ((release q).symm.trans hrel)
      · intro q hge
        rw [hplaces]
        exact h.fresh q (by rwa [queues] at hge)
      · intro q _ hrel
        rw [release q]
        exact hrel
      · intro q hf
        rcases freed q hf with hf | ⟨k, rfl⟩
        · exact .inl hf
        · exact .inr rfl
  | take q user queues x queue freed flags share =>
      obtain ⟨c, hq, hpc⟩ := user
      obtain ⟨hlt, hrelease⟩ := huser q c hq hpc
      have hself : s'.queue q = x := by
        rw [queue]
        exact s.setQueue_self' q x
      have hother : ∀ q', q' ≠ q → s'.queue q' = s.queue q' := by
        intro q' hne
        rw [queue]
        exact s.setQueue_of_ne x hne
      have hplaces : ∀ q', s'.places (threads.set i pc') q' =
          s.places threads q' + one q q' * bit (!(s.queue q).inGlobal) := by
        intro q'
        have hset := hset q'
        have hshare := share q'
        omega
      have hplaces' : ∀ q', q' ≠ q →
          s'.places (threads.set i pc') q' = s.places threads q' := by
        intro q' hne
        rw [hplaces, one_of_ne hne]
        omega
      refine h.of_release hi ?_ ?_ ?_ ?_ ?_ hdrops
      · intro q'
        by_cases hne : q' = q
        · rw [hne, hplaces, one_self]
          -- it is linked only if the flags say that nobody has it
          cases hin : (s.queue q).inGlobal with
          | true => simpa [bit] using h.once q
          | false => simp [bit, h.idle q hin hrelease]
        · rw [hplaces' q' hne]
          exact h.once q'
      · intro q' hin hrel
        by_cases hne : q' = q
        · rw [hne, hself] at hin hrel
          rcases flags with ⟨hx, -⟩ | ⟨-, hx⟩
          · rw [hx] at hin
            cases hin
          · rw [hx] at hrel
            cases hrel
        · rw [hother q' hne] at hin hrel
          rw [hplaces' q' hne]
          exact h.idle q' hin hrel
      · intro q' hge
        rw [queues] at hge
        rw [hplaces' q' (by omega)]
        exact h.fresh q' hge
      · intro q' _ hrel
        by_cases hne : q' = q
        · rw [hne, hrelease] at hrel
          cases hrel
        · rw [hother q' hne]
          exact hrel
      · intro q' hf
        by_cases hne : q' = q
        · rw [hne, hself, freed] at hf
          rw [hne]
          exact .inl hf
        · rw [hother q' hne] at hf
          exact .inl hf
  | drop q queues queue share =>
      have hself : s'.queue q = { s.queue q with inGlobal := false } := by
        rw [queue]
        exact s.setQueue_self' q _
      have hother : ∀ q', q' ≠ q → s'.queue q' = s.queue q' := by
        intro q' hne
        rw [queue]
        exact s.setQueue_of_ne _ hne
      have hsame : ∀ q', (s'.queue q').release = (s.queue q').release ∧
          (s'.queue q').freed = (s.queue q').freed := by
        intro q'
        by_cases hne : q' = q
        · rw [hne, hself]
          exact ⟨rfl, rfl⟩
        · rw [hother q' hne]
          exact ⟨rfl, rfl⟩
      have hplaces : ∀ q', s'.places (threads.set i pc') q' ≤ s.places threads q' := by
        intro q'
        have hset := hset q'
        rcases share with ⟨-, hs⟩ | ⟨-, hs⟩
        · have hshare := hs q'
          omega
        · have hshare := hs q'
          omega
      refine h.of_release hi ?_ ?_ ?_ ?_ ?_ hdrops
      · intro q'
        exact (hplaces q').trans (h.once q')
      · intro q' hin hrel
        rw [(hsame q').1] at hrel
        by_cases hne : q' = q
        · subst hne
          rcases share with ⟨-, hs⟩ | ⟨⟨k, rfl⟩, -⟩
          · have hset := hset q'
            have hshare := hs q'
            have hone := h.once q'
            rw [one_self] at hshare
            omega
          · have hmarked := h.drops _ hmem q' rfl
            rw [hmarked] at hrel
            cases hrel
        · rw [hother q' hne] at hin
          have hzero := h.idle q' hin hrel
          have hle := hplaces q'
          omega
      · intro q' hge
        rw [queues] at hge
        have hzero := h.fresh q' hge
        have hle := hplaces q'
        omega
      · intro q' _ hrel
        rw [(hsame q').1]
        exact hrel
      · intro q' hf
        rw [(hsame q').2] at hf
        exact .inl hf
  | create queues queue share =>
      have hself : s'.queue s.queues = ⟨true, false, false⟩ := by
        rw [queue]
        exact s.setQueue_self' s.queues _
      have hother : ∀ q', q' ≠ s.queues → s'.queue q' = s.queue q' := by
        intro q' hne
        rw [queue]
        exact s.setQueue_of_ne _ hne
      have hzero : s.places threads s.queues = 0 := h.fresh s.queues (Nat.le_refl _)
      have hplaces : ∀ q', q' ≠ s.queues →
          s'.places (threads.set i pc') q' = s.places threads q' := by
        intro q' hne
        have hset := hset q'
        have hshare := share q'
        rw [one_of_ne hne] at hshare
        omega
      refine h.of_release hi ?_ ?_ ?_ ?_ ?_ hdrops
      · intro q'
        by_cases hne : q' = s.queues
        · have hset := hset s.queues
          have hshare := share s.queues
          rw [one_self] at hshare
          rw [hne]
          omega
        · rw [hplaces q' hne]
          exact h.once q'
      · intro q' hin hrel
        by_cases hne : q' = s.queues
        · rw [hne, hself] at hin
          cases hin
        · rw [hother q' hne] at hin hrel
          rw [hplaces q' hne]
          exact h.idle q' hin hrel
      · intro q' hge
        rw [queues] at hge
        rw [hplaces q' (by omega)]
        exact h.fresh q' (by omega)
      · intro q' hpos hrel
        have hne : q' ≠ s.queues := by
          rintro rfl
          omega
        rw [hother q' hne]
        exact hrel
      · intro q' hf
        have hne : q' ≠ s.queues := by
          rintro rfl
          rw [hself] at hf
          cases hf
        rw [hother q' hne] at hf
        exact .inl hf

/-- Two threads do not have the same queue. -/
theorem Inv.holder_unique (h : s.Inv threads) {j q : Nat} {p p' : Pc} (hi : threads[i]? = some p)
    (hj : threads[j]? = some p') (hp : 0 < p.holds q) (hp' : 0 < p'.holds q) : i = j := by
  by_contra hij
  have hle := add_le_total (Pc.holds q) hij hi hj
  have honce := h.once q
  unfold places at honce
  omega

theorem Inv.not_freed (h : s.Inv threads) {q : Nat} {p : Pc} (hp : p ∈ threads)
    (hholds : 0 < p.holds q) : (s.queue q).freed = false := by
  have hle := le_total (Pc.holds q) hp
  have honce := h.once q
  unfold places at honce
  cases hf : (s.queue q).freed with
  | false => rfl
  | true =>
      rw [hf] at honce
      simp only [bit, if_true] at honce
      omega

theorem Inv.lt_queues (h : s.Inv threads) {q : Nat} {p : Pc} (hp : p ∈ threads)
    (hholds : 0 < p.holds q) : q < s.queues := by
  by_contra hge
  have hzero := h.fresh q (Nat.not_lt.mp hge)
  have hpos := places_pos_of_holds (s := s) hp hholds
  omega

end Links

end Jump.Skynet.Server
