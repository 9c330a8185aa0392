import Jump.Skynet.Handle.Effects

/-! # Registering from several threads

In `skynet_context_new` a thread sets `ctx->handle` to 0, registers the context,
and stores the handle it got in a later step. Until then other threads find the
context in its slot with handle 0.
-/

namespace Jump.Skynet.Handle.Concurrent

open Jump.Skynet.Handle

/-- The storage, the handles that the contexts hold, the contexts that were registered and
not retired, and those whose thread has still to store the handle. -/
structure State (C : Type) where
  storage : HandleStorage C
  contextHandle : C → UInt32
  live : List (UInt32 × C)
  pending : List (UInt32 × C)

/-- The atomic steps: the critical sections and the assignment of `ctx->handle`. -/
inductive Op (C : Type) where
  | register (ctx : C)
  | assign (handle : UInt32) (ctx : C)
  | retire (handle : UInt32)

variable {C : Type} [DecidableEq C]

def start (harbor : UInt32) (contextHandle : C → UInt32) : State C where
  storage := init harbor
  contextHandle := contextHandle
  live := []
  pending := []

/-- The thread of a new context sets its handle to 0. -/
def State.clear (s : State C) (ctx : C) : C → UInt32 := Function.update s.contextHandle ctx 0

/-- A context of a thread that has not yet called `skynet_handle_register`. -/
def State.Fresh (s : State C) (ctx : C) : Prop :=
  ctx ∉ s.live.map Prod.snd ∧ ctx ∉ s.pending.map Prod.snd

instance (s : State C) (ctx : C) : Decidable (s.Fresh ctx) :=
  inferInstanceAs (Decidable (_ ∧ _))

inductive Step : Op C → State C → State C → Prop
  | register {s : State C} {ctx : C} {fuel : Nat} {handle : UInt32}
      {storage : HandleStorage C} (hctx : s.Fresh ctx)
      (h : register (s.clear ctx) ctx fuel s.storage = some (.ok (handle, storage))) :
      Step (.register ctx) s
        ⟨storage, s.clear ctx, (handle, ctx) :: s.live, (handle, ctx) :: s.pending⟩
  | assign {s : State C} {handle : UInt32} {ctx : C} (h : (handle, ctx) ∈ s.pending) :
      Step (.assign handle ctx) s
        ⟨s.storage, Function.update s.contextHandle ctx handle, s.live,
          s.pending.filter fun e => e.2 ≠ ctx⟩
  | retire {s : State C} {handle : UInt32} {ret : Int} {ctx : Option C}
      {storage : HandleStorage C}
      (h : retire s.contextHandle handle s.storage = (ret, ctx, storage)) :
      Step (.retire handle) s
        ⟨storage, s.contextHandle, s.live.filter (fun e => ctx ≠ some e.2), s.pending⟩

/-- A registration that doubles the table meets no context in it whose handle is still to be
stored, except where that handle leads to slot 0 of the doubled table. -/
def Op.Meets : Op C → State C → Prop
  | .register _, s => freeHandle s.storage = none →
      ∀ e ∈ s.pending, e ∈ s.live → hash (s.storage.slotSize * 2) e.1 = 0
  | _, _ => True

/-- A run of the threads since `skynet_handle_init(harbor)`, all of whose steps satisfy `P`. -/
inductive Run (P : Op C → State C → Prop) (harbor : UInt32) : State C → Prop
  | init (contextHandle : C → UInt32) : Run P harbor (start harbor contextHandle)
  | step {op : Op C} {s s' : State C} (hrun : Run P harbor s) (hm : P op s)
      (hs : Step op s s') : Run P harbor s'

/-- The next registration does not fail the assertion of the doubling, and a context that has
its handle is found under it. -/
structure Sound (s : State C) : Prop where
  assertion : ∀ ctx, s.Fresh ctx → (Op.register ctx).Meets s → ∀ fuel,
    register (s.clear ctx) ctx fuel s.storage ≠ some (.error .newSlotTaken)
  found : ∀ e ∈ s.live, e ∉ s.pending →
    grab s.contextHandle (s.contextHandle e.2) s.storage = some e.2

structure Inv (s : State C) : Prop where
  placed : ∃ k, Placed k s.storage s.live
  stored : ∀ e ∈ s.live, e ∉ s.pending → s.contextHandle e.2 = e.1
  zero : ∀ e ∈ s.pending, s.contextHandle e.2 = 0
  contexts : (s.pending.map Prod.snd).Nodup
  same : ∀ e ∈ s.live, ∀ e' ∈ s.pending, e.2 = e'.2 → e = e'

namespace Inv

variable {s s' : State C}

omit [DecidableEq C] in
theorem agree (hi : Inv s) {n : Nat}
    (hm : ∀ e ∈ s.pending, e ∈ s.live → hash n e.1 = 0) :
    Placed.Agree s.contextHandle n s.live := by
  intro e he
  by_cases hpend : e ∈ s.pending
  · rw [hi.zero e hpend, hm e hpend he]
    unfold hash
    rw [UInt32.zero_and]
    rfl
  · rw [hi.stored e he hpend]

theorem clear_other {ctx : C} {e : UInt32 × C} {es : List (UInt32 × C)}
    (hctx : ctx ∉ es.map Prod.snd) (he : e ∈ es) : s.clear ctx e.2 = s.contextHandle e.2 := by
  unfold State.clear
  apply Function.update_of_ne
  intro heq
  exact hctx (List.mem_map.mpr ⟨e, he, heq⟩)

theorem register_run (hi : Inv s) {ctx : C} (hctx : s.Fresh ctx)
    (hm : (Op.register ctx).Meets s) :
    register (s.clear ctx) ctx 2 s.storage = some (.error .tooManySlots) ∨
    ∃ handle storage,
      register (s.clear ctx) ctx 2 s.storage = some (.ok (handle, storage)) ∧
      Inv ⟨storage, s.clear ctx, (handle, ctx) :: s.live, (handle, ctx) :: s.pending⟩ := by
  obtain ⟨k, hp⟩ := hi.placed
  have hagree : freeHandle s.storage = none →
      Placed.Agree (s.clear ctx) (s.storage.slotSize * 2) s.live := by
    intro hfull e he
    rw [clear_other hctx.1 he]
    exact hi.agree (hm hfull) e he
  rcases hp.register_run hctx.1 hagree with ⟨-, hrun⟩ | ⟨k', handle, storage, hrun, -, hp'⟩
  · exact Or.inl hrun
  · refine Or.inr ⟨handle, storage, hrun, ⟨k', hp'⟩, ?_, ?_, ?_, ?_⟩
    · intro e he hpend
      rcases List.mem_cons.mp he with rfl | he
      · exact absurd List.mem_cons_self hpend
      · have hstored := hi.stored e he fun hmem => hpend (List.mem_cons_of_mem _ hmem)
        exact (clear_other hctx.1 he).trans hstored
    · intro e he
      rcases List.mem_cons.mp he with rfl | he
      · exact Function.update_self ..
      · exact (clear_other hctx.2 he).trans (hi.zero e he)
    · exact List.nodup_cons.mpr ⟨hctx.2, hi.contexts⟩
    · intro e he e' he' heq
      rcases List.mem_cons.mp he with rfl | he <;> rcases List.mem_cons.mp he' with rfl | he'
      · rfl
      · exact absurd (List.mem_map.mpr ⟨e', he', heq.symm⟩) hctx.2
      · exact absurd (List.mem_map.mpr ⟨e, he, heq⟩) hctx.1
      · exact hi.same e he e' he' heq

theorem assign (hi : Inv s) {handle : UInt32} {ctx : C} (h : (handle, ctx) ∈ s.pending) :
    Inv ⟨s.storage, Function.update s.contextHandle ctx handle, s.live,
      s.pending.filter fun e => e.2 ≠ ctx⟩ := by
  refine ⟨hi.placed, ?_, ?_, ?_, ?_⟩
  · intro e he hpend
    show Function.update s.contextHandle ctx handle e.2 = e.1
    by_cases heq : e.2 = ctx
    · have hsame := hi.same e he _ h heq
      rw [hsame, Function.update_self]
    · rw [Function.update_of_ne heq]
      apply hi.stored e he
      intro hmem
      exact hpend (List.mem_filter.mpr ⟨hmem, by simpa using heq⟩)
  · intro e he
    have hfilter := List.mem_filter.mp he
    have hne : e.2 ≠ ctx := by simpa using hfilter.2
    show Function.update s.contextHandle ctx handle e.2 = 0
    rw [Function.update_of_ne hne]
    exact hi.zero e hfilter.1
  · exact hi.contexts.sublist (List.filter_sublist.map _)
  · intro e he e' he' heq
    exact hi.same e he e' (List.mem_of_mem_filter he') heq

theorem retire (hi : Inv s) {handle : UInt32} {ret : Int} {ctx : Option C}
    {storage : HandleStorage C}
    (h : Handle.retire s.contextHandle handle s.storage = (ret, ctx, storage)) :
    Inv ⟨storage, s.contextHandle, s.live.filter (fun e => ctx ≠ some e.2), s.pending⟩ := by
  obtain ⟨k, hp⟩ := hi.placed
  have hp' : Placed k storage (s.live.filter fun e => ctx ≠ some e.2) := by
    by_cases hfound : ∃ g c, (g, c) ∈ s.live ∧
        hash s.storage.slotSize g = hash s.storage.slotSize handle ∧
        s.contextHandle c = handle
    · obtain ⟨g, c, he, heq, hc⟩ := hfound
      obtain ⟨storage', hrun, -, hp'⟩ := hp.retire_found he heq hc
      rw [h] at hrun
      cases hrun
      simpa [eq_comm] using hp'
    · have hrun := hp.retire_missed fun g c he heq hc => hfound ⟨g, c, he, heq, hc⟩
      rw [h] at hrun
      cases hrun
      simpa using hp
  refine ⟨⟨k, hp'⟩, ?_, hi.zero, hi.contexts, ?_⟩
  · intro e he
    exact hi.stored e (List.mem_of_mem_filter he)
  · intro e he
    exact hi.same e (List.mem_of_mem_filter he)

theorem step (hi : Inv s) {op : Op C} (hm : op.Meets s) (hs : Step op s s') : Inv s' := by
  cases hs with
  | register hctx hrun =>
      rename_i ctx fuel handle storage
      have hmore := register_mono (Nat.le_max_left fuel 2) hrun
      rcases hi.register_run hctx hm with hrun' | ⟨handle', storage', hrun', hi'⟩
      · rw [register_mono (Nat.le_max_right fuel 2) hrun'] at hmore
        cases hmore
      · rw [register_mono (Nat.le_max_right fuel 2) hrun'] at hmore
        cases hmore
        exact hi'
  | assign h => exact hi.assign h
  | retire h => exact hi.retire h

theorem sound (hi : Inv s) : Sound s := by
  constructor
  · intro ctx hctx hm fuel hfail
    have hmore := register_mono (Nat.le_max_left fuel 2) hfail
    rcases hi.register_run hctx hm with hrun | ⟨handle, storage, hrun, -⟩
    · rw [register_mono (Nat.le_max_right fuel 2) hrun] at hmore
      cases hmore
    · rw [register_mono (Nat.le_max_right fuel 2) hrun] at hmore
      cases hmore
  · intro e he hpend
    obtain ⟨k, hp⟩ := hi.placed
    rw [hp.grab_iff]
    refine ⟨e.1, he, ?_, rfl⟩
    rw [hi.stored e he hpend]

end Inv

omit [DecidableEq C] in
theorem start_inv (harbor : UInt32) (contextHandle : C → UInt32) :
    Inv (start harbor contextHandle) where
  placed := ⟨2, Placed.init harbor⟩
  stored := by simp [start]
  zero := by simp [start]
  contexts := List.nodup_nil
  same := by simp [start]

/-- A thread registers `ctx` under a free number, and stops before it stores the handle. -/
def registered (s : State Nat) (number : UInt32) (ctx : Nat) : State Nat where
  storage := store s.storage number ctx
  contextHandle := s.clear ctx
  live := (number ||| s.storage.harbor, ctx) :: s.live
  pending := (number ||| s.storage.harbor, ctx) :: s.pending

def one : State Nat := registered (start 1 fun _ => 0) 1 0

end Jump.Skynet.Handle.Concurrent
