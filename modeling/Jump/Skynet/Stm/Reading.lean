import Jump.Skynet.Stm.Safety

/-! # What a reader sees

The copies stand in the order in which the writer made them, and a reader goes through them in
that order.
-/

namespace Jump.Skynet.Stm

open Jump.Core.Threads

section Reading

variable {s l : Shared} {t t' : Thread} {started : List Thread} {w : List (List UInt8)}

/-- The copy `c` is there, and not newer than that of the object. -/
def Shared.Old (s : Shared) (c : Nat) : Prop :=
  c < s.copies.length ∧ ∀ b, s.obj.copy = some b → c ≤ b

/-- What was seen is from before the copy `c`. -/
def Shared.Before (s : Shared) (c : Nat) (w : List (List UInt8)) : Prop :=
  w.Sublist (s.written.take c)

/-- Nothing comes any more. -/
def Shared.Closed (s : Shared) (w : List (List UInt8)) : Prop :=
  s.obj.copy = none ∧ w.Sublist s.written

/-- A reader that has read the copy `last`. -/
def Shared.Past (s : Shared) (w : List (List UInt8)) : Option Nat → Prop
  | some c => s.Old c ∧ s.Before (c + 1) w
  | none => w = [] ∨ s.Closed w

/-- A reader that has read the copy `last` and loaded the copy `ret`. -/
def Shared.Loaded (s : Shared) (w : List (List UInt8)) (last : Option Nat) : Option Nat → Prop
  | some c => s.Old c ∧ (last = some c ∨ s.Before c w)
  | none => s.Closed w

def Shared.Continues (s : Shared) (w : List (List UInt8)) : After → Prop
  | .writer | .clear => w = []
  | .reader last => s.Past w last
  | .read (some c) => s.Old c ∧ s.Before c w
  | .read none => s.Closed w
  | .gone => w.Sublist s.written

def Shared.Sees (s : Shared) (w : List (List UInt8)) : Pc → Prop
  | .reader last | .copyLock last | .copyLoad last | .deleteLock last | .deleteSub last
  | .deleteUnlock last | .deleteFree last => s.Past w last
  | .copyAdd last ret => s.Past w last ∧ s.Loaded w last (some ret)
  | .copyUnlock last ret => s.Past w last ∧ s.Loaded w last ret
  | .hand c => s.Old c ∧ s.Before c w
  | .sub _ after | .free _ after => s.Continues w after
  | .gone => w.Sublist s.written
  | _ => w = []

/-! ## Later -/

/-- What a step may do to the copies. -/
structure Shared.Grows (s l : Shared) : Prop where
  written : ∃ msgs, l.written = s.written ++ msgs
  length : s.copies.length ≤ l.copies.length
  copy : l.obj.copy = s.obj.copy ∨ l.obj.copy = none ∨
    ∃ b c, s.obj.copy = some b ∧ l.obj.copy = some c ∧ b ≤ c

theorem Shared.Grows.same (hwritten : l.written = s.written) (hcopy : l.obj.copy = s.obj.copy) :
    s.Grows l := by
  refine ⟨⟨[], by rw [hwritten, List.append_nil]⟩, ?_, .inl hcopy⟩
  have hlength := congrArg List.length hwritten
  rw [Shared.written, Shared.written, List.length_map, List.length_map] at hlength
  omega

theorem Shared.Before.mono {c d : Nat} (h : s.Before c w) (hle : c ≤ d) : s.Before d w := by
  refine h.trans ?_
  rw [← Nat.add_sub_of_le hle, List.take_add]
  exact List.sublist_append_left _ _

theorem Shared.Before.sublist {c : Nat} (h : s.Before c w) : w.Sublist s.written :=
  h.trans (List.take_sublist c s.written)

theorem Shared.Past.sublist {last : Option Nat} (h : s.Past w last) : w.Sublist s.written := by
  cases last with
  | some c => exact h.2.sublist
  | none =>
      obtain rfl | hclosed := h
      · exact List.nil_sublist _
      · exact hclosed.2

section Grows

variable (hgrows : s.Grows l)

include hgrows

theorem Shared.Old.grows {c : Nat} (h : s.Old c) : l.Old c := by
  obtain ⟨hlt, hle⟩ := h
  refine ⟨Nat.lt_of_lt_of_le hlt hgrows.length, ?_⟩
  intro b hb
  obtain hsame | hnone | ⟨b', c', hb', hc', hbc⟩ := hgrows.copy
  · exact hle b (by rw [← hsame, hb])
  · rw [hnone] at hb
    cases hb
  · rw [hc'] at hb
    cases hb
    exact Nat.le_trans (hle b' hb') hbc

theorem Shared.Before.grows {c : Nat} (h : s.Before c w) : l.Before c w := by
  obtain ⟨msgs, hmsgs⟩ := hgrows.written
  refine h.trans ?_
  rw [hmsgs, List.take_append]
  exact List.sublist_append_left _ _

theorem sublist_grows (h : w.Sublist s.written) : w.Sublist l.written := by
  obtain ⟨msgs, hmsgs⟩ := hgrows.written
  rw [hmsgs]
  exact h.trans (List.sublist_append_left _ _)

theorem Shared.Closed.grows (h : s.Closed w) : l.Closed w := by
  refine ⟨?_, sublist_grows hgrows h.2⟩
  obtain hsame | hnone | ⟨b, c, hb, -, -⟩ := hgrows.copy
  · rw [hsame, h.1]
  · exact hnone
  · rw [h.1] at hb
    cases hb

theorem Shared.Past.grows {last : Option Nat} (h : s.Past w last) : l.Past w last := by
  cases last with
  | some c => exact ⟨h.1.grows hgrows, h.2.grows hgrows⟩
  | none => exact h.imp_right fun hclosed => hclosed.grows hgrows

theorem Shared.Loaded.grows {last ret : Option Nat} (h : s.Loaded w last ret) :
    l.Loaded w last ret := by
  cases ret with
  | some c => exact ⟨h.1.grows hgrows, h.2.imp_right fun hbefore => hbefore.grows hgrows⟩
  | none => exact Shared.Closed.grows hgrows h

theorem Shared.Continues.grows {after : After} (h : s.Continues w after) :
    l.Continues w after := by
  cases after with
  | writer => exact h
  | clear => exact h
  | reader last => exact Shared.Past.grows hgrows h
  | read ret =>
      cases ret with
      | some c => exact ⟨h.1.grows hgrows, h.2.grows hgrows⟩
      | none => exact Shared.Closed.grows hgrows h
  | gone => exact sublist_grows hgrows h

theorem Shared.Sees.grows {pc : Pc} (h : s.Sees w pc) : l.Sees w pc := by
  cases pc with
  | reader last => exact Shared.Past.grows hgrows h
  | copyLock last => exact Shared.Past.grows hgrows h
  | copyLoad last => exact Shared.Past.grows hgrows h
  | deleteLock last => exact Shared.Past.grows hgrows h
  | deleteSub last => exact Shared.Past.grows hgrows h
  | deleteUnlock last => exact Shared.Past.grows hgrows h
  | deleteFree last => exact Shared.Past.grows hgrows h
  | copyAdd last ret => exact ⟨h.1.grows hgrows, h.2.grows hgrows⟩
  | copyUnlock last ret => exact ⟨h.1.grows hgrows, h.2.grows hgrows⟩
  | hand c => exact ⟨h.1.grows hgrows, h.2.grows hgrows⟩
  | sub c after => exact Shared.Continues.grows hgrows h
  | free c after => exact Shared.Continues.grows hgrows h
  | gone => exact sublist_grows hgrows h
  | _ => exact h

end Grows

/-! ## A step -/

theorem written_modify (copies : List Copy) (c : Nat) (f : Copy → Copy)
    (hf : ∀ k, (f k).msg = k.msg) : (copies.modify c f).map Copy.msg = copies.map Copy.msg := by
  induction copies generalizing c with
  | nil => cases c <;> rfl
  | cons k copies ih =>
      cases c with
      | zero => simp only [List.modify_zero_cons, List.map_cons, hf]
      | succ c => simp only [List.modify_succ_cons, List.map_cons, ih]

theorem Step.grows (h : Step s t l t' started)
    (hfresh : ∀ c, t.pc = .updateSwap c → ∃ b, s.obj.copy = some b ∧ b ≤ c) : s.Grows l := by
  cases h with
  | lupdate msg =>
      refine ⟨⟨[msg], List.map_append⟩, ?_, .inl rfl⟩
      change _ ≤ (s.copies ++ [_]).length
      rw [List.length_append]
      omega
  | @updateSwap _ c =>
      obtain ⟨b, hb, hbc⟩ := hfresh c rfl
      exact ⟨⟨[], (List.append_nil _).symm⟩, Nat.le_refl _, .inr (.inr ⟨b, c, hb, rfl, hbc⟩)⟩
  | clear => exact ⟨⟨[], (List.append_nil _).symm⟩, Nat.le_refl _, .inr (.inl rfl)⟩
  | copyAdd => exact .same (written_modify _ _ _ fun _ => rfl) rfl
  | sub => exact .same (written_modify _ _ _ fun _ => rfl) rfl
  | free => exact .same (written_modify _ _ _ fun _ => rfl) rfl
  | _ => exact .same rfl rfl

theorem sees_pc {after : After} (h : s.Continues w after) : s.Sees w after.pc := by
  cases after with
  | read ret =>
      cases ret with
      | some c => exact h
      | none => exact .inr h
  | _ => exact h

theorem sees_releasecopy {after : After} (copy : Option Nat) (h : s.Continues w after) :
    s.Sees w (releasecopy copy after) := by
  cases copy with
  | none => exact sees_pc h
  | some c => exact h

/-- A reader loads a copy that is no older than its last. -/
theorem Shared.Past.loaded {last : Option Nat} {c : Nat} (h : s.Past w last)
    (hcopy : s.obj.copy = some c) (hlt : c < s.copies.length) : s.Loaded w last (some c) := by
  have hold : s.Old c := by
    refine ⟨hlt, ?_⟩
    intro b hb
    rw [hcopy] at hb
    cases hb
    exact Nat.le_refl _
  refine ⟨hold, ?_⟩
  cases last with
  | some a =>
      obtain ⟨⟨_, hle⟩, hbefore⟩ := h
      by_cases heq : a = c
      · exact .inl (congrArg some heq)
      · have hac := hle c hcopy
        exact .inr (hbefore.mono (by omega))
  | none =>
      obtain rfl | hclosed := h
      · exact .inr (List.nil_sublist _)
      · rw [hclosed.1] at hcopy
        cases hcopy

/-- What is handed out comes behind all that was seen. -/
theorem Shared.Before.hand {c : Nat} {k : Copy} (h : s.Before c w)
    (hcopy : s.copies[c]? = some k) : s.Before (c + 1) (w ++ [k.msg]) := by
  have htake : s.written.take (c + 1) = s.written.take c ++ [k.msg] := by
    rw [List.take_add_one, Shared.written, List.getElem?_map, hcopy]
    rfl
  unfold Shared.Before
  rw [htake]
  exact List.Sublist.append h (List.Sublist.refl _)

/-- What the thread sees behind its step, with the copies as they were before. -/
theorem Step.sees (h : Step s t l t' started) (hsees : s.Sees t.seen t.pc)
    (hcopy : ∀ last c, t.pc = .copyLoad last → s.obj.copy = some c → c < s.copies.length) :
    s.Sees t'.seen t'.pc := by
  cases h with
  | updateUnlock => exact sees_releasecopy _ hsees
  | releaseCopy => exact sees_releasecopy _ hsees
  | releaseSub =>
      dsimp only
      split <;> exact hsees
  | releaseUnlock =>
      rw [show _ = _ from hsees]
      exact List.nil_sublist _
  | releaseFree =>
      rw [show _ = _ from hsees]
      exact List.nil_sublist _
  | copyLoad hnone => exact ⟨hsees, hnone, hsees.sublist⟩
  | copyLoadSome hsome => exact ⟨hsees, hsees.loaded hsome (hcopy _ _ rfl hsome)⟩
  | copyAdd => exact hsees
  | @copyUnlock _ last ret =>
      obtain ⟨hpast, hloaded⟩ := hsees
      dsimp only
      split
      · exact sees_releasecopy _ hpast
      · rename_i hne
        refine sees_releasecopy _ ?_
        cases ret with
        | none => exact hloaded
        | some c =>
            obtain ⟨hold, hlast | hbefore⟩ := hloaded
            · exact absurd hlast.symm hne
            · exact ⟨hold, hbefore⟩
  | hand hk => exact ⟨hsees.1, hsees.2.hand hk⟩
  | deleteSub =>
      dsimp only
      split <;> exact hsees
  | deleteUnlock => exact sees_releasecopy _ hsees.sublist
  | deleteFree => exact sees_releasecopy _ hsees.sublist
  | sub =>
      dsimp only
      split
      · exact hsees
      · exact sees_pc hsees
  | free => exact sees_pc hsees
  | _ => exact hsees

end Reading

/-! ## Runs -/

section Runs

variable {P : State → Prop} {s : State} {l : Shared} {t t' : Thread} {i : Nat}
  {started : List Thread}

/-- A copy that the writer has not put into the object yet. -/
def Pc.fresh : Pc → Option Nat
  | .updateLock c | .updateSwap c => some c
  | _ => none

structure Reads (s : State) : Prop where
  sees : ∀ t ∈ s.threads, s.shared.Sees t.seen t.pc
  fresh : ∀ t ∈ s.threads, ∀ c, t.pc.fresh = some c →
    c < s.shared.copies.length ∧ ∀ b, s.shared.obj.copy = some b → b ≤ c

theorem owner_of_fresh {pc : Pc} {c : Nat} (h : pc.fresh = some c) : pc.owner = 1 := by
  cases pc with
  | updateLock d => rfl
  | updateSwap d => rfl
  | _ => cases h

theorem fresh_releasecopy (copy : Option Nat) (after : After) :
    (releasecopy copy after).fresh = none := by
  cases copy with
  | some c => rfl
  | none =>
      cases after with
      | read ret => cases ret <;> rfl
      | _ => rfl

/-- The copy of the object is there until `stm_release` drops it. -/
theorem Inv.lt_length (hs : Inv s) (htaken : s.sum Pc.taken = 0) {c : Nat}
    (hcopy : s.shared.obj.copy = some c) : c < s.shared.copies.length := by
  by_contra hge
  have hrefs := hs.refs c
  rw [State.pointer, if_pos htaken, hcopy, one_self, Shared.reference,
    List.getElem?_eq_none (by omega)] at hrefs
  dsimp only at hrefs
  omega

theorem Inv.copyLoad_lt (hs : Inv s) (hi : s.threads[i]? = some t) :
    ∀ last c, t.pc = .copyLoad last → s.shared.obj.copy = some c →
      c < s.shared.copies.length := by
  intro last c hpc hcopy
  have hlive := hs.live hi (by rw [hpc]; exact Nat.one_pos)
  have hreads := le_sum Pc.reads hi
  have hone : t.pc.reads = 1 := by rw [hpc]; rfl
  have htaken := sum_mono taken_le_writes s
  obtain ⟨_, _, hexcl⟩ := hs.locks hlive
  exact hs.lt_length (by omega) hcopy

theorem Reads.grows (hreads : Reads s) (hs : Inv s) (hi : s.threads[i]? = some t)
    (hstep : Step s.shared t l t' started) : s.shared.Grows l := by
  refine hstep.grows fun c hpc => ?_
  have hfresh : t.pc.fresh = some c := by rw [hpc]; rfl
  obtain ⟨_, hle⟩ := hreads.fresh t (List.mem_of_getElem? hi) c hfresh
  have hsome := hs.has_copy hi (by rw [owner_of_fresh hfresh]; exact Nat.one_pos)
  obtain ⟨b, hb⟩ := Option.ne_none_iff_exists'.mp hsome
  exact ⟨b, hb, hle b hb⟩

/-- Only the owner changes the copy. -/
theorem Step.copy_owner {s : Shared} (h : Step s t l t' started) :
    l.obj.copy = s.obj.copy ∨ t.pc.owner = 1 := by
  cases h with
  | updateSwap => exact .inr rfl
  | clear => exact .inr rfl
  | _ => exact .inl rfl

theorem Inv.fresh_own (hs : Inv s) (hi : s.threads[i]? = some t)
    (hstep : Step s.shared t l t' started)
    (hfresh : ∀ c, t.pc.fresh = some c →
      c < s.shared.copies.length ∧ ∀ b, s.shared.obj.copy = some b → b ≤ c) {c : Nat}
    (hc : t'.pc.fresh = some c) :
    c < l.copies.length ∧ ∀ b, l.obj.copy = some b → b ≤ c := by
  have hnone : ∀ copy after, (releasecopy copy after).fresh ≠ some c := by
    intro copy after
    rw [fresh_releasecopy]
    exact nofun
  cases hstep with
  | lupdate msg =>
      cases hc
      constructor
      · change _ < (s.shared.copies ++ [_]).length
        rw [List.length_append]
        exact Nat.lt_succ_self _
      · intro b hb
        exact Nat.le_of_lt (hs.lt_length (hs.taken_eq hi rfl) hb)
  | updateLock => exact hfresh c hc
  | updateUnlock => exact (hnone _ _ hc).elim
  | releaseCopy => exact (hnone _ _ hc).elim
  | deleteUnlock => exact (hnone _ _ hc).elim
  | deleteFree => exact (hnone _ _ hc).elim
  | copyUnlock =>
      dsimp only at hc
      split at hc
      · exact (hnone _ _ hc).elim
      · exact (hnone _ _ hc).elim
  | sub =>
      dsimp only at hc
      split at hc
      · cases hc
      · exact (hnone none _ hc).elim
  | free => exact (hnone none _ hc).elim
  | releaseSub =>
      dsimp only at hc
      split at hc <;> cases hc
  | deleteSub =>
      dsimp only at hc
      split at hc <;> cases hc
  | _ => cases hc

theorem Reads.fresh_step (hreads : Reads s) (hs : Inv s) (hi : s.threads[i]? = some t)
    (hstep : Step s.shared t l t' started) :
    ∀ u ∈ s.threads.set i t' ++ started, ∀ c, u.pc.fresh = some c →
      c < l.copies.length ∧ ∀ b, l.obj.copy = some b → b ≤ c := by
  intro u hu c hc
  have hgrows := hreads.grows hs hi hstep
  cases List.mem_append.mp hu with
  | inr hnew =>
      rw [hstep.begins u hnew] at hc
      cases hc
  | inl hset =>
      obtain rfl | ⟨j, hji, hj⟩ := mem_set_cases hset
      · exact hs.fresh_own hi hstep (hreads.fresh t (List.mem_of_getElem? hi)) hc
      · obtain ⟨hlt, hle⟩ := hreads.fresh u (List.mem_of_getElem? hj) c hc
        refine ⟨Nat.lt_of_lt_of_le hlt hgrows.length, ?_⟩
        obtain hsame | howner := hstep.copy_owner
        · rw [hsame]
          exact hle
        · have hboth := add_le_total (fun v : Thread => v.pc.owner) (Ne.symm hji) hi hj
          have hone := hs.owner_le
          have hu := owner_of_fresh hc
          unfold State.sum at hone
          omega

theorem Reads.step (hreads : Reads s) (hs : Inv s) (hi : s.threads[i]? = some t)
    (hstep : Step s.shared t l t' started) : Reads ⟨l, s.threads.set i t' ++ started⟩ where
  sees := by
    intro u hu
    have hgrows := hreads.grows hs hi hstep
    cases List.mem_append.mp hu with
    | inr hnew =>
        rw [hstep.begins u hnew]
        exact .inl rfl
    | inl hset =>
        obtain rfl | ⟨j, hji, hj⟩ := mem_set_cases hset
        · have hsees := hreads.sees t (List.mem_of_getElem? hi)
          exact (hstep.sees hsees (hs.copyLoad_lt hi)).grows hgrows
        · exact (hreads.sees u (List.mem_of_getElem? hj)).grows hgrows
  fresh := hreads.fresh_step hs hi hstep

theorem Run.reads (hrun : Run P s) : Reads s := by
  induction hrun with
  | start msg =>
      constructor
      · intro t ht
        rw [List.mem_singleton.mp ht]
        rfl
      · intro t ht c hc
        rw [List.mem_singleton.mp ht] at hc
        cases hc
  | step hrun hi hfine hstep hp ih => exact ih.step hrun.inv hi hstep

theorem Shared.Sees.sublist {s : Shared} {w : List (List UInt8)} {pc : Pc} (h : s.Sees w pc) :
    w.Sublist s.written := by
  have hcontinues : ∀ after, s.Continues w after → w.Sublist s.written := by
    intro after hafter
    cases after with
    | writer =>
        obtain rfl : w = [] := hafter
        exact List.nil_sublist _
    | clear =>
        obtain rfl : w = [] := hafter
        exact List.nil_sublist _
    | reader last => exact Shared.Past.sublist hafter
    | read ret =>
        cases ret with
        | some c => exact hafter.2.sublist
        | none => exact hafter.2
    | gone => exact hafter
  cases pc with
  | reader last => exact Shared.Past.sublist h
  | copyLock last => exact Shared.Past.sublist h
  | copyLoad last => exact Shared.Past.sublist h
  | deleteLock last => exact Shared.Past.sublist h
  | deleteSub last => exact Shared.Past.sublist h
  | deleteUnlock last => exact Shared.Past.sublist h
  | deleteFree last => exact Shared.Past.sublist h
  | copyAdd last ret => exact h.1.sublist
  | copyUnlock last ret => exact h.1.sublist
  | hand c => exact h.2.sublist
  | sub c after => exact hcontinues after h
  | free c after => exact hcontinues after h
  | gone => exact h
  | _ =>
      obtain rfl : w = [] := h
      exact List.nil_sublist _

/-- Each reader gets the messages in the order in which they were written, each at most once. -/
theorem seen_in_order (hrun : Run P s) (ht : t ∈ s.threads) : t.seen.Sublist s.shared.written :=
  (hrun.reads.sees t ht).sublist

theorem seen_in_order_ended : ∃ s : State, ⟨.gone, [[7], [8]]⟩ ∈ s.threads ∧
    [[7], [8]].Sublist s.shared.written := by
  obtain ⟨s, hrun, hthreads⟩ := exists_ended
  have ht : ⟨.gone, [[7], [8]]⟩ ∈ s.threads := by
    rw [hthreads]
    exact List.mem_cons_of_mem _ List.mem_cons_self
  exact ⟨s, ht, seen_in_order hrun ht⟩

end Runs

end Jump.Skynet.Stm
