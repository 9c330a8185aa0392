import Jump.Skynet.Stm.Held

/-! # What the services of an object never do

Nothing is used after it was freed, but for the unlock of a reader that another reader overtakes.
-/

namespace Jump.Skynet.Stm

open Jump.Core.Threads

/-! ## The invariant -/

structure Inv (s : State) : Prop where
  reference : s.shared.obj.reference = s.sum Pc.holds
  owner : s.sum Pc.owner = if s.shared.obj.copy = none then 0 else 1
  freed : s.shared.obj.freed.toNat + s.sum Pc.freeing = if s.sum Pc.holds = 0 then 1 else 0
  locks : s.shared.obj.freed = false → s.shared.obj.readers = s.sum Pc.reads ∧
    s.shared.obj.writing.toNat = s.sum Pc.writes ∧ (s.sum Pc.writes = 0 ∨ s.sum Pc.reads = 0)
  stale : s.shared.obj.freed = true → s.sum Pc.writes = 0
  refs : ∀ c, s.shared.reference c = s.pointer c + s.sum (Pc.refs c)
  dead : ∀ c, (s.shared.dead c).toNat + s.sum (Pc.dropping c) =
    if s.shared.reference c = 0 then 1 else 0
  adds : ∀ t ∈ s.threads, ∀ last ret, t.pc = .copyAdd last ret → s.shared.obj.copy = some ret

section Invariant

variable {s : State} {l : Shared} {t t' : Thread} {i : Nat} {started : List Thread}

theorem owner_le_holds (pc : Pc) : pc.owner ≤ pc.holds := by
  cases pc with
  | sub c after => cases after <;> simp [Pc.owner, After.owner, Pc.holds, After.holds]
  | free c after => cases after <;> simp [Pc.owner, After.owner, Pc.holds, After.holds]
  | _ => simp [Pc.owner, Pc.holds]

theorem taken_le_owner (pc : Pc) : pc.taken ≤ pc.owner := by
  cases pc with
  | sub c after => cases after <;> simp [Pc.owner, After.owner, Pc.taken, After.taken]
  | free c after => cases after <;> simp [Pc.owner, After.owner, Pc.taken, After.taken]
  | _ => simp [Pc.owner, Pc.taken]

theorem taken_le_writes (pc : Pc) : pc.taken ≤ pc.writes := by
  cases pc with
  | sub c after => exact Nat.le_refl _
  | free c after => exact Nat.le_refl _
  | _ => simp [Pc.taken, Pc.writes]

theorem Inv.owner_le (hs : Inv s) : s.sum Pc.owner ≤ 1 := by
  rw [hs.owner]
  split <;> omega

theorem Inv.has_copy (hs : Inv s) (hi : s.threads[i]? = some t) (howner : 0 < t.pc.owner) :
    s.shared.obj.copy ≠ none := by
  intro hnone
  have hsum := hs.owner
  have hle := le_sum Pc.owner hi
  rw [if_pos hnone] at hsum
  omega

/-- The writer is the only owner. -/
theorem Inv.taken_eq (hs : Inv s) (hi : s.threads[i]? = some t) (howner : t.pc.owner = 1) :
    s.sum Pc.taken = t.pc.taken := by
  have hother := sum_mono_at taken_le_owner hi
  have hone := hs.owner_le
  have hle := le_sum Pc.taken hi
  omega

theorem Inv.refs_le (hs : Inv s) (c : Nat) : (s.sum (Pc.refs c) : Int) ≤ s.shared.reference c := by
  rw [hs.refs c]
  omega

theorem Inv.reference_pos (hs : Inv s) (hi : s.threads[i]? = some t) (c : Nat)
    (hrefs : 0 < t.pc.refs c) : 0 < s.shared.reference c := by
  have hle := le_sum (Pc.refs c) hi
  have hall := hs.refs_le c
  omega

theorem Inv.reference_step (hs : Inv s) (hi : s.threads[i]? = some t)
    (hstep : Step s.shared t l t' started) :
    l.obj.reference = State.sum Pc.holds ⟨l, s.threads.set i t' ++ started⟩ := by
  have hsum := sum_step Pc.holds hi l t' started
  have hholds := hstep.holds
  have href := hs.reference
  omega

theorem Inv.owner_step (hs : Inv s) (hi : s.threads[i]? = some t)
    (hstep : Step s.shared t l t' started) :
    State.sum Pc.owner ⟨l, s.threads.set i t' ++ started⟩ =
      if l.obj.copy = none then 0 else 1 := by
  have hsum := sum_step Pc.owner hi l t' started
  have howner := hstep.owner (hs.has_copy hi)
  have hbefore := hs.owner
  omega

theorem Inv.freed_step (hs : Inv s) (hi : s.threads[i]? = some t)
    (hstep : Step s.shared t l t' started) :
    l.obj.freed.toNat + State.sum Pc.freeing ⟨l, s.threads.set i t' ++ started⟩ =
      if State.sum Pc.holds ⟨l, s.threads.set i t' ++ started⟩ = 0 then 1 else 0 := by
  have hsum := sum_step Pc.holds hi l t' started
  have hfreeing := sum_step Pc.freeing hi l t' started
  have hle := le_sum Pc.holds hi
  have hle' := le_sum Pc.freeing hi
  have href := hs.reference
  have href' := hs.reference_step hi hstep
  have hbefore := hs.freed
  have hfrees := hstep.frees (by rw [href]; exact_mod_cast hle)
  generalize t.pc.holds = h at *
  generalize t.pc.freeing = f at *
  generalize gain Pc.holds t' started = h' at *
  generalize gain Pc.freeing t' started = f' at *
  cases hfrees with
  | quiet hfreed =>
      rw [hfreed]
      have hsame : State.sum Pc.holds ⟨l, s.threads.set i t' ++ started⟩ = s.sum Pc.holds := by
        omega
      rw [hsame, ← hbefore]
      omega
  | add hfreed =>
      rw [hfreed]
      rw [if_neg (by omega)] at hbefore ⊢
      omega
  | make hfreed =>
      rw [hfreed]
      rw [if_neg (by omega)] at hbefore ⊢
      omega
  | drop hfreed hpos =>
      rw [hfreed]
      rw [if_neg (by omega)] at hbefore ⊢
      omega
  | last hfreed hzero =>
      rw [hfreed]
      rw [if_neg (by omega)] at hbefore
      rw [if_pos (by omega)]
      omega
  | free hfreed =>
      have hzero : s.sum Pc.holds = 0 := by
        split at hbefore
        · assumption
        · omega
      rw [if_pos hzero] at hbefore
      rw [hfreed, if_pos (by omega)]
      change 1 + _ = 1
      omega

/-- Where the object was not freed, the lock is with those who have it. -/
theorem Inv.locks_step (hs : Inv s) (hi : s.threads[i]? = some t) (hfine : t.pc.Fine s.shared)
    (hstep : Step s.shared t l t' started) (hlive : l.obj.freed = false) :
    l.obj.readers = State.sum Pc.reads ⟨l, s.threads.set i t' ++ started⟩ ∧
      l.obj.writing.toNat = State.sum Pc.writes ⟨l, s.threads.set i t' ++ started⟩ ∧
      (State.sum Pc.writes ⟨l, s.threads.set i t' ++ started⟩ = 0 ∨
        State.sum Pc.reads ⟨l, s.threads.set i t' ++ started⟩ = 0) := by
  have hreads := sum_step Pc.reads hi l t' started
  have hwrites := sum_step Pc.writes hi l t' started
  have hle := le_sum Pc.reads hi
  have hle' := le_sum Pc.writes hi
  have hlocks := hstep.locks hfine
  have hbefore := hs.locks
  generalize t.pc.reads = r at *
  generalize t.pc.writes = w at *
  generalize gain Pc.reads t' started = r' at *
  generalize gain Pc.writes t' started = w' at *
  cases hlocks with
  | quiet hfreed hreaders hwriting =>
      obtain ⟨hr, hw, hone⟩ := hbefore (by rw [← hfreed, hlive])
      rw [hreaders, hwriting]
      omega
  | rlock hfreed hfree hreaders hwriting =>
      obtain ⟨hr, hw, hone⟩ := hbefore (by rw [← hfreed, hlive])
      rw [hfree] at hw hwriting
      change 0 = _ at hw
      rw [hwriting, hreaders]
      change _ ∧ 0 = _ ∧ _
      omega
  | runlock hfreed hreaders hwriting =>
      obtain ⟨hr, hw, hone⟩ := hbefore (by rw [← hfreed, hlive])
      rw [hreaders, hwriting]
      omega
  | wlock _ hfreed hfree hnone hreaders hwriting =>
      obtain ⟨hr, hw, hone⟩ := hbefore (by rw [← hfreed, hlive])
      rw [hfree] at hw
      change 0 = _ at hw
      rw [hreaders, hwriting]
      change _ ∧ 1 = _ ∧ _
      omega
  | wunlock hfreed hreaders hwriting =>
      obtain ⟨hr, hw, hone⟩ := hbefore (by rw [← hfreed, hlive])
      have hw' := Bool.toNat_le s.shared.obj.writing
      rw [hreaders, hwriting]
      change _ ∧ 0 = _ ∧ _
      omega
  | free _ hfreed hone =>
      rw [hfreed] at hlive
      cases hlive

/-- No writer has the lock of an object that was freed. -/
theorem Inv.stale_step (hs : Inv s) (hi : s.threads[i]? = some t) (hfine : t.pc.Fine s.shared)
    (hstep : Step s.shared t l t' started) (hfreed : l.obj.freed = true) :
    State.sum Pc.writes ⟨l, s.threads.set i t' ++ started⟩ = 0 := by
  have hreads := sum_step Pc.reads hi l t' started
  have hwrites := sum_step Pc.writes hi l t' started
  have hle := le_sum Pc.reads hi
  have hlocks := hstep.locks hfine
  have hbefore := hs.locks
  have hstale := hs.stale
  generalize t.pc.reads = r at *
  generalize t.pc.writes = w at *
  generalize gain Pc.reads t' started = r' at *
  generalize gain Pc.writes t' started = w' at *
  cases hlocks with
  | quiet hsame =>
      have hzero := hstale (by rw [← hsame, hfreed])
      omega
  | rlock hsame =>
      have hzero := hstale (by rw [← hsame, hfreed])
      omega
  | runlock hsame =>
      have hzero := hstale (by rw [← hsame, hfreed])
      omega
  | wlock hlive hsame =>
      rw [hsame, hlive] at hfreed
      cases hfreed
  | wunlock hsame =>
      have hzero := hstale (by rw [← hsame, hfreed])
      omega
  | free hlive _ hone =>
      obtain ⟨_, hw, hexcl⟩ := hbefore hlive
      have hle' := Bool.toNat_le s.shared.obj.writing
      omega

theorem Inv.refs_step (hs : Inv s) (hi : s.threads[i]? = some t) (hfine : t.pc.Fine s.shared)
    (hstep : Step s.shared t l t' started) (c : Nat) :
    l.reference c = State.pointer ⟨l, s.threads.set i t' ++ started⟩ c +
      State.sum (Pc.refs c) ⟨l, s.threads.set i t' ++ started⟩ := by
  have hsum := sum_step (Pc.refs c) hi l t' started
  have htaken := sum_step Pc.taken hi l t' started
  have hle := le_sum (Pc.refs c) hi
  have hle' := le_sum Pc.taken hi
  have hone := Nat.le_trans (sum_mono taken_le_owner s) hs.owner_le
  have hbefore := hs.refs c
  have hcounts := hstep.counts hfine c
  have howner : t.pc.owner = 1 → s.sum Pc.taken = t.pc.taken := hs.taken_eq hi
  unfold State.pointer at *
  generalize t.pc.refs c = n at *
  generalize gain (Pc.refs c) t' started = n' at *
  generalize t.pc.taken = k at *
  generalize gain Pc.taken t' started = k' at *
  cases hcounts with
  | quiet hcopy href =>
      have hsame : State.sum Pc.taken ⟨l, s.threads.set i t' ++ started⟩ = s.sum Pc.taken := by
        omega
      rw [hsame, hcopy]
      omega
  | swap hone hcopy href =>
      have hzero := howner hone
      rw [if_pos hzero] at hbefore
      rw [if_pos (by omega), hcopy, href]
      omega
  | take hone hcopy href =>
      have hzero := howner hone
      rw [if_pos hzero] at hbefore
      rw [if_neg (by omega), href]
      omega
  | clear hone hcopy href =>
      have htook := howner hone
      rw [if_neg (by omega)] at hbefore
      rw [if_pos (by omega), hcopy, href, one_none]
      omega

theorem Inv.dead_step (hs : Inv s) (hi : s.threads[i]? = some t) (hfine : t.pc.Fine s.shared)
    (hstep : Step s.shared t l t' started) (c : Nat) :
    (l.dead c).toNat + State.sum (Pc.dropping c) ⟨l, s.threads.set i t' ++ started⟩ =
      if l.reference c = 0 then 1 else 0 := by
  have hsum := sum_step (Pc.dropping c) hi l t' started
  have hbefore := hs.dead c
  have hdrops := hstep.drops hfine (hs.reference_pos hi) c
  generalize t.pc.dropping c = n at *
  generalize gain (Pc.dropping c) t' started = n' at *
  cases hdrops with
  | quiet hdead href =>
      rw [hdead]
      simp only [href]
      omega
  | make hdead hlive hzero hone =>
      rw [hdead, if_pos hzero] at hbefore
      rw [hlive, if_neg (by omega)]
      change 1 + _ = 1 at hbefore
      change 0 + _ = 0
      omega
  | last hdead hone hzero =>
      rw [if_neg hone] at hbefore
      rw [hdead, if_pos hzero]
      omega
  | free hlive hdead href =>
      rw [hlive] at hbefore
      rw [hdead, href]
      change 0 + _ = _ at hbefore
      change 1 + _ = _
      omega

theorem Inv.live (hs : Inv s) (hi : s.threads[i]? = some t) (hholds : 0 < t.pc.holds) :
    s.shared.obj.freed = false := by
  have hle := le_sum Pc.holds hi
  have hfreed := hs.freed
  rw [if_neg (by omega)] at hfreed
  cases hf : s.shared.obj.freed with
  | false => rfl
  | true =>
      rw [hf] at hfreed
      change 1 + _ = 0 at hfreed
      omega

/-- The copy that a thread adds to stays while the thread has the lock. -/
theorem Inv.adds_step (hs : Inv s) (hi : s.threads[i]? = some t)
    (hstep : Step s.shared t l t' started) :
    ∀ u ∈ s.threads.set i t' ++ started, ∀ last ret, u.pc = .copyAdd last ret →
      l.obj.copy = some ret := by
  intro u hu last ret hpc
  cases List.mem_append.mp hu with
  | inr hnew =>
      rw [hstep.begins u hnew] at hpc
      cases hpc
  | inl hset =>
      obtain rfl | ⟨j, hji, hj⟩ := mem_set_cases hset
      · exact hstep.adds hpc
      · have hcopy := hs.adds u (List.mem_of_getElem? hj) last ret hpc
        obtain hsame | hwrites := hstep.copy
        · rw [hsame, hcopy]
        · have hlive := hs.live hj (by rw [hpc]; exact Nat.one_pos)
          have hreads := le_sum Pc.reads hj
          have hwriting := le_sum Pc.writes hi
          have hone : u.pc.reads = 1 := by rw [hpc]; rfl
          obtain ⟨_, _, hexcl⟩ := hs.locks hlive
          omega

theorem Inv.step (hs : Inv s) (hi : s.threads[i]? = some t) (hfine : t.pc.Fine s.shared)
    (hstep : Step s.shared t l t' started) : Inv ⟨l, s.threads.set i t' ++ started⟩ where
  reference := hs.reference_step hi hstep
  owner := hs.owner_step hi hstep
  freed := hs.freed_step hi hstep
  locks := hs.locks_step hi hfine hstep
  stale := hs.stale_step hi hfine hstep
  refs := hs.refs_step hi hfine hstep
  dead := hs.dead_step hi hfine hstep
  adds := hs.adds_step hi hstep

theorem start_inv (msg : List UInt8) : Inv (start msg) where
  reference := rfl
  owner := rfl
  freed := rfl
  locks := fun _ => ⟨rfl, rfl, .inl rfl⟩
  stale := nofun
  refs := by
    intro c
    cases c with
    | zero => rfl
    | succ c => rfl
  dead := by
    intro c
    cases c with
    | zero => rfl
    | succ c => rfl
  adds := by
    intro t ht last ret hpc
    rw [List.mem_singleton.mp ht] at hpc
    cases hpc

theorem Run.inv {P : State → Prop} (hrun : Run P s) : Inv s := by
  induction hrun with
  | start msg => exact start_inv msg
  | step hrun hi hfine hstep hp ih => exact ih.step hi hfine hstep

end Invariant

/-! ## What the next step may use -/

section Use

variable {s : State} {t : Thread} {i : Nat}

/-- Who uses the object has a reference or the lock for writing, frees it, or is the reader that
unlocks it behind its last use. -/
theorem uses_cases {pc : Pc} (h : pc.usesObject) :
    0 < pc.holds ∨ 0 < pc.writes ∨ 0 < pc.freeing ∨ ∃ last, pc = .deleteUnlock last := by
  cases pc with
  | writer => cases h
  | reader last => cases h
  | copyAdd last ret => cases h
  | hand c => cases h
  | sub c after => cases h
  | free c after => cases h
  | gone => cases h
  | releaseUnlock => exact .inr (.inl Nat.one_pos)
  | releaseFree => exact .inr (.inl Nat.one_pos)
  | deleteFree last => exact .inr (.inr (.inl Nat.one_pos))
  | deleteUnlock last => exact .inr (.inr (.inr ⟨last, rfl⟩))
  | grabUnlock => exact .inl Nat.two_pos
  | _ => exact .inl Nat.one_pos

theorem Inv.object (hs : Inv s) (hi : s.threads[i]? = some t) (huse : t.pc.usesObject)
    (hlast : ∀ last, t.pc ≠ .deleteUnlock last) : s.shared.obj.freed = false := by
  obtain hholds | hwrites | hfreeing | ⟨last, hpc⟩ := uses_cases huse
  · exact hs.live hi hholds
  · have hle := le_sum Pc.writes hi
    by_contra hfreed
    have hstale := hs.stale (by simpa using hfreed)
    omega
  · have hle := le_sum Pc.freeing hi
    have hfreed := hs.freed
    cases hf : s.shared.obj.freed with
    | false => rfl
    | true =>
        rw [hf] at hfreed
        change 1 + _ = _ at hfreed
        split at hfreed <;> omega
  · exact absurd hpc (hlast last)

theorem Inv.copy_live (hs : Inv s) {c : Nat} (href : 0 < s.shared.reference c) :
    s.shared.dead c = false := by
  have hdead := hs.dead c
  rw [if_neg (by omega)] at hdead
  cases hd : s.shared.dead c with
  | false => rfl
  | true =>
      rw [hd] at hdead
      change 1 + _ = 0 at hdead
      omega

/-- The copy of the object has a reference while a reader has the lock. -/
theorem Inv.loaded (hs : Inv s) (hi : s.threads[i]? = some t) {last : Option Nat} {ret : Nat}
    (hpc : t.pc = .copyAdd last ret) : 0 < s.shared.reference ret := by
  have hcopy := hs.adds t (List.mem_of_getElem? hi) last ret hpc
  have hlive := hs.live hi (by rw [hpc]; exact Nat.one_pos)
  have hreads := le_sum Pc.reads hi
  have hone : t.pc.reads = 1 := by rw [hpc]; rfl
  have htaken := sum_mono taken_le_writes s
  have hrefs := hs.refs ret
  obtain ⟨_, _, hexcl⟩ := hs.locks hlive
  rw [State.pointer, if_pos (by omega), hcopy, one_self] at hrefs
  omega

theorem Inv.copy (hs : Inv s) (hi : s.threads[i]? = some t) {c : Nat} (huse : t.pc.copy = some c) :
    s.shared.dead c = false := by
  have hof : ∀ pc, t.pc = pc → pc.copy = some c → s.shared.dead c = false := by
    intro pc hpc huse
    cases pc with
    | copyAdd last ret =>
        cases huse
        exact hs.copy_live (hs.loaded hi hpc)
    | hand d =>
        cases huse
        refine hs.copy_live (hs.reference_pos hi c ?_)
        rw [hpc, Pc.refs, one_self]
        exact Nat.one_pos
    | sub d after =>
        cases huse
        refine hs.copy_live (hs.reference_pos hi c ?_)
        rw [hpc, Pc.refs, one_self]
        omega
    | free d after =>
        cases huse
        have hle := le_sum (Pc.dropping c) hi
        have hdead := hs.dead c
        rw [hpc, Pc.dropping, one_self] at hle
        cases hd : s.shared.dead c with
        | false => rfl
        | true =>
            rw [hd] at hdead
            change 1 + _ = _ at hdead
            split at hdead <;> omega
    | _ => cases huse
  exact hof t.pc rfl huse

theorem Inv.asserts (hs : Inv s) (hi : s.threads[i]? = some t) : t.pc.asserts s.shared := by
  have hof : ∀ pc, t.pc = pc → pc.asserts s.shared := by
    intro pc hpc
    cases pc with
    | releaseAssert => exact hs.has_copy hi (by rw [hpc]; exact Nat.one_pos)
    | grabAdd =>
        have hle := le_sum Pc.holds hi
        have href := hs.reference
        rw [hpc] at hle
        change 1 ≤ _ at hle
        change _ > _
        omega
    | copyAdd last ret => exact hs.loaded hi hpc
    | deleteFree last =>
        have hle := le_sum Pc.freeing hi
        have hfreed := hs.freed
        have howner := hs.owner
        have hholds := sum_mono owner_le_holds s
        rw [hpc] at hle
        change 1 ≤ _ at hle
        change s.shared.obj.copy = none
        by_contra hcopy
        rw [if_neg hcopy] at howner
        rw [if_neg (by omega)] at hfreed
        omega
    | _ => trivial
  exact hof t.pc rfl

/-- The next step of a thread is fine, but for the unlock of a reader whose object another reader
freed. -/
theorem Inv.fine (hs : Inv s) (hi : s.threads[i]? = some t)
    (hlast : ∀ last, t.pc = .deleteUnlock last → s.shared.obj.freed = false) :
    t.pc.Fine s.shared where
  object := by
    intro huse
    by_cases hpc : ∃ last, t.pc = .deleteUnlock last
    · obtain ⟨last, hpc⟩ := hpc
      exact hlast last hpc
    · exact hs.object hi huse fun last heq => hpc ⟨last, heq⟩
  copy := fun _ => hs.copy hi
  asserts := hs.asserts hi

end Use

/-! ## Readers that end one at a time -/

/-- In `stm_releasereader`, with the lock. -/
def Pc.deleting : Pc → Nat
  | .deleteSub _ | .deleteUnlock _ | .deleteFree _ => 1
  | _ => 0

def Pc.unlocking : Pc → Nat
  | .deleteUnlock _ => 1
  | _ => 0

/-- No two readers are in `stm_releasereader` with the lock. -/
def State.Alone (s : State) : Prop := s.sum Pc.deleting ≤ 1

instance (s : State) : Decidable s.Alone := inferInstanceAs (Decidable (_ ≤ _))

section Alone

variable {s : State} {l : Shared} {t t' : Thread} {i : Nat} {started : List Thread}

theorem unlocking_le_deleting (pc : Pc) : pc.unlocking ≤ pc.deleting := by
  cases pc <;> simp [Pc.unlocking, Pc.deleting]

theorem unlocking_le_reads (pc : Pc) : pc.unlocking ≤ pc.reads := by
  cases pc <;> simp [Pc.unlocking, Pc.reads]

@[simp] theorem unlocking_pc (after : After) : after.pc.unlocking = 0 := by
  cases after with
  | read ret => cases ret <;> rfl
  | _ => rfl

@[simp] theorem unlocking_releasecopy (copy : Option Nat) (after : After) :
    (releasecopy copy after).unlocking = 0 := by
  rw [of_releasecopy copy after Pc.unlocking fun _ => (unlocking_pc after).symm, unlocking_pc]

/-- A reader comes to its unlock through its use of the object. -/
theorem Step.unlocking {s : Shared} (h : Step s t l t' started) (hfine : t.pc.Fine s) :
    gain Pc.unlocking t' started ≤ t.pc.unlocking ∨ s.obj.freed = false := by
  cases h with
  | deleteSub => exact .inr (hfine.object trivial)
  | updateUnlock =>
      rw [gain_nil, unlocking_releasecopy]
      exact .inl (Nat.zero_le _)
  | releaseCopy =>
      rw [gain_nil, unlocking_releasecopy]
      exact .inl (Nat.zero_le _)
  | deleteUnlock =>
      rw [gain_nil, unlocking_releasecopy]
      exact .inl (Nat.zero_le _)
  | deleteFree =>
      rw [gain_nil, unlocking_releasecopy]
      exact .inl (Nat.zero_le _)
  | free =>
      rw [gain_nil, unlocking_pc]
      exact .inl (Nat.zero_le _)
  | releaseSub =>
      rw [gain_nil]
      split
      · exact .inl (Nat.zero_le _)
      · exact .inl (Nat.zero_le _)
  | copyUnlock =>
      rw [gain_nil]
      split
      · rw [unlocking_releasecopy]
        exact .inl (Nat.zero_le _)
      · rw [unlocking_releasecopy]
        exact .inl (Nat.zero_le _)
  | sub =>
      rw [gain_nil]
      split
      · exact .inl (Nat.zero_le _)
      · rw [unlocking_pc]
        exact .inl (Nat.zero_le _)
  | _ => exact .inl (Nat.le_refl _)

/-- Who frees the object has the lock alone, or ends as a reader. -/
theorem Step.frees_cases {s : Shared} (h : Step s t l t' started) :
    l.obj.freed = s.obj.freed ∨ gain Pc.unlocking t' started = 0 ∧ t.pc.unlocking = 0 ∧
      (t.pc.writes = 1 ∨ t.pc.deleting = 1) := by
  cases h with
  | releaseFree => exact .inr ⟨rfl, rfl, .inl rfl⟩
  | deleteFree =>
      rw [gain_nil, unlocking_releasecopy]
      exact .inr ⟨rfl, rfl, .inr rfl⟩
  | _ => exact .inl rfl

theorem Run.alone (hrun : Run State.Alone s) : s.Alone := by
  cases hrun with
  | start msg => exact Nat.zero_le _
  | step hrun hi hfine hstep hp => exact hp

theorem Inv.no_unlock_step (hs : Inv s) (halone : s.Alone)
    (hnone : s.shared.obj.freed = true → s.sum Pc.unlocking = 0) (hi : s.threads[i]? = some t)
    (hfine : t.pc.Fine s.shared) (hstep : Step s.shared t l t' started)
    (hfreed : l.obj.freed = true) :
    State.sum Pc.unlocking ⟨l, s.threads.set i t' ++ started⟩ = 0 := by
  have hsum := sum_step Pc.unlocking hi l t' started
  have hle := le_sum Pc.unlocking hi
  cases hf : s.shared.obj.freed with
  | true =>
      have hzero := hnone hf
      obtain hgain | hlive := hstep.unlocking hfine
      · omega
      · rw [hf] at hlive
        cases hlive
  | false =>
      obtain hsame | ⟨hgain, ht, hwrites | hdeleting⟩ := hstep.frees_cases
      · rw [hsame, hf] at hfreed
        cases hfreed
      · have hwriting := le_sum Pc.writes hi
        have hreads := sum_mono unlocking_le_reads s
        obtain ⟨_, _, hexcl⟩ := hs.locks hf
        omega
      · have hothers := sum_mono_at unlocking_le_deleting hi
        unfold State.Alone at halone
        omega

theorem Run.no_unlock (hrun : Run State.Alone s) (hfreed : s.shared.obj.freed = true) :
    s.sum Pc.unlocking = 0 := by
  induction hrun with
  | start msg => cases hfreed
  | step hrun hi hfine hstep hp ih =>
      exact hrun.inv.no_unlock_step hrun.alone ih hi hfine hstep hfreed

theorem Run.fine (hrun : Run State.Alone s) (hi : s.threads[i]? = some t) :
    t.pc.Fine s.shared := by
  refine hrun.inv.fine hi fun last hpc => ?_
  by_contra hfreed
  have hnone := hrun.no_unlock (by simpa using hfreed)
  have hle := le_sum Pc.unlocking hi
  rw [hpc] at hle
  change 1 ≤ _ at hle
  omega

end Alone

/-! ## The unlock of an object that was freed -/

section Overtaken

variable {P : State → Prop} {s : State} {t t' : Thread} {i : Nat} {l : Shared}
  {started : List Thread}

/-- A step that is fine because of where its thread stands. -/
theorem Run.go (hrun : Run (fun _ => True) s) (i : Nat) (hi : s.threads[i]? = some t)
    (hpc : ∀ last, t.pc ≠ .deleteUnlock last) (hstep : Step s.shared t l t' started) :
    Run (fun _ => True) ⟨l, s.threads.set i t' ++ started⟩ :=
  .step hrun hi (hrun.inv.fine hi fun last heq => absurd heq (hpc last)) hstep trivial

theorem sum_eq_zero {f : Pc → Nat} (hf : f .gone = 0) (hgone : ∀ t ∈ s.threads, t.pc = .gone) :
    s.sum f = 0 := by
  by_contra hpos
  obtain ⟨t, ht, hft⟩ := exists_of_total_pos (Nat.pos_of_ne_zero hpos)
  rw [hgone t ht, hf] at hft
  cases hft

theorem Run.turn (hrun : Run State.Alone s) (i : Nat) (hi : s.threads[i]? = some t)
    (hstep : Step s.shared t l t' started)
    (halone : State.Alone ⟨l, s.threads.set i t' ++ started⟩) :
    Run State.Alone ⟨l, s.threads.set i t' ++ started⟩ :=
  .step hrun hi (hrun.fine hi) hstep halone

/-- A reader reads, the writer writes again, the reader reads again, and both end. -/
theorem exists_ended : ∃ s, Run State.Alone s ∧
    s.threads = [⟨.gone, []⟩, ⟨.gone, [[7], [8]]⟩] := by
  have h := Run.start (P := State.Alone) [7]
  have h := h.turn 0 rfl .lcopy (by decide)
  have h := h.turn 0 rfl (.grabLock rfl) (by decide)
  have h := h.turn 0 rfl .grabAdd (by decide)
  have h := h.turn 0 rfl .grabUnlock (by decide)
  have h := h.turn 1 rfl .lread (by decide)
  have h := h.turn 1 rfl (.copyLock rfl) (by decide)
  have h := h.turn 1 rfl (.copyLoadSome rfl) (by decide)
  have h := h.turn 0 rfl (.lupdate [8]) (by decide)
  have h := h.turn 1 rfl .copyAdd (by decide)
  have h := h.turn 1 rfl .copyUnlock (by decide)
  have h := h.turn 1 rfl (.hand rfl) (by decide)
  have h := h.turn 0 rfl (.updateLock rfl rfl) (by decide)
  have h := h.turn 0 rfl .updateSwap (by decide)
  have h := h.turn 0 rfl .updateUnlock (by decide)
  have h := h.turn 0 rfl .sub (by decide)
  have h := h.turn 1 rfl .lread (by decide)
  have h := h.turn 1 rfl (.copyLock rfl) (by decide)
  have h := h.turn 1 rfl (.copyLoadSome rfl) (by decide)
  have h := h.turn 1 rfl .copyAdd (by decide)
  have h := h.turn 1 rfl .copyUnlock (by decide)
  have h := h.turn 1 rfl .sub (by decide)
  have h := h.turn 1 rfl .free (by decide)
  have h := h.turn 1 rfl (.hand rfl) (by decide)
  have h := h.turn 0 rfl .ldeletewriter (by decide)
  have h := h.turn 0 rfl .releaseAssert (by decide)
  have h := h.turn 0 rfl (.releaseLock rfl rfl) (by decide)
  have h := h.turn 0 rfl .releaseCopy (by decide)
  have h := h.turn 0 rfl .sub (by decide)
  have h := h.turn 0 rfl .clear (by decide)
  have h := h.turn 0 rfl .releaseSub (by decide)
  have h := h.turn 0 rfl .releaseUnlock (by decide)
  have h := h.turn 1 rfl .ldeletereader (by decide)
  have h := h.turn 1 rfl (.deleteLock rfl) (by decide)
  have h := h.turn 1 rfl .deleteSub (by decide)
  have h := h.turn 1 rfl .deleteFree (by decide)
  have h := h.turn 1 rfl .sub (by decide)
  have h := h.turn 1 rfl .free (by decide)
  exact ⟨_, h, rfl⟩

end Overtaken

end Jump.Skynet.Stm
