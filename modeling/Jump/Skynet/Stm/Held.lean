import Jump.Skynet.Stm.Code
import Mathlib.Tactic.Ring

/-! # What the threads of an object hold

Each counter is a sum over the threads. A step changes it by what it changes in its thread.
-/

namespace Jump.Skynet.Stm

open Jump.Core.Threads

/-! ## What a thread holds -/

def After.holds : After → Nat
  | .gone => 0
  | _ => 1

/-- References to the object. -/
def Pc.holds : Pc → Nat
  | .grabUnlock => 2
  | .releaseUnlock | .releaseFree | .deleteUnlock _ | .deleteFree _ | .gone => 0
  | .sub _ after | .free _ after => after.holds
  | _ => 1

def After.owner : After → Nat
  | .writer | .clear => 1
  | _ => 0

/-- The writer, as long as the object has its copy. -/
def Pc.owner : Pc → Nat
  | .writer | .grabLock | .grabAdd | .grabUnlock | .updateLock _ | .updateSwap _ | .updateUnlock _
  | .releaseAssert | .releaseLock | .releaseCopy | .clear => 1
  | .sub _ after | .free _ after => after.owner
  | _ => 0

/-- The lock, for reading. -/
def Pc.reads : Pc → Nat
  | .grabAdd | .grabUnlock | .copyLoad _ | .copyAdd _ _ | .copyUnlock _ _ | .deleteSub _
  | .deleteUnlock _ | .deleteFree _ => 1
  | _ => 0

def After.taken : After → Nat
  | .clear => 1
  | _ => 0

/-- The reference of the object to its copy, which `stm_release` drops before it clears it. -/
def Pc.taken : Pc → Nat
  | .clear => 1
  | .sub _ after | .free _ after => after.taken
  | _ => 0

/-- The lock, for writing. -/
def Pc.writes : Pc → Nat
  | .updateSwap _ | .updateUnlock _ | .releaseCopy | .clear | .releaseSub | .releaseUnlock
  | .releaseFree => 1
  | .sub _ after | .free _ after => after.taken
  | _ => 0

/-- The object, to free it. -/
def Pc.freeing : Pc → Nat
  | .releaseFree | .deleteFree _ => 1
  | _ => 0

def one (copy : Option Nat) (c : Nat) : Nat := if copy = some c then 1 else 0

def After.refs (c : Nat) : After → Nat
  | .reader last => one last c
  | .read ret => one ret c
  | _ => 0

/-- References to the copy `c`. -/
def Pc.refs (c : Nat) : Pc → Nat
  | .updateLock d | .updateSwap d => one (some d) c
  | .updateUnlock oldcopy => one oldcopy c
  | .reader last | .copyLock last | .copyLoad last | .copyAdd last _ => one last c
  | .copyUnlock last ret => one last c + one ret c
  | .hand d => one (some d) c
  | .deleteLock last | .deleteSub last | .deleteUnlock last | .deleteFree last => one last c
  | .sub d after => one (some d) c + after.refs c
  | .free _ after => after.refs c
  | _ => 0

/-- The copy `c`, to free it. -/
def Pc.dropping (c : Nat) : Pc → Nat
  | .free d _ => one (some d) c
  | _ => 0

def State.sum (f : Pc → Nat) (s : State) : Nat := total (fun t => f t.pc) s.threads

/-- The reference that the object has to its copy. -/
def State.pointer (s : State) (c : Nat) : Nat :=
  if s.sum Pc.taken = 0 then one s.shared.obj.copy c else 0

section Sums

variable {s : State} {l l' : Shared} {t t' : Thread} {i : Nat} {started : List Thread}
  {f g : Pc → Nat}

/-- What a step leaves of `f`, in the thread and in the reader that it starts. -/
def gain (f : Pc → Nat) (t : Thread) (started : List Thread) : Nat :=
  f t.pc + total (fun u => f u.pc) started

theorem sum_step (f : Pc → Nat) (hi : s.threads[i]? = some t) (l : Shared) (t' : Thread)
    (started : List Thread) :
    State.sum f ⟨l, s.threads.set i t' ++ started⟩ + f t.pc = s.sum f + gain f t' started := by
  have hset := total_set (fun u : Thread => f u.pc) hi t'
  have happ : State.sum f ⟨l, s.threads.set i t' ++ started⟩ =
      total (fun u => f u.pc) (s.threads.set i t') + total (fun u => f u.pc) started := by
    simp [State.sum, total]
  unfold gain State.sum at *
  omega

theorem le_sum (f : Pc → Nat) (hi : s.threads[i]? = some t) : f t.pc ≤ s.sum f :=
  le_total_of_getElem (fun u : Thread => f u.pc) hi

theorem sum_mono (h : ∀ pc, f pc ≤ g pc) (s : State) : s.sum f ≤ s.sum g :=
  total_mono (f := fun u : Thread => f u.pc) (fun u => h u.pc) s.threads

theorem sum_mono_at (h : ∀ pc, f pc ≤ g pc) (hi : s.threads[i]? = some t) :
    s.sum f + g t.pc ≤ s.sum g + f t.pc :=
  total_mono_at (f := fun u : Thread => f u.pc) (g := fun u : Thread => g u.pc)
    (fun u => h u.pc) hi

@[simp] theorem gain_nil (f : Pc → Nat) (t : Thread) : gain f t [] = f t.pc := rfl

@[simp] theorem gain_one (f : Pc → Nat) (t u : Thread) : gain f t [u] = f t.pc + f u.pc := rfl

end Sums

/-! ## The continuations -/

section Continuations

variable (copy : Option Nat) (after : After) (c : Nat)

@[simp] theorem holds_pc : after.pc.holds = after.holds := by
  cases after with
  | read ret => cases ret <;> rfl
  | _ => rfl

@[simp] theorem owner_pc : after.pc.owner = after.owner := by
  cases after with
  | read ret => cases ret <;> rfl
  | _ => rfl

@[simp] theorem reads_pc : after.pc.reads = 0 := by
  cases after with
  | read ret => cases ret <;> rfl
  | _ => rfl

@[simp] theorem taken_pc : after.pc.taken = after.taken := by
  cases after with
  | read ret => cases ret <;> rfl
  | _ => rfl

@[simp] theorem writes_pc : after.pc.writes = after.taken := by
  cases after with
  | read ret => cases ret <;> rfl
  | _ => rfl

@[simp] theorem freeing_pc : after.pc.freeing = 0 := by
  cases after with
  | read ret => cases ret <;> rfl
  | _ => rfl

@[simp] theorem one_none : one none c = 0 := rfl

@[simp] theorem refs_pc : after.pc.refs c = after.refs c := by
  cases after with
  | read ret => cases ret <;> rfl
  | _ => rfl

@[simp] theorem dropping_pc : after.pc.dropping c = 0 := by
  cases after with
  | read ret => cases ret <;> rfl
  | _ => rfl

/-- Where a copy makes no difference. -/
theorem of_releasecopy (f : Pc → Nat) (h : ∀ d, f (.sub d after) = f after.pc) :
    f (releasecopy copy after) = f after.pc := by
  cases copy with
  | none => rfl
  | some d => exact h d

@[simp] theorem holds_releasecopy : (releasecopy copy after).holds = after.holds := by
  rw [of_releasecopy copy after Pc.holds fun _ => (holds_pc after).symm, holds_pc]

@[simp] theorem owner_releasecopy : (releasecopy copy after).owner = after.owner := by
  rw [of_releasecopy copy after Pc.owner fun _ => (owner_pc after).symm, owner_pc]

@[simp] theorem reads_releasecopy : (releasecopy copy after).reads = 0 := by
  rw [of_releasecopy copy after Pc.reads fun _ => (reads_pc after).symm, reads_pc]

@[simp] theorem taken_releasecopy : (releasecopy copy after).taken = after.taken := by
  rw [of_releasecopy copy after Pc.taken fun _ => (taken_pc after).symm, taken_pc]

@[simp] theorem writes_releasecopy : (releasecopy copy after).writes = after.taken := by
  rw [of_releasecopy copy after Pc.writes fun _ => (writes_pc after).symm, writes_pc]

@[simp] theorem freeing_releasecopy : (releasecopy copy after).freeing = 0 := by
  rw [of_releasecopy copy after Pc.freeing fun _ => (freeing_pc after).symm, freeing_pc]

@[simp] theorem dropping_releasecopy : (releasecopy copy after).dropping c = 0 := by
  rw [of_releasecopy copy after (Pc.dropping c) fun _ => (dropping_pc after c).symm, dropping_pc]

@[simp] theorem refs_releasecopy :
    (releasecopy copy after).refs c = one copy c + after.refs c := by
  cases copy with
  | none => rw [one_none, Nat.zero_add]; exact refs_pc after c
  | some d => rfl

end Continuations

/-! ## The copies -/

section Copies

variable {s : Shared} {c d : Nat}

theorem reference_newcopy (s : Shared) (msg : List UInt8) (c : Nat) :
    (s.newcopy msg).reference c = if c = s.copies.length then 1 else s.reference c := by
  unfold Shared.reference Shared.newcopy
  dsimp only
  rw [List.getElem?_append]
  by_cases hlt : c < s.copies.length
  · rw [if_pos hlt, if_neg (Nat.ne_of_lt hlt)]
  · rw [if_neg hlt, List.getElem?_eq_none (Nat.le_of_not_lt hlt)]
    by_cases heq : c = s.copies.length
    · subst heq
      rw [if_pos rfl, Nat.sub_self]
      rfl
    · rw [if_neg heq, List.getElem?_eq_none (by rw [List.length_singleton]; omega)]

theorem reference_length (s : Shared) : s.reference s.copies.length = 0 := by
  rw [Shared.reference, List.getElem?_eq_none (Nat.le_refl _)]

theorem dead_newcopy (s : Shared) (msg : List UInt8) (c : Nat) :
    (s.newcopy msg).dead c = if c = s.copies.length then false else s.dead c := by
  unfold Shared.dead Shared.newcopy
  dsimp only
  rw [List.getElem?_append]
  by_cases hlt : c < s.copies.length
  · rw [if_pos hlt, if_neg (Nat.ne_of_lt hlt)]
  · rw [if_neg hlt, List.getElem?_eq_none (Nat.le_of_not_lt hlt)]
    by_cases heq : c = s.copies.length
    · subst heq
      rw [if_pos rfl, Nat.sub_self]
      rfl
    · rw [if_neg heq, List.getElem?_eq_none (by rw [List.length_singleton]; omega)]

theorem getElem?_modify (copies : List Copy) (f : Copy → Copy) (d c : Nat) :
    (copies.modify d f)[c]? = if c = d then copies[c]?.map f else copies[c]? := by
  by_cases heq : c = d
  · rw [if_pos heq, heq]
    exact List.getElem?_modify_eq ..
  · rw [if_neg heq]
    exact List.getElem?_modify_ne f copies (Ne.symm heq)

theorem reference_addCopy (hlive : s.dead d = false) (n : Int) (c : Nat) :
    (s.addCopy d n).reference c = if c = d then s.reference c + n else s.reference c := by
  unfold Shared.reference Shared.addCopy
  dsimp only
  rw [getElem?_modify]
  by_cases heq : c = d
  · rw [if_pos heq, if_pos heq, heq]
    unfold Shared.dead at hlive
    cases hk : s.copies[d]? with
    | none =>
        rw [hk] at hlive
        cases hlive
    | some k => rfl
  · rw [if_neg heq, if_neg heq]

theorem dead_addCopy (s : Shared) (d : Nat) (n : Int) (c : Nat) :
    (s.addCopy d n).dead c = s.dead c := by
  unfold Shared.dead Shared.addCopy
  dsimp only
  rw [getElem?_modify]
  by_cases heq : c = d
  · rw [if_pos heq]
    cases s.copies[c]? with
    | none => rfl
    | some k => rfl
  · rw [if_neg heq]

theorem reference_freeCopy (s : Shared) (d c : Nat) :
    (s.freeCopy d).reference c = s.reference c := by
  unfold Shared.reference Shared.freeCopy
  dsimp only
  rw [getElem?_modify]
  by_cases heq : c = d
  · rw [if_pos heq]
    cases s.copies[c]? with
    | none => rfl
    | some k => rfl
  · rw [if_neg heq]

theorem dead_freeCopy (s : Shared) (d c : Nat) :
    (s.freeCopy d).dead c = if c = d then true else s.dead c := by
  unfold Shared.dead Shared.freeCopy
  dsimp only
  rw [getElem?_modify]
  by_cases heq : c = d
  · rw [if_pos heq, if_pos heq]
    cases s.copies[c]? with
    | none => rfl
    | some k => rfl
  · rw [if_neg heq, if_neg heq]

theorem one_self (d : Nat) : one (some d) d = 1 := if_pos rfl

theorem one_of_ne (h : c ≠ d) : one (some d) c = 0 :=
  if_neg fun heq => h (Option.some.inj heq).symm

end Copies

/-! ## What a step does -/

section Steps

variable {s l : Shared} {t t' : Thread} {started : List Thread}

/-- The counter of the object goes with what the thread holds. -/
theorem Step.holds (h : Step s t l t' started) :
    l.obj.reference + t.pc.holds = s.obj.reference + (gain Pc.holds t' started : Nat) := by
  cases h with
  | grabAdd =>
      simp only [gain_nil, Pc.holds, Shared.addReference]
      omega
  | releaseSub =>
      simp only [gain_nil, Shared.addReference]
      split <;> simp [Pc.holds]
  | deleteSub =>
      simp only [gain_nil, Shared.addReference]
      split <;> simp [Pc.holds]
  | copyUnlock =>
      simp only [gain_nil, Shared.runlock]
      split
      · rw [holds_releasecopy]
        rfl
      · rw [holds_releasecopy]
        rfl
  | sub =>
      simp only [gain_nil, Shared.addCopy]
      split
      · rfl
      · rw [holds_pc]
        rfl
  | updateUnlock =>
      rw [gain_nil, holds_releasecopy]
      rfl
  | releaseCopy =>
      rw [gain_nil, holds_releasecopy]
      rfl
  | deleteUnlock =>
      rw [gain_nil, holds_releasecopy]
      rfl
  | deleteFree =>
      rw [gain_nil, holds_releasecopy]
      rfl
  | free =>
      rw [gain_nil, holds_pc]
      rfl
  | _ => rfl

/-- There is an owner as long as there is a copy. -/
theorem Step.owner (h : Step s t l t' started)
    (hwriter : 0 < t.pc.owner → s.obj.copy ≠ none) :
    gain Pc.owner t' started + (if s.obj.copy = none then 0 else 1) =
      t.pc.owner + if l.obj.copy = none then 0 else 1 := by
  cases h with
  | updateSwap =>
      rw [if_neg (hwriter Nat.one_pos)]
      rfl
  | clear =>
      rw [if_neg (hwriter Nat.one_pos)]
      rfl
  | releaseSub =>
      rw [gain_nil]
      split <;> rfl
  | deleteSub =>
      rw [gain_nil]
      split <;> rfl
  | copyUnlock =>
      rw [gain_nil]
      split
      · rw [owner_releasecopy]
        rfl
      · rw [owner_releasecopy]
        rfl
  | sub =>
      rw [gain_nil]
      split
      · rfl
      · rw [owner_pc]
        rfl
  | updateUnlock =>
      rw [gain_nil, owner_releasecopy]
      rfl
  | releaseCopy =>
      rw [gain_nil, owner_releasecopy]
      rfl
  | deleteUnlock =>
      rw [gain_nil, owner_releasecopy]
      rfl
  | deleteFree =>
      rw [gain_nil, owner_releasecopy]
      rfl
  | free =>
      rw [gain_nil, owner_pc]
      rfl
  | _ => rfl

/-- What a step does to the lock, and to what the thread has of it. -/
inductive Locks (o o' : Object) : Nat → Nat → Nat → Nat → Prop
  | quiet {r w} (hfreed : o'.freed = o.freed) (hreaders : o'.readers = o.readers)
      (hwriting : o'.writing = o.writing) : Locks o o' r w r w
  | rlock {r w} (hfreed : o'.freed = o.freed) (hfree : o.writing = false)
      (hreaders : o'.readers = o.readers + 1) (hwriting : o'.writing = o.writing) :
      Locks o o' r w (r + 1) w
  | runlock {r w} (hfreed : o'.freed = o.freed) (hreaders : o'.readers = o.readers - 1)
      (hwriting : o'.writing = o.writing) : Locks o o' (r + 1) w r w
  | wlock {r w} (hlive : o.freed = false) (hfreed : o'.freed = o.freed) (hfree : o.writing = false)
      (hnone : o.readers = 0) (hreaders : o'.readers = o.readers)
      (hwriting : o'.writing = true) : Locks o o' r w r (w + 1)
  | wunlock {r w} (hfreed : o'.freed = o.freed) (hreaders : o'.readers = o.readers)
      (hwriting : o'.writing = false) : Locks o o' r (w + 1) r w
  | free {r w} (hlive : o.freed = false) (hfreed : o'.freed = true) (hone : r + w = 1) :
      Locks o o' r w 0 0

theorem Step.locks (h : Step s t l t' started) (hfine : t.pc.Fine s) :
    Locks s.obj l.obj t.pc.reads t.pc.writes (gain Pc.reads t' started)
      (gain Pc.writes t' started) := by
  cases h with
  | grabLock hfree => exact .rlock rfl hfree rfl rfl
  | copyLock hfree => exact .rlock rfl hfree rfl rfl
  | deleteLock hfree => exact .rlock rfl hfree rfl rfl
  | updateLock hfree hnone => exact .wlock (hfine.object trivial) rfl hfree hnone rfl rfl
  | releaseLock hfree hnone => exact .wlock (hfine.object trivial) rfl hfree hnone rfl rfl
  | grabUnlock => exact .runlock rfl rfl rfl
  | copyUnlock =>
      rw [gain_nil, gain_nil]
      split
      · rw [reads_releasecopy, writes_releasecopy]
        exact .runlock rfl rfl rfl
      · rw [reads_releasecopy, writes_releasecopy]
        exact .runlock rfl rfl rfl
  | deleteUnlock =>
      rw [gain_nil, gain_nil, reads_releasecopy, writes_releasecopy]
      exact .runlock rfl rfl rfl
  | updateUnlock =>
      rw [gain_nil, gain_nil, reads_releasecopy, writes_releasecopy]
      exact .wunlock rfl rfl rfl
  | releaseUnlock => exact .wunlock rfl rfl rfl
  | releaseFree => exact .free (hfine.object trivial) rfl rfl
  | deleteFree =>
      rw [gain_nil, gain_nil, reads_releasecopy, writes_releasecopy]
      exact .free (hfine.object trivial) rfl rfl
  | releaseCopy =>
      rw [gain_nil, gain_nil, reads_releasecopy, writes_releasecopy]
      exact .quiet rfl rfl rfl
  | releaseSub =>
      rw [gain_nil, gain_nil]
      split
      · exact .quiet rfl rfl rfl
      · exact .quiet rfl rfl rfl
  | deleteSub =>
      rw [gain_nil, gain_nil]
      split
      · exact .quiet rfl rfl rfl
      · exact .quiet rfl rfl rfl
  | sub =>
      rw [gain_nil, gain_nil]
      split
      · exact .quiet rfl rfl rfl
      · rw [reads_pc, writes_pc]
        exact .quiet rfl rfl rfl
  | free =>
      rw [gain_nil, gain_nil, reads_pc, writes_pc]
      exact .quiet rfl rfl rfl
  | _ => exact .quiet rfl rfl rfl

/-- Who drops the last reference frees the object. -/
inductive Frees (o o' : Object) : Nat → Nat → Nat → Nat → Prop
  | quiet {h f} (hfreed : o'.freed = o.freed) : Frees o o' h f h f
  | add {f} (hfreed : o'.freed = o.freed) : Frees o o' 1 f 2 f
  | make {f} (hfreed : o'.freed = o.freed) : Frees o o' 2 f 2 f
  | drop (hfreed : o'.freed = o.freed) (hpos : 0 < o'.reference) : Frees o o' 1 0 0 0
  | last (hfreed : o'.freed = o.freed) (hzero : o'.reference = 0) : Frees o o' 1 0 0 1
  | free (hfreed : o'.freed = true) : Frees o o' 0 1 0 0

theorem Step.frees (h : Step s t l t' started) (href : (t.pc.holds : Int) ≤ s.obj.reference) :
    Frees s.obj l.obj t.pc.holds t.pc.freeing (gain Pc.holds t' started)
      (gain Pc.freeing t' started) := by
  cases h with
  | grabAdd => exact .add rfl
  | grabUnlock => exact .make rfl
  | releaseSub =>
      have hone : 1 ≤ s.obj.reference := href
      rw [gain_nil, gain_nil]
      split
      · exact .drop rfl ‹_›
      · refine .last rfl ?_
        simp only [Shared.addReference]
        omega
  | deleteSub =>
      have hone : 1 ≤ s.obj.reference := href
      rw [gain_nil, gain_nil]
      split
      · exact .last rfl ‹_›
      · refine .drop rfl ?_
        simp only [Shared.addReference]
        omega
  | releaseFree => exact .free rfl
  | deleteFree =>
      rw [gain_nil, gain_nil, holds_releasecopy, freeing_releasecopy]
      exact .free rfl
  | copyUnlock =>
      rw [gain_nil, gain_nil]
      split
      · rw [holds_releasecopy, freeing_releasecopy]
        exact .quiet rfl
      · rw [holds_releasecopy, freeing_releasecopy]
        exact .quiet rfl
  | updateUnlock =>
      rw [gain_nil, gain_nil, holds_releasecopy, freeing_releasecopy]
      exact .quiet rfl
  | releaseCopy =>
      rw [gain_nil, gain_nil, holds_releasecopy, freeing_releasecopy]
      exact .quiet rfl
  | deleteUnlock =>
      rw [gain_nil, gain_nil, holds_releasecopy, freeing_releasecopy]
      exact .quiet rfl
  | sub =>
      rw [gain_nil, gain_nil]
      split
      · exact .quiet rfl
      · rw [holds_pc, freeing_pc]
        exact .quiet rfl
  | free =>
      rw [gain_nil, gain_nil, holds_pc, freeing_pc]
      exact .quiet rfl
  | _ => exact .quiet rfl

/-- What a step does to the references of the copy `c`; the numbers are the references of the
thread, and whether it took that of the object, which only the owner does. -/
inductive Counts (s l : Shared) (c owner : Nat) : Nat → Nat → Nat → Nat → Prop
  | quiet {n n' k : Nat} (hcopy : l.obj.copy = s.obj.copy)
      (href : l.reference c + n = s.reference c + n') : Counts s l c owner n n' k k
  | swap {d} (howner : owner = 1) (hcopy : l.obj.copy = some d)
      (href : l.reference c = s.reference c) :
      Counts s l c owner (one (some d) c) (one s.obj.copy c) 0 0
  | take (howner : owner = 1) (hcopy : l.obj.copy = s.obj.copy)
      (href : l.reference c = s.reference c) : Counts s l c owner 0 (one s.obj.copy c) 0 1
  | clear (howner : owner = 1) (hcopy : l.obj.copy = none)
      (href : l.reference c = s.reference c) : Counts s l c owner 0 0 1 0

theorem Step.counts (h : Step s t l t' started) (hfine : t.pc.Fine s) (c : Nat) :
    Counts s l c t.pc.owner (t.pc.refs c) (gain (Pc.refs c) t' started) t.pc.taken
      (gain Pc.taken t' started) := by
  cases h with
  | lupdate msg =>
      refine .quiet rfl ?_
      rw [reference_newcopy]
      by_cases heq : c = s.copies.length
      · rw [if_pos heq, heq, reference_length, gain_nil]
        change (1 : Int) + (0 : Nat) = 0 + one (some s.copies.length) s.copies.length
        rw [one_self]
        rfl
      · rw [if_neg heq, gain_nil]
        change s.reference c + (0 : Nat) = s.reference c + one (some s.copies.length) c
        rw [one_of_ne heq]
  | updateSwap => exact .swap rfl rfl rfl
  | updateUnlock =>
      rw [gain_nil, gain_nil, refs_releasecopy, taken_releasecopy]
      exact .quiet rfl rfl
  | releaseCopy =>
      rw [gain_nil, gain_nil, refs_releasecopy, taken_releasecopy]
      exact .take rfl rfl rfl
  | clear => exact .clear rfl rfl rfl
  | @copyAdd _ last ret =>
      refine .quiet rfl ?_
      rw [reference_addCopy (hfine.copy _ rfl), gain_nil]
      change _ + (one last c : Int) = s.reference c + (one last c + one (some ret) c : Nat)
      by_cases heq : c = ret
      · rw [if_pos heq, heq, one_self]
        push_cast
        ring
      · rw [if_neg heq, one_of_ne heq]
        rfl
  | copyUnlock =>
      rw [gain_nil, gain_nil]
      split
      · rw [refs_releasecopy, taken_releasecopy]
        refine .quiet rfl ?_
        rw [Pc.refs, After.refs, Nat.add_comm]
        rfl
      · rw [refs_releasecopy, taken_releasecopy]
        exact .quiet rfl rfl
  | releaseSub =>
      rw [gain_nil, gain_nil]
      split
      · exact .quiet rfl rfl
      · exact .quiet rfl rfl
  | deleteSub =>
      rw [gain_nil, gain_nil]
      split
      · exact .quiet rfl rfl
      · exact .quiet rfl rfl
  | deleteUnlock =>
      rw [gain_nil, gain_nil, refs_releasecopy, taken_releasecopy]
      exact .quiet rfl rfl
  | deleteFree =>
      rw [gain_nil, gain_nil, refs_releasecopy, taken_releasecopy]
      exact .quiet rfl rfl
  | @sub w d after =>
      have htaken : (if s.reference d + -1 = 0 then Pc.free d after else after.pc).taken =
          after.taken := by
        split
        · rfl
        · exact taken_pc after
      have hrefs : (if s.reference d + -1 = 0 then Pc.free d after else after.pc).refs c =
          after.refs c := by
        split
        · rfl
        · exact refs_pc after c
      rw [gain_nil, gain_nil, htaken, hrefs]
      refine .quiet rfl ?_
      rw [reference_addCopy (hfine.copy _ rfl)]
      by_cases heq : c = d
      · rw [if_pos heq, heq, Pc.refs, one_self]
        push_cast
        ring
      · rw [if_neg heq, Pc.refs, one_of_ne heq, Nat.zero_add]
  | free =>
      rw [gain_nil, gain_nil, refs_pc, taken_pc]
      refine .quiet rfl ?_
      rw [reference_freeCopy]
      rfl
  | _ => exact .quiet rfl rfl

/-- Who drops the last reference to the copy `c` frees it. -/
inductive Drops (s l : Shared) (c : Nat) : Nat → Nat → Prop
  | quiet {n} (hdead : l.dead c = s.dead c) (href : l.reference c = 0 ↔ s.reference c = 0) :
      Drops s l c n n
  | make (hdead : s.dead c = true) (hlive : l.dead c = false) (hzero : s.reference c = 0)
      (hone : l.reference c = 1) : Drops s l c 0 0
  | last (hdead : l.dead c = s.dead c) (hone : s.reference c ≠ 0) (hzero : l.reference c = 0) :
      Drops s l c 0 1
  | free (hlive : s.dead c = false) (hdead : l.dead c = true)
      (href : l.reference c = s.reference c) :
      Drops s l c 1 0

theorem Step.drops (h : Step s t l t' started) (hfine : t.pc.Fine s)
    (hone : ∀ c, 0 < t.pc.refs c → 0 < s.reference c) (c : Nat) :
    Drops s l c (t.pc.dropping c) (gain (Pc.dropping c) t' started) := by
  cases h with
  | lupdate msg =>
      by_cases heq : c = s.copies.length
      · refine .make ?_ ?_ ?_ ?_
        · rw [heq, Shared.dead, List.getElem?_eq_none (Nat.le_refl _)]
        · rw [dead_newcopy, if_pos heq]
        · rw [heq, reference_length]
        · rw [reference_newcopy, if_pos heq]
      · refine .quiet ?_ ?_
        · rw [dead_newcopy, if_neg heq]
        · rw [reference_newcopy, if_neg heq]
  | @copyAdd _ last ret =>
      have hpos : s.reference ret > 0 := hfine.asserts
      refine .quiet (dead_addCopy s ret 1 c) ?_
      rw [reference_addCopy (hfine.copy _ rfl)]
      by_cases heq : c = ret
      · rw [if_pos heq, heq]
        omega
      · rw [if_neg heq]
  | @sub _ d after =>
      rw [gain_nil]
      by_cases heq : c = d
      · have hpos : 0 < s.reference d := hone d (by rw [Pc.refs, one_self]; omega)
        have href : (s.addCopy d (-1)).reference c = s.reference d + -1 := by
          rw [reference_addCopy (hfine.copy _ rfl), if_pos heq, heq]
        split
        · rename_i hzero
          have hdrop : (Pc.free d after).dropping c = 1 := by rw [heq, Pc.dropping, one_self]
          rw [hdrop]
          exact .last (dead_addCopy s d (-1) c) (by rw [heq]; omega) (by rw [href, hzero])
        · rw [dropping_pc]
          refine .quiet (dead_addCopy s d (-1) c) ?_
          rw [href, heq]
          omega
      · have hdrop : (if s.reference d + -1 = 0 then Pc.free d after else after.pc).dropping c =
            0 := by
          split
          · rw [Pc.dropping, one_of_ne heq]
          · exact dropping_pc after c
        rw [hdrop]
        refine .quiet (dead_addCopy s d (-1) c) ?_
        rw [reference_addCopy (hfine.copy _ rfl), if_neg heq]
  | @free _ d after =>
      rw [gain_nil, dropping_pc, Pc.dropping]
      by_cases heq : c = d
      · rw [heq, one_self]
        refine .free (hfine.copy _ rfl) ?_ (reference_freeCopy s d d)
        rw [dead_freeCopy, if_pos rfl]
      · rw [one_of_ne heq]
        refine .quiet ?_ (by rw [reference_freeCopy])
        rw [dead_freeCopy, if_neg heq]
  | updateUnlock =>
      rw [gain_nil, dropping_releasecopy]
      exact .quiet rfl Iff.rfl
  | releaseCopy =>
      rw [gain_nil, dropping_releasecopy]
      exact .quiet rfl Iff.rfl
  | deleteUnlock =>
      rw [gain_nil, dropping_releasecopy]
      exact .quiet rfl Iff.rfl
  | deleteFree =>
      rw [gain_nil, dropping_releasecopy]
      exact .quiet rfl Iff.rfl
  | copyUnlock =>
      rw [gain_nil]
      split
      · rw [dropping_releasecopy]
        exact .quiet rfl Iff.rfl
      · rw [dropping_releasecopy]
        exact .quiet rfl Iff.rfl
  | releaseSub =>
      rw [gain_nil]
      split
      · exact .quiet rfl Iff.rfl
      · exact .quiet rfl Iff.rfl
  | deleteSub =>
      rw [gain_nil]
      split
      · exact .quiet rfl Iff.rfl
      · exact .quiet rfl Iff.rfl
  | _ => exact .quiet rfl Iff.rfl

/-- Only who has the lock for writing changes the copy. -/
theorem Step.copy (h : Step s t l t' started) : l.obj.copy = s.obj.copy ∨ t.pc.writes = 1 := by
  cases h with
  | updateSwap => exact .inr rfl
  | clear => exact .inr rfl
  | _ => exact .inl rfl

theorem Step.begins (h : Step s t l t' started) : ∀ u ∈ started, u = ⟨.reader none, []⟩ := by
  intro u hu
  cases h with
  | grabUnlock => exact List.mem_singleton.mp hu
  | _ => cases hu

theorem pc_ne_copyAdd (after : After) (last : Option Nat) (ret : Nat) :
    after.pc ≠ .copyAdd last ret := by
  intro heq
  have hreads := reads_pc after
  rw [heq] at hreads
  cases hreads

theorem releasecopy_ne_copyAdd (copy : Option Nat) (after : After) (last : Option Nat)
    (ret : Nat) : releasecopy copy after ≠ .copyAdd last ret := by
  intro heq
  have hreads := reads_releasecopy copy after
  rw [heq] at hreads
  cases hreads

/-- `stm_copy` adds to the copy that it loads. -/
theorem Step.adds {last : Option Nat} {ret : Nat} (h : Step s t l t' started)
    (hpc : t'.pc = .copyAdd last ret) : l.obj.copy = some ret := by
  cases h with
  | copyLoadSome hcopy =>
      cases hpc
      exact hcopy
  | updateUnlock => exact (releasecopy_ne_copyAdd _ _ _ _ hpc).elim
  | releaseCopy => exact (releasecopy_ne_copyAdd _ _ _ _ hpc).elim
  | deleteUnlock => exact (releasecopy_ne_copyAdd _ _ _ _ hpc).elim
  | deleteFree => exact (releasecopy_ne_copyAdd _ _ _ _ hpc).elim
  | free => exact (pc_ne_copyAdd _ _ _ hpc).elim
  | copyUnlock =>
      dsimp only at hpc
      split at hpc
      · exact (releasecopy_ne_copyAdd _ _ _ _ hpc).elim
      · exact (releasecopy_ne_copyAdd _ _ _ _ hpc).elim
  | sub =>
      dsimp only at hpc
      split at hpc
      · cases hpc
      · exact (pc_ne_copyAdd _ _ _ hpc).elim
  | releaseSub =>
      dsimp only at hpc
      split at hpc <;> cases hpc
  | deleteSub =>
      dsimp only at hpc
      split at hpc <;> cases hpc
  | _ => cases hpc

end Steps

end Jump.Skynet.Stm
