import Jump.Core.Threads
import Mathlib.Data.Int.Init

/-! # The lock for readers and a writer

`rwlock.h`. A step of a thread is one load, one store or one atomic operation. A thread may take
the lock for reading more than once.
-/

namespace Jump.Skynet.RwLock

open Jump.Core.Threads

/-- `struct rwlock` -/
structure RwLock where
  write : Int32
  read : Int32
deriving DecidableEq

/-- `rwlock_init` -/
def rwlockInit : RwLock := ⟨0, 0⟩

/-- Where a thread stands, before its next access to the lock. -/
inductive Pc where
  /-- in none of the functions -/
  | out
  /-- `rwlock_rlock`: the inner loop, the increment, the look at `write`, and the decrement -/
  | spin
  | add
  | look
  | back
  /-- `rwlock_wlock`: the first loop and the second -/
  | set
  | wait
deriving DecidableEq

/-- A thread, with the locks that it has. -/
structure Thread where
  pc : Pc
  readers : Nat
  writer : Bool
deriving DecidableEq

/-- A step of a thread. -/
inductive Step : RwLock → Thread → RwLock → Thread → Prop
  | rlock {l : RwLock} {r : Nat} {w : Bool} : Step l ⟨.out, r, w⟩ l ⟨.spin, r, w⟩
  | spin {l : RwLock} {r : Nat} {w : Bool} :
      Step l ⟨.spin, r, w⟩ l ⟨if l.write ≠ 0 then .spin else .add, r, w⟩
  | add {l : RwLock} {r : Nat} {w : Bool} :
      Step l ⟨.add, r, w⟩ { l with read := l.read + 1 } ⟨.look, r, w⟩
  | look {l : RwLock} {r : Nat} {w : Bool} :
      Step l ⟨.look, r, w⟩ l (if l.write ≠ 0 then ⟨.back, r, w⟩ else ⟨.out, r + 1, w⟩)
  | back {l : RwLock} {r : Nat} {w : Bool} :
      Step l ⟨.back, r, w⟩ { l with read := l.read - 1 } ⟨.spin, r, w⟩
  | runlock {l : RwLock} {r : Nat} {w : Bool} :
      Step l ⟨.out, r + 1, w⟩ { l with read := l.read - 1 } ⟨.out, r, w⟩
  | wlock {l : RwLock} {r : Nat} {w : Bool} : Step l ⟨.out, r, w⟩ l ⟨.set, r, w⟩
  | set {l : RwLock} {r : Nat} {w : Bool} :
      Step l ⟨.set, r, w⟩ { l with write := 1 } ⟨if l.write ≠ 0 then .set else .wait, r, w⟩
  | wait {l : RwLock} {r : Nat} {w : Bool} :
      Step l ⟨.wait, r, w⟩ l (if l.read ≠ 0 then ⟨.wait, r, w⟩ else ⟨.out, r, true⟩)
  | wunlock {l : RwLock} {r : Nat} : Step l ⟨.out, r, true⟩ { l with write := 0 } ⟨.out, r, false⟩

structure State where
  lock : RwLock
  threads : List Thread

def start (n : Nat) : State := ⟨rwlockInit, List.replicate n ⟨.out, 0, false⟩⟩

/-- The states that `n` threads come to through states with `P`. -/
inductive Run (P : State → Prop) (n : Nat) : State → Prop
  | start : Run P n (start n)
  | step {s : State} {i : Nat} {t t' : Thread} {l : RwLock} (hrun : Run P n s)
      (hi : s.threads[i]? = some t) (hstep : Step s.lock t l t') (hp : P ⟨l, s.threads.set i t'⟩) :
      Run P n ⟨l, s.threads.set i t'⟩

/-! ## What the lock promises -/

/-- Those between their increment and the end of their decision. -/
def Thread.deciding (t : Thread) : Nat := if t.pc = .look ∨ t.pc = .back then 1 else 0

def State.readers (s : State) : Nat :=
  total Thread.readers s.threads + total Thread.deciding s.threads

/-- Who has the lock for writing excludes all others. -/
def State.Excludes (s : State) : Prop :=
  ∀ (i j : Nat) (t t' : Thread), i ≠ j → s.threads[i]? = some t → s.threads[j]? = some t' →
    t.writer = true → t'.writer = false ∧ t'.readers = 0

/-- The counter is the number of readers. -/
def State.Counts (s : State) : Prop := s.lock.read.toInt = s.readers ∧ 0 ≤ s.lock.read.toInt

/-- `int` has room for the readers. -/
def State.Fits (s : State) : Prop := s.readers < 2 ^ 31

instance (s : State) : Decidable s.Fits := inferInstanceAs (Decidable (_ < _))

/-! ## The invariant -/

/-- Those who set `write`. -/
def Thread.owns (t : Thread) : Nat := (if t.pc = .wait then 1 else 0) + t.writer.toNat

/-- What a thread adds to the counter. -/
def Thread.share (t : Thread) : Nat := t.readers + t.deciding

structure Inv (s : State) : Prop where
  read : s.lock.read = Int32.ofNat s.readers
  owner : (s.lock.write = 0 ∧ total Thread.owns s.threads = 0) ∨
    (s.lock.write = 1 ∧ total Thread.owns s.threads = 1)
  alone : (∃ t ∈ s.threads, t.writer = true) → total Thread.readers s.threads = 0

section Invariant

variable {s : State} {i n : Nat} {t t' : Thread} {l : RwLock}

theorem total_replicate (f : Thread → Nat) (hf : f ⟨.out, 0, false⟩ = 0) (n : Nat) :
    total f (List.replicate n ⟨.out, 0, false⟩) = 0 := by
  induction n with
  | zero => rfl
  | succ n ih => rw [List.replicate_succ, total_cons, hf, ih]

theorem start_readers (n : Nat) : (start n).readers = 0 := by
  have hheld : total Thread.readers (start n).threads = 0 := total_replicate _ rfl n
  have hdeciding : total Thread.deciding (start n).threads = 0 := total_replicate _ rfl n
  rw [State.readers, hheld, hdeciding]

theorem start_inv (n : Nat) : Inv (start n) := by
  refine ⟨?_, Or.inl ⟨rfl, total_replicate _ rfl n⟩, fun _ => total_replicate _ rfl n⟩
  rw [start_readers]
  rfl

theorem start_fits (n : Nat) : (start n).Fits := by
  rw [State.Fits, start_readers]
  decide

/-- The readers after a step of thread `i`. -/
theorem readers_set (hi : s.threads[i]? = some t) (l : RwLock) (t' : Thread) :
    State.readers ⟨l, s.threads.set i t'⟩ + t.share = s.readers + t'.share := by
  have hheld := total_set Thread.readers hi t'
  have hdeciding := total_set Thread.deciding hi t'
  unfold State.readers Thread.share
  dsimp only
  omega

theorem ofNat_succ (n : Nat) : Int32.ofNat n + 1 = Int32.ofNat (n + 1) := (Int32.ofNat_add n 1).symm

theorem ofNat_pred (n : Nat) : Int32.ofNat (n + 1) - 1 = Int32.ofNat n := by
  rw [← ofNat_succ]
  exact Int32.add_sub_cancel ..

/-- What a step does to the counter, and to what the thread adds to it. -/
theorem Step.share {l' : RwLock} (hstep : Step l t l' t') :
    (l'.read = l.read ∧ t'.share = t.share) ∨ (l'.read = l.read + 1 ∧ t'.share = t.share + 1) ∨
      (l'.read = l.read - 1 ∧ t'.share + 1 = t.share) := by
  cases hstep with
  | rlock => exact Or.inl ⟨rfl, rfl⟩
  | spin =>
      split
      · exact Or.inl ⟨rfl, rfl⟩
      · exact Or.inl ⟨rfl, rfl⟩
  | add => exact Or.inr (Or.inl ⟨rfl, rfl⟩)
  | look =>
      split
      · exact Or.inl ⟨rfl, rfl⟩
      · exact Or.inl ⟨rfl, rfl⟩
  | back => exact Or.inr (Or.inr ⟨rfl, rfl⟩)
  | runlock => exact Or.inr (Or.inr ⟨rfl, rfl⟩)
  | wlock => exact Or.inl ⟨rfl, rfl⟩
  | set =>
      split
      · exact Or.inl ⟨rfl, rfl⟩
      · exact Or.inl ⟨rfl, rfl⟩
  | wait =>
      split
      · exact Or.inl ⟨rfl, rfl⟩
      · exact Or.inl ⟨rfl, rfl⟩
  | wunlock => exact Or.inl ⟨rfl, rfl⟩

theorem Step.read (hstep : Step s.lock t l t') (hi : s.threads[i]? = some t)
    (hread : s.lock.read = Int32.ofNat s.readers) :
    l.read = Int32.ofNat (State.readers ⟨l, s.threads.set i t'⟩) := by
  have hset := readers_set hi l t'
  obtain ⟨hl, hshare⟩ | ⟨hl, hshare⟩ | ⟨hl, hshare⟩ := hstep.share
  · have hsame : State.readers ⟨l, s.threads.set i t'⟩ = s.readers := by omega
    rw [hl, hread, hsame]
  · have hmore : State.readers ⟨l, s.threads.set i t'⟩ = s.readers + 1 := by omega
    rw [hl, hread, hmore, ofNat_succ]
  · have hless : s.readers = State.readers ⟨l, s.threads.set i t'⟩ + 1 := by omega
    rw [hl, hread, hless, ofNat_pred]

/-- What a step does to `write`, and to who set it. -/
theorem Step.owner {l' : RwLock} (hstep : Step l t l' t') (hone : t.owns ≤ 1) :
    (l'.write = l.write ∧ t'.owns = t.owns) ∨
      (l.write = 0 ∧ l'.write = 1 ∧ t'.owns = t.owns + 1) ∨
      (l.write ≠ 0 ∧ l'.write = 1 ∧ t'.owns = t.owns) ∨
      (l'.write = 0 ∧ t'.owns + 1 = t.owns) := by
  cases hstep with
  | rlock => exact Or.inl ⟨rfl, rfl⟩
  | spin =>
      split
      · exact Or.inl ⟨rfl, rfl⟩
      · exact Or.inl ⟨rfl, rfl⟩
  | add => exact Or.inl ⟨rfl, rfl⟩
  | look =>
      split
      · exact Or.inl ⟨rfl, rfl⟩
      · exact Or.inl ⟨rfl, rfl⟩
  | back => exact Or.inl ⟨rfl, rfl⟩
  | runlock => exact Or.inl ⟨rfl, rfl⟩
  | wlock => exact Or.inl ⟨rfl, rfl⟩
  | set =>
      split
      · rename_i htaken
        exact Or.inr (Or.inr (Or.inl ⟨htaken, rfl, rfl⟩))
      · rename_i hfree
        refine Or.inr (Or.inl ⟨not_not.mp hfree, rfl, ?_⟩)
        unfold Thread.owns
        simp [Nat.add_comm]
  | @wait _ w =>
      split
      · exact Or.inl ⟨rfl, rfl⟩
      · cases w with
        | true => exact absurd hone (by simp [Thread.owns])
        | false => exact Or.inl ⟨rfl, rfl⟩
  | wunlock => exact Or.inr (Or.inr (Or.inr ⟨rfl, rfl⟩))

theorem Inv.owner_step (hs : Inv s) (hi : s.threads[i]? = some t) (hstep : Step s.lock t l t') :
    (l.write = 0 ∧ total Thread.owns (s.threads.set i t') = 0) ∨
      (l.write = 1 ∧ total Thread.owns (s.threads.set i t') = 1) := by
  have hset := total_set Thread.owns hi t'
  have hle := le_total_of_getElem Thread.owns hi
  have hone : t.owns ≤ 1 := by
    obtain ⟨_, hnone⟩ | ⟨_, hone⟩ := hs.owner
    · omega
    · omega
  obtain ⟨hl, ht⟩ | ⟨hfree, hl, ht⟩ | ⟨htaken, hl, ht⟩ | ⟨hl, ht⟩ := hstep.owner hone
  · have hsame : total Thread.owns (s.threads.set i t') = total Thread.owns s.threads := by omega
    rw [hl, hsame]
    exact hs.owner
  · obtain ⟨_, hnone⟩ | ⟨hwrite, _⟩ := hs.owner
    · exact Or.inr ⟨hl, by omega⟩
    · rw [hwrite] at hfree
      cases hfree
  · obtain ⟨hwrite, _⟩ | ⟨_, hsome⟩ := hs.owner
    · exact absurd hwrite htaken
    · exact Or.inr ⟨hl, by omega⟩
  · obtain ⟨_, hnone⟩ | ⟨_, hsome⟩ := hs.owner
    · omega
    · exact Or.inl ⟨hl, by omega⟩

/-- A reader gets the lock only while nobody set `write`, and a writer only while there are no
readers. -/
theorem Step.gets {l' : RwLock} (hstep : Step l t l' t') :
    t'.readers ≤ t.readers ∧ (t'.writer = true → t.writer = true) ∨
      l.write = 0 ∧ t'.writer = t.writer ∨ l.read = 0 ∧ t'.readers = t.readers := by
  cases hstep with
  | rlock => exact Or.inl ⟨Nat.le_refl _, id⟩
  | spin =>
      split
      · exact Or.inl ⟨Nat.le_refl _, id⟩
      · exact Or.inl ⟨Nat.le_refl _, id⟩
  | add => exact Or.inl ⟨Nat.le_refl _, id⟩
  | look =>
      split
      · exact Or.inl ⟨Nat.le_refl _, id⟩
      · rename_i hfree
        exact Or.inr (Or.inl ⟨not_not.mp hfree, rfl⟩)
  | back => exact Or.inl ⟨Nat.le_refl _, id⟩
  | runlock => exact Or.inl ⟨Nat.le_succ _, id⟩
  | wlock => exact Or.inl ⟨Nat.le_refl _, id⟩
  | set =>
      split
      · exact Or.inl ⟨Nat.le_refl _, id⟩
      · exact Or.inl ⟨Nat.le_refl _, id⟩
  | wait =>
      split
      · exact Or.inl ⟨Nat.le_refl _, id⟩
      · rename_i hnone
        exact Or.inr (Or.inr ⟨not_not.mp hnone, rfl⟩)
  | wunlock => exact Or.inl ⟨Nat.le_refl _, nofun⟩

theorem owns_of_writer (ht : t.writer = true) : 0 < t.owns := by
  unfold Thread.owns
  rw [ht]
  exact Nat.succ_pos _

theorem toInt_ofNat {k : Nat} (hk : k < 2 ^ 31) : (Int32.ofNat k).toInt = k :=
  Int32.toInt_ofNat_of_lt hk

/-- Where nothing is counted, nobody reads. -/
theorem Inv.no_readers (hs : Inv s) (hfits : s.Fits) (hread : s.lock.read = 0) :
    total Thread.readers s.threads = 0 := by
  have hcount := hs.read
  rw [hread] at hcount
  have hint := congrArg Int32.toInt hcount
  rw [toInt_ofNat hfits] at hint
  have hzero : s.readers = 0 := by
    have hleft : (0 : Int32).toInt = 0 := rfl
    omega
  unfold State.readers at hzero
  omega

theorem Inv.alone_step (hs : Inv s) (hfits : s.Fits) (hi : s.threads[i]? = some t)
    (hstep : Step s.lock t l t') (hwriter : ∃ t ∈ s.threads.set i t', t.writer = true) :
    total Thread.readers (s.threads.set i t') = 0 := by
  have hset := total_set Thread.readers hi t'
  obtain ⟨u, hu, huw⟩ := hwriter
  obtain ⟨hle, hkeep⟩ | ⟨hfree, hkeep⟩ | ⟨hnone, hkeep⟩ := hstep.gets
  · have hbefore : ∃ t ∈ s.threads, t.writer = true := by
      cases mem_set hu with
      | inl heq =>
          rw [heq] at huw
          exact ⟨t, List.mem_of_getElem? hi, hkeep huw⟩
      | inr hold => exact ⟨u, hold, huw⟩
    have hall := hs.alone hbefore
    omega
  · have hbefore : ∃ t ∈ s.threads, t.writer = true := by
      cases mem_set hu with
      | inl heq =>
          rw [heq, hkeep] at huw
          exact ⟨t, List.mem_of_getElem? hi, huw⟩
      | inr hold => exact ⟨u, hold, huw⟩
    obtain ⟨v, hv, hvw⟩ := hbefore
    have hpos := owns_of_writer hvw
    have hle := le_total Thread.owns hv
    obtain ⟨_, hnobody⟩ | ⟨hwrite, _⟩ := hs.owner
    · omega
    · rw [hwrite] at hfree
      cases hfree
  · have hall := hs.no_readers hfits hnone
    omega

theorem Inv.step (hs : Inv s) (hfits : s.Fits) (hi : s.threads[i]? = some t)
    (hstep : Step s.lock t l t') : Inv ⟨l, s.threads.set i t'⟩ :=
  ⟨hstep.read hi hs.read, hs.owner_step hi hstep, hs.alone_step hfits hi hstep⟩

/-- What holds of every state of a run in which `int` has room for the readers. -/
theorem Run.inv (hrun : Run State.Fits n s) : Inv s ∧ s.Fits := by
  induction hrun with
  | start => exact ⟨start_inv n, start_fits n⟩
  | step hrun hi hstep hp ih => exact ⟨ih.1.step ih.2 hi hstep, hp⟩

theorem Inv.excludes (hs : Inv s) : s.Excludes := by
  intro i j t t' hij hi hj hwriter
  have hpos := owns_of_writer hwriter
  have hboth := add_le_total Thread.owns hij hi hj
  have hone : total Thread.owns s.threads ≤ 1 := by
    obtain ⟨_, hnone⟩ | ⟨_, hone⟩ := hs.owner
    · omega
    · omega
  constructor
  · by_contra hother
    have hpos' := owns_of_writer ((Bool.not_eq_false _).mp hother)
    omega
  · have hall := hs.alone ⟨t, List.mem_of_getElem? hi, hwriter⟩
    have hle := le_total_of_getElem Thread.readers hj
    omega

/-- In every run in which at no time more readers have or take the lock than `int` can count, a
writer excludes all others, and the counter is the number of readers. -/
theorem rwlock_sound (hrun : Run State.Fits n s) : s.Excludes ∧ s.Counts := by
  obtain ⟨hs, hfits⟩ := hrun.inv
  refine ⟨hs.excludes, ?_⟩
  have hint : s.lock.read.toInt = s.readers := by
    rw [hs.read, toInt_ofNat hfits]
  exact ⟨hint, by omega⟩

end Invariant

/-! ## Too many readers -/

/-- One of two threads takes the lock `k` times for reading. -/
theorem exists_reading (k : Nat) : Run (fun _ => True) 2
    ⟨⟨0, Int32.ofNat k⟩, [⟨.out, k, false⟩, ⟨.out, 0, false⟩]⟩ := by
  induction k with
  | zero => exact .start
  | succ k ih =>
      have hspin := Run.step (i := 0) ih rfl .rlock trivial
      have hadd := Run.step (i := 0) hspin rfl .spin trivial
      have hlook := Run.step (i := 0) hadd rfl .add trivial
      have hout := Run.step (i := 0) hlook rfl .look trivial
      rw [ofNat_succ] at hout
      exact hout

/-- With as many readers as `int` has values, a writer comes in. -/
theorem exists_overrun : Run (fun _ => True) 2
    ⟨⟨1, Int32.ofNat (2 ^ 32)⟩, [⟨.out, 2 ^ 32, false⟩, ⟨.out, 0, true⟩]⟩ := by
  have hset := Run.step (i := 1) (exists_reading (2 ^ 32)) rfl .wlock trivial
  have hwait := Run.step (i := 1) hset rfl .set trivial
  exact Run.step (i := 1) hwait rfl .wait trivial

/-- The counter of a lock that is taken `2 ^ 31` times is negative, and one that is taken `2 ^ 32`
times lets a writer in. -/
theorem rwlock_overrun :
    (¬ ∀ n s, Run (fun _ => True) n s → s.Counts) ∧
      ¬ ∀ n s, Run (fun _ => True) n s → s.Excludes := by
  constructor
  · intro hall
    have hcount := hall 2 _ (exists_reading (2 ^ 31))
    exact absurd hcount.2 (by decide)
  · intro hall
    have hexcludes := hall 2 _ exists_overrun 1 0 _ _ (by decide) rfl rfl rfl
    exact absurd hexcludes.2 (by decide)

/-- A thread that reads while another waits to write. -/
theorem rwlock_sound_waiting : ∃ s : State, s.threads = [⟨.out, 1, false⟩, ⟨.wait, 0, false⟩] ∧
    s.Excludes ∧ s.Counts := by
  have hspin := Run.step (P := State.Fits) (i := 0) (.start (n := 2)) rfl .rlock (by decide)
  have hadd := Run.step (i := 0) hspin rfl .spin (by decide)
  have hlook := Run.step (i := 0) hadd rfl .add (by decide)
  have hout := Run.step (i := 0) hlook rfl .look (by decide)
  have hset := Run.step (i := 1) hout rfl .wlock (by decide)
  have hwait := Run.step (i := 1) hset rfl .set (by decide)
  exact ⟨_, rfl, rwlock_sound hwait⟩

end Jump.Skynet.RwLock
