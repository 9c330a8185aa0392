import Jump.Skynet.Multicast.Code
import Mathlib.Algebra.Ring.Nat
import Mathlib.Data.List.Infix

/-! # The lifetime of a package

Behind `bind`, the reference count is the number of messages and closes that are still to come.
-/

namespace Jump.Skynet.Multicast

open Jump.Core

/-! ## What the threads have still to do -/

/-- A message that is not sent, or not closed, holds a reference. -/
def owes : Instr → Nat
  | .redirect _ => 1
  | .close => 1
  | _ => 0

def owed (program : List Instr) : Nat := (program.map owes).sum

def outstanding (s : State) : Nat := Threads.total owed s.threads

inductive Receiving : List Instr → Prop where
  | done : Receiving []
  | closing : Receiving [.close]
  | reading : Receiving [.read, .close]
  | unpacking (subscribed : Bool) : Receiving (dispatchSubscribe subscribed)

/-- The publisher behind its first `k` messages; `rest` follows them. -/
inductive Publishing (n : Nat) (rest : List Instr) : Nat → List Instr → Prop where
  | sending {k : Nat} (hk : k ≤ n) :
      Publishing n rest k ((List.range' k (n - k)).map .redirect ++ rest)
  | reading (hrest : rest = [.unpack, .read]) : Publishing n rest n [.read]
  | done : Publishing n rest n []

variable {p : Publication} {pkg : Package} {s s' : State} {program rest pub : List Instr}
  {subs : List (List Instr)} {instr : Instr} {n k i : Nat} {schedule : List Nat}

theorem owed_cons (instr : Instr) (program : List Instr) :
    owed (instr :: program) = owes instr + owed program := List.sum_cons

theorem owed_append (a b : List Instr) : owed (a ++ b) = owed a + owed b := by
  unfold owed
  rw [List.map_append, List.sum_append]

theorem owed_redirects (k m : Nat) : owed ((List.range' k m).map .redirect) = m := by
  induction m generalizing k with
  | zero => rfl
  | succ m ih =>
      rw [List.range'_succ, List.map_cons, owed_cons, ih]
      exact Nat.add_comm ..

theorem receiving_cons (h : Receiving (instr :: rest)) :
    Receiving rest ∧ owed (instr :: rest) = 1 ∧
      (instr = .close ∧ rest = [] ∨ (instr = .unpack ∨ instr = .read) ∧ owed rest = 1) := by
  generalize hprogram : instr :: rest = program at h
  cases h with
  | done => cases hprogram
  | closing =>
      cases hprogram
      exact ⟨.done, rfl, .inl ⟨rfl, rfl⟩⟩
  | reading =>
      cases hprogram
      exact ⟨.closing, rfl, .inr ⟨.inr rfl, rfl⟩⟩
  | unpacking subscribed =>
      cases subscribed with
      | true =>
          cases hprogram
          exact ⟨.reading, rfl, .inr ⟨.inl rfl, rfl⟩⟩
      | false =>
          cases hprogram
          exact ⟨.closing, rfl, .inr ⟨.inl rfl, rfl⟩⟩

theorem receiving_of_owed (h : Receiving program) (howed : owed program = 0) : program = [] := by
  cases h with
  | done => rfl
  | closing => cases howed
  | reading => cases howed
  | unpacking subscribed => cases subscribed <;> cases howed

/-- The next instruction of the publisher: a message, or a read of the package when all messages
are sent. -/
theorem publishing_cons (h : Publishing n rest k (instr :: program))
    (hrest : rest = [] ∨ rest = [.unpack, .read]) :
    (instr = .redirect k ∧ k < n ∧ Publishing n rest (k + 1) program) ∨
      ((instr = .unpack ∨ instr = .read) ∧ k = n ∧ owed program = 0 ∧ rest ≠ [] ∧
        Publishing n rest k program) := by
  generalize hprogram : instr :: program = pub at h
  cases h with
  | sending hk =>
      by_cases hlt : k < n
      · have hm : n - k = n - (k + 1) + 1 := by omega
        rw [hm, List.range'_succ, List.map_cons, List.cons_append] at hprogram
        cases hprogram
        exact .inl ⟨rfl, hlt, .sending hlt⟩
      · have hm : n - k = 0 := by omega
        have hk : k = n := by omega
        rw [hm] at hprogram
        rcases hrest with rfl | rfl
        · cases hprogram
        · cases hprogram
          subst hk
          exact .inr ⟨.inl rfl, rfl, rfl, List.cons_ne_nil _ _, .reading rfl⟩
  | reading hread =>
      cases hprogram
      exact .inr ⟨.inr rfl, rfl, rfl, by rw [hread]; exact List.cons_ne_nil _ _, .done⟩
  | done => cases hprogram

/-! ## Messages to a group -/

/-- The state behind `bind` with `n` subscribers. -/
structure Bound (n : Nat) (rest : List Instr) (s : State) : Prop where
  threads : ∃ pub subs k, s.threads = pub :: subs ∧ subs.length = n ∧
    Publishing n rest k pub ∧ (∀ j, k ≤ j → j < n → subs[j]? = some []) ∧
    ∀ program ∈ subs, Receiving program
  reference : s.package.reference = outstanding s
  packageFrees : s.package.packageFrees = if 0 < n ∧ outstanding s = 0 then 1 else 0
  dataFrees : s.package.dataFrees = if 0 < n ∧ outstanding s = 0 then 1 else 0

/-- The publisher is not done, but all subscribers are. -/
def Late (s : State) : Prop := s.threads[0]? ≠ some [] ∧ outstanding s = 0

/-- What a step keeps, and when it uses a package that was freed. -/
def Kept (n : Nat) (rest : List Instr) (i : Nat) (s s' : State) : Prop :=
  Bound n rest s' ∧ (s'.package.stale = true ↔ s.package.stale = true ∨ 0 < n ∧ i = 0 ∧ Late s)

theorem outstanding_cons (h : s.threads = pub :: subs) :
    outstanding s = owed pub + Threads.total owed subs := by
  unfold outstanding Threads.total
  rw [h, List.map_cons, List.sum_cons]

theorem total_pos (hmem : subs[i]? = some program) (howed : owed program = 1) :
    0 < Threads.total owed subs := by
  have hset := Threads.total_set owed hmem []
  have hnil : owed [] = 0 := rfl
  omega

theorem step_publisher (hthreads : s.threads = (instr :: program) :: subs)
    (hok : (exec s.package instr).2 = true) :
    p.step 0 s = some ⟨(exec s.package instr).1, p.wake (program :: subs) instr⟩ := by
  unfold Publication.step
  rw [hthreads]
  simp only [List.getElem?_cons_zero, hok, if_true, List.set_cons_zero]

theorem step_receiver (hthreads : s.threads = pub :: subs) (hi : subs[i]? = some (instr :: program))
    (hok : (exec s.package instr).2 = true) (hwake : ∀ k, instr ≠ .redirect k) :
    p.step (i + 1) s = some ⟨(exec s.package instr).1, pub :: subs.set i program⟩ := by
  have hsame : ∀ threads, p.wake threads instr = threads := by
    intro threads
    cases instr with
    | redirect k => exact absurd rfl (hwake k)
    | _ => rfl
  unfold Publication.step
  rw [hthreads]
  simp only [List.getElem?_cons_succ, hi, hok, if_true, List.set_cons_succ, hsame]

/-- The publisher sends a message. -/
theorem Bound.redirect (h : Bound n rest s)
    (hthreads : s.threads = (.redirect k :: program) :: subs)
    (hlength : subs.length = n) (hk : k < n) (hpub : Publishing n rest (k + 1) program)
    (hwait : ∀ j, k ≤ j → j < n → subs[j]? = some []) (hrecv : ∀ program ∈ subs, Receiving program)
    {message : List Instr} (hmessage : p.receivers[k]? = some message)
    (hreceiving : Receiving message) (howed : owed message = 1) :
    ∃ s', p.step 0 s = some s' ∧ Kept n rest 0 s s' := by
  have hset := Threads.total_set owed (hwait k (Nat.le_refl k) hk) message
  have hnil : owed [] = 0 := rfl
  have hwake : p.wake (program :: subs) (.redirect k) = program :: subs.set k message := by
    show (program :: subs).set (k + 1) (p.receivers.getD k []) = _
    rw [List.getD_eq_getElem?_getD, hmessage]
    rfl
  have hsum : ∀ pkg, outstanding ⟨pkg, program :: subs.set k message⟩ = outstanding s := by
    intro pkg
    rw [outstanding_cons hthreads, outstanding_cons rfl, owed_cons]
    show _ = 1 + owed program + _
    omega
  have hpos : outstanding s ≠ 0 := by
    rw [outstanding_cons hthreads, owed_cons]
    show 1 + owed program + _ ≠ 0
    omega
  refine ⟨_, step_publisher hthreads rfl, ⟨?_, ?_, ?_, ?_⟩, ?_⟩
  · refine ⟨program, subs.set k message, k + 1, hwake, ?_, hpub, ?_, ?_⟩
    · rw [List.length_set, hlength]
    · intro j hj hjn
      rw [List.getElem?_set_ne (by omega)]
      exact hwait j (by omega) hjn
    · intro program' hmem
      rcases List.mem_or_eq_of_mem_set hmem with hmem | rfl
      · exact hrecv program' hmem
      · exact hreceiving
  · rw [hwake]
    rw [hsum]
    exact h.reference
  · rw [hwake, hsum]
    exact h.packageFrees
  · rw [hwake, hsum]
    exact h.dataFrees
  · show s.package.stale = true ↔ _
    constructor
    · exact .inl
    · rintro (hstale | ⟨-, -, -, hzero⟩)
      · exact hstale
      · exact absurd hzero hpos

/-- What `unpack` and a read do. -/
theorem exec_use (pkg : Package) (hframe : pkg.packageFrees = pkg.dataFrees)
    (h : instr = .unpack ∨ instr = .read) :
    exec pkg instr =
      ({ pkg with stale := pkg.stale || decide (0 < pkg.packageFrees) }, true) := by
  rcases h with rfl | rfl
  · rfl
  · show ({ pkg with stale := pkg.stale || decide (0 < pkg.dataFrees) }, true) = _
    rw [hframe]

/-- The publisher reads the package for the other nodes. -/
theorem Bound.publisher_read (h : Bound n rest s)
    (hthreads : s.threads = (instr :: program) :: subs) (hlength : subs.length = n)
    (hinstr : instr = .unpack ∨ instr = .read)
    (hpub : Publishing n rest k program) (hwait : ∀ j, k ≤ j → j < n → subs[j]? = some [])
    (hrecv : ∀ program ∈ subs, Receiving program) :
    ∃ s', p.step 0 s = some s' ∧ Kept n rest 0 s s' := by
  have hexec := exec_use s.package (h.packageFrees.trans h.dataFrees.symm) hinstr
  have hzero : owes instr = 0 := by
    rcases hinstr with rfl | rfl <;> rfl
  have hwake : p.wake (program :: subs) instr = program :: subs := by
    rcases hinstr with rfl | rfl <;> rfl
  have hsum : ∀ pkg, outstanding ⟨pkg, program :: subs⟩ = outstanding s := by
    intro pkg
    rw [outstanding_cons hthreads, outstanding_cons rfl, owed_cons, hzero, Nat.zero_add]
  refine ⟨_, step_publisher hthreads (by rw [hexec]), ?_⟩
  rw [hwake, hexec]
  refine ⟨⟨⟨program, subs, k, rfl, hlength, hpub, hwait, hrecv⟩, ?_, ?_, ?_⟩, ?_⟩
  · rw [hsum]
    exact h.reference
  · rw [hsum]
    exact h.packageFrees
  · rw [hsum]
    exact h.dataFrees
  · show (s.package.stale || decide (0 < s.package.packageFrees)) = true ↔ _
    rw [Bool.or_eq_true, decide_eq_true_iff, h.packageFrees]
    constructor
    · rintro (hstale | hfreed)
      · exact .inl hstale
      · by_cases hall : 0 < n ∧ outstanding s = 0
        · refine .inr ⟨hall.1, rfl, ?_, hall.2⟩
          rw [hthreads]
          exact fun heq => by cases heq
        · rw [if_neg hall] at hfreed
          exact absurd hfreed (Nat.lt_irrefl 0)
    · rintro (hstale | ⟨hn, -, -, hall⟩)
      · exact .inl hstale
      · rw [if_pos ⟨hn, hall⟩]
        exact .inr Nat.one_pos

/-- A subscriber looks at its message. -/
theorem Bound.receiver_read (h : Bound n rest s) (hthreads : s.threads = pub :: subs)
    (hlength : subs.length = n) (hi : subs[i]? = some (instr :: program))
    (hinstr : instr = .unpack ∨ instr = .read) (howed : owed (instr :: program) = 1)
    (hprogram : Receiving program) (hpub : Publishing n rest k pub)
    (hwait : ∀ j, k ≤ j → j < n → subs[j]? = some [])
    (hrecv : ∀ program ∈ subs, Receiving program) :
    ∃ s', p.step (i + 1) s = some s' ∧ Kept n rest (i + 1) s s' := by
  have hexec := exec_use s.package (h.packageFrees.trans h.dataFrees.symm) hinstr
  have hzero : owes instr = 0 := by
    rcases hinstr with rfl | rfl <;> rfl
  have howed' : owed program = 1 := by
    rw [owed_cons, hzero, Nat.zero_add] at howed
    exact howed
  have hset := Threads.total_set owed hi program
  have hpos := total_pos hi howed
  have hsum : ∀ pkg, outstanding ⟨pkg, pub :: subs.set i program⟩ = outstanding s := by
    intro pkg
    rw [outstanding_cons hthreads, outstanding_cons rfl]
    omega
  have halive : outstanding s ≠ 0 := by
    rw [outstanding_cons hthreads]
    omega
  have hfrees : s.package.packageFrees = 0 := by
    rw [h.packageFrees, if_neg fun hall => halive hall.2]
  refine ⟨_, step_receiver hthreads hi (by rw [hexec]) ?_, ?_⟩
  · rintro k rfl
    rcases hinstr with h | h <;> cases h
  rw [hexec]
  refine ⟨⟨⟨pub, subs.set i program, k, rfl, ?_, hpub, ?_, ?_⟩, ?_, ?_, ?_⟩, ?_⟩
  · rw [List.length_set, hlength]
  · intro j hj hjn
    have hne : i ≠ j := by
      rintro rfl
      rw [hwait i hj hjn] at hi
      cases hi
    rw [List.getElem?_set_ne hne]
    exact hwait j hj hjn
  · intro program' hmem
    rcases List.mem_or_eq_of_mem_set hmem with hmem | rfl
    · exact hrecv program' hmem
    · exact hprogram
  · rw [hsum]
    exact h.reference
  · rw [hsum]
    exact h.packageFrees
  · rw [hsum]
    exact h.dataFrees
  · show (s.package.stale || decide (0 < s.package.packageFrees)) = true ↔ _
    rw [hfrees, decide_eq_false (Nat.lt_irrefl 0), Bool.or_false]
    constructor
    · exact .inl
    · rintro (hstale | ⟨-, hi, -⟩)
      · exact hstale
      · exact absurd hi (Nat.succ_ne_zero i)

/-- What `close` does with a package that is held. -/
theorem exec_close {m : Nat} (hreference : pkg.reference = ((m + 1 : Nat) : Int))
    (hpackage : pkg.packageFrees = 0) (hdata : pkg.dataFrees = 0) :
    exec pkg .close = (if m = 0 then
      ⟨0, 1, 1, pkg.stale⟩ else { pkg with reference := m }, true) := by
  obtain ⟨reference, packageFrees, dataFrees, stale⟩ := pkg
  simp only at hreference hpackage hdata
  subst hreference hpackage hdata
  have href : ((m + 1 : Nat) : Int) - 1 = m := by omega
  simp only [exec, Package.usePackage, Package.freeData, Package.freePackage, Package.useData, href,
    Nat.lt_irrefl, decide_false, Bool.or_false]
  by_cases hm : m = 0
  · rw [if_pos hm, if_pos (by omega), hm]
    rfl
  · rw [if_neg hm, if_neg (by omega)]

/-- A subscriber closes the package. -/
theorem Bound.receiver_close (h : Bound n rest s) (hthreads : s.threads = pub :: subs)
    (hlength : subs.length = n) (hi : subs[i]? = some [.close]) (hpub : Publishing n rest k pub)
    (hwait : ∀ j, k ≤ j → j < n → subs[j]? = some [])
    (hrecv : ∀ program ∈ subs, Receiving program) :
    ∃ s', p.step (i + 1) s = some s' ∧ Kept n rest (i + 1) s s' := by
  have hone : owed [.close] = 1 := rfl
  have hnil : owed [] = 0 := rfl
  have hset := Threads.total_set owed hi []
  have hpos := total_pos hi hone
  have hn : 0 < n := by
    rw [← hlength]
    exact List.length_pos_of_ne_nil fun hempty => by
      rw [hempty] at hi
      cases hi
  obtain ⟨m, hm⟩ : ∃ m, outstanding s = m + 1 :=
    ⟨outstanding s - 1, by rw [outstanding_cons hthreads]; omega⟩
  have hsum : ∀ pkg, outstanding ⟨pkg, pub :: subs.set i []⟩ = m := by
    intro pkg
    rw [outstanding_cons hthreads] at hm
    rw [outstanding_cons rfl]
    omega
  have hfrees : ¬(0 < n ∧ outstanding s = 0) := by omega
  have hpackage := h.packageFrees
  have hdata := h.dataFrees
  have hreference := h.reference
  rw [if_neg hfrees] at hpackage hdata
  rw [hm] at hreference
  have hexec := exec_close hreference hpackage hdata
  refine ⟨_, step_receiver hthreads hi (by rw [hexec]) (fun k hk => by cases hk), ?_⟩
  rw [hexec]
  refine ⟨⟨⟨pub, subs.set i [], k, rfl, ?_, hpub, ?_, ?_⟩, ?_, ?_, ?_⟩, ?_⟩
  · rw [List.length_set, hlength]
  · intro j hj hjn
    have hne : i ≠ j := by
      rintro rfl
      rw [hwait i hj hjn] at hi
      cases hi
    rw [List.getElem?_set_ne hne]
    exact hwait j hj hjn
  · intro program' hmem
    rcases List.mem_or_eq_of_mem_set hmem with hmem | rfl
    · exact hrecv program' hmem
    · exact .done
  · rw [hsum]
    by_cases hzero : m = 0
    · simp only [hzero]
      rfl
    · simp only [if_neg hzero]
  · rw [hsum]
    by_cases hzero : m = 0
    · simp only [if_pos hzero, hn, true_and]
    · simp only [if_neg hzero, hpackage, if_neg fun hall : 0 < n ∧ m = 0 => hzero hall.2]
  · rw [hsum]
    by_cases hzero : m = 0
    · simp only [if_pos hzero, hn, true_and]
    · simp only [if_neg hzero, hdata, if_neg fun hall : 0 < n ∧ m = 0 => hzero hall.2]
  · have hstale : (if m = 0 then (⟨0, 1, 1, s.package.stale⟩ : Package)
        else { s.package with reference := m }).stale = s.package.stale := by
      split <;> rfl
    simp only [hstale]
    constructor
    · exact .inl
    · rintro (hstale | ⟨-, hi, -⟩)
      · exact hstale
      · exact absurd hi (Nat.succ_ne_zero i)

/-- The messages of a publication: each is received once, with one close. -/
structure Group (p : Publication) (n : Nat) (rest : List Instr) : Prop where
  publisher : p.publisher = .bind n :: ((List.range' 0 n).map .redirect ++ rest)
  rest : rest = [] ∨ rest = [.unpack, .read]
  length : p.receivers.length = n
  receivers : ∀ program ∈ p.receivers, Receiving program ∧ owed program = 1

theorem Bound.step (hp : Group p n rest) (h : Bound n rest s) (hstep : p.step i s = some s') :
    Kept n rest i s s' := by
  obtain ⟨pub, subs, k, hthreads, hlength, hpub, hwait, hrecv⟩ := h.threads
  have hthread : ∃ instr program, s.threads[i]? = some (instr :: program) := by
    unfold Publication.step at hstep
    split at hstep
    · rename_i instr program hi
      exact ⟨instr, program, hi⟩
    · cases hstep
  obtain ⟨instr, program, hi⟩ := hthread
  have hsome : ∃ s'', p.step i s = some s'' ∧ Kept n rest i s s'' := by
    rw [hthreads] at hi
    cases i with
    | zero =>
        rw [List.getElem?_cons_zero] at hi
        cases hi
        rcases publishing_cons hpub hp.rest with ⟨rfl, hk, hnext⟩ | ⟨hinstr, -, -, -, hnext⟩
        · have hlt : k < p.receivers.length := by
            rw [hp.length]
            exact hk
          have hmessage := List.getElem?_eq_getElem hlt
          obtain ⟨hreceiving, howed⟩ := hp.receivers _ (List.getElem_mem hlt)
          exact h.redirect hthreads hlength hk hnext hwait hrecv hmessage hreceiving howed
        · exact h.publisher_read hthreads hlength hinstr hnext hwait hrecv
    | succ i =>
        rw [List.getElem?_cons_succ] at hi
        have hmem := List.mem_of_getElem? hi
        obtain ⟨hprogram, howed, ⟨rfl, rfl⟩ | ⟨hinstr, -⟩⟩ := receiving_cons (hrecv _ hmem)
        · exact h.receiver_close hthreads hlength hi hpub hwait hrecv
        · exact h.receiver_read hthreads hlength hi hinstr howed hprogram hpub hwait hrecv
  obtain ⟨s'', hs'', hkept⟩ := hsome
  rw [hs''] at hstep
  cases hstep
  exact hkept

theorem Bound.publisher_nil (h : Bound n rest s) (hi : s.threads[0]? = some [])
    (hzero : outstanding s = 0) : ∀ program ∈ s.threads, program = [] := by
  obtain ⟨pub, subs, k, hthreads, -, -, -, hrecv⟩ := h.threads
  rw [hthreads, List.getElem?_cons_zero] at hi
  cases hi
  rw [outstanding_cons hthreads] at hzero
  rw [hthreads]
  intro program hmem
  rcases List.mem_cons.mp hmem with rfl | hmem
  · rfl
  · obtain ⟨j, hj⟩ := List.getElem?_of_mem hmem
    apply receiving_of_owed (hrecv program hmem)
    have hset := Threads.total_set owed hj []
    have hnil : owed [] = 0 := rfl
    omega

/-- The subscribers that are done take no step. -/
theorem Bound.step_of_late (h : Bound n rest s) (hzero : outstanding s = 0)
    (hstep : p.step i s = some s') : i = 0 := by
  obtain ⟨pub, subs, k, hthreads, -, -, -, hrecv⟩ := h.threads
  cases i with
  | zero => rfl
  | succ i =>
      unfold Publication.step at hstep
      split at hstep
      · rename_i instr program hi
        rw [hthreads, List.getElem?_cons_succ] at hi
        have howed := (receiving_cons (hrecv _ (List.mem_of_getElem? hi))).2.1
        have hset := Threads.total_set owed hi []
        have hnil : owed [] = 0 := rfl
        rw [outstanding_cons hthreads] at hzero
        omega
      · cases hstep

/-! ## Runs -/

theorem run_cons (p : Publication) (i : Nat) (schedule : List Nat) (s : State) :
    p.run (i :: schedule) s = (p.step i s).bind (p.run schedule) := rfl

theorem Bound.run (hp : Group p n rest) (h : Bound n rest s) (hrun : p.run schedule s = some s') :
    Bound n rest s' ∧ (s.package.stale = true → s'.package.stale = true) := by
  induction schedule generalizing s with
  | nil =>
      cases hrun
      exact ⟨h, id⟩
  | cons i schedule ih =>
      obtain ⟨s₁, hstep, hrest⟩ := Option.bind_eq_some_iff.mp hrun
      obtain ⟨h₁, hiff⟩ := h.step hp hstep
      obtain ⟨h', hmono⟩ := ih h₁ hrest
      exact ⟨h', fun hstale => hmono (hiff.mpr (.inl hstale))⟩

/-- Publisher or subscribers hold the package in every state, so it is not used after its
end. -/
theorem Bound.run_alive (hp : Group p n rest) (h : Bound n rest s)
    (hstale : s.package.stale = false) (hrun : p.run schedule s = some s')
    (hheld : ∀ before s₁, before <+: schedule → p.run before s = some s₁ → ¬Late s₁) :
    s'.package.stale = false := by
  induction schedule generalizing s with
  | nil =>
      cases hrun
      exact hstale
  | cons i schedule ih =>
      obtain ⟨s₁, hstep, hrest⟩ := Option.bind_eq_some_iff.mp hrun
      obtain ⟨h₁, hiff⟩ := h.step hp hstep
      apply ih h₁ _ hrest
      · intro before s₂ hbefore hrun₂
        apply hheld (i :: before) s₂ (List.cons_prefix_cons.mpr ⟨rfl, hbefore⟩)
        rw [run_cons, hstep]
        exact hrun₂
      · rw [← Bool.not_eq_true, hiff, hstale]
        rintro (htrue | ⟨-, -, hlate⟩)
        · cases htrue
        · exact hheld [] s List.nil_prefix rfl hlate

/-- A publisher that has still to read when the last subscriber has closed uses a package that
was freed. -/
theorem Bound.run_late (hp : Group p n rest) (h : Bound n rest s) (hn : 0 < n) (hlate : Late s)
    (hrun : p.run schedule s = some s') (hfinished : s'.Finished) : s'.package.stale = true := by
  cases schedule with
  | nil =>
      cases hrun
      obtain ⟨pub, subs, -, hthreads, -⟩ := h.threads
      have hpub := hfinished pub (by rw [hthreads]; exact List.mem_cons_self)
      refine absurd ?_ hlate.1
      rw [hthreads, hpub]
      rfl
  | cons i schedule =>
      obtain ⟨s₁, hstep, hrest⟩ := Option.bind_eq_some_iff.mp hrun
      obtain ⟨h₁, hiff⟩ := h.step hp hstep
      exact (h₁.run hp hrest).2 (hiff.mpr (.inr ⟨hn, h.step_of_late hlate.2 hstep, hlate⟩))

theorem run_append (p : Publication) (before after : List Nat) (s : State) :
    p.run (before ++ after) s = (p.run before s).bind (p.run after) := by
  induction before generalizing s with
  | nil => rfl
  | cons i before ih =>
      rw [List.cons_append, run_cons, run_cons, Option.bind_assoc]
      congr 1
      funext s₁
      exact ih s₁

/-- The publisher is the first to take a step. -/
theorem Group.first (hp : Group p n rest) (hstep : p.step i p.start = some s) :
    Bound n rest s ∧ s.package.stale = false := by
  have hnone : ∀ j : Nat, (p.receivers.map fun _ => ([] : List Instr))[j]? = none ∨
      (p.receivers.map fun _ => ([] : List Instr))[j]? = some [] := by
    intro j
    rw [List.getElem?_map]
    cases p.receivers[j]? with
    | none => exact .inl rfl
    | some _ => exact .inr rfl
  cases i with
  | succ i =>
      unfold Publication.step Publication.start at hstep
      simp only [List.getElem?_cons_succ] at hstep
      rcases hnone i with h | h
      · rw [h] at hstep
        cases hstep
      · rw [h] at hstep
        cases hstep
  | zero =>
      have hthreads : p.start.threads = (.bind n :: ((List.range' 0 n).map .redirect ++ rest)) ::
          p.receivers.map fun _ => [] := by
        show p.publisher :: _ = _
        rw [hp.publisher]
      rw [step_publisher hthreads rfl] at hstep
      cases hstep
      have hzero : Threads.total owed (p.receivers.map fun _ => []) = 0 := by
        unfold Threads.total
        rw [List.map_map]
        apply List.sum_eq_zero
        intro m hm
        obtain ⟨_, -, rfl⟩ := List.mem_map.mp hm
        rfl
      have hrest : owed rest = 0 := by
        rcases hp.rest with h | h <;> rw [h] <;> rfl
      have hsum : ∀ pkg, outstanding ⟨pkg, ((List.range' 0 n).map .redirect ++ rest) ::
          p.receivers.map fun _ => []⟩ = n := by
        intro pkg
        rw [outstanding_cons rfl, owed_append, owed_redirects, hzero, hrest]
        omega
      refine ⟨⟨⟨(List.range' 0 n).map .redirect ++ rest, p.receivers.map fun _ => [], 0, rfl, ?_,
        .sending (Nat.zero_le n), ?_, ?_⟩, ?_, ?_, ?_⟩, rfl⟩
      · rw [List.length_map, hp.length]
      · intro j _ hj
        rcases hnone j with h | h
        · have hlt : j < (p.receivers.map fun _ => ([] : List Instr)).length := by
            rw [List.length_map, hp.length]
            exact hj
          rw [List.getElem?_eq_getElem hlt] at h
          cases h
        · exact h
      · intro program hmem
        obtain ⟨_, -, rfl⟩ := List.mem_map.mp hmem
        exact .done
      · show _ = ((outstanding ⟨_, _ :: _⟩ : Nat) : Int)
        rw [hsum]
        rfl
      · show _ = if 0 < n ∧ outstanding ⟨_, _ :: _⟩ = 0 then 1 else 0
        rw [hsum, if_neg (by omega)]
        rfl
      · show _ = if 0 < n ∧ outstanding ⟨_, _ :: _⟩ = 0 then 1 else 0
        rw [hsum, if_neg (by omega)]
        rfl

end Jump.Skynet.Multicast
