import Mathlib.Logic.Function.Iterate

/-! # The clock of the timer

`skynet_updatetime` folds the 64 bits of `gettime` into the 32 bits of `current`, with a
correction of `starttime` where `current` wraps. What `timer_update` works on is a parameter.
-/

namespace Jump.Skynet.TimerWheel

/-- The fields of `struct timer` that the clock uses, and the rest of it. -/
structure Clock (σ : Type) where
  current : UInt32
  starttime : UInt32
  currentPoint : UInt64
  rest : σ

namespace Clock

variable {σ : Type} (timerUpdate : σ → σ)

/-- `skynet_timer_init`, with what `systime` and `gettime` give. -/
def init (sec cs : UInt32) (point : UInt64) (rest : σ) : Clock σ where
  current := cs
  starttime := sec
  currentPoint := point
  rest := rest

/-- The loop over `timer_update`, for `n` more rounds. -/
def updates : Nat → σ → σ
  | 0, rest => rest
  | n + 1, rest => updates n (timerUpdate rest)

/-- `skynet_updatetime` where `gettime` gives `cp`; `none` where the `int` that counts the rounds
overflows. -/
def updatetime (cp : UInt64) (s : Clock σ) : Option (Clock σ) :=
  if cp < s.currentPoint then some { s with currentPoint := cp }
  else if cp ≠ s.currentPoint then
    let diff := (cp - s.currentPoint).toUInt32
    let oc := s.current
    let current := s.current + diff
    let starttime := if current < oc then s.starttime + 0xffffffff / 100 else s.starttime
    if diff < 0x80000000 then
      some ⟨current, starttime, cp, updates timerUpdate diff.toNat s.rest⟩
    else none
  else some s

/-- The calls of a run, each with the clock that it finds. -/
def calls (s : Clock σ) : List UInt64 → List (Clock σ × UInt64)
  | [] => []
  | cp :: cps => (s, cp) :: ((updatetime timerUpdate cp s).map fun s' => calls s' cps).getD []

/-- Centiseconds of the wall clock -/
def wall (s : Clock σ) : Nat := s.starttime.toNat * 100 + s.current.toNat

/-- By how much `gettime` has grown since the last call. -/
def growth (s : Clock σ) (cp : UInt64) : Nat := cp.toNat - s.currentPoint.toNat

/-- No value of `gettime` is below the one before it, or `2 ^ 31` or more above it. -/
def Steady : UInt64 → List UInt64 → Prop
  | _, [] => True
  | point, cp :: cps =>
    (point ≤ cp ∧ cp.toNat - point.toNat < 2147483648) ∧ Steady cp cps

/-- The wall clock goes on by the growth of `gettime`, and so many ticks run. -/
def Exact (c : Clock σ × UInt64) : Prop :=
  ∃ s', updatetime timerUpdate c.2 c.1 = some s' ∧ s'.wall = c.1.wall + c.1.growth c.2 ∧
    s'.rest = timerUpdate^[c.1.growth c.2] c.1.rest

/-- `current` passes its last value. -/
def Wraps (c : Clock σ × UInt64) : Prop := 4294967296 ≤ c.1.current.toNat + c.1.growth c.2

instance (c : Clock σ × UInt64) : Decidable (Wraps c) :=
  inferInstanceAs (Decidable (4294967296 ≤ c.1.current.toNat + c.1.growth c.2))

variable {s : Clock σ} {cp point : UInt64} {cps : List UInt64}

section Call

theorem updates_eq (n : Nat) (rest : σ) : updates timerUpdate n rest = timerUpdate^[n] rest := by
  induction n generalizing rest with
  | zero => rfl
  | succ n ih => exact ih (timerUpdate rest)

theorem diff_toNat (hle : s.currentPoint ≤ cp) (hlt : s.growth cp < 2147483648) :
    (cp - s.currentPoint).toUInt32.toNat = s.growth cp := by
  unfold growth at hlt ⊢
  rw [UInt64.toNat_toUInt32, UInt64.toNat_sub_of_le _ _ hle]
  omega

/-- A call for a later time, with the two fields that it sets -/
theorem updatetime_later (hle : s.currentPoint ≤ cp) (hne : cp ≠ s.currentPoint)
    (hlt : s.growth cp < 2147483648) : ∃ s', updatetime timerUpdate cp s = some s' ∧
      s'.currentPoint = cp ∧ s'.rest = timerUpdate^[s.growth cp] s.rest ∧
      s'.current.toNat = (s.current.toNat + s.growth cp) % 4294967296 ∧
      s'.starttime.toNat = if s.current.toNat + s.growth cp < 4294967296 then s.starttime.toNat
        else (s.starttime.toNat + 42949672) % 4294967296 := by
  have hdiff := diff_toNat hle hlt
  have hcurrent : (s.current + (cp - s.currentPoint).toUInt32).toNat =
      (s.current.toNat + s.growth cp) % 4294967296 := by
    rw [UInt32.toNat_add, hdiff]
  have hnot : ¬ cp < s.currentPoint := UInt64.not_lt.mpr hle
  have hcount : (cp - s.currentPoint).toUInt32 < 0x80000000 := by
    rw [UInt32.lt_iff_toNat_lt, hdiff]
    exact hlt
  rw [updatetime, if_neg hnot, if_pos hne]
  simp only [if_pos hcount]
  refine ⟨_, rfl, rfl, ?_, hcurrent, ?_⟩
  · rw [updates_eq, hdiff]
  · have hold := s.current.toNat_lt
    have hwraps : s.current + (cp - s.currentPoint).toUInt32 < s.current ↔
        ¬ s.current.toNat + s.growth cp < 4294967296 := by
      rw [UInt32.lt_iff_toNat_lt, hcurrent]
      omega
    by_cases hlow : s.current.toNat + s.growth cp < 4294967296
    · rw [if_neg (fun h => hwraps.mp h hlow), if_pos hlow]
    · rw [if_pos (hwraps.mpr hlow), if_neg hlow, UInt32.toNat_add]
      rfl

theorem growth_self : s.growth s.currentPoint = 0 := Nat.sub_self _

/-- Every call runs as many ticks as `gettime` has grown by. -/
theorem updatetime_steady (hle : s.currentPoint ≤ cp) (hlt : s.growth cp < 2147483648) :
    ∃ s', updatetime timerUpdate cp s = some s' ∧ s'.currentPoint = cp ∧
      s'.rest = timerUpdate^[s.growth cp] s.rest := by
  by_cases hne : cp = s.currentPoint
  · subst hne
    refine ⟨s, ?_, rfl, ?_⟩
    · rw [updatetime, if_neg (UInt64.lt_irrefl _), if_neg (not_not_intro rfl)]
    · rw [growth_self, Function.iterate_zero_apply]
  · obtain ⟨s', hrun, hpoint, hrest, -⟩ := updatetime_later timerUpdate hle hne hlt
    exact ⟨s', hrun, hpoint, hrest⟩

/-- The correction at the wrap is 96 centiseconds short. -/
theorem exact_iff (hle : s.currentPoint ≤ cp) (hlt : s.growth cp < 2147483648) :
    Exact timerUpdate (s, cp) ↔ ¬ Wraps (s, cp) := by
  by_cases hne : cp = s.currentPoint
  · subst hne
    have hold := s.current.toNat_lt
    obtain ⟨s', hrun, -, hrest⟩ := updatetime_steady timerUpdate hle hlt
    have hsame : updatetime timerUpdate s.currentPoint s = some s := by
      rw [updatetime, if_neg (UInt64.lt_irrefl _), if_neg (not_not_intro rfl)]
    refine iff_of_true ⟨s, hsame, ?_, ?_⟩ ?_
    · rw [growth_self, Nat.add_zero]
    · rw [growth_self, Function.iterate_zero_apply]
    · change ¬ 4294967296 ≤ s.current.toNat + s.growth s.currentPoint
      rw [growth_self]
      omega
  · obtain ⟨s', hrun, -, hrest, hcurrent, hstart⟩ :=
      updatetime_later timerUpdate hle hne hlt
    have hwall : s'.wall = s.wall + s.growth cp ↔ s.current.toNat + s.growth cp < 4294967296 := by
      have hold := s.current.toNat_lt
      unfold wall
      rw [hcurrent, hstart]
      split
      next hlow => omega
      next hlow => omega
    rw [Wraps, Nat.not_le, ← hwall]
    constructor
    · intro h
      obtain ⟨t, hrun', ht, -⟩ := h
      rw [Option.some.inj (hrun.symm.trans hrun')]
      exact ht
    · intro h
      exact ⟨s', hrun, h, hrest⟩

end Call

section Run

theorem steady_of_mem_calls {c : Clock σ × UInt64} (h : Steady s.currentPoint cps)
    (hc : c ∈ calls timerUpdate s cps) :
    c.1.currentPoint ≤ c.2 ∧ c.1.growth c.2 < 2147483648 := by
  induction cps generalizing s with
  | nil => cases hc
  | cons cp cps ih =>
      obtain ⟨⟨hle, hlt⟩, hrest⟩ := h
      obtain ⟨s', hrun, hpoint, -⟩ := updatetime_steady timerUpdate hle hlt
      rw [calls, hrun] at hc
      cases hc with
      | head => exact ⟨hle, hlt⟩
      | tail _ hc =>
          rw [← hpoint] at hrest
          exact ih hrest hc

/-- Every call of a run is exact just where none of them wraps. -/
theorem run_exact_iff (h : Steady s.currentPoint cps) :
    (∀ c ∈ calls timerUpdate s cps, Exact timerUpdate c) ↔
      ∀ c ∈ calls timerUpdate s cps, ¬ Wraps c := by
  refine forall_congr' fun c => imp_congr_right fun hc => ?_
  obtain ⟨hle, hlt⟩ := steady_of_mem_calls timerUpdate h hc
  exact exact_iff timerUpdate hle hlt

/-- Ticks of one second and a half from the clock's start on -/
theorem run_exact_short : Steady 100 [100, 163, 163, 250] ∧
    ∀ c ∈ calls Nat.succ (init 7 50 100 0) [100, 163, 163, 250], Exact Nat.succ c := by
  have hsteady : Steady 100 [100, 163, 163, 250] := by
    refine ⟨?_, ?_, ?_, ?_, trivial⟩
    all_goals decide
  refine ⟨hsteady, (run_exact_iff Nat.succ hsteady).mpr ?_⟩
  intro c hc
  have hlist : calls Nat.succ (init 7 50 100 0) [100, 163, 163, 250] =
      [(⟨50, 7, 100, 0⟩, 100), (⟨50, 7, 100, 0⟩, 163), (⟨113, 7, 163, 63⟩, 163),
        (⟨113, 7, 163, 63⟩, 250)] := by
    rfl
  rw [hlist] at hc
  simp only [List.mem_cons, List.not_mem_nil, or_false] at hc
  rcases hc with rfl | rfl | rfl | rfl
  all_goals decide

theorem calls_cons {s' : Clock σ} (hrun : updatetime timerUpdate cp s = some s') :
    calls timerUpdate s (cp :: cps) = (s, cp) :: calls timerUpdate s' cps := by
  rw [calls, hrun]
  rfl

/-- Three calls of a clock that starts at `0`: the third wraps. -/
theorem run_not_exact : Steady 0 [2147483647, 4294967294, 4294967296] ∧
    ¬ ∀ c ∈ calls id (init 0 0 0 ()) [2147483647, 4294967294, 4294967296], Exact id c := by
  refine ⟨⟨by decide, by decide, by decide, trivial⟩, ?_⟩
  intro h
  have hle₁ : (init 0 0 0 ()).currentPoint ≤ 2147483647 := by decide
  obtain ⟨s₁, hrun₁, hpoint₁, -, hcurrent₁, -⟩ := updatetime_later id hle₁ (by decide) (by decide)
  have hle₂ : s₁.currentPoint ≤ 4294967294 := by
    rw [hpoint₁]
    decide
  obtain ⟨s₂, hrun₂, hpoint₂, -, hcurrent₂, -⟩ := updatetime_later id hle₂
    (by rw [hpoint₁]; decide) (by rw [growth, hpoint₁]; decide)
  rw [calls_cons id hrun₁, calls_cons id hrun₂] at h
  have hexact : Exact id (s₂, 4294967296) := h _ (by simp [calls])
  rw [exact_iff id (by rw [hpoint₂]; decide) (by rw [growth, hpoint₂]; decide)] at hexact
  have hvalue₁ : s₁.current.toNat = 2147483647 := hcurrent₁.trans (by decide)
  have hvalue₂ : s₂.current.toNat = 4294967294 := by
    rw [hcurrent₂, growth, hpoint₁, hvalue₁]
    decide
  refine hexact ?_
  rw [Wraps, growth, hpoint₂]
  dsimp only
  rw [hvalue₂]
  decide

end Run

end Clock

end Jump.Skynet.TimerWheel
