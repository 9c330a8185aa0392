import Jump.Skynet.TimerWheel.Code
import Mathlib.Data.Nat.Bitwise

/-! # What the wheel holds

The timers that wait are spread over the lists by their expiry; within a list those
of one expiry are in the order in which they were added.
-/

namespace Jump.Skynet.TimerWheel

open Jump.Core

/-! ## Where `add_node` puts a node

The place depends on the digits of the two times: eight bits, and then six bits for
each level.
 -/

theorem or_mask_eq_iff {a b : Nat} (k : Nat) :
    a ||| (2 ^ k - 1) = b ||| (2 ^ k - 1) ↔ a / 2 ^ k = b / 2 ^ k := by
  rw [← Nat.shiftRight_eq_div_pow, ← Nat.shiftRight_eq_div_pow]
  constructor
  · intro h
    have hshift := congrArg (fun n => n >>> k) h
    have hmask : (2 ^ k - 1) >>> k = 0 := by
      rw [Nat.shiftRight_eq_div_pow]
      exact Nat.div_eq_of_lt (Nat.sub_one_lt (Nat.two_pow_pos k).ne')
    simpa [Nat.shiftRight_or_distrib, hmask] using hshift
  · intro h
    apply Nat.eq_of_testBit_eq
    intro i
    rw [Nat.testBit_or, Nat.testBit_or, Nat.testBit_two_pow_sub_one]
    by_cases hi : i < k
    · simp [hi]
    · have hbit := congrArg (fun n => n.testBit (i - k)) h
      simp only [Nat.testBit_shiftRight] at hbit
      rw [Nat.add_sub_cancel' (by omega : k ≤ i)] at hbit
      rw [hbit]

theorem findLevel_eq (e c : Nat) : findLevel e c 3 0 (TIME_NEAR <<< TIME_LEVEL_SHIFT) =
    if e / 2 ^ 14 = c / 2 ^ 14 then 0
    else if e / 2 ^ 20 = c / 2 ^ 20 then 1
    else if e / 2 ^ 26 = c / 2 ^ 26 then 2
    else 3 := by
  have h14 : e ||| (TIME_NEAR <<< TIME_LEVEL_SHIFT - 1) =
      c ||| (TIME_NEAR <<< TIME_LEVEL_SHIFT - 1) ↔ e / 2 ^ 14 = c / 2 ^ 14 := or_mask_eq_iff 14
  have h20 : e ||| (u32 (TIME_NEAR <<< TIME_LEVEL_SHIFT <<< TIME_LEVEL_SHIFT) - 1) =
      c ||| (u32 (TIME_NEAR <<< TIME_LEVEL_SHIFT <<< TIME_LEVEL_SHIFT) - 1) ↔
        e / 2 ^ 20 = c / 2 ^ 20 := or_mask_eq_iff 20
  have h26 : e ||| (u32 (u32 (TIME_NEAR <<< TIME_LEVEL_SHIFT <<< TIME_LEVEL_SHIFT) <<<
      TIME_LEVEL_SHIFT) - 1) = c ||| (u32 (u32 (TIME_NEAR <<< TIME_LEVEL_SHIFT <<<
        TIME_LEVEL_SHIFT) <<< TIME_LEVEL_SHIFT) - 1) ↔ e / 2 ^ 26 = c / 2 ^ 26 :=
    or_mask_eq_iff 26
  simp only [findLevel, h14, h20, h26]

/-- The place of a node in terms of the digits. -/
theorem slotOf_eq (e c : Nat) : slotOf e c =
    if e / 2 ^ 8 = c / 2 ^ 8 then .near (e % 2 ^ 8)
    else if e / 2 ^ 14 = c / 2 ^ 14 then .t 0 (e / 2 ^ 8 % 2 ^ 6)
    else if e / 2 ^ 20 = c / 2 ^ 20 then .t 1 (e / 2 ^ 14 % 2 ^ 6)
    else if e / 2 ^ 26 = c / 2 ^ 26 then .t 2 (e / 2 ^ 20 % 2 ^ 6)
    else .t 3 (e / 2 ^ 26 % 2 ^ 6) := by
  have h8 : e ||| TIME_NEAR_MASK = c ||| TIME_NEAR_MASK ↔ e / 2 ^ 8 = c / 2 ^ 8 :=
    or_mask_eq_iff 8
  have hnear : e &&& TIME_NEAR_MASK = e % 2 ^ 8 := Nat.and_two_pow_sub_one_eq_mod e 8
  have hlevel : ∀ n, n &&& TIME_LEVEL_MASK = n % 2 ^ 6 :=
    fun n => Nat.and_two_pow_sub_one_eq_mod n 6
  unfold slotOf
  simp only [h8, hnear, hlevel, findLevel_eq, Nat.shiftRight_eq_div_pow]
  split
  · rfl
  · split
    · rfl
    · split
      · rfl
      · split
        · rfl
        · rfl

/-- The list for a time has the nodes that expire at it. -/
theorem slotOf_eq_near {e c : Nat} : slotOf e c = .near (c % 2 ^ 8) ↔ e = c := by
  constructor
  · intro hslot
    rw [slotOf_eq] at hslot
    split at hslot
    · have hlow := Slot.near.inj hslot
      omega
    · repeat' split at hslot
      all_goals cases hslot
  · intro h
    subst h
    rw [slotOf_eq, if_pos rfl]

/-- The list that `timer_shift` moves at the time `ct`. -/
def movedSlot (ct : Nat) : Option Slot :=
  if ct = 0 then some (.t 3 0)
  else if ct % 2 ^ 8 ≠ 0 then none
  else if ct / 2 ^ 8 % 2 ^ 6 ≠ 0 then some (.t 0 (ct / 2 ^ 8 % 2 ^ 6))
  else if ct / 2 ^ 14 % 2 ^ 6 ≠ 0 then some (.t 1 (ct / 2 ^ 14 % 2 ^ 6))
  else if ct / 2 ^ 20 % 2 ^ 6 ≠ 0 then some (.t 2 (ct / 2 ^ 20 % 2 ^ 6))
  else some (.t 3 (ct / 2 ^ 26 % 2 ^ 6))

/-- Half of the times are ahead of a time, counted through the wrap. -/
def Ahead (now e : Nat) : Prop := e < 2 ^ 32 ∧ 0 < (e + 2 ^ 32 - now) % 2 ^ 32 ∧
  (e + 2 ^ 32 - now) % 2 ^ 32 < 2 ^ 31

section Tick

variable {now e : Nat}

/-- The last time of a block has nothing ahead in the block. -/
theorem Ahead.block_ne (h : Ahead now e) :
    (u32 (now + 1) % 2 ^ 8 = 0 → e / 2 ^ 8 ≠ now / 2 ^ 8) ∧
    (u32 (now + 1) % 2 ^ 14 = 0 → e / 2 ^ 14 ≠ now / 2 ^ 14) ∧
    (u32 (now + 1) % 2 ^ 20 = 0 → e / 2 ^ 20 ≠ now / 2 ^ 20) ∧
    (u32 (now + 1) % 2 ^ 26 = 0 → e / 2 ^ 26 ≠ now / 2 ^ 26) := by
  unfold Ahead at h
  unfold u32
  refine ⟨?_, ?_, ?_, ?_⟩ <;> intro hct heq <;> omega

/-- Inside of a block the tick leaves the block alone. -/
theorem block_eq (hnow : now < 2 ^ 32) :
    (u32 (now + 1) % 2 ^ 8 ≠ 0 → u32 (now + 1) / 2 ^ 8 = now / 2 ^ 8) ∧
    (u32 (now + 1) % 2 ^ 14 ≠ 0 → u32 (now + 1) / 2 ^ 14 = now / 2 ^ 14) ∧
    (u32 (now + 1) % 2 ^ 20 ≠ 0 → u32 (now + 1) / 2 ^ 20 = now / 2 ^ 20) ∧
    (u32 (now + 1) % 2 ^ 26 ≠ 0 → u32 (now + 1) / 2 ^ 26 = now / 2 ^ 26) := by
  unfold u32
  refine ⟨?_, ?_, ?_, ?_⟩ <;> intro hct <;> omega

/-- What is ahead does not change its place with a tick, unless it is in the list that is
moved. -/
theorem slotOf_tick (hnow : now < 2 ^ 32) (h : Ahead now e)
    (hmoved : movedSlot (u32 (now + 1)) ≠ some (slotOf e now)) :
    slotOf e (u32 (now + 1)) = slotOf e now := by
  obtain ⟨hne8, hne14, hne20, hne26⟩ := h.block_ne
  obtain ⟨heq8, heq14, heq20, heq26⟩ := block_eq hnow
  have hlt : u32 (now + 1) < 2 ^ 32 := Nat.mod_lt _ (by decide)
  generalize u32 (now + 1) = ct at *
  rw [slotOf_eq] at hmoved
  rw [slotOf_eq, slotOf_eq]
  unfold movedSlot at hmoved
  have helt := h.1
  by_cases hzero : ct = 0
  · subst hzero
    rw [if_pos rfl, if_neg (hne8 rfl), if_neg (hne14 rfl), if_neg (hne20 rfl),
      if_neg (hne26 rfl)] at hmoved
    have hdigit : 0 ≠ e / 2 ^ 26 % 2 ^ 6 := fun heq => hmoved (by rw [← heq])
    rw [if_neg (hne8 rfl), if_neg (hne14 rfl), if_neg (hne20 rfl), if_neg (hne26 rfl),
      if_neg (by omega), if_neg (by omega), if_neg (by omega), if_neg (by omega)]
  rw [if_neg hzero] at hmoved
  by_cases h8 : ct % 2 ^ 8 = 0
  · rw [if_neg (not_not.mpr h8)] at hmoved
    have hn8 := hne8 h8
    rw [if_neg hn8] at hmoved
    rw [if_neg hn8]
    by_cases h14 : ct / 2 ^ 8 % 2 ^ 6 = 0
    · rw [if_neg (not_not.mpr h14)] at hmoved
      have hn14 := hne14 (by omega)
      rw [if_neg hn14] at hmoved
      rw [if_neg hn14]
      by_cases h20 : ct / 2 ^ 14 % 2 ^ 6 = 0
      · rw [if_neg (not_not.mpr h20)] at hmoved
        have hn20 := hne20 (by omega)
        rw [if_neg hn20] at hmoved
        rw [if_neg hn20]
        by_cases h26 : ct / 2 ^ 20 % 2 ^ 6 = 0
        · rw [if_neg (not_not.mpr h26)] at hmoved
          have hn26 := hne26 (by omega)
          rw [if_neg hn26] at hmoved
          have hdigit : ct / 2 ^ 26 % 2 ^ 6 ≠ e / 2 ^ 26 % 2 ^ 6 := fun heq => hmoved (by rw [heq])
          rw [if_neg hn26, if_neg (by omega), if_neg (by omega), if_neg (by omega),
            if_neg (by omega)]
        · rw [if_pos h26, ← heq26 (by omega)] at hmoved
          rw [← heq26 (by omega)]
          by_cases hsame : e / 2 ^ 26 = ct / 2 ^ 26
          · rw [if_pos hsame] at hmoved
            have hdigit : ct / 2 ^ 20 % 2 ^ 6 ≠ e / 2 ^ 20 % 2 ^ 6 :=
              fun heq => hmoved (by rw [heq])
            rw [if_pos hsame, if_neg (by omega), if_neg (by omega), if_neg (by omega)]
          · rw [if_neg hsame, if_neg (by omega), if_neg (by omega), if_neg (by omega)]
      · rw [if_pos h20, ← heq20 (by omega)] at hmoved
        rw [← heq20 (by omega), ← heq26 (by omega)]
        by_cases hsame : e / 2 ^ 20 = ct / 2 ^ 20
        · rw [if_pos hsame] at hmoved
          have hdigit : ct / 2 ^ 14 % 2 ^ 6 ≠ e / 2 ^ 14 % 2 ^ 6 :=
            fun heq => hmoved (by rw [heq])
          rw [if_neg (by omega), if_neg (by omega)]
        · rw [if_neg (by omega), if_neg (by omega)]
    · rw [if_pos h14, ← heq14 (by omega)] at hmoved
      rw [← heq14 (by omega), ← heq20 (by omega), ← heq26 (by omega)]
      by_cases hsame : e / 2 ^ 14 = ct / 2 ^ 14
      · rw [if_pos hsame] at hmoved
        have hdigit : ct / 2 ^ 8 % 2 ^ 6 ≠ e / 2 ^ 8 % 2 ^ 6 := fun heq => hmoved (by rw [heq])
        rw [if_neg (by omega)]
      · rw [if_neg (by omega)]
  · rw [heq8 h8, heq14 (by omega), heq20 (by omega), heq26 (by omega)]

end Tick

/-! ## The lists of the wheel -/

section Move

variable {T : Timer} {p : Slot} {l : List TimerNode}

theorem link_list (T : Timer) (slot : Slot) (node : TimerNode) (p : Slot) :
    (link T slot node).list p = T.list p ++ if slot = p then [node] else [] := by
  unfold link
  by_cases h : slot = p
  · subst h
    simp
  · simp [h, Function.update_of_ne (Ne.symm h)]

theorem linkClear_list (T : Timer) (slot p : Slot) :
    (linkClear T slot).list p = if slot = p then [] else T.list p := by
  unfold linkClear
  by_cases h : slot = p
  · subst h
    simp
  · simp [h, Function.update_of_ne (Ne.symm h)]

/-- The nodes go to the ends of their lists. -/
theorem foldl_addNode (l : List TimerNode) (T : Timer) :
    (l.foldl addNode T).time = T.time ∧ ∀ p, (l.foldl addNode T).list p =
      T.list p ++ l.filter fun n => slotOf n.expire T.time = p := by
  induction l generalizing T with
  | nil => simp
  | cons n l ih =>
      obtain ⟨htime, hlist⟩ := ih (addNode T n)
      have hadd : (addNode T n).time = T.time := rfl
      refine ⟨by rw [List.foldl_cons, htime, hadd], ?_⟩
      intro p
      rw [List.foldl_cons, hlist, hadd, addNode, link_list, List.filter_cons, List.append_assoc]
      by_cases h : slotOf n.expire T.time = p
      · simp [h]
      · simp [h]

/-- `move_list` on any list. -/
def moveSlot (T : Timer) (slot : Slot) : Timer := (T.list slot).foldl addNode (linkClear T slot)

theorem moveSlot_time (T : Timer) (slot : Slot) : (moveSlot T slot).time = T.time :=
  (foldl_addNode _ _).1

theorem moveSlot_list (T : Timer) (slot p : Slot) : (moveSlot T slot).list p =
    (if slot = p then [] else T.list p) ++
      (T.list slot).filter fun n => slotOf n.expire T.time = p := by
  rw [moveSlot, (foldl_addNode _ _).2, linkClear_list]
  rfl

end Move

/-- The wheel just after the time has gone on. -/
def setTime (T : Timer) : Timer := { T with time := u32 (T.time + 1) }

/-- One round of the loop, when the digits below are zero. -/
theorem shiftLoop_round {T : Timer} {ct : Nat} (n i k : Nat) (h : ct % 2 ^ k = 0) :
    shiftLoop T ct (n + 1) (2 ^ k) (ct / 2 ^ k) i =
      if ct / 2 ^ k % 2 ^ 6 ≠ 0 then moveList T i (ct / 2 ^ k % 2 ^ 6)
      else shiftLoop T ct n (2 ^ (k + 6)) (ct / 2 ^ (k + 6)) (i + 1) := by
  have hmask : ct &&& (2 ^ k - 1) = 0 := by rw [Nat.and_two_pow_sub_one_eq_mod, h]
  have hidx : ct / 2 ^ k &&& TIME_LEVEL_MASK = ct / 2 ^ k % 2 ^ 6 :=
    Nat.and_two_pow_sub_one_eq_mod _ 6
  have hnext : (2 ^ k) <<< TIME_LEVEL_SHIFT = 2 ^ (k + 6) := by
    rw [Nat.shiftLeft_eq, Nat.pow_add]
    rfl
  have htime : (ct / 2 ^ k) >>> TIME_LEVEL_SHIFT = ct / 2 ^ (k + 6) := by
    rw [Nat.shiftRight_eq_div_pow, Nat.div_div_eq_div_mul, Nat.pow_add]
    rfl
  rw [shiftLoop, if_pos hmask]
  simp only [hidx, hnext, htime]

/-- `timer_shift` moves one list at most. -/
theorem timerShift_eq (T : Timer) : timerShift T =
    match movedSlot (u32 (T.time + 1)) with
    | none => setTime T
    | some slot => moveSlot (setTime T) slot := by
  have hlt : u32 (T.time + 1) < 2 ^ 32 := Nat.mod_lt _ (by decide)
  unfold timerShift setTime
  generalize u32 (T.time + 1) = ct at *
  have hfirst : ct >>> TIME_NEAR_SHIFT = ct / 2 ^ 8 := Nat.shiftRight_eq_div_pow ct 8
  have hmask : TIME_NEAR = 2 ^ 8 := rfl
  unfold movedSlot
  by_cases hzero : ct = 0
  · simp only [if_pos hzero]
    rfl
  simp only [if_neg hzero, hfirst, hmask]
  by_cases h8 : ct % 2 ^ 8 = 0
  · rw [if_neg (not_not.mpr h8), shiftLoop_round 3 0 8 h8]
    by_cases h14 : ct / 2 ^ 8 % 2 ^ 6 = 0
    · rw [if_neg (not_not.mpr h14), if_neg (not_not.mpr h14), shiftLoop_round 2 1 14 (by omega)]
      by_cases h20 : ct / 2 ^ 14 % 2 ^ 6 = 0
      · rw [if_neg (not_not.mpr h20), if_neg (not_not.mpr h20), shiftLoop_round 1 2 20 (by omega)]
        by_cases h26 : ct / 2 ^ 20 % 2 ^ 6 = 0
        · rw [if_neg (not_not.mpr h26), if_neg (not_not.mpr h26),
            shiftLoop_round 0 3 26 (by omega), if_pos (by omega)]
          rfl
        · rw [if_pos h26, if_pos h26]
          rfl
      · rw [if_pos h20, if_pos h20]
        rfl
    · rw [if_pos h14, if_pos h14]
      rfl
  · have hmod : ct &&& (2 ^ 8 - 1) ≠ 0 := by rwa [Nat.and_two_pow_sub_one_eq_mod]
    rw [if_pos h8, shiftLoop, if_neg hmod]

/-- The timers that wait, each with the tick it is for, after `ticks` ticks from the time
`time₀`. -/
structure Wheel (time₀ ticks : Nat) (T : Timer) (waiting : List (Nat × TimerNode)) : Prop where
  time : T.time = u32 (time₀ + ticks)
  same : ∀ slot e, (T.list slot).filter (fun n => n.expire = e) =
    if slotOf e T.time = slot then (waiting.map Prod.snd).filter (fun n => n.expire = e) else []
  expire : ∀ x ∈ waiting, x.2.expire = u32 (time₀ + x.1)
  range : ∀ x ∈ waiting, ticks ≤ x.1 ∧ x.1 < ticks + 2 ^ 31

namespace Wheel

variable {time₀ ticks : Nat} {T : Timer} {waiting : List (Nat × TimerNode)}

theorem start (time : UInt32) : Wheel time.toNat 0 (create time.toNat) [] := by
  refine ⟨?_, ?_, by simp, by simp⟩
  · exact (u32_of_lt time.toNat_lt).symm
  · intro slot e
    simp [create]

theorem time_lt (h : Wheel time₀ ticks T waiting) : T.time < 2 ^ 32 := by
  rw [h.time]
  exact Nat.mod_lt _ (by decide)

/-- What waits for a later tick is ahead. -/
theorem ahead (h : Wheel time₀ ticks T waiting) {x : Nat × TimerNode} (hx : x ∈ waiting)
    (hlater : ticks < x.1) : Ahead T.time x.2.expire := by
  have hrange := h.range x hx
  rw [h.expire x hx, h.time]
  unfold Ahead u32
  omega

/-- What waits for this tick expires now, and nothing else does. -/
theorem expire_iff (h : Wheel time₀ ticks T waiting) {x : Nat × TimerNode} (hx : x ∈ waiting) :
    x.2.expire = T.time ↔ x.1 = ticks := by
  have hrange := h.range x hx
  rw [h.expire x hx, h.time]
  unfold u32
  omega

theorem add (h : Wheel time₀ ticks T waiting) (event : TimerEvent) (time : Delay) :
    Wheel time₀ ticks (timerAdd T event time.1)
      (waiting ++ [(ticks + time.1.toNat, ⟨u32 (uint32OfInt time.1 + T.time), event⟩)]) := by
  obtain ⟨time, hpos, hlt⟩ := time
  refine ⟨h.time, ?_, ?_, ?_⟩
  · intro slot e
    have hsame := h.same slot e
    have htime : (timerAdd T event time).time = T.time := rfl
    unfold timerAdd addNode at htime ⊢
    rw [htime, link_list, List.filter_append, hsame, List.map_append, List.filter_append]
    by_cases he : u32 (uint32OfInt time + T.time) = e
    · subst he
      split
      · simp
      · rfl
    · split <;> split <;> simp [he]
  · intro x hx
    rcases List.mem_append.mp hx with hx | hx
    · exact h.expire x hx
    · rw [List.mem_singleton.mp hx]
      simp only [h.time]
      unfold u32 uint32OfInt
      omega
  · intro x hx
    rcases List.mem_append.mp hx with hx | hx
    · exact h.range x hx
    · rw [List.mem_singleton.mp hx]
      simp only
      omega

/-- The nodes of one expiry are in one list, and that list stays or is moved. -/
theorem slotOf_shift (h : Wheel time₀ ticks T waiting) (hlater : ∀ x ∈ waiting, ticks < x.1)
    (e : Nat) (hmoved : movedSlot (u32 (T.time + 1)) ≠ some (slotOf e T.time)) :
    (waiting.map Prod.snd).filter (fun n => n.expire = e) = [] ∨
      slotOf e (u32 (T.time + 1)) = slotOf e T.time := by
  by_cases hnone : (waiting.map Prod.snd).filter (fun n => n.expire = e) = []
  · exact Or.inl hnone
  · right
    obtain ⟨n, hn⟩ := List.exists_mem_of_ne_nil _ hnone
    obtain ⟨hmem, hexpire⟩ := List.mem_filter.mp hn
    obtain ⟨x, hx, rfl⟩ := List.mem_map.mp hmem
    rw [decide_eq_true_eq] at hexpire
    subst hexpire
    exact slotOf_tick h.time_lt (h.ahead hx (hlater x hx)) hmoved

theorem shift (h : Wheel time₀ ticks T waiting) (hlater : ∀ x ∈ waiting, ticks < x.1) :
    Wheel time₀ (ticks + 1) (timerShift T) waiting := by
  have htime : (timerShift T).time = u32 (T.time + 1) := by
    rw [timerShift_eq]
    split
    · rfl
    · exact moveSlot_time _ _
  refine ⟨?_, ?_, h.expire, ?_⟩
  · rw [htime, h.time]
    unfold u32
    omega
  · intro slot e
    rw [htime, timerShift_eq]
    have hplace := h.slotOf_shift hlater e
    cases hmoved : movedSlot (u32 (T.time + 1)) with
    | none =>
        have hlist : (setTime T).list = T.list := rfl
        simp only [hlist]
        rw [h.same slot e]
        rcases hplace (by rw [hmoved]; simp) with hnone | hstay
        · rw [hnone, ite_self, ite_self]
        · rw [hstay]
    | some m =>
        have hlist : ∀ p, (setTime T).list p = T.list p := fun _ => rfl
        have hnow : (setTime T).time = u32 (T.time + 1) := rfl
        simp only [moveSlot_list, hlist, hnow]
        -- what was in the moved list goes to its new place, the rest stays
        have hgo : (List.filter (fun n => slotOf n.expire (u32 (T.time + 1)) = slot)
            (T.list m)).filter (fun n => n.expire = e) =
              if slotOf e (u32 (T.time + 1)) = slot then
                (T.list m).filter fun n => n.expire = e
              else [] := by
          rw [List.filter_filter]
          split
          · rename_i hslot
            apply List.filter_congr
            intro n _
            by_cases hn : n.expire = e
            · simp [hn, hslot]
            · simp [hn]
          · rename_i hslot
            apply List.filter_eq_nil_iff.mpr
            intro n _
            by_cases hn : n.expire = e
            · simp [hn, hslot]
            · simp [hn]
        rw [List.filter_append, hgo, h.same m e]
        by_cases hm : slotOf e T.time = m
        · rw [if_pos hm]
          have hleft : (if m = slot then [] else T.list slot).filter (fun n => n.expire = e) =
              [] := by
            split
            · rfl
            · rename_i hne
              rw [h.same slot e, if_neg (by rw [hm]; exact hne)]
          rw [hleft, List.nil_append]
        · rw [if_neg hm, ite_self, List.append_nil]
          have hmoved' : movedSlot (u32 (T.time + 1)) ≠ some (slotOf e T.time) := by
            rw [hmoved]
            simp [Ne.symm hm]
          have hstay : (if m = slot then [] else T.list slot).filter (fun n => n.expire = e) =
              if slotOf e T.time = slot then
                (waiting.map Prod.snd).filter (fun n => n.expire = e)
              else [] := by
            split
            · rename_i hslot
              rw [if_neg (by rw [← hslot]; exact hm)]
              rfl
            · exact h.same slot e
          rw [hstay]
          rcases hplace hmoved' with hnone | hsame
          · rw [hnone, ite_self, ite_self]
          · rw [hsame]
  · intro x hx
    have hrange := h.range x hx
    have hlate := hlater x hx
    omega

/-- The list for this time has what expires now, in the order in which it was added. -/
theorem near_list (h : Wheel time₀ ticks T waiting) :
    T.list (.near (T.time &&& TIME_NEAR_MASK)) =
      (waiting.filter fun x => x.1 = ticks).map Prod.snd := by
  have hidx : T.time &&& TIME_NEAR_MASK = T.time % 2 ^ 8 := Nat.and_two_pow_sub_one_eq_mod _ 8
  rw [hidx]
  have hall : ∀ n ∈ T.list (.near (T.time % 2 ^ 8)), n.expire = T.time := by
    intro n hn
    have hmem : n ∈ (T.list (.near (T.time % 2 ^ 8))).filter (fun k => k.expire = n.expire) :=
      List.mem_filter.mpr ⟨hn, by simp⟩
    rw [h.same] at hmem
    split at hmem
    · rename_i hslot
      exact slotOf_eq_near.mp hslot
    · cases hmem
  have hfilter : T.list (.near (T.time % 2 ^ 8)) =
      (T.list (.near (T.time % 2 ^ 8))).filter fun n => n.expire = T.time := by
    rw [List.filter_eq_self.mpr]
    intro n hn
    simp [hall n hn]
  rw [hfilter, h.same, if_pos (slotOf_eq_near.mpr rfl), List.filter_map]
  congr 1
  apply List.filter_congr
  intro x hx
  simp [h.expire_iff hx]

/-- The list is taken. -/
theorem take (h : Wheel time₀ ticks T waiting) :
    Wheel time₀ ticks (linkClear T (.near (T.time &&& TIME_NEAR_MASK)))
      (waiting.filter fun x => ticks < x.1) := by
  have hidx : T.time &&& TIME_NEAR_MASK = T.time % 2 ^ 8 := Nat.and_two_pow_sub_one_eq_mod _ 8
  have hmem : ∀ x, x ∈ waiting.filter (fun x => ticks < x.1) → x ∈ waiting :=
    fun x hx => (List.mem_filter.mp hx).1
  refine ⟨h.time, ?_, fun x hx => h.expire x (hmem x hx), fun x hx => h.range x (hmem x hx)⟩
  intro slot e
  have htime : (linkClear T (.near (T.time &&& TIME_NEAR_MASK))).time = T.time := rfl
  -- only what expires now leaves the timers that wait
  have hwait : ((waiting.filter fun x => ticks < x.1).map Prod.snd).filter
      (fun n => n.expire = e) = if e = T.time then [] else
        (waiting.map Prod.snd).filter fun n => n.expire = e := by
    rw [List.filter_map, List.filter_map, List.filter_filter]
    split
    · rename_i he
      subst he
      rw [List.map_eq_nil_iff, List.filter_eq_nil_iff]
      intro x hx
      have hiff := h.expire_iff hx
      simp only [Function.comp, Bool.and_eq_true, decide_eq_true_eq]
      omega
    · rename_i he
      congr 1
      apply List.filter_congr
      intro x hx
      have hiff := h.expire_iff hx
      have hrange := h.range x hx
      simp only [Function.comp]
      by_cases hx' : x.2.expire = e
      · have hlater : ticks < x.1 := by
          rw [hx'] at hiff
          have hne : x.1 ≠ ticks := fun heq => he (hiff.mpr heq)
          omega
        simp [hx', hlater]
      · simp [hx']
  rw [htime, linkClear_list, hidx, hwait]
  by_cases he : e = T.time
  · rw [if_pos he, ite_self]
    subst he
    split
    · rfl
    · rename_i hslot
      rw [h.same, if_neg]
      rwa [slotOf_eq_near.mpr rfl]
  · rw [if_neg he]
    have hplace : slotOf e T.time ≠ .near (T.time % 2 ^ 8) := fun heq => he (slotOf_eq_near.mp heq)
    split
    · rename_i hslot
      rw [if_neg (by rw [← hslot]; exact hplace)]
      rfl
    · exact h.same slot e

end Wheel

end Jump.Skynet.TimerWheel
