import Mathlib.Data.List.Basic
import Mathlib.Logic.Function.Basic

/-! # A queue in a circular array

The array is doubled when it is full, so `head = tail` means that it is empty.
-/

namespace Jump.Core

/-- `cap` places of `slot`; the queue goes from `head` up to `tail`, around the end. -/
structure RingBuffer (α : Type*) where
  cap : Nat
  head : Nat
  tail : Nat
  slot : Nat → α
  head_lt : head < cap
  tail_lt : tail < cap

namespace RingBuffer

variable {α : Type*}

def empty (cap : Nat) (hcap : 0 < cap) (x : α) : RingBuffer α where
  cap := cap
  head := 0
  tail := 0
  slot := fun _ => x
  head_lt := hcap
  tail_lt := hcap

def length (r : RingBuffer α) : Nat :=
  if r.head ≤ r.tail then r.tail - r.head else r.tail + r.cap - r.head

/-- What is in the queue, first one first. -/
def toList (r : RingBuffer α) : List α :=
  (List.range r.length).map fun i => r.slot ((r.head + i) % r.cap)

/-- The next place, around the end. -/
def after (r : RingBuffer α) (i : Nat) : Nat := if r.cap ≤ i + 1 then 0 else i + 1

theorem after_lt (r : RingBuffer α) (i : Nat) : r.after i < r.cap := by
  have hcap := r.head_lt
  unfold after
  split <;> omega

/-- The first element and the queue without it. -/
def pop (r : RingBuffer α) : Option (α × RingBuffer α) :=
  if r.head = r.tail then none
  else some (r.slot r.head, { r with head := r.after r.head, head_lt := r.after_lt r.head })

/-- Twice the places, with the full queue `r` at their start. -/
def expand (r : RingBuffer α) : RingBuffer α where
  cap := r.cap * 2
  head := 0
  tail := r.cap
  slot := fun i => if i < r.cap then r.slot ((r.head + i) % r.cap) else r.slot i
  head_lt := by
    have hcap := r.head_lt
    omega
  tail_lt := by
    have hcap := r.head_lt
    omega

/-- The array with `x` at the end of the queue; it may be full then. -/
def put (r : RingBuffer α) (x : α) : RingBuffer α where
  cap := r.cap
  head := r.head
  tail := r.after r.tail
  slot := Function.update r.slot r.tail x
  head_lt := r.head_lt
  tail_lt := r.after_lt r.tail

def push (r : RingBuffer α) (x : α) : RingBuffer α :=
  if (r.put x).head = (r.put x).tail then (r.put x).expand else r.put x

variable {r : RingBuffer α} {x : α}

theorem toList_empty (cap : Nat) (hcap : 0 < cap) (x : α) : (empty cap hcap x).toList = [] := rfl

theorem length_lt (r : RingBuffer α) : r.length < r.cap := by
  have hhead := r.head_lt
  have htail := r.tail_lt
  unfold length
  split <;> omega

/-- One round at most. -/
theorem mod_cap {head cap i : Nat} (hhead : head < cap) (hi : i < cap) :
    (head + i) % cap = if head + i < cap then head + i else head + i - cap := by
  split
  · rename_i hlt
    exact Nat.mod_eq_of_lt hlt
  · rename_i hge
    rw [Nat.mod_eq_sub_mod (by omega), Nat.mod_eq_of_lt (by omega)]

theorem tail_eq (r : RingBuffer α) : (r.head + r.length) % r.cap = r.tail := by
  have hhead := r.head_lt
  have htail := r.tail_lt
  rw [mod_cap hhead r.length_lt]
  unfold length
  split <;> split <;> omega

/-- The elements stay, and the new one is behind them. -/
theorem slots_put (r : RingBuffer α) (x : α) :
    (List.range (r.length + 1)).map (fun i => (r.put x).slot ((r.head + i) % r.cap)) =
      r.toList ++ [x] := by
  have hlast : (r.put x).slot ((r.head + r.length) % r.cap) = x := by
    rw [tail_eq]
    exact Function.update_self _ _ _
  rw [List.range_succ, List.map_append, List.map_singleton, hlast, toList]
  congr 1
  apply List.map_congr_left
  intro i hi
  have hlt := List.mem_range.mp hi
  have hlen := r.length_lt
  apply Function.update_of_ne
  rw [← r.tail_eq, mod_cap r.head_lt (by omega), mod_cap r.head_lt hlen]
  split <;> split <;> omega

theorem length_put (r : RingBuffer α) (x : α) : (r.put x).length =
    if (r.put x).head = (r.put x).tail then 0 else r.length + 1 := by
  have hhead := r.head_lt
  have htail := r.tail_lt
  show (if r.head ≤ r.after r.tail then r.after r.tail - r.head
    else r.after r.tail + r.cap - r.head) =
      if r.head = r.after r.tail then 0 else r.length + 1
  unfold length after
  split <;> split <;> split <;> (try split) <;> omega

theorem toList_push (r : RingBuffer α) (x : α) : (r.push x).toList = r.toList ++ [x] := by
  have hhead := r.head_lt
  have htail := r.tail_lt
  unfold push
  split
  · rename_i hfull
    -- the new array has the places of the old one in the order of the queue
    have hcap : r.length + 1 = r.cap := by
      have hlen := length_put r x
      rw [if_pos hfull] at hlen
      have heq : r.head = r.after r.tail := hfull
      unfold after at heq
      unfold length
      split at heq <;> split <;> omega
    rw [← slots_put r x, hcap]
    show (List.range (if 0 ≤ r.cap then r.cap - 0 else r.cap + r.cap * 2 - 0)).map
      (fun i => if (0 + i) % (r.cap * 2) < r.cap then
        (r.put x).slot ((r.head + (0 + i) % (r.cap * 2)) % r.cap)
        else (r.put x).slot ((0 + i) % (r.cap * 2))) = _
    rw [if_pos (Nat.zero_le _), Nat.sub_zero]
    apply List.map_congr_left
    intro i hi
    have hlt := List.mem_range.mp hi
    rw [Nat.zero_add, Nat.mod_eq_of_lt (by omega : i < r.cap * 2), if_pos hlt]
  · rename_i hroom
    have hlen := length_put r x
    rw [if_neg hroom] at hlen
    rw [← slots_put r x]
    unfold toList
    rw [hlen]
    rfl

theorem pop_none : r.pop = none ↔ r.toList = [] := by
  have hhead := r.head_lt
  have htail := r.tail_lt
  have hlen : r.head = r.tail ↔ r.length = 0 := by
    unfold length
    split <;> omega
  unfold pop toList
  rw [List.map_eq_nil_iff, List.range_eq_nil, ← hlen]
  split <;> simp_all

theorem toList_pop {r' : RingBuffer α} (h : r.pop = some (x, r')) :
    r.toList = x :: r'.toList := by
  have hhead := r.head_lt
  have htail := r.tail_lt
  have hlt := r.length_lt
  unfold pop at h
  split at h
  · cases h
  · rename_i hne
    cases h
    have hafter : r.after r.head < r.cap := r.after_lt r.head
    have hlen : r.length = (if r.after r.head ≤ r.tail then r.tail - r.after r.head
        else r.tail + r.cap - r.after r.head) + 1 := by
      unfold length after
      split <;> split <;> split <;> omega
    unfold toList
    rw [hlen, List.range_succ_eq_map, List.map_cons, List.map_map, Nat.add_zero,
      Nat.mod_eq_of_lt hhead]
    congr 1
    show _ = (List.range (if r.after r.head ≤ r.tail then r.tail - r.after r.head
      else r.tail + r.cap - r.after r.head)).map fun i =>
        r.slot ((r.after r.head + i) % r.cap)
    apply List.map_congr_left
    intro i hi
    have hi' := List.mem_range.mp hi
    have hi₁ : i + 1 < r.cap := by omega
    show r.slot ((r.head + (i + 1)) % r.cap) = _
    rw [mod_cap hhead hi₁, mod_cap hafter (by omega)]
    congr 1
    by_cases hwrap : r.cap ≤ r.head + 1
    · have hzero : r.after r.head = 0 := if_pos hwrap
      rw [hzero, if_neg (by omega), if_pos (by omega)]
      omega
    · have hsucc : r.after r.head = r.head + 1 := if_neg hwrap
      rw [hsucc]
      split <;> split <;> omega

/-! ## Growth by a fixed number of places -/

/-- `extra` more places, with the full queue `r` at their start. -/
def enlarge (r : RingBuffer α) (extra : Nat) (hextra : 0 < extra) : RingBuffer α where
  cap := r.cap + extra
  head := 0
  tail := r.cap
  slot := fun i => if i < r.cap then r.slot ((r.head + i) % r.cap) else r.slot i
  head_lt := by
    have hcap := r.head_lt
    omega
  tail_lt := by omega

def pushEnlarging (r : RingBuffer α) (extra : Nat) (hextra : 0 < extra) (x : α) : RingBuffer α :=
  if (r.put x).head = (r.put x).tail then (r.put x).enlarge extra hextra else r.put x

theorem toList_put_of_room (hroom : (r.put x).head ≠ (r.put x).tail) :
    (r.put x).toList = r.toList ++ [x] := by
  have hlen := length_put r x
  rw [if_neg hroom] at hlen
  rw [← slots_put r x]
  unfold toList
  rw [hlen]
  rfl

theorem cap_of_full (hfull : (r.put x).head = (r.put x).tail) : r.length + 1 = r.cap := by
  have hhead := r.head_lt
  have htail := r.tail_lt
  have heq : r.head = r.after r.tail := hfull
  unfold after at heq
  unfold length
  split at heq <;> split <;> omega

theorem toList_enlarge (r : RingBuffer α) (extra : Nat) (hextra : 0 < extra) :
    (r.enlarge extra hextra).toList =
      (List.range r.cap).map fun i => r.slot ((r.head + i) % r.cap) := by
  show (List.range (if 0 ≤ r.cap then r.cap - 0 else r.cap + (r.cap + extra) - 0)).map
    (fun i => if (0 + i) % (r.cap + extra) < r.cap then
      r.slot ((r.head + (0 + i) % (r.cap + extra)) % r.cap)
      else r.slot ((0 + i) % (r.cap + extra))) = _
  rw [if_pos (Nat.zero_le _), Nat.sub_zero]
  apply List.map_congr_left
  intro i hi
  have hlt := List.mem_range.mp hi
  rw [Nat.zero_add, Nat.mod_eq_of_lt (by omega : i < r.cap + extra), if_pos hlt]

theorem toList_pushEnlarging (r : RingBuffer α) (extra : Nat) (hextra : 0 < extra) (x : α) :
    (r.pushEnlarging extra hextra x).toList = r.toList ++ [x] := by
  unfold pushEnlarging
  split
  · rename_i hfull
    rw [toList_enlarge, ← slots_put r x, cap_of_full hfull]
    rfl
  · rename_i hroom
    exact toList_put_of_room hroom

/-! ## A queue that keeps one place free -/

/-- Twice the places, with a queue that fills all of `r` but one at their start. -/
def grow (r : RingBuffer α) : RingBuffer α where
  cap := r.cap * 2
  head := 0
  tail := r.cap - 1
  slot := fun i => if i < r.cap - 1 then r.slot ((i + r.head) % r.cap) else r.slot i
  head_lt := by
    have hcap := r.head_lt
    omega
  tail_lt := by
    have hcap := r.head_lt
    omega

/-- The array is doubled before the last free place is taken. -/
def pushReserved (r : RingBuffer α) (x : α) : RingBuffer α :=
  (if r.after r.tail = r.head then r.grow else r).put x

/-- What a loop of `pop` takes out in at most `fuel` rounds. -/
def drain : Nat → RingBuffer α → List α
  | 0, _ => []
  | fuel + 1, r =>
    match r.pop with
    | none => []
    | some (x, r) => x :: drain fuel r

theorem toList_put (hroom : r.after r.tail ≠ r.head) : (r.put x).toList = r.toList ++ [x] := by
  have hlen := length_put r x
  have hne : ¬(r.put x).head = (r.put x).tail := fun heq => hroom heq.symm
  rw [if_neg hne] at hlen
  rw [← slots_put r x]
  unfold toList
  rw [hlen]
  rfl

theorem toList_grow (hfull : r.after r.tail = r.head) : r.grow.toList = r.toList := by
  have hhead := r.head_lt
  have htail := r.tail_lt
  have hlen : r.length = r.cap - 1 := by
    unfold after at hfull
    unfold length
    split at hfull <;> split <;> omega
  unfold toList
  rw [hlen]
  show (List.range (if 0 ≤ r.cap - 1 then r.cap - 1 - 0 else r.cap - 1 + r.cap * 2 - 0)).map
    (fun i => if (0 + i) % (r.cap * 2) < r.cap - 1 then
      r.slot (((0 + i) % (r.cap * 2) + r.head) % r.cap)
      else r.slot ((0 + i) % (r.cap * 2))) = _
  rw [if_pos (Nat.zero_le _), Nat.sub_zero]
  apply List.map_congr_left
  intro i hi
  have hlt := List.mem_range.mp hi
  rw [Nat.zero_add, Nat.mod_eq_of_lt (by omega : i < r.cap * 2), if_pos hlt, Nat.add_comm]

theorem toList_pushReserved : (r.pushReserved x).toList = r.toList ++ [x] := by
  have hhead := r.head_lt
  have htail := r.tail_lt
  unfold pushReserved
  split
  · rename_i hfull
    have hroom : r.grow.after r.grow.tail ≠ r.grow.head := by
      show (if r.cap * 2 ≤ r.cap - 1 + 1 then 0 else r.cap - 1 + 1) ≠ 0
      split <;> omega
    rw [toList_put hroom, toList_grow hfull]
  · rename_i hroom
    exact toList_put hroom

theorem length_toList : r.toList.length = r.length := by
  unfold toList
  rw [List.length_map, List.length_range]

/-- Enough rounds take out the whole queue. -/
theorem drain_eq {fuel : Nat} (hfuel : r.length ≤ fuel) : r.drain fuel = r.toList := by
  induction fuel generalizing r with
  | zero =>
      have hnil : r.toList = [] := by
        rw [← List.length_eq_zero_iff, length_toList]
        omega
      rw [hnil]
      rfl
  | succ fuel ih =>
      unfold drain
      cases hpop : r.pop with
      | none => exact (pop_none.mp hpop).symm
      | some p =>
          have hcons := toList_pop hpop
          have hlen := congrArg List.length hcons
          rw [List.length_cons, length_toList, length_toList] at hlen
          rw [hcons, ← ih (by omega)]

end RingBuffer

end Jump.Core
