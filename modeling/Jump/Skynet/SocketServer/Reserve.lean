import Jump.Skynet.SocketServer.Code

/-! # `reserve_id` without interference

The calls of one thread between two steps of the others. The counter is masked where it becomes
negative, and the slot that is looked at is the next one all the same.
-/

namespace Jump.Skynet.SocketServer

open Jump.Core

/-- `reserve_id` from `r` on, for `n` steps at most, with the new `alloc_id` and the result. -/
def reserveRun (w : Sockets) (allocId : Int) (r : Reserve) : Nat → Option (Sockets × Int × Int)
  | 0 => none
  | n + 1 =>
    match reserveStep w allocId r with
    | (w', allocId', .go r') => reserveRun w' allocId' r' n
    | (w', allocId', .done id) => some (w', allocId', id)

namespace Sockets

/-- Every id in use stands in the slot of its hash. -/
def Placed (w : Sockets) : Prop :=
  ∀ h < MAX_SOCKET, (w.slot h).type ≠ .invalid → hashId (w.slot h).id = h

/-- The slot of `id` with what `reserve_id` stores in it. -/
def reserved (w : Sockets) (id : Int) : Sockets :=
  w.set (hashId id) { w.slot (hashId id) with type := .reserve, id := id, fd := -1 }

end Sockets

section Probe

theorem hashId_lt (id : Int) : hashId id < MAX_SOCKET := Nat.mod_lt _ (by decide)

/-- `alloc_id` goes on by one, also past the last `int`. -/
theorem hashId_fetch (a : Int) :
    hashId (toInt (uint32OfInt (a + 1))) = (hashId a + 1) % MAX_SOCKET := by
  rw [hashId, hashId, uint32OfInt_toInt, u32, MAX_SOCKET, uint32OfInt, uint32OfInt]
  omega

theorem and_max (n : Nat) : n &&& 0x7fffffff = n % 2147483648 :=
  Nat.and_two_pow_sub_one_eq_mod n 31

/-- The mask leaves the slot as it is. -/
theorem hashId_wrap (a : Int) : hashId (uint32OfInt a &&& 0x7fffffff : Nat) = hashId a := by
  rw [hashId, hashId, and_max, MAX_SOCKET, uint32OfInt, uint32OfInt]
  omega

/-- `MAX_SOCKET` slots in a row are all of them. -/
theorem exists_probe (start : Nat) {h : Nat} (hh : h < MAX_SOCKET) :
    ∃ j < MAX_SOCKET, (start + j) % MAX_SOCKET = h := by
  rw [MAX_SOCKET] at hh ⊢
  refine ⟨(h + 65536 - start % 65536) % 65536, ?_, ?_⟩
  · omega
  · omega

end Probe

section Run

variable {w : Sockets} {a id : Int} {i : Nat}

/-- The next id is not negative, and it stands for the next slot. -/
theorem reserveRun_fetch (w : Sockets) (a : Int) (hi : i < MAX_SOCKET) :
    ∃ id k, 0 ≤ id ∧ hashId id = (hashId a + 1) % MAX_SOCKET ∧
      ∀ n, reserveRun w a (.fetch i) (n + k) = reserveRun w id (.look i id) n := by
  by_cases hneg : toInt (uint32OfInt (a + 1)) < 0
  · refine ⟨(uint32OfInt (toInt (uint32OfInt (a + 1))) &&& 0x7fffffff : Nat), 2,
      Int.natCast_nonneg _, ?_, ?_⟩
    · rw [hashId_wrap, hashId_fetch]
    · intro n
      rw [reserveRun, reserveStep, if_pos hi]
      dsimp only
      rw [if_pos hneg, reserveRun, reserveStep]
  · refine ⟨toInt (uint32OfInt (a + 1)), 1, Int.not_lt.mp hneg, hashId_fetch a, ?_⟩
    intro n
    rw [reserveRun, reserveStep, if_pos hi]
    dsimp only
    rw [if_neg hneg]

theorem reserveRun_taken (htype : (w.slot (hashId id)).type ≠ .invalid) (n : Nat) :
    reserveRun w a (.look i id) (n + 1) = reserveRun w a (.fetch (i + 1)) n := by
  rw [reserveRun, reserveStep, if_neg htype]

theorem reserveRun_free (htype : (w.slot (hashId id)).type = .invalid) :
    reserveRun w a (.look i id) 4 = some (w.reserved id, a, id) := by
  rw [reserveRun, reserveStep, if_pos htype]
  dsimp only
  rw [reserveRun, reserveStep, if_pos htype]
  dsimp only
  rw [reserveRun, reserveStep]
  dsimp only
  rw [reserveRun, reserveStep]
  dsimp only
  rw [Sockets.setType_slot, Sockets.set_slot, Sockets.setType, Sockets.set_set, Sockets.set_set]
  rfl

/-- The last `k` rounds: the search ends at a free slot, or none of the next `k` is free. -/
theorem reserveRun_rounds (w : Sockets) (k : Nat) : ∀ (i : Nat) (a : Int), i + k = MAX_SOCKET →
    (∃ n a' id, reserveRun w a (.fetch i) n = some (w.reserved id, a', id) ∧ 0 ≤ id ∧
      (w.slot (hashId id)).type = .invalid) ∨
    ∃ n a', reserveRun w a (.fetch i) n = some (w, a', -1) ∧
      ∀ j < k, (w.slot ((hashId a + 1 + j) % MAX_SOCKET)).type ≠ .invalid := by
  induction k with
  | zero =>
      intro i a hi
      refine Or.inr ⟨1, a, ?_, ?_⟩
      · rw [reserveRun, reserveStep, if_neg (by omega)]
      · intro j hj
        omega
  | succ k ih =>
      intro i a hi
      obtain ⟨id, m, hid, hhash, hrun⟩ := reserveRun_fetch w a (i := i) (by omega)
      by_cases htype : (w.slot (hashId id)).type = .invalid
      · exact Or.inl ⟨4 + m, id, id, (hrun 4).trans (reserveRun_free htype), hid, htype⟩
      · have hnext := ih (i + 1) id (by omega)
        have hgo : ∀ n, reserveRun w a (.fetch i) (n + 1 + m) =
            reserveRun w id (.fetch (i + 1)) n := by
          intro n
          rw [hrun, reserveRun_taken htype]
        cases hnext with
        | inl hfound =>
            obtain ⟨n, a', id', hret, hid', hfree⟩ := hfound
            exact Or.inl ⟨n + 1 + m, a', id', (hgo n).trans hret, hid', hfree⟩
        | inr hnone =>
            obtain ⟨n, a', hret, hall⟩ := hnone
            refine Or.inr ⟨n + 1 + m, a', (hgo n).trans hret, ?_⟩
            intro j hj
            cases j with
            | zero => rwa [Nat.add_zero, ← hhash]
            | succ j =>
                have hslot := hall j (by omega)
                rw [hhash] at hslot
                have hsame : ((hashId a + 1) % MAX_SOCKET + 1 + j) % MAX_SOCKET =
                    (hashId a + 1 + (j + 1)) % MAX_SOCKET := by
                  rw [MAX_SOCKET]
                  omega
                rwa [hsame] at hslot

/-- A whole call, for every `alloc_id` and all slots -/
theorem reserveId_alone (w : Sockets) (a : Int) : ∃ n w' a' id,
    reserveRun w a (.fetch 0) n = some (w', a', id) ∧
      (id = -1 ↔ ∀ h < MAX_SOCKET, (w.slot h).type ≠ .invalid) ∧ (id = -1 → w' = w) ∧
      (id ≠ -1 → 0 ≤ id ∧ (w.slot (hashId id)).type = .invalid ∧ w' = w.reserved id ∧
        (w.Placed → ∀ h < MAX_SOCKET, (w.slot h).type ≠ .invalid → (w.slot h).id ≠ id)) := by
  cases reserveRun_rounds w MAX_SOCKET 0 a (Nat.zero_add _) with
  | inl hfound =>
      obtain ⟨n, a', id, hret, hid, hfree⟩ := hfound
      have hne : id ≠ -1 := by omega
      refine ⟨n, _, a', id, hret, iff_of_false hne ?_, fun h => absurd h hne, fun _ => ?_⟩
      · exact fun hall => hall _ (hashId_lt id) hfree
      refine ⟨hid, hfree, rfl, ?_⟩
      intro hplaced h hh hused hsame
      have hplace := hplaced h hh hused
      rw [hsame] at hplace
      rw [hplace] at hfree
      exact hused hfree
  | inr hnone =>
      obtain ⟨n, a', hret, hall⟩ := hnone
      refine ⟨n, w, a', -1, hret, iff_of_true rfl ?_, fun _ => rfl, fun h => absurd rfl h⟩
      intro h hh
      obtain ⟨j, hj, hslot⟩ := exists_probe (hashId a + 1) hh
      rw [← hslot]
      exact hall j hj

end Run

end Jump.Skynet.SocketServer
