import Jump.Skynet.GateService.Runs

/-! # The hash of ids as a set with slots

An id keeps the index that it was given until it is removed. The abstract state of a run is the
map from the stored ids to their indices.
-/

namespace Jump.Skynet.GateService

open Jump.Core

/-- `while (hashcap < max)` with its `int`; `none` where the doubling overflows. -/
def hashcapInt (max : Nat) : Nat → Nat → Option Nat
  | 0, _ => none
  | fuel + 1, hashcap =>
    if hashcap < max then
      if hashcap * 2 < 2 ^ 31 then hashcapInt max fuel (hashcap * 2) else none
    else some hashcap

/-- `hashid_init` for every `max` -/
def hashidCreate (max : Nat) : Option Hashid :=
  (hashcapInt max 31 16).map fun hashcap =>
    { hashmod := hashcap - 1
      cap := max
      count := 0
      id := fun _ => ⟨-1, 0⟩
      hash := fun _ => 0 }

section Create

variable {max : Nat}

/-- Where no `int` overflows, the loop ends with what the loop without bound does. -/
theorem hashcapInt_eq {fuel : Nat} : ∀ {fuel' c v : Nat}, 0 < c → max ≤ fuel' + c →
    hashcapInt max fuel c = some v → hashcapLoop max fuel' c = v := by
  induction fuel with
  | zero =>
      intro fuel' c v _ _ h
      cases h
  | succ fuel ih =>
      intro fuel' c v hpos hfuel h
      rw [hashcapInt] at h
      by_cases hless : c < max
      · rw [if_pos hless] at h
        obtain ⟨m, rfl⟩ : ∃ m, fuel' = m + 1 := ⟨fuel' - 1, by omega⟩
        rw [hashcapLoop, if_pos hless]
        by_cases hint : c * 2 < 2 ^ 31
        · rw [if_pos hint] at h
          exact ih (by omega) (by omega) h
        · rw [if_neg hint] at h
          cases h
      · rw [if_neg hless] at h
        cases h
        cases fuel' with
        | zero => rfl
        | succ m => rw [hashcapLoop, if_neg hless]

theorem hashidCreate_eq {hi : Hashid} (h : hashidCreate max = some hi) : hi = hashidInit max := by
  obtain ⟨hashcap, hloop, rfl⟩ := Option.map_eq_some_iff.mp h
  have hfuel : max ≤ max + 16 := Nat.le_add_right max 16
  rw [hashidInit, hashcapInt_eq (by decide) hfuel hloop]

end Create

namespace Hashid

/-- What a call returns for an id -/
def result : Option Nat → Int
  | some i => i
  | none => -1

/-- A free index is met before the sum of `id` and the number of the round overflows. -/
def FreeBelow (hi : Hashid) (id : Int) : Prop :=
  ∃ i : Nat, i < hi.cap ∧ i + id < 2 ^ 31 ∧ (hi.id (((i + id).tmod hi.cap).toNat + 1)).id = -1

/-- A set of at most `max` ids with slots -/
structure Sound (max : Nat) (hi : Hashid) (m : Int → Option Nat) : Prop where
  index_lt : ∀ id i, m id = some i → i < max
  index_inj : ∀ x y i, m x = some i → m y = some i → x = y
  lookup : ∀ id, 0 ≤ id → id < 2 ^ 31 → hi.lookup id = some (result (m id))
  remove : ∀ id, 0 ≤ id → id < 2 ^ 31 → ∃ hi', hi.remove id = some (result (m id), hi') ∧
    (m id = none → hi' = hi)
  full : ∃ ids : List Int, ids.Nodup ∧ (∀ id, id ∈ ids ↔ m id ≠ none) ∧
    (hi.full = true ↔ ids.length = max)
  insert_iff : ∀ id, 0 ≤ id → id < 2 ^ 31 → m id = none → hi.full = false →
    ((∃ (i : Nat) (hi' : Hashid), hi.insert id = some ((i : Int), hi') ∧ i < max ∧
      ∀ x, m x ≠ some i) ↔ hi.FreeBelow id)

/-- The invariant of a run -/
structure Keeps (max : Nat) (hi : Hashid) (m : Int → Option Nat) (ids : List Int) : Prop where
  inv : ∃ chains, hi.Inv chains
  cap : hi.cap = max
  stored : ∀ id i, m id = some i ↔ hi.Stored id (i + 1)
  nodup : ids.Nodup
  mem : ∀ id, id ∈ ids ↔ m id ≠ none
  count : hi.count = ids.length

section Steps

variable {max : Nat} {hi hi' : Hashid} {m : Int → Option Nat} {ids : List Int} {id r : Int}

theorem insertLoop_isSome (hi : Hashid) (id : Int) (n : Nat) : ∀ i : Nat,
    ((hi.insertLoop id n i).isSome ↔ ∃ j : Nat, i ≤ j ∧ j < i + n ∧ j + id < 2 ^ 31 ∧
      (hi.id (((j + id).tmod hi.cap).toNat + 1)).id = -1) := by
  induction n with
  | zero =>
      intro i
      refine iff_of_false Bool.false_ne_true ?_
      intro h
      obtain ⟨j, hge, hlt, -⟩ := h
      omega
  | succ n ih =>
      intro i
      rw [insertLoop]
      by_cases hover : 2 ^ 31 ≤ i + id
      · rw [if_pos hover]
        refine iff_of_false Bool.false_ne_true ?_
        intro h
        obtain ⟨j, hge, -, hlt, -⟩ := h
        omega
      · rw [if_neg hover]
        dsimp only
        by_cases hfree : (hi.id (((i + id).tmod hi.cap).toNat + 1)).id = -1
        · rw [if_pos hfree]
          exact iff_of_true rfl ⟨i, Nat.le_refl i, by omega, by omega, hfree⟩
        · rw [if_neg hfree, ih (i + 1)]
          constructor
          · intro h
            obtain ⟨j, hge, hlt, hint, hj⟩ := h
            exact ⟨j, by omega, by omega, hint, hj⟩
          · intro h
            obtain ⟨j, hge, hlt, hint, hj⟩ := h
            have hne : j ≠ i := by
              intro heq
              rw [heq] at hj
              exact hfree hj
            exact ⟨j, by omega, by omega, hint, hj⟩

theorem insertLoop_freeBelow : (hi.insertLoop id hi.cap 0).isSome ↔ hi.FreeBelow id := by
  rw [insertLoop_isSome]
  constructor
  · intro h
    obtain ⟨j, -, hlt, hint, hfree⟩ := h
    exact ⟨j, by omega, hint, hfree⟩
  · intro h
    obtain ⟨j, hlt, hint, hfree⟩ := h
    exact ⟨j, Nat.zero_le j, by omega, hint, hfree⟩

theorem insert_shape (h : hi.insert id = some (r, hi')) :
    hi'.cap = hi.cap ∧ hi'.count = hi.count + 1 := by
  obtain ⟨c, -, hrest⟩ := Option.bind_eq_some_iff.mp h
  by_cases hnext : (hi.id c).next ≠ 0
  · rw [if_pos hnext] at hrest
    cases hrest
  · rw [if_neg hnext] at hrest
    cases hrest
    exact ⟨rfl, rfl⟩

theorem removeLoop_shape {fuel c : Nat} (h : hi.removeLoop id fuel c = some (r, hi')) :
    hi' = hi ∨ hi'.cap = hi.cap ∧ hi'.count = hi.count - 1 := by
  induction fuel generalizing c with
  | zero => cases h
  | succ fuel ih =>
      rw [removeLoop] at h
      by_cases hend : (hi.id c).next = 0
      · rw [if_pos hend] at h
        cases h
        exact Or.inl rfl
      · rw [if_neg hend] at h
        by_cases hfound : (hi.id (hi.id c).next).id = id
        · rw [if_pos hfound] at h
          cases h
          exact Or.inr ⟨rfl, rfl⟩
        · rw [if_neg hfound] at h
          exact ih h

theorem remove_shape (h : hi.remove id = some (r, hi')) :
    hi' = hi ∨ hi'.cap = hi.cap ∧ hi'.count = hi.count - 1 := by
  rw [Hashid.remove] at h
  by_cases hempty : hi.hash (hi.slot id) = 0
  · rw [if_pos hempty] at h
    cases h
    exact Or.inl rfl
  · rw [if_neg hempty] at h
    by_cases hfirst : (hi.id (hi.hash (hi.slot id))).id = id
    · rw [if_pos hfirst] at h
      cases h
      exact Or.inr ⟨rfl, rfl⟩
    · rw [if_neg hfirst] at h
      exact removeLoop_shape h

namespace Keeps

theorem absent (h : Keeps max hi m ids) (hid : m id = none) (p : Nat) : ¬ hi.Stored id p := by
  intro hp
  obtain ⟨i, rfl⟩ := Nat.exists_eq_succ_of_ne_zero (Nat.ne_of_gt hp.1)
  rw [(h.stored id i).mpr hp] at hid
  cases hid

theorem init (h : hashidCreate max = some hi) : Keeps max hi (fun _ => none) [] := by
  have hinv := Inv.init max
  rw [← hashidCreate_eq h] at hinv
  refine ⟨⟨_, hinv⟩, ?_, ?_, List.nodup_nil, ?_, ?_⟩
  · rw [hashidCreate_eq h]
    rfl
  · intro id i
    refine iff_of_false (Option.some_ne_none i ∘ Eq.symm) ?_
    intro hs
    have hmem := (hinv.mem (hi.slot id) (i + 1)).mpr ⟨id, hs, rfl⟩
    cases hmem
  · intro id
    exact iff_of_false List.not_mem_nil (not_not_intro rfl)
  · rw [hashidCreate_eq h]
    rfl

theorem insert (h : Keeps max hi m ids) (hid : 0 ≤ id) (hnew : m id = none)
    (hr : hi.insert id = some (r, hi')) :
    ∃ i : Nat, r = i ∧ i < max ∧ (∀ x, m x ≠ some i) ∧
      Keeps max hi' (Function.update m id (some i)) (id :: ids) := by
  obtain ⟨chains, hinv⟩ := h.inv
  obtain ⟨c, hrc, hunused, hinv', hstored⟩ := hinv.insert hid (h.absent hnew) hr
  obtain ⟨hcap, hcount⟩ := insert_shape hr
  have hc : hi'.Stored id c := (hstored id c).mpr (Or.inr ⟨rfl, rfl⟩)
  obtain ⟨i, rfl⟩ := Nat.exists_eq_succ_of_ne_zero (Nat.ne_of_gt hc.1)
  have hlt : i < max := by
    have hle := hc.2.1
    rw [hcap, h.cap] at hle
    exact hle
  refine ⟨i, by omega, hlt, ?_, hinv', hcap.trans h.cap, ?_, ?_, ?_, ?_⟩
  · intro x hx
    exact hunused x ((h.stored x i).mp hx)
  · intro x j
    rw [hstored]
    by_cases hx : x = id
    · subst hx
      rw [Function.update_self, Option.some.injEq]
      constructor
      · intro hij
        exact Or.inr ⟨rfl, congrArg Nat.succ hij.symm⟩
      · intro hor
        cases hor with
        | inl hold => exact absurd hold (h.absent hnew (j + 1))
        | inr hnow => exact (Nat.succ.inj hnow.2).symm
    · rw [Function.update_of_ne hx, h.stored]
      exact (or_iff_left fun hnow => hx hnow.1).symm
  · refine List.nodup_cons.mpr ⟨?_, h.nodup⟩
    intro hmem
    exact (h.mem id).mp hmem hnew
  · intro x
    rw [List.mem_cons, h.mem]
    by_cases hx : x = id
    · rw [hx, Function.update_self]
      exact iff_of_true (Or.inl rfl) (Option.some_ne_none i)
    · rw [Function.update_of_ne hx]
      exact or_iff_right hx
  · rw [hcount, h.count, List.length_cons]

theorem remove (h : Keeps max hi m ids) (id : Int) :
    ∃ hi' ids', hi.remove id = some (result (m id), hi') ∧ (m id = none → hi' = hi) ∧
      Keeps max hi' (Function.update m id none) ids' := by
  obtain ⟨chains, hinv⟩ := h.inv
  cases hinv.remove id with
  | inl hfound =>
      obtain ⟨c, hi', hc, hr, hinv', hstored⟩ := hfound
      obtain ⟨i, rfl⟩ := Nat.exists_eq_succ_of_ne_zero (Nat.ne_of_gt hc.1)
      have hm : m id = some i := (h.stored id i).mpr hc
      have hres : result (m id) = ((i + 1 : Nat) : Int) - 1 := by
        rw [hm, result]
        omega
      have hgone : hi' ≠ hi := by
        intro heq
        rw [heq] at hstored
        exact ((hstored id (i + 1)).mp hc).2 rfl
      obtain ⟨hcap, hcount⟩ := (remove_shape hr).resolve_left hgone
      have hmem : id ∈ ids := (h.mem id).mpr (by rw [hm]; exact Option.some_ne_none i)
      refine ⟨hi', ids.erase id, by rw [hres]; exact hr, ?_, hinv', hcap.trans h.cap, ?_,
        h.nodup.erase id, ?_, ?_⟩
      · intro hnone
        rw [hm] at hnone
        cases hnone
      · intro x j
        rw [hstored]
        by_cases hx : x = id
        · rw [hx, Function.update_self]
          exact iff_of_false (Option.some_ne_none j ∘ Eq.symm) fun hand => hand.2 rfl
        · rw [Function.update_of_ne hx, h.stored]
          exact (and_iff_left hx).symm
      · intro x
        rw [h.nodup.mem_erase_iff, h.mem]
        by_cases hx : x = id
        · rw [hx, Function.update_self]
          exact iff_of_false (fun hand => hand.1 rfl) (not_not_intro rfl)
        · rw [Function.update_of_ne hx]
          exact and_iff_right hx
      · rw [hcount, h.count, List.length_erase_of_mem hmem]
  | inr hmissed =>
      obtain ⟨hno, hr⟩ := hmissed
      have hm : m id = none := by
        cases hid : m id with
        | none => rfl
        | some i => exact absurd ((h.stored id i).mp hid) (hno (i + 1))
      have hsame : Function.update m id none = m := by
        rw [← hm]
        exact Function.update_eq_self id m
      refine ⟨hi, ids, ?_, fun _ => rfl, ?_⟩
      · rw [hr, hm]
        rfl
      · rw [hsame]
        exact h

theorem lookup (h : Keeps max hi m ids) (id : Int) : hi.lookup id = some (result (m id)) := by
  obtain ⟨chains, hinv⟩ := h.inv
  cases hid : m id with
  | none => exact hinv.lookup_absent (h.absent hid)
  | some i =>
      rw [hinv.lookup_stored ((h.stored id i).mp hid), result]
      congr 1
      omega

theorem full_iff (h : Keeps max hi m ids) : hi.full = true ↔ ids.length = max := by
  rw [full, decide_eq_true_eq, h.count, h.cap]

theorem insert_iff (h : Keeps max hi m ids) (hid : 0 ≤ id) (hnew : m id = none) :
    (∃ (i : Nat) (hi' : Hashid), hi.insert id = some ((i : Int), hi') ∧ i < max ∧
      ∀ x, m x ≠ some i) ↔ hi.FreeBelow id := by
  rw [← insertLoop_freeBelow]
  constructor
  · intro hex
    obtain ⟨i, hi', hr, -⟩ := hex
    obtain ⟨c, hloop, -⟩ := Option.bind_eq_some_iff.mp hr
    rw [hloop]
    rfl
  · intro hsome
    obtain ⟨c, hloop⟩ := Option.isSome_iff_exists.mp hsome
    obtain ⟨chains, hinv⟩ := h.inv
    have hcap : 0 < hi.cap := by
      rcases Nat.eq_zero_or_pos hi.cap with hzero | hpos
      · rw [hzero] at hloop
        cases hloop
      · exact hpos
    have hfree := (insertLoop_spec hcap hloop).2.2
    have hr : hi.insert id = some ((c : Int) - 1, hi.put id c) := by
      rw [Hashid.insert, hloop, Option.bind_some, if_neg (not_not_intro (hinv.free c hfree))]
    obtain ⟨i, hi', hlt, hunused, -⟩ := h.insert hid hnew hr
    rw [hi'] at hr
    exact ⟨i, _, hr, hlt, hunused⟩

theorem sound (h : Keeps max hi m ids) : Sound max hi m where
  index_lt id i hid := by
    have hle := ((h.stored id i).mp hid).2.1
    rw [h.cap] at hle
    exact hle
  index_inj x y i hx hy := ((h.stored x i).mp hx).id_eq ((h.stored y i).mp hy)
  lookup id _ _ := h.lookup id
  remove id _ _ := by
    obtain ⟨hi', -, hr, hsame, -⟩ := h.remove id
    exact ⟨hi', hr, hsame⟩
  full := ⟨ids, h.nodup, h.mem, h.full_iff⟩
  insert_iff id hid _ hnew _ := h.insert_iff hid hnew

end Keeps

end Steps

end Hashid

end Jump.Skynet.GateService
