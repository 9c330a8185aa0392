import Jump.Skynet.Handle.Code
import Mathlib.Data.List.Nodup
import Mathlib.Data.List.Perm.Subperm
import Mathlib.Data.Nat.Bitwise

/-! # The slot table, and what the calls do to it

`live` lists the contexts of the storage with the handles they were registered
under. Whether the contexts already hold these handles is left open here: only
the doubling of the table needs to know.
-/

namespace Jump.Skynet.Handle

section Table

variable {C : Type} {k : Nat}

theorem hash_eq (hk : k ≤ 32) (h : UInt32) : hash (2 ^ k) h = h.toNat % 2 ^ k := by
  have hle : 2 ^ k ≤ 2 ^ 32 := Nat.pow_le_pow_right (by decide) hk
  have hpos : 0 < 2 ^ k := Nat.two_pow_pos k
  unfold hash
  rw [UInt32.toNat_and, UInt32.toNat_ofNat_of_lt' (by simp only [UInt32.size]; omega),
    Nat.and_two_pow_sub_one_eq_mod]

theorem hash_lt (hk : k ≤ 32) (h : UInt32) : hash (2 ^ k) h < 2 ^ k := by
  rw [hash_eq hk]
  exact Nat.mod_lt _ (Nat.two_pow_pos k)

/-- A larger table only splits the slots of a smaller one. -/
theorem hash_double (hk : k + 1 ≤ 32) (h : UInt32) :
    hash (2 ^ (k + 1)) h % 2 ^ k = hash (2 ^ k) h := by
  rw [hash_eq hk, hash_eq (by omega), Nat.mod_mod_of_dvd _ (pow_dvd_pow 2 (by omega))]

theorem candidate_lt (s : HandleStorage C) (i : Nat) : (candidate s i).toNat < 2 ^ 24 := by
  unfold candidate
  rw [UInt32.toNat_and]
  exact Nat.lt_of_le_of_lt Nat.and_le_right (by decide)

theorem hash_candidate (hk : k ≤ 24) (s : HandleStorage C) (i : Nat) :
    hash (2 ^ k) (candidate s i) = (i + s.handleIndex.toNat) % 2 ^ k := by
  have hmask : HANDLE_MASK.toNat = 2 ^ 24 - 1 := by decide
  unfold candidate
  rw [hash_eq (by omega), UInt32.toNat_and, hmask, Nat.and_two_pow_sub_one_eq_mod,
    Nat.mod_mod_of_dvd _ (pow_dvd_pow 2 hk), UInt32.toNat_add, UInt32.toNat_ofNat',
    Nat.mod_mod_of_dvd _ (pow_dvd_pow 2 (by omega : k ≤ 32)), Nat.add_mod,
    Nat.mod_mod_of_dvd _ (pow_dvd_pow 2 (by omega : k ≤ 32)), ← Nat.add_mod]

/-- The harbor byte does not reach the slot bits. -/
theorem hash_or (hk : k ≤ 24) {harbor : UInt32} (hlow : harbor.toNat % 2 ^ 24 = 0)
    (h : UInt32) : hash (2 ^ k) (h ||| harbor) = hash (2 ^ k) h := by
  have hzero : harbor.toNat % 2 ^ k = 0 := by
    rw [← Nat.mod_mod_of_dvd harbor.toNat (pow_dvd_pow 2 hk), hlow, Nat.zero_mod]
  rw [hash_eq (by omega), hash_eq (by omega), UInt32.toNat_or, Nat.or_mod_two_pow, hzero,
    Nat.or_zero]

/-- The slots hold exactly the contexts of `live`, each in the slot of its handle. -/
structure Placed (k : Nat) (s : HandleStorage C) (live : List (UInt32 × C)) : Prop where
  size : s.slotSize = 2 ^ k
  size_le : k ≤ 24
  slot_iff : ∀ j c, s.slot j = some c ↔ ∃ h, (h, c) ∈ live ∧ hash s.slotSize h = j
  hashes : (live.map fun e => hash s.slotSize e.1).Nodup
  contexts : (live.map Prod.snd).Nodup
  low : s.harbor.toNat % 2 ^ 24 = 0
  harbor : ∀ e ∈ live, e.1 >>> HANDLE_REMOTE_SHIFT = s.harbor >>> HANDLE_REMOTE_SHIFT

namespace Placed

variable {s : HandleStorage C} {live : List (UInt32 × C)}

theorem init (harbor : UInt32) : Placed 2 (init (C := C) harbor) [] where
  size := rfl
  size_le := by decide
  slot_iff := by simp [Handle.init]
  hashes := List.nodup_nil
  contexts := List.nodup_nil
  low := by
    simp only [Handle.init, HANDLE_REMOTE_SHIFT, UInt32.toNat_shiftLeft, Nat.shiftLeft_eq]
    show (harbor &&& 0xff).toNat * 2 ^ 24 % 2 ^ 32 % 2 ^ 24 = 0
    omega
  harbor := by simp

theorem hash_lt (hp : Placed k s live) (h : UInt32) : hash s.slotSize h < s.slotSize := by
  rw [hp.size]
  exact Handle.hash_lt (by have := hp.size_le; omega) h

theorem handles (hp : Placed k s live) : (live.map Prod.fst).Nodup := by
  have hnodup := hp.hashes
  rw [show (fun e : UInt32 × C => hash s.slotSize e.1) = hash s.slotSize ∘ Prod.fst from rfl,
    ← List.map_map] at hnodup
  exact List.Nodup.of_map _ hnodup

theorem eq_of_hash (hp : Placed k s live) {e e' : UInt32 × C} (he : e ∈ live)
    (he' : e' ∈ live) (heq : hash s.slotSize e.1 = hash s.slotSize e'.1) : e = e' :=
  List.inj_on_of_nodup_map hp.hashes he he' heq

theorem eq_of_context (hp : Placed k s live) {h h' : UInt32} {c : C} (he : (h, c) ∈ live)
    (he' : (h', c) ∈ live) : h = h' := by
  have heq := List.inj_on_of_nodup_map hp.contexts he he' rfl
  exact congrArg Prod.fst heq

theorem slot_of_mem (hp : Placed k s live) {h : UInt32} {c : C} (he : (h, c) ∈ live) :
    s.slot (hash s.slotSize h) = some c :=
  (hp.slot_iff _ c).mpr ⟨h, he, rfl⟩

/-- The loop over the slots tries every slot once, wherever `handle_index` stands. -/
theorem freeHandle_none (hp : Placed k s live) (hnone : freeHandle s = none) {j : Nat}
    (hj : j < s.slotSize) : ∃ c, s.slot j = some c := by
  have hk := hp.size_le
  have hpos : 0 < s.slotSize := by omega
  let idx := s.handleIndex.toNat % s.slotSize
  have hidx : idx < s.slotSize := Nat.mod_lt _ hpos
  let i := (j + s.slotSize - idx) % s.slotSize
  have hi : i < s.slotSize := Nat.mod_lt _ hpos
  have hhash : hash s.slotSize (candidate s i) = j := by
    have hcand := hash_candidate hk s i
    rw [← hp.size] at hcand
    rw [hcand, Nat.mod_add_mod, ← Nat.add_mod_mod,
      show j + s.slotSize - idx + s.handleIndex.toNat % s.slotSize = j + s.slotSize by omega,
      Nat.add_mod_right, Nat.mod_eq_of_lt hj]
  unfold freeHandle at hnone
  rw [List.find?_eq_none] at hnone
  have hfull := hnone (candidate s i) (List.mem_map.mpr ⟨i, List.mem_range.mpr hi, rfl⟩)
  rw [hhash] at hfull
  exact Option.ne_none_iff_exists'.mp (by simpa using hfull)

/-- A table found full has a context for every slot. -/
theorem length_of_full (hp : Placed k s live) (hnone : freeHandle s = none) :
    s.slotSize = live.length := by
  have hsub : (List.range s.slotSize) ⊆ live.map fun e => hash s.slotSize e.1 := by
    intro j hj
    obtain ⟨c, hc⟩ := hp.freeHandle_none hnone (List.mem_range.mp hj)
    obtain ⟨h, he, hh⟩ := (hp.slot_iff j c).mp hc
    exact List.mem_map.mpr ⟨(h, c), he, hh⟩
  have hsub' : (live.map fun e => hash s.slotSize e.1) ⊆ List.range s.slotSize := by
    intro j hj
    obtain ⟨e, -, rfl⟩ := List.mem_map.mp hj
    exact List.mem_range.mpr (hp.hash_lt e.1)
  have hle := (List.nodup_range.subperm hsub).length_le
  have hge := (hp.hashes.subperm hsub').length_le
  simp only [List.length_range, List.length_map] at hle hge
  omega

theorem freeHandle_some {handle : UInt32} (hsome : freeHandle s = some handle) :
    s.slot (hash s.slotSize handle) = none ∧ handle.toNat < 2 ^ 24 := by
  unfold freeHandle at hsome
  have hfree := List.find?_some hsome
  obtain ⟨i, -, rfl⟩ := List.mem_map.mp (List.mem_of_find?_eq_some hsome)
  exact ⟨by simpa using hfree, candidate_lt s i⟩

end Placed

end Table

/-! ## Registering and retiring -/

section Calls

variable {C : Type} {k : Nat} {s : HandleStorage C} {live : List (UInt32 × C)}

theorem or_shiftRight {handle harbor : UInt32} (hlt : handle.toNat < 2 ^ 24) :
    (handle ||| harbor) >>> HANDLE_REMOTE_SHIFT = harbor >>> HANDLE_REMOTE_SHIFT := by
  apply UInt32.toNat_inj.mp
  rw [UInt32.toNat_shiftRight, UInt32.toNat_shiftRight, UInt32.toNat_or,
    Nat.shiftRight_or_distrib]
  have hzero : handle.toNat >>> (HANDLE_REMOTE_SHIFT.toNat % 32) = 0 := by
    rw [Nat.shiftRight_eq_div_pow]
    exact Nat.div_eq_of_lt hlt
  rw [hzero, Nat.zero_or]

namespace Placed

/-- The context goes to the slot that the loop found free. -/
theorem store (hp : Placed k s live) {handle : UInt32} (hfree : freeHandle s = some handle)
    {ctx : C} (hctx : ctx ∉ live.map Prod.snd) :
    Placed k (Handle.store s handle ctx) ((handle ||| s.harbor, ctx) :: live) := by
  obtain ⟨hnone, hlt⟩ := freeHandle_some hfree
  have hhash : hash s.slotSize (handle ||| s.harbor) = hash s.slotSize handle := by
    rw [hp.size]
    exact hash_or hp.size_le hp.low handle
  have hnot : ∀ e ∈ live, hash s.slotSize e.1 ≠ hash s.slotSize handle := by
    intro e he heq
    have hslot := hp.slot_of_mem he
    rw [heq, hnone] at hslot
    cases hslot
  constructor
  · exact hp.size
  · exact hp.size_le
  · intro j c
    simp only [Handle.store, Function.update_apply, List.mem_cons, Prod.mk.injEq]
    by_cases hj : j = hash s.slotSize handle
    · rw [if_pos hj]
      constructor
      · intro heq
        cases heq
        exact ⟨_, Or.inl ⟨rfl, rfl⟩, hhash.trans hj.symm⟩
      · rintro ⟨h, ⟨-, rfl⟩ | he, heq⟩
        · rfl
        · exact absurd (heq.trans hj) (hnot _ he)
    · rw [if_neg hj, hp.slot_iff]
      constructor
      · rintro ⟨h, he, heq⟩
        exact ⟨h, Or.inr he, heq⟩
      · rintro ⟨h, ⟨rfl, -⟩ | he, heq⟩
        · exact absurd (heq.symm.trans hhash) hj
        · exact ⟨h, he, heq⟩
  · show (hash s.slotSize (handle ||| s.harbor) :: live.map fun e => hash s.slotSize e.1).Nodup
    rw [List.nodup_cons, hhash]
    refine ⟨fun hmem => ?_, hp.hashes⟩
    obtain ⟨e, he, heq⟩ := List.mem_map.mp hmem
    exact hnot e he heq
  · exact List.nodup_cons.mpr ⟨hctx, hp.contexts⟩
  · exact hp.low
  · intro e he
    rcases List.mem_cons.mp he with rfl | he
    · exact or_shiftRight hlt
    · exact hp.harbor e he

/-- The handles that the contexts hold lead to the slots, in a table of `n` slots, of the
handles they were registered under. -/
def Agree (contextHandle : C → UInt32) (n : Nat) (live : List (UInt32 × C)) : Prop :=
  ∀ e ∈ live, hash n (contextHandle e.2) = hash n e.1

/-- What `new_slot` holds after the slots `done`. -/
def Moved (s : HandleStorage C) (live : List (UInt32 × C)) (done : List Nat)
    (newSlot : Nat → Option C) : Prop :=
  ∀ j c, newSlot j = some c ↔
    ∃ h, (h, c) ∈ live ∧ hash s.slotSize h ∈ done ∧ hash (s.slotSize * 2) h = j

theorem eq_of_double (hp : Placed k s live) (hk : k + 1 ≤ 24) {e e' : UInt32 × C}
    (he : e ∈ live) (he' : e' ∈ live)
    (heq : hash (s.slotSize * 2) e.1 = hash (s.slotSize * 2) e'.1) : e = e' := by
  have hsize : s.slotSize * 2 = 2 ^ (k + 1) := by rw [hp.size, Nat.pow_succ]
  rw [hsize] at heq
  apply hp.eq_of_hash he he'
  rw [hp.size, ← hash_double (by omega), heq, hash_double (by omega)]

theorem rehash_moved (hp : Placed k s live) (hk : k + 1 ≤ 24) {contextHandle : C → UInt32}
    (hagree : Agree contextHandle (s.slotSize * 2) live) {done is : List Nat}
    {newSlot : Nat → Option C} (hnew : Moved s live done newSlot)
    (hfull : ∀ i ∈ is, ∃ c, s.slot i = some c) (hnodup : (done ++ is).Nodup) :
    ∃ newSlot', rehash contextHandle s newSlot is = .ok newSlot' ∧
      Moved s live (done ++ is) newSlot' := by
  induction is generalizing done newSlot with
  | nil =>
      rw [List.append_nil]
      exact ⟨newSlot, rfl, hnew⟩
  | cons i is ih =>
      obtain ⟨c, hc⟩ := hfull i List.mem_cons_self
      obtain ⟨g, he, hi⟩ := (hp.slot_iff i c).mp hc
      have hhash : hash (s.slotSize * 2) (contextHandle c) = hash (s.slotSize * 2) g :=
        hagree _ he
      have hidone : i ∉ done := fun hmem =>
        (List.nodup_append.mp hnodup).2.2 i hmem i List.mem_cons_self rfl
      -- two contexts that meet in the doubled table were in one slot before
      have hfree : newSlot (hash (s.slotSize * 2) g) = none := by
        rw [Option.eq_none_iff_forall_ne_some]
        intro c' hc'
        obtain ⟨g', he', hdone, heq⟩ := (hnew _ c').mp hc'
        have := hp.eq_of_double hk he' he heq
        cases this
        rw [hi] at hdone
        exact hidone hdone
      have hmoved : Moved s live (done ++ [i])
          (Function.update newSlot (hash (s.slotSize * 2) g) (some c)) := by
        intro j c'
        rw [Function.update_apply]
        by_cases hj : j = hash (s.slotSize * 2) g
        · rw [if_pos hj]
          constructor
          · intro heq
            cases heq
            exact ⟨g, he, by simp [hi], hj.symm⟩
          · rintro ⟨g', he', -, heq⟩
            have := hp.eq_of_double hk he' he (heq.trans hj)
            cases this
            rfl
        · rw [if_neg hj, hnew]
          constructor
          · rintro ⟨g', he', hdone, heq⟩
            exact ⟨g', he', List.mem_append_left _ hdone, heq⟩
          · rintro ⟨g', he', hdone, heq⟩
            refine ⟨g', he', ?_, heq⟩
            rcases List.mem_append.mp hdone with hdone | hdone
            · exact hdone
            · have hslot : hash s.slotSize g' = hash s.slotSize g := by
                rw [List.mem_singleton.mp hdone, hi]
              have := hp.eq_of_hash he' he hslot
              cases this
              exact absurd heq.symm hj
      have happend : done ++ [i] ++ is = done ++ i :: is := by simp
      have hrest := ih hmoved (fun i' hi' => hfull i' (List.mem_cons_of_mem i hi'))
        (happend ▸ hnodup)
      rw [happend] at hrest
      unfold rehash
      simp only [hc, hhash, if_pos hfree]
      exact hrest

/-- The doubled table. -/
theorem grow (hp : Placed k s live) (hk : k + 1 ≤ 24) {newSlot : Nat → Option C}
    (hnew : Moved s live (List.range s.slotSize) newSlot) :
    Placed (k + 1) { s with slot := newSlot, slotSize := s.slotSize * 2 } live := by
  constructor
  · rw [Nat.pow_succ, ← hp.size]
  · exact hk
  · intro j c
    rw [hnew]
    constructor
    · rintro ⟨h, he, -, heq⟩
      exact ⟨h, he, heq⟩
    · rintro ⟨h, he, heq⟩
      exact ⟨h, he, List.mem_range.mpr (hp.hash_lt h), heq⟩
  · apply List.Nodup.map_on _ hp.contexts.of_map
    intro e he e' he' heq
    exact hp.eq_of_double hk he he' heq
  · exact hp.contexts
  · exact hp.low
  · exact hp.harbor

theorem rehash_run (hp : Placed k s live) (hk : k + 1 ≤ 24) (hnone : freeHandle s = none)
    {contextHandle : C → UInt32} (hagree : Agree contextHandle (s.slotSize * 2) live) :
    ∃ newSlot, rehash contextHandle s (fun _ => none) (List.range s.slotSize) = .ok newSlot ∧
      Placed (k + 1) { s with slot := newSlot, slotSize := s.slotSize * 2 } live := by
  have hempty : Moved s live [] (fun _ => none) := by
    intro j c
    simp
  obtain ⟨newSlot, hrun, hmoved⟩ := hp.rehash_moved hk hagree hempty
    (fun i hi => hp.freeHandle_none hnone (List.mem_range.mp hi))
    (by simpa using List.nodup_range)
  exact ⟨newSlot, hrun, hp.grow hk hmoved⟩

/-- The slot of one context is emptied. -/
theorem remove [DecidableEq C] (hp : Placed k s live) {g : UInt32} {ctx : C}
    (he : (g, ctx) ∈ live) (name : List HandleName) :
    Placed k
      { s with slot := Function.update s.slot (hash s.slotSize g) none, name := name }
      (live.filter fun e => e.2 ≠ ctx) := by
  constructor
  · exact hp.size
  · exact hp.size_le
  · intro j c
    simp only [Function.update_apply, List.mem_filter, decide_eq_true_eq]
    by_cases hj : j = hash s.slotSize g
    · rw [if_pos hj]
      constructor
      · intro hnone
        cases hnone
      · rintro ⟨h, ⟨hmem, hne⟩, heq⟩
        have := hp.eq_of_hash hmem he (heq.trans hj)
        cases this
        exact absurd rfl hne
    · rw [if_neg hj, hp.slot_iff]
      constructor
      · rintro ⟨h, hmem, heq⟩
        refine ⟨h, ⟨hmem, ?_⟩, heq⟩
        rintro rfl
        have hsame := hp.eq_of_context hmem he
        rw [hsame] at heq
        exact hj heq.symm
      · rintro ⟨h, ⟨hmem, -⟩, heq⟩
        exact ⟨h, hmem, heq⟩
  · exact hp.hashes.sublist (List.filter_sublist.map _)
  · exact hp.contexts.sublist (List.filter_sublist.map _)
  · exact hp.low
  · intro e hmem
    exact hp.harbor e (List.mem_of_mem_filter hmem)

end Placed

section Lookup

variable {contextHandle : C → UInt32}

theorem Placed.grab_iff (hp : Placed k s live) {h : UInt32} {c : C} :
    grab contextHandle h s = some c ↔
      ∃ g, (g, c) ∈ live ∧ hash s.slotSize g = hash s.slotSize h ∧ contextHandle c = h := by
  unfold grab
  constructor
  · intro hrun
    split at hrun
    · cases hrun
    · rename_i c' hslot
      split at hrun
      · cases hrun
        obtain ⟨g, he, heq⟩ := (hp.slot_iff _ c).mp hslot
        exact ⟨g, he, heq, by assumption⟩
      · cases hrun
  · rintro ⟨g, he, heq, hc⟩
    have hslot := hp.slot_of_mem he
    rw [heq] at hslot
    simp only [hslot, if_pos hc]

theorem Placed.retire_found [DecidableEq C] (hp : Placed k s live) {g h : UInt32} {c : C}
    (he : (g, c) ∈ live) (heq : hash s.slotSize g = hash s.slotSize h)
    (hc : contextHandle c = h) :
    ∃ s', retire contextHandle h s = (1, some c, s') ∧ s'.harbor = s.harbor ∧
      Placed k s' (live.filter fun e => e.2 ≠ c) := by
  have hslot := hp.slot_of_mem he
  rw [heq] at hslot
  refine ⟨_, ?_, ?_, hp.remove he (s.name.filter fun n => n.handle ≠ h)⟩
  · simp only [retire, hslot, if_pos hc, heq]
  · rfl

theorem Placed.retire_missed (hp : Placed k s live) {h : UInt32}
    (hno : ∀ g c, (g, c) ∈ live → hash s.slotSize g = hash s.slotSize h →
      contextHandle c ≠ h) :
    retire contextHandle h s = (0, none, s) := by
  unfold retire
  split
  · rfl
  · rename_i c hslot
    obtain ⟨g, he, heq⟩ := (hp.slot_iff _ c).mp hslot
    rw [if_neg (hno g c he heq)]

end Lookup

section Register

variable {contextHandle : C → UInt32} {ctx : C}

theorem register_mono {fuel fuel' : Nat} (hle : fuel ≤ fuel')
    {r : Except Abort (UInt32 × HandleStorage C)}
    (hr : register contextHandle ctx fuel s = some r) :
    register contextHandle ctx fuel' s = some r := by
  induction fuel generalizing s fuel' with
  | zero => cases hr
  | succ fuel ih =>
      obtain ⟨fuel', rfl⟩ : ∃ m, fuel' = m + 1 := ⟨fuel' - 1, by omega⟩
      unfold register at hr ⊢
      cases hfree : freeHandle s with
      | some handle => simpa only [hfree] using hr
      | none =>
          simp only [hfree] at hr ⊢
          split at hr
          · rename_i hsize
            rw [if_pos hsize]
            split at hr
            · exact hr
            · exact ih (by omega) hr
          · rename_i hsize
            rwa [if_neg hsize]

/-- Registration takes at most two rounds: the doubled table has room. -/
theorem Placed.register_run (hp : Placed k s live) (hctx : ctx ∉ live.map Prod.snd)
    (hagree : freeHandle s = none → Placed.Agree contextHandle (s.slotSize * 2) live) :
    (2 ^ 24 ≤ live.length ∧ register contextHandle ctx 2 s = some (.error .tooManySlots)) ∨
    ∃ k' handle s', register contextHandle ctx 2 s = some (.ok (handle, s')) ∧
      s'.harbor = s.harbor ∧ Placed k' s' ((handle, ctx) :: live) := by
  cases hfree : freeHandle s with
  | some handle =>
      right
      refine ⟨k, _, Handle.store s handle ctx, ?_, rfl, hp.store hfree hctx⟩
      simp only [register, hfree]
  | none =>
      have hlen := hp.length_of_full hfree
      have hmask : HANDLE_MASK.toNat = 2 ^ 24 - 1 := by decide
      by_cases hsize : s.slotSize * 2 - 1 ≤ HANDLE_MASK.toNat
      · have hk : k + 1 ≤ 24 := by
          rw [hmask, hp.size, ← Nat.pow_succ] at hsize
          have hpos : 0 < 2 ^ (k + 1) := Nat.two_pow_pos _
          exact (Nat.pow_le_pow_iff_right (by decide : 1 < 2)).mp (by omega)
        obtain ⟨newSlot, hrehash, hp'⟩ := hp.rehash_run hk hfree (hagree hfree)
        have hpos : 0 < s.slotSize := by
          rw [hp.size]
          exact Nat.two_pow_pos k
        cases hfree' : freeHandle { s with slot := newSlot, slotSize := s.slotSize * 2 } with
        | some handle =>
            right
            refine ⟨k + 1, _, _, ?_, ?_, hp'.store hfree' hctx⟩
            · simp only [register, hfree, if_pos hsize, hrehash, hfree']
            · rfl
        | none =>
            have hlen' := hp'.length_of_full hfree'
            simp only at hlen'
            omega
      · left
        refine ⟨?_, by simp only [register, hfree, if_neg hsize]⟩
        have hk : 24 ≤ k := by
          by_contra hlt
          apply hsize
          rw [hmask, hp.size, ← Nat.pow_succ]
          have := Nat.pow_le_pow_right (by decide : 0 < 2) (by omega : k + 1 ≤ 24)
          omega
        rw [← hlen, hp.size]
        exact Nat.pow_le_pow_right (by decide) hk

end Register

end Calls

end Jump.Skynet.Handle
