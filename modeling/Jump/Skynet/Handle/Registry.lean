import Jump.Skynet.Handle.Effects

/-! # Registering and retiring in sequence

A context is registered and keeps its handle before the next operation starts.

`handle_index` starts behind 0, and the mask brings it back to 0. Whether a registration then
takes the number 0 depends on the slots between `handle_index` and the end of the numbers.
-/

namespace Jump.Skynet.Handle

/-! ## Runs -/

section Runs

/-- The storage and the handles that the contexts hold. -/
structure Node (C : Type) where
  storage : HandleStorage C
  contextHandle : C → UInt32

variable {C : Type} [DecidableEq C]

/-- One call; `live` lists the live contexts under the handles given out for them. -/
inductive Step : Node C → List (UInt32 × C) → Node C → List (UInt32 × C) → Prop
  | register {n : Node C} {live : List (UInt32 × C)} {ctx : C} {fuel : Nat}
      {handle : UInt32} {storage : HandleStorage C} (hctx : ctx ∉ live.map Prod.snd)
      (hroom : live.length < 2 ^ 24)
      (h : register n.contextHandle ctx fuel n.storage = some (.ok (handle, storage))) :
      Step n live ⟨storage, Function.update n.contextHandle ctx handle⟩
        ((handle, ctx) :: live)
  | retire {n : Node C} {live : List (UInt32 × C)} {handle : UInt32} {ret : Int}
      {ctx : Option C} {storage : HandleStorage C}
      (h : retire n.contextHandle handle n.storage = (ret, ctx, storage)) :
      Step n live ⟨storage, n.contextHandle⟩ (live.filter fun e => e.1 ≠ handle)

/-- A run of calls since `skynet_handle_init(harbor)`. -/
inductive Run (harbor : UInt32) : Node C → List (UInt32 × C) → Prop
  | init (contextHandle : C → UInt32) : Run harbor ⟨init harbor, contextHandle⟩ []
  | step {n n' : Node C} {live live' : List (UInt32 × C)} (hrun : Run harbor n live)
      (hs : Step n live n' live') : Run harbor n' live'

/-- What the storage promises to its callers. -/
structure Sound (harbor : UInt32) (n : Node C) (live : List (UInt32 × C)) : Prop where
  handles : (live.map Prod.fst).Nodup
  harbor_byte : ∀ e ∈ live, e.1 >>> HANDLE_REMOTE_SHIFT = harbor &&& 0xff
  grab_iff : ∀ h c, grab n.contextHandle h n.storage = some c ↔ (h, c) ∈ live
  retire_live : ∀ h c, (h, c) ∈ live → ∃ storage,
    retire n.contextHandle h n.storage = (1, some c, storage) ∧
    ∀ g d, grab n.contextHandle g storage = some d ↔ (g, d) ∈ live ∧ g ≠ h
  retire_other : ∀ h, (∀ c, (h, c) ∉ live) →
    retire n.contextHandle h n.storage = (0, none, n.storage)
  register_ends : live.length < 2 ^ 24 → ∀ ctx ∉ live.map Prod.snd, ∃ handle storage,
    (∀ c, (handle, c) ∉ live) ∧
    ∀ fuel, register n.contextHandle ctx (fuel + 2) n.storage = some (.ok (handle, storage))
  asserts : live.length < 2 ^ 24 → ∀ ctx ∉ live.map Prod.snd, ∀ fuel e,
    register n.contextHandle ctx fuel n.storage ≠ some (.error e)

/-- The table is in order and every live context holds its handle. -/
structure Inv (harbor : UInt32) (n : Node C) (live : List (UInt32 × C)) : Prop where
  placed : ∃ k, Placed k n.storage live
  stored : ∀ e ∈ live, n.contextHandle e.2 = e.1
  harbor_eq : n.storage.harbor = (harbor &&& 0xff) <<< HANDLE_REMOTE_SHIFT

namespace Inv

variable {harbor : UInt32} {n : Node C} {live : List (UInt32 × C)}

omit [DecidableEq C] in
theorem agree (hi : Inv harbor n live) (slots : Nat) :
    Placed.Agree n.contextHandle slots live := by
  intro e he
  rw [hi.stored e he]

theorem register_run (hi : Inv harbor n live) (hroom : live.length < 2 ^ 24) {ctx : C}
    (hctx : ctx ∉ live.map Prod.snd) :
    ∃ handle storage,
      register n.contextHandle ctx 2 n.storage = some (.ok (handle, storage)) ∧
      Inv harbor ⟨storage, Function.update n.contextHandle ctx handle⟩
        ((handle, ctx) :: live) := by
  obtain ⟨k, hp⟩ := hi.placed
  rcases hp.register_run hctx (fun _ => hi.agree _) with
    ⟨hfull, -⟩ | ⟨k', handle, storage, hrun, hharbor, hp'⟩
  · omega
  · refine ⟨handle, storage, hrun, ⟨k', hp'⟩, ?_, hharbor.trans hi.harbor_eq⟩
    intro e he
    rcases List.mem_cons.mp he with rfl | he
    · exact Function.update_self ..
    · have hne : e.2 ≠ ctx := by
        intro heq
        exact hctx (List.mem_map.mpr ⟨e, he, heq⟩)
      simpa only [Function.update_of_ne hne] using hi.stored e he

/-- The handle that a live context is retired by is the one it was registered under. -/
theorem filter_eq (hi : Inv harbor n live) {h : UInt32} {c : C} (he : (h, c) ∈ live) :
    (live.filter fun e => e.2 ≠ c) = live.filter fun e => e.1 ≠ h := by
  obtain ⟨k, hp⟩ := hi.placed
  apply List.filter_congr
  intro e hmem
  have hiff : e.2 = c ↔ e.1 = h := by
    constructor
    · intro heq
      have hmem' : (e.1, c) ∈ live := heq ▸ hmem
      exact hp.eq_of_context hmem' he
    · intro heq
      have hsame : hash n.storage.slotSize e.1 = hash n.storage.slotSize h := by rw [heq]
      exact congrArg Prod.snd (hp.eq_of_hash hmem he hsame)
  rw [decide_eq_decide]
  exact not_congr hiff

theorem retire_live (hi : Inv harbor n live) {h : UInt32} {c : C} (he : (h, c) ∈ live) :
    ∃ storage, retire n.contextHandle h n.storage = (1, some c, storage) ∧
      Inv harbor ⟨storage, n.contextHandle⟩ (live.filter fun e => e.1 ≠ h) := by
  obtain ⟨k, hp⟩ := hi.placed
  obtain ⟨storage, hrun, hharbor, hp'⟩ := hp.retire_found he rfl (hi.stored _ he)
  rw [hi.filter_eq he] at hp'
  refine ⟨storage, hrun, ⟨k, hp'⟩, ?_, hharbor.trans hi.harbor_eq⟩
  intro e hmem
  exact hi.stored e (List.mem_of_mem_filter hmem)

omit [DecidableEq C] in
theorem retire_other (hi : Inv harbor n live) {h : UInt32} (hno : ∀ c, (h, c) ∉ live) :
    retire n.contextHandle h n.storage = (0, none, n.storage) := by
  obtain ⟨k, hp⟩ := hi.placed
  apply hp.retire_missed
  intro g c he _ hc
  rw [hi.stored _ he] at hc
  exact hno c (hc ▸ he)

omit [DecidableEq C] in
theorem grab_iff (hi : Inv harbor n live) {h : UInt32} {c : C} :
    grab n.contextHandle h n.storage = some c ↔ (h, c) ∈ live := by
  obtain ⟨k, hp⟩ := hi.placed
  rw [hp.grab_iff]
  constructor
  · rintro ⟨g, he, -, hc⟩
    rw [hi.stored _ he] at hc
    exact hc ▸ he
  · intro he
    exact ⟨h, he, rfl, hi.stored _ he⟩

theorem step {n' : Node C} {live' : List (UInt32 × C)} (hi : Inv harbor n live)
    (hs : Step n live n' live') : Inv harbor n' live' := by
  cases hs with
  | @register ctx fuel handle storage hctx hroom hrun =>
      obtain ⟨handle', storage', hrun', hi'⟩ := hi.register_run hroom hctx
      have hmore := register_mono (Nat.le_max_left fuel 2) hrun
      rw [register_mono (Nat.le_max_right fuel 2) hrun'] at hmore
      cases hmore
      exact hi'
  | @retire handle ret ctx storage hrun =>
      by_cases hlive : ∃ c, (handle, c) ∈ live
      · obtain ⟨c, he⟩ := hlive
        obtain ⟨storage', hrun', hi'⟩ := hi.retire_live he
        rw [hrun'] at hrun
        cases hrun
        exact hi'
      · have hno : ∀ c, (handle, c) ∉ live := fun c he => hlive ⟨c, he⟩
        rw [hi.retire_other hno] at hrun
        cases hrun
        have hsame : (live.filter fun e => e.1 ≠ handle) = live := by
          apply List.filter_eq_self.mpr
          intro e he
          rw [decide_eq_true_eq]
          rintro rfl
          exact hno e.2 he
        rw [hsame]
        exact hi

theorem sound (hi : Inv harbor n live) : Sound harbor n live := by
  obtain ⟨k, hp⟩ := hi.placed
  constructor
  · exact hp.handles
  · intro e he
    rw [hp.harbor e he, hi.harbor_eq]
    apply UInt32.toNat_inj.mp
    have hbyte : (harbor &&& 0xff).toNat < 2 ^ 8 := by
      rw [UInt32.toNat_and]
      exact Nat.lt_of_le_of_lt Nat.and_le_right (by decide)
    simp only [HANDLE_REMOTE_SHIFT, UInt32.toNat_shiftRight, UInt32.toNat_shiftLeft,
      Nat.shiftLeft_eq, Nat.shiftRight_eq_div_pow]
    show (harbor &&& 0xff).toNat * 2 ^ 24 % 2 ^ 32 / 2 ^ 24 = (harbor &&& 0xff).toNat
    omega
  · exact fun h c => hi.grab_iff
  · intro h c he
    obtain ⟨storage, hrun, hi'⟩ := hi.retire_live he
    refine ⟨storage, hrun, fun g d => ?_⟩
    rw [hi'.grab_iff]
    simp
  · exact fun h hno => hi.retire_other hno
  · intro hroom ctx hctx
    obtain ⟨handle, storage, hrun, hi'⟩ := hi.register_run hroom hctx
    refine ⟨handle, storage, ?_, fun fuel => register_mono (by omega) hrun⟩
    obtain ⟨k', hp'⟩ := hi'.placed
    intro c he
    exact (List.nodup_cons.mp hp'.handles).1 (List.mem_map.mpr ⟨_, he, rfl⟩)
  · intro hroom ctx hctx fuel e hfail
    obtain ⟨handle, storage, hrun, -⟩ := hi.register_run hroom hctx
    have hmore := register_mono (Nat.le_max_left fuel 2) hfail
    rw [register_mono (Nat.le_max_right fuel 2) hrun] at hmore
    cases hmore

end Inv

theorem run_inv {harbor : UInt32} {n : Node C} {live : List (UInt32 × C)}
    (hrun : Run harbor n live) : Inv harbor n live := by
  induction hrun with
  | init contextHandle => exact ⟨⟨2, Placed.init harbor⟩, by simp, rfl⟩
  | step _ hs ih => exact ih.step hs

/-- The storage keeps its promises after any sequence of calls, however often the index has
wrapped around and the table has grown. -/
theorem storage_sound {harbor : UInt32} {n : Node C} {live : List (UInt32 × C)}
    (hrun : Run harbor n live) : Sound harbor n live :=
  (run_inv hrun).sound

/-- The first context of harbor 1. -/
theorem storage_sound_first :
    Sound 1 ⟨store (init 1) 1 (5 : Nat), Function.update (fun _ => 0) 5 0x1000001⟩
      [(0x1000001, 5)] := by
  have hrun : register (fun _ => 0) (5 : Nat) 1 (init 1) =
      some (.ok (0x1000001, store (init 1) 1 5)) := rfl
  exact storage_sound (.step (.init fun _ => 0) (.register (by simp) (by decide) hrun))

end Runs

/-! ## The number 0 -/

section Search

variable {C : Type}

/-- A live context stands in the slot of `handle`, in a table of `size` slots. -/
def Taken (live : List (UInt32 × C)) (size : Nat) (handle : UInt32) : Prop :=
  ∃ e ∈ live, hash size e.1 = hash size handle

/-- The size of the table that a registration ends in: a full one is doubled first. -/
def tableSize (s : HandleStorage C) : Nat :=
  if ∀ j < s.slotSize, (s.slot j).isSome then s.slotSize * 2 else s.slotSize

/-- The slot of the number 0 is taken, or a free one comes before it. -/
def SkipsZero (s : HandleStorage C) (live : List (UInt32 × C)) : Prop :=
  Taken live (tableSize s) 0 ∨ ∃ number : UInt32, s.handleIndex ≤ number ∧
    number ≤ HANDLE_MASK ∧ ¬ Taken live (tableSize s) number

/-- `handle_index` stays between 1 and the number of numbers. -/
def InRange (s : HandleStorage C) : Prop :=
  1 ≤ s.handleIndex.toNat ∧ s.handleIndex.toNat ≤ 16777216

variable {k : Nat} {s s' : HandleStorage C} {live : List (UInt32 × C)} {number handle : UInt32}

theorem Placed.taken_iff (hp : Placed k s live) :
    Taken live s.slotSize number ↔ s.slot (hash s.slotSize number) ≠ none := by
  rw [Option.ne_none_iff_exists']
  constructor
  · intro h
    obtain ⟨e, he, heq⟩ := h
    exact ⟨e.2, (hp.slot_iff _ _).mpr ⟨e.1, he, heq⟩⟩
  · intro h
    obtain ⟨c, hc⟩ := h
    obtain ⟨g, hg, heq⟩ := (hp.slot_iff _ _).mp hc
    exact ⟨(g, c), hg, heq⟩

theorem Placed.size_le_numbers (hp : Placed k s live) : s.slotSize ≤ 16777216 := by
  rw [hp.size]
  exact Nat.pow_le_pow_right (by decide) hp.size_le

theorem candidate_toNat (s : HandleStorage C) (i : Nat) :
    (candidate s i).toNat = (i + s.handleIndex.toNat) % 16777216 := by
  have hmask : HANDLE_MASK.toNat = 2 ^ 24 - 1 := by decide
  rw [candidate, UInt32.toNat_and, hmask, Nat.and_two_pow_sub_one_eq_mod, UInt32.toNat_add,
    UInt32.toNat_ofNat']
  omega

theorem candidate_eq {i : Nat} (h : i + s.handleIndex.toNat = number.toNat)
    (hle : number ≤ HANDLE_MASK) : candidate s i = number := by
  have hlt : number.toNat ≤ 16777215 := UInt32.le_iff_toNat_le.mp hle
  rw [← UInt32.toNat_inj, candidate_toNat]
  omega

/-- The search takes the first free slot. -/
theorem freeHandle_first (h : freeHandle s = some number) : ∃ i < s.slotSize,
    candidate s i = number ∧ s.slot (hash s.slotSize number) = none ∧
      ∀ j < i, s.slot (hash s.slotSize (candidate s j)) ≠ none := by
  rw [freeHandle, List.find?_map, Option.map_eq_some_iff] at h
  obtain ⟨i, hfind, hnumber⟩ := h
  rw [List.find?_range_eq_some] at hfind
  obtain ⟨hfree, hmem, hfirst⟩ := hfind
  refine ⟨i, List.mem_range.mp hmem, hnumber, ?_, ?_⟩
  · rw [← hnumber]
    simpa using hfree
  · intro j hj
    exact Option.isSome_iff_ne_none.mp (by simpa using hfirst j hj)

/-- The search takes 0 just where it is free and everything in front of it is not. -/
theorem Placed.freeHandle_zero_iff (hp : Placed k s live) (hidx : InRange s)
    (h : freeHandle s = some number) : number = 0 ↔ ¬ Taken live s.slotSize 0 ∧
      ∀ n : UInt32, s.handleIndex ≤ n → n ≤ HANDLE_MASK → Taken live s.slotSize n := by
  obtain ⟨hone, hlast⟩ := hidx
  have hsize := hp.size_le_numbers
  obtain ⟨i, hi, hcand, hfree, hfirst⟩ := freeHandle_first h
  have hvalue := candidate_toNat s i
  rw [hcand] at hvalue
  constructor
  · intro hzero
    subst hzero
    refine ⟨fun ht => hp.taken_iff.mp ht hfree, ?_⟩
    intro n hge hle
    rw [UInt32.le_iff_toNat_le] at hge
    have hlt : n.toNat ≤ 16777215 := UInt32.le_iff_toNat_le.mp hle
    have hpos : (i + s.handleIndex.toNat) % 16777216 = 0 := hvalue.symm
    have htaken := hfirst (n.toNat - s.handleIndex.toNat) (by omega)
    rw [candidate_eq (by omega) hle] at htaken
    exact hp.taken_iff.mpr htaken
  · intro hall
    obtain ⟨hzero, hfront⟩ := hall
    have hwraps : 16777216 ≤ i + s.handleIndex.toNat := by
      by_contra hlow
      have hge : s.handleIndex ≤ number := by
        rw [UInt32.le_iff_toNat_le]
        omega
      have hle : number ≤ HANDLE_MASK := by
        rw [UInt32.le_iff_toNat_le]
        change number.toNat ≤ 16777215
        omega
      exact hp.taken_iff.mp (hfront number hge hle) hfree
    have hcand₀ : candidate s (16777216 - s.handleIndex.toNat) = 0 := by
      rw [← UInt32.toNat_inj, candidate_toNat]
      change _ = 0
      omega
    have hnext : ¬ 16777216 - s.handleIndex.toNat < i := by
      intro hlt
      have htaken := hfirst _ hlt
      rw [hcand₀] at htaken
      exact hzero (hp.taken_iff.mpr htaken)
    have heq : 16777216 - s.handleIndex.toNat = i := by omega
    rw [heq] at hcand₀
    exact hcand.symm.trans hcand₀

end Search

section Register

variable {C : Type} {k : Nat} {s s' : HandleStorage C} {live : List (UInt32 × C)}
  {handle : UInt32} {contextHandle : C → UInt32} {ctx : C} {fuel : Nat}

/-- The low bits of a handle are the number that was found. -/
theorem or_mask {number harbor : UInt32} (hlow : harbor.toNat % 2 ^ 24 = 0)
    (hlt : number.toNat < 2 ^ 24) : (number ||| harbor) &&& HANDLE_MASK = number := by
  have hmask : HANDLE_MASK.toNat = 2 ^ 24 - 1 := by decide
  rw [← UInt32.toNat_inj, UInt32.toNat_and, hmask, Nat.and_two_pow_sub_one_eq_mod,
    UInt32.toNat_or, Nat.or_mod_two_pow, hlow, Nat.or_zero, Nat.mod_eq_of_lt hlt]

/-- The table that the search of a registration succeeds in -/
theorem Placed.register_found (hp : Placed k s live)
    (hagree : ∀ size, Placed.Agree contextHandle size live)
    (hr : register contextHandle ctx fuel s = some (.ok (handle, s'))) :
    ∃ k' t number, Placed k' t live ∧ t.slotSize = tableSize s ∧
      t.handleIndex = s.handleIndex ∧ freeHandle t = some number ∧
      handle = number ||| s.harbor ∧ s'.handleIndex = number + 1 := by
  obtain ⟨fuel', hfuel⟩ : ∃ m, max fuel 2 = m + 2 := ⟨max fuel 2 - 2, by omega⟩
  have hr := register_mono (Nat.le_max_left fuel 2) hr
  rw [hfuel, register] at hr
  cases hfree : freeHandle s with
  | some number =>
      simp only [hfree, Option.some.injEq, Except.ok.injEq, Prod.mk.injEq] at hr
      have hsize : ¬ ∀ j < s.slotSize, (s.slot j).isSome := by
        intro hfull
        have hsome := hfull _ (hp.hash_lt number)
        rw [(Placed.freeHandle_some hfree).1] at hsome
        cases hsome
      refine ⟨k, s, number, hp, ?_, rfl, hfree, hr.1.symm, ?_⟩
      · rw [tableSize, if_neg hsize]
      · rw [← hr.2]
        rfl
  | none =>
      have hfull : ∀ j < s.slotSize, (s.slot j).isSome := by
        intro j hj
        obtain ⟨c, hc⟩ := hp.freeHandle_none hfree hj
        rw [hc]
        rfl
      simp only [hfree] at hr
      by_cases hroom : s.slotSize * 2 - 1 ≤ HANDLE_MASK.toNat
      · have hk : k + 1 ≤ 24 := by
          have hmask : HANDLE_MASK.toNat = 2 ^ 24 - 1 := by decide
          rw [hmask, hp.size, ← Nat.pow_succ] at hroom
          have hpos : 0 < 2 ^ (k + 1) := Nat.two_pow_pos _
          exact (Nat.pow_le_pow_iff_right (by decide : 1 < 2)).mp (by omega)
        obtain ⟨newSlot, hrehash, hp'⟩ := hp.rehash_run hk hfree (hagree _)
        simp only [if_pos hroom, hrehash, register] at hr
        cases hfree' : freeHandle { s with slot := newSlot, slotSize := s.slotSize * 2 } with
        | some number =>
            simp only [hfree', Option.some.injEq, Except.ok.injEq, Prod.mk.injEq] at hr
            refine ⟨k + 1, _, number, hp', ?_, rfl, hfree', hr.1.symm, ?_⟩
            · rw [tableSize, if_pos hfull]
            · rw [← hr.2]
              rfl
        | none =>
            have hlen := hp.length_of_full hfree
            have hlen' : s.slotSize * 2 = live.length := hp'.length_of_full hfree'
            have hpos : 0 < s.slotSize := by
              rw [hp.size]
              exact Nat.two_pow_pos k
            omega
      · rw [if_neg hroom] at hr
        cases hr

/-- One registration -/
theorem Placed.register_zero_iff (hp : Placed k s live) (hidx : InRange s)
    (hagree : ∀ size, Placed.Agree contextHandle size live)
    (hr : register contextHandle ctx fuel s = some (.ok (handle, s'))) :
    (handle &&& HANDLE_MASK ≠ 0 ↔ SkipsZero s live) ∧ InRange s' := by
  obtain ⟨k', t, number, ht, hsize, hindex, hfree, rfl, hnext⟩ := hp.register_found hagree hr
  have hlt := (Placed.freeHandle_some hfree).2
  constructor
  · have hidx' : InRange t := by
      unfold InRange
      rwa [hindex]
    rw [or_mask hp.low hlt, Ne, ht.freeHandle_zero_iff hidx' hfree, hsize, hindex, SkipsZero]
    constructor
    · intro h
      by_contra hno
      rw [not_or] at hno
      refine h ⟨hno.1, ?_⟩
      intro n hge hle
      by_contra hfreeN
      exact hno.2 ⟨n, hge, hle, hfreeN⟩
    · intro h hall
      cases h with
      | inl htaken => exact hall.1 htaken
      | inr hfound =>
          obtain ⟨n, hge, hle, hfreeN⟩ := hfound
          exact hfreeN (hall.2 n hge hle)
  · rw [InRange, hnext, UInt32.toNat_add]
    change 1 ≤ (number.toNat + 1) % 2 ^ 32 ∧ (number.toNat + 1) % 2 ^ 32 ≤ 16777216
    omega

end Register

section Histories

variable {C : Type} [DecidableEq C]

/-- A handle that was given out, and the storage and the live contexts just before. -/
structure Issue (C : Type) where
  storage : HandleStorage C
  live : List (UInt32 × C)
  handle : UInt32

/-- A run of calls since `skynet_handle_init(harbor)`, with every handle that it gives out. -/
inductive History (harbor : UInt32) :
    Node C → List (UInt32 × C) → List (Issue C) → Prop
  | init (contextHandle : C → UInt32) : History harbor ⟨init harbor, contextHandle⟩ [] []
  | register {n n' : Node C} {live : List (UInt32 × C)} {past : List (Issue C)} {ctx : C}
      {handle : UInt32} (h : History harbor n live past)
      (hs : Step n live n' ((handle, ctx) :: live)) :
      History harbor n' ((handle, ctx) :: live) (⟨n.storage, live, handle⟩ :: past)
  | retire {n n' : Node C} {live : List (UInt32 × C)} {past : List (Issue C)}
      {handle : UInt32} (h : History harbor n live past)
      (hs : Step n live n' (live.filter fun e => e.1 ≠ handle)) :
      History harbor n' (live.filter fun e => e.1 ≠ handle) past

variable {harbor : UInt32} {n n' : Node C} {live live' : List (UInt32 × C)}
  {past : List (Issue C)}

theorem History.run (h : History harbor n live past) : Run harbor n live := by
  induction h with
  | init contextHandle => exact .init contextHandle
  | register _ hs ih => exact .step ih hs
  | retire _ hs ih => exact .step ih hs

omit [DecidableEq C] in
theorem retire_index {contextHandle : C → UInt32} {handle : UInt32} {ret : Int} {ctx : Option C}
    {s s' : HandleStorage C} (h : retire contextHandle handle s = (ret, ctx, s')) :
    s'.handleIndex = s.handleIndex := by
  unfold retire at h
  split at h
  next => cases h; rfl
  next =>
    split at h
    · cases h
      rfl
    · cases h
      rfl

theorem Inv.step_inRange (hi : Inv harbor n live) (hidx : InRange n.storage)
    (hs : Step n live n' live') : InRange n'.storage := by
  cases hs with
  | register hctx hroom hr =>
      obtain ⟨k, hp⟩ := hi.placed
      exact (hp.register_zero_iff hidx hi.agree hr).2
  | retire hr =>
      rwa [InRange, retire_index hr]

theorem History.inRange (h : History harbor n live past) : InRange n.storage := by
  induction h with
  | init contextHandle => exact ⟨Nat.le_refl 1, (by decide : 1 ≤ 16777216)⟩
  | register h hs ih => exact (run_inv h.run).step_inRange ih hs
  | retire h hs ih => exact (run_inv h.run).step_inRange ih hs

theorem Inv.issue_iff (hi : Inv harbor n live) (hidx : InRange n.storage) {handle : UInt32}
    {ctx : C} (hs : Step n live n' ((handle, ctx) :: live)) :
    handle &&& HANDLE_MASK ≠ 0 ↔ SkipsZero n.storage live := by
  generalize hlive : (handle, ctx) :: live = after at hs
  cases hs with
  | register hctx hroom hr =>
      obtain ⟨k, hp⟩ := hi.placed
      cases hlive
      exact (hp.register_zero_iff hidx hi.agree hr).1
  | retire hr =>
      have hlen := congrArg List.length hlive
      have hle := hlen.le.trans (List.length_filter_le _ live)
      rw [List.length_cons] at hle
      omega

/-- A run gives out no handle with the number 0 just where every registration skips it. -/
theorem History.nonzero_iff (h : History harbor n live past) :
    (∀ r ∈ past, r.handle &&& HANDLE_MASK ≠ 0) ↔ ∀ r ∈ past, SkipsZero r.storage r.live := by
  induction h with
  | init contextHandle => simp
  | register h hs ih =>
      rw [List.forall_mem_cons, List.forall_mem_cons, ih]
      exact and_congr_left' ((run_inv h.run).issue_iff h.inRange hs)
  | retire h hs ih => exact ih

/-- The first context of harbor 1 -/
theorem nonzero_first : ∃ v cs, ∃ r : Issue Unit, History 1 v cs [r] ∧ r.handle = 0x1000001 ∧
    r.handle &&& HANDLE_MASK ≠ 0 := by
  have hrun : register (fun _ => 0) () 1 (Handle.init 1) =
      some (.ok (0x1000001, store (Handle.init 1) 1 ())) := rfl
  have hstep : Step ⟨Handle.init 1, fun _ => 0⟩ [] _ [(0x1000001, ())] :=
    .register (by simp) (by decide) hrun
  have h : History 1 _ _ [⟨Handle.init 1, [], 0x1000001⟩] :=
    .register (.init fun _ => 0) hstep
  refine ⟨_, _, _, h, rfl, h.nonzero_iff.mpr ?_ _ List.mem_cons_self⟩
  intro r hr
  rw [List.mem_singleton.mp hr]
  refine Or.inr ⟨1, by decide, by decide, ?_⟩
  intro htaken
  obtain ⟨e, he, -⟩ := htaken
  cases he

/-- An empty table, after the number in front of `index` was given out and came back. -/
def emptyAt (index : UInt32) : HandleStorage Unit :=
  ⟨0, index, DEFAULT_SLOT_SIZE, fun _ => none, []⟩

/-- A context is registered and retired. -/
theorem round {index : UInt32} {contextHandle : Unit → UInt32}
    {past : List (Issue Unit)} (h : History 0 ⟨emptyAt index, contextHandle⟩ [] past) :
    ∃ contextHandle' past', History 0 ⟨emptyAt ((index &&& HANDLE_MASK) + 1), contextHandle'⟩ []
      past' ∧ ∃ r ∈ past', r.handle = index &&& HANDLE_MASK := by
  have hfree : freeHandle (emptyAt index) = some (index &&& HANDLE_MASK) := by
    have hcand : candidate (emptyAt index) 0 = index &&& HANDLE_MASK :=
      congrArg (· &&& HANDLE_MASK) (UInt32.zero_add index)
    rw [← hcand]
    rfl
  generalize index &&& HANDLE_MASK = number at hfree ⊢
  have hreg : register contextHandle () 1 (emptyAt index) =
      some (.ok (number, store (emptyAt index) number ())) := by
    rw [register, hfree]
    exact congrArg (fun x => some (Except.ok (x, _))) (UInt32.or_zero (a := number))
  have hstep₁ : Step ⟨emptyAt index, contextHandle⟩ [] _ [(number, ())] :=
    .register (by simp) (by decide) hreg
  have hret : retire (Function.update contextHandle () number) number
      (store (emptyAt index) number ()) = (1, some (), emptyAt (number + 1)) := by
    have hslot : (store (emptyAt index) number ()).slot
        (hash (store (emptyAt index) number ()).slotSize number) = some () :=
      Function.update_self ..
    rw [retire]
    simp only [hslot]
    rw [if_pos (Function.update_self ..)]
    have hempty : Function.update (store (emptyAt index) number ()).slot
        (hash (store (emptyAt index) number ()).slotSize number) none = fun _ => none := by
      rw [store, Function.update_idem]
      exact Function.update_eq_self _ _
    rw [hempty]
    rfl
  have hstep₂ : Step ⟨store (emptyAt index) number (), Function.update contextHandle () number⟩
      [(number, ())] _ ([(number, ())].filter fun e => e.1 ≠ number) := .retire hret
  have hnone : ([(number, ())].filter fun e => e.1 ≠ number) = [] := by simp
  have hend := History.retire (.register h hstep₁) hstep₂
  rw [hnone] at hend
  exact ⟨_, _, hend, _, List.mem_cons_self .., rfl⟩

/-- So many rounds lead to every value of `handle_index`. -/
theorem rounds (k : Nat) (hk : k < 16777216) : ∃ contextHandle past,
    History 0 ⟨emptyAt (UInt32.ofNat (k + 1)), contextHandle⟩ [] past := by
  induction k with
  | zero => exact ⟨fun _ => 0, [], .init fun _ => 0⟩
  | succ k ih =>
      obtain ⟨contextHandle, past, h⟩ := ih (by omega)
      obtain ⟨contextHandle', past', h', -⟩ := round h
      have hindex : (UInt32.ofNat (k + 1) &&& HANDLE_MASK) + 1 = UInt32.ofNat (k + 1 + 1) := by
        have hmask : HANDLE_MASK.toNat = 2 ^ 24 - 1 := by decide
        rw [← UInt32.toNat_inj, UInt32.toNat_add, UInt32.toNat_and, hmask,
          Nat.and_two_pow_sub_one_eq_mod, UInt32.toNat_ofNat', UInt32.toNat_ofNat']
        change ((k + 1) % 2 ^ 32 % 2 ^ 24 + 1) % 2 ^ 32 = _
        omega
      rw [hindex] at h'
      exact ⟨contextHandle', past', h'⟩

/-- Harbor 0 gives out the handle 0 after `2 ^ 24 - 1` contexts that came and went. -/
theorem issues_zero : ∃ (n : Node Unit) (live : List (UInt32 × Unit)) (past : List (Issue Unit)),
    History 0 n live past ∧ ∃ r ∈ past, r.handle = 0 := by
  obtain ⟨contextHandle, past, h⟩ := rounds 16777215 (by decide)
  obtain ⟨contextHandle', past', h', hr⟩ := round h
  exact ⟨_, _, past', h', hr⟩

end Histories

end Jump.Skynet.Handle
