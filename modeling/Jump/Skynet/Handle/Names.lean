import Jump.Core.BinarySearch
import Jump.Core.Gap
import Jump.Skynet.Handle.Registry
import Mathlib.Data.List.Pairwise

/-! # The names of the handles

The array `name` of `struct handle_storage` with its two searches, and the map that it stands for.
A string is its bytes in front of the NUL.
-/

namespace Jump.Skynet.Handle

open Jump.Core

def MAX_SLOT_SIZE : Nat := 0x40000000

/-- `strcmp` -/
def strcmp (s t : List UInt8) : Ordering := compare s t

@[simp] theorem strcmp_self (s : List UInt8) : strcmp s s = .eq := Std.ReflOrd.compare_self

theorem strcmp_eq_iff {s t : List UInt8} : strcmp s t = .eq ↔ s = t :=
  Std.LawfulEqOrd.compare_eq_iff_eq

theorem strcmp_lt_of_gt {s t : List UInt8} (h : strcmp s t = .gt) : strcmp t s = .lt := by
  rw [strcmp] at h ⊢
  exact Std.OrientedCmp.lt_of_gt h

/-- An element of the array `name` -/
structure Alias where
  name : List UInt8
  handle : UInt32
deriving DecidableEq

/-- `name_cap`, `name_count` and `name` -/
structure NameTable where
  cap : Nat
  count : Nat
  name : Nat → Alias

namespace NameTable

/-- The part of `skynet_handle_init`; what `skynet_malloc` returns holds anything. -/
def init (memory : Nat → Alias) : NameTable := ⟨2, 0, memory⟩

/-- The loop that both searches run -/
def search (t : NameTable) (name : List UInt8) : BinarySearch.Place :=
  BinarySearch.search (fun mid => strcmp (t.name mid).name name) 0 (t.count - 1)

/-- `skynet_handle_findname` -/
def findname (t : NameTable) (name : List UInt8) : UInt32 :=
  match t.search name with
  | .found mid => (t.name mid).handle
  | .before _ => 0

/-- `_insert_name_before`; `none` where the assertion on `name_cap` or its `int` does not hold. -/
def insertNameBefore (t : NameTable) (memory : Nat → Alias) (name : List UInt8)
    (handle : UInt32) (before : Nat) : Option NameTable :=
  if t.cap ≤ t.count then
    if t.cap * 2 ≤ MAX_SLOT_SIZE then
      let n := Gap.copy t.name 0 0 before memory
      let n := Gap.copy t.name 1 before (t.count - before) n
      some ⟨t.cap * 2, t.count + 1, Function.update n before ⟨name, handle⟩⟩
    else none
  else
    let n := Gap.shiftUp before t.count t.name
    some ⟨t.cap, t.count + 1, Function.update n before ⟨name, handle⟩⟩

/-- `_insert_name`, with the string that it returns -/
def insertName (t : NameTable) (memory : Nat → Alias) (name : List UInt8) (handle : UInt32) :
    Option (Option (List UInt8) × NameTable) :=
  match t.search name with
  | .found _ => some (none, t)
  | .before begin =>
    (t.insertNameBefore memory name handle begin).map fun t' => (some name, t')

/-- `skynet_handle_namehandle` -/
def namehandle (t : NameTable) (memory : Nat → Alias) (handle : UInt32) (name : List UInt8) :
    Option (Option (List UInt8) × NameTable) :=
  t.insertName memory name handle

/-- The loop over the names in `skynet_handle_retire` -/
def retire (t : NameTable) (handle : UInt32) : NameTable :=
  let r := Gap.compact (fun n => n.handle ≠ handle) t.count 0 0 t.name
  { t with count := r.2, name := r.1 }

def entries (t : NameTable) : List Alias := Gap.elements t.name t.count

/-- Strictly sorted by `strcmp`, in an array that is large enough and was only doubled -/
structure Sorted (t : NameTable) : Prop where
  sorted : t.entries.Pairwise fun a b => strcmp a.name b.name = .lt
  room : t.count ≤ t.cap
  doubled : ∃ k ≤ 30, t.cap = 2 ^ k

variable {t t' : NameTable} {memory : Nat → Alias} {name : List UInt8} {handle : UInt32}
  {e : Alias}

theorem mem_entries : e ∈ t.entries ↔ ∃ i < t.count, t.name i = e := by
  simp [entries, Gap.elements]

theorem init_sorted (memory : Nat → Alias) : Sorted (init memory) where
  sorted := List.Pairwise.nil
  room := Nat.zero_le _
  doubled := ⟨1, by decide, rfl⟩

namespace Sorted

theorem lt (h : Sorted t) {i j : Nat} (hij : i < j) (hj : j < t.count) :
    strcmp (t.name i).name (t.name j).name = .lt := by
  have hpair := h.sorted
  rw [List.pairwise_iff_getElem] at hpair
  have hlen : t.entries.length = t.count := Gap.length_elements _ _
  have hlt := hpair i j (by omega) (by omega) hij
  simpa only [entries, Gap.getElem_elements] using hlt

/-- The search stands in front of a greater name, or at the name itself. -/
theorem search_fits (h : Sorted t) (name : List UInt8) :
    (t.search name).Fits (fun mid => strcmp (t.name mid).name name) t.count := by
  refine BinarySearch.search_fits ?_
  have hstrict : ∀ i j, i < j → j < t.count →
      compare (t.name i).name (t.name j).name = .lt := fun i j hij hj => h.lt hij hj
  exact BinarySearch.ordered_of_strict hstrict name

/-- A name stands for one handle. -/
theorem handle_unique (h : Sorted t) {g : UInt32} (he : ⟨name, handle⟩ ∈ t.entries)
    (hg : ⟨name, g⟩ ∈ t.entries) : handle = g := by
  obtain ⟨i, hi, hei⟩ := mem_entries.mp he
  obtain ⟨j, hj, hej⟩ := mem_entries.mp hg
  rcases Nat.lt_trichotomy i j with hij | hij | hij
  · have hlt := h.lt hij hj
    rw [hei, hej, strcmp_self] at hlt
    cases hlt
  · rw [hij, hej] at hei
    cases hei
    rfl
  · have hlt := h.lt hij hi
    rw [hei, hej, strcmp_self] at hlt
    cases hlt

theorem found (h : Sorted t) {mid : Nat} (hsearch : t.search name = .found mid) :
    ⟨name, (t.name mid).handle⟩ ∈ t.entries := by
  have hfits := h.search_fits name
  rw [hsearch] at hfits
  have heq : (t.name mid).name = name := strcmp_eq_iff.mp hfits.2
  refine mem_entries.mpr ⟨mid, hfits.1, ?_⟩
  rw [← heq]

theorem before (h : Sorted t) {begin : Nat} (hsearch : t.search name = .before begin) :
    begin ≤ t.count ∧ (∀ i < begin, strcmp (t.name i).name name = .lt) ∧
      ∀ i, begin ≤ i → i < t.count → strcmp (t.name i).name name = .gt := by
  have hfits := h.search_fits name
  rw [hsearch] at hfits
  exact hfits

/-- Where the search ends tells whether the name is there. -/
theorem search_found_iff (h : Sorted t) :
    (∃ mid, t.search name = .found mid) ↔ ∃ handle, ⟨name, handle⟩ ∈ t.entries := by
  constructor
  · intro hex
    obtain ⟨mid, hmid⟩ := hex
    exact ⟨_, h.found hmid⟩
  · intro hex
    obtain ⟨handle, hmem⟩ := hex
    obtain ⟨i, hi, he⟩ := mem_entries.mp hmem
    cases hsearch : t.search name with
    | found mid => exact ⟨mid, rfl⟩
    | before begin =>
        obtain ⟨-, hlow, hhigh⟩ := h.before hsearch
        have hsame : strcmp (t.name i).name name = .eq := by
          rw [he, strcmp_self]
        by_cases hib : i < begin
        · rw [hlow i hib] at hsame
          cases hsame
        · rw [hhigh i (by omega) hi] at hsame
          cases hsame

theorem findname_of_mem (h : Sorted t) (hmem : ⟨name, handle⟩ ∈ t.entries) :
    t.findname name = handle := by
  obtain ⟨mid, hsearch⟩ := h.search_found_iff.mpr ⟨handle, hmem⟩
  rw [findname, hsearch]
  exact h.handle_unique (h.found hsearch) hmem

theorem findname_of_not_mem (h : Sorted t) (hno : ∀ handle, ⟨name, handle⟩ ∉ t.entries) :
    t.findname name = 0 := by
  rw [findname]
  cases hsearch : t.search name with
  | found mid =>
      exact absurd (h.found hsearch) (hno _)
  | before begin => rfl

theorem namehandle_of_mem (h : Sorted t) (memory : Nat → Alias) (g : UInt32)
    (hmem : ⟨name, handle⟩ ∈ t.entries) : t.namehandle memory g name = some (none, t) := by
  obtain ⟨mid, hsearch⟩ := h.search_found_iff.mpr ⟨handle, hmem⟩
  rw [namehandle, insertName, hsearch]

theorem pairwise_insert (h : Sorted t) {begin : Nat} (hsearch : t.search name = .before begin) :
    (t.entries.take begin ++ ⟨name, handle⟩ :: t.entries.drop begin).Pairwise fun a b =>
      strcmp a.name b.name = .lt := by
  obtain ⟨-, hlow, hhigh⟩ := h.before hsearch
  have hold := h.sorted
  rw [← List.take_append_drop begin t.entries, List.pairwise_append] at hold
  obtain ⟨htake, hdrop, hcross⟩ := hold
  rw [List.pairwise_append, List.pairwise_cons]
  refine ⟨htake, ⟨?_, hdrop⟩, ?_⟩
  · intro b hb
    obtain ⟨i, hbegin, hi, rfl⟩ := Gap.mem_drop hb
    exact strcmp_lt_of_gt (hhigh i hbegin hi)
  · intro a ha b hb
    cases hb with
    | head =>
        obtain ⟨i, hbegin, -, rfl⟩ := Gap.mem_take ha
        exact hlow i hbegin
    | tail _ hb => exact hcross a ha b hb

/-- The call adds one entry, unless the table has its greatest size and is full. -/
theorem insertNameBefore_run (h : Sorted t) (memory : Nat → Alias) (name : List UInt8)
    (handle : UInt32) {begin : Nat} (hbegin : begin ≤ t.count) :
    (t.count = MAX_SLOT_SIZE ∧ t.insertNameBefore memory name handle begin = none) ∨
    ∃ t', t.insertNameBefore memory name handle begin = some t' ∧ t'.count ≤ t'.cap ∧
      (∃ k ≤ 30, t'.cap = 2 ^ k) ∧ t'.count = t.count + 1 ∧
      t'.entries = t.entries.take begin ++ ⟨name, handle⟩ :: t.entries.drop begin := by
  obtain ⟨k, hk, hcap⟩ := h.doubled
  have hroom := h.room
  have hmax : MAX_SLOT_SIZE = 2 ^ 30 := by decide
  unfold insertNameBefore
  by_cases hfull : t.cap ≤ t.count
  · rw [if_pos hfull]
    by_cases hsize : t.cap * 2 ≤ MAX_SLOT_SIZE
    · rw [if_pos hsize]
      rw [hcap, hmax, ← Nat.pow_succ] at hsize
      have hk' : k + 1 ≤ 30 := (Nat.pow_le_pow_iff_right (by decide : 1 < 2)).mp hsize
      have hpos : 0 < t.cap := by
        rw [hcap]
        exact Nat.two_pow_pos k
      refine Or.inr ⟨_, rfl, ?_, ⟨k + 1, hk', ?_⟩, rfl, ?_⟩
      · change t.count + 1 ≤ t.cap * 2
        omega
      · rw [hcap, Nat.pow_succ]
      · refine Gap.elements_insert hbegin ?_ (Function.update_self ..) ?_
        · intro i hi
          dsimp only
          rw [Function.update_of_ne (by omega), Gap.copy_apply, if_neg (by omega),
            Gap.copy_apply, if_pos (by omega), Nat.sub_zero]
        · intro i hge hlt
          dsimp only
          rw [Function.update_of_ne (by omega), Gap.copy_apply, if_pos (by omega),
            Nat.add_sub_cancel]
    · rw [if_neg hsize]
      refine Or.inl ⟨?_, rfl⟩
      have hk' : k = 30 := by
        by_contra hne
        refine hsize ?_
        rw [hcap, hmax, ← Nat.pow_succ]
        exact Nat.pow_le_pow_right (by decide) (by omega)
      rw [hmax, ← hk', ← hcap]
      omega
  · rw [if_neg hfull]
    refine Or.inr ⟨_, rfl, ?_, ⟨k, hk, hcap⟩, rfl, ?_⟩
    · change t.count + 1 ≤ t.cap
      omega
    · refine Gap.elements_insert hbegin ?_ (Function.update_self ..) ?_
      · intro i hi
        dsimp only
        rw [Function.update_of_ne (by omega), Gap.shiftUp_apply, if_neg (by omega)]
      · intro i hge hlt
        dsimp only
        rw [Function.update_of_ne (by omega), Gap.shiftUp_apply, if_pos (by omega),
          Nat.add_sub_cancel]

/-- A new name -/
theorem namehandle_run (h : Sorted t) (memory : Nat → Alias) (handle : UInt32)
    (hno : ∀ g, ⟨name, g⟩ ∉ t.entries) :
    (t.count = MAX_SLOT_SIZE ∧ t.namehandle memory handle name = none) ∨
    ∃ t', t.namehandle memory handle name = some (some name, t') ∧ Sorted t' ∧
      t'.count = t.count + 1 ∧ ∀ e, e ∈ t'.entries ↔ e = ⟨name, handle⟩ ∨ e ∈ t.entries := by
  rw [namehandle, insertName]
  cases hsearch : t.search name with
  | found mid => exact absurd (h.found hsearch) (hno _)
  | before begin =>
      have hbegin := (h.before hsearch).1
      cases h.insertNameBefore_run memory name handle hbegin with
      | inl hfull => exact Or.inl ⟨hfull.1, congrArg (Option.map _) hfull.2⟩
      | inr hadded =>
          obtain ⟨t', hrun, hroom, hdoubled, hcount, hentries⟩ := hadded
          refine Or.inr ⟨t', congrArg (Option.map _) hrun, ⟨?_, hroom, hdoubled⟩, hcount, ?_⟩
          · rw [hentries]
            exact h.pairwise_insert hsearch
          · intro e
            rw [hentries, List.mem_append, List.mem_cons, ← or_assoc,
              or_comm (a := e ∈ List.take _ _), or_assoc, ← List.mem_append,
              List.take_append_drop]

theorem retire_entries (t : NameTable) (handle : UInt32) :
    (t.retire handle).entries = t.entries.filter fun e => e.handle ≠ handle :=
  Gap.elements_compact _ _ _

theorem retire (h : Sorted t) (handle : UInt32) : Sorted (t.retire handle) := by
  have hentries := retire_entries t handle
  refine ⟨?_, ?_, h.doubled⟩
  · rw [hentries]
    exact h.sorted.sublist List.filter_sublist
  · have hlen := congrArg List.length hentries
    have hle := hlen.le.trans (List.length_filter_le _ t.entries)
    rw [entries, entries, Gap.length_elements, Gap.length_elements] at hle
    exact hle.trans h.room

end Sorted

end NameTable

section Directory

variable {C : Type} [DecidableEq C]

omit [DecidableEq C] in
/-- `skynet_handle_retire` with its loop over the names -/
def retireHandle (contextHandle : C → UInt32) (handle : UInt32) (s : HandleStorage C)
    (t : NameTable) : Int × Option C × HandleStorage C × NameTable :=
  let (ret, ctx, s') := retire contextHandle handle s
  (ret, ctx, s', if ret = 1 then t.retire handle else t)

/-- A map from names to handles -/
abbrev Names : Type := List UInt8 → Option UInt32

/-- A name that is new is added, and a name that is there stays as it is. -/
def Names.add (m : Names) (name : List UInt8) (handle : UInt32) : Names :=
  if m name = none then Function.update m name (some handle) else m

/-- The names of one handle are removed. -/
def Names.remove (m : Names) (handle : UInt32) : Names :=
  fun name => (m name).filter fun g => g ≠ handle

/-- A run of calls since `skynet_handle_init(harbor)`, with the map that the table stands for:
contexts come and go, and handles of all kinds get names. -/
inductive NamesRun (harbor : UInt32) :
    Node C → List (UInt32 × C) → NameTable → Names → Prop
  | init (contextHandle : C → UInt32) (memory : Nat → Alias) :
      NamesRun harbor ⟨init harbor, contextHandle⟩ [] (.init memory) fun _ => none
  | register {n n' : Node C} {live : List (UInt32 × C)} {t : NameTable} {m : Names}
      {handle : UInt32} {ctx : C} (h : NamesRun harbor n live t m)
      (hs : Step n live n' ((handle, ctx) :: live)) :
      NamesRun harbor n' ((handle, ctx) :: live) t m
  | retire {n : Node C} {live : List (UInt32 × C)} {t t' : NameTable} {m : Names}
      {handle : UInt32} {c : C} {ret : Int} {ctx : Option C} {s' : HandleStorage C}
      (h : NamesRun harbor n live t m) (hlive : (handle, c) ∈ live)
      (hr : retireHandle n.contextHandle handle n.storage t = (ret, ctx, s', t')) :
      NamesRun harbor ⟨s', n.contextHandle⟩ (live.filter fun e => e.1 ≠ handle) t'
        (m.remove handle)
  | namehandle {n : Node C} {live : List (UInt32 × C)} {t t' : NameTable} {m : Names}
      {memory : Nat → Alias} {handle : UInt32} {name : List UInt8} {r : Option (List UInt8)}
      (h : NamesRun harbor n live t m)
      (hr : t.namehandle memory handle name = some (r, t')) :
      NamesRun harbor n live t' (m.add name handle)

/-- What the calls do in terms of the map, with room for `2 ^ 30` names -/
structure Refines (n : Node C) (live : List (UInt32 × C)) (t : NameTable) (m : Names) :
    Prop where
  sorted : t.entries.Pairwise fun a b => strcmp a.name b.name = .lt
  mem_iff : ∀ name handle, ⟨name, handle⟩ ∈ t.entries ↔ m name = some handle
  findname : ∀ name, t.findname name = (m name).getD 0
  present : ∀ name, m name ≠ none → ∀ memory handle,
    t.namehandle memory handle name = some (none, t)
  absent : ∀ name, m name = none → t.count < 2 ^ 30 → ∀ memory handle, ∃ t',
    t.namehandle memory handle name = some (some name, t') ∧
    ∀ e, e ∈ t'.entries ↔ e = ⟨name, handle⟩ ∨ e ∈ t.entries
  retire : ∀ handle c, (handle, c) ∈ live → ∃ s',
    retireHandle n.contextHandle handle n.storage t = (1, some c, s', t.retire handle) ∧
    ∀ e, e ∈ (t.retire handle).entries ↔ e ∈ t.entries ∧ e.handle ≠ handle

variable {harbor : UInt32} {n : Node C} {live : List (UInt32 × C)} {t t' : NameTable}
  {m : Names} {name : List UInt8} {handle : UInt32}

/-- The table stands for the map. -/
def StandsFor (t : NameTable) (m : Names) : Prop :=
  ∀ name handle, ⟨name, handle⟩ ∈ t.entries ↔ m name = some handle

omit [DecidableEq C] in
theorem StandsFor.no_entry (h : StandsFor t m) (hno : m name = none) (g : UInt32) :
    ⟨name, g⟩ ∉ t.entries := by
  rw [h, hno]
  exact Option.some_ne_none g ∘ Eq.symm

omit [DecidableEq C] in
theorem StandsFor.retire (h : StandsFor t m) (handle : UInt32) :
    StandsFor (t.retire handle) (m.remove handle) := by
  intro name g
  rw [NameTable.Sorted.retire_entries, List.mem_filter, h, Names.remove, Option.filter_eq_some_iff]

omit [DecidableEq C] in
theorem StandsFor.add (h : StandsFor t m) (hno : m name = none)
    (ht : ∀ e, e ∈ t'.entries ↔ e = ⟨name, handle⟩ ∨ e ∈ t.entries) :
    StandsFor t' (m.add name handle) := by
  intro name' g
  rw [ht, h, Names.add, if_pos hno]
  by_cases hname : name' = name
  · subst hname
    rw [Function.update_self, hno]
    simp [eq_comm]
  · rw [Function.update_of_ne hname]
    simp [hname]

omit [DecidableEq C] in
theorem namehandle_present (hs : t.Sorted) (h : StandsFor t m) (hname : m name ≠ none)
    (memory : Nat → Alias) (handle : UInt32) :
    t.namehandle memory handle name = some (none, t) := by
  obtain ⟨g, hg⟩ := Option.ne_none_iff_exists'.mp hname
  exact hs.namehandle_of_mem memory handle ((h name g).mpr hg)

theorem retireHandle_run (hi : Inv harbor n live) {c : C} (hlive : (handle, c) ∈ live)
    (t : NameTable) : ∃ s',
      retireHandle n.contextHandle handle n.storage t = (1, some c, s', t.retire handle) ∧
      Inv harbor ⟨s', n.contextHandle⟩ (live.filter fun e => e.1 ≠ handle) := by
  obtain ⟨s', hr, hi'⟩ := hi.retire_live hlive
  refine ⟨s', ?_, hi'⟩
  rw [retireHandle, hr]
  rfl

theorem namesRun_inv (h : NamesRun harbor n live t m) :
    Inv harbor n live ∧ t.Sorted ∧ StandsFor t m := by
  induction h with
  | init contextHandle memory =>
      refine ⟨run_inv (.init contextHandle), NameTable.init_sorted memory, ?_⟩
      intro name handle
      exact iff_of_false List.not_mem_nil (Option.some_ne_none handle ∘ Eq.symm)
  | register _ hs ih => exact ⟨ih.1.step hs, ih.2⟩
  | @retire n live t t' m handle c ret ctx s' _ hlive hr ih =>
      obtain ⟨hi, hsorted, hm⟩ := ih
      obtain ⟨s'', hr', hi'⟩ := retireHandle_run hi hlive t
      rw [hr'] at hr
      cases hr
      exact ⟨hi', hsorted.retire handle, hm.retire handle⟩
  | @namehandle n live t t' m memory handle name r _ hr ih =>
      obtain ⟨hi, hsorted, hm⟩ := ih
      by_cases hname : m name = none
      · cases hsorted.namehandle_run memory handle (hm.no_entry hname) with
        | inl hfull =>
            rw [hfull.2] at hr
            cases hr
        | inr hadded =>
            obtain ⟨t'', hr', hsorted', -, hentries⟩ := hadded
            rw [hr'] at hr
            cases hr
            exact ⟨hi, hsorted', hm.add hname hentries⟩
      · rw [namehandle_present hsorted hm hname] at hr
        cases hr
        rw [Names.add, if_neg hname]
        exact ⟨hi, hsorted, hm⟩

/-- The table refines a finite map in every run. -/
theorem names_refine (h : NamesRun harbor n live t m) : Refines n live t m := by
  obtain ⟨hi, hsorted, hm⟩ := namesRun_inv h
  constructor
  · exact hsorted.sorted
  · exact hm
  · intro name
    cases hname : m name with
    | none => exact hsorted.findname_of_not_mem (hm.no_entry hname)
    | some handle => exact hsorted.findname_of_mem ((hm name handle).mpr hname)
  · intro name hname memory handle
    exact namehandle_present hsorted hm hname memory handle
  · intro name hname hroom memory handle
    cases hsorted.namehandle_run memory handle (hm.no_entry hname) with
    | inl hfull =>
        rw [hfull.1] at hroom
        exact absurd hroom (by decide)
    | inr hadded =>
        obtain ⟨t', hr, -, -, hentries⟩ := hadded
        exact ⟨t', hr, hentries⟩
  · intro handle c hlive
    obtain ⟨s', hr, -⟩ := retireHandle_run hi hlive t
    refine ⟨s', hr, ?_⟩
    intro e
    rw [NameTable.Sorted.retire_entries, List.mem_filter, decide_eq_true_eq]

/-- A first name of the handle 5 -/
theorem names_refine_first : ∃ t : NameTable, Refines (C := Unit) ⟨init 0, fun _ => 0⟩ [] t
    (Names.add (fun _ => none) [97] 5) ∧ t.findname [97] = 5 ∧ t.findname [98] = 0 := by
  have h : NamesRun (C := Unit) 0 ⟨init 0, fun _ => 0⟩ [] (.init fun _ => ⟨[], 0⟩) fun _ => none :=
    .init (fun _ => 0) fun _ => ⟨[], 0⟩
  obtain ⟨-, hsorted, hm⟩ := namesRun_inv h
  have hno : ∀ g, ⟨[97], g⟩ ∉ (NameTable.init fun _ => ⟨[], 0⟩).entries := hm.no_entry rfl
  cases hsorted.namehandle_run (fun _ => ⟨[], 0⟩) 5 hno with
  | inl hfull => exact absurd hfull.1 (by decide)
  | inr hadded =>
      obtain ⟨t', hr, -⟩ := hadded
      have hrefines := names_refine (.namehandle h hr)
      exact ⟨t', hrefines, hrefines.findname [97], hrefines.findname [98]⟩

/-- As many names as there are numbers below `2 ^ 30`: five digits without NUL -/
def nameOf (k : Nat) : List UInt8 :=
  [k / 16777216, k / 262144, k / 4096, k / 64, k].map fun digits => UInt8.ofNat (digits % 64 + 1)

theorem digit_inj {i j : Nat} (h : UInt8.ofNat (i % 64 + 1) = UInt8.ofNat (j % 64 + 1)) :
    i % 64 = j % 64 := by
  have hnat := congrArg UInt8.toNat h
  rw [UInt8.toNat_ofNat', UInt8.toNat_ofNat'] at hnat
  omega

theorem nameOf_inj {i j : Nat} (hi : i < 1073741824) (hj : j < 1073741824)
    (h : nameOf i = nameOf j) : i = j := by
  simp only [nameOf, List.map_cons, List.map_nil, List.cons.injEq, and_true] at h
  obtain ⟨h₁, h₂, h₃, h₄, h₅⟩ := h
  have hd₁ := digit_inj h₁
  have hd₂ := digit_inj h₂
  have hd₃ := digit_inj h₃
  have hd₄ := digit_inj h₄
  have hd₅ := digit_inj h₅
  omega

/-- A table with `k` names -/
theorem exists_filled (k : Nat) (hk : k ≤ 1073741824) : ∃ (t : NameTable) (m : Names),
    NamesRun (C := Unit) 0 ⟨init 0, fun _ => 0⟩ [] t m ∧ t.count = k ∧
      ∀ name, m name ≠ none → ∃ j < k, name = nameOf j := by
  induction k with
  | zero => exact ⟨_, _, .init (fun _ => 0) fun _ => ⟨[], 0⟩, rfl, fun name h => absurd rfl h⟩
  | succ k ih =>
      obtain ⟨t, m, h, hcount, hnames⟩ := ih (by omega)
      obtain ⟨-, hsorted, hm⟩ := namesRun_inv h
      have hnew : m (nameOf k) = none := by
        by_contra hold
        obtain ⟨j, hj, heq⟩ := hnames _ hold
        have hsame := nameOf_inj (by omega) (by omega) heq
        omega
      cases hsorted.namehandle_run (fun _ => ⟨[], 0⟩) 1 (hm.no_entry hnew) with
      | inl hfull =>
          have hmax : MAX_SLOT_SIZE = 1073741824 := rfl
          omega
      | inr hadded =>
          obtain ⟨t', hr, -, hcount', -⟩ := hadded
          refine ⟨t', _, .namehandle h hr, by omega, ?_⟩
          intro name hname
          rw [Names.add, if_pos hnew] at hname
          by_cases heq : name = nameOf k
          · exact ⟨k, by omega, heq⟩
          · rw [Function.update_of_ne heq] at hname
            obtain ⟨j, hj, hj'⟩ := hnames name hname
            exact ⟨j, by omega, hj'⟩

/-- A table with `2 ^ 30` names does not take the empty name. -/
theorem names_full : ∃ (t : NameTable) (m : Names),
    NamesRun (C := Unit) 0 ⟨init 0, fun _ => 0⟩ [] t m ∧ m [] = none ∧
      ∀ memory handle, t.namehandle memory handle [] = none := by
  obtain ⟨t, m, h, hcount, hnames⟩ := exists_filled 1073741824 (Nat.le_refl _)
  obtain ⟨-, hsorted, hm⟩ := namesRun_inv h
  have hnew : m [] = none := by
    by_contra hold
    obtain ⟨j, -, heq⟩ := hnames _ hold
    cases heq
  refine ⟨t, m, h, hnew, ?_⟩
  intro memory handle
  cases hsorted.namehandle_run memory handle (hm.no_entry hnew) with
  | inl hfull => exact hfull.2
  | inr hadded =>
      -- the capacity is at most `2 ^ 30`, so one more name does not fit
      obtain ⟨t', -, hsorted', hcount', -⟩ := hadded
      obtain ⟨k, hk, hcap⟩ := hsorted'.doubled
      have hroom := hsorted'.room
      have hle : 2 ^ k ≤ 2 ^ 30 := Nat.pow_le_pow_right (by decide) hk
      omega

end Directory

end Jump.Skynet.Handle
