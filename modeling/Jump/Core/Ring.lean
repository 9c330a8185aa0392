import Mathlib.Data.List.Nodup

/-! # Chains and rings

`Chain next stop p xs` says that following `next` from `p` passes the cells `xs` in order and
ends at `stop`. Free lists and hash buckets are chains of this kind over different `next` arrays.

A ring is linked by two arrays, `next` and `prev`, through a sentinel cell. Taking
a cell out and putting a cell in front are the two edits; what a loop sees when it
follows `next` from the sentinel is a chain that stops at the sentinel.
-/

namespace Jump.Core

/-! ## Singly linked chains -/

def Chain {α : Type} (next : α → α) (stop : α) : α → List α → Prop
  | p, [] => p = stop
  | p, x :: xs => p = x ∧ Chain next stop (next x) xs

namespace Chain

variable {α : Type} {next next' : α → α} {stop p : α} {xs ys : List α}

@[simp] theorem nil_iff : Chain next stop p [] ↔ p = stop := Iff.rfl

@[simp] theorem cons_iff {x : α} :
    Chain next stop p (x :: xs) ↔ p = x ∧ Chain next stop (next x) xs := Iff.rfl

/-- Only the links of its own cells matter to a chain. -/
theorem congr (h : Chain next stop p xs) (same : ∀ x ∈ xs, next' x = next x) :
    Chain next' stop p xs := by
  induction xs generalizing p with
  | nil => exact h
  | cons x xs ih =>
      refine ⟨h.1, ?_⟩
      rw [same x List.mem_cons_self]
      exact ih h.2 fun y hy => same y (List.mem_cons_of_mem x hy)

/-- A chain ends where its start is the stop mark. -/
theorem eq_nil (h : Chain next stop p xs) (hs : stop ∉ xs) (hp : p = stop) : xs = [] := by
  cases xs with
  | nil => rfl
  | cons x xs => exact absurd (by simp [← hp, h.1]) hs

theorem exists_cons (h : Chain next stop p xs) (hp : p ≠ stop) :
    ∃ ys, xs = p :: ys ∧ Chain next stop (next p) ys := by
  cases xs with
  | nil => exact absurd h hp
  | cons x xs =>
      obtain ⟨rfl, ht⟩ := h
      exact ⟨xs, rfl, ht⟩

/-- The cells of a chain are determined by its links. -/
theorem unique (h : Chain next stop p xs) (h' : Chain next stop p ys) (hs : stop ∉ xs)
    (hs' : stop ∉ ys) : xs = ys := by
  induction xs generalizing p ys with
  | nil => exact (eq_nil h' hs' h).symm
  | cons x xs ih =>
      obtain ⟨rfl, ht⟩ := h
      simp only [List.mem_cons, not_or] at hs
      obtain ⟨zs, rfl, hz⟩ := h'.exists_cons (Ne.symm hs.1)
      simp only [List.mem_cons, not_or] at hs'
      rw [ih ht hz hs.2 hs'.2]

/-- A chain through `xs ++ ys` is a chain through `xs` that stops where the chain
through `ys` starts. -/
theorem append_iff : Chain next stop p (xs ++ ys) ↔
    ∃ q, Chain next q p xs ∧ Chain next stop q ys := by
  induction xs generalizing p with
  | nil => simp
  | cons x xs ih => simp [ih, and_assoc]

/-- A cell is taken out of a chain by leading the link before it past it. -/
theorem bypass {q r : α} (h : Chain next stop p (xs ++ q :: r :: ys))
    (distinct : (xs ++ q :: r :: ys).Nodup) (link : next' q = next r)
    (same : ∀ x, x ≠ q → next' x = next x) : Chain next' stop p (xs ++ q :: ys) := by
  obtain ⟨s, hx, rfl, -, hy⟩ := append_iff.mp h
  obtain ⟨-, hq, hdis⟩ := List.nodup_append.mp distinct
  rw [List.nodup_cons] at hq
  refine append_iff.mpr ⟨s, hx.congr fun x hm => same x fun he => ?_, rfl, ?_⟩
  · exact hdis x hm s List.mem_cons_self he
  · rw [link]
    refine hy.congr fun y hm => same y fun he => ?_
    exact hq.1 (he ▸ List.mem_cons_of_mem r hm)

/-- A cell leaves a chain when the link before it, which may be the start, leads past it. -/
theorem remove [DecidableEq α] {p' r : α} (h : Chain next stop p (xs ++ r :: ys))
    (distinct : (xs ++ r :: ys).Nodup) (start : p' = if xs = [] then next r else p)
    (links : ∀ i ∈ xs ++ ys, next' i = if xs.getLast? = some i then next r else next i) :
    Chain next' stop p' (xs ++ ys) := by
  induction xs generalizing p p' with
  | nil =>
      rw [start, if_pos rfl]
      exact h.2.congr fun i hi => links i hi
  | cons x xs ih =>
      obtain ⟨rfl, ht⟩ := h
      obtain ⟨hx, hd⟩ := List.nodup_cons.mp (List.cons_append ▸ distinct)
      rw [start, if_neg (List.cons_ne_nil p xs)]
      refine ⟨rfl, ih ht hd ?_ fun i hi => ?_⟩
      · rw [links p List.mem_cons_self]
        cases hl : xs.getLast? with
        | none => simp [List.getLast?_eq_none_iff.mp hl]
        | some z =>
            have hz : z ∈ xs := List.mem_of_getLast? hl
            have hne : z ≠ p := fun he => hx (he ▸ List.mem_append_left _ hz)
            have hxs : xs ≠ [] := List.ne_nil_of_mem hz
            simp [List.getLast?_cons, hl, hne, hxs]
      · have hip : i ≠ p := fun he => hx (by
          rw [← he]
          simp only [List.mem_append, List.mem_cons] at hi ⊢
          exact hi.imp_right Or.inr)
        rw [links i (List.mem_cons_of_mem p hi)]
        cases hl : xs.getLast? with
        | none => simp [List.getLast?_eq_none_iff.mp hl, Ne.symm hip]
        | some z => simp [List.getLast?_cons, hl]

end Chain

/-- The cells that following `next` from `p` passes before `stop`, at most `n` of them. -/
def follow {α : Type} [DecidableEq α] (next : α → α) (stop : α) : Nat → α → List α
  | 0, _ => []
  | n + 1, p => if p = stop then [] else p :: follow next stop n (next p)

theorem Chain.follow_eq {α : Type} [DecidableEq α] {next : α → α} {stop p : α} {xs : List α}
    {n : Nat} (h : Chain next stop p xs) (hs : stop ∉ xs) (hn : xs.length ≤ n) :
    follow next stop n p = xs := by
  induction xs generalizing p n with
  | nil =>
      cases n with
      | zero => rfl
      | succ n => exact if_pos h
  | cons x xs ih =>
      obtain ⟨rfl, ht⟩ := h
      cases n with
      | zero => simp at hn
      | succ n =>
          simp only [List.mem_cons, not_or] at hs
          rw [follow, if_neg (Ne.symm hs.1), ih ht hs.2 (by simpa using hn)]

/-! ## Circular doubly linked lists -/

section Rings

variable {α : Type}

/-- From `a` through `xs` to `b` each cell leads to the one behind it and back. -/
def Linked (next prev : α → α) : α → List α → α → Prop
  | a, [], b => next a = b ∧ prev b = a
  | a, x :: xs, b => next a = x ∧ prev x = a ∧ Linked next prev x xs b

/-- The cells `xs` around the sentinel `s`. -/
def Ring (next prev : α → α) (s : α) (xs : List α) : Prop := Linked next prev s xs s

/-- The last cell of a row that starts at `a`. -/
def lastFrom (a : α) (xs : List α) : α := xs.getLast?.getD a

@[simp] theorem lastFrom_nil (a : α) : lastFrom a [] = a := rfl

@[simp] theorem lastFrom_cons (a x : α) (xs : List α) : lastFrom a (x :: xs) = lastFrom x xs := by
  cases xs with
  | nil => rfl
  | cons y ys => simp [lastFrom, List.getLast?_cons]

theorem lastFrom_mem (a : α) (xs : List α) : lastFrom a xs ∈ a :: xs := by
  induction xs generalizing a with
  | nil => exact List.mem_cons_self
  | cons x xs ih =>
      rw [lastFrom_cons]
      exact List.mem_cons_of_mem a (ih x)

namespace Linked

variable {next prev next' prev' : α → α} {a b x : α} {xs ys : List α}

theorem append_iff : Linked next prev a (xs ++ x :: ys) b ↔
    Linked next prev a xs x ∧ Linked next prev x ys b := by
  induction xs generalizing a with
  | nil => exact and_assoc.symm
  | cons y xs ih => simp [Linked, ih, and_assoc]

/-- Only the links between its own cells matter to a row. -/
theorem congr (h : Linked next prev a xs b) (fwd : ∀ x ∈ a :: xs, next' x = next x)
    (back : ∀ x ∈ xs ++ [b], prev' x = prev x) : Linked next' prev' a xs b := by
  induction xs generalizing a with
  | nil =>
      refine ⟨?_, ?_⟩
      · rw [fwd a List.mem_cons_self]
        exact h.1
      · rw [back b (by simp)]
        exact h.2
  | cons x xs ih =>
      obtain ⟨h1, h2, h3⟩ := h
      refine ⟨?_, ?_, ih h3 (fun y hy => fwd y (List.mem_cons_of_mem a hy))
        fun y hy => back y (List.mem_cons_of_mem x hy)⟩
      · rw [fwd a List.mem_cons_self]
        exact h1
      · rw [back x List.mem_cons_self]
        exact h2

theorem next_first (h : Linked next prev a xs b) : next a = xs.head?.getD b := by
  cases xs with
  | nil => exact h.1
  | cons x xs => exact h.1

theorem prev_last (h : Linked next prev a xs b) : prev b = lastFrom a xs := by
  induction xs generalizing a with
  | nil => exact h.2
  | cons x xs ih => exact (ih h.2.2).trans (lastFrom_cons a x xs).symm

/-- The last cell of the row is led to another cell. -/
theorem retarget {b' : α} (h : Linked next prev a xs b) (distinct : (a :: xs).Nodup)
    (link : next' (lastFrom a xs) = b') (back : prev' b' = lastFrom a xs)
    (fwd : ∀ x ∈ a :: xs, x ≠ lastFrom a xs → next' x = next x)
    (same : ∀ x ∈ xs, prev' x = prev x) : Linked next' prev' a xs b' := by
  induction xs generalizing a with
  | nil => exact ⟨link, back⟩
  | cons x xs ih =>
      rw [lastFrom_cons] at link back fwd
      obtain ⟨h1, h2, h3⟩ := h
      have hne : a ≠ lastFrom x xs := fun he =>
        (List.nodup_cons.mp distinct).1 (he ▸ lastFrom_mem x xs)
      refine ⟨?_, ?_, ih h3 (List.nodup_cons.mp distinct).2 link back
        (fun y hy => fwd y (List.mem_cons_of_mem a hy)) fun y hy => same y (by simp [hy])⟩
      · rw [fwd a List.mem_cons_self hne]
        exact h1
      · rw [same x List.mem_cons_self]
        exact h2

/-- Following `next` passes the cells of the row. -/
theorem chain (h : Linked next prev a xs b) : Chain next b (next a) xs := by
  induction xs generalizing a with
  | nil => exact h.1
  | cons x xs ih => exact ⟨h.1, ih h.2.2⟩

end Linked

namespace Ring

variable {next prev next' prev' : α → α} {s x : α} {xs ys : List α}

theorem congr (h : Ring next prev s xs) (fwd : ∀ x ∈ s :: xs, next' x = next x)
    (back : ∀ x ∈ s :: xs, prev' x = prev x) : Ring next' prev' s xs :=
  Linked.congr h fwd fun y hy => back y (by
    simp only [List.mem_append, List.mem_singleton] at hy
    exact List.mem_cons.mpr hy.symm)

theorem next_eq (h : Ring next prev s (xs ++ x :: ys)) : next x = ys.head?.getD s :=
  (Linked.append_iff.mp h).2.next_first

theorem prev_eq (h : Ring next prev s (xs ++ x :: ys)) : prev x = lastFrom s xs :=
  (Linked.append_iff.mp h).1.prev_last

theorem prev_next (h : Ring next prev s xs) : prev (next s) = s := by
  rw [Linked.next_first h]
  cases xs with
  | nil => exact h.2
  | cons x xs => exact h.2.1

theorem next_mem (h : Ring next prev s xs) : next s ∈ s :: xs := by
  rw [Linked.next_first h]
  cases xs <;> simp

variable [DecidableEq α]

/-- A cell is taken out by leading its neighbours past it. -/
theorem remove (h : Ring next prev s (xs ++ x :: ys)) (distinct : (s :: (xs ++ x :: ys)).Nodup)
    (fwd : ∀ i, i ≠ x → next' i = if i = prev x then next x else next i)
    (back : ∀ i, i ≠ x → prev' i = if i = next x then prev x else prev i) :
    Ring next' prev' s (xs ++ ys) := by
  have hnext := h.next_eq
  have hprev := h.prev_eq
  obtain ⟨hleft, hright⟩ := Linked.append_iff.mp h
  have hd : (s :: xs ++ x :: ys).Nodup := distinct
  obtain ⟨hdl, hdr, hdis⟩ := List.nodup_append.mp hd
  obtain ⟨hxy, hdy⟩ := List.nodup_cons.mp hdr
  have hlx : ∀ i ∈ s :: xs, i ≠ x := fun i hi => hdis i hi x List.mem_cons_self
  have hly : ∀ i ∈ s :: xs, i ∉ ys := fun i hi hy =>
    hdis i hi i (List.mem_cons_of_mem x hy) rfl
  have hlast : lastFrom s xs ≠ x := hlx _ (lastFrom_mem s xs)
  -- the row up to the gap, whatever follows it
  have hrow : ∀ b', b' = next x → b' ≠ x → (∀ i ∈ xs, i ≠ next x) →
      Linked next' prev' s xs b' := by
    rintro b' rfl hbx hxs
    refine hleft.retarget hdl ?_ ?_ (fun i hi hne => ?_) fun i hi => ?_
    · rw [fwd _ hlast, if_pos hprev.symm]
    · rw [back _ hbx, if_pos rfl, hprev]
    · rw [fwd i (hlx i hi), if_neg (hprev ▸ hne)]
    · rw [back i (hlx i (List.mem_cons_of_mem s hi)), if_neg (hxs i hi)]
  cases ys with
  | nil =>
      have hns : next x = s := hnext
      rw [List.append_nil]
      refine hrow s hns.symm (hlx s List.mem_cons_self) fun i hi => ?_
      rw [hns]
      exact fun he => (List.nodup_cons.mp hdl).1 (he ▸ hi)
  | cons y ys =>
      have hny : next x = y := hnext
      have hyx : y ≠ x := fun he => hxy (he ▸ List.mem_cons_self)
      refine Linked.append_iff.mpr ⟨hrow y hny.symm hyx fun i hi he => ?_, ?_⟩
      · exact hly i (List.mem_cons_of_mem s hi) (by simp [he, hny])
      · refine hright.2.2.congr (fun i hi => ?_) fun i hi => ?_
        · have hix : i ≠ x := fun he => hxy (he ▸ hi)
          have hip : i ≠ prev x := by
            rw [hprev]
            exact fun he => hly _ (lastFrom_mem s xs) (he ▸ hi)
          rw [fwd i hix, if_neg hip]
        · rcases List.mem_append.mp hi with hi | hi
          · have hix : i ≠ x := fun he => hxy (he ▸ List.mem_cons_of_mem y hi)
            have hiy : i ≠ y := fun he => (List.nodup_cons.mp hdy).1 (he ▸ hi)
            rw [back i hix, hny, if_neg hiy]
          · obtain rfl := List.mem_singleton.mp hi
            have hiy : i ≠ y := fun he => hly i List.mem_cons_self (he ▸ List.mem_cons_self)
            rw [back i (hlx i List.mem_cons_self), hny, if_neg hiy]

/-- A new cell is put in front. -/
theorem push (h : Ring next prev s xs) (distinct : (s :: xs).Nodup) (fresh : x ∉ s :: xs)
    (fwd : ∀ i, next' i = if i = s then x else if i = x then next s else next i)
    (back : ∀ i, prev' i = if i = next s then x else if i = x then s else prev i) :
    Ring next' prev' s (x :: xs) := by
  have hxs : x ≠ s := fun he => fresh (he ▸ List.mem_cons_self)
  have hnext : next s = xs.head?.getD s := Linked.next_first h
  have hxn : x ≠ next s := by
    rw [hnext]
    cases xs with
    | nil => exact hxs
    | cons y ys => exact fun he => fresh (by simp [he])
  refine ⟨by rw [fwd, if_pos rfl], by rw [back, if_neg hxn, if_pos rfl], ?_⟩
  cases xs with
  | nil =>
      have hns : next s = s := hnext
      refine ⟨by rw [fwd, if_neg hxs, if_pos rfl, hns], by rw [back, hns, if_pos rfl]⟩
  | cons y ys =>
      have hny : next s = y := hnext
      refine ⟨by rw [fwd, if_neg hxs, if_pos rfl, hny], by rw [back, hny, if_pos rfl], ?_⟩
      refine Linked.congr h.2.2 (fun i hi => ?_) fun i hi => ?_
      · have his : i ≠ s := fun he => (List.nodup_cons.mp distinct).1 (he ▸ hi)
        have hix : i ≠ x := fun he => fresh (he ▸ List.mem_cons_of_mem s hi)
        rw [fwd, if_neg his, if_neg hix]
      · have hmem : i ∈ s :: y :: ys := by
          rcases List.mem_append.mp hi with hi | hi
          · simp [hi]
          · rw [List.mem_singleton.mp hi]
            exact List.mem_cons_self
        have hix : i ≠ x := fun he => fresh (he ▸ hmem)
        have hiy : i ≠ y := by
          rintro rfl
          rcases List.mem_append.mp hi with hi | hi
          · exact (List.nodup_cons.mp (List.nodup_cons.mp distinct).2).1 hi
          · have he := List.mem_singleton.mp hi
            exact (List.nodup_cons.mp distinct).1 (he ▸ List.mem_cons_self)
        rw [back, hny, if_neg hiy, if_neg hix]

end Ring

/-- Two rings without a common cell. -/
structure Rings (next prev : α → α) (s t : α) (xs ys : List α) : Prop where
  left : Ring next prev s xs
  right : Ring next prev t ys
  distinct : (s :: xs ++ t :: ys).Nodup

namespace Rings

variable {next prev next' prev' : α → α} {s t x : α} {xs ys zs : List α}

theorem symm (h : Rings next prev s t xs ys) : Rings next prev t s ys xs :=
  ⟨h.right, h.left, (List.perm_append_comm.nodup_iff).mp h.distinct⟩

theorem distinct_left (h : Rings next prev s t xs ys) : (s :: xs).Nodup :=
  (List.nodup_append.mp h.distinct).1

theorem apart (h : Rings next prev s t xs ys) {i : α} (hl : i ∈ s :: xs) : i ∉ t :: ys :=
  fun hr => (List.nodup_append.mp h.distinct).2.2 i hl i hr rfl

variable [DecidableEq α]

/-- A cell is taken out of the left ring. -/
theorem remove (h : Rings next prev s t (xs ++ x :: zs) ys)
    (fwd : ∀ i, i ≠ x → next' i = if i = prev x then next x else next i)
    (back : ∀ i, i ≠ x → prev' i = if i = next x then prev x else prev i) :
    Rings next' prev' s t (xs ++ zs) ys ∧ x ∉ s :: (xs ++ zs) ++ t :: ys := by
  have hsub : (s :: (xs ++ zs)).Sublist (s :: (xs ++ x :: zs)) :=
    (List.Sublist.append_left (List.sublist_cons_self x zs) xs).cons_cons s
  have hperm : (s :: (xs ++ x :: zs) ++ t :: ys).Perm (x :: (s :: (xs ++ zs) ++ t :: ys)) :=
    ((List.perm_middle.cons s).trans (List.Perm.swap x s _)).append_right (t :: ys)
  have hx := (List.nodup_cons.mp (hperm.nodup_iff.mp h.distinct)).1
  have hnext : next x ∈ s :: (xs ++ x :: zs) := by
    rw [h.left.next_eq]
    cases zs <;> simp
  have hprev : prev x ∈ s :: (xs ++ x :: zs) := by
    rw [h.left.prev_eq]
    have hm := lastFrom_mem s xs
    simp only [List.mem_cons, List.mem_append] at hm ⊢
    exact hm.imp_right Or.inl
  refine ⟨⟨h.left.remove h.distinct_left fwd back, ?_, ?_⟩, hx⟩
  · refine h.right.congr (fun i hi => ?_) fun i hi => ?_
    · have hne : i ≠ x := fun he => hx (he ▸ List.mem_append_right _ hi)
      have hp : i ≠ prev x := fun he => h.apart hprev (he ▸ hi)
      rw [fwd i hne, if_neg hp]
    · have hne : i ≠ x := fun he => hx (he ▸ List.mem_append_right _ hi)
      have hn : i ≠ next x := fun he => h.apart hnext (he ▸ hi)
      rw [back i hne, if_neg hn]
  · exact h.distinct.sublist (hsub.append_right (t :: ys))

/-- A cell of neither ring is put in front of the left one. -/
theorem push (h : Rings next prev s t xs ys) (fresh : x ∉ s :: xs ++ t :: ys)
    (fwd : ∀ i, next' i = if i = s then x else if i = x then next s else next i)
    (back : ∀ i, prev' i = if i = next s then x else if i = x then s else prev i) :
    Rings next' prev' s t (x :: xs) ys := by
  have hxl : x ∉ s :: xs := fun hm => fresh (List.mem_append_left _ hm)
  have hnext : next s ∈ s :: xs := h.left.next_mem
  refine ⟨h.left.push h.distinct_left hxl fwd back, ?_, ?_⟩
  · refine h.right.congr (fun i hi => ?_) fun i hi => ?_
    · have hs : i ≠ s := fun he => h.apart List.mem_cons_self (he ▸ hi)
      have hx : i ≠ x := fun he => fresh (he ▸ List.mem_append_right _ hi)
      rw [fwd, if_neg hs, if_neg hx]
    · have hn : i ≠ next s := fun he => h.apart hnext (he ▸ hi)
      have hx : i ≠ x := fun he => fresh (he ▸ List.mem_append_right _ hi)
      rw [back, if_neg hn, if_neg hx]
  · have hperm : (s :: x :: xs ++ t :: ys).Perm (x :: (s :: xs ++ t :: ys)) :=
      List.Perm.swap x s _
    exact hperm.nodup_iff.mpr (List.nodup_cons.mpr ⟨fresh, h.distinct⟩)

theorem remove_right (h : Rings next prev s t ys (xs ++ x :: zs))
    (fwd : ∀ i, i ≠ x → next' i = if i = prev x then next x else next i)
    (back : ∀ i, i ≠ x → prev' i = if i = next x then prev x else prev i) :
    Rings next' prev' s t ys (xs ++ zs) ∧ x ∉ s :: ys ++ t :: (xs ++ zs) := by
  obtain ⟨hr, hx⟩ := h.symm.remove fwd back
  exact ⟨hr.symm, fun hm => hx (List.perm_append_comm.mem_iff.mp hm)⟩

theorem push_right (h : Rings next prev s t ys xs) (fresh : x ∉ s :: ys ++ t :: xs)
    (fwd : ∀ i, next' i = if i = t then x else if i = x then next t else next i)
    (back : ∀ i, prev' i = if i = next t then x else if i = x then t else prev i) :
    Rings next' prev' s t ys (x :: xs) :=
  (h.symm.push (fun hm => fresh (List.perm_append_comm.mem_iff.mp hm)) fwd back).symm

end Rings

end Rings

end Jump.Core
