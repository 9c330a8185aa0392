import Mathlib.Data.List.Basic

/-! # Elements that stand together

`Block p xs` says that the elements of `xs` with `p` form one contiguous block. A
loop may then stop at the first element behind the block.
-/

namespace Jump.Core

variable {α : Type} {p q : α → Bool} {a b x : α} {xs ys : List α}

/-- First elements with `p`, then elements without. -/
def Leading (p : α → Bool) (xs : List α) : Prop :=
  ∃ bs cs, xs = bs ++ cs ∧ (∀ b ∈ bs, p b = true) ∧ ∀ c ∈ cs, ¬ p c = true

/-- Elements without `p`, then elements with `p`, then elements without. -/
def Block (p : α → Bool) (xs : List α) : Prop :=
  ∃ as rest, xs = as ++ rest ∧ (∀ a ∈ as, ¬ p a = true) ∧ Leading p rest

theorem leading_of_none (h : ∀ c ∈ xs, ¬ p c = true) : Leading p xs :=
  ⟨[], xs, rfl, by simp, h⟩

theorem Leading.cons (h : Leading p xs) (hx : p x = true) : Leading p (x :: xs) := by
  obtain ⟨bs, cs, rfl, hb, hc⟩ := h
  exact ⟨x :: bs, cs, rfl, fun b hm => (List.mem_cons.mp hm).elim (fun he => he ▸ hx) (hb b), hc⟩

/-- A row that leads with `p` starts with `p`, or has no element with `p`. -/
theorem leading_cons_iff : Leading p (x :: xs) ↔
    (p x = true ∧ Leading p xs) ∨ ∀ c ∈ x :: xs, ¬ p c = true := by
  constructor
  · rintro ⟨bs, cs, hxs, hb, hc⟩
    cases bs with
    | nil => exact Or.inr (hxs ▸ hc)
    | cons b bs =>
        obtain ⟨rfl, rfl⟩ := List.cons.inj hxs
        exact Or.inl ⟨hb x List.mem_cons_self, bs, cs, rfl,
          fun b hm => hb b (List.mem_cons_of_mem x hm), hc⟩
  · rintro (⟨hx, h⟩ | h)
    · exact h.cons hx
    · exact leading_of_none h

theorem Leading.block (h : Leading p xs) : Block p xs := ⟨[], xs, rfl, by simp, h⟩

theorem block_cons_iff : Block p (x :: xs) ↔
    (p x = true ∧ Leading p xs) ∨ (¬ p x = true ∧ Block p xs) := by
  constructor
  · rintro ⟨as, rest, hxs, ha, hrest⟩
    cases as with
    | nil =>
        rw [List.nil_append] at hxs
        rw [← hxs] at hrest
        rcases leading_cons_iff.mp hrest with h | h
        · exact Or.inl h
        · exact Or.inr ⟨h x List.mem_cons_self,
            (leading_of_none fun c hm => h c (List.mem_cons_of_mem x hm)).block⟩
    | cons a as =>
        obtain ⟨rfl, rfl⟩ := List.cons.inj hxs
        exact Or.inr ⟨ha x List.mem_cons_self, as, rest, rfl,
          fun a hm => ha a (List.mem_cons_of_mem x hm), hrest⟩
  · rintro (⟨hx, h⟩ | ⟨hx, as, rest, rfl, ha, hrest⟩)
    · exact (h.cons hx).block
    · exact ⟨x :: as, rest, rfl, fun a hm => (List.mem_cons.mp hm).elim (fun he => he ▸ hx) (ha a),
        hrest⟩

/-- The block starts with its first element. -/
theorem Block.leading (h : Block p (xs ++ b :: ys)) (hxs : ∀ c ∈ xs, ¬ p c = true)
    (hb : p b = true) : Leading p (b :: ys) := by
  induction xs with
  | nil =>
      rcases block_cons_iff.mp h with h | h
      · exact h.2.cons h.1
      · exact absurd hb h.1
  | cons x xs ih =>
      rcases block_cons_iff.mp h with h | h
      · exact absurd h.1 (hxs x List.mem_cons_self)
      · exact ih h.2 fun c hc => hxs c (List.mem_cons_of_mem x hc)

theorem Leading.sublist (h : Leading p xs) (hs : ys.Sublist xs) : Leading p ys := by
  obtain ⟨bs, cs, rfl, hb, hc⟩ := h
  obtain ⟨bs', cs', rfl, h1, h2⟩ := List.sublist_append_iff.mp hs
  exact ⟨bs', cs', rfl, fun b hm => hb b (h1.subset hm), fun c hm => hc c (h2.subset hm)⟩

/-- Taking elements out does not tear a block apart. -/
theorem Block.sublist (h : Block p xs) (hs : ys.Sublist xs) : Block p ys := by
  obtain ⟨as, rest, rfl, ha, hrest⟩ := h
  obtain ⟨as', rest', rfl, h1, h2⟩ := List.sublist_append_iff.mp hs
  exact ⟨as', rest', rfl, fun a hm => ha a (h1.subset hm), hrest.sublist h2⟩

theorem Leading.insert_after (h : Leading p (xs ++ b :: ys)) (hx : p x = p b) :
    Leading p (xs ++ b :: x :: ys) := by
  induction xs with
  | nil =>
      rcases leading_cons_iff.mp h with ⟨hb, hys⟩ | hnone
      · exact (hys.cons (hx.trans hb)).cons hb
      · refine leading_of_none fun c hm => ?_
        have hb := hnone b List.mem_cons_self
        rcases List.mem_cons.mp hm with rfl | hm
        · exact hb
        · rcases List.mem_cons.mp hm with rfl | hm
          · rwa [hx]
          · exact hnone c (List.mem_cons_of_mem b hm)
  | cons a xs ih =>
      rcases leading_cons_iff.mp h with ⟨ha, hrest⟩ | hnone
      · exact (ih hrest).cons ha
      · refine leading_of_none fun c hm => ?_
        have hall : ∀ d, (d = a ∨ d ∈ xs ∨ d = b ∨ d ∈ ys) → ¬ p d = true := by
          simpa using hnone
        simp only [List.cons_append, List.mem_append, List.mem_cons] at hm
        rcases hm with rfl | hm | rfl | rfl | hm
        · exact hall c (Or.inl rfl)
        · exact hall c (Or.inr (Or.inl hm))
        · exact hall c (Or.inr (Or.inr (Or.inl rfl)))
        · rw [hx]
          exact hall b (Or.inr (Or.inr (Or.inl rfl)))
        · exact hall c (Or.inr (Or.inr (Or.inr hm)))

/-- A new element goes right behind one that agrees with it. -/
theorem Block.insert_after (h : Block p (xs ++ b :: ys)) (hx : p x = p b) :
    Block p (xs ++ b :: x :: ys) := by
  induction xs with
  | nil =>
      rcases block_cons_iff.mp h with ⟨hb, hys⟩ | ⟨hb, hys⟩
      · exact ((hys.cons (hx.trans hb)).cons hb).block
      · exact block_cons_iff.mpr (Or.inr ⟨hb, block_cons_iff.mpr (Or.inr ⟨hx ▸ hb, hys⟩)⟩)
  | cons a xs ih =>
      rcases block_cons_iff.mp h with ⟨ha, hrest⟩ | ⟨ha, hrest⟩
      · exact ((hrest.insert_after hx).cons ha).block
      · exact block_cons_iff.mpr (Or.inr ⟨ha, ih hrest⟩)

theorem Leading.congr (h : Leading p xs) (same : ∀ x ∈ xs, q x = p x) : Leading q xs := by
  obtain ⟨bs, cs, rfl, hb, hc⟩ := h
  refine ⟨bs, cs, rfl, fun b hm => ?_, fun c hm => ?_⟩
  · rw [same b (List.mem_append_left cs hm)]
    exact hb b hm
  · rw [same c (List.mem_append_right bs hm)]
    exact hc c hm

theorem Block.congr (h : Block p xs) (same : ∀ x ∈ xs, q x = p x) : Block q xs := by
  obtain ⟨as, rest, rfl, ha, hrest⟩ := h
  refine ⟨as, rest, rfl, fun a hm => ?_,
    hrest.congr fun x hm => same x (List.mem_append_right as hm)⟩
  rw [same a (List.mem_append_left rest hm)]
  exact ha a hm

end Jump.Core
