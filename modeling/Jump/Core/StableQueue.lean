import Mathlib.Data.List.Basic

/-! # A queue sorted by key

An element goes behind those with its key, so elements with one key stay in the order in
which they came.
-/

namespace Jump.Core.StableQueue

variable {α : Type*}

def insert (x : Nat × α) : List (Nat × α) → List (Nat × α)
  | [] => [x]
  | y :: queue => if x.1 < y.1 then x :: y :: queue else y :: insert x queue

/-- The queue after the elements of `added` have come, first one first. -/
def ofList (added : List (Nat × α)) : List (Nat × α) :=
  added.foldl (fun queue x => insert x queue) []

/-- Keys in order. -/
def Sorted (queue : List (Nat × α)) : Prop := queue.Pairwise fun x y => x.1 ≤ y.1

/-- What has key `k`. -/
def withKey (k : Nat) (l : List (Nat × α)) : List (Nat × α) := l.filter fun x => x.1 = k

/-- The elements with keys up to `n`, key after key. -/
def byKey (n : Nat) (added : List (Nat × α)) : List (Nat × α) :=
  (List.range (n + 1)).flatMap fun k => withKey k added

variable {x : Nat × α} {queue added l : List (Nat × α)} {k n : Nat}

theorem mem_withKey {y : Nat × α} : y ∈ withKey k l ↔ y ∈ l ∧ y.1 = k := by
  simp [withKey]

theorem mem_insert {y : Nat × α} : y ∈ insert x queue ↔ y = x ∨ y ∈ queue := by
  induction queue with
  | nil => simp [insert]
  | cons z queue ih =>
      unfold insert
      split
      · simp
      · simp only [List.mem_cons, ih]
        tauto

theorem sorted_insert (h : Sorted queue) : Sorted (insert x queue) := by
  induction queue with
  | nil => exact List.pairwise_singleton _ x
  | cons z queue ih =>
      obtain ⟨hz, hqueue⟩ := List.pairwise_cons.mp h
      unfold insert
      split
      · rename_i hlt
        refine List.pairwise_cons.mpr ⟨?_, h⟩
        intro y hy
        rcases List.mem_cons.mp hy with rfl | hy
        · omega
        · have hle := hz y hy
          omega
      · rename_i hge
        refine List.pairwise_cons.mpr ⟨?_, ih hqueue⟩
        intro y hy
        rcases mem_insert.mp hy with rfl | hy
        · omega
        · exact hz y hy

/-- The new element is the last one with its key. -/
theorem withKey_insert (h : Sorted queue) :
    withKey k (insert x queue) = withKey k queue ++ withKey k [x] := by
  induction queue with
  | nil => rfl
  | cons z queue ih =>
      obtain ⟨hz, hqueue⟩ := List.pairwise_cons.mp h
      unfold insert
      split
      · rename_i hlt
        by_cases hk : x.1 = k
        · have hnone : withKey k (z :: queue) = [] := by
            apply List.filter_eq_nil_iff.mpr
            intro y hy
            rcases List.mem_cons.mp hy with rfl | hy
            · simp
              omega
            · have hle := hz y hy
              simp
              omega
          have hcons : withKey k (x :: z :: queue) = x :: withKey k (z :: queue) := by
            simp [withKey, hk]
          rw [hcons, hnone]
          simp [withKey, hk]
        · simp [withKey, hk]
      · have hrest := ih hqueue
        unfold withKey at hrest ⊢
        rw [List.filter_cons, List.filter_cons, hrest]
        split <;> rfl

theorem sorted_foldl (h : Sorted queue) :
    Sorted (added.foldl (fun queue x => insert x queue) queue) := by
  induction added generalizing queue with
  | nil => exact h
  | cons x added ih => exact ih (sorted_insert h)

theorem withKey_foldl (h : Sorted queue) :
    withKey k (added.foldl (fun queue x => insert x queue) queue) =
      withKey k queue ++ withKey k added := by
  induction added generalizing queue with
  | nil => simp [withKey]
  | cons x added ih =>
      rw [List.foldl_cons, ih (sorted_insert h), withKey_insert h, List.append_assoc]
      simp only [withKey, ← List.filter_append, List.singleton_append]

theorem byKey_succ : byKey (n + 1) added = byKey n added ++ withKey (n + 1) added := by
  unfold byKey
  rw [List.range_succ, List.flatMap_append, List.flatMap_singleton]

/-- The first elements of a sorted queue up to a key are all its elements up to that key. -/
theorem takeWhile_eq_filter (h : Sorted queue) :
    queue.takeWhile (fun x => x.1 ≤ n) = queue.filter fun x => x.1 ≤ n := by
  induction queue with
  | nil => rfl
  | cons z queue ih =>
      obtain ⟨hz, hqueue⟩ := List.pairwise_cons.mp h
      rw [List.takeWhile_cons, List.filter_cons]
      split
      · rw [ih hqueue]
      · rename_i hlt
        have hnone : queue.filter (fun x => x.1 ≤ n) = [] := by
          apply List.filter_eq_nil_iff.mpr
          intro y hy
          have hle := hz y hy
          simp only [decide_eq_true_eq] at hlt ⊢
          omega
        rw [hnone]

theorem filter_succ (h : Sorted queue) : queue.filter (fun x => x.1 ≤ n + 1) =
    queue.filter (fun x => x.1 ≤ n) ++ withKey (n + 1) queue := by
  induction queue with
  | nil => rfl
  | cons z queue ih =>
      obtain ⟨hz, hqueue⟩ := List.pairwise_cons.mp h
      have hrest := ih hqueue
      unfold withKey at hrest ⊢
      rw [List.filter_cons, List.filter_cons, List.filter_cons, hrest]
      rcases Nat.lt_trichotomy z.1 (n + 1) with hlt | heq | hgt
      · simp [show z.1 ≤ n by omega, show z.1 ≤ n + 1 by omega, show z.1 ≠ n + 1 by omega]
      · have hnone : queue.filter (fun x => x.1 ≤ n) = [] := by
          apply List.filter_eq_nil_iff.mpr
          intro y hy
          have hle := hz y hy
          simp only [decide_eq_true_eq]
          omega
        simp [heq, hnone]
      · simp [show ¬ z.1 ≤ n by omega, show ¬ z.1 ≤ n + 1 by omega, show z.1 ≠ n + 1 by omega]

/-- A sorted queue up to a key is its elements key after key. -/
theorem takeWhile_eq_byKey (h : Sorted queue) :
    queue.takeWhile (fun x => x.1 ≤ n) = byKey n queue := by
  rw [takeWhile_eq_filter h]
  induction n with
  | zero =>
      show queue.filter (fun x => x.1 ≤ 0) = withKey 0 queue ++ []
      rw [List.append_nil]
      unfold withKey
      simp only [Nat.le_zero]
  | succ n ih => rw [filter_succ h, ih, byKey_succ]

theorem byKey_congr (h : ∀ k, withKey k l = withKey k queue) : byKey n l = byKey n queue := by
  unfold byKey
  simp only [h]

/-- What the queue has up to the key `n`. -/
theorem takeWhile_ofList :
    (ofList added).takeWhile (fun x => x.1 ≤ n) = byKey n added := by
  have hsorted : Sorted ([] : List (Nat × α)) := List.Pairwise.nil
  unfold ofList
  rw [takeWhile_eq_byKey (sorted_foldl hsorted)]
  apply byKey_congr
  intro k
  rw [withKey_foldl hsorted]
  rfl

/-- Nothing changes for elements with a later key. -/
theorem byKey_append (h : n < x.1) : byKey n (added ++ [x]) = byKey n added := by
  unfold byKey
  apply List.flatMap_congr
  intro k hk
  have hlt := List.mem_range.mp hk
  have hne : ¬ x.1 = k := by omega
  simp [withKey, hne]

end Jump.Core.StableQueue
