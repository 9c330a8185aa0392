import Jump.MemPool.LruHash.Runs
import Mathlib.Data.List.Range

/-! # Iteration

`begin` and `++` pass the chains one after the other. A position is a bucket with the
nodes of its chain before and behind the iterator; what was visited before it is the
chains below that bucket and the first part of its own.
-/

namespace Jump.MemPool.LruHash

open Jump.Core Prog

variable {V K : Type} {T : Params V K} {N numnode : Nat} {us fs : List Nat} {ch : Nat → List Nat}
  {m : Mem V} {b it n : Nat} {visited xs ys : List Nat}

/-- The nodes on the chains below `b`. -/
def below (ch : Nat → List Nat) (b : Nat) : List Nat := (List.range b).flatMap ch

theorem below_succ (ch : Nat → List Nat) (b : Nat) : below ch (b + 1) = below ch b ++ ch b := by
  rw [below, List.range_succ, List.flatMap_append, List.flatMap_singleton]
  rfl

theorem below_length_le (ch : Nat → List Nat) {b b' : Nat} (h : b ≤ b') :
    (below ch b).length ≤ (below ch b').length := by
  induction b', h using Nat.le_induction with
  | base => exact Nat.le_refl _
  | succ b' _ ih =>
      rw [below_succ, List.length_append]
      omega

theorem Inv.below_perm (h : Inv T N us fs ch m) : (below ch N).Perm us := by
  have hnodup : (below ch N).Nodup := by
    rw [below, List.nodup_flatMap]
    refine ⟨fun b hb => h.toBuckets.distinct b (List.mem_range.mp hb), ?_⟩
    refine List.nodup_range.imp_of_mem fun {b b'} hb hb' hne i hi hi' => hne ?_
    exact (h.disjoint (List.mem_range.mp hb') (List.mem_range.mp hb) hi' hi)
  refine (List.perm_ext_iff_of_nodup hnodup h.toLists.distinct).mpr fun i => ?_
  rw [below, List.mem_flatMap]
  constructor
  · rintro ⟨b, hb, hi⟩
    exact h.used (List.mem_range.mp hb) hi
  · intro hi
    have hb := h.bucket_lt (m.value i)
    exact ⟨_, List.mem_range.mpr hb, (h.members _ hb i).mpr ⟨hi, rfl⟩⟩

/-- The iterator stands at a node, or at the end. -/
def AtNode (N : Nat) (ch : Nat → List Nat) (visited : List Nat) (it : Nat) : Prop :=
  (it = INVALID_POINT ∧ visited = below ch N) ∨
    ∃ b xs ys, b < N ∧ ch b = xs ++ it :: ys ∧ visited = below ch b ++ xs

/-- The first node of the next chain that has one. -/
theorem AtNode.head (hb : b < N) (hn : headOr (ch b) ≠ INVALID_POINT) :
    AtNode N ch (below ch b) (headOr (ch b)) := by
  cases hrow : ch b with
  | nil =>
      rw [hrow] at hn
      exact absurd rfl hn
  | cons n ys => exact Or.inr ⟨b, [], ys, hb, hrow, (List.append_nil _).symm⟩

theorem chain_empty (h : Inv T N us fs ch m) (hb : b < N) (hn : headOr (ch b) = INVALID_POINT) :
    ch b = [] := by
  cases hrow : ch b with
  | nil => rfl
  | cons n ys =>
      rw [hrow, headOr_cons] at hn
      exact absurd hn (h.ne_invalid (h.used hb (by simp [hrow])))

theorem begin_ends (h : Inv T N us fs ch m) :
    Ends begin m fun it m' => m' = m ∧ AtNode N ch [] it := by
  simp only [begin, turns, ends_bind, ends_read, h.num]
  refine ends_loop (fun (c : Nat) (i : Nat) m' => m' = m ∧ below ch i = [] ∧ i ≤ N ∧ c = N - i) ?_
    ⟨rfl, rfl, Nat.zero_le N, rfl⟩ (by omega)
  rintro c i m' ⟨rfl, hnone, hi, rfl⟩
  simp only [capacity, ends_bind, ends_read, h.num]
  by_cases hlt : i < N
  · simp only [hlt, if_true, factor, ends_bind, ends_read, h.factor_eq hlt, ends_ite, ends_pure]
    by_cases hn : headOr (ch i) ≠ INVALID_POINT
    · rw [if_pos hn]
      have hat := AtNode.head hlt hn
      rw [hnone] at hat
      exact ⟨trivial, hat⟩
    · rw [if_neg hn]
      refine ⟨N - (i + 1), by omega, trivial, ?_, by omega, rfl⟩
      rw [below_succ, hnone, chain_empty h hlt (not_not.mp hn), List.append_nil]
  · obtain rfl : i = N := by omega
    simp only [Nat.lt_irrefl, if_false, ends_pure, Sum.elim_inr]
    exact ⟨trivial, Or.inl ⟨rfl, hnone.symm⟩⟩

theorem increment_ends (h : Inv T N us fs ch m) (hb : b < N) (hch : ch b = xs ++ n :: ys) :
    Ends (increment T n) m fun it m' => m' = m ∧ AtNode N ch (below ch b ++ xs ++ [n]) it := by
  have hbucket : T.hashFun (T.extractKey (m.value n)) % N = b :=
    ((h.members b hb n).mp (by simp [hch])).2
  simp only [increment, index, ends_bind, ends_read, h.index_eq hb hch]
  cases ys with
  | cons y ys =>
      have hy : y ≠ INVALID_POINT := h.ne_invalid (h.used hb (by simp [hch]))
      simp only [headOr_cons, hy, if_false, ends_pure]
      exact ⟨trivial, Or.inr ⟨b, xs ++ [n], ys, hb, by simp [hch], by simp⟩⟩
  | nil =>
      simp only [headOr_nil, if_true, turns, value, bktNumValue, bktNumKey, capacity, ends_bind,
        ends_read, ends_pure, h.num, hbucket]
      have hdone : below ch b ++ xs ++ [n] = below ch (b + 1) := by
        rw [below_succ, hch, List.append_assoc]
      rw [hdone]
      refine ends_loop (fun (c : Nat) (w : Nat × Nat) m' => m' = m ∧ w.1 < N ∧ c = N - w.1 ∧
        ((w.2 = INVALID_POINT ∧ below ch (b + 1) = below ch (w.1 + 1)) ∨
          w.2 ≠ INVALID_POINT ∧ AtNode N ch (below ch (b + 1)) w.2)) ?_
        ⟨rfl, hb, rfl, Or.inl ⟨rfl, rfl⟩⟩ (by omega)
      rintro c ⟨bucket, serial⟩ m' ⟨rfl, hlt, rfl, hat⟩
      dsimp only at hlt hat
      simp only [ends_bind, ends_read, h.num]
      rcases hat with ⟨rfl, hsame⟩ | ⟨hne, hat⟩
      · by_cases hmore : bucket + 1 < N
        · simp only [hmore, and_self, if_true, factor, ends_bind, ends_read, ends_pure,
            Sum.elim_inl, h.factor_eq hmore]
          refine ⟨N - (bucket + 1), by omega, trivial, trivial, rfl, ?_⟩
          by_cases hn : headOr (ch (bucket + 1)) = INVALID_POINT
          · refine Or.inl ⟨hn, ?_⟩
            rw [below_succ ch (bucket + 1), chain_empty h hmore hn, List.append_nil, hsame]
          · refine Or.inr ⟨hn, ?_⟩
            rw [hsame]
            exact AtNode.head hmore hn
        · have hend : bucket + 1 = N := by omega
          simp only [hmore, and_false, if_false, ends_pure, Sum.elim_inr]
          exact ⟨trivial, Or.inl ⟨rfl, by rw [hsame, hend]⟩⟩
      · simp only [hne, false_and, if_false, ends_pure, Sum.elim_inr]
        exact ⟨trivial, hat⟩

theorem allNodes_ends (h : Inv T N us fs ch m) : Ends (allNodes T) m fun visited m' =>
    m' = m ∧ visited = below ch N := by
  have hperm := h.below_perm
  have hsmall := h.small
  have hlen : (below ch N).length ≤ N := by
    rw [hperm.length_eq]
    omega
  simp only [allNodes, turns, ends_bind, ends_read, h.num]
  refine (begin_ends h).mono fun it m₁ hr => ?_
  obtain ⟨rfl, hat⟩ := hr
  refine ends_loop (fun (c : Nat) (w : List Nat × Nat) m' => m' = m₁ ∧ AtNode N ch w.1 w.2 ∧
    c = (below ch N).length - w.1.length) ?_ ⟨rfl, hat, rfl⟩ (by simp; omega)
  rintro c ⟨visited, it⟩ m' ⟨rfl, hat, rfl⟩
  dsimp only at hat
  rcases hat with ⟨rfl, hall⟩ | ⟨b, xs, ys, hb, hch, rfl⟩
  · simp only [endIt, ne_eq, not_true_eq_false, if_false, ends_pure, Sum.elim_inr]
    exact ⟨trivial, hall⟩
  · have hit : it ≠ INVALID_POINT := h.ne_invalid (h.used hb (by simp [hch]))
    have hmore : (below ch b ++ xs).length < (below ch N).length := by
      have hle := below_length_le ch (Nat.succ_le_of_lt hb)
      rw [below_succ, hch, List.length_append, List.length_append, List.length_cons] at hle
      rw [List.length_append]
      omega
    simp only [endIt, ne_eq, hit, not_false_eq_true, if_true, ends_bind]
    refine (increment_ends h hb hch).mono fun next m₂ hr => ?_
    obtain ⟨rfl, hat⟩ := hr
    refine ends_pure.mpr ⟨_, ?_, rfl, hat, rfl⟩
    simp only [List.length_append, List.length_singleton] at hmore ⊢
    omega

/-- On every reached table the iteration passes every element once and nothing else. -/
theorem iteration_exact {tr : List (Op V K × Res)} (h : Run T numnode tr m) :
    Ends (allNodes T) m fun visited m' => m' = m ∧ visited.Nodup ∧
      visited.Perm ((entries m).map Entry.node) ∧ ∀ i ∈ visited, i ∉ freeList m := by
  obtain ⟨us, fs, ch, hi⟩ := run_valid h
  have hperm := hi.below_perm
  refine (allNodes_ends hi).mono fun visited m' hr => ?_
  obtain ⟨rfl, rfl⟩ := hr
  refine ⟨rfl, hperm.nodup_iff.mpr hi.toLists.distinct, ?_, fun i hv hf => ?_⟩
  · rw [hi.entries_eq, List.map_map]
    exact (List.map_id' _).symm ▸ hperm
  · rw [hi.freeList_eq] at hf
    exact hi.not_mem_of_free hf (hperm.mem_iff.mp hv)

theorem iteration_exact_nat : ∃ r m, Run natParams 1 [(.insert 7 5, r)] m ∧
    Ends (allNodes natParams) m fun visited m' => m' = m ∧ visited.Nodup ∧
      visited.Perm ((entries m).map Entry.node) ∧ ∀ i ∈ visited, i ∉ freeList m := by
  obtain ⟨r, m, pos, hrun, -⟩ := run_nat 7 5
  exact ⟨r, m, hrun, iteration_exact hrun⟩

end Jump.MemPool.LruHash
