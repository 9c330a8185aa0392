import Jump.MemPool.LruHash.Runs

/-! # Equal keys

The elements with one key stand side by side on their chain. So counting, erasing and
visiting them may stop at the first other key, and `insert` adds a value exactly when
no element has its key and a node is free.
-/

namespace Jump.MemPool.LruHash

open Jump.Core Prog

variable {V K : Type} {T : Params V K} {N numnode : Nat} {us fs : List Nat} {ch : Nat → List Nat}
  {m : Mem V} {k : K} {v : V} {prio : Nat}

/-! ## Counting -/

theorem count_ends (h : Inv T N us fs ch m) :
    Ends (count T k) m fun r m' => m' = m ∧ r = (entries m).countP (hasKey T k) := by
  have hb : T.hashFun k % N < N := Nat.mod_lt _ h.pos
  have hlen := h.length_chain hb
  simp only [count, bktNumKey, turns, factor, capacity, ends_bind, ends_read, ends_pure, h.num,
    h.factor_eq hb]
  refine ends_loop (fun (c : Nat) (w : Nat × Nat) m' => m' = m ∧ ∃ xs ys,
    ch (T.hashFun k % N) = xs ++ ys ∧ w.1 = xs.countP (nodeHasKey T m k) ∧ w.2 = headOr ys ∧
      c = ys.length) ?_ ⟨rfl, [], ch (T.hashFun k % N), rfl, rfl, rfl, rfl⟩ (by omega)
  rintro c ⟨num, first⟩ m' ⟨rfl, xs, ys, hch, hnum, hfirst, rfl⟩
  dsimp only at hnum hfirst
  subst hnum hfirst
  cases ys with
  | nil =>
      simp only [headOr_nil, ne_eq, not_true_eq_false, if_false, ends_pure, Sum.elim_inr]
      refine ⟨trivial, ?_⟩
      rw [List.append_nil] at hch
      rw [h.entries_eq, List.countP_map, ← hch, List.countP_eq_length_filter,
        h.filter_chain.length_eq, ← List.countP_eq_length_filter]
      rfl
  | cons n ys =>
      have hn : n ≠ INVALID_POINT := h.ne_invalid (h.used hb (by simp [hch]))
      simp only [headOr_cons, ne_eq, hn, not_false_eq_true, if_true, ends_bind]
      refine (holdsKey_tests (T := T) (k := k) n).mono fun r m₁ hr => ?_
      obtain ⟨rfl, rfl⟩ := hr
      by_cases hk : nodeHasKey T m₁ k n = true
      · simp only [hk, if_true, index, ends_bind, ends_read, ends_pure, Sum.elim_inl,
          h.index_eq hb hch]
        exact ⟨ys.length, by simp, trivial, xs ++ [n], ys, by simp [hch], by simp [hk], rfl, rfl⟩
      · simp only [hk, Bool.false_eq_true, if_false, index, ends_bind, ends_read, ends_pure,
          Sum.elim_inl, h.index_eq hb hch]
        exact ⟨ys.length, by simp, trivial, xs ++ [n], ys, by simp [hch], by simp [hk], rfl, rfl⟩

/-! ## Visiting -/

/-- Where the visit stands: at a node with the key, or behind the last one. -/
def AtEqual (T : Params V K) (m : Mem V) (k : K) (it : Nat) (ys : List Nat) : Prop :=
  (it = INVALID_POINT ∧ ∀ i ∈ ys, ¬ nodeHasKey T m k i = true) ∨
    ∃ zs, ys = it :: zs ∧ nodeHasKey T m k it = true

theorem find_ends (h : Inv T N us fs ch m) : Ends (find T k) m fun it m' => m' = m ∧
    ∃ xs ys, ch (T.hashFun k % N) = xs ++ ys ∧ (∀ i ∈ xs, ¬ nodeHasKey T m k i = true) ∧
      AtEqual T m k it ys := by
  simp only [find, bktNumKey, capacity, ends_bind, ends_read, ends_pure, h.num]
  refine (search_ends h (Nat.mod_lt _ h.pos) holdsKey_tests).mono fun r m' hr => ?_
  obtain ⟨rfl, ⟨rfl, habsent⟩ | ⟨xs, ys, hch, hkey, hxs⟩⟩ := hr
  · exact ⟨rfl, [], _, rfl, by simp, Or.inl ⟨rfl, habsent⟩⟩
  · exact ⟨rfl, xs, r :: ys, hch, hxs, Or.inr ⟨ys, rfl, hkey⟩⟩

theorem gotoNextEqual_ends (h : Inv T N us fs ch m) {b n : Nat} (hb : b < N) {xs ys : List Nat}
    (hch : ch b = xs ++ n :: ys) (hk : nodeHasKey T m k n = true)
    (hrun : Leading (nodeHasKey T m k) ys) :
    Ends (gotoNextEqual T n) m fun it m' => m' = m ∧ AtEqual T m k it ys := by
  simp only [gotoNextEqual, index, ends_bind, ends_read, h.index_eq hb hch]
  cases ys with
  | nil =>
      simp only [headOr_nil, ne_eq, not_true_eq_false, if_false, ends_pure]
      exact ⟨trivial, Or.inl ⟨rfl, by simp⟩⟩
  | cons y ys =>
      have hy : y ≠ INVALID_POINT := h.ne_invalid (h.used hb (by simp [hch]))
      have hsame : T.equalKey (T.extractKey (m.value n)) (T.extractKey (m.value y)) =
          nodeHasKey T m k y := by
        rw [← equalKey_congr hk, nodeHasKey, Bool.eq_iff_iff]
        exact ⟨T.equiv.symm, T.equiv.symm⟩
      simp only [headOr_cons, ne_eq, hy, not_false_eq_true, if_true, value, ends_bind, ends_read,
        hsame, ends_ite, ends_pure]
      split_ifs with hky
      · exact ⟨trivial, Or.inr ⟨ys, rfl, hky⟩⟩
      · refine ⟨trivial, Or.inl ⟨rfl, ?_⟩⟩
        rcases leading_cons_iff.mp hrun with hr | hr
        · exact absurd hr.1 hky
        · exact hr

theorem equalNodes_ends (h : Inv T N us fs ch m) : Ends (equalNodes T k) m fun visited m' =>
    m' = m ∧ visited.Perm (us.filter (nodeHasKey T m k)) := by
  have hb : T.hashFun k % N < N := Nat.mod_lt _ h.pos
  have hlen := h.length_chain hb
  simp only [equalNodes, turns, ends_bind, ends_read, h.num]
  refine (find_ends h).mono fun it m₁ hr => ?_
  obtain ⟨rfl, xs, ys, hch, hxs, hat⟩ := hr
  have hstart : AtEqual T m₁ k it ys → Leading (nodeHasKey T m₁ k) ys := by
    rintro (⟨-, hys⟩ | ⟨zs, rfl, hk⟩)
    · exact leading_of_none hys
    · have hblock := h.block _ hb k
      rw [hch] at hblock
      exact hblock.leading hxs hk
  have hfuel : ys.length < N + 3 := by
    rw [hch, List.length_append] at hlen
    omega
  refine ends_loop (fun (c : Nat) (w : List Nat × Nat) m' => m' = m₁ ∧ ∃ xs ys,
    ch (T.hashFun k % N) = xs ++ ys ∧ w.1 = xs.filter (nodeHasKey T m₁ k) ∧
      AtEqual T m₁ k w.2 ys ∧ Leading (nodeHasKey T m₁ k) ys ∧ c = ys.length) ?_
    ⟨rfl, xs, ys, hch, (List.filter_eq_nil_iff.mpr hxs).symm, hat, hstart hat, rfl⟩ hfuel
  rintro c ⟨visited, it⟩ m' ⟨rfl, xs, ys, hch, hvisited, hat, hrun, rfl⟩
  dsimp only at hvisited hat
  subst hvisited
  rcases hat with ⟨rfl, hys⟩ | ⟨zs, rfl, hk⟩
  · simp only [endIt, ne_eq, not_true_eq_false, if_false, ends_pure, Sum.elim_inr]
    refine ⟨trivial, ?_⟩
    have hall := h.filter_chain (k := k)
    rwa [hch, List.filter_append, List.filter_eq_nil_iff.mpr hys, List.append_nil] at hall
  · have hit : it ≠ INVALID_POINT := h.ne_invalid (h.used hb (by simp [hch]))
    have hrest : Leading (nodeHasKey T m' k) zs := by
      rcases leading_cons_iff.mp hrun with hr | hr
      · exact hr.2
      · exact absurd hk (hr it List.mem_cons_self)
    simp only [endIt, ne_eq, hit, not_false_eq_true, if_true, ends_bind]
    refine (gotoNextEqual_ends h hb hch hk hrest).mono fun next m₂ hr => ?_
    obtain ⟨rfl, hat⟩ := hr
    exact ends_pure.mpr ⟨zs.length, by simp, rfl, xs ++ [it], zs, by simp [hch], by simp [hk], hat,
      hrest, rfl⟩

/-! ## Every reached table -/

/-- The operations on one key see all elements with it. -/
structure KeyExact (T : Params V K) (k : K) (m : Mem V) : Prop where
  contiguous : Block (nodeHasKey T m k) (chainOf m (T.hashFun k % m.numOfNode))
  count : Ends (count T k) m fun r m' => m' = m ∧ r = (entries m).countP (hasKey T k)
  eraseEqual : Ends (eraseEqual T k) m fun r m' => r = (entries m).countP (hasKey T k) ∧
    entries m' = (entries m).filter fun e => !hasKey T k e
  visit : Ends (equalNodes T k) m fun visited m' => m' = m ∧ visited.Nodup ∧
    visited.Perm (((entries m).filter (hasKey T k)).map Entry.node)

/-- `insert` adds the value exactly when no element has its key and a node is free. -/
def InsertExact (T : Params V K) (v : V) (prio : Nat) (m : Mem V) : Prop :=
  Ends (insert T v prio) m fun r m' =>
    if (∀ e ∈ entries m, ¬ hasKey T (T.extractKey v) e = true) ∧ freeList m ≠ [] then
      r.2 = true ∧ r.1 ∈ freeList m ∧ entries m' = ⟨r.1, v, prio⟩ :: entries m
    else r.2 = false ∧ entries m' = entries m

theorem Valid.key_exact (h : Valid T N m) (k : K) : KeyExact T k m := by
  obtain ⟨us, fs, ch, hi⟩ := h
  have hb : T.hashFun k % N < N := Nat.mod_lt _ hi.pos
  refine ⟨?_, count_ends hi, (eraseEqual_step hi).mono fun r m' hr => hr.2.2,
    (equalNodes_ends hi).mono fun visited m' hr => ?_⟩
  · rw [hi.num, hi.chainOf_eq hb]
    exact hi.block _ hb k
  · obtain ⟨rfl, hperm⟩ := hr
    refine ⟨rfl, hperm.nodup_iff.mpr (hi.toLists.distinct.filter _), ?_⟩
    rw [← filter_entries (p := nodeHasKey T m' k) (fun _ => rfl) hi, List.map_map]
    exact (List.map_id' _).symm ▸ hperm

theorem Valid.insert_exact (h : Valid T N m) (v : V) (prio : Nat) : InsertExact T v prio m := by
  obtain ⟨us, fs, ch, hi⟩ := h
  have hsmall := hi.small
  have hlen : (entries m).length = us.length := by rw [hi.entries_eq, List.length_map]
  refine (insert_ends hi).mono fun r m' hr => ?_
  rw [hi.freeList_eq]
  rcases hr.2.2 with ⟨e, he, hk, rfl, hs⟩ | ⟨hnone, hadd⟩
  · rw [if_neg fun hc => hc.1 e he hk]
    exact ⟨rfl, hs⟩
  · rw [Added] at hadd
    split_ifs at hadd with hfull
    · have hfs : fs = [] := List.eq_nil_of_length_eq_zero (by omega)
      obtain ⟨hr, hs⟩ := hadd
      rw [if_neg fun hc => hc.2 hfs]
      exact ⟨(Res.iterNew.inj hr).2, hs⟩
    · have hfs : fs ≠ [] := fun he => hfull (by simp [he] at hsmall; omega)
      obtain ⟨pos, hlt, hnot, hr, hs⟩ := hadd
      obtain ⟨hpos, hflag⟩ := Res.iterNew.inj hr
      rw [if_pos ⟨hnone, hfs⟩, hpos]
      refine ⟨hflag, ?_, hs⟩
      have hmem := hi.nodes.mem_iff.mpr (List.mem_range.mpr hlt)
      rcases List.mem_append.mp hmem with hu | hf
      · refine absurd ?_ hnot
        rw [hi.entries_eq, List.map_map]
        exact List.mem_map.mpr ⟨pos, hu, rfl⟩
      · exact hf

/-- On every reached table the operations are exact on every key and every value. -/
theorem keys_exact {tr : List (Op V K × Res)} (h : Run T numnode tr m) :
    (∀ k, KeyExact T k m) ∧ ∀ v prio, InsertExact T v prio m :=
  ⟨(run_valid h).key_exact, (run_valid h).insert_exact⟩

theorem keys_exact_nat : ∃ r m, Run natParams 1 [(.insert 7 5, r)] m ∧ KeyExact natParams 7 m ∧
    InsertExact natParams 7 6 m := by
  obtain ⟨r, m, pos, hrun, -⟩ := run_nat 7 5
  exact ⟨r, m, hrun, (keys_exact hrun).1 7, (keys_exact hrun).2 7 6⟩

end Jump.MemPool.LruHash
