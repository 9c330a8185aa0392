import Jump.MemPool.LruHash.Insert

/-! # Erasure

By key the first node that has it, by iterator the node itself, and `erase_equal`
all nodes with the key: it stops behind the first run of them, which is all of them
because equal keys stand side by side.
-/

namespace Jump.MemPool.LruHash

open Jump.Core Prog

variable {V K : Type} {T : Params V K} {N : Nat} {us fs : List Nat} {ch : Nat → List Nat}
  {m m' : Mem V} {n b : Nat} {k : K} {v : V}

/-! ## One node -/

theorem erase_one (h : Inv T N us fs ch m) :
    Ends (erase T k) m fun r m' => Valid T N m' ∧ m'.washed = m.washed ∧
      OnOne T k (fun xs _ ys => xs ++ ys) (entries m) (.flag r) (entries m') := by
  simp only [erase, bktNumKey, capacity, ends_bind, ends_read, ends_pure, h.num]
  refine (eraseFirst_ends h (Nat.mod_lt _ h.pos) holdsKey_tests).mono fun r m' hr => ?_
  obtain ⟨hkept, ⟨rfl, rfl, habsent⟩ | ⟨n, l, r', rfl, hkey, hn, rfl, ch', hi⟩⟩ := hr
  · exact ⟨⟨us, fs, ch, h⟩, rfl, Or.inl ⟨h.any_hasKey.mpr habsent, rfl, rfl⟩⟩
  · refine ⟨⟨l ++ r', n :: fs, ch', hi⟩, hkept.washed, Or.inr ⟨l.map (entryOf m), entryOf m n,
      r'.map (entryOf m), ?_, hkey, rfl, ?_⟩⟩
    · rw [h.entries_eq, List.map_append, List.map_cons]
    · rw [hi.entries_eq, hkept.entryOf_eq, List.map_append]

theorem erase_refines (h : Inv T N us fs ch m) :
    Refines T N (.erase k) (do return .flag (← erase T k)) m := by
  simp only [Refines, ends_bind, ends_pure]
  exact (erase_one h).mono fun r m' hr => ⟨hr.1, [], by simp [hr.2.1], rfl, hr.2.2⟩

theorem eraseValue_refines (h : Inv T N us fs ch m) :
    Refines T N (.eraseValue v) (do return .flag (← eraseValue T v)) m := by
  simp only [Refines, eraseValue, ends_bind, ends_pure]
  exact (erase_one h).mono fun r m' hr => ⟨hr.1, [], by simp [hr.2.1], rfl, hr.2.2⟩

/-- Erasure by iterator takes out a used node and leaves the table for any other. -/
theorem eraseIter_ends (h : Inv T N us fs ch m) (itseq : Nat) :
    Ends (eraseIter T itseq) m fun r m' => Kept m m' ∧ (r = true ↔ itseq ∈ us) ∧
      ∃ fs' ch', Inv T N (us.filter (· ≠ itseq)) fs' ch' m' := by
  have hb := h.bucket_lt (m.value itseq)
  have htest : Tests (V := V) (fun first => return first = itseq) (fun i => i = itseq) m :=
    fun i => ends_pure.mpr ⟨rfl, rfl⟩
  simp only [eraseIter, bktNumValue, bktNumKey, capacity, value, ends_bind, ends_read, ends_pure,
    h.num]
  refine (eraseFirst_ends h hb htest).mono fun r m' hr => ?_
  obtain ⟨hkept, ⟨rfl, rfl, habsent⟩ | ⟨n, l, r', rfl, hkey, hn, rfl, ch', hi⟩⟩ := hr
  · have hout : itseq ∉ us := fun hm =>
      habsent itseq ((h.members _ hb itseq).mpr ⟨hm, rfl⟩) (by simp)
    have hself : us.filter (· ≠ itseq) = us := List.filter_eq_self.mpr fun i hi => by
      have hne : i ≠ itseq := fun he => hout (he ▸ hi)
      simp [hne]
    rw [hself]
    exact ⟨hkept, by simp [hout], fs, ch, h⟩
  · obtain rfl : n = itseq := by simpa using hkey
    have hd := (List.nodup_cons.mp (List.perm_middle.nodup_iff.mp h.toLists.distinct)).1
    have hself : (l ++ n :: r').filter (· ≠ n) = l ++ r' := by
      rw [List.filter_append, List.filter_cons_of_neg (by simp), ← List.filter_append]
      refine List.filter_eq_self.mpr fun i hi => ?_
      have hne : i ≠ n := fun he => hd (he ▸ hi)
      simp [hne]
    rw [hself]
    exact ⟨hkept, by simp, n :: fs, ch', hi⟩

theorem eraseIter_refines (h : Inv T N us fs ch m) {itseq : Nat} :
    Refines T N (.eraseIter itseq) (do return .flag (← eraseIter T itseq)) m := by
  simp only [Refines, ends_bind, ends_pure]
  refine (eraseIter_ends h itseq).mono fun r m' hr => ?_
  obtain ⟨hkept, hflag, fs', ch', hi⟩ := hr
  refine ⟨⟨_, fs', ch', hi⟩, [], by simp [hkept.washed], rfl, ?_, ?_⟩
  · rw [h.entries_eq, List.any_map, Res.flag.injEq, Bool.eq_iff_iff, hflag, List.any_eq_true]
    constructor
    · intro hm
      exact ⟨itseq, hm, decide_eq_true rfl⟩
    · intro hany
      obtain ⟨i, hm, he⟩ := hany
      have hi : i = itseq := of_decide_eq_true he
      exact hi ▸ hm
  · rw [hi.entries_eq, h.entries_eq, hkept.entryOf_eq, List.filter_map]
    rfl

/-! ## All nodes with a key -/

/-- `erase_equal` after `count` nodes; `xs` is behind the walk and `ys` before it. -/
structure Erasing (T : Params V K) (N : Nat) (us : List Nat) (b : Nat) (k : K) (m : Mem V)
    (count : Nat) (xs ys : List Nat) (m' : Mem V) : Prop where
  kept : Kept m m'
  behind : ∀ i ∈ xs, ¬ nodeHasKey T m k i = true
  run : 0 < count → Leading (nodeHasKey T m k) ys
  state : ∃ us' fs' ch', Inv T N us' fs' ch' m' ∧ ch' b = xs ++ ys ∧
    us'.filter (fun i => !nodeHasKey T m k i) = us.filter (fun i => !nodeHasKey T m k i) ∧
    us'.countP (nodeHasKey T m k) + count = us.countP (nodeHasKey T m k)

/-- The walk has seen the last node with the key. -/
theorem Erasing.done {count : Nat} {xs ys : List Nat} (hb : b = T.hashFun k % N)
    (h : Erasing T N us b k m count xs ys m') (hys : ∀ i ∈ ys, ¬ nodeHasKey T m k i = true) :
    ∃ fs' ch', Inv T N (us.filter fun i => !nodeHasKey T m k i) fs' ch' m' ∧
      count = us.countP (nodeHasKey T m k) := by
  obtain ⟨us', fs', ch', hi, hch, hfilter, hcount⟩ := h.state
  have hnone : ∀ i ∈ us', ¬ nodeHasKey T m k i = true := fun i hi' hk => by
    have hk' : nodeHasKey T m' k i = true := by
      rw [nodeHasKey, h.kept.value]
      exact hk
    have hm := hi.mem_chain hi' hk'
    rw [← hb, hch] at hm
    rcases List.mem_append.mp hm with hm | hm
    · exact h.behind i hm hk
    · exact hys i hm hk
  have hself : us'.filter (fun i => !nodeHasKey T m k i) = us' :=
    List.filter_eq_self.mpr fun i hi' => by simpa using hnone i hi'
  have hzero : us'.countP (nodeHasKey T m k) = 0 := List.countP_eq_zero.mpr hnone
  rw [← hfilter, hself]
  exact ⟨fs', ch', hi, by omega⟩

theorem eraseEqual_ends (h : Inv T N us fs ch m) :
    Ends (eraseEqual T k) m fun r m' => Kept m m' ∧ r = us.countP (nodeHasKey T m k) ∧
      ∃ fs' ch', Inv T N (us.filter fun i => !nodeHasKey T m k i) fs' ch' m' := by
  have hb : T.hashFun k % N < N := Nat.mod_lt _ h.pos
  have hlen := h.length_chain hb
  simp only [eraseEqual, bktNumKey, turns, factor, capacity, ends_bind, ends_read, ends_pure,
    h.num, h.factor_eq hb]
  refine ends_loop (fun (c : Nat) (w : Nat × Nat × Nat) m' => ∃ xs ys,
    Erasing T N us (T.hashFun k % N) k m w.1 xs ys m' ∧ w.2.2 = headOr ys ∧
      (∀ i, xs.getLast? = some i → w.2.1 = i) ∧ c = ys.length) ?_
    ⟨[], ch (T.hashFun k % N), ⟨Kept.refl m, by simp, by simp, us, fs, ch, h, rfl, rfl, rfl⟩, rfl,
      by simp, rfl⟩ (by omega)
  rintro c ⟨count, q, first⟩ m₁ ⟨xs, ys, he, hfirst, hq, rfl⟩
  dsimp only at he hfirst hq
  subst hfirst
  obtain ⟨us', fs', ch', hi, hch, hfilter, hcount⟩ := he.state
  have hkey : nodeHasKey T m₁ k = nodeHasKey T m k := by
    funext i
    rw [nodeHasKey, nodeHasKey, he.kept.value]
  cases ys with
  | nil =>
      simp only [headOr_nil, ne_eq, not_true_eq_false, if_false, ends_pure, Sum.elim_inr]
      obtain ⟨fs'', ch'', hi', hr⟩ := he.done rfl (by simp)
      exact ⟨he.kept, hr, fs'', ch'', hi'⟩
  | cons n ys =>
      have hused : n ∈ us' := hi.used hb (by simp [hch])
      have hn : n ≠ INVALID_POINT := hi.ne_invalid hused
      simp only [headOr_cons, ne_eq, hn, not_false_eq_true, if_true, ends_bind]
      refine (holdsKey_tests (T := T) (k := k) n).mono fun r m₂ hr => ?_
      obtain ⟨rfl, rfl⟩ := hr
      rw [hkey]
      by_cases hk : nodeHasKey T m k n = true
      · obtain ⟨l, r', rfl⟩ := List.append_of_mem hused
        have hrun : Leading (nodeHasKey T m k) (n :: ys) := by
          rcases Nat.eq_zero_or_pos count with h0 | h0
          · have hblock := hi.block _ hb k
            rw [hkey, hch] at hblock
            exact hblock.leading he.behind hk
          · exact he.run h0
        have hrest : Leading (nodeHasKey T m k) ys := by
          rcases leading_cons_iff.mp hrun with hr | hr
          · exact hr.2
          · exact absurd hk (hr n List.mem_cons_self)
        simp only [hk, if_true, index, ends_bind, ends_read, ends_pure, Sum.elim_inl]
        refine (bypass_ends hi hb hch hq).mono fun _ m₃ hby => ?_
        have hnext : m₃.hashIndex n = headOr ys := by
          have hd := hi.toBuckets.distinct _ hb
          rw [hch] at hd
          have hnx : xs.getLast? ≠ some n := fun hl =>
            (List.nodup_cons.mp (List.perm_middle.nodup_iff.mp hd)).1
              (List.mem_append_left _ (List.mem_of_getLast? hl))
          rw [hby.index, if_neg hnx, hi.index_eq hb hch]
        refine (destroy_ends hi hb hch rfl hby).mono fun _ m₄ h₄ => ?_
        refine ⟨ys.length, by simp, xs, ys, ⟨he.kept.trans h₄.1, he.behind, fun _ => hrest, l ++ r',
          n :: fs', _, h₄.2, Function.update_self _ _ _, ?_, ?_⟩, hnext, hq, rfl⟩
        · rw [← hfilter]
          simp [hk]
        · rw [← hcount]
          simp [hk]
          omega
      · by_cases h0 : 0 < count
        · simp only [hk, Bool.false_eq_true, if_false, gt_iff_lt, h0, if_true, ends_pure,
            Sum.elim_inr]
          have hnone : ∀ i ∈ n :: ys, ¬ nodeHasKey T m k i = true := by
            rcases leading_cons_iff.mp (he.run h0) with hr | hr
            · exact absurd hr.1 hk
            · exact hr
          obtain ⟨fs'', ch'', hi', hr⟩ := he.done rfl hnone
          exact ⟨he.kept, hr, fs'', ch'', hi'⟩
        · simp only [hk, Bool.false_eq_true, if_false, gt_iff_lt, h0, index, ends_bind, ends_read,
            ends_pure, Sum.elim_inl, hi.index_eq hb hch]
          refine ⟨ys.length, by simp, xs ++ [n], ys, ⟨he.kept, fun i hm => ?_,
            fun h1 => absurd h1 h0, us', fs', ch', hi, by simp [hch], hfilter, hcount⟩, rfl,
            by simp, rfl⟩
          rcases List.mem_append.mp hm with hm | hm
          · exact he.behind i hm
          · rwa [List.mem_singleton.mp hm]

theorem filter_entries {p : Nat → Bool} {q : Entry V → Bool} (hpq : ∀ i, q (entryOf m i) = p i)
    (h : Inv T N us fs ch m) : (us.filter p).map (entryOf m) = (entries m).filter q := by
  rw [h.entries_eq, List.filter_map]
  congr 1
  exact List.filter_congr fun i _ => (hpq i).symm

theorem eraseEqual_step (h : Inv T N us fs ch m) :
    Ends (eraseEqual T k) m fun r m' => Valid T N m' ∧ m'.washed = m.washed ∧
      r = (entries m).countP (hasKey T k) ∧
      entries m' = (entries m).filter fun e => !hasKey T k e := by
  refine (eraseEqual_ends h).mono fun r m' hr => ?_
  obtain ⟨hkept, rfl, fs', ch', hi⟩ := hr
  refine ⟨⟨_, fs', ch', hi⟩, hkept.washed, ?_, ?_⟩
  · rw [h.entries_eq, List.countP_map]
    rfl
  · rw [hi.entries_eq, hkept.entryOf_eq]
    exact filter_entries (fun _ => rfl) h

theorem eraseEqual_refines (h : Inv T N us fs ch m) :
    Refines T N (.eraseEqual k) (do return .count (← eraseEqual T k)) m := by
  simp only [Refines, ends_bind, ends_pure]
  refine (eraseEqual_step h).mono fun r m' hr => ?_
  obtain ⟨hv, hw, rfl, hs⟩ := hr
  exact ⟨hv, [], by simp [hw], rfl, rfl, hs⟩

theorem eraseEqualValue_refines (h : Inv T N us fs ch m) :
    Refines T N (.eraseEqualValue v) (do return .flag (← eraseEqualValue T v)) m := by
  simp only [Refines, eraseEqualValue, ends_bind, ends_pure]
  refine (eraseEqual_step h).mono fun r m' hr => ?_
  obtain ⟨hv, hw, rfl, hs⟩ := hr
  refine ⟨hv, [], by simp [hw], rfl, ?_, hs⟩
  rw [Res.flag.injEq, Bool.eq_iff_iff]
  simp [List.countP_eq_zero]

end Jump.MemPool.LruHash
