import Jump.MemPool.LruHash.Active

/-! # Eviction

`expire` and `disuse` take elements from the tail of the use list, `washout` from its
head. The priority of a node survives its erasure, so `disuse` may read it afterwards.
-/

namespace Jump.MemPool.LruHash

open Jump.Core Prog

variable {V K : Type} {T : Params V K} {N : Nat} {us fs : List Nat} {ch : Nat → List Nat}
  {m m' : Mem V} {s xs ys : List (Entry V)} {e : Entry V}

/-- The node of an element, or the sentinel. -/
def nodeOr (N : Nat) (e : Option (Entry V)) : Nat := (e.map Entry.node).getD N

namespace Valid

theorem num (h : Valid T N m) : m.numOfNode = N := by
  obtain ⟨us, fs, ch, hi⟩ := h
  exact hi.num

theorem length_le (h : Valid T N m) : (entries m).length ≤ N := by
  obtain ⟨us, fs, ch, hi⟩ := h
  have hsmall := hi.small
  rw [hi.entries_eq, List.length_map]
  omega

theorem prev_eq (h : Valid T N m) : m.idxPrev N = nodeOr N (entries m).getLast? := by
  obtain ⟨us, fs, ch, hi⟩ := h
  rw [Linked.prev_last hi.rings.left, hi.entries_eq, nodeOr, lastFrom, List.getLast?_map]
  cases us.getLast? <;> rfl

theorem next_eq (h : Valid T N m) : m.idxNext N = nodeOr N (entries m).head? := by
  obtain ⟨us, fs, ch, hi⟩ := h
  rw [Linked.next_first hi.rings.left, hi.entries_eq, nodeOr, List.head?_map]
  cases us.head? <;> rfl

/-- What the arrays hold for an element of the row. -/
theorem entry (h : Valid T N m) (he : entries m = xs ++ e :: ys) :
    e.node ≠ N ∧ m.priority e.node = e.priority ∧ m.idxNext e.node = nodeOr N ys.head? := by
  obtain ⟨us, fs, ch, hi⟩ := h
  rw [hi.entries_eq] at he
  obtain ⟨l, r, rfl, -, hr⟩ := List.map_eq_append_iff.mp he
  obtain ⟨n, r, rfl, rfl, rfl⟩ := List.map_eq_cons_iff.mp hr
  refine ⟨Nat.ne_of_lt (hi.lt (by simp [entryOf])), rfl, ?_⟩
  rw [entryOf, hi.rings.left.next_eq, nodeOr, List.head?_map]
  cases r.head? <;> rfl

end Valid

/-- One element leaves, wherever it stands, after one call of the functor on it. -/
theorem evict_ends (h : Valid T N m) (he : entries m = xs ++ e :: ys) :
    Ends (evict T e.node) m fun _ m' => Valid T N m' ∧ entries m' = xs ++ ys ∧
      m'.washed = m.washed ++ [e.call] ∧ m'.priority e.node = e.priority := by
  obtain ⟨us, fs, ch, hi⟩ := h
  rw [hi.entries_eq] at he
  obtain ⟨l, r, rfl, rfl, hr⟩ := List.map_eq_append_iff.mp he
  obtain ⟨n, r, rfl, rfl, rfl⟩ := List.map_eq_cons_iff.mp hr
  have hout := (List.nodup_cons.mp (List.perm_middle.nodup_iff.mp hi.toLists.distinct)).1
  have hkey : T.equalKey (T.extractKey (m.value n)) (T.extractKey (T.washoutFun (m.value n))) =
      true := by
    rw [T.washout_key]
    exact T.equiv.refl _
  have hw : Inv T N (l ++ n :: r) fs ch
      (Store.apply (.washed n (T.washoutFun (m.value n))) m) :=
    ⟨⟨hi.num, hi.rings, hi.nodes, hi.szUse, hi.szFree⟩,
      hi.toBuckets.revalue hkey rfl rfl fun i => by simp, hi.pos, hi.bound⟩
  have hself : (l ++ n :: r).filter (· ≠ n) = l ++ r := by
    rw [List.filter_append, List.filter_cons_of_neg (by simp), ← List.filter_append]
    refine List.filter_eq_self.mpr fun i him => ?_
    have hne : i ≠ n := fun he => hout (he ▸ him)
    simp [hne]
  simp only [evict, value, entryOf, ends_bind, ends_read, ends_write, ends_pure]
  refine (eraseIter_ends hw n).mono fun _ m' h' => ?_
  obtain ⟨hkept, -, fs', ch', hi'⟩ := h'
  rw [hself] at hi'
  refine ⟨⟨_, fs', ch', hi'⟩, ?_, ?_, ?_⟩
  · rw [hi'.entries_eq, ← List.map_append]
    refine List.map_congr_left fun i him => ?_
    have hne : i ≠ n := fun he => hout (he ▸ him)
    simp [entryOf, hkept.value, hkept.priority, hne]
  · rw [hkept.washed]
    rfl
  · rw [hkept.priority]
    rfl

/-! ## From the tail -/

section Tail

variable {α : Type} {p : α → Bool} {kept gone : List α}

theorem rdropWhile_append (hg : ∀ x ∈ gone, p x = true) :
    (kept ++ gone).rdropWhile p = kept.rdropWhile p := by
  induction gone using List.reverseRecOn with
  | nil => rw [List.append_nil]
  | append_singleton gone x ih =>
      rw [← List.append_assoc, List.rdropWhile_concat_pos p _ x (hg x (by simp)),
        ih fun y hy => hg y (by simp [hy])]

theorem rtakeWhile_append (hg : ∀ x ∈ gone, p x = true) :
    (kept ++ gone).rtakeWhile p = kept.rtakeWhile p ++ gone := by
  induction gone using List.reverseRecOn with
  | nil => rw [List.append_nil, List.append_nil]
  | append_singleton gone x ih =>
      rw [← List.append_assoc, List.rtakeWhile_concat_pos p _ x (hg x (by simp)),
        ih fun y hy => hg y (by simp [hy]), List.append_assoc]

end Tail

theorem expire_ends (h : Valid T N m) {t : Nat} : Ends (expire T t) m fun r m' =>
    Valid T N m' ∧ r = ((entries m).rtakeWhile (expired t)).length ∧
      m'.washed = m.washed ++ ((entries m).rtakeWhile (expired t)).reverse.map Entry.call ∧
      entries m' = (entries m).rdropWhile (expired t) := by
  have hlen := h.length_le
  simp only [expire, turns, useNode, prev, ends_bind, ends_read, h.num, h.prev_eq]
  refine ends_loop (fun (c : Nat) (w : Nat × Nat) m' => ∃ kept gone, entries m = kept ++ gone ∧
    Valid T N m' ∧ entries m' = kept ∧ (∀ e ∈ gone, expired t e = true) ∧
      w.1 = nodeOr N kept.getLast? ∧ w.2 = gone.length ∧
      m'.washed = m.washed ++ gone.reverse.map Entry.call ∧ c = kept.length) ?_
    ⟨entries m, [], by simp, h, rfl, by simp, rfl, rfl, by simp, rfl⟩ (by omega)
  rintro c ⟨listIdx, num⟩ m₁ ⟨kept, gone, hsplit, hv, hkept, hgone, hidx, hnum, hw, rfl⟩
  dsimp only at hidx hnum
  subst hidx hnum
  rcases List.eq_nil_or_concat' kept with rfl | ⟨kept', e, rfl⟩
  · simp only [capacity, ends_bind, ends_read, hv.num, nodeOr, List.getLast?_nil, Option.map_none,
      Option.getD_none, ne_eq, not_true_eq_false, if_false, ends_pure, Sum.elim_inr]
    rw [hsplit, rtakeWhile_append hgone, rdropWhile_append hgone]
    exact ⟨hv, rfl, hw, hkept⟩
  · obtain ⟨hne, hprio, -⟩ := hv.entry hkept
    simp only [capacity, priority, ends_bind, ends_read, hv.num, nodeOr,
      List.getLast?_concat, Option.map_some, Option.getD_some, ne_eq, hne, not_false_eq_true,
      if_true, hprio]
    by_cases ht : e.priority ≤ t
    · rw [if_pos ht, ends_bind]
      refine (evict_ends hv hkept).mono fun _ m₂ h₂ => ?_
      obtain ⟨hv₂, hrest, hwash, -⟩ := h₂
      rw [List.append_nil] at hrest
      simp only [ends_bind, ends_read, ends_pure, Sum.elim_inl, hv₂.num, hv₂.prev_eq, hrest]
      refine ⟨kept'.length, by simp, kept', e :: gone, by simp [hsplit], hv₂, rfl,
        List.forall_mem_cons.mpr ⟨decide_eq_true ht, hgone⟩, rfl, by simp, ?_, rfl⟩
      rw [hwash, hw]
      simp
    · have hkeep : ¬ expired t e = true := fun he => ht (of_decide_eq_true he)
      simp only [ht, if_false, ends_pure, Sum.elim_inr]
      rw [hsplit, rtakeWhile_append hgone, rdropWhile_append hgone,
        List.rtakeWhile_concat_neg _ _ _ hkeep, List.rdropWhile_concat_neg _ _ _ hkeep]
      exact ⟨hv, rfl, hw, hkept⟩

theorem expire_refines (h : Valid T N m) {t : Nat} :
    Refines T N (.expire t) (do return .count (← expire T t)) m := by
  simp only [Refines, ends_bind, ends_pure]
  refine (expire_ends h).mono fun r m' hr => ?_
  obtain ⟨hv, rfl, hw, hs⟩ := hr
  exact ⟨hv, _, hw, rfl, rfl, hs⟩

/-- The loop of `disuse` takes the last `n` elements, or all. -/
theorem disuseLoop_ends (h : Valid T N m) {n : Nat} : Ends (disuseLoop T n) m fun r m' =>
    Valid T N m' ∧ r = (((entries m).rtake n).length, disusePriority n (entries m)) ∧
      m'.washed = m.washed ++ ((entries m).rtake n).reverse.map Entry.call ∧
      entries m' = (entries m).rdrop n := by
  have hlen := h.length_le
  simp only [disuseLoop, turns, useNode, prev, ends_bind, ends_read, h.num, h.prev_eq]
  refine ends_loop (fun (c : Nat) (w : Nat × Nat × Nat × Nat) m' => ∃ kept gone,
    entries m = kept ++ gone ∧ Valid T N m' ∧ entries m' = kept ∧ w.1 = gone.length ∧
      gone.length ≤ n ∧ w.2.1 = nodeOr N kept.getLast? ∧ w.2.2.1 = gone.length ∧
      w.2.2.2 = (gone.head?.map Entry.priority).getD 0 ∧
      m'.washed = m.washed ++ gone.reverse.map Entry.call ∧ c = kept.length) ?_
    ⟨entries m, [], by simp, h, rfl, rfl, by simp, rfl, rfl, rfl, by simp, rfl⟩ (by omega)
  rintro c ⟨i, listIdx, num, prio⟩ m₁
    ⟨kept, gone, hsplit, hv, hkept, hi, hle, hidx, hnum, hprio, hw, rfl⟩
  dsimp only at hi hidx hnum hprio
  subst hi hidx hnum hprio
  have hdone : (gone.length = n ∨ kept = []) → (entries m).rtake n = gone ∧
      (entries m).rdrop n = kept := by
    intro hd
    have hdrop : (entries m).length - n = kept.length := by
      rw [hsplit, List.length_append]
      rcases hd with rfl | rfl
      · omega
      · simpa [Nat.sub_eq_zero_iff_le] using hle
    rw [List.rtake, List.rdrop, hdrop, hsplit, List.drop_left, List.take_left]
    exact ⟨rfl, rfl⟩
  by_cases hmore : gone.length < n ∧ kept ≠ []
  · obtain ⟨hlt, hne⟩ := hmore
    rcases List.eq_nil_or_concat' kept with rfl | ⟨kept', e, rfl⟩
    · exact absurd rfl hne
    · obtain ⟨hnode, -, -⟩ := hv.entry hkept
      simp only [capacity, priority, ends_bind, ends_read, hv.num, nodeOr,
        List.getLast?_concat, Option.map_some, Option.getD_some, ne_eq, hnode, not_false_eq_true,
        hlt, and_self, if_true]
      refine (evict_ends hv hkept).mono fun _ m₂ h₂ => ?_
      obtain ⟨hv₂, hrest, hwash, hprio⟩ := h₂
      rw [List.append_nil] at hrest
      simp only [ends_pure, Sum.elim_inl, hv₂.num, hv₂.prev_eq, hrest, hprio]
      refine ⟨kept'.length, by simp, kept', e :: gone, by simp [hsplit], hv₂, rfl, by simp,
        hlt, rfl, by simp, rfl, ?_, rfl⟩
      rw [hwash, hw]
      simp
  · have hstop : ¬ (gone.length < n ∧ nodeOr N kept.getLast? ≠ N) := by
      rintro ⟨hlt, hne⟩
      refine hmore ⟨hlt, fun hk => hne ?_⟩
      rw [hk]
      rfl
    have hd : gone.length = n ∨ kept = [] := by
      by_cases hk : kept = []
      · exact Or.inr hk
      · exact Or.inl (by
          have hn : ¬ gone.length < n := fun hlt => hmore ⟨hlt, hk⟩
          omega)
    obtain ⟨htake, hdrop⟩ := hdone hd
    simp only [capacity, ends_bind, ends_read, hv.num]
    rw [if_neg hstop]
    simp only [ends_pure, Sum.elim_inr]
    rw [disusePriority, htake, hdrop]
    exact ⟨hv, rfl, hw, hkept⟩

theorem disuse_refines (h : Valid T N m) {n : Nat} {equal : Bool} :
    Refines T N (.disuse n equal) (do return .count (← disuse T n equal)) m := by
  simp only [Refines, disuse, ends_bind, ends_pure]
  refine (disuseLoop_ends h).mono fun r m₁ hr => ?_
  obtain ⟨hv, rfl, hw, hs⟩ := hr
  by_cases hc : equal = true ∧ 0 < n
  · simp only [gt_iff_lt, hc, and_self, if_true, ends_bind, ends_pure]
    refine (expire_ends hv).mono fun r m₂ hr => ?_
    obtain ⟨hv₂, rfl, hw₂, hs₂⟩ := hr
    rw [hs] at hw₂ hs₂
    refine ⟨hv₂, _, (hw₂.trans (by rw [hw, List.append_assoc])), ?_⟩
    simp only [LruStep, hc, and_self, if_true]
    exact ⟨by rw [hs], by simp, hs₂⟩
  · have hc' : ¬ (equal = true ∧ n > 0) := hc
    simp only [hc', if_false, ends_pure]
    refine ⟨hv, _, hw, ?_⟩
    simp only [LruStep, hc, if_false]
    exact ⟨trivial, trivial, hs⟩

/-! ## `washout`

The walk goes on only behind a node it erases: at a node it keeps it stays for ever.
So it ends exactly when the elements it would pass first are all below the limit.
-/

section Washout

variable {p num numDel : Nat}

/-- An element below the limit is erased and the walk goes on behind it. -/
theorem washoutTurn_ends (h : Valid T N m) (he : entries m = e :: s) (hlt : numDel < num)
    (hp : e.priority < p) : Ends (washoutTurn T p num (e.node, numDel)) m fun r m' =>
      r = .inl (nodeOr N s.head?, numDel + 1) ∧ Valid T N m' ∧ entries m' = s ∧
        m'.washed = m.washed ++ [e.call] := by
  have he' : entries m = [] ++ e :: s := he
  obtain ⟨hne, hprio, hnext⟩ := h.entry he'
  simp only [washoutTurn, capacity, priority, next, ends_bind, ends_read, h.num, ne_eq, hne,
    not_false_eq_true, hlt, and_self, if_true, hprio, hp, hnext]
  refine (evict_ends h he').mono fun _ m' h' => ?_
  exact ends_pure.mpr ⟨rfl, h'.1, h'.2.1, h'.2.2.1⟩

/-- At an element that is kept the walk stays. -/
theorem washoutTurn_keep (h : Valid T N m) (he : entries m = e :: s) (hlt : numDel < num)
    (hp : ¬ e.priority < p) :
    washoutTurn T p num (e.node, numDel) m = some (.inl (e.node, numDel), []) := by
  have he' : entries m = [] ++ e :: s := he
  obtain ⟨hne, hprio, -⟩ := h.entry he'
  have hgo : e.node ≠ m.numOfNode ∧ numDel < num := ⟨h.num.symm ▸ hne, hlt⟩
  rw [washoutTurn, capacity, run_read_bind, if_pos hgo, priority, run_read_bind, hprio, if_neg hp]
  rfl

/-! ## The walk -/

theorem washout_ends (h : Valid T N m) (hall : ∀ e ∈ (entries m).take num, e.priority < p)
    {fuel : Nat} (hf : (entries m).length < fuel) :
    Ends (washout T fuel p num) m fun _ m' => Valid T N m' ∧
      m'.washed = m.washed ++ ((entries m).take num).map Entry.call ∧
      entries m' = (entries m).drop num := by
  simp only [washout, useNode, next, ends_bind, ends_read, h.num, h.next_eq]
  refine ends_loop (fun (c : Nat) (w : Nat × Nat) m' => ∃ gone rest, entries m = gone ++ rest ∧
    Valid T N m' ∧ entries m' = rest ∧ w.1 = nodeOr N rest.head? ∧ w.2 = gone.length ∧
      gone.length ≤ num ∧ m'.washed = m.washed ++ gone.map Entry.call ∧ c = rest.length) ?_
    ⟨[], entries m, rfl, h, rfl, rfl, rfl, by simp, by simp, rfl⟩ hf
  rintro c ⟨listIdx, numDel⟩ m₁ ⟨gone, rest, hsplit, hv, hrest, hidx, hnum, hle, hw, rfl⟩
  dsimp only at hidx hnum
  subst hidx hnum
  by_cases hmore : rest ≠ [] ∧ gone.length < num
  · obtain ⟨hne, hlt⟩ := hmore
    cases rest with
    | nil => exact absurd rfl hne
    | cons e rest =>
        have hp : e.priority < p := hall e (by
          rw [hsplit, List.take_append, List.take_of_length_le hle]
          obtain ⟨d, hd⟩ : ∃ d, num - gone.length = d + 1 := ⟨num - gone.length - 1, by omega⟩
          simp [hd])
        refine (washoutTurn_ends hv hrest hlt hp).mono fun r m₂ hr => ?_
        obtain ⟨rfl, hv₂, hrest₂, hw₂⟩ := hr
        refine ⟨rest.length, by simp, gone ++ [e], rest, by simp [hsplit], hv₂, hrest₂, rfl,
          by simp, by simpa using Nat.succ_le_of_lt hlt, ?_, rfl⟩
        rw [hw₂, hw]
        simp
  · have hstop : ¬ (nodeOr N rest.head? ≠ N ∧ gone.length < num) := by
      rintro ⟨hne, hlt⟩
      refine hmore ⟨fun hr => hne ?_, hlt⟩
      rw [hr]
      rfl
    have hend : rest = [] ∨ gone.length = num := by
      by_cases hr : rest = []
      · exact Or.inl hr
      · have hn : ¬ gone.length < num := fun hlt => hmore ⟨hr, hlt⟩
        exact Or.inr (by omega)
    have htake : (entries m).take num = gone ∧ (entries m).drop num = rest := by
      rw [hsplit]
      rcases hend with rfl | rfl
      · rw [List.append_nil]
        exact ⟨List.take_of_length_le hle, List.drop_eq_nil_of_le hle⟩
      · exact ⟨List.take_left, List.drop_left⟩
    simp only [washoutTurn, capacity, ends_bind, ends_read, hv.num]
    rw [if_neg hstop, htake.1, htake.2]
    exact ends_pure.mpr ⟨hv, hw, hrest⟩

theorem washout_loop_stuck (hv : Valid T N m) (hs : entries m = s)
    (hbad : ∃ e ∈ s.take (num - numDel), ¬ e.priority < p) (fuel : Nat) :
    loop (washoutTurn T p num) fuel (nodeOr N s.head?, numDel) m = none := by
  induction s generalizing m numDel fuel with
  | nil => simp at hbad
  | cons e s ih =>
      have hlt : numDel < num := by
        by_contra hge
        rw [show num - numDel = 0 by omega] at hbad
        simp at hbad
      by_cases hp : e.priority < p
      · cases fuel with
        | zero => rfl
        | succ fuel =>
            obtain ⟨r, ws, hrun, rfl, hv', hs', -⟩ := washoutTurn_ends hv hs hlt hp
            have hbad' : ∃ e ∈ s.take (num - (numDel + 1)), ¬ e.priority < p := by
              obtain ⟨d, hd⟩ : ∃ d, num - numDel = d + 1 := ⟨num - numDel - 1, by omega⟩
              obtain ⟨x, hx, hxp⟩ := hbad
              rw [hd, List.take_succ_cons, List.mem_cons] at hx
              rw [show num - (numDel + 1) = d by omega]
              rcases hx with rfl | hx
              · exact absurd hp hxp
              · exact ⟨x, hx, hxp⟩
            have hrest := ih hv' hs' hbad' fuel
            rw [loop, nodeOr, List.head?_cons, Option.map_some, Option.getD_some, run_bind hrun]
            simp only [hrest, Option.map_none]
      · exact loop_spin (washoutTurn_keep hv hs hlt hp) fuel

theorem washout_mono {fuel fuel' : Nat} {r : Unit × List (Write V)}
    (h : washout T fuel p num m = some r) (hle : fuel ≤ fuel') :
    washout T fuel' p num m = some r := by
  rw [washout, useNode, run_read_bind, LruHash.next, run_read_bind] at h ⊢
  exact loop_mono h hle

/-- A kept element among the first `num` is never passed. -/
theorem washout_stuck (h : Valid T N m) (hbad : ¬ ∀ e ∈ (entries m).take num, e.priority < p)
    (fuel : Nat) : washout T fuel p num m = none := by
  have hbad' : ∃ e ∈ (entries m).take (num - 0), ¬ e.priority < p := by
    simpa using hbad
  have hrun := washout_loop_stuck h rfl hbad' fuel
  rw [washout, useNode, run_read_bind, LruHash.next, run_read_bind, h.num, h.next_eq]
  exact hrun

end Washout

end Jump.MemPool.LruHash
