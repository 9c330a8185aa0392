import Jump.MemPool.LruHash.Erase

/-! # Activation and marks

Both give an element a new priority, activation also moves it to the front. The
forms for one key change the first node that has it; the `_equal` forms pass the
whole chain and change every node with the key.
-/

namespace Jump.MemPool.LruHash

open Jump.Core Prog

variable {V K : Type} {T : Params V K} {N : Nat} {us fs : List Nat} {ch : Nat → List Nat}
  {m m' : Mem V} {n b prio : Nat} {k : K} {v : V}

/-! ## One element -/

/-- Node `n` now holds `v` and `prio`; no call of the washout functor. -/
structure Changed (n : Nat) (v : V) (prio : Nat) (m m' : Mem V) : Prop where
  value : ∀ i, m'.value i = if i = n then v else m.value i
  priority : ∀ i, m'.priority i = if i = n then prio else m.priority i
  washed : m'.washed = m.washed

theorem Changed.entryOf_self (h : Changed n v prio m m') : entryOf m' n = ⟨n, v, prio⟩ := by
  rw [entryOf, h.value, h.priority, if_pos rfl, if_pos rfl]

theorem Changed.map_entryOf (h : Changed n v prio m m') {row : List Nat} (hn : n ∉ row) :
    row.map (entryOf m') = row.map (entryOf m) := by
  refine List.map_congr_left fun i hi => ?_
  have hne : i ≠ n := fun he => hn (he ▸ hi)
  rw [entryOf, entryOf, h.value, h.priority, if_neg hne, if_neg hne]

/-- `change` moves the node to the front, or leaves it in its place. -/
def Moves (T : Params V K) (N : Nat) (front : Bool) (change : Nat → Act V Unit) (k : K)
    (prio : Nat) (v : V → V) (m : Mem V) : Prop :=
  ∀ us fs ch l n r, Inv T N us fs ch m → us = l ++ n :: r → nodeHasKey T m k n = true →
    Ends (change n) m fun _ m' => Changed n (v (m.value n)) prio m m' ∧
      ∃ ch', Inv T N (if front then n :: (l ++ r) else l ++ n :: r) fs ch' m'

theorem onFirst_ends (h : Inv T N us fs ch m) {front : Bool} {change : Nat → Act V Unit}
    {w : V → V} (hm : Moves T N front change k prio w m) :
    Ends (onFirst T k change) m fun r m' => Valid T N m' ∧ m'.washed = m.washed ∧
      OnOne T k (fun xs e ys => if front then ⟨e.node, w e.value, prio⟩ :: (xs ++ ys)
        else xs ++ ⟨e.node, w e.value, prio⟩ :: ys) (entries m) (.flag r) (entries m') := by
  have hb : T.hashFun k % N < N := Nat.mod_lt _ h.pos
  simp only [onFirst, bktNumKey, capacity, ends_bind, ends_read, ends_pure, h.num]
  refine (search_ends h hb holdsKey_tests).mono fun first m₁ hr => ?_
  obtain ⟨rfl, ⟨rfl, habsent⟩ | ⟨xs, ys, hch, hkey, -⟩⟩ := hr
  · simp only [ne_eq, not_true_eq_false, if_false, ends_pure]
    exact ⟨⟨us, fs, ch, h⟩, trivial, Or.inl ⟨h.any_hasKey.mpr habsent, rfl, rfl⟩⟩
  · have hused : first ∈ us := h.used hb (by simp [hch])
    have hd := h.toLists.distinct
    obtain ⟨l, r, rfl⟩ := List.append_of_mem hused
    have hout := (List.nodup_cons.mp (List.perm_middle.nodup_iff.mp hd)).1
    have hl : first ∉ l := fun hi => hout (List.mem_append_left _ hi)
    have hr : first ∉ r := fun hi => hout (List.mem_append_right _ hi)
    rw [if_pos (h.ne_invalid hused), ends_bind]
    refine (hm _ fs ch l first r h rfl hkey).mono fun _ m₂ h₂ => ?_
    obtain ⟨hc, ch', hi⟩ := h₂
    refine ends_pure.mpr ⟨⟨_, fs, ch', hi⟩, hc.washed, Or.inr ⟨l.map (entryOf m₁),
      entryOf m₁ first, r.map (entryOf m₁), by simp [h.entries_eq], hkey, rfl, ?_⟩⟩
    rw [hi.entries_eq]
    cases front with
    | true =>
        simp only [if_true, List.map_cons, List.map_append, hc.entryOf_self, hc.map_entryOf hl,
          hc.map_entryOf hr]
        rfl
    | false =>
        simp only [Bool.false_eq_true, if_false, List.map_cons, List.map_append, hc.entryOf_self,
          hc.map_entryOf hl, hc.map_entryOf hr]
        rfl

/-- The new priority, and the new value when it has an equal key. -/
theorem Inv.marked (h : Inv T N us fs ch m) (prio : Nat)
    (hk : T.equalKey (T.extractKey (m.value n)) (T.extractKey v) = true) :
    Inv T N us fs ch (Store.apply (.value n v) (Store.apply (.priority n prio) m)) ∧
      Changed n v prio m (Store.apply (.value n v) (Store.apply (.priority n prio) m)) :=
  ⟨⟨⟨h.num, h.rings, h.nodes, h.szUse, h.szFree⟩,
      h.toBuckets.revalue hk rfl rfl fun i => by simp, h.pos, h.bound⟩,
    fun i => by simp, fun i => by simp, rfl⟩

theorem Inv.marked_same (h : Inv T N us fs ch m) (n prio : Nat) :
    Inv T N us fs ch (Store.apply (.priority n prio) m) ∧
      Changed n (m.value n) prio m (Store.apply (.priority n prio) m) :=
  ⟨⟨⟨h.num, h.rings, h.nodes, h.szUse, h.szFree⟩,
      h.toBuckets.congr (fun _ => Iff.rfl) rfl rfl rfl, h.pos, h.bound⟩,
    fun i => by
      by_cases hi : i = n
      · simp [hi]
      · simp [hi],
    fun i => by simp, rfl⟩

/-- Relinking keeps the elements and the chains. -/
theorem moveFront_inv {l r : List Nat} (h : Inv T N (l ++ n :: r) fs ch m) {move : Act V Unit}
    (hmove : Ends move m fun _ m' => SameCells m m' ∧ Lists N (n :: (l ++ r)) fs m') :
    Ends move m fun _ m' => SameCells m m' ∧ Inv T N (n :: (l ++ r)) fs ch m' := by
  refine hmove.mono fun _ m' h' => ⟨h'.1, h'.2, ?_, h.pos, h.bound⟩
  exact h.toBuckets.congr (fun i => List.perm_middle.symm.mem_iff) h'.1.factor h'.1.index
    h'.1.value

theorem Changed.trans_same {m'' : Mem V} (h : Changed n v prio m m') (h' : SameCells m' m'') :
    Changed n v prio m m'' :=
  ⟨by rw [h'.value]; exact h.value, by rw [h'.priority]; exact h.priority,
    h'.washed.trans h.washed⟩

theorem mark_moves : Moves T N false (fun first => setPriority first prio) k prio id m := by
  intro us fs ch l n r h _ _
  exact ends_write.mpr ⟨(h.marked_same n prio).2, ch, by subst us; exact (h.marked_same n prio).1⟩

theorem markValue_moves : Moves T N false (fun first => do
    setPriority first prio
    setValue first v) (T.extractKey v) prio (fun _ => v) m := by
  rintro us fs ch l n r h rfl hkey
  simp only [setPriority, setValue, ends_bind, ends_write]
  exact ⟨(h.marked prio hkey).2, ch, (h.marked prio hkey).1⟩

theorem active_moves : Moves T N true (fun first => do
    setPriority first prio
    moveFront first) k prio id m := by
  rintro us fs ch l n r h rfl _
  obtain ⟨hi, hc⟩ := h.marked_same n prio
  simp only [setPriority, ends_bind, ends_write]
  exact (moveFront_inv hi (moveFront_ends hi.toLists)).mono fun _ m' h' =>
    ⟨hc.trans_same h'.1, ch, h'.2⟩

theorem activeValue_moves : Moves T N true (fun first => do
    setPriority first prio
    setValue first v
    moveFront first) (T.extractKey v) prio (fun _ => v) m := by
  rintro us fs ch l n r h rfl hkey
  obtain ⟨hi, hc⟩ := h.marked prio hkey
  simp only [setPriority, setValue, ends_bind, ends_write]
  exact (moveFront_inv hi (moveFront_ends hi.toLists)).mono fun _ m' h' =>
    ⟨hc.trans_same h'.1, ch, h'.2⟩

section Refines

variable (h : Inv T N us fs ch m)

include h

theorem active_refines : Refines T N (.active k prio) (do return .flag (← active T k prio)) m := by
  simp only [Refines, active, ends_bind, ends_pure]
  exact (onFirst_ends h active_moves).mono fun r m' hr => ⟨hr.1, [], by simp [hr.2.1], rfl, hr.2.2⟩

theorem activeValue_refines :
    Refines T N (.activeValue v prio) (do return .flag (← activeValue T v prio)) m := by
  simp only [Refines, activeValue, ends_bind, ends_pure]
  exact (onFirst_ends h activeValue_moves).mono fun r m' hr =>
    ⟨hr.1, [], by simp [hr.2.1], rfl, hr.2.2⟩

theorem mark_refines : Refines T N (.mark k prio) (do return .flag (← mark T k prio)) m := by
  simp only [Refines, mark, ends_bind, ends_pure]
  exact (onFirst_ends h mark_moves).mono fun r m' hr => ⟨hr.1, [], by simp [hr.2.1], rfl, hr.2.2⟩

theorem markValue_refines :
    Refines T N (.markValue v prio) (do return .flag (← markValue T v prio)) m := by
  simp only [Refines, markValue, ends_bind, ends_pure]
  exact (onFirst_ends h markValue_moves).mono fun r m' hr =>
    ⟨hr.1, [], by simp [hr.2.1], rfl, hr.2.2⟩

end Refines

/-! ## All elements with a key -/

/-- The chains and the values are the same. -/
structure SameChains (m m' : Mem V) : Prop where
  index : m'.hashIndex = m.hashIndex
  value : m'.value = m.value

/-- The count of `active_equal` and `mark_equal` is 0, so the walk passes the whole
chain; `C` says what the nodes changed so far, the last one first, leave behind. -/
theorem onEqual_ends (h : Inv T N us fs ch m) {change : Nat → Act V Unit}
    (C : List Nat → Mem V → Prop) (start : C [] m)
    (turn : ∀ done n m', n ∉ done → n ∈ us → nodeHasKey T m k n = true → SameChains m m' →
      C done m' → Ends (change n) m' fun _ m'' => SameChains m' m'' ∧ C (n :: done) m'') :
    Ends (onEqual T k change) m fun r m' => r = 0 ∧
      ∃ done, done.Perm (us.filter (nodeHasKey T m k)) ∧ C done m' := by
  have hb : T.hashFun k % N < N := Nat.mod_lt _ h.pos
  have hlen := h.length_chain hb
  have hd := h.toBuckets.distinct _ hb
  simp only [onEqual, bktNumKey, turns, factor, capacity, ends_bind, ends_read, ends_pure,
    h.num, h.factor_eq hb]
  refine ends_loop (fun (c : Nat) (w : Nat × Nat) m' => w.1 = 0 ∧ SameChains m m' ∧ ∃ xs ys,
    ch (T.hashFun k % N) = xs ++ ys ∧ w.2 = headOr ys ∧
      C (xs.filter (nodeHasKey T m k)).reverse m' ∧ c = ys.length) ?_
    ⟨rfl, ⟨rfl, rfl⟩, [], ch (T.hashFun k % N), rfl, rfl, start, rfl⟩ (by omega)
  rintro c ⟨count, first⟩ m₁ ⟨hcount, same, xs, ys, hch, hfirst, hC, rfl⟩
  dsimp only at hcount hfirst
  subst hcount hfirst
  have hkey : nodeHasKey T m₁ k = nodeHasKey T m k := by
    funext i
    rw [nodeHasKey, nodeHasKey, same.value]
  cases ys with
  | nil =>
      simp only [headOr_nil, ne_eq, not_true_eq_false, if_false, ends_pure, Sum.elim_inr]
      refine ⟨trivial, _, ?_, hC⟩
      rw [List.append_nil] at hch
      rw [← hch]
      exact (List.reverse_perm _).trans h.filter_chain
  | cons n ys =>
      have hused : n ∈ us := h.used hb (by simp [hch])
      have hn : n ≠ INVALID_POINT := h.ne_invalid hused
      have hnext : m.hashIndex n = headOr ys := h.index_eq hb hch
      simp only [headOr_cons, ne_eq, hn, not_false_eq_true, if_true, ends_bind]
      refine (holdsKey_tests (T := T) (k := k) n).mono fun r m₂ hr => ?_
      obtain ⟨rfl, rfl⟩ := hr
      rw [hkey]
      by_cases hk : nodeHasKey T m k n = true
      · have hnx : n ∉ (xs.filter (nodeHasKey T m k)).reverse := fun hm => by
          rw [List.mem_reverse, List.mem_filter] at hm
          rw [hch] at hd
          exact (List.nodup_append.mp hd).2.2 n hm.1 n List.mem_cons_self rfl
        simp only [hk, if_true, index, ends_bind, ends_read, ends_pure, Sum.elim_inl]
        refine (turn _ n m₂ hnx hused hk same hC).mono fun _ m₃ h₃ => ?_
        obtain ⟨same₃, hC₃⟩ := h₃
        refine ⟨ys.length, by simp, trivial, ⟨same₃.index.trans same.index,
          same₃.value.trans same.value⟩, xs ++ [n], ys, by simp [hch], ?_, ?_, rfl⟩
        · rw [same₃.index, same.index, hnext]
        · simpa [List.filter_append, hk] using hC₃
      · simp only [hk, Bool.false_eq_true, if_false, gt_iff_lt, Nat.lt_irrefl, index, ends_bind,
          ends_read, ends_pure, Sum.elim_inl]
        refine ⟨ys.length, by simp, trivial, same, xs ++ [n], ys, by simp [hch], ?_, ?_, rfl⟩
        · rw [same.index, hnext]
        · simpa [List.filter_append, hk] using hC

/-- The nodes of `done` have the new priority. -/
structure Marked (prio : Nat) (done : List Nat) (m m' : Mem V) : Prop where
  value : m'.value = m.value
  priority : ∀ i, m'.priority i = if i ∈ done then prio else m.priority i
  washed : m'.washed = m.washed

namespace Marked

variable {done : List Nat}

theorem start : Marked prio [] m m := ⟨rfl, fun i => by simp, rfl⟩

theorem step (h : Marked prio done m m') :
    Marked prio (n :: done) m (Store.apply (.priority n prio) m') := by
  refine ⟨h.value, fun i => ?_, h.washed⟩
  by_cases hi : i = n
  · simp [hi]
  · simp [hi, h.priority]

theorem trans_same {m'' : Mem V} (h : Marked prio done m m') (h' : SameCells m' m'') :
    Marked prio done m m'' :=
  ⟨h'.value.trans h.value, fun i => by rw [h'.priority]; exact h.priority i,
    h'.washed.trans h.washed⟩

theorem entryOf_mem (h : Marked prio done m m') {i : Nat} (hi : i ∈ done) :
    entryOf m' i = (entryOf m i).mark prio := by
  rw [entryOf, h.value, h.priority, if_pos hi]
  rfl

theorem entryOf_not_mem (h : Marked prio done m m') {i : Nat} (hi : i ∉ done) :
    entryOf m' i = entryOf m i := by
  rw [entryOf, entryOf, h.value, h.priority, if_neg hi]

end Marked

/-- The nodes of `done` were moved to the front one by one. -/
structure Fronted (T : Params V K) (N : Nat) (us fs : List Nat) (ch : Nat → List Nat) (prio : Nat)
    (m : Mem V) (done : List Nat) (m' : Mem V) : Prop extends Marked prio done m m' where
  inv : Inv T N (done ++ us.filter (· ∉ done)) fs ch m'

theorem Fronted.step (h : Inv T N us fs ch m) {done : List Nat} (hn : n ∉ done) (hu : n ∈ us)
    (hf : Fronted T N us fs ch prio m done m') :
    Ends (do
      setPriority n prio
      moveFrontEqual n) m' fun _ m'' =>
        SameChains m' m'' ∧ Fronted T N us fs ch prio m (n :: done) m'' := by
  have hleft : n ∈ us.filter (· ∉ done) := List.mem_filter.mpr ⟨hu, by simpa using hn⟩
  obtain ⟨l, r, hlr⟩ := List.append_of_mem hleft
  have hrest : us.filter (· ∉ n :: done) = l ++ r := by
    have hd := h.toLists.distinct.filter (· ∉ done)
    rw [hlr] at hd
    have hout := (List.nodup_cons.mp (List.perm_middle.nodup_iff.mp hd)).1
    have hsplit : us.filter (· ∉ n :: done) = (us.filter (· ∉ done)).filter (· ≠ n) := by
      rw [List.filter_filter]
      exact List.filter_congr fun i _ => by simp
    rw [hsplit, hlr, List.filter_append, List.filter_cons_of_neg (by simp), ← List.filter_append]
    refine List.filter_eq_self.mpr fun i hi => ?_
    have hne : i ≠ n := fun he => hout (he ▸ hi)
    simp [hne]
  have hi := hf.inv
  rw [hlr, ← List.append_assoc] at hi
  obtain ⟨hi', -⟩ := hi.marked_same n prio
  simp only [setPriority, ends_bind, ends_write]
  refine (moveFront_inv hi' (moveFrontEqual_ends hi'.toLists)).mono fun _ m'' h' => ?_
  refine ⟨⟨h'.1.index, h'.1.value⟩, hf.toMarked.step.trans_same h'.1, ?_⟩
  rw [hrest]
  simpa using h'.2

theorem activeEqual_ends (h : Inv T N us fs ch m) (k : K) (prio : Nat) :
    Ends (activeEqual T k prio) m fun r m' => r = 0 ∧ Valid T N m' ∧ m'.washed = m.washed ∧
      ∃ moved : List (Entry V), moved.Perm ((entries m).filter (hasKey T k)) ∧
        entries m' = moved.map (Entry.mark prio) ++ (entries m).filter fun e => !hasKey T k e := by
  have hall : us.filter (· ∉ ([] : List Nat)) = us := List.filter_eq_self.mpr (by simp)
  refine (onEqual_ends h (Fronted T N us fs ch prio m) ⟨Marked.start, by rwa [hall]⟩
    fun done n m' hn hu _ _ hf => hf.step h hn hu).mono fun r m' hr => ?_
  obtain ⟨rfl, done, hperm, hf⟩ := hr
  have hmem : ∀ i ∈ us, (i ∈ done ↔ nodeHasKey T m k i = true) := fun i hi => by
    rw [hperm.mem_iff, List.mem_filter]
    simp [hi]
  have hrest : us.filter (· ∉ done) = us.filter fun i => !nodeHasKey T m k i :=
    List.filter_congr fun i hi => by simp [hmem i hi]
  refine ⟨rfl, ⟨_, fs, ch, hf.inv⟩, hf.washed, done.map (entryOf m), ?_, ?_⟩
  · rw [h.entries_eq, List.filter_map]
    exact hperm.map (entryOf m)
  · rw [hf.inv.entries_eq, List.map_append, List.map_map]
    congr 1
    · exact List.map_congr_left fun i hi => hf.entryOf_mem hi
    · rw [← filter_entries (p := fun i => !nodeHasKey T m k i) (fun _ => rfl) h, ← hrest]
      refine List.map_congr_left fun i hi => hf.entryOf_not_mem ?_
      simpa using (List.mem_filter.mp hi).2

theorem activeEqual_refines (h : Inv T N us fs ch m) :
    Refines T N (.activeEqual k prio) (do return .count (← activeEqual T k prio)) m := by
  simp only [Refines, ends_bind, ends_pure]
  refine (activeEqual_ends h k prio).mono fun r m' hr => ?_
  obtain ⟨rfl, hv, hw, hs⟩ := hr
  exact ⟨hv, [], by simp [hw], rfl, rfl, hs⟩

theorem markEqual_ends (h : Inv T N us fs ch m) (k : K) (prio : Nat) :
    Ends (markEqual T k prio) m fun r m' => r = false ∧ Valid T N m' ∧ m'.washed = m.washed ∧
      entries m' = (entries m).map fun e => if hasKey T k e then e.mark prio else e := by
  simp only [markEqual, ends_bind, ends_pure]
  refine (onEqual_ends h (fun done m' => Marked prio done m m' ∧ Inv T N us fs ch m')
    ⟨Marked.start, h⟩ fun done n m' _ _ _ _ hc => ?_).mono fun r m' hr => ?_
  · exact ends_write.mpr ⟨⟨rfl, rfl⟩, hc.1.step, (hc.2.marked_same n prio).1⟩
  · obtain ⟨rfl, done, hperm, hmarked, hi⟩ := hr
    refine ⟨by simp, ⟨us, fs, ch, hi⟩, hmarked.washed, ?_⟩
    rw [hi.entries_eq, h.entries_eq, List.map_map]
    refine List.map_congr_left fun i hiu => ?_
    have hmem : i ∈ done ↔ hasKey T k (entryOf m i) = true := by
      rw [hperm.mem_iff, List.mem_filter]
      simp [hiu, hasKey_entryOf]
    by_cases hk : hasKey T k (entryOf m i) = true
    · rw [hmarked.entryOf_mem (hmem.mpr hk), Function.comp_apply, if_pos hk]
    · rw [hmarked.entryOf_not_mem fun hm => hk (hmem.mp hm), Function.comp_apply, if_neg hk]

theorem markEqual_refines (h : Inv T N us fs ch m) :
    Refines T N (.markEqual k prio) (do return .flag (← markEqual T k prio)) m := by
  simp only [Refines, ends_bind, ends_pure]
  refine (markEqual_ends h k prio).mono fun r m' hr => ?_
  obtain ⟨rfl, hv, hw, hs⟩ := hr
  exact ⟨hv, [], by simp [hw], rfl, rfl, hs⟩

end Jump.MemPool.LruHash
