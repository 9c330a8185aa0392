import Jump.Skynet.GateService.Frames

/-! # The invariant of the gate

Each node of the pool is in the list of one connection or free, and each connection's buffer
holds the bytes since the end of its last frame.
-/

namespace Jump.Skynet.GateService

open Jump.Core

/-- The nodes of all the connections. -/
structure Layout (style : HeaderStyle) (buffer : Nat → DataBuffer) (mp : MessagePool)
    (lists : Nat → List Nat) (free : List Nat) (rest : Nat → List UInt8) : Prop where
  buffered (i : Nat) : Buffered style (buffer i) mp (lists i) free (rest i)
  disjoint {i j p : Nat} : i ≠ j → p ∈ lists i → p ∉ lists j
  covers {p : Nat} : 0 < p → p ≤ mp.limit → p ∈ free ∨ ∃ i, p ∈ lists i

variable {style : HeaderStyle} {buffer : Nat → DataBuffer} {mp mp' : MessagePool}
  {lists : Nat → List Nat} {free : List Nat} {rest : Nat → List UInt8}

/-- Every node is in one connection's list or on the free list, and not in two. -/
theorem Layout.once (h : Layout style buffer mp lists free rest) {p : Nat} (hpos : 0 < p)
    (hle : p ≤ mp.limit) :
    (p ∈ free ∧ ∀ i, p ∉ lists i) ∨ p ∉ free ∧ ∃ i, p ∈ lists i ∧ ∀ j, p ∈ lists j → j = i := by
  have hapart : ∀ i, p ∈ lists i → p ∉ free := by
    intro i hi hfree
    exact (List.nodup_append.mp (h.buffered i).linked.nodup).2.2 p hi p hfree rfl
  rcases h.covers hpos hle with hfree | ⟨i, hi⟩
  · exact .inl ⟨hfree, fun i hi => hapart i hi hfree⟩
  · refine .inr ⟨hapart i hi, i, hi, fun j hj => ?_⟩
    by_contra hne
    exact h.disjoint hne hj hi

theorem Buffered.congr {db : DataBuffer} {nodes free free' : List Nat} {bytes : List UInt8}
    (h : Buffered style db mp nodes free bytes)
    (hlinked : Linked db mp' nodes free') (hsame : ∀ p ∈ nodes, mp'.message p = mp.message p) :
    Buffered style db mp' nodes free' bytes := by
  have hholds : ∀ {bytes}, Holds db mp nodes free bytes → Holds db mp' nodes free' bytes := by
    intro bytes hholds
    refine ⟨hlinked, ?_, ?_, hholds.offset_nil, ?_⟩
    · intro p hp
      rw [hsame p hp]
      exact hholds.filled p hp
    · intro p hp
      rw [hsame p (List.mem_of_mem_head? hp)]
      exact hholds.offset p hp
    · rw [contents_congr hsame]
      exact hholds.bytes
  cases h with
  | header hheader hsize h => exact .header hheader hsize (hholds h)
  | content hlen hpos hheader hsize h => exact .content hlen hpos hheader hsize (hholds h)

/-- An operation on the buffer of one connection. -/
theorem Layout.update (h : Layout style buffer mp lists free rest) {i : Nat} {db' : DataBuffer}
    {nodes' free' : List Nat} {rest' : List UInt8}
    (heffect : Effect mp (lists i ++ free) mp' (nodes' ++ free'))
    (hbuffered : Buffered style db' mp' nodes' free' rest') :
    Layout style (Function.update buffer i db') mp' (Function.update lists i nodes') free'
      (Function.update rest i rest') := by
  have hmem : ∀ p, p ∈ nodes' ++ free' ↔
      p ∈ lists i ++ free ∨ mp.limit < p ∧ p ≤ mp'.limit := by
    intro p
    have hpool := heffect.pool
    rw [heffect.perm.mem_iff, List.mem_append, List.mem_range'_1]
    refine or_congr_right ?_
    omega
  have hapart : ∀ j, j ≠ i → ∀ p ∈ lists j, p ∉ lists i ++ free ∧ p ≤ mp.limit := by
    intro j hj p hp
    have hnodup := (h.buffered j).linked.nodup
    have hrange := (h.buffered j).linked.range p (List.mem_append_left _ hp)
    refine ⟨fun hown => ?_, hrange.2⟩
    rcases List.mem_append.mp hown with hi | hfree
    · exact h.disjoint hj hp hi
    · exact (List.nodup_append.mp hnodup).2.2 p hp p hfree rfl
  have hnot : ∀ j, j ≠ i → ∀ p ∈ lists j, p ∉ nodes' ++ free' := by
    intro j hj p hp hown
    obtain ⟨hout, hle⟩ := hapart j hj p hp
    rcases (hmem p).mp hown with hold | hnew
    · exact hout hold
    · omega
  refine ⟨fun j => ?_, ?_, ?_⟩
  · by_cases hj : j = i
    · subst hj
      rw [Function.update_self, Function.update_self, Function.update_self]
      exact hbuffered
    · rw [Function.update_of_ne hj, Function.update_of_ne hj, Function.update_of_ne hj]
      have hsame : ∀ p ∈ lists j, mp'.message p = mp.message p :=
        fun p hp => heffect.frame p (hapart j hj p hp).1 (hapart j hj p hp).2
      have hold := (h.buffered j).linked
      have hnew := hbuffered.linked
      refine (h.buffered j).congr
        ⟨chain_congr hold.chain hsame, hold.tail, hnew.freelist, ?_, ?_⟩ hsame
      · rw [List.nodup_append]
        refine ⟨(List.nodup_append.mp hold.nodup).1, (List.nodup_append.mp hnew.nodup).2.1, ?_⟩
        rintro p hp q hq rfl
        exact hnot j hj p hp (List.mem_append_right _ hq)
      · intro p hp
        rcases List.mem_append.mp hp with hp | hp
        · have hrange := hold.range p (List.mem_append_left _ hp)
          have hpool := heffect.pool
          omega
        · exact hnew.range p (List.mem_append_right _ hp)
  · intro j k p hjk hpj hpk
    by_cases hj : j = i
    · subst hj
      rw [Function.update_self] at hpj
      rw [Function.update_of_ne hjk.symm] at hpk
      exact hnot k hjk.symm p hpk (List.mem_append_left _ hpj)
    · rw [Function.update_of_ne hj] at hpj
      by_cases hk : k = i
      · subst hk
        rw [Function.update_self] at hpk
        exact hnot j hj p hpj (List.mem_append_left _ hpk)
      · rw [Function.update_of_ne hk] at hpk
        exact h.disjoint hjk hpj hpk
  · intro p hpos hle
    have hcases : p ∈ nodes' ++ free' ∨ ∃ j, j ≠ i ∧ p ∈ lists j := by
      by_cases hnew : mp.limit < p
      · exact .inl ((hmem p).mpr (.inr ⟨hnew, hle⟩))
      · rcases h.covers hpos (Nat.le_of_not_lt hnew) with hfree | ⟨j, hj⟩
        · exact .inl ((hmem p).mpr (.inl (List.mem_append_right _ hfree)))
        · by_cases hji : j = i
          · subst hji
            exact .inl ((hmem p).mpr (.inl (List.mem_append_left _ hj)))
          · exact .inr ⟨j, hji, hj⟩
    rcases hcases with hown | ⟨j, hji, hj⟩
    · rcases List.mem_append.mp hown with hnodes | hfree
      · refine .inr ⟨i, ?_⟩
        rw [Function.update_self]
        exact hnodes
      · exact .inl hfree
    · refine .inr ⟨j, ?_⟩
      rw [Function.update_of_ne hji]
      exact hj

/-- The nodes of the gate, its hash and what is in the buffers. -/
structure Gate.Inv (g : Gate) (lists : Nat → List Nat) (free : List Nat)
    (rest : Nat → List UInt8) : Prop where
  layout : Layout g.headerSize (fun i => (g.conn i).buffer) g.mp lists free rest
  hash : ∃ chains, g.hash.Inv chains
  stored {id : Int} {i : Nat} : g.hash.Stored id (i + 1) → (g.conn i).id = id
  closed {i : Nat} : (∀ id, ¬g.hash.Stored id (i + 1)) → rest i = []

/-- The slot of an id, as `hashid_lookup` finds it. -/
theorem lookup_cases {hi : Hashid} {chains : Nat → List Nat} (inv : hi.Inv chains) (id : Int) :
    (∃ i : Nat, hi.Stored id (i + 1) ∧ hi.lookup id = some (i : Int)) ∨
      (∀ p, ¬hi.Stored id p) ∧ hi.lookup id = some (-1) := by
  by_cases h : ∃ p, hi.Stored id p
  · obtain ⟨p, hp⟩ := h
    have hpos := hp.1
    obtain ⟨i, rfl⟩ := Nat.exists_eq_succ_of_ne_zero (Nat.ne_of_gt hpos)
    refine .inl ⟨i, hp, ?_⟩
    rw [inv.lookup_stored hp]
    congr 1
    omega
  · have habs : ∀ p, ¬hi.Stored id p := fun p hp => h ⟨p, hp⟩
    exact .inr ⟨habs, inv.lookup_absent habs⟩

theorem Layout.zero (style : HeaderStyle) :
    Layout style (fun _ => .zero) .zero (fun _ => []) [] fun _ => [] := by
  refine ⟨fun i => .header rfl rfl (.zero ⟨rfl, rfl, rfl, List.nodup_nil, nofun⟩), ?_, ?_⟩
  · exact fun _ hp => absurd hp List.not_mem_nil
  · intro p hpos hle
    have hlimit : MessagePool.zero.limit = 0 := Nat.zero_mul MESSAGEPOOL
    omega

theorem Gate.Inv.init (style : HeaderStyle) (watchdog clientTag max : Nat) (listenId : Int) :
    (gateInit style watchdog clientTag max listenId).Inv (fun _ => []) [] fun _ => [] where
  layout := .zero style
  hash := ⟨_, .init max⟩
  stored h := absurd h.2.2.1.symm h.2.2.2
  closed _ := rfl

end Jump.Skynet.GateService
