import Jump.MemPool.Hash.Refine

/-! # Which node holds which key, before and after a call

A call moves no key from one node to another, so the pointers to the values of
other keys stay good.
-/

namespace Jump.MemPool.Hash

open Jump.Core Prog Fixed

variable {V : Type} {T : Params V} {P : Mapping} {B N : Nat} {m : Mem V}
  {chains : Nat → List Nat} {out free lost : List Nat} {o : Nat} {key : UInt64}

/-! ## `Get` -/

/-- `Get` returns the pointer to the node in use that holds the key. -/
theorem Inv.get_iff (hi : Inv T P B N m chains out free lost) {p : Nat} :
    Hash.get T P key m = some (some p, []) ↔
      ∃ o ∈ out, m.keyOf (o + NODE_OFFSET) = key ∧ p = nodeAt P o := by
  rcases hi.get_cases key with ⟨hrun, hnone⟩ | ⟨o, -, hr, hk, -, hrun⟩
  · rw [hrun]
    constructor
    · intro h
      cases h
    · rintro ⟨o, ho, hk, -⟩
      exact absurd hnone (hi.lookup_ne_none.mpr ⟨o, ho, hk⟩)
  · obtain ⟨a, ha, he⟩ := hi.linked _ (hi.slot_lt key) _ hr
    obtain rfl : o = a := Nat.add_right_cancel he
    rw [hrun]
    constructor
    · intro h
      cases h
      exact ⟨o, ha, hk, rfl⟩
    · rintro ⟨b, hb, hkb, rfl⟩
      rw [hi.key_inj hb ha (hkb.trans hk.symm)]

theorem Inv.get_none_iff (hi : Inv T P B N m chains out free lost) :
    Hash.get T P key m = some (none, []) ↔ lookup m key = none := by
  rcases hi.get_cases key with ⟨hrun, hnone⟩ | ⟨o, -, -, -, hsome, hrun⟩
  · exact ⟨fun _ => hnone, fun _ => hrun⟩
  · rw [hrun, hsome]
    simp

/-- `Get` returns the same where the same node holds the key. -/
theorem Inv.get_congr {m' : Mem V} {chains' : Nat → List Nat} {out' free' lost' : List Nat}
    (hi : Inv T P B N m chains out free lost) (hi' : Inv T P B N m' chains' out' free' lost')
    (h : ∀ o, (o ∈ out ∧ m.keyOf (o + NODE_OFFSET) = key) ↔
      (o ∈ out' ∧ m'.keyOf (o + NODE_OFFSET) = key)) :
    Hash.get T P key m' = Hash.get T P key m := by
  rcases hi.get_cases key with ⟨hrun, hnone⟩ | ⟨o, -, -, -, -, hrun⟩
  · rw [hrun]
    refine hi'.get_none_iff.mpr ?_
    by_contra hne
    obtain ⟨o, ho, hk⟩ := hi'.lookup_ne_none.mp hne
    have hold := (h o).mpr ⟨ho, hk⟩
    exact hi.lookup_ne_none.mpr ⟨o, hold.1, hold.2⟩ hnone
  · rw [hrun]
    obtain ⟨a, ha, hk, hp⟩ := hi.get_iff.mp hrun
    have hnew := (h a).mp ⟨ha, hk⟩
    exact hi'.get_iff.mpr ⟨a, hnew.1, hnew.2, hp⟩

/-! ## `Free` -/

theorem freeWrites_cells (slot : Nat) (before : Option Nat) (o : Nat) :
    (replay (freeWrites m slot before o) m).pool.allocNode = m.pool.allocNode ∧
      (replay (freeWrites m slot before o) m).keyOf = m.keyOf := by
  cases before with
  | none => exact ⟨rfl, rfl⟩
  | some q =>
      refine ⟨rfl, funext fun r => ?_⟩
      change (if r = q then { (m.pool.node q) with next := m.nextOf (o + NODE_OFFSET) }
        else m.pool.node r).key = (m.pool.node r).key
      split
      next h => rw [h]
      next => rfl

/-- `Free` puts the cell of its key out of use and leaves the other cells alone. -/
theorem Inv.free_cells (hi : Inv T P B N m chains out free []) {r : Int} {ws : List (Write V)}
    (hrun : Hash.free T P key m = some (r, ws)) :
    (∃ chains' out' free', Inv T P B N (replay ws m) chains' out' free' [] ∧
      ∀ o, o ∈ out' ↔ o ∈ out ∧ m.keyOf (o + NODE_OFFSET) ≠ key) ∧
      (replay ws m).pool.allocNode = m.pool.allocNode ∧ (replay ws m).keyOf = m.keyOf := by
  rcases hi.free_cases key with ⟨habs, hnone⟩ | ⟨o, xs, ys, v, ho, hseq, hk, -, hfree⟩
  · rw [hrun] at habs
    cases habs
    refine ⟨⟨chains, out, free, hi, fun o => ⟨fun ho => ⟨ho, fun hk => ?_⟩, And.left⟩⟩, rfl, rfl⟩
    exact hi.lookup_ne_none.mpr ⟨o, ho, hk⟩ hnone
  · rw [hrun] at hfree
    cases hfree
    obtain ⟨⟨chains', h'⟩, -⟩ := hi.remove ho hseq hk
    have hout := (List.nodup_append.mp hi.pool.nodup).1
    refine ⟨⟨chains', out.erase o, o :: free, h', fun a => ?_⟩, freeWrites_cells _ _ _⟩
    rw [hout.mem_erase_iff]
    constructor
    · rintro ⟨hne, ha⟩
      exact ⟨ha, fun hka => hne (hi.key_inj ha ho (hka.trans hk.symm))⟩
    · rintro ⟨ha, hka⟩
      refine ⟨fun he => hka ?_, ha⟩
      rw [he, hk]

/-- `Free` takes away its key, and no pointer to another. -/
theorem Inv.free_get (hi : Inv T P B N m chains out free []) {r : Int} {ws : List (Write V)}
    (hrun : Hash.free T P key m = some (r, ws)) :
    Hash.get T P key (replay ws m) = some (none, []) ∧
      ∀ other ≠ key, Hash.get T P other (replay ws m) = Hash.get T P other m := by
  obtain ⟨⟨chains', out', free', hi', hout⟩, -, hkey⟩ := hi.free_cells hrun
  constructor
  · refine hi'.get_none_iff.mpr ?_
    by_contra hne
    obtain ⟨o, ho, hk⟩ := hi'.lookup_ne_none.mp hne
    rw [hkey] at hk
    exact ((hout o).mp ho).2 hk
  · intro other hne
    refine hi.get_congr hi' fun o => ?_
    rw [hout, hkey]
    constructor
    · rintro ⟨ho, hk⟩
      exact ⟨⟨ho, fun he => hne (hk.symm.trans he)⟩, hk⟩
    · rintro ⟨⟨ho, -⟩, hk⟩
      exact ⟨ho, hk⟩

/-! ## `Insert` -/

theorem insertWrites_cells {ws : List (Fixed.Write (HashNode V))} {bs slot : Nat} {v : V} {r : Nat}
    (hw : Reserves m.pool bs o ws) (hr : r ≠ o + NODE_OFFSET) :
    (replay (insertWrites T key slot m o ws v) m).keyOf r = m.keyOf r := by
  have hskip : ∀ (b : HashNode V) (m' : Mem V),
      (Store.apply (Write.pool (.node (o + NODE_OFFSET) b)) m').pool.node r = m'.pool.node r :=
    fun b m' => if_neg hr
  have halloc : (replay (allocWrites T key slot m o ws) m).pool.node r = m.pool.node r := by
    rw [allocWrites, replay_append, replay_pool, replay_append]
    exact (hskip _ _).trans ((hskip _ _).trans ((if_neg hr).trans (congrFun hw.node_eq r)))
  rw [insertWrites, replay_append]
  exact congrArg HashNode.key ((hskip _ _).trans halloc)

/-- `Insert` of a new key takes a fresh node, and leaves the keys of the others alone. -/
theorem Inv.insert_cells (hi : Inv T P B N m chains out free lost) (v : V) {p : Nat}
    {ws : List (Write V)} (hrun : Hash.insert T P key v m = some (some p, ws)) :
    ∃ o chains' free', p = nodeAt P o ∧ o ∉ out ∧
      Inv T P B N (replay ws m) chains' (o :: out) free' lost ∧
      (replay ws m).keyOf (o + NODE_OFFSET) = key ∧
      ∀ a ∈ out, (replay ws m).keyOf (a + NODE_OFFSET) = m.keyOf (a + NODE_OFFSET) := by
  rcases hi.alloc_cases key with ⟨hnull, -⟩ | ⟨o, free', rs, h, hw, ho, halloc, hp⟩
  · rw [insert_null hnull] at hrun
    cases hrun
  · rw [insert_run hi.pool.toFits ho halloc] at hrun
    cases hrun
    obtain ⟨⟨chains', h'⟩, -, -, -⟩ := hi.fillValue h hw hp v
    have hfresh : o ∉ out := fun hmem => hp.lost_mem.1 hmem
    have hnode : (replay (allocWrites T key (key.toNat % B) m o rs) m).pool.node
        (o + NODE_OFFSET) = newNode T key (m.buckets ((key.toNat % B : Nat) : Int)) :=
      (hi.fill h hw hp).2.2.2
    refine ⟨o, chains', free', rfl, hfresh, h', ?_, fun a ha => insertWrites_cells hw fun he => ?_⟩
    · rw [insertWrites, replay_append]
      exact (congrArg HashNode.key (if_pos rfl)).trans (congrArg HashNode.key hnode)
    · exact hfresh (Nat.add_right_cancel he ▸ ha)

/-- `Insert` of a new key returns the pointer that `Get` gives from then on, and moves no other. -/
theorem Inv.insert_get (hi : Inv T P B N m chains out free lost) {v : V} {p : Nat}
    {ws : List (Write V)} (hrun : Hash.insert T P key v m = some (some p, ws)) :
    Hash.get T P key (replay ws m) = some (some p, []) ∧
      ∀ other ≠ key, Hash.get T P other (replay ws m) = Hash.get T P other m := by
  obtain ⟨o, chains', free', rfl, -, hi', hk, hold⟩ := hi.insert_cells v hrun
  refine ⟨hi'.get_iff.mpr ⟨o, List.mem_cons_self, hk, rfl⟩, fun other hne => ?_⟩
  refine hi.get_congr hi' fun a => ?_
  constructor
  · rintro ⟨ha, hka⟩
    exact ⟨List.mem_cons_of_mem _ ha, (hold a ha).trans hka⟩
  · rintro ⟨ha, hka⟩
    rcases List.mem_cons.mp ha with rfl | hmem
    · exact absurd (hka.symm.trans hk) hne
    · exact ⟨hmem, (hold a hmem).symm.trans hka⟩

end Jump.MemPool.Hash
