import Jump.MemPool.LruHash.Runs

/-! # The order of the use list

Where the priorities that are passed in never decrease and none is changed in place,
the row is sorted: an element enters or re-enters it at the head with the greatest
priority so far. Then the tail that `expire` takes is everything up to its limit.
-/

namespace Jump.MemPool.LruHash

open Jump.Core Prog

variable {V K : Type} {T : Params V K} {N numnode : Nat} {m : Mem V} {s s' : List (Entry V)}
  {tr : List (Op V K × Res)}

/-- The priority an operation gives to the elements it puts in front. -/
def Op.passed : Op V K → Option Nat
  | .insert _ prio | .insertEqual _ prio | .active _ prio | .activeValue _ prio
  | .activeEqual _ prio => some prio
  | _ => none

def Op.marks : Op V K → Bool
  | .mark .. | .markValue .. | .markEqual .. => true
  | _ => false

/-- The priorities passed in a run, in order. -/
def priorities (tr : List (Op V K × Res)) : List Nat := tr.filterMap fun x => x.1.passed

/-- The passed priorities never decrease, and no element is marked. -/
structure Ascending (tr : List (Op V K × Res)) : Prop where
  ascending : (priorities tr).Pairwise (· ≤ ·)
  unmarked : ∀ x ∈ tr, x.1.marks = false

def SortedRow (s : List (Entry V)) : Prop := s.Pairwise fun a b => b.priority ≤ a.priority

/-! ## One step -/

theorem OnOne.sublist {k : K} {r : Res} (h : OnOne T k (fun xs _ ys => xs ++ ys) s r s') :
    s'.Sublist s := by
  rcases h with ⟨-, -, rfl⟩ | ⟨xs, e, ys, rfl, -, -, rfl⟩
  · exact List.Sublist.refl _
  · exact List.Sublist.append_left (List.sublist_cons_self e ys) xs

/-- Elements with the passed priority in front of elements that were there before, in
their order. -/
def Headed (p : Option Nat) (s s' : List (Entry V)) : Prop :=
  ∃ front rest, s' = front ++ rest ∧ (∀ e ∈ front, p = some e.priority) ∧ rest.Sublist s

theorem Headed.of_sublist {p : Option Nat} (h : s'.Sublist s) : Headed p s s' :=
  ⟨[], s', rfl, by simp, h⟩

theorem OnOne.headed {k : K} {r : Res} {v : Entry V → V} {prio : Nat}
    (h : OnOne T k (fun xs e ys => ⟨e.node, v e, prio⟩ :: (xs ++ ys)) s r s') :
    Headed (some prio) s s' := by
  rcases h with ⟨-, -, rfl⟩ | ⟨xs, e, ys, rfl, -, -, rfl⟩
  · exact Headed.of_sublist (List.Sublist.refl _)
  · exact ⟨[⟨e.node, v e, prio⟩], xs ++ ys, rfl, by simp,
      List.Sublist.append_left (List.sublist_cons_self e ys) xs⟩

theorem Added.headed {v : V} {prio : Nat} {r : Res} (h : Added N v prio s r s') :
    Headed (some prio) s s' := by
  rw [Added] at h
  split_ifs at h
  · exact Headed.of_sublist (h.2 ▸ List.Sublist.refl _)
  · obtain ⟨pos, -, -, -, rfl⟩ := h
    exact ⟨[⟨pos, v, prio⟩], s, rfl, by simp, List.Sublist.refl _⟩

/-- No operation but a mark changes the order of what stays. -/
theorem LruStep.headed {op : Op V K} {r : Res} {w : List (Nat × V)}
    (h : LruStep T N op s r w s') (hm : op.marks = false) : Headed op.passed s s' := by
  cases op with
  | clear => exact Headed.of_sublist (h.2.2 ▸ List.nil_sublist _)
  | reattach numnode => exact Headed.of_sublist (h.2.2 ▸ List.Sublist.refl _)
  | insert v prio =>
      rcases h.2 with ⟨e, -, -, -, rfl⟩ | ⟨-, hadd⟩
      · exact Headed.of_sublist (List.Sublist.refl _)
      · exact hadd.headed
  | insertEqual v prio => exact h.2.headed
  | erase k => exact Headed.of_sublist h.2.sublist
  | eraseIter itseq => exact Headed.of_sublist (h.2.2 ▸ List.filter_sublist)
  | eraseValue v => exact Headed.of_sublist h.2.sublist
  | eraseEqual k => exact Headed.of_sublist (h.2.2 ▸ List.filter_sublist)
  | eraseEqualValue v => exact Headed.of_sublist (h.2.2 ▸ List.filter_sublist)
  | active k prio => exact OnOne.headed (v := Entry.value) h.2
  | activeValue v prio => exact OnOne.headed (v := fun _ => v) h.2
  | activeEqual k prio =>
      obtain ⟨-, -, moved, -, rfl⟩ := h
      refine ⟨moved.map (Entry.mark prio), _, rfl, fun e he => ?_, List.filter_sublist⟩
      obtain ⟨a, -, rfl⟩ := List.mem_map.mp he
      rfl
  | mark k prio => cases hm
  | markValue v prio => cases hm
  | markEqual k prio => cases hm
  | expire expireTime =>
      exact Headed.of_sublist (h.2.2 ▸ (List.rdropWhile_prefix _ _).sublist)
  | disuse disuseNum disuseEqual =>
      have hdrop : (s.rdrop disuseNum).Sublist s := List.take_sublist _ _
      simp only [LruStep] at h
      split_ifs at h
      · exact Headed.of_sublist (h.2.2 ▸ (List.rdropWhile_prefix _ _).sublist.trans hdrop)
      · exact Headed.of_sublist (h.2.2 ▸ hdrop)
  | washout washPriority numWash => exact Headed.of_sublist (h.2.2.2 ▸ List.drop_sublist _ _)

/-! ## A whole run -/

theorem LruRun.sorted {w : List (Nat × V)} (h : LruRun T N tr w s) (ha : Ascending tr) :
    SortedRow s ∧ ∀ e ∈ s, e.priority ∈ priorities tr := by
  induction h with
  | fresh => exact ⟨List.Pairwise.nil, by simp⟩
  | @step tr w w' s s' op r hrun hstep ih =>
      obtain ⟨hasc, hmarks⟩ := ha
      rw [priorities, List.filterMap_append, List.pairwise_append] at hasc
      obtain ⟨hold, -, hnew⟩ := hasc
      obtain ⟨hsorted, hmem⟩ := ih ⟨hold, fun x hx => hmarks x (List.mem_append_left _ hx)⟩
      obtain ⟨front, rest, rfl, hfront, hrest⟩ :=
        hstep.headed (hmarks (op, r) (by simp))
      have hpassed : ∀ e ∈ front, ∀ p ∈ priorities tr, p ≤ e.priority := fun e he p hp =>
        hnew p hp e.priority (by simp [hfront e he])
      refine ⟨List.pairwise_append.mpr ⟨?_, hsorted.sublist hrest, fun a hfa b hrb => ?_⟩,
        fun e he => ?_⟩
      · refine List.pairwise_iff_forall_sublist.mpr fun {a b} hab => ?_
        have hfa := hfront a (hab.subset (by simp))
        have hfb := hfront b (hab.subset (by simp))
        rw [hfa, Option.some.injEq] at hfb
        omega
      · exact hpassed a hfa _ (hmem b (hrest.subset hrb))
      · rw [priorities, List.filterMap_append, List.mem_append]
        rcases List.mem_append.mp he with he | he
        · exact Or.inr (by simp [hfront e he])
        · exact Or.inl (hmem e (hrest.subset he))

/-! ## Eviction from a sorted row -/

end Jump.MemPool.LruHash
