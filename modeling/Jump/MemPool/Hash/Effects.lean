import Jump.MemPool.Hash.Code

/-! # What the operations of a `HashMemPool` write

The invariant is kept write by write. Between two writes the node in hand is a
lost block of the pool: taken from the free list but not linked, or unlinked but
not yet given back.
-/

namespace Jump.MemPool.Hash

open Jump.Core Prog Fixed

variable {V : Type} {T : Params V} {P : Mapping} {B N : Nat} {m : Mem V}
  {chains : Nat → List Nat} {out free lost : List Nat} {o : Nat} {key : UInt64}

/-! ## Single writes -/

namespace Inv

/-- Whatever leaves the chains alone keeps the invariant and what is stored. -/
theorem congr {m' : Mem V} {free' lost' : List Nat} (hi : Inv T P B N m chains out free lost)
    (pool : Fixed.Inv P N T.nodeSize m'.pool out free' lost')
    (bucketNum : m'.bucketNum = m.bucketNum) (maxNode : m'.maxNode = m.maxNode)
    (nodeSize : m'.nodeSize = m.nodeSize) (buckets : m'.buckets = m.buckets)
    (nodes : ∀ o ∈ out, m'.pool.node (o + NODE_OFFSET) = m.pool.node (o + NODE_OFFSET)) :
    Inv T P B N m' chains out free' lost' ∧ lookup m' = lookup m := by
  have hnode : ∀ i < B, ∀ r ∈ chains i, m'.pool.node r = m.pool.node r := by
    intro i h r hr
    obtain ⟨o, ho, rfl⟩ := hi.linked i h r hr
    exact nodes o ho
  have hkey : ∀ i < B, ∀ r ∈ chains i, m'.keyOf r = m.keyOf r := fun i h r hr =>
    congrArg HashNode.key (hnode i h r hr)
  have hi' : Inv T P B N m' chains out free' lost' := by
    refine ⟨pool, bucketNum.trans hi.bucketNum, maxNode.trans hi.maxNode,
      nodeSize.trans hi.nodeSize, hi.pos, hi.small, fun i h => ?_, fun i h => ?_,
      fun i h r hr => ?_, hi.linked, hi.member⟩
    · rw [buckets]
      exact (hi.chain i h).congr fun r hr => congrArg HashNode.next (hnode i h r hr)
    · rw [List.map_congr_left (hkey i h)]
      exact hi.keys i h
    · rw [hkey i h r hr]
      exact hi.place i h r hr
  refine ⟨hi', funext fun key => ?_⟩
  have hlt := hi.slot_lt key
  rcases hi.lookup_cases key with ⟨hnone, hno⟩ | ⟨r, hr, hk, hsome⟩
  · rw [hnone]
    exact hi'.lookup_none fun r hr => by rw [hkey _ hlt r hr]; exact hno r hr
  · rw [hsome, hi'.lookup_some hr ((hkey _ hlt r hr).trans hk)]
    exact congrArg (fun b => some b.value) (hnode _ hlt r hr)

theorem ne_of_lost (hi : Inv T P B N m chains out free (o :: lost)) : ∀ a ∈ out, a ≠ o :=
  fun _ ha he => hi.pool.lost_mem.1 (he ▸ ha)

/-- The node of a lost block is written. -/
theorem storeLost (hi : Inv T P B N m chains out free (o :: lost)) (b : HashNode V) :
    Inv T P B N (Store.apply (Write.pool (.node (o + NODE_OFFSET) b)) m) chains out free
      (o :: lost) ∧
      lookup (Store.apply (Write.pool (.node (o + NODE_OFFSET) b)) m) = lookup m := by
  refine hi.congr (hi.pool.storeNode _ b) rfl rfl rfl rfl fun a ha => ?_
  have hne : a + NODE_OFFSET ≠ o + NODE_OFFSET := fun he =>
    hi.ne_of_lost a ha (Nat.add_right_cancel he)
  exact if_neg hne

theorem storeNodeNum (hi : Inv T P B N m chains out free lost) (n : Nat) :
    Inv T P B N (Store.apply (Write.nodeNum n) m) chains out free lost ∧
      lookup (Store.apply (Write.nodeNum n) m) = lookup m :=
  hi.congr hi.pool rfl rfl rfl rfl fun _ _ => rfl

/-- The word of a lost block is written. -/
theorem setWord (hi : Inv T P B N m chains out free (o :: lost)) (n : Nat) :
    Inv T P B N (Store.apply (Write.pool (.next o n)) m) chains out free (o :: lost) ∧
      lookup (Store.apply (Write.pool (.next o n)) m) = lookup m :=
  hi.congr (hi.pool.setNext n) rfl rfl rfl rfl fun _ _ => rfl

/-- A lost block whose word links it to the free list becomes its head. -/
theorem pushFree (hi : Inv T P B N m chains out free (o :: lost))
    (link : m.pool.next o = m.pool.freeList) :
    Inv T P B N (Store.apply (Write.pool (.freeList o)) m) chains out (o :: free) lost ∧
      lookup (Store.apply (Write.pool (.freeList o)) m) = lookup m :=
  hi.congr (hi.pool.push link) rfl rfl rfl rfl fun _ _ => rfl

/-- A lost node that was filled in goes in front of its bucket. -/
theorem link (hi : Inv T P B N m chains out free (o :: lost)) (mark : m.pool.next o = 0)
    (hk : m.keyOf (o + NODE_OFFSET) = key) (fresh : lookup m key = none)
    (next : m.nextOf (o + NODE_OFFSET) = m.buckets ((key.toNat % B : Nat) : Int)) :
    (∃ chains', Inv T P B N (Store.apply (Write.bucket ((key.toNat % B : Nat) : Int)
      (o + NODE_OFFSET)) m) chains' (o :: out) free lost) ∧
      lookup (Store.apply (Write.bucket ((key.toNat % B : Nat) : Int) (o + NODE_OFFSET)) m) =
        Function.update (lookup m) key (some (m.valueOf (o + NODE_OFFSET))) := by
  generalize hm' : Store.apply (Write.bucket ((key.toNat % B : Nat) : Int) (o + NODE_OFFSET)) m = m'
  have hpool : m'.pool = m.pool := by
    rw [← hm']
    rfl
  have hbucket : ∀ i : Nat, m'.buckets i = if i = key.toNat % B then o + NODE_OFFSET
      else m.buckets i := by
    intro i
    rw [← hm']
    change (if (i : Int) = ((key.toNat % B : Nat) : Int) then _ else _) = _
    simp only [Nat.cast_inj]
  have hkeyOf : m'.keyOf = m.keyOf := by
    unfold Mem.keyOf
    rw [hpool]
  have hnextOf : m'.nextOf = m.nextOf := by
    unfold Mem.nextOf
    rw [hpool]
  have hlt := hi.slot_lt key
  have hno : ∀ r ∈ chains (key.toNat % B), m.keyOf r ≠ key := by
    rcases hi.lookup_cases key with ⟨-, hno⟩ | ⟨r, -, -, hsome⟩
    · exact hno
    · rw [fresh] at hsome
      cases hsome
  have hi' : Inv T P B N m' (Function.update chains (key.toNat % B)
      ((o + NODE_OFFSET) :: chains (key.toNat % B))) (o :: out) free lost := by
    refine ⟨?_, ?_, ?_, ?_, hi.pos, hi.small, fun i h => ?_, fun i h => ?_, fun i h r hr => ?_,
      fun i h r hr => ?_, fun a ha => ?_⟩
    · rw [hpool]
      exact hi.pool.claim mark
    · rw [← hm']
      exact hi.bucketNum
    · rw [← hm']
      exact hi.maxNode
    · rw [← hm']
      exact hi.nodeSize
    · rw [hbucket, hnextOf]
      by_cases he : i = key.toNat % B
      · subst he
        rw [if_pos rfl, Function.update_self]
        refine ⟨rfl, ?_⟩
        rw [next]
        exact hi.chain _ h
      · rw [if_neg he, Function.update_of_ne he]
        exact hi.chain i h
    · rw [hkeyOf]
      by_cases he : i = key.toNat % B
      · subst he
        rw [Function.update_self, List.map_cons, List.nodup_cons, hk]
        refine ⟨fun hm => ?_, hi.keys _ h⟩
        obtain ⟨r, hr, hrk⟩ := List.mem_map.mp hm
        exact hno r hr hrk
      · rw [Function.update_of_ne he]
        exact hi.keys i h
    · rw [hkeyOf]
      by_cases he : i = key.toNat % B
      · subst he
        rw [Function.update_self] at hr
        rcases List.mem_cons.mp hr with rfl | hr
        · rw [hk]
        · exact hi.place _ h r hr
      · rw [Function.update_of_ne he] at hr
        exact hi.place i h r hr
    · by_cases he : i = key.toNat % B
      · subst he
        rw [Function.update_self] at hr
        rcases List.mem_cons.mp hr with rfl | hr
        · exact ⟨o, List.mem_cons_self, rfl⟩
        · obtain ⟨a, ha, hra⟩ := hi.linked _ h r hr
          exact ⟨a, List.mem_cons_of_mem o ha, hra⟩
      · rw [Function.update_of_ne he] at hr
        obtain ⟨a, ha, hra⟩ := hi.linked i h r hr
        exact ⟨a, List.mem_cons_of_mem o ha, hra⟩
    · rcases List.mem_cons.mp ha with rfl | ha
      · exact ⟨_, hlt, by rw [Function.update_self]; exact List.mem_cons_self⟩
      · obtain ⟨i, h, hr⟩ := hi.member a ha
        refine ⟨i, h, ?_⟩
        by_cases he : i = key.toNat % B
        · subst he
          rw [Function.update_self]
          exact List.mem_cons_of_mem _ hr
        · rwa [Function.update_of_ne he]
  refine ⟨⟨_, hi'⟩, funext fun key' => ?_⟩
  have hvalueOf : m'.valueOf = m.valueOf := by
    unfold Mem.valueOf
    rw [hpool]
  by_cases he : key' = key
  · subst he
    rw [Function.update_self, ← hvalueOf]
    refine hi'.lookup_some ?_ (by rw [hkeyOf, hk])
    rw [Function.update_self]
    exact List.mem_cons_self
  · rw [Function.update_of_ne he]
    have hsub : ∀ r ∈ chains (key'.toNat % B), r ∈ Function.update chains (key.toNat % B)
        ((o + NODE_OFFSET) :: chains (key.toNat % B)) (key'.toNat % B) := by
      intro r hr
      by_cases hs : key'.toNat % B = key.toNat % B
      · rw [hs, Function.update_self]
        rw [hs] at hr
        exact List.mem_cons_of_mem _ hr
      · rwa [Function.update_of_ne hs]
    rcases hi.lookup_cases key' with ⟨hnone, hno'⟩ | ⟨r, hr, hk', hsome⟩
    · rw [hnone]
      refine hi'.lookup_none fun r hr => ?_
      rw [hkeyOf]
      by_cases hs : key'.toNat % B = key.toNat % B
      · rw [hs, Function.update_self] at hr
        rcases List.mem_cons.mp hr with rfl | hr
        · rw [hk]
          exact Ne.symm he
        · exact hno' r (by rwa [hs])
      · rw [Function.update_of_ne hs] at hr
        exact hno' r hr
    · rw [hsome, hi'.lookup_some (hsub r hr) (by rw [hkeyOf, hk']), hvalueOf]

/-- A node of a bucket chain may get another value. -/
theorem storeValue (hi : Inv T P B N m chains out free lost) {r : Nat}
    (hr : r ∈ chains (key.toNat % B)) (hk : m.keyOf r = key) (v : V) :
    Inv T P B N (Store.apply (Write.pool (.node r { (m.pool.node r) with value := v })) m) chains
      out free lost ∧
      lookup (Store.apply (Write.pool (.node r { (m.pool.node r) with value := v })) m) =
        Function.update (lookup m) key (some v) := by
  generalize hm' : Store.apply (Write.pool (.node r { (m.pool.node r) with value := v })) m = m'
  have hnode : ∀ s, m'.pool.node s =
      if s = r then { (m.pool.node r) with value := v } else m.pool.node s := by
    intro s
    rw [← hm']
    rfl
  have hkeyOf : m'.keyOf = m.keyOf := by
    funext s
    unfold Mem.keyOf
    rw [hnode]
    split
    next he => rw [he]
    next => rfl
  have hnextOf : m'.nextOf = m.nextOf := by
    funext s
    unfold Mem.nextOf
    rw [hnode]
    split
    next he => rw [he]
    next => rfl
  have hbuckets : m'.buckets = m.buckets := by
    rw [← hm']
    rfl
  have hi' : Inv T P B N m' chains out free lost := by
    refine ⟨?_, ?_, ?_, ?_, hi.pos, hi.small, fun i h => ?_, fun i h => ?_, fun i h r hr => ?_,
      hi.linked, hi.member⟩
    · rw [← hm']
      exact hi.pool.storeNode _ _
    · rw [← hm']
      exact hi.bucketNum
    · rw [← hm']
      exact hi.maxNode
    · rw [← hm']
      exact hi.nodeSize
    · rw [hnextOf, hbuckets]
      exact hi.chain i h
    · rw [hkeyOf]
      exact hi.keys i h
    · rw [hkeyOf]
      exact hi.place i h r hr
  refine ⟨hi', funext fun key' => ?_⟩
  by_cases he : key' = key
  · subst he
    rw [Function.update_self, hi'.lookup_some hr (by rw [hkeyOf, hk]), Mem.valueOf, hnode,
      if_pos rfl]
  · rw [Function.update_of_ne he]
    rcases hi.lookup_cases key' with ⟨hnone, hno⟩ | ⟨s, hs, hk', hsome⟩
    · rw [hnone]
      exact hi'.lookup_none fun s hs => by rw [hkeyOf]; exact hno s hs
    · have hne : s ≠ r := fun h => he (hk'.symm.trans (h ▸ hk))
      rw [hsome, hi'.lookup_some hs (by rw [hkeyOf, hk']), Mem.valueOf, hnode, if_neg hne]
      rfl

/-- A node that a write took out of its bucket chain is lost until it is given back. -/
theorem unlinked {m' : Mem V} {xs ys : List Nat} (hi : Inv T P B N m chains out free lost)
    (ho : o ∈ out) (hseq : chains (key.toNat % B) = xs ++ (o + NODE_OFFSET) :: ys)
    (hk : m.keyOf (o + NODE_OFFSET) = key)
    (pool : Fixed.Inv P N T.nodeSize m'.pool out free lost)
    (bucketNum : m'.bucketNum = m.bucketNum) (maxNode : m'.maxNode = m.maxNode)
    (nodeSize : m'.nodeSize = m.nodeSize) (keyOf : m'.keyOf = m.keyOf)
    (valueOf : m'.valueOf = m.valueOf)
    (chain : Chain m'.nextOf 0 (m'.buckets ((key.toNat % B : Nat) : Int)) (xs ++ ys))
    (others : ∀ i < B, i ≠ key.toNat % B → Chain m'.nextOf 0 (m'.buckets i) (chains i)) :
    (∃ chains', Inv T P B N m' chains' (out.erase o) free (o :: lost)) ∧
      lookup m' = Function.update (lookup m) key none := by
  have hlt := hi.slot_lt key
  have hdrop : Fixed.Inv P N T.nodeSize m'.pool (out.erase o) free (o :: lost) :=
    (pool.perm (List.perm_cons_erase ho).symm).drop
  have hkeys := hi.keys _ hlt
  rw [hseq] at hkeys
  have hsub : List.Sublist (xs ++ ys) (xs ++ (o + NODE_OFFSET) :: ys) :=
    List.Sublist.append_left (List.sublist_cons_self _ ys) xs
  have hkept : ∀ r ∈ xs ++ ys, r ∈ chains (key.toNat % B) := fun r hr => by
    rw [hseq]
    exact hsub.subset hr
  have hgone : ∀ r ∈ xs ++ ys, m.keyOf r ≠ key := by
    have hperm : (xs ++ (o + NODE_OFFSET) :: ys).Perm ((o + NODE_OFFSET) :: (xs ++ ys)) :=
      List.perm_middle
    have hnd := (hperm.map m.keyOf).nodup_iff.mp hkeys
    rw [List.map_cons, List.nodup_cons, hk] at hnd
    exact fun r hr he => hnd.1 (he ▸ List.mem_map_of_mem hr)
  have hi' : Inv T P B N m' (Function.update chains (key.toNat % B) (xs ++ ys)) (out.erase o) free
      (o :: lost) := by
    refine ⟨hdrop, bucketNum.trans hi.bucketNum, maxNode.trans hi.maxNode,
      nodeSize.trans hi.nodeSize, hi.pos, hi.small, fun i h => ?_, fun i h => ?_,
      fun i h r hr => ?_, fun i h r hr => ?_, fun a ha => ?_⟩
    · by_cases he : i = key.toNat % B
      · subst he
        rwa [Function.update_self]
      · rw [Function.update_of_ne he]
        exact others i h he
    · rw [keyOf]
      by_cases he : i = key.toNat % B
      · subst he
        rw [Function.update_self]
        exact hkeys.sublist (hsub.map m.keyOf)
      · rw [Function.update_of_ne he]
        exact hi.keys i h
    · rw [keyOf]
      by_cases he : i = key.toNat % B
      · subst he
        rw [Function.update_self] at hr
        exact hi.place _ h r (hkept r hr)
      · rw [Function.update_of_ne he] at hr
        exact hi.place i h r hr
    · -- the node still linked is not the one taken out
      have hother : r ∈ chains i ∧ r ≠ o + NODE_OFFSET := by
        by_cases he : i = key.toNat % B
        · subst he
          rw [Function.update_self] at hr
          exact ⟨hkept r hr, fun h => hgone r hr (h ▸ hk)⟩
        · rw [Function.update_of_ne he] at hr
          refine ⟨hr, fun hro => he ?_⟩
          have hplace := hi.place i h r hr
          rw [hro, hk] at hplace
          exact hplace.symm
      obtain ⟨a, ha, rfl⟩ := hi.linked i h r hother.1
      have hne : a ≠ o := fun hao => hother.2 (by rw [hao])
      exact ⟨a, (List.mem_erase_of_ne hne).mpr ha, rfl⟩
    · have hout := (List.nodup_append.mp hi.pool.nodup).1
      obtain ⟨hne, ha⟩ := hout.mem_erase_iff.mp ha
      obtain ⟨i, h, hr⟩ := hi.member a ha
      refine ⟨i, h, ?_⟩
      by_cases he : i = key.toNat % B
      · subst he
        rw [hseq] at hr
        rw [Function.update_self]
        simp only [List.mem_append, List.mem_cons] at hr ⊢
        have hao : a + NODE_OFFSET ≠ o + NODE_OFFSET := fun h => hne (Nat.add_right_cancel h)
        tauto
      · rwa [Function.update_of_ne he]
  refine ⟨⟨_, hi'⟩, funext fun key' => ?_⟩
  by_cases he : key' = key
  · subst he
    rw [Function.update_self]
    refine hi'.lookup_none fun r hr => ?_
    rw [Function.update_self] at hr
    rw [keyOf]
    exact hgone r hr
  · rw [Function.update_of_ne he]
    rcases hi.lookup_cases key' with ⟨hnone, hno⟩ | ⟨r, hr, hk', hsome⟩
    · rw [hnone]
      refine hi'.lookup_none fun r hr => ?_
      rw [keyOf]
      by_cases hs : key'.toNat % B = key.toNat % B
      · rw [hs, Function.update_self] at hr
        exact hno r (by rw [hs]; exact hkept r hr)
      · rw [Function.update_of_ne hs] at hr
        exact hno r hr
    · have hmem : r ∈ Function.update chains (key.toNat % B) (xs ++ ys) (key'.toNat % B) := by
        by_cases hs : key'.toNat % B = key.toNat % B
        · rw [hs, hseq] at hr
          rw [hs, Function.update_self]
          simp only [List.mem_append, List.mem_cons] at hr ⊢
          have hro : r ≠ o + NODE_OFFSET := fun h => he (hk'.symm.trans (h ▸ hk))
          tauto
        · rwa [Function.update_of_ne hs]
      rw [hsome, hi'.lookup_some hmem (by rw [keyOf, hk']), valueOf]

/-- The first node of a bucket is unlinked by moving the bucket on. -/
theorem unlinkHead {ys : List Nat} (hi : Inv T P B N m chains out free lost) (ho : o ∈ out)
    (hseq : chains (key.toNat % B) = (o + NODE_OFFSET) :: ys)
    (hk : m.keyOf (o + NODE_OFFSET) = key) :
    (∃ chains', Inv T P B N (Store.apply (Write.bucket ((key.toNat % B : Nat) : Int)
      (m.nextOf (o + NODE_OFFSET))) m) chains' (out.erase o) free (o :: lost)) ∧
      lookup (Store.apply (Write.bucket ((key.toNat % B : Nat) : Int)
        (m.nextOf (o + NODE_OFFSET))) m) = Function.update (lookup m) key none := by
  have hbucket : ∀ i : Nat, (Store.apply (Write.bucket ((key.toNat % B : Nat) : Int)
      (m.nextOf (o + NODE_OFFSET))) m).buckets i =
      if i = key.toNat % B then m.nextOf (o + NODE_OFFSET) else m.buckets i := by
    intro i
    change (if (i : Int) = ((key.toNat % B : Nat) : Int) then _ else _) = _
    simp only [Nat.cast_inj]
  have hseq' : chains (key.toNat % B) = [] ++ (o + NODE_OFFSET) :: ys := hseq
  refine hi.unlinked ho hseq' hk hi.pool rfl rfl rfl rfl rfl ?_ fun i h he => ?_
  · rw [hbucket, if_pos rfl]
    have hchain := hi.chain _ (hi.slot_lt key)
    rw [hseq] at hchain
    exact hchain.2
  · rw [hbucket, if_neg he]
    exact hi.chain i h

/-- Another node is unlinked by leading the node before it past it. -/
theorem unlinkNext {xs ys : List Nat} {q : Nat} (hi : Inv T P B N m chains out free lost)
    (ho : o ∈ out) (hseq : chains (key.toNat % B) = xs ++ q :: (o + NODE_OFFSET) :: ys)
    (hk : m.keyOf (o + NODE_OFFSET) = key) :
    (∃ chains', Inv T P B N (Store.apply (Write.pool (.node q { (m.pool.node q) with
      next := m.nextOf (o + NODE_OFFSET) })) m) chains' (out.erase o) free (o :: lost)) ∧
      lookup (Store.apply (Write.pool (.node q { (m.pool.node q) with
        next := m.nextOf (o + NODE_OFFSET) })) m) = Function.update (lookup m) key none := by
  generalize hm' : Store.apply (Write.pool (.node q { (m.pool.node q) with
    next := m.nextOf (o + NODE_OFFSET) })) m = m'
  have hnode : ∀ s, m'.pool.node s = if s = q then { (m.pool.node q) with
      next := m.nextOf (o + NODE_OFFSET) } else m.pool.node s := by
    intro s
    rw [← hm']
    rfl
  have hkeyOf : m'.keyOf = m.keyOf := by
    funext s
    unfold Mem.keyOf
    rw [hnode]
    split
    next he => rw [he]
    next => rfl
  have hvalueOf : m'.valueOf = m.valueOf := by
    funext s
    unfold Mem.valueOf
    rw [hnode]
    split
    next he => rw [he]
    next => rfl
  have hnextq : m'.nextOf q = m.nextOf (o + NODE_OFFSET) := by
    unfold Mem.nextOf
    rw [hnode, if_pos rfl]
    rfl
  have hnext : ∀ s, s ≠ q → m'.nextOf s = m.nextOf s := by
    intro s hs
    unfold Mem.nextOf
    rw [hnode, if_neg hs]
  have hbuckets : m'.buckets = m.buckets := by
    rw [← hm']
    rfl
  have hlt := hi.slot_lt key
  have hchain := hi.chain _ hlt
  have hnd := hi.nodup hlt
  rw [hseq] at hchain hnd
  have hseq' : chains (key.toNat % B) = (xs ++ [q]) ++ (o + NODE_OFFSET) :: ys := by
    rw [hseq]
    simp
  have hq : q ∈ chains (key.toNat % B) := by
    rw [hseq]
    simp
  refine hi.unlinked ho hseq' hk ?_ ?_ ?_ ?_ hkeyOf hvalueOf ?_ fun i h he => ?_
  · rw [← hm']
    exact hi.pool.storeNode _ _
  · rw [← hm']
    rfl
  · rw [← hm']
    rfl
  · rw [← hm']
    rfl
  · rw [hbuckets, List.append_assoc]
    exact hchain.bypass hnd hnextq hnext
  · rw [hbuckets]
    refine (hi.chain i h).congr fun r hr => hnext r fun hrq => he ?_
    rw [← hi.place i h r hr, hrq]
    exact hi.place _ hlt q hq

end Inv

end Jump.MemPool.Hash
