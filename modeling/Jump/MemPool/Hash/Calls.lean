import Jump.MemPool.Hash.Effects

/-! # What the calls of a `HashMemPool` return and write -/

namespace Jump.MemPool.Hash

open Jump.Core Prog Fixed

variable {V : Type} {T : Params V} {P : Mapping} {B N : Nat} {m : Mem V}
  {chains : Nat → List Nat} {out free lost : List Nat} {o : Nat} {key : UInt64}

/-! ## Access to a node -/

section Access

variable {S : Nat}

theorem deref_node (hf : Fits P N S) (ho : Inside P S o) :
    deref P (o + NODE_OFFSET) = nodeAt P o := by
  have hb := hf.le_blockSize
  have hle := ho.2
  rw [nodeAt, Nat.add_assoc]
  exact hf.deref_eq (by omega)

theorem ref_node (hf : Fits P N S) (ho : Inside P S o) : ref P (nodeAt P o) = o + NODE_OFFSET := by
  have hb := hf.le_blockSize
  have hle := ho.2
  rw [nodeAt, Nat.add_assoc]
  exact hf.ref_eq (by omega)

theorem accessible_node (hf : Fits P N S) (ho : Inside P S o) : Accessible P (nodeAt P o) S := by
  have hb := hf.le_blockSize
  have hle := ho.2
  have hlow := ho.1
  rw [Accessible, ref_node hf ho]
  omega

theorem node_eq (hf : Fits P N T.nodeSize) (ho : Inside P T.nodeSize o) :
    (node T P (nodeAt P o) : Act V (HashNode V)) =
      .read fun m => m.pool.node (o + NODE_OFFSET) := by
  rw [node, if_pos (accessible_node hf ho), ref_node hf ho]

theorem setNode_eq (hf : Fits P N T.nodeSize) (ho : Inside P T.nodeSize o) (b : HashNode V) :
    (setNode T P (nodeAt P o) b : Act V Unit) = .write (.pool (.node (o + NODE_OFFSET) b)) := by
  rw [setNode, if_pos (accessible_node hf ho), ref_node hf ho]

end Access

theorem Inv.inside (hi : Inv T P B N m chains out free lost) {i r : Nat} (h : i < B)
    (hr : r ∈ chains i) : ∃ o ∈ out, r = o + NODE_OFFSET ∧ Inside P T.nodeSize o := by
  obtain ⟨o, ho, rfl⟩ := hi.linked i h r hr
  exact ⟨o, ho, rfl, hi.pool.inside (Or.inl ho)⟩

/-! ## Searching a bucket -/

theorem index_run (num : m.bucketNum = B) (pos : 0 < B) (small : B < 2 ^ 31) :
    index key m = some (((key.toNat % B : Nat) : Int), []) := by
  have hlt : key.toNat % B < B := Nat.mod_lt _ pos
  rw [index, ← toInt_of_lt (by omega : key.toNat % B < 2 ^ 31), ← num]
  rfl

theorem bucket_run {i : Nat} (num : m.bucketNum = B) (h : i < B) :
    bucket (i : Int) m = some (m.buckets i, []) := by
  rw [bucket, run_read_bind, num, if_pos ⟨by omega, by omega⟩]
  rfl

theorem setBucket_run {i pos : Nat} (num : m.bucketNum = B) (h : i < B) :
    setBucket (i : Int) pos m = some ((), [.bucket i pos]) := by
  rw [setBucket, run_read_bind, num, if_pos ⟨by omega, by omega⟩]
  rfl

/-- The pointer to the first node with the key, in a list of nodes. -/
def findNode (P : Mapping) (m : Mem V) (key : UInt64) (xs : List Nat) : Option Nat :=
  (xs.find? fun r => m.keyOf r = key).map (deref P)

theorem getTurn_hit (hf : Fits P N T.nodeSize) (ho : Inside P T.nodeSize o)
    (hk : m.keyOf (o + NODE_OFFSET) = key) :
    getTurn T P key (o + NODE_OFFSET) m = some (.inr (some (nodeAt P o)), []) := by
  have hne : o + NODE_OFFSET ≠ 0 := by
    unfold NODE_OFFSET
    omega
  have hkey : (m.pool.node (o + NODE_OFFSET)).key = key := hk
  rw [getTurn, if_pos hne, deref_node hf ho, node_eq hf ho, run_read_bind, if_pos hkey]
  rfl

theorem getTurn_miss (hf : Fits P N T.nodeSize) (ho : Inside P T.nodeSize o)
    (hk : m.keyOf (o + NODE_OFFSET) ≠ key) :
    getTurn T P key (o + NODE_OFFSET) m = some (.inl (m.nextOf (o + NODE_OFFSET)), []) := by
  have hne : o + NODE_OFFSET ≠ 0 := by
    unfold NODE_OFFSET
    omega
  have hkey : (m.pool.node (o + NODE_OFFSET)).key ≠ key := hk
  rw [getTurn, if_pos hne, deref_node hf ho, node_eq hf ho, run_read_bind, if_neg hkey]
  rfl

/-- The loop of `GetNode` on the rest of a chain. -/
theorem getLoop_run (hf : Fits P N T.nodeSize) {xs : List Nat} {fuel p : Nat}
    (h : Chain m.nextOf 0 p xs) (hin : ∀ r ∈ xs, ∃ o, r = o + NODE_OFFSET ∧ Inside P T.nodeSize o)
    (enough : xs.length < fuel) :
    loop (getTurn T P key) fuel p m = some (findNode P m key xs, []) := by
  induction xs generalizing fuel p with
  | nil =>
      obtain rfl : p = 0 := h
      cases fuel with
      | zero => simp at enough
      | succ fuel => rfl
  | cons x xs ih =>
      obtain ⟨rfl, ht⟩ := h
      obtain ⟨o, rfl, ho⟩ := hin p List.mem_cons_self
      cases fuel with
      | zero => simp at enough
      | succ fuel =>
          rw [List.length_cons] at enough
          by_cases hk : m.keyOf (o + NODE_OFFSET) = key
          · rw [loop, run_bind (getTurn_hit hf ho hk), findNode,
              List.find?_cons_of_pos (by simpa using hk), Option.map_some, deref_node hf ho]
            rfl
          · have hrest := ih ht (fun r hr => hin r (List.mem_cons_of_mem _ hr))
              (show xs.length < fuel by omega)
            rw [loop, run_bind (getTurn_miss hf ho hk), replay_nil, findNode,
              List.find?_cons_of_neg (by simpa using hk)]
            change Option.map _ (loop (getTurn T P key) fuel (m.nextOf (o + NODE_OFFSET)) m) = _
            rw [hrest]
            rfl

theorem getNode_run (hi : Inv T P B N m chains out free lost) :
    getNode T P key m = some (findNode P m key (chains (key.toNat % B)), []) := by
  have hlt := hi.slot_lt key
  have hlen := hi.length_le hlt
  have hin : ∀ r ∈ chains (key.toNat % B), ∃ o, r = o + NODE_OFFSET ∧ Inside P T.nodeSize o := by
    intro r hr
    obtain ⟨o, -, he, ho⟩ := hi.inside hlt hr
    exact ⟨o, he, ho⟩
  have hloop : loop (getTurn T P key) (m.maxNode + 1) (m.buckets ((key.toNat % B : Nat) : Int)) m =
      some (findNode P m key (chains (key.toNat % B)), []) := by
    refine getLoop_run hi.pool.toFits (hi.chain _ hlt) hin ?_
    rw [hi.maxNode]
    omega
  rw [getNode, run_bind (index_run hi.bucketNum hi.pos hi.small), replay_nil,
    run_bind (bucket_run hi.bucketNum hlt), replay_nil, turns, run_read_bind, hloop]
  rfl

theorem findNode_none (hi : Inv T P B N m chains out free lost) (h : lookup m key = none) :
    findNode P m key (chains (key.toNat % B)) = none := by
  rcases hi.lookup_cases key with ⟨-, hno⟩ | ⟨r, -, -, hsome⟩
  · rw [findNode, List.find?_eq_none.mpr (by simpa using hno)]
    rfl
  · rw [h] at hsome
    cases hsome

/-- A key that is stored is found at its only node. -/
theorem findNode_some (hi : Inv T P B N m chains out free lost) {r : Nat}
    (hr : r ∈ chains (key.toNat % B)) (hk : m.keyOf r = key) :
    findNode P m key (chains (key.toNat % B)) = some (deref P r) := by
  have hinj := hi.keys _ (hi.slot_lt key)
  have hsome : ((chains (key.toNat % B)).find? fun r => m.keyOf r = key).isSome := by
    rw [List.find?_isSome]
    exact ⟨r, hr, by simpa using hk⟩
  obtain ⟨s, hs⟩ := Option.isSome_iff_exists.mp hsome
  have hsk : m.keyOf s = key := by simpa using List.find?_some hs
  have hsame := List.inj_on_of_nodup_map hinj (List.mem_of_find?_eq_some hs) hr (hsk.trans hk.symm)
  rw [findNode, hs, hsame]
  rfl

/-! ## `Alloc` and `Insert` -/

theorem replay_pool (ws : List (Fixed.Write (HashNode V))) (m : Mem V) :
    replay (ws.map Write.pool) m = { m with pool := replay ws m.pool } := by
  induction ws generalizing m with
  | nil => rfl
  | cons w ws ih =>
      rw [List.map_cons, replay_cons, ih]
      rfl

theorem setKey_run (hf : Fits P N T.nodeSize) (ho : Inside P T.nodeSize o) :
    setKey T P (nodeAt P o) key m =
      some ((), [.pool (.node (o + NODE_OFFSET) { (m.pool.node (o + NODE_OFFSET)) with
        key := key })]) := by
  rw [setKey, node_eq hf ho, run_read_bind, setNode_eq hf ho]
  rfl

theorem setValue_run (hf : Fits P N T.nodeSize) (ho : Inside P T.nodeSize o) (v : V) :
    setValue T P (nodeAt P o) v m =
      some ((), [.pool (.node (o + NODE_OFFSET) { (m.pool.node (o + NODE_OFFSET)) with
        value := v })]) := by
  rw [setValue, node_eq hf ho, run_read_bind, setNode_eq hf ho]
  rfl

theorem setNext_run (hf : Fits P N T.nodeSize) (ho : Inside P T.nodeSize o) (n : Nat) :
    Hash.setNext T P (nodeAt P o) n m =
      some ((), [.pool (.node (o + NODE_OFFSET) { (m.pool.node (o + NODE_OFFSET)) with
        next := n })]) := by
  rw [Hash.setNext, node_eq hf ho, run_read_bind, setNode_eq hf ho]
  rfl

/-- The node `Alloc` fills in, in front of the node `first`. -/
def newNode (T : Params V) (key : UInt64) (first : Nat) : HashNode V where
  key := key
  value := T.zeroed
  next := first

/-- The writes of `Alloc` behind those of the pool. -/
def fillWrites (T : Params V) (key : UInt64) (slot o first num : Nat) : List (Write V) :=
  [.pool (.node (o + NODE_OFFSET) (newNode T key 0)),
    .pool (.node (o + NODE_OFFSET) (newNode T key first)),
    .bucket (slot : Int) (o + NODE_OFFSET), .nodeNum (u32 (num + 1))]

/-- The writes of `Alloc` when the pool takes block `o` with the writes `ws`. -/
def allocWrites (T : Params V) (key : UInt64) (slot : Nat) (m : Mem V) (o : Nat)
    (ws : List (Fixed.Write (HashNode V))) : List (Write V) :=
  (ws ++ handOutWrites T.zeroNode true o).map Write.pool ++
    fillWrites T key slot o (m.buckets (slot : Int)) m.nodeNum

theorem linkNode_run (hf : Fits P N T.nodeSize) (ho : Inside P T.nodeSize o)
    (num : m.bucketNum = B) (pos : 0 < B) (small : B < 2 ^ 31)
    (zero : m.pool.node (o + NODE_OFFSET) = T.zeroNode) :
    linkNode T P key (nodeAt P o) m = some ((), fillWrites T key (key.toNat % B) o
      (m.buckets ((key.toNat % B : Nat) : Int)) m.nodeNum) := by
  have hlt : key.toNat % B < B := Nat.mod_lt _ pos
  have hkey : setKey T P (nodeAt P o) key m =
      some ((), [.pool (.node (o + NODE_OFFSET) (newNode T key 0))]) := by
    rw [setKey_run hf ho, zero]
    rfl
  generalize hm₁ : Store.apply (Write.pool (.node (o + NODE_OFFSET) (newNode T key 0))) m = m₁
  have hnum : m₁.bucketNum = B := by rw [← hm₁]; exact num
  have hbuckets : m₁.buckets = m.buckets := by rw [← hm₁]; rfl
  have hcount : m₁.nodeNum = m.nodeNum := by rw [← hm₁]; rfl
  have hnode : m₁.pool.node (o + NODE_OFFSET) = newNode T key 0 := by
    rw [← hm₁]
    exact if_pos rfl
  have hlink : ∀ first : Nat, (do
      Hash.setNext T P (nodeAt P o) first
      setBucket ((key.toNat % B : Nat) : Int) (o + NODE_OFFSET)
      .write (.nodeNum (← .read fun m => u32 (m.nodeNum + 1))) : Act V Unit) m₁ =
      some ((), [.pool (.node (o + NODE_OFFSET) (newNode T key first)),
        .bucket ((key.toNat % B : Nat) : Int) (o + NODE_OFFSET),
        .nodeNum (u32 (m.nodeNum + 1))]) := by
    intro first
    have hset : Hash.setNext T P (nodeAt P o) first m₁ =
        some ((), [.pool (.node (o + NODE_OFFSET) (newNode T key first))]) := by
      rw [setNext_run hf ho, hnode]
      rfl
    rw [run_bind hset]
    simp only [replay_cons, replay_nil]
    have hnum' : (Store.apply (Write.pool (.node (o + NODE_OFFSET) (newNode T key first)))
        m₁).bucketNum = B := hnum
    rw [run_bind (setBucket_run hnum' hlt), run_read_bind, ← hcount]
    rfl
  rw [linkNode, run_bind hkey, replay_cons, replay_nil, hm₁,
    run_bind (index_run hnum pos small), replay_nil, run_bind (bucket_run hnum hlt), replay_nil,
    hbuckets, ref_node hf ho]
  by_cases hfirst : m.buckets ((key.toNat % B : Nat) : Int) = 0
  · rw [if_pos hfirst, hlink 0, hfirst]
    rfl
  · rw [if_neg hfirst, hlink]
    rfl

/-- A stored key is not allocated again. -/
theorem alloc_present (hi : Inv T P B N m chains out free lost) (h : lookup m key ≠ none) :
    Hash.alloc T P key m = some (none, []) := by
  rcases hi.lookup_cases key with ⟨hnone, -⟩ | ⟨r, hr, hk, -⟩
  · exact absurd hnone h
  · have hget : getNode T P key m = _ := getNode_run hi
    rw [findNode_some hi hr hk] at hget
    rw [Hash.alloc, run_bind hget]
    rfl

theorem alloc_no_room (hi : Inv T P B N m chains out free lost) (h : lookup m key = none)
    (hp : Fixed.alloc P T.zeroNode true m.pool = some (none, [])) :
    Hash.alloc T P key m = some (none, []) := by
  have hget : getNode T P key m = _ := getNode_run hi
  rw [findNode_none hi h] at hget
  have hpool : onPool (Fixed.alloc P T.zeroNode true) m = some (none, []) := zoom_run hp
  rw [Hash.alloc, run_bind hget, replay_nil]
  simp only []
  rw [run_bind hpool]
  rfl

theorem alloc_run {ws : List (Fixed.Write (HashNode V))}
    (hi : Inv T P B N m chains out free lost) (h : lookup m key = none)
    (ho : Inside P T.nodeSize o) (hp : Fixed.alloc P T.zeroNode true m.pool =
      some (some (nodeAt P o), ws ++ handOutWrites T.zeroNode true o)) :
    Hash.alloc T P key m =
      some (some (nodeAt P o), allocWrites T key (key.toNat % B) m o ws) := by
  have hget : getNode T P key m = _ := getNode_run hi
  rw [findNode_none hi h] at hget
  have hpool : onPool (Fixed.alloc P T.zeroNode true) m = some (some (nodeAt P o),
      (ws ++ handOutWrites T.zeroNode true o).map Write.pool) := zoom_run hp
  have hzero : (replay (ws ++ handOutWrites T.zeroNode true o) m.pool).node (o + NODE_OFFSET) =
      T.zeroNode := by
    rw [replay_append]
    exact if_pos rfl
  have hlink : linkNode T P key (nodeAt P o) { m with
      pool := replay (ws ++ handOutWrites T.zeroNode true o) m.pool } = _ :=
    linkNode_run hi.pool.toFits ho hi.bucketNum hi.pos hi.small hzero
  rw [Hash.alloc, run_bind hget, replay_nil]
  simp only []
  rw [run_bind hpool, replay_pool]
  simp only []
  rw [run_bind hlink]
  simp [run_pure, allocWrites]

theorem insert_null {v : V} (h : Hash.alloc T P key m = some (none, [])) :
    Hash.insert T P key v m = some (none, []) := by
  rw [Hash.insert, run_bind h]
  rfl

/-- The writes of `Insert`. -/
def insertWrites (T : Params V) (key : UInt64) (slot : Nat) (m : Mem V) (o : Nat)
    (ws : List (Fixed.Write (HashNode V))) (v : V) : List (Write V) :=
  allocWrites T key slot m o ws ++ [.pool (.node (o + NODE_OFFSET)
    { ((replay (allocWrites T key slot m o ws) m).pool.node (o + NODE_OFFSET)) with value := v })]

theorem insert_run {v : V} {slot : Nat} {ws : List (Fixed.Write (HashNode V))}
    (hf : Fits P N T.nodeSize) (ho : Inside P T.nodeSize o)
    (h : Hash.alloc T P key m = some (some (nodeAt P o), allocWrites T key slot m o ws)) :
    Hash.insert T P key v m =
      some (some (nodeAt P o), insertWrites T key slot m o ws v) := by
  rw [Hash.insert, run_bind h]
  simp only []
  rw [run_bind (setValue_run hf ho v)]
  rfl

/-! ## `Free` -/

/-- The write that takes node `r` out of its bucket, behind the node `before`. -/
def unlinkWrite (m : Mem V) (slot : Nat) (before : Option Nat) (r : Nat) : Write V :=
  match before with
  | some q => .pool (.node q { (m.pool.node q) with next := m.nextOf r })
  | none => .bucket (slot : Int) (m.nextOf r)

/-- The writes of `Free`. -/
def freeWrites (m : Mem V) (slot : Nat) (before : Option Nat) (o : Nat) : List (Write V) :=
  [unlinkWrite m slot before (o + NODE_OFFSET), .nodeNum (u32 (2 ^ 32 - 1 + m.nodeNum)),
    .pool (.next o m.pool.freeList), .pool (.freeList o)]

theorem freeTurn_miss {prev : Option Nat} {slot : Int} (hf : Fits P N T.nodeSize)
    (ho : Inside P T.nodeSize o) (hk : m.keyOf (o + NODE_OFFSET) ≠ key) :
    freeTurn T P key slot (prev, o + NODE_OFFSET) m =
      some (.inl (some (nodeAt P o), m.nextOf (o + NODE_OFFSET)), []) := by
  have hne : o + NODE_OFFSET ≠ 0 := by
    unfold NODE_OFFSET
    omega
  have hkey : (m.pool.node (o + NODE_OFFSET)).key ≠ key := hk
  simp only [freeTurn]
  rw [if_pos hne, deref_node hf ho, node_eq hf ho, run_read_bind, if_neg hkey]
  rfl

/-- The end of `Free`, when the node is unlinked. -/
theorem giveBack_run (hp : Fixed.Inv P N T.nodeSize m.pool out free lost) (ho : o ∈ out) :
    (do
      .write (.nodeNum (← .read fun m => u32 (2 ^ 32 - 1 + m.nodeNum)))
      let ret ← onPool (Fixed.free P (nodeAt P o))
      if ret ≠ 0 then return .inr FAILED else return .inr OK :
        Act V ((Option Nat × Nat) ⊕ Int)) m =
      some (.inr OK, [.nodeNum (u32 (2 ^ 32 - 1 + m.nodeNum)),
        .pool (.next o m.pool.freeList), .pool (.freeList o)]) := by
  have hfree : onPool (Fixed.free P (nodeAt P o))
      (Store.apply (Write.nodeNum (u32 (2 ^ 32 - 1 + m.nodeNum))) m) =
      some (0, [.pool (.next o m.pool.freeList), .pool (.freeList o)]) :=
    zoom_run (free_used hp ho)
  rw [run_read_bind, run_write_bind, run_bind hfree]
  rfl

theorem freeTurn_hit {before : Option Nat} (hi : Inv T P B N m chains out free lost)
    (ho : o ∈ out) (hk : m.keyOf (o + NODE_OFFSET) = key)
    (hb : ∀ q ∈ before, q ∈ chains (key.toNat % B)) :
    freeTurn T P key ((key.toNat % B : Nat) : Int) (before.map (deref P), o + NODE_OFFSET) m =
      some (.inr OK, freeWrites m (key.toNat % B) before o) := by
  have hf := hi.pool.toFits
  have hin := hi.pool.inside (Or.inl ho)
  have hlt := hi.slot_lt key
  have hne : o + NODE_OFFSET ≠ 0 := by
    unfold NODE_OFFSET
    omega
  have hkey : (m.pool.node (o + NODE_OFFSET)).key = key := hk
  simp only [freeTurn]
  rw [if_pos hne, deref_node hf hin, node_eq hf hin, run_read_bind, if_pos hkey]
  cases before with
  | none =>
      simp only [Option.map_none]
      rw [run_bind (setBucket_run hi.bucketNum hlt)]
      simp only [replay_cons, replay_nil]
      rw [giveBack_run (m := Store.apply (Write.bucket ((key.toNat % B : Nat) : Int)
        (m.pool.node (o + NODE_OFFSET)).next) m) hi.pool ho]
      rfl
  | some q =>
      obtain ⟨a, -, rfl, ha⟩ := hi.inside hlt (hb q rfl)
      simp only [Option.map_some]
      rw [deref_node hf ha, run_bind (setNext_run hf ha _)]
      simp only [replay_cons, replay_nil]
      rw [giveBack_run (m := Store.apply (Write.pool (.node (a + NODE_OFFSET)
        { (m.pool.node (a + NODE_OFFSET)) with next := (m.pool.node (o + NODE_OFFSET)).next })) m)
        (hi.pool.storeNode _ _) ho]
      rfl

/-- The loop of `Free` on the rest of a chain without the key. -/
theorem freeLoop_miss (hf : Fits P N T.nodeSize) {slot : Int} {xs : List Nat} {fuel p : Nat}
    {prev : Option Nat} (h : Chain m.nextOf 0 p xs)
    (hin : ∀ r ∈ xs, ∃ o, r = o + NODE_OFFSET ∧ Inside P T.nodeSize o)
    (hk : ∀ r ∈ xs, m.keyOf r ≠ key) (enough : xs.length < fuel) :
    loop (freeTurn T P key slot) fuel (prev, p) m = some (FAILED, []) := by
  induction xs generalizing fuel p prev with
  | nil =>
      obtain rfl : p = 0 := h
      cases fuel with
      | zero => simp at enough
      | succ fuel => rfl
  | cons x xs ih =>
      obtain ⟨rfl, ht⟩ := h
      obtain ⟨o, rfl, ho⟩ := hin p List.mem_cons_self
      cases fuel with
      | zero => simp at enough
      | succ fuel =>
          rw [List.length_cons] at enough
          have hrest : loop (freeTurn T P key slot) fuel
              (some (nodeAt P o), m.nextOf (o + NODE_OFFSET)) m = some (FAILED, []) :=
            ih ht (fun r hr => hin r (List.mem_cons_of_mem _ hr))
              (fun r hr => hk r (List.mem_cons_of_mem _ hr)) (by omega)
          rw [loop, run_bind (freeTurn_miss hf ho (hk _ List.mem_cons_self)), replay_nil]
          simp only []
          rw [hrest]
          rfl

/-- The loop of `Free` on the rest of a chain in which the key comes behind `xs`. -/
theorem freeLoop_hit (hi : Inv T P B N m chains out free lost) {xs ys : List Nat} {fuel p : Nat}
    {before : Option Nat} (h : Chain m.nextOf 0 p (xs ++ (o + NODE_OFFSET) :: ys))
    (hin : ∀ r ∈ xs, r ∈ chains (key.toNat % B)) (hb : ∀ q ∈ before, q ∈ chains (key.toNat % B))
    (hx : ∀ r ∈ xs, m.keyOf r ≠ key) (ho : o ∈ out) (hk : m.keyOf (o + NODE_OFFSET) = key)
    (enough : xs.length < fuel) :
    loop (freeTurn T P key ((key.toNat % B : Nat) : Int)) fuel (before.map (deref P), p) m =
      some (OK, freeWrites m (key.toNat % B) (xs.getLast?.or before) o) := by
  induction xs generalizing fuel p before with
  | nil =>
      obtain ⟨rfl, -⟩ := h
      cases fuel with
      | zero => simp at enough
      | succ fuel =>
          rw [loop, run_bind (freeTurn_hit hi ho hk hb)]
          simp [run_pure]
  | cons x xs ih =>
      obtain ⟨rfl, ht⟩ := h
      obtain ⟨a, -, rfl, ha⟩ := hi.inside (hi.slot_lt key) (hin p List.mem_cons_self)
      have hf := hi.pool.toFits
      cases fuel with
      | zero => simp at enough
      | succ fuel =>
          rw [List.length_cons] at enough
          have hlast : ∀ q ∈ some (a + NODE_OFFSET), q ∈ chains (key.toNat % B) := by
            intro q hq
            rw [Option.mem_some_iff] at hq
            rw [← hq]
            exact hin _ List.mem_cons_self
          have hrest := ih ht (fun r hr => hin r (List.mem_cons_of_mem _ hr)) hlast
            (fun r hr => hx r (List.mem_cons_of_mem _ hr)) (show xs.length < fuel by omega)
          rw [Option.map_some, deref_node hf ha] at hrest
          have hlast : ((a + NODE_OFFSET) :: xs).getLast?.or before =
              xs.getLast?.or (some (a + NODE_OFFSET)) := by
            cases xs with
            | nil => rfl
            | cons y ys =>
                rw [List.getLast?_cons_cons]
                obtain ⟨z, hz⟩ : ∃ z, (y :: ys).getLast? = some z :=
                  ⟨_, List.getLast?_eq_getLast_of_ne_nil (by simp)⟩
                rw [hz]
                rfl
          rw [loop, run_bind (freeTurn_miss hf ha (hx _ List.mem_cons_self)), replay_nil]
          simp only []
          rw [hrest, hlast]
          simp

theorem free_absent (hi : Inv T P B N m chains out free lost) (h : lookup m key = none) :
    Hash.free T P key m = some (FAILED, []) := by
  have hlt := hi.slot_lt key
  have hlen := hi.length_le hlt
  rcases hi.lookup_cases key with ⟨-, hno⟩ | ⟨r, -, -, hsome⟩
  · have hin : ∀ r ∈ chains (key.toNat % B), ∃ o, r = o + NODE_OFFSET ∧ Inside P T.nodeSize o := by
      intro r hr
      obtain ⟨o, -, he, ho⟩ := hi.inside hlt hr
      exact ⟨o, he, ho⟩
    have hloop : loop (freeTurn T P key ((key.toNat % B : Nat) : Int)) (m.maxNode + 1)
        (none, m.buckets ((key.toNat % B : Nat) : Int)) m = some (FAILED, []) := by
      refine freeLoop_miss hi.pool.toFits (hi.chain _ hlt) hin hno ?_
      rw [hi.maxNode]
      omega
    rw [Hash.free, run_bind (index_run hi.bucketNum hi.pos hi.small), replay_nil,
      run_bind (bucket_run hi.bucketNum hlt), replay_nil, turns, run_read_bind, hloop]
    rfl
  · rw [h] at hsome
    cases hsome

theorem free_run (hi : Inv T P B N m chains out free lost) {xs ys : List Nat} (ho : o ∈ out)
    (hseq : chains (key.toNat % B) = xs ++ (o + NODE_OFFSET) :: ys)
    (hk : m.keyOf (o + NODE_OFFSET) = key) :
    Hash.free T P key m = some (OK, freeWrites m (key.toNat % B) xs.getLast? o) := by
  have hlt := hi.slot_lt key
  have hlen := hi.length_le hlt
  have hchain := hi.chain _ hlt
  have hx : ∀ r ∈ xs, m.keyOf r ≠ key := by
    have hinj := hi.keys _ hlt
    rw [hseq, List.map_append, List.map_cons] at hinj
    intro r hr
    have hne := (List.nodup_append.mp hinj).2.2 (m.keyOf r) (List.mem_map_of_mem hr)
      (m.keyOf (o + NODE_OFFSET)) List.mem_cons_self
    rwa [hk] at hne
  have hin : ∀ r ∈ xs, r ∈ chains (key.toNat % B) := fun r hr => by
    rw [hseq]
    exact List.mem_append_left _ hr
  rw [hseq] at hchain hlen
  have hnone : ∀ q ∈ (none : Option Nat), q ∈ chains (key.toNat % B) := by simp
  have hfuel : xs.length < m.maxNode + 1 := by
    rw [hi.maxNode]
    rw [List.length_append] at hlen
    omega
  have hloop := freeLoop_hit hi hchain hin hnone hx ho hk hfuel
  rw [Option.or_none, Option.map_none] at hloop
  rw [Hash.free, run_bind (index_run hi.bucketNum hi.pos hi.small), replay_nil,
    run_bind (bucket_run hi.bucketNum hlt), replay_nil, turns, run_read_bind, hloop]
  rfl

end Jump.MemPool.Hash
