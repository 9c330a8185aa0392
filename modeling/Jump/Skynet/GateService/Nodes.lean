import Jump.Core.Ring
import Jump.Skynet.GateService.Code
import Mathlib.Data.List.Nodup
import Mathlib.Data.List.Perm.Subperm

/-! # Nodes and bytes

Every operation on the buffer of a connection moves nodes between its list and the free list.
What the buffer holds is the bytes of its nodes from the offset on.
-/

namespace Jump.Skynet.GateService

open Jump.Core

/-! ## The nodes of a connection -/

def MessagePool.next (mp : MessagePool) (p : Nat) : Nat := (mp.message p).next

/-- The nodes of the connection and those of the free list are separate, and all in the pool. -/
structure Linked (db : DataBuffer) (mp : MessagePool) (nodes free : List Nat) : Prop where
  chain : Chain mp.next 0 db.head nodes
  tail : db.tail = nodes.getLastD 0
  freelist : Chain mp.next 0 mp.freelist free
  nodup : (nodes ++ free).Nodup
  range : ∀ p ∈ nodes ++ free, 0 < p ∧ p ≤ mp.limit

def MessagePool.contents (mp : MessagePool) (nodes : List Nat) : List UInt8 :=
  nodes.flatMap fun p => (mp.message p).buffer

/-- The nodes hold the bytes, from the offset in the first one on. -/
structure Holds (db : DataBuffer) (mp : MessagePool) (nodes free : List Nat)
    (bytes : List UInt8) : Prop extends Linked db mp nodes free where
  filled : ∀ p ∈ nodes, (mp.message p).size = (mp.message p).buffer.length ∧
    0 < (mp.message p).size
  offset : ∀ p ∈ nodes.head?, db.offset < (mp.message p).size
  offset_nil : nodes = [] → db.offset = 0
  bytes : (mp.contents nodes).drop db.offset = bytes

/-- What an operation may do to the nodes: it moves those it has, adds new ones and leaves the
others as they are. -/
structure Effect (mp : MessagePool) (own : List Nat) (mp' : MessagePool) (own' : List Nat) :
    Prop where
  pool : mp.limit ≤ mp'.limit
  perm : own'.Perm (own ++ List.range' (mp.limit + 1) (mp'.limit - mp.limit))
  frame : ∀ p, p ∉ own → p ≤ mp.limit → mp'.message p = mp.message p

variable {db db' : DataBuffer} {mp mp' mp'' : MessagePool} {nodes free own own' own'' : List Nat}
  {bytes : List UInt8}

theorem Effect.refl (mp : MessagePool) (own : List Nat) : Effect mp own mp own where
  pool := Nat.le_refl _
  perm := by
    rw [Nat.sub_self, List.range'_zero, List.append_nil]
  frame _ _ _ := rfl

theorem Effect.trans (h : Effect mp own mp' own') (h' : Effect mp' own' mp'' own'') :
    Effect mp own mp'' own'' where
  pool := Nat.le_trans h.pool h'.pool
  perm := by
    have hpool := h.pool
    have hpool' := h'.pool
    have hsum : mp''.limit - mp.limit = (mp'.limit - mp.limit) + (mp''.limit - mp'.limit) := by
      omega
    have hstart : mp.limit + 1 + (mp'.limit - mp.limit) = mp'.limit + 1 := by omega
    rw [hsum, ← List.range'_append_1, ← List.append_assoc, hstart]
    exact h'.perm.trans (h.perm.append_right _)
  frame := by
    intro p hp hle
    have hown' : p ∉ own' := by
      intro hmem
      rcases List.mem_append.mp (h.perm.mem_iff.mp hmem) with hmem | hmem
      · exact hp hmem
      · rw [List.mem_range'_1] at hmem
        omega
    rw [h'.frame p hown' (Nat.le_trans hle h.pool), h.frame p hp hle]

/-- An operation on nodes it already has. -/
theorem Effect.of_perm (hpool : mp'.pool = mp.pool) (hperm : own'.Perm own)
    (hframe : ∀ p, p ∉ own → mp'.message p = mp.message p) : Effect mp own mp' own' := by
  have hlimit : mp'.limit = mp.limit := by
    unfold MessagePool.limit
    rw [hpool]
  refine ⟨Nat.le_of_eq hlimit.symm, ?_, fun p hp _ => hframe p hp⟩
  rw [hlimit, Nat.sub_self, List.range'_zero, List.append_nil]
  exact hperm

theorem contents_congr (h : ∀ p ∈ nodes, mp'.message p = mp.message p) :
    mp'.contents nodes = mp.contents nodes := by
  unfold MessagePool.contents
  refine List.flatMap_congr fun p hp => ?_
  rw [h p hp]

theorem chain_congr {p : Nat} (hchain : Chain mp.next 0 p nodes)
    (h : ∀ p ∈ nodes, mp'.message p = mp.message p) : Chain mp'.next 0 p nodes := by
  refine hchain.congr fun q hq => ?_
  unfold MessagePool.next
  rw [h q hq]

theorem Linked.zero (mp : MessagePool) (hfree : Chain mp.next 0 mp.freelist free)
    (hnodup : free.Nodup) (hrange : ∀ p ∈ free, 0 < p ∧ p ≤ mp.limit) :
    Linked .zero mp [] free :=
  ⟨rfl, rfl, hfree, hnodup, hrange⟩

/-! ## `_return_message` -/

theorem returnMessage_linked {p : Nat} (h : Linked db mp (p :: nodes) free) :
    ∃ head tail mp', returnMessage db mp = some ({ db with head := head, tail := tail }, mp') ∧
      Linked { db with head := head, tail := tail } mp' nodes (p :: free) ∧
      mp'.pool = mp.pool ∧ ∀ q, q ≠ p → mp'.message q = mp.message q := by
  obtain ⟨hhead, hrest⟩ := h.chain
  have hpos : p ≠ 0 := Nat.ne_of_gt (h.range p List.mem_cons_self).1
  have hnodup := h.nodup
  rw [List.cons_append, List.nodup_cons, List.mem_append, not_or] at hnodup
  obtain ⟨⟨hnodes, hfree⟩, hrestnodup⟩ := hnodup
  have hmove : (nodes ++ p :: free).Perm (p :: nodes ++ free) := List.perm_middle
  have hframe : ∀ q, q ≠ p →
      Function.update mp.message p ⟨[], 0, mp.freelist⟩ q = mp.message q :=
    fun q hq => Function.update_of_ne hq ..
  have hfree' : Chain (fun q => (Function.update mp.message p ⟨[], 0, mp.freelist⟩ q).next) 0 p
      (p :: free) := by
    refine ⟨rfl, ?_⟩
    dsimp only
    rw [Function.update_self]
    refine h.freelist.congr fun q hq => ?_
    rw [hframe q fun heq => hfree (heq ▸ hq)]
    rfl
  have hrange : ∀ q ∈ nodes ++ p :: free, 0 < q ∧ q ≤ mp.limit :=
    fun q hq => h.range q (hmove.mem_iff.mp hq)
  have hnodes' : Chain (fun q => (Function.update mp.message p ⟨[], 0, mp.freelist⟩ q).next) 0
      (mp.message p).next nodes := by
    refine hrest.congr fun q hq => ?_
    rw [hframe q fun heq => hnodes (heq ▸ hq)]
    rfl
  unfold returnMessage
  dsimp only
  rw [hhead, if_neg hpos]
  by_cases hend : (mp.message p).next = 0
  · have hnil : nodes = [] := by
      have hstop : 0 ∉ nodes := fun hmem =>
        absurd (h.range 0 (List.mem_cons_of_mem p (List.mem_append_left _ hmem))).1 (by decide)
      exact hrest.eq_nil hstop hend
    subst hnil
    have htail : db.tail = p := h.tail
    rw [if_pos hend, if_pos htail]
    exact ⟨0, 0, _, rfl, ⟨rfl, rfl, hfree', hmove.nodup_iff.mpr h.nodup, hrange⟩, rfl, hframe⟩
  · rw [if_neg hend]
    have htail : db.tail = nodes.getLastD 0 := by
      cases nodes with
      | nil => exact absurd hrest hend
      | cons q nodes => exact h.tail
    exact ⟨(mp.message p).next, db.tail, _, rfl,
      ⟨hnodes', htail, hfree', hmove.nodup_iff.mpr h.nodup, hrange⟩, rfl, hframe⟩

theorem Linked.effect_return {p : Nat} (h : Linked db mp (p :: nodes) free)
    (hpool : mp'.pool = mp.pool) (hframe : ∀ q, q ≠ p → mp'.message q = mp.message q) :
    Effect mp (p :: nodes ++ free) mp' (nodes ++ p :: free) := by
  refine .of_perm hpool List.perm_middle fun q hq => hframe q ?_
  rintro rfl
  exact hq List.mem_cons_self

/-- The first node's bytes are behind the offset once it is returned. -/
theorem Holds.returned {p offset : Nat} (h : Holds db mp (p :: nodes) free bytes)
    (hlinked : Linked db' mp' nodes (p :: free)) (hoffset : db'.offset = 0)
    (hframe : ∀ q, q ≠ p → mp'.message q = mp.message q)
    (hlen : offset = (mp.message p).size - db.offset) :
    Holds db' mp' nodes (p :: free) (bytes.drop offset) := by
  have hfirst := h.filled p List.mem_cons_self
  have hoff := h.offset p rfl
  have hnodes : p ∉ nodes := by
    have hnodup := h.nodup
    rw [List.cons_append, List.nodup_cons, List.mem_append, not_or] at hnodup
    exact hnodup.1.1
  have hsame : ∀ q ∈ nodes, mp'.message q = mp.message q :=
    fun q hq => hframe q fun heq => hnodes (heq ▸ hq)
  refine ⟨hlinked, ?_, ?_, fun _ => hoffset, ?_⟩
  · intro q hq
    rw [hsame q hq]
    exact h.filled q (List.mem_cons_of_mem p hq)
  · intro q hq
    have hmem := List.mem_of_mem_head? hq
    rw [hoffset, hsame q hmem]
    exact (h.filled q (List.mem_cons_of_mem p hmem)).2
  · rw [hoffset, List.drop_zero, contents_congr hsame, ← h.bytes, List.drop_drop]
    have hsum : db.offset + offset = (mp.message p).buffer.length := by omega
    rw [hsum]
    exact (List.drop_left ..).symm

/-- The bytes of the first node from the offset on are the first ones. -/
theorem Holds.first {p n : Nat} (h : Holds db mp (p :: nodes) free bytes)
    (hn : n ≤ (mp.message p).size - db.offset) :
    ((mp.message p).buffer.drop db.offset).take n = bytes.take n := by
  have hfirst := h.filled p List.mem_cons_self
  have hoff := h.offset p rfl
  rw [← h.bytes]
  show _ = (((mp.message p).buffer ++ mp.contents nodes).drop db.offset).take n
  rw [List.drop_append_of_le_length (by omega), List.take_append_of_le_length]
  rw [List.length_drop]
  omega

theorem Holds.of_fields (h : Holds db mp nodes free bytes) (hhead : db'.head = db.head)
    (htail : db'.tail = db.tail) (hoffset : db'.offset = db.offset) :
    Holds db' mp nodes free bytes where
  chain := hhead ▸ h.chain
  tail := htail.trans h.tail
  freelist := h.freelist
  nodup := h.nodup
  range := h.range
  filled := h.filled
  offset := hoffset ▸ h.offset
  offset_nil hnil := hoffset.trans (h.offset_nil hnil)
  bytes := hoffset ▸ h.bytes

/-! ## `databuffer_read` -/

theorem readLoop_holds {fuel sz : Nat} (h : Holds db mp nodes free bytes) (hpos : 0 < sz)
    (hsz : sz ≤ bytes.length) (hfuel : sz < fuel) :
    ∃ db' mp' nodes' free', readLoop fuel db mp sz = some (bytes.take sz, db', mp') ∧
      Holds db' mp' nodes' free' (bytes.drop sz) ∧ db'.header = db.header ∧ db'.size = db.size ∧
      Effect mp (nodes ++ free) mp' (nodes' ++ free') := by
  induction nodes generalizing db mp free bytes fuel sz with
  | nil =>
      have hnil : bytes = [] := h.bytes.symm.trans List.drop_nil
      rw [hnil, List.length_nil] at hsz
      omega
  | cons p nodes ih =>
      obtain ⟨fuel, rfl⟩ := Nat.exists_eq_succ_of_ne_zero (Nat.ne_of_gt (Nat.zero_lt_of_lt hfuel))
      obtain rfl : db.head = p := h.chain.1
      have hp : db.head ≠ 0 := Nat.ne_of_gt (h.range db.head List.mem_cons_self).1
      have hoff := h.offset db.head rfl
      have hfirst := h.filled db.head List.mem_cons_self
      rw [readLoop]
      dsimp only
      rw [if_neg hp]
      by_cases hless : sz < (mp.message db.head).size - db.offset
      · rw [if_pos hless, h.first (Nat.le_of_lt hless)]
        refine ⟨_, mp, db.head :: nodes, free, rfl, ?_, rfl, rfl, .refl ..⟩
        refine ⟨⟨h.chain, h.tail, h.freelist, h.nodup, h.range⟩, h.filled, ?_, nofun, ?_⟩
        · intro q hq
          obtain rfl := Option.some.inj hq
          show db.offset + sz < _
          omega
        · show (mp.contents (db.head :: nodes)).drop (db.offset + sz) = _
          rw [← List.drop_drop, h.bytes]
      · rw [if_neg hless]
        by_cases heq : (mp.message db.head).size - db.offset = sz
        · rw [if_pos heq, h.first (Nat.le_of_eq heq.symm)]
          have hlinked : Linked { db with offset := 0 } mp (db.head :: nodes) free :=
            ⟨h.chain, h.tail, h.freelist, h.nodup, h.range⟩
          obtain ⟨head, tail, mp', hret, hlinked', hpool, hframe⟩ := returnMessage_linked hlinked
          rw [hret]
          exact ⟨_, mp', nodes, db.head :: free, rfl, h.returned hlinked' rfl hframe heq.symm,
            rfl, rfl,
            h.effect_return hpool hframe⟩
        · rw [if_neg heq]
          obtain ⟨head, tail, mp₁, hret, hlinked₁, hpool, hframe⟩ := returnMessage_linked h.toLinked
          have hlinked' : Linked { db with head := head, tail := tail, offset := 0 } mp₁ nodes
              (db.head :: free) :=
                ⟨hlinked₁.chain, hlinked₁.tail, hlinked₁.freelist, hlinked₁.nodup,
            hlinked₁.range⟩
          have hmore := h.returned hlinked' rfl hframe rfl
          obtain ⟨db', mp', nodes', free', hloop, hholds, hheader, hsize, heffect⟩ :=
            ih hmore (show 0 < sz - ((mp.message db.head).size - db.offset) by omega)
              (by rw [List.length_drop]; omega) (show _ < fuel by omega)
          rw [hret, Option.bind_some]
          dsimp only
          rw [hloop, h.first (Nat.le_refl _)]
          have htake : bytes.take ((mp.message db.head).size - db.offset) ++
              (bytes.drop ((mp.message db.head).size - db.offset)).take
                (sz - ((mp.message db.head).size - db.offset)) = bytes.take sz := by
            rw [← List.take_add]
            congr 1
            omega
          have hdrop : (bytes.drop ((mp.message db.head).size - db.offset)).drop
              (sz - ((mp.message db.head).size - db.offset)) = bytes.drop sz := by
            rw [List.drop_drop]
            congr 1
            omega
          rw [hdrop] at hholds
          refine ⟨db', mp', nodes', free', ?_, hholds, hheader, hsize,
            (h.effect_return hpool hframe).trans heffect⟩
          rw [← htake]
          rfl

theorem databufferRead_holds {sz : Nat} (h : Holds db mp nodes free bytes)
    (hsize : db.size = bytes.length) (hpos : 0 < sz) (hsz : sz ≤ bytes.length) :
    ∃ db' mp' nodes' free', databufferRead db mp sz = some (bytes.take sz, db', mp') ∧
      Holds db' mp' nodes' free' (bytes.drop sz) ∧ db'.size = (bytes.drop sz).length ∧
      db'.header = db.header ∧ Effect mp (nodes ++ free) mp' (nodes' ++ free') := by
  have h' : Holds { db with size := db.size - sz } mp nodes free bytes := h.of_fields rfl rfl rfl
  obtain ⟨db', mp', nodes', free', hloop, hholds, hheader, hsize', heffect⟩ :=
    readLoop_holds h' hpos hsz (Nat.lt_succ_self sz)
  unfold databufferRead
  rw [if_neg (by omega)]
  refine ⟨db', mp', nodes', free', hloop, hholds, ?_, hheader, heffect⟩
  rw [hsize', List.length_drop, ← hsize]

/-! ## `databuffer_push` -/

/-- The nodes of a new list, from `start` on. -/
theorem chain_newList {next : Nat → Nat} {first : Nat}
    (hnext : ∀ p, first < p → p < first + MESSAGEPOOL →
      next p = if p + 1 < first + MESSAGEPOOL then p + 1 else 0)
    {start n : Nat} (hfirst : first < start) (hend : start + n = first + MESSAGEPOOL) :
    Chain next 0 (if start < first + MESSAGEPOOL then start else 0) (List.range' start n) := by
  induction n generalizing start with
  | zero =>
      rw [if_neg (by omega)]
      rfl
  | succ n ih =>
      rw [if_pos (by omega)]
      refine ⟨rfl, ?_⟩
      rw [hnext start hfirst (by omega)]
      exact ih (Nat.lt_succ_of_lt hfirst) (by omega)

theorem takeMessage_spec (h : Linked db mp nodes free) :
    ∃ m mp' free', takeMessage mp = (m, mp') ∧ Chain mp'.next 0 mp'.freelist free' ∧
      mp.limit ≤ mp'.limit ∧
      (m :: free').Perm (free ++ List.range' (mp.limit + 1) (mp'.limit - mp.limit)) ∧
      ∀ p, p ≤ mp.limit → mp'.message p = mp.message p := by
  unfold takeMessage
  by_cases hfree : mp.freelist ≠ 0
  · rw [if_pos hfree]
    obtain ⟨rest, rfl, hrest⟩ := h.freelist.exists_cons hfree
    refine ⟨_, _, rest, rfl, hrest, Nat.le_refl _, ?_, fun p _ => rfl⟩
    show (mp.freelist :: rest).Perm (mp.freelist :: rest ++ List.range' _ (mp.limit - mp.limit))
    rw [Nat.sub_self, List.range'_zero, List.append_nil]
  · rw [if_neg hfree]
    have hzero : mp.freelist = 0 := Decidable.not_not.mp hfree
    have hnil : free = [] := by
      refine h.freelist.eq_nil (fun hmem => ?_) hzero
      exact absurd (h.range 0 (List.mem_append_right _ hmem)).1 (by decide)
    subst hnil
    dsimp only
    have hlimit : (mp.pool + 1) * MESSAGEPOOL = mp.limit + MESSAGEPOOL := Nat.succ_mul ..
    have hpool : MESSAGEPOOL = 1023 := rfl
    refine ⟨_, _, List.range' (mp.limit + 2) (MESSAGEPOOL - 1), rfl, ?_, ?_, ?_, ?_⟩
    · have hlist := @chain_newList
        (fun p => (if mp.limit + 1 < p ∧ p < mp.limit + 1 + MESSAGEPOOL then
          (⟨[], 0, if p + 1 < mp.limit + 1 + MESSAGEPOOL then p + 1 else 0⟩ : Message)
        else mp.message p).next) (mp.limit + 1) (fun p hlt hlt' => by rw [if_pos ⟨hlt, hlt'⟩])
        (mp.limit + 2) (MESSAGEPOOL - 1) (Nat.lt_succ_self _) (by omega)
      rw [if_pos (by omega)] at hlist
      exact hlist
    · show mp.limit ≤ (mp.pool + 1) * MESSAGEPOOL
      omega
    · show ((mp.limit + 1) :: List.range' (mp.limit + 2) (MESSAGEPOOL - 1)).Perm
        (List.range' (mp.limit + 1) ((mp.pool + 1) * MESSAGEPOOL - mp.limit))
      rw [hlimit, Nat.add_sub_cancel_left]
      exact .refl _
    · intro p hp
      dsimp only
      rw [if_neg (by omega)]

/-- A node that the last one of a chain is led to. -/
theorem chain_concat {next next' : Nat → Nat} {p m : Nat} (hchain : Chain next 0 p nodes)
    (hnodup : nodes.Nodup) (hlast : nodes ≠ [] → next' (nodes.getLastD 0) = m)
    (hsame : ∀ q ∈ nodes, q ≠ nodes.getLastD 0 → next' q = next q) (hend : next' m = 0) :
    Chain next' 0 (if nodes = [] then m else p) (nodes ++ [m]) := by
  rcases List.eq_nil_or_concat nodes with rfl | ⟨front, last, hconcat⟩
  · exact ⟨rfl, hend⟩
  · rw [List.concat_eq_append] at hconcat
    subst hconcat
    have hne : front ++ [last] ≠ [] :=
        List.append_ne_nil_of_right_ne_nil front (List.cons_ne_nil _ _)
    rw [List.getLastD_concat] at hlast hsame
    obtain ⟨q, hfront, rfl, -⟩ := Chain.append_iff.mp hchain
    rw [if_neg hne, List.append_assoc]
    refine Chain.append_iff.mpr ⟨q, hfront.congr fun r hr => ?_, rfl, hlast hne, hend⟩
    refine hsame r (List.mem_append_left _ hr) ?_
    rintro rfl
    exact (List.nodup_append.mp hnodup).2.2 r hr r List.mem_cons_self rfl

theorem Linked.tail_mem (h : Linked db mp nodes free) (hne : nodes ≠ []) : db.tail ∈ nodes := by
  rw [h.tail, List.getLastD_eq_getLast?, List.getLast?_eq_some_getLast hne]
  exact List.getLast_mem hne

/-- The node that was taken is none of the others. -/
theorem Linked.nodup_taken {m limit : Nat} {free' : List Nat} (h : Linked db mp nodes free)
    (hperm : (m :: free').Perm (free ++ List.range' (mp.limit + 1) limit)) :
    (nodes ++ m :: free').Nodup := by
  rw [(hperm.append_left nodes).nodup_iff, ← List.append_assoc, List.nodup_append]
  refine ⟨h.nodup, List.nodup_range', ?_⟩
  rintro p hp q hq rfl
  have hle := h.range p hp
  rw [List.mem_range'_1] at hq
  omega

/-- What `databuffer_push` leaves, from what it wrote to the nodes. -/
theorem Holds.pushed {m : Nat} {free' : List Nat} {data : List UInt8}
    (h : Holds db mp nodes free bytes) (db' : DataBuffer) (mp' : MessagePool)
      (hfree : Chain mp'.next 0 mp'.freelist free')
    (hlimit : mp.limit ≤ mp'.limit)
    (hperm : (m :: free').Perm (free ++ List.range' (mp.limit + 1) (mp'.limit - mp.limit)))
    (hframe : ∀ p, p ≤ mp.limit → p ≠ m → (nodes ≠ [] → p ≠ db.tail) →
      mp'.message p = mp.message p)
    (hnew : mp'.message m = ⟨data, data.length, 0⟩) (hdata : data ≠ [])
    (hlast : nodes ≠ [] → mp'.message db.tail = { mp.message db.tail with next := m })
    (hhead : db'.head = if nodes = [] then m else db.head) (htail : db'.tail = m)
    (hoffset : db'.offset = db.offset) :
    Holds db' mp' (nodes ++ [m]) free' (bytes ++ data) ∧
      Effect mp (nodes ++ free) mp' (nodes ++ [m] ++ free') := by
  have hown : (nodes ++ [m] ++ free').Perm
      (nodes ++ free ++ List.range' (mp.limit + 1) (mp'.limit - mp.limit)) := by
    rw [List.append_assoc, List.append_assoc]
    exact hperm.append_left nodes
  have hnodup : (nodes ++ [m] ++ free').Nodup := by
    rw [List.append_assoc]
    exact h.nodup_taken hperm
  have hrange : ∀ p ∈ nodes ++ [m] ++ free', 0 < p ∧ p ≤ mp'.limit := by
    intro p hp
    rcases List.mem_append.mp (hown.mem_iff.mp hp) with hmem | hmem
    · have hle := h.range p hmem
      omega
    · rw [List.mem_range'_1] at hmem
      omega
  have hm : m ∉ nodes := by
    rw [List.append_assoc, List.nodup_append] at hnodup
    exact fun hmem => hnodup.2.2 m hmem m List.mem_cons_self rfl
  have hother : ∀ p ∈ nodes, p ≠ db.tail → mp'.message p = mp.message p := by
    intro p hp hne
    have hle := h.range p (List.mem_append_left _ hp)
    exact hframe p hle.2 (fun heq => hm (heq ▸ hp)) fun _ => hne
  have hkept : ∀ p ∈ nodes, (mp'.message p).buffer = (mp.message p).buffer ∧
      (mp'.message p).size = (mp.message p).size := by
    intro p hp
    by_cases hp' : p = db.tail
    · rw [hp', hlast (List.ne_nil_of_mem hp)]
      exact ⟨rfl, rfl⟩
    · rw [hother p hp hp']
      exact ⟨rfl, rfl⟩
  have hchain : Chain mp'.next 0 db'.head (nodes ++ [m]) := by
    rw [hhead]
    refine chain_concat h.chain (List.nodup_append.mp h.nodup).1 ?_ ?_ ?_
    · intro hne
      show (mp'.message _).next = m
      rw [← h.tail, hlast hne]
    · intro q hq hne
      show (mp'.message q).next = (mp.message q).next
      rw [hother q hq (h.tail ▸ hne)]
    · show (mp'.message m).next = 0
      rw [hnew]
  have hcontents : mp'.contents (nodes ++ [m]) = mp.contents nodes ++ data := by
    unfold MessagePool.contents
    rw [List.flatMap_append, List.flatMap_singleton, hnew]
    congr 1
    exact List.flatMap_congr fun p hp => (hkept p hp).1
  have hsize : 0 < (mp'.message m).size := by
    rw [hnew]
    exact List.length_pos_iff.mpr hdata
  refine ⟨⟨⟨hchain, ?_, hfree, hnodup, hrange⟩, ?_, ?_, ?_, ?_⟩, hlimit, hown, ?_⟩
  · rw [htail, List.getLastD_concat]
  · intro p hp
    rcases List.mem_append.mp hp with hp | hp
    · rw [(hkept p hp).1, (hkept p hp).2]
      exact h.filled p hp
    · obtain rfl := List.mem_singleton.mp hp
      refine ⟨?_, hsize⟩
      rw [hnew]
  · intro p hp
    rw [hoffset]
    cases nodes with
    | nil =>
        obtain rfl := Option.some.inj hp
        rw [h.offset_nil rfl]
        exact hsize
    | cons q nodes =>
        obtain rfl := Option.some.inj hp
        rw [(hkept q List.mem_cons_self).2]
        exact h.offset q rfl
  · intro hnil
    exact absurd hnil (List.append_ne_nil_of_right_ne_nil nodes (List.cons_ne_nil _ _))
  · rw [hoffset, hcontents, ← h.bytes]
    refine List.drop_append_of_le_length ?_
    cases nodes with
    | nil =>
        rw [h.offset_nil rfl]
        exact Nat.zero_le _
    | cons q nodes =>
        have hoff := h.offset q rfl
        have hfill := h.filled q List.mem_cons_self
        show _ ≤ ((mp.message q).buffer ++ mp.contents nodes).length
        rw [List.length_append]
        omega
  · intro p hp hle
    rw [List.mem_append, not_or] at hp
    refine hframe p hle ?_ ?_
    · rintro rfl
      have hmem := hperm.mem_iff.mp (List.mem_cons_self (a := p))
      rcases List.mem_append.mp hmem with hmem | hmem
      · exact hp.2 hmem
      · rw [List.mem_range'_1] at hmem
        omega
    · rintro hne rfl
      exact hp.1 (h.tail_mem hne)

theorem databufferPush_holds (h : Holds db mp nodes free bytes) (hsize : db.size = bytes.length)
    {data : List UInt8} (hdata : data ≠ []) :
    ∃ db' mp' nodes' free', databufferPush db mp data = some (db', mp') ∧
      Holds db' mp' nodes' free' (bytes ++ data) ∧ db'.size = (bytes ++ data).length ∧
      db'.header = db.header ∧ Effect mp (nodes ++ free) mp' (nodes' ++ free') := by
  obtain ⟨m, mp₁, free', htake, hfree, hlimit, hperm, hframe⟩ := takeMessage_spec h.toLinked
  have hlen : db.size + data.length = (bytes ++ data).length := by
    rw [List.length_append, hsize]
  obtain ⟨-, hback, hdis⟩ := List.nodup_append.mp (h.nodup_taken hperm)
  have hmfree : m ∉ free' := (List.nodup_cons.mp hback).1
  have hother : ∀ p, p ≠ m →
      Function.update mp₁.message m ⟨data, data.length, 0⟩ p = mp₁.message p :=
    fun p hp => Function.update_of_ne hp ..
  unfold databufferPush
  rw [htake]
  dsimp only
  by_cases hnil : nodes = []
  · have hhead : db.head = 0 := by
      have hchain := h.chain
      rw [hnil] at hchain
      exact hchain
    have htail : db.tail = 0 := by
      rw [h.tail, hnil]
      rfl
    rw [if_pos hhead, if_pos htail]
    have hfree' : Chain (fun p => (Function.update mp₁.message m ⟨data, data.length, 0⟩ p).next) 0
        mp₁.freelist free' := by
      refine hfree.congr fun p hp => ?_
      rw [hother p fun heq => hmfree (heq ▸ hp)]
      rfl
    obtain ⟨hholds, heffect⟩ := h.pushed
      { db with size := db.size + data.length, head := m, tail := m }
      { mp₁ with message := Function.update mp₁.message m ⟨data, data.length, 0⟩ }
      hfree' hlimit hperm (fun p hp hpm _ => (hother p hpm).trans (hframe p hp))
      (Function.update_self ..) hdata (fun hne => absurd hnil hne) (if_pos hnil).symm rfl rfl
    exact ⟨_, _, _, free', rfl, hholds, hlen, rfl, heffect⟩
  · have htail := h.tail_mem hnil
    have hle := (h.range db.tail (List.mem_append_left _ htail)).2
    have htm : db.tail ≠ m := hdis db.tail htail m List.mem_cons_self
    have hhead : db.head ≠ 0 := by
      obtain ⟨p, rest, rfl⟩ := List.exists_cons_of_ne_nil hnil
      rw [h.chain.1]
      exact Nat.ne_of_gt (h.range p List.mem_cons_self).1
    rw [if_neg hhead, hother db.tail htm, hframe db.tail hle]
    have hlast : ∀ p, p ≠ db.tail →
        Function.update (Function.update mp₁.message m ⟨data, data.length, 0⟩) db.tail
          { mp.message db.tail with next := m } p =
        Function.update mp₁.message m ⟨data, data.length, 0⟩ p :=
      fun p hp => Function.update_of_ne hp ..
    have hfree' : Chain (fun p => (Function.update (Function.update mp₁.message m
        ⟨data, data.length, 0⟩) db.tail { mp.message db.tail with next := m } p).next) 0
        mp₁.freelist free' := by
      refine hfree.congr fun p hp => ?_
      have hpt : p ≠ db.tail := fun heq =>
        hdis db.tail htail p (List.mem_cons_of_mem m hp) heq.symm
      rw [hlast p hpt, hother p fun heq => hmfree (heq ▸ hp)]
      rfl
    obtain ⟨hholds, heffect⟩ := h.pushed
      { db with size := db.size + data.length, tail := m }
      { mp₁ with message := Function.update (Function.update mp₁.message m
          ⟨data, data.length, 0⟩) db.tail { mp.message db.tail with next := m } }
      hfree' hlimit hperm
      (fun p hp hpm hpt => (hlast p (hpt hnil)).trans ((hother p hpm).trans (hframe p hp)))
      ((hlast m htm.symm).trans (Function.update_self ..)) hdata
      (fun _ => Function.update_self ..) (if_neg hnil).symm rfl rfl
    exact ⟨_, _, _, free', rfl, hholds, hlen, rfl, heffect⟩

/-! ## `databuffer_clear` -/

theorem clearLoop_linked {fuel : Nat} (h : Linked db mp nodes free) (hfuel : nodes.length < fuel) :
    ∃ mp' free', clearLoop fuel db mp = some mp' ∧ Linked .zero mp' [] free' ∧
      Effect mp (nodes ++ free) mp' free' := by
  induction nodes generalizing db mp free fuel with
  | nil =>
      obtain ⟨fuel, rfl⟩ := Nat.exists_eq_succ_of_ne_zero (Nat.ne_of_gt hfuel)
      have hhead : db.head = 0 := h.chain
      rw [clearLoop, if_pos hhead]
      exact ⟨mp, free, rfl, .zero mp h.freelist h.nodup h.range, .refl ..⟩
  | cons p nodes ih =>
      obtain ⟨fuel, rfl⟩ := Nat.exists_eq_succ_of_ne_zero (Nat.ne_of_gt (Nat.zero_lt_of_lt hfuel))
      have hhead : db.head ≠ 0 := by
        rw [h.chain.1]
        exact Nat.ne_of_gt (h.range p List.mem_cons_self).1
      obtain ⟨head, tail, mp₁, hret, hlinked, hpool, hframe⟩ := returnMessage_linked h
      obtain ⟨mp', free', hloop, hlinked', heffect⟩ := ih hlinked (Nat.lt_of_succ_lt_succ hfuel)
      rw [clearLoop, if_neg hhead, hret]
      exact ⟨mp', free', hloop, hlinked', (h.effect_return hpool hframe).trans heffect⟩

/-- No list is longer than the pool. -/
theorem Linked.length_le (h : Linked db mp nodes free) : nodes.length ≤ mp.limit := by
  have hsub : nodes ⊆ List.range' 1 mp.limit := by
    intro p hp
    have hrange := h.range p (List.mem_append_left _ hp)
    rw [List.mem_range'_1]
    omega
  have hlen := ((List.nodup_append.mp h.nodup).1.subperm hsub).length_le
  rw [List.length_range'] at hlen
  exact hlen

theorem Holds.zero (h : Linked .zero mp [] free) : Holds .zero mp [] free [] :=
  ⟨h, fun _ hp => absurd hp List.not_mem_nil, nofun, fun _ => rfl, rfl⟩

theorem databufferClear_holds (h : Linked db mp nodes free) :
    ∃ mp' free', databufferClear db mp = some (.zero, mp') ∧ Holds .zero mp' [] free' [] ∧
      Effect mp (nodes ++ free) mp' ([] ++ free') := by
  obtain ⟨mp', free', hloop, hlinked, heffect⟩ :=
    clearLoop_linked h (Nat.lt_succ_of_le h.length_le)
  refine ⟨mp', free', ?_, .zero hlinked, heffect⟩
  unfold databufferClear
  rw [hloop]
  rfl

end Jump.Skynet.GateService
