import Jump.Core.Ring
import Jump.Core.Word
import Mathlib.Data.List.Perm.Subperm
import Mathlib.Logic.Function.Basic

/-! # The hash of socket ids

`hashid.h`. The pointer to the node at index `i` is `i + 1`, and 0 is the null pointer.
`none` stands for a failed assertion, an `int` that overflows or a loop that does not end.
-/

namespace Jump.Skynet.GateService

open Jump.Core

structure HashidNode where
  id : Int
  next : Nat
deriving DecidableEq

/-- `struct hashid` -/
structure Hashid where
  hashmod : Nat
  cap : Nat
  count : Nat
  id : Nat → HashidNode
  hash : Nat → Nat

/-- `while (hashcap < max)` -/
def hashcapLoop (max : Nat) : Nat → Nat → Nat
  | 0, hashcap => hashcap
  | fuel + 1, hashcap =>
    if hashcap < max then hashcapLoop max fuel (hashcap * 2) else hashcap

def hashidInit (max : Nat) : Hashid where
  hashmod := hashcapLoop max max 16 - 1
  cap := max
  count := 0
  id _ := ⟨-1, 0⟩
  hash _ := 0

namespace Hashid

variable (hi : Hashid)

/-- `id & hi->hashmod` -/
def slot (id : Int) : Nat := uint32OfInt id &&& hi.hashmod

def setNext (p next : Nat) : Hashid :=
  { hi with id := Function.update hi.id p { hi.id p with next := next } }

def setHash (h p : Nat) : Hashid := { hi with hash := Function.update hi.hash h p }

/-- `while (c)` of `hashid_lookup` -/
def lookupLoop (id : Int) : Nat → Nat → Option Int
  | 0, _ => none
  | fuel + 1, c =>
    if c = 0 then some (-1)
    else if (hi.id c).id = id then some ((c : Int) - 1)
    else lookupLoop id fuel (hi.id c).next

def lookup (id : Int) : Option Int := hi.lookupLoop id (hi.cap + 1) (hi.hash (hi.slot id))

/-- What `hashid_remove` does from the label `_clear` on. -/
def clear (c : Nat) : Int × Hashid :=
  ((c : Int) - 1, { hi with id := Function.update hi.id c ⟨-1, 0⟩, count := hi.count - 1 })

/-- `while (c->next)` of `hashid_remove` -/
def removeLoop (id : Int) : Nat → Nat → Option (Int × Hashid)
  | 0, _ => none
  | fuel + 1, c =>
    let temp := (hi.id c).next
    if temp = 0 then some (-1, hi)
    else if (hi.id temp).id = id then some ((hi.setNext c (hi.id temp).next).clear temp)
    else removeLoop id fuel temp

def remove (id : Int) : Option (Int × Hashid) :=
  let h := hi.slot id
  let c := hi.hash h
  if c = 0 then some (-1, hi)
  else if (hi.id c).id = id then some ((hi.setHash h (hi.id c).next).clear c)
  else hi.removeLoop id (hi.cap + 1) c

/-- The loop of `hashid_insert`, for `n` more rounds, and the assertion after it. -/
def insertLoop (id : Int) : Nat → Nat → Option Nat
  | 0, _ => none
  | n + 1, i =>
    if 2 ^ 31 ≤ i + id then none
    else
      let index := ((i + id).tmod hi.cap).toNat
      if (hi.id (index + 1)).id = -1 then some (index + 1) else insertLoop id n (i + 1)

/-- The node becomes the first one of its bucket. -/
def put (id : Int) (c : Nat) : Hashid :=
  { hi with
    count := hi.count + 1
    id := Function.update hi.id c ⟨id, hi.hash (hi.slot id)⟩
    hash := Function.update hi.hash (hi.slot id) c }

def insert (id : Int) : Option (Int × Hashid) :=
  (hi.insertLoop id hi.cap 0).bind fun c =>
    if (hi.id c).next ≠ 0 then none else some ((c : Int) - 1, hi.put id c)

def full : Bool := hi.count = hi.cap

/-! ## The stored ids -/

/-- The node that holds an id. -/
def Stored (id : Int) (p : Nat) : Prop :=
  0 < p ∧ p ≤ hi.cap ∧ (hi.id p).id = id ∧ id ≠ -1

/-- The chain of each bucket holds the nodes of the ids that belong there. -/
structure Inv (chains : Nat → List Nat) : Prop where
  chain (h : Nat) : Chain (fun p => (hi.id p).next) 0 (hi.hash h) (chains h)
  nodup (h : Nat) : (chains h).Nodup
  mem (h p : Nat) : p ∈ chains h ↔ ∃ id, hi.Stored id p ∧ hi.slot id = h
  unique {id : Int} {p q : Nat} : hi.Stored id p → hi.Stored id q → p = q
  free (p : Nat) : (hi.id p).id = -1 → (hi.id p).next = 0

variable {hi} {chains : Nat → List Nat}

theorem Inv.init (max : Nat) : (hashidInit max).Inv fun _ => [] where
  chain _ := rfl
  nodup _ := List.nodup_nil
  mem _ _ := ⟨fun h => absurd h List.not_mem_nil, fun ⟨_, ⟨_, _, hid, hne⟩, _⟩ =>
    absurd hid.symm hne⟩
  unique := fun ⟨_, _, hid, hne⟩ => absurd hid.symm hne
  free _ _ := rfl

theorem Stored.id_eq {x y : Int} {p : Nat} (h : hi.Stored x p) (h' : hi.Stored y p) : x = y :=
  h.2.2.1.symm.trans h'.2.2.1

/-- No chain is longer than the table. -/
theorem Inv.length_le (inv : hi.Inv chains) (h : Nat) : (chains h).length ≤ hi.cap := by
  have hsub : chains h ⊆ List.range' 1 hi.cap := by
    intro p hp
    obtain ⟨id, ⟨hpos, hle, -⟩, -⟩ := (inv.mem h p).mp hp
    rw [List.mem_range'_1]
    omega
  have hlen := ((inv.nodup h).subperm hsub).length_le
  rw [List.length_range'] at hlen
  exact hlen

theorem lookupLoop_eq {id : Int} {c fuel : Nat} {nodes : List Nat}
    (hchain : Chain (fun p => (hi.id p).next) 0 c nodes) (hpos : ∀ p ∈ nodes, 0 < p)
    (hfuel : nodes.length < fuel) : hi.lookupLoop id fuel c =
      some (match nodes.find? fun p => (hi.id p).id = id with
        | some p => (p : Int) - 1
        | none => -1) := by
  induction nodes generalizing c fuel with
  | nil =>
      obtain ⟨fuel, rfl⟩ := Nat.exists_eq_succ_of_ne_zero (Nat.ne_of_gt hfuel)
      obtain rfl : c = 0 := hchain
      rw [lookupLoop, if_pos rfl]
      rfl
  | cons p nodes ih =>
      obtain ⟨fuel, rfl⟩ := Nat.exists_eq_succ_of_ne_zero (Nat.ne_of_gt (Nat.zero_lt_of_lt hfuel))
      obtain ⟨rfl, hrest⟩ := hchain
      have hne : c ≠ 0 := Nat.ne_of_gt (hpos c List.mem_cons_self)
      rw [lookupLoop, if_neg hne, List.find?_cons]
      by_cases hid : (hi.id c).id = id
      · simp only [hid, if_true, decide_true]
      · rw [if_neg hid]
        simp only [hid, decide_false]
        exact ih hrest (fun q hq => hpos q (List.mem_cons_of_mem c hq))
          (Nat.lt_of_succ_lt_succ hfuel)

theorem Inv.pos (inv : hi.Inv chains) {h p : Nat} (hp : p ∈ chains h) : 0 < p := by
  obtain ⟨id, ⟨hpos, -⟩, -⟩ := (inv.mem h p).mp hp
  exact hpos

theorem Inv.lookup_stored (inv : hi.Inv chains) {id : Int} {p : Nat} (hp : hi.Stored id p) :
    hi.lookup id = some ((p : Int) - 1) := by
  have hmem : p ∈ chains (hi.slot id) := (inv.mem _ p).mpr ⟨id, hp, rfl⟩
  have hfind : ((chains (hi.slot id)).find? fun q => (hi.id q).id = id) = some p := by
    cases hq : (chains (hi.slot id)).find? fun q => (hi.id q).id = id with
    | none =>
        have hall := List.find?_eq_none.mp hq p hmem
        exact absurd (decide_eq_true hp.2.2.1) hall
    | some q =>
        have hsome : (hi.id q).id = id := by simpa using List.find?_some hq
        obtain ⟨y, hy, -⟩ := (inv.mem _ q).mp (List.mem_of_find?_eq_some hq)
        have heq : hi.Stored id q := ⟨hy.1, hy.2.1, hsome, hp.2.2.2⟩
        rw [inv.unique heq hp]
  unfold lookup
  rw [lookupLoop_eq (inv.chain _) (fun q hq => inv.pos hq)
    (Nat.lt_succ_of_le (inv.length_le _)), hfind]

theorem Inv.lookup_absent (inv : hi.Inv chains) {id : Int} (habs : ∀ p, ¬hi.Stored id p) :
    hi.lookup id = some (-1) := by
  have hfind : ((chains (hi.slot id)).find? fun q => (hi.id q).id = id) = none := by
    rw [List.find?_eq_none]
    intro q hq hid
    obtain ⟨y, hy, -⟩ := (inv.mem _ q).mp hq
    have hyid : y = id := hy.2.2.1.symm.trans (of_decide_eq_true hid)
    exact habs q (hyid ▸ hy)
  unfold lookup
  rw [lookupLoop_eq (inv.chain _) (fun q hq => inv.pos hq)
    (Nat.lt_succ_of_le (inv.length_le _)), hfind]

/-! ## Insertion and removal -/

theorem insertLoop_spec {id : Int} {n i c : Nat} (hcap : 0 < hi.cap)
    (hloop : hi.insertLoop id n i = some c) : 0 < c ∧ c ≤ hi.cap ∧ (hi.id c).id = -1 := by
  induction n generalizing i with
  | zero => exact nomatch hloop
  | succ n ih =>
      rw [insertLoop] at hloop
      by_cases hbig : 2 ^ 31 ≤ i + id
      · rw [if_pos hbig] at hloop
        exact nomatch hloop
      · rw [if_neg hbig] at hloop
        dsimp only at hloop
        by_cases hfree : (hi.id (((i + id).tmod hi.cap).toNat + 1)).id = -1
        · rw [if_pos hfree] at hloop
          obtain rfl := Option.some.inj hloop
          have hlt := Int.tmod_lt_of_pos ((i : Int) + id) (Int.natCast_pos.mpr hcap)
          refine ⟨Nat.succ_pos _, ?_, hfree⟩
          omega
        · rw [if_neg hfree] at hloop
          exact ih hloop

/-- Only the id of the node that was put in is new. -/
theorem stored_put {id : Int} {c : Nat} (hne : id ≠ -1) (hpos : 0 < c) (hle : c ≤ hi.cap)
    (hfree : (hi.id c).id = -1) (y : Int) (q : Nat) :
    (hi.put id c).Stored y q ↔ hi.Stored y q ∨ y = id ∧ q = c := by
  unfold Stored put
  dsimp only
  by_cases hq : q = c
  · subst hq
    rw [Function.update_self]
    constructor
    · rintro ⟨-, -, rfl, -⟩
      exact .inr ⟨rfl, rfl⟩
    · rintro (⟨-, -, hy, hyne⟩ | ⟨rfl, -⟩)
      · exact absurd (hy.symm.trans hfree) hyne
      · exact ⟨hpos, hle, rfl, hne⟩
  · rw [Function.update_of_ne hq]
    constructor
    · exact .inl
    · rintro (hy | ⟨-, rfl⟩)
      · exact hy
      · exact absurd rfl hq

theorem Inv.put (inv : hi.Inv chains) {id : Int} (hne : id ≠ -1) (habs : ∀ p, ¬hi.Stored id p)
    {c : Nat} (hpos : 0 < c) (hle : c ≤ hi.cap) (hfree : (hi.id c).id = -1) :
    (hi.put id c).Inv (Function.update chains (hi.slot id) (c :: chains (hi.slot id))) := by
  have hstored := stored_put hne hpos hle hfree
  have hnotin : ∀ h, c ∉ chains h := fun h hmem => by
    obtain ⟨y, hy, -⟩ := (inv.mem h c).mp hmem
    exact hy.2.2.2 (hy.2.2.1.symm.trans hfree)
  have hsame : ∀ h, ∀ p ∈ chains h, ((hi.put id c).id p).next = (hi.id p).next := by
    intro h p hp
    have hpc : p ≠ c := fun heq => hnotin h (heq ▸ hp)
    show (Function.update hi.id c _ p).next = _
    rw [Function.update_of_ne hpc]
  have hslot : ∀ y, (hi.put id c).slot y = hi.slot y := fun _ => rfl
  have hself : (hi.put id c).id c = ⟨id, hi.hash (hi.slot id)⟩ := Function.update_self ..
  constructor
  · intro h
    show Chain _ 0 (Function.update hi.hash (hi.slot id) c h) _
    by_cases hh : h = hi.slot id
    · subst hh
      rw [Function.update_self, Function.update_self]
      refine ⟨rfl, ?_⟩
      dsimp only
      rw [hself]
      exact (inv.chain _).congr (hsame _)
    · rw [Function.update_of_ne hh, Function.update_of_ne hh]
      exact (inv.chain h).congr (hsame h)
  · intro h
    by_cases hh : h = hi.slot id
    · subst hh
      rw [Function.update_self]
      exact List.nodup_cons.mpr ⟨hnotin _, inv.nodup _⟩
    · rw [Function.update_of_ne hh]
      exact inv.nodup h
  · intro h p
    simp only [hstored, hslot]
    have hmem := inv.mem h p
    by_cases hh : h = hi.slot id
    · subst hh
      rw [Function.update_self, List.mem_cons, hmem]
      constructor
      · rintro (rfl | ⟨y, hy, hs⟩)
        · exact ⟨id, .inr ⟨rfl, rfl⟩, rfl⟩
        · exact ⟨y, .inl hy, hs⟩
      · rintro ⟨y, hy | ⟨-, rfl⟩, hs⟩
        · exact .inr ⟨y, hy, hs⟩
        · exact .inl rfl
    · rw [Function.update_of_ne hh, hmem]
      constructor
      · rintro ⟨y, hy, hs⟩
        exact ⟨y, .inl hy, hs⟩
      · rintro ⟨y, hy | ⟨rfl, -⟩, hs⟩
        · exact ⟨y, hy, hs⟩
        · exact absurd hs.symm hh
  · intro y p q hp hq
    rcases (hstored y p).mp hp with hpold | ⟨hy, hpc⟩
    · rcases (hstored y q).mp hq with hqold | ⟨hy, -⟩
      · exact inv.unique hpold hqold
      · exact absurd (hy ▸ hpold) (habs p)
    · rcases (hstored y q).mp hq with hqold | ⟨-, hqc⟩
      · exact absurd (hy ▸ hqold) (habs q)
      · rw [hpc, hqc]
  · intro p hp
    by_cases hpc : p = c
    · subst hpc
      rw [hself] at hp
      exact absurd hp hne
    · have hother : (hi.put id c).id p = hi.id p := Function.update_of_ne hpc ..
      rw [hother] at hp ⊢
      exact inv.free p hp

/-- The id is stored in a node that no id had. -/
theorem Inv.insert (inv : hi.Inv chains) {id : Int} (hid : 0 ≤ id) (habs : ∀ p, ¬hi.Stored id p)
    {r : Int} {hi' : Hashid} (hins : hi.insert id = some (r, hi')) :
    ∃ c : Nat, r = (c : Int) - 1 ∧ (∀ y, ¬hi.Stored y c) ∧ (∃ chains', hi'.Inv chains') ∧
      ∀ y q, hi'.Stored y q ↔ hi.Stored y q ∨ y = id ∧ q = c := by
  obtain ⟨c, hloop, hrest⟩ := Option.bind_eq_some_iff.mp hins
  have hcap : 0 < hi.cap := by
    rcases Nat.eq_zero_or_pos hi.cap with hzero | hpos
    · rw [hzero] at hloop
      exact nomatch hloop
    · exact hpos
  obtain ⟨hpos, hle, hfree⟩ := insertLoop_spec hcap hloop
  have hne : id ≠ -1 := by omega
  rw [if_neg (not_not_intro (inv.free c hfree))] at hrest
  obtain ⟨rfl, rfl⟩ := Prod.mk.inj (Option.some.inj hrest)
  exact ⟨c, rfl, fun y hy => hy.2.2.2 (hy.2.2.1.symm.trans hfree),
    ⟨_, inv.put hne habs hpos hle hfree⟩, stored_put hne hpos hle hfree⟩

/-- What a removal leaves: the node `c` is free and out of its chain. -/
structure Unlinked (hi hi' : Hashid) (chains : Nat → List Nat) (id : Int) (c : Nat) : Prop where
  hashmod : hi'.hashmod = hi.hashmod
  cap : hi'.cap = hi.cap
  node : hi'.id c = ⟨-1, 0⟩
  others (p : Nat) : p ≠ c → (hi'.id p).id = (hi.id p).id
  ends (p : Nat) : p ≠ c → (hi.id p).id = -1 → (hi'.id p).next = (hi.id p).next
  chain (h : Nat) : Chain (fun p => (hi'.id p).next) 0 (hi'.hash h)
    (Function.update chains (hi.slot id) ((chains (hi.slot id)).erase c) h)

theorem Unlinked.stored {hi' : Hashid} {id : Int} {c : Nat} (hu : Unlinked hi hi' chains id c)
    (inv : hi.Inv chains) (hc : hi.Stored id c) (y : Int) (q : Nat) :
    hi'.Stored y q ↔ hi.Stored y q ∧ y ≠ id := by
  unfold Stored
  rw [hu.cap]
  by_cases hq : q = c
  · subst hq
    rw [hu.node]
    constructor
    · rintro ⟨-, -, rfl, hne⟩
      exact absurd rfl hne
    · rintro ⟨hy, hne⟩
      exact absurd (hy.2.2.1.symm.trans hc.2.2.1) hne
  · rw [hu.others q hq]
    constructor
    · intro hy
      refine ⟨hy, ?_⟩
      rintro rfl
      exact hq (inv.unique hy hc)
    · exact fun hy => hy.1

theorem Unlinked.inv {hi' : Hashid} {id : Int} {c : Nat} (hu : Unlinked hi hi' chains id c)
    (inv : hi.Inv chains) (hc : hi.Stored id c) :
    hi'.Inv (Function.update chains (hi.slot id) ((chains (hi.slot id)).erase c)) := by
  have hstored := hu.stored inv hc
  have hslot : ∀ y, hi'.slot y = hi.slot y := by
    intro y
    unfold slot
    rw [hu.hashmod]
  refine ⟨hu.chain, ?_, ?_, ?_, ?_⟩
  · intro h
    by_cases hh : h = hi.slot id
    · subst hh
      rw [Function.update_self]
      exact (inv.nodup _).erase c
    · rw [Function.update_of_ne hh]
      exact inv.nodup h
  · intro h p
    simp only [hstored, hslot]
    have hmem := inv.mem h p
    by_cases hh : h = hi.slot id
    · subst hh
      rw [Function.update_self, (inv.nodup _).mem_erase_iff, hmem]
      constructor
      · rintro ⟨hpc, y, hy, hs⟩
        refine ⟨y, ⟨hy, ?_⟩, hs⟩
        rintro rfl
        exact hpc (inv.unique hy hc)
      · rintro ⟨y, ⟨hy, hyne⟩, hs⟩
        refine ⟨?_, y, hy, hs⟩
        rintro rfl
        exact hyne (hy.id_eq hc)
    · rw [Function.update_of_ne hh, hmem]
      constructor
      · rintro ⟨y, hy, hs⟩
        refine ⟨y, ⟨hy, ?_⟩, hs⟩
        rintro rfl
        exact hh hs.symm
      · rintro ⟨y, ⟨hy, -⟩, hs⟩
        exact ⟨y, hy, hs⟩
  · intro y p q hp hq
    exact inv.unique ((hstored y p).mp hp).1 ((hstored y q).mp hq).1
  · intro p hp
    by_cases hpc : p = c
    · subst hpc
      rw [hu.node]
    · rw [hu.others p hpc] at hp
      rw [hu.ends p hpc hp]
      exact inv.free p hp

/-- `hi->hash[h] = c->next` for the first node of a bucket. -/
theorem unlinked_first {id : Int} {c : Nat} {rest : List Nat} (inv : hi.Inv chains)
    (hchain : chains (hi.slot id) = c :: rest) :
    Unlinked hi ((hi.setHash (hi.slot id) (hi.id c).next).clear c).2 chains id c := by
  have hfirst := inv.chain (hi.slot id)
  have hnodup := inv.nodup (hi.slot id)
  rw [hchain] at hfirst hnodup
  obtain ⟨hc, hrest⟩ := hfirst
  have hcrest : c ∉ rest := (List.nodup_cons.mp hnodup).1
  have hother : ∀ p, p ≠ c → Function.update hi.id c ⟨-1, 0⟩ p = hi.id p :=
    fun p hp => Function.update_of_ne hp ..
  refine ⟨rfl, rfl, Function.update_self .., fun p hp => ?_, fun p hp _ => ?_, fun h => ?_⟩
  · show (Function.update hi.id c ⟨-1, 0⟩ p).id = _
    rw [hother p hp]
  · show (Function.update hi.id c ⟨-1, 0⟩ p).next = _
    rw [hother p hp]
  · show Chain (fun p => (Function.update hi.id c ⟨-1, 0⟩ p).next) 0
      (Function.update hi.hash (hi.slot id) (hi.id c).next h) _
    by_cases hh : h = hi.slot id
    · subst hh
      rw [Function.update_self, Function.update_self, hchain, List.erase_cons_head]
      refine hrest.congr fun p hp => ?_
      rw [hother p fun heq => hcrest (heq ▸ hp)]
    · rw [Function.update_of_ne hh, Function.update_of_ne hh]
      refine (inv.chain h).congr fun p hp => ?_
      rw [hother p ?_]
      rintro rfl
      have hmem : p ∈ chains (hi.slot id) := hchain ▸ List.mem_cons_self
      obtain ⟨y, hy, hs⟩ := (inv.mem _ _).mp hp
      obtain ⟨z, hz, ht⟩ := (inv.mem _ _).mp hmem
      rw [hy.id_eq hz] at hs
      exact hh (hs.symm.trans ht)

/-- `c->next = temp->next` for a later one. -/
theorem unlinked_later {id : Int} {c temp : Nat} {front rest : List Nat} (inv : hi.Inv chains)
    (hchain : chains (hi.slot id) = front ++ c :: temp :: rest) :
    Unlinked hi ((hi.setNext c (hi.id temp).next).clear temp).2 chains id temp := by
  have hwhole := inv.chain (hi.slot id)
  have hnodup := inv.nodup (hi.slot id)
  rw [hchain] at hwhole hnodup
  have herase : (front ++ c :: temp :: rest).erase temp = front ++ c :: rest := by
    obtain ⟨-, hback, hdis⟩ := List.nodup_append.mp hnodup
    have hfront : temp ∉ front := fun hmem =>
      hdis temp hmem temp (List.mem_cons_of_mem c List.mem_cons_self) rfl
    have hne : c ≠ temp := fun heq => (List.nodup_cons.mp hback).1 (heq ▸ List.mem_cons_self)
    rw [List.erase_append_right _ hfront, List.erase_cons_tail (by simpa using hne),
      List.erase_cons_head]
  have htemp : temp ∉ front ++ c :: rest := by
    rw [← herase]
    exact hnodup.not_mem_erase
  have hct : c ≠ temp := by
    rintro rfl
    exact htemp (List.mem_append_right _ List.mem_cons_self)
  have hother : ∀ p, p ≠ temp → ((hi.setNext c (hi.id temp).next).clear temp).2.id p =
      (hi.setNext c (hi.id temp).next).id p := fun p hp => Function.update_of_ne hp ..
  have hset : ∀ p, p ≠ c → (hi.setNext c (hi.id temp).next).id p = hi.id p :=
    fun p hp => Function.update_of_ne hp ..
  have hsetc : (hi.setNext c (hi.id temp).next).id c = { hi.id c with next := (hi.id temp).next } :=
    Function.update_self ..
  refine ⟨rfl, rfl, Function.update_self .., fun p hp => ?_, fun p hp hfree => ?_, fun h => ?_⟩
  · rw [hother p hp]
    by_cases hpc : p = c
    · subst hpc
      rw [hsetc]
    · rw [hset p hpc]
  · rw [hother p hp, hset p ?_]
    rintro rfl
    have hmem : p ∈ chains (hi.slot id) := by
      rw [hchain]
      exact List.mem_append_right _ List.mem_cons_self
    obtain ⟨y, hy, -⟩ := (inv.mem _ _).mp hmem
    exact hy.2.2.2 (hy.2.2.1.symm.trans hfree)
  · show Chain _ 0 (hi.hash h) _
    by_cases hh : h = hi.slot id
    · subst hh
      rw [Function.update_self, hchain, herase]
      have hbypass : Chain (fun p => ((hi.setNext c (hi.id temp).next).id p).next) 0
          (hi.hash (hi.slot id)) (front ++ c :: rest) := by
        have hlink : ((hi.setNext c (hi.id temp).next).id c).next = (hi.id temp).next := by
          rw [hsetc]
        have hsame : ∀ p, p ≠ c →
            ((hi.setNext c (hi.id temp).next).id p).next = (hi.id p).next := by
          intro p hp
          rw [hset p hp]
        exact hwhole.bypass hnodup hlink hsame
      refine hbypass.congr fun p hp => ?_
      rw [hother p fun heq => htemp (heq ▸ hp)]
    · rw [Function.update_of_ne hh]
      have hout : ∀ p ∈ chains h, p ∉ chains (hi.slot id) := by
        intro p hp hmem
        obtain ⟨y, hy, hs⟩ := (inv.mem _ _).mp hp
        obtain ⟨z, hz, ht⟩ := (inv.mem _ _).mp hmem
        rw [hy.id_eq hz] at hs
        exact hh (hs.symm.trans ht)
      rw [hchain] at hout
      refine (inv.chain h).congr fun p hp => ?_
      rw [hother p ?_, hset p ?_]
      · rintro rfl
        exact hout p hp (List.mem_append_right _ List.mem_cons_self)
      · rintro rfl
        exact hout p hp (List.mem_append_right _ (List.mem_cons_of_mem c List.mem_cons_self))

theorem removeLoop_spec (inv : hi.Inv chains) {id : Int} {fuel c : Nat} {front rest : List Nat}
    (hchain : chains (hi.slot id) = front ++ c :: rest) (hfuel : rest.length < fuel) :
    (∃ p hi', p ∈ rest ∧ (hi.id p).id = id ∧
      hi.removeLoop id fuel c = some ((p : Int) - 1, hi') ∧ Unlinked hi hi' chains id p) ∨
    (∀ p ∈ rest, (hi.id p).id ≠ id) ∧ hi.removeLoop id fuel c = some (-1, hi) := by
  induction rest generalizing front c fuel with
  | nil =>
      obtain ⟨fuel, rfl⟩ := Nat.exists_eq_succ_of_ne_zero (Nat.ne_of_gt hfuel)
      have hlast := inv.chain (hi.slot id)
      rw [hchain] at hlast
      obtain ⟨q, -, rfl, hend⟩ := Chain.append_iff.mp hlast
      have hnext : (hi.id q).next = 0 := hend
      refine .inr ⟨fun p hp => absurd hp List.not_mem_nil, ?_⟩
      rw [removeLoop]
      simp only [hnext, if_true]
  | cons temp rest ih =>
      obtain ⟨fuel, rfl⟩ := Nat.exists_eq_succ_of_ne_zero (Nat.ne_of_gt (Nat.zero_lt_of_lt hfuel))
      have hwhole := inv.chain (hi.slot id)
      rw [hchain] at hwhole
      obtain ⟨q, -, rfl, htemp, -⟩ := Chain.append_iff.mp hwhole
      have hmem : temp ∈ chains (hi.slot id) := by
        rw [hchain]
        exact List.mem_append_right _ (List.mem_cons_of_mem q List.mem_cons_self)
      have hne : temp ≠ 0 := Nat.ne_of_gt (inv.pos hmem)
      have hnext : (hi.id q).next = temp := htemp
      rw [removeLoop]
      simp only [hnext, if_neg hne]
      by_cases hid : (hi.id temp).id = id
      · rw [if_pos hid]
        exact .inl ⟨temp, _, List.mem_cons_self, hid, rfl, unlinked_later inv hchain⟩
      · rw [if_neg hid]
        have hchain' : chains (hi.slot id) = (front ++ [q]) ++ temp :: rest := by
          rw [hchain, List.append_assoc]
          rfl
        rcases ih hchain' (Nat.lt_of_succ_lt_succ hfuel) with ⟨p, hi', hp, hpid, hloop, hu⟩ |
            ⟨hno, hloop⟩
        · exact .inl ⟨p, hi', List.mem_cons_of_mem temp hp, hpid, hloop, hu⟩
        · refine .inr ⟨fun p hp => ?_, hloop⟩
          rcases List.mem_cons.mp hp with rfl | hp
          · exact hid
          · exact hno p hp

/-- A removal takes the id out and leaves the others where they are. -/
theorem Inv.remove (inv : hi.Inv chains) (id : Int) :
    (∃ c hi', hi.Stored id c ∧ hi.remove id = some ((c : Int) - 1, hi') ∧
      (∃ chains', hi'.Inv chains') ∧ ∀ y q, hi'.Stored y q ↔ hi.Stored y q ∧ y ≠ id) ∨
    (∀ c, ¬hi.Stored id c) ∧ hi.remove id = some (-1, hi) := by
  have hfirst := inv.chain (hi.slot id)
  have hstored : ∀ p ∈ chains (hi.slot id), (hi.id p).id = id → hi.Stored id p := by
    intro p hp hid
    obtain ⟨y, hy, -⟩ := (inv.mem _ _).mp hp
    have hyid : y = id := hy.2.2.1.symm.trans hid
    exact hyid ▸ hy
  unfold Hashid.remove
  dsimp only
  cases hchain : chains (hi.slot id) with
  | nil =>
      rw [hchain] at hfirst
      have hzero : hi.hash (hi.slot id) = 0 := hfirst
      rw [if_pos hzero]
      refine .inr ⟨fun c hc => ?_, rfl⟩
      have hmem := (inv.mem (hi.slot id) c).mpr ⟨id, hc, rfl⟩
      rw [hchain] at hmem
      exact List.not_mem_nil hmem
  | cons c rest =>
      rw [hchain] at hfirst
      obtain ⟨hc, -⟩ := hfirst
      have hmem : c ∈ chains (hi.slot id) := hchain ▸ List.mem_cons_self
      rw [hc, if_neg (Nat.ne_of_gt (inv.pos hmem))]
      by_cases hid : (hi.id c).id = id
      · rw [if_pos hid]
        have hu := unlinked_first inv hchain
        have hsc := hstored c hmem hid
        exact .inl ⟨c, _, hsc, rfl, ⟨_, hu.inv inv hsc⟩, hu.stored inv hsc⟩
      · rw [if_neg hid]
        have hlen := inv.length_le (hi.slot id)
        rw [hchain, List.length_cons] at hlen
        rcases @removeLoop_spec hi chains inv id (hi.cap + 1) c [] rest hchain (by omega) with
          ⟨p, hi', hp, hpid, hloop, hu⟩ | ⟨hno, hloop⟩
        · have hsp := hstored p (hchain ▸ List.mem_cons_of_mem c hp) hpid
          exact .inl ⟨p, hi', hsp, hloop, ⟨_, hu.inv inv hsp⟩, hu.stored inv hsp⟩
        · refine .inr ⟨fun p hp => ?_, hloop⟩
          have hmemp := (inv.mem (hi.slot id) p).mpr ⟨id, hp, rfl⟩
          rw [hchain] at hmemp
          rcases List.mem_cons.mp hmemp with rfl | hrest
          · exact hid hp.2.2.1
          · exact hno p hrest hp.2.2.1

end Hashid

end Jump.Skynet.GateService
