import Jump.Core.Ring
import Jump.Skynet.ShareData.Code
import Mathlib.Data.List.Infix
import Mathlib.Data.List.Nodup
import Mathlib.Data.List.Perm.Subperm

/-! # Filling a shared table

After the first pass the main slot of every key that goes into the hash is filled, and a key that
is in the hash is in its main slot. The second pass puts every other key into a free slot and links
it behind the node in its main slot. There are as many slots as keys, so that a free one is found
and none stays free.
-/

namespace Jump.Skynet.ShareData

open Jump.Core

/-- An integer key that fits into an `int`. -/
def Key.Fits : Key → Prop
  | .integer i => i.toInt32.toInt64 = i
  | .string _ => True

/-- The key as the code looks at it: an integer is cut to an `int`. -/
def Key.cut : Key → Key
  | .integer i => .integer i.toInt32.toInt64
  | .string str => .string str

/-- The value that a Lua table has at a key. -/
def rawget (entries : List (Key × Value)) (k : Key) : Option Value :=
  (entries.find? fun e => e.1 = k).map Prod.snd

/-- A conf stores a value: indexed with any key it gives what is stored for the value at that key,
or `nil` where the Lua table has nothing, and iterated over it gives the keys of the table. -/
inductive Stores (strings : Strings) : Conf → Value → Prop where
  | integer (i : Int64) : Stores strings (.integer i) (.integer i)
  | number (bits : UInt64) : Stores strings (.real bits) (.number bits)
  | boolean (b : Bool) : Stores strings (.boolean b) (.boolean b)
  | string (index : Nat) (str : List UInt8) (h : tolstring strings index = some str) :
      Stores strings (.string index) (.string str)
  | table (tbl : Table Conf) (rawlen : Nat) (entries : List (Key × Value)) (value : Key → Conf)
      (keys : List Key) (hindex : ∀ k, lindexconf strings tbl k = .ok (value k))
      (hstored : ∀ k v, rawget entries k.cut = some v → Stores strings (value k) v)
      (habsent : ∀ k, rawget entries k.cut = none → value k = .nil)
      (hkeys : ∀ rounds, entries.length < rounds → keysFrom strings tbl rounds none = .ok keys)
      (hall : keys.Perm (entries.map Prod.fst)) :
      Stores strings (.table tbl) (.table rawlen entries)

theorem Stores.ne_nil {strings : Strings} {v : Value} : ¬ Stores strings .nil v := nofun

/-- A table that can be converted: its keys differ, they fit into an `int`, and so does the length
of its array; and so it is for all tables below it. -/
inductive Proper : Value → Prop where
  | integer (i : Int64) : Proper (.integer i)
  | number (bits : UInt64) : Proper (.number bits)
  | boolean (b : Bool) : Proper (.boolean b)
  | string (str : List UInt8) : Proper (.string str)
  | table (rawlen : Nat) (entries : List (Key × Value)) (hrawlen : rawlen < 2 ^ 31)
      (hkeys : (entries.map Prod.fst).Nodup) (hfits : ∀ e ∈ entries, e.1.Fits)
      (hvalues : ∀ e ∈ entries, Proper e.2) : Proper (.table rawlen entries)

/-! ## The numbers of the strings -/

/-- The key of a node for a key, once all strings have their numbers. -/
def keyOf (S : Strings) : Key → NodeKey
  | .integer i => .integer i.toInt32
  | .string str => .string (S.idxOf str + 2)

def Interned (S : Strings) (k : Key) : Prop := ∀ str, k = .string str → str ∈ S

/-- The main slot of a key. -/
def Table.main (tbl : Table Conf) (k : Key) : Nat := tbl.slot (sought k).1

/-- The keys in the hash with their slots and their values, in the order in which they came. -/
abbrev Placement := List (Nat × Key × Value)

/-- The slots of the keys that have the same main slot. -/
def group (tbl : Table Conf) (pl : Placement) (m : Nat) : List Nat :=
  (pl.filter fun e => tbl.main e.2.1 = m).map Prod.fst

def nextOf (tbl : Table Conf) (p : Option Nat) : Option Nat :=
  p.bind fun i => (tbl.hash i).bind Node.next

/-- The chain from a main slot on goes through the slots of the keys that have it. -/
def Linked (tbl : Table Conf) (pl : Placement) (m : Nat) : Prop :=
  ∃ rest : List Nat,
    Chain (nextOf tbl) none (some m) ((m :: rest).map some) ∧ (m :: rest).Perm (group tbl pl m) ∧
      ∀ n, tbl.hash m = some n → n.nocolliding = true → rest = []

structure Placed (S : Strings) (tbl : Table Conf) (pl : Placement) : Prop where
  slots : (pl.map Prod.fst).Nodup
  keys : (pl.map fun e => e.2.1).Nodup
  bound : ∀ e ∈ pl, e.1 < tbl.sizehash
  free : ∀ m, m ∉ pl.map Prod.fst → tbl.hash m = none
  node : ∀ e ∈ pl, ∃ n, tbl.hash e.1 = some n ∧ n.key = keyOf S e.2.1 ∧
    n.keyhash = (sought e.2.1).1 ∧ Stores S n.v e.2.2
  interned : ∀ e ∈ pl, Interned S e.2.1
  chain : ∀ m, group tbl pl m ≠ [] → Linked tbl pl m

namespace Placed

variable {S : Strings} {tbl : Table Conf} {pl : Placement} {k : Key} {v : Value} {m i : Nat}

theorem unique (h : Placed S tbl pl) {e e' : Nat × Key × Value} (he : e ∈ pl) (he' : e' ∈ pl)
    (hslot : e.1 = e'.1) : e = e' := List.inj_on_of_nodup_map h.slots he he' hslot

theorem mem_of_hash (h : Placed S tbl pl) {n : Node Conf} (hn : tbl.hash m = some n) :
    ∃ k v, (m, k, v) ∈ pl := by
  by_contra hnot
  have hfree : m ∉ pl.map Prod.fst := by
    intro hmem
    obtain ⟨⟨m', k, v⟩, he, rfl⟩ := List.mem_map.mp hmem
    exact hnot ⟨k, v, he⟩
  rw [h.free m hfree] at hn
  cases hn

theorem not_mem_of_free (h : Placed S tbl pl) (hm : tbl.hash m = none) :
    m ∉ pl.map Prod.fst := by
  intro hmem
  obtain ⟨e, he, rfl⟩ := List.mem_map.mp hmem
  obtain ⟨n, hn, -⟩ := h.node e he
  rw [hm] at hn
  cases hn

/-- A chain whose nodes stay is a chain as before. -/
theorem chain_congr {tbl' : Table Conf} {slots : List Nat} {p : Option Nat}
    (h : Chain (nextOf tbl) none p (slots.map some))
    (hsame : ∀ j ∈ slots, tbl'.hash j = tbl.hash j) :
    Chain (nextOf tbl') none p (slots.map some) := by
  refine h.congr fun x hx => ?_
  obtain ⟨j, hj, rfl⟩ := List.mem_map.mp hx
  simp only [nextOf, Option.bind_some, hsame j hj]

/-- A key goes into a free slot; the links are left to the caller. -/
theorem add (h : Placed S tbl pl) {hash : Nat → Option (Node Conf)} (hi : tbl.hash i = none)
    (hbound : i < tbl.sizehash) (hkey : k ∉ pl.map fun e => e.2.1) (hk : Interned S k)
    (hnew : ∃ n, hash i = some n ∧ n.key = keyOf S k ∧ n.keyhash = (sought k).1 ∧ Stores S n.v v)
    (hold : ∀ j n, tbl.hash j = some n → ∃ n', hash j = some n' ∧ n'.key = n.key ∧
      n'.keyhash = n.keyhash ∧ n'.v = n.v)
    (hfree : ∀ j, j ≠ i → tbl.hash j = none → hash j = none)
    (hchain : ∀ m, group tbl (pl ++ [(i, k, v)]) m ≠ [] →
      Linked { tbl with hash } (pl ++ [(i, k, v)]) m) :
    Placed S { tbl with hash } (pl ++ [(i, k, v)]) := by
  have hslot := h.not_mem_of_free hi
  constructor
  · rw [List.map_append]
    refine List.nodup_append.mpr ⟨h.slots, List.nodup_singleton _, fun j hj b hb heq => ?_⟩
    have hb : b = i := List.mem_singleton.mp hb
    rw [heq, hb] at hj
    exact hslot hj
  · rw [List.map_append]
    refine List.nodup_append.mpr ⟨h.keys, List.nodup_singleton _, fun k' hk' b hb heq => ?_⟩
    have hb : b = k := List.mem_singleton.mp hb
    rw [heq, hb] at hk'
    exact hkey hk'
  · intro e he
    obtain he | he := List.mem_append.mp he
    · exact h.bound e he
    · rw [List.mem_singleton.mp he]
      exact hbound
  · intro j hj
    simp only [List.map_append, List.map_cons, List.map_nil, List.mem_append, List.mem_singleton,
      not_or] at hj
    exact hfree j hj.2 (h.free j hj.1)
  · intro e he
    obtain he | he := List.mem_append.mp he
    · obtain ⟨n, hn, hkey, hhash, hv⟩ := h.node e he
      obtain ⟨n', hn', hkey', hhash', hv'⟩ := hold e.1 n hn
      exact ⟨n', hn', hkey'.trans hkey, hhash'.trans hhash, hv' ▸ hv⟩
    · rw [List.mem_singleton.mp he]
      exact hnew
  · intro e he
    obtain he | he := List.mem_append.mp he
    · exact h.interned e he
    · rw [List.mem_singleton.mp he]
      exact hk
  · exact hchain

end Placed

/-! ## The array -/

theorem arrayKey_eq_some {sizearray key : Nat} {i : Int32} :
    arrayKey sizearray i = some key ↔ i.toInt = key ∧ 0 < key ∧ key ≤ sizearray := by
  unfold arrayKey
  split
  · rw [Option.some.injEq]
    omega
  · simp only [reduceCtorEq, false_iff]
    omega

theorem inArray_pos {sizearray key : Nat} {k : Key} (h : inArray sizearray k = some key) :
    0 < key ∧ key ≤ sizearray := by
  cases k with
  | string str => cases h
  | integer i => exact (arrayKey_eq_some.mp h).2

/-- What is in the array once some entries are done. -/
structure ArrayPart (S : Strings) (tbl : Table Conf) (done : List (Key × Value)) : Prop where
  set : ∀ e ∈ done, ∀ key, inArray tbl.sizearray e.1 = some key → Stores S (tbl.array (key - 1)) e.2
  unset : ∀ i, (∀ e ∈ done, inArray tbl.sizearray e.1 ≠ some (i + 1)) → tbl.array i = .nil

namespace ArrayPart

variable {S : Strings} {tbl : Table Conf} {done : List (Key × Value)} {k : Key} {v : Value}

theorem add (h : ArrayPart S tbl done) {key : Nat} {c : Conf}
    (hk : inArray tbl.sizearray k = some key)
    (hfresh : ∀ e ∈ done, inArray tbl.sizearray e.1 ≠ some key) (hc : Stores S c v) :
    ArrayPart S { tbl with array := Function.update tbl.array (key - 1) c } (done ++ [(k, v)]) where
  set e he key' hkey' := by
    have hpos := inArray_pos hk
    obtain he | he := List.mem_append.mp he
    · have hpos' := inArray_pos hkey'
      have hne : key' - 1 ≠ key - 1 := by
        intro heq
        obtain rfl : key' = key := by omega
        exact hfresh e he hkey'
      dsimp only
      rw [Function.update_of_ne hne]
      exact h.set e he key' hkey'
    · rw [List.mem_singleton.mp he] at hkey' ⊢
      obtain rfl : key = key' := Option.some.inj (hk.symm.trans hkey')
      dsimp only
      rw [Function.update_self]
      exact hc
  unset i hi := by
    have hpos := inArray_pos hk
    have hne : i ≠ key - 1 := by
      intro heq
      refine hi (k, v) (List.mem_append_right _ List.mem_cons_self) (hk.trans ?_)
      rw [heq, Nat.sub_add_cancel hpos.1]
    dsimp only
    rw [Function.update_of_ne hne]
    exact h.unset i fun e he => hi e (List.mem_append_left _ he)

theorem skip (h : ArrayPart S tbl done) (hk : inArray tbl.sizearray k = none)
    (hash : Nat → Option (Node Conf)) :
    ArrayPart S { tbl with hash } (done ++ [(k, v)]) where
  set e he key hkey := by
    obtain he | he := List.mem_append.mp he
    · exact h.set e he key hkey
    · rw [List.mem_singleton.mp he] at hkey
      cases hk.symm.trans hkey
  unset i hi := h.unset i fun e he => hi e (List.mem_append_left _ he)

end ArrayPart

/-! ## The first pass -/

/-- `setvalue` gives something that stores the value, and only adds strings. -/
def Sound (v : Value) : Prop :=
  ∀ strings : Strings, strings.Nodup → ∃ c strings', setvalue v strings = .ok (c, strings') ∧
    strings <+: strings' ∧ strings'.Nodup ∧
    ∀ S : Strings, strings' <+: S → S.Nodup → Stores S c v

theorem Interned.mono {strings S : Strings} {k : Key} (hk : Interned strings k)
    (hS : strings <+: S) : Interned S k := fun str h => hS.subset (hk str h)

structure FirstPass (S : Strings) (tbl : Table Conf) (pl : Placement)
    (done : List (Key × Value)) : Prop where
  placed : Placed S tbl pl
  array : ArrayPart S tbl done
  main : ∀ e ∈ pl, e.1 = tbl.main e.2.1
  covered : ∀ e ∈ done, inArray tbl.sizearray e.1 = none → tbl.main e.1 ∈ pl.map Prod.fst
  source : ∀ e ∈ pl, e.2 ∈ done ∧ inArray tbl.sizearray e.2.1 = none

section FirstPass

variable {S : Strings} {tbl : Table Conf} {pl : Placement} {done : List (Key × Value)} {k : Key}
  {v : Value}

theorem FirstPass.skip (h : FirstPass S tbl pl done) (hk : inArray tbl.sizearray k = none)
    {n : Node Conf} (hn : tbl.hash (tbl.main k) = some n) :
    FirstPass S tbl pl (done ++ [(k, v)]) where
  placed := h.placed
  array := h.array.skip hk tbl.hash
  main := h.main
  covered e he hnone := by
    obtain he | he := List.mem_append.mp he
    · exact h.covered e he hnone
    · obtain ⟨k', v', hmem⟩ := h.placed.mem_of_hash hn
      rw [List.mem_singleton.mp he]
      exact List.mem_map.mpr ⟨_, hmem, rfl⟩
  source e he := ⟨List.mem_append_left _ (h.source e he).1, (h.source e he).2⟩

end FirstPass

/-- A pass adds strings only, and makes of the table one of the same sizes. -/
def Fills (pass : M (Table Conf × Strings)) (strings : Strings) (tbl : Table Conf)
    (P : Strings → Table Conf → Placement → Prop) : Prop :=
  ∃ tbl' strings' pl', pass = .ok (tbl', strings') ∧ strings <+: strings' ∧ strings'.Nodup ∧
    tbl'.sizearray = tbl.sizearray ∧ tbl'.sizehash = tbl.sizehash ∧
    ∀ S : Strings, strings' <+: S → S.Nodup → P S tbl' pl'

theorem Fills.mono {pass : M (Table Conf × Strings)} {strings strings₁ : Strings}
    {tbl tbl₁ : Table Conf} {P : Strings → Table Conf → Placement → Prop}
    (h : Fills pass strings₁ tbl₁ P) (hgrow : strings <+: strings₁)
    (harr : tbl₁.sizearray = tbl.sizearray) (hhash : tbl₁.sizehash = tbl.sizehash) :
    Fills pass strings tbl P := by
  obtain ⟨tbl', strings', pl', hrun, hgrow', hnodup, harr', hhash', hpass⟩ := h
  exact ⟨tbl', strings', pl', hrun, hgrow.trans hgrow', hnodup, harr'.trans harr,
    hhash'.trans hhash, hpass⟩

/-- The entries whose keys go into the hash. -/
def hashed (sizearray : Nat) (entries : List (Key × Value)) : List (Key × Value) :=
  entries.filter fun e => inArray sizearray e.1 = none

theorem mem_hashed {sizearray : Nat} {entries : List (Key × Value)} {e : Key × Value} :
    e ∈ hashed sizearray entries ↔ e ∈ entries ∧ inArray sizearray e.1 = none := by
  simp [hashed]

structure SecondPass (S : Strings) (tbl : Table Conf) (pl : Placement)
    (all done : List (Key × Value)) : Prop where
  placed : Placed S tbl pl
  array : ArrayPart S tbl all
  main : ∀ e ∈ pl, e.1 = tbl.main e.2.1 ∨ e.2.1 ∈ done.map Prod.fst
  filled : ∀ e ∈ hashed tbl.sizearray all,
    ∃ k v, (tbl.main e.1, k, v) ∈ pl ∧ tbl.main k = tbl.main e.1
  covered : ∀ e ∈ hashed tbl.sizearray done, e.1 ∈ pl.map fun e => e.2.1
  source : ∀ e ∈ pl, e.2 ∈ hashed tbl.sizearray all

theorem FirstPass.second {S : Strings} {tbl : Table Conf} {pl : Placement}
    {all : List (Key × Value)} (h : FirstPass S tbl pl all) : SecondPass S tbl pl all [] where
  placed := h.placed
  array := h.array
  main e he := .inl (h.main e he)
  filled e he := by
    obtain ⟨hmem, hnone⟩ := mem_hashed.mp he
    obtain ⟨⟨m, k, v⟩, hmain, hm⟩ := List.mem_map.mp (h.covered e hmem hnone)
    obtain rfl : m = tbl.main e.1 := hm
    exact ⟨k, v, hmain, (h.main _ hmain).symm⟩
  covered := nofun
  source e he := mem_hashed.mpr (h.source e he)

namespace SecondPass

variable {S : Strings} {tbl : Table Conf} {pl : Placement} {all done : List (Key × Value)}
  {k : Key} {v : Value}

theorem mem_snoc_hashed {sizearray : Nat} {e : Key × Value}
    (he : e ∈ hashed sizearray (done ++ [(k, v)])) : e ∈ hashed sizearray done ∨ e = (k, v) := by
  obtain ⟨hmem, hnone⟩ := mem_hashed.mp he
  obtain hmem | hmem := List.mem_append.mp hmem
  · exact .inl (mem_hashed.mpr ⟨hmem, hnone⟩)
  · exact .inr (List.mem_singleton.mp hmem)

theorem skip (h : SecondPass S tbl pl all done)
    (hk : inArray tbl.sizearray k = none → k ∈ pl.map fun e => e.2.1) :
    SecondPass S tbl pl all (done ++ [(k, v)]) where
  placed := h.placed
  array := h.array
  main e he := (h.main e he).imp_right fun hdone => by
    rw [List.map_append]
    exact List.mem_append_left _ hdone
  filled := h.filled
  covered e he := by
    obtain hold | rfl := mem_snoc_hashed he
    · exact h.covered e hold
    · exact hk (mem_hashed.mp he).2
  source := h.source

end SecondPass

end Jump.Skynet.ShareData
