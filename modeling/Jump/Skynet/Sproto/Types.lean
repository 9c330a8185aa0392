import Mathlib.Data.List.Basic
import Mathlib.Data.List.Pairwise

/-! # Type descriptors

The types that `sproto_create` of `sproto.c` builds, and `findtag`.
-/

namespace Jump.Skynet.Sproto

/-- `SPROTO_TINTEGER` and its like; the flag `SPROTO_TARRAY` is a field of its own. -/
inductive Kind where
  | integer
  | boolean
  | string
  | struct
deriving DecidableEq

/-- `st` is the index of the type of a struct. -/
structure Field where
  tag : Nat
  kind : Kind
  array : Bool
  name : String
  st : Nat
  key : Int

/-- `sproto_type`. A tag is read from the first 15 bits of a word. -/
structure SprotoType where
  f : List Field
  ascending : f.Pairwise fun a b => a.tag < b.tag
  tag_lt : ∀ a ∈ f, a.tag < 0x7fff

/-- The tags that are missing before one of the fields, as `import_type` counts them. -/
def gaps : Int → List Field → Nat
  | _, [] => 0
  | last, f :: rest => (if last + 1 < f.tag then 1 else 0) + gaps f.tag rest

namespace SprotoType

def n (st : SprotoType) : Nat := st.f.length

def maxn (st : SprotoType) : Nat := st.n + gaps (-1) st.f

/-- The first tag, or -1 unless the tags are contiguous. -/
def base (st : SprotoType) : Int :=
  match st.f.head?, st.f.getLast? with
  | some first, some last => if (last.tag : Int) - first.tag + 1 = st.n then first.tag else -1
  | _, _ => 0

end SprotoType

/-- The loop of `findtag`. -/
def searchTag (f : List Field) (tag : Int) (first last : Nat) : Option Field :=
  if first < last then
    let mid := (first + last) / 2
    match f[mid]? with
    | none => none
    | some a =>
      if (a.tag : Int) = tag then some a
      else if (a.tag : Int) < tag then searchTag f tag (mid + 1) last
      else searchTag f tag first mid
  else none
termination_by last - first

def findtag (st : SprotoType) (tag : Int) : Option Field :=
  if 0 ≤ st.base then
    if tag - st.base < 0 ∨ (st.n : Int) ≤ tag - st.base then none
    else st.f[(tag - st.base).toNat]?
  else searchTag st.f tag 0 st.n

/-! ## The field with a tag is found -/

theorem tag_lt_of_lt {f : List Field} (h : f.Pairwise fun a b => a.tag < b.tag) {i j : Nat}
    {a b : Field} (hi : f[i]? = some a) (hj : f[j]? = some b) (hij : i < j) : a.tag < b.tag := by
  obtain ⟨hi', rfl⟩ := List.getElem?_eq_some_iff.mp hi
  obtain ⟨hj', rfl⟩ := List.getElem?_eq_some_iff.mp hj
  exact List.pairwise_iff_getElem.mp h i j hi' hj' hij

theorem searchTag_eq {f : List Field} (h : f.Pairwise fun a b => a.tag < b.tag) {first last i : Nat}
    {a : Field} (hi : f[i]? = some a) (hfirst : first ≤ i) (hlast : i < last)
    (hlen : last ≤ f.length) : searchTag f a.tag first last = some a := by
  rw [searchTag, if_pos (by omega)]
  have hmid : (first + last) / 2 < f.length := by omega
  simp only [List.getElem?_eq_getElem hmid]
  have hget : f[(first + last) / 2]? = some f[(first + last) / 2] := List.getElem?_eq_getElem hmid
  rcases Nat.lt_trichotomy i ((first + last) / 2) with hlt | heq | hgt
  · have htag := tag_lt_of_lt h hi hget hlt
    rw [if_neg (by omega), if_neg (by omega)]
    exact searchTag_eq h hi hfirst hlt (by omega)
  · have hsame : f[(first + last) / 2] = a := by
      rw [heq, hget] at hi
      exact Option.some.inj hi
    rw [if_pos (by rw [hsame]), hsame]
  · have htag := tag_lt_of_lt h hget hi hgt
    rw [if_neg (by omega), if_pos (by omega)]
    exact searchTag_eq h hi hgt hlast hlen
termination_by last - first

/-- Ascending tags that cover no more than their number are contiguous. -/
theorem tag_add_le {f : List Field} (h : f.Pairwise fun a b => a.tag < b.tag) {i j : Nat}
    {a b : Field} (hi : f[i]? = some a) (hj : f[i + j]? = some b) : a.tag + j ≤ b.tag := by
  induction j generalizing b with
  | zero =>
      rw [Nat.add_zero, hi] at hj
      rw [Option.some.inj hj]
      exact Nat.le_refl _
  | succ j ih =>
      obtain ⟨hlt, -⟩ := List.getElem?_eq_some_iff.mp hj
      have hprev : f[i + j]? = some f[i + j] := List.getElem?_eq_getElem (by omega)
      have hle := ih hprev
      have hstep := tag_lt_of_lt h hprev hj (by omega)
      omega

theorem findtag_eq (st : SprotoType) {a : Field} (ha : a ∈ st.f) : findtag st a.tag = some a := by
  obtain ⟨i, hlt, rfl⟩ := List.mem_iff_getElem.mp ha
  have hi : st.f[i]? = some st.f[i] := List.getElem?_eq_getElem hlt
  unfold findtag
  by_cases hbase : 0 ≤ st.base
  · rw [if_pos hbase]
    have hpos : 0 < st.f.length := by omega
    have hlastlt : st.f.length - 1 < st.f.length := by omega
    have hhead : st.f.head? = some st.f[0] := by
      rw [List.head?_eq_getElem?]
      exact List.getElem?_eq_getElem hpos
    have hlast : st.f.getLast? = some st.f[st.f.length - 1] := by
      rw [List.getLast?_eq_getElem?]
      exact List.getElem?_eq_getElem hlastlt
    have hfirst := tag_add_le st.ascending (i := 0) (j := i) (List.getElem?_eq_getElem hpos)
      (by rw [Nat.zero_add]; exact hi)
    have hrest := tag_add_le st.ascending (i := i) (j := st.f.length - 1 - i) hi (by
      rw [show i + (st.f.length - 1 - i) = st.f.length - 1 by omega]
      exact List.getElem?_eq_getElem hlastlt)
    have hst : st.base = (st.f[0].tag : Int) ∧
        (st.f[st.f.length - 1].tag : Int) - st.f[0].tag + 1 = st.f.length := by
      have hdef : st.base = if (st.f[st.f.length - 1].tag : Int) - st.f[0].tag + 1 = st.f.length
          then (st.f[0].tag : Int) else -1 := by
        rw [SprotoType.base, hhead, hlast]
        rfl
      by_cases hcontiguous : (st.f[st.f.length - 1].tag : Int) - st.f[0].tag + 1 = st.f.length
      · exact ⟨by rw [hdef, if_pos hcontiguous], hcontiguous⟩
      · rw [hdef, if_neg hcontiguous] at hbase
        exact absurd hbase (by decide)
    have htag : (st.f[i].tag : Int) - st.base = i := by
      rw [hst.1]
      omega
    rw [htag, if_neg (by unfold SprotoType.n; omega), Int.toNat_natCast, hi]
  · rw [if_neg hbase]
    exact searchTag_eq st.ascending hi (Nat.zero_le i) hlt (Nat.le_refl _)

end Jump.Skynet.Sproto
