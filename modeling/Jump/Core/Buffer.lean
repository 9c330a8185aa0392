import Jump.Core.Bytes

/-! # A destination of bounded size

A write behind the end of the destination is `none`.
-/

namespace Jump.Core

/-- The destination has the addresses from 0 up to `size`. -/
structure Buffer where
  size : Int
  bytes : Bytes.Memory

namespace Buffer

def put (d : Buffer) (p : Nat) (b : UInt8) : Option Buffer :=
  if (p : Int) < d.size then some { d with bytes := Function.update d.bytes p b } else none

def putAll (d : Buffer) (p : Nat) : List UInt8 → Option Buffer
  | [] => some d
  | b :: bytes => (d.put p b).bind fun d => d.putAll (p + 1) bytes

def slice (d : Buffer) (p len : Nat) : List UInt8 := Bytes.slice d.bytes p len

variable {d d' d'' : Buffer} {p q n m : Nat} {b : UInt8} {bytes : List UInt8}

theorem slice_zero (d : Buffer) (p : Nat) : d.slice p 0 = [] := rfl

theorem length_slice (d : Buffer) (p len : Nat) : (d.slice p len).length = len :=
  Bytes.slice_length ..

theorem slice_succ (d : Buffer) (p len : Nat) :
    d.slice p (len + 1) = d.bytes p :: d.slice (p + 1) len := by
  unfold slice Bytes.slice
  rw [List.range_succ_eq_map, List.map_cons, List.map_map]
  congr 1
  apply List.map_congr_left
  intro i _
  exact congrArg d.bytes (by simp only [Nat.succ_eq_add_one]; omega)

theorem slice_add (d : Buffer) (p len len' : Nat) :
    d.slice p (len + len') = d.slice p len ++ d.slice (p + len) len' := by
  induction len generalizing p with
  | zero => rw [Nat.zero_add, slice_zero, List.nil_append, Nat.add_zero]
  | succ len ih =>
      rw [Nat.succ_add, slice_succ, ih, slice_succ, List.cons_append]
      congr 3
      omega

theorem slice_of_eq {len : Nat} (h : ∀ i, p ≤ i → i < p + len → d'.bytes i = d.bytes i) :
    d'.slice p len = d.slice p len := by
  apply List.map_congr_left
  intro i hi
  have hlt := List.mem_range.mp hi
  exact h (p + i) (by omega) (by omega)

/-- `d'` is `d` with other bytes from `p` on. -/
structure From (p : Nat) (d d' : Buffer) : Prop where
  size : d'.size = d.size
  below : ∀ i, i < p → d'.bytes i = d.bytes i

theorem From.refl (p : Nat) (d : Buffer) : From p d d := ⟨rfl, fun _ _ => rfl⟩

theorem From.trans (h : From p d d') (h' : From p d' d'') : From p d d'' :=
  ⟨h'.size.trans h.size, fun i hi => (h'.below i hi).trans (h.below i hi)⟩

theorem From.mono (h : From p d d') (hle : q ≤ p) : From q d d' :=
  ⟨h.size, fun i hi => h.below i (Nat.lt_of_lt_of_le hi hle)⟩

theorem From.slice (h : From p d d') {len : Nat} (hle : q + len ≤ p) :
    d'.slice q len = d.slice q len :=
  slice_of_eq fun i _ hi => h.below i (by omega)

theorem put_eq (h : (p : Int) < d.size) :
    d.put p b = some { d with bytes := Function.update d.bytes p b } := if_pos h

theorem put_spec (h : (p : Int) < d.size) :
    ∃ d', d.put p b = some d' ∧ From p d d' ∧ d'.bytes p = b ∧
      ∀ i, p < i → d'.bytes i = d.bytes i := by
  refine ⟨_, put_eq h, ⟨rfl, ?_⟩, Function.update_self .., ?_⟩
  · intro i hi
    exact Function.update_of_ne (Nat.ne_of_lt hi) ..
  · intro i hi
    exact Function.update_of_ne (Nat.ne_of_gt hi) ..

/-- A write inside of the destination. -/
theorem putAll_spec (h : (p + bytes.length : Int) ≤ d.size) :
    ∃ d', d.putAll p bytes = some d' ∧ From p d d' ∧ d'.slice p bytes.length = bytes ∧
      ∀ i, p + bytes.length ≤ i → d'.bytes i = d.bytes i := by
  induction bytes generalizing d p with
  | nil => exact ⟨d, rfl, From.refl p d, rfl, fun _ _ => rfl⟩
  | cons b bytes ih =>
      rw [List.length_cons] at h
      obtain ⟨d₁, hput, hfrom, hbyte, habove⟩ := @put_spec d p b (by omega)
      obtain ⟨d', hall, hfrom', hslice, habove'⟩ := @ih d₁ (p + 1) (by rw [hfrom.size]; omega)
      refine ⟨d', ?_, hfrom.trans (hfrom'.mono (Nat.le_succ p)), ?_, ?_⟩
      · show (d.put p b).bind _ = _
        rw [hput]
        exact hall
      · rw [List.length_cons, slice_succ, hslice, hfrom'.below p (Nat.lt_succ_self p), hbyte]
      · intro i hi
        rw [List.length_cons] at hi
        rw [habove' i (by omega), habove i (by omega)]

/-- A write that reaches behind the end. -/
theorem putAll_none (hpos : bytes ≠ []) (h : d.size < (p + bytes.length : Int)) :
    d.putAll p bytes = none := by
  induction bytes generalizing d p with
  | nil => exact absurd rfl hpos
  | cons b bytes ih =>
      rw [List.length_cons] at h
      show (d.put p b).bind _ = _
      by_cases hlt : (p : Int) < d.size
      · rw [put_eq hlt, Option.bind_some]
        refine ih ?_ ?_
        · rintro rfl
          rw [List.length_nil] at h
          omega
        · show d.size < _
          omega
      · rw [put, if_neg hlt]
        rfl

/-- `d'` is `d` with `bytes` at `p`, and anything behind them. -/
structure Put (d : Buffer) (p : Nat) (bytes : List UInt8) (d' : Buffer) : Prop where
  rest : From p d d'
  slice : d'.slice p bytes.length = bytes

theorem Put.nil (d : Buffer) (p : Nat) : Put d p [] d := ⟨From.refl p d, rfl⟩

theorem Put.size (h : Put d p bytes d') : d'.size = d.size := h.rest.size

theorem Put.append {bytes' : List UInt8} (h : Put d p bytes d')
    (h' : Put d' (p + bytes.length) bytes' d'') : Put d p (bytes ++ bytes') d'' := by
  refine ⟨h.rest.trans (h'.rest.mono (Nat.le_add_right _ _)), ?_⟩
  rw [List.length_append, slice_add, h'.rest.slice (Nat.le_refl _), h.slice, h'.slice]

end Buffer

end Jump.Core
