import Mathlib.Data.List.Induction
import Jump.Skynet.Sproto.EncodeValues

/-! # Arrays of integers

`encode_integer_array` writes four bytes for each number until a number needs eight, and then
makes room between the numbers that are there.
-/

namespace Jump.Skynet.Sproto

open Jump.Core

theorem length_numbers (width : Nat) (vs : List Value) :
    (numbers width vs).length = width * vs.length := by
  induction vs with
  | nil => rfl
  | cons v rest ih =>
      show (LittleEndian.encode width (numberOf v) ++ numbers width rest).length = _
      rw [List.length_append, LittleEndian.length_encode, ih, List.length_cons, Nat.mul_succ,
        Nat.add_comm]

theorem numbers_concat (width : Nat) (vs : List Value) (v : Value) :
    numbers width (vs ++ [v]) = numbers width vs ++ LittleEndian.encode width (numberOf v) := by
  rw [numbers, List.flatMap_append, List.flatMap_singleton]
  rfl

/-! ## The sign of a 32-bit number -/

theorem encode_signExtend_low (n : Nat) :
    LittleEndian.encode 4 (signExtend n) = LittleEndian.encode 4 n := by
  have hmod : signExtend n % 256 ^ 4 = n % 256 ^ 4 := by
    unfold signExtend
    split
    · omega
    · rfl
  rw [← LittleEndian.encode_mod, hmod, LittleEndian.encode_mod]

theorem encode_signExtend (n : Nat) (h : n < 2 ^ 32) :
    LittleEndian.encode 8 (signExtend n) =
      LittleEndian.encode 4 n ++ List.replicate 4 (if 2 ^ 31 ≤ n then 0xff else 0) := by
  rw [show (8 : Nat) = 4 + 4 from rfl, LittleEndian.encode_add, encode_signExtend_low n]
  congr 1
  unfold signExtend
  by_cases hneg : 2 ^ 31 ≤ n
  · rw [if_pos hneg, if_pos hneg, show (n + (2 ^ 64 - 2 ^ 32)) / 256 ^ 4 = 2 ^ 32 - 1 by omega]
    rfl
  · rw [if_neg hneg, if_neg hneg, show n / 256 ^ 4 = 0 by omega]
    rfl

theorem and_0x80 : ∀ b < 256, (UInt8.ofNat b &&& 0x80 ≠ 0) ↔ 128 ≤ b := by
  decide +kernel

/-- The highest byte of a 32-bit number has its sign. -/
theorem negative_iff (n : Nat) (h : n < 2 ^ 32) {b : UInt8}
    (hb : (LittleEndian.encode 4 n)[3]? = some b) : b &&& 0x80 ≠ 0 ↔ 2 ^ 31 ≤ n := by
  have hbyte : b = UInt8.ofNat (n / 256 / 256 / 256) := (Option.some.inj hb).symm
  rw [hbyte, and_0x80 _ (by omega)]
  omega

/-! ## Rearranging -/

theorem uint32ToUint64_put {d d' : Buffer} {p n : Nat} (h : n < 2 ^ 32)
    (hput : Buffer.Put d p (LittleEndian.encode 4 n) d') (hsize : (p + 8 : Int) ≤ d.size) :
    ∃ d'', uint32ToUint64 (2 ^ 31 ≤ n) d' p = .ok d'' ∧
      Buffer.Put d p (LittleEndian.encode 8 (signExtend n)) d'' ∧
      ∀ i, p + 8 ≤ i → d''.bytes i = d'.bytes i := by
  have hlen : (LittleEndian.encode 4 n).length = 4 := LittleEndian.length_encode ..
  obtain ⟨d'', hwrite, hhigh, habove⟩ := @write_put d' (p + 4)
    (List.replicate 4 (if 2 ^ 31 ≤ n then 0xff else 0))
    (by rw [List.length_replicate, hput.size]; push_cast; omega)
  refine ⟨d'', ?_, ?_, ?_⟩
  · rw [uint32ToUint64]
    simp only [decide_eq_true_eq]
    exact hwrite
  · rw [encode_signExtend n h]
    exact hput.append (by rw [hlen]; exact hhigh)
  · rw [List.length_replicate] at habove
    exact fun i hi => habove i (by omega)

theorem rearrange_put {header : Nat} {vs : List Value} (hvs : ∀ v ∈ vs, ∃ n, v = .dword n)
    {d : Buffer} (hslice : d.slice (header + 1) (4 * vs.length) = numbers 4 vs)
    (hsize : (header + 1 + 8 * vs.length : Int) ≤ d.size) :
    ∃ d', rearrange header vs.length d = .ok d' ∧ Buffer.Put d (header + 1) (numbers 8 vs) d' ∧
      ∀ i, header + 1 + 8 * vs.length ≤ i → d'.bytes i = d.bytes i := by
  induction vs using List.reverseRecOn generalizing d with
  | nil => exact ⟨d, rfl, Buffer.Put.nil _ _, fun _ _ => rfl⟩
  | append_singleton vs v ih =>
      obtain ⟨n, rfl⟩ := hvs v (by simp)
      have hlt : n.toNat < 2 ^ 32 := n.toNat_lt
      have hlen : (vs ++ [Value.dword n]).length = vs.length + 1 := by
        rw [List.length_append, List.length_singleton]
      have hlow : LittleEndian.encode 4 (numberOf (.dword n)) = LittleEndian.encode 4 n.toNat :=
        encode_signExtend_low n.toNat
      have hlen4 : (LittleEndian.encode 4 n.toNat).length = 4 := LittleEndian.length_encode ..
      rw [hlen] at hsize ⊢
      rw [hlen, Nat.mul_succ, Buffer.slice_add, numbers_concat, hlow] at hslice
      obtain ⟨hinit, hlast⟩ := List.append_inj hslice (by
        rw [Buffer.length_slice, length_numbers])
      obtain ⟨d₁, hwrite, hput₁, habove₁⟩ := @write_put d (header + 1 + vs.length * 8)
        (LittleEndian.encode 4 n.toNat) (by rw [hlen4]; push_cast; omega)
      have hbyte : (LittleEndian.encode 4 n.toNat)[3]? =
          some (d₁.bytes (header + 1 + vs.length * 8 + 3)) := by
        rw [← hput₁.slice, hlen4]
        rfl
      have hnegative : decide (d₁.bytes (header + 1 + vs.length * 8 + 3) &&& 0x80 ≠ 0) =
          decide (2 ^ 31 ≤ n.toNat) :=
        decide_eq_decide.mpr (negative_iff n.toNat hlt hbyte)
      obtain ⟨d₂, hextend, hput₂, habove₂⟩ := uint32ToUint64_put hlt hput₁
        (by push_cast; omega)
      have hinit₂ : d₂.slice (header + 1) (4 * vs.length) = numbers 4 vs := by
        rw [hput₂.rest.slice (by omega), hinit]
      obtain ⟨d', hrest, hput', habove'⟩ := ih
        (fun v hv => hvs v (List.mem_append_left _ hv)) hinit₂
        (by rw [hput₂.size]; push_cast at hsize; omega)
      refine ⟨d', ?_, ⟨(hput₂.rest.mono (by omega)).trans hput'.rest, ?_⟩, ?_⟩
      · rw [rearrange, Nat.mul_comm vs.length 4, hlast]
        show (write d _ _).bind _ = _
        rw [hwrite]
        show (uint32ToUint64 (decide _) d₁ _).bind _ = _
        rw [hnegative, hextend]
        exact hrest
      · have hlen8 : (LittleEndian.encode 8 (signExtend n.toNat)).length = 8 :=
          LittleEndian.length_encode ..
        have hnum := length_numbers 8 vs
        rw [length_numbers, hlen, Nat.mul_succ, Buffer.slice_add, numbers_concat]
        congr 1
        · rw [← hnum]
          exact hput'.slice
        · have hsame : d'.slice (header + 1 + 8 * vs.length) 8 =
              d₂.slice (header + 1 + 8 * vs.length) 8 :=
            Buffer.slice_of_eq fun i hi _ => habove' i hi
          have hslice₂ := hput₂.slice
          rw [hlen8] at hslice₂
          rw [hsame, Nat.mul_comm 8]
          exact hslice₂
      · intro i hi
        rw [habove' i (by omega), habove₂ i (by omega), habove₁ i (by rw [hlen4]; omega)]

/-- Without the room the last number is already written behind the buffer. -/
theorem rearrange_outside {header k : Nat} {d : Buffer} (hk : 0 < k)
    (hsize : d.size < (header + 1 + 8 * k : Int)) :
    rearrange header k d = .error .outside := by
  obtain ⟨i, rfl⟩ := Nat.exists_eq_add_one_of_ne_zero (Nat.ne_of_gt hk)
  rw [rearrange]
  have hlen := d.length_slice (header + 1 + i * 4) 4
  generalize hbytes : d.slice (header + 1 + i * 4) 4 = bytes at hlen
  have hne : bytes ≠ [] := by
    rintro rfl
    cases hlen
  by_cases hfirst : (header + 1 + i * 8 + 4 : Int) ≤ d.size
  · obtain ⟨d₁, hwrite, hput, -⟩ := @write_put d (header + 1 + i * 8) bytes
      (by rw [hlen]; push_cast; omega)
    rw [hwrite]
    show (uint32ToUint64 _ d₁ _).bind _ = _
    have hrep (b : UInt8) : List.replicate 4 b ≠ [] := List.cons_ne_nil _ _
    rw [uint32ToUint64, write_outside (hrep _)]
    · rfl
    · rw [hput.size, List.length_replicate]
      push_cast at hsize ⊢
      omega
  · rw [write_outside hne]
    · rfl
    · rw [hlen]
      push_cast
      omega

/-! ## The loop -/

def IsInteger (v : Value) : Prop := (∃ n, v = .dword n) ∨ ∃ n, v = .qword n

theorem width_concat (vs : List Value) (v : Value) :
    width (vs ++ [v]) = if isQword v then 8 else width vs := by
  unfold width
  rw [List.any_append, List.any_cons, List.any_nil, Bool.or_false]
  cases isQword v with
  | false => rw [Bool.or_false, if_neg Bool.false_ne_true]
  | true => rw [Bool.or_true, if_pos rfl, if_pos rfl]

theorem width_eq (vs : List Value) : width vs = 4 ∨ width vs = 8 := by
  unfold width
  split
  · exact .inr rfl
  · exact .inl rfl

/-- Four bytes for each number: none of them needs eight. -/
theorem dword_of_width {vs : List Value} (hvs : ∀ v ∈ vs, IsInteger v) (h : width vs = 4) :
    ∀ v ∈ vs, ∃ n, v = .dword n := by
  intro v hv
  rcases hvs v hv with hdword | ⟨n, rfl⟩
  · exact hdword
  · have hany : vs.any isQword = true := List.any_eq_true.mpr ⟨_, hv, rfl⟩
    rw [width, if_pos hany] at h
    cases h

/-- The numbers `done` of an array at `header`, each with their width. -/
structure Numbers (d₀ : Buffer) (header : Nat) (done : List Value) (intlen room : Nat)
    (s : IntState) : Prop where
  put : Buffer.Put d₀ (header + 1) (numbers intlen done) s.d
  buffer : s.buffer = header + 1 + (numbers intlen done).length
  free : Room s.d s.buffer room
  size : s.size = room
  intlen : s.intlen = intlen
  index : s.index = done.length + 1

theorem widen_ends {d₀ : Buffer} {header room : Nat} {done : List Value} {s : IntState}
    (h : Numbers d₀ header done 4 room s) (hdone : ∀ v ∈ done, ∃ n, v = .dword n)
    (hroom : 8 ≤ room) :
    Ends (widen header s) (widenSpace room done.length) (· = none)
      (fun left r => ∃ s', r = some s' ∧ Numbers d₀ header done 8 left s' ∧
        8 ≤ left ∧ left ≤ room) := by
  have htotal := h.free.total
  have hlt := h.free.size_lt
  have hbuffer := h.buffer
  have hlen := length_numbers 4 done
  have hlen8 := length_numbers 8 done
  have hindex : s.index - 1 = done.length := by rw [h.index, Nat.add_sub_cancel]
  unfold widen widenSpace
  rw [if_pos h.intlen, hindex]
  simp only [h.size]
  by_cases hover : room < 4 * done.length
  · have hsize : ¬ sizeOfInt ((room : Int) - (done.length * 4 : Nat)) < 8 := by
      unfold sizeOfInt
      omega
    rw [if_pos hover, if_neg hsize, rearrange_outside (by omega) (by omega)]
    rfl
  rw [if_neg hover]
  by_cases hfull : room - 4 * done.length < 8
  · have hsize : sizeOfInt ((room : Int) - (done.length * 4 : Nat)) < 8 := by
      unfold sizeOfInt
      omega
    rw [if_pos hfull, if_pos hsize]
    exact ⟨_, rfl, rfl⟩
  · have hsize : ¬ sizeOfInt ((room : Int) - (done.length * 4 : Nat)) < 8 := by
      unfold sizeOfInt
      omega
    rw [if_neg hfull, if_neg hsize]
    have hslice := h.put.slice
    rw [hlen] at hslice
    obtain ⟨d', hrearrange, hput, -⟩ := rearrange_put hdone hslice (by omega)
    refine ⟨_, by rw [hrearrange]; rfl, _, rfl, ?_⟩
    refine ⟨⟨⟨h.put.rest.trans hput.rest, hput.slice⟩, ?_, ⟨?_, ?_⟩, ?_, rfl, h.index⟩,
      Nat.le_of_not_lt hfull, Nat.sub_le _ _⟩
    · show s.buffer + done.length * 4 = _
      omega
    · show ((s.buffer + done.length * 4 : Nat) : Int) + _ = d'.size
      rw [hput.size]
      omega
    · rw [hput.size]
      exact hlt
    · show (room : Int) - (done.length * 4 : Nat) = _
      omega

section Give

variable {encode : Nat → Fields → Buffer → Nat → Int → Except Halt (Int × Buffer)}

theorem Numbers.next {d₀ : Buffer} {header room intlen : Nat} {done : List Value} {s : IntState}
    (h : Numbers d₀ header done intlen room s) {d' : Buffer} {v : Value}
    (hput : Buffer.Put s.d s.buffer (LittleEndian.encode intlen (numberOf v)) d')
    (hroom : intlen ≤ room) :
    Numbers d₀ header (done ++ [v]) intlen (room - intlen)
      ⟨d', s.buffer + intlen, s.size - intlen, intlen, s.index + 1⟩ := by
  have hlen : (LittleEndian.encode intlen (numberOf v)).length = intlen :=
    LittleEndian.length_encode ..
  have hafter := h.free.after hput (show room - intlen + _ = room by rw [hlen]; omega)
  rw [hlen] at hafter
  refine ⟨?_, ?_, hafter, ?_, rfl, ?_⟩
  · rw [numbers_concat]
    exact h.put.append (by rw [← h.buffer]; exact hput)
  · rw [numbers_concat, List.length_append, hlen]
    show s.buffer + intlen = _
    rw [h.buffer]
    omega
  · show s.size - _ = _
    rw [h.size]
    omega
  · show s.index + 1 = _
    rw [h.index, List.length_append, List.length_singleton]

/-- A number of 32 bits among numbers of either width. -/
theorem putDword_put {d : Buffer} {p : Nat} (n : UInt32) {intlen : Nat}
    (hintlen : intlen = 4 ∨ intlen = 8) (hsize : (p + 8 : Int) ≤ d.size) :
    ∃ d', putDword d p intlen n.toNat = .ok d' ∧
      Buffer.Put d p (LittleEndian.encode intlen (numberOf (.dword n))) d' := by
  have hlen : (LittleEndian.encode 4 n.toNat).length = 4 := LittleEndian.length_encode ..
  have hlt : n.toNat < 2 ^ 32 := n.toNat_lt
  obtain ⟨d₁, hwrite, hput, -⟩ := @write_put d p (LittleEndian.encode 4 n.toNat)
    (by rw [hlen]; omega)
  rw [putDword, hwrite]
  rcases hintlen with rfl | rfl
  · refine ⟨d₁, rfl, ?_⟩
    show Buffer.Put d p (LittleEndian.encode 4 (signExtend n.toNat)) d₁
    rw [encode_signExtend_low n.toNat]
    exact hput
  · obtain ⟨d₂, hextend, hput₂, -⟩ := uint32ToUint64_put hlt hput hsize
    exact ⟨d₂, hextend, hput₂⟩

theorem integerLoop_dword {fields : Fields} {args : Arg} {header fuel : Nat} {s : IntState}
    {n : UInt32} (hsome : (given fields args.tagid)[s.index - 1]? = some (.dword n))
    (hsize : ¬ sizeOfInt s.size < 8) :
    integerLoop (give encode fields) args header (fuel + 1) s = (do
      let d ← putDword s.d s.buffer s.intlen n.toNat
      integerLoop (give encode fields) args header fuel
        ⟨d, s.buffer + s.intlen, s.size - s.intlen, s.intlen, s.index + 1⟩) := by
  have hu32 : u32Of n.toUInt64 = n.toNat := by
    rw [u32Of, UInt32.toNat_toUInt64]
    exact Nat.mod_eq_of_lt n.toNat_lt
  rw [integerLoop, give_some s.d hsome]
  show (if sizeOfInt s.size < 8 then _ else _) = _
  rw [if_neg hsize, ← hu32]
  rfl

theorem integerLoop_qword {fields : Fields} {args : Arg} {header fuel : Nat} {s : IntState}
    {n : UInt64} (hsome : (given fields args.tagid)[s.index - 1]? = some (.qword n))
    (hsize : ¬ sizeOfInt s.size < 8) :
    integerLoop (give encode fields) args header (fuel + 1) s = (do
      match ← widen header s with
      | none => .ok none
      | some s => do
        let d ← write s.d s.buffer (LittleEndian.encode 8 n.toNat)
        integerLoop (give encode fields) args header fuel
          ⟨d, s.buffer + s.intlen, s.size - s.intlen, s.intlen, s.index + 1⟩) := by
  rw [integerLoop, give_some s.d hsome]
  show (if sizeOfInt s.size < 8 then _ else _) = _
  rw [if_neg hsize]
  rfl

/-- A number of 64 bits, once there is room between the others. -/
theorem Numbers.qword {d₀ : Buffer} {header room : Nat} {done : List Value} {s : IntState}
    (h : Numbers d₀ header done 8 room s) (hroom : 8 ≤ room) (n : UInt64) :
    ∃ d', write s.d s.buffer (LittleEndian.encode 8 n.toNat) = .ok d' ∧
      Numbers d₀ header (done ++ [.qword n]) 8 (room - 8)
        ⟨d', s.buffer + s.intlen, s.size - s.intlen, s.intlen, s.index + 1⟩ := by
  have htotal := h.free.total
  obtain ⟨d', hwrite, hput, -⟩ := @write_put s.d s.buffer (LittleEndian.encode 8 n.toNat)
    (by rw [LittleEndian.length_encode]; omega)
  exact ⟨d', hwrite, by rw [h.intlen]; exact h.next hput hroom⟩

variable (encode) in
theorem integerLoop_ends {fields : Fields} {args : Arg} {d₀ : Buffer} {header : Nat}
    (done : List Value) {rest : List Value} (hgiven : given fields args.tagid = done ++ rest)
    (hvs : ∀ v ∈ done ++ rest, IsInteger v) {fuel room : Nat} {s : IntState}
    (h : Numbers d₀ header done (width done) room s) (hfuel : room < fuel) :
    Ends (integerLoop (give encode fields) args header fuel s)
      (integerSpace room (width done) done.length rest) (· = none)
      (fun left r => ∃ s', r = some s' ∧
        Numbers d₀ header (done ++ rest) (width (done ++ rest)) left s') := by
  induction rest generalizing done fuel room s with
  | nil =>
      obtain ⟨fuel, rfl⟩ := Nat.exists_eq_add_one_of_ne_zero (Nat.ne_zero_of_lt hfuel)
      rw [List.append_nil] at hgiven ⊢
      have hnone : (given fields args.tagid)[s.index - 1]? = none := by
        rw [hgiven, h.index, Nat.add_sub_cancel]
        exact List.getElem?_eq_none (Nat.le_refl _)
      rw [integerLoop, give_none s.d hnone]
      exact ⟨_, rfl, _, rfl, h⟩
  | cons v rest ih =>
      obtain ⟨fuel, rfl⟩ := Nat.exists_eq_add_one_of_ne_zero (Nat.ne_zero_of_lt hfuel)
      have happend : done ++ v :: rest = done ++ [v] ++ rest := List.append_cons ..
      have hsome : (given fields args.tagid)[s.index - 1]? = some v := by
        rw [hgiven, h.index, Nat.add_sub_cancel, List.getElem?_append_right (Nat.le_refl _),
          Nat.sub_self]
        rfl
      have hcount : (done ++ [v]).length = done.length + 1 := by
        rw [List.length_append, List.length_singleton]
      have hrest (room : Nat) (s : IntState) :=
        @ih (done ++ [v]) (hgiven.trans happend) (by rw [← happend]; exact hvs) fuel room s
      have htotal := h.free.total
      have hinteger : IsInteger v := hvs v (by simp)
      have hdone : ∀ w ∈ done, IsInteger w := fun w hw => hvs w (List.mem_append_left _ hw)
      rw [hcount, ← happend] at hrest
      by_cases hfull : room < 8
      · have hsize : sizeOfInt s.size < 8 := by
          rw [h.size, h.free.sizeOfInt]
          exact hfull
        rw [integerSpace, if_pos hfull, integerLoop, give_some s.d hsome]
        rcases hinteger with ⟨n, rfl⟩ | ⟨n, rfl⟩
        · exact ⟨none, if_pos hsize, rfl⟩
        · exact ⟨none, if_pos hsize, rfl⟩
      have hsize : ¬ sizeOfInt s.size < 8 := by
        rw [h.size, h.free.sizeOfInt]
        exact hfull
      rw [integerSpace, if_neg hfull]
      rcases hinteger with ⟨n, rfl⟩ | ⟨n, rfl⟩
      · have hwidth : width (done ++ [.dword n]) = width done := width_concat ..
        have hbound : 4 ≤ width done ∧ width done ≤ 8 := by
          rcases width_eq done with hw | hw
          · omega
          · omega
        obtain ⟨d', hwrite, hput⟩ := putDword_put n (width_eq done)
          (show (s.buffer + 8 : Int) ≤ s.d.size by omega)
        have hnext := h.next hput (by omega)
        rw [if_neg fun h => Bool.false_ne_true h.1, integerLoop_dword hsome hsize, h.intlen, hwrite]
        rw [hwidth] at hrest
        exact hrest _ _ hnext (by omega)
      · have hwidth : width (done ++ [.qword n]) = 8 := width_concat ..
        rw [hwidth] at hrest
        rw [integerLoop_qword hsome hsize]
        rcases width_eq done with hfour | height
        · rw [hfour] at h ⊢
          rw [if_pos ⟨rfl, rfl⟩]
          have hwiden := widen_ends h (dword_of_width hdone hfour) (by omega)
          refine hwiden.bind ?_ ?_
          · rintro _ rfl
            exact ⟨none, rfl, rfl⟩
          · rintro left _ ⟨s', rfl, hs', hleft, hle⟩
            obtain ⟨d', hwrite, hnext⟩ := hs'.qword hleft n
            show Ends (write _ _ _ >>= _) _ _ _
            rw [hwrite]
            exact hrest _ _ hnext (by omega)
        · have hwiden : widen header s = .ok (some s) := by
            rw [widen, if_neg (by rw [h.intlen, height]; decide)]
          rw [height] at h ⊢
          rw [if_neg fun h => absurd h.2 (by decide), hwiden]
          obtain ⟨d', hwrite, hnext⟩ := h.qword (by omega) n
          show Ends (write _ _ _ >>= _) _ _ _
          rw [hwrite]
          exact hrest _ _ hnext (by omega)

end Give

end Jump.Skynet.Sproto
