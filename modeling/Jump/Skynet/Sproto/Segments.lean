import Jump.Skynet.Sproto.Pack
import Mathlib.Data.List.Lemmas

/-! # Segments

What the packing writes for a segment and for a block of segments.
-/

namespace Jump.Skynet.Sproto

open Jump.Core

def nonzeros (seg : List UInt8) : List UInt8 := seg.filter fun b => b ≠ 0

/-- A bit for each byte that is not zero, from the bit `i` on. -/
def header : Nat → List UInt8 → Nat
  | _, [] => 0
  | i, b :: seg => (if b ≠ 0 then 1 <<< i else 0) ||| header (i + 1) seg

def plain (seg : List UInt8) : List UInt8 := UInt8.ofNat (header 0 seg) :: nonzeros seg

def block (segs : List (List UInt8)) : List UInt8 :=
  if segs = [] then [] else 0xff :: UInt8.ofNat (segs.length - 1) :: segs.flatten

/-- What is written when a segment follows those of the open block, and the open block then. -/
def advance (segs : List (List UInt8)) (seg : List UInt8) : List UInt8 × List (List UInt8) :=
  if segs = [] then
    if (nonzeros seg).length = 8 then ([], [seg]) else (plain seg, [])
  else if 6 ≤ (nonzeros seg).length then
    if segs.length + 1 = 256 then (block (segs ++ [seg]), []) else ([], segs ++ [seg])
  else (block segs ++ plain seg, [])

/-- The packed form of segments behind those of an open block. -/
def packed : List (List UInt8) → List (List UInt8) → List UInt8
  | segs, [] => block segs
  | segs, seg :: rest => (advance segs seg).1 ++ packed (advance segs seg).2 rest

/-- The open block behind some more segments. -/
def openBlock (segs rest : List (List UInt8)) : List (List UInt8) :=
  rest.foldl (fun segs seg => (advance segs seg).2) segs

/-- The segment goes into a block behind `n` segments of one. -/
def Joins (n : Nat) (seg : List UInt8) : Prop :=
  (nonzeros seg).length = 8 ∨ 6 ≤ (nonzeros seg).length ∧ 0 < n

instance (n : Nat) (seg : List UInt8) : Decidable (Joins n seg) :=
  inferInstanceAs (Decidable (_ ∨ _))

/-- What `pack_seg` returns behind `n` segments of a block. -/
def segSize (n : Nat) (seg : List UInt8) : Nat :=
  if Joins n seg then if 0 < n then 8 else 10 else (nonzeros seg).length + 1

variable {mem : List UInt8} {seg bytes : List UInt8} {segs rest : List (List UInt8)}
  {d d' : Buffer} {b : UInt8}

theorem length_nonzeros_le (seg : List UInt8) : (nonzeros seg).length ≤ seg.length :=
  List.length_filter_le ..

theorem nonzeros_cons (hb : b ≠ 0) : nonzeros (b :: seg) = b :: nonzeros seg :=
  List.filter_cons_of_pos (by simpa using hb)

theorem nonzeros_cons_zero : nonzeros (0 :: seg) = nonzeros seg :=
  List.filter_cons_of_neg (by simp)

theorem length_plain (seg : List UInt8) : (plain seg).length = (nonzeros seg).length + 1 := rfl

theorem block_nil : block [] = [] := if_pos rfl

theorem block_eq (h : segs ≠ []) :
    block segs = 0xff :: UInt8.ofNat (segs.length - 1) :: segs.flatten := if_neg h

theorem length_flatten (h : ∀ seg ∈ segs, seg.length = 8) :
    segs.flatten.length = 8 * segs.length := by
  induction segs with
  | nil => rfl
  | cons seg segs ih =>
      rw [List.flatten_cons, List.length_append, h seg List.mem_cons_self,
        ih fun seg hseg => h seg (List.mem_cons_of_mem _ hseg), List.length_cons]
      omega

theorem length_block (h : ∀ seg ∈ segs, seg.length = 8) (hne : segs ≠ []) :
    (block segs).length = 2 + 8 * segs.length := by
  rw [block_eq hne, List.length_cons, List.length_cons, length_flatten h]
  omega

/-! ## Reads -/

theorem read_eq {p n : Nat} (h : p + n ≤ mem.length) :
    read mem p n = some ((mem.drop p).take n) := if_pos h

theorem read_none {p n : Nat} (h : mem.length < p + n) : read mem p n = none :=
  if_neg (Nat.not_le.mpr h)

theorem length_take_drop {p n : Nat} (h : p + n ≤ mem.length) :
    ((mem.drop p).take n).length = n := by
  rw [List.length_take, List.length_drop]
  omega

/-! ## `pack_seg` -/

/-- The loop writes the bytes that are not zero behind each other. -/
theorem segLoop_spec {i : Nat} {s : SegState} (hsize : s.buffer + s.sz = s.des.size) :
    ∃ s', segLoop seg i s = some s' ∧ s'.header = s.header ||| header i seg ∧
      s'.notzero = s.notzero + (nonzeros seg).length ∧ Buffer.From s.buffer s.des s'.des ∧
      ((nonzeros seg).length ≤ s.sz →
        s'.des.slice s.buffer (nonzeros seg).length = nonzeros seg) := by
  induction seg generalizing i s with
  | nil =>
      exact ⟨s, rfl, (Nat.or_zero _).symm, rfl, Buffer.From.refl .., fun _ => rfl⟩
  | cons b seg ih =>
      unfold segLoop
      by_cases hb : b ≠ 0
      · have hheader : header i (b :: seg) = 1 <<< i ||| header (i + 1) seg := by
          rw [header, if_pos hb]
        rw [if_pos hb, nonzeros_cons hb, hheader]
        by_cases hsz : 0 < s.sz
        · obtain ⟨d, hput, hfrom, hbyte, -⟩ := @Buffer.put_spec s.des s.buffer b (by omega)
          obtain ⟨s', hrun, hheader', hnotzero, hfrom', hslice⟩ := @ih (i + 1)
            { s with
              notzero := s.notzero + 1
              header := s.header ||| 1 <<< i
              des := d
              buffer := s.buffer + 1
              sz := s.sz - 1 } (by rw [hfrom.size, ← hsize]; push_cast; omega)
          refine ⟨s', ?_, ?_, ?_, hfrom.trans (hfrom'.mono (Nat.le_succ _)), ?_⟩
          · simp only [if_pos hsz, hput]
            exact hrun
          · rw [hheader']
            exact Nat.or_assoc ..
          · rw [hnotzero, List.length_cons]
            simp only
            omega
          · intro hle
            rw [List.length_cons] at hle
            rw [List.length_cons, Buffer.slice_succ, hslice (by simp only; omega),
              hfrom'.below _ (Nat.lt_succ_self _), hbyte]
        · obtain ⟨s', hrun, hheader', hnotzero, hfrom', -⟩ := @ih (i + 1)
            { s with
              notzero := s.notzero + 1
              header := s.header ||| 1 <<< i } hsize
          refine ⟨s', ?_, ?_, ?_, hfrom', ?_⟩
          · simp only [if_neg hsz]
            exact hrun
          · rw [hheader']
            exact Nat.or_assoc ..
          · rw [hnotzero, List.length_cons]
            simp only
            omega
          · intro hle
            rw [List.length_cons] at hle
            omega
      · have hzero : b = 0 := not_not.mp hb
        have hheader : header i (b :: seg) = header (i + 1) seg := by
          rw [header, if_neg hb, Nat.zero_or]
        rw [if_neg hb, hheader, hzero, nonzeros_cons_zero]
        exact ih hsize

/-- What a segment writes, if it does not join a block. -/
theorem packSeg_spec {buffer n : Nat} {sz : Int} (hseg : seg.length = 8)
    (hsize : buffer + sz = d.size) :
    ∃ d', packSeg seg buffer sz n d = some (segSize n seg, d') ∧ Buffer.From buffer d d' ∧
      (¬Joins n seg → segSize n seg ≤ sz →
        d'.slice buffer (segSize n seg) = plain seg) := by
  have hle := length_nonzeros_le seg
  obtain ⟨s, hrun, hheader, hnotzero, hfrom, hslice⟩ := @segLoop_spec seg 0
    ⟨0, 0, buffer + 1, sz - 1, d⟩ (by push_cast; omega)
  have hbelow := hfrom.mono (Nat.le_succ buffer)
  simp only [Nat.zero_add, Nat.zero_or] at hnotzero hheader hslice
  unfold packSeg
  rw [hrun]
  simp only [Option.bind_some, hnotzero]
  by_cases hjoin : Joins n seg
  · have hcount : (nonzeros seg).length = 8 ∨ 6 ≤ (nonzeros seg).length ∧ 0 < n := hjoin
    have height : (if ((nonzeros seg).length = 7 ∨ (nonzeros seg).length = 6) ∧ 0 < n then 8
        else (nonzeros seg).length) = 8 := by
      split <;> omega
    have hret : segSize n seg = if 0 < n then 8 else 10 := if_pos hjoin
    rw [if_pos height, hret]
    exact ⟨s.des, rfl, hbelow, fun hnot => absurd hjoin hnot⟩
  · have hcount : ¬((nonzeros seg).length = 8 ∨ 6 ≤ (nonzeros seg).length ∧ 0 < n) := hjoin
    have hstay : (if ((nonzeros seg).length = 7 ∨ (nonzeros seg).length = 6) ∧ 0 < n then 8
        else (nonzeros seg).length) = (nonzeros seg).length := if_neg (by omega)
    have hret : segSize n seg = (nonzeros seg).length + 1 := if_neg hjoin
    rw [hstay, if_neg (by omega), hret]
    by_cases hsz : sz - 1 < 0
    · rw [if_pos hsz]
      exact ⟨s.des, rfl, hbelow, fun _ hsize => by omega⟩
    · rw [if_neg hsz]
      obtain ⟨d', hput, hfrom', hbyte, habove⟩ := @Buffer.put_spec s.des buffer
        (UInt8.ofNat s.header) (by rw [hfrom.size]; simp only; omega)
      refine ⟨d', by rw [hput]; rfl, hbelow.trans hfrom', fun _ hroom => ?_⟩
      have hkeep : d'.slice (buffer + 1) (nonzeros seg).length = nonzeros seg :=
        (Buffer.slice_of_eq fun i hi _ => habove i hi).trans (hslice (by omega))
      rw [Buffer.slice_succ, hkeep, hbyte, hheader]
      rfl

/-! ## `write_ff` -/

theorem align_eq (n : Nat) : n + ((n + 7) / 8 * 8 - n) = (n + 7) / 8 * 8 := by omega

/-- A block with its bytes from the source, padded. -/
theorem writeFF_spec {src des n : Nat} (hread : read mem src n = some bytes)
    (hroom : ((des + (2 + (n + 7) / 8 * 8) : Nat) : Int) ≤ d.size) :
    ∃ d', writeFF mem src des n d = some d' ∧ Buffer.From des d d' ∧
      d'.slice des (2 + (n + 7) / 8 * 8) = 0xff :: UInt8.ofNat ((n + 7) / 8 * 8 / 8 - 1) ::
        (bytes ++ List.replicate ((n + 7) / 8 * 8 - n) 0) ∧
      ∀ i, des + (2 + (n + 7) / 8 * 8) ≤ i → d'.bytes i = d.bytes i := by
  have hlength : bytes.length = n := by
    unfold read at hread
    split at hread
    · rename_i hle
      cases hread
      exact length_take_drop hle
    · cases hread
  unfold writeFF
  have hn := align_eq n
  generalize (n + 7) / 8 * 8 = align8 at hn hroom
  obtain ⟨d₁, hput₁, hfrom₁, hbyte₁, habove₁⟩ := @Buffer.put_spec d des 0xff (by omega)
  obtain ⟨d₂, hput₂, hfrom₂, hbyte₂, habove₂⟩ := @Buffer.put_spec d₁ (des + 1)
    (UInt8.ofNat (align8 / 8 - 1)) (by rw [hfrom₁.size]; omega)
  obtain ⟨d₃, hput₃, hfrom₃, hslice₃, habove₃⟩ := @Buffer.putAll_spec d₂ (des + 2) bytes
    (by rw [hfrom₂.size, hfrom₁.size]; push_cast; omega)
  obtain ⟨d₄, hput₄, hfrom₄, hslice₄, habove₄⟩ := @Buffer.putAll_spec d₃ (des + 2 + n)
    (List.replicate (align8 - n) 0)
    (by rw [hfrom₃.size, hfrom₂.size, hfrom₁.size, List.length_replicate]; push_cast; omega)
  simp only [hput₁, hput₂, hread, hput₃, hput₄, Option.bind_some]
  rw [hlength] at hslice₃ habove₃
  rw [List.length_replicate] at hslice₄ habove₄
  have hhead : d₄.bytes des = 0xff := by
    rw [hfrom₄.below des (by omega), hfrom₃.below des (by omega), hfrom₂.below des (by omega),
      hbyte₁]
  have hcount : d₄.bytes (des + 1) = UInt8.ofNat (align8 / 8 - 1) := by
    rw [hfrom₄.below _ (by omega), hfrom₃.below _ (by omega), hbyte₂]
  have hbytes : d₄.slice (des + 2) n = bytes := (hfrom₄.slice (Nat.le_refl _)).trans hslice₃
  refine ⟨d₄, rfl, ?_, ?_, fun i hi => ?_⟩
  · exact hfrom₁.trans ((hfrom₂.mono (by omega)).trans ((hfrom₃.mono (by omega)).trans
      (hfrom₄.mono (by omega))))
  · have hslice : d₄.slice (des + 2) align8 = bytes ++ List.replicate (align8 - n) 0 := by
      rw [← hn, Buffer.slice_add, hbytes, Nat.add_sub_cancel_left, hslice₄]
    rw [Nat.add_comm 2 align8, Buffer.slice_succ, Buffer.slice_succ, hhead, hcount, hslice]
  · rw [habove₄ i (by omega), habove₃ i (by omega), habove₂ i (by omega), habove₁ i (by omega)]

/-- The bytes, padded, are the segments of a block. -/
theorem writeFF_block {src des n : Nat} (hwhole : ∀ seg ∈ segs, seg.length = 8) (hne : segs ≠ [])
    (hn : (n + 7) / 8 = segs.length) (hread : read mem src n = some bytes)
    (hbytes : bytes ++ List.replicate (8 * segs.length - n) 0 = segs.flatten)
    (hroom : ((des + (block segs).length : Nat) : Int) ≤ d.size) :
    ∃ d', writeFF mem src des n d = some d' ∧ Buffer.From des d d' ∧
      d'.slice des (block segs).length = block segs ∧
      ∀ i, des + (block segs).length ≤ i → d'.bytes i = d.bytes i := by
  have halign : (n + 7) / 8 * 8 = 8 * segs.length := by
    rw [hn]
    exact Nat.mul_comm ..
  have hlength := length_block hwhole hne
  rw [hlength, ← halign] at hroom
  obtain ⟨d', hrun, hfrom, hslice, habove⟩ := writeFF_spec hread hroom
  rw [halign] at hslice habove
  refine ⟨d', hrun, hfrom, ?_, ?_⟩
  · rw [hlength, hslice, block_eq hne, hbytes, Nat.mul_div_cancel_left _ (by decide)]
  · rw [hlength]
    exact habove

end Jump.Skynet.Sproto
