import Jump.Skynet.Sproto.Segments

/-! # Runs of `sproto_pack`

The bytes before an open block are final; those of the block are written when it is closed.
-/

namespace Jump.Skynet.Sproto

open Jump.Core

variable {mem : List UInt8} {seg bytes out emitted : List UInt8}
  {segs segs' rest : List (List UInt8)} {i n srcsz : Nat} {s s' : PackState} {d d' : Buffer}

/-- The five ways a segment is taken, with what `pack_seg` returns. -/
inductive Advance (segs : List (List UInt8)) (seg : List UInt8) :
    List UInt8 → List (List UInt8) → Nat → Prop where
  | first (hnil : segs = []) (hjoin : Joins segs.length seg) : Advance segs seg [] [seg] 10
  | alone (hnil : segs = []) (hjoin : ¬Joins segs.length seg) :
      Advance segs seg (plain seg) [] ((nonzeros seg).length + 1)
  | last (hne : segs ≠ []) (hjoin : Joins segs.length seg) (hlength : segs.length + 1 = 256) :
      Advance segs seg (block (segs ++ [seg])) [] 8
  | next (hne : segs ≠ []) (hjoin : Joins segs.length seg) (hlength : segs.length + 1 ≠ 256) :
      Advance segs seg [] (segs ++ [seg]) 8
  | behind (hne : segs ≠ []) (hjoin : ¬Joins segs.length seg) :
      Advance segs seg (block segs ++ plain seg) [] ((nonzeros seg).length + 1)

theorem advance_cases (segs : List (List UInt8)) (seg : List UInt8) :
    Advance segs seg (advance segs seg).1 (advance segs seg).2 (segSize segs.length seg) := by
  unfold advance segSize
  by_cases hnil : segs = []
  · rw [if_pos hnil]
    by_cases hfull : (nonzeros seg).length = 8
    · rw [if_pos hfull, if_pos (.inl hfull), if_neg (by rw [hnil]; decide)]
      exact .first hnil (.inl hfull)
    · have hjoin : ¬Joins segs.length seg := by
        rintro (h | ⟨-, hpos⟩)
        · exact hfull h
        · rw [hnil] at hpos
          exact absurd hpos (Nat.lt_irrefl 0)
      rw [if_neg hfull, if_neg hjoin]
      exact .alone hnil hjoin
  · have hpos : 0 < segs.length := List.length_pos_of_ne_nil hnil
    rw [if_neg hnil]
    by_cases hmany : 6 ≤ (nonzeros seg).length
    · have hjoin : Joins segs.length seg := .inr ⟨hmany, hpos⟩
      rw [if_pos hmany, if_pos hjoin, if_pos hpos]
      by_cases hlength : segs.length + 1 = 256
      · rw [if_pos hlength]
        exact .last hnil hjoin hlength
      · rw [if_neg hlength]
        exact .next hnil hjoin hlength
    · have hjoin : ¬Joins segs.length seg := by
        rintro (h | ⟨h, -⟩)
        · exact hmany (by omega)
        · exact hmany h
      rw [if_neg hmany, if_neg hjoin]
      exact .behind hnil hjoin

/-- The state at the byte `i`, behind the final bytes `out` and the open block `segs`. -/
structure Packing (mem : List UInt8) (i : Nat) (s : PackState) (segs : List (List UInt8))
    (out : List UInt8) : Prop where
  ffN : segs.length = s.ffN
  lt : segs.length < 256
  whole : ∀ seg ∈ segs, seg.length = 8
  content : segs ≠ [] → s.ffDesstart = out.length ∧ s.ffSrcstart + 8 * segs.length = i ∧
    (mem.drop s.ffSrcstart).take (8 * segs.length) = segs.flatten
  size : s.size = s.buffer
  buffer : s.buffer = out.length + (block segs).length
  bufsz : s.buffer + s.bufsz = s.des.size
  written : 0 ≤ s.bufsz → s.des.slice 0 out.length = out

theorem Packing.out_le (h : Packing mem i s segs out) : out.length ≤ s.buffer := by
  have hbuffer := h.buffer
  omega

theorem whole_append (hwhole : ∀ seg ∈ segs, seg.length = 8) (hseg : seg.length = 8) :
    ∀ seg' ∈ segs ++ [seg], seg'.length = 8 := by
  intro seg' hmem
  rcases List.mem_append.mp hmem with h | h
  · exact hwhole seg' h
  · rwa [List.mem_singleton.mp h]

/-- Writes behind `out` leave it. -/
theorem slice_append {n : Nat} (hfrom : Buffer.From out.length d d')
    (hout : d.slice 0 out.length = out) (hemitted : d'.slice out.length n = emitted) :
    d'.slice 0 (out.length + n) = out ++ emitted := by
  rw [Buffer.slice_add, hfrom.slice (Nat.le_of_eq (Nat.zero_add _)), hout, Nat.zero_add, hemitted]

/-- A segment that starts a block. -/
theorem Packing.first (h : Packing mem i s [] out) (hseg : seg.length = 8)
    (htake : (mem.drop i).take 8 = seg) (hfrom : Buffer.From s.buffer s.des d) :
    Packing mem (i + 8)
      { s with
        ffSrcstart := i, ffDesstart := s.buffer, ffN := 1, bufsz := s.bufsz - (10 : Nat), des := d
        buffer := s.buffer + 10, size := s.size + 10 } [seg] out := by
  have hwhole : ∀ seg' ∈ [seg], seg'.length = 8 := by
    intro seg' hmem
    rwa [List.mem_singleton.mp hmem]
  have hbuffer := h.buffer
  have hbufsz := h.bufsz
  have hsize := h.size
  rw [block_nil, List.length_nil, Nat.add_zero] at hbuffer
  constructor
  · rfl
  · exact (by decide : 1 < 256)
  · exact hwhole
  · intro _
    refine ⟨hbuffer, rfl, ?_⟩
    show (mem.drop i).take 8 = [seg].flatten
    rw [htake, List.flatten_singleton]
  · show s.size + 10 = s.buffer + 10
    rw [hsize]
  · rw [length_block hwhole (List.cons_ne_nil _ _), List.length_singleton]
    simp only
    omega
  · rw [hfrom.size]
    simp only
    omega
  · intro hroom
    rw [hfrom.slice (by omega)]
    exact h.written (by simp only at hroom; omega)

/-- Another segment of a block. -/
theorem Packing.next (h : Packing mem i s segs out) (hne : segs ≠ [])
    (hlength : segs.length + 1 ≠ 256) (hseg : seg.length = 8)
    (htake : (mem.drop i).take 8 = seg) (hfrom : Buffer.From s.buffer s.des d) :
    Packing mem (i + 8)
      { s with
        ffN := s.ffN + 1, bufsz := s.bufsz - (8 : Nat), des := d
        buffer := s.buffer + 8, size := s.size + 8 } (segs ++ [seg]) out := by
  have hwhole := whole_append h.whole hseg
  have hblock := length_block h.whole hne
  have hblock' := length_block hwhole (List.append_ne_nil_of_right_ne_nil _ (List.cons_ne_nil _ _))
  have hbuffer := h.buffer
  have hbufsz := h.bufsz
  have hsize := h.size
  have hlt := h.lt
  obtain ⟨hdes, hi, hflat⟩ := h.content hne
  rw [List.length_append, List.length_singleton] at hblock'
  constructor
  · rw [List.length_append, List.length_singleton, h.ffN]
  · rw [List.length_append, List.length_singleton]
    omega
  · exact hwhole
  · intro _
    rw [List.length_append, List.length_singleton]
    refine ⟨hdes, by simp only; omega, ?_⟩
    show (mem.drop s.ffSrcstart).take (8 * segs.length + 8) = _
    rw [List.take_add, hflat, List.drop_drop, hi, htake, List.flatten_append,
      List.flatten_singleton]
  · show s.size + 8 = s.buffer + 8
    rw [hsize]
  · simp only
    omega
  · rw [hfrom.size]
    simp only
    omega
  · intro hroom
    rw [hfrom.slice (by omega)]
    exact h.written (by simp only at hroom; omega)

/-- No block is open any more, and what was written is final. -/
theorem Packing.closed (h : Packing mem i s segs out) (hsize : d.size = s.des.size)
    (hlength : (block segs).length + n = emitted.length)
    (hwritten : 0 ≤ s.bufsz - n → d.slice 0 (out ++ emitted).length = out ++ emitted) :
    Packing mem (i + 8)
      { s with
        ffN := 0, bufsz := s.bufsz - n, des := d
        buffer := s.buffer + n, size := s.size + n } [] (out ++ emitted) := by
  have hbuffer := h.buffer
  have hbufsz := h.bufsz
  have hsize' := h.size
  constructor
  · rfl
  · exact (by decide : 0 < 256)
  · exact fun seg hmem => absurd hmem List.not_mem_nil
  · exact fun hne => absurd rfl hne
  · show s.size + n = s.buffer + n
    rw [hsize']
  · rw [block_nil, List.length_nil, List.length_append]
    simp only
    omega
  · rw [hsize]
    simp only
    omega
  · exact hwritten

/-! ## A step of the loop -/

theorem packStep_eq (h : Packing mem i s segs out) (hsegment : segment mem srcsz i = some seg)
    (hseg : seg.length = 8) (hn : segSize segs.length seg = n) :
    ∃ d, Buffer.From s.buffer s.des d ∧
      (¬Joins segs.length seg → n ≤ s.bufsz → d.slice s.buffer n = plain seg) ∧
      packStep mem srcsz i s =
        (afterSeg mem i n { s with bufsz := s.bufsz - n, des := d }).map
          fun s => { s with buffer := s.buffer + n, size := s.size + n } := by
  obtain ⟨d, hrun, hfrom, hplain⟩ := @packSeg_spec seg s.des s.buffer segs.length s.bufsz hseg
    h.bufsz
  rw [hn, h.ffN] at hrun
  rw [hn] at hplain
  refine ⟨d, hfrom, hplain, ?_⟩
  unfold packStep
  rw [hsegment, Option.bind_some, hrun, Option.bind_some]

/-- A segment that does not join a block is written behind `out`. -/
theorem slice_plain (h : Packing mem i s segs out) (hfrom : Buffer.From s.buffer s.des d)
    (hplain : n ≤ s.bufsz → d.slice s.buffer n = plain seg) (hnil : segs = [])
    (hn : (plain seg).length = n) (hroom : 0 ≤ s.bufsz - n) :
    d.slice 0 (out ++ plain seg).length = out ++ plain seg := by
  have hbuffer := h.buffer
  rw [hnil, block_nil, List.length_nil, Nat.add_zero] at hbuffer
  have hslice := hplain (by omega)
  rw [hbuffer] at hslice hfrom
  rw [List.length_append, hn]
  exact slice_append hfrom (h.written (by omega)) hslice

theorem Packing.step_alone (h : Packing mem i s segs out)
    (hsegment : segment mem srcsz i = some seg) (hseg : seg.length = 8) (hnil : segs = [])
    (hjoin : ¬Joins segs.length seg) :
    ∃ s', packStep mem srcsz i s = some s' ∧ Packing mem (i + 8) s' [] (out ++ plain seg) ∧
      s'.des.size = s.des.size := by
  have hn : segSize segs.length seg = (nonzeros seg).length + 1 := if_neg hjoin
  obtain ⟨d, hfrom, hplain, hstep⟩ := packStep_eq h hsegment hseg hn
  have hcount : ¬((nonzeros seg).length = 8 ∨ 6 ≤ (nonzeros seg).length ∧ 0 < segs.length) := hjoin
  have hle := length_nonzeros_le seg
  have hzero : s.ffN = 0 := by rw [← h.ffN, hnil]; rfl
  have hafter : afterSeg mem i ((nonzeros seg).length + 1)
      { s with bufsz := s.bufsz - ((nonzeros seg).length + 1 : Nat), des := d } =
      some { s with bufsz := s.bufsz - ((nonzeros seg).length + 1 : Nat), des := d } := by
    unfold afterSeg
    rw [if_neg (by omega), if_neg (by simp only [hzero]; omega),
      if_neg (by simp only [hzero]; omega)]
  have hclosed := h.closed (n := (nonzeros seg).length + 1) hfrom.size
    (by rw [hnil, block_nil, List.length_nil, Nat.zero_add, length_plain])
    (slice_plain h hfrom (hplain hjoin) hnil (length_plain seg))
  refine ⟨_, by rw [hstep, hafter]; rfl, ?_, hfrom.size⟩
  rw [← hzero] at hclosed
  exact hclosed

/-- The open block is written, and the segment behind it. -/
theorem Packing.step_behind (h : Packing mem i s segs out)
    (hsegment : segment mem srcsz i = some seg) (hseg : seg.length = 8) (hne : segs ≠ [])
    (hjoin : ¬Joins segs.length seg) (hi : i ≤ mem.length) :
    ∃ s', packStep mem srcsz i s = some s' ∧
      Packing mem (i + 8) s' [] (out ++ (block segs ++ plain seg)) ∧
      s'.des.size = s.des.size := by
  have hn : segSize segs.length seg = (nonzeros seg).length + 1 := if_neg hjoin
  obtain ⟨d, hfrom, hplain, hstep⟩ := packStep_eq h hsegment hseg hn
  have hpos : 0 < segs.length := List.length_pos_of_ne_nil hne
  have hcount : ¬((nonzeros seg).length = 8 ∨ 6 ≤ (nonzeros seg).length ∧ 0 < segs.length) := hjoin
  have hffN := h.ffN
  have hbuffer := h.buffer
  have hbufsz := h.bufsz
  obtain ⟨hdes, hsrc, hflat⟩ := h.content hne
  have hlength : (block segs).length + ((nonzeros seg).length + 1) =
      (block segs ++ plain seg).length := by
    rw [List.length_append, length_plain]
  by_cases hroom : 0 ≤ s.bufsz - ((nonzeros seg).length + 1 : Nat)
  · have hread : read mem s.ffSrcstart (s.ffN * 8) = some segs.flatten := by
      rw [read_eq (by omega), ← hffN, Nat.mul_comm, hflat]
    obtain ⟨d', hwrite, hfrom', hblock, habove⟩ := @writeFF_block _ _ _ d s.ffSrcstart out.length
      (s.ffN * 8) h.whole hne (by omega) hread
      (by rw [Nat.mul_comm, ← hffN, Nat.sub_self, List.replicate_zero, List.append_nil])
      (by rw [hfrom.size]; omega)
    have hafter : afterSeg mem i ((nonzeros seg).length + 1)
        { s with bufsz := s.bufsz - ((nonzeros seg).length + 1 : Nat), des := d } =
        some { s with
          bufsz := s.bufsz - ((nonzeros seg).length + 1 : Nat), ffN := 0, des := d' } := by
      unfold afterSeg
      rw [if_neg (by omega), if_neg (by simp only; omega), if_pos (by simp only; omega),
        if_pos hroom, hdes, hwrite]
      rfl
    have hall : d'.slice 0 (out ++ (block segs ++ plain seg)).length =
        out ++ (block segs ++ plain seg) := by
      have hplain' : d'.slice (out.length + (block segs).length) ((nonzeros seg).length + 1) =
          plain seg := by
        rw [← hplain hjoin (by omega), hbuffer]
        exact Buffer.slice_of_eq fun i hi _ => habove i hi
      rw [List.length_append, ← hlength]
      apply slice_append ((hfrom.mono h.out_le).trans hfrom') (h.written (by omega))
      rw [Buffer.slice_add, hblock, hplain']
    exact ⟨_, by rw [hstep, hafter]; rfl,
      h.closed (hfrom'.size.trans hfrom.size) hlength fun _ => hall,
      hfrom'.size.trans hfrom.size⟩
  · have hafter : afterSeg mem i ((nonzeros seg).length + 1)
        { s with bufsz := s.bufsz - ((nonzeros seg).length + 1 : Nat), des := d } =
        some { s with
          bufsz := s.bufsz - ((nonzeros seg).length + 1 : Nat), ffN := 0, des := d } := by
      unfold afterSeg
      rw [if_neg (by omega), if_neg (by simp only; omega), if_pos (by simp only; omega),
        if_neg hroom]
    exact ⟨_, by rw [hstep, hafter]; rfl,
      h.closed hfrom.size hlength fun hroom' => absurd hroom' hroom, hfrom.size⟩

theorem Packing.step_first (h : Packing mem i s segs out)
    (hsegment : segment mem srcsz i = some seg) (hseg : seg.length = 8) (hnil : segs = [])
    (hjoin : Joins segs.length seg) (htake : (mem.drop i).take 8 = seg) :
    ∃ s', packStep mem srcsz i s = some s' ∧ Packing mem (i + 8) s' [seg] out ∧
      s'.des.size = s.des.size := by
  have hn : segSize segs.length seg = 10 := by
    unfold segSize
    rw [if_pos hjoin, hnil]
    rfl
  obtain ⟨d, hfrom, -, hstep⟩ := packStep_eq h hsegment hseg hn
  subst hnil
  exact ⟨_, hstep, h.first hseg htake hfrom, hfrom.size⟩

theorem segSize_joins (hne : segs ≠ []) (hjoin : Joins segs.length seg) :
    segSize segs.length seg = 8 := by
  unfold segSize
  rw [if_pos hjoin, if_pos (List.length_pos_of_ne_nil hne)]

theorem Packing.step_next (h : Packing mem i s segs out)
    (hsegment : segment mem srcsz i = some seg) (hseg : seg.length = 8) (hne : segs ≠ [])
    (hjoin : Joins segs.length seg) (hlength : segs.length + 1 ≠ 256) :
    ∃ d, packStep mem srcsz i s = some { s with
        ffN := s.ffN + 1, bufsz := s.bufsz - (8 : Nat), des := d
        buffer := s.buffer + 8, size := s.size + 8 } ∧ Buffer.From s.buffer s.des d := by
  obtain ⟨d, hfrom, -, hstep⟩ := packStep_eq h hsegment hseg (segSize_joins hne hjoin)
  have hpos : 0 < segs.length := List.length_pos_of_ne_nil hne
  have hffN := h.ffN
  have hafter : afterSeg mem i 8 { s with bufsz := s.bufsz - (8 : Nat), des := d } =
      some { s with bufsz := s.bufsz - (8 : Nat), ffN := s.ffN + 1, des := d } := by
    unfold afterSeg
    rw [if_neg (by decide), if_pos ⟨rfl, by simp only; omega⟩, if_neg (by simp only; omega)]
  refine ⟨d, ?_, hfrom⟩
  rw [hstep, hafter]
  rfl

/-- What `afterSeg` does with the last segment of a block. -/
theorem packStep_last (h : Packing mem i s segs out) (hsegment : segment mem srcsz i = some seg)
    (hseg : seg.length = 8) (hne : segs ≠ []) (hjoin : Joins segs.length seg)
    (hlength : segs.length + 1 = 256) :
    ∃ d, Buffer.From s.buffer s.des d ∧ packStep mem srcsz i s =
      (if 0 ≤ s.bufsz - (8 : Nat) then
        (writeFF mem s.ffSrcstart out.length (256 * 8) d).map fun des => { s with
          ffN := 0, bufsz := s.bufsz - (8 : Nat), des := des
          buffer := s.buffer + 8, size := s.size + 8 }
      else some { s with
          ffN := 0, bufsz := s.bufsz - (8 : Nat), des := d
          buffer := s.buffer + 8, size := s.size + 8 }) := by
  obtain ⟨d, hfrom, -, hstep⟩ := packStep_eq h hsegment hseg (segSize_joins hne hjoin)
  have hffN := h.ffN
  obtain ⟨hdes, -, -⟩ := h.content hne
  refine ⟨d, hfrom, ?_⟩
  rw [hstep]
  unfold afterSeg
  rw [if_neg (by decide), if_pos ⟨rfl, by simp only; omega⟩, if_pos (by simp only; omega)]
  simp only [hdes]
  by_cases hroom : 0 ≤ s.bufsz - (8 : Nat)
  · rw [if_pos hroom, if_pos hroom, Option.map_map]
    rfl
  · rw [if_neg hroom, if_neg hroom]
    rfl

theorem Packing.step_last (h : Packing mem i s segs out)
    (hsegment : segment mem srcsz i = some seg) (hseg : seg.length = 8) (hne : segs ≠ [])
    (hjoin : Joins segs.length seg) (hlength : segs.length + 1 = 256)
    (hi : i + 8 ≤ mem.length) (htake : (mem.drop i).take 8 = seg) :
    ∃ s', packStep mem srcsz i s = some s' ∧
      Packing mem (i + 8) s' [] (out ++ block (segs ++ [seg])) ∧ s'.des.size = s.des.size := by
  obtain ⟨d, hfrom, hstep⟩ := packStep_last h hsegment hseg hne hjoin hlength
  have hwhole := whole_append h.whole hseg
  have hne' : segs ++ [seg] ≠ [] :=
    List.append_ne_nil_of_right_ne_nil _ (List.cons_ne_nil _ _)
  have hblock := length_block h.whole hne
  have hblock' := length_block hwhole hne'
  have hcount : (segs ++ [seg]).length = 256 := by
    rw [List.length_append, List.length_singleton, hlength]
  have hbuffer := h.buffer
  have hbufsz := h.bufsz
  obtain ⟨hdes, hsrc, hflat⟩ := h.content hne
  have hemitted : (block segs).length + 8 = (block (segs ++ [seg])).length := by omega
  by_cases hroom : 0 ≤ s.bufsz - (8 : Nat)
  · have hread : read mem s.ffSrcstart (256 * 8) = some (segs ++ [seg]).flatten := by
      rw [read_eq (by omega)]
      have hbytes : 256 * 8 = 8 * segs.length + 8 := by omega
      rw [hbytes, List.take_add, hflat, List.drop_drop, hsrc, htake, List.flatten_append,
        List.flatten_singleton]
    obtain ⟨d', hwrite, hfrom', hslice, -⟩ := @writeFF_block _ _ _ d s.ffSrcstart out.length
      (256 * 8) hwhole hne' (by rw [hcount]) hread
      (by rw [hcount, Nat.mul_comm, Nat.sub_self, List.replicate_zero, List.append_nil])
      (by rw [hfrom.size]; omega)
    have hall : d'.slice 0 (out ++ block (segs ++ [seg])).length =
        out ++ block (segs ++ [seg]) := by
      rw [List.length_append]
      exact slice_append ((hfrom.mono h.out_le).trans hfrom') (h.written (by omega)) hslice
    exact ⟨_, by rw [hstep, if_pos hroom, hwrite]; rfl,
      h.closed (hfrom'.size.trans hfrom.size) hemitted fun _ => hall,
      hfrom'.size.trans hfrom.size⟩
  · exact ⟨_, by rw [hstep, if_neg hroom],
      h.closed hfrom.size hemitted fun hroom' => absurd hroom' hroom, hfrom.size⟩

/-- A whole segment of the source. -/
theorem Packing.step (h : Packing mem i s segs out) (hsegment : segment mem srcsz i = some seg)
    (hseg : seg.length = 8) (hi : i + 8 ≤ mem.length) (htake : (mem.drop i).take 8 = seg) :
    ∃ s', packStep mem srcsz i s = some s' ∧
      Packing mem (i + 8) s' (advance segs seg).2 (out ++ (advance segs seg).1) ∧
      s'.des.size = s.des.size := by
  have hcases := advance_cases segs seg
  generalize hemitted : (advance segs seg).1 = emitted at hcases
  generalize hopen : (advance segs seg).2 = segs' at hcases
  generalize segSize segs.length seg = n at hcases
  cases hcases with
  | first hnil hjoin =>
      rw [List.append_nil]
      exact h.step_first hsegment hseg hnil hjoin htake
  | alone hnil hjoin => exact h.step_alone hsegment hseg hnil hjoin
  | last hne hjoin hlength => exact h.step_last hsegment hseg hne hjoin hlength hi htake
  | next hne hjoin hlength =>
      obtain ⟨d, hstep, hfrom⟩ := h.step_next hsegment hseg hne hjoin hlength
      rw [List.append_nil]
      exact ⟨_, hstep, h.next hne hlength hseg htake hfrom, hfrom.size⟩
  | behind hne hjoin => exact h.step_behind hsegment hseg hne hjoin (by omega)

/-! ## The loop -/

def segments : Nat → List UInt8 → List (List UInt8)
  | 0, _ => []
  | n + 1, x => x.take 8 :: segments n (x.drop 8)

theorem whole_segments {n : Nat} {x : List UInt8} (h : 8 * n ≤ x.length) :
    ∀ seg ∈ segments n x, seg.length = 8 := by
  induction n generalizing x with
  | zero => exact fun seg hmem => absurd hmem List.not_mem_nil
  | succ n ih =>
      intro seg hmem
      rcases List.mem_cons.mp hmem with rfl | hmem
      · rw [List.length_take]
        omega
      · exact ih (by rw [List.length_drop]; omega) seg hmem

theorem flatten_segments (n : Nat) (x : List UInt8) :
    (segments n x).flatten = x.take (8 * n) := by
  induction n generalizing x with
  | zero => rfl
  | succ n ih =>
      rw [segments, List.flatten_cons, ih, Nat.mul_succ, Nat.add_comm, List.take_add]

/-- What is written for segments behind those of an open block, which may be left open. -/
def emit : List (List UInt8) → List (List UInt8) → List UInt8
  | _, [] => []
  | segs, seg :: rest => (advance segs seg).1 ++ emit (advance segs seg).2 rest

theorem packed_append (segs rest last : List (List UInt8)) :
    packed segs (rest ++ last) = emit segs rest ++ packed (openBlock segs rest) last := by
  induction rest generalizing segs with
  | nil => rfl
  | cons seg rest ih =>
      rw [List.cons_append, packed, ih, emit, List.append_assoc]
      rfl

theorem segment_whole (h : i + 8 ≤ srcsz) (hmem : srcsz ≤ mem.length) :
    segment mem srcsz i = some ((mem.drop i).take 8) := by
  unfold segment
  rw [if_neg (by omega), read_eq (by omega)]

/-- The loop over whole segments of the source. -/
theorem Packing.loop {segs : List (List UInt8)} (h : Packing mem i s segs out) (n k : Nat)
    (hsrcsz : i + 8 * n ≤ srcsz) (hmem : srcsz ≤ mem.length) :
    ∃ s', packLoop mem srcsz (n + k) i s = packLoop mem srcsz k (i + 8 * n) s' ∧
      Packing mem (i + 8 * n) s' (openBlock segs (segments n (mem.drop i)))
        (out ++ emit segs (segments n (mem.drop i))) ∧ s'.des.size = s.des.size := by
  induction n generalizing i s segs out with
  | zero =>
      refine ⟨s, by rw [Nat.zero_add]; rfl, ?_, rfl⟩
      rw [segments, emit, List.append_nil]
      exact h
  | succ n ih =>
      have hseg := segment_whole (i := i) (by omega) hmem
      obtain ⟨s₁, hstep, h₁, hsize₁⟩ := h.step hseg (length_take_drop (by omega)) (by omega) rfl
      obtain ⟨s', hloop, h', hsize⟩ := ih h₁ (by omega)
      have hi : i + 8 + 8 * n = i + 8 * (n + 1) := by omega
      rw [hi] at hloop h'
      refine ⟨s', ?_, ?_, hsize.trans hsize₁⟩
      · rw [Nat.succ_add, packLoop, if_pos (by omega), hstep]
        exact hloop
      · rw [← List.drop_drop, List.append_assoc] at h'
        exact h'

/-- The end of a run, where the segments of the open block end with those of the source. -/
theorem packEnd_spec (hffN : segs.length = s.ffN) (hwhole : ∀ seg ∈ segs, seg.length = 8)
    (hcontent : segs ≠ [] → s.ffDesstart = out.length ∧
      (srcsz - s.ffSrcstart + 7) / 8 = segs.length ∧
      (segs.length = 1 → srcsz - s.ffSrcstart = 8) ∧
      ∃ bytes, read mem s.ffSrcstart (srcsz - s.ffSrcstart) = some bytes ∧
        bytes ++ List.replicate (8 * segs.length - (srcsz - s.ffSrcstart)) 0 = segs.flatten)
    (hsize : s.size = s.buffer) (hbuffer : s.buffer = out.length + (block segs).length)
    (hbufsz : s.buffer + s.bufsz = s.des.size)
    (hwritten : 0 ≤ s.bufsz → s.des.slice 0 out.length = out) :
    ∃ d, packEnd mem srcsz s = some ((out ++ block segs).length, d) ∧
      (((out ++ block segs).length : Int) ≤ s.des.size →
        d.slice 0 (out ++ block segs).length = out ++ block segs) := by
  have hlength : (out ++ block segs).length = s.size := by
    rw [List.length_append, ← hbuffer, hsize]
  unfold packEnd
  rw [hlength]
  by_cases hroom : 0 ≤ s.bufsz
  · rw [if_pos hroom]
    by_cases hnil : segs = []
    · have hzero : s.ffN = 0 := by rw [← hffN, hnil]; rfl
      rw [if_neg (by omega), if_neg (by omega)]
      refine ⟨s.des, rfl, fun _ => ?_⟩
      rw [hnil, block_nil, List.length_nil, Nat.add_zero] at hbuffer
      rw [hnil, block_nil, List.append_nil, hsize, hbuffer]
      exact hwritten hroom
    · obtain ⟨hdes, hcount, hone, bytes, hread, hbytes⟩ := hcontent hnil
      obtain ⟨d, hwrite, hfrom, hslice, -⟩ := @writeFF_block _ _ _ s.des s.ffSrcstart out.length
        (srcsz - s.ffSrcstart) hwhole hnil hcount hread hbytes (by omega)
      have hall : d.slice 0 s.size = out ++ block segs := by
        rw [hsize, hbuffer]
        exact slice_append hfrom (hwritten hroom) hslice
      have hpos : 0 < segs.length := List.length_pos_of_ne_nil hnil
      by_cases hffN₁ : s.ffN = 1
      · rw [if_pos hffN₁, hdes]
        rw [hone (by omega)] at hwrite
        exact ⟨d, by rw [hwrite]; rfl, fun _ => hall⟩
      · rw [if_neg hffN₁, if_pos (by omega), hdes]
        exact ⟨d, by rw [hwrite]; rfl, fun _ => hall⟩
  · rw [if_neg hroom]
    exact ⟨s.des, rfl, fun hle => absurd hle (by omega)⟩

end Jump.Skynet.Sproto
