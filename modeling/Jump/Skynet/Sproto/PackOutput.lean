import Jump.Skynet.Sproto.PackRun

/-! # The output of `sproto_pack`

The last segment of the source may be padded. If it completes a block of 256 segments, the block
is written with the bytes behind the source in place of the padding.
-/

namespace Jump.Skynet.Sproto

open Jump.Core

def padded (x : List UInt8) : List UInt8 :=
  x ++ List.replicate ((x.length + 7) / 8 * 8 - x.length) 0

def wholeSegments (x : List UInt8) : List (List UInt8) := segments (x.length / 8) x

/-- The bytes behind the whole segments. -/
def tail (x : List UInt8) : List UInt8 := x.drop (8 * (x.length / 8))

/-- The segments, the last one padded. -/
def allSegments (x : List UInt8) : List (List UInt8) := segments ((x.length + 7) / 8) (padded x)

/-- The last segment is not whole and completes a block of 256 segments. -/
def Overruns (x : List UInt8) : Prop :=
  x.length % 8 ≠ 0 ∧ (openBlock [] (wholeSegments x)).length = 255 ∧
    6 ≤ (nonzeros (tail x)).length

instance (x : List UInt8) : Decidable (Overruns x) := inferInstanceAs (Decidable (_ ∧ _ ∧ _))

variable {mem x after : List UInt8} {seg out : List UInt8} {segs : List (List UInt8)}
  {i srcsz : Nat} {s s' : PackState} {bytes : Bytes.Memory} {bufsz : Int}

theorem length_padded (x : List UInt8) : (padded x).length = (x.length + 7) / 8 * 8 := by
  unfold padded
  rw [List.length_append, List.length_replicate]
  omega

theorem length_tail (x : List UInt8) : (tail x).length = x.length % 8 := by
  unfold tail
  rw [List.length_drop]
  omega

theorem segments_append {n : Nat} (h : 8 * n ≤ x.length) (y : List UInt8) :
    segments n (x ++ y) = segments n x := by
  induction n generalizing x with
  | zero => rfl
  | succ n ih =>
      rw [segments, segments, List.take_append_of_le_length (by omega),
        List.drop_append_of_le_length (by omega), ih (by rw [List.length_drop]; omega)]

theorem segments_succ_last (n : Nat) (x : List UInt8) :
    segments (n + 1) x = segments n x ++ [(x.drop (8 * n)).take 8] := by
  induction n generalizing x with
  | zero => rfl
  | succ n ih =>
      rw [segments, ih, segments, List.drop_drop, Nat.mul_succ, Nat.add_comm]
      rfl

theorem flatten_allSegments (x : List UInt8) : (allSegments x).flatten = padded x := by
  unfold allSegments
  rw [flatten_segments]
  exact List.take_of_length_le (by rw [length_padded]; omega)

theorem allSegments_whole (h : x.length % 8 = 0) : allSegments x = wholeSegments x := by
  have hcount : (x.length + 7) / 8 = x.length / 8 := by omega
  unfold allSegments wholeSegments padded
  rw [hcount, segments_append (by omega)]

/-- The segment that is padded. -/
def lastSegment (x : List UInt8) : List UInt8 := tail x ++ List.replicate (8 - x.length % 8) 0

theorem length_lastSegment (x : List UInt8) : (lastSegment x).length = 8 := by
  unfold lastSegment
  rw [List.length_append, length_tail, List.length_replicate]
  omega

theorem allSegments_padded (h : x.length % 8 ≠ 0) :
    allSegments x = wholeSegments x ++ [lastSegment x] := by
  have hcount : (x.length + 7) / 8 = x.length / 8 + 1 := by omega
  have hpad : (x.length + 7) / 8 * 8 - x.length = 8 - x.length % 8 := by omega
  unfold allSegments wholeSegments padded
  rw [hcount, segments_succ_last, ← hcount, hpad, segments_append (by omega),
    List.drop_append_of_le_length (by omega)]
  congr 2
  exact List.take_of_length_le (Nat.le_of_eq (length_lastSegment x))

theorem nonzeros_lastSegment (x : List UInt8) : nonzeros (lastSegment x) = nonzeros (tail x) := by
  unfold lastSegment nonzeros
  rw [List.filter_append, List.filter_replicate]
  simp

theorem segment_last (x after : List UInt8) :
    segment (x ++ after) x.length (8 * (x.length / 8)) = some (lastSegment x) := by
  have hpad : 8 * (x.length / 8) + 8 - x.length = 8 - x.length % 8 := by omega
  have hlen : 8 - (8 - x.length % 8) = x.length % 8 := by omega
  have htake : (x.drop (8 * (x.length / 8)) ++ after).take (x.length % 8) = tail x :=
    List.take_left' (length_tail x)
  unfold segment
  rw [hpad, if_pos (by omega), hlen, read_eq (by rw [List.length_append]; omega),
    List.drop_append_of_le_length (by omega), htake]
  rfl

/-- The state behind the whole segments. -/
theorem loop_whole (x after : List UInt8) (bytes : Bytes.Memory) (bufsz : Int) (k : Nat) :
    ∃ s, packLoop (x ++ after) x.length (x.length / 8 + k) 0
        ⟨0, 0, 0, 0, 0, bufsz, ⟨bufsz, bytes⟩⟩ =
          packLoop (x ++ after) x.length k (8 * (x.length / 8)) s ∧
      Packing (x ++ after) (8 * (x.length / 8)) s (openBlock [] (wholeSegments x))
        (emit [] (wholeSegments x)) ∧ s.des.size = bufsz := by
  have hstart : Packing (x ++ after) 0 ⟨0, 0, 0, 0, 0, bufsz, ⟨bufsz, bytes⟩⟩ [] [] :=
    ⟨rfl, by decide, fun _ hmem => absurd hmem List.not_mem_nil, fun hne => absurd rfl hne, rfl,
      rfl, Int.zero_add _, fun _ => rfl⟩
  obtain ⟨s, hloop, hs, hsize⟩ := @Packing.loop (x ++ after) [] 0 x.length _ [] hstart
    (x.length / 8) k (by omega) (by rw [List.length_append]; omega)
  rw [Nat.zero_add] at hloop hs
  rw [List.drop_zero, segments_append (by omega), List.nil_append] at hs
  exact ⟨s, hloop, hs, hsize⟩

/-- A run that ends between two segments. -/
theorem Packing.finish (h : Packing mem i s segs out) (hi : segs ≠ [] → i = srcsz)
    (hmem : srcsz ≤ mem.length) :
    ∃ d, packEnd mem srcsz s = some ((out ++ block segs).length, d) ∧
      (((out ++ block segs).length : Int) ≤ s.des.size →
        d.slice 0 (out ++ block segs).length = out ++ block segs) := by
  refine packEnd_spec h.ffN h.whole ?_ h.size h.buffer h.bufsz h.written
  intro hne
  obtain ⟨hdes, hsrc, hflat⟩ := h.content hne
  have hn : srcsz - s.ffSrcstart = 8 * segs.length := by
    have hsrcsz := hi hne
    omega
  rw [hn]
  refine ⟨hdes, by omega, fun hone => by omega, segs.flatten, ?_, ?_⟩
  · rw [read_eq (by have hsrcsz := hi hne; omega), hflat]
  · rw [Nat.sub_self, List.replicate_zero, List.append_nil]

/-- A run that ends with a padded segment in the open block. -/
theorem Packing.finish_padded {d : Buffer} (h : Packing mem i s segs out) (hne : segs ≠ [])
    (hi : i < srcsz) (hmem : srcsz ≤ mem.length) (hseg : seg.length = 8)
    (htail : (mem.drop i).take (srcsz - i) ++ List.replicate (i + 8 - srcsz) 0 = seg)
    (hfrom : Buffer.From s.buffer s.des d) :
    ∃ d', packEnd mem srcsz { s with
        ffN := s.ffN + 1, bufsz := s.bufsz - (8 : Nat), des := d
        buffer := s.buffer + 8, size := s.size + 8 } =
          some ((out ++ block (segs ++ [seg])).length, d') ∧
      (((out ++ block (segs ++ [seg])).length : Int) ≤ s.des.size →
        d'.slice 0 (out ++ block (segs ++ [seg])).length = out ++ block (segs ++ [seg])) := by
  have hwhole := whole_append h.whole hseg
  have hblock := length_block h.whole hne
  have hblock' := length_block hwhole (List.append_ne_nil_of_right_ne_nil _ (List.cons_ne_nil _ _))
  have hbuffer := h.buffer
  have hbufsz := h.bufsz
  have hpos : 0 < segs.length := List.length_pos_of_ne_nil hne
  obtain ⟨hdes, hsrc, hflat⟩ := h.content hne
  have hcount : (segs ++ [seg]).length = segs.length + 1 := by
    rw [List.length_append, List.length_singleton]
  have hpad : i + 8 - srcsz = 8 - (srcsz - i) := by omega
  have hlt : srcsz - i ≤ 8 := by
    have hlen := congrArg List.length htail
    rw [List.length_append, length_take_drop (by omega), List.length_replicate, hseg] at hlen
    omega
  rw [hcount] at hblock'
  rw [← hfrom.size]
  refine packEnd_spec ?_ hwhole ?_ ?_ ?_ ?_ ?_
  · rw [hcount, h.ffN]
  · intro _
    simp only [hcount]
    have hn : srcsz - s.ffSrcstart = 8 * segs.length + (srcsz - i) := by omega
    refine ⟨hdes, by omega, fun hone => by omega, segs.flatten ++ (mem.drop i).take (srcsz - i),
      ?_, ?_⟩
    · rw [read_eq (by omega), hn, List.take_add, hflat, List.drop_drop, hsrc]
    · have hzeros : 8 * (segs.length + 1) - (srcsz - s.ffSrcstart) = i + 8 - srcsz := by omega
      rw [hzeros, List.append_assoc, htail, List.flatten_append, List.flatten_singleton]
  · show s.size + 8 = s.buffer + 8
    rw [h.size]
  · simp only
    omega
  · rw [hfrom.size]
    simp only
    omega
  · intro hroom
    rw [hfrom.slice (by omega)]
    exact h.written (by simp only at hroom; omega)

/-- Where no padded segment completes a block, the output is the packed form of the segments. -/
theorem sprotoPack_eq (h : ¬Overruns x) (after : List UInt8) (bytes : Bytes.Memory)
    (bufsz : Int) :
    ∃ d, sprotoPack (x ++ after) x.length bytes bufsz =
        some ((packed [] (allSegments x)).length, d) ∧
      (((packed [] (allSegments x)).length : Int) ≤ bufsz →
        d.slice 0 (packed [] (allSegments x)).length = packed [] (allSegments x)) := by
  have hmem : x.length ≤ (x ++ after).length := by
    rw [List.length_append]
    omega
  unfold sprotoPack
  by_cases hwhole : x.length % 8 = 0
  · have hcount : (x.length + 7) / 8 = x.length / 8 + 0 := by omega
    obtain ⟨s, hloop, hs, hsize⟩ := loop_whole x after bytes bufsz 0
    obtain ⟨d, hend, hd⟩ := hs.finish (fun _ => by omega) hmem
    have hpacked : packed [] (allSegments x) =
        emit [] (wholeSegments x) ++ block (openBlock [] (wholeSegments x)) := by
      have happend := packed_append [] (wholeSegments x) []
      rw [List.append_nil] at happend
      rw [allSegments_whole hwhole]
      exact happend
    rw [hsize] at hd
    rw [hcount, hloop, hpacked]
    exact ⟨d, hend, hd⟩
  · have hcount : (x.length + 7) / 8 = x.length / 8 + 1 := by omega
    obtain ⟨s, hloop, hs, hsize⟩ := loop_whole x after bytes bufsz 1
    have hsegment := segment_last x after
    have hlast := length_lastSegment x
    have hpacked : packed [] (allSegments x) = emit [] (wholeSegments x) ++
        ((advance (openBlock [] (wholeSegments x)) (lastSegment x)).1 ++
          block (advance (openBlock [] (wholeSegments x)) (lastSegment x)).2) := by
      rw [allSegments_padded hwhole]
      exact packed_append [] (wholeSegments x) [lastSegment x]
    have hstop : ∀ s', packStep (x ++ after) x.length (8 * (x.length / 8)) s = some s' →
        packLoop (x ++ after) x.length 1 (8 * (x.length / 8)) s = some s' := by
      intro s' hstep
      rw [packLoop, if_pos (by omega), hstep]
      rfl
    have hnonzeros := nonzeros_lastSegment x
    have hfew := length_nonzeros_le (tail x)
    rw [length_tail] at hfew
    rw [hcount, hloop, hpacked]
    have hcases := advance_cases (openBlock [] (wholeSegments x)) (lastSegment x)
    generalize hopen : openBlock [] (wholeSegments x) = segs at *
    generalize (advance segs (lastSegment x)).1 = emitted at *
    generalize (advance segs (lastSegment x)).2 = segs' at *
    generalize segSize segs.length (lastSegment x) = n at *
    cases hcases with
    | first hnil hjoin =>
        rcases hjoin with hfull | ⟨-, hpos⟩
        · rw [hnonzeros] at hfull
          omega
        · rw [hnil] at hpos
          exact absurd hpos (Nat.lt_irrefl 0)
    | alone hnil hjoin =>
        obtain ⟨s', hstep, hs', hsize'⟩ := hs.step_alone hsegment hlast hnil hjoin
        obtain ⟨d, hend, hd⟩ := hs'.finish (fun hne => absurd rfl hne) hmem
        rw [hsize', hsize] at hd
        rw [hstop s' hstep, ← List.append_assoc]
        exact ⟨d, hend, hd⟩
    | last hne hjoin hlength =>
        refine absurd ⟨hwhole, ?_, ?_⟩ h
        · rw [hopen]
          omega
        · rcases hjoin with hfull | ⟨hmany, -⟩
          · rw [← hnonzeros]
            omega
          · rwa [hnonzeros] at hmany
    | next hne hjoin hlength =>
        obtain ⟨d, hstep, hfrom⟩ := hs.step_next hsegment hlast hne hjoin hlength
        have htail : ((x ++ after).drop (8 * (x.length / 8))).take
            (x.length - 8 * (x.length / 8)) ++
              List.replicate (8 * (x.length / 8) + 8 - x.length) 0 = lastSegment x := by
          have hn : x.length - 8 * (x.length / 8) = x.length % 8 := by omega
          have hpad : 8 * (x.length / 8) + 8 - x.length = 8 - x.length % 8 := by omega
          have htake : (x.drop (8 * (x.length / 8)) ++ after).take (x.length % 8) = tail x :=
            List.take_left' (length_tail x)
          rw [hn, hpad, List.drop_append_of_le_length (by omega), htake]
          rfl
        obtain ⟨d', hend, hd⟩ := hs.finish_padded hne (by omega) hmem hlast htail hfrom
        rw [hsize] at hd
        rw [hstop _ hstep, List.nil_append]
        exact ⟨d', hend, hd⟩
    | behind hne hjoin =>
        obtain ⟨s', hstep, hs', hsize'⟩ := hs.step_behind hsegment hlast hne hjoin (by omega)
        obtain ⟨d, hend, hd⟩ := hs'.finish (fun hne => absurd rfl hne) hmem
        rw [hsize', hsize] at hd
        rw [hstop s' hstep, ← List.append_assoc]
        exact ⟨d, hend, hd⟩

/-- Else `sproto_pack` reads behind the source. -/
theorem sprotoPack_fault (h : Overruns x) (bytes : Bytes.Memory) :
    ∃ size : Nat, ∀ bufsz : Int, size ≤ bufsz → sprotoPack x x.length bytes bufsz = none := by
  obtain ⟨hpad, hopen, hmany⟩ := h
  refine ⟨(emit [] (wholeSegments x)).length +
    (block (openBlock [] (wholeSegments x))).length + 8, fun bufsz hroom => ?_⟩
  have hcount : (x.length + 7) / 8 = x.length / 8 + 1 := by omega
  obtain ⟨s, hloop, hs, hsize⟩ := loop_whole x [] bytes bufsz 1
  have hsegment := segment_last x []
  rw [List.append_nil] at hloop hs hsegment
  have hne : openBlock [] (wholeSegments x) ≠ [] := by
    intro hnil
    rw [hnil] at hopen
    exact absurd hopen (by decide)
  have hjoin : Joins (openBlock [] (wholeSegments x)).length (lastSegment x) := by
    refine .inr ⟨?_, by omega⟩
    rw [nonzeros_lastSegment]
    exact hmany
  obtain ⟨d, hfrom, hstep⟩ := packStep_last hs hsegment (length_lastSegment x) hne hjoin
    (by omega)
  obtain ⟨-, hsrc, -⟩ := hs.content hne
  have hbuffer := hs.buffer
  have hbufsz := hs.bufsz
  have hread : read x s.ffSrcstart (256 * 8) = none := read_none (by omega)
  have hwrite : writeFF x s.ffSrcstart (emit [] (wholeSegments x)).length (256 * 8) d = none := by
    unfold writeFF
    rw [hread]
    simp
  have hnone : packStep x x.length (8 * (x.length / 8)) s = none := by
    rw [hstep, if_pos (by omega), hwrite]
    rfl
  unfold sprotoPack
  rw [hcount, hloop, packLoop, if_pos (by omega), hnone]
  rfl

end Jump.Skynet.Sproto
