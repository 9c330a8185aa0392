import Jump.Skynet.Sproto.PackOutput

/-! # Unpacking

`sproto_unpack` of the packed form of segments gives the segments, whatever stands behind it.
-/

namespace Jump.Skynet.Sproto

open Jump.Core

/-! ## The bits of a header -/

/-- The bits from `i` on tell which bytes are not zero. -/
def Marks (h : Nat) : Nat → List UInt8 → Prop
  | _, [] => True
  | i, b :: seg => (h.testBit i = true ↔ b ≠ 0) ∧ Marks h (i + 1) seg

variable {mem bytes out x y seg todo after : List UInt8} {segs rest : List (List UInt8)}
  {b : UInt8} {h h' i fuel : Nat} {s : UnpackState} {cap : Int}

theorem Marks.congr (hmarks : Marks h i seg)
    (heq : ∀ j, i ≤ j → j < i + seg.length → h.testBit j = h'.testBit j) : Marks h' i seg := by
  induction seg generalizing i with
  | nil => trivial
  | cons b seg ih =>
      obtain ⟨hbit, hrest⟩ := hmarks
      rw [List.length_cons] at heq
      refine ⟨?_, ih hrest fun j hj hlt => heq j (by omega) (by omega)⟩
      rw [← heq i (Nat.le_refl i) (by omega)]
      exact hbit

theorem header_low {j : Nat} (hj : j < i) : (header i seg).testBit j = false := by
  induction seg generalizing i with
  | nil => exact Nat.zero_testBit j
  | cons b seg ih =>
      rw [header, Nat.testBit_or, ih (Nat.lt_succ_of_lt hj), Bool.or_false]
      split
      · rw [Nat.one_shiftLeft, Nat.testBit_two_pow_of_ne (Nat.ne_of_gt hj)]
      · exact Nat.zero_testBit j

theorem marks_header (i : Nat) (seg : List UInt8) : Marks (header i seg) i seg := by
  induction seg generalizing i with
  | nil => trivial
  | cons b seg ih =>
      constructor
      · rw [header, Nat.testBit_or, header_low (Nat.lt_succ_self i), Bool.or_false]
        by_cases hb : b ≠ 0
        · rw [if_pos hb, Nat.one_shiftLeft, Nat.testBit_two_pow_self]
          exact ⟨fun _ => hb, fun _ => rfl⟩
        · rw [if_neg hb, Nat.zero_testBit]
          exact ⟨fun hbit => absurd hbit Bool.false_ne_true, fun hne => absurd hne hb⟩
      · refine (ih (i + 1)).congr fun j hj _ => ?_
        rw [header, Nat.testBit_or]
        split
        · rw [Nat.one_shiftLeft, Nat.testBit_two_pow_of_ne (by omega), Bool.false_or]
        · rw [Nat.zero_testBit, Bool.false_or]

/-- The header as it is stored. -/
theorem marks_byte (hseg : seg.length = 8) : Marks (UInt8.ofNat (header 0 seg)).toNat 0 seg := by
  refine (marks_header 0 seg).congr fun j _ hlt => ?_
  have hbyte : (UInt8.ofNat (header 0 seg)).toNat = header 0 seg % 2 ^ 8 := UInt8.toNat_ofNat'
  rw [hbyte, Nat.testBit_mod_two_pow, decide_eq_true (by omega), Bool.true_and]

theorem nonzeros_of_marks (hmarks : Marks 255 i seg) (hi : i + seg.length ≤ 8) :
    nonzeros seg = seg := by
  induction seg generalizing i with
  | nil => rfl
  | cons b seg ih =>
      obtain ⟨hbit, hrest⟩ := hmarks
      rw [List.length_cons] at hi
      have hlt : i < 8 := by omega
      have hset : Nat.testBit (2 ^ 8 - 1) i = true := by
        rw [Nat.testBit_two_pow_sub_one]
        exact decide_eq_true hlt
      rw [nonzeros_cons (hbit.mp hset), ih hrest (by omega)]

/-- A header does not look like that of a block. -/
theorem header_ne (hseg : seg.length = 8) (hfull : (nonzeros seg).length ≠ 8) :
    UInt8.ofNat (header 0 seg) ≠ 0xff := by
  intro heq
  have hmarks := marks_byte hseg
  rw [heq] at hmarks
  have hall := nonzeros_of_marks hmarks (by omega)
  rw [hall] at hfull
  exact hfull hseg

/-! ## The loop -/

/-- The state with the bytes `todo` before it and `out` behind it. -/
structure Unpacking (mem : List UInt8) (s : UnpackState) (todo out : List UInt8) : Prop where
  src : ∃ after, mem.drop s.src = todo ++ after
  srcsz : s.srcsz = todo.length
  size : s.size = out.length
  buffer : s.buffer = out.length
  bufsz : s.buffer + s.bufsz = s.des.size
  written : s.des.slice 0 out.length = out

theorem Unpacking.head (hs : Unpacking mem s (b :: todo) out) : mem[s.src]? = some b := by
  obtain ⟨after, hdrop⟩ := hs.src
  rw [← Nat.add_zero s.src, ← List.getElem?_drop, hdrop]
  rfl

/-- The next byte of the source is taken. -/
theorem Unpacking.tail (hs : Unpacking mem s (b :: todo) out) :
    Unpacking mem { s with src := s.src + 1, srcsz := s.srcsz - 1 } todo out := by
  obtain ⟨after, hdrop⟩ := hs.src
  have hsrcsz := hs.srcsz
  rw [List.length_cons] at hsrcsz
  refine ⟨⟨after, ?_⟩, ?_, hs.size, hs.buffer, hs.bufsz, hs.written⟩
  · show mem.drop (s.src + 1) = _
    rw [← List.drop_drop, hdrop]
    rfl
  · show s.srcsz - 1 = _
    omega

theorem Unpacking.emit (hs : Unpacking mem s todo out) (hroom : (out.length : Int) < s.des.size)
    (b : UInt8) :
    ∃ s', s.emit b = .ok s' ∧ Unpacking mem s' todo (out ++ [b]) ∧ s'.des.size = s.des.size ∧
      s'.src = s.src ∧ s'.srcsz = s.srcsz := by
  have hbuffer := hs.buffer
  have hbufsz := hs.bufsz
  obtain ⟨d, hput, hfrom, hbyte, -⟩ := @Buffer.put_spec s.des s.buffer b (by omega)
  refine ⟨{ s with
    des := d, bufsz := s.bufsz - 1, buffer := s.buffer + 1, size := s.size + 1 }, ?_, ?_,
    hfrom.size, rfl, rfl⟩
  · unfold UnpackState.emit
    rw [if_pos (by omega), hput]
    rfl
  · refine ⟨hs.src, hs.srcsz, ?_, ?_, ?_, ?_⟩
    · rw [List.length_append, List.length_singleton, ← hs.size]
    · rw [List.length_append, List.length_singleton, ← hs.buffer]
    · show ((s.buffer + 1 : Nat) : Int) + (s.bufsz - 1) = d.size
      rw [hfrom.size]
      omega
    · have hslice : d.slice out.length 1 = [b] := by
        rw [Buffer.slice_succ, ← hbuffer, hbyte]
        rfl
      rw [List.length_append, List.length_singleton]
      exact slice_append (hfrom.mono (Nat.le_of_eq hbuffer.symm)) hs.written hslice

theorem bit_iff (n i : Nat) : n >>> i &&& 1 = 1 ↔ n.testBit i = true := by
  rw [Nat.and_one_is_mod, Nat.shiftRight_eq_div_pow, Nat.testBit_eq_decide_div_mod_eq,
    decide_eq_true_iff]

theorem unpackBits_spec {header : UInt8} (hmarks : Marks header.toNat i seg)
    (hs : Unpacking mem s (nonzeros seg ++ todo) out)
    (hroom : ((out.length + seg.length : Nat) : Int) ≤ s.des.size) :
    ∃ s', unpackBits mem header seg.length i s = .ok s' ∧ Unpacking mem s' todo (out ++ seg) ∧
      s'.des.size = s.des.size := by
  induction seg generalizing i s out with
  | nil =>
      rw [List.append_nil]
      exact ⟨s, rfl, hs, rfl⟩
  | cons b seg ih =>
      obtain ⟨hbit, hrest⟩ := hmarks
      rw [List.length_cons] at hroom
      have hiff := (bit_iff header.toNat i).trans hbit
      rw [List.length_cons, unpackBits]
      by_cases hb : b ≠ 0
      · rw [nonzeros_cons hb, List.cons_append] at hs
        have hsrcsz := hs.srcsz
        have hbuffer := hs.buffer
        have hbufsz := hs.bufsz
        obtain ⟨s₁, hemit, hs₁, hsize, hsrc, hsrcsz₁⟩ := hs.emit (by omega) b
        obtain ⟨s', hrun, hs', hsize'⟩ := ih hrest hs₁.tail (by
          rw [List.length_append, List.length_singleton]
          simp only [hsize]
          omega)
        rw [if_pos (hiff.mpr hb), if_neg (by omega), if_pos (by omega), hs.head]
        refine ⟨s', ?_, ?_, hsize'.trans hsize⟩
        · show (s.emit b).bind _ = _
          rw [hemit]
          exact hrun
        · rw [List.append_assoc] at hs'
          exact hs'
      · have hzero : b = 0 := not_not.mp hb
        rw [hzero, nonzeros_cons_zero] at hs
        obtain ⟨s₁, hemit, hs₁, hsize, -, -⟩ := hs.emit (by omega) 0
        obtain ⟨s', hrun, hs', hsize'⟩ := ih hrest hs₁ (by
          rw [List.length_append, List.length_singleton, hsize]
          omega)
        rw [if_neg fun hone => hb (hiff.mp hone), hemit, hzero]
        refine ⟨s', hrun, ?_, hsize'.trans hsize⟩
        rw [List.append_assoc] at hs'
        exact hs'

theorem unpackFF_spec (hs : Unpacking mem s
    (UInt8.ofNat (segs.length - 1) :: (segs.flatten ++ todo))
      out) (hwhole : ∀ seg ∈ segs, seg.length = 8) (hne : segs ≠ []) (hlt : segs.length ≤ 256)
    (hroom : ((out.length + segs.flatten.length : Nat) : Int) ≤ s.des.size) :
    ∃ s', unpackFF mem s = .ok s' ∧ Unpacking mem s' todo (out ++ segs.flatten) ∧
      s'.des.size = s.des.size := by
  have hpos : 0 < segs.length := List.length_pos_of_ne_nil hne
  have hflat := length_flatten hwhole
  have hcount : ((UInt8.ofNat (segs.length - 1)).toNat + 1) * 8 = segs.flatten.length := by
    have hbyte : (UInt8.ofNat (segs.length - 1)).toNat = (segs.length - 1) % 256 :=
      UInt8.toNat_ofNat'
    rw [hbyte, hflat]
    omega
  have hsrcsz := hs.srcsz
  rw [List.length_cons, List.length_append] at hsrcsz
  have hbuffer := hs.buffer
  have hbufsz := hs.bufsz
  obtain ⟨after, hdrop⟩ := hs.tail.src
  have hread : read mem (s.src + 1) segs.flatten.length = some segs.flatten := by
    have hle := congrArg List.length hdrop
    rw [List.length_drop, List.length_append, List.length_append] at hle
    rw [read_eq (by simp only at hle; omega), hdrop, List.append_assoc, List.take_left' rfl]
  obtain ⟨d, hput, hfrom, hslice, -⟩ := @Buffer.putAll_spec s.des s.buffer segs.flatten (by omega)
  refine ⟨⟨s.src + 1 + segs.flatten.length, s.srcsz - (segs.flatten.length + 1),
    s.size + segs.flatten.length, s.buffer + segs.flatten.length, s.bufsz - segs.flatten.length,
    d⟩, ?_, ?_, hfrom.size⟩
  · unfold unpackFF
    rw [if_neg (by omega), hs.head]
    show (if s.srcsz < (((UInt8.ofNat (segs.length - 1)).toNat + 1) * 8 : Nat) + 1 then _ else _)
      = _
    rw [hcount, if_neg (by omega), if_pos (by omega), hread]
    show (orFault (s.des.putAll s.buffer segs.flatten)).map _ = _
    rw [hput]
    rfl
  · refine ⟨⟨after, ?_⟩, ?_, ?_, ?_, ?_, ?_⟩
    · show mem.drop (s.src + 1 + segs.flatten.length) = _
      rw [← List.drop_drop, hdrop, List.append_assoc, List.drop_left' rfl]
    · simp only
      omega
    · rw [List.length_append, ← hs.size]
    · rw [List.length_append, ← hs.buffer]
    · simp only [hfrom.size]
      omega
    · rw [hbuffer] at hfrom hslice
      rw [List.length_append]
      exact slice_append hfrom hs.written hslice

/-- The loop unpacks `x` to `y`, which takes no more rounds than there are bytes in `x`. -/
def Unpacks (x y : List UInt8) : Prop :=
  ∀ mem s todo out fuel, Unpacking mem s (x ++ todo) out → x.length ≤ fuel →
    ((out.length + y.length : Nat) : Int) ≤ s.des.size →
    ∃ s' fuel', unpackLoop mem fuel s = unpackLoop mem fuel' s' ∧
      Unpacking mem s' todo (out ++ y) ∧ s'.des.size = s.des.size ∧ fuel ≤ fuel' + x.length

theorem Unpacks.nil : Unpacks [] [] := by
  intro mem s todo out fuel hs _ _
  rw [List.append_nil]
  exact ⟨s, fuel, rfl, hs, rfl, Nat.le_refl _⟩

theorem Unpacks.append {x' y' : List UInt8} (hx : Unpacks x y) (hx' : Unpacks x' y') :
    Unpacks (x ++ x') (y ++ y') := by
  intro mem s todo out fuel hs hfuel hroom
  rw [List.append_assoc] at hs
  rw [List.length_append] at hfuel hroom
  obtain ⟨s₁, fuel₁, hloop₁, hs₁, hsize₁, hle₁⟩ := hx mem s _ out fuel hs (by omega) (by omega)
  obtain ⟨s₂, fuel₂, hloop₂, hs₂, hsize₂, hle₂⟩ := hx' mem s₁ todo _ fuel₁ hs₁ (by omega)
    (by rw [List.length_append, hsize₁]; omega)
  refine ⟨s₂, fuel₂, hloop₁.trans hloop₂, ?_, hsize₂.trans hsize₁, ?_⟩
  · rw [← List.append_assoc]
    exact hs₂
  · rw [List.length_append]
    omega

/-- A round of the loop. -/
theorem unpackLoop_succ {header : UInt8} (hs : Unpacking mem s (header :: todo) out) :
    unpackLoop mem (fuel + 1) s =
      (if header = 0xff then unpackFF mem { s with src := s.src + 1, srcsz := s.srcsz - 1 }
        else unpackBits mem header 8 0 { s with src := s.src + 1, srcsz := s.srcsz - 1 }).bind
        (unpackLoop mem fuel) := by
  have hsrcsz := hs.srcsz
  rw [List.length_cons] at hsrcsz
  rw [unpackLoop, if_pos (by omega), hs.head]
  rfl

theorem Unpacks.plain (hseg : seg.length = 8) (hfull : (nonzeros seg).length ≠ 8) :
    Unpacks (plain seg) seg := by
  intro mem s todo out fuel hs hfuel hroom
  rw [length_plain] at hfuel
  obtain ⟨fuel, rfl⟩ : ∃ k, fuel = k + 1 := ⟨fuel - 1, by omega⟩
  obtain ⟨s', hrun, hs', hsize⟩ := unpackBits_spec (marks_byte hseg) hs.tail hroom
  rw [hseg] at hrun
  refine ⟨s', fuel, ?_, hs', hsize, ?_⟩
  · rw [unpackLoop_succ hs, if_neg (header_ne hseg hfull), hrun]
    rfl
  · rw [length_plain]
    omega

theorem Unpacks.block (hwhole : ∀ seg ∈ segs, seg.length = 8) (hlt : segs.length ≤ 256) :
    Unpacks (block segs) segs.flatten := by
  by_cases hne : segs = []
  · rw [hne, block_nil]
    exact Unpacks.nil
  · intro mem s todo out fuel hs hfuel hroom
    rw [block_eq hne] at hs hfuel ⊢
    rw [List.length_cons] at hfuel
    obtain ⟨fuel, rfl⟩ : ∃ k, fuel = k + 1 := ⟨fuel - 1, by omega⟩
    obtain ⟨s', hrun, hs', hsize⟩ := unpackFF_spec hs.tail hwhole hne hlt hroom
    refine ⟨s', fuel, ?_, hs', hsize, ?_⟩
    · rw [unpackLoop_succ hs, if_pos rfl, hrun]
      rfl
    · rw [List.length_cons]
      omega

theorem Unpacks.packed (hwhole : ∀ seg ∈ segs, seg.length = 8) (hlt : segs.length < 256)
    (hrest : ∀ seg ∈ rest, seg.length = 8) :
    Unpacks (packed segs rest) (segs.flatten ++ rest.flatten) := by
  induction rest generalizing segs with
  | nil =>
      rw [List.flatten_nil, List.append_nil]
      exact Unpacks.block hwhole (Nat.le_of_lt hlt)
  | cons seg rest ih =>
      have hseg := hrest seg List.mem_cons_self
      have hle := length_nonzeros_le seg
      have ih' : ∀ segs', (∀ seg ∈ segs', seg.length = 8) → segs'.length < 256 →
          Unpacks (Sproto.packed segs' rest) (segs'.flatten ++ rest.flatten) :=
        fun segs' hwhole' hlt' => ih hwhole' hlt' fun seg hmem => hrest seg
          (List.mem_cons_of_mem _ hmem)
      rw [Sproto.packed, List.flatten_cons]
      have hcases := advance_cases segs seg
      generalize (advance segs seg).1 = emitted at hcases ⊢
      generalize (advance segs seg).2 = segs' at hcases ⊢
      generalize segSize segs.length seg = n at hcases
      cases hcases with
      | first hnil _ =>
          have hone : ∀ seg' ∈ [seg], seg'.length = 8 := by
            intro seg' hmem
            rwa [List.mem_singleton.mp hmem]
          have hrun := ih' [seg] hone (by decide : 1 < 256)
          rw [hnil, List.flatten_nil, List.nil_append, List.nil_append]
          rwa [List.flatten_singleton] at hrun
      | alone hnil hjoin =>
          have hrun := ih' [] (fun _ hmem => absurd hmem List.not_mem_nil) (by decide : 0 < 256)
          rw [hnil, List.flatten_nil, List.nil_append]
          exact (Unpacks.plain hseg fun hfull => hjoin (.inl hfull)).append hrun
      | last _ _ hlength =>
          have hrun := ih' [] (fun _ hmem => absurd hmem List.not_mem_nil) (by decide : 0 < 256)
          have hblock := Unpacks.block (whole_append hwhole hseg) (by
            rw [List.length_append, List.length_singleton]
            omega)
          rw [List.flatten_append, List.flatten_singleton] at hblock
          rw [← List.append_assoc]
          exact hblock.append hrun
      | next _ _ hlength =>
          have hrun := ih' (segs ++ [seg]) (whole_append hwhole hseg) (by
            rw [List.length_append, List.length_singleton]
            omega)
          rw [List.flatten_append, List.flatten_singleton, List.append_assoc] at hrun
          exact hrun
      | behind _ hjoin =>
          have hrun := ih' [] (fun _ hmem => absurd hmem List.not_mem_nil) (by decide : 0 < 256)
          rw [List.append_assoc]
          exact (Unpacks.block hwhole (Nat.le_of_lt hlt)).append
            ((Unpacks.plain hseg fun hfull => hjoin (.inl hfull)).append hrun)

/-! ## The round trip -/

theorem sprotoUnpack_packed (x after : List UInt8) (bytes : Bytes.Memory) {bufsz : Int}
    (hroom : (padded x).length ≤ bufsz) :
    ∃ d, sprotoUnpack (packed [] (allSegments x) ++ after) (packed [] (allSegments x)).length bytes
        bufsz = .ok ((padded x).length, d) ∧ d.slice 0 (padded x).length = padded x := by
  have hwhole : ∀ seg ∈ allSegments x, seg.length = 8 :=
    whole_segments (by rw [length_padded]; omega)
  have hrun : Unpacks (packed [] (allSegments x)) ([].flatten ++ (allSegments x).flatten) :=
    Unpacks.packed (fun _ hmem => absurd hmem List.not_mem_nil) (by decide : 0 < 256) hwhole
  rw [flatten_allSegments, List.flatten_nil, List.nil_append] at hrun
  generalize packed [] (allSegments x) = out at hrun
  have hstart : Unpacking (out ++ after) ⟨0, out.length, 0, 0, bufsz, ⟨bufsz, bytes⟩⟩ (out ++ []) []
      := ⟨⟨after, by rw [List.append_nil]; rfl⟩, by rw [List.append_nil], rfl, rfl,
        Int.zero_add _, rfl⟩
  obtain ⟨s, fuel, hloop, hs, -, -⟩ := hrun (out ++ after) _ [] [] out.length hstart
    (Nat.le_refl _) (by rw [List.length_nil, Nat.zero_add]; exact hroom)
  have hstop : unpackLoop (out ++ after) fuel s = .ok s := by
    have hsrcsz := hs.srcsz
    cases fuel with
    | zero => rfl
    | succ fuel =>
        rw [unpackLoop, if_neg]
        rw [hsrcsz]
        exact Int.lt_irrefl 0
  have hsize := hs.size
  have hwritten := hs.written
  rw [List.nil_append] at hsize hwritten
  refine ⟨s.des, ?_, hwritten⟩
  unfold sprotoUnpack
  rw [hloop, hstop, ← hsize]
  rfl

/-- `sproto_pack` reads the source only, returns a size that the destination does not change and
writes what `sproto_unpack` turns into the padded source, if and only if no padded segment completes
a block. -/
theorem packs_iff (x : List UInt8) :
    (∃ out : List UInt8,
      (∀ after bytes bufsz, ∃ d,
        sprotoPack (x ++ after) x.length bytes bufsz = some (out.length, d) ∧
          (out.length ≤ bufsz → d.slice 0 out.length = out)) ∧
      ∀ after bytes (bufsz : Int), (padded x).length ≤ bufsz → ∃ d,
        sprotoUnpack (out ++ after) out.length bytes bufsz = .ok ((padded x).length, d) ∧
          d.slice 0 (padded x).length = padded x) ↔
    ¬Overruns x := by
  constructor
  · rintro ⟨out, hpack, -⟩ hover
    obtain ⟨size, hfault⟩ := sprotoPack_fault hover fun _ => 0
    obtain ⟨d, hrun, -⟩ := hpack [] (fun _ => 0) size
    rw [List.append_nil, hfault size (Int.le_refl _)] at hrun
    cases hrun
  · intro hfits
    refine ⟨packed [] (allSegments x), sprotoPack_eq hfits, ?_⟩
    intro after bytes bufsz hroom
    exact sprotoUnpack_packed x after bytes hroom

/-- Of 2047 bytes that are not zero, the last seven complete a block: the byte behind them is
read in every destination that is large enough. -/
theorem packs_behind_2047 : ∃ size : Nat, ∀ bufsz : Int, size ≤ bufsz →
    sprotoPack (List.replicate 2047 1) 2047 (fun _ => 0) bufsz = none := by
  have hover : Overruns (List.replicate 2047 1) := by decide +kernel
  have hfault := sprotoPack_fault hover fun _ => 0
  rwa [List.length_replicate] at hfault

end Jump.Skynet.Sproto
