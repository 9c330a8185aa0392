import Jump.Skynet.Sproto.DecodeFields

/-! # Round trip

The calls for a struct, and when a struct is decoded to what was encoded.
-/

namespace Jump.Skynet.Sproto

open Jump.Core

/-! ## Fields -/

section Collect

variable {types : Nat → SprotoType} {decode : Nat → List UInt8 → Option (List Event × Int)}
variable {sub : Nat → Fields → List UInt8} {events : Nat → Fields → List Event} {n : Nat}
variable {mem : List UInt8} {f : Field}

theorem part_absent {vs : List Value} (h : part sub f vs = .absent) : vs = [] := by
  unfold part at h
  split at h
  · rfl
  split at h
  · cases h
  split at h
  · split at h
    · cases h
    · cases h
  · cases h
  · cases h
  · cases h

theorem decodeData_number {get : Option Nat} {v : Value} (hv : IsInteger v) (ud : List Event)
    (hget : get = some (numberOf v)) :
    (do
      let v ← get
      let ud ← cbNumber (collect decode) (argOf f 0) v ud
      some (ud, (0 : Int))) = some (ud ++ [event events f 0 v], 0) := by
  have hcall := @cbNumber_event decode events f v (.inl hv) 0 ud
  rw [hget, Option.bind_eq_bind, Option.bind_some, hcall]
  rfl

/-- A value that does not fit in a record. -/
theorem decodeData_events (hdecode : Decodes types decode sub events n) {v : Value}
    {rest : List Value} (hvs : ∀ w ∈ v :: rest, HasKind types n f.kind f.st w)
    (hmem : mem.length < 2 ^ 31) {bytes : List UInt8}
    (hpart : part sub f (v :: rest) = .data bytes) {p : Nat} (h : At mem p bytes)
    (ud : List Event) :
    decodeData (collect decode) mem f (argOf f 0) p ud =
      some (ud ++ fieldEvents events f (v :: rest), 0) := by
  have hv := hvs v List.mem_cons_self
  have hle := h.le
  unfold decodeData fieldEvents
  by_cases harray : f.array = true
  · have hbytes : Part.data (sized (arrayBytes sub f (v :: rest))) = .data bytes := by
      rw [← hpart]
      exact (if_pos harray).symm
    rw [← Part.data.inj hbytes] at h
    rw [if_pos harray, if_pos harray, decodeArray_events hdecode hvs h hmem 0 ud]
    rfl
  have hone : f.array = false := Bool.eq_false_iff.mpr harray
  rw [if_neg harray, if_neg harray]
  have hobject (hkind : f.kind = .string ∨ f.kind = .struct) :
      ((todword mem p).bind fun sz =>
        (cbBytes (collect decode) mem (argOf f 0) (p + 4) (toInt sz) ud).bind fun r =>
          some (r.1, if r.2 ≠ 0 then (-1 : Int) else 0)) =
        some (ud ++ [event events f 0 v], 0) := by
    rw [part_object hone hkind hv rest] at hpart
    rw [← Part.data.inj hpart] at h hle
    rw [length_sized] at hle
    have hbody := h.right
    rw [length_dword] at hbody
    rw [todword_at h.left (by omega), Option.bind_some,
      cbBytes_event hdecode hv hkind hbody hmem 0 ud]
    rfl
  cases hkind : f.kind with
  | string => exact hobject (.inl hkind)
  | struct => exact hobject (.inr hkind)
  | boolean =>
      rw [hkind] at hv
      obtain ⟨b, rfl⟩ := hv.isBoolean
      have hinline : Part.inline ((if b then 1 else 0) + 1) = .data bytes := by
        rw [← hpart]
        exact (if_neg harray).symm
      cases hinline
  | integer =>
      rw [hkind] at hv
      have hinteger := hv.isInteger
      rcases hinteger with ⟨m, rfl⟩ | ⟨m, rfl⟩
      · have hm := m.toNat_lt
        have hbytes : (if m.toNat < 0x7fff then Part.inline (m.toNat + 1)
            else .data (sized (dword m.toNat))) = .data bytes := by
          rw [← hpart]
          exact (if_neg harray).symm
        by_cases hsmall : m.toNat < 0x7fff
        · rw [if_pos hsmall] at hbytes
          cases hbytes
        rw [if_neg hsmall] at hbytes
        rw [← Part.data.inj hbytes] at h
        have hsz : todword mem p = some 4 := by
          have hleft := h.left
          rw [length_dword] at hleft
          exact todword_at hleft (by decide)
        have hbody := h.right
        rw [length_dword] at hbody
        have hget : (todword mem (p + 4)).map expand64 = some (numberOf (.dword m)) := by
          rw [todword_at hbody m.toNat_lt, Option.map_some, expand64_eq m.toNat_lt]
          rfl
        rw [hsz]
        dsimp only [Option.bind_eq_bind, Option.bind_some]
        rw [if_pos rfl]
        have hcall := @decodeData_number decode events f _ _ hv.isInteger ud hget
        rw [Option.bind_eq_bind, Option.bind_map] at hcall
        exact hcall
      · have hbytes : Part.data (sized (LittleEndian.encode 8 m.toNat)) = .data bytes := by
          rw [← hpart]
          exact (if_neg harray).symm
        rw [← Part.data.inj hbytes] at h
        have hsz : todword mem p = some 8 := by
          have hleft := h.left
          rw [LittleEndian.length_encode] at hleft
          exact todword_at hleft (by decide)
        have hbody := h.right
        rw [length_dword] at hbody
        have hget : getQword mem (p + 4) = some (numberOf (.qword m)) :=
          getQword_at hbody m.toNat_lt
        rw [hsz]
        dsimp only [Option.bind_eq_bind, Option.bind_some]
        rw [if_neg (by decide), if_neg fun h => h rfl]
        exact @decodeData_number decode events f _ _ hv.isInteger ud hget

/-- A value in the record. -/
theorem decodeInline_events {v : Value} {rest : List Value} (hv : HasKind types n f.kind f.st v)
    {w : Nat} (hpart : part sub f (v :: rest) = .inline w) (p : Nat) (ud : List Event) :
    decodeField (collect decode) mem f ((w : Int) - 1) p ud =
      some (ud ++ fieldEvents events f (v :: rest), 0) := by
  have hpos := (part_inline hpart).1
  by_cases harray : f.array = true
  · have hdata : Part.data (sized (arrayBytes sub f (v :: rest))) = .inline w := by
      rw [← hpart]
      exact (if_pos harray).symm
    cases hdata
  have hone : f.array = false := Bool.eq_false_iff.mpr harray
  have hnumber : (IsInteger v ∨ ∃ b, v = .boolean b) ∧ w - 1 = numberOf v ∧
      (f.kind = .integer ∨ f.kind = .boolean) := by
    cases hkind : f.kind with
    | string =>
        rw [part_object hone (.inl hkind) hv rest] at hpart
        cases hpart
    | struct =>
        rw [part_object hone (.inr hkind) hv rest] at hpart
        cases hpart
    | boolean =>
        rw [hkind] at hv
        obtain ⟨b, rfl⟩ := hv.isBoolean
        have hw : Part.inline ((if b then 1 else 0) + 1) = .inline w := by
          rw [← hpart]
          exact (if_neg harray).symm
        rw [← Part.inline.inj hw]
        exact ⟨.inr ⟨b, rfl⟩, rfl, .inr rfl⟩
    | integer =>
        rw [hkind] at hv
        rcases hv.isInteger with ⟨m, rfl⟩ | ⟨m, rfl⟩
        · have hw : (if m.toNat < 0x7fff then Part.inline (m.toNat + 1)
              else .data (sized (dword m.toNat))) = .inline w := by
            rw [← hpart]
            exact (if_neg harray).symm
          by_cases hsmall : m.toNat < 0x7fff
          · rw [if_pos hsmall] at hw
            rw [← Part.inline.inj hw]
            refine ⟨.inl hv.isInteger, ?_, .inl rfl⟩
            show m.toNat = if 2 ^ 31 ≤ m.toNat then _ else _
            rw [if_neg (by omega)]
          · rw [if_neg hsmall] at hw
            cases hw
        · have hw : Part.data (sized (LittleEndian.encode 8 m.toNat)) = .inline w := by
            rw [← hpart]
            exact (if_neg harray).symm
          cases hw
  have hcall := @cbNumber_event decode events f v hnumber.1 0 ud
  have hvalue : ((w : Int) - 1).toNat = numberOf v := by
    rw [← hnumber.2.1]
    omega
  have hkinds : ¬ (f.array = true ∨ f.kind ≠ .integer ∧ f.kind ≠ .boolean) := by
    rintro (h | ⟨hinteger, hboolean⟩)
    · exact harray h
    · exact hnumber.2.2.elim hinteger hboolean
  unfold decodeField fieldEvents
  rw [if_neg (by omega), if_neg hkinds, if_neg harray, hvalue]
  show (cbNumber (collect decode) (argOf f 0) (numberOf v) ud).bind _ = _
  rw [hcall]
  rfl

/-- The record of data has no value. -/
theorem data_lt_zero (bytes : List UInt8) :
    (((Part.data bytes).value / 2 : Nat) : Int) - 1 < 0 := by
  show ((0 / 2 : Nat) : Int) - 1 < 0
  decide

theorem decodeField_events (hdecode : Decodes types decode sub events n) {vs : List Value}
    (hvs : ∀ v ∈ vs, HasKind types n f.kind f.st v) (hmem : mem.length < 2 ^ 31)
    (hpresent : part sub f vs ≠ .absent) {p : Nat} (h : At mem p (part sub f vs).bytes)
    (ud : List Event) :
    decodeField (collect decode) mem f (((part sub f vs).value / 2 : Nat) - 1) p ud =
      some (ud ++ fieldEvents events f vs, 0) := by
  cases vs with
  | nil => exact absurd rfl hpresent
  | cons v rest =>
      cases hpart : part sub f (v :: rest) with
      | absent => exact absurd hpart hpresent
      | inline w =>
          have hvalue : (((Part.inline w).value / 2 : Nat) : Int) = w := by
            show ((w * 2 / 2 : Nat) : Int) = w
            rw [Nat.mul_div_cancel w Nat.two_pos]
          rw [hvalue]
          exact decodeInline_events (hvs v List.mem_cons_self) hpart p ud
      | data bytes =>
          rw [hpart] at h
          have hdata := decodeData_events hdecode hvs hmem hpart h ud
          exact (if_pos (data_lt_zero bytes)).trans hdata

/-! ## The loop -/

theorem part_sized {vs : List Value} {bytes : List UInt8} (h : part sub f vs = .data bytes) :
    ∃ body, bytes = sized body := by
  unfold part at h
  split at h
  · cases h
  split at h
  · exact ⟨_, (Part.data.inj h).symm⟩
  split at h
  · split at h
    · cases h
    · exact ⟨_, (Part.data.inj h).symm⟩
  · exact ⟨_, (Part.data.inj h).symm⟩
  · cases h
  · exact ⟨_, (Part.data.inj h).symm⟩

/-- The loop moves on by the bytes of the part. -/
theorem dataSize_part {vs : List Value} (hpresent : part sub f vs ≠ .absent)
    (hmem : mem.length < 2 ^ 31) {p size : Nat} (h : At mem p (part sub f vs).bytes)
    (hle : (part sub f vs).bytes.length ≤ size) (hsize : size < 2 ^ 31) :
    dataSize mem (((part sub f vs).value / 2 : Nat) - 1) p size =
      some (some (part sub f vs).bytes.length) := by
  cases hpart : part sub f vs with
  | absent => exact absurd hpart hpresent
  | inline w =>
      have hpos := (part_inline hpart).1
      have hnot : ¬ ((((Part.inline w).value / 2 : Nat) : Int) - 1 < 0) := by
        show ¬ (((w * 2 / 2 : Nat) : Int) - 1 < 0)
        rw [Nat.mul_div_cancel w Nat.two_pos]
        omega
      exact if_neg hnot
  | data bytes =>
      obtain ⟨body, rfl⟩ := part_sized hpart
      rw [hpart] at h hle
      change At mem p (sized body) at h
      change (sized body).length ≤ size at hle
      have hlen := length_sized body
      have htotal := h.le
      have hsz : todword mem p = some body.length := todword_at h.left (by omega)
      have hu32 : u32 (body.length + 4) = body.length + 4 := Nat.mod_eq_of_lt (by omega)
      have hbytes : body.length + 4 = (sized body).length := by omega
      have hu : uint32OfInt (size : Int) = size := uint32OfInt_natCast hsize
      unfold dataSize
      rw [if_pos (data_lt_zero _), if_neg (by omega), hsz]
      dsimp only [Option.bind_eq_bind, Option.bind_some]
      rw [hu32, hu, if_neg (by omega), hbytes]
      rfl

theorem decodeLoop_skip {σ : Type} (cb : DecodeCallback σ) (st : SprotoType) {fn stream : Nat}
    {w : Nat} (hw : toword mem stream = some (w * 2 + 1)) (tag : Int) (datastream : Nat)
    (size : Int) (ud : σ) :
    decodeLoop cb st mem (fn + 1) stream tag datastream size ud =
      decodeLoop cb st mem fn (stream + 2) (tag + 1 + w) datastream size ud := by
  rw [decodeLoop, hw]
  dsimp only [Option.bind_eq_bind, Option.bind_some]
  rw [if_pos (by omega), show (w * 2 + 1) / 2 = w by omega]

theorem decodeLoop_field (hdecode : Decodes types decode sub events n) (st : SprotoType)
    (hf : f ∈ st.f) {vs : List Value} (hvs : ∀ v ∈ vs, HasKind types n f.kind f.st v)
    (hmem : mem.length < 2 ^ 31) (hpresent : part sub f vs ≠ .absent) {fn stream : Nat}
    (hword : At mem stream (word (part sub f vs).value)) {datastream left : Nat}
    (hdata : At mem datastream (part sub f vs).bytes)
    (hsize : (part sub f vs).bytes.length + left < 2 ^ 31) (ud : List Event) :
    decodeLoop (collect decode) st mem (fn + 1) stream ((f.tag : Int) - 1) datastream
      ((part sub f vs).bytes.length + left : Nat) ud =
        decodeLoop (collect decode) st mem fn (stream + 2) f.tag
          (datastream + (part sub f vs).bytes.length) left (ud ++ fieldEvents events f vs) := by
  have hfield := decodeField_events hdecode hvs hmem hpresent hdata ud
  have hnext := dataSize_part hpresent hmem hdata (Nat.le_add_right _ left) hsize
  have heven : (part sub f vs).value % 2 ≠ 1 ∧ (part sub f vs).value < 2 ^ 16 := by
    cases hpart : part sub f vs with
    | absent => exact absurd hpart hpresent
    | inline w =>
        have hw := (part_inline hpart).2
        show w * 2 % 2 ≠ 1 ∧ w * 2 < 2 ^ 16
        omega
    | data bytes =>
        show 0 % 2 ≠ 1 ∧ 0 < 2 ^ 16
        decide
  have htag : (f.tag : Int) - 1 + 1 = f.tag := Int.sub_add_cancel ..
  have hleft : (((part sub f vs).bytes.length + left : Nat) : Int) -
      ((part sub f vs).bytes.length : Nat) = left := by
    omega
  rw [decodeLoop, toword_at hword heven.2]
  dsimp only [Option.bind_eq_bind, Option.bind_some]
  rw [if_neg heven.1, hnext, Option.bind_some]
  dsimp only
  rw [htag, findtag_eq st hf]
  dsimp only
  rw [hfield, Option.bind_some]
  dsimp only
  rw [if_neg fun h => h rfl, hleft]

theorem fieldEvents_nil (events : Nat → Fields → List Event) (f : Field) :
    fieldEvents events f [] = [] := by
  unfold fieldEvents
  split
  · rfl
  · rfl

theorem decodeLoop_events (hdecode : Decodes types decode sub events n) (st : SprotoType)
    {fields : Fields} {fs : List Field} (hsub : ∀ f ∈ fs, f ∈ st.f)
    (hfs : fs.Pairwise fun a b => a.tag < b.tag)
    (hkinds : ∀ f ∈ fs, ∀ v ∈ given fields f.tag, HasKind types n f.kind f.st v)
    (hmem : mem.length < 2 ^ 31) {next stream datastream : Nat} (hnext : ∀ f ∈ fs, next ≤ f.tag)
    (hrecords : At mem stream ((records next (fieldParts sub fields fs)).flatMap word))
    (hdata : At mem datastream (dataBytes (fieldParts sub fields fs))) (ud : List Event) :
    decodeLoop (collect decode) st mem (records next (fieldParts sub fields fs)).length stream
      ((next : Int) - 1) datastream (dataBytes (fieldParts sub fields fs)).length ud =
        some (ud ++ fs.flatMap fun f => fieldEvents events f (given fields f.tag), 0) := by
  induction fs generalizing next stream datastream ud with
  | nil =>
      rw [List.flatMap_nil, List.append_nil]
      rfl
  | cons f rest ih =>
      obtain ⟨hhead, hrest⟩ := List.pairwise_cons.mp hfs
      have htag := hnext f List.mem_cons_self
      have hf := hsub f List.mem_cons_self
      have hbound := st.tag_lt f hf
      have hloop (next stream datastream : Nat) := @ih
        (fun a ha => hsub a (List.mem_cons_of_mem _ ha)) hrest
        (fun a ha => hkinds a (List.mem_cons_of_mem _ ha)) next stream datastream
      rw [fieldParts_cons] at hrecords hdata ⊢
      rw [dataBytes_cons] at hdata ⊢
      rw [List.flatMap_cons]
      have hvs := hkinds f List.mem_cons_self
      generalize given fields f.tag = vs at *
      by_cases habsent : part sub f vs = .absent
      · rw [habsent, records_absent] at hrecords ⊢
        rw [habsent] at hdata
        rw [part_absent habsent, fieldEvents_nil, List.nil_append]
        exact hloop next stream datastream
          (fun a ha => Nat.le_trans htag (Nat.le_of_lt (hhead a ha))) hrecords hdata ud
      · rw [records_present habsent] at hrecords ⊢
        rw [List.flatMap_append] at hrecords
        change At mem datastream ((part sub f vs).bytes ++ dataBytes (fieldParts sub fields rest))
          at hdata
        have hsize : (part sub f vs).bytes.length +
            (dataBytes (fieldParts sub fields rest)).length < 2 ^ 31 := by
          have hle := hdata.le
          rw [List.length_append] at hle
          omega
        have hfield (fn stream : Nat) (hword : At mem stream (word (part sub f vs).value)) :=
          @decodeLoop_field types decode sub events n mem f hdecode st hf vs hvs hmem habsent fn
            stream hword datastream _ hdata.left hsize ud
        have hnextLoop (stream : Nat) := hloop (f.tag + 1) stream
          (datastream + (part sub f vs).bytes.length) hhead
        have hnextTag : ((f.tag + 1 : Nat) : Int) - 1 = f.tag := by omega
        rw [hnextTag] at hnextLoop
        show decodeLoop _ _ _ _ _ _ _
          (((part sub f vs).bytes ++ dataBytes (fieldParts sub fields rest)).length : Nat) _ = _
        rw [List.length_append, List.length_append, length_recordsOf, ← List.append_assoc ud]
        by_cases hskip : next < f.tag
        · have hnew : recordsOf next f.tag (part sub f vs) =
              [(f.tag - next - 1) * 2 + 1, (part sub f vs).value] := by
            rw [recordsOf, if_pos hskip]
            rfl
          rw [hnew, List.flatMap_cons, List.flatMap_singleton, List.append_assoc] at hrecords
          have hword := hrecords.right
          rw [length_word] at hword
          have hlater := hword.right
          rw [length_word] at hlater
          rw [if_pos hskip, Nat.add_comm 2,
            decodeLoop_skip _ st (toword_at hrecords.left (by omega)),
            show (next : Int) - 1 + 1 + (f.tag - next - 1 : Nat) = (f.tag : Int) - 1 by omega,
            hfield _ _ hword.left]
          exact hnextLoop _ hlater hdata.right _
        · have hnew : recordsOf next f.tag (part sub f vs) = [(part sub f vs).value] := by
            rw [recordsOf, if_neg hskip]
            rfl
          rw [hnew, List.flatMap_singleton] at hrecords
          have hlater := hrecords.right
          rw [length_word] at hlater
          rw [if_neg hskip, Nat.add_comm 1, show (next : Int) - 1 = (f.tag : Int) - 1 by omega,
            hfield _ _ hrecords.left]
          exact hnextLoop _ hlater hdata.right _

/-! ## Structs -/

theorem sprotoDecode_events (hdecode : Decodes types decode sub events n) (st : SprotoType)
    {fields : Fields}
    (hkinds : ∀ f ∈ st.f, ∀ v ∈ given fields f.tag, HasKind types n f.kind f.st v)
    (hmem : (structBytes (parts sub st fields)).length < 2 ^ 31) :
    sprotoDecode (collect decode) st (structBytes (parts sub st fields))
      (structBytes (parts sub st fields)).length [] =
        some (st.f.flatMap fun f => fieldEvents events f (given fields f.tag),
          ((structBytes (parts sub st fields)).length : Int)) := by
  have hfit := (records_fit sub st fields).2
  have hlen := length_structBytes (parts sub st fields)
  have hwords := length_words (records 0 (parts sub st fields))
  have hat : At (structBytes (parts sub st fields)) 0 (word (records 0 (parts sub st fields)).length
      ++ (records 0 (parts sub st fields)).flatMap word ++ dataBytes (parts sub st fields)) :=
    ⟨[], [], by rw [List.append_nil]; rfl, rfl⟩
  have hrecords := hat.left.right
  have hdata := hat.right
  rw [length_word, Nat.zero_add] at hrecords
  rw [List.length_append, length_word, hwords, Nat.zero_add] at hdata
  have hloop : decodeLoop (collect decode) st (structBytes (parts sub st fields))
      (records 0 (parts sub st fields)).length 2 (-1)
      (2 + 2 * (records 0 (parts sub st fields)).length)
      ((dataBytes (parts sub st fields)).length : Nat) [] =
        some (st.f.flatMap fun f => fieldEvents events f (given fields f.tag), 0) :=
    decodeLoop_events hdecode st (fun f hf => hf) st.ascending hkinds hmem
      (fun f _ => Nat.zero_le _) hrecords hdata []
  have hfn : toword (structBytes (parts sub st fields)) 0 =
      some (records 0 (parts sub st fields)).length := toword_at hat.left.left (by omega)
  have hleft : (((structBytes (parts sub st fields)).length : Nat) : Int) - 2 -
      ((records 0 (parts sub st fields)).length : Int) * 2 =
        ((dataBytes (parts sub st fields)).length : Nat) := by
    omega
  unfold sprotoDecode
  rw [if_neg (by omega), hfn]
  dsimp only [Option.bind_eq_bind, Option.bind_some]
  rw [if_neg (by omega), hleft, Nat.mul_comm _ 2, hloop, Option.bind_some]
  dsimp only
  rw [if_neg (by decide), Int.sub_zero]

end Collect

/-- Structs of any depth. -/
theorem decodeStruct_decodes (types : Nat → SprotoType) (n : Nat) :
    Decodes types (decodeStruct types n) (wire types n) (structEvents types n) n := by
  induction n with
  | zero =>
      intro st fields h
      cases h
  | succ n ih =>
      intro st fields h hlen
      cases h with
      | struct kinds single => exact sprotoDecode_events ih (types st) kinds hlen

/-! ## Round trip -/

/-- `sproto_encode` of a struct stays in a buffer of `size` bytes. The result, unless it is -1, is
the number of the bytes from which `sproto_decode` makes the calls for the struct. -/
def RoundTrips (types : Nat → SprotoType) (n st : Nat) (fields : Fields) (bytes : Bytes.Memory)
    (size : Nat) : Prop :=
  ∃ sz d, encodeStruct types n st fields ⟨size, bytes⟩ 0 size = .ok (sz, d) ∧
    (0 ≤ sz → sz ≤ size ∧
      decodeStruct types n st (d.slice 0 sz.toNat) = some (structEvents types n st fields, sz))

theorem encodeStruct_ends (types : Nat → SprotoType) {n st : Nat} {fields : Fields}
    (h : HasKind types n .struct st (.struct fields)) (bytes : Bytes.Memory) {size : Nat}
    (hsize : size < 2 ^ 31) :
    Ends (encodeStruct types n st fields ⟨size, bytes⟩ 0 size)
      (structSpace types n st fields size) (·.1 < 0)
      (Wrote ⟨size, bytes⟩ 0 size (wire types n st fields)) := by
  have hroom : Room ⟨size, bytes⟩ 0 size := ⟨Int.zero_add _, by simp only; omega⟩
  exact (encodeStruct_encodes types n st fields h _ 0 size hroom).2

theorem not_roundTrips {types : Nat → SprotoType} {n st : Nat} {fields : Fields}
    (h : HasKind types n .struct st (.struct fields)) (bytes : Bytes.Memory) {size : Nat}
    (hsize : size < 2 ^ 31) (hspace : structSpace types n st fields size = .overrun) :
    ¬ RoundTrips types n st fields bytes size := by
  have hends := encodeStruct_ends types h bytes hsize
  rw [hspace] at hends
  have herror : encodeStruct types n st fields ⟨size, bytes⟩ 0 size = .error .outside := hends
  intro hround
  obtain ⟨sz, d, hok, -⟩ := hround
  rw [herror] at hok
  cases hok

/-- The encoder leaves the buffer exactly where 32-bit numbers are widened without the room. -/
theorem encode_exact (types : Nat → SprotoType) {n st : Nat} {fields : Fields}
    (h : HasKind types n .struct st (.struct fields)) (bytes : Bytes.Memory) {size : Nat}
    (hsize : size < 2 ^ 31) :
    RoundTrips types n st fields bytes size ↔ structSpace types n st fields size ≠ .overrun := by
  have hends := encodeStruct_ends types h bytes hsize
  cases hspace : structSpace types n st fields size with
  | overrun =>
      exact iff_of_false (not_roundTrips h bytes hsize hspace) fun hne => hne rfl
  | full =>
      rw [hspace] at hends
      obtain ⟨r, hok, hneg⟩ := hends
      refine iff_of_true ⟨r.1, r.2, hok, fun hpos => ?_⟩ (by decide)
      omega
  | left room =>
      rw [hspace] at hends
      obtain ⟨r, hok, hwrote⟩ := hends
      have hsz := hwrote.sz
      have hleft := hwrote.left
      refine iff_of_true ⟨r.1, r.2, hok, fun _ => ⟨by omega, ?_⟩⟩ (by simp)
      rw [hsz, Int.toNat_natCast, hwrote.put.slice]
      exact decodeStruct_decodes types n st fields h (by omega)

/-- A type with an array of integers, and three small numbers before a large one. -/
def numbersType : SprotoType :=
  ⟨[⟨0, .integer, true, "numbers", 0, -1⟩], List.pairwise_singleton _ _, by decide⟩

def lateQword : Fields := [(0, [.dword 1, .dword 2, .dword 3, .qword 0x10000000000])]

theorem hasKind_lateQword : HasKind (fun _ => numbersType) 1 .struct 0 (.struct lateQword) := by
  constructor
  · intro f hf v hv
    rw [List.mem_singleton.mp hf] at hv ⊢
    have hcases : v = .dword 1 ∨ v = .dword 2 ∨ v = .dword 3 ∨ v = .qword 0x10000000000 := by
      simpa [given, lateQword] using hv
    rcases hcases with rfl | rfl | rfl | rfl
    · exact .dword 1
    · exact .dword 2
    · exact .dword 3
    · exact .qword 0x10000000000
  · intro f hf harray
    rw [List.mem_singleton.mp hf] at harray
    cases harray

theorem encode_exact_fits :
    RoundTrips (fun _ => numbersType) 1 0 lateQword (fun _ => 0) 41 :=
  (encode_exact _ hasKind_lateQword _ (by decide)).mpr (by decide)

/-- With 29 bytes the third number leaves the eight that the large one seems to need. -/
theorem late_qword_overruns : HasKind (fun _ => numbersType) 1 .struct 0 (.struct lateQword) ∧
    ¬ RoundTrips (fun _ => numbersType) 1 0 lateQword (fun _ => 0) 29 :=
  ⟨hasKind_lateQword, not_roundTrips hasKind_lateQword _ (by decide) (by decide)⟩

end Jump.Skynet.Sproto
