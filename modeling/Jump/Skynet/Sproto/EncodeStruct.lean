import Jump.Skynet.Sproto.EncodeArrays

/-! # Structs

The records and the data behind them, and what `sproto_encode` makes of a struct.
-/

namespace Jump.Skynet.Sproto

open Jump.Core

/-! ## The number of records -/

theorem records_absent {next tag : Nat} (rest : List (Nat × Part)) :
    records next ((tag, .absent) :: rest) = records next rest := if_pos rfl

theorem records_present {next tag : Nat} {p : Part} (h : p ≠ .absent)
    (rest : List (Nat × Part)) :
    records next ((tag, p) :: rest) = recordsOf next tag p ++ records (tag + 1) rest := if_neg h

theorem length_recordsOf (next tag : Nat) (p : Part) :
    (recordsOf next tag p).length = if next < tag then 2 else 1 := by
  unfold recordsOf
  split
  · rfl
  · rfl

/-- The records of fields that come after the tag `last`, where those of the tags from `next` on
are still to be skipped: every field takes one, and every gap another one. -/
theorem length_records (g : Field → Part) {fs : List Field} {next : Nat} {last : Int}
    (hfs : fs.Pairwise fun a b => a.tag < b.tag) (hlast : ∀ f ∈ fs, last < f.tag)
    (hnext : (next : Int) ≤ last + 1) :
    (records next (fs.map fun f => (f.tag, g f))).length ≤
      fs.length + gaps last fs + (if (next : Int) ≤ last then 1 else 0) := by
  induction fs generalizing next last with
  | nil => exact Nat.zero_le _
  | cons f rest ih =>
      obtain ⟨hhead, hrest⟩ := List.pairwise_cons.mp hfs
      have htag := hlast f List.mem_cons_self
      have hlater : ∀ a ∈ rest, (f.tag : Int) < a.tag := fun a ha => Int.ofNat_lt.mpr (hhead a ha)
      rw [List.map_cons, List.length_cons, gaps]
      by_cases habsent : g f = .absent
      · have hle := @ih next f.tag hrest hlater (by omega)
        rw [if_pos (by omega)] at hle
        rw [habsent, records_absent]
        omega
      · have hle := @ih (f.tag + 1) f.tag hrest hlater (by omega)
        rw [if_neg (by omega)] at hle
        rw [records_present habsent, List.length_append, length_recordsOf]
        by_cases hskip : next < f.tag
        · rw [if_pos hskip]
          by_cases hgap : last + 1 < f.tag
          · rw [if_pos hgap]
            omega
          · rw [if_pos (show (next : Int) ≤ last by omega)]
            omega
        · rw [if_neg hskip]
          omega

theorem records_lt (g : Field → Part) {fs : List Field} {next : Nat}
    (hfs : fs.Pairwise fun a b => a.tag < b.tag) (hlt : ∀ f ∈ fs, f.tag < 0x7fff)
    (hle : ∀ f ∈ fs, next ≤ f.tag) (hnext : next ≤ 0x7fff) :
    (records next (fs.map fun f => (f.tag, g f))).length + next ≤ 0x7fff := by
  induction fs generalizing next with
  | nil => exact (Nat.zero_add next).symm ▸ hnext
  | cons f rest ih =>
      obtain ⟨hhead, hrest⟩ := List.pairwise_cons.mp hfs
      have htag := hle f List.mem_cons_self
      have hbound := hlt f List.mem_cons_self
      have hlt' : ∀ a ∈ rest, a.tag < 0x7fff := fun a ha => hlt a (List.mem_cons_of_mem _ ha)
      rw [List.map_cons]
      by_cases habsent : g f = .absent
      · rw [habsent, records]
        exact ih hrest hlt' (fun a ha => hle a (List.mem_cons_of_mem _ ha)) hnext
      · have hcount := @ih (f.tag + 1) hrest hlt' hhead (by omega)
        rw [records_present habsent, List.length_append, length_recordsOf]
        by_cases hskip : next < f.tag
        · rw [if_pos hskip]
          omega
        · rw [if_neg hskip]
          omega

theorem length_word (n : Nat) : (word n).length = 2 := LittleEndian.length_encode ..

theorem length_words (ws : List Nat) : (ws.flatMap word).length = 2 * ws.length := by
  induction ws with
  | nil => rfl
  | cons w rest ih =>
      rw [List.flatMap_cons, List.length_append, length_word, ih, List.length_cons]
      omega

/-! ## Records -/

theorem part_data {sub : Nat → Fields → List UInt8} {f : Field} {vs : List Value}
    {bytes : List UInt8} (h : part sub f vs = .data bytes) : 0 < bytes.length := by
  have hsized (b : List UInt8) : 0 < (sized b).length := by
    rw [length_sized]
    omega
  unfold part at h
  split at h
  · cases h
  split at h
  · rw [← Part.data.inj h]
    exact hsized _
  split at h
  · split at h
    · cases h
    · rw [← Part.data.inj h]
      exact hsized _
  · rw [← Part.data.inj h]
    exact hsized _
  · cases h
  · rw [← Part.data.inj h]
    exact hsized _

theorem part_inline {sub : Nat → Fields → List UInt8} {f : Field} {vs : List Value} {w : Nat}
    (h : part sub f vs = .inline w) : 0 < w ∧ w ≤ 0x7fff := by
  unfold part at h
  split at h
  · cases h
  split at h
  · cases h
  split at h
  · split at h
    · rw [← Part.inline.inj h]
      omega
    · cases h
  · cases h
  · rw [← Part.inline.inj h]
    split
    · omega
    · omega
  · cases h

/-- The loop of `sproto_encode` over a struct at `p`, of which the records `ws` and the bytes
`bs` behind the header are written; `next` is the tag behind the last record. -/
structure Progress (d₀ : Buffer) (p headerSz : Nat) (ws : List Nat) (bs : List UInt8)
    (room next : Nat) (s : EncodeState) : Prop where
  records : Buffer.Put d₀ (p + 2) (ws.flatMap word) s.d
  index : s.index = ws.length
  fits : 2 + 2 * ws.length ≤ headerSz
  bytes : s.d.slice (p + headerSz) bs.length = bs
  data : s.data = p + headerSz + bs.length
  free : Room s.d s.data room
  size : s.size = room
  lasttag : s.lasttag = (next : Int) - 1

section Record

variable {d₀ : Buffer} {p headerSz room next left : Nat} {ws : List Nat} {bs : List UInt8}
  {s : EncodeState}

/-- Data is written behind the data so far, then the words of the record. -/
theorem Progress.add (h : Progress d₀ p headerSz ws bs room next s) {d d' : Buffer}
    {bytes : List UInt8} {new : List Nat} (hdata : Buffer.Put s.d s.data bytes d)
    (hleft : left + bytes.length = room) (hfits : 2 + 2 * (ws ++ new).length ≤ headerSz)
    (hrecord : Buffer.Put d (p + 2 + 2 * ws.length) (new.flatMap word) d')
    (habove : ∀ i, p + headerSz ≤ i → d'.bytes i = d.bytes i) (tag : Nat) :
    Progress d₀ p headerSz (ws ++ new) (bs ++ bytes) left (tag + 1)
      ⟨d', s.data + bytes.length, left, (ws ++ new).length, tag⟩ := by
  have hlen := length_words ws
  have hstart := h.data
  have hbytes := h.bytes
  have hws := h.fits
  have hdataFrom : Buffer.Put d₀ (p + 2) (ws.flatMap word) d :=
    ⟨h.records.rest.trans (hdata.rest.mono (by omega)), by
      rw [hdata.rest.slice (by omega)]
      exact h.records.slice⟩
  have hslice : d.slice (p + headerSz) (bs ++ bytes).length = bs ++ bytes := by
    rw [List.length_append, Buffer.slice_add, hdata.rest.slice (by omega), hbytes, ← hstart,
      hdata.slice]
  have htotal := h.free.total
  have hfree := h.free.after hdata hleft
  refine ⟨?_, rfl, hfits, ?_, ?_, ⟨?_, ?_⟩, rfl, ?_⟩
  · rw [List.flatMap_append]
    exact hdataFrom.append (by rw [hlen]; exact hrecord)
  · rw [Buffer.slice_of_eq fun i hi _ => habove i (by omega)]
    exact hslice
  · show s.data + _ = _
    rw [List.length_append]
    omega
  · show ((s.data + bytes.length : Nat) : Int) + left = d'.size
    rw [hrecord.size]
    exact hfree.total
  · show d'.size < _
    rw [hrecord.size]
    exact hfree.size_lt
  · show (tag : Int) = ((tag + 1 : Nat) : Int) - 1
    omega

theorem putRecord_progress (h : Progress d₀ p headerSz ws bs room next s) {f : Field}
    {sub : Nat → Fields → List UInt8} {vs : List Value} {r : Int × Nat × Buffer}
    (hpart : PartWrote s.d s.data room (part sub f vs) left r)
    (hpresent : part sub f vs ≠ .absent) (htag : f.tag < 0x7fff) (hnext : next ≤ f.tag)
    (hfits : 2 + 2 * (ws ++ recordsOf next f.tag (part sub f vs)).length ≤ headerSz) :
    0 < r.1 ∧ ∃ s', putRecord p f r.1 r.2.1 r.2.2 s = .ok (some s') ∧
      Progress d₀ p headerSz (ws ++ recordsOf next f.tag (part sub f vs))
        (bs ++ (part sub f vs).bytes) left (f.tag + 1) s' := by
  have hleft := hpart.left
  have htotal := h.free.total
  have hsize := hpart.put.size
  -- the data counts, or the value is in the record
  have hmoved : 0 < r.1 ∧
      (if r.2.1 = 0 then s.data + r.1.toNat else s.data) =
        s.data + (part sub f vs).bytes.length ∧
      (if r.2.1 = 0 then s.size - r.1 else s.size) = left := by
    have hsz := hpart.sz
    have hvalue := hpart.value
    have hroom := h.size
    cases hp : part sub f vs with
    | absent => exact absurd hp hpresent
    | inline w =>
        have hw := (part_inline hp).1
        have hne : ¬ r.2.1 = 0 := by
          rw [hvalue, hp]
          show ¬ w * 2 = 0
          omega
        rw [hp] at hsz hleft
        have hzero : left + 0 = room := hleft
        rw [if_neg hne, if_neg hne]
        exact ⟨by rw [hsz]; exact Int.natCast_pos.mpr Nat.two_pos, rfl, by omega⟩
    | data bytes =>
        have hpos := part_data hp
        have hzero : r.2.1 = 0 := by
          rw [hvalue, hp]
          rfl
        rw [hp] at hsz hleft
        have hlen : r.1 = bytes.length := hsz
        have hroom' : left + bytes.length = room := hleft
        rw [if_pos hzero, if_pos hzero, hlen]
        refine ⟨by omega, by rw [Int.toNat_natCast]; rfl, by omega⟩
  refine ⟨hmoved.1, ?_⟩
  rw [hpart.value] at hmoved
  have htagdiff : (f.tag : Int) - s.lasttag - 1 = (f.tag - next : Nat) := by
    rw [h.lasttag]
    omega
  have hindex := h.index
  have hstart := h.data
  have hcount := length_recordsOf next f.tag (part sub f vs)
  rw [List.length_append, hcount] at hfits
  rw [putRecord]
  simp only [hmoved.2.1, hmoved.2.2, htagdiff, hpart.value, hindex]
  by_cases hskip : next < f.tag
  · rw [if_pos hskip] at hfits hcount
    have hnew : recordsOf next f.tag (part sub f vs) =
        [(f.tag - next - 1) * 2 + 1, (part sub f vs).value] := by
      rw [recordsOf, if_pos hskip]
      rfl
    have hskipWord : (((f.tag - next : Nat) : Int) - 1) * 2 + 1 =
        (((f.tag - next - 1) * 2 + 1 : Nat) : Int) := by
      omega
    obtain ⟨d₁, hwrite₁, hput₁, habove₁⟩ := @write_put r.2.2 (p + 2 + 2 * ws.length)
      (word ((f.tag - next - 1) * 2 + 1)) (by rw [length_word]; push_cast; omega)
    obtain ⟨d₂, hwrite₂, hput₂, habove₂⟩ := @write_put d₁ (p + 2 + 2 * ws.length + 2)
      (word (part sub f vs).value) (by rw [length_word, hput₁.size]; push_cast; omega)
    rw [length_word] at habove₁ habove₂
    have hrecord : Buffer.Put r.2.2 (p + 2 + 2 * ws.length)
        ((recordsOf next f.tag (part sub f vs)).flatMap word) d₂ := by
      rw [hnew, List.flatMap_cons, List.flatMap_singleton]
      exact hput₁.append (by rw [length_word]; exact hput₂)
    have hadd := h.add hpart.put hleft (by rw [List.length_append, hcount]; exact hfits) hrecord
      (fun i hi => by rw [habove₂ i (by omega), habove₁ i (by omega)]) f.tag
    rw [List.length_append, hcount] at hadd
    refine ⟨_, ?_, hadd⟩
    rw [if_pos (by omega), hskipWord, if_neg (by omega), Int.toNat_natCast]
    show (write r.2.2 _ (word _)).bind _ = _
    rw [hwrite₁]
    show (write d₁ _ (word _)).bind _ = _
    rw [hwrite₂]
    rfl
  · rw [if_neg hskip] at hfits hcount
    have hnew : recordsOf next f.tag (part sub f vs) = [(part sub f vs).value] := by
      rw [recordsOf, if_neg hskip]
      rfl
    obtain ⟨d₁, hwrite₁, hput₁, habove₁⟩ := @write_put r.2.2 (p + 2 + 2 * ws.length)
      (word (part sub f vs).value) (by rw [length_word]; push_cast; omega)
    rw [length_word] at habove₁
    have hrecord : Buffer.Put r.2.2 (p + 2 + 2 * ws.length)
        ((recordsOf next f.tag (part sub f vs)).flatMap word) d₁ := by
      rw [hnew, List.flatMap_singleton]
      exact hput₁
    have hadd := h.add hpart.put hleft (by rw [List.length_append, hcount]; exact hfits) hrecord
      (fun i hi => habove₁ i (by omega)) f.tag
    rw [List.length_append, hcount] at hadd
    refine ⟨_, ?_, hadd⟩
    rw [if_neg (by omega)]
    show (write r.2.2 _ (word _)).bind _ = _
    rw [hwrite₁]
    rfl

end Record

/-! ## Structs -/

section Give

variable {encode : Nat → Fields → Buffer → Nat → Int → Except Halt (Int × Buffer)}
variable {sub : Nat → Fields → List UInt8} {space : Nat → Fields → Nat → Space}
variable {types : Nat → SprotoType} {n : Nat} {fields : Fields}

def fieldParts (sub : Nat → Fields → List UInt8) (fields : Fields) (fs : List Field) :
    List (Nat × Part) :=
  fs.map fun f => (f.tag, part sub f (given fields f.tag))

theorem fieldParts_cons (f : Field) (rest : List Field) :
    fieldParts sub fields (f :: rest) =
      (f.tag, part sub f (given fields f.tag)) :: fieldParts sub fields rest := rfl

theorem dataBytes_cons (e : Nat × Part) (rest : List (Nat × Part)) :
    dataBytes (e :: rest) = e.2.bytes ++ dataBytes rest := List.flatMap_cons

/-- A field without a value only uses the buffer behind the data. -/
theorem Progress.skip {d₀ : Buffer} {p headerSz room next left : Nat} {ws : List Nat}
    {bs : List UInt8} {s : EncodeState} (h : Progress d₀ p headerSz ws bs room next s)
    {r : Int × Nat × Buffer} (hpart : PartWrote s.d s.data room .absent left r) :
    Progress d₀ p headerSz ws bs left next { s with d := r.2.2 } := by
  have hlen := length_words ws
  have hws := h.fits
  have hstart := h.data
  have hroom : left = room := hpart.left
  have hfrom := hpart.put.rest
  subst hroom
  refine ⟨⟨h.records.rest.trans (hfrom.mono (by omega)), ?_⟩, h.index, h.fits, ?_, h.data,
    h.free.from hfrom, h.size, h.lasttag⟩
  · rw [hfrom.slice (by omega)]
    exact h.records.slice
  · rw [hfrom.slice (by omega)]
    exact h.bytes

theorem encodeLoop_ends (hencode : Encodes types encode sub space n) {d₀ : Buffer}
    {p headerSz : Nat} {fs : List Field} (hfs : fs.Pairwise fun a b => a.tag < b.tag)
    (htags : ∀ f ∈ fs, f.tag < 0x7fff)
    (hkinds : ∀ f ∈ fs, ∀ v ∈ given fields f.tag, HasKind types n f.kind f.st v)
    {room next : Nat} {ws : List Nat} {bs : List UInt8} {s : EncodeState}
    (hnext : ∀ f ∈ fs, next ≤ f.tag) (h : Progress d₀ p headerSz ws bs room next s)
    (hfits : 2 + 2 * (ws ++ records next (fieldParts sub fields fs)).length ≤ headerSz) :
    Ends (encodeLoop (give encode fields) p fs s) (fieldsSpace space fields room fs) (· = none)
      (fun left r => ∃ s' next', r = some s' ∧
        Progress d₀ p headerSz (ws ++ records next (fieldParts sub fields fs))
          (bs ++ dataBytes (fieldParts sub fields fs)) left next' s') := by
  induction fs generalizing room next ws bs s with
  | nil =>
      refine ⟨_, rfl, s, next, rfl, ?_⟩
      show Progress d₀ p headerSz (ws ++ []) (bs ++ []) room next s
      rw [List.append_nil, List.append_nil]
      exact h
  | cons f rest ih =>
      obtain ⟨hhead, hrest⟩ := List.pairwise_cons.mp hfs
      have htag := hnext f List.mem_cons_self
      have hfield := encodeField_ends hencode rfl (hkinds f List.mem_cons_self) h.free
      have hloop (room next : Nat) (ws : List Nat) (bs : List UInt8) (s : EncodeState) :=
        @ih hrest (fun a ha => htags a (List.mem_cons_of_mem _ ha))
          (fun a ha => hkinds a (List.mem_cons_of_mem _ ha)) room next ws bs s
      rw [fieldParts_cons] at hfits ⊢
      rw [dataBytes_cons]
      rw [encodeLoop, fieldsSpace, h.size]
      refine hfield.bind ?_ ?_
      · intro r hr
        exact ⟨none, if_pos hr, rfl⟩
      · intro left r hpart
        by_cases habsent : part sub f (given fields f.tag) = .absent
        · have hzero : r.1 = 0 := by
            rw [hpart.sz, habsent]
            rfl
          rw [habsent, records_absent] at hfits
          rw [habsent] at hpart
          have hskip := hloop left next ws bs _ (fun a ha => Nat.le_trans htag
            (Nat.le_of_lt (hhead a ha))) (h.skip hpart) hfits
          rw [habsent, records_absent]
          show Ends (if r.1 < 0 then _ else _) _ _ _
          rw [if_neg (by omega), if_neg (by omega)]
          rw [h.size] at hskip
          exact hskip
        · rw [records_present habsent, ← List.append_assoc] at hfits
          have hfits' : 2 + 2 * (ws ++ recordsOf next f.tag
              (part sub f (given fields f.tag))).length ≤ headerSz := by
            rw [List.length_append] at hfits
            omega
          obtain ⟨hpos, s', hput, hprogress⟩ := putRecord_progress h hpart habsent
            (htags f List.mem_cons_self) htag hfits'
          have hnextLoop := hloop left (f.tag + 1) _ _ s' hhead hprogress hfits
          rw [records_present habsent, ← List.append_assoc, ← List.append_assoc]
          show Ends (if r.1 < 0 then _ else _) _ _ _
          rw [if_neg (by omega), if_pos hpos, hput]
          exact hnextLoop

theorem records_fit (sub : Nat → Fields → List UInt8) (st : SprotoType) (fields : Fields) :
    (records 0 (parts sub st fields)).length ≤ st.maxn ∧
      (records 0 (parts sub st fields)).length ≤ 0x7fff := by
  constructor
  · have hle := @length_records (fun f => part sub f (given fields f.tag)) st.f 0 (-1) st.ascending
      (fun f _ => by omega) (by decide)
    rw [if_neg (by decide)] at hle
    exact hle
  · exact records_lt _ st.ascending st.tag_lt (fun _ _ => Nat.zero_le _) (by decide)

theorem length_structBytes (ps : List (Nat × Part)) :
    (structBytes ps).length = 2 + 2 * (records 0 ps).length + (dataBytes ps).length := by
  rw [structBytes, List.length_append, List.length_append, length_word, length_words]

/-- The header is completed, and the data moved up to it. -/
theorem sprotoEncode_ends (hencode : Encodes types encode sub space n) (st : SprotoType)
    (hkinds : ∀ f ∈ st.f, ∀ v ∈ given fields f.tag, HasKind types n f.kind f.st v)
    {d : Buffer} {p room : Nat} (h : Room d p room) :
    Ends (sprotoEncode st d p room (give encode fields))
      (if room < 2 + st.maxn * 2 then .full
        else (fieldsSpace space fields (room - (2 + st.maxn * 2)) st.f).bind fun _ =>
          .left (room - (structBytes (parts sub st fields)).length))
      (·.1 < 0) (Wrote d p room (structBytes (parts sub st fields))) := by
  have hfit := (records_fit sub st fields).1
  have htotal := h.total
  unfold sprotoEncode
  simp only
  by_cases hfull : room < 2 + st.maxn * 2
  · rw [if_pos hfull, if_pos (by omega)]
    exact ⟨_, rfl, Int.negSucc_lt_zero 0⟩
  rw [if_neg hfull, if_neg (by omega)]
  have hstart : Progress d p (2 + st.maxn * 2) [] [] (room - (2 + st.maxn * 2)) 0
      ⟨d, p + (2 + st.maxn * 2), (room : Int) - (2 + st.maxn * 2 : Nat), 0, -1⟩ :=
    ⟨Buffer.Put.nil _ _, rfl, Nat.le_add_right _ _, rfl, rfl, h.skip (by omega),
      by simp only; omega, rfl⟩
  have hloop := encodeLoop_ends hencode st.ascending st.tag_lt hkinds
    (fun _ _ => Nat.zero_le _) hstart (by
      rw [List.nil_append]
      show 2 + 2 * (records 0 (parts sub st fields)).length ≤ _
      omega)
  rw [List.nil_append, List.nil_append] at hloop
  refine hloop.bind ?_ ?_
  · rintro _ rfl
    exact ⟨(-1, d), rfl, Int.negSucc_lt_zero 0⟩
  · rintro left _ ⟨s, next, rfl, hs⟩
    change Progress d p (2 + st.maxn * 2) (records 0 (parts sub st fields))
      (dataBytes (parts sub st fields)) left next s at hs
    have hlen := length_structBytes (parts sub st fields)
    generalize hps : parts sub st fields = ps at hs hfit hlen ⊢
    have hwords := length_words (records 0 ps)
    have hfree := hs.free.total
    have hdata := hs.data
    have hsize := hs.records.size
    obtain ⟨d₁, hwrite, hput, habove⟩ := @write_front d s.d p (word (records 0 ps).length) _
      (by rw [length_word]; exact hs.records) (by rw [length_word]; push_cast; omega)
    rw [length_word] at habove
    have hindex : s.index = (records 0 ps).length := hs.index
    have hdatasz : s.data - (p + (2 + st.maxn * 2)) = (dataBytes ps).length := by
      rw [hdata]
      exact Nat.add_sub_cancel_left ..
    have hslice : d₁.slice (p + (2 + st.maxn * 2)) (dataBytes ps).length = dataBytes ps := by
      rw [Buffer.slice_of_eq fun i hi _ => habove i (by omega)]
      exact hs.bytes
    have hfront : (word (records 0 ps).length ++ (records 0 ps).flatMap word).length =
        2 + (records 0 ps).length * 2 := by
      rw [List.length_append, length_word, hwords, Nat.mul_comm]
    -- the data is in place, or is moved
    obtain ⟨d₂, hmove, hput₂⟩ : ∃ d₂,
        moveData st p (records 0 ps).length (dataBytes ps).length d₁ = .ok d₂ ∧
          Buffer.Put d₁ (p + (2 + (records 0 ps).length * 2)) (dataBytes ps) d₂ := by
      unfold moveData
      by_cases hsame : (records 0 ps).length = st.maxn
      · rw [if_pos hsame, hsame]
        exact ⟨d₁, rfl, Buffer.From.refl _ _, hslice⟩
      · rw [if_neg hsame, hslice]
        obtain ⟨d₂, hwrite₂, hput₂, -⟩ := @write_put d₁ (p + 2 + (records 0 ps).length * 2)
          (dataBytes ps) (by rw [hput.size]; push_cast; omega)
        exact ⟨d₂, hwrite₂, by rw [← Nat.add_assoc]; exact hput₂⟩
    refine ⟨(2 + s.index * 2 + (dataBytes ps).length, d₂), ?_, ?_, ?_, ?_⟩
    · simp only [hindex, hdatasz]
      show (write s.d p (word (records 0 ps).length)).bind _ = _
      rw [hwrite]
      show (moveData st p (records 0 ps).length (dataBytes ps).length d₁).bind _ = _
      rw [hmove]
      rfl
    · rw [hindex, hlen]
      push_cast
      omega
    · rw [structBytes]
      exact hput.append (by rw [hfront]; exact hput₂)
    · rw [hlen]
      omega

end Give

theorem structBytes_ne_nil (ps : List (Nat × Part)) : structBytes ps ≠ [] := by
  refine List.ne_nil_of_length_pos ?_
  rw [length_structBytes]
  omega

/-- Structs of any depth. -/
theorem encodeStruct_encodes (types : Nat → SprotoType) (n : Nat) :
    Encodes types (encodeStruct types n) (wire types n) (structSpace types n) n := by
  induction n with
  | zero => exact fun st fields h => nomatch h
  | succ n ih =>
      intro st fields h d p room hroom
      cases h with
      | struct kinds single =>
          exact ⟨structBytes_ne_nil _, sprotoEncode_ends ih (types st) kinds hroom⟩

end Jump.Skynet.Sproto
