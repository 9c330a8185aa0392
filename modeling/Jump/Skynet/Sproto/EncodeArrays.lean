import Jump.Skynet.Sproto.EncodeIntegers

/-! # Fields

What the encoder writes for arrays, and for the fields of a struct.
-/

namespace Jump.Skynet.Sproto

open Jump.Core

/-- The elements of an array are written, of which `r` has the end. -/
def Ended (d : Buffer) (p room : Nat) (bytes : List UInt8) (left : Nat)
    (r : Option (Nat × Buffer)) : Prop :=
  ∃ d', r = some (p + bytes.length, d') ∧ Buffer.Put d p bytes d' ∧ left + bytes.length = room

theorem Ended.cons {d d' : Buffer} {p room left : Nat} {bytes bytes' : List UInt8}
    {r : Option (Nat × Buffer)} (hput : Buffer.Put d p bytes d') (hle : bytes.length ≤ room)
    (h : Ended d' (p + bytes.length) (room - bytes.length) bytes' left r) :
    Ended d p room (bytes ++ bytes') left r := by
  obtain ⟨d'', rfl, hput', hleft⟩ := h
  refine ⟨d'', ?_, hput.append hput', ?_⟩
  · rw [List.length_append, Nat.add_assoc]
  · rw [List.length_append]
    omega

section Give

variable {encode : Nat → Fields → Buffer → Nat → Int → Except Halt (Int × Buffer)}
variable {sub : Nat → Fields → List UInt8} {space : Nat → Fields → Nat → Space}
variable {types : Nat → SprotoType} {n : Nat} {fields : Fields} {args : Arg}

theorem given_next {done rest : List Value} {v : Value}
    (h : given fields args.tagid = done ++ v :: rest) :
    (given fields args.tagid)[done.length + 1 - 1]? = some v := by
  rw [h, Nat.add_sub_cancel, List.getElem?_append_right (Nat.le_refl _), Nat.sub_self]
  rfl

theorem given_end {done : List Value} (h : given fields args.tagid = done ++ []) :
    (given fields args.tagid)[done.length + 1 - 1]? = none := by
  rw [h, List.append_nil, Nat.add_sub_cancel]
  exact List.getElem?_eq_none (Nat.le_refl _)

variable (encode) in
theorem booleanLoop_ends (done : List Value) {rest : List Value}
    (hgiven : given fields args.tagid = done ++ rest) (hvs : ∀ v ∈ rest, ∃ b, v = .boolean b)
    {fuel p room : Nat} {d : Buffer} (h : Room d p room) (hfuel : room < fuel) :
    Ends (booleanLoop (give encode fields) args fuel (done.length + 1) d p room)
      (booleanSpace room rest) (· = none)
      (Ended d p room (rest.map fun v => UInt8.ofNat (numberOf v))) := by
  induction rest generalizing done fuel p room d with
  | nil =>
      obtain ⟨fuel, rfl⟩ := Nat.exists_eq_add_one_of_ne_zero (Nat.ne_zero_of_lt hfuel)
      rw [booleanLoop, give_none d (given_end hgiven)]
      exact ⟨_, rfl, _, rfl, Buffer.Put.nil _ _, rfl⟩
  | cons v rest ih =>
      obtain ⟨fuel, rfl⟩ := Nat.exists_eq_add_one_of_ne_zero (Nat.ne_zero_of_lt hfuel)
      obtain ⟨b, rfl⟩ := hvs v List.mem_cons_self
      have hcount : (done ++ [Value.boolean b]).length = done.length + 1 := by
        rw [List.length_append, List.length_singleton]
      have hrest (room p : Nat) (d : Buffer) := @ih (done ++ [Value.boolean b])
        (hgiven.trans (List.append_cons ..)) (fun w hw => hvs w (List.mem_cons_of_mem _ hw)) fuel p
        room d
      rw [hcount] at hrest
      rw [booleanLoop, give_some d (given_next hgiven), booleanSpace]
      show Ends (if (room : Int) < 1 then _ else _) _ _ _
      by_cases hfull : room < 1
      · rw [if_pos hfull, if_pos (by omega)]
        exact ⟨none, rfl, rfl⟩
      rw [if_neg hfull, if_neg (by omega)]
      have htotal := h.total
      have hbyte : (if u32Of (if b then 1 else 0) = 0 then 0 else 1) =
          UInt8.ofNat (numberOf (.boolean b)) := by
        cases b with
        | false => rfl
        | true => rfl
      obtain ⟨d', hwrite, hput, -⟩ := @write_put d p [UInt8.ofNat (numberOf (.boolean b))]
        (by rw [List.length_singleton]; omega)
      show Ends (write d p [if u32Of (if b then 1 else 0) = 0 then 0 else 1] >>= _) _ _ _
      rw [hbyte, hwrite]
      have hends := hrest (room - 1) (p + 1) d' (h.after hput (by
        rw [List.length_singleton]
        omega)) (by omega)
      rw [show ((room - 1 : Nat) : Int) = room - 1 by omega] at hends
      exact hends.imp (fun _ h => h) fun left r hr => Ended.cons hput
        (by rw [List.length_singleton]; omega) hr

theorem objectLoop_ends (hencode : Encodes types encode sub space n) {st : Nat}
    (hsub : args.subtype = st) (hkind : args.type = .string ∨ args.type = .struct)
    (done : List Value) {rest : List Value} (hgiven : given fields args.tagid = done ++ rest)
    (hvs : ∀ v ∈ rest, HasKind types n args.type st v) {fuel p room : Nat} {d : Buffer}
    (h : Room d p room) (hfuel : room < fuel) :
    Ends (objectLoop (give encode fields) args fuel (done.length + 1) d p room)
      (objectSpace space st room rest) (· = none)
      (Ended d p room (rest.flatMap fun v => sized (bodyBytes sub st v))) := by
  induction rest generalizing done fuel p room d with
  | nil =>
      obtain ⟨fuel, rfl⟩ := Nat.exists_eq_add_one_of_ne_zero (Nat.ne_zero_of_lt hfuel)
      rw [objectLoop, objectSpace]
      by_cases hfull : room < 4
      · rw [if_pos hfull, if_pos (by omega)]
        exact ⟨none, rfl, rfl⟩
      · rw [if_neg hfull, if_neg (by omega)]
        dsimp only
        rw [give_none d (given_end hgiven)]
        exact ⟨_, rfl, _, rfl, Buffer.Put.nil _ _, rfl⟩
  | cons v rest ih =>
      obtain ⟨fuel, rfl⟩ := Nat.exists_eq_add_one_of_ne_zero (Nat.ne_zero_of_lt hfuel)
      have hcount : (done ++ [v]).length = done.length + 1 := by
        rw [List.length_append, List.length_singleton]
      have hrest (room p : Nat) (d : Buffer) := @ih (done ++ [v])
        (hgiven.trans (List.append_cons ..)) (fun w hw => hvs w (List.mem_cons_of_mem _ hw)) fuel p
        room d
      rw [hcount] at hrest
      rw [objectLoop, objectSpace]
      by_cases hfull : room < 4
      · rw [if_pos hfull, if_pos (by omega)]
        exact ⟨none, rfl, rfl⟩
      rw [if_neg hfull, if_neg (by omega)]
      dsimp only
      rw [give_some d (given_next hgiven)]
      have htotal := h.total
      have hargs : ({ args with
          value := .buffer (p + 4)
          length := (room : Int) - 4
          index := done.length + 1 } : Arg).subtype = st := hsub
      have hreply := reply_ends hencode (hvs v List.mem_cons_self) hkind
        (h.skip (Nat.le_of_not_lt hfull)) hargs rfl (show (room : Int) - 4 = _ by omega)
      refine hreply.bind ?_ ?_
      · intro r hr
        refine ⟨none, ?_, rfl⟩
        rw [if_neg (by omega), if_pos hr]
      · rintro left r ⟨hsz, hpos, hwrote⟩
        have hlen := length_sized (bodyBytes sub st v)
        have hleft := hwrote.left
        have hbody : (if args.type = .string then r.sz - 1 else r.sz) =
            (bodyBytes sub st v).length := by
          rw [hsz, bonus]
          split
          · exact Int.add_sub_cancel ..
          · exact Int.add_zero _
        rw [if_neg (by omega), if_neg (by omega), hbody]
        obtain ⟨d', hfill, hput⟩ := fillSize_put hwrote.put (by omega) rfl
        rw [hfill]
        have hends := hrest left (p + (sized (bodyBytes sub st v)).length) d'
          (h.after hput (by rw [hlen]; omega)) (by omega)
        rw [hlen, ← Nat.add_assoc] at hends
        show Ends (objectLoop _ _ fuel (done.length + 1 + 1) d' _ _) _ _ _
        rw [Int.toNat_natCast, show (room : Int) - 4 - (bodyBytes sub st v).length = left by omega]
        refine hends.imp (fun _ h => h) fun left' r' hr' => Ended.cons hput (by rw [hlen]; omega) ?_
        rw [hlen, ← Nat.add_assoc, show room - (4 + (bodyBytes sub st v).length) = left by omega]
        exact hr'

theorem HasKind.isInteger {st : Nat} {v : Value} (h : HasKind types n .integer st v) :
    IsInteger v := by
  cases h with
  | dword v => exact .inl ⟨v, rfl⟩
  | qword v => exact .inr ⟨v, rfl⟩

theorem HasKind.isBoolean {st : Nat} {v : Value} (h : HasKind types n .boolean st v) :
    ∃ b, v = .boolean b := by
  cases h with
  | boolean b => exact ⟨b, rfl⟩

theorem length_arrayBytes_pos {f : Field} {vs : List Value} (h : vs ≠ []) :
    0 < (arrayBytes sub f vs).length := by
  obtain ⟨v, rest, rfl⟩ := List.exists_cons_of_ne_nil h
  unfold arrayBytes
  split
  · exact Nat.succ_pos _
  · exact Nat.succ_pos _
  · rw [List.flatMap_cons, List.length_append, length_sized]
    omega

/-- What stands for the elements of an array; no element, no bytes. -/
def elementBytes (sub : Nat → Fields → List UInt8) (f : Field) (vs : List Value) : List UInt8 :=
  if vs = [] then [] else arrayBytes sub f vs

def Elements (d : Buffer) (p room : Nat) (vs : List Value) (bytes : List UInt8) (left : Nat)
    (r : Option (Nat × Buffer)) : Prop :=
  ∃ d', r = some (p + bytes.length, d') ∧ Buffer.Put d p bytes d' ∧
    (vs ≠ [] → left + bytes.length = room)

theorem encodeIntegerArray_ends {f : Field} (hf : f.kind = .integer) {vs : List Value}
    (hgiven : given fields args.tagid = vs) (hvs : ∀ v ∈ vs, IsInteger v) {d : Buffer}
    {p room : Nat} (h : Room d p room) :
    Ends (encodeIntegerArray (give encode fields) args d p room)
      (if room < 1 then .full else integerSpace (room - 1) 4 0 vs) (· = none)
      (Elements d p room vs (elementBytes sub f vs)) := by
  unfold encodeIntegerArray
  by_cases hfull : room < 1
  · rw [if_pos hfull, if_pos (by omega)]
    exact ⟨none, rfl, rfl⟩
  rw [if_neg hfull, if_neg (by omega), Int.toNat_natCast]
  have htotal := h.total
  have hstart : Numbers d p [] (width []) (room - 1) ⟨d, p + 1, (room : Int) - 1, 4, 1⟩ :=
    ⟨Buffer.Put.nil _ _, rfl, h.skip (Nat.le_of_not_lt hfull), by simp only; omega, rfl, rfl⟩
  have hloop := integerLoop_ends encode [] (hgiven.trans (List.nil_append vs).symm)
    (by rw [List.nil_append]; exact hvs) hstart (show room - 1 < room + 1 by omega)
  rw [List.nil_append] at hloop
  refine hloop.map ?_ ?_
  · rintro _ rfl
    exact ⟨none, rfl, rfl⟩
  · rintro left _ ⟨s, rfl, hs⟩
    have hbuffer := hs.buffer
    have hlen := length_numbers (width vs) vs
    have hfree := hs.free.total
    have hsize := hs.put.size
    by_cases hnil : vs = []
    · subst hnil
      refine ⟨_, if_pos hbuffer, s.d, rfl, hs.put.rest.mono (Nat.le_succ p) |> fun h => ⟨h, rfl⟩,
        fun h => absurd rfl h⟩
    · have hpos : 0 < (numbers (width vs) vs).length := by
        have hvs := List.length_pos_iff.mpr hnil
        rw [hlen]
        rcases width_eq vs with hw | hw
        · rw [hw]
          omega
        · rw [hw]
          omega
      have hbytes : elementBytes sub f vs =
          [UInt8.ofNat (width vs)] ++ numbers (width vs) vs := by
        rw [elementBytes, if_neg hnil, arrayBytes, hf]
        rfl
      obtain ⟨d', hwrite, hput, -⟩ := @write_front d s.d p [UInt8.ofNat (width vs)] _ hs.put
        (by rw [List.length_singleton]; omega)
      refine ⟨some (s.buffer, d'), ?_, d', ?_, ?_, ?_⟩
      · show (if s.buffer = p + 1 then _ else _) = _
        rw [if_neg (by omega), hs.intlen, hwrite]
        rfl
      · rw [hbytes, List.length_append, List.length_singleton, hbuffer, Nat.add_assoc]
      · rw [hbytes]
        exact hput
      · rw [hbytes, List.length_append, List.length_singleton]
        omega

/-- The room behind the length of an array. -/
def elementSpace (space : Nat → Fields → Nat → Space) (f : Field) (room : Nat)
    (vs : List Value) : Space :=
  match f.kind with
  | .integer => if room < 1 then .full else integerSpace (room - 1) 4 0 vs
  | .boolean => booleanSpace room vs
  | _ => objectSpace space f.st room vs

theorem arraySpace_eq (f : Field) (room : Nat) (vs : List Value) :
    arraySpace space f room vs =
      if room < 4 then .full else elementSpace space f (room - 4) vs := by
  unfold arraySpace elementSpace
  split
  · rfl
  · cases f.kind with
    | integer => rw [Nat.sub_sub]
    | boolean => rfl
    | string => rfl
    | struct => rfl

/-- The three loops of `encode_array`. -/
theorem elements_ends (hencode : Encodes types encode sub space n) {f : Field}
    (htype : args.type = f.kind) (hsub : args.subtype = f.st) {vs : List Value}
    (hgiven : given fields args.tagid = vs) (hvs : ∀ v ∈ vs, HasKind types n f.kind f.st v)
    {d : Buffer} {p room fuel : Nat} (h : Room d p room) (hfuel : room < fuel) :
    Ends (encodeElements (give encode fields) args fuel d p room) (elementSpace space f room vs)
      (· = none) (Elements d p room vs (elementBytes sub f vs)) := by
  have hended {bytes : List UInt8} (hbytes : elementBytes sub f vs = bytes) (left : Nat)
      (r : Option (Nat × Buffer)) (hr : Ended d p room bytes left r) :
      Elements d p room vs (elementBytes sub f vs) left r := by
    obtain ⟨d', hr, hput, hleft⟩ := hr
    rw [hbytes]
    exact ⟨d', hr, hput, fun _ => hleft⟩
  have hbytes (hkind : f.kind ≠ .integer) : elementBytes sub f vs = arrayBytes sub f vs := by
    unfold elementBytes
    split
    · rename_i hnil
      subst hnil
      unfold arrayBytes
      split
      · contradiction
      · rfl
      · rfl
    · rfl
  rw [elementSpace, encodeElements]
  cases hkind : f.kind with
  | integer =>
      rw [htype, hkind]
      exact encodeIntegerArray_ends hkind hgiven (fun v hv => (hkind ▸ hvs v hv).isInteger) h
  | boolean =>
      rw [htype, hkind]
      have hloop := booleanLoop_ends encode []
        (hgiven.trans (List.nil_append vs).symm) (fun v hv => (hkind ▸ hvs v hv).isBoolean) h hfuel
      refine hloop.imp (fun _ h => h) (hended ?_)
      rw [hbytes (by rw [hkind]; decide), arrayBytes, hkind]
  | string =>
      have hloop := objectLoop_ends hencode hsub (.inl (htype.trans hkind)) []
        (hgiven.trans (List.nil_append vs).symm) (fun v hv => by rw [htype]; exact hvs v hv) h hfuel
      rw [htype, hkind]
      refine hloop.imp (fun _ h => h) (hended ?_)
      rw [hbytes (by rw [hkind]; decide), arrayBytes, hkind]
  | struct =>
      have hloop := objectLoop_ends hencode hsub (.inr (htype.trans hkind)) []
        (hgiven.trans (List.nil_append vs).symm) (fun v hv => by rw [htype]; exact hvs v hv) h hfuel
      rw [htype, hkind]
      refine hloop.imp (fun _ h => h) (hended ?_)
      rw [hbytes (by rw [hkind]; decide), arrayBytes, hkind]

theorem encodeArray_ends (hencode : Encodes types encode sub space n) {f : Field}
    (htype : args.type = f.kind) (hsub : args.subtype = f.st) {vs : List Value}
    (hgiven : given fields args.tagid = vs) (hvs : ∀ v ∈ vs, HasKind types n f.kind f.st v)
    {d : Buffer} {p room : Nat} (h : Room d p room) :
    Ends (encodeArray (give encode fields) args d p room)
      ((arraySpace space f room vs).bind fun left => if vs = [] then .left room else .left left)
      (·.1 < 0) (Wrote d p room (if vs = [] then [] else sized (arrayBytes sub f vs))) := by
  rw [arraySpace_eq]
  unfold encodeArray
  by_cases hfull : room < 4
  · rw [if_pos hfull, if_pos (by omega)]
    exact ⟨_, rfl, Int.negSucc_lt_zero 0⟩
  rw [if_neg hfull, if_neg (by omega), Int.toNat_natCast]
  have htotal := h.total
  have helements := elements_ends hencode htype hsub hgiven hvs
    (h.skip (Nat.le_of_not_lt hfull)) (show room - 4 < room + 1 by omega)
  rw [show ((room - 4 : Nat) : Int) = room - 4 by omega] at helements
  refine helements.bind ?_ ?_
  · rintro _ rfl
    exact ⟨(-1, d), rfl, Int.negSucc_lt_zero 0⟩
  · rintro left _ ⟨d', rfl, hput, hleft⟩
    have hsz : ((p + 4 + (elementBytes sub f vs).length : Nat) : Int) - (p + 4 : Nat) =
        (elementBytes sub f vs).length := by
      omega
    show Ends (if ((p + 4 + (elementBytes sub f vs).length : Nat) : Int) - (p + 4 : Nat) = 0
      then _ else _) _ _ _
    rw [hsz]
    by_cases hnil : vs = []
    · have hbytes : elementBytes sub f vs = [] := if_pos hnil
      rw [hbytes] at hput
      have hzero : (([] : List UInt8).length : Int) = 0 := rfl
      rw [hbytes, if_pos hzero, if_pos hnil, if_pos hnil]
      exact ⟨_, rfl, rfl, ⟨hput.rest.mono (Nat.le_add_right _ _), rfl⟩, rfl⟩
    · have hbytes : elementBytes sub f vs = arrayBytes sub f vs := if_neg hnil
      rw [hbytes] at hput hleft
      have hleft := hleft hnil
      have hpos : 0 < (arrayBytes sub f vs).length := length_arrayBytes_pos hnil
      obtain ⟨d'', hfill, hput'⟩ := fillSize_put hput (by omega) rfl
      rw [hbytes, if_neg (by omega), if_neg hnil, if_neg hnil, hfill]
      refine ⟨_, rfl, ?_, hput', ?_⟩
      · rw [length_sized]
        push_cast
        omega
      · rw [length_sized]
        omega

def objectBytes (sub : Nat → Fields → List UInt8) (st : Nat) : List Value → List UInt8
  | [] => []
  | v :: _ => sized (bodyBytes sub st v)

/-- The callback for a field that is no array. -/
theorem give_head {args' : Arg} (d : Buffer) (htag : args'.tagid = args.tagid)
    (hindex : args'.index = 0) :
    give encode fields args' d =
      match (given fields args.tagid)[0 - 1]? with
      | some v => reply encode args' d v
      | none => .ok ⟨0, 0, d⟩ := by
  cases args'
  cases htag
  cases hindex
  rfl

theorem encodeObject_ends (hencode : Encodes types encode sub space n) {st : Nat}
    (hkind : args.type = .string ∨ args.type = .struct) (hsub : args.subtype = st)
    (hindex : args.index = 0) {vs : List Value} (hgiven : given fields args.tagid = vs)
    (hvs : ∀ v ∈ vs, HasKind types n args.type st v) {d : Buffer} {p room : Nat}
    (h : Room d p room) :
    Ends (encodeObject (give encode fields) args d p room)
      (if room < 4 then .full else headSpace room (bodySpace space st (room - 4)) vs)
      (·.1 < 0) (Wrote d p room (objectBytes sub st vs)) := by
  unfold encodeObject
  by_cases hfull : room < 4
  · rw [if_pos hfull, if_pos (by omega)]
    exact ⟨_, rfl, Int.negSucc_lt_zero 0⟩
  rw [if_neg hfull, if_neg (by omega)]
  have htotal := h.total
  have hargs : ({ args with
      value := .buffer (p + 4)
      length := (room : Int) - 4 } : Arg).subtype = st := hsub
  have htagid : ({ args with
      value := .buffer (p + 4)
      length := (room : Int) - 4 } : Arg).tagid = args.tagid := rfl
  cases vs with
  | nil =>
      have hnone : (given fields args.tagid)[0 - 1]? = none := by
        rw [hgiven]
        rfl
      rw [give_head d htagid hindex, hnone]
      exact ⟨_, rfl, rfl, Buffer.Put.nil _ _, rfl⟩
  | cons v rest =>
      have hsome : (given fields args.tagid)[0 - 1]? = some v := by
        rw [hgiven]
        rfl
      rw [give_head d htagid hindex, hsome]
      have hreply := reply_ends hencode (hvs v List.mem_cons_self) hkind
        (h.skip (Nat.le_of_not_lt hfull)) hargs rfl (show (room : Int) - 4 = _ by omega)
      refine hreply.map ?_ ?_
      · intro r hr
        exact ⟨_, if_pos (Int.le_of_lt hr), hr⟩
      · rintro left r ⟨hsz, hpos, hwrote⟩
        have hleft := hwrote.left
        have hbody : (if args.type = .string then r.sz - 1 else r.sz) =
            (bodyBytes sub st v).length := by
          rw [hsz, bonus]
          split
          · exact Int.add_sub_cancel ..
          · exact Int.add_zero _
        obtain ⟨d', hfill, hput⟩ := fillSize_put hwrote.put (by omega) rfl
        refine ⟨(_, d'), by rw [if_neg (by omega), hbody]; exact hfill, ?_, hput, ?_⟩
        · rw [objectBytes, length_sized]
          push_cast
          omega
        · rw [objectBytes, length_sized]
          omega

/-! ## Parts -/

def Part.sz : Part → Nat
  | .absent => 0
  | .inline _ => 2
  | .data bytes => bytes.length

/-- A part is written, and `left` are left. -/
structure PartWrote (d : Buffer) (p room : Nat) (part : Part) (left : Nat)
    (r : Int × Nat × Buffer) : Prop where
  sz : r.1 = part.sz
  value : r.2.1 = part.value
  put : Buffer.Put d p part.bytes r.2.2
  left : left + part.bytes.length = room

theorem PartWrote.of_wrote {d : Buffer} {p room left : Nat} {bytes : List UInt8}
    {r : Int × Buffer} (h : Wrote d p room bytes left r) :
    PartWrote d p room (.data bytes) left (r.1, 0, r.2) := ⟨h.sz, rfl, h.put, h.left⟩

theorem PartWrote.absent {d : Buffer} {p room left : Nat} {r : Int × Buffer}
    (h : Wrote d p room [] left r) : PartWrote d p room .absent left (r.1, 0, r.2) :=
  ⟨h.sz, rfl, h.put, h.left⟩

/-- An integer or a boolean that is not in an array. -/
theorem encodeNumber_part {f : Field} (harray : f.array = false) {d : Buffer} {p room : Nat}
    (h : Room d p room) {v : Value} (hv : IsInteger v ∨ ∃ b, v = .boolean b) (vs : List Value)
    {number : UInt64} {sz : Int}
    (hreply : reply encode args d v = .ok ⟨sz, number, d⟩) :
    Ends
      (if sz < 0 then .ok (-1, 0, d)
        else if sz = 0 then .ok (0, 0, d)
        else if sz = 4 then
          if u32Of number < 0x7fff then .ok (2, (u32Of number + 1) * 2, d)
          else do
            let (sz, d) ← encodeInteger (u32Of number) d p room
            .ok (sz, 0, d)
        else if sz = 8 then do
          let (sz, d) ← encodeUint64 number.toNat d p room
          .ok (sz, 0, d)
        else .ok (-1, 0, d) : Except Halt (Int × Nat × Buffer))
      (numberSpace room v) (·.1 < 0) (PartWrote d p room (part sub f (v :: vs))) := by
  rcases hv with (⟨m, rfl⟩ | ⟨m, rfl⟩) | ⟨b, rfl⟩
  · obtain ⟨rfl, rfl⟩ : (4 : Int) = sz ∧ m.toUInt64 = number := by
      have hok := Except.ok.inj hreply
      exact ⟨congrArg Reply.sz hok, congrArg Reply.number hok⟩
    have hu32 : u32Of m.toUInt64 = m.toNat := by
      rw [u32Of, UInt32.toNat_toUInt64]
      exact Nat.mod_eq_of_lt m.toNat_lt
    rw [if_neg (by decide), if_neg (by decide), if_pos rfl, hu32, numberSpace, part, harray,
      if_neg Bool.false_ne_true]
    by_cases hsmall : m.toNat < 0x7fff
    · simp only [if_pos hsmall]
      exact ⟨_, rfl, rfl, rfl, Buffer.Put.nil _ _, rfl⟩
    · simp only [if_neg hsmall]
      refine (encodeNumber_ends h 4 m.toNat).map (fun r hr => ⟨_, rfl, hr⟩) fun left r hr =>
        ⟨_, rfl, PartWrote.of_wrote hr⟩
  · obtain ⟨rfl, rfl⟩ : (8 : Int) = sz ∧ m = number := by
      have hok := Except.ok.inj hreply
      exact ⟨congrArg Reply.sz hok, congrArg Reply.number hok⟩
    rw [if_neg (by decide), if_neg (by decide), if_neg (by decide), if_pos rfl, numberSpace, part,
      harray, if_neg Bool.false_ne_true]
    exact (encodeNumber_ends h 8 m.toNat).map (fun r hr => ⟨_, rfl, hr⟩) fun left r hr =>
      ⟨_, rfl, PartWrote.of_wrote hr⟩
  · obtain ⟨rfl, rfl⟩ : (4 : Int) = sz ∧ (if b then 1 else 0) = number := by
      have hok := Except.ok.inj hreply
      exact ⟨congrArg Reply.sz hok, congrArg Reply.number hok⟩
    have hu32 : u32Of (if b then 1 else 0) = if b then 1 else 0 := by
      cases b with
      | false => rfl
      | true => rfl
    have hsmall : (if b then 1 else 0) < 0x7fff := by
      cases b with
      | false => decide
      | true => decide
    rw [if_neg (by decide), if_neg (by decide), if_pos rfl, hu32, if_pos hsmall, part, harray,
      if_neg Bool.false_ne_true]
    exact ⟨_, rfl, rfl, rfl, Buffer.Put.nil _ _, rfl⟩

/-- An integer or a boolean as a field. -/
theorem encodeScalar_ends {f : Field} (hkind : f.kind = .integer ∨ f.kind = .boolean)
    (harray : f.array = false) {vs : List Value} (hgiven : given fields f.tag = vs)
    (hvs : ∀ v ∈ vs, HasKind types n f.kind f.st v) {d : Buffer} {p room : Nat}
    (h : Room d p room) :
    Ends (encodeField (give encode fields) f d p room) (headSpace room (numberSpace room) vs)
      (·.1 < 0) (PartWrote d p room (part sub f vs)) := by
  have hfield : encodeField (give encode fields) f d p room = (do
      let r ← give encode fields ⟨f.name, f.tag, f.kind, f.st, .number, 8, 0, f.key⟩ d
      if r.sz < 0 then .ok (-1, 0, r.d)
      else if r.sz = 0 then .ok (0, 0, r.d)
      else if r.sz = 4 then
        if u32Of r.number < 0x7fff then .ok (2, (u32Of r.number + 1) * 2, r.d)
        else do
          let (sz, d) ← encodeInteger (u32Of r.number) r.d p room
          .ok (sz, 0, d)
      else if r.sz = 8 then do
        let (sz, d) ← encodeUint64 r.number.toNat r.d p room
        .ok (sz, 0, d)
      else .ok (-1, 0, r.d)) := by
    unfold encodeField
    rw [harray, if_neg Bool.false_ne_true]
    rcases hkind with hkind | hkind
    · rw [hkind]
    · rw [hkind]
  rw [hfield]
  cases vs with
  | nil =>
      have hnone : (given fields f.tag)[0 - 1]? = none := by
        rw [hgiven]
        rfl
      rw [give, hnone]
      exact ⟨_, rfl, rfl, rfl, Buffer.Put.nil _ _, rfl⟩
  | cons v rest =>
      have hsome : (given fields f.tag)[0 - 1]? = some v := by
        rw [hgiven]
        rfl
      have hv := hvs v List.mem_cons_self
      have hnumber : IsInteger v ∨ ∃ b, v = .boolean b := by
        rcases hkind with hkind | hkind
        · exact .inl (hkind ▸ hv).isInteger
        · exact .inr (hkind ▸ hv).isBoolean
      obtain ⟨sz, number, hreply⟩ : ∃ sz number,
          reply encode ⟨f.name, f.tag, f.kind, f.st, .number, 8, 0, f.key⟩ d v =
            .ok ⟨sz, number, d⟩ := by
        rcases hnumber with (⟨m, rfl⟩ | ⟨m, rfl⟩) | ⟨b, rfl⟩
        · exact ⟨_, _, rfl⟩
        · exact ⟨_, _, rfl⟩
        · exact ⟨_, _, rfl⟩
      rw [give, hsome]
      simp only
      rw [hreply]
      exact encodeNumber_part harray h hnumber rest hreply

theorem part_object {f : Field} (harray : f.array = false)
    (hkind : f.kind = .string ∨ f.kind = .struct) {v : Value}
    (hv : HasKind types n f.kind f.st v) (vs : List Value) :
    part sub f (v :: vs) = .data (sized (bodyBytes sub f.st v)) := by
  have hnot : ¬ f.array = true := by
    rw [harray]
    exact Bool.false_ne_true
  rcases hkind with hkind | hkind
  · rw [hkind] at hv
    cases hv with
    | string s => exact if_neg hnot
  · rw [hkind] at hv
    cases hv with
    | struct kinds single => exact if_neg hnot

/-- What stands for a field is written behind the data so far. -/
theorem encodeField_ends (hencode : Encodes types encode sub space n) {f : Field}
    {vs : List Value} (hgiven : given fields f.tag = vs)
    (hvs : ∀ v ∈ vs, HasKind types n f.kind f.st v) {d : Buffer} {p room : Nat}
    (h : Room d p room) :
    Ends (encodeField (give encode fields) f d p room) (fieldSpace space f room vs) (·.1 < 0)
      (PartWrote d p room (part sub f vs)) := by
  cases harray : f.array with
  | true =>
      have hends := @encodeArray_ends encode sub space types n fields
        ⟨f.name, f.tag, f.kind, f.st, .number, 0, 0, f.key⟩ hencode f rfl rfl vs hgiven hvs d p
        room h
      unfold encodeField fieldSpace
      rw [harray, if_pos rfl, if_pos rfl]
      refine hends.map (fun r hr => ⟨_, rfl, hr⟩) fun left r hr => ⟨_, rfl, ?_⟩
      cases vs with
      | nil => exact PartWrote.absent hr
      | cons v rest =>
          have hpart : part sub f (v :: rest) = .data (sized (arrayBytes sub f (v :: rest))) :=
            if_pos harray
          rw [hpart]
          exact PartWrote.of_wrote hr
  | false =>
      have hobject (hkind : f.kind = .string ∨ f.kind = .struct) :
          Ends (encodeField (give encode fields) f d p room)
            (if room < 4 then .full else headSpace room (bodySpace space f.st (room - 4)) vs)
            (·.1 < 0) (PartWrote d p room (part sub f vs)) := by
        have hfield : encodeField (give encode fields) f d p room = (do
            let (sz, d) ← encodeObject (give encode fields)
              ⟨f.name, f.tag, f.kind, f.st, .number, 0, 0, f.key⟩ d p room
            .ok (sz, 0, d)) := by
          unfold encodeField
          rw [harray, if_neg Bool.false_ne_true]
          rcases hkind with hkind | hkind
          · rw [hkind]
          · rw [hkind]
        have hends := @encodeObject_ends encode sub space types n fields
          ⟨f.name, f.tag, f.kind, f.st, .number, 0, 0, f.key⟩ hencode f.st hkind rfl rfl vs hgiven
          hvs d p room h
        rw [hfield]
        refine hends.map (fun r hr => ⟨_, rfl, hr⟩) fun left r hr => ⟨_, rfl, ?_⟩
        cases vs with
        | nil => exact PartWrote.absent hr
        | cons v rest =>
            rw [part_object harray hkind (hvs v List.mem_cons_self)]
            exact PartWrote.of_wrote hr
      unfold fieldSpace
      rw [harray, if_neg Bool.false_ne_true]
      cases hkind : f.kind with
      | integer => exact encodeScalar_ends (.inl hkind) harray hgiven hvs h
      | boolean => exact encodeScalar_ends (.inr hkind) harray hgiven hvs h
      | string => exact hobject (.inl hkind)
      | struct => exact hobject (.inr hkind)

end Give

end Jump.Skynet.Sproto
