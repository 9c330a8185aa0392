import Jump.Skynet.LuaSeri.Format

/-! # Unpacking what was packed -/

namespace Jump.Skynet.LuaSeri

open Jump.Core

theorem rbReadAt_append {bytes : List UInt8} {sz : Nat} (h : bytes.length = sz) (line : Nat)
    (rest : ReadBlock) : rbReadAt (bytes ++ rest) sz line = .ok (bytes, rest) := by
  have hlen : ¬ (bytes ++ rest).length < sz := by
    rw [List.length_append]
    omega
  rw [rbReadAt, rbRead, if_neg hlen, ← h, List.take_left, List.drop_left]

theorem rbReadAt_cons (b : UInt8) (line : Nat) (rest : ReadBlock) :
    rbReadAt (b :: rest) 1 line = .ok ([b], rest) :=
  rbReadAt_append (List.length_singleton) line rest

theorem decode_singleton (b : UInt8) : LittleEndian.decode [b] = b.toNat := rfl

/-- A type and a cookie share a byte. -/
theorem combineType_type_cookie : ∀ t < 8, ∀ v < 32,
    (combineType t (v : Nat)).toNat &&& 7 = t ∧ (combineType t (v : Nat)).toNat >>> 3 = v := by
  decide

/-! ## Integers -/

theorem bmod_toUInt64 (v : Int64) {width : Nat} (h : width ≤ 8) :
    Int.bmod v.toUInt64.toNat (256 ^ width) = Int.bmod v.toInt (256 ^ width) := by
  have hv : v.toInt = Int.bmod v.toUInt64.toNat (2 ^ 64) := by
    rw [Int64.toInt, BitVec.toInt_eq_toNat_bmod]
    rfl
  have hdvd : 256 ^ width ∣ 2 ^ 64 := by
    rw [show 2 ^ 64 = 256 ^ 8 from rfl]
    exact Nat.pow_dvd_pow 256 h
  rw [hv, Int.bmod_bmod_of_dvd hdvd]

/-- The bytes behind the type of an integer, where `cookie` tells their number. -/
def IntegerForm (v : Int64) (cookie : Nat) (bytes : List UInt8) : Prop :=
  ∀ rest, getInteger (bytes ++ rest) cookie = .ok (v, rest)

theorem signedForm {v : Int64} {width cookie line : Nat} (hwidth : width ≤ 8)
    (hv : Int.bmod v.toInt (256 ^ width) = v.toInt)
    (hget : ∀ rb, getInteger rb cookie = (do
      let (pn, rb) ← rbReadAt rb width line
      .ok (Int64.ofInt (LittleEndian.decodeSigned pn), rb))) :
    IntegerForm v cookie (LittleEndian.encode width v.toUInt64.toNat) := by
  intro rest
  rw [hget, rbReadAt_append (LittleEndian.length_encode ..)]
  show Except.ok (Int64.ofInt (LittleEndian.decodeSigned _), rest) = _
  rw [LittleEndian.decodeSigned_encode, bmod_toUInt64 v hwidth, hv, Int64.ofInt_toInt]

theorem unsignedForm {v : Int64} {width cookie line : Nat} (hpos : 0 ≤ v.toInt)
    (hv : v.toInt < (256 ^ width : Nat))
    (hget : ∀ rb, getInteger rb cookie = (do
      let (pn, rb) ← rbReadAt rb width line
      .ok (Int64.ofInt (LittleEndian.decode pn), rb))) :
    IntegerForm v cookie (LittleEndian.encode width v.toUInt64.toNat) := by
  have hnat : (v.toUInt64.toNat : Int) = v.toInt := by
    have h := bmod_toUInt64 v (Nat.le_refl 8)
    have hlt := v.toUInt64.toNat_lt
    have hlow := v.le_toInt
    have hhigh := v.toInt_lt
    rw [Int.bmod_def, Int.bmod_def] at h
    omega
  intro rest
  rw [hget, rbReadAt_append (LittleEndian.length_encode ..)]
  show Except.ok (Int64.ofInt (LittleEndian.decode _), rest) = _
  rw [LittleEndian.decode_encode_of_lt (by omega), hnat, Int64.ofInt_toInt]

/-- An integer of any width is read back. -/
theorem integerBytes_form (v : Int64) : ∃ (cookie : Nat) (bytes : List UInt8),
    integerBytes v = combineType typeNumber cookie :: bytes ∧ cookie < 8 ∧
      IntegerForm v cookie bytes := by
  unfold integerBytes
  by_cases hzero : v.toInt = 0
  · rw [if_pos hzero]
    refine ⟨typeNumberZero, [], rfl, by decide, fun rest => ?_⟩
    have hv : v = 0 := Int64.toInt_inj.mp hzero
    rw [hv]
    rfl
  rw [if_neg hzero]
  by_cases hqword : v.toInt ≠ Int.bmod v.toInt (2 ^ 32)
  · rw [if_pos hqword]
    have hv : Int.bmod v.toInt (256 ^ 8) = v.toInt := by
      have hlow := v.le_toInt
      have hhigh := v.toInt_lt
      rw [Int.bmod_def]
      omega
    exact ⟨typeNumberQword, _, rfl, by decide, signedForm (Nat.le_refl 8) hv fun _ => rfl⟩
  rw [if_neg hqword]
  have hdword : Int.bmod v.toInt (256 ^ 4) = v.toInt := (not_not.mp hqword).symm
  by_cases hneg : v.toInt < 0
  · rw [if_pos hneg]
    exact ⟨typeNumberDword, _, rfl, by decide, signedForm (by decide) hdword fun _ => rfl⟩
  rw [if_neg hneg]
  have hpos : 0 ≤ v.toInt := Int.not_lt.mp hneg
  by_cases hbyte : v.toInt < 0x100
  · rw [if_pos hbyte]
    exact ⟨typeNumberByte, _, rfl, by decide, unsignedForm hpos hbyte fun _ => rfl⟩
  rw [if_neg hbyte]
  by_cases hword : v.toInt < 0x10000
  · rw [if_pos hword]
    exact ⟨typeNumberWord, _, rfl, by decide, unsignedForm hpos hword fun _ => rfl⟩
  · rw [if_neg hword]
    exact ⟨typeNumberDword, _, rfl, by decide, signedForm (by decide) hdword fun _ => rfl⟩

/-! ## Values -/

/-- `one` reads the value back. -/
def Reads (one : ReadBlock → Except Halt (Value × ReadBlock)) (v : Value) : Prop :=
  ∀ rest, one (serial v ++ rest) = .ok (v, rest)

/-- The serial form of `v` is a type byte, and `push_value` reads the rest. -/
def Pushes (one : ReadBlock → Except Halt (Value × ReadBlock)) (v : Value) : Prop :=
  ∃ t bytes, serial v = t :: bytes ∧
    ∀ rest, pushValue one (bytes ++ rest) (t.toNat &&& 7) (t.toNat >>> 3) = .ok (v, rest)

section Unpack

variable {one : ReadBlock → Except Halt (Value × ReadBlock)}

theorem pushes_of_form (t cookie : Nat) {v : Value} {bytes : List UInt8} (ht : t < 8)
    (hcookie : cookie < 32) (hserial : serial v = combineType t cookie :: bytes)
    (hpush : ∀ rest, pushValue one (bytes ++ rest) t cookie = .ok (v, rest)) : Pushes one v := by
  have hbyte := combineType_type_cookie t ht cookie hcookie
  refine ⟨_, bytes, hserial, fun rest => ?_⟩
  rw [hbyte.1, hbyte.2]
  exact hpush rest

theorem integer_pushes (i : Int64) : Pushes one (.integer i) := by
  obtain ⟨cookie, bytes, hbytes, hcookie, hform⟩ := integerBytes_form i
  refine pushes_of_form typeNumber cookie (by decide) (by omega)
    (by rw [serial, hbytes]) fun rest => ?_
  show (if cookie = typeNumberReal then _ else _) = _
  rw [if_neg (Nat.ne_of_lt hcookie), hform rest]
  rfl

theorem number_pushes (bits : UInt64) : Pushes one (.number bits) := by
  refine pushes_of_form typeNumber typeNumberReal (by decide) (by decide)
    (by rw [serial, numberBytes]) fun rest => ?_
  show (getReal _ >>= fun r => Except.ok (Value.number r.1, r.2)) = _
  rw [getReal, rbReadAt_append (LittleEndian.length_encode ..)]
  show Except.ok (Value.number (UInt64.ofNat (LittleEndian.decode _)), rest) = _
  rw [LittleEndian.decode_encode_of_lt bits.toNat_lt, UInt64.ofNat_toNat]

theorem lightuserdata_pushes (p : UInt64) : Pushes one (.lightuserdata p) := by
  have hserial : serial (.lightuserdata p) =
      combineType typeUserdata (0 : Nat) :: LittleEndian.encode 8 p.toNat := by
    rw [serial]
    rfl
  refine pushes_of_form typeUserdata 0 (by decide) (by decide) hserial fun rest => ?_
  show (getPointer _ >>= fun r => Except.ok (Value.lightuserdata r.1, r.2)) = _
  rw [getPointer, rbReadAt_append (LittleEndian.length_encode ..)]
  show Except.ok (Value.lightuserdata (UInt64.ofNat (LittleEndian.decode _)), rest) = _
  rw [LittleEndian.decode_encode_of_lt p.toNat_lt, UInt64.ofNat_toNat]

theorem getBuffer_append (bytes rest : List UInt8) :
    getBuffer (bytes ++ rest) bytes.length = .ok (.string bytes, rest) := by
  have hlen : ¬ (bytes.length : Int) < 0 := Int.not_lt.mpr (Int.natCast_nonneg _)
  rw [getBuffer, if_neg hlen, Int.toNat_natCast, rbReadAt_append rfl]
  rfl

/-- The length of a long string, of `width` bytes. -/
theorem getBuffer_long (bytes rest : List UInt8) {width line : Nat}
    (hlen : bytes.length < 256 ^ width) {read : Nat → Int}
    (hread : read bytes.length = bytes.length) :
    (do
      let (plen, rb) ← rbReadAt (LittleEndian.encode width bytes.length ++ bytes ++ rest) width line
      getBuffer rb (read (LittleEndian.decode plen))) = .ok (.string bytes, rest) := by
  rw [List.append_assoc, rbReadAt_append (LittleEndian.length_encode ..)]
  show getBuffer (bytes ++ rest) (read (LittleEndian.decode _)) = _
  rw [LittleEndian.decode_encode_of_lt hlen, hread, getBuffer_append]

theorem string_pushes (bytes : List UInt8) (h : bytes.length < 2 ^ 31) :
    Pushes one (.string bytes) := by
  by_cases hshort : bytes.length < maxCookie
  · exact pushes_of_form typeShortString bytes.length (by decide) hshort
      (by rw [serial, stringBytes, if_pos hshort]) fun rest => getBuffer_append bytes rest
  by_cases hword : bytes.length < 0x10000
  · refine pushes_of_form typeLongString 2 (by decide) (by decide)
      (by rw [serial, stringBytes, if_neg hshort, if_pos hword]; rfl) fun rest => ?_
    exact getBuffer_long bytes rest hword rfl
  · refine pushes_of_form typeLongString 4 (by decide) (by decide)
      (by rw [serial, stringBytes, if_neg hshort, if_neg hword]; rfl) fun rest => ?_
    exact getBuffer_long bytes rest (by omega) (toInt_of_lt h)

/-! ## Tables -/

theorem getArraySize_append {size : Nat} (hsize : size < 2 ^ 31) :
    ∃ (cookie : Nat) (bytes : List UInt8),
    arraySizeBytes size = combineType typeTable cookie :: bytes ∧ cookie < maxCookie ∧
      ∀ rest, getArraySize (bytes ++ rest) cookie = .ok ((size : Int), rest) := by
  unfold arraySizeBytes
  by_cases hlarge : maxCookie - 1 ≤ size
  · obtain ⟨cookie, bytes, hbytes, hcookie, hform⟩ := integerBytes_form (Int64.ofInt size)
    have hbyte := combineType_type_cookie typeNumber (by decide) cookie (by omega)
    have hint : (Int64.ofInt size).toInt = size :=
      Int64.toInt_ofInt_of_le (by omega) (by omega)
    have hnum : Int.bmod (size : Int) (2 ^ 32) = size := by
      rw [Int.bmod_def]
      omega
    have hnumber : ¬ (typeNumber ≠ typeNumber ∨ cookie = typeNumberReal) := fun h =>
      h.elim (fun h => h rfl) (Nat.ne_of_lt hcookie)
    refine ⟨maxCookie - 1, _, if_pos hlarge, by decide, fun rest => ?_⟩
    rw [getArraySize, if_pos rfl, hbytes, List.cons_append, rbReadAt_cons]
    show (if LittleEndian.decode _ &&& 7 ≠ typeNumber ∨ _ then _ else _) = _
    rw [decode_singleton, hbyte.1, hbyte.2, if_neg hnumber, hform rest]
    show Except.ok (Int.bmod (Int64.ofInt size).toInt (2 ^ 32), rest) = _
    rw [hint, hnum]
  · refine ⟨size, [], if_neg hlarge, by omega, fun rest => ?_⟩
    rw [getArraySize, if_neg (by unfold maxCookie at hlarge ⊢; omega)]
    rfl

theorem unpackArray_reads {array : List Value} (h : ∀ v ∈ array, Reads one v)
    (rest : ReadBlock) :
    unpackArray one array.length (serialArray array ++ rest) = .ok (array, rest) := by
  induction array with
  | nil => rfl
  | cons v tail ih =>
      have htail := ih fun w hw => h w (List.mem_cons_of_mem _ hw)
      rw [serialArray, List.append_assoc, List.length_cons, unpackArray, h v List.mem_cons_self]
      show (unpackArray one tail.length _).bind _ = _
      rw [htail]
      rfl

theorem not_isNil_of_isHashKey {size : Nat} {key : Value} (h : IsHashKey size key) :
    ¬ isNil key = true := by
  cases key with
  | nil => exact h.elim
  | _ => exact Bool.false_ne_true

/-- The entries are stored one behind the other, up to the nil that ends them. -/
theorem unpackHash_reads {array : List Value} {done hash : List (Value × Value)} {fuel : Nat}
    (hnil : Reads one .nil) (hkeys : ∀ e ∈ hash, Reads one e.1)
    (hvalues : ∀ e ∈ hash, Reads one e.2)
    (stored : ∀ e ∈ hash, IsHashKey array.length e.1 ∧ isNil e.2 = false)
    (distinct : (done ++ hash).Pairwise fun d e => rawequal d.1 e.1 = false)
    (hfuel : hash.length < fuel) (rest : ReadBlock) :
    unpackHash one fuel array done (serialHash hash ++ [UInt8.ofNat typeNil] ++ rest) =
      .ok (.table array (done ++ hash), rest) := by
  induction hash generalizing done fuel with
  | nil =>
      obtain ⟨fuel, rfl⟩ := Nat.exists_eq_add_one_of_ne_zero (Nat.ne_zero_of_lt hfuel)
      have hone : one (serialHash [] ++ [UInt8.ofNat typeNil] ++ rest) = .ok (.nil, rest) := by
        have h := hnil rest
        rw [serial] at h
        exact h
      rw [unpackHash, hone, List.append_nil]
      rfl
  | cons e tail ih =>
      obtain ⟨fuel, rfl⟩ := Nat.exists_eq_add_one_of_ne_zero (Nat.ne_zero_of_lt hfuel)
      obtain ⟨key, value⟩ := e
      have hstored := stored (key, value) List.mem_cons_self
      have hnew : ∀ d ∈ done, rawequal d.1 key = false := fun d hd =>
        (List.pairwise_append.mp distinct).2.2 d hd (key, value) List.mem_cons_self
      have hdone : done ++ (key, value) :: tail = done ++ [(key, value)] ++ tail :=
        List.append_cons ..
      rw [hdone] at distinct ⊢
      have htail := ih (fun d hd => hkeys d (List.mem_cons_of_mem _ hd))
        (fun d hd => hvalues d (List.mem_cons_of_mem _ hd))
        (fun d hd => stored d (List.mem_cons_of_mem _ hd)) distinct
        (Nat.lt_of_succ_lt_succ hfuel)
      rw [serialHash, serialEntry, unpackHash]
      simp only [List.append_assoc]
      rw [hkeys (key, value) List.mem_cons_self]
      show (if isNil key then _ else (one _).bind _) = _
      rw [if_neg (not_isNil_of_isHashKey hstored.1), hvalues (key, value) List.mem_cons_self]
      dsimp only [Except.bind]
      rw [rawset_new hstored.1 hstored.2 hnew]
      simpa only [List.append_assoc] using htail

theorem table_pushes {array : List Value} {hash : List (Value × Value)}
    (hnil : Reads one .nil) (helements : ∀ v ∈ array, Reads one v)
    (hkeys : ∀ e ∈ hash, Reads one e.1) (hvalues : ∀ e ∈ hash, Reads one e.2)
    (stored : ∀ e ∈ hash, IsHashKey array.length e.1 ∧ isNil e.2 = false)
    (distinct : hash.Pairwise fun d e => rawequal d.1 e.1 = false)
    (hsize : array.length < 2 ^ 31) (hfuel : hash.length ≤ (serialHash hash).length) :
    Pushes one (.table array hash) := by
  obtain ⟨cookie, bytes, hbytes, hcookie, hget⟩ := getArraySize_append hsize
  refine pushes_of_form typeTable cookie (by decide) hcookie
    (by rw [serial, hbytes]; rfl) fun rest => ?_
  show unpackTable one (bytes ++ _ ++ _ ++ _ ++ rest) cookie = _
  rw [List.append_assoc, List.append_assoc, List.append_assoc, unpackTable, hget]
  show (unpackArray one ((array.length : Int)).toNat _).bind _ = _
  rw [Int.toNat_natCast, unpackArray_reads helements]
  show unpackHash one _ array [] _ = _
  rw [← List.append_assoc]
  refine @unpackHash_reads one array [] hash _ hnil hkeys hvalues stored distinct ?_ rest
  rw [List.length_append, List.length_append]
  omega

end Unpack

theorem unpackOne_reads {fuel : Nat} {v : Value} (h : Pushes (unpackOne fuel) v) :
    Reads (unpackOne (fuel + 1)) v := by
  obtain ⟨t, bytes, hserial, hpush⟩ := h
  intro rest
  rw [hserial, List.cons_append, unpackOne, rbReadAt_cons]
  exact hpush rest

theorem nil_pushes (one : ReadBlock → Except Halt (Value × ReadBlock)) : Pushes one .nil :=
  ⟨_, [], by rw [serial], fun _ => rfl⟩

theorem boolean_pushes (one : ReadBlock → Except Halt (Value × ReadBlock)) (b : Bool) :
    Pushes one (.boolean b) := by
  cases b with
  | false => exact ⟨_, [], by rw [serial], fun _ => rfl⟩
  | true => exact ⟨_, [], by rw [serial], fun _ => rfl⟩

theorem length_le_serialHash {n : Nat} {hash : List (Value × Value)}
    (h : ∀ e ∈ hash, Packable n e.1) : hash.length ≤ (serialHash hash).length := by
  induction hash with
  | nil => exact Nat.zero_le _
  | cons e rest ih =>
      have hpos := length_serial_pos (h e List.mem_cons_self)
      have hrest := ih fun d hd => h d (List.mem_cons_of_mem _ hd)
      rw [serialHash, serialEntry, List.length_append, List.length_append, List.length_cons]
      omega

/-! ## Messages -/

theorem Packable.mono {n m : Nat} {v : Value} (h : Packable n v) (hle : n ≤ m) : Packable m v := by
  induction h generalizing m with
  | nil => exact .nil
  | boolean b => exact .boolean b
  | integer i => exact .integer i
  | number bits => exact .number bits
  | string bytes => exact .string bytes
  | lightuserdata p => exact .lightuserdata p
  | table elements keys values stored distinct ihElements ihKeys ihValues =>
      obtain ⟨m, rfl⟩ := Nat.exists_eq_add_one_of_ne_zero (Nat.ne_zero_of_lt hle)
      have hle' := Nat.le_of_succ_le_succ hle
      exact .table (fun v hv => ihElements v hv hle') (fun e he => ihKeys e he hle')
        (fun e he => ihValues e he hle') stored distinct

/-- Every level of a table takes a byte. -/
theorem packable_length {n : Nat} {v : Value} (h : Packable n v) :
    Packable (serial v).length v := by
  induction h with
  | nil => exact .nil
  | boolean b => exact .boolean b
  | integer i => exact .integer i
  | number bits => exact .number bits
  | string bytes => exact .string bytes
  | lightuserdata p => exact .lightuserdata p
  | @table n array hash elements keys values stored distinct ihElements ihKeys ihValues =>
      have hhead := length_arraySizeBytes_pos array.length
      have hlevel : Packable ((serialArray array).length + (serialHash hash).length + 1)
          (.table array hash) := by
        refine .table (fun v hv => (ihElements v hv).mono ?_) (fun e he => (ihKeys e he).mono ?_)
          (fun e he => (ihValues e he).mono ?_) stored distinct
        · have hlen := mem_serialArray_length hv
          omega
        · have hlen := mem_serialHash_length he
          omega
        · have hlen := mem_serialHash_length he
          omega
      refine hlevel.mono ?_
      rw [serial]
      simp only [List.length_append]
      omega

/-- A value nested less deep than the recursion is read. -/
theorem pushes {n fuel : Nat} {v : Value} (hv : Packable n v) (hfuel : n ≤ fuel)
    (hsize : (serial v).length < 2 ^ 31) : Pushes (unpackOne fuel) v := by
  induction hv generalizing fuel with
  | nil => exact nil_pushes _
  | boolean b => exact boolean_pushes _ b
  | integer i => exact integer_pushes i
  | number bits => exact number_pushes bits
  | string bytes =>
      have hlen := length_le_stringBytes bytes
      rw [serial] at hsize
      exact string_pushes bytes (by omega)
  | lightuserdata p => exact lightuserdata_pushes p
  | @table n array hash elements keys values stored distinct ihElements ihKeys ihValues =>
      obtain ⟨fuel, rfl⟩ := Nat.exists_eq_add_one_of_ne_zero (Nat.ne_zero_of_lt hfuel)
      have hn : n ≤ fuel := Nat.le_of_succ_le_succ hfuel
      have harray := length_le_serialArray elements
      rw [serial] at hsize
      simp only [List.length_append] at hsize
      refine table_pushes (unpackOne_reads (nil_pushes _)) ?_ ?_ ?_ stored distinct (by omega)
        (length_le_serialHash keys)
      · intro v hv
        have hlen := mem_serialArray_length hv
        exact unpackOne_reads (ihElements v hv hn (by omega))
      · intro e he
        have hlen := mem_serialHash_length he
        exact unpackOne_reads (ihKeys e he hn (by omega))
      · intro e he
        have hlen := mem_serialHash_length he
        exact unpackOne_reads (ihValues e he hn (by omega))

theorem unpackLoop_serialArray {n fuel : Nat} {vs : List Value} (h : ∀ v ∈ vs, Packable n v)
    (hsize : (serialArray vs).length < 2 ^ 31) (hfuel : (serialArray vs).length < fuel) :
    unpackLoop fuel (serialArray vs) = .ok vs := by
  induction vs generalizing fuel with
  | nil =>
      obtain ⟨fuel, rfl⟩ := Nat.exists_eq_add_one_of_ne_zero (Nat.ne_zero_of_lt hfuel)
      rfl
  | cons v rest ih =>
      obtain ⟨fuel, rfl⟩ := Nat.exists_eq_add_one_of_ne_zero (Nat.ne_zero_of_lt hfuel)
      have hv := h v List.mem_cons_self
      rw [serialArray, List.length_append] at hsize hfuel
      have hpos := length_serial_pos hv
      have hrest := ih (fun w hw => h w (List.mem_cons_of_mem _ hw)) (by omega)
        (show (serialArray rest).length < fuel by omega)
      have hpush (fuel' : Nat) (hle : (serial v).length ≤ fuel') :=
        pushes (packable_length hv) hle (by omega)
      obtain ⟨t, bytes, hserial, -⟩ := hpush _ (Nat.le_refl _)
      have hlen : (serial v).length ≤ (bytes ++ serialArray rest).length + 1 := by
        rw [hserial, List.length_cons, List.length_append]
        omega
      obtain ⟨t', bytes', hserial', hvalue⟩ := hpush _ hlen
      obtain ⟨rfl, rfl⟩ : t = t' ∧ bytes = bytes' :=
        List.cons.inj (hserial.symm.trans hserial')
      have hread : rbRead (t :: (bytes ++ serialArray rest)) 1 =
          some ([t], bytes ++ serialArray rest) := by
        rw [rbRead, if_neg (by rw [List.length_cons]; omega)]
        rfl
      rw [serialArray, hserial, List.cons_append, unpackLoop, hread]
      simp only [decode_singleton]
      rw [hvalue]
      show (unpackLoop fuel (serialArray rest)).bind _ = _
      rw [hrest]
      rfl

/-- The bytes that `pack_from` writes. -/
theorem packFrom_serialArray {vs : List Value} (h : ∀ v ∈ vs, Packable maxDepth v)
    (hsize : (serialArray vs).length < 2 ^ 31) :
    luaseriPack vs = .ok (some (serialArray vs, ((serialArray vs).length : Int))) := by
  obtain ⟨wb, hpack, hcontents⟩ := @wbElements_writes (packOne (maxDepth + 1)) vs
    (fun v hv => packOne_writes (h v hv) (Nat.le_refl _)
      (Nat.lt_of_le_of_lt (mem_serialArray_length hv) hsize)) wbInit
  rw [contents_wbInit, List.nil_append] at hcontents
  rw [luaseriPack, packFrom, hpack]
  show Except.ok (seri wb) = _
  rw [seri_eq wb (by rw [hcontents]; exact hsize), hcontents]

theorem unpackBuffer_serialArray {vs : List Value} (h : ∀ v ∈ vs, Packable maxDepth v)
    (hsize : (serialArray vs).length < 2 ^ 31) :
    unpackBuffer (some (serialArray vs)) (serialArray vs).length = .ok vs := by
  unfold unpackBuffer
  by_cases hzero : ((serialArray vs).length : Int) = 0
  · rw [if_pos hzero]
    cases vs with
    | nil => rfl
    | cons v rest =>
        have hpos := length_serial_pos (h v List.mem_cons_self)
        rw [serialArray, List.length_append] at hzero
        omega
  · rw [if_neg hzero]
    simp only [Int.toNat_natCast, List.take_length]
    exact unpackLoop_serialArray h hsize (Nat.lt_succ_self _)

/-- Unpacking a packed message leaves the values of the message on the stack. -/
theorem luaseriUnpack_luaseriPack (vs : List Value) (h : ∀ v ∈ vs, Packable maxDepth v)
    (hsize : (serialArray vs).length < 2 ^ 31) :
    ∃ buffer len, luaseriPack vs = .ok (some (buffer, len)) ∧
      luaseriUnpack (.userdata (some buffer) len) = .ok vs :=
  ⟨_, _, packFrom_serialArray h hsize, unpackBuffer_serialArray h hsize⟩

theorem luaseriUnpack_luaseriPack_table :
    let vs : List Value :=
      [.integer (-2), .table [.boolean true, .nil, .integer 70000] [(.string [107], .table [] [])]]
    ∃ buffer len, luaseriPack vs = .ok (some (buffer, len)) ∧
      luaseriUnpack (.userdata (some buffer) len) = .ok vs := by
  have hinner : Packable 31 (.table [] []) :=
    .table (fun _ h => nomatch h) (fun _ h => nomatch h) (fun _ h => nomatch h)
      (fun _ h => nomatch h) .nil
  have htable : Packable maxDepth
      (.table [.boolean true, .nil, .integer 70000] [(.string [107], .table [] [])]) := by
    refine .table ?_ ?_ ?_ ?_ (List.pairwise_singleton _ _)
    · simp only [List.forall_mem_cons]
      exact ⟨.boolean true, .nil, .integer 70000, fun _ h => nomatch h⟩
    · exact fun e he => List.mem_singleton.mp he ▸ .string [107]
    · exact fun e he => List.mem_singleton.mp he ▸ hinner
    · exact fun e he => List.mem_singleton.mp he ▸ ⟨trivial, rfl⟩
  refine luaseriUnpack_luaseriPack _ ?_ ?_
  · simp only [List.forall_mem_cons]
    exact ⟨.integer (-2), htable, fun _ h => nomatch h⟩
  · simp only [serialArray, serialHash, serialEntry, serial]
    decide

end Jump.Skynet.LuaSeri
