import Jump.Skynet.LuaSeri.Code

/-! # The serial form of a value

What `_luaseri_pack` writes for a value, as one list of bytes, and that it writes this.
-/

namespace Jump.Skynet.LuaSeri

open Jump.Core

def numberBytes (cookie width : Nat) (bits : UInt64) : List UInt8 :=
  combineType typeNumber cookie :: LittleEndian.encode width bits.toNat

def integerBytes (v : Int64) : List UInt8 :=
  if v.toInt = 0 then [combineType typeNumber typeNumberZero]
  else if v.toInt ≠ Int.bmod v.toInt (2 ^ 32) then numberBytes typeNumberQword 8 v.toUInt64
  else if v.toInt < 0 then numberBytes typeNumberDword 4 v.toUInt64
  else if v.toInt < 0x100 then numberBytes typeNumberByte 1 v.toUInt64
  else if v.toInt < 0x10000 then numberBytes typeNumberWord 2 v.toUInt64
  else numberBytes typeNumberDword 4 v.toUInt64

def stringBytes (str : List UInt8) : List UInt8 :=
  if str.length < maxCookie then combineType typeShortString str.length :: str
  else if str.length < 0x10000 then
    combineType typeLongString 2 :: LittleEndian.encode 2 str.length ++ str
  else combineType typeLongString 4 :: LittleEndian.encode 4 str.length ++ str

def arraySizeBytes (size : Nat) : List UInt8 :=
  if maxCookie - 1 ≤ size then
    combineType typeTable (maxCookie - 1) :: integerBytes (Int64.ofInt size)
  else [combineType typeTable size]

mutual

def serial : Value → List UInt8
  | .nil => [UInt8.ofNat typeNil]
  | .boolean b => [combineType typeBoolean (if b then 1 else 0)]
  | .integer i => integerBytes i
  | .number bits => numberBytes typeNumberReal 8 bits
  | .string bytes => stringBytes bytes
  | .lightuserdata p => UInt8.ofNat typeUserdata :: LittleEndian.encode 8 p.toNat
  | .table array hash =>
    arraySizeBytes array.length ++ serialArray array ++ serialHash hash ++ [UInt8.ofNat typeNil]
  | .unsupported _ => []

def serialArray : List Value → List UInt8
  | [] => []
  | v :: rest => serial v ++ serialArray rest

def serialHash : List (Value × Value) → List UInt8
  | [] => []
  | e :: rest => serialEntry e ++ serialHash rest

def serialEntry : Value × Value → List UInt8
  | (key, value) => serial key ++ serial value

end

theorem contents_wbNumber (wb : WriteBlock) (cookie width : Nat) (bits : UInt64) :
    (wbNumber wb cookie width bits).contents = wb.contents ++ numberBytes cookie width bits := by
  rw [wbNumber, contents_wbPush, contents_wbPush, List.append_assoc]
  rfl

theorem contents_wbInteger (wb : WriteBlock) (v : Int64) :
    (wbInteger wb v).contents = wb.contents ++ integerBytes v := by
  unfold wbInteger integerBytes
  split
  · exact contents_wbPush ..
  split
  · exact contents_wbNumber ..
  split
  · exact contents_wbNumber ..
  split
  · exact contents_wbNumber ..
  split
  · exact contents_wbNumber ..
  · exact contents_wbNumber ..

theorem contents_wbString (wb : WriteBlock) (str : List UInt8) (h : str.length < 2 ^ 31) :
    (wbString wb str (toInt str.length)).contents = wb.contents ++ stringBytes str := by
  have hlen : toInt str.length = (str.length : Int) := toInt_of_lt h
  have hall : str.take str.length = str := List.take_length
  rw [hlen]
  unfold wbString stringBytes
  rw [Int.toNat_natCast, hall]
  by_cases hshort : str.length < maxCookie
  · rw [if_pos (Int.ofNat_lt.mpr hshort), if_pos hshort]
    by_cases hpos : 0 < str.length
    · simp only [if_pos (Int.natCast_pos.mpr hpos)]
      rw [contents_wbPush, contents_wbPush, List.append_assoc, List.singleton_append]
    · have hnil : str = [] := List.eq_nil_of_length_eq_zero (Nat.eq_zero_of_not_pos hpos)
      have hneg : ¬ (0 : Int) < str.length := fun h => hpos (Int.natCast_pos.mp h)
      simp only [if_neg hneg]
      rw [contents_wbPush]
      subst hnil
      rfl
  rw [if_neg (fun h => hshort (Int.ofNat_lt.mp h)), if_neg hshort]
  by_cases hword : str.length < 0x10000
  · have hword' : (str.length : Int) < 0x10000 := Int.ofNat_lt.mpr hword
    simp only [if_pos hword, if_pos hword']
    rw [contents_wbPush, contents_wbPush, contents_wbPush, List.append_assoc, List.append_assoc]
    rfl
  · have hword' : ¬ (str.length : Int) < 0x10000 := fun h => hword (Int.ofNat_lt.mp h)
    simp only [if_neg hword, if_neg hword']
    rw [contents_wbPush, contents_wbPush, contents_wbPush, List.append_assoc, List.append_assoc]
    rfl

theorem contents_wbArraySize (wb : WriteBlock) (size : Nat) :
    (wbArraySize wb size).contents = wb.contents ++ arraySizeBytes size := by
  have hiff : (maxCookie : Int) - 1 ≤ size ↔ maxCookie - 1 ≤ size := by
    unfold maxCookie
    omega
  unfold wbArraySize arraySizeBytes
  by_cases hsize : maxCookie - 1 ≤ size
  · rw [if_pos hsize, if_pos (hiff.mpr hsize), contents_wbInteger, contents_wbPush,
      List.append_assoc]
    rfl
  · rw [if_neg hsize, if_neg fun h => hsize (hiff.mp h), contents_wbPush]

/-! ## What the loops of `pack_one` write -/

theorem length_integerBytes_pos (v : Int64) : 0 < (integerBytes v).length := by
  unfold integerBytes
  split
  · exact Nat.one_pos
  split
  · exact Nat.succ_pos _
  split
  · exact Nat.succ_pos _
  split
  · exact Nat.succ_pos _
  split
  · exact Nat.succ_pos _
  · exact Nat.succ_pos _

theorem length_arraySizeBytes_pos (size : Nat) : 0 < (arraySizeBytes size).length := by
  unfold arraySizeBytes
  split
  · exact Nat.succ_pos _
  · exact Nat.one_pos

theorem length_serial_pos {n : Nat} {v : Value} (h : Packable n v) : 0 < (serial v).length := by
  cases h with
  | nil => rw [serial]; exact Nat.one_pos
  | boolean b => rw [serial]; exact Nat.one_pos
  | integer i => rw [serial]; exact length_integerBytes_pos i
  | number bits => rw [serial]; exact Nat.succ_pos _
  | string bytes =>
      rw [serial]
      unfold stringBytes
      split
      · exact Nat.succ_pos _
      split
      · exact Nat.succ_pos _
      · exact Nat.succ_pos _
  | lightuserdata p => rw [serial]; exact Nat.succ_pos _
  | table =>
      rw [serial, List.length_append]
      exact Nat.succ_pos _

theorem length_le_stringBytes (bytes : List UInt8) :
    bytes.length ≤ (stringBytes bytes).length := by
  unfold stringBytes
  split
  · exact Nat.le_succ _
  split
  · rw [List.length_append]
    omega
  · rw [List.length_append]
    omega

/-- Every element takes a byte. -/
theorem length_le_serialArray {n : Nat} {array : List Value} (h : ∀ v ∈ array, Packable n v) :
    array.length ≤ (serialArray array).length := by
  induction array with
  | nil => exact Nat.zero_le _
  | cons v rest ih =>
      have hpos := length_serial_pos (h v List.mem_cons_self)
      have hrest := ih fun w hw => h w (List.mem_cons_of_mem _ hw)
      rw [serialArray, List.length_append, List.length_cons]
      omega

/-- `pack` writes the serial form of a value. -/
def Writes (pack : WriteBlock → Value → Except String WriteBlock) (v : Value) : Prop :=
  ∀ wb, ∃ wb', pack wb v = .ok wb' ∧ wb'.contents = wb.contents ++ serial v

section Pack

variable {pack : WriteBlock → Value → Except String WriteBlock}

theorem wbElements_writes {array : List Value} (h : ∀ v ∈ array, Writes pack v) (wb : WriteBlock) :
    ∃ wb', wbElements pack wb array = .ok wb' ∧
      wb'.contents = wb.contents ++ serialArray array := by
  induction array generalizing wb with
  | nil => exact ⟨wb, rfl, (List.append_nil _).symm⟩
  | cons v rest ih =>
      obtain ⟨wb₁, hv, hcontents₁⟩ := h v List.mem_cons_self wb
      obtain ⟨wb₂, hrest, hcontents₂⟩ := ih (fun w hw => h w (List.mem_cons_of_mem _ hw)) wb₁
      refine ⟨wb₂, ?_, ?_⟩
      · rw [wbElements, hv]
        exact hrest
      · rw [hcontents₂, hcontents₁, serialArray, List.append_assoc]

/-- The array part is left out. -/
theorem wbTableHash_skip {arraySize : Int} {array hash : List (Value × Value)}
    (h : ∀ e ∈ array, inArray arraySize e.1 = true) (wb : WriteBlock) :
    wbTableHash pack arraySize wb (array ++ hash) = wbTableHash pack arraySize wb hash := by
  induction array with
  | nil => rfl
  | cons e rest ih =>
      rw [List.cons_append, wbTableHash, if_pos (h e List.mem_cons_self)]
      exact ih fun d hd => h d (List.mem_cons_of_mem _ hd)

theorem wbTableHash_writes {arraySize : Int} {hash : List (Value × Value)}
    (hkeys : ∀ e ∈ hash, Writes pack e.1) (hvalues : ∀ e ∈ hash, Writes pack e.2)
    (hout : ∀ e ∈ hash, inArray arraySize e.1 = false) (wb : WriteBlock) :
    ∃ wb', wbTableHash pack arraySize wb hash = .ok wb' ∧
      wb'.contents = wb.contents ++ serialHash hash ++ [UInt8.ofNat typeNil] := by
  induction hash generalizing wb with
  | nil => exact ⟨wbNil wb, rfl, by rw [wbNil, contents_wbPush, serialHash, List.append_nil]⟩
  | cons e rest ih =>
      obtain ⟨wb₁, hkey, hcontents₁⟩ := hkeys e List.mem_cons_self wb
      obtain ⟨wb₂, hvalue, hcontents₂⟩ := hvalues e List.mem_cons_self wb₁
      obtain ⟨wb₃, hrest, hcontents₃⟩ := ih
        (fun d hd => hkeys d (List.mem_cons_of_mem _ hd))
        (fun d hd => hvalues d (List.mem_cons_of_mem _ hd))
        (fun d hd => hout d (List.mem_cons_of_mem _ hd)) wb₂
      have hnot : ¬ inArray arraySize e.1 = true := by
        rw [hout e List.mem_cons_self]
        exact Bool.false_ne_true
      refine ⟨wb₃, ?_, ?_⟩
      · rw [wbTableHash, if_neg hnot, hkey]
        show (pack wb₁ e.2).bind _ = _
        rw [hvalue]
        exact hrest
      · rw [hcontents₃, hcontents₂, hcontents₁, serialHash, serialEntry]
        simp only [List.append_assoc]

end Pack

/-- The second loop writes every other entry. -/
theorem inArray_hashKey {size : Nat} {key : Value} (h : IsHashKey size key) :
    inArray size key = false := by
  cases key with
  | integer i =>
      have hindex : arrayIndex size i = none := h
      unfold arrayIndex at hindex
      unfold inArray
      split at hindex
      · cases hindex
      · rename_i hout
        exact decide_eq_false hout
  | nil => rfl
  | boolean b => rfl
  | number bits => rfl
  | string bytes => rfl
  | lightuserdata p => rfl
  | table array hash => rfl
  | unsupported typename => rfl

theorem inArray_element {array : List Value} (hsize : array.length < 2 ^ 31) :
    ∀ e ∈ (array.zipIdx.filter fun e => !isNil e.1).map
      (fun e => (Value.integer (Int64.ofNat (e.2 + 1)), e.1)),
      inArray (array.length : Int) e.1 = true := by
  intro e he
  obtain ⟨d, hd, rfl⟩ := List.mem_map.mp he
  have hlt : d.2 < array.length := by
    have hget := List.mem_zipIdx (List.mem_of_mem_filter hd)
    omega
  have hint : (Int64.ofNat (d.2 + 1)).toInt = (d.2 + 1 : Nat) :=
    Int64.toInt_ofNat_of_lt (by omega)
  simp only [inArray, hint]
  exact decide_eq_true ⟨by omega, by omega⟩

theorem mem_serialArray_length {array : List Value} {v : Value} (h : v ∈ array) :
    (serial v).length ≤ (serialArray array).length := by
  induction array with
  | nil => cases h
  | cons w rest ih =>
      rw [serialArray, List.length_append]
      rcases List.mem_cons.mp h with rfl | h
      · omega
      · have hrest := ih h
        omega

theorem mem_serialHash_length {hash : List (Value × Value)} {e : Value × Value} (h : e ∈ hash) :
    (serial e.1).length + (serial e.2).length ≤ (serialHash hash).length := by
  induction hash with
  | nil => cases h
  | cons d rest ih =>
      rw [serialHash, serialEntry, List.length_append, List.length_append]
      rcases List.mem_cons.mp h with rfl | h
      · omega
      · have hrest := ih h
        omega

/-- A value nested less deep than there is room for is written. -/
theorem packOne_writes {n room : Nat} {v : Value} (hv : Packable n v) (hroom : n ≤ room)
    (hsize : (serial v).length < 2 ^ 31) : Writes (packOne (room + 1)) v := by
  induction hv generalizing room with
  | nil => exact fun wb => ⟨wbNil wb, rfl, contents_wbPush ..⟩
  | boolean b => exact fun wb => ⟨wbBoolean wb b, rfl, contents_wbPush ..⟩
  | integer i => exact fun wb => ⟨wbInteger wb i, rfl, contents_wbInteger ..⟩
  | number bits => exact fun wb => ⟨wbReal wb bits, rfl, contents_wbNumber ..⟩
  | string bytes =>
      have hlen := length_le_stringBytes bytes
      rw [serial] at hsize
      exact fun wb => ⟨_, rfl, by rw [contents_wbString wb bytes (by omega), serial]⟩
  | lightuserdata p =>
      refine fun wb => ⟨wbPointer wb p, rfl, ?_⟩
      rw [wbPointer, contents_wbPush, contents_wbPush, List.append_assoc]
      rfl
  | @table n array hash elements keys values stored distinct ihElements ihKeys ihValues =>
      intro wb
      cases room with
      | zero => exact absurd hroom (Nat.not_succ_le_zero _)
      | succ room =>
          have hn : n ≤ room := Nat.le_of_succ_le_succ hroom
          rw [serial] at hsize
          simp only [List.length_append] at hsize
          have harray : array.length < 2 ^ 31 :=
            Nat.lt_of_le_of_lt (length_le_serialArray elements) (by omega)
          have hlen : toInt array.length = (array.length : Int) := toInt_of_lt harray
          have hall : array.take ((array.length : Int)).toNat = array := by
            rw [Int.toNat_natCast, List.take_length]
          obtain ⟨wb₁, hfirst, hcontents₁⟩ := @wbElements_writes (packOne (room + 1)) array
            (fun v hv => ihElements v hv hn (by have := mem_serialArray_length hv; omega))
            (wbArraySize wb array.length)
          obtain ⟨wb₂, hsecond, hcontents₂⟩ := @wbTableHash_writes (packOne (room + 1))
            array.length hash (fun e he => ihKeys e he hn
              (by have := mem_serialHash_length he; omega))
            (fun e he => ihValues e he hn (by have := mem_serialHash_length he; omega))
            (fun e he => inArray_hashKey (stored e he).1) wb₁
          refine ⟨wb₂, ?_, ?_⟩
          · rw [packOne, wbTable, hlen, wbTableArray, hall, hfirst, entries]
            exact (wbTableHash_skip (inArray_element harray) wb₁).trans hsecond
          · rw [hcontents₂, hcontents₁, contents_wbArraySize, serial]
            simp only [List.append_assoc]

end Jump.Skynet.LuaSeri
