import Jump.Skynet.Bson.Encode
import Mathlib.Data.List.Nodup

/-! # What comes back from BSON

`ldecode` gets back the entries of a table, except that the keys of a document are strings, and that
an integer that was written with four bytes is one of 32 bits.
-/

namespace Jump.Skynet.Bson

open Jump.Core

/-! ## What is decoded -/

/-- What `unpack_dict` makes of a key that `pack_dict` wrote. -/
def decodedKey (array : Bool) (key : Key) : Key :=
  if array then .integer (Int64.ofInt (Int.bmod (strtol (keyText true key) + 1) (2 ^ 32)))
  else .string (keyText false key)

mutual

def Value.decoded : Value → Value
  | .integer i => .integer (if isInt32 i then Int64.ofInt (Int.bmod i.toInt (2 ^ 32)) else i)
  | .table entries => .table (decodedEntries (isArray entries) entries)
  | v => v

def decodedEntries (array : Bool) : List (Key × Value) → List (Key × Value)
  | [] => []
  | (key, value) :: rest => (decodedKey array key, value.decoded) :: decodedEntries array rest

end

/-- What is not a table. -/
inductive Leaf where
  | integer (i : Int64)
  | number (d : UInt64)
  | boolean (b : Bool)
  | string (s : List UInt8)
  | table
deriving DecidableEq

def Value.leaf : Value → Leaf
  | .integer i => .integer i
  | .number d => .number d
  | .boolean b => .boolean b
  | .string s => .string s
  | .table _ => .table

def lookup (key : Key) (entries : List (Key × Value)) : Option Value :=
  (entries.find? fun e => e.1 = key).map Prod.snd

/-- What is at the end of a path of keys. -/
def read : List Key → Value → Option Leaf
  | [], v => some v.leaf
  | key :: path, .table entries => (lookup key entries).bind (read path)
  | _ :: _, _ => none

/-- The document comes back as an equal table: on every path of keys there is the same. -/
def RoundTrips (room : Nat) (entries : List (Key × Value)) : Prop :=
  ∃ bytes v, lencode room entries = .ok bytes ∧ ldecode room bytes = .ok v ∧
    ∀ path, read path v = read path (.table entries)

/-! ## Keys -/

theorem chars_text {cs : List Char} (h : ∀ c ∈ cs, c.toNat < 256) : chars (text cs) = cs := by
  have hback : ∀ c ∈ cs, ((fun b : UInt8 => Char.ofNat b.toNat) ∘ fun c => UInt8.ofNat c.toNat) c =
      id c := by
    intro c hc
    dsimp only [Function.comp]
    rw [UInt8.toNat_ofNat', Nat.mod_eq_of_lt (h c hc), Char.ofNat_toNat]
    rfl
  unfold chars text
  rw [List.map_map, List.map_congr_left hback, List.map_id]

theorem printNat_ascii {n : Nat} {c : Char} (h : c ∈ Strtoll.printNat n) :
    c.toNat < 256 ∧ c.toNat ≠ 0 := by
  have hrange := Strtoll.digit_range (Strtoll.isDigit_printNat h)
  omega

theorem printInt_ascii {z : Int} {c : Char} (h : c ∈ Strtoll.printInt z) :
    c.toNat < 256 ∧ c.toNat ≠ 0 := by
  unfold Strtoll.printInt at h
  split at h
  · cases List.mem_cons.mp h with
    | inl hminus =>
        rw [hminus]
        decide
    | inr hdigit => exact printNat_ascii hdigit
  · exact printNat_ascii h

theorem zero_notMem_text {cs : List Char} (h : ∀ c ∈ cs, c.toNat < 256 ∧ c.toNat ≠ 0) :
    0 ∉ text cs := by
  intro hmem
  obtain ⟨c, hc, hzero⟩ := List.mem_map.mp hmem
  have hnat := congrArg UInt8.toNat hzero
  rw [UInt8.toNat_ofNat', Nat.mod_eq_of_lt (h c hc).1] at hnat
  exact (h c hc).2 hnat

theorem strtol_numstr (n : Nat) : strtol (numstr n) = min (n : Int) Strtoll.LLONG_MAX := by
  unfold strtol numstr
  rw [chars_text fun c hc => (printNat_ascii hc).1, Strtoll.readSign_printNat]
  dsimp only
  rw [Strtoll.readDigits_printNat]
  rfl

theorem text_printInt_inj {i j : Int64}
    (h : text (Strtoll.printInt i.toInt) = text (Strtoll.printInt j.toInt)) : i = j := by
  have hchars := congrArg chars h
  rw [chars_text fun c hc => (printInt_ascii hc).1, chars_text fun c hc => (printInt_ascii hc).1]
    at hchars
  have hread := congrArg Strtoll.strtoll hchars
  have hi := i.le_toInt
  have hi' := i.toInt_lt
  have hj := j.le_toInt
  have hj' := j.toInt_lt
  rw [Strtoll.strtoll_printInt (by unfold Strtoll.LLONG_MIN; omega)
      (by unfold Strtoll.LLONG_MAX; omega),
    Strtoll.strtoll_printInt (by unfold Strtoll.LLONG_MIN; omega)
      (by unfold Strtoll.LLONG_MAX; omega)] at hread
  exact Int64.toInt_inj.mp hread

/-- An index is printed one lower, and comes back. -/
theorem decodedKey_index {i : Nat} (h : i < 2 ^ 31 - 1) :
    decodedKey true (.integer (Int64.ofNat (i + 1))) = .integer (Int64.ofNat (i + 1)) := by
  have hint : (Int64.ofNat (i + 1)).toInt = (i + 1 : Nat) :=
    Int64.toInt_ofNat_of_lt (by omega)
  have htext : uint32OfInt ((i + 1 : Nat) - 1) = i := by
    unfold uint32OfInt
    omega
  have hkey : keyText true (.integer (Int64.ofNat (i + 1))) = numstr i := by
    unfold keyText
    dsimp only
    rw [if_pos rfl, hint, htext]
  have hmin : min (i : Int) Strtoll.LLONG_MAX + 1 = (i + 1 : Nat) := by
    unfold Strtoll.LLONG_MAX
    omega
  have hbmod : Int.bmod (i + 1 : Nat) (2 ^ 32) = (i + 1 : Nat) := toInt_of_lt (by omega)
  unfold decodedKey
  rw [if_pos rfl, hkey, strtol_numstr, hmin, hbmod]
  rfl

section Table

variable {entries : List (Key × Value)} {array : Bool}

/-- The indices of an array. -/
theorem Keys.index (h : Keys entries) (hlen : entries.length < 2 ^ 31)
    (hint : ∃ e ∈ entries, ∃ i, e.1 = .integer i) :
    ∀ e ∈ entries, ∃ i < 2 ^ 31 - 1, e.1 = .integer (Int64.ofNat (i + 1)) := by
  obtain ⟨e, he, i, hi⟩ := hint
  cases h.2 with
  | inl hstrings =>
      obtain ⟨s, hs, -⟩ := hstrings e he
      rw [hi] at hs
      exact nomatch hs
  | inr hperm =>
      intro e he
      obtain ⟨i, hmem, hi⟩ := List.mem_map.mp (hperm.mem_iff.mp (List.mem_map_of_mem he))
      have hlt := List.mem_range.mp hmem
      exact ⟨i, by omega, hi.symm⟩

/-- The keys that are written: those of an array as indices, or all as strings. -/
def Written (array : Bool) (entries : List (Key × Value)) : Prop :=
  array = true → ∃ e ∈ entries, ∃ i, e.1 = .integer i

theorem written_false (entries : List (Key × Value)) : Written false entries := nofun

theorem zero_notMem_keyText (h : Keys entries) {e : Key × Value} (he : e ∈ entries) :
    0 ∉ keyText array e.1 := by
  have hstring : ∀ s, e.1 = .string s → 0 ∉ s := by
    intro s hs
    cases h.2 with
    | inl hstrings =>
        obtain ⟨s', hs', hzero⟩ := hstrings e he
        rw [hs] at hs'
        rw [Key.string.inj hs']
        exact hzero
    | inr hperm =>
        obtain ⟨i, -, hi⟩ := List.mem_map.mp (hperm.mem_iff.mp (List.mem_map_of_mem he))
        rw [hs] at hi
        exact nomatch hi
  cases hkey : e.1 with
  | integer i =>
      unfold keyText
      dsimp only
      split
      · exact zero_notMem_text fun c hc => printNat_ascii hc
      · exact zero_notMem_text fun c hc => printInt_ascii hc
  | string s => exact hstring s hkey

/-- No two keys become one. -/
theorem decodedKeys_nodup (h : Keys entries) (hlen : entries.length < 2 ^ 31)
    (hw : Written array entries) :
    (entries.map fun e => decodedKey array e.1).Nodup := by
  have hinj : ∀ k ∈ entries.map Prod.fst, ∀ k' ∈ entries.map Prod.fst,
      decodedKey array k = decodedKey array k' → k = k' := by
    intro k hk k' hk' heq
    obtain ⟨e, he, rfl⟩ := List.mem_map.mp hk
    obtain ⟨e', he', rfl⟩ := List.mem_map.mp hk'
    cases array with
    | true =>
        have hindex := h.index hlen (hw rfl)
        obtain ⟨i, hi, hei⟩ := hindex e he
        obtain ⟨j, hj, hej⟩ := hindex e' he'
        rw [hei, hej, decodedKey_index hi, decodedKey_index hj] at heq
        rw [hei, hej, heq]
    | false =>
        have htext : keyText false e.1 = keyText false e'.1 := Key.string.inj heq
        cases hi : e.1 with
        | integer i =>
            obtain ⟨j, -, hj⟩ := h.index hlen ⟨e, he, i, hi⟩ e' he'
            rw [hi, hj] at htext
            rw [hj, text_printInt_inj htext]
        | string s =>
            cases hj : e'.1 with
            | integer j =>
                obtain ⟨i, -, hi'⟩ := h.index hlen ⟨e', he', j, hj⟩ e he
                rw [hi] at hi'
                exact nomatch hi'
            | string s' =>
                rw [hi, hj] at htext
                rw [show s = s' from htext]
  have hmap : entries.map (fun e => decodedKey array e.1) =
      (entries.map Prod.fst).map (decodedKey array) := by
    rw [List.map_map]
    rfl
  rw [hmap]
  exact List.Nodup.map_on hinj h.1

end Table

/-! ## Reading -/

theorem readBytes_append {xs rest : Reader} {n : Int} (h : n = xs.length) :
    readBytes n (xs ++ rest) = .ok (xs, rest) := by
  subst h
  unfold readBytes checkReader
  rw [Outcome.assert_bind (by rw [List.length_append]; omega),
    Outcome.assert_bind (Int.natCast_nonneg _), Int.toNat_natCast, List.take_left, List.drop_left]
  rfl

theorem readByte_cons (b : UInt8) (rest : Reader) : readByte (b :: rest) = .ok (b.toNat, rest) := by
  have hread : readBytes 1 (b :: rest) = .ok ([b], rest) := @readBytes_append [b] rest 1 rfl
  unfold readByte
  rw [hread]
  rfl

theorem readInt32_encode (n : Nat) (rest : Reader) :
    readInt32 (LittleEndian.encode 4 n ++ rest) = .ok (Int.bmod n (2 ^ 32), rest) := by
  unfold readInt32
  rw [readBytes_append (by rw [LittleEndian.length_encode]; rfl), Outcome.ok_bind]
  dsimp only
  rw [LittleEndian.decodeSigned_encode]
  rfl

theorem readWord_encode (d : UInt64) (rest : Reader) :
    readWord (LittleEndian.encode 8 d.toNat ++ rest) = .ok (d, rest) := by
  unfold readWord
  rw [readBytes_append (by rw [LittleEndian.length_encode]; rfl), Outcome.ok_bind]
  dsimp only
  rw [LittleEndian.decode_encode_of_lt d.toNat_lt, UInt64.ofNat_toNat]
  rfl

theorem readCstring_append {key : List UInt8} (h : 0 ∉ key) (rest : Reader) :
    readCstring (key ++ 0 :: rest) = .ok (key, rest) := by
  have hkey : (key ++ 0 :: rest).takeWhile (· ≠ 0) = key := by
    rw [List.takeWhile_append_of_pos, List.takeWhile_cons_of_neg (by decide), List.append_nil]
    intro b hb
    exact decide_eq_true fun heq => h (heq ▸ hb)
  have hdrop : (key ++ 0 :: rest).drop (key.length + 1) = rest := by
    rw [← List.drop_drop, List.drop_left]
    rfl
  unfold readCstring
  rw [Outcome.assert_bind (List.mem_append_right _ List.mem_cons_self), hkey]
  dsimp only
  rw [hdrop]
  rfl

/-! ## Decoding what was encoded -/

/-- The type of an element. -/
def Value.type : Value → Nat
  | .integer i => if isInt32 i then BSON_INT32 else BSON_INT64
  | .number _ => BSON_REAL
  | .boolean _ => BSON_BOOLEAN
  | .string _ => BSON_STRING
  | .table entries => if isArray entries then BSON_ARRAY else BSON_DOCUMENT

/-- The bytes of an element behind its key. -/
def Value.data : Value → List UInt8
  | .integer i =>
    if isInt32 i then LittleEndian.encode 4 (uint32OfInt i.toInt)
    else LittleEndian.encode 8 i.toUInt64.toNat
  | .number d => LittleEndian.encode 8 d.toNat
  | .boolean v => [if v then 1 else 0]
  | .string str => LittleEndian.encode 4 (str.length + 1) ++ (str ++ [0])
  | .table entries => document (elements (isArray entries) entries)

theorem element_eq (key : List UInt8) (v : Value) : element key v = field v.type key v.data := by
  cases v with
  | integer i =>
      by_cases h : isInt32 i = true
      · rw [element, Value.type, Value.data, if_pos h, if_pos h, if_pos h]
      · rw [element, Value.type, Value.data, if_neg h, if_neg h, if_neg h]
  | number d => rfl
  | boolean b => rfl
  | string str => rfl
  | table entries => rfl

theorem type_cases (v : Value) : v.type < 256 ∧
    (v.type = BSON_DOCUMENT ∨ v.type = BSON_ARRAY ↔ v.leaf = .table) := by
  cases v with
  | integer i =>
      by_cases h : isInt32 i = true
      · rw [Value.type, if_pos h]
        exact ⟨by decide, by simp [Value.leaf]⟩
      · rw [Value.type, if_neg h]
        exact ⟨by decide, by simp [Value.leaf]⟩
  | number d => exact ⟨show BSON_REAL < 256 by decide, by simp [Value.leaf, Value.type]⟩
  | boolean b => exact ⟨show BSON_BOOLEAN < 256 by decide, by simp [Value.leaf, Value.type]⟩
  | string str => exact ⟨show BSON_STRING < 256 by decide, by simp [Value.leaf, Value.type]⟩
  | table entries =>
      by_cases h : isArray entries = true
      · rw [Value.type, if_pos h]
        exact ⟨by decide, by simp [Value.leaf]⟩
      · rw [Value.type, if_neg h]
        exact ⟨by decide, by simp [Value.leaf]⟩

/-- What a program returns if the Lua stack is large enough. -/
def needs {α : Type} (c : Prop) [Decidable c] (a : α) : Checked α :=
  if c then .ok a else .fail .stack

/-- A leaf takes the one slot that it is pushed on. -/
theorem slots_leaf (v : Value) : 1 ≤ v.slots ∧ (v.leaf ≠ .table → v.slots = 1) := by
  cases v with
  | integer i => exact ⟨Nat.le_refl 1, fun _ => rfl⟩
  | number d => exact ⟨Nat.le_refl 1, fun _ => rfl⟩
  | boolean b => exact ⟨Nat.le_refl 1, fun _ => rfl⟩
  | string str => exact ⟨Nat.le_refl 1, fun _ => rfl⟩
  | table entries => exact ⟨one_le_tableSlots entries, fun h => absurd rfl h⟩

theorem needs_congr {α : Type} {c c' : Prop} [Decidable c] [Decidable c'] {a : α} (h : c ↔ c') :
    needs c a = needs c' a := if_congr h rfl rfl

section Unpack

variable {dict : Bool → Reader → Checked (Value × Reader)} {rest : Reader}

theorem unpackValue_integer (i : Int64) :
    unpackValue dict (Value.integer i).type ((Value.integer i).data ++ rest) =
      .ok ((Value.integer i).decoded, rest) := by
  have hbmod : Int.bmod (uint32OfInt i.toInt) (2 ^ 32) = Int.bmod i.toInt (2 ^ 32) := by
    unfold uint32OfInt
    rw [Int.toNat_of_nonneg (by omega)]
    exact Int.emod_bmod _ _
  by_cases h : isInt32 i = true
  · rw [Value.type, Value.data, Value.decoded, if_pos h, if_pos h, if_pos h]
    unfold unpackValue
    dsimp only
    rw [readInt32_encode, hbmod]
    rfl
  · rw [Value.type, Value.data, Value.decoded, if_neg h, if_neg h, if_neg h]
    unfold unpackValue
    dsimp only
    rw [readWord_encode]
    rfl

theorem unpackValue_string (str : List UInt8) (hlen : str.length < 2 ^ 31 - 1) :
    unpackValue dict (Value.string str).type ((Value.string str).data ++ rest) =
      .ok (.string str, rest) := by
  have hsize : Int.bmod (str.length + 1 : Nat) (2 ^ 32) = (str ++ [0]).length := by
    rw [List.length_append]
    exact toInt_of_lt (by omega)
  have hpos : (0 : Int) < (str ++ [0]).length := by
    rw [List.length_append, List.length_singleton]
    omega
  unfold Value.type Value.data unpackValue
  dsimp only
  rw [List.append_assoc, readInt32_encode, Outcome.ok_bind]
  dsimp only
  rw [hsize, Outcome.assert_bind hpos, readBytes_append rfl, Outcome.ok_bind]
  dsimp only
  rw [List.dropLast_concat]
  rfl

/-- The values that are not tables need no more than the slot they are pushed on. -/
theorem unpackValue_leaf {v : Value} (hv : v.leaf ≠ .table) (hlen : v.data.length < 2 ^ 31) :
    unpackValue dict v.type (v.data ++ rest) = .ok (v.decoded, rest) := by
  cases v with
  | integer i => exact unpackValue_integer i
  | number d =>
      unfold Value.type Value.data unpackValue
      dsimp only
      rw [readWord_encode]
      rfl
  | boolean b =>
      unfold Value.type Value.data unpackValue
      dsimp only
      rw [List.singleton_append, readByte_cons]
      cases b with
      | true => rfl
      | false => rfl
  | string str =>
      refine unpackValue_string str ?_
      unfold Value.data at hlen
      dsimp only at hlen
      rw [List.length_append, LittleEndian.length_encode, List.length_append] at hlen
      omega
  | table entries => exact absurd rfl hv

/-- `unpack_dict` around its loop. -/
theorem unpackDict_of {entries : List (Key × Value)} {array : Bool} {fuel room : Nat}
    (hsmall : (document (elements array entries)).length < 2 ^ 31)
    (hloop : 1 ≤ room → unpackEntries (unpackDict fuel (room - 2)) room array
      ((elements array entries).length + 1) (elements array entries) [] =
        needs (tableSlots entries ≤ room) (decodedEntries array entries)) :
    unpackDict (fuel + 1) room array (document (elements array entries) ++ rest) =
      needs (tableSlots entries ≤ room) (.table (decodedEntries array entries), rest) := by
  unfold document at hsmall ⊢
  rw [List.length_append, List.length_append, LittleEndian.length_encode, List.length_singleton]
    at hsmall
  have hsize : Int.bmod ((elements array entries).length + 5 : Nat) (2 ^ 32) - 5 =
      (elements array entries).length := by
    have hint : Int.bmod ((elements array entries).length + 5 : Nat) (2 ^ 32) =
        ((elements array entries).length + 5 : Nat) := toInt_of_lt (by omega)
    omega
  rw [unpackDict, List.append_assoc, List.append_assoc, readInt32_encode, Outcome.ok_bind]
  dsimp only
  rw [hsize, readBytes_append rfl, Outcome.ok_bind]
  dsimp only
  rw [List.singleton_append, readByte_cons, Outcome.ok_bind]
  dsimp only
  rw [Outcome.assert_bind (by decide)]
  have hone := one_le_tableSlots entries
  by_cases hroom : 1 ≤ room
  · rw [Outcome.assert_bind hroom, hloop hroom]
    unfold needs
    split
    · rfl
    · rfl
  · rw [Outcome.assert_bind_neg hroom, needs, if_neg (by omega)]

theorem rawset_new {entries : List (Key × Value)} {key : Key} {value : Value}
    (h : key ∉ entries.map Prod.fst) : rawset entries key value = entries ++ [(key, value)] := by
  unfold rawset
  rw [if_neg]
  intro hany
  obtain ⟨e, he, hkey⟩ := List.any_eq_true.mp hany
  exact h (of_decide_eq_true hkey ▸ List.mem_map_of_mem he)

end Unpack

theorem length_field (type : Nat) (key data : List UInt8) :
    (field type key data).length = key.length + data.length + 2 := by
  unfold field
  rw [List.length_append, List.length_cons, List.length_cons]
  omega

theorem length_le_elements (array : Bool) (entries : List (Key × Value)) :
    entries.length ≤ (elements array entries).length := by
  induction entries with
  | nil => exact Nat.le_refl 0
  | cons e rest ih =>
      obtain ⟨key, value⟩ := e
      rw [elements, element_eq, List.length_append, length_field, List.length_cons]
      omega

theorem length_document (body : List UInt8) : (document body).length = body.length + 5 := by
  unfold document
  rw [List.length_append, List.length_append, LittleEndian.length_encode, List.length_singleton]
  omega

/-- An array has an index. -/
theorem written_isArray (entries : List (Key × Value)) : Written (isArray entries) entries := by
  intro harray
  obtain ⟨-, hlast⟩ := of_decide_eq_true harray
  obtain ⟨e, he, hkey⟩ := Option.map_eq_some_iff.mp hlast
  exact ⟨e, List.mem_of_getLast? he, _, hkey⟩

mutual

/-- The value of an element is read back. -/
theorem unpackValue_eq (v : Value) (hv : v.Plain) (fuel room : Nat) (rest : Reader)
    (hfuel : v.data.length ≤ fuel) (hsmall : v.data.length < 2 ^ 31) :
    unpackValue (unpackDict fuel room) v.type (v.data ++ rest) =
      needs (v.leaf ≠ .table ∨ v.slots ≤ room) (v.decoded, rest) :=
  match v with
  | .integer i => by
    rw [unpackValue_leaf (by simp [Value.leaf]) hsmall]
    exact (if_pos (Or.inl (by simp [Value.leaf]))).symm
  | .number d => by
    rw [unpackValue_leaf (by simp [Value.leaf]) hsmall]
    exact (if_pos (Or.inl (by simp [Value.leaf]))).symm
  | .boolean b => by
    rw [unpackValue_leaf (by simp [Value.leaf]) hsmall]
    exact (if_pos (Or.inl (by simp [Value.leaf]))).symm
  | .string str => by
    rw [unpackValue_leaf (by simp [Value.leaf]) hsmall]
    exact (if_pos (Or.inl (by simp [Value.leaf]))).symm
  | .table entries => by
    have hlen := length_document (elements (isArray entries) entries)
    have hdata : (Value.table entries).data = document (elements (isArray entries) entries) := rfl
    rw [hdata] at hfuel hsmall
    obtain ⟨m, rfl⟩ := Nat.exists_eq_add_one.mpr (show 0 < fuel by omega)
    have hcount := length_le_elements (isArray entries) entries
    have hdict : unpackDict (m + 1) room (isArray entries)
        (document (elements (isArray entries) entries) ++ rest) =
          needs (tableSlots entries ≤ room)
            (.table (decodedEntries (isArray entries) entries), rest) :=
      unpackDict_of hsmall fun hroom => unpackEntries_eq entries hv.2 (isArray entries) m room _ []
        (fun e he => zero_notMem_keyText hv.1 he)
        (decodedKeys_nodup hv.1 (by omega) (written_isArray entries)) (by omega) (by omega)
        (Nat.lt_succ_of_le hcount) hroom
    have hunpack : unpackValue (unpackDict (m + 1) room) (Value.table entries).type
        ((Value.table entries).data ++ rest) =
          unpackDict (m + 1) room (isArray entries)
            (document (elements (isArray entries) entries) ++ rest) := by
      rw [hdata, Value.type]
      cases isArray entries with
      | true => rfl
      | false => rfl
    rw [hunpack, hdict]
    exact needs_congr ⟨Or.inr, fun hor => hor.resolve_left fun hne => hne rfl⟩

/-- The elements of a table are read back. -/
theorem unpackEntries_eq (entries : List (Key × Value)) (h : AllPlain entries) (array : Bool)
    (fuel room n : Nat) (acc : List (Key × Value))
    (hzero : ∀ e ∈ entries, 0 ∉ keyText array e.1)
    (hnodup : (acc.map Prod.fst ++ entries.map fun e => decodedKey array e.1).Nodup)
    (hfuel : (elements array entries).length ≤ fuel)
    (hsmall : (elements array entries).length < 2 ^ 31) (hn : entries.length < n)
    (hroom : 1 ≤ room) :
    unpackEntries (unpackDict fuel (room - 2)) room array n (elements array entries) acc =
      needs (tableSlots entries ≤ room) (acc ++ decodedEntries array entries) :=
  match entries with
  | [] => by
    obtain ⟨m, rfl⟩ := Nat.exists_eq_add_one.mpr hn
    rw [unpackEntries, elements, if_pos rfl, decodedEntries, List.append_nil]
    exact (if_pos hroom).symm
  | (key, value) :: rest => by
    obtain ⟨m, rfl⟩ := Nat.exists_eq_add_one.mpr (Nat.zero_lt_of_lt hn)
    have hlen : (elements array ((key, value) :: rest)).length =
        (keyText array key).length + value.data.length + 2 + (elements array rest).length := by
      rw [elements, element_eq, List.length_append, length_field]
    have hvalue := unpackValue_eq value h.1 fuel (room - 2) (elements array rest) (by omega)
      (by omega)
    have hnew : decodedKey array key ∉ acc.map Prod.fst := by
      intro hmem
      exact (List.nodup_append.mp hnodup).2.2 _ hmem _ List.mem_cons_self rfl
    have hrest := unpackEntries_eq rest h.2 array fuel room m
      (acc ++ [(decodedKey array key, value.decoded)])
      (fun e he => hzero e (List.mem_cons_of_mem _ he))
      (by
        rw [List.map_append, List.append_assoc]
        exact hnodup)
      (by omega) (by omega) (Nat.lt_of_succ_lt_succ hn) hroom
    obtain ⟨htype, htable⟩ := type_cases value
    have hbyte : (UInt8.ofNat value.type).toNat = value.type := by
      rw [UInt8.toNat_ofNat', Nat.mod_eq_of_lt htype]
    have hread : elements array ((key, value) :: rest) = UInt8.ofNat value.type ::
        (keyText array key ++ 0 :: (value.data ++ elements array rest)) := by
      rw [elements, element_eq, field]
      simp
    have hkey : (if array then
        Key.integer (Int64.ofInt (Int.bmod (strtol (keyText array key) + 1) (2 ^ 32)))
        else .string (keyText array key)) = decodedKey array key := by
      cases array with
      | true => rfl
      | false => rfl
    rw [unpackEntries, if_neg (by rw [hread]; exact List.cons_ne_nil _ _), hread, readByte_cons,
      Outcome.ok_bind, hbyte]
    dsimp only
    rw [readCstring_append (hzero _ List.mem_cons_self), Outcome.ok_bind]
    dsimp only
    rw [hkey, hvalue]
    have hslots : tableSlots ((key, value) :: rest) = max (2 + value.slots) (tableSlots rest) := rfl
    have hleaf := slots_leaf value
    by_cases hfits : 2 + value.slots ≤ room
    · rw [Outcome.assert_bind (by omega), Outcome.assert_bind (by omega), needs,
        if_pos (Or.inr (by omega)), Outcome.ok_bind, rawset_new hnew, hrest, decodedEntries,
        List.append_assoc]
      exact needs_congr (by omega)
    · have hfail : needs (tableSlots ((key, value) :: rest) ≤ room)
          (acc ++ decodedEntries array ((key, value) :: rest)) = .fail .stack :=
        if_neg (by omega)
      rw [hfail]
      by_cases htwo : 2 ≤ room
      · rw [Outcome.assert_bind htwo]
        by_cases hscalar : value.leaf = .table
        · have hdeep : ¬ (value.leaf ≠ .table ∨ value.slots ≤ room - 2) :=
            not_or.mpr ⟨not_not.mpr hscalar, by omega⟩
          rw [Outcome.assert_bind (by tauto), needs, if_neg hdeep]
          rfl
        · have hone := hleaf.2 hscalar
          rw [Outcome.assert_bind_neg]
          rw [← or_assoc, htable]
          exact not_or.mpr ⟨hscalar, by omega⟩
      · rw [Outcome.assert_bind_neg htwo]

end

/-- `ldecode` of a document. -/
theorem ldecode_eq {entries : List (Key × Value)} {room : Nat} (h : (Value.table entries).Plain)
    (hsmall : (document (elements false entries)).length < 2 ^ 31) :
    ldecode room (document (elements false entries)) =
      needs (tableSlots entries ≤ room) (.table (decodedEntries false entries)) := by
  have hlen := length_document (elements false entries)
  have hhead : (document (elements false entries)).take 4 =
      LittleEndian.encode 4 ((elements false entries).length + 5) := by
    unfold document
    rw [List.append_assoc, List.take_left' (LittleEndian.length_encode _ _)]
  have hint : LittleEndian.decodeSigned ((document (elements false entries)).take 4) =
      (document (elements false entries)).length := by
    rw [hhead, LittleEndian.decodeSigned_encode, hlen]
    exact toInt_of_lt (by omega)
  have hcount := length_le_elements false entries
  have hdict : unpackDict ((elements false entries).length + 4 + 1) room false
      (document (elements false entries) ++ []) =
        needs (tableSlots entries ≤ room) (.table (decodedEntries false entries), []) :=
    unpackDict_of hsmall fun hroom =>
      unpackEntries_eq entries h.2 false _ room _ [] (fun e he => zero_notMem_keyText h.1 he)
        (decodedKeys_nodup h.1 (by omega) (written_false entries)) (Nat.le_add_right _ 4) (by omega)
        (Nat.lt_succ_of_le hcount) hroom
  rw [List.append_nil] at hdict
  unfold ldecode
  rw [hint, Outcome.assert_bind ⟨by omega, by omega, Int.le_refl _⟩, Int.toNat_natCast,
    List.take_length]
  rw [hlen, hdict]
  unfold needs
  split
  · rfl
  · rfl

/-! ## What is the same -/

theorem int32_kept (i : Int64) :
    (if isInt32 i then Int64.ofInt (Int.bmod i.toInt (2 ^ 32)) else i) = i ↔
      (Value.integer i).Kept := by
  have hlow := i.le_toInt
  have hhigh := i.toInt_lt
  have hkept : (Value.integer i).Kept ↔
      -2 ^ 63 + 2 ^ 31 ≤ i.toInt ∧ i.toInt < 2 ^ 63 - 2 ^ 31 := Iff.rfl
  have hback : (Int64.ofInt (Int.bmod i.toInt (2 ^ 32))).toInt = Int.bmod i.toInt (2 ^ 32) := by
    rw [Int64.toInt_ofInt]
    simp only [Int.bmod_def, Int64.size]
    omega
  rw [hkept]
  by_cases h : isInt32 i = true
  · have hshift := of_decide_eq_true h
    rw [if_pos h, ← Int64.toInt_inj, hback]
    simp only [Int.bmod_def] at hshift ⊢
    omega
  · have hshift := mt decide_eq_true h
    rw [if_neg h]
    simp only [Int.bmod_def] at hshift
    refine iff_of_true rfl ?_
    omega

/-- The keys that come back as they were. -/
theorem decodedKey_same {entries : List (Key × Value)} {array : Bool} (h : Keys entries)
    (hlen : entries.length < 2 ^ 31) (hw : Written array entries)
    (hkeys : array = true ∨ Strings entries) {e : Key × Value} (he : e ∈ entries) :
    decodedKey array e.1 = e.1 := by
  cases array with
  | true =>
      obtain ⟨i, hi, hkey⟩ := h.index hlen (hw rfl) e he
      rw [hkey]
      exact decodedKey_index hi
  | false =>
      obtain ⟨s, hs⟩ := hkeys.resolve_left Bool.false_ne_true e he
      rw [hs]
      rfl

mutual

/-- A value of this kind comes back. -/
theorem decoded_same (v : Value) (hv : v.Plain) (hsmall : v.data.length < 2 ^ 31) (h : v.Kept) :
    v.decoded = v :=
  match v with
  | .integer i => by rw [Value.decoded, (int32_kept i).mpr h]
  | .number _ => rfl
  | .boolean _ => rfl
  | .string _ => rfl
  | .table entries => by
    have hlen := length_document (elements (isArray entries) entries)
    have hdata : (Value.table entries).data = document (elements (isArray entries) entries) := rfl
    have hcount := length_le_elements (isArray entries) entries
    rw [hdata] at hsmall
    rw [Value.decoded, decodedEntries_same entries hv.2 (isArray entries) (by omega) h.2 fun e he =>
      decodedKey_same hv.1 (by omega) (written_isArray entries) h.1 he]

theorem decodedEntries_same (entries : List (Key × Value)) (hplain : AllPlain entries)
    (array : Bool) (hsmall : (elements array entries).length < 2 ^ 31) (h : AllKept entries)
    (hkeys : ∀ e ∈ entries, decodedKey array e.1 = e.1) : decodedEntries array entries = entries :=
  match entries with
  | [] => rfl
  | (key, value) :: rest => by
    have hlen : (elements array ((key, value) :: rest)).length =
        (keyText array key).length + value.data.length + 2 + (elements array rest).length := by
      rw [elements, element_eq, List.length_append, length_field]
    rw [decodedEntries, hkeys _ List.mem_cons_self,
      decoded_same value hplain.1 (by omega) h.1,
      decodedEntries_same rest hplain.2 array (by omega) h.2 fun e he =>
        hkeys e (List.mem_cons_of_mem _ he)]

end

theorem lookup_mem {entries : List (Key × Value)} (h : (entries.map Prod.fst).Nodup)
    {e : Key × Value} (he : e ∈ entries) : lookup e.1 entries = some e.2 := by
  induction entries with
  | nil => exact absurd he List.not_mem_nil
  | cons e' rest ih =>
      obtain ⟨hnew, hrest⟩ := List.nodup_cons.mp h
      unfold lookup
      cases List.mem_cons.mp he with
      | inl heq =>
          simp [heq]
      | inr hmem =>
          have hne : ¬ e'.1 = e.1 := fun heq => hnew (heq ▸ List.mem_map_of_mem hmem)
          rw [List.find?_cons_of_neg (by simpa using hne)]
          exact ih hrest hmem

theorem decodedEntries_map (array : Bool) (entries : List (Key × Value)) :
    decodedEntries array entries =
      entries.map fun e => (decodedKey array e.1, e.2.decoded) := by
  induction entries with
  | nil => rfl
  | cons e rest ih =>
      obtain ⟨key, value⟩ := e
      rw [decodedEntries, ih, List.map_cons]

/-- If the same is on every path, then the keys come back, and the same is on every path in each
value. -/
theorem table_same {entries : List (Key × Value)} {array : Bool} (h : Keys entries)
    (hlen : entries.length < 2 ^ 31) (hw : Written array entries)
    (hsame : ∀ path, read path (.table (decodedEntries array entries)) =
      read path (.table entries)) :
    (array = true ∨ Strings entries) ∧
      ∀ e ∈ entries, ∀ path, read path e.2.decoded = read path e.2 := by
  have hkeys : array = true ∨ Strings entries := by
    cases array with
    | true => exact Or.inl rfl
    | false =>
        refine Or.inr fun e he => ?_
        cases hkey : e.1 with
        | string s => exact ⟨s, rfl⟩
        | integer i =>
            have hpath := hsame [e.1]
            have hnone : lookup e.1 (decodedEntries false entries) = none := by
              rw [lookup, Option.map_eq_none_iff, List.find?_eq_none, decodedEntries_map]
              intro e' he' heq
              obtain ⟨d, -, hd⟩ := List.mem_map.mp he'
              rw [← hd, hkey] at heq
              exact nomatch of_decide_eq_true heq
            rw [read, read, hnone, lookup_mem h.1 he] at hpath
            exact nomatch hpath
  refine ⟨hkeys, fun e he path => ?_⟩
  have hpath := hsame (e.1 :: path)
  have hdecoded : lookup e.1 (decodedEntries array entries) = some e.2.decoded := by
    have hnodup := decodedKeys_nodup h hlen hw
    have hmem : (decodedKey array e.1, e.2.decoded) ∈ decodedEntries array entries := by
      rw [decodedEntries_map]
      exact List.mem_map.mpr ⟨e, he, rfl⟩
    have hfirst : ((decodedEntries array entries).map Prod.fst).Nodup := by
      rw [decodedEntries_map, List.map_map]
      exact hnodup
    have hfound := lookup_mem hfirst hmem
    dsimp only at hfound
    rw [decodedKey_same h hlen hw hkeys he] at hfound
    exact hfound
  rw [read, read, hdecoded, lookup_mem h.1 he] at hpath
  exact hpath

mutual

/-- Only such a value comes back. -/
theorem kept_of_same (v : Value) (hv : v.Plain) (hsmall : v.data.length < 2 ^ 31)
    (h : ∀ path, read path v.decoded = read path v) : v.Kept :=
  match v with
  | .integer i => by
    have hleaf : Leaf.integer _ = Leaf.integer i := Option.some.inj (h [])
    exact (int32_kept i).mp (Leaf.integer.inj hleaf)
  | .number _ => trivial
  | .boolean _ => trivial
  | .string _ => trivial
  | .table entries => by
    have hlen := length_document (elements (isArray entries) entries)
    have hdata : (Value.table entries).data = document (elements (isArray entries) entries) := rfl
    have hcount := length_le_elements (isArray entries) entries
    rw [hdata] at hsmall
    have hsame := table_same hv.1 (by omega) (written_isArray entries) h
    exact ⟨hsame.1, allKept_of_same entries hv.2 (isArray entries) (by omega) hsame.2⟩

theorem allKept_of_same (entries : List (Key × Value)) (hplain : AllPlain entries) (array : Bool)
    (hsmall : (elements array entries).length < 2 ^ 31)
    (h : ∀ e ∈ entries, ∀ path, read path e.2.decoded = read path e.2) : AllKept entries :=
  match entries with
  | [] => trivial
  | (key, value) :: rest => by
    have hlen : (elements array ((key, value) :: rest)).length =
        (keyText array key).length + value.data.length + 2 + (elements array rest).length := by
      rw [elements, element_eq, List.length_append, length_field]
    exact ⟨kept_of_same value hplain.1 (by omega) (h _ List.mem_cons_self),
      allKept_of_same rest hplain.2 array (by omega) fun e he => h e (List.mem_cons_of_mem _ he)⟩

end

section RoundTrip

variable {room : Nat} {entries : List (Key × Value)}

/-- What a table that comes back is like. -/
theorem kept_of_roundTrips (h : (Value.table entries).Plain)
    (hsize : (document (elements false entries)).length < 2 ^ 31)
    (hround : RoundTrips room entries) : Strings entries ∧ AllKept entries ∧
      (document (elements false entries)).length ≤ 2 ^ 30 ∧ tableSlots entries ≤ room := by
  obtain ⟨bytes, v, hencode, hdecode, hsame⟩ := hround
  obtain ⟨rfl, hle⟩ := lencode_exact h.2 bytes hencode
  have hlen := length_document (elements false entries)
  have hcount := length_le_elements false entries
  rw [ldecode_eq h hsize, needs] at hdecode
  by_cases hslots : tableSlots entries ≤ room
  · rw [if_pos hslots] at hdecode
    obtain rfl := Outcome.ok.inj hdecode
    obtain ⟨hkeys, hvalues⟩ := table_same h.1 (by omega) (written_false entries) hsame
    exact ⟨hkeys.resolve_left Bool.false_ne_true,
      allKept_of_same entries h.2 false (by omega) hvalues, hle, hslots⟩
  · rw [if_neg hslots] at hdecode
    exact nomatch hdecode

theorem roundTrips_of_kept (h : (Value.table entries).Plain)
    (hsize : (document (elements false entries)).length ≤ 2 ^ 30) (hkeys : Strings entries)
    (hkept : AllKept entries) (hslots : tableSlots entries ≤ room) : RoundTrips room entries := by
  have hlen := length_document (elements false entries)
  have hcount := length_le_elements false entries
  have hentries : decodedEntries false entries = entries :=
    decodedEntries_same entries h.2 false (by omega) hkept fun e he =>
      decodedKey_same h.1 (by omega) (written_false entries) (Or.inr hkeys) he
  obtain ⟨bytes, hencode⟩ := lencode_ends h.2 hkeys hkept hslots hsize
  obtain ⟨rfl, -⟩ := lencode_exact h.2 bytes hencode
  refine ⟨_, .table entries, hencode, ?_, fun _ => rfl⟩
  rw [ldecode_eq h (by omega), needs, if_pos hslots, hentries]

/-- A table comes back from its document if and only if its keys are strings, no array in it is
taken for a document, its integers keep away from the ends of the range, the document has at most
`2 ^ 30` bytes and the Lua stack has room for its tables. -/
theorem roundTrips_iff (h : (Value.table entries).Plain)
    (hsize : (document (elements false entries)).length < 2 ^ 31) :
    RoundTrips room entries ↔ Strings entries ∧ AllKept entries ∧
      (document (elements false entries)).length ≤ 2 ^ 30 ∧ tableSlots entries ≤ room :=
  ⟨kept_of_roundTrips h hsize, fun hk => roundTrips_of_kept h hk.2.2.1 hk.1 hk.2.1 hk.2.2.2⟩

end RoundTrip

/-- `{ n = -7, list = { "a", { }, 1.0 } }` -/
def sample : List (Key × Value) :=
  [(.string [110], .integer (-7)),
    (.string [108, 105, 115, 116], .table [(.integer 1, .string [97]), (.integer 2, .table []),
      (.integer 3, .number 0x3ff0000000000000)])]

theorem sample_plain : (Value.table sample).Plain := by
  have hstring : (Value.string [97]).Plain := show ([97] : List UInt8).head? ≠ some 0 by decide
  have hempty : (Value.table []).Plain := ⟨⟨List.nodup_nil, Or.inl nofun⟩, trivial⟩
  have hkeys : ∀ e ∈ sample, ∃ s, e.1 = .string s ∧ 0 ∉ s := by simp [sample]
  exact ⟨⟨by decide, Or.inl hkeys⟩, trivial,
    ⟨⟨by decide, Or.inr (by decide)⟩, hstring, hempty, trivial, trivial⟩, trivial⟩

theorem sample_kept : Strings sample ∧ AllKept sample := by
  have hkeys : Strings sample := by simp [Strings, sample]
  have hempty : (Value.table []).Kept := ⟨Or.inr nofun, trivial⟩
  exact ⟨hkeys, ⟨by decide, by decide⟩, ⟨Or.inl (by decide), trivial, hempty, trivial, trivial⟩,
    trivial⟩

theorem roundTrips_iff_sample : RoundTrips LUA_MINSTACK sample :=
  (roundTrips_iff sample_plain (by decide)).mpr
    ⟨sample_kept.1, sample_kept.2, by decide, by decide⟩

/-- The shift of the largest integer is -1 as an `int`. -/
theorem maxinteger_lost : ¬ ∀ (room : Nat) (entries : List (Key × Value)), LUA_MINSTACK ≤ room →
    (Value.table entries).Plain → (document (elements false entries)).length < 2 ^ 31 →
      RoundTrips room entries := by
  intro h
  have hplain : (Value.table [(.string [97], .integer Int64.maxValue)]).Plain :=
    ⟨⟨by decide, Or.inl fun e he => ⟨[97], by rw [List.mem_singleton.mp he], by decide⟩⟩, trivial,
      trivial⟩
  have hsize : (document (elements false [(.string [97], .integer Int64.maxValue)])).length <
      2 ^ 31 := by decide
  have hround := h LUA_MINSTACK _ (Nat.le_refl _) hplain hsize
  exact absurd (kept_of_roundTrips hplain hsize hround).2.1.1.2 (by decide)

end Jump.Skynet.Bson
