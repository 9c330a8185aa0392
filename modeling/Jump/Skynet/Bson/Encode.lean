import Jump.Skynet.Bson.Code

/-! # The encoded document

What `lencode` writes, without its buffer: a document is its length, its elements and a zero.
-/

namespace Jump.Skynet.Bson

open Jump.Core

/-! ## The bytes of a table -/

/-- A type, a key and the bytes of a value. -/
def field (type : Nat) (key data : List UInt8) : List UInt8 := UInt8.ofNat type :: key ++ 0 :: data

def document (body : List UInt8) : List UInt8 :=
  LittleEndian.encode 4 (body.length + 5) ++ body ++ [0]

/-- The test in `append_number`. -/
def isInt32 (i : Int64) : Bool :=
  Int.bmod (i.toInt / 2 ^ 31) (2 ^ 32) = 0 ∨ Int.bmod (i.toInt / 2 ^ 31) (2 ^ 32) = -1

/-- What `pack_dict` makes of a key. -/
def keyText (array : Bool) : Key → List UInt8
  | .integer i => if array then numstr (uint32OfInt (i.toInt - 1))
    else text (Strtoll.printInt i.toInt)
  | .string s => s

mutual

def element (key : List UInt8) : Value → List UInt8
  | .integer i =>
    if isInt32 i then field BSON_INT32 key (LittleEndian.encode 4 (uint32OfInt i.toInt))
    else field BSON_INT64 key (LittleEndian.encode 8 i.toUInt64.toNat)
  | .number d => field BSON_REAL key (LittleEndian.encode 8 d.toNat)
  | .boolean v => field BSON_BOOLEAN key [if v then 1 else 0]
  | .string str => field BSON_STRING key (LittleEndian.encode 4 (str.length + 1) ++ (str ++ [0]))
  | .table entries =>
    field (if isArray entries then BSON_ARRAY else BSON_DOCUMENT) key
      (document (elements (isArray entries) entries))

def elements (array : Bool) : List (Key × Value) → List UInt8
  | [] => []
  | (key, value) :: rest => element (keyText array key) value ++ elements array rest

end

/-! ## Tables -/

/-- The keys of a table: strings without a zero, or the indices of an array. -/
def Keys (entries : List (Key × Value)) : Prop :=
  (entries.map Prod.fst).Nodup ∧ ((∀ e ∈ entries, ∃ s, e.1 = .string s ∧ 0 ∉ s) ∨
    (entries.map Prod.fst).Perm
      ((List.range entries.length).map fun i => .integer (Int64.ofNat (i + 1))))

mutual

/-- No string starts with a zero, and every table has keys of one of the two kinds. -/
def Value.Plain : Value → Prop
  | .string s => s.head? ≠ some 0
  | .table entries => Keys entries ∧ AllPlain entries
  | _ => True

def AllPlain : List (Key × Value) → Prop
  | [] => True
  | (_, value) :: rest => value.Plain ∧ AllPlain rest

end

def Strings (entries : List (Key × Value)) : Prop := ∀ e ∈ entries, ∃ s, e.1 = .string s

mutual

/-- The shift of an integer is one of those that its type is chosen by, and an array has nothing
behind its last index. -/
def Value.Kept : Value → Prop
  | .integer i => -2 ^ 63 + 2 ^ 31 ≤ i.toInt ∧ i.toInt < 2 ^ 63 - 2 ^ 31
  | .table entries => (isArray entries ∨ Strings entries) ∧ AllKept entries
  | _ => True

def AllKept : List (Key × Value) → Prop
  | [] => True
  | (_, value) :: rest => value.Kept ∧ AllKept rest

end

mutual

/-- The slots of the Lua stack that a value takes while it is decoded. -/
def Value.slots : Value → Nat
  | .table entries => tableSlots entries
  | _ => 1

def tableSlots : List (Key × Value) → Nat
  | [] => 1
  | (_, value) :: rest => max (2 + value.slots) (tableSlots rest)

end

/-! ## The buffer -/

/-- The bytes fit into the capacity, which is a power of two of at most `2 ^ 30`. -/
def Bson.Valid (b : Bson) : Prop :=
  b.bytes.length ≤ b.cap ∧ ∃ k ≤ 24, b.cap = 64 * 2 ^ k

/-- `w` writes the bytes `bytes`, if it comes to an end; and it does if `p` holds and there are
fewer than `2 ^ 30` bytes then. -/
structure Writes (w : Bson → Checked Bson) (bytes : List UInt8) (p : Prop) : Prop where
  exact : ∀ b, b.Valid → (w b).Ensures fun b' => b'.bytes = b.bytes ++ bytes ∧ b'.Valid
  ends : p → ∀ b, b.Valid → b.bytes.length + bytes.length < 2 ^ 30 → ∃ b', w b = .ok b'

section Buffer

variable {b : Bson} {sz k fuel : Nat} {w w' : Bson → Checked Bson} {xs ys : List UInt8} {p q : Prop}

theorem double_spec (hk : k ≤ 24) :
    (double fuel (64 * 2 ^ k) sz).Ensures fun cap => sz < cap ∧ ∃ j ≤ 24, cap = 64 * 2 ^ j := by
  induction fuel generalizing k with
  | zero => exact .stuck
  | succ fuel ih =>
      refine Outcome.Ensures.assert.bind fun _ hint => ?_
      have hnext : 64 * 2 ^ k * 2 = 64 * 2 ^ (k + 1) := by rw [Nat.pow_succ, Nat.mul_assoc]
      have hk' : k + 1 ≤ 24 := by
        by_contra hlt
        rw [show k = 24 by omega] at hint
        exact absurd hint (by decide)
      rw [hnext]
      split
      · exact ih hk'
      · exact .pure ⟨Nat.not_le.mp ‹_›, k + 1, hk', rfl⟩

/-- A size below `2 ^ 30` is reached. -/
theorem double_ends (hfuel : 24 < k + fuel) (hcap : 64 * 2 ^ k ≤ sz) (hsz : sz < 2 ^ 30) :
    ∃ cap, double fuel (64 * 2 ^ k) sz = .ok cap := by
  induction fuel generalizing k with
  | zero =>
      have hpow : 2 ^ 25 ≤ 2 ^ k := Nat.pow_le_pow_right (by decide) (by omega)
      omega
  | succ fuel ih =>
      have hnext : 64 * 2 ^ k * 2 = 64 * 2 ^ (k + 1) := by rw [Nat.pow_succ, Nat.mul_assoc]
      rw [double, Outcome.assert_bind (by omega)]
      split
      · rw [hnext]
        exact ih (by omega) (by omega)
      · exact ⟨_, rfl⟩

theorem reserve_spec (h : b.Valid) : (reserve b sz).Ensures fun b' =>
    b'.bytes = b.bytes ∧ b.bytes.length + sz ≤ b'.cap ∧ ∃ j ≤ 24, b'.cap = 64 * 2 ^ j := by
  obtain ⟨_, k, hk, hcap⟩ := h
  refine Outcome.Ensures.assert.bind fun _ _ => ?_
  split
  · exact .pure ⟨rfl, ‹_›, k, hk, hcap⟩
  · rw [hcap]
    exact (double_spec hk).bind fun cap hnew => .pure ⟨rfl, hnew.1.le, hnew.2⟩

/-- Room that is there already, or below `2 ^ 30`, can be had. -/
theorem reserve_ends (h : b.Valid)
    (hroom : b.bytes.length + sz < 2 ^ 30 ∨ b.bytes.length + sz ≤ b.cap) :
    ∃ b', reserve b sz = .ok b' := by
  obtain ⟨_, k, hk, hcap⟩ := h
  have hpow : 2 ^ k ≤ 2 ^ 24 := Nat.pow_le_pow_right (by decide) hk
  rw [reserve, Outcome.assert_bind (by omega)]
  split
  · exact ⟨b, rfl⟩
  · obtain ⟨cap, hdouble⟩ := @double_ends (b.bytes.length + sz) k 32 (by omega) (by omega)
      (by omega)
    rw [hcap, hdouble]
    exact ⟨_, rfl⟩

theorem write_writes (xs : List UInt8) : Writes (write xs) xs True := by
  refine ⟨fun b h => ?_, fun _ b h hlt => ?_⟩
  · refine (reserve_spec h).bind fun b' hb => .pure ⟨by rw [hb.1], ?_, hb.2.2⟩
    rw [List.length_append, hb.1]
    exact hb.2.1
  · obtain ⟨b', hreserve⟩ := reserve_ends h (Or.inl hlt)
    rw [write, hreserve]
    exact ⟨_, rfl⟩

theorem Writes.mono (h : Writes w xs p) (hp : q → p) : Writes w xs q :=
  ⟨h.exact, fun hq => h.ends (hp hq)⟩

/-- One after the other. -/
theorem Writes.bind (h : Writes w xs p) (h' : Writes w' ys q) :
    Writes (fun b => w b >>= w') (xs ++ ys) (p ∧ q) := by
  refine ⟨fun b hb => ?_, fun hpq b hb hlt => ?_⟩
  · refine (h.exact b hb).bind fun b₁ h₁ => (h'.exact b₁ h₁.2).mono fun b₂ h₂ => ?_
    exact ⟨by rw [h₂.1, h₁.1, List.append_assoc], h₂.2⟩
  · rw [List.length_append] at hlt
    obtain ⟨b₁, hw⟩ := h.ends hpq.1 b hb (by omega)
    obtain ⟨hbytes, hvalid⟩ := h.exact b hb b₁ hw
    rw [hw]
    exact h'.ends hpq.2 b₁ hvalid (by rw [hbytes, List.length_append]; omega)

/-- The length is put in front of what follows it. -/
theorem withLength_writes {length : Nat → Nat → Nat} {n : Nat} (h : Writes w xs p)
    (hn : ∀ off, length off (off + 4 + xs.length) = n) :
    Writes (withLength length w) (LittleEndian.encode 4 n ++ xs) p := by
  refine ⟨fun b hb => ?_, fun hp b hb hlt => ?_⟩
  · refine ((write_writes [0, 0, 0, 0]).exact b hb).bind fun b₁ h₁ =>
      (h.exact b₁ h₁.2).bind fun b₂ h₂ => .pure ?_
    have hbytes : b₂.bytes = b.bytes ++ ([0, 0, 0, 0] ++ xs) := by
      rw [h₂.1, h₁.1, List.append_assoc]
    have hlength : length b.bytes.length b₂.bytes.length = n := by
      rw [hbytes, ← hn b.bytes.length]
      congr 1
      simp only [List.length_append, List.length_cons, List.length_nil]
      omega
    have hset : (writeLength (length b.bytes.length b₂.bytes.length) b.bytes.length b₂).bytes =
        b.bytes ++ (LittleEndian.encode 4 n ++ xs) := by
      unfold writeLength
      dsimp only
      rw [hlength, hbytes, List.take_left, List.append_assoc, List.drop_append]
      simp
    refine ⟨hset, ?_, h₂.2.2⟩
    rw [hset]
    refine le_trans (le_of_eq ?_) h₂.2.1
    rw [hbytes]
    simp only [List.length_append, LittleEndian.length_encode, List.length_cons, List.length_nil]
  · rw [List.length_append, LittleEndian.length_encode] at hlt
    obtain ⟨b₁, hwrite⟩ := (write_writes [0, 0, 0, 0]).ends trivial b hb
      (show b.bytes.length + 4 < 2 ^ 30 by omega)
    obtain ⟨hbytes, hvalid⟩ := (write_writes [0, 0, 0, 0]).exact b hb b₁ hwrite
    have hlen : b₁.bytes.length = b.bytes.length + 4 := by
      rw [hbytes, List.length_append]
      rfl
    obtain ⟨b₂, hbody⟩ := h.ends hp b₁ hvalid (by omega)
    refine ⟨writeLength (length b.bytes.length b₂.bytes.length) b.bytes.length b₂, ?_⟩
    unfold withLength reserveLength
    rw [hwrite, Outcome.ok_bind, hbody]
    rfl

end Buffer

/-! ## Values -/

theorem Writes.congr {w : Bson → Checked Bson} {xs ys : List UInt8} {p : Prop} (h : Writes w xs p)
    (heq : xs = ys) : Writes w ys p := heq ▸ h

theorem appendKey_writes (type : Nat) (key : List UInt8) :
    Writes (appendKey type key) (UInt8.ofNat type :: key ++ [0]) True :=
  ((write_writes [UInt8.ofNat type]).bind (write_writes (key ++ [0]))).mono fun h => ⟨h, h⟩

/-- A key and then the bytes of a value. -/
theorem field_writes {type : Nat} {key data : List UInt8} {w : Bson → Checked Bson} {p : Prop}
    (h : Writes w data p) :
    Writes (fun bs => appendKey type key bs >>= w) (field type key data) p :=
  (((appendKey_writes type key).bind h).mono fun hp => ⟨trivial, hp⟩).congr
    (by simp [field])

theorem appendInteger_writes (key : List UInt8) (i : Int64) :
    Writes (appendInteger key i) (element key (.integer i)) True := by
  have hshort : Writes (fun bs => appendKey BSON_INT32 key bs >>= writeInt32 i.toInt)
      (field BSON_INT32 key (LittleEndian.encode 4 (uint32OfInt i.toInt))) True :=
    field_writes (write_writes _)
  have hlong : Writes (fun bs => appendKey BSON_INT64 key bs >>= writeInt64 i.toUInt64)
      (field BSON_INT64 key (LittleEndian.encode 8 i.toUInt64.toNat)) True :=
    field_writes (write_writes _)
  by_cases h : isInt32 i = true
  · have hw : appendInteger key i =
        fun bs => appendKey BSON_INT32 key bs >>= writeInt32 i.toInt := by
      funext bs
      exact if_pos (of_decide_eq_true h)
    rw [hw, element, if_pos h]
    exact hshort
  · have hw : appendInteger key i =
        fun bs => appendKey BSON_INT64 key bs >>= writeInt64 i.toUInt64 := by
      funext bs
      exact if_neg fun hs => h (decide_eq_true hs)
    rw [hw, element, if_neg h]
    exact hlong

theorem appendString_writes {key str : List UInt8} (h : str.head? ≠ some 0) :
    Writes (appendString key str) (element key (.string str)) True := by
  have hw : appendString key str = fun bs => appendKey BSON_STRING key bs >>=
      withLength (fun _ _ => str.length + 1) (writeString str) := by
    funext bs
    unfold appendString
    split
    · exact absurd rfl h
    · rfl
  rw [hw]
  exact field_writes (withLength_writes (write_writes (str ++ [0])) fun _ => rfl)

theorem Writes.assert {w : Bson → Checked Bson} {xs : List UInt8} {e : Fault} {c p : Prop}
    [Decidable c] (h : Writes w xs p) :
    Writes (fun b => Outcome.assert e c >>= fun _ => w b) xs (c ∧ p) := by
  refine ⟨fun b hb => Outcome.Ensures.assert.bind fun _ _ => h.exact b hb, fun hp b hb hlt => ?_⟩
  rw [Outcome.assert_bind hp.1]
  exact h.ends hp.2 b hb hlt

/-- `pack_dict` around its loop. -/
theorem packDict_writes {room : Nat} {loop : Bson → Checked Bson} {body : List UInt8} {p : Prop}
    (h : Writes loop body p) : Writes (packDict room loop) (document body) (1 ≤ room ∧ p) := by
  have hbody : Writes
      (fun b => Outcome.assert Fault.stack (1 ≤ room) >>= fun _ => loop b >>= writeByte 0)
      (body ++ [0]) (1 ≤ room ∧ p) :=
    ((h.bind (write_writes [0])).mono fun hp => ⟨hp, trivial⟩).assert
  unfold document
  rw [List.append_assoc]
  refine withLength_writes hbody fun off => ?_
  rw [List.length_append, List.length_singleton]
  omega

theorem rawlen_strings {entries : List (Key × Value)} (h : Strings entries) :
    rawlen entries = 0 := by
  have hnone : ∀ i : Nat, ¬ (entries.any fun e => e.1 = .integer (Int64.ofNat (i + 1))) = true := by
    intro i hany
    obtain ⟨e, he, hkey⟩ := List.any_eq_true.mp hany
    obtain ⟨s, hs⟩ := h e he
    rw [hs] at hkey
    exact nomatch of_decide_eq_true hkey
  unfold rawlen
  cases List.range entries.length with
  | nil => rfl
  | cons i is =>
      have hnil : ((i :: is).takeWhile fun i =>
          entries.any fun e => e.1 = .integer (Int64.ofNat (i + 1))) = [] :=
        List.takeWhile_cons_of_neg (hnone i)
      exact congrArg List.length hnil

/-- An array has the indices as its keys. -/
theorem Keys.integer {entries : List (Key × Value)} (h : Keys entries)
    (harray : isArray entries = true) : ∀ e ∈ entries, ∃ i, e.1 = .integer i := by
  obtain ⟨-, hlast⟩ := of_decide_eq_true harray
  cases h.2 with
  | inl hstrings =>
      obtain ⟨e, he, hkey⟩ := Option.map_eq_some_iff.mp hlast
      obtain ⟨s, hs, -⟩ := hstrings e (List.mem_of_getLast? he)
      rw [hs] at hkey
      exact nomatch hkey
  | inr hperm =>
      intro e he
      obtain ⟨i, -, hi⟩ := List.mem_map.mp (hperm.mem_iff.mp (List.mem_map_of_mem he))
      exact ⟨_, hi.symm⟩

/-- The keys are of the kind that `pack_dict` expects. -/
def Fitting (array : Bool) (entries : List (Key × Value)) : Prop :=
  ∀ e ∈ entries, if array then ∃ i, e.1 = .integer i else ∃ s, e.1 = .string s

theorem one_le_tableSlots (entries : List (Key × Value)) : 1 ≤ tableSlots entries := by
  induction entries with
  | nil => exact Nat.le_refl 1
  | cons e rest ih => exact ih.trans (Nat.le_max_right _ _)

mutual

/-- `append_one` -/
theorem appendOne_writes (v : Value) (hv : v.Plain) (room : Nat) (key : List UInt8) :
    Writes (fun bs => appendOne room key bs v) (element key v) (v.Kept ∧ v.slots ≤ room) :=
  match v with
  | .integer i => (appendInteger_writes key i).mono fun _ => trivial
  | .number d => (field_writes (write_writes (LittleEndian.encode 8 d.toNat))).mono fun _ => trivial
  | .boolean b => (field_writes (write_writes [if b then 1 else 0])).mono fun _ => trivial
  | .string _ => (appendString_writes hv).mono fun _ => trivial
  | .table entries => by
    have hloop := packEntries_writes entries hv.2 room (isArray entries)
    refine (Writes.assert (field_writes (packDict_writes hloop))).mono fun hp => ?_
    obtain ⟨⟨hkeys, hkept⟩, hslots⟩ := hp
    have hroom : 1 ≤ room := (one_le_tableSlots entries).trans hslots
    cases hkeys with
    | inl harray =>
        refine ⟨Or.inr ?_, hroom, ?_, hkept, hslots⟩
        · rw [if_pos harray]
          exact hroom
        · intro e he
          rw [if_pos harray]
          exact hv.1.integer harray e he
    | inr hstrings =>
        have hzero := rawlen_strings hstrings
        have harray : ¬ isArray entries = true := fun h => by
          have hpos := (of_decide_eq_true h).1
          omega
        refine ⟨Or.inl hzero, hroom, fun e he => ?_, hkept, hslots⟩
        rw [if_neg harray]
        exact hstrings e he

/-- The loop of `pack_dict` -/
theorem packEntries_writes (entries : List (Key × Value)) (h : AllPlain entries) (room : Nat)
    (array : Bool) : Writes (fun bs => packEntries room array bs entries) (elements array entries)
      (Fitting array entries ∧ AllKept entries ∧ tableSlots entries ≤ room) :=
  match entries with
  | [] => ⟨fun b hb => .pure ⟨(List.append_nil _).symm, hb⟩, fun _ b _ _ => ⟨b, rfl⟩⟩
  | (key, value) :: rest => by
    have hrest := packEntries_writes rest h.2 room array
    have hone := appendOne_writes value h.1
    have hfit : Fitting array ((key, value) :: rest) ∧ AllKept ((key, value) :: rest) ∧
          tableSlots ((key, value) :: rest) ≤ room →
        2 ≤ room ∧ (value.Kept ∧ value.slots ≤ room - 2) ∧
          Fitting array rest ∧ AllKept rest ∧ tableSlots rest ≤ room := by
      rintro ⟨hkeys, hkept, hslots⟩
      have hmax : max (2 + value.slots) (tableSlots rest) ≤ room := hslots
      refine ⟨by omega, ⟨hkept.1, by omega⟩, fun e he => ?_, hkept.2, by omega⟩
      exact hkeys e (List.mem_cons_of_mem _ he)
    cases array with
    | true =>
        cases key with
        | integer i => exact (Writes.assert ((hone (room - 2) _).bind hrest)).mono hfit
        | string s =>
            refine ⟨fun b hb => Outcome.Ensures.assert.bind fun _ _ => .fail, fun hp => ?_⟩
            obtain ⟨i, hi⟩ := hp.1 (.string s, value) List.mem_cons_self
            exact nomatch hi
    | false =>
        cases key with
        | integer i =>
            have hwrites := (hone (room - 3) (keyText false (.integer i))).bind hrest
            refine (Writes.assert (Writes.assert hwrites)).mono fun hp => ?_
            obtain ⟨s, hs⟩ := hp.1 (.integer i, value) List.mem_cons_self
            exact nomatch hs
        | string s => exact (Writes.assert ((hone (room - 2) _).bind hrest)).mono hfit

end

theorem create_valid : create.Valid := ⟨Nat.zero_le _, 0, Nat.zero_le _, rfl⟩

/-- The capacity is a power of two, so a byte fits behind `2 ^ 30 - 1` others. -/
theorem last_byte {b : Bson} (h : b.Valid) (hlen : b.bytes.length + 1 ≤ 2 ^ 30) :
    ∃ b', writeByte 0 b = .ok b' := by
  have hfits : b.bytes.length + 1 < 2 ^ 30 ∨ b.bytes.length + 1 ≤ b.cap := by
    obtain ⟨hcap, k, hk, hpow⟩ := h
    by_cases hlast : k = 24
    · rw [hpow, hlast]
      omega
    · have hle : 2 ^ k ≤ 2 ^ 23 := Nat.pow_le_pow_right (by decide) (by omega)
      omega
  obtain ⟨b', hreserve⟩ := reserve_ends h hfits
  unfold writeByte write
  rw [List.length_singleton, hreserve]
  exact ⟨_, rfl⟩

/-- If `lencode` returns, then the document, and at most `2 ^ 30` bytes. -/
theorem lencode_exact {room : Nat} {entries : List (Key × Value)} (h : AllPlain entries) :
    (lencode room entries).Ensures fun bytes =>
      bytes = document (elements false entries) ∧ bytes.length ≤ 2 ^ 30 := by
  have hpack := @packDict_writes room _ _ _ (packEntries_writes entries h room false)
  refine (hpack.exact create create_valid).bind fun b hb => .pure ⟨hb.1, ?_⟩
  obtain ⟨hlen, k, hk, hcap⟩ := hb.2
  have hle : 2 ^ k ≤ 2 ^ 24 := Nat.pow_le_pow_right (by decide) hk
  omega

/-- `lencode` returns if no array is taken for a document, the Lua stack is large enough and there
are at most `2 ^ 30` bytes. -/
theorem lencode_ends {room : Nat} {entries : List (Key × Value)} (h : AllPlain entries)
    (hkeys : Strings entries) (hkept : AllKept entries) (hslots : tableSlots entries ≤ room)
    (hsize : (document (elements false entries)).length ≤ 2 ^ 30) :
    ∃ bytes, lencode room entries = .ok bytes := by
  have hroom := (one_le_tableSlots entries).trans hslots
  have hloop := packEntries_writes entries h room false
  have hlen : (document (elements false entries)).length =
      4 + (elements false entries).length + 1 := by
    unfold document
    rw [List.length_append, List.length_append, LittleEndian.length_encode]
    rfl
  obtain ⟨b₁, hreserve⟩ := (write_writes [0, 0, 0, 0]).ends trivial create create_valid (by decide)
  obtain ⟨hbytes₁, hvalid₁⟩ := (write_writes [0, 0, 0, 0]).exact create create_valid b₁ hreserve
  have hlen₁ : b₁.bytes.length = 4 := congrArg List.length hbytes₁
  obtain ⟨b₂, hentries⟩ := hloop.ends ⟨hkeys, hkept, hslots⟩ b₁ hvalid₁ (by omega)
  obtain ⟨hbytes₂, hvalid₂⟩ := hloop.exact b₁ hvalid₁ b₂ hentries
  obtain ⟨b₃, hlast⟩ := last_byte hvalid₂ (by rw [hbytes₂, List.length_append]; omega)
  refine ⟨(writeLength (b₃.bytes.length - create.bytes.length) create.bytes.length b₃).bytes, ?_⟩
  unfold lencode packDict withLength reserveLength
  rw [hreserve, Outcome.ok_bind]
  dsimp only at hentries ⊢
  rw [Outcome.assert_bind hroom, hentries, Outcome.ok_bind, hlast]
  rfl

end Jump.Skynet.Bson
