import Jump.Skynet.Sproto.Decode
import Jump.Skynet.Sproto.EncodeIntegers
import Jump.Skynet.Sproto.EncodeStruct
import Mathlib.Data.Nat.Bitwise

/-! # What the decoder reads

The calls that a decoder makes for the bytes of a value, for arrays and for the fields of a
struct.
-/

namespace Jump.Skynet.Sproto

open Jump.Core

/-! ## Reads -/

/-- The bytes at an offset of the input. -/
def At (mem : List UInt8) (p : Nat) (bytes : List UInt8) : Prop :=
  ∃ front back, mem = front ++ bytes ++ back ∧ front.length = p

theorem At.left {mem : List UInt8} {p : Nat} {bytes bytes' : List UInt8}
    (h : At mem p (bytes ++ bytes')) : At mem p bytes := by
  obtain ⟨front, back, rfl, hp⟩ := h
  exact ⟨front, bytes' ++ back, by simp only [List.append_assoc], hp⟩

theorem At.right {mem : List UInt8} {p : Nat} {bytes bytes' : List UInt8}
    (h : At mem p (bytes ++ bytes')) : At mem (p + bytes.length) bytes' := by
  obtain ⟨front, back, rfl, hp⟩ := h
  exact ⟨front ++ bytes, back, by simp only [List.append_assoc], by rw [List.length_append, hp]⟩

theorem At.le {mem : List UInt8} {p : Nat} {bytes : List UInt8} (h : At mem p bytes) :
    p + bytes.length ≤ mem.length := by
  obtain ⟨front, back, rfl, hp⟩ := h
  rw [List.length_append, List.length_append]
  omega

theorem At.read {mem : List UInt8} {p n : Nat} {bytes : List UInt8} (h : At mem p bytes)
    (hn : bytes.length = n) : read mem p n = some bytes := by
  have hle := h.le
  obtain ⟨front, back, rfl, hp⟩ := h
  rw [Sproto.read, if_pos (by omega), List.append_assoc, ← hp, List.drop_left, ← hn,
    List.take_left]

theorem toword_at {mem : List UInt8} {p n : Nat} (h : At mem p (word n)) (hn : n < 2 ^ 16) :
    toword mem p = some n := by
  rw [toword, h.read (LittleEndian.length_encode ..), Option.map_some, word,
    LittleEndian.decode_encode_of_lt hn]

theorem todword_at {mem : List UInt8} {p n : Nat} (h : At mem p (dword n)) (hn : n < 2 ^ 32) :
    todword mem p = some n := by
  rw [todword, h.read (LittleEndian.length_encode ..), Option.map_some, dword,
    LittleEndian.decode_encode_of_lt hn]

theorem getQword_at {mem : List UInt8} {p n : Nat} (h : At mem p (LittleEndian.encode 8 n))
    (hn : n < 2 ^ 64) : getQword mem p = some n := by
  rw [show (8 : Nat) = 4 + 4 from rfl, LittleEndian.encode_add] at h
  have hlow : todword mem p = some (n % 2 ^ 32) := by
    refine todword_at ?_ (Nat.mod_lt _ (by decide))
    rw [dword, show (2 : Nat) ^ 32 = 256 ^ 4 from rfl, LittleEndian.encode_mod]
    exact h.left
  have hhigh : todword mem (p + 4) = some (n / 2 ^ 32) := by
    have hright := h.right
    rw [LittleEndian.length_encode] at hright
    exact todword_at hright (by omega)
  have hsum : n % 2 ^ 32 ||| (n / 2 ^ 32) <<< 32 = n := by
    rw [Nat.or_comm, Nat.shiftLeft_eq, Nat.mul_comm,
      ← Nat.two_pow_add_eq_or_of_lt (Nat.mod_lt _ (by decide))]
    exact Nat.div_add_mod n (2 ^ 32)
  rw [getQword, hlow, Option.bind_eq_bind, Option.bind_some, hhigh]
  show some (n % 2 ^ 32 ||| (n / 2 ^ 32) <<< 32) = some n
  rw [hsum]

theorem getByte_at {mem : List UInt8} {p i : Nat} {b : UInt8} (h : At mem (p + i) [b]) :
    getByte mem p i = some b.toNat := by
  rw [getByte, h.read (show [b].length = 1 from rfl)]
  rfl

theorem expand64_eq {n : Nat} (h : n < 2 ^ 32) : expand64 n = signExtend n := by
  have hbit : n &&& 0x80000000 ≠ 0 ↔ 2 ^ 31 ≤ n := by
    rw [show (0x80000000 : Nat) = 2 ^ 31 from rfl, Nat.and_two_pow,
      Nat.testBit_eq_decide_div_mod_eq]
    by_cases hle : 2 ^ 31 ≤ n
    · have hdiv : n / 2 ^ 31 = 1 := by omega
      rw [hdiv]
      exact ⟨fun _ => hle, fun _ => by decide⟩
    · have hdiv : n / 2 ^ 31 = 0 := by omega
      rw [hdiv]
      exact ⟨fun h => absurd rfl h, fun h => absurd h hle⟩
  unfold expand64 signExtend
  by_cases hle : 2 ^ 31 ≤ n
  · rw [if_pos (hbit.mpr hle), if_pos hle, Nat.or_comm,
      show 2 ^ 64 - 2 ^ 32 = 2 ^ 32 * (2 ^ 32 - 1) from rfl, ← Nat.two_pow_add_eq_or_of_lt h,
      Nat.add_comm]
  · rw [if_neg fun h => hle (hbit.mp h), if_neg hle]

theorem getDword_at {mem : List UInt8} {p i n : Nat} (h : At mem (p + i * 4) (dword n))
    (hn : n < 2 ^ 32) : getDword mem p i = some (signExtend n) := by
  rw [getDword, todword_at h hn, Option.map_some, expand64_eq hn]

/-! ## Calls -/

/-- A call of the callback for a field or for an element of an array, whose index is not 0. -/
inductive Event where
  | number (tag index : Nat) (v : UInt64)
  | string (tag index : Nat) (bytes : List UInt8)
  | struct (tag index : Nat) (events : List Event)

/-- A callback that notes what it is called with, and decodes structs. -/
def collect (decode : Nat → List UInt8 → Option (List Event × Int)) :
    DecodeCallback (List Event) := fun ud args =>
  match args.value with
  | .number v => some (ud ++ [.number args.tagid args.index v], 0)
  | .bytes value =>
    if args.type = .struct then do
      let (events, r) ← decode args.subtype value
      if r < 0 ∨ r ≠ value.length then some (ud, r)
      else some (ud ++ [.struct args.tagid args.index events], 0)
    else some (ud ++ [.string args.tagid args.index value], 0)

/-- `sproto_decode` with this callback, for structs that are nested at most `n` deep. -/
def decodeStruct (types : Nat → SprotoType) : Nat → Nat → List UInt8 → Option (List Event × Int)
  | 0, _, _ => some ([], -1)
  | n + 1, st, bytes =>
    sprotoDecode (collect (decodeStruct types n)) (types st) bytes bytes.length []

section Events

variable (sub : Nat → Fields → List Event)

def event (f : Field) (index : Nat) : Value → Event
  | .string s => .string f.tag index s
  | .struct fields => .struct f.tag index (sub f.st fields)
  | v => .number f.tag index (UInt64.ofNat (numberOf v))

/-- The elements from `index` on. -/
def elementEvents (f : Field) : Nat → List Value → List Event
  | _, [] => []
  | index, v :: rest => event sub f index v :: elementEvents f (index + 1) rest

def fieldEvents (f : Field) (vs : List Value) : List Event :=
  if f.array then elementEvents sub f 1 vs
  else
    match vs with
    | [] => []
    | v :: _ => [event sub f 0 v]

end Events

/-- What is present of a struct, in the order of the tags. -/
def structEvents (types : Nat → SprotoType) : Nat → Nat → Fields → List Event
  | 0, _, _ => []
  | n + 1, st, fields =>
    (types st).f.flatMap fun f => fieldEvents (structEvents types n) f (given fields f.tag)

/-! ## Fields -/

/-- One of the bytes at an offset. -/
theorem At.single {mem : List UInt8} {p : Nat} {bytes : List UInt8} (h : At mem p bytes) {k : Nat}
    {b : UInt8} (hk : bytes[k]? = some b) : At mem (p + k) [b] := by
  obtain ⟨hlt, rfl⟩ := List.getElem?_eq_some_iff.mp hk
  have hsplit : bytes = bytes.take k ++ ([bytes[k]] ++ bytes.drop (k + 1)) := by
    rw [List.singleton_append, ← List.drop_eq_getElem_cons hlt, List.take_append_drop]
  have hlen : (bytes.take k).length = k := by
    rw [List.length_take]
    omega
  rw [hsplit] at h
  have hright := h.right.left
  rw [hlen] at hright
  exact hright

/-- `decode` makes the calls for the structs that are nested at most `n` deep. -/
def Decodes (types : Nat → SprotoType) (decode : Nat → List UInt8 → Option (List Event × Int))
    (sub : Nat → Fields → List UInt8) (events : Nat → Fields → List Event) (n : Nat) : Prop :=
  ∀ st fields, HasKind types n .struct st (.struct fields) → (sub st fields).length < 2 ^ 31 →
    decode st (sub st fields) = some (events st fields, ((sub st fields).length : Int))

/-- The arguments for an element of a field. -/
def argOf (f : Field) (index : Nat) : DecodeArg :=
  ⟨f.name, f.tag, f.kind, f.st, .number 0, index, f.key⟩

section Collect

variable {types : Nat → SprotoType} {decode : Nat → List UInt8 → Option (List Event × Int)}
variable {sub : Nat → Fields → List UInt8} {events : Nat → Fields → List Event} {n : Nat}
variable {mem : List UInt8} {f : Field}

theorem cbBytes_event (hdecode : Decodes types decode sub events n) {v : Value}
    (hv : HasKind types n f.kind f.st v) (hkind : f.kind = .string ∨ f.kind = .struct) {p : Nat}
    (h : At mem p (bodyBytes sub f.st v)) (hmem : mem.length < 2 ^ 31) (index : Nat)
    (ud : List Event) :
    cbBytes (collect decode) mem (argOf f index) p (toInt (bodyBytes sub f.st v).length) ud =
      some (ud ++ [event events f index v], 0) := by
  have hle := h.le
  have hlen : toInt (bodyBytes sub f.st v).length = (bodyBytes sub f.st v).length :=
    toInt_of_lt (by omega)
  rw [cbBytes, hlen, if_neg (by omega), Int.toNat_natCast, h.read rfl, Option.bind_some]
  rcases hkind with hkind | hkind
  · rw [hkind] at hv
    cases hv with
    | string s =>
        have hnot : ¬ f.kind = .struct := by
          rw [hkind]
          decide
        exact if_neg hnot
  · have hst := hv
    rw [hkind] at hst
    cases hst with
    | @struct m _ fields kinds single =>
        rw [hkind] at hv
        have hok := hdecode f.st fields hv (show (sub f.st fields).length < 2 ^ 31 from by
          exact Nat.lt_of_le_of_lt (Nat.le_of_add_left_le hle) hmem)
        show (if f.kind = .struct then _ else _) = _
        rw [if_pos hkind]
        show ((decode f.st (sub f.st fields)).bind _) = _
        rw [hok, Option.bind_some]
        exact if_neg (by
          show ¬ (((sub f.st fields).length : Int) < 0 ∨
            ((sub f.st fields).length : Int) ≠ (sub f.st fields).length)
          omega)

theorem cbNumber_event {v : Value} (hv : IsInteger v ∨ ∃ b, v = .boolean b) (index : Nat)
    (ud : List Event) :
    cbNumber (collect decode) (argOf f index) (numberOf v) ud =
      some (ud ++ [event events f index v]) := by
  rcases hv with (⟨m, rfl⟩ | ⟨m, rfl⟩) | ⟨b, rfl⟩
  · rfl
  · rfl
  · rfl

theorem uint32OfInt_natCast {k : Nat} (h : k < 2 ^ 31) : uint32OfInt k = k := by
  unfold uint32OfInt
  omega

theorem decodeArrayObject_events (hdecode : Decodes types decode sub events n)
    (hkind : f.kind = .string ∨ f.kind = .struct) {vs : List Value}
    (hvs : ∀ v ∈ vs, HasKind types n f.kind f.st v) (hmem : mem.length < 2 ^ 31) {p fuel : Nat}
    (h : At mem p (vs.flatMap fun v => sized (bodyBytes sub f.st v)))
    (hfuel : (vs.flatMap fun v => sized (bodyBytes sub f.st v)).length < fuel) (i index : Nat)
    (ud : List Event) :
    decodeArrayObject (collect decode) mem (argOf f i) fuel index p
      (vs.flatMap fun v => sized (bodyBytes sub f.st v)).length ud =
        some (ud ++ elementEvents events f index vs, 0) := by
  induction vs generalizing p fuel index ud with
  | nil =>
      obtain ⟨fuel, rfl⟩ := Nat.exists_eq_add_one_of_ne_zero (Nat.ne_zero_of_lt hfuel)
      rw [elementEvents, List.append_nil]
      rfl
  | cons v rest ih =>
      obtain ⟨fuel, rfl⟩ := Nat.exists_eq_add_one_of_ne_zero (Nat.ne_zero_of_lt hfuel)
      have hsized := length_sized (bodyBytes sub f.st v)
      rw [List.flatMap_cons] at h hfuel ⊢
      have hle := h.le
      rw [List.length_append, hsized] at hle hfuel ⊢
      have hrest := h.right
      rw [hsized] at hrest
      have hlength : todword mem p = some (bodyBytes sub f.st v).length :=
        todword_at h.left.left (by omega)
      have hbody : At mem (p + 4) (bodyBytes sub f.st v) := by
        have hright := h.left.right
        rw [length_dword] at hright
        exact hright
      have hcall := cbBytes_event hdecode (hvs v List.mem_cons_self) hkind hbody hmem index ud
      generalize htail : (rest.flatMap fun v => sized (bodyBytes sub f.st v)) = tail at *
      have hsz : ((4 + (bodyBytes sub f.st v).length + tail.length : Nat) : Int) - 4 =
          ((bodyBytes sub f.st v).length + tail.length : Nat) := by
        omega
      have hleft : toInt (uint32OfInt ((((bodyBytes sub f.st v).length + tail.length : Nat) : Int) -
          (bodyBytes sub f.st v).length)) = tail.length := by
        rw [show (((bodyBytes sub f.st v).length + tail.length : Nat) : Int) -
          (bodyBytes sub f.st v).length = tail.length by omega, uint32OfInt_natCast (by omega)]
        exact toInt_of_lt (by omega)
      rw [decodeArrayObject, if_pos (by omega), if_neg (by omega), hlength]
      dsimp only [Option.bind_eq_bind, Option.bind_some]
      rw [hsz, uint32OfInt_natCast (by omega), if_neg (by omega)]
      show (cbBytes (collect decode) mem (argOf f index) (p + 4) _ ud).bind _ = _
      rw [hcall, Option.bind_some]
      dsimp only
      rw [if_neg fun h => h rfl, hleft]
      have hnext := ih (fun w hw => hvs w (List.mem_cons_of_mem _ hw)) hrest
        (show tail.length < fuel by omega) (index + 1) (ud ++ [event events f index v])
      rw [← Nat.add_assoc, List.append_assoc ud] at hnext
      exact hnext

/-- The numbers of an array, which `get` reads. -/
theorem decodeNumbers_events {get : Nat → Option Nat} {vs : List Value}
    (hvs : ∀ v ∈ vs, IsInteger v ∨ ∃ b, v = .boolean b) {i : Nat}
    (hget : ∀ k v, vs[k]? = some v → get (i + k) = some (numberOf v)) (index : Nat)
    (ud : List Event) :
    decodeNumbers (collect decode) (argOf f index) get vs.length i ud =
      some (ud ++ elementEvents events f (i + 1) vs) := by
  induction vs generalizing i ud with
  | nil =>
      rw [elementEvents, List.append_nil]
      rfl
  | cons v rest ih =>
      have hfirst := hget 0 v rfl
      have hcall := @cbNumber_event decode events f v (hvs v List.mem_cons_self) (i + 1) ud
      have hnext := ih (fun w hw => hvs w (List.mem_cons_of_mem _ hw)) (i := i + 1)
        (fun k w hk => by
          rw [Nat.add_assoc, Nat.add_comm 1]
          exact hget (k + 1) w hk) (ud ++ [event events f (i + 1) v])
      rw [List.append_assoc ud] at hnext
      rw [List.length_cons, decodeNumbers, show get i = _ from hfirst]
      dsimp only [Option.bind_eq_bind, Option.bind_some]
      show (cbNumber (collect decode) (argOf f (i + 1)) (numberOf v) ud).bind _ = _
      rw [hcall, Option.bind_some]
      exact hnext

theorem numbers_at {width : Nat} {vs : List Value} {p : Nat} (h : At mem p (numbers width vs))
    {k : Nat} {v : Value} (hk : vs[k]? = some v) :
    At mem (p + k * width) (LittleEndian.encode width (numberOf v)) := by
  induction vs generalizing p k with
  | nil => cases hk
  | cons w rest ih =>
      have hsplit : numbers width (w :: rest) =
          LittleEndian.encode width (numberOf w) ++ numbers width rest := List.flatMap_cons
      rw [hsplit] at h
      cases k with
      | zero =>
          rw [Nat.zero_mul, Nat.add_zero, ← Option.some.inj hk]
          exact h.left
      | succ k =>
          have hrest := ih h.right hk
          rw [LittleEndian.length_encode] at hrest
          rw [Nat.succ_mul, Nat.add_comm (k * width), ← Nat.add_assoc]
          exact hrest

theorem numberOf_lt {v : Value} (hv : IsInteger v) : numberOf v < 2 ^ 64 := by
  rcases hv with ⟨m, rfl⟩ | ⟨m, rfl⟩
  · have hlt := m.toNat_lt
    show signExtend m.toNat < 2 ^ 64
    unfold signExtend
    split
    · omega
    · omega
  · exact m.toNat_lt

theorem decodeIntegers_events {vs : List Value} (hvs : ∀ v ∈ vs, IsInteger v) {p : Nat}
    (h : At mem p (sized (integerBytes vs))) (hmem : mem.length < 2 ^ 31)
    (hkind : f.kind = .integer) (index : Nat) (ud : List Event) :
    decodeArray (collect decode) mem (argOf f index) p ud =
      some (ud ++ elementEvents events f 1 vs, 0) := by
  have hle := h.le
  have hlen := length_numbers (width vs) vs
  have hcons : (integerBytes vs).length = width vs * vs.length + 1 := by
    rw [integerBytes, List.length_cons, hlen]
  rw [length_sized, hcons] at hle
  have hsz : todword mem p = some (width vs * vs.length + 1) := by
    rw [← hcons]
    exact todword_at h.left (by omega)
  have hbody : At mem (p + 4) ([UInt8.ofNat (width vs)] ++ numbers (width vs) vs) := by
    have hright := h.right
    rw [length_dword] at hright
    exact hright
  have hwidth : getByte mem (p + 4) 0 = some (width vs) := by
    have hbyte := @getByte_at mem (p + 4) 0 (UInt8.ofNat (width vs)) hbody.left
    rw [hbyte]
    rcases width_eq vs with hw | hw
    · rw [hw]
      rfl
    · rw [hw]
      rfl
  have hnumbers : At mem (p + 4 + 1) (numbers (width vs) vs) := hbody.right
  have hsub : width vs * vs.length + 1 - 1 = width vs * vs.length := Nat.add_sub_cancel ..
  unfold decodeArray
  rw [hsz]
  dsimp only [Option.bind_eq_bind, Option.bind_some]
  rw [show (argOf f index).type = .integer from hkind]
  dsimp only
  rw [if_neg (by omega), hwidth, Option.bind_some, hsub]
  rcases width_eq vs with hw | hw
  · rw [hw] at hnumbers ⊢
    have hget : ∀ k v, vs[k]? = some v →
        getDword mem (p + 4 + 1) (0 + k) = some (numberOf v) := by
      intro k v hk
      have hat := numbers_at hnumbers hk
      obtain ⟨m, rfl⟩ := dword_of_width hvs hw v (List.mem_of_getElem? hk)
      have hlow : LittleEndian.encode 4 (numberOf (.dword m)) = dword m.toNat :=
        encode_signExtend_low m.toNat
      rw [hlow] at hat
      rw [Nat.zero_add]
      exact getDword_at hat m.toNat_lt
    rw [if_pos rfl, if_neg fun h => h (Nat.mul_mod_right 4 _),
      Nat.mul_div_cancel_left _ (by decide),
      @decodeNumbers_events decode events f _ vs (fun v hv => .inl (hvs v hv)) 0 hget]
    rfl
  · rw [hw] at hnumbers ⊢
    have hget : ∀ k v, vs[k]? = some v →
        getQword mem (p + 4 + 1 + (0 + k) * 8) = some (numberOf v) := by
      intro k v hk
      rw [Nat.zero_add]
      exact getQword_at (numbers_at hnumbers hk) (numberOf_lt (hvs v (List.mem_of_getElem? hk)))
    rw [if_neg (by decide), if_pos rfl, if_neg fun h => h (Nat.mul_mod_right 8 _),
      Nat.mul_div_cancel_left _ (by decide),
      @decodeNumbers_events decode events f _ vs (fun v hv => .inl (hvs v hv)) 0 hget]
    rfl

theorem decodeBooleans_events {vs : List Value} (hvs : ∀ v ∈ vs, ∃ b, v = .boolean b) {p : Nat}
    (h : At mem p (sized (vs.map fun v => UInt8.ofNat (numberOf v)))) (hmem : mem.length < 2 ^ 31)
    (hkind : f.kind = .boolean) (index : Nat) (ud : List Event) :
    decodeArray (collect decode) mem (argOf f index) p ud =
      some (ud ++ elementEvents events f 1 vs, 0) := by
  have hle := h.le
  rw [length_sized, List.length_map] at hle
  have hsz : todword mem p = some vs.length := by
    have hsize := todword_at h.left (by rw [List.length_map]; omega)
    rw [List.length_map] at hsize
    exact hsize
  have hbody := h.right
  rw [length_dword] at hbody
  have hget : ∀ k v, vs[k]? = some v → getByte mem (p + 4) (0 + k) = some (numberOf v) := by
    intro k v hk
    have hbyte : (vs.map fun v => UInt8.ofNat (numberOf v))[k]? =
        some (UInt8.ofNat (numberOf v)) := by
      rw [List.getElem?_map, hk]
      rfl
    obtain ⟨b, rfl⟩ := hvs v (List.mem_of_getElem? hk)
    rw [Nat.zero_add, getByte_at (hbody.single hbyte)]
    cases b
    · rfl
    · rfl
  unfold decodeArray
  rw [hsz]
  dsimp only [Option.bind_eq_bind, Option.bind_some]
  rw [show (argOf f index).type = .boolean from hkind]
  dsimp only
  rw [@decodeNumbers_events decode events f _ vs (fun v hv => .inr (hvs v hv)) 0 hget]
  rfl

theorem decodeArray_events (hdecode : Decodes types decode sub events n) {vs : List Value}
    (hvs : ∀ v ∈ vs, HasKind types n f.kind f.st v) {p : Nat}
    (h : At mem p (sized (arrayBytes sub f vs))) (hmem : mem.length < 2 ^ 31) (index : Nat)
    (ud : List Event) :
    decodeArray (collect decode) mem (argOf f index) p ud =
      some (ud ++ elementEvents events f 1 vs, 0) := by
  have hobject (hkind : f.kind = .string ∨ f.kind = .struct)
      (hbytes : arrayBytes sub f vs = vs.flatMap fun v => sized (bodyBytes sub f.st v)) :
      decodeArrayObject (collect decode) mem (argOf f index) ((arrayBytes sub f vs).length + 1) 1
        (p + 4) (toInt (arrayBytes sub f vs).length) ud =
          some (ud ++ elementEvents events f 1 vs, 0) := by
    have hle := h.le
    have hbody := h.right
    rw [length_sized] at hle
    rw [length_dword, hbytes] at hbody
    rw [toInt_of_lt (by omega), hbytes]
    exact decodeArrayObject_events hdecode hkind hvs hmem hbody (Nat.lt_succ_self _) index 1 ud
  have hsz : todword mem p = some (arrayBytes sub f vs).length := by
    have hle := h.le
    rw [length_sized] at hle
    exact todword_at h.left (by omega)
  cases hkind : f.kind with
  | integer =>
      rw [hkind] at hvs
      have hbytes : arrayBytes sub f vs = integerBytes vs := by rw [arrayBytes, hkind]
      rw [hbytes] at h
      exact decodeIntegers_events (fun v hv => (hvs v hv).isInteger) h hmem hkind index ud
  | boolean =>
      rw [hkind] at hvs
      have hbytes : arrayBytes sub f vs = vs.map fun v => UInt8.ofNat (numberOf v) := by
        rw [arrayBytes, hkind]
      rw [hbytes] at h
      exact decodeBooleans_events (fun v hv => (hvs v hv).isBoolean) h hmem hkind index ud
  | string =>
      have hbytes : arrayBytes sub f vs = vs.flatMap fun v => sized (bodyBytes sub f.st v) := by
        rw [arrayBytes, hkind]
      rw [decodeArray, hsz]
      dsimp only [Option.bind_eq_bind, Option.bind_some]
      rw [show (argOf f index).type = .string from hkind]
      exact hobject (.inl hkind) hbytes
  | struct =>
      have hbytes : arrayBytes sub f vs = vs.flatMap fun v => sized (bodyBytes sub f.st v) := by
        rw [arrayBytes, hkind]
      rw [decodeArray, hsz]
      dsimp only [Option.bind_eq_bind, Option.bind_some]
      rw [show (argOf f index).type = .struct from hkind]
      exact hobject (.inr hkind) hbytes

end Collect

end Jump.Skynet.Sproto
