import Jump.Skynet.Sproto.Wire
import Mathlib.Algebra.Ring.Nat

/-! # What the encoder writes for a value -/

namespace Jump.Skynet.Sproto

open Jump.Core

/-- How a step of the encoder ends, by the room there is for it. -/
def Ends {α : Type} (x : Except Halt α) (space : Space) (failed : α → Prop)
    (done : Nat → α → Prop) : Prop :=
  match space with
  | .overrun => x = .error .outside
  | .full => ∃ a, x = .ok a ∧ failed a
  | .left room => ∃ a, x = .ok a ∧ done room a

theorem Ends.bind {α β : Type} {x : Except Halt α} {f : α → Except Halt β} {space : Space}
    {g : Nat → Space} {failed : α → Prop} {failed' : β → Prop} {done : Nat → α → Prop}
    {done' : Nat → β → Prop} (hx : Ends x space failed done)
    (hfailed : ∀ a, failed a → ∃ b, f a = .ok b ∧ failed' b)
    (hdone : ∀ room a, done room a → Ends (f a) (g room) failed' done') :
    Ends (x >>= f) (space.bind g) failed' done' := by
  cases space with
  | overrun =>
      have hx' : x = .error .outside := hx
      rw [hx']
      rfl
  | full =>
      obtain ⟨a, rfl, ha⟩ := hx
      exact hfailed a ha
  | left room =>
      obtain ⟨a, rfl, ha⟩ := hx
      exact hdone room a ha

theorem Ends.imp {α : Type} {x : Except Halt α} {space : Space} {failed failed' : α → Prop}
    {done done' : Nat → α → Prop} (hx : Ends x space failed done)
    (hfailed : ∀ a, failed a → failed' a) (hdone : ∀ room a, done room a → done' room a) :
    Ends x space failed' done' := by
  cases space with
  | overrun => exact hx
  | full =>
      obtain ⟨a, ha, hfail⟩ := hx
      exact ⟨a, ha, hfailed a hfail⟩
  | left room =>
      obtain ⟨a, ha, hleft⟩ := hx
      exact ⟨a, ha, hdone room a hleft⟩

/-- A step that needs no more room. -/
theorem Ends.map {α β : Type} {x : Except Halt α} {f : α → Except Halt β} {space : Space}
    {failed : α → Prop} {failed' : β → Prop} {done : Nat → α → Prop} {done' : Nat → β → Prop}
    (hx : Ends x space failed done) (hfailed : ∀ a, failed a → ∃ b, f a = .ok b ∧ failed' b)
    (hdone : ∀ room a, done room a → ∃ b, f a = .ok b ∧ done' room b) :
    Ends (x >>= f) space failed' done' := by
  cases space with
  | overrun =>
      have hx' : x = .error .outside := hx
      rw [hx']
      rfl
  | full =>
      obtain ⟨a, rfl, ha⟩ := hx
      exact hfailed a ha
  | left room =>
      obtain ⟨a, rfl, ha⟩ := hx
      exact hdone room a ha

/-- The bytes from `p` to the end of the buffer. -/
structure Room (d : Buffer) (p room : Nat) : Prop where
  total : (p : Int) + room = d.size
  size_lt : d.size < 2 ^ 31

theorem Room.after {d d' : Buffer} {p room left : Nat} {bytes : List UInt8} (h : Room d p room)
    (hput : Buffer.Put d p bytes d') (hleft : left + bytes.length = room) :
    Room d' (p + bytes.length) left :=
  ⟨by rw [hput.size, ← h.total]; omega, by rw [hput.size]; exact h.size_lt⟩

theorem Room.skip {d : Buffer} {p room : Nat} (h : Room d p room) {k : Nat} (hk : k ≤ room) :
    Room d (p + k) (room - k) :=
  ⟨by rw [← h.total]; omega, h.size_lt⟩

theorem Room.from {d d' : Buffer} {p q room : Nat} (h : Room d p room)
    (hfrom : Buffer.From q d d') : Room d' p room :=
  ⟨by rw [hfrom.size]; exact h.total, by rw [hfrom.size]; exact h.size_lt⟩

/-- The unsigned size is the room. -/
theorem Room.sizeOfInt {d : Buffer} {p room : Nat} (h : Room d p room) :
    sizeOfInt room = room := by
  have htotal := h.total
  have hlt := h.size_lt
  unfold Core.sizeOfInt
  omega

theorem write_put {d : Buffer} {p : Nat} {bytes : List UInt8}
    (h : (p + bytes.length : Int) ≤ d.size) :
    ∃ d', write d p bytes = .ok d' ∧ Buffer.Put d p bytes d' ∧
      ∀ i, p + bytes.length ≤ i → d'.bytes i = d.bytes i := by
  obtain ⟨d', hput, hfrom, hslice, habove⟩ := Buffer.putAll_spec h
  exact ⟨d', by rw [write, hput], ⟨hfrom, hslice⟩, habove⟩

theorem write_outside {d : Buffer} {p : Nat} {bytes : List UInt8} (hpos : bytes ≠ [])
    (h : d.size < (p + bytes.length : Int)) : write d p bytes = .error .outside := by
  rw [write, Buffer.putAll_none hpos h]

theorem length_dword (n : Nat) : (dword n).length = 4 := LittleEndian.length_encode ..

theorem length_sized (bytes : List UInt8) : (sized bytes).length = 4 + bytes.length := by
  rw [sized, List.length_append, length_dword]

/-- Something is written in front of what is there. -/
theorem write_front {d d' : Buffer} {p : Nat} {front body : List UInt8}
    (hput : Buffer.Put d (p + front.length) body d') (hroom : (p + front.length : Int) ≤ d.size) :
    ∃ d'', write d' p front = .ok d'' ∧ Buffer.Put d p (front ++ body) d'' ∧
      ∀ i, p + front.length ≤ i → d''.bytes i = d'.bytes i := by
  obtain ⟨d'', hwrite, hfront, habove⟩ := @write_put d' p front (by rw [hput.size]; exact hroom)
  refine ⟨d'', hwrite, ⟨(hput.rest.mono (Nat.le_add_right _ _)).trans hfront.rest, ?_⟩, habove⟩
  rw [List.length_append, Buffer.slice_add, hfront.slice,
    Buffer.slice_of_eq fun i hi _ => habove i hi, hput.slice]

/-- The size is written in front of the data. -/
theorem fillSize_put {d d' : Buffer} {data : Nat} {body : List UInt8} {sz : Int}
    (hput : Buffer.Put d (data + 4) body d') (hroom : (data + 4 : Int) ≤ d.size)
    (hsz : sz = body.length) :
    ∃ d'', fillSize d' data sz = .ok (sz + 4, d'') ∧ Buffer.Put d data (sized body) d'' := by
  have hlen := length_dword body.length
  obtain ⟨d'', hwrite, hfront, -⟩ := @write_front d d' data (dword body.length) body
    (by rw [hlen]; exact hput) (by rw [hlen]; exact hroom)
  refine ⟨d'', ?_, hfront⟩
  rw [fillSize, hsz, Int.toNat_natCast]
  show (write d' data (dword body.length)).bind _ = _
  rw [hwrite]
  rfl

/-- The bytes of a value, behind which `left` are left. -/
structure Wrote (d : Buffer) (p room : Nat) (bytes : List UInt8) (left : Nat)
    (r : Int × Buffer) : Prop where
  sz : r.1 = bytes.length
  put : Buffer.Put d p bytes r.2
  left : left + bytes.length = room

theorem encodeNumber_ends {d : Buffer} {data room : Nat} (h : Room d data room) (width v : Nat) :
    Ends (encodeNumber width v d data room)
      (if room < 4 + width then .full else .left (room - (4 + width))) (·.1 < 0)
      (Wrote d data room (sized (LittleEndian.encode width v))) := by
  have hlen : (LittleEndian.encode width v).length = width := LittleEndian.length_encode ..
  unfold encodeNumber
  rw [h.sizeOfInt]
  by_cases hfull : room < 4 + width
  · rw [if_pos hfull, if_pos hfull]
    exact ⟨_, rfl, Int.negSucc_lt_zero 0⟩
  rw [if_neg hfull, if_neg hfull]
  have htotal := h.total
  obtain ⟨d₁, hwrite, hbody, -⟩ := @write_put d (data + 4) (LittleEndian.encode width v)
    (by rw [hlen]; push_cast; omega)
  obtain ⟨d₂, hfill, hput⟩ := @fillSize_put d d₁ data (LittleEndian.encode width v) width hbody
    (by omega) (by rw [hlen])
  refine ⟨_, by rw [hwrite]; exact hfill, ?_, hput, ?_⟩
  · rw [length_sized, hlen]
    push_cast
    omega
  · rw [length_sized, hlen]
    omega

/-! ## Replies of the callback -/

section Give

variable {encode : Nat → Fields → Buffer → Nat → Int → Except Halt (Int × Buffer)}
variable {sub : Nat → Fields → List UInt8} {space : Nat → Fields → Nat → Space}
variable {types : Nat → SprotoType} {n : Nat}

/-- `encode` writes the structs that are nested at most `n` deep. -/
def Encodes (types : Nat → SprotoType)
    (encode : Nat → Fields → Buffer → Nat → Int → Except Halt (Int × Buffer))
    (sub : Nat → Fields → List UInt8) (space : Nat → Fields → Nat → Space) (n : Nat) : Prop :=
  ∀ st fields, HasKind types n .struct st (.struct fields) → ∀ (d : Buffer) (p room : Nat),
    Room d p room → sub st fields ≠ [] ∧
      Ends (encode st fields d p room) (space st fields room) (·.1 < 0)
        (Wrote d p room (sub st fields))

/-- The size of the null string is 1. -/
def bonus (kind : Kind) : Nat := if kind = .string then 1 else 0

/-- A string or a struct is written where the callback is told to. -/
theorem reply_ends (hencode : Encodes types encode sub space n) {kind : Kind} {st : Nat} {v : Value}
    (hv : HasKind types n kind st v) (hkind : kind = .string ∨ kind = .struct) {d : Buffer}
    {p room : Nat} (h : Room d p room) {args : Arg} (hsub : args.subtype = st)
    (hvalue : args.value = .buffer p) (hlength : args.length = room) :
    Ends (reply encode args d v) (bodySpace space st room v) (fun r => r.sz < 0)
      (fun left r => r.sz = (bodyBytes sub st v).length + bonus kind ∧ 0 < r.sz ∧
        Wrote d p room (bodyBytes sub st v) left ((bodyBytes sub st v).length, r.d)) := by
  cases hv with
  | dword v => exact (hkind.elim Kind.noConfusion Kind.noConfusion)
  | qword v => exact (hkind.elim Kind.noConfusion Kind.noConfusion)
  | boolean b => exact (hkind.elim Kind.noConfusion Kind.noConfusion)
  | string s =>
      simp only [reply, hvalue, hlength, bodySpace, bodyBytes]
      by_cases hfull : room < s.length
      · rw [if_pos (Int.ofNat_lt.mpr hfull), if_pos hfull]
        exact ⟨_, rfl, Int.negSucc_lt_zero 0⟩
      · rw [if_neg fun hlt => hfull (Int.ofNat_lt.mp hlt), if_neg hfull]
        have htotal := h.total
        obtain ⟨d', hwrite, hput, -⟩ := @write_put d p s (by omega)
        refine ⟨_, by rw [hwrite]; rfl, rfl, ?_, rfl, hput, ?_⟩
        · show (0 : Int) < s.length + 1
          omega
        · omega
  | @struct m st fields kinds single =>
      simp only [reply, hvalue, hlength, hsub, bodySpace, bodyBytes]
      obtain ⟨hpos, hends⟩ := hencode st fields (.struct kinds single) d p room h
      refine hends.map (fun r hr => ⟨_, rfl, hr⟩) fun left r hr =>
        ⟨_, rfl, ?_, ?_, rfl, hr.put, hr.left⟩
      · show r.1 = _ + 0
        rw [Int.add_zero]
        exact hr.sz
      · show 0 < r.1
        rw [hr.sz]
        exact Int.natCast_pos.mpr (List.length_pos_iff.mpr hpos)

theorem give_some {fields : Fields} {args : Arg} {v : Value} (d : Buffer)
    (h : (given fields args.tagid)[args.index - 1]? = some v) :
    give encode fields args d = reply encode args d v := by
  rw [give, h]

theorem give_none {fields : Fields} {args : Arg} (d : Buffer)
    (h : (given fields args.tagid)[args.index - 1]? = none) :
    give encode fields args d = .ok ⟨0, 0, d⟩ := by
  rw [give, h]

end Give

end Jump.Skynet.Sproto
