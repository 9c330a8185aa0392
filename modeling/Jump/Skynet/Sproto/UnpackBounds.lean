import Jump.Skynet.Sproto.Unpack

/-! # Unpacking any input

What `sproto_unpack` makes of bytes that need not be the packed form of anything. It tests for the
end of the source with `srcsz < 0`, so that it takes one byte behind the end for there.
-/

namespace Jump.Skynet.Sproto

open Jump.Core

/-! ## Whole and cut segments -/

/-- How many of `bits` bits from `i` on are set. -/
def ones (header : UInt8) : Nat → Nat → Nat
  | 0, _ => 0
  | bits + 1, i => (if header.toNat.testBit i then 1 else 0) + ones header bits (i + 1)

/-- How many bits from `i` on come before the one that is set after `k` others. -/
def before (header : UInt8) : Nat → Nat → Nat → Nat
  | 0, _, _ => 0
  | bits + 1, i, k =>
    if header.toNat.testBit i then
      match k with
      | 0 => 0
      | k + 1 => before header bits (i + 1) k + 1
    else before header bits (i + 1) k + 1

/-- Whole segments, which stand for `n` bytes. -/
inductive Segments : List UInt8 → Nat → Prop
  | nil : Segments [] 0
  | plain {header : UInt8} {bytes rest : List UInt8} {n : Nat} (hplain : header ≠ 0xff)
      (hbytes : bytes.length = ones header 8 0) (h : Segments rest n) :
      Segments (header :: (bytes ++ rest)) (8 + n)
  | block {count : UInt8} {bytes rest : List UInt8} {n : Nat}
      (hbytes : bytes.length = (count.toNat + 1) * 8) (h : Segments rest n) :
      Segments (0xff :: count :: (bytes ++ rest)) ((count.toNat + 1) * 8 + n)

/-- The first bytes of a segment, but not all of them. -/
inductive Torn : List UInt8 → Prop
  | plain {header : UInt8} {bytes : List UInt8} (hplain : header ≠ 0xff)
      (hshort : bytes.length < ones header 8 0) : Torn (header :: bytes)
  | count : Torn [0xff]
  | block {count : UInt8} {bytes : List UInt8} (hshort : bytes.length < (count.toNat + 1) * 8) :
      Torn (0xff :: count :: bytes)

/-- The input is cut inside of a segment. -/
def Cut (src : List UInt8) : Prop :=
  ∃ whole part n, src = whole ++ part ∧ Segments whole n ∧ Torn part

/-- The state with `todo` before it and `n` bytes of output behind it. -/
structure Left (mem : List UInt8) (s : UnpackState) (todo : List UInt8) (n : Nat) : Prop where
  src : mem.drop s.src = todo
  srcsz : s.srcsz = todo.length
  room : s.buffer + s.bufsz = s.des.size
  space : 0 < s.bufsz → n + s.bufsz = s.des.size
  full : s.bufsz ≤ 0 → s.des.size ≤ n

section Loop

variable {mem todo bytes rest : List UInt8} {s : UnpackState} {header b : UInt8}
  {n bits i fuel : Nat}

theorem Left.head (hs : Left mem s (b :: todo) n) : mem[s.src]? = some b := by
  rw [← Nat.add_zero s.src, ← List.getElem?_drop, hs.src]
  rfl

theorem Left.last (hs : Left mem s [] n) : mem[s.src]? = none := by
  rw [← Nat.add_zero s.src, ← List.getElem?_drop, hs.src]
  rfl

theorem Left.tail (hs : Left mem s (b :: todo) n) :
    Left mem { s with src := s.src + 1, srcsz := s.srcsz - 1 } todo n := by
  have hsrcsz := hs.srcsz
  rw [List.length_cons] at hsrcsz
  refine ⟨?_, ?_, hs.room, hs.space, hs.full⟩
  · show mem.drop (s.src + 1) = _
    rw [← List.drop_drop, hs.src]
    rfl
  · show s.srcsz - 1 = _
    omega

theorem Left.emit (hs : Left mem s todo n) (b : UInt8) :
    ∃ s', s.emit b = .ok s' ∧ Left mem s' todo (n + 1) ∧ s'.des.size = s.des.size := by
  have hroom := hs.room
  have hspace := hs.space
  have hfull := hs.full
  unfold UnpackState.emit
  by_cases hpos : 0 < s.bufsz
  · obtain ⟨d, hput, hfrom, -⟩ := @Buffer.put_spec s.des s.buffer b (by omega)
    have hsize := hfrom.size
    rw [if_pos hpos, hput]
    refine ⟨_, rfl, ⟨hs.src, hs.srcsz, ?_, ?_, ?_⟩, hsize⟩
    · dsimp only
      omega
    · dsimp only
      omega
    · dsimp only
      omega
  · rw [if_neg hpos]
    refine ⟨_, rfl, ⟨hs.src, hs.srcsz, hroom, ?_, ?_⟩, rfl⟩
    · dsimp only
      omega
    · dsimp only
      omega

end Loop

end Jump.Skynet.Sproto
