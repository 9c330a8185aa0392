import Jump.Skynet.Crypt.Des
import Mathlib.Data.Nat.Bitwise
import Mathlib.Tactic.IntervalCases

/-! # Hex and base64 texts of `lua-crypt.c`

Three bytes are four digits of base64, and the last digits of a text may stand for one or two. The
decoder passes over what is no digit, and so it takes several encoded texts in a row.
-/

namespace Jump.Skynet.Crypt

open Jump.Core

/-! ## Hex -/

def hexDigits : List UInt8 :=
  [ 0x30, 0x31, 0x32, 0x33, 0x34, 0x35, 0x36, 0x37,
    0x38, 0x39, 0x61, 0x62, 0x63, 0x64, 0x65, 0x66 ]

def hexencode (text : List UInt8) : M (List UInt8) :=
  if 2 ^ 30 < text.length then .fail .size
  else
    .ok (text.flatMap fun b : UInt8 =>
      [hexDigits.getD (b >>> 4).toNat 0, hexDigits.getD (b &&& 0xf).toNat 0])

/-- The macro `HEX`. -/
def hexValue (c : UInt8) : UInt8 := if 0x30 ≤ c ∧ c ≤ 0x39 then c - 0x30 else c - 0x61 + 10

/-- Two digits. The bound is 16, which is no digit. -/
def hexPair (c d : UInt8) : M UInt8 :=
  if hexValue c > 16 ∨ hexValue d > 16 then .fail (.error "Invalid hex text")
  else .ok ((hexValue c <<< 4) ||| hexValue d)

/-- A digit that is left over is read with the zero behind the string. -/
def hexLoop : List UInt8 → M (List UInt8)
  | [] => .ok []
  | [c] => do
      let b ← hexPair c 0
      .ok [b]
  | c :: d :: text => do
      let b ← hexPair c d
      let bytes ← hexLoop text
      .ok (b :: bytes)

/-- `lfromhex` -/
def hexdecode (text : List UInt8) : M (List UInt8) :=
  if text.length &&& 2 ≠ 0 then
    .fail (.error ("Invalid hex text size " ++ toString (toInt text.length)))
  else if 2 ^ 31 ≤ text.length then .fail .size
  else hexLoop text

/-! ## Base64 -/

def encoding : List UInt8 :=
  [ 0x41, 0x42, 0x43, 0x44, 0x45, 0x46, 0x47, 0x48, 0x49, 0x4a, 0x4b, 0x4c,
    0x4d, 0x4e, 0x4f, 0x50, 0x51, 0x52, 0x53, 0x54, 0x55, 0x56, 0x57, 0x58,
    0x59, 0x5a, 0x61, 0x62, 0x63, 0x64, 0x65, 0x66, 0x67, 0x68, 0x69, 0x6a,
    0x6b, 0x6c, 0x6d, 0x6e, 0x6f, 0x70, 0x71, 0x72, 0x73, 0x74, 0x75, 0x76,
    0x77, 0x78, 0x79, 0x7a, 0x30, 0x31, 0x32, 0x33, 0x34, 0x35, 0x36, 0x37,
    0x38, 0x39, 0x2b, 0x2f ]

def decoding : List Int :=
  [ 62, -1, -1, -1, 63, 52, 53, 54, 55, 56, 57, 58, 59, 60, 61, -1, -1, -1,
    -2, -1, -1, -1, 0, 1, 2, 3, 4, 5, 6, 7, 8, 9, 10, 11, 12, 13,
    14, 15, 16, 17, 18, 19, 20, 21, 22, 23, 24, 25, -1, -1, -1, -1, -1, -1,
    26, 27, 28, 29, 30, 31, 32, 33, 34, 35, 36, 37, 38, 39, 40, 41, 42, 43,
    44, 45, 46, 47, 48, 49, 50, 51 ]

/-- -1 is no digit, and -2 is `=`. -/
def b64index (c : UInt8) : Int :=
  if c < 43 then -1
  else if decoding.length ≤ (c - 43).toNat then -1
  else decoding.getD (c - 43).toNat (-1)

def digit (v : UInt32) : UInt8 := encoding.getD v.toNat 0

/-- The digits of one, two or three bytes. -/
def b64group : List UInt8 → List UInt8
  | [a] =>
      let v := a.toUInt32
      [digit (v >>> 2), digit ((v &&& 3) <<< 4), 0x3d, 0x3d]
  | [a, b] =>
      let v := a.toUInt32 <<< 8 ||| b.toUInt32
      [digit (v >>> 10), digit ((v >>> 4) &&& 0x3f), digit ((v &&& 0xf) <<< 2), 0x3d]
  | [a, b, c] =>
      let v := a.toUInt32 <<< 16 ||| b.toUInt32 <<< 8 ||| c.toUInt32
      [digit (v >>> 18), digit ((v >>> 12) &&& 0x3f), digit ((v >>> 6) &&& 0x3f),
        digit (v &&& 0x3f)]
  | _ => []

def b64chars : List UInt8 → List UInt8
  | a :: b :: c :: text => b64group [a, b, c] ++ b64chars text
  | text => b64group text

/-- `lb64encode` -/
def b64encode (text : List UInt8) : M (List UInt8) :=
  if 2 ^ 31 ≤ (text.length + 2) / 3 * 4 then .fail .size else .ok (b64chars text)

/-- The next digit and the text behind it. -/
def nextDigit : List UInt8 → M (Int × List UInt8)
  | [] => .fail (.error "Invalid base64 text")
  | c :: text => if b64index c = -1 then nextDigit text else .ok (b64index c, text)

/-- The bytes of four digits, of which the last ones may be padding. -/
def groupBytes (c₀ c₁ c₂ c₃ : Int) : M (List UInt8) :=
  let u (c : Int) : UInt32 := UInt32.ofNat c.toNat
  match [c₀, c₁, c₂, c₃].count (-2) with
  | 0 =>
      let v := u c₀ <<< 18 ||| u c₁ <<< 12 ||| u c₂ <<< 6 ||| u c₃
      .ok [(v >>> 16).toUInt8, (v >>> 8).toUInt8, v.toUInt8]
  | 1 =>
      if c₃ ≠ -2 ∨ u c₂ &&& 3 ≠ 0 then .fail (.error "Invalid base64 text")
      else
        let v := u c₀ <<< 10 ||| u c₁ <<< 4 ||| u c₂ >>> 2
        .ok [(v >>> 8).toUInt8, v.toUInt8]
  | 2 =>
      if c₃ ≠ -2 ∨ c₂ ≠ -2 ∨ u c₁ &&& 0xf ≠ 0 then .fail (.error "Invalid base64 text")
      else
        let v := u c₀ <<< 2 ||| u c₁ >>> 4
        .ok [v.toUInt8]
  | _ => .fail (.error "Invalid base64 text")

/-- The outer loop, which takes four digits in each round. -/
def b64Loop : Nat → List UInt8 → M (List UInt8)
  | _, [] => .ok []
  | 0, _ :: _ => .fail .endless
  | rounds + 1, c :: text => do
      let (c₀, rest) ← nextDigit (c :: text)
      let (c₁, rest) ← nextDigit rest
      let (c₂, rest) ← nextDigit rest
      let (c₃, rest) ← nextDigit rest
      let bytes ← groupBytes c₀ c₁ c₂ c₃
      let more ← b64Loop rounds rest
      .ok (bytes ++ more)

/-- `lb64decode` -/
def b64decode (text : List UInt8) : M (List UInt8) :=
  if 2 ^ 31 ≤ text.length then .fail .size else b64Loop text.length text

/-! ## Hex texts -/

theorem hexPair_encode (b : UInt8) :
    hexPair (hexDigits.getD (b >>> 4).toNat 0) (hexDigits.getD (b &&& 0xf).toNat 0) = .ok b := by
  have hall : ∀ n < 256, hexPair (hexDigits.getD (UInt8.ofNat n >>> 4).toNat 0)
      (hexDigits.getD (UInt8.ofNat n &&& 0xf).toNat 0) = .ok (UInt8.ofNat n) := by decide +kernel
  have hb := hall b.toNat b.toNat_lt
  rwa [UInt8.ofNat_toNat] at hb

theorem hexLoop_encode (text : List UInt8) :
    hexLoop (text.flatMap fun b : UInt8 =>
      [hexDigits.getD (b >>> 4).toNat 0, hexDigits.getD (b &&& 0xf).toNat 0]) = .ok text := by
  induction text with
  | nil => rfl
  | cons b text ih =>
      rw [List.flatMap_cons, List.cons_append, List.cons_append, List.nil_append, hexLoop,
        hexPair_encode, Outcome.ok_bind, ih, Outcome.ok_bind]

theorem and_two_ne_zero_iff (n : Nat) : n &&& 2 ≠ 0 ↔ n / 2 % 2 = 1 := by
  have hbit : n &&& 2 = (n.testBit 1).toNat * 2 := Nat.and_two_pow n 1
  rw [hbit, Nat.testBit_eq_decide_div_mod_eq]
  by_cases h : n / 2 ^ 1 % 2 = 1
  · simp_all
  · simp_all

/-- What passes for a digit: besides those of `hexencode` whatever is up to ten characters before
`a`, and `g`. -/
def PassesForHex (c : UInt8) : Prop := (0x30 ≤ c ∧ c ≤ 0x39) ∨ (0x57 ≤ c ∧ c ≤ 0x67)

instance (c : UInt8) : Decidable (PassesForHex c) := by
  unfold PassesForHex
  infer_instance

theorem passesForHex_iff (c : UInt8) : PassesForHex c ↔ ¬ hexValue c > 16 := by
  have hall : ∀ n < 256, PassesForHex (UInt8.ofNat n) ↔ ¬ hexValue (UInt8.ofNat n) > 16 := by
    decide +kernel
  have hc := hall c.toNat c.toNat_lt
  rwa [UInt8.ofNat_toNat] at hc

theorem hexPair_eq (c d : UInt8) :
    hexPair c d =
      if PassesForHex c ∧ PassesForHex d then .ok ((hexValue c <<< 4) ||| hexValue d)
      else .fail (.error "Invalid hex text") := by
  rw [hexPair]
  by_cases hc : hexValue c > 16
  · rw [if_pos (.inl hc), if_neg fun h => (passesForHex_iff c).mp h.1 hc]
  · by_cases hd : hexValue d > 16
    · rw [if_pos (.inr hd), if_neg fun h => (passesForHex_iff d).mp h.2 hd]
    · rw [if_neg (by tauto), if_pos ⟨(passesForHex_iff c).mpr hc, (passesForHex_iff d).mpr hd⟩]

theorem hexLoop_ok_iff (text : List UInt8) :
    (∃ bytes, hexLoop text = .ok bytes) ↔ text.length % 2 = 0 ∧ ∀ c ∈ text, PassesForHex c := by
  induction text using hexLoop.induct with
  | case1 => exact ⟨fun _ => ⟨rfl, nofun⟩, fun _ => ⟨[], rfl⟩⟩
  | case2 c =>
      have hzero : ¬ PassesForHex 0 := by decide
      rw [hexLoop, hexPair_eq, if_neg fun h => hzero h.2]
      exact ⟨nofun, nofun⟩
  | case3 c d text ih =>
      rw [hexLoop, hexPair_eq, List.length_cons, List.length_cons, Nat.add_assoc, Nat.add_mod_right]
      simp only [List.forall_mem_cons]
      by_cases hpair : PassesForHex c ∧ PassesForHex d
      · rw [if_pos hpair, Outcome.ok_bind]
        constructor
        · intro ⟨bytes, hbytes⟩
          cases hrest : hexLoop text with
          | ok rest =>
              have hdigits := ih.mp ⟨rest, hrest⟩
              exact ⟨hdigits.1, hpair.1, hpair.2, hdigits.2⟩
          | stuck =>
              rw [hrest] at hbytes
              cases hbytes
          | fail e =>
              rw [hrest] at hbytes
              cases hbytes
        · intro hall
          obtain ⟨rest, hrest⟩ := ih.mpr ⟨hall.1, hall.2.2.2⟩
          rw [hrest]
          exact ⟨_, rfl⟩
      · rw [if_neg hpair]
        exact ⟨nofun, fun h => absurd ⟨h.2.1, h.2.2.1⟩ hpair⟩

/-- The texts that `hexdecode` takes. -/
theorem hexdecode_ok_iff {text : List UInt8} (h : text.length < 2 ^ 31) :
    (∃ bytes, hexdecode text = .ok bytes) ↔
      text.length % 4 = 0 ∧ ∀ c ∈ text, PassesForHex c := by
  have hand := and_two_ne_zero_iff text.length
  rw [hexdecode]
  by_cases htwo : text.length / 2 % 2 = 1
  · rw [if_pos (hand.mpr htwo)]
    exact ⟨nofun, fun hfour => by omega⟩
  · have hiff := hexLoop_ok_iff text
    rw [if_neg (hand.not.mpr htwo), if_neg (by omega), hiff]
    exact ⟨fun hdigits => ⟨by omega, hdigits.2⟩, fun hdigits => ⟨by omega, hdigits.2⟩⟩

/-- The digits of an odd number of bytes are refused. -/
theorem hexdecode_hexencode {text : List UInt8} (h : text.length < 2 ^ 30) :
    ∃ hex, hexencode text = .ok hex ∧
      hexdecode hex =
        if text.length % 2 = 0 then .ok text
        else .fail (.error ("Invalid hex text size " ++ toString (2 * text.length))) := by
  refine ⟨_, if_neg (by omega), ?_⟩
  have hlen : (text.flatMap fun b : UInt8 =>
      [hexDigits.getD (b >>> 4).toNat 0, hexDigits.getD (b &&& 0xf).toNat 0]).length =
      2 * text.length := by
    rw [List.length_flatMap]
    simp [Nat.mul_comm]
  have hand := and_two_ne_zero_iff (2 * text.length)
  rw [hexdecode, hlen, hexLoop_encode]
  by_cases heven : text.length % 2 = 0
  · rw [if_neg (hand.not.mpr (by omega)), if_neg (by omega), if_pos heven]
  · have hint : toInt (2 * text.length) = ((2 * text.length : Nat) : Int) :=
      toInt_of_lt (by omega)
    rw [if_pos (hand.mpr (by omega)), if_neg heven, hint]
    rfl

/-- A text comes back when it has an even number of bytes, and more characters than the digits are
taken for digits. -/
theorem hexdecode_exact (text : List UInt8) (h : text.length < 2 ^ 30) :
    (∃ hex, hexencode text = .ok hex ∧ (hexdecode hex = .ok text ↔ text.length % 2 = 0)) ∧
      ((∃ bytes, hexdecode text = .ok bytes) ↔
        text.length % 4 = 0 ∧ ∀ c ∈ text, PassesForHex c) := by
  refine ⟨?_, hexdecode_ok_iff (by omega)⟩
  obtain ⟨hex, henc, hdec⟩ := hexdecode_hexencode h
  refine ⟨hex, henc, ?_⟩
  rw [hdec]
  by_cases heven : text.length % 2 = 0
  · simp [heven]
  · rw [if_neg heven]
    exact ⟨nofun, fun h => absurd h heven⟩

theorem hexdecode_exact_sample :
    (∃ hex, hexencode [0x4a, 0x75, 0x6d, 0x70] = .ok hex ∧
        (hexdecode hex = .ok [0x4a, 0x75, 0x6d, 0x70] ↔
          ([0x4a, 0x75, 0x6d, 0x70] : List UInt8).length % 2 = 0)) ∧
      ((∃ bytes, hexdecode [0x4a, 0x75, 0x6d, 0x70] = .ok bytes) ↔
        ([0x4a, 0x75, 0x6d, 0x70] : List UInt8).length % 4 = 0 ∧
          ∀ c ∈ ([0x4a, 0x75, 0x6d, 0x70] : List UInt8), PassesForHex c) :=
  hexdecode_exact [0x4a, 0x75, 0x6d, 0x70] (by decide)

/-! ## Digits of base64 -/

theorem b64index_cases (c : UInt8) :
    b64index c = -1 ∨ (b64index c = -2 ∧ c = 0x3d) ∨
      ∃ n < 64, b64index c = (n : Nat) ∧ encoding.getD n 0 = c := by
  have hall : ∀ n < 256, b64index (UInt8.ofNat n) = -1 ∨
      (b64index (UInt8.ofNat n) = -2 ∧ UInt8.ofNat n = 0x3d) ∨
      ∃ m < 64, b64index (UInt8.ofNat n) = (m : Nat) ∧ encoding.getD m 0 = UInt8.ofNat n := by
    decide +kernel
  have hc := hall c.toNat c.toNat_lt
  rwa [UInt8.ofNat_toNat] at hc

/-- A word put together from parts that do not meet. -/
theorem toNat_shiftLeft_or {x y k : UInt32} (hk : k.toNat < 32)
    (hx : x.toNat * 2 ^ k.toNat < 2 ^ 32) (hy : y.toNat < 2 ^ k.toNat) :
    (x <<< k ||| y).toNat = x.toNat * 2 ^ k.toNat + y.toNat := by
  rw [UInt32.toNat_or, UInt32.toNat_shiftLeft, Nat.mod_eq_of_lt hk, Nat.shiftLeft_eq,
    Nat.mod_eq_of_lt hx, Nat.mul_comm, Nat.two_pow_add_eq_or_of_lt hy]

theorem toNat_shiftRight_of_lt {x k : UInt32} (hk : k.toNat < 32) :
    (x >>> k).toNat = x.toNat / 2 ^ k.toNat := by
  rw [UInt32.toNat_shiftRight, Nat.mod_eq_of_lt hk, Nat.shiftRight_eq_div_pow]

theorem toNat_shiftLeft_of_lt {x k : UInt32} (hk : k.toNat < 32)
    (hx : x.toNat * 2 ^ k.toNat < 2 ^ 32) : (x <<< k).toNat = x.toNat * 2 ^ k.toNat := by
  rw [UInt32.toNat_shiftLeft, Nat.mod_eq_of_lt hk, Nat.shiftLeft_eq, Nat.mod_eq_of_lt hx]

theorem toNat_and_mask {x mask : UInt32} {n : Nat} (h : mask.toNat = 2 ^ n - 1) :
    (x &&& mask).toNat = x.toNat % 2 ^ n := by
  rw [UInt32.toNat_and, h, Nat.and_two_pow_sub_one_eq_mod]

theorem toNat_two_bytes (a b : UInt8) :
    (a.toUInt32 <<< 8 ||| b.toUInt32).toNat = a.toNat * 256 + b.toNat := by
  have ha := a.toNat_lt
  have hb := b.toNat_lt
  have hor := toNat_shiftLeft_or (x := a.toUInt32) (y := b.toUInt32) (k := 8) (by decide)
    (by simp; omega) (by simp; omega)
  simpa using hor

theorem toNat_three_bytes (a b c : UInt8) :
    (a.toUInt32 <<< 16 ||| b.toUInt32 <<< 8 ||| c.toUInt32).toNat =
      a.toNat * 65536 + b.toNat * 256 + c.toNat := by
  have ha := a.toNat_lt
  have hb := b.toNat_lt
  have hc := c.toNat_lt
  have hlow := toNat_two_bytes b c
  have hor := toNat_shiftLeft_or (x := a.toUInt32) (y := b.toUInt32 <<< 8 ||| c.toUInt32) (k := 16)
    (by decide) (by simp; omega) (by rw [hlow]; simp; omega)
  rw [UInt32.or_assoc, hor, hlow, Nat.add_assoc]
  simp

/-! ## Groups of four digits -/

abbrev letter (n : Nat) : UInt8 := encoding.getD n 0

theorem b64group_one (a : UInt8) :
    b64group [a] = [letter (a.toNat / 4), letter (a.toNat % 4 * 16), 0x3d, 0x3d] := by
  have ha := a.toNat_lt
  have hhigh : (a.toUInt32 >>> 2).toNat = a.toNat / 4 :=
    (toNat_shiftRight_of_lt (by decide)).trans (by simp)
  have hmask : (a.toUInt32 &&& 3).toNat = a.toNat % 4 :=
    (toNat_and_mask (n := 2) (by decide)).trans (by simp)
  have hlow : ((a.toUInt32 &&& 3) <<< 4).toNat = a.toNat % 4 * 16 :=
    (toNat_shiftLeft_of_lt (by decide) (by rw [hmask]; simp; omega)).trans (by rw [hmask]; rfl)
  simp only [b64group, digit, hhigh, hlow]

theorem b64group_two (a b : UInt8) :
    b64group [a, b] =
      [letter ((a.toNat * 256 + b.toNat) / 1024), letter ((a.toNat * 256 + b.toNat) / 16 % 64),
        letter ((a.toNat * 256 + b.toNat) % 16 * 4), 0x3d] := by
  have hword := toNat_two_bytes a b
  simp only [b64group, digit]
  generalize a.toUInt32 <<< 8 ||| b.toUInt32 = v at hword
  have hhigh : (v >>> 10).toNat = v.toNat / 1024 := toNat_shiftRight_of_lt (by decide)
  have hmid : ((v >>> 4) &&& 0x3f).toNat = v.toNat / 16 % 64 :=
    (toNat_and_mask (n := 6) (by decide)).trans
      (congrArg (· % 64) (toNat_shiftRight_of_lt (by decide)))
  have hmask : (v &&& 0xf).toNat = v.toNat % 16 := toNat_and_mask (n := 4) (by decide)
  have hlow : ((v &&& 0xf) <<< 2).toNat = v.toNat % 16 * 4 :=
    (toNat_shiftLeft_of_lt (by decide) (by rw [hmask]; simp; omega)).trans (by rw [hmask]; rfl)
  rw [hhigh, hmid, hlow, hword]

theorem b64group_three (a b c : UInt8) :
    b64group [a, b, c] =
      [letter ((a.toNat * 65536 + b.toNat * 256 + c.toNat) / 262144),
        letter ((a.toNat * 65536 + b.toNat * 256 + c.toNat) / 4096 % 64),
        letter ((a.toNat * 65536 + b.toNat * 256 + c.toNat) / 64 % 64),
        letter ((a.toNat * 65536 + b.toNat * 256 + c.toNat) % 64)] := by
  have hword := toNat_three_bytes a b c
  simp only [b64group, digit]
  generalize a.toUInt32 <<< 16 ||| b.toUInt32 <<< 8 ||| c.toUInt32 = v at hword
  have hfirst : (v >>> 18).toNat = v.toNat / 262144 := toNat_shiftRight_of_lt (by decide)
  have hsecond : ((v >>> 12) &&& 0x3f).toNat = v.toNat / 4096 % 64 :=
    (toNat_and_mask (n := 6) (by decide)).trans
      (congrArg (· % 64) (toNat_shiftRight_of_lt (by decide)))
  have hthird : ((v >>> 6) &&& 0x3f).toNat = v.toNat / 64 % 64 :=
    (toNat_and_mask (n := 6) (by decide)).trans
      (congrArg (· % 64) (toNat_shiftRight_of_lt (by decide)))
  have hlast : (v &&& 0x3f).toNat = v.toNat % 64 := toNat_and_mask (n := 6) (by decide)
  rw [hfirst, hsecond, hthird, hlast, hword]

theorem toNat_ofNat_digit {n : Nat} (h : n < 64) : (UInt32.ofNat n).toNat = n := by
  rw [UInt32.toNat_ofNat']
  exact Nat.mod_eq_of_lt (by omega)

theorem toUInt8_eq {v : UInt32} {n : Nat} (h : v.toNat = n) : v.toUInt8 = UInt8.ofNat n := by
  apply UInt8.toNat_inj.mp
  rw [UInt32.toNat_toUInt8, h, UInt8.toNat_ofNat']

variable {n₀ n₁ n₂ n₃ : Nat}

theorem groupBytes_four (h₀ : n₀ < 64) (h₁ : n₁ < 64) (h₂ : n₂ < 64) (h₃ : n₃ < 64) :
    groupBytes n₀ n₁ n₂ n₃ =
      .ok [UInt8.ofNat ((n₀ * 262144 + n₁ * 4096 + n₂ * 64 + n₃) / 65536),
        UInt8.ofNat ((n₀ * 262144 + n₁ * 4096 + n₂ * 64 + n₃) / 256),
        UInt8.ofNat (n₀ * 262144 + n₁ * 4096 + n₂ * 64 + n₃)] := by
  have hcount : ([(n₀ : Int), n₁, n₂, n₃] : List Int).count (-2) = 0 := by
    rw [List.count_eq_zero]
    simp
  have hlow := toNat_shiftLeft_or (x := UInt32.ofNat n₂) (y := UInt32.ofNat n₃) (k := 6)
    (by decide) (by rw [toNat_ofNat_digit h₂]; simp; omega)
    (by rw [toNat_ofNat_digit h₃]; simp; omega)
  rw [toNat_ofNat_digit h₂, toNat_ofNat_digit h₃, show (6 : UInt32).toNat = 6 from rfl] at hlow
  have hmid := toNat_shiftLeft_or (x := UInt32.ofNat n₁)
    (y := UInt32.ofNat n₂ <<< 6 ||| UInt32.ofNat n₃) (k := 12)
    (by decide) (by rw [toNat_ofNat_digit h₁]; simp; omega) (by rw [hlow]; simp; omega)
  rw [toNat_ofNat_digit h₁, hlow, show (12 : UInt32).toNat = 12 from rfl] at hmid
  have hall := toNat_shiftLeft_or (x := UInt32.ofNat n₀)
    (y := UInt32.ofNat n₁ <<< 12 ||| (UInt32.ofNat n₂ <<< 6 ||| UInt32.ofNat n₃)) (k := 18)
    (by decide) (by rw [toNat_ofNat_digit h₀]; simp; omega) (by rw [hmid]; simp; omega)
  rw [toNat_ofNat_digit h₀, hmid, show (18 : UInt32).toNat = 18 from rfl] at hall
  have hword : (UInt32.ofNat n₀ <<< 18 ||| UInt32.ofNat n₁ <<< 12 ||| UInt32.ofNat n₂ <<< 6 |||
      UInt32.ofNat n₃).toNat = n₀ * 262144 + n₁ * 4096 + n₂ * 64 + n₃ := by
    rw [UInt32.or_assoc, UInt32.or_assoc, hall]
    omega
  unfold groupBytes
  rw [hcount]
  simp only [Int.toNat_natCast]
  generalize UInt32.ofNat n₀ <<< 18 ||| UInt32.ofNat n₁ <<< 12 ||| UInt32.ofNat n₂ <<< 6 |||
    UInt32.ofNat n₃ = v at hword
  have hhigh : (v >>> 16).toNat = v.toNat / 65536 := toNat_shiftRight_of_lt (by decide)
  have hmiddle : (v >>> 8).toNat = v.toNat / 256 := toNat_shiftRight_of_lt (by decide)
  rw [toUInt8_eq (hhigh.trans (congrArg (· / 65536) hword)),
    toUInt8_eq (hmiddle.trans (congrArg (· / 256) hword)), toUInt8_eq hword]

theorem and_ne_zero_iff {n k : Nat} (mask : UInt32) (h : n < 64)
    (hmask : mask.toNat = 2 ^ k - 1) :
    UInt32.ofNat n &&& mask ≠ 0 ↔ n % 2 ^ k ≠ 0 := by
  rw [Ne, ← UInt32.toNat_inj, toNat_and_mask hmask, toNat_ofNat_digit h]
  rfl

theorem groupBytes_three (h₀ : n₀ < 64) (h₁ : n₁ < 64) (h₂ : n₂ < 64) :
    groupBytes n₀ n₁ n₂ (-2) =
      if n₂ % 4 = 0 then
        .ok [UInt8.ofNat ((n₀ * 1024 + n₁ * 16 + n₂ / 4) / 256),
          UInt8.ofNat (n₀ * 1024 + n₁ * 16 + n₂ / 4)]
      else .fail (.error "Invalid base64 text") := by
  have hcount : ([(n₀ : Int), n₁, n₂, -2] : List Int).count (-2) = 1 := by
    rw [List.count_cons_of_ne (by omega), List.count_cons_of_ne (by omega),
      List.count_cons_of_ne (by omega)]
    rfl
  have hlow : (UInt32.ofNat n₂ >>> 2).toNat = n₂ / 4 :=
    (toNat_shiftRight_of_lt (by decide)).trans (by rw [toNat_ofNat_digit h₂]; rfl)
  have hmid := toNat_shiftLeft_or (x := UInt32.ofNat n₁) (y := UInt32.ofNat n₂ >>> 2) (k := 4)
    (by decide) (by rw [toNat_ofNat_digit h₁]; simp; omega) (by rw [hlow]; simp; omega)
  rw [toNat_ofNat_digit h₁, hlow, show (4 : UInt32).toNat = 4 from rfl] at hmid
  have hall := toNat_shiftLeft_or (x := UInt32.ofNat n₀)
    (y := UInt32.ofNat n₁ <<< 4 ||| UInt32.ofNat n₂ >>> 2) (k := 10)
    (by decide) (by rw [toNat_ofNat_digit h₀]; simp; omega) (by rw [hmid]; simp; omega)
  rw [toNat_ofNat_digit h₀, hmid, show (10 : UInt32).toNat = 10 from rfl] at hall
  have hword : (UInt32.ofNat n₀ <<< 10 ||| UInt32.ofNat n₁ <<< 4 ||| UInt32.ofNat n₂ >>> 2).toNat =
      n₀ * 1024 + n₁ * 16 + n₂ / 4 := by
    rw [UInt32.or_assoc, hall]
    omega
  have hbits := and_ne_zero_iff (k := 2) 3 h₂ (by decide)
  unfold groupBytes
  rw [hcount]
  simp only [Int.toNat_natCast]
  generalize UInt32.ofNat n₀ <<< 10 ||| UInt32.ofNat n₁ <<< 4 ||| UInt32.ofNat n₂ >>> 2 = v at hword
  have hhigh : (v >>> 8).toNat = v.toNat / 256 := toNat_shiftRight_of_lt (by decide)
  rw [toUInt8_eq (hhigh.trans (congrArg (· / 256) hword)), toUInt8_eq hword]
  by_cases hzero : n₂ % 4 = 0
  · rw [if_pos hzero, if_neg]
    rintro (hne | hne)
    · exact hne rfl
    · exact hbits.mp hne hzero
  · rw [if_neg hzero, if_pos (.inr (hbits.mpr hzero))]

theorem groupBytes_two (h₀ : n₀ < 64) (h₁ : n₁ < 64) :
    groupBytes n₀ n₁ (-2) (-2) =
      if n₁ % 16 = 0 then .ok [UInt8.ofNat (n₀ * 4 + n₁ / 16)]
      else .fail (.error "Invalid base64 text") := by
  have hcount : ([(n₀ : Int), n₁, -2, -2] : List Int).count (-2) = 2 := by
    rw [List.count_cons_of_ne (by omega), List.count_cons_of_ne (by omega)]
    rfl
  have hlow : (UInt32.ofNat n₁ >>> 4).toNat = n₁ / 16 :=
    (toNat_shiftRight_of_lt (by decide)).trans (by rw [toNat_ofNat_digit h₁]; rfl)
  have hall := toNat_shiftLeft_or (x := UInt32.ofNat n₀) (y := UInt32.ofNat n₁ >>> 4) (k := 2)
    (by decide) (by rw [toNat_ofNat_digit h₀]; simp; omega) (by rw [hlow]; simp; omega)
  rw [toNat_ofNat_digit h₀, hlow, show 2 ^ (2 : UInt32).toNat = 4 from rfl] at hall
  have hbits := and_ne_zero_iff (k := 4) 0xf h₁ (by decide)
  unfold groupBytes
  rw [hcount]
  simp only [Int.toNat_natCast]
  rw [toUInt8_eq hall]
  by_cases hzero : n₁ % 16 = 0
  · rw [if_pos hzero, if_neg]
    rintro (hne | hne | hne)
    · exact hne rfl
    · exact hne rfl
    · exact hbits.mp hne hzero
  · rw [if_neg hzero, if_pos (.inr (.inr (hbits.mpr hzero)))]

/-- Padding is taken at the end of a group only, and not more than two of it. -/
theorem groupBytes_padding {i₀ i₁ i₂ i₃ : Int} {bytes : List UInt8}
    (h : groupBytes i₀ i₁ i₂ i₃ = .ok bytes) :
    i₀ ≠ -2 ∧ i₁ ≠ -2 ∧ (i₂ = -2 → i₃ = -2) := by
  by_cases h₀ : i₀ = -2 <;> by_cases h₁ : i₁ = -2 <;> by_cases h₂ : i₂ = -2 <;>
    by_cases h₃ : i₃ = -2 <;> simp [groupBytes, h₀, h₁, h₂, h₃] at h ⊢

/-- The number of a letter, or padding. -/
theorem exists_letter {c : UInt8} (h : b64index c ≠ -1) :
    (b64index c = -2 ∧ c = 0x3d) ∨ ∃ n < 64, b64index c = (n : Nat) ∧ letter n = c :=
  (b64index_cases c).resolve_left h

theorem b64index_letter {n : Nat} (h : n < 64) : b64index (letter n) = n := by
  have hall : ∀ n < 64, b64index (encoding.getD n 0) = n := by decide +kernel
  exact hall n h

theorem toNat_ofNat_byte {n : Nat} (h : n < 256) : (UInt8.ofNat n).toNat = n := by
  rw [UInt8.toNat_ofNat']
  exact Nat.mod_eq_of_lt h

theorem b64group_of_groupBytes {c₀ c₁ c₂ c₃ : UInt8} (h₀ : b64index c₀ ≠ -1)
    (h₁ : b64index c₁ ≠ -1) (h₂ : b64index c₂ ≠ -1) (h₃ : b64index c₃ ≠ -1)
    {bytes : List UInt8}
    (hok : groupBytes (b64index c₀) (b64index c₁) (b64index c₂) (b64index c₃) = .ok bytes) :
    b64group bytes = [c₀, c₁, c₂, c₃] := by
  obtain ⟨hpad₀, hpad₁, hpad⟩ := groupBytes_padding hok
  obtain ⟨n₀, hn₀, hi₀, rfl⟩ := (exists_letter h₀).resolve_left fun h => hpad₀ h.1
  obtain ⟨n₁, hn₁, hi₁, rfl⟩ := (exists_letter h₁).resolve_left fun h => hpad₁ h.1
  rcases exists_letter h₃ with ⟨hi₃, rfl⟩ | ⟨n₃, hn₃, hi₃, rfl⟩
  · rcases exists_letter h₂ with ⟨hi₂, rfl⟩ | ⟨n₂, hn₂, hi₂, rfl⟩
    · rw [hi₀, hi₁, hi₂, groupBytes_two hn₀ hn₁] at hok
      split at hok
      · obtain rfl := Outcome.ok.inj hok
        rw [b64group_one, toNat_ofNat_byte (by omega)]
        simp only [List.cons.injEq, and_true]
        exact ⟨congrArg letter (by omega), congrArg letter (by omega)⟩
      · cases hok
    · rw [hi₀, hi₁, hi₂, hi₃, groupBytes_three hn₀ hn₁ hn₂] at hok
      split at hok
      · obtain rfl := Outcome.ok.inj hok
        have hlow : (UInt8.ofNat (n₀ * 1024 + n₁ * 16 + n₂ / 4)).toNat =
            (n₀ * 1024 + n₁ * 16 + n₂ / 4) % 256 := UInt8.toNat_ofNat'
        rw [b64group_two, toNat_ofNat_byte (by omega), hlow]
        simp only [List.cons.injEq, and_true]
        exact ⟨congrArg letter (by omega), congrArg letter (by omega), congrArg letter (by omega)⟩
      · cases hok
  · obtain ⟨n₂, hn₂, hi₂, rfl⟩ := (exists_letter h₂).resolve_left fun h => by
      have := hpad h.1
      omega
    rw [hi₀, hi₁, hi₂, hi₃, groupBytes_four hn₀ hn₁ hn₂ hn₃] at hok
    obtain rfl := Outcome.ok.inj hok
    generalize hv : n₀ * 262144 + n₁ * 4096 + n₂ * 64 + n₃ = v
    have hmid : (UInt8.ofNat (v / 256)).toNat = v / 256 % 256 := UInt8.toNat_ofNat'
    have hlow : (UInt8.ofNat v).toNat = v % 256 := UInt8.toNat_ofNat'
    rw [b64group_three, toNat_ofNat_byte (by omega), hmid, hlow]
    simp only [List.cons.injEq, and_true]
    exact ⟨congrArg letter (by omega), congrArg letter (by omega), congrArg letter (by omega),
      congrArg letter (by omega)⟩

theorem groupBytes_of_b64group {c₀ c₁ c₂ c₃ : UInt8} {bytes : List UInt8}
    (h : b64group bytes = [c₀, c₁, c₂, c₃]) :
    groupBytes (b64index c₀) (b64index c₁) (b64index c₂) (b64index c₃) = .ok bytes := by
  have hpad : b64index 0x3d = -2 := by decide
  have hbyte : ∀ {n : Nat} {a : UInt8}, n % 256 = a.toNat → UInt8.ofNat n = a := by
    intro n a heq
    apply UInt8.toNat_inj.mp
    rw [UInt8.toNat_ofNat', heq]
  rcases bytes with _ | ⟨a, _ | ⟨b, _ | ⟨c, _ | ⟨d, rest⟩⟩⟩⟩
  · cases h
  · have ha := a.toNat_lt
    rw [b64group_one] at h
    obtain ⟨rfl, rfl, rfl, rfl⟩ := by simpa only [List.cons.injEq, and_true] using h
    rw [b64index_letter (by omega), b64index_letter (by omega), hpad,
      groupBytes_two (by omega) (by omega), if_pos (by omega), hbyte (a := a) (by omega)]
  · have ha := a.toNat_lt
    have hb := b.toNat_lt
    rw [b64group_two] at h
    obtain ⟨rfl, rfl, rfl, rfl⟩ := by simpa only [List.cons.injEq, and_true] using h
    rw [b64index_letter (by omega), b64index_letter (by omega), b64index_letter (by omega), hpad,
      groupBytes_three (by omega) (by omega) (by omega), if_pos (by omega),
      hbyte (a := a) (by omega), hbyte (a := b) (by omega)]
  · have ha := a.toNat_lt
    have hb := b.toNat_lt
    have hc := c.toNat_lt
    rw [b64group_three] at h
    obtain ⟨rfl, rfl, rfl, rfl⟩ := by simpa only [List.cons.injEq, and_true] using h
    rw [b64index_letter (by omega), b64index_letter (by omega), b64index_letter (by omega),
      b64index_letter (by omega), groupBytes_four (by omega) (by omega) (by omega) (by omega),
      hbyte (a := a) (by omega), hbyte (a := b) (by omega), hbyte (a := c) (by omega)]
  · cases h

/-! ## Whole texts -/

/-- The characters that are not passed over. -/
def b64digits (text : List UInt8) : List UInt8 := text.filter fun c => b64index c ≠ -1

/-- A text that does not end with a character that is passed over. -/
def Closed (text : List UInt8) : Prop := ∀ c ∈ text.getLast?, b64index c ≠ -1

theorem b64digits_cons {c : UInt8} (h : b64index c ≠ -1) (text : List UInt8) :
    b64digits (c :: text) = c :: b64digits text := List.filter_cons_of_pos (by simpa using h)

theorem b64digits_cons_of_skip {c : UInt8} (h : b64index c = -1) (text : List UInt8) :
    b64digits (c :: text) = b64digits text := List.filter_cons_of_neg (by simpa using h)

theorem Closed.tail {c : UInt8} {text : List UInt8} (h : Closed (c :: text)) : Closed text := by
  intro d hd
  refine h d ?_
  rw [List.getLast?_cons, Option.mem_def.mp hd]
  rfl

/-- The next digit is the first of the digits. -/
theorem nextDigit_eq {text digits : List UInt8} {c : UInt8} (h : b64digits text = c :: digits)
    (hclosed : Closed text) :
    ∃ rest, nextDigit text = .ok (b64index c, rest) ∧ b64digits rest = digits ∧
      Closed rest ∧ rest.length < text.length := by
  induction text with
  | nil => cases h
  | cons d text ih =>
      by_cases hd : b64index d = -1
      · rw [b64digits_cons_of_skip hd] at h
        obtain ⟨rest, hnext, hrest, hend, hlen⟩ := ih h hclosed.tail
        rw [nextDigit, if_pos hd]
        exact ⟨rest, hnext, hrest, hend, Nat.lt_succ_of_lt hlen⟩
      · rw [b64digits_cons hd] at h
        obtain ⟨rfl, hrest⟩ := List.cons.inj h
        rw [nextDigit, if_neg hd]
        exact ⟨text, rfl, hrest, hclosed.tail, Nat.lt_succ_self _⟩

theorem nextDigit_ok {text rest : List UInt8} {i : Int} (h : nextDigit text = .ok (i, rest)) :
    ∃ c, i = b64index c ∧ b64index c ≠ -1 ∧ b64digits text = c :: b64digits rest ∧
      (Closed rest → Closed text) ∧ rest.length < text.length := by
  induction text with
  | nil => cases h
  | cons d text ih =>
      rw [nextDigit] at h
      by_cases hd : b64index d = -1
      · rw [if_pos hd] at h
        obtain ⟨c, hi, hc, hdigits, hclosed, hlen⟩ := ih h
        have hpos : text ≠ [] := fun hnil => by simp [hnil] at hlen
        refine ⟨c, hi, hc, (b64digits_cons_of_skip hd text).trans hdigits, ?_,
          Nat.lt_succ_of_lt hlen⟩
        intro hrest e he
        rw [List.getLast?_cons_of_ne_nil hpos] at he
        exact hclosed hrest e he
      · rw [if_neg hd] at h
        obtain ⟨rfl, rfl⟩ := Prod.mk.inj (Outcome.ok.inj h)
        refine ⟨d, rfl, hd, b64digits_cons hd text, ?_, Nat.lt_succ_self _⟩
        intro hrest e he
        by_cases hnil : text = []
        · rw [hnil] at he
          obtain rfl := Option.some.inj he
          exact hd
        · rw [List.getLast?_cons_of_ne_nil hnil] at he
          exact hrest e he

theorem exists_four {g : List UInt8} (hpos : g ≠ []) (h : g.length ≤ 3) :
    ∃ c₀ c₁ c₂ c₃, b64group g = [c₀, c₁, c₂, c₃] := by
  rcases g with _ | ⟨a, _ | ⟨b, _ | ⟨c, _ | ⟨d, rest⟩⟩⟩⟩
  · exact absurd rfl hpos
  · exact ⟨_, _, _, _, rfl⟩
  · exact ⟨_, _, _, _, rfl⟩
  · exact ⟨_, _, _, _, rfl⟩
  · rw [List.length_cons, List.length_cons, List.length_cons, List.length_cons] at h
    omega

/-- The result of a call, taken apart. -/
theorem bind_eq_ok {α β : Type} {x : M α} {f : α → M β} {b : β} (h : (x >>= f) = .ok b) :
    ∃ a, x = .ok a ∧ f a = .ok b := by
  cases x with
  | ok a => exact ⟨a, rfl, h⟩
  | stuck => cases h
  | fail e => cases h

theorem b64Loop_of_groups {rounds : Nat} {text : List UInt8} (h : text.length ≤ rounds)
    (hclosed : Closed text) {groups : List (List UInt8)}
    (hgroups : ∀ g ∈ groups, g ≠ [] ∧ g.length ≤ 3)
    (hdigits : b64digits text = groups.flatMap b64group) :
    b64Loop rounds text = .ok groups.flatten := by
  induction rounds generalizing text groups with
  | zero =>
      obtain rfl : text = [] := List.eq_nil_of_length_eq_zero (by omega)
      cases groups with
      | nil => rfl
      | cons g groups =>
          obtain ⟨hpos, hlen⟩ := hgroups g List.mem_cons_self
          obtain ⟨c₀, c₁, c₂, c₃, hfour⟩ := exists_four hpos hlen
          rw [List.flatMap_cons, hfour] at hdigits
          cases hdigits
  | succ rounds ih =>
      cases groups with
      | nil =>
          rcases List.eq_nil_or_concat text with rfl | ⟨init, c, rfl⟩
          · rfl
          · have hc : b64index c ≠ -1 := hclosed c (by simp)
            have hmem : c ∈ b64digits (init.concat c) :=
              List.mem_filter.mpr ⟨by simp, by simpa using hc⟩
            rw [hdigits] at hmem
            cases hmem
      | cons g groups =>
          obtain ⟨hpos, hlen⟩ := hgroups g List.mem_cons_self
          obtain ⟨c₀, c₁, c₂, c₃, hfour⟩ := exists_four hpos hlen
          rw [List.flatMap_cons, hfour] at hdigits
          obtain ⟨rest₀, hnext₀, hdigits₀, hclosed₀, hlen₀⟩ := nextDigit_eq hdigits hclosed
          obtain ⟨rest₁, hnext₁, hdigits₁, hclosed₁, hlen₁⟩ := nextDigit_eq hdigits₀ hclosed₀
          obtain ⟨rest₂, hnext₂, hdigits₂, hclosed₂, hlen₂⟩ := nextDigit_eq hdigits₁ hclosed₁
          obtain ⟨rest₃, hnext₃, hdigits₃, hclosed₃, hlen₃⟩ := nextDigit_eq hdigits₂ hclosed₂
          have hmore := ih (by omega) hclosed₃
            (fun g' hg' => hgroups g' (List.mem_cons_of_mem _ hg')) hdigits₃
          cases text with
          | nil => simp at hlen₀
          | cons c text =>
              rw [b64Loop, hnext₀, Outcome.ok_bind]
              dsimp only
              rw [hnext₁, Outcome.ok_bind]
              dsimp only
              rw [hnext₂, Outcome.ok_bind]
              dsimp only
              rw [hnext₃, Outcome.ok_bind]
              dsimp only
              rw [groupBytes_of_b64group hfour, Outcome.ok_bind, hmore, Outcome.ok_bind,
                List.flatten_cons]

theorem groups_of_b64Loop {rounds : Nat} {text plain : List UInt8}
    (h : b64Loop rounds text = .ok plain) :
    Closed text ∧ ∃ groups : List (List UInt8), (∀ g ∈ groups, g ≠ [] ∧ g.length ≤ 3) ∧
      b64digits text = groups.flatMap b64group ∧ plain = groups.flatten := by
  induction rounds generalizing text plain with
  | zero =>
      cases text with
      | nil =>
          obtain rfl := Outcome.ok.inj h
          exact ⟨nofun, [], nofun, rfl, rfl⟩
      | cons c text => cases h
  | succ rounds ih =>
      cases text with
      | nil =>
          obtain rfl := Outcome.ok.inj h
          exact ⟨nofun, [], nofun, rfl, rfl⟩
      | cons c text =>
          rw [b64Loop] at h
          obtain ⟨⟨i₀, rest₀⟩, hnext₀, h⟩ := bind_eq_ok h
          obtain ⟨⟨i₁, rest₁⟩, hnext₁, h⟩ := bind_eq_ok h
          obtain ⟨⟨i₂, rest₂⟩, hnext₂, h⟩ := bind_eq_ok h
          obtain ⟨⟨i₃, rest₃⟩, hnext₃, h⟩ := bind_eq_ok h
          obtain ⟨bytes, hbytes, h⟩ := bind_eq_ok h
          obtain ⟨more, hmore, h⟩ := bind_eq_ok h
          obtain rfl := Outcome.ok.inj h
          obtain ⟨hclosed, groups, hgroups, hdigits, rfl⟩ := ih hmore
          obtain ⟨c₀, rfl, hc₀, hdigits₀, hclosed₀, -⟩ := nextDigit_ok hnext₀
          obtain ⟨c₁, rfl, hc₁, hdigits₁, hclosed₁, -⟩ := nextDigit_ok hnext₁
          obtain ⟨c₂, rfl, hc₂, hdigits₂, hclosed₂, -⟩ := nextDigit_ok hnext₂
          obtain ⟨c₃, rfl, hc₃, hdigits₃, hclosed₃, -⟩ := nextDigit_ok hnext₃
          have hgroup := b64group_of_groupBytes hc₀ hc₁ hc₂ hc₃ hbytes
          have hsize : bytes ≠ [] ∧ bytes.length ≤ 3 := by
            rcases bytes with _ | ⟨a, _ | ⟨b, _ | ⟨c, _ | ⟨d, rest⟩⟩⟩⟩
            · cases hgroup
            · simp
            · simp
            · simp
            · cases hgroup
          refine ⟨hclosed₀ (hclosed₁ (hclosed₂ (hclosed₃ hclosed))), bytes :: groups,
            List.forall_mem_cons.mpr ⟨hsize, hgroups⟩, ?_, rfl⟩
          rw [hdigits₀, hdigits₁, hdigits₂, hdigits₃, hdigits, List.flatMap_cons, hgroup]
          rfl

/-! ## What is taken -/

/-- The encoder works on groups of three bytes, of which the last one may be short. -/
theorem exists_groups (text : List UInt8) :
    ∃ groups : List (List UInt8), (∀ g ∈ groups, g ≠ [] ∧ g.length ≤ 3) ∧
      b64chars text = groups.flatMap b64group ∧ text = groups.flatten := by
  induction text using b64chars.induct with
  | case1 a b c text ih =>
      obtain ⟨groups, hgroups, hchars, hflat⟩ := ih
      refine ⟨[a, b, c] :: groups, List.forall_mem_cons.mpr ⟨by simp, hgroups⟩, ?_, ?_⟩
      · rw [b64chars, hchars, List.flatMap_cons]
      · rw [List.flatten_cons, ← hflat]
        rfl
  | case2 text hshort =>
      rcases text with _ | ⟨a, _ | ⟨b, _ | ⟨c, rest⟩⟩⟩
      · exact ⟨[], nofun, rfl, rfl⟩
      · exact ⟨[[a]], by simp, by simp [b64chars], rfl⟩
      · exact ⟨[[a, b]], by simp, by simp [b64chars], rfl⟩
      · exact absurd rfl (hshort a b c rest)

theorem exists_groups_of_pieces (pieces : List (List UInt8)) :
    ∃ groups : List (List UInt8), (∀ g ∈ groups, g ≠ [] ∧ g.length ≤ 3) ∧
      pieces.flatMap b64chars = groups.flatMap b64group ∧ pieces.flatten = groups.flatten := by
  induction pieces with
  | nil => exact ⟨[], nofun, rfl, rfl⟩
  | cons text pieces ih =>
      obtain ⟨groups, hgroups, hchars, hflat⟩ := ih
      obtain ⟨first, hfirst, hchars', hflat'⟩ := exists_groups text
      refine ⟨first ++ groups, List.forall_mem_append.mpr ⟨hfirst, hgroups⟩, ?_, ?_⟩
      · rw [List.flatMap_cons, hchars', hchars, List.flatMap_append]
      · rw [List.flatten_cons, List.flatten_append, hflat, ← hflat']

theorem b64chars_of_short {g : List UInt8} (h : g.length ≤ 3) : b64chars g = b64group g := by
  rcases g with _ | ⟨a, _ | ⟨b, _ | ⟨c, _ | ⟨d, rest⟩⟩⟩⟩
  · rfl
  · simp [b64chars]
  · simp [b64chars]
  · simp [b64chars, b64group]
  · rw [List.length_cons, List.length_cons, List.length_cons, List.length_cons] at h
    omega

theorem b64group_digits {g : List UInt8} (hpos : g ≠ []) (hlen : g.length ≤ 3) :
    (∀ c ∈ b64group g, b64index c ≠ -1) := by
  have hpad : b64index 0x3d ≠ -1 := by decide
  have hletter : ∀ {n : Nat}, n < 64 → b64index (letter n) ≠ -1 := by
    intro n hn
    rw [b64index_letter hn]
    omega
  rcases g with _ | ⟨a, _ | ⟨b, _ | ⟨c, _ | ⟨d, rest⟩⟩⟩⟩
  · exact absurd rfl hpos
  · have ha := a.toNat_lt
    rw [b64group_one]
    simp only [List.forall_mem_cons, List.not_mem_nil, IsEmpty.forall_iff, implies_true, and_true]
    exact ⟨hletter (by omega), hletter (by omega), hpad, hpad⟩
  · have ha := a.toNat_lt
    have hb := b.toNat_lt
    rw [b64group_two]
    simp only [List.forall_mem_cons, List.not_mem_nil, IsEmpty.forall_iff, implies_true, and_true]
    exact ⟨hletter (by omega), hletter (by omega), hletter (by omega), hpad⟩
  · have ha := a.toNat_lt
    have hb := b.toNat_lt
    have hc := c.toNat_lt
    rw [b64group_three]
    simp only [List.forall_mem_cons, List.not_mem_nil, IsEmpty.forall_iff, implies_true, and_true]
    exact ⟨hletter (by omega), hletter (by omega), hletter (by omega), hletter (by omega)⟩
  · rw [List.length_cons, List.length_cons, List.length_cons, List.length_cons] at hlen
    omega

theorem b64chars_digits (text : List UInt8) : ∀ c ∈ b64chars text, b64index c ≠ -1 := by
  obtain ⟨groups, hgroups, hchars, -⟩ := exists_groups text
  intro c hc
  rw [hchars] at hc
  obtain ⟨g, hg, hcg⟩ := List.mem_flatMap.mp hc
  exact b64group_digits (hgroups g hg).1 (hgroups g hg).2 c hcg

/-- The decoder takes the digits of several encoded texts in a row, with other characters anywhere
but at the end. -/
theorem b64decode_eq_ok_iff {text : List UInt8} (h : text.length < 2 ^ 31) (plain : List UInt8) :
    b64decode text = .ok plain ↔
      Closed text ∧ ∃ pieces : List (List UInt8), b64digits text = pieces.flatMap b64chars ∧
        plain = pieces.flatten := by
  rw [b64decode, if_neg (by omega)]
  constructor
  · intro hok
    obtain ⟨hclosed, groups, hgroups, hdigits, hplain⟩ := groups_of_b64Loop hok
    refine ⟨hclosed, groups, hdigits.trans ?_, hplain⟩
    refine List.flatMap_congr fun g hg => ?_
    exact (b64chars_of_short (hgroups g hg).2).symm
  · intro hpieces
    obtain ⟨hclosed, pieces, hdigits, rfl⟩ := hpieces
    obtain ⟨groups, hgroups, hchars, hflat⟩ := exists_groups_of_pieces pieces
    rw [hflat]
    exact b64Loop_of_groups (Nat.le_refl _) hclosed hgroups (hdigits.trans hchars)

theorem length_b64chars (text : List UInt8) :
    (b64chars text).length = (text.length + 2) / 3 * 4 := by
  induction text using b64chars.induct with
  | case1 a b c text ih =>
      rw [b64chars, List.length_append, ih, b64group_three]
      simp only [List.length_cons, List.length_nil]
      omega
  | case2 text hshort =>
      rcases text with _ | ⟨a, _ | ⟨b, _ | ⟨c, rest⟩⟩⟩
      · rfl
      · simp [b64chars, b64group_one]
      · simp [b64chars, b64group_two]
      · exact absurd rfl (hshort a b c rest)

theorem b64decode_b64encode {text code : List UInt8} (h : b64encode text = .ok code) :
    b64decode code = .ok text := by
  rw [b64encode] at h
  split at h
  · cases h
  · rename_i hsize
    obtain rfl := Outcome.ok.inj h
    have hlen := length_b64chars text
    refine (b64decode_eq_ok_iff (by omega) text).mpr ⟨?_, [text], ?_, ?_⟩
    · intro c hc
      exact b64chars_digits text c (List.mem_of_getLast? hc)
    · rw [List.flatMap_singleton, b64digits, List.filter_eq_self]
      intro c hc
      simpa using b64chars_digits text c hc
    · simp

/-- What was encoded comes back, and nothing else is taken than encoded texts in a row, with other
characters anywhere but at the end. -/
theorem b64decode_exact (text plain : List UInt8) (h : text.length < 2 ^ 31) :
    (b64encode plain = .ok text → b64decode text = .ok plain) ∧
      (b64decode text = .ok plain ↔
        Closed text ∧ ∃ pieces : List (List UInt8), b64digits text = pieces.flatMap b64chars ∧
          plain = pieces.flatten) :=
  ⟨b64decode_b64encode, b64decode_eq_ok_iff h plain⟩

theorem b64decode_exact_sample :
    (b64encode [0x4a, 0x75] = .ok [0x53, 0x6e, 0x55, 0x3d] →
        b64decode [0x53, 0x6e, 0x55, 0x3d] = .ok [0x4a, 0x75]) ∧
      (b64decode [0x53, 0x6e, 0x55, 0x3d] = .ok [0x4a, 0x75] ↔
        Closed [0x53, 0x6e, 0x55, 0x3d] ∧ ∃ pieces : List (List UInt8),
          b64digits [0x53, 0x6e, 0x55, 0x3d] = pieces.flatMap b64chars ∧
            [0x4a, 0x75] = pieces.flatten) :=
  b64decode_exact [0x53, 0x6e, 0x55, 0x3d] [0x4a, 0x75] (by decide)

end Jump.Skynet.Crypt
