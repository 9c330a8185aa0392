import Mathlib.Algebra.Order.Group.Nat
import Mathlib.Algebra.Ring.Int.Defs
import Mathlib.Algebra.Ring.Nat
import Mathlib.Data.Int.DivMod
import Mathlib.Data.List.Basic
import Mathlib.Data.List.Induction
import Mathlib.Logic.Function.Basic

/-! # Numbers in memory and in byte streams

A memory gives a byte for each address. A number of `width` bytes stands there, or in a list of
bytes, with its low byte first; in a stream it has its high byte first.
-/

/-! ## Memory -/

namespace Jump.Core.Bytes

abbrev Memory : Type := Nat → UInt8

def load (m : Memory) : Nat → Nat → Nat
  | 0, _ => 0
  | width + 1, p => (m p).toNat + 256 * load m width (p + 1)

def store (m : Memory) : Nat → Nat → Nat → Memory
  | 0, _, _ => m
  | width + 1, p, v => store (Function.update m p (UInt8.ofNat v)) width (p + 1) (v / 256)

/-- The bytes of `bytes`, and what is behind them. -/
def ofList (bytes : List UInt8) (behind : Memory) : Memory :=
  fun i => (bytes[i]?).getD (behind i)

def slice (m : Memory) (p len : Nat) : List UInt8 := (List.range len).map fun i => m (p + i)

variable {m m' : Memory} {width p v : Nat}

theorem load_shift {q : Nat} (h : ∀ i, i < width → m (p + i) = m' (q + i)) :
    load m width p = load m' width q := by
  induction width generalizing p q with
  | zero => rfl
  | succ width ih =>
      have hrest : load m width (p + 1) = load m' width (q + 1) := by
        apply ih
        intro i hi
        have hnext := h (i + 1) (by omega)
        rwa [← Nat.add_assoc, Nat.add_right_comm p, ← Nat.add_assoc, Nat.add_right_comm q] at hnext
      have hhead := h 0 (by omega)
      rw [load, load, hrest]
      rw [Nat.add_zero, Nat.add_zero] at hhead
      rw [hhead]

theorem load_congr (h : ∀ i, p ≤ i → i < p + width → m i = m' i) :
    load m width p = load m' width p :=
  load_shift fun i hi => h (p + i) (by omega) (by omega)

/-- Storing leaves the other addresses alone. -/
theorem store_frame {i : Nat} (h : i < p ∨ p + width ≤ i) : store m width p v i = m i := by
  induction width generalizing m p v with
  | zero => rfl
  | succ width ih =>
      rw [store, ih (by omega), Function.update_of_ne (by omega)]

theorem load_store_frame {width' q : Nat} (h : q + width' ≤ p ∨ p + width ≤ q) :
    load (store m width p v) width' q = load m width' q :=
  load_congr fun _ hi hi' => store_frame (by omega)

theorem load_store (m : Memory) (width p v : Nat) :
    load (store m width p v) width p = v % 256 ^ width := by
  induction width generalizing m p v with
  | zero => rw [Nat.pow_zero, Nat.mod_one]; rfl
  | succ width ih =>
      have hhead : (store (Function.update m p (UInt8.ofNat v)) width (p + 1) (v / 256)) p =
          UInt8.ofNat v := by
        rw [store_frame (by omega), Function.update_self]
      have hbyte : (UInt8.ofNat v).toNat = v % 256 := UInt8.toNat_ofNat'
      have hmod : v % (256 * 256 ^ width) = v % 256 + 256 * (v / 256 % 256 ^ width) :=
        Nat.mod_mul
      rw [load, store, hhead, ih, hbyte, Nat.pow_succ', hmod]

theorem ofList_append_right (head bytes : List UInt8) (behind : Memory) {i : Nat}
    (hi : i < bytes.length) :
    ofList (head ++ bytes) behind (head.length + i) = bytes[i] := by
  unfold ofList
  rw [List.getElem?_append_right (by omega), Nat.add_sub_cancel_left,
    List.getElem?_eq_getElem hi]
  rfl

theorem slice_length (m : Memory) (p len : Nat) : (slice m p len).length = len := by
  simp [slice]

theorem ofList_slice (m behind : Memory) (p : Nat) {len i : Nat} (hi : i < len) :
    ofList (slice m p len) behind i = m (p + i) := by
  simp [ofList, slice, List.getElem?_range hi]

end Jump.Core.Bytes

/-! ## The low byte first -/

namespace Jump.Core.LittleEndian

def encode : Nat → Nat → List UInt8
  | 0, _ => []
  | width + 1, n => UInt8.ofNat n :: encode width (n / 256)

def decode : List UInt8 → Nat
  | [] => 0
  | b :: bytes => b.toNat + 256 * decode bytes

/-- The two's complement reading of the same bytes. -/
def decodeSigned (bytes : List UInt8) : Int := Int.bmod (decode bytes) (256 ^ bytes.length)

theorem length_encode (width n : Nat) : (encode width n).length = width := by
  induction width generalizing n with
  | zero => rfl
  | succ width ih => rw [encode, List.length_cons, ih]

/-- The low bytes come first. -/
theorem encode_add (width width' n : Nat) :
    encode (width + width') n = encode width n ++ encode width' (n / 256 ^ width) := by
  induction width generalizing n with
  | zero => rw [Nat.zero_add, Nat.pow_zero, Nat.div_one]; rfl
  | succ width ih =>
      rw [Nat.succ_add, encode, encode, ih, Nat.div_div_eq_div_mul, ← Nat.pow_succ',
        List.cons_append]

theorem encode_mod (width n : Nat) : encode width (n % 256 ^ width) = encode width n := by
  induction width generalizing n with
  | zero => rfl
  | succ width ih =>
      have hlow : n % 256 ^ (width + 1) % 256 = n % 256 := by
        rw [Nat.pow_succ']
        exact Nat.mod_mul_right_mod n 256 _
      have hhigh : n % 256 ^ (width + 1) / 256 = n / 256 % 256 ^ width := by
        rw [Nat.pow_succ']
        exact Nat.mod_mul_right_div_self n 256 _
      have hbyte : UInt8.ofNat (n % 256 ^ (width + 1)) = UInt8.ofNat n := by
        apply UInt8.toNat_inj.mp
        rw [UInt8.toNat_ofNat', UInt8.toNat_ofNat']
        exact hlow
      rw [encode, encode, hbyte, hhigh, ih]

theorem decode_encode (width n : Nat) : decode (encode width n) = n % 256 ^ width := by
  induction width generalizing n with
  | zero => rw [Nat.pow_zero, Nat.mod_one]; rfl
  | succ width ih =>
      have hbyte : (UInt8.ofNat n).toNat = n % 256 := UInt8.toNat_ofNat'
      have hmod : n % (256 * 256 ^ width) = n % 256 + 256 * (n / 256 % 256 ^ width) :=
        Nat.mod_mul
      rw [encode, decode, ih, hbyte, Nat.pow_succ', hmod]

theorem decode_encode_of_lt {width n : Nat} (h : n < 256 ^ width) :
    decode (encode width n) = n := by
  rw [decode_encode, Nat.mod_eq_of_lt h]

theorem decode_lt (bytes : List UInt8) : decode bytes < 256 ^ bytes.length := by
  induction bytes with
  | nil => exact Nat.one_pos
  | cons b bytes ih =>
      have hbyte := b.toNat_lt
      rw [decode, List.length_cons, Nat.pow_succ]
      omega

theorem decodeSigned_encode (width n : Nat) :
    decodeSigned (encode width n) = Int.bmod n (256 ^ width) := by
  unfold decodeSigned
  rw [length_encode, decode_encode, Int.natCast_emod, Int.emod_bmod]

end Jump.Core.LittleEndian

/-! ## The high byte first -/

namespace Jump.Core.BigEndian

def encode : Nat → Nat → List UInt8
  | 0, _ => []
  | width + 1, n => encode width (n / 256) ++ [UInt8.ofNat n]

def decode (bytes : List UInt8) : Nat := bytes.foldl (fun n b => n * 256 + b.toNat) 0

theorem length_encode (width n : Nat) : (encode width n).length = width := by
  induction width generalizing n with
  | zero => rfl
  | succ width ih => rw [encode, List.length_append, ih, List.length_singleton]

/-- The high byte comes first. -/
theorem encode_succ (width n : Nat) :
    encode (width + 1) n = UInt8.ofNat (n / 256 ^ width) :: encode width n := by
  induction width generalizing n with
  | zero => rw [Nat.pow_zero, Nat.div_one]; rfl
  | succ width ih =>
      rw [encode, ih, Nat.div_div_eq_div_mul, ← Nat.pow_succ', List.cons_append]
      rfl

theorem decode_concat (bytes : List UInt8) (b : UInt8) :
    decode (bytes ++ [b]) = decode bytes * 256 + b.toNat := List.foldl_concat ..

theorem decode_encode (width n : Nat) : decode (encode width n) = n % 256 ^ width := by
  induction width generalizing n with
  | zero => rw [Nat.pow_zero, Nat.mod_one]; rfl
  | succ width ih =>
      have hbyte : (UInt8.ofNat n).toNat = n % 256 := UInt8.toNat_ofNat'
      have hmod : n % (256 * 256 ^ width) = n % 256 + 256 * (n / 256 % 256 ^ width) :=
        Nat.mod_mul
      rw [encode, decode_concat, ih, hbyte, Nat.pow_succ', hmod]
      omega

theorem decode_lt (bytes : List UInt8) : decode bytes < 256 ^ bytes.length := by
  induction bytes using List.reverseRecOn with
  | nil => exact Nat.one_pos
  | append_singleton bytes b ih =>
      have hbyte := b.toNat_lt
      rw [decode_concat, List.length_append, List.length_singleton, Nat.pow_succ]
      omega

end Jump.Core.BigEndian

/-! ## Numbers in the bytes of a list -/

namespace Jump.Core.Bytes

open LittleEndian

theorem ofList_set (bytes : List UInt8) (behind : Memory) {p : Nat} (hp : p < bytes.length)
    (b : UInt8) : Function.update (ofList bytes behind) p b = ofList (bytes.set p b) behind := by
  funext i
  unfold ofList
  by_cases hi : i = p
  · rw [hi, Function.update_self, List.getElem?_set_self hp]
    rfl
  · rw [Function.update_of_ne hi, List.getElem?_set_ne (Ne.symm hi)]

/-- A number is stored over some of the bytes. -/
theorem store_ofList (pre bytes rest : List UInt8) (behind : Memory) (v : Nat) :
    store (ofList (pre ++ (bytes ++ rest)) behind) bytes.length pre.length v =
      ofList (pre ++ (encode bytes.length v ++ rest)) behind := by
  induction bytes generalizing pre v with
  | nil => rfl
  | cons b bytes ih =>
      have hlt : pre.length < (pre ++ (b :: bytes ++ rest)).length := by
        simp only [List.length_append, List.length_cons]
        omega
      have hset : (pre ++ (b :: bytes ++ rest)).set pre.length (UInt8.ofNat v) =
          (pre ++ [UInt8.ofNat v]) ++ (bytes ++ rest) := by
        simp
      have hrest := ih (pre ++ [UInt8.ofNat v]) (v / 256)
      rw [List.length_append, List.length_singleton] at hrest
      rw [List.length_cons, store, ofList_set _ _ hlt, hset, hrest, encode]
      simp

/-- A number that some of the bytes stand for. -/
theorem load_ofList (pre bytes rest : List UInt8) (behind : Memory) :
    load (ofList (pre ++ (bytes ++ rest)) behind) bytes.length pre.length = decode bytes := by
  induction bytes generalizing pre with
  | nil => rfl
  | cons b bytes ih =>
      have hlt : 0 < (b :: bytes ++ rest).length := Nat.succ_pos _
      have hhead := ofList_append_right pre (b :: bytes ++ rest) behind hlt
      have hrest := ih (pre ++ [b])
      rw [List.length_append, List.length_singleton, List.append_assoc] at hrest
      rw [Nat.add_zero] at hhead
      rw [List.length_cons, load, hhead, decode]
      exact congrArg (b.toNat + 256 * ·) hrest

theorem slice_ofList (pre bytes : List UInt8) (behind : Memory) :
    slice (ofList (pre ++ bytes) behind) pre.length bytes.length = bytes := by
  apply List.ext_getElem (slice_length ..)
  intro i hi hi'
  simp only [slice, List.getElem_map, List.getElem_range]
  exact ofList_append_right pre bytes behind hi'

end Jump.Core.Bytes
