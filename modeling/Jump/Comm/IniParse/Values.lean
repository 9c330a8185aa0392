import Jump.Core.Strtoll
import Jump.Comm.IniParse.FirstMatch

/-! # The typed values of an INI file

Every type has its own format for writing, and all are read with `strtoll`.
-/

namespace Jump.Comm.IniParse.Edit

open Jump.Core.Strtoll

/-! ## Reading -/

/-- The getters differ in the conversion of the number only. -/
def getValue {α : Type} (convert : Int → α) (ini : INIParse) (section_ key : Str)
    (default_ : α) : α :=
  match getStringValue ini section_ key with
  | some v => if v.length ≠ 0 then convert (strtoll v) else default_
  | none => default_

def getBoolValue : INIParse → Str → Str → Bool → Bool := getValue fun n => decide (n ≠ 0)

def getIntValue : INIParse → Str → Str → Int32 → Int32 := getValue Int32.ofInt

def getUIntValue : INIParse → Str → Str → UInt32 → UInt32 := getValue UInt32.ofInt

def getLongValue : INIParse → Str → Str → Int64 → Int64 := getValue Int64.ofInt

def getULongValue : INIParse → Str → Str → UInt64 → UInt64 := getValue UInt64.ofInt

/-! ## Writing -/

/-- `%s` of `"true"` or `"false"` -/
def printBool (value : Bool) : Str :=
  if value then ['t', 'r', 'u', 'e'] else ['f', 'a', 'l', 's', 'e']

/-- `SetStringValue` or `AddStringValue` -/
inductive Writer where
  | set
  | add
deriving DecidableEq

def Writer.write (w : Writer) (ini : INIParse) (section_ key value : Str) : Int × INIParse :=
  match w with
  | .set => setStringValue ini section_ key value
  | .add => addStringValue ini section_ key value

section Writers

variable (w : Writer) (ini : INIParse) (section_ key : Str)

/-- `SetBoolValue` and `AddBoolValue` -/
def writeBoolValue (value : Bool) : Int × INIParse := w.write ini section_ key (printBool value)

/-- `SetIntValue` and `AddIntValue` -/
def writeIntValue (value : Int32) : Int × INIParse :=
  w.write ini section_ key (printInt value.toInt)

/-- `SetUIntValue` and `AddUIntValue` -/
def writeUIntValue (value : UInt32) : Int × INIParse :=
  w.write ini section_ key (printNat value.toNat)

/-- `SetLongValue` and `AddLongValue` -/
def writeLongValue (value : Int64) : Int × INIParse :=
  w.write ini section_ key (printInt value.toInt)

/-- `SetULongValue` and `AddULongValue` -/
def writeULongValue (value : UInt64) : Int × INIParse :=
  w.write ini section_ key (printNat value.toNat)

end Writers

/-- A value of one of the types. -/
inductive Value where
  | bool (b : Bool)
  | int (n : Int32)
  | uint (n : UInt32)
  | long (n : Int64)
  | ulong (n : UInt64)
deriving DecidableEq

def Value.write (w : Writer) (ini : INIParse) (section_ key : Str) : Value → Int × INIParse
  | .bool b => writeBoolValue w ini section_ key b
  | .int n => writeIntValue w ini section_ key n
  | .uint n => writeUIntValue w ini section_ key n
  | .long n => writeLongValue w ini section_ key n
  | .ulong n => writeULongValue w ini section_ key n

/-- The getter of its type returns the value, whatever the default is. -/
def Value.ReadsBack (ini : INIParse) (section_ key : Str) : Value → Prop
  | .bool b => ∀ d, getBoolValue ini section_ key d = b
  | .int n => ∀ d, getIntValue ini section_ key d = n
  | .uint n => ∀ d, getUIntValue ini section_ key d = n
  | .long n => ∀ d, getLongValue ini section_ key d = n
  | .ulong n => ∀ d, getULongValue ini section_ key d = n

/-- The value is not `true`, and no `unsigned long` beyond the `long long`s. -/
def Value.Survives : Value → Prop
  | .bool b => b = false
  | .ulong n => n.toNat < 2 ^ 63
  | _ => True

/-! ## The round trip -/

section RoundTrip

variable {ini : INIParse} {section_ key value : Str}

theorem Writer.stored (w : Writer) (h : (w.write ini section_ key value).1 = 0) :
    getStringValue (w.write ini section_ key value).2 section_ key = some value := by
  cases w with
  | set => exact (Op.sound ini (.setStringValue section_ key value)).written _ _ _ rfl h
  | add => exact (Op.sound ini (.addStringValue section_ key value)).written _ _ _ rfl h

/-- A getter reads the number of the text that was written. -/
theorem getValue_written {α : Type} {convert : Int → α} {d : α} (w : Writer)
    (h : (w.write ini section_ key value).1 = 0) (hne : value ≠ []) :
    getValue convert (w.write ini section_ key value).2 section_ key d =
      convert (strtoll value) := by
  have hlen : value.length ≠ 0 := fun h0 => hne (List.length_eq_zero_iff.mp h0)
  rw [getValue, w.stored h]
  exact if_pos hlen

theorem ofInt_toNat32 (n : UInt32) : UInt32.ofInt (n.toNat : Int) = n := by
  apply UInt32.toNat.inj
  have hlt := n.toNat_lt
  change ((n.toNat : Int) % 4294967296).toNat % 4294967296 = n.toNat
  omega

theorem toNat_ofInt64 {z : Int} (h : 0 ≤ z) (hlt : z < 18446744073709551616) :
    (UInt64.ofInt z).toNat = z.toNat := by
  change (z % 18446744073709551616).toNat % 18446744073709551616 = z.toNat
  omega

theorem bool_iff (b : Bool) : decide (strtoll (printBool b) ≠ 0) = b ↔ b = false := by
  cases b with
  | false => decide
  | true => decide

theorem uint_eq (n : UInt32) : UInt32.ofInt (strtoll (printNat n.toNat)) = n := by
  have hlt := n.toNat_lt
  have hmin : min (n.toNat : Int) LLONG_MAX = n.toNat := by
    unfold LLONG_MAX
    omega
  rw [strtoll_printNat, hmin, ofInt_toNat32]

theorem int_eq (n : Int32) : Int32.ofInt (strtoll (printInt n.toInt)) = n := by
  have hlow := n.le_toInt
  have hhigh := n.toInt_lt
  rw [strtoll_printInt (by unfold LLONG_MIN; omega) (by unfold LLONG_MAX; omega)]
  exact Int32.ofInt_toInt n

theorem long_eq (n : Int64) : Int64.ofInt (strtoll (printInt n.toInt)) = n := by
  have hlow := n.le_toInt
  have hhigh := n.toInt_lt
  rw [strtoll_printInt (by unfold LLONG_MIN; omega) (by unfold LLONG_MAX; omega)]
  exact Int64.ofInt_toInt n

/-- `strtoll` stops at `LLONG_MAX`. -/
theorem ulong_iff (n : UInt64) :
    UInt64.ofInt (strtoll (printNat n.toNat)) = n ↔ n.toNat < 2 ^ 63 := by
  have hlt := n.toNat_lt
  have hread := toNat_ofInt64 (z := min (n.toNat : Int) LLONG_MAX)
    (by unfold LLONG_MAX; omega) (by unfold LLONG_MAX; omega)
  rw [strtoll_printNat, ← UInt64.toNat_inj, hread]
  unfold LLONG_MAX
  omega

/-- The typed round trip keeps every value but `true` and the large `unsigned long`s. -/
theorem typed_round_trip_iff (w : Writer) (ini : INIParse) (section_ key : Str) (v : Value)
    (h : (v.write w ini section_ key).1 = 0) :
    v.ReadsBack (v.write w ini section_ key).2 section_ key ↔ v.Survives := by
  cases v with
  | bool b =>
      have hread : ∀ d, getBoolValue (writeBoolValue w ini section_ key b).2 section_ key d =
          decide (strtoll (printBool b) ≠ 0) := fun d =>
        getValue_written w h (by cases b <;> simp [printBool])
      have hiff := bool_iff b
      simp only [Value.ReadsBack, Value.Survives, Value.write, hread, forall_const]
      exact hiff
  | int n =>
      refine iff_of_true (fun d => ?_) trivial
      exact (getValue_written w h (printInt_ne_nil _)).trans (int_eq n)
  | uint n =>
      refine iff_of_true (fun d => ?_) trivial
      exact (getValue_written w h (printNat_ne_nil _)).trans (uint_eq n)
  | long n =>
      refine iff_of_true (fun d => ?_) trivial
      exact (getValue_written w h (printInt_ne_nil _)).trans (long_eq n)
  | ulong n =>
      have hread : ∀ d, getULongValue (writeULongValue w ini section_ key n).2 section_ key d =
          UInt64.ofInt (strtoll (printNat n.toNat)) := fun d =>
        getValue_written w h (printNat_ne_nil _)
      simp only [Value.ReadsBack, Value.Survives, Value.write, hread, forall_const]
      exact ulong_iff n

/-- One section without keys. -/
def oneSection : INIParse where
  initFlag := true
  sections := [.new ['t']]

theorem typed_round_trip_minus :
    (Value.long (-5)).ReadsBack ((Value.long (-5)).write .add oneSection ['t'] ['k']).2
      ['t'] ['k'] :=
  (typed_round_trip_iff .add oneSection ['t'] ['k'] (.long (-5)) rfl).mpr trivial

/-- `true` is read as `false`, and the largest `unsigned long` as half of it. -/
theorem typed_round_trip_lost :
    ((Value.bool true).write .add oneSection ['t'] ['k']).1 = 0 ∧
      ¬ (Value.bool true).ReadsBack ((Value.bool true).write .add oneSection ['t'] ['k']).2
        ['t'] ['k'] ∧
    ((Value.ulong 0xffffffffffffffff).write .add oneSection ['t'] ['k']).1 = 0 ∧
      ¬ (Value.ulong 0xffffffffffffffff).ReadsBack
        ((Value.ulong 0xffffffffffffffff).write .add oneSection ['t'] ['k']).2 ['t'] ['k'] := by
  refine ⟨rfl, fun h => ?_, rfl, fun h => ?_⟩
  · have hfalse : getBoolValue (writeBoolValue .add oneSection ['t'] ['k'] true).2 ['t'] ['k']
        false = true := h false
    revert hfalse
    decide
  · have hread : getULongValue (writeULongValue .add oneSection ['t'] ['k']
        0xffffffffffffffff).2 ['t'] ['k'] 0 =
        UInt64.ofInt (strtoll (printNat (0xffffffffffffffff : UInt64).toNat)) :=
      getValue_written .add rfl (printNat_ne_nil _)
    have hlt := (ulong_iff 0xffffffffffffffff).mp (hread.symm.trans (h 0))
    revert hlt
    decide

end RoundTrip

end Jump.Comm.IniParse.Edit
