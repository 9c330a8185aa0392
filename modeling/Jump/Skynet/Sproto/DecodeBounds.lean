import Jump.Skynet.Sproto.DecodeFields
import Jump.Skynet.Sproto.UnpackBounds

/-! # Decoding any input

What `sproto_decode` reads of bytes that need not be an encoded struct. The length of a field's
data is 32 bits of the input, and 4 is added to it before it is compared with what is there.
-/

namespace Jump.Skynet.Sproto

open Jump.Core

/-- The elements of an array of strings or structs, each behind its length. -/
inductive Objects : List UInt8 → Prop
  | nil : Objects []
  | cons {header bytes rest : List UInt8} (hheader : header.length = 4)
      (hbytes : bytes.length = LittleEndian.decode header) (h : Objects rest) :
      Objects (header ++ (bytes ++ rest))

/-- The data that is taken for the field, if the callback takes it. -/
def Taken (f : Field) (content : List UInt8) : Prop :=
  match f.array, f.kind with
  | false, .integer => content.length = 4 ∨ content.length = 8
  | false, .boolean => False
  | false, _ => True
  | true, .integer => ∃ len rest, content = len :: rest ∧ (len = 4 ∨ len = 8) ∧
      rest.length % len.toNat = 0
  | true, .boolean => True
  | true, _ => Objects content

/-- The words of two bytes -/
def words : List UInt8 → List Nat
  | a :: b :: rest => LittleEndian.decode [a, b] :: words rest
  | _ => []

/-- A callback that takes everything. -/
def Accepting {σ : Type} (cb : DecodeCallback σ) : Prop :=
  ∀ ud args, ∃ ud', cb ud args = some (ud', 0)

/-- The run returns; with 0 only for what can be taken, and always for that if the callback takes
everything. -/
def Returns {σ : Type} (cb : DecodeCallback σ) (run : Option (σ × Int)) (taken : Prop) : Prop :=
  ∃ ud r, run = some (ud, r) ∧ (r = 0 → taken) ∧ (Accepting cb → taken → r = 0)

/-! ## Parts of the input -/

section Parts

variable {σ : Type} {cb : DecodeCallback σ} {mem header content rest : List UInt8}
  {p i j count : Nat} {args : DecodeArg} {ud : σ} {get : Nat → Option Nat}

variable {f : Field}

/-- The result of the array, as the loop of `sproto_decode` looks at it. -/
theorem Returns.array {run : Option (σ × Int)} {taken : Prop} (h : Returns cb run taken) :
    Returns cb (run.bind fun r => some (r.1, if r.2 ≠ 0 then -1 else 0)) taken := by
  obtain ⟨ud', r, hrun, hzero, haccept⟩ := h
  rw [hrun]
  refine ⟨ud', _, rfl, fun heq => hzero ?_, fun hall htaken => if_neg (not_not_intro ?_)⟩
  · by_contra hne
    have hminus : (if r ≠ 0 then (-1 : Int) else 0) = -1 := if_pos hne
    dsimp only at heq
    rw [hminus] at heq
    cases heq
  · exact haccept hall htaken

section Field

variable {field : Option Field} {value : Int} {next : σ → Option (σ × Int)}
  {taken : Field → Prop}

end Field

section Loop

variable {st : SprotoType} {fn stream datastream v : Nat} {tag size : Int}

theorem At.drop (h : At mem p content) {k : Nat} (hk : k ≤ content.length) :
    At mem (p + k) (content.drop k) := by
  have hlen : (content.take k).length = k := by
    rw [List.length_take]
    omega
  rw [← List.take_append_drop k content] at h
  have hright := h.right
  rw [hlen] at hright
  exact hright

end Loop

end Parts

/-! ## The decoders on any input -/

end Jump.Skynet.Sproto
