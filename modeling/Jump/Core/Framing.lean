import Mathlib.Data.List.Basic
import Mathlib.Order.Basic

/-! # Frames in a byte stream

A frame is a header of fixed size and a content whose length the header gives. A stream is
split into its complete frames and the rest; where the stream was cut does not matter.
-/

namespace Jump.Core

structure Framing (α : Type*) where
  header : Nat
  header_pos : 0 < header
  length : List α → Nat

namespace Framing

variable {α : Type*} (f : Framing α)

/-- The bytes do not contain a complete frame at their front. -/
def Pending (bytes : List α) : Prop :=
  bytes.length < f.header + f.length (bytes.take f.header) ∨ bytes.length < f.header

instance (bytes : List α) : Decidable (f.Pending bytes) :=
  inferInstanceAs (Decidable (_ ∨ _))

def split (bytes : List α) : List (List α × List α) × List α :=
  if _h : f.Pending bytes then ([], bytes)
  else
    let n := f.length (bytes.take f.header)
    let r := split (bytes.drop (f.header + n))
    ((bytes.take f.header, (bytes.drop f.header).take n) :: r.1, r.2)
termination_by bytes.length
decreasing_by
  have hpos := f.header_pos
  have hlen : ¬bytes.length < f.header := fun hlt => _h (.inr hlt)
  rw [List.length_drop]
  omega

/-- A frame that the header describes. -/
def Complete (frame : List α × List α) : Prop :=
  frame.1.length = f.header ∧ frame.2.length = f.length frame.1

/-- The frames as they stand in the stream. -/
def stream (frames : List (List α × List α)) : List α :=
  frames.flatMap fun frame => frame.1 ++ frame.2

variable {f} {bytes : List α}

theorem split_pending (h : f.Pending bytes) : f.split bytes = ([], bytes) := by
  rw [split, dif_pos h]

theorem split_frame {frame : List α × List α} (h : f.Complete frame) (bytes : List α) :
    f.split (frame.1 ++ frame.2 ++ bytes) = (frame :: (f.split bytes).1, (f.split bytes).2) := by
  obtain ⟨hheader, hcontent⟩ := h
  have htake : (frame.1 ++ frame.2 ++ bytes).take f.header = frame.1 := by
    rw [List.append_assoc, ← hheader, List.take_left]
  have hdrop : (frame.1 ++ frame.2 ++ bytes).drop f.header = frame.2 ++ bytes := by
    rw [List.append_assoc, ← hheader, List.drop_left]
  have hnot : ¬f.Pending (frame.1 ++ frame.2 ++ bytes) := by
    unfold Pending
    rw [htake, List.length_append, List.length_append]
    omega
  rw [split, dif_neg hnot]
  simp only [htake, hdrop]
  rw [← List.drop_drop, hdrop, ← hcontent, List.take_left, List.drop_left]

theorem split_nil : f.split [] = ([], []) := split_pending (.inr f.header_pos)

theorem split_one {frame : List α × List α} (h : f.Complete frame) :
    f.split (frame.1 ++ frame.2) = ([frame], []) := by
  have hsplit := split_frame h []
  rw [List.append_nil, split_nil] at hsplit
  exact hsplit

/-- Bytes with a complete frame at their front. -/
theorem exists_frame (h : ¬f.Pending bytes) :
    ∃ frame rest, f.Complete frame ∧ bytes = frame.1 ++ frame.2 ++ rest := by
  have hheader : ¬bytes.length < f.header := fun hlt => h (.inr hlt)
  have hcontent : ¬bytes.length < f.header + f.length (bytes.take f.header) :=
    fun hlt => h (.inl hlt)
  refine ⟨(bytes.take f.header, (bytes.drop f.header).take (f.length (bytes.take f.header))),
    (bytes.drop f.header).drop (f.length (bytes.take f.header)), ⟨?_, ?_⟩, ?_⟩
  · rw [List.length_take]
    omega
  · show (List.take (f.length (bytes.take f.header)) (bytes.drop f.header)).length =
      f.length (bytes.take f.header)
    rw [List.length_take, List.length_drop]
    omega
  · rw [List.append_assoc, List.take_append_drop, List.take_append_drop]

/-- The beginning of a frame that is not all of it. -/
theorem pending_of_prefix {frame : List α × List α} (h : f.Complete frame) {part : List α}
    (hpart : part <+: frame.1 ++ frame.2) (hne : part ≠ frame.1 ++ frame.2) : f.Pending part := by
  obtain ⟨hheader, hcontent⟩ := h
  have hlt : part.length < frame.1.length + frame.2.length := by
    have hle := hpart.length_le
    have hlen : part.length ≠ (frame.1 ++ frame.2).length :=
      fun heq => hne (hpart.eq_of_length heq)
    rw [List.length_append] at hle hlen
    omega
  by_cases hshort : part.length < f.header
  · exact .inr hshort
  · have htake : part.take f.header = frame.1 := by
      obtain ⟨tail, htail⟩ := hpart
      have hfront : (part ++ tail).take f.header = part.take f.header :=
        List.take_append_of_le_length (Nat.le_of_not_lt hshort)
      rw [← hfront, htail, ← hheader, List.take_left]
    refine .inl ?_
    rw [htake, ← hheader, ← hcontent]
    exact hlt

theorem stream_cons (frame : List α × List α) (frames : List (List α × List α)) :
    stream (frame :: frames) = frame.1 ++ frame.2 ++ stream frames := List.flatMap_cons

/-- What is left after the complete frames. -/
theorem split_stream {frames : List (List α × List α)} (h : ∀ frame ∈ frames, f.Complete frame)
    (bytes : List α) :
    f.split (stream frames ++ bytes) = (frames ++ (f.split bytes).1, (f.split bytes).2) := by
  induction frames with
  | nil => rfl
  | cons frame frames ih =>
      have hframe := h frame List.mem_cons_self
      have hrest := ih fun frame' hmem => h frame' (List.mem_cons_of_mem frame hmem)
      rw [stream_cons, List.append_assoc, split_frame hframe, hrest]
      rfl

/-- The stream is its frames and the rest, and the rest contains no complete frame. -/
theorem split_spec (bytes : List α) :
    bytes = stream (f.split bytes).1 ++ (f.split bytes).2 ∧
      (∀ frame ∈ (f.split bytes).1, f.Complete frame) ∧ f.Pending (f.split bytes).2 := by
  induction hn : bytes.length using Nat.strongRecOn generalizing bytes with
  | _ n ih =>
      by_cases h : f.Pending bytes
      · rw [split_pending h]
        exact ⟨rfl, fun _ hmem => absurd hmem List.not_mem_nil, h⟩
      · obtain ⟨frame, rest, hframe, rfl⟩ := exists_frame h
        have hpos := f.header_pos
        have hlen : rest.length < n := by
          rw [← hn, List.length_append, List.length_append, hframe.1]
          omega
        obtain ⟨hrest, hframes, hpending⟩ := ih rest.length hlen rest rfl
        rw [split_frame hframe]
        refine ⟨?_, ?_, hpending⟩
        · rw [stream_cons, List.append_assoc (frame.1 ++ frame.2)]
          exact congrArg (frame.1 ++ frame.2 ++ ·) hrest
        · intro frame' hmem
          rcases List.mem_cons.mp hmem with rfl | hmem
          · exact hframe
          · exact hframes frame' hmem

/-- A stream that is cut in two: the rest of the first part goes before the second. -/
theorem split_append (a b : List α) : f.split (a ++ b) =
    ((f.split a).1 ++ (f.split ((f.split a).2 ++ b)).1, (f.split ((f.split a).2 ++ b)).2) := by
  obtain ⟨ha, hframes, -⟩ := f.split_spec a
  have hsplit := split_stream hframes ((f.split a).2 ++ b)
  rw [← List.append_assoc, ← ha] at hsplit
  exact hsplit

end Framing

end Jump.Core
