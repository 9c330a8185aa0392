import Jump.Skynet.SocketServer.Steps

/-! # Half-sent buffers and user objects

`list_uncomplete` takes the head of a list to be half sent if `ptr` is not `buffer`. The data of a
user object may lie elsewhere from the start, which matters in the list of low priority.
-/

namespace Jump.Skynet.SocketServer

open Jump.Core

/-- Where the data of a buffer begins. -/
def ObjectInterface.start (soi : ObjectInterface) (wb : WriteBuffer) : Int :=
  if wb.userobject then soi.buffer wb.buffer else 0

/-- Bytes of the head of the list went out. -/
def WbList.Begun (soi : ObjectInterface) (l : WbList) : Prop :=
  ∃ wb rest, l.chain = wb :: rest ∧ soi.start wb < wb.ptr

namespace Server

/-- The assertions of `send_buffer` and `raise_uncomplete` hold in the next step, and
`list_uncomplete` is true for no head that nothing was written of, at the first call in
`send_buffer` and at the second. -/
structure Sound (s : Server) : Prop where
  safe (a : Action) : s.step a ≠ .fail .sendBuffer ∧ s.step a ≠ .fail .raiseUncomplete
  before (h : Nat) : listUncomplete (s.sockets.slot h).low = true →
    (s.sockets.slot h).low.Begun s.sockets.soi
  after {h : Nat} {w w' : Sockets} {ws ws' ws'' : List WriteResult}
    (hlive : (s.sockets.slot h).type ≠ .invalid)
    (hhigh : s.sockets.sendList h .high ws = .ok (w, false, ws'))
    (hlow : w.sendList h .low ws' = .ok (w', false, ws''))
    (huncomplete : listUncomplete (w'.slot h).low = true) : (w'.slot h).low.Begun s.sockets.soi

end Server

section Low

variable {soi : ObjectInterface} {chain rest : List WriteBuffer} {tmp : WriteBuffer} {n h : Nat}
  {s s' : Socket} {p : Priority}

/-- What is in a list of low priority between two steps: nothing was written of it, and its data
begins where it does. -/
def Whole (soi : ObjectInterface) (wb : WriteBuffer) : Prop := wb.ptr = 0 ∧ soi.start wb = 0

/-- Every buffer that is left is one of before, with the head perhaps shortened. -/
theorem Sent.head (h : Sent chain (tmp :: rest) n) :
    (∃ old ∈ chain, ∃ k : Nat, tmp.buffer = old.buffer ∧ tmp.userobject = old.userobject ∧
      tmp.ptr = old.ptr + k) ∧ ∀ wb ∈ rest, wb ∈ chain := by
  generalize hleft : tmp :: rest = left at h
  induction h with
  | none chain =>
      rw [← hleft]
      refine ⟨⟨tmp, List.mem_cons_self, 0, rfl, rfl, (Int.add_zero _).symm⟩, ?_⟩
      exact fun wb hwb => List.mem_cons_of_mem tmp hwb
  | @part old rest' n h =>
      obtain ⟨rfl, rfl⟩ := List.cons.inj hleft
      refine ⟨⟨old, List.mem_cons_self, n, rfl, rfl, rfl⟩, ?_⟩
      exact fun wb hwb => List.mem_cons_of_mem old hwb
  | whole old h ih =>
      obtain ⟨⟨old', hold, k, hsame⟩, hrest⟩ := ih hleft
      refine ⟨⟨old', List.mem_cons_of_mem old hold, k, hsame⟩, ?_⟩
      exact fun wb hwb => List.mem_cons_of_mem old (hrest wb hwb)

theorem ObjectInterface.start_congr {wb wb' : WriteBuffer} (hbuffer : wb.buffer = wb'.buffer)
    (hobject : wb.userobject = wb'.userobject) : soi.start wb = soi.start wb' := by
  unfold ObjectInterface.start
  rw [hbuffer, hobject]

/-- After the list was sent from, the head alone may be half sent. -/
theorem Sent.whole_left (h : Sent chain (tmp :: rest) n) (hwhole : ∀ wb ∈ chain, Whole soi wb) :
    0 ≤ tmp.ptr ∧ soi.start tmp = 0 ∧ ∀ wb ∈ rest, Whole soi wb := by
  obtain ⟨⟨old, hold, k, hbuffer, hobject, hptr⟩, hrest⟩ := h.head
  obtain ⟨hzero, hstart⟩ := hwhole old hold
  refine ⟨by omega, ?_, fun wb hwb => hwhole wb (hrest wb hwb)⟩
  rw [ObjectInterface.start_congr hbuffer hobject, hstart]

theorem Flush.whole (hs : Flush s s') (hwhole : ∀ wb ∈ s.low.chain, Whole soi wb) :
    ∀ wb ∈ s'.low.chain, Whole soi wb := by
  cases hs with
  | high h hlow => exact hwhole
  | @low chain n m h hlow hhead =>
      cases chain with
      | nil => exact fun wb hwb => absurd hwb List.not_mem_nil
      | cons tmp rest =>
          obtain ⟨_, hstart, hrest⟩ := hlow.whole_left hwhole
          intro wb hwb
          cases hwb with
          | head => exact ⟨by simpa [listUncomplete, WbList.left] using hhead, hstart⟩
          | tail _ hwb => exact hrest wb hwb
  | raise h hlow hhead => exact (hlow.whole_left hwhole).2.2

/-- Where only such buffers are put in the list of low priority, it has no others. -/
theorem Change.whole (hs : Change (fun p wb => p = .low → Whole soi wb) h s s')
    (hwhole : ∀ wb ∈ s.low.chain, Whole soi wb) : ∀ wb ∈ s'.low.chain, Whole soi wb := by
  cases hs with
  | closed n htype => exact fun wb hwb => absurd hwb List.not_mem_nil
  | flushed htype hs => exact hs.whole hwhole
  | lingers htype hs hleft => exact hs.whole hwhole
  | @queued p buf hbuf htype =>
      cases p with
      | high => exact hwhole
      | low =>
          intro wb hwb
          cases List.mem_append.mp hwb with
          | inl hold => exact hwhole wb hold
          | inr hnew =>
              rw [List.mem_singleton.mp hnew]
              exact hbuf rfl
  | dropped | opened | started | connected | addressed => exact hwhole

theorem Reserves.low (hs : Reserves s s') : s'.low = s.low := by
  cases hs with
  | taken | storedId | storedFd => rfl

end Low

section Run

variable {memory : Nat → Socket} {soi : ObjectInterface} {s s' : Server} {a : Server.Action}

end Run

end Jump.Skynet.SocketServer
