import Jump.Skynet.SocketServer.Steps
import Mathlib.Algebra.BigOperators.Group.List.Basic

/-! # The lists of a socket and their size

`wb_size` is the sum of the unsent bytes from the `new_fd` of a socket to its close, and `tail` is
the last buffer of its list in every slot at all times.
-/

namespace Jump.Skynet.SocketServer

open Jump.Core

section Lists

variable {chain rest : List WriteBuffer} {n : Nat} {l : WbList}

/-- What goes out is missing from the sum. -/
theorem Sent.sum (h : Sent chain rest n) :
    (chain.map WriteBuffer.sz).sum = n + (rest.map WriteBuffer.sz).sum := by
  induction h with
  | none chain => rw [Nat.zero_add]
  | part tmp rest h =>
      rw [List.map_cons, List.map_cons, List.sum_cons, List.sum_cons]
      dsimp only
      omega
  | whole tmp h ih =>
      rw [List.map_cons, List.sum_cons, ih, Nat.add_assoc]

/-- The last buffer stays as long as any does. -/
theorem Sent.last (h : Sent chain rest n) (hrest : rest ≠ []) :
    rest.getLast?.map WriteBuffer.node = chain.getLast?.map WriteBuffer.node := by
  induction h with
  | none chain => rfl
  | part tmp rest h =>
      cases rest with
      | nil => rfl
      | cons next rest => rfl
  | @whole tmp rest left n h ih =>
      rw [ih hrest]
      cases rest with
      | nil =>
          cases h
          exact absurd rfl hrest
      | cons next rest => rw [List.getLast?_cons_cons]

theorem WellFormed.left (hl : l.WellFormed) (h : Sent l.chain rest n) :
    (l.left rest).WellFormed := by
  unfold WbList.WellFormed WbList.left at *
  dsimp only
  split
  · rename_i hnil
    rw [hnil]
    rfl
  · rename_i hrest
    rw [h.last hrest, hl]

theorem WellFormed.append (l : WbList) (buf : WriteBuffer) : (l.append buf).WellFormed := by
  unfold WbList.WellFormed WbList.append
  rw [List.getLast?_concat]
  rfl

theorem bytes_left (h : Sent l.chain rest n) : l.bytes = n + (l.left rest).bytes := h.sum

theorem bytes_append (l : WbList) (buf : WriteBuffer) :
    (l.append buf).bytes = l.bytes + buf.sz := by
  unfold WbList.bytes WbList.append
  rw [List.map_append, List.sum_append]
  rfl

end Lists

/-! ## Sockets -/

namespace Socket

def WellFormed (s : Socket) : Prop := ∀ p, (s.list p).WellFormed

/-- `wb_size` is the sum of the unsent bytes. -/
def Balanced (s : Socket) : Prop := s.wbSize = s.high.bytes + s.low.bytes

end Socket

section Change

variable {queue : Priority → WriteBuffer → Prop} {h : Nat} {s s' : Socket} {p : Priority}
  {chain : List WriteBuffer} {n : Nat}

theorem Socket.WellFormed.sent (hs : s.WellFormed) (h : Sent (s.list p).chain chain n) :
    (s.sent p chain n).WellFormed := by
  have hlist := WellFormed.left (hs p) h
  intro q
  cases p with
  | high =>
      cases q with
      | high => exact hlist
      | low => exact hs .low
  | low =>
      cases q with
      | high => exact hs .high
      | low => exact hlist

theorem Socket.Balanced.sent (hs : s.Balanced) (h : Sent (s.list p).chain chain n) :
    (s.sent p chain n).Balanced := by
  have hbytes := bytes_left h
  unfold Socket.Balanced at *
  cases p with
  | high =>
      have hsame : (s.list .high).bytes = s.high.bytes := rfl
      change s.wbSize - n = ((s.list .high).left chain).bytes + s.low.bytes
      omega
  | low =>
      have hsame : (s.list .low).bytes = s.low.bytes := rfl
      change s.wbSize - n = s.high.bytes + ((s.list .low).left chain).bytes
      omega

section Raise

variable {tmp : WriteBuffer} {rest : List WriteBuffer}

theorem Socket.WellFormed.raised (hs : s.WellFormed) (hlow : s.low.chain = tmp :: rest) :
    (s.raised tmp rest).WellFormed := by
  intro q
  cases q with
  | high => rfl
  | low =>
      have hsent : Sent s.low.chain rest (tmp.sz + 0) := by
        rw [hlow]
        exact .whole tmp (.none rest)
      exact WellFormed.left (hs .low) hsent

theorem Socket.Balanced.raised (hs : s.Balanced) (hhigh : s.high.chain = [])
    (hlow : s.low.chain = tmp :: rest) : (s.raised tmp rest).Balanced := by
  have hnone : s.high.bytes = 0 := by
    rw [WbList.bytes, hhigh]
    rfl
  have hsome : s.low.bytes = tmp.sz + (s.low.left rest).bytes := by
    rw [WbList.bytes, hlow]
    rfl
  have hone : (⟨[tmp], some tmp.node⟩ : WbList).bytes = tmp.sz := Nat.add_zero tmp.sz
  unfold Socket.Balanced Socket.raised at *
  dsimp only
  omega

end Raise

theorem Flush.wellFormed (hs : Flush s s') (hwf : s.WellFormed) : s'.WellFormed := by
  cases hs with
  | high h hlow => exact hwf.sent (p := .high) h
  | low h hlow hhead => exact (hwf.sent (p := .high) h).sent (p := .low) hlow
  | raise h hlow hhead => exact ((hwf.sent (p := .high) h).sent (p := .low) hlow).raised rfl

theorem Flush.balanced (hs : Flush s s') (hb : s.Balanced) : s'.Balanced := by
  cases hs with
  | high h hlow => exact hb.sent (p := .high) h
  | low h hlow hhead => exact (hb.sent (p := .high) h).sent (p := .low) hlow
  | raise h hlow hhead => exact ((hb.sent (p := .high) h).sent (p := .low) hlow).raised rfl rfl

theorem Socket.WellFormed.queued (hs : s.WellFormed) (p : Priority) (buf : WriteBuffer) (n : Int) :
    Socket.WellFormed { s.setList ((s.list p).append buf) p with wbSize := n } := by
  have hlist := WellFormed.append (s.list p) buf
  intro q
  cases p with
  | high =>
      cases q with
      | high => exact hlist
      | low => exact hs .low
  | low =>
      cases q with
      | high => exact hs .high
      | low => exact hlist

theorem Socket.Balanced.queued (hs : s.Balanced) (p : Priority) (buf : WriteBuffer) :
    Socket.Balanced
      { s.setList ((s.list p).append buf) p with wbSize := s.wbSize + buf.sz } := by
  have hbytes := bytes_append (s.list p) buf
  unfold Socket.Balanced at *
  cases p with
  | high =>
      have hsame : (s.list .high).bytes = s.high.bytes := rfl
      change s.wbSize + buf.sz = ((s.list .high).append buf).bytes + s.low.bytes
      omega
  | low =>
      have hsame : (s.list .low).bytes = s.low.bytes := rfl
      change s.wbSize + buf.sz = s.high.bytes + ((s.list .low).append buf).bytes
      omega

theorem Change.wellFormed (hs : Change queue h s s') (hwf : s.WellFormed) : s'.WellFormed := by
  cases hs with
  | closed n htype =>
      intro q
      cases q with
      | high => rfl
      | low => rfl
  | dropped => exact hwf
  | flushed htype hs => exact hs.wellFormed hwf
  | lingers htype hs hleft => exact hs.wellFormed hwf
  | queued hbuf htype => exact hwf.queued _ _ _
  | opened hid hreserve hlists htype => exact hwf
  | started htype => exact hwf
  | connected htype => exact hwf
  | addressed address => exact hwf

/-- What was balanced and is not closed stays so, and a new socket is. -/
theorem Change.balanced (hs : Change queue h s s') (hlive : s'.type ≠ .invalid)
    (hb : s.Balanced ∨ s.type = .reserve ∧ s'.type ≠ .reserve ∧ s'.type ≠ .halfclose) :
    s'.Balanced := by
  cases hs with
  | closed n htype => exact absurd rfl hlive
  | dropped => exact absurd rfl hlive
  | flushed htype hs =>
      cases hb with
      | inl hb => exact hs.balanced hb
      | inr hnew => exact absurd (hs.type.trans hnew.1) hnew.2.1
  | lingers htype hs hleft =>
      cases hb with
      | inl hb => exact hs.balanced hb
      | inr hnew => exact absurd rfl hnew.2.2
  | @queued p buf hbuf htype =>
      cases hb with
      | inl hb => exact hb.queued p buf
      | inr hnew =>
          cases p with
          | high => exact absurd hnew.1 hnew.2.1
          | low => exact absurd hnew.1 hnew.2.1
  | opened hid hreserve hlists htype =>
      unfold Socket.Balanced
      rw [hlists.1, hlists.2]
      rfl
  | started htype =>
      cases hb with
      | inl hb => exact hb
      | inr hnew =>
          rw [hnew.1] at htype
          simp at htype
  | connected htype =>
      cases hb with
      | inl hb => exact hb
      | inr hnew =>
          rw [hnew.1] at htype
          cases htype
  | addressed address =>
      cases hb with
      | inl hb => exact hb
      | inr hnew => exact absurd hnew.1 hnew.2.1

end Change

/-! ## Runs -/

/-- From a `new_fd` on, until the slot is free or reserved again. A slot that became
`SOCKET_TYPE_HALFCLOSE` is so if it was before. -/
def StaysOpen (opened : Prop) : SocketType → Prop
  | .invalid | .reserve => False
  | .halfclose => opened
  | _ => True

namespace Server

/-- A run, with the slots whose sockets were opened and not closed. -/
inductive Tracked (memory : Nat → Socket) (soi : ObjectInterface) : Server → (Nat → Prop) → Prop
  | create : Tracked memory soi (create memory soi) fun _ => False
  | step {s s' : Server} {a : Action} {opened : Nat → Prop} (hs : Tracked memory soi s opened)
      (hstep : s.step a = .ok s') :
      Tracked memory soi s' fun h => StaysOpen (opened h) (s'.sockets.slot h).type

end Server

section Run

variable {memory : Nat → Socket} {soi : ObjectInterface} {s : Server} {opened : Nat → Prop}
  {queue : Priority → WriteBuffer → Prop} {h : Nat} {x x' : Socket} {o : Prop}

/-- What is kept of a slot, with whether it has an open socket. -/
structure Accounted (x : Socket) (o : Prop) : Prop where
  wellFormed : x.WellFormed
  balanced : o → x.Balanced
  live : o → x.type ≠ .invalid ∧ x.type ≠ .reserve
  opened : x.type ≠ .invalid → x.type ≠ .reserve → x.type ≠ .halfclose → o

theorem StaysOpen.live {type : SocketType} (ho : StaysOpen o type) :
    type ≠ .invalid ∧ type ≠ .reserve := by
  cases type with
  | invalid | reserve => exact ho.elim
  | _ => exact ⟨by decide, by decide⟩

theorem StaysOpen.of_type {type : SocketType} (hinvalid : type ≠ .invalid)
    (hreserve : type ≠ .reserve) (hhalf : type ≠ .halfclose) : StaysOpen o type := by
  cases type with
  | invalid => exact absurd rfl hinvalid
  | reserve => exact absurd rfl hreserve
  | halfclose => exact absurd rfl hhalf
  | _ => trivial

/-- A socket that was open with its type was open. -/
theorem Accounted.was (hx : Accounted x o) (ho : StaysOpen o x.type) : o := by
  obtain ⟨hinvalid, hreserve⟩ := ho.live
  by_cases hhalf : x.type = .halfclose
  · rw [hhalf] at ho
    exact ho
  · exact hx.opened hinvalid hreserve hhalf

/-- A slot that keeps its type and its lists -/
theorem Accounted.same (hx : Accounted x o) (hwf : x'.WellFormed) (hb : x.Balanced → x'.Balanced)
    (htype : x'.type = x.type) : Accounted x' (StaysOpen o x'.type) := by
  refine ⟨hwf, ?_, StaysOpen.live, StaysOpen.of_type⟩
  intro ho
  rw [htype] at ho
  exact hb (hx.balanced (hx.was ho))

theorem Accounted.change (hx : Accounted x o) (hs : Change queue h x x') :
    Accounted x' (StaysOpen o x'.type) := by
  refine ⟨hs.wellFormed hx.wellFormed, ?_, StaysOpen.live, StaysOpen.of_type⟩
  intro ho
  obtain ⟨hinvalid', hreserve'⟩ := ho.live
  apply hs.balanced hinvalid'
  by_cases hreserve : x.type = .reserve
  · refine Or.inr ⟨hreserve, hreserve', ?_⟩
    intro hhalf
    rw [hhalf] at ho
    exact (hx.live ho).2 hreserve
  · left
    apply hx.balanced
    by_cases hhalf : x.type = .halfclose
    · rw [hs.halfclose hhalf hinvalid'] at ho
      exact ho
    · exact hx.opened (hs.place hinvalid').1 hreserve hhalf

theorem Accounted.reserves (hx : Accounted x o) (hs : Reserves x x') :
    Accounted x' (StaysOpen o x'.type) := by
  cases hs with
  | taken htype => exact ⟨hx.wellFormed, fun ho => ho.elim, StaysOpen.live, StaysOpen.of_type⟩
  | storedId id => exact hx.same hx.wellFormed (fun hb => hb) rfl
  | storedFd => exact hx.same hx.wellFormed (fun hb => hb) rfl

theorem tracked_accounted (hs : Server.Tracked memory soi s opened) (h : Nat) :
    Accounted (s.sockets.slot h) (opened h) := by
  induction hs with
  | create =>
      refine ⟨?_, fun ho => ho.elim, fun ho => ho.elim, fun hinvalid => absurd rfl hinvalid⟩
      intro q
      cases q with
      | high => rfl
      | low => rfl
  | @step s s' a opened hs hstep ih =>
      have hsteps := (step_ends (step_any s a)).of_ok hstep
      cases hsteps.slot h with
      | inl hsame =>
          dsimp only
          rw [hsame]
          exact ih.same ih.wellFormed (fun hb => hb) rfl
      | inr hmore =>
          cases hmore with
          | inl hchange => exact ih.change hchange
          | inr hreserve => exact ih.reserves hreserve

/-- In every run and every slot, the lists end at their tails, and `wb_size` is the sum of the
unsent bytes as long as a socket is open. -/
theorem wbSize_tracked (hs : Server.Tracked memory soi s opened) (h : Nat) :
    (s.sockets.slot h).high.WellFormed ∧ (s.sockets.slot h).low.WellFormed ∧
      (opened h → (s.sockets.slot h).wbSize =
        (s.sockets.slot h).high.bytes + (s.sockets.slot h).low.bytes) := by
  have hx := tracked_accounted hs h
  exact ⟨hx.wellFormed .high, hx.wellFormed .low, hx.balanced⟩

/-- The size that a socket of a run ended with stays in its slot. -/
theorem wbSize_closed : ¬ ∀ s, Server.Run (fun _ => .zero) created.sockets.soi (fun _ _ => True) s →
    ∀ h, (s.sockets.slot h).Balanced := by
  intro hall
  have hrun : ((created.steps (opening ++ sending 1 .high 5 100 [.eagain] ++
      closing 2 [.error])).result.map fun s =>
        ((s.sockets.slot 1).wbSize, (s.sockets.slot 1).high.bytes, (s.sockets.slot 1).low.bytes)) =
      some (5, 0, 0) := by decide +kernel
  obtain ⟨s, hs, hslot⟩ := Outcome.exists_of_result hrun
  have hb := hall s (Server.Run.create.steps hs) 1
  unfold Socket.Balanced at hb
  rw [Prod.ext_iff, Prod.ext_iff] at hslot
  obtain ⟨hsize, hhigh, hlow⟩ := hslot
  dsimp only at hsize hhigh hlow
  rw [hsize, hhigh, hlow] at hb
  cases hb

theorem Server.Tracked.steps {as : List Server.Action} {s' : Server}
    (hs : Server.Tracked memory soi s opened) (hsteps : s.steps as = .ok s') :
    ∃ opened', Server.Tracked memory soi s' opened' := by
  induction as generalizing s opened with
  | nil =>
      obtain rfl := Outcome.ok.inj hsteps
      exact ⟨opened, hs⟩
  | cons a as ih =>
      obtain ⟨s1, hstep, hrest⟩ := steps_cons hsteps
      exact ih (hs.step hstep) hrest

/-- A socket with 3 of 5 bytes still to send -/
theorem wbSize_tracked_connected : ∃ s opened,
    Server.Tracked (fun _ => .zero) created.sockets.soi s opened ∧ opened 1 ∧
      (s.sockets.slot 1).wbSize = 3 ∧
      (s.sockets.slot 1).wbSize = (s.sockets.slot 1).high.bytes + (s.sockets.slot 1).low.bytes := by
  have hrun : ((created.steps (opening ++ sending 1 .high 5 100 [.ok 2])).result.map fun s =>
      ((s.sockets.slot 1).type, (s.sockets.slot 1).wbSize)) = some (.connected, 3) := by
    decide +kernel
  obtain ⟨s, hs, hslot⟩ := Outcome.exists_of_result hrun
  obtain ⟨opened, htrack⟩ := Server.Tracked.create.steps hs
  rw [Prod.ext_iff] at hslot
  obtain ⟨htype, hsize⟩ := hslot
  dsimp only at htype hsize
  have hopen : opened 1 := by
    apply (tracked_accounted htrack 1).opened
    · rw [htype]
      decide
    · rw [htype]
      decide
    · rw [htype]
      decide
  exact ⟨s, opened, htrack, hopen, hsize, (wbSize_tracked htrack 1).2.2 hopen⟩

end Run

end Jump.Skynet.SocketServer
