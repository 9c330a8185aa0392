import Jump.Skynet.SocketServer.Code

/-! # What a step does to a slot

Every function of the socket server works on one slot. `Change` lists what may become of it, and
`Fails` when an assertion fails.
-/

namespace Jump.Skynet.SocketServer

open Jump.Core

/-! ## Lists -/

/-- `Sent chain rest n`: after `n` bytes of the buffers in `chain` went out, `rest` is left. -/
inductive Sent : List WriteBuffer → List WriteBuffer → Nat → Prop
  | none (chain : List WriteBuffer) : Sent chain chain 0
  | part (tmp : WriteBuffer) (rest : List WriteBuffer) {n : Nat} (h : n < tmp.sz) :
      Sent (tmp :: rest) ({ tmp with ptr := tmp.ptr + n, sz := tmp.sz - n } :: rest) n
  | whole (tmp : WriteBuffer) {rest left : List WriteBuffer} {n : Nat} (h : Sent rest left n) :
      Sent (tmp :: rest) left (tmp.sz + n)

namespace WbList

/-- The unsent bytes. -/
def bytes (l : WbList) : Nat := (l.chain.map WriteBuffer.sz).sum

/-- `tail` is the last buffer from `head` on, which has no next one. -/
def WellFormed (l : WbList) : Prop := l.tail = l.chain.getLast?.map WriteBuffer.node

/-- The list when `chain` is left of it. -/
def left (l : WbList) (chain : List WriteBuffer) : WbList :=
  ⟨chain, if chain = [] then none else l.tail⟩

/-- The list with one more buffer. -/
def append (l : WbList) (buf : WriteBuffer) : WbList := ⟨l.chain ++ [buf], some buf.node⟩

end WbList

/-- An effect by which no descriptor comes in. -/
def Effect.Inner : Effect → Prop
  | .obtain _ | .given _ => False
  | _ => True

def Inners (es : List Effect) : Prop := ∀ e ∈ es, e.Inner

theorem Inners.nil : Inners [] := fun _ he => absurd he List.not_mem_nil

theorem Inners.cons {e : Effect} {es : List Effect} (he : e.Inner) (hes : Inners es) :
    Inners (e :: es) := List.forall_mem_cons.mpr ⟨he, hes⟩

section Loops

variable {chain rest : List WriteBuffer} {n : Nat}

/-- What both loops come to: the list is drained just where nothing is left. -/
def Progress.Of (chain : List WriteBuffer) (p : Progress) : Prop :=
  Sent chain p.chain p.sent ∧ (p.ending = .drained ↔ p.chain = []) ∧ Inners p.effects

theorem sendTcp_ends (fd : Int) (ws : List WriteResult) (chain : List WriteBuffer)
    (may : Fault → Prop) : (sendTcp fd ws chain).Ends (Progress.Of chain) may := by
  induction ws, chain using sendTcp.induct with
  | case1 ws =>
      rw [sendTcp]
      exact ⟨.none [], iff_of_true rfl rfl, Inners.nil⟩
  | case2 tmp rest =>
      rw [sendTcp]
      exact .stuck
  | case3 ws chain hne ih =>
      rw [sendTcp]
      · exact ih
      · exact hne
  | case4 ws chain hne =>
      rw [sendTcp]
      · exact ⟨.none chain, iff_of_false (by simp) hne, Inners.nil⟩
      · exact hne
  | case5 ws chain hne =>
      rw [sendTcp]
      · exact ⟨.none chain, iff_of_false (by simp) hne, Inners.nil⟩
      · exact hne
  | case6 ws tmp rest ih =>
      rw [sendTcp, if_pos rfl]
      apply Outcome.Ends.bind ih
      intro p hp
      exact ⟨.whole tmp hp.1, hp.2.1, .cons trivial (.cons trivial hp.2.2)⟩
  | case7 n ws tmp rest hn hlt =>
      rw [sendTcp, if_neg hn, if_pos hlt]
      exact ⟨.part tmp rest hlt, iff_of_false (by simp) (List.cons_ne_nil _ _),
        .cons trivial Inners.nil⟩
  | case8 n ws tmp rest hn hlt =>
      rw [sendTcp, if_neg hn, if_neg hlt]
      exact .stuck

theorem sendUdp_ends (fd : Int) (ws : List WriteResult) (chain : List WriteBuffer)
    (may : Fault → Prop) : (sendUdp fd ws chain).Ends (Progress.Of chain) may := by
  induction ws, chain using sendUdp.induct with
  | case1 ws =>
      rw [sendUdp]
      exact ⟨.none [], iff_of_true rfl rfl, Inners.nil⟩
  | case2 tmp rest =>
      rw [sendUdp]
      exact .stuck
  | case3 n ws tmp rest ih =>
      rw [sendUdp]
      apply Outcome.Ends.bind ih
      intro p hp
      exact ⟨.whole tmp hp.1, hp.2.1, .cons trivial (.cons trivial hp.2.2)⟩
  | case4 answer ws chain hne hok =>
      rw [sendUdp]
      · exact ⟨.none chain, iff_of_false (by simp) hne, Inners.nil⟩
      · exact hne
      · exact hok

end Loops

/-! ## Slots -/

namespace Socket

/-- `n` bytes of a list went out, and `chain` is left of it. -/
def sent (s : Socket) (p : Priority) (chain : List WriteBuffer) (n : Nat) : Socket :=
  { s.setList ((s.list p).left chain) p with wbSize := s.wbSize - n }

/-- The head of the low list goes to the empty high list. -/
def raised (s : Socket) (tmp : WriteBuffer) (rest : List WriteBuffer) : Socket :=
  { s with low := s.low.left rest, high := ⟨[tmp], some tmp.node⟩ }

/-- The slot of a socket that was closed; `wb_size` stays what it was at the end. -/
def closed (s : Socket) (n : Int) : Socket :=
  { s with high := .empty, low := .empty, type := .invalid, wbSize := n }

end Socket

/-- What `send_buffer` does to a socket that it does not close. -/
inductive Flush (s : Socket) : Socket → Prop
  | high {chain : List WriteBuffer} {n : Nat} (h : Sent s.high.chain chain n)
      (hlow : chain ≠ [] ∨ s.low.chain = []) : Flush s (s.sent .high chain n)
  | low {chain : List WriteBuffer} {n m : Nat} (h : Sent s.high.chain [] n)
      (hlow : Sent s.low.chain chain m) (hhead : listUncomplete (s.low.left chain) = false) :
      Flush s ((s.sent .high [] n).sent .low chain m)
  | raise {tmp : WriteBuffer} {rest : List WriteBuffer} {n m : Nat} (h : Sent s.high.chain [] n)
      (hlow : Sent s.low.chain (tmp :: rest) m) (hhead : tmp.ptr ≠ 0) :
      Flush s (((s.sent .high [] n).sent .low (tmp :: rest) m).raised tmp rest)

/-- What a step makes of the slot `h`, if it changes it; a buffer that is queued is one of those
that `queue` speaks of. -/
inductive Change (queue : Priority → WriteBuffer → Prop) (h : Nat) (s : Socket) : Socket → Prop
  | closed (n : Int) (htype : s.type ≠ .reserve) : Change queue h s (s.closed n)
  | dropped : Change queue h s { s with type := .invalid }
  | flushed {s' : Socket} (htype : s.type ≠ .invalid) (hs : Flush s s') : Change queue h s s'
  | lingers {s' : Socket} (htype : s.type ≠ .invalid) (hs : Flush s s')
      (hleft : s'.sendBufferEmpty = false) : Change queue h s { s' with type := .halfclose }
  | queued {p : Priority} {buf : WriteBuffer} (hbuf : queue p buf)
      (htype : s.type ≠ .invalid ∧ s.type ≠ .halfclose ∧ s.type ≠ .paccept ∧ s.type ≠ .plisten ∧
        s.type ≠ .listen) :
      Change queue h s
        { s.setList ((s.list p).append buf) p with wbSize := s.wbSize + buf.sz }
  | opened {id fd : Int} {protocol : Protocol} {opaqueData : Nat} {type : SocketType}
      {address : List UInt8} (hid : hashId id = h) (hreserve : s.type = .reserve)
      (hlists : s.high = .empty ∧ s.low = .empty)
      (htype : type ≠ .invalid ∧ type ≠ .reserve ∧ type ≠ .halfclose) :
      Change queue h s { s with
        id := id, fd := fd, protocol := protocol, opaqueData := opaqueData, wbSize := 0
        type := type, udpAddress := address }
  | started {type : SocketType} {opaqueData : Nat}
      (htype : s.type = .paccept ∧ type = .connected ∨ s.type = .plisten ∧ type = .listen ∨
        s.type = .connected ∧ type = .connected) :
      Change queue h s { s with type := type, opaqueData := opaqueData }
  | connected (htype : s.type = .connecting) : Change queue h s { s with type := .connected }
  | addressed (address : List UInt8) : Change queue h s { s with udpAddress := address }

/-- From `w` to `w'` at most the slot `h` changes. -/
structure Touches (queue : Priority → WriteBuffer → Prop) (h : Nat) (w w' : Sockets) : Prop where
  soi : w'.soi = w.soi
  other : ∀ i ≠ h, w'.slot i = w.slot i
  change : w'.slot h = w.slot h ∨ Change queue h (w.slot h) (w'.slot h)

/-- What a failed assertion says about the slots. -/
def Fails (w : Sockets) : Fault → Prop
  | .sendBuffer => ∃ h, listUncomplete (w.slot h).low = true
  | .raiseUncomplete => False
  | .appendSendbuffer => ∃ h p, ¬ ((w.slot h).list p).WellFormed
  | _ => True

section Close

variable {w w' w'' : Sockets} {h : Nat} {s : Socket}

/-- No descriptor came in. -/
structure Local (w w' : Sockets) : Prop where
  soi : w'.soi = w.soi
  obtained (fd : Int) : .obtain fd ∈ w'.log ↔ .obtain fd ∈ w.log
  given (fd : Int) : .given fd ∈ w'.log ↔ .given fd ∈ w.log

theorem Local.refl (w : Sockets) : Local w w := ⟨rfl, fun _ => Iff.rfl, fun _ => Iff.rfl⟩

theorem Local.trans (hw : Local w w') (hw' : Local w' w'') : Local w w'' :=
  ⟨hw'.soi.trans hw.soi, fun fd => (hw'.obtained fd).trans (hw.obtained fd),
    fun fd => (hw'.given fd).trans (hw.given fd)⟩

theorem Local.of_log {es : List Effect} (hsoi : w'.soi = w.soi) (hlog : w'.log = w.log ++ es)
    (hes : Inners es) : Local w w' := by
  refine ⟨hsoi, ?_, ?_⟩
  · intro fd
    rw [hlog, List.mem_append]
    exact or_iff_left fun hmem => hes _ hmem
  · intro fd
    rw [hlog, List.mem_append]
    exact or_iff_left fun hmem => hes _ hmem

/-- What leaves the log alone. -/
theorem Local.of_eq (hsoi : w'.soi = w.soi) (hlog : w'.log = w.log) : Local w w' :=
  have hnil : w'.log = w.log ++ [] := by rw [hlog, List.append_nil]
  .of_log hsoi hnil Inners.nil

/-- From `w` to `w'` the slot `h` is closed and no other changes. -/
structure Closes (h : Nat) (w w' : Sockets) : Prop where
  inner : Local w w'
  other : ∀ i ≠ h, w'.slot i = w.slot i
  type : (w.slot h).type ≠ .reserve
  slot : ∃ n, w'.slot h = (w.slot h).closed n
  poll : w'.poll = Function.update w.poll (w.slot h).fd none

theorem closed_sent (s : Socket) (p : Priority) (chain : List WriteBuffer) (n : Nat) (m : Int) :
    (s.sent p chain n).closed m = s.closed m := by
  cases p with
  | high => rfl
  | low => rfl

theorem type_sent (s : Socket) (p : Priority) (chain : List WriteBuffer) (n : Nat) :
    (s.sent p chain n).type = s.type := by
  cases p with
  | high => rfl
  | low => rfl

theorem fd_sent (s : Socket) (p : Priority) (chain : List WriteBuffer) (n : Nat) :
    (s.sent p chain n).fd = s.fd := by
  cases p with
  | high => rfl
  | low => rfl

/-- A list was sent from before the close. -/
theorem Closes.of_sent {p : Priority} {chain : List WriteBuffer} {n : Nat}
    (hw : Closes h w' w'') (hinner : Local w w')
    (hpoll : Function.update w'.poll (w.slot h).fd none =
      Function.update w.poll (w.slot h).fd none)
    (hslot : w'.slot = Function.update w.slot h ((w.slot h).sent p chain n)) :
    Closes h w w'' := by
  have hself : w'.slot h = (w.slot h).sent p chain n := by
    rw [hslot, Function.update_self]
  obtain ⟨m, hm⟩ := hw.slot
  have htype := hw.type
  rw [hself, type_sent] at htype
  rw [hself, closed_sent] at hm
  refine ⟨hinner.trans hw.inner, ?_, htype, ⟨m, hm⟩, ?_⟩
  · intro i hi
    rw [hw.other i hi, hslot, Function.update_of_ne hi]
  · rw [hw.poll, hself, fd_sent, hpoll]

theorem forceClose_ends (htype : (w.slot h).type ≠ .invalid) :
    (w.forceClose h).Ends (Closes h w) fun e => e = .forceClose := by
  unfold Sockets.forceClose
  dsimp only
  rw [if_neg htype]
  apply Outcome.Ends.bind
  · apply Outcome.Ends.assert
    intro _
    rfl
  intro _ hreserve
  have hfree : Inners (((w.slot h).high.chain ++ (w.slot h).low.chain).map WriteBuffer.free) := by
    intro e he
    obtain ⟨wb, _, rfl⟩ := List.mem_map.mp he
    trivial
  refine ⟨?_, ?_, hreserve, ⟨(w.slot h).wbSize, ?_⟩, ?_⟩
  · have hone : ∀ fd, Inners [.close fd] := fun fd => .cons trivial .nil
    have hemit : Local w (w.emit _) := .of_log rfl rfl hfree
    split_ifs
    · exact hemit.trans (.of_log rfl rfl (hone _))
    · exact hemit.trans (.of_log rfl rfl (hone _))
    · exact hemit.trans (.of_eq rfl rfl)
    · exact hemit.trans (.of_eq rfl rfl)
  · intro i hi
    rw [Sockets.set_slot_ne _ hi]
    split_ifs <;> rfl
  · rw [Sockets.set_slot]
    rfl
  · split_ifs with hbind hwait hwait
    · exact Function.update_idem ..
    · rfl
    · rfl
    · rw [not_not] at hbind
      rw [hbind] at hwait
      exact absurd ⟨by decide, by decide⟩ hwait

/-- What `send_list` does to a socket: it is closed, or bytes of a list went out. -/
def Sends (h : Nat) (p : Priority) (w : Sockets) (r : Sockets × Bool × List WriteResult) : Prop :=
  if r.2.1 then Closes h w r.1
  else (Local w r.1 ∧ r.1.poll = w.poll) ∧ ∃ chain n, Sent ((w.slot h).list p).chain chain n ∧
    r.1.slot = Function.update w.slot h ((w.slot h).sent p chain n)

/-- `send_list` after its loop -/
def afterLoop (w : Sockets) (h : Nat) (priority : Priority) (p : Progress) :
    M (Sockets × Bool × List WriteResult) := do
  let s := w.slot h
  let tail := if p.ending = .drained then none else (s.list priority).tail
  let w := (w.emit p.effects).set h
    { s.setList ⟨p.chain, tail⟩ priority with wbSize := s.wbSize - p.sent }
  if p.ending = .failed then
    let w ← w.forceClose h
    return (w, true, p.ws)
  else return (w, false, p.ws)

theorem afterLoop_ends (htype : (w.slot h).type ≠ .invalid) {p : Priority} {r : Progress}
    (hr : r.Of ((w.slot h).list p).chain) :
    (afterLoop w h p r).Ends (Sends h p w) fun e => e = .forceClose := by
  unfold afterLoop
  dsimp only
  have hslot : (((w.emit r.effects).set h
      { (w.slot h).setList ⟨r.chain, if r.ending = .drained then none
        else ((w.slot h).list p).tail⟩ p with wbSize := (w.slot h).wbSize - r.sent }).slot =
      Function.update w.slot h ((w.slot h).sent p r.chain r.sent)) := by
    rw [Socket.sent, WbList.left, if_congr hr.2.1 rfl rfl]
    rfl
  split
  · apply Outcome.Ends.bind (forceClose_ends ?_)
    · intro w' hw'
      exact hw'.of_sent (.of_log rfl rfl hr.2.2) rfl hslot
    · rw [hslot, Function.update_self, type_sent]
      exact htype
  · exact ⟨⟨.of_log rfl rfl hr.2.2, rfl⟩, r.chain, r.sent, hr.1, hslot⟩

theorem sendList_ends (htype : (w.slot h).type ≠ .invalid) (p : Priority)
    (ws : List WriteResult) :
    (w.sendList h p ws).Ends (Sends h p w) fun e => e = .forceClose := by
  unfold Sockets.sendList
  dsimp only
  split
  · exact .bind (sendTcp_ends ..) fun _ hr => afterLoop_ends htype hr
  · exact .bind (sendUdp_ends ..) fun _ hr => afterLoop_ends htype hr

theorem raiseUncomplete_eq {tmp : WriteBuffer} {rest : List WriteBuffer}
    (hlow : s.low.chain = tmp :: rest) (hhigh : s.high.chain = []) :
    raiseUncomplete s = .ok (s.raised tmp rest) := by
  have hleft : (if rest = [] then WbList.empty else ⟨rest, s.low.tail⟩) = s.low.left rest := by
    rw [WbList.left]
    split
    · rename_i hnil
      rw [hnil]
      rfl
    · rfl
  unfold raiseUncomplete
  rw [hlow]
  dsimp only
  rw [hleft, Outcome.assert, if_pos hhigh]
  rfl

/-- What `send_buffer` does. -/
def Flushes (h : Nat) (w : Sockets) (r : Sockets × Bool) : Prop :=
  if r.2 then Closes h w r.1
  else (Local w r.1 ∧ (r.1.poll = w.poll ∨ (r.1.slot h).sendBufferEmpty = true ∧
      r.1.poll = (w.spWrite (w.slot h).fd h false).poll)) ∧
    (∀ i ≠ h, r.1.slot i = w.slot i) ∧ Flush (w.slot h) (r.1.slot h)

/-- `send_buffer` after the low list was sent from -/
theorem afterLow_ends {w1 : Sockets} {n : Nat} {r : Sockets × Bool × List WriteResult}
    {may : Fault → Prop} (hsent : Sent (w.slot h).high.chain [] n)
    (hlocal : Local w w1 ∧ w1.poll = w.poll)
    (hslot : w1.slot = Function.update w.slot h ((w.slot h).sent .high [] n))
    (hr : Sends h .low w1 r) :
    (if r.2.1 = true then pure (r.1, true)
      else if listUncomplete (r.1.slot h).low = true then do
        let s ← raiseUncomplete (r.1.slot h)
        pure (r.1.set h s, false)
      else pure (r.1, false) : M (Sockets × Bool)).Ends (Flushes h w) may := by
  cases hclosed : r.2.1 with
  | true =>
      rw [Sends, hclosed] at hr
      exact hr.of_sent hlocal.1 (by rw [hlocal.2]) hslot
  | false =>
      rw [Sends, hclosed] at hr
      obtain ⟨hlocal', chain, m, hlow, hslot'⟩ := hr
      have hboth : Local w r.1 := hlocal.1.trans hlocal'.1
      have hpoll : r.1.poll = w.poll := hlocal'.2.trans hlocal.2
      have hself1 : w1.slot h = (w.slot h).sent .high [] n := by
        rw [hslot, Function.update_self]
      have hself : r.1.slot h = ((w.slot h).sent .high [] n).sent .low chain m := by
        rw [hslot', Function.update_self, hself1]
      have hother : ∀ i ≠ h, r.1.slot i = w.slot i := by
        intro i hi
        rw [hslot', Function.update_of_ne hi, hslot, Function.update_of_ne hi]
      rw [hself1] at hlow
      rw [if_neg Bool.false_ne_true]
      cases hhead : listUncomplete (r.1.slot h).low with
      | true =>
          rw [if_pos rfl]
          rw [hself] at hhead
          cases chain with
          | nil => cases hhead
          | cons tmp rest =>
              have hraise : raiseUncomplete (r.1.slot h) = .ok ((r.1.slot h).raised tmp rest) := by
                apply raiseUncomplete_eq
                · rw [hself]
                  rfl
                · rw [hself]
                  rfl
              rw [hraise]
              refine ⟨⟨hboth.trans (.of_eq rfl rfl), Or.inl hpoll⟩, ?_, ?_⟩
              · intro i hi
                rw [Sockets.set_slot_ne _ hi, hother i hi]
              · rw [Sockets.set_slot, hself]
                exact .raise hsent hlow (of_decide_eq_true hhead)
      | false =>
          rw [if_neg Bool.false_ne_true]
          refine ⟨⟨hboth, Or.inl hpoll⟩, hother, ?_⟩
          rw [hself] at hhead ⊢
          exact .low hsent hlow hhead

theorem sendBuffer_ends (htype : (w.slot h).type ≠ .invalid) (ws : List WriteResult) :
    (w.sendBuffer h ws).Ends (Flushes h w) fun e =>
      e = .forceClose ∨ e = .sendBuffer ∧ listUncomplete (w.slot h).low = true := by
  unfold Sockets.sendBuffer
  apply Outcome.Ends.bind
  · apply Outcome.Ends.assert
    intro hhead
    exact Or.inr ⟨rfl, by simpa using hhead⟩
  intro _ hhead
  apply Outcome.Ends.bind ((sendList_ends htype .high ws).mono (fun _ hr => hr) fun _ => Or.inl)
  intro r hr
  dsimp only
  cases hclosed : r.2.1 with
  | true =>
      rw [Sends, hclosed] at hr
      exact hr
  | false =>
      rw [Sends, hclosed] at hr
      obtain ⟨hlocal, chain, n, hsent, hslot⟩ := hr
      have hself : r.1.slot h = (w.slot h).sent .high chain n := by
        rw [hslot, Function.update_self]
      have hother : ∀ i ≠ h, r.1.slot i = w.slot i := by
        intro i hi
        rw [hslot, Function.update_of_ne hi]
      have htype1 : (r.1.slot h).type ≠ .invalid := by
        rw [hself]
        exact htype
      rw [if_neg Bool.false_ne_true]
      by_cases hhigh : (r.1.slot h).high.chain = []
      · have hnil : chain = [] := by
          rw [hself] at hhigh
          exact hhigh
        rw [if_pos hhigh]
        by_cases hlow : (r.1.slot h).low.chain = []
        · rw [if_neg (not_not_intro hlow)]
          have hfd : (r.1.slot h).fd = (w.slot h).fd := by
            rw [hself, fd_sent]
          have hflush : Flush (w.slot h) (r.1.slot h) := by
            rw [hself] at hlow ⊢
            exact .high hsent (Or.inr hlow)
          split
          · apply Outcome.Ends.bind ((forceClose_ends ?_).mono (fun _ hw' => hw') fun _ => Or.inl)
            · intro w' hw'
              apply Closes.of_sent hw'
              · exact hlocal.1.trans (.of_eq (Sockets.spWrite_soi ..) (Sockets.spWrite_log ..))
              · rw [hfd, Sockets.spWrite_poll_update, hlocal.2]
              · rw [Sockets.spWrite_slot, hslot]
            · rw [Sockets.spWrite_slot]
              exact htype1
          · refine ⟨⟨?_, Or.inr ⟨?_, ?_⟩⟩, ?_, ?_⟩
            · exact hlocal.1.trans (.of_eq (Sockets.spWrite_soi ..) (Sockets.spWrite_log ..))
            · rw [Sockets.spWrite_slot, Socket.sendBufferEmpty, hhigh, hlow]
              rfl
            · rw [hfd]
              exact Sockets.spWrite_poll_congr hlocal.2 ..
            · intro i hi
              rw [Sockets.spWrite_slot, hother i hi]
            · rw [Sockets.spWrite_slot]
              exact hflush
        · rw [if_pos hlow]
          rw [hnil] at hsent hself hslot
          apply Outcome.Ends.bind
            ((sendList_ends htype1 .low r.2.2).mono (fun _ hr => hr) fun _ => Or.inl)
          intro r' hr'
          exact afterLow_ends hsent hlocal hslot hr'
      · rw [if_neg hhigh]
        refine ⟨⟨hlocal.1, Or.inl hlocal.2⟩, hother, ?_⟩
        rw [hself] at hhigh ⊢
        exact .high hsent (Or.inl hhigh)

end Close

/-! ## Commands and events -/

section Handlers

variable {queue : Priority → WriteBuffer → Prop} {w w' w'' : Sockets} {h : Nat} {s : Socket}
  {id : Int}

theorem Touches.same (hsoi : w'.soi = w.soi) (hslot : w'.slot = w.slot) :
    Touches queue h w w' := by
  refine ⟨hsoi, ?_, Or.inl ?_⟩
  · intro i _
    rw [hslot]
  · rw [hslot]

theorem Touches.of_update (hsoi : w'.soi = w.soi) (hslot : w'.slot = Function.update w.slot h s)
    (hs : Change queue h (w.slot h) s) : Touches queue h w w' := by
  refine ⟨hsoi, ?_, Or.inr ?_⟩
  · intro i hi
    rw [hslot, Function.update_of_ne hi]
  · rw [hslot, Function.update_self]
    exact hs

theorem Touches.set (hsoi : w'.soi = w.soi) (hslot : w'.slot = w.slot)
    (hs : Change queue h (w.slot h) s) : Touches queue h w (w'.set h s) :=
  .of_update hsoi (by rw [Sockets.set, hslot]) hs

/-- What is done to the poll set or the log besides makes no difference. -/
theorem Touches.congr_left (hw : Touches queue h w' w'') (hsoi : w'.soi = w.soi)
    (hslot : w'.slot = w.slot) : Touches queue h w w'' := by
  refine ⟨hw.soi.trans hsoi, ?_, ?_⟩
  · rw [← hslot]
    exact hw.other
  · rw [← hslot]
    exact hw.change

theorem Touches.congr_right (hw : Touches queue h w w') (hsoi : w''.soi = w'.soi)
    (hslot : w''.slot = w'.slot) : Touches queue h w w'' := by
  refine ⟨hsoi.trans hw.soi, ?_, ?_⟩
  · rw [hslot]
    exact hw.other
  · rw [hslot]
    exact hw.change

theorem Closes.touches (hw : Closes h w w') : Touches queue h w w' := by
  obtain ⟨n, hn⟩ := hw.slot
  refine ⟨hw.inner.soi, hw.other, Or.inr ?_⟩
  rw [hn]
  exact .closed n hw.type

theorem Flushes.touches (htype : (w.slot h).type ≠ .invalid) {r : Sockets × Bool}
    (hr : Flushes h w r) : Touches queue h w r.1 := by
  unfold Flushes at hr
  split at hr
  · exact hr.touches
  · exact ⟨hr.1.1.soi, hr.2.1, Or.inr (.flushed htype hr.2.2)⟩

/-- The buffer that `append_sendbuffer_` makes. -/
def Sockets.buffered (w : Sockets) (buffer : Nat) (sz : Int) (n : Nat) (address : List UInt8) :
    WriteBuffer :=
  let so := sendObjectInit w.soi buffer sz
  ⟨w.node, buffer, so.buffer + n, so.sz - n, so.userobject, address⟩

theorem appendSendbuffer_ends {p : Priority} {buffer n : Nat} {sz : Int} {address : List UInt8}
    (hqueue : queue p (w.buffered buffer sz n address))
    (htype : (w.slot h).type ≠ .invalid ∧ (w.slot h).type ≠ .halfclose ∧
      (w.slot h).type ≠ .paccept ∧ (w.slot h).type ≠ .plisten ∧ (w.slot h).type ≠ .listen) :
    (w.appendSendbuffer h p buffer sz n address).Ends (Touches queue h w) (Fails w) := by
  have hdone : Touches queue h w ({ w with node := w.node + 1 }.set h
      { (w.slot h).setList ((((w.slot h).list p)).append (w.buffered buffer sz n address)) p with
        wbSize := (w.slot h).wbSize + (w.buffered buffer sz n address).sz }) :=
    .of_update rfl rfl (.queued hqueue htype)
  unfold Sockets.appendSendbuffer
  dsimp only
  split
  · apply Outcome.Ends.bind
    · apply Outcome.Ends.assert
      intro htail
      exact ⟨h, p, htail⟩
    · intro _ _
      exact hdone
  · exact hdone

/-- `send_socket` with `PRIORITY_LOW` comes to the low list. -/
def Sockets.QueuesLow (w : Sockets) (id : Int) (buffer : Nat) (sz : Int) (ws : WriteResult) :
    Prop :=
  let s := w.slot (hashId id)
  s.type ≠ .invalid ∧ s.id = id ∧ s.type ≠ .halfclose ∧ s.type ≠ .paccept ∧
    ¬ (s.sendBufferEmpty = true ∧ s.type = .connected ∧
      (s.protocol = .tcp ∨ ws = .ok (sendObjectInit w.soi buffer sz).sz))

/-- `send_socket` after the write that it tries at once -/
theorem afterWrite_ends {p : Priority} {buffer n : Nat} {sz : Int} {address : List UInt8}
    {log : List Effect} {w1 : Sockets} {fd : Int} {sent : Prop} [Decidable sent]
    (hw1 : Touches queue h w w1)
    (hqueue : ¬ sent → queue p (w.buffered buffer sz n address))
    (htype : (w.slot h).type = .connected) :
    (if sent then pure (w1, false)
      else do
        let w' ← Sockets.appendSendbuffer { w with log := log } h p buffer sz n address
        pure (w'.spWrite fd h true, false) : M (Sockets × Bool)).Ends
      (fun r => Touches queue h w r.1) (Fails w) := by
  split
  · exact hw1
  rename_i hrest
  have hends : (Sockets.appendSendbuffer { w with log := log } h p buffer sz n address).Ends
      (Touches queue h { w with log := log }) (Fails { w with log := log }) := by
    apply appendSendbuffer_ends
    · exact hqueue hrest
    · rw [htype]
      simp
  apply Outcome.Ends.bind (hends.mono (fun _ hw' => hw') ?_)
  · intro w' hw'
    have htouch : Touches queue h w w' := hw'.congr_left rfl rfl
    exact htouch.congr_right (Sockets.spWrite_soi ..) (Sockets.spWrite_slot ..)
  · intro e he
    cases e <;> exact he

theorem sendSocket_ends {buffer : Nat} {sz : Int} {priority : Priority} {ws : WriteResult}
    {udpAddress : Option (List UInt8)}
    (hhigh : ∀ n address, queue .high (w.buffered buffer sz n address))
    (hlow : priority = .low → w.QueuesLow id buffer sz ws →
      ∀ address, queue .low (w.buffered buffer sz 0 address)) :
    (w.sendSocket id buffer sz priority udpAddress ws).Ends
      (fun r => Touches queue (hashId id) w r.1) (Fails w) := by
  have hqueue : w.QueuesLow id buffer sz ws →
      ∀ address, queue priority (w.buffered buffer sz 0 address) := by
    cases priority with
    | high => exact fun _ => hhigh 0
    | low => exact hlow rfl
  unfold Sockets.sendSocket
  dsimp only
  split
  · exact .same rfl rfl
  rename_i htaken
  simp only [not_or, ne_eq, not_not] at htaken
  obtain ⟨hinvalid, hid, hhalf, hpaccept⟩ := htaken
  apply Outcome.Ends.bind
  · exact Outcome.Ends.assert fun _ => trivial
  intro _ hlisten
  split
  · rename_i hnow
    have hlater : (w.slot (hashId id)).protocol ≠ .tcp →
        ws ≠ .ok (sendObjectInit w.soi buffer sz).sz →
        ∀ address, queue priority (w.buffered buffer sz 0 address) := by
      intro hudp hsent
      exact hqueue ⟨hinvalid, hid, hhalf, hpaccept, fun hall => hall.2.2.elim hudp hsent⟩
    split
    · cases ws with
      | error =>
          apply Outcome.Ends.bind ((forceClose_ends hinvalid).mono (fun _ hw' => hw') ?_)
          · intro w' hw'
            exact hw'.touches
          · intro e he
            rw [he]
            trivial
      | _ =>
          apply Outcome.Ends.bind .answers
          intro _ _
          exact afterWrite_ends (.same rfl rfl) (fun _ => hhigh _ _) hnow.2
    · rename_i hudp
      cases ws with
      | _ => exact afterWrite_ends (.same rfl rfl) (fun hsent => hlater hudp hsent _) hnow.2
  · rename_i hlater
    apply Outcome.Ends.bind (appendSendbuffer_ends (hqueue ?_ _) ?_)
    · intro w' hw'
      exact hw'
    · exact ⟨hinvalid, hid, hhalf, hpaccept, fun h => hlater ⟨h.1, h.2.1⟩⟩
    · exact ⟨hinvalid, hhalf, hpaccept, hlisten⟩

/-- What leaves the slots alone. -/
def Keeps (w w' : Sockets) : Prop := w'.soi = w.soi ∧ w'.slot = w.slot

theorem obtain_ends (w : Sockets) (fd : Int) (may : Fault → Prop) :
    (w.obtain fd).Ends (Keeps w) may := by
  unfold Sockets.obtain
  apply Outcome.Ends.bind Outcome.Ends.answers
  intro _ _
  exact ⟨rfl, rfl⟩

theorem tryAll_ends (fds : List Int) (w : Sockets) (may : Fault → Prop) :
    (w.tryAll fds).Ends (Keeps w) may := by
  induction fds generalizing w with
  | nil => exact ⟨rfl, rfl⟩
  | cons fd fds ih =>
      apply Outcome.Ends.bind (obtain_ends w fd may)
      intro w' hw'
      apply (ih (w'.close fd)).imp
      intro w'' hw''
      exact ⟨hw''.1.trans hw'.1, hw''.2.trans hw'.2⟩

/-- The slot of a new socket, before it gets its type -/
def Socket.opened (s : Socket) (id fd : Int) (protocol : Protocol) (opaqueData : Nat) : Socket :=
  { s with id := id, fd := fd, protocol := protocol, opaqueData := opaqueData, wbSize := 0 }

/-- The descriptor is in the poll set afterwards if it was to be added, and was not before. -/
def Adds (h : Nat) (fd : Int) (add : Option Bool) (w : Sockets) (r : Bool × Sockets) : Prop :=
  if r.1 = true ∧ add.isSome = true then
    w.poll fd = none ∧ r.2.poll = Function.update w.poll fd (some (h, false))
  else r.2.poll = w.poll

/-- What `new_fd` does to the slot `h` of the id. -/
def Opens (h : Nat) (id fd : Int) (protocol : Protocol) (opaqueData : Nat) (add : Option Bool)
    (w : Sockets) (r : Bool × Sockets) : Prop :=
  (Local w r.2 ∧ Adds h fd add w r) ∧
    if r.1 then
      (w.slot h).type = .reserve ∧ ((w.slot h).high = .empty ∧ (w.slot h).low = .empty) ∧
        r.2.slot = Function.update w.slot h ((w.slot h).opened id fd protocol opaqueData)
    else r.2.slot = Function.update w.slot h { w.slot h with type := .invalid }

/-- The assertions of `new_fd` -/
def NewFails (e : Fault) : Prop := e = .newFd ∨ e = .checkWbList

theorem NewFails.fails {e : Fault} (he : NewFails e) : Fails w e := by
  cases he with
  | inl he =>
      rw [he]
      trivial
  | inr he =>
      rw [he]
      trivial

theorem newFd_ends (w : Sockets) (id fd : Int) (protocol : Protocol) (opaqueData : Nat)
    (add : Option Bool) :
    (w.newFd id fd protocol opaqueData add).Ends
      (Opens (hashId id) id fd protocol opaqueData add w) NewFails := by
  unfold Sockets.newFd
  dsimp only
  apply Outcome.Ends.bind
  · apply Outcome.Ends.assert
    exact fun _ => Or.inl rfl
  intro _ hreserve
  have hadd : ∀ r : Bool × Sockets, Local w r.2 → r.2.slot = w.slot →
      Adds (hashId id) fd add w r →
      (if r.1 = true then do
        Outcome.assert .checkWbList ((r.2.slot (hashId id)).high = .empty ∧
          (r.2.slot (hashId id)).low = .empty)
        pure (true, r.2.set (hashId id)
          ((r.2.slot (hashId id)).opened id fd protocol opaqueData))
        else pure (false, r.2.setType (hashId id) .invalid) : M (Bool × Sockets)).Ends
          (Opens (hashId id) id fd protocol opaqueData add w) NewFails := by
    intro r hlocal hslot hadds
    have hmore : ∀ x, Local w (r.2.set (hashId id) x) := fun x => hlocal.trans (.of_eq rfl rfl)
    unfold Adds at hadds
    cases hok : r.1 with
    | true =>
        rw [hok] at hadds
        rw [if_pos rfl]
        apply Outcome.Ends.bind
        · apply Outcome.Ends.assert
          exact fun _ => Or.inr rfl
        intro _ hlists
        rw [hslot] at hlists ⊢
        refine ⟨⟨hmore _, hadds⟩, hreserve, hlists, ?_⟩
        rw [Sockets.set, hslot]
    | false =>
        rw [hok] at hadds
        rw [if_neg Bool.false_ne_true]
        refine ⟨⟨hmore _, hadds⟩, ?_⟩
        rw [if_neg Bool.false_ne_true, Sockets.setType, Sockets.set, hslot]
  cases add with
  | none => exact hadd (true, w) (.refl w) rfl (by rw [Adds, if_neg (by simp)])
  | some answer =>
      apply hadd (w.spAdd fd (hashId id) answer)
      · exact .of_eq (Sockets.spAdd_soi ..) (Sockets.spAdd_log ..)
      · exact Sockets.spAdd_slot ..
      · unfold Adds
        cases hok : (w.spAdd fd (hashId id) answer).1 with
        | true => exact Sockets.spAdd_ok w hok
        | false => exact Sockets.spAdd_not_ok w hok

section New

variable {fd : Int} {protocol : Protocol} {opaqueData : Nat} {add : Option Bool}
  {r : Bool × Sockets}

theorem Opens.dropped (hr : Opens (hashId id) id fd protocol opaqueData add w r)
    (hno : r.1 = false) :
    Touches queue (hashId id) w r.2 := by
  unfold Opens at hr
  rw [hno] at hr
  exact .of_update hr.1.1.soi hr.2 .dropped

/-- The new socket gets its type. -/
theorem Opens.typed {address : List UInt8}
    (hr : Opens (hashId id) id fd protocol opaqueData add w r) (hyes : r.1 = true)
      (type : SocketType)
    (htype : type ≠ .invalid ∧ type ≠ .reserve ∧ type ≠ .halfclose) (hsoi : w'.soi = r.2.soi)
    (hslot : w'.slot = Function.update r.2.slot (hashId id)
      { r.2.slot (hashId id) with type := type, udpAddress := address }) :
    Touches queue (hashId id) w w' := by
  unfold Opens at hr
  rw [hyes, if_pos rfl] at hr
  obtain ⟨hlocal, hreserve, hlists, hr'⟩ := hr
  apply Touches.of_update (hsoi.trans hlocal.1.soi)
  · rw [hslot, hr', Function.update_idem, Function.update_self]
  · exact .opened rfl hreserve hlists htype

theorem Opens.setType (hr : Opens (hashId id) id fd protocol opaqueData add w r) (hyes : r.1 = true)
    (type : SocketType) (htype : type ≠ .invalid ∧ type ≠ .reserve ∧ type ≠ .halfclose) :
    Touches queue (hashId id) w (r.2.setType (hashId id) type) :=
  hr.typed hyes type htype rfl rfl

end New

theorem openSocket_ends (w : Sockets) (id : Int) (opaqueData : Nat) (k : Answers) :
    (w.openSocket id opaqueData k).Ends (fun r => Touches queue (hashId id) w r.1) NewFails := by
  unfold Sockets.openSocket
  dsimp only
  apply Outcome.Ends.bind (tryAll_ends k.tried w _)
  intro w1 hw1
  split
  · have hdrop : Touches queue (hashId id) w1 (w1.setType (hashId id) .invalid) :=
      .of_update rfl rfl .dropped
    exact hdrop.congr_left hw1.1 hw1.2
  rename_i sock connected _
  apply Outcome.Ends.bind (obtain_ends w1 sock _)
  intro w2 hw2
  have hsoi : w2.soi = w.soi := hw2.1.trans hw1.1
  have hslot : w2.slot = w.slot := hw2.2.trans hw1.2
  apply Outcome.Ends.bind (newFd_ends ..)
  intro r hr
  obtain ⟨ok, w'⟩ := r
  cases ok with
  | true =>
      rw [if_pos rfl]
      split
      · have hopen : Touches queue (hashId id) w2 (w'.setType (hashId id) .connected) :=
          hr.setType rfl .connected (by decide)
        exact hopen.congr_left hsoi hslot
      · have hopen : Touches queue (hashId id) w2 (w'.setType (hashId id) .connecting) :=
          hr.setType rfl .connecting (by decide)
        have hwrite := hopen.congr_right (Sockets.spWrite_soi _ sock (hashId id) true)
          (Sockets.spWrite_slot ..)
        exact hwrite.congr_left hsoi hslot
  | false =>
      have hdrop : Touches queue (hashId id) w2 w' := hr.dropped rfl
      have hclose := hdrop.congr_right (Sockets.close_soi _ sock) (Sockets.close_slot ..)
      exact hclose.congr_left hsoi hslot

theorem listenSocket_ends (w : Sockets) (id fd : Int) (opaqueData : Nat) :
    (w.listenSocket id fd opaqueData).Ends (fun r => Touches queue (hashId id) w r.1)
      NewFails := by
  unfold Sockets.listenSocket
  apply Outcome.Ends.bind (newFd_ends ..)
  intro r hr
  obtain ⟨ok, w'⟩ := r
  cases ok with
  | true => exact hr.setType rfl .plisten (by decide)
  | false => exact (hr.dropped rfl).congr_right (Sockets.close_soi ..) (Sockets.close_slot ..)

theorem bindSocket_ends (w : Sockets) (id fd : Int) (opaqueData : Nat) (add : Bool) :
    (w.bindSocket id fd opaqueData add).Ends (fun r => Touches queue (hashId id) w r.1)
      NewFails := by
  unfold Sockets.bindSocket
  apply Outcome.Ends.bind (newFd_ends ..)
  intro r hr
  obtain ⟨ok, w'⟩ := r
  cases ok with
  | true => exact hr.setType rfl .bind (by decide)
  | false => exact hr.dropped rfl

theorem addUdpSocket_ends (w : Sockets) (id fd : Int) (family : Protocol) (opaqueData : Nat)
    (add : Bool) :
    (w.addUdpSocket id fd family opaqueData add).Ends (fun r => Touches queue (hashId id) w r.1)
      NewFails := by
  unfold Sockets.addUdpSocket
  apply Outcome.Ends.bind (newFd_ends ..)
  intro r hr
  obtain ⟨ok, w'⟩ := r
  cases ok with
  | true => exact hr.typed rfl .connected (by decide) rfl rfl
  | false => exact (hr.dropped rfl).congr_right (Sockets.close_soi ..) (Sockets.close_slot ..)

theorem acceptSocket_ends (w : Sockets) (id fd : Int) (listener : Nat) :
    (w.acceptSocket id fd listener).Ends (fun r => Touches queue (hashId id) w r.1)
      NewFails := by
  unfold Sockets.acceptSocket
  apply Outcome.Ends.bind (newFd_ends ..)
  intro r hr
  obtain ⟨ok, w'⟩ := r
  cases ok with
  | true => exact hr.setType rfl .paccept (by decide)
  | false => exact (hr.dropped rfl).congr_right (Sockets.close_soi ..) (Sockets.close_slot ..)

theorem startSocket_touches (w : Sockets) (id : Int) (opaqueData : Nat) (add : Bool) :
    Touches queue (hashId id) w (w.startSocket id opaqueData add).1 := by
  unfold Sockets.startSocket
  dsimp only
  have hsoi := Sockets.spAdd_soi w (w.slot (hashId id)).fd (hashId id) add
  have hslot := Sockets.spAdd_slot w (w.slot (hashId id)).fd (hashId id) add
  split_ifs with hdead hwait hok htype hlive
  · exact .same rfl rfl
  · exact .set hsoi hslot (.started (Or.inl ⟨htype, rfl⟩))
  · exact .set hsoi hslot (.started (Or.inr (Or.inl ⟨hwait.resolve_left htype, rfl⟩)))
  · rw [Sockets.setType, hslot]
    exact .set hsoi hslot .dropped
  · have hstart : Change queue (hashId id) (w.slot (hashId id))
        { w.slot (hashId id) with type := .connected, opaqueData := opaqueData } :=
      .started (Or.inr (Or.inr ⟨hlive, rfl⟩))
    rw [← hlive] at hstart
    exact .set rfl rfl hstart
  · exact .same rfl rfl

theorem setUdpAddress_touches (w : Sockets) (id : Int) (address : List UInt8) :
    Touches queue (hashId id) w (w.setUdpAddress id address).1 := by
  unfold Sockets.setUdpAddress
  dsimp only
  split_ifs
  · exact .same rfl rfl
  · exact .same rfl rfl
  · exact .set rfl rfl (.addressed _)
  · exact .set rfl rfl (.addressed _)

section Live

variable {s' : Socket} {may : Fault → Prop}

theorem Flush.type (hs : Flush s s') : s'.type = s.type := by
  cases hs with
  | high => rfl
  | low => rfl
  | raise => rfl

theorem Flush.closed (hs : Flush s s') (n : Int) : s'.closed n = s.closed n := by
  cases hs with
  | high => rfl
  | low => rfl
  | raise => rfl

theorem forceClose_fails (htype : (w.slot h).type ≠ .invalid) :
    (w.forceClose h).Ends (Closes h w) (Fails w') := by
  apply (forceClose_ends htype).mono (fun _ hw' => hw')
  intro e he
  rw [he]
  trivial

theorem sendBuffer_fails (htype : (w.slot h).type ≠ .invalid) (ws : List WriteResult) :
    (w.sendBuffer h ws).Ends (Flushes h w) (Fails w) := by
  apply (sendBuffer_ends htype ws).mono (fun _ hr => hr)
  intro e he
  cases he with
  | inl he =>
      rw [he]
      trivial
  | inr he =>
      rw [he.1]
      exact ⟨h, he.2⟩

theorem Flush.same_id (hs : Flush s s') : s'.id = s.id := by
  cases hs with
  | high => rfl
  | low => rfl
  | raise => rfl

/-- A slot that is in use afterwards was in use, for the same id if it did not get one of its
own. -/
theorem Change.place (hs : Change queue h s s') (huse : s'.type ≠ .invalid) :
    s.type ≠ .invalid ∧ (s'.id = s.id ∨ hashId s'.id = h) := by
  cases hs with
  | closed n htype => exact absurd rfl huse
  | dropped => exact absurd rfl huse
  | flushed htype hs => exact ⟨htype, Or.inl hs.same_id⟩
  | lingers htype hs hleft => exact ⟨htype, Or.inl hs.same_id⟩
  | @queued p buf hbuf htype =>
      refine ⟨htype.1, Or.inl ?_⟩
      cases p with
      | high => rfl
      | low => rfl
  | opened hid hreserve =>
      rw [hreserve]
      exact ⟨by decide, Or.inr hid⟩
  | started htype =>
      refine ⟨?_, Or.inl rfl⟩
      intro hinvalid
      rw [hinvalid] at htype
      simp at htype
  | connected htype =>
      rw [htype]
      exact ⟨by decide, Or.inl rfl⟩
  | addressed address => exact ⟨huse, Or.inl rfl⟩

/-- From `SOCKET_TYPE_HALFCLOSE` there is only the close. -/
theorem Change.halfclose (hs : Change queue h s s') (htype : s.type = .halfclose)
    (huse : s'.type ≠ .invalid) : s'.type = .halfclose := by
  cases hs with
  | closed n hreserve => exact absurd rfl huse
  | dropped => exact absurd rfl huse
  | flushed hlive hs => exact hs.type.trans htype
  | lingers hlive hs hleft => rfl
  | queued hbuf hopen => exact absurd htype hopen.2.1
  | opened hid hreserve =>
      rw [hreserve] at htype
      cases htype
  | started hstart =>
      rw [htype] at hstart
      simp at hstart
  | connected hconn =>
      rw [hconn] at htype
      cases htype
  | addressed address => exact htype

/-- `close_socket` after `send_buffer` -/
theorem afterFlush_ends {r : Sockets × Bool} {a b c : Poll} (htype : (w.slot h).type ≠ .invalid)
    (hr : r = (w, false) ∧ (w.slot h).sendBufferEmpty = true ∨ Flushes h w r) :
    (if r.2 = true then pure (r.1, a)
      else if (r.1.slot h).sendBufferEmpty = true then do
        let w' ← r.1.forceClose h
        pure (w', b)
      else pure (r.1.setType h .halfclose, c) : M (Sockets × Poll)).Ends
      (fun r => Touches queue h w r.1) (Fails w) := by
  obtain ⟨w', closed⟩ := r
  cases hr with
  | inl hempty =>
      obtain ⟨hsame, hempty⟩ := hempty
      obtain ⟨rfl, rfl⟩ := Prod.mk.inj hsame
      rw [if_neg Bool.false_ne_true, if_pos hempty]
      apply Outcome.Ends.bind (forceClose_fails htype)
      intro w'' hw''
      exact hw''.touches
  | inr hflush =>
      cases closed with
      | true => exact Closes.touches hflush
      | false =>
          obtain ⟨⟨hlocal, _⟩, hother, hs⟩ := hflush
          rw [if_neg Bool.false_ne_true]
          split
          · apply Outcome.Ends.bind (forceClose_fails ?_)
            · intro w'' hw''
              obtain ⟨n, hn⟩ := hw''.slot
              refine ⟨hw''.inner.soi.trans hlocal.soi,
                fun i hi => (hw''.other i hi).trans (hother i hi), ?_⟩
              rw [hn, hs.closed]
              right
              apply Change.closed
              rw [← hs.type]
              exact hw''.type
            · rw [hs.type]
              exact htype
          · rename_i hleft
            refine ⟨hlocal.soi, fun i hi => ?_, Or.inr ?_⟩
            · exact (Sockets.set_slot_ne _ hi _).trans (hother i hi)
            · rw [Sockets.setType_slot]
              exact .lingers htype hs (Bool.eq_false_iff.mpr hleft)

theorem closeSocket_ends (w : Sockets) (id : Int) (opaqueData : Nat) (ws : List WriteResult) :
    (w.closeSocket id opaqueData ws).Ends (fun r => Touches queue (hashId id) w r.1)
      (Fails w) := by
  unfold Sockets.closeSocket
  dsimp only
  split
  · exact .same rfl rfl
  rename_i hlive
  have htype : (w.slot (hashId id)).type ≠ .invalid := fun h => hlive (Or.inl h)
  split
  · rename_i hempty
    exact afterFlush_ends (a := .loop) htype (Or.inl ⟨rfl, hempty⟩)
  · apply Outcome.Ends.bind (sendBuffer_fails htype ws)
    intro r hr
    exact afterFlush_ends htype (Or.inr hr)

theorem reportConnect_ends (k : Answers) (htype : (w.slot h).type = .connecting) :
    (w.reportConnect h k).Ends (fun r => Touches queue h w r.1) (Fails w) := by
  unfold Sockets.reportConnect
  dsimp only
  split
  · apply Outcome.Ends.bind (forceClose_fails ?_)
    · intro w' hw'
      exact hw'.touches
    · rw [htype]
      decide
  · have hconn : Touches queue h w (w.setType h .connected) :=
      .set rfl rfl (.connected htype)
    split
    · exact hconn.congr_right (Sockets.spWrite_soi ..) (Sockets.spWrite_slot ..)
    · exact hconn

theorem reportAccept_ends (k : Answers) :
    (w.reportAccept h k).Ends (fun r => Touches queue h w r.1) may := by
  unfold Sockets.reportAccept
  dsimp only
  split
  · exact .same rfl rfl
  · exact .same rfl rfl
  · apply Outcome.Ends.bind (obtain_ends ..)
    intro w' hw'
    exact .same hw'.1 hw'.2

theorem forwardTcp_ends (k : Answers) (htype : (w.slot h).type ≠ .invalid) :
    (w.forwardTcp h k).Ends (fun r => Touches queue h w r.1) (Fails w) := by
  have hclose : ∀ msg, ((w.forceClose h).bind fun w' => .ok (w', msg) :
      M (Sockets × Option SocketMessage)).Ends (fun r => Touches queue h w r.1) (Fails w) := by
    intro msg
    apply Outcome.Ends.bind (forceClose_fails htype)
    intro w' hw'
    exact hw'.touches
  unfold Sockets.forwardTcp
  dsimp only
  split
  · exact .same rfl rfl
  · exact .same rfl rfl
  · exact hclose _
  · exact hclose _
  · exact .same rfl rfl

theorem forwardUdp_ends (k : Answers) (htype : (w.slot h).type ≠ .invalid) :
    (w.forwardUdp h k).Ends (fun r => Touches queue h w r.1) (Fails w) := by
  unfold Sockets.forwardUdp
  dsimp only
  split
  · exact .same rfl rfl
  · exact .same rfl rfl
  · apply Outcome.Ends.bind (forceClose_fails htype)
    intro w' hw'
    exact hw'.touches
  · exact .same rfl rfl
  · exact .same rfl rfl

/-- The switch of `socket_server_poll` after a read -/
theorem afterRead_ends {r : Sockets × Option SocketMessage} {e kept : Option Event}
    (hr : Touches queue h w r.1) :
    (match r.2 with
      | none => pure (r.1, kept, .loop)
      | some msg =>
        if msg.kind = .udp then pure (r.1, e, .report msg) else pure (r.1, kept, .clear msg) :
      M (Sockets × Option Event × Poll)).Ends (fun r => Touches queue h w r.1) (Fails w) := by
  split
  · exact hr
  · split
    · exact hr
    · exact hr

theorem handleEvent_ends (e : Event) (k : Answers) :
    (w.handleEvent h e k).Ends (fun r => Touches queue h w r.1) (Fails w) := by
  unfold Sockets.handleEvent
  dsimp only
  split
  · rename_i htype
    apply Outcome.Ends.bind (reportConnect_ends k htype)
    intro r hr
    exact hr
  · apply Outcome.Ends.bind (reportAccept_ends k)
    intro r hr
    exact hr
  · exact .same rfl rfl
  rename_i htype
  have hlive : (w.slot h).type ≠ .invalid := htype
  split
  · split
    · apply Outcome.Ends.bind (forwardTcp_ends k hlive)
      intro r hr
      exact afterRead_ends hr
    · apply Outcome.Ends.bind (forwardUdp_ends k hlive)
      intro r hr
      exact afterRead_ends hr
  · split
    · apply Outcome.Ends.bind (sendBuffer_fails hlive k.ws)
      intro r hr
      exact hr.touches hlive
    · exact .same rfl rfl

end Live

/-- The slot that a command names. -/
def Command.slot : Command → Nat
  | .start id _ | .bind id _ _ | .listen id _ _ | .close id _ | .open id _ _ _ | .send id _ _
  | .sendLow id _ _ | .sendUdp id _ _ _ | .setUdp id _ | .setopt id _ _ | .udp id _ _ _ =>
    hashId id
  | .exit => 0

/-- What a command may queue. -/
def Sockets.MayQueue (w : Sockets) (queue : Priority → WriteBuffer → Prop) (cmd : Command)
    (k : Answers) : Prop :=
  match cmd with
  | .send _ sz buffer | .sendUdp _ sz buffer _ =>
    ∀ n address, queue .high (w.buffered buffer sz n address)
  | .sendLow id sz buffer =>
    (∀ n address, queue .high (w.buffered buffer sz n address)) ∧
      (w.QueuesLow id buffer sz (k.ws.headD .eagain) →
        ∀ address, queue .low (w.buffered buffer sz 0 address))
  | _ => True

theorem ctrlCmd_ends (cmd : Command) (k : Answers) (hqueue : w.MayQueue queue cmd k) :
    (w.ctrlCmd cmd k).Ends (fun r => Touches queue cmd.slot w r.1) (Fails w) := by
  have hnew : ∀ {x : M (Sockets × Poll)} {post : Sockets × Poll → Prop}, x.Ends post NewFails →
      x.Ends post (Fails w) := by
    intro x post hx
    exact hx.mono (fun _ hr => hr) fun _ he => he.fails
  have hhigh : Priority.high ≠ .low := by decide
  unfold Sockets.ctrlCmd
  cases cmd with
  | start id opaqueData => exact startSocket_touches w id opaqueData k.add
  | bind id fd opaqueData => exact hnew (bindSocket_ends w id fd opaqueData k.add)
  | listen id fd opaqueData => exact hnew (listenSocket_ends w id fd opaqueData)
  | close id opaqueData => exact closeSocket_ends w id opaqueData k.ws
  | «open» id port opaqueData host => exact hnew (openSocket_ends w id opaqueData k)
  | exit => exact .same rfl rfl
  | send id sz buffer =>
      dsimp only
      apply Outcome.Ends.bind (sendSocket_ends hqueue fun h => absurd h hhigh)
      intro r hr
      exact hr
  | sendLow id sz buffer =>
      dsimp only
      apply Outcome.Ends.bind (sendSocket_ends hqueue.1 fun _ => hqueue.2)
      intro r hr
      exact hr
  | sendUdp id sz buffer address =>
      dsimp only
      apply Outcome.Ends.bind (sendSocket_ends hqueue fun h => absurd h hhigh)
      intro r hr
      exact hr
  | setUdp id address => exact setUdpAddress_touches w id address
  | setopt id what value => exact .same rfl rfl
  | udp id fd family opaqueData => exact hnew (addUdpSocket_ends w id fd family opaqueData k.add)

end Handlers

end Jump.Skynet.SocketServer
