import Jump.Skynet.SocketServer.Reserve
import Jump.Skynet.SocketServer.Steps
import Mathlib.Logic.Relation

/-! # Commands for ids that are no longer in use

The runs in which nobody comes between the steps of a `reserve_id`, and what a command does to
slots that do not hold the id it names.
-/

namespace Jump.Skynet.SocketServer

open Jump.Core

/-- The id that a command of the types `S`, `K`, `D`, `P`, `A`, `C` and `T` names. -/
def Command.named : Command → Option Int
  | .start id _ | .close id _ | .send id _ _ | .sendLow id _ _ | .sendUdp id _ _ _ | .setUdp id _
  | .setopt id _ _ => some id
  | .bind _ _ _ | .listen _ _ _ | .open _ _ _ _ | .exit | .udp _ _ _ _ => none

/-- The slot holds the id: it is not `SOCKET_TYPE_INVALID`, and the id is its own. -/
def Sockets.Holds (w : Sockets) (h : Nat) (id : Int) : Prop :=
  h < MAX_SOCKET ∧ (w.slot h).type ≠ .invalid ∧ (w.slot h).id = id

namespace Server

/-- The rest of a call of `reserve_id`, step after step of the same thread. -/
inductive Block (a : Action) : Server → Server → Prop
  | last {s s' : Server} {r : Reserve} (hat : s.At r a) (hs : s.step a = .ok s')
      (hend : ¬ s'.Reserving a) : Block a s s'
  | more {s s' s'' : Server} {r : Reserve} (hat : s.At r a) (hs : s.step a = .ok s')
      (hmore : s'.Reserving a) (hrest : Block a s' s'') : Block a s s''

/-- A step, where a call of `reserve_id` is one step. -/
inductive Atomic : Server → Server → Prop
  | step {s s' : Server} {a : Action} (ha : ¬ s.Reserving a) (hs : s.step a = .ok s') : Atomic s s'
  | reserve {s s' : Server} {a : Action} (hat : s.At (.fetch 0) a) (hs : Block a s s') :
      Atomic s s'

/-- What is reached from `socket_server_create` in such steps. -/
def Reached (memory : Nat → Socket) (soi : ObjectInterface) (s : Server) : Prop :=
  Relation.ReflTransGen Atomic (create memory soi) s

end Server

section Place

variable {queue : Priority → WriteBuffer → Prop} {w w' : Sockets} {h : Nat} {s s' : Socket}

theorem Touches.placed (hw : Touches queue h w w') (hplaced : w.Placed) : w'.Placed := by
  intro i hi huse
  by_cases hih : i = h
  · rw [hih] at hi huse ⊢
    cases hw.change with
    | inl hsame =>
        rw [hsame] at huse ⊢
        exact hplaced h hi huse
    | inr hchange =>
        obtain ⟨hold, hid⟩ := hchange.place huse
        cases hid with
        | inl hsame =>
            rw [hsame]
            exact hplaced h hi hold
        | inr hnew => exact hnew
  · rw [hw.other i hih] at huse ⊢
    exact hplaced i hi huse

/-- Where `reserve_id` stands between the two stores, the slot that it took is left out. -/
def PlacedAt (r : Reserve) (w : Sockets) : Prop :=
  ∀ h < MAX_SOCKET, (∀ id, r = .storeId id → h ≠ hashId id) → (w.slot h).type ≠ .invalid →
    hashId (w.slot h).id = h

theorem Sockets.Placed.placedAt (hw : w.Placed) (r : Reserve) : PlacedAt r w :=
  fun h hh _ huse => hw h hh huse

theorem PlacedAt.placed {r : Reserve} (hw : PlacedAt r w) (hr : ∀ id, r ≠ .storeId id) :
    w.Placed :=
  fun h hh huse => hw h hh (fun id heq => absurd heq (hr id)) huse

/-- After a step of `reserve_id`, in the call or at its end -/
def PlacedAfter : Reserved → Sockets → Prop
  | .go r, w => PlacedAt r w
  | .done _, w => w.Placed

theorem reserveStep_placed {r : Reserve} (a : Int) (hw : PlacedAt r w) :
    PlacedAfter (reserveStep w a r).2.2 (reserveStep w a r).1 := by
  cases r with
  | fetch i =>
      have hplaced : w.Placed := hw.placed (by simp)
      rw [reserveStep]
      split
      · exact hplaced.placedAt _
      · exact hplaced
  | wrap i => exact (hw.placed (by simp)).placedAt _
  | look i id => exact (hw.placed (by simp)).placedAt _
  | cas i id =>
      have hplaced : w.Placed := hw.placed (by simp)
      rw [reserveStep]
      split
      · intro h hh hne huse
        have hother : h ≠ hashId id := hne id rfl
        rw [Sockets.setType, Sockets.set_slot_ne w hother] at huse ⊢
        exact hplaced h hh huse
      · exact hplaced.placedAt _
  | storeId id =>
      rw [reserveStep]
      intro h hh _ huse
      by_cases hself : h = hashId id
      · rw [hself, Sockets.set_slot]
      · rw [Sockets.set_slot_ne w hself] at huse ⊢
        refine hw h hh ?_ huse
        intro id' heq
        obtain rfl := Reserve.storeId.inj heq
        exact hself
  | storeFd id =>
      have hplaced : w.Placed := hw.placed (by simp)
      rw [reserveStep]
      intro h hh huse
      by_cases hself : h = hashId id
      · rw [hself, Sockets.set_slot] at huse ⊢
        rw [hself] at hh
        exact hplaced _ hh huse
      · rw [Sockets.set_slot_ne w hself] at huse ⊢
        exact hplaced h hh huse

theorem Keeps.placed (hw : Keeps w w') (hplaced : w.Placed) : w'.Placed := by
  unfold Sockets.Placed
  rw [hw.2]
  exact hplaced

end Place

section Run

variable {s s' : Server} {a : Server.Action}

/-- A step of `reserve_id` is one of `reserveStep`; at the end nothing else is done to the slots. -/
theorem step_at {r : Reserve} (hat : s.At r a) (hs : s.step a = .ok s') :
    Keeps (reserveStep s.sockets s.allocId r).1 s'.sockets ∧
      match (reserveStep s.sockets s.allocId r).2.2 with
      | .go r' => s'.At r' a ∧ ∀ r'', s'.At r'' a → r'' = r'
      | .done _ => ¬ s'.Reserving a := by
  cases a with
  | call call => exact hat.elim
  | thread i =>
      obtain ⟨p, ht⟩ := hat
      have hlen := (List.getElem?_eq_some_iff.mp ht).1
      have hget : ∀ t, (s.threads.set i t)[i]? = some t := by
        intro t
        rw [List.getElem?_set_self hlen]
      unfold Server.step at hs
      dsimp only at hs
      rw [ht] at hs
      dsimp only at hs
      rw [Server.threadStep] at hs
      dsimp only at hs
      split at hs
      · rename_i r' hgo
        obtain rfl := Outcome.ok.inj hs
        refine ⟨⟨rfl, rfl⟩, ?_⟩
        rw [hgo]
        refine ⟨⟨p, hget _⟩, ?_⟩
        intro r'' hr''
        obtain ⟨p', ht'⟩ := hr''
        have heq := Option.some.inj ((hget _).symm.trans ht')
        exact (Thread.reserve.inj heq).1.symm
      · rename_i id hdone
        split at hs
        · obtain rfl := Outcome.ok.inj hs
          refine ⟨giveUp_keeps _ p, ?_⟩
          rw [hdone]
          intro hr
          obtain ⟨r'', p', ht'⟩ := hr
          cases Option.some.inj ((hget _).symm.trans ht')
        · obtain rfl := Outcome.ok.inj hs
          refine ⟨⟨rfl, rfl⟩, ?_⟩
          rw [hdone]
          intro hr
          obtain ⟨r'', p', ht'⟩ := hr
          cases Option.some.inj ((hget _).symm.trans ht')
  | socket k =>
      obtain ⟨fd, listener, hpc⟩ := hat
      unfold Server.step at hs
      dsimp only at hs
      unfold Server.socketStep at hs
      rw [hpc] at hs
      dsimp only at hs
      split at hs
      · rename_i r' hgo
        obtain rfl := Outcome.ok.inj hs
        refine ⟨⟨rfl, rfl⟩, ?_⟩
        rw [hgo]
        refine ⟨⟨fd, listener, rfl⟩, ?_⟩
        intro r'' hr''
        obtain ⟨fd', listener', hpc'⟩ := hr''
        exact (Poll.accepting.inj hpc').1.symm
      · rename_i id hdone
        split at hs
        · obtain rfl := Outcome.ok.inj hs
          refine ⟨⟨rfl, rfl⟩, ?_⟩
          rw [hdone]
          intro hr
          obtain ⟨r'', fd', listener', hpc'⟩ := hr
          cases hpc'
        · obtain rfl := Outcome.ok.inj hs
          refine ⟨⟨rfl, rfl⟩, ?_⟩
          rw [hdone]
          intro hr
          obtain ⟨r'', fd', listener', hpc'⟩ := hr
          cases hpc'

/-- What is carried through a call of `reserve_id`. -/
theorem step_placedAt {r : Reserve} (hat : s.At r a) (hs : s.step a = .ok s')
    (hplaced : PlacedAt r s.sockets) :
    (¬ s'.Reserving a → s'.sockets.Placed) ∧ ∀ r', s'.At r' a → PlacedAt r' s'.sockets := by
  have hstep := reserveStep_placed s.allocId hplaced
  obtain ⟨hkeeps, hnext⟩ := step_at hat hs
  cases hres : (reserveStep s.sockets s.allocId r).2.2 with
  | go r1 =>
      rw [hres] at hstep hnext
      have hafter : PlacedAt r1 s'.sockets := by
        unfold PlacedAt
        rw [hkeeps.2]
        exact hstep
      refine ⟨?_, ?_⟩
      · intro hend
        exact absurd ⟨r1, hnext.1⟩ hend
      · intro r' hr'
        rw [hnext.2 r' hr']
        exact hafter
  | done id =>
      rw [hres] at hstep hnext
      have hafter : s'.sockets.Placed := hkeeps.placed hstep
      exact ⟨fun _ => hafter, fun r' _ => hafter.placedAt r'⟩

theorem block_placed (hb : Server.Block a s s') :
    (∀ r, s.At r a → PlacedAt r s.sockets) → s'.sockets.Placed := by
  induction hb with
  | last hat hs hend => exact fun hplaced => (step_placedAt hat hs (hplaced _ hat)).1 hend
  | more hat hs hmore hrest ih => exact fun hplaced => ih (step_placedAt hat hs (hplaced _ hat)).2

/-- The thread after `reserve_id` -/
def finished (s : Server) (i : Nat) (p : Pending) (w : Sockets) (allocId id : Int) : Server :=
  if id < 0 then
    { s with sockets := p.giveUp w, allocId := allocId, threads := s.threads.set i (.done (-1)) }
  else
    { s with
      sockets := w, allocId := allocId, threads := s.threads.set i (.request (p.command id) id) }

/-- The steps of one call come to what `reserveRun` says. -/
theorem block_run {i n : Nat} {p : Pending} {r : Reserve} {w : Sockets} {allocId id : Int}
    (ht : s.threads[i]? = some (.reserve r p))
    (hrun : reserveRun s.sockets s.allocId r n = some (w, allocId, id)) :
    Server.Block (.thread i) s (finished s i p w allocId id) := by
  induction n generalizing s r with
  | zero => cases hrun
  | succ n ih =>
      have hlen := (List.getElem?_eq_some_iff.mp ht).1
      have hget : ∀ t, (s.threads.set i t)[i]? = some t := by
        intro t
        rw [List.getElem?_set_self hlen]
      cases hres : reserveStep s.sockets s.allocId r with
      | mk w1 res =>
          obtain ⟨a1, res⟩ := res
          rw [reserveRun, hres] at hrun
          cases res with
          | go r1 =>
              have hs : s.step (.thread i) = .ok { s with
                  sockets := w1, allocId := a1, threads := s.threads.set i (.reserve r1 p) } := by
                unfold Server.step
                dsimp only
                rw [ht]
                dsimp only
                rw [Server.threadStep, hres]
                rfl
              have hrest := ih (s := { s with
                sockets := w1, allocId := a1, threads := s.threads.set i (.reserve r1 p) })
                (hget _) hrun
              unfold finished at hrest ⊢
              rw [List.set_set, List.set_set] at hrest
              exact .more ⟨p, ht⟩ hs ⟨r1, p, hget _⟩ hrest
          | done id1 =>
              obtain ⟨rfl, rfl, rfl⟩ : w1 = w ∧ a1 = allocId ∧ id1 = id := by
                simpa using hrun
              have hs : s.step (.thread i) = .ok (finished s i p w1 a1 id1) := by
                unfold Server.step finished
                dsimp only
                rw [ht]
                dsimp only
                rw [Server.threadStep, hres]
                dsimp only
                split
                · rfl
                · rfl
              refine .last ⟨p, ht⟩ hs ?_
              intro hr
              obtain ⟨r', p', ht'⟩ := hr
              unfold finished at ht'
              split at ht'
              · cases (hget _).symm.trans ht'
              · cases (hget _).symm.trans ht'

theorem reached_placed {memory : Nat → Socket} {soi : ObjectInterface}
    (hs : Server.Reached memory soi s) : s.sockets.Placed := by
  induction hs with
  | refl =>
      intro h _ huse
      exact absurd rfl huse
  | tail _ hstep ih =>
      cases hstep with
      | @step a ha hs =>
          obtain ⟨h, htouch⟩ := (step_touches ha (step_any _ a)).of_ok hs
          exact htouch.placed ih
      | reserve hat hs => exact block_placed hs fun r _ => ih.placedAt r

end Run

section Command

variable {w : Sockets} {cmd : Command} {id : Int}

/-- What is only freed, and neither written nor closed -/
def Frees (es : List Effect) : Prop := ∀ e ∈ es, ∃ buffer userobject, e = .free buffer userobject

theorem Frees.nil : Frees [] := fun _ he => absurd he List.not_mem_nil

theorem Frees.one (buffer : Nat) (userobject : Bool) : Frees [.free buffer userobject] := by
  intro e he
  rw [List.mem_singleton.mp he]
  exact ⟨buffer, userobject, rfl⟩

/-- A send to a slot of another socket, or of none, frees the buffer. -/
theorem sendSocket_dead (hdead : (w.slot (hashId id)).type = .invalid ∨
    (w.slot (hashId id)).id ≠ id) (buffer : Nat) (sz : Int) (priority : Priority)
    (udpAddress : Option (List UInt8)) (ws : WriteResult) :
    w.sendSocket id buffer sz priority udpAddress ws =
      .ok (w.emit [.free buffer (sendObjectInit w.soi buffer sz).userobject], false) := by
  unfold Sockets.sendSocket
  dsimp only
  have hrefused : (w.slot (hashId id)).type = .invalid ∨ (w.slot (hashId id)).id ≠ id ∨
      (w.slot (hashId id)).type = .halfclose ∨ (w.slot (hashId id)).type = .paccept :=
    hdead.imp_right Or.inl
  rw [if_pos hrefused]
  rfl

theorem ctrlCmd_dead (hcmd : cmd.named = some id)
    (hdead : (w.slot (hashId id)).type = .invalid ∨ (w.slot (hashId id)).id ≠ id)
    (k : Answers) : ∃ es next, w.ctrlCmd cmd k = .ok (w.emit es, next) ∧ Frees es := by
  cases cmd with
  | start i opaqueData =>
      obtain rfl := Option.some.inj hcmd
      refine ⟨[], .clear ⟨.error, opaqueData, i, 0⟩, ?_, .nil⟩
      rw [Sockets.ctrlCmd, Sockets.startSocket, if_pos hdead, Sockets.emit_nil]
  | close i opaqueData =>
      obtain rfl := Option.some.inj hcmd
      refine ⟨[], .clear ⟨.close, opaqueData, i, 0⟩, ?_, .nil⟩
      rw [Sockets.ctrlCmd, Sockets.closeSocket, if_pos hdead, Sockets.emit_nil]
      rfl
  | send i sz buffer | sendLow i sz buffer | sendUdp i sz buffer address =>
      obtain rfl := Option.some.inj hcmd
      rw [Sockets.ctrlCmd]
      dsimp only
      rw [sendSocket_dead hdead]
      exact ⟨_, _, rfl, .one _ _⟩
  | setUdp i address =>
      obtain rfl := Option.some.inj hcmd
      refine ⟨[], .loop, ?_, .nil⟩
      rw [Sockets.ctrlCmd, Sockets.setUdpAddress, if_pos hdead, Sockets.emit_nil]
  | setopt i what value => exact ⟨[], .loop, by rw [Sockets.emit_nil]; rfl, .nil⟩
  | bind | listen | «open» | exit | udp => cases hcmd

theorem slot_named (hcmd : cmd.named = some id) : cmd.slot = hashId id := by
  cases cmd with
  | start | close | send | sendLow | sendUdp | setUdp | setopt =>
      obtain rfl := Option.some.inj hcmd
      rfl
  | bind | listen | «open» | exit | udp => cases hcmd

end Command

/-- A command whose id no slot holds frees its buffer at most; one whose id a slot holds leaves all
others alone. -/
theorem stale_isolated {memory : Nat → Socket} {soi : ObjectInterface} {s : Server}
    {cmd : Command} {id : Int} (hs : Server.Reached memory soi s) (hcmd : cmd.named = some id)
    (k : Answers) :
    ((∀ h, ¬ s.sockets.Holds h id) → ∃ es next,
      s.sockets.ctrlCmd cmd k = .ok (s.sockets.emit es, next) ∧ Frees es) ∧
    ∀ h, s.sockets.Holds h id → ∀ r, s.sockets.ctrlCmd cmd k = .ok r →
      ∀ i ≠ h, r.1.slot i = s.sockets.slot i := by
  refine ⟨?_, ?_⟩
  · intro hnone
    apply ctrlCmd_dead hcmd
    by_contra hlive
    simp only [not_or, ne_eq, not_not] at hlive
    exact hnone (hashId id) ⟨hashId_lt id, hlive⟩
  · intro h hholds r hr i hi
    obtain ⟨hlt, huse, hid⟩ := hholds
    have hplace : hashId id = h := by
      rw [← hid]
      exact reached_placed hs h hlt huse
    have htouch := (ctrlCmd_ends cmd k (ctrlCmd_any _ cmd k)).of_ok hr
    rw [slot_named hcmd, hplace] at htouch
    exact htouch.other i hi

/-- After the first call of `socket_server_connect` reserved the id 1 -/
def reserved : Server :=
  finished { created with threads := [.reserve (.fetch 0) (.open 80 7 [])] } 0 (.open 80 7 [])
    (created.sockets.reserved 1) 1 1

theorem reserved_reached :
    Server.Reached (fun _ => .zero) created.sockets.soi reserved := by
  have hcall : Server.Atomic created
      { created with threads := [.reserve (.fetch 0) (.open 80 7 [])] } :=
    .step (a := .call (.connect 80 7 [])) (fun h => h.elim fun _ hat => hat) rfl
  have hrun : reserveRun created.sockets 0 (.fetch 0) 5 =
      some (created.sockets.reserved 1, 1, 1) := by
    have hid : toInt (uint32OfInt (0 + 1)) = 1 := by decide
    rw [reserveRun, reserveStep, if_pos (by decide)]
    dsimp only
    rw [hid, if_neg (by decide)]
    exact reserveRun_free rfl
  exact (Relation.ReflTransGen.single hcall).tail
    (.reserve (a := .thread 0) ⟨_, rfl⟩ (block_run rfl hrun))

/-- The slot that the id 1 has in the second round is left alone. -/
theorem stale_isolated_reserved : reserved.sockets.Holds 1 1 ∧ ∃ es next,
    reserved.sockets.ctrlCmd (.close 65537 9) (.writing []) =
      .ok (reserved.sockets.emit es, next) ∧ Frees es := by
  refine ⟨⟨by decide, by decide, by decide⟩, (stale_isolated reserved_reached rfl _).1 ?_⟩
  intro h hholds
  obtain ⟨_, huse, hid⟩ := hholds
  have hslots : reserved.sockets = created.sockets.reserved 1 := rfl
  rw [hslots, Sockets.reserved] at huse hid
  by_cases hself : h = hashId 1
  · rw [hself, Sockets.set_slot] at hid
    exact absurd hid (by decide)
  · rw [Sockets.set_slot_ne _ hself] at huse
    exact huse rfl

end Jump.Skynet.SocketServer
