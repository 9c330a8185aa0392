import Jump.Skynet.SocketServer.Polled
import Mathlib.Data.List.Perm.Basic

/-! # No stranded output

What all threads do with the descriptors, and that in every run a socket with something to send has
its write events enabled, unless a bound socket is sent to or a slot is used before it is ready.
-/

namespace Jump.Skynet.SocketServer

open Jump.Core

/-! ## Who has a descriptor -/

def Pending.held : Pending → Option Int
  | .listen fd _ | .udp fd _ _ => some fd
  | _ => none

def Pending.given : Pending → Option Int
  | .bind fd _ => some fd
  | _ => none

def Thread.held : Thread → Option Int
  | .reserve _ p => p.held
  | .request cmd _ | .sendRequest cmd _ _ _ => cmd.held
  | _ => none

def Thread.given : Thread → Option Int
  | .reserve _ p => p.given
  | .request cmd _ | .sendRequest cmd _ _ _ => cmd.given
  | _ => none

/-- The socket thread is about to go round the loop in `socket_server_poll`. -/
def Poll.looping : Poll → Bool
  | .loop => true
  | _ => false

/-- The types of sockets that can have something to send. -/
def SocketType.sends : SocketType → Bool
  | .connecting | .connected | .halfclose | .bind => true
  | _ => false

/-- A socket that has something to send has its write events enabled. -/
def Sockets.Watched (w : Sockets) : Prop :=
  ∀ h, (w.slot h).type.sends = true → (w.slot h).sendBufferEmpty = false →
    w.poll (w.slot h).fd = some (h, true)

theorem Owned.watched {w : Sockets} {held given : List Int} (ho : Owned w held given) :
    w.Watched := by
  intro h hsends hmore
  have hp : (w.slot h).type.polled = true := by
    cases htype : (w.slot h).type with
    | connecting | connected | halfclose | bind => rfl
    | _ =>
        rw [htype] at hsends
        cases hsends
  obtain ⟨b, hb, hon⟩ := (ho.slot h).polled hp
  rw [hb, hon (Or.inl hmore)]

namespace Server

def held (s : Server) : List Int :=
  s.threads.filterMap Thread.held ++ (s.pipe.filterMap Command.held ++ s.pc.held.toList)

def given (s : Server) : List Int :=
  s.threads.filterMap Thread.given ++ s.pipe.filterMap Command.given

/-- The id for which the step is the last store of `reserve_id`. -/
def storing (s : Server) : Action → Option Int
  | .call _ => none
  | .thread i =>
    match s.threads[i]? with
    | some (.reserve (.storeFd id) _) => some id
    | _ => none
  | .socket _ =>
    match s.pc with
    | .accepting (.storeFd id) _ _ => some id
    | _ => none

/-- No socket loses its write events in the step, or misses them: the last store of `reserve_id`
finds its slot not in use, the command is none that `Sockets.Fine` excludes, and no write event
that is left over finds a slot that is reserved. -/
def Fine (s : Server) (a : Action) : Prop :=
  (∀ id ∈ s.storing a, (s.sockets.slot (hashId id)).type = .invalid ∨
    (s.sockets.slot (hashId id)).type = .reserve) ∧
  match a with
  | .socket k => s.pc.looping = true →
      (s.checkctrl = true → k.hasCmd = true → ∀ cmd ∈ s.pipe.head?, s.sockets.Fine cmd) ∧
      (s.checkctrl = false → ∀ e ∈ s.ev.head?, ∀ h ∈ e.s, e.read = false → e.write = true →
        (s.sockets.slot h).type ≠ .reserve)
  | _ => True

end Server

section Reserve

variable {w w' : Sockets} {held given : List Int} {s : Server}

/-- A slot that is not in use, before and after. -/
theorem Owned.unused {h : Nat} {x : Socket} (ho : Owned w held given)
    (hx : x.type = .invalid ∨ x.type = .reserve) : Owned (w.set h x) held given := by
  have hfree : x.type.polled = false ∧ x.type.waiting = false := by
    cases hx with
    | inl hx => rw [hx]; exact ⟨rfl, rfl⟩
    | inr hx => rw [hx]; exact ⟨rfl, rfl⟩
  have hlocal : Local w (w.set h x) := .of_eq rfl rfl
  apply ho.of_slot (h := h) hlocal
  · exact fun i hi => Sockets.set_slot_ne _ hi _
  · rfl
  · intro hw
    rw [Sockets.set_slot, hfree.2] at hw
    cases hw
  · rw [Sockets.set_slot]
    exact .free hfree.1 hfree.2

theorem reserveStep_owned (ho : Owned w held given) (a : Int) (r : Reserve)
    (hr : ∀ id, r = .storeFd id → (w.slot (hashId id)).type = .invalid ∨
      (w.slot (hashId id)).type = .reserve) :
    Owned (reserveStep w a r).1 held given := by
  cases r with
  | fetch i =>
      rw [reserveStep]
      split
      · exact ho
      · exact ho
  | wrap i => exact ho
  | look i id => exact ho
  | cas i id =>
      rw [reserveStep]
      split
      · exact ho.unused (Or.inr rfl)
      · exact ho
  | storeId id =>
      have hlocal : Local w (reserveStep w a (.storeId id)).1 := .of_eq rfl rfl
      apply ho.same (h := hashId id) hlocal
      · exact fun i hi => Sockets.set_slot_ne _ hi _
      · rfl
      · rw [reserveStep, Sockets.set_slot]
      · rw [reserveStep, Sockets.set_slot]
      · rw [reserveStep, Sockets.set_slot]
        rfl
  | storeFd id => exact ho.unused (hr id rfl)

theorem command_held (id : Int) (p : Pending) : (p.command id).held = p.held := by
  cases p with
  | «open» | listen | bind | udp => rfl

theorem command_given (id : Int) (p : Pending) : (p.command id).given = p.given := by
  cases p with
  | «open» | listen | bind | udp => rfl

/-- Of what a thread in `reserve_id` has, nothing is left. -/
theorem giveUp_owned (p : Pending) (ho : Owned w (p.held.toList ++ held) given) :
    Owned (p.giveUp w) held given := by
  cases p with
  | listen fd opaqueData => exact ho.release
  | udp fd family opaqueData => exact ho.release
  | «open» port opaqueData host => exact ho
  | bind fd opaqueData => exact ho

end Reserve

section Thread

variable {w : Sockets} {held given : List Int} {s : Server}

theorem call_owned (ho : Owned s.sockets held given) (call : Call) :
    (s.call call).Ensures
      fun r => Owned r.1 (r.2.held.toList ++ held) (r.2.given.toList ++ given) := by
  cases call with
  | connect port opaqueData host =>
      rw [Server.call]
      split
      · exact .pure ho
      · exact .pure ho
  | listen tried fd opaqueData | udp tried fd family opaqueData =>
      refine .bind (tryAll_owned ho tried) fun w1 hw1 => ?_
      cases fd with
      | none => exact .pure hw1
      | some fd => exact .bind (obtain_owned hw1 fd) fun w2 hw2 => .pure hw2
  | bind fd opaqueData =>
      refine .bind .answers fun _ hnew => ?_
      exact .pure (ho.hand hnew)
  | start | close | nodelay | exit => exact .pure ho
  | send kind id sz buffer =>
      refine .bind .answers fun _ _ => ?_
      exact .pure (ho.emit (.cons trivial .nil))
  | udpConnect id address =>
      cases address with
      | none => exact .pure ho
      | some address => exact .pure ho

theorem sendCommand_none {kind : SendKind} {id sz : Int} {buffer : Nat} {cmd : Command}
    (hcmd : kind.command id sz buffer = some cmd) : cmd.held = none ∧ cmd.given = none := by
  cases kind with
  | high | low =>
      obtain rfl := Option.some.inj hcmd
      exact ⟨rfl, rfl⟩
  | udp address =>
      obtain ⟨n, _, rfl⟩ := Option.map_eq_some_iff.mp hcmd
      exact ⟨rfl, rfl⟩

theorem refuse_owned (ho : Owned s.sockets held given) (buffer : Nat) :
    Owned (s.refuse buffer).1.sockets held given := ho.emit (.cons trivial .nil)

theorem filterMap_cons_toList {α : Type} (f : α → Option Int) (a : α) (l : List α) :
    (a :: l).filterMap f = (f a).toList ++ l.filterMap f := by
  cases hf : f a with
  | none => rw [List.filterMap_cons_none hf]; rfl
  | some fd => rw [List.filterMap_cons_some hf]; rfl

/-- A command goes from its thread to the pipe. -/
theorem Owned.request {cmd : Command} {pipe : List Command} {gone : List Int}
    (ho : Owned w (cmd.held.toList ++ (pipe.filterMap Command.held ++ held))
      (cmd.given.toList ++ (pipe.filterMap Command.given ++ gone))) :
    Owned w ((pipe ++ [cmd]).filterMap Command.held ++ held)
      ((pipe ++ [cmd]).filterMap Command.given ++ gone) := by
  rw [List.filterMap_append, List.filterMap_append, List.append_assoc, List.append_assoc,
    filterMap_cons_toList, filterMap_cons_toList, List.append_assoc, List.append_assoc]
  apply ho.perm
  · exact List.perm_append_comm_assoc ..
  · intro fd hfd
    exact (List.perm_append_comm_assoc ..).mem_iff.mpr hfd

theorem threadStep_owned (t : Thread)
    (ho : Owned s.sockets (t.held.toList ++ (s.pipe.filterMap Command.held ++ held))
      (t.given.toList ++ (s.pipe.filterMap Command.given ++ given)))
    (hr : ∀ id p, t = .reserve (.storeFd id) p →
      (s.sockets.slot (hashId id)).type = .invalid ∨
        (s.sockets.slot (hashId id)).type = .reserve) :
    (s.threadStep t).Ensures fun r =>
      (r.1.threads = s.threads ∧ r.1.pc = s.pc) ∧
        Owned r.1.sockets (r.2.held.toList ++ (r.1.pipe.filterMap Command.held ++ held))
          (r.2.given.toList ++ (r.1.pipe.filterMap Command.given ++ given)) := by
  cases t with
  | done ret => exact .stuck
  | reserve r p =>
      have hstep := reserveStep_owned ho s.allocId r fun id heq => hr id p (by rw [heq])
      rw [Server.threadStep]
      dsimp only
      split
      · exact .pure ⟨⟨rfl, rfl⟩, hstep⟩
      · split
        · refine .pure ⟨⟨rfl, rfl⟩, ?_⟩
          apply (giveUp_owned p hstep).mono
          · exact (giveUp_owned p hstep).nodup
          · exact fun _ hfd => hfd
          · exact fun _ hfd => List.mem_append_right _ hfd
        · rename_i id _ _
          refine .pure ⟨⟨rfl, rfl⟩, ?_⟩
          change Owned _ ((p.command id).held.toList ++ _) ((p.command id).given.toList ++ _)
          rw [command_held, command_given]
          exact hstep
  | request cmd ret => exact .pure ⟨⟨rfl, rfl⟩, ho.request⟩
  | send kind id sz buffer =>
      rw [Server.threadStep]
      split
      · split
        · exact .pure ⟨⟨rfl, rfl⟩, ho⟩
        · exact .pure ⟨⟨rfl, rfl⟩, refuse_owned ho buffer⟩
      · split
        · exact .pure ⟨⟨rfl, rfl⟩, refuse_owned ho buffer⟩
        · rename_i cmd hcmd
          refine .pure ⟨⟨rfl, rfl⟩, ?_⟩
          change Owned _ (cmd.held.toList ++ _) (cmd.given.toList ++ _)
          rw [(sendCommand_none hcmd).1, (sendCommand_none hcmd).2]
          exact ho
  | sendRequest cmd low id buffer =>
      rw [Server.threadStep]
      refine .pure ⟨⟨rfl, rfl⟩, ?_⟩
      split
      · exact ho.request
      · exact ho.request
  | checkWsz id buffer =>
      rw [Server.threadStep]
      split
      · exact .pure ⟨⟨rfl, rfl⟩, refuse_owned ho buffer⟩
      · exact .pure ⟨⟨rfl, rfl⟩, ho⟩

/-- What the threads have, where the thread `i` is `t`, in another order. -/
theorem perm_thread {f : Thread → Option Int} {threads : List Thread} {i : Nat} {t : Thread}
    (ht : threads[i]? = some t) (rest : List Int) :
    (threads.filterMap f ++ rest).Perm
      ((f t).toList ++ ((threads.eraseIdx i).filterMap f ++ rest)) := by
  obtain ⟨hi, rfl⟩ := List.getElem?_eq_some_iff.mp ht
  have hperm := ((List.getElem_cons_eraseIdx_perm hi).filterMap f).symm
  rw [filterMap_cons_toList] at hperm
  rw [← List.append_assoc]
  exact hperm.append_right rest

end Thread

section Step

variable {w : Sockets} {s s' : Server}

/-- What the socket thread has comes to the front, and back. -/
theorem Owned.front {threads pipe pc given : List Int}
    (ho : Owned w (threads ++ (pipe ++ pc)) given) : Owned w (pc ++ (threads ++ pipe)) given := by
  rw [← List.append_assoc] at ho
  exact ho.perm List.perm_append_comm fun _ hfd => hfd

theorem Owned.back {threads pipe pc given : List Int}
    (ho : Owned w (pc ++ (threads ++ pipe)) given) : Owned w (threads ++ (pipe ++ pc)) given := by
  rw [← List.append_assoc]
  exact ho.perm List.perm_append_comm fun _ hfd => hfd

theorem owned_iff_of_perm {held held' given given' : List Int} (hheld : held.Perm held')
    (hgiven : given.Perm given') : Owned w held given ↔ Owned w held' given' :=
  ⟨fun ho => ho.perm hheld fun _ hfd => hgiven.mem_iff.mpr hfd,
    fun ho => ho.perm hheld.symm fun _ hfd => hgiven.mem_iff.mp hfd⟩

/-- What the thread `i` has comes to the front, and what the others have goes to the end. -/
theorem owned_thread {i : Nat} {t : Thread} (ht : s.threads[i]? = some t) :
    Owned w s.held s.given ↔
      Owned w (t.held.toList ++ (s.pipe.filterMap Command.held ++
          (s.pc.held.toList ++ (s.threads.eraseIdx i).filterMap Thread.held)))
        (t.given.toList ++ (s.pipe.filterMap Command.given ++
          (s.threads.eraseIdx i).filterMap Thread.given)) := by
  apply owned_iff_of_perm
  · apply (perm_thread ht _).trans
    apply List.Perm.append_left
    rw [← List.append_assoc (s.pipe.filterMap Command.held)]
    exact List.perm_append_comm
  · apply (perm_thread ht _).trans
    exact List.perm_append_comm.append_left _

theorem pollStep_owned (ho : Owned s.sockets s.held s.given) (hpc : s.pc = .loop) (k : Answers)
    (hfine : s.Fine (.socket k)) :
    (s.pollStep k).Ensures fun s' => Owned s'.sockets s'.held s'.given := by
  obtain ⟨hcmds, hevents⟩ := hfine.2 (by rw [hpc]; rfl)
  unfold Server.held Server.given at ho
  rw [hpc] at ho
  unfold Server.pollStep
  split
  · rename_i hctrl
    cases hpipe : s.pipe with
    | nil =>
        rw [hpipe] at ho
        apply Outcome.Ensures.pure
        unfold Server.held Server.given
        rw [hpc]
        exact ho
    | cons cmd rest =>
        dsimp only
        split
        · rename_i hcmd
          rw [hpipe, filterMap_cons_toList, filterMap_cons_toList] at ho
          have hcmd' := hcmds hctrl hcmd cmd (by rw [hpipe]; rfl)
          have hbefore : Owned s.sockets (cmd.held.toList ++ (s.threads.filterMap Thread.held ++
              rest.filterMap Command.held)) (s.threads.filterMap Thread.given ++
                (cmd.given.toList ++ rest.filterMap Command.given)) := by
            apply ho.perm
            · change List.Perm (_ ++ (_ ++ [])) _
              rw [List.append_nil]
              exact List.perm_append_comm_assoc ..
            · exact fun _ hfd => hfd
          have hgiven : ∀ fd ∈ cmd.given, fd ∈ s.threads.filterMap Thread.given ++
              (cmd.given.toList ++ rest.filterMap Command.given) := by
            intro fd hfd
            apply List.mem_append_right
            exact List.mem_append_left _ (Option.mem_toList.mpr hfd)
          refine .bind (ctrlCmd_owned hbefore hgiven hcmd' k) fun r hr => ?_
          apply Outcome.Ensures.pure
          apply hr.back.mono hr.back.nodup
          · exact fun _ hfd => hfd
          · intro fd hfd
            apply (List.mem_append.mp hfd).elim
            · exact fun hmem => List.mem_append_left _ hmem
            · exact fun hmem => List.mem_append_right _ (List.mem_append_right _ hmem)
        · rw [hpipe] at ho
          apply Outcome.Ensures.pure
          unfold Server.held Server.given
          rw [hpc]
          exact ho
  · rename_i hctrl
    cases hev : s.ev with
    | nil =>
        refine .bind .answers fun _ _ => ?_
        apply Outcome.Ensures.pure
        unfold Server.held Server.given
        rw [hpc]
        exact ho
    | cons e rest =>
        dsimp only
        split
        · apply Outcome.Ensures.pure
          unfold Server.held Server.given
          rw [hpc]
          exact ho
        · rename_i h hslot
          have hreserve := hevents ((Bool.not_eq_true _).mp hctrl) e (by rw [hev]; rfl) h hslot
          have hfront : Owned s.sockets (s.threads.filterMap Thread.held ++
              s.pipe.filterMap Command.held) _ := ho.front
          refine .bind (handleEvent_owned hfront e k hreserve) fun r hr => ?_
          exact .pure hr.back

theorem socketStep_owned (ho : Owned s.sockets s.held s.given) (k : Answers)
    (hfine : s.Fine (.socket k)) :
    (s.socketStep k).Ensures fun s' => Owned s'.sockets s'.held s'.given := by
  unfold Server.socketStep
  cases hpc : s.pc with
  | loop => exact pollStep_owned ho hpc k hfine
  | failed id msg =>
      unfold Server.held Server.given at ho
      rw [hpc] at ho
      apply Outcome.Ensures.pure
      cases msg with
      | none => exact ho.drop (hashId id)
      | some msg => exact ho.drop (hashId id)
  | clear msg =>
      unfold Server.held Server.given at ho
      rw [hpc] at ho
      dsimp only
      split
      · exact .pure ho
      · exact .pure ho
  | report msg =>
      unfold Server.held Server.given at ho
      rw [hpc] at ho
      exact .pure ho
  | accepting r fd listener =>
      unfold Server.held Server.given at ho
      rw [hpc] at ho
      have hstep := reserveStep_owned ho s.allocId r fun id heq =>
        hfine.1 id (by rw [Server.storing, hpc, heq]; rfl)
      dsimp only
      split
      · exact .pure hstep
      · split
        · have hrelease : Owned _ (([] : List Int) ++ _) _ := hstep.front.release
          exact .pure hrelease.back
        · exact .pure hstep
  | accepted id fd listener =>
      unfold Server.held Server.given at ho
      rw [hpc] at ho
      have hfront : Owned s.sockets (fd :: (s.threads.filterMap Thread.held ++
          s.pipe.filterMap Command.held)) _ := ho.front
      refine .bind (acceptSocket_owned hfront id listener) fun r hr => ?_
      exact .pure hr.back
  | stopped => exact .stuck

theorem step_owned {a : Server.Action} (ho : Owned s.sockets s.held s.given) (hfine : s.Fine a) :
    (s.step a).Ensures fun s' => Owned s'.sockets s'.held s'.given := by
  cases a with
  | call call =>
      refine .bind (call_owned ho call) fun r hr => ?_
      apply Outcome.Ensures.pure
      unfold Server.held Server.given
      rw [List.filterMap_append, List.filterMap_append, filterMap_cons_toList,
        filterMap_cons_toList, List.filterMap_nil, List.filterMap_nil, List.append_nil,
        List.append_nil, List.append_assoc, List.append_assoc]
      apply hr.perm
      · exact List.perm_append_comm_assoc ..
      · intro fd hfd
        exact (List.perm_append_comm_assoc ..).mem_iff.mpr hfd
  | thread i =>
      unfold Server.step
      dsimp only
      cases ht : s.threads[i]? with
      | none => exact .stuck
      | some t =>
          have hlen := (List.getElem?_eq_some_iff.mp ht).1
          have hr : ∀ id p, t = .reserve (.storeFd id) p →
              (s.sockets.slot (hashId id)).type = .invalid ∨
                (s.sockets.slot (hashId id)).type = .reserve := by
            intro id p heq
            exact hfine.1 id (by rw [Server.storing, ht, heq]; rfl)
          refine .bind (threadStep_owned t ((owned_thread ht).mp ho) hr) fun r hr => ?_
          obtain ⟨⟨hthreads, hpc⟩, hafter⟩ := hr
          apply Outcome.Ensures.pure
          have hself : (r.1.threads.set i r.2)[i]? = some r.2 := by
            rw [hthreads, List.getElem?_set_self hlen]
          apply (owned_thread (s := { r.1 with threads := r.1.threads.set i r.2 }) hself).mpr
          rw [List.eraseIdx_set_eq, hthreads, hpc]
          exact hafter
  | socket k => exact socketStep_owned ho k hfine

end Step

section Run

variable {memory : Nat → Socket} {soi : ObjectInterface} {s s' : Server}

theorem create_owned (memory : Nat → Socket) (soi : ObjectInterface) :
    Owned (Server.create memory soi).sockets [] [] where
  slot h := .free rfl rfl
  apart {h i} hwaiting := by cases hwaiting
  nodup := .nil
  held fd hfd := absurd hfd List.not_mem_nil
  given fd hfd := absurd hfd List.not_mem_nil
  known hknown := absurd rfl hknown
  disjoint hobtain := absurd hobtain List.not_mem_nil

theorem run_owned (hs : Server.Run memory soi Server.Fine s) :
    Owned s.sockets s.held s.given := by
  induction hs with
  | create => exact create_owned memory soi
  | step _ hfine hstep ih => exact step_owned ih hfine _ hstep

/-- In every run of such steps, a socket with something to send has its write events enabled. -/
theorem run_watched (hs : Server.Run memory soi Server.Fine s) : s.sockets.Watched :=
  (run_owned hs).watched

instance (w : Sockets) : DecidablePred w.Fine
  | .send .. | .sendLow .. | .sendUdp .. | .close .. => inferInstanceAs (Decidable (_ → _))
  | .start .. | .bind .. | .listen .. | .«open» .. | .exit | .setUdp .. | .setopt .. | .udp .. =>
    inferInstanceAs (Decidable True)

instance (s : Server) : DecidablePred s.Fine
  | .call _ | .thread _ => inferInstanceAs (Decidable (_ ∧ True))
  | .socket _ => inferInstanceAs (Decidable (_ ∧ (_ → _)))

/-- All steps that are taken are such. -/
def Server.fineSteps (s : Server) : List Server.Action → Bool
  | [] => true
  | a :: as => s.Fine a && match s.step a with
    | .ok s' => s'.fineSteps as
    | _ => true

theorem run_fineSteps {as : List Server.Action} (hs : Server.Run memory soi Server.Fine s)
    (has : s.fineSteps as = true) (hsteps : s.steps as = .ok s') :
    Server.Run memory soi Server.Fine s' := by
  induction as generalizing s with
  | nil =>
      obtain rfl := Outcome.ok.inj hsteps
      exact hs
  | cons a as ih =>
      obtain ⟨s1, hstep, hrest⟩ := steps_cons hsteps
      rw [Server.fineSteps, hstep, Bool.and_eq_true, decide_eq_true_eq] at has
      exact ih (hs.step has.1 hstep) has.2 hrest

/-- The list of a socket that has nothing to write at once is left to its write events. -/
theorem run_watched_sending : ∃ s, created.steps (opening ++ sending 1 .high 10 100 [.eagain]) =
    .ok s ∧ (s.sockets.slot 1).sendBufferEmpty = false ∧ s.sockets.Watched := by
  have hfine : created.fineSteps (opening ++ sending 1 .high 10 100 [.eagain]) = true := by
    decide +kernel
  have hmore : (created.steps (opening ++ sending 1 .high 10 100 [.eagain])).result.map
      (fun s => (s.sockets.slot 1).sendBufferEmpty) = some false := by decide +kernel
  obtain ⟨s, hsteps, hempty⟩ := Outcome.exists_of_result hmore
  exact ⟨s, hsteps, hempty, run_watched (run_fineSteps .create hfine hsteps)⟩

/-- Thread 0 binds a descriptor as the socket 1. -/
def binding : List Server.Action :=
  .call (.bind 9 7) :: (List.replicate 6 (.thread 0) ++ List.replicate 2 (.socket (.writing [])))

/-- What is sent to a bound socket waits for a write event that is not enabled. -/
theorem not_watched : ¬ ∀ s, Server.Run (fun _ => .zero) created.sockets.soi (fun _ _ => True) s →
    s.sockets.Watched := by
  intro hall
  have hrun : (created.steps (binding ++ sending 1 .high 10 100 [])).result.map (fun s =>
      ((s.sockets.slot 1).type, (s.sockets.slot 1).sendBufferEmpty, (s.sockets.slot 1).fd,
        s.sockets.poll 9)) = some (.bind, false, 9, some (1, false)) := by decide +kernel
  obtain ⟨s, hs, hend⟩ := Outcome.exists_of_result hrun
  obtain ⟨htype, hmore, hfd, hpoll⟩ : (s.sockets.slot 1).type = .bind ∧
      (s.sockets.slot 1).sendBufferEmpty = false ∧ (s.sockets.slot 1).fd = 9 ∧
      s.sockets.poll 9 = some (1, false) := by simpa using hend
  have hon := hall s (Server.Run.create.steps hs) 1 (by rw [htype]; rfl) hmore
  rw [hfd, hpoll] at hon
  cases hon

end Run

end Jump.Skynet.SocketServer
