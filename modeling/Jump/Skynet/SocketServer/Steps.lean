import Jump.Skynet.SocketServer.Changes

/-! # Steps of the socket server

A step changes one slot at most, by a command or an event or in `reserve_id`.
-/

namespace Jump.Skynet.SocketServer

open Jump.Core

/-- What `reserve_id` does to a slot, store by store. -/
inductive Reserves (s : Socket) : Socket → Prop
  | taken (htype : s.type = .invalid) : Reserves s { s with type := .reserve }
  | storedId (id : Int) : Reserves s { s with id := id }
  | storedFd : Reserves s { s with fd := -1 }

/-- What one step does to the slots. -/
structure Steps (queue : Priority → WriteBuffer → Prop) (w w' : Sockets) : Prop where
  soi : w'.soi = w.soi
  slot (h : Nat) : w'.slot h = w.slot h ∨ Change queue h (w.slot h) (w'.slot h) ∨
    Reserves (w.slot h) (w'.slot h)

namespace Server

/-- The one who takes the step stands at `r` in `reserve_id`. -/
def At (s : Server) (r : Reserve) : Action → Prop
  | .call _ => False
  | .thread i => ∃ p, s.threads[i]? = some (.reserve r p)
  | .socket _ => ∃ fd listener, s.pc = .accepting r fd listener

/-- The step is one of `reserve_id`. -/
def Reserving (s : Server) (a : Action) : Prop := ∃ r, s.At r a

/-- What the command of a step may queue, if it is one that runs a command. -/
def MayQueue (s : Server) (queue : Priority → WriteBuffer → Prop) : Action → Prop
  | .socket k => s.pc = .loop → s.checkctrl = true → k.hasCmd = true →
      ∀ cmd ∈ s.pipe.head?, s.sockets.MayQueue queue cmd k
  | _ => True

/-- What is reached from `socket_server_create` by steps that meet `Ok`. -/
inductive Run (memory : Nat → Socket) (soi : ObjectInterface) (Ok : Server → Action → Prop) :
    Server → Prop
  | create : Run memory soi Ok (create memory soi)
  | step {s s' : Server} {a : Action} (hs : Run memory soi Ok s) (ha : Ok s a)
      (hstep : s.step a = .ok s') : Run memory soi Ok s'

/-- Some steps in a row -/
def steps (s : Server) : List Action → M Server
  | [] => .ok s
  | a :: as => (s.step a).bind fun s' => s'.steps as

end Server

section Step

variable {queue : Priority → WriteBuffer → Prop} {w w' : Sockets} {s : Server}
  {may : Fault → Prop}

theorem Touches.steps {h : Nat} (hw : Touches queue h w w') : Steps queue w w' := by
  refine ⟨hw.soi, ?_⟩
  intro i
  by_cases hi : i = h
  · rw [hi]
    exact hw.change.imp_right Or.inl
  · exact Or.inl (hw.other i hi)

theorem Keeps.trans {w'' : Sockets} (hw : Keeps w w') (hw' : Keeps w' w'') : Keeps w w'' :=
  ⟨hw'.1.trans hw.1, hw'.2.trans hw.2⟩

theorem Keeps.touches (hw : Keeps w w') : Touches queue 0 w w' := .same hw.1 hw.2

theorem call_ends (s : Server) (call : Call) : (s.call call).Ends (fun r => Keeps s.sockets r.1)
    may := by
  cases call with
  | connect port opaqueData host =>
      rw [Server.call]
      split
      · exact ⟨rfl, rfl⟩
      · exact ⟨rfl, rfl⟩
  | listen tried fd opaqueData | udp tried fd family opaqueData =>
      rw [Server.call]
      apply Outcome.Ends.bind (tryAll_ends tried s.sockets may)
      intro w1 hw1
      cases fd with
      | none => exact hw1
      | some fd =>
          apply Outcome.Ends.bind (obtain_ends w1 fd may)
          intro w2 hw2
          exact hw1.trans hw2
  | bind fd opaqueData =>
      rw [Server.call]
      apply Outcome.Ends.bind .answers
      intro _ _
      exact ⟨rfl, rfl⟩
  | start | close | nodelay | exit => exact ⟨rfl, rfl⟩
  | send kind id sz buffer =>
      rw [Server.call]
      apply Outcome.Ends.bind .answers
      intro _ _
      exact ⟨rfl, rfl⟩
  | udpConnect id address =>
      cases address with
      | none => exact ⟨rfl, rfl⟩
      | some address => exact ⟨rfl, rfl⟩

/-- Where a thread is not in `reserve_id`, only the log and the pipe change. -/
theorem threadStep_ends {t : Thread} (ht : ∀ r p, t ≠ .reserve r p) :
    (s.threadStep t).Ends (fun r => Keeps s.sockets r.1.sockets) may := by
  cases t with
  | done ret => exact .stuck
  | reserve r p => exact absurd rfl (ht r p)
  | request cmd ret => exact ⟨rfl, rfl⟩
  | send kind id sz buffer =>
      rw [Server.threadStep]
      split
      · split
        · exact ⟨rfl, rfl⟩
        · exact ⟨rfl, rfl⟩
      · split
        · exact ⟨rfl, rfl⟩
        · exact ⟨rfl, rfl⟩
  | sendRequest cmd low id buffer => exact ⟨rfl, rfl⟩
  | checkWsz id buffer =>
      rw [Server.threadStep]
      split
      · exact ⟨rfl, rfl⟩
      · exact ⟨rfl, rfl⟩

theorem pollStep_ends (k : Answers) (hpc : s.pc = .loop)
    (hqueue : s.MayQueue queue (.socket k)) :
    (s.pollStep k).Ends (fun s' => ∃ h, Touches queue h s.sockets s'.sockets)
      (Fails s.sockets) := by
  unfold Server.pollStep
  split
  · rename_i hctrl
    cases hpipe : s.pipe with
    | nil => exact ⟨0, .same rfl rfl⟩
    | cons cmd rest =>
        dsimp only
        split
        · rename_i hcmd
          have hmay := hqueue hpc hctrl hcmd cmd (by rw [hpipe]; rfl)
          apply Outcome.Ends.bind (ctrlCmd_ends cmd k hmay)
          intro r hr
          exact ⟨cmd.slot, hr⟩
        · exact ⟨0, .same rfl rfl⟩
  · cases hev : s.ev with
    | nil =>
        apply Outcome.Ends.bind .answers
        intro _ _
        exact ⟨0, .same rfl rfl⟩
    | cons e rest =>
        dsimp only
        split
        · exact ⟨0, .same rfl rfl⟩
        · rename_i h _
          apply Outcome.Ends.bind (handleEvent_ends e k)
          intro r hr
          exact ⟨h, hr⟩

theorem step_touches {a : Server.Action} (ha : ¬ s.Reserving a) (hqueue : s.MayQueue queue a) :
    (s.step a).Ends (fun s' => ∃ h, Touches queue h s.sockets s'.sockets) (Fails s.sockets) := by
  cases a with
  | call call =>
      apply Outcome.Ends.bind (call_ends s call)
      intro r hr
      exact ⟨0, hr.touches⟩
  | thread i =>
      unfold Server.step
      dsimp only
      cases ht : s.threads[i]? with
      | none => exact .stuck
      | some t =>
          apply Outcome.Ends.bind (threadStep_ends ?_)
          · intro r hr
            exact ⟨0, hr.touches⟩
          · intro r p hreserve
            rw [hreserve] at ht
            exact ha ⟨r, p, ht⟩
  | socket k =>
      unfold Server.step
      dsimp only
      unfold Server.socketStep
      cases hpc : s.pc with
      | loop => exact pollStep_ends k hpc hqueue
      | failed id msg => exact ⟨hashId id, .set rfl rfl .dropped⟩
      | clear msg => exact ⟨0, .same rfl rfl⟩
      | report msg => exact ⟨0, .same rfl rfl⟩
      | accepting r fd listener => exact absurd ⟨r, fd, listener, hpc⟩ ha
      | accepted id fd listener =>
          apply Outcome.Ends.bind ((acceptSocket_ends s.sockets id fd listener).mono
            (fun _ hr => hr) fun _ he => he.fails)
          intro r hr
          exact ⟨hashId id, hr⟩
      | stopped => exact .stuck

/-- One slot gets one of the stores of `reserve_id`, if any. -/
theorem steps_set {h : Nat} {x : Socket} (hx : Reserves (w.slot h) x) :
    Steps queue w (w.set h x) := by
  refine ⟨rfl, ?_⟩
  intro i
  by_cases hi : i = h
  · rw [hi, Sockets.set_slot]
    exact Or.inr (Or.inr hx)
  · exact Or.inl (Sockets.set_slot_ne w hi x)

theorem Keeps.steps (hw : Keeps w w') : Steps queue w w' := by
  refine ⟨hw.1, ?_⟩
  intro i
  rw [hw.2]
  exact Or.inl rfl

theorem Steps.keeps {w'' : Sockets} (hw : Steps queue w w') (hw' : Keeps w' w'') :
    Steps queue w w'' := by
  refine ⟨hw'.1.trans hw.soi, ?_⟩
  rw [hw'.2]
  exact hw.slot

theorem reserveStep_steps (w : Sockets) (a : Int) (r : Reserve) :
    Steps queue w (reserveStep w a r).1 := by
  cases r with
  | fetch i =>
      rw [reserveStep]
      split
      · exact Keeps.steps ⟨rfl, rfl⟩
      · exact Keeps.steps ⟨rfl, rfl⟩
  | wrap i => exact Keeps.steps ⟨rfl, rfl⟩
  | look i id => exact Keeps.steps ⟨rfl, rfl⟩
  | cas i id =>
      rw [reserveStep]
      split
      · exact steps_set (.taken ‹_›)
      · exact Keeps.steps ⟨rfl, rfl⟩
  | storeId id => exact steps_set (.storedId id)
  | storeFd id => exact steps_set .storedFd

theorem giveUp_keeps (w : Sockets) (p : Pending) : Keeps w (p.giveUp w) := by
  cases p with
  | listen fd | udp fd => exact ⟨rfl, rfl⟩
  | «open» | bind => exact ⟨rfl, rfl⟩

theorem threadStep_reserve (s : Server) (r : Reserve) (p : Pending) :
    (s.threadStep (.reserve r p)).Ends (fun t => Steps queue s.sockets t.1.sockets) may := by
  have hr : Steps queue s.sockets (reserveStep s.sockets s.allocId r).1 :=
    reserveStep_steps s.sockets s.allocId r
  rw [Server.threadStep]
  dsimp only
  split
  · exact hr
  · split
    · exact hr.keeps (giveUp_keeps _ p)
    · exact hr

theorem step_ends {a : Server.Action} (hqueue : s.MayQueue queue a) :
    (s.step a).Ends (fun s' => Steps queue s.sockets s'.sockets) (Fails s.sockets) := by
  by_cases ha : s.Reserving a
  · obtain ⟨r, ha⟩ := ha
    cases a with
    | call call => exact ha.elim
    | thread i =>
        obtain ⟨p, ht⟩ := ha
        unfold Server.step
        dsimp only
        rw [ht]
        apply Outcome.Ends.bind (threadStep_reserve s r p)
        intro t hs
        exact hs
    | socket k =>
        obtain ⟨fd, listener, hpc⟩ := ha
        have hr : Steps queue s.sockets (reserveStep s.sockets s.allocId r).1 :=
          reserveStep_steps s.sockets s.allocId r
        unfold Server.step
        dsimp only
        unfold Server.socketStep
        rw [hpc]
        dsimp only
        split
        · exact hr
        · split
          · exact hr.keeps ⟨rfl, rfl⟩
          · exact hr
  · apply (step_touches ha hqueue).imp
    intro s' hs'
    obtain ⟨h, hh⟩ := hs'
    exact hh.steps

/-- Whatever is queued -/
theorem ctrlCmd_any (w : Sockets) (cmd : Command) (k : Answers) :
    w.MayQueue (fun _ _ => True) cmd k := by
  cases cmd with
  | send | sendUdp => exact fun _ _ => trivial
  | sendLow => exact ⟨fun _ _ => trivial, fun _ _ => trivial⟩
  | _ => trivial

theorem step_any (s : Server) (a : Server.Action) : s.MayQueue (fun _ _ => True) a := by
  cases a with
  | call call => trivial
  | thread i => trivial
  | socket k => exact fun _ _ _ cmd _ => ctrlCmd_any s.sockets cmd k

theorem steps_cons {a : Server.Action} {as : List Server.Action} {s' : Server}
    (h : s.steps (a :: as) = .ok s') : ∃ s1, s.step a = .ok s1 ∧ s1.steps as = .ok s' := by
  rw [Server.steps] at h
  cases hstep : s.step a with
  | ok s1 =>
      rw [hstep] at h
      exact ⟨s1, rfl, h⟩
  | stuck =>
      rw [hstep] at h
      cases h
  | fail e =>
      rw [hstep] at h
      cases h

theorem Server.Run.steps {memory : Nat → Socket} {soi : ObjectInterface} {as : List Server.Action}
    {s' : Server} (hs : Server.Run memory soi (fun _ _ => True) s) (hsteps : s.steps as = .ok s') :
    Server.Run memory soi (fun _ _ => True) s' := by
  induction as generalizing s with
  | nil =>
      obtain rfl := Outcome.ok.inj hsteps
      exact hs
  | cons a as ih =>
      obtain ⟨s1, hstep, hrest⟩ := steps_cons hsteps
      exact ih (hs.step trivial hstep) hrest

end Step

/-! ## A first connection -/

/-- A slot of the memory that `socket_server_create` finds. -/
def Socket.zero : Socket := ⟨0, .empty, .empty, 0, 0, 0, .tcp, .invalid, []⟩

/-- `socket_server_create`, for objects with 20 bytes of data behind a header of 8. -/
def created : Server := Server.create (fun _ => .zero) ⟨fun _ => 8, fun _ => 20⟩

/-- The kernel gives a connected socket, and takes what `ws` says. -/
def Answers.writing (ws : List WriteResult) : Answers :=
  ⟨ws, true, [], some (5, true), .other, .again, false, true, []⟩

/-- Thread 0 connects the socket 1. -/
def opening : List Server.Action :=
  .call (.connect 80 7 []) ::
    (List.replicate 6 (.thread 0) ++ List.replicate 2 (.socket (.writing [])))

/-- Thread `i` sends, and the command runs. -/
def sending (i : Nat) (kind : SendKind) (sz : Int) (buffer : Nat) (ws : List WriteResult) :
    List Server.Action :=
  [.call (.send kind 1 sz buffer), .thread i, .thread i, .socket (.writing ws)]

/-- Thread `i` closes, and the command runs. -/
def closing (i : Nat) (ws : List WriteResult) : List Server.Action :=
  [.call (.close 1 7), .thread i, .socket (.writing ws)]

end Jump.Skynet.SocketServer
