import Jump.Skynet.HarborService.Steps

/-! # Steps and runs of the harbor service

Every way in which the service takes a message, and what holds in every state that it reaches.
-/

namespace Jump.Skynet.HarborService

open Jump.Core
open Jump.Skynet.HarborLink

/-! ## Commands -/

/-- The name that an `N` command gives a handle. -/
def nameOf : List UInt8 → Option Name
  | 78 :: rest =>
    let name := rest.drop 1
    if name.length = 0 ∨ name.length ≥ GLOBALNAME_LENGTH then none
    else some (name ++ List.replicate (GLOBALNAME_LENGTH - name.length) 0)
  | _ => none

def numbersOf (command : UInt8) (numbers : List UInt8) : Option (UInt8 × Int × Nat) :=
  let (fd, id) := scanFdId numbers
  if fd = 0 ∨ id ≤ 0 ∨ id ≥ REMOTE_MAX then none else some (command, fd, id.toNat)

/-- The letter, the descriptor and the harbor of an `S` or `A` command. -/
def linkOf : List UInt8 → Option (UInt8 × Int × Nat)
  | 83 :: _ :: numbers => numbersOf 83 numbers
  | 65 :: _ :: numbers => numbersOf 65 numbers
  | _ => none

theorem numbersOf_spec {letter command : UInt8} {numbers : List UInt8} {fd : Int} {id : Nat}
    (h : numbersOf letter numbers = some (command, fd, id)) :
    command = letter ∧ fd ≠ 0 ∧ 0 < id ∧ id < REMOTE_MAX := by
  unfold numbersOf at h
  dsimp only at h
  split at h
  · exact nomatch h
  · rename_i hvalid
    obtain ⟨rfl, rfl, rfl⟩ := Option.some.inj h
    have hmax : REMOTE_MAX = 256 := rfl
    refine ⟨rfl, fun hfd => hvalid (.inl hfd), ?_, ?_⟩ <;> omega

theorem linkOf_spec {msg : List UInt8} {command : UInt8} {fd : Int} {id : Nat}
    (h : linkOf msg = some (command, fd, id)) :
    (command = 83 ∨ command = 65) ∧ fd ≠ 0 ∧ 0 < id ∧ id < REMOTE_MAX ∧ nameOf msg = none := by
  unfold linkOf at h
  split at h
  · obtain ⟨hcommand, hspec⟩ := numbersOf_spec h
    exact ⟨.inl hcommand, hspec.1, hspec.2.1, hspec.2.2, rfl⟩
  · obtain ⟨hcommand, hspec⟩ := numbersOf_spec h
    exact ⟨.inr hcommand, hspec.1, hspec.2.1, hspec.2.2, rfl⟩
  · exact nomatch h

theorem commandConnect_cases {h : Service} {command : UInt8} {numbers : List UInt8}
    {r : Service × List Effect} (hr : commandConnect h command numbers = some r) :
    (numbersOf command numbers = none ∧ r.1 = h ∧ ∃ text, r.2 = [.error text]) ∨
      ∃ fd id, numbersOf command numbers = some (command, fd, id) ∧
        connect h command fd id = some r := by
  unfold commandConnect at hr
  unfold numbersOf
  dsimp only at hr ⊢
  split at hr
  · rename_i hinvalid
    obtain rfl := Option.some.inj hr
    exact .inl ⟨if_pos hinvalid, rfl, _, rfl⟩
  · rename_i hvalid
    exact .inr ⟨_, _, if_neg hvalid, hr⟩

theorem harborCommand_cases {h : Service} {msg : List UInt8} {source : Nat}
    {r : Service × List Effect} (hr : harborCommand h msg source = some r) :
    (nameOf msg = none ∧ linkOf msg = none ∧ r.1 = h ∧ ∃ text, r.2 = [.error text]) ∨
      (∃ name, nameOf msg = some name ∧ updateName h name source = some r) ∨
      ∃ command fd id, linkOf msg = some (command, fd, id) ∧ connect h command fd id = some r := by
  unfold harborCommand at hr
  split at hr
  · rename_i rest
    unfold commandName at hr
    split at hr
    · rename_i hinvalid
      obtain rfl := Option.some.inj hr
      exact .inl ⟨if_pos hinvalid, rfl, rfl, _, rfl⟩
    · rename_i hvalid
      exact .inr (.inl ⟨_, if_neg hvalid, hr⟩)
  · rcases commandConnect_cases hr with ⟨hnone, hsame, htext⟩ | ⟨fd, id, hsome, hconnect⟩
    · exact .inl ⟨rfl, hnone, hsame, htext⟩
    · exact .inr (.inr ⟨_, fd, id, hsome, hconnect⟩)
  · rcases commandConnect_cases hr with ⟨hnone, hsame, htext⟩ | ⟨fd, id, hsome, hconnect⟩
    · exact .inl ⟨rfl, hnone, hsame, htext⟩
    · exact .inr (.inr ⟨_, fd, id, hsome, hconnect⟩)
  · exact nomatch hr
  · exact nomatch hr
  · rename_i hN hS hA _ _
    obtain rfl := Option.some.inj hr
    refine .inl ⟨?_, ?_, rfl, _, rfl⟩
    · unfold nameOf
      split
      · exact absurd rfl (hN _)
      · rfl
    · unfold linkOf
      split
      · exact absurd rfl (hS _ _)
      · exact absurd rfl (hA _ _)
      · rfl

/-! ## Steps -/

/-- The handle that a message goes to; 0 if it goes to a name without one. -/
def target (h : Service) (name : Name) (handle : Nat) : Nat :=
  if handle = 0 then h.value name else handle

/-- Every way of `mainloop`. -/
inductive Step (k : Nat) (h : Service) : Input → Service → List Effect → Prop
  | unknown {fd : Int} {buffer : List UInt8} {alive : Nat → Bool} {es : List Effect}
      (hfind : h.harbor.find fd = none) (hquiet : ∀ e ∈ es, Quiet e) :
      Step k h (.data fd buffer alive) h es
  | arrives {fd : Int} {buffer : List UInt8} {alive : Nat → Bool} {id : Nat} {s : Slave}
      {queue : Option HarborMsgQueue} {es : List Effect} (hfind : h.harbor.find fd = some id)
      (hfd : s.fd = (h.s id).fd) (harrival : Arrival h id buffer s queue es) :
      Step k h (.data fd buffer alive) (h.after id s queue) es
  | closed {fd : Int} {es : List Effect} (hquiet : ∀ e ∈ es, Quiet e) : Step k h (.closed fd) h es
  | connect : Step k h .connect h []
  | otherSocket {es : List Effect} (hquiet : ∀ e ∈ es, Quiet e) : Step k h .otherSocket h es
  | invalid {msg : List UInt8} {source : Nat} {text : String} (hname : nameOf msg = none)
      (hlink : linkOf msg = none) : Step k h (.command msg source) h [.error text]
  | taken {msg : List UInt8} {source : Nat} {command : UInt8} {fd : Int} {id : Nat} {text : String}
      (hlink : linkOf msg = some (command, fd, id)) (hfd : (h.s id).fd ≠ 0) :
      Step k h (.command msg source) h [.error text]
  | called {msg : List UInt8} {source : Nat} {fd : Int} {id : Nat}
      (hlink : linkOf msg = some (83, fd, id)) (hfd : (h.s id).fd = 0) :
      Step k h (.command msg source)
        (h.setSlave id { h.s id with fd := fd, status := .handshake })
        [.start fd, .handshake fd (UInt8.ofNat h.id)]
  | accepted {msg : List UInt8} {source : Nat} {fd : Int} {id : Nat}
      (hlink : linkOf msg = some (65, fd, id)) (hfd : (h.s id).fd = 0) :
      Step k h (.command msg source)
        (h.after id { h.s id with fd := fd, status := .header } none)
        ([.start fd, .handshake fd (UInt8.ofNat h.id)] ++ sendQueue fd (h.pending id))
  | named {msg : List UInt8} {source : Nat} {name : Name} {queue : Nat → Option HarborMsgQueue}
      {map : Hashmap} {es : List Effect} (hname : nameOf msg = some name)
      (hnamed : Named h name source queue es)
      (hharbor : (node h.map name).queue ≠ none → source >>> HANDLE_REMOTE_SHIFT ≠ 0)
      (hvalue : ∀ other, (node map other).value = if Same name other then source else h.value other)
      (hqueue : ∀ other, (node map other).queue =
        if Same name other then none else (node h.map other).queue) :
      Step k h (.command msg source) { h with queue := queue, map := map } es
  | sent {source type : Nat} {session : Int} {name : Name} {handle : Nat} {bytes : List UInt8}
      {kept : Bool} {h' : Service} {es : List Effect} {map : Hashmap}
      (htarget : target h name handle ≠ 0)
      (hsent : Sent h source (target h name handle) type session ⟨k, bytes⟩ kept h' es)
      (hvalue : ∀ other, (node map other).value = h.value other)
      (hqueue : ∀ other, (node map other).queue = (node h.map other).queue) :
      Step k h (.message source type session name handle bytes) { h' with map := map }
        (es ++ if kept then [] else [.free ⟨k, bytes⟩])
  | waits {source type : Nat} {session : Int} {name : Name} {bytes : List UInt8} {h' : Service}
      {text : List UInt8} (hnone : h.value name = 0) (hs : h'.s = h.s) (hq : h'.queue = h.queue)
      (hid : h'.id = h.id) (hvalue : ∀ other, h'.value other = h.value other)
      (hother : ∀ other, ¬Same name other → (node h'.map other).queue = (node h.map other).queue)
      (hsame : ∀ other, Same name other → ∃ queue, (node h'.map other).queue = some queue ∧
        queue.toList = h.waiting other ++ [unpacked source type session ⟨k, bytes⟩]) :
      Step k h (.message source type session name 0 bytes) h'
        [.send 0 h.slave PTYPE_TEXT 0 (.text text)]

theorem quiet_error {text : String} : ∀ e ∈ [Effect.error text], Quiet e := by
  intro e he
  obtain rfl := List.mem_singleton.mp he
  trivial

theorem mainloop_step {k : Nat} {h : Service} {i : Input} {r : Service × List Effect}
    (hr : mainloop k h i = some r) : Step k h i r.1 r.2 := by
  cases i with
  | data fd buffer alive =>
      rcases pushSocketData_cases hr with ⟨hfind, hsame, hquiet⟩ |
        ⟨id, s, queue, hfind, hfd, harrival, hafter⟩
      · rw [hsame]
        exact .unknown hfind hquiet
      · rw [hafter]
        exact .arrives hfind hfd harrival
  | closed fd =>
      unfold mainloop at hr
      dsimp only at hr
      split at hr
      · obtain rfl := Option.some.inj hr
        refine .closed fun e he => ?_
        obtain rfl := List.mem_singleton.mp he
        exact nofun
      · obtain rfl := Option.some.inj hr
        exact .closed quiet_error
  | connect =>
      obtain rfl := Option.some.inj hr
      exact .connect
  | otherSocket =>
      obtain rfl := Option.some.inj hr
      exact .otherSocket quiet_error
  | command msg source =>
      rcases harborCommand_cases hr with ⟨hname, hlink, hsame, text, htext⟩ |
        ⟨name, hname, hupdate⟩ | ⟨command, fd, id, hlink, hconnect⟩
      · rw [hsame, htext]
        exact .invalid hname hlink
      · obtain ⟨queue, hnamed, hafter, hharbor⟩ := updateName_cases hupdate
        rw [hafter]
        have hnew : ({ node h.map name with value := source, queue := none } : KeyValue).matches
            name = true := matches_iff.mpr (matches_iff.mp (node_matches h.map name))
        refine .named hname hnamed hharbor (fun other => ?_) fun other => ?_
        · refine (congrArg KeyValue.value (node_write hnew other)).trans ?_
          split <;> rfl
        · refine (congrArg KeyValue.queue (node_write hnew other)).trans ?_
          split <;> rfl
      · obtain ⟨hcommand, -⟩ := linkOf_spec hlink
        rcases connect_cases hconnect with ⟨hfd, hsame, text, htext⟩ |
          ⟨hfd, rfl, hafter, heffects⟩ | ⟨hfd, hne, -, hafter, heffects⟩
        · rw [hsame, htext]
          exact .taken hlink hfd
        · rw [hafter, heffects]
          exact .called hlink hfd
        · obtain rfl := hcommand.resolve_left hne
          rw [hafter, heffects]
          exact .accepted hlink hfd
  | message source type session name handle bytes =>
      unfold mainloop at hr
      obtain rfl := Option.some.inj hr
      by_cases hhandle : handle = 0
      · subst hhandle
        rw [if_pos rfl]
        by_cases hnone : h.value name = 0
        · obtain ⟨h', heq, hs, hq, hid, hvalue, hother, hsame⟩ :=
            remoteSendName_waits source type session ⟨k, bytes⟩ hnone
          rw [heq]
          exact .waits hnone hs hq hid hvalue hother hsame
        · obtain ⟨kept, h', es, heq, hsent⟩ :=
            remoteSendName_sent source type session ⟨k, bytes⟩ hnone
          rw [heq]
          have htarget : target h name 0 = h.value name := if_pos rfl
          refine .sent (htarget ▸ hnone) (htarget ▸ hsent) (fun other => ?_) fun other => ?_
          · exact (node_hashNode h.map name other).1
          · exact (node_hashNode h.map name other).2
      · rw [if_neg hhandle]
        have hsent := remoteSendHandle_sent h source handle type session ⟨k, bytes⟩
        have htarget : target h name handle = handle := if_neg hhandle
        generalize hr : remoteSendHandle h source handle type session ⟨k, bytes⟩ = r at hsent
        obtain ⟨kept, h', es⟩ := r
        dsimp only at hsent ⊢
        have hmap : h'.map = h.map := by
          cases hsent <;> rfl
        have hstep : Step k h (.message source type session name handle bytes)
            { h' with map := h'.map } (es ++ if kept then [] else [.free ⟨k, bytes⟩]) := by
          refine .sent ?_ ?_ (fun other => ?_) fun other => ?_
          · rw [htarget]
            exact hhandle
          · rw [htarget]
            exact hsent
          · rw [hmap]
            rfl
          · rw [hmap]
        exact hstep

/-! ## The invariant -/

structure Inv (h : Service) : Prop where
  wait : ∀ id, (h.s id).fd = 0 ↔ (h.s id).status = .wait
  zero : (h.s 0).fd = 0
  queue : ∀ id, (h.s id).fd ≠ 0 → (h.s id).status ≠ .handshake → h.queue id = none
  named : ∀ name, h.value name ≠ 0 → (node h.map name).queue = none
  full : ∀ name queue, (node h.map name).queue = some queue → queue.toList ≠ []

theorem inv_init (id slave : Nat) : Inv (harborInit id slave) where
  wait _ := ⟨fun _ => rfl, fun _ => rfl⟩
  zero := rfl
  queue _ hfd := absurd rfl hfd
  named _ hvalue := absurd rfl hvalue
  full _ _ hsome := nomatch hsome

theorem Inv.pending_nil {h : Service} (inv : Inv h) {id : Nat} (hfd : (h.s id).fd ≠ 0)
    (hhand : (h.s id).status ≠ .handshake) : h.pending id = [] := by
  unfold Service.pending
  rw [inv.queue id hfd hhand, msgs_none]

theorem Inv.not_down {h : Service} (inv : Inv h) {id : Nat} (hfd : (h.s id).fd = 0) :
    (h.s id).status ≠ .down := by
  rw [(inv.wait id).mp hfd]
  exact nofun

theorem live_ne {s : Slave} (hs : Live s) :
    s.status ≠ .wait ∧ s.status ≠ .handshake ∧ s.status ≠ .down := by
  rcases hs with hs | hs <;> rw [hs] <;> exact ⟨nofun, nofun, nofun⟩

/-- What an arrival makes of a link: it stays as it is, or its queue is gone and its status is
neither WAIT nor HANDSHAKE. -/
theorem Arrival.status {h : Service} {id : Nat} {buffer : List UInt8} {s : Slave}
    {queue : Option HarborMsgQueue} {es : List Effect} (harrival : Arrival h id buffer s queue es) :
    (s = h.s id ∧ queue = h.queue id) ∨
      ((h.s id).status ≠ .wait ∧ (h.s id).status ≠ .down ∧ s.status ≠ .wait ∧
        s.status ≠ .handshake ∧ (queue = none ∨ Live (h.s id) ∧ queue = h.queue id)) := by
  have hdown : ∀ s : Slave, s.status = .down → s.status ≠ .wait ∧ s.status ≠ .handshake := by
    intro s hs
    rw [hs]
    exact ⟨nofun, nofun⟩
  cases harrival with
  | idle hs hhand => exact .inl ⟨rfl, rfl⟩
  | wrong hbuffer hhand hne hs hquiet =>
      rw [hhand]
      exact .inr ⟨nofun, nofun, (hdown s hs).1, (hdown s hs).2, .inl rfl⟩
  | met hbuffer hhand heq hs hquiet =>
      rw [hhand]
      have hne : s.status ≠ .wait ∧ s.status ≠ .handshake :=
        hs.elim (fun hlive => ⟨(live_ne hlive).1, (live_ne hlive).2.1⟩) (hdown s)
      exact .inr ⟨nofun, nofun, hne.1, hne.2, .inl rfl⟩
  | read hlive hs hquiet =>
      exact .inr ⟨(live_ne hlive).1, (live_ne hlive).2.2, (live_ne hs).1, (live_ne hs).2.1,
        .inr ⟨hlive, rfl⟩⟩
  | oversized hlive hs hquiet =>
      exact .inr ⟨(live_ne hlive).1, (live_ne hlive).2.2, (hdown s hs).1, (hdown s hs).2, .inl rfl⟩

/-- A change of one link and its queue. -/
theorem Inv.after {h : Service} (inv : Inv h) {id : Nat} {s : Slave}
    {queue : Option HarborMsgQueue} (hwait : s.fd = 0 ↔ s.status = .wait)
    (hzero : id = 0 → s.fd = 0)
    (hqueue : s.fd ≠ 0 → s.status ≠ .handshake → queue = none) : Inv (h.after id s queue) where
  wait j := by
    rw [Service.after_s]
    by_cases hj : j = id
    · subst hj
      rw [Function.update_self]
      exact hwait
    · rw [Function.update_of_ne hj]
      exact inv.wait j
  zero := by
    rw [Service.after_s]
    by_cases hj : 0 = id
    · rw [← hj, Function.update_self]
      exact hzero hj.symm
    · rw [Function.update_of_ne hj]
      exact inv.zero
  queue j := by
    rw [Service.after_s, Service.after_queue]
    by_cases hj : j = id
    · subst hj
      rw [Function.update_self, Function.update_self]
      exact hqueue
    · rw [Function.update_of_ne hj, Function.update_of_ne hj]
      exact inv.queue j
  named := inv.named
  full := inv.full

theorem Inv.step {k : Nat} {h h' : Service} {i : Input} {es : List Effect} (inv : Inv h)
    (hstep : Step k h i h' es) : Inv h' := by
  cases hstep with
  | unknown => exact inv
  | @arrives fd buffer alive id s queue es hfind hfd harrival =>
      rcases harrival.status with ⟨rfl, rfl⟩ | ⟨hwait, -, hwait', hhand', hqueue⟩
      · rw [after_self]
        exact inv
      · have hne : s.fd ≠ 0 := fun hzero => hwait ((inv.wait id).mp (hfd ▸ hzero))
        refine inv.after ⟨fun hzero => absurd hzero hne, fun hs => absurd hs hwait'⟩ ?_ ?_
        · rintro rfl
          rw [hfd, inv.zero]
        · intro _ _
          rcases hqueue with hqueue | ⟨hlive, rfl⟩
          · exact hqueue
          · exact inv.queue id (hfd ▸ hne) (live_ne hlive).2.1
  | closed => exact inv
  | connect => exact inv
  | otherSocket => exact inv
  | invalid => exact inv
  | taken => exact inv
  | @called msg source fd id hlink hfree =>
      obtain ⟨-, hfd, hpos, -⟩ := linkOf_spec hlink
      have hafter : Inv (h.after id { h.s id with fd := fd, status := .handshake } (h.queue id)) :=
        inv.after ⟨fun hzero => absurd hzero hfd, nofun⟩
          (fun hid => absurd hid (Nat.ne_of_gt hpos)) (fun _ hhand => absurd rfl hhand)
      unfold Service.after Service.setQueue at hafter
      rw [show (h.setSlave id { h.s id with fd := fd, status := .handshake }).queue = h.queue
        from rfl, Function.update_eq_self] at hafter
      exact hafter
  | accepted hlink hfree =>
      obtain ⟨-, hfd, hpos, -⟩ := linkOf_spec hlink
      exact inv.after ⟨fun hzero => absurd hzero hfd, nofun⟩
        (fun hid => absurd hid (Nat.ne_of_gt hpos)) (fun _ _ => rfl)
  | @named msg source name queue map es hname hnamed hharbor hvalue hqueue =>
      refine ⟨inv.wait, inv.zero, fun id hfd hhand => ?_, fun other hne => ?_,
        fun other q hsome => ?_⟩
      · cases hnamed with
        | quiet => exact inv.queue id hfd hhand
        | dropped => exact inv.queue id hfd hhand
        | merged hsome hfd' hup hmerged =>
            dsimp only at hfd ⊢
            have hne : id ≠ source >>> HANDLE_REMOTE_SHIFT := by
              rintro rfl
              exact hfd hfd'
            rw [Function.update_of_ne hne]
            exact inv.queue id hfd hhand
        | written => exact inv.queue id hfd hhand
      · have hother : (node map other).value ≠ 0 := hne
        rw [hvalue] at hother
        show (node map other).queue = none
        rw [hqueue]
        split
        · rfl
        · rename_i hsame
          rw [if_neg hsame] at hother
          exact inv.named other hother
      · have hother : (node map other).queue = some q := hsome
        rw [hqueue] at hother
        split at hother
        · exact nomatch hother
        · exact inv.full other q hother
  | @sent source type session name handle bytes kept h₁ es map htarget hsent hvalue hqueue =>
      have hnamed : ∀ other, (node map other).value ≠ 0 → (node map other).queue = none := by
        intro other hne
        rw [hvalue] at hne
        rw [hqueue]
        exact inv.named other hne
      have hfull : ∀ other q, (node map other).queue = some q → q.toList ≠ [] := by
        intro other q hsome
        rw [hqueue] at hsome
        exact inv.full other q hsome
      cases hsent with
      | here => exact ⟨inv.wait, inv.zero, inv.queue, hnamed, hfull⟩
      | refused => exact ⟨inv.wait, inv.zero, inv.queue, hnamed, hfull⟩
      | written => exact ⟨inv.wait, inv.zero, inv.queue, hnamed, hfull⟩
      | kept hid hwait hup hq =>
          refine ⟨inv.wait, inv.zero, fun id hfd hhand => ?_, hnamed, hfull⟩
          have hne : id ≠ target h name handle >>> HANDLE_REMOTE_SHIFT := by
            rintro rfl
            exact hwait.elim hfd hhand
          show Function.update h.queue _ _ id = none
          rw [Function.update_of_ne hne]
          exact inv.queue id hfd hhand
  | @waits source type session name bytes h' text hnone hs hq hid hvalue hother hsame =>
      refine ⟨?_, ?_, ?_, fun other hne => ?_, fun other q hsome => ?_⟩
      · rw [hs]
        exact inv.wait
      · rw [hs]
        exact inv.zero
      · rw [hs, hq]
        exact inv.queue
      · rw [hvalue] at hne
        have hdiffers : ¬Same name other := by
          intro hsame
          have hvalues : h.value name = h.value other := (node_same hsame).1
          exact hne (hvalues ▸ hnone)
        rw [hother other hdiffers]
        exact inv.named other hne
      · by_cases hname : Same name other
        · obtain ⟨q', hq', hlist⟩ := hsame other hname
          obtain rfl := Option.some.inj (hsome.symm.trans hq')
          rw [hlist]
          exact List.append_ne_nil_of_right_ne_nil _ (List.cons_ne_nil _ _)
        · rw [hother other hname] at hsome
          exact inv.full other q hsome

/-- What every step keeps holds after every run. -/
theorem run_induct {P : Service → Prop} (hP : ∀ k h i h' es, P h → Step k h i h' es → P h')
    {k : Nat} {h h' : Service} {inputs : List Input} {ess : List (List Effect)}
    (hr : run k h inputs = some (h', ess)) (hinit : P h) : P h' := by
  induction inputs generalizing k h ess with
  | nil =>
      obtain ⟨rfl, -⟩ := Prod.mk.inj (Option.some.inj hr)
      exact hinit
  | cons i inputs ih =>
      obtain ⟨r, hi, hr⟩ := Option.bind_eq_some_iff.mp hr
      obtain ⟨t, ht, hr⟩ := Option.bind_eq_some_iff.mp hr
      obtain ⟨rfl, -⟩ := Prod.mk.inj (Option.some.inj hr)
      exact ih ht (hP k h i r.1 r.2 hinit (mainloop_step hi))

theorem run_inv {id slave : Nat} {h : Service} {inputs : List Input} {ess : List (List Effect)}
    (hr : run 0 (harborInit id slave) inputs = some (h, ess)) : Inv h :=
  run_induct (fun _ _ _ _ _ inv hstep => inv.step hstep) hr (inv_init id slave)

/-! ## The decoder returns in every run -/

theorem dispatchQueue_s {h : Service} {id : Nat} {r : Service × List Effect}
    (hr : dispatchQueue h id = some r) : r.1.s = h.s := by
  rw [(dispatchQueue_eq hr).2.1]
  rfl

theorem performAll_s {fd : Int} {buffer : List UInt8} {alive : Nat → Bool} {before h : Service}
    {events : List Event} {r : Service × List Effect}
    (hr : performAll fd buffer alive before h events = some r) : r.1.s = h.s := by
  induction events generalizing h r with
  | nil =>
      obtain rfl := Option.some.inj hr
      rfl
  | cons event events ih =>
      obtain ⟨d, hd, hr⟩ := Option.bind_eq_some_iff.mp hr
      obtain ⟨t, ht, hr⟩ := Option.bind_eq_some_iff.mp hr
      obtain rfl := Option.some.inj hr
      have hfirst : d.1.s = h.s := by
        cases event with
        | forward =>
            obtain rfl := Option.some.inj hd
            rfl
        | dispatchQueue id => exact dispatchQueue_s hd
        | closeHarbor id =>
            obtain rfl := Option.some.inj hd
            rfl
        | invalidFd fd =>
            obtain rfl := Option.some.inj hd
            rfl
      exact (ih ht).trans hfirst

theorem pushSocketData_returns {h : Harbor} (hs : ∀ id, Sane (h.s id)) (fd : Int)
    (buffer : List UInt8) : ∃ r, HarborLink.pushSocketData h fd buffer = some r ∧
      ∀ id, Sane (r.1.s id) := by
  unfold HarborLink.pushSocketData
  cases h.find fd with
  | none => exact ⟨_, rfl, hs⟩
  | some id =>
      obtain ⟨r, hloop, hr⟩ := loop_returns h id (hs id)
        (show buffer.length < buffer.length + 2 ∧ _ from ⟨by omega, fun _ => by omega⟩)
      dsimp only
      rw [hloop]
      refine ⟨_, rfl, fun j => ?_⟩
      show Sane (Function.update h.s id r.1 j)
      by_cases hj : j = id
      · rw [hj, Function.update_self]
        exact hr
      · rw [Function.update_of_ne hj]
        exact hs j

theorem mainloop_sane {k : Nat} {h : Service} (inv : Inv h) {i : Input} {r : Service × List Effect}
    (hs : ∀ id, Sane (h.s id)) (hr : mainloop k h i = some r) (id : Nat) : Sane (r.1.s id) := by
  have hfree : ∀ (j : Nat) (fd : Int) (status : Status), (h.s j).fd = 0 →
      Sane (Function.update h.s j { h.s j with fd := fd, status := status } id) := by
    intro j fd status hfd
    have hwait := (inv.wait j).mp hfd
    by_cases hj : id = j
    · rw [hj, Function.update_self]
      exact fun _ _ => hs j (hwait ▸ nofun) (hwait ▸ nofun)
    · rw [Function.update_of_ne hj]
      exact hs id
  have hdata : ∀ fd buffer alive, i = .data fd buffer alive → Sane (r.1.s id) := by
    rintro fd buffer alive rfl
    obtain ⟨p, hp, hsane⟩ := pushSocketData_returns (h := h.harbor) hs fd buffer
    have hdone : pushSocketData h fd buffer alive = some r := hr
    unfold pushSocketData at hdone
    rw [hp] at hdone
    have hperform : performAll fd buffer alive h { h with s := p.1.s } p.2 = some r := hdone
    rw [performAll_s hperform]
    exact hsane id
  obtain ⟨h', es⟩ := r
  cases mainloop_step hr with
  | unknown => exact hs id
  | arrives => exact hdata _ _ _ rfl
  | called hlink hfd => exact hfree _ _ _ hfd
  | accepted hlink hfd => exact hfree _ _ _ hfd
  | sent htarget hsent => cases hsent <;> exact hs id
  | waits hnone hslaves => exact hslaves ▸ hs id
  | _ => exact hs id

theorem run_sane {id slave : Nat} {h : Service} {inputs : List Input} {ess : List (List Effect)}
    (hr : run 0 (harborInit id slave) inputs = some (h, ess)) : ∀ id, Sane (h.s id) := by
  have hall : ∀ {k : Nat} {h h' : Service} {inputs : List Input} {ess : List (List Effect)},
      Inv h → (∀ id, Sane (h.s id)) → run k h inputs = some (h', ess) → ∀ id, Sane (h'.s id) := by
    intro k h h' inputs ess inv hs hr
    induction inputs generalizing k h ess with
    | nil =>
        obtain ⟨rfl, -⟩ := Prod.mk.inj (Option.some.inj hr)
        exact hs
    | cons i inputs ih =>
        obtain ⟨r, hi, hr⟩ := Option.bind_eq_some_iff.mp hr
        obtain ⟨t, ht, hr⟩ := Option.bind_eq_some_iff.mp hr
        obtain ⟨rfl, -⟩ := Prod.mk.inj (Option.some.inj hr)
        exact ih (inv.step (mainloop_step hi)) (mainloop_sane inv hs hi) ht
  exact hall (inv_init id slave) (fun _ _ _ => (by decide : 0 < 4)) hr

/-! ## Where the service fails -/

theorem dispatchQueue_returns {h : Service} {id : Nat} (hfd : (h.s id).fd ≠ 0) :
    ∃ r, dispatchQueue h id = some r := by
  unfold dispatchQueue
  dsimp only
  rw [if_neg hfd]
  cases h.queue id with
  | none => exact ⟨_, rfl⟩
  | some queue => exact ⟨_, rfl⟩

theorem performAll_returns {fd : Int} {buffer : List UInt8} {alive : Nat → Bool}
    {before h : Service} {events : List Event}
    (hevents : ∀ id, .dispatchQueue id ∈ events → (h.s id).fd ≠ 0) :
    ∃ r, performAll fd buffer alive before h events = some r := by
  induction events generalizing h with
  | nil => exact ⟨_, rfl⟩
  | cons event events ih =>
      have hfirst : ∃ d, perform fd buffer alive before h event = some d ∧ d.1.s = h.s := by
        cases event with
        | forward => exact ⟨_, rfl, rfl⟩
        | dispatchQueue id =>
            obtain ⟨d, hd⟩ := dispatchQueue_returns (hevents id List.mem_cons_self)
            exact ⟨d, hd, dispatchQueue_s hd⟩
        | closeHarbor id => exact ⟨_, rfl, rfl⟩
        | invalidFd fd => exact ⟨_, rfl, rfl⟩
      obtain ⟨d, hd, hs⟩ := hfirst
      have hrest : ∀ id, .dispatchQueue id ∈ events → (d.1.s id).fd ≠ 0 := by
        intro id hmem
        rw [hs]
        exact hevents id (List.mem_cons_of_mem _ hmem)
      obtain ⟨r, hr⟩ := ih hrest
      refine ⟨(r.1, d.2 ++ r.2), ?_⟩
      rw [performAll, hd]
      dsimp only [Option.bind_eq_bind, Option.bind_some]
      rw [hr]
      rfl

/-- Data never breaks the service, whatever its bytes. -/
theorem data_returns {h : Service} (inv : Inv h) (hs : ∀ id, Sane (h.s id)) (fd : Int)
    (buffer : List UInt8) (alive : Nat → Bool) :
    ∃ r, pushSocketData h fd buffer alive = some r := by
  obtain ⟨p, hp, -⟩ := pushSocketData_returns (h := h.harbor) hs fd buffer
  have hup : ∀ id, .dispatchQueue id ∈ p.2 → (p.1.s id).fd ≠ 0 := by
    intro j hmem
    unfold HarborLink.pushSocketData at hp
    cases hfind : h.harbor.find fd with
    | none =>
        rw [hfind] at hp
        obtain rfl := Option.some.inj hp
        cases List.mem_singleton.mp hmem
    | some id =>
        rw [hfind] at hp
        obtain ⟨r, hloop, rfl⟩ := Option.map_eq_some_iff.mp hp
        obtain ⟨rfl, hwait⟩ := loop_dispatches hloop hmem
        dsimp only
        rw [Function.update_self, loop_fd hloop]
        exact fun hfd => hwait ((inv.wait j).mp hfd)
  unfold pushSocketData
  rw [hp]
  exact performAll_returns (h := { h with s := p.1.s }) hup

/-- The message overruns the copy of a command, or gives a name for which messages wait to a handle
of no harbor. -/
def Breaks (h : Service) : Input → Prop
  | .command msg source =>
      msg = [83] ∨ msg = [65] ∨ ∃ name, nameOf msg = some name ∧
        (node h.map name).queue ≠ none ∧ source >>> HANDLE_REMOTE_SHIFT = 0
  | _ => False

theorem updateName_eq_none {h : Service} {name : Name} {handle : Nat} :
    updateName h name handle = none ↔
      (node h.map name).queue ≠ none ∧ handle >>> HANDLE_REMOTE_SHIFT = 0 := by
  unfold updateName
  dsimp only [Option.bind_eq_bind, Option.pure_def]
  rw [show (hashNode h.map name).1 = node h.map name from rfl]
  cases hq : (node h.map name).queue with
  | none => exact ⟨nofun, fun hbreaks => absurd rfl hbreaks.1⟩
  | some queue =>
      dsimp only
      unfold dispatchNameQueue
      dsimp only
      by_cases hharbor : handle >>> HANDLE_REMOTE_SHIFT = 0
      · rw [if_pos hharbor]
        exact ⟨fun _ => ⟨nofun, hharbor⟩, fun _ => rfl⟩
      · rw [if_neg hharbor]
        refine ⟨fun hnone => ?_, fun hbreaks => absurd hbreaks.2 hharbor⟩
        split at hnone
        · split at hnone
          · cases hnone
          · split at hnone
            · cases hnone
            · cases hnone
        · cases hnone

theorem connect_returns (h : Service) (command : UInt8) {fd : Int} (hfd : fd ≠ 0) (id : Nat) :
    ∃ r, connect h command fd id = some r := by
  unfold connect
  split
  · exact ⟨_, rfl⟩
  · dsimp only
    split
    · exact ⟨_, rfl⟩
    · have hup : ((h.setSlave id { h.s id with fd := fd, status := .header }).s id).fd ≠ 0 := by
        rw [Service.setSlave_s, Function.update_self]
        exact hfd
      obtain ⟨r, hr⟩ := dispatchQueue_returns hup
      exact ⟨_, by rw [hr]; rfl⟩

theorem commandConnect_returns (h : Service) (command : UInt8) (numbers : List UInt8) :
    ∃ r, commandConnect h command numbers = some r := by
  unfold commandConnect
  dsimp only
  split
  · exact ⟨_, rfl⟩
  · rename_i hvalid
    exact connect_returns h command (fun hfd => hvalid (.inl hfd)) _

theorem not_breaks {h : Service} {msg : List UInt8} {source : Nat} (hS : msg ≠ [83])
    (hA : msg ≠ [65]) (hname : nameOf msg = none) : ¬Breaks h (.command msg source) := by
  intro hbreaks
  obtain heq | heq | ⟨name, hsome, -⟩ := hbreaks
  · exact hS heq
  · exact hA heq
  · rw [hname] at hsome
    cases hsome

theorem harborCommand_eq_none {h : Service} {msg : List UInt8} {source : Nat} :
    harborCommand h msg source = none ↔ Breaks h (.command msg source) := by
  unfold harborCommand
  split
  · rename_i rest
    unfold commandName
    by_cases hvalid : (rest.drop 1).length = 0 ∨ (rest.drop 1).length ≥ GLOBALNAME_LENGTH
    · rw [if_pos hvalid]
      have hnot := @not_breaks h (78 :: rest) source nofun nofun (if_pos hvalid)
      exact ⟨nofun, fun hbreaks => absurd hbreaks hnot⟩
    · have hname : nameOf (78 :: rest) = some _ := if_neg hvalid
      rw [if_neg hvalid, updateName_eq_none]
      refine ⟨fun hbreaks => Or.inr (Or.inr ⟨_, hname, hbreaks⟩), fun hbreaks => ?_⟩
      obtain heq | heq | ⟨name, hsome, hbreaks⟩ := hbreaks
      · cases heq
      · cases heq
      · rw [hname] at hsome
        cases hsome
        exact hbreaks
  · obtain ⟨r, hr⟩ := commandConnect_returns h 83 _
    rw [hr]
    exact ⟨nofun, fun hbreaks => absurd hbreaks (not_breaks nofun nofun rfl)⟩
  · obtain ⟨r, hr⟩ := commandConnect_returns h 65 _
    rw [hr]
    exact ⟨nofun, fun hbreaks => absurd hbreaks (not_breaks nofun nofun rfl)⟩
  · exact ⟨fun _ => Or.inl rfl, fun _ => rfl⟩
  · exact ⟨fun _ => Or.inr (Or.inl rfl), fun _ => rfl⟩
  · rename_i hN _ _ hS hA
    have hname : nameOf msg = none := by
      unfold nameOf
      split
      · exact absurd rfl (hN _)
      · rfl
    exact ⟨nofun, fun hbreaks => absurd hbreaks (not_breaks hS hA hname)⟩

/-- In every state that the service comes to, these messages are all that it does not return
from. -/
theorem breaks_iff {id slave : Nat} {h : Service} {inputs : List Input}
    {ess : List (List Effect)} (hr : run 0 (harborInit id slave) inputs = some (h, ess)) (k : Nat)
    (i : Input) : mainloop k h i = none ↔ Breaks h i := by
  cases i with
  | data fd buffer alive =>
      obtain ⟨r, hreturns⟩ := data_returns (run_inv hr) (run_sane hr) fd buffer alive
      rw [mainloop, hreturns]
      exact ⟨nofun, nofun⟩
  | closed fd =>
      unfold mainloop
      dsimp only
      split
      · exact ⟨nofun, nofun⟩
      · exact ⟨nofun, nofun⟩
  | connect => exact ⟨nofun, nofun⟩
  | otherSocket => exact ⟨nofun, nofun⟩
  | command msg source => exact harborCommand_eq_none
  | message => exact ⟨nofun, nofun⟩

/-- A message waits for `foo`, and the name is given to a handle of no harbor. -/
theorem breaks_iff_foo : ∃ h ess,
    run 0 (harborInit 1 5) [.message 0x1000003 10 1 fooName 0 [104]] = some (h, ess) ∧
      (mainloop 1 h (.command (bytesOf "N foo") 4) = none ↔
        Breaks h (.command (bytesOf "N foo") 4)) :=
  ⟨_, _, rfl, @breaks_iff 1 5 _ [.message 0x1000003 10 1 fooName 0 [104]] _ rfl 1 _⟩

/-! ## Properties of every step of a run -/

/-- `P` holds of every step, whose past is `g`. -/
def Always {γ : Type*} (P : γ → Service → Input → Service → List Effect → Prop)
    (next : γ → Service → Input → Service → List Effect → γ) :
    γ → Nat → Service → List Input → Prop
  | _, _, _, [] => True
  | g, k, h, i :: inputs => ∀ h' es, mainloop k h i = some (h', es) →
    P g h i h' es ∧ Always P next (next g h i h' es) (k + 1) h' inputs

section

variable {γ : Type*} {A P Q : γ → Service → Input → Service → List Effect → Prop}
  {next : γ → Service → Input → Service → List Effect → γ} {J : γ → Service → Prop}

/-- Two properties that agree in every step that keeps the invariant `J` agree in every run. -/
theorem Always.congr
    (hstep : ∀ g k h i h' es, J g h → A g h i h' es → Step k h i h' es →
      J (next g h i h' es) h' ∧ (P g h i h' es ↔ Q g h i h' es))
    {g : γ} {k : Nat} {h : Service} {inputs : List Input} (hJ : J g h)
    (hA : Always A next g k h inputs) :
    Always P next g k h inputs ↔ Always Q next g k h inputs := by
  induction inputs generalizing g k h with
  | nil => exact Iff.rfl
  | cons i inputs ih =>
      refine forall_congr' fun h' => forall_congr' fun es => forall_congr' fun hi => ?_
      obtain ⟨hAstep, hArest⟩ := hA h' es hi
      obtain ⟨hJ', hiff⟩ := hstep g k h i h' es hJ hAstep (mainloop_step hi)
      exact and_congr hiff (ih hJ' hArest)

theorem Always.of_forall {g : γ} {k : Nat} {h : Service} {inputs : List Input}
    (hP : ∀ g h i h' es, P g h i h' es) : Always P next g k h inputs := by
  induction inputs generalizing g k h with
  | nil => exact True.intro
  | cons i inputs ih => exact fun h' es _ => ⟨hP g h i h' es, ih⟩

end

/-! ## What stays -/

section

variable {k : Nat} {h h' : Service} {i : Input} {es : List Effect} {id : Nat}

/-- A slave is replaced by an arrival or by a command that finds it free. -/
theorem Step.slave (hstep : Step k h i h' es) : h'.s id = h.s id ∨
    (∃ fd buffer alive queue es', i = .data fd buffer alive ∧ h.harbor.find fd = some id ∧
      (h'.s id).fd = (h.s id).fd ∧ Arrival h id buffer (h'.s id) queue es') ∨
    (h.s id).fd = 0 := by
  cases hstep with
  | @arrives fd buffer alive j s queue es hfind hfd harrival =>
      by_cases hj : id = j
      · subst hj
        have hs : (h.after id s queue).s id = s := Function.update_self ..
        refine .inr (.inl ⟨fd, buffer, alive, queue, es, rfl, hfind, ?_, ?_⟩)
        · rw [hs, hfd]
        · rw [hs]
          exact harrival
      · exact .inl (Function.update_of_ne hj ..)
  | @called msg source fd j hlink hfree =>
      by_cases hj : id = j
      · subst hj
        exact .inr (.inr hfree)
      · exact .inl (Function.update_of_ne hj ..)
  | @accepted msg source fd j hlink hfree =>
      by_cases hj : id = j
      · subst hj
        exact .inr (.inr hfree)
      · exact .inl (Function.update_of_ne hj ..)
  | sent htarget hsent =>
      cases hsent <;> exact .inl rfl
  | waits hnone hs => exact .inl (congrFun hs id)
  | _ => exact .inl rfl

/-- A link keeps its descriptor. -/
theorem Step.fd_stays (hstep : Step k h i h' es) (hfd : (h.s id).fd ≠ 0) :
    (h'.s id).fd = (h.s id).fd := by
  rcases @Step.slave _ _ _ _ _ id hstep with hsame | ⟨_, _, _, _, _, _, _, hsame, _⟩ | hfree
  · rw [hsame]
  · exact hsame
  · exact absurd hfree hfd

/-- A link that is down stays down. -/
theorem Step.down_stays (hstep : Step k h i h' es) (inv : Inv h)
    (hdown : (h.s id).status = .down) : h'.s id = h.s id := by
  rcases @Step.slave _ _ _ _ _ id hstep with hsame | ⟨_, _, _, _, _, _, _, -, harrival⟩ | hfree
  · exact hsame
  · rcases harrival.status with ⟨hsame, -⟩ | ⟨-, hne, -⟩
    · exact hsame
    · exact absurd hdown hne
  · exact absurd hdown (inv.not_down hfree)

theorem Step.id_stays (hstep : Step k h i h' es) : h'.id = h.id := by
  cases hstep with
  | sent htarget hsent => cases hsent <;> rfl
  | waits hnone hs hq hid => exact hid
  | _ => rfl

end

end Jump.Skynet.HarborService
