import Jump.Skynet.HarborService.Links
import Jump.Skynet.HarborService.Contents

/-! # What each function of the service can do

One lemma for each function: every way in which it ends, with the state after it and what it
asks for.
-/

namespace Jump.Skynet.HarborService

open Jump.Core
open Jump.Skynet.HarborLink

namespace Service

/-- The slave of a harbor and its queue replaced. -/
def after (h : Service) (id : Nat) (s : Slave) (queue : Option HarborMsgQueue) : Service :=
  (h.setSlave id s).setQueue id queue

variable {h : Service} {id i : Nat} {s : Slave} {queue : Option HarborMsgQueue}

@[simp] theorem after_s : (h.after id s queue).s = Function.update h.s id s := rfl

@[simp] theorem after_queue :
    (h.after id s queue).queue = Function.update h.queue id queue := rfl

@[simp] theorem after_map : (h.after id s queue).map = h.map := rfl

@[simp] theorem after_id : (h.after id s queue).id = h.id := rfl

@[simp] theorem setSlave_s : (h.setSlave id s).s = Function.update h.s id s := rfl

@[simp] theorem setQueue_s : (h.setQueue id queue).s = h.s := rfl

@[simp] theorem setQueue_map : (h.setQueue id queue).map = h.map := rfl

@[simp] theorem setQueue_id : (h.setQueue id queue).id = h.id := rfl

@[simp] theorem setQueue_queue :
    (h.setQueue id queue).queue = Function.update h.queue id queue := rfl

end Service

/-! ## Socket data -/

/-- The effect neither writes to a link nor takes a message of the queues. -/
def Quiet : Effect → Prop
  | .send _ _ _ _ data => ∀ b, data ≠ .buffer b
  | .sendRemote .. => False
  | .handshake .. => False
  | .start _ => False
  | .close _ => True
  | .free _ => False
  | .error _ => True

theorem Quiet.written {e : Effect} (h : Quiet e) : e.written = none := by
  cases e with
  | sendRemote fd m => exact h.elim
  | handshake fd id => exact h.elim
  | _ => rfl

theorem forwarded_quiet (alive : Nat → Bool) (source destination type : Nat) (session : Int)
    (msg : List UInt8) : ∀ e ∈ forwarded alive source destination type session msg, Quiet e := by
  intro e he
  unfold forwarded at he
  rcases List.mem_cons.mp he with rfl | he
  · exact nofun
  · split at he
    · exact absurd he List.not_mem_nil
    · rcases List.mem_cons.mp he with rfl | he
      · exact nofun
      · obtain rfl := List.mem_singleton.mp he
        trivial

section

variable {h before : Service} {fd : Int} {buffer : List UInt8} {alive : Nat → Bool} {id : Nat}

/-- Messages that are handed on leave the service as it is. -/
theorem performAll_forwards {events : List Event} (hevents : ∀ e ∈ events, Forwards e)
    (more : List Event) : ∃ es, (∀ e ∈ es, Quiet e) ∧
      performAll fd buffer alive before h (events ++ more) =
        (performAll fd buffer alive before h more).map fun r => (r.1, es ++ r.2) := by
  induction events with
  | nil =>
      refine ⟨[], fun _ he => absurd he List.not_mem_nil, ?_⟩
      rw [List.nil_append]
      exact Option.map_id'.symm
  | cons event events ih =>
      obtain ⟨es, hquiet, heq⟩ := ih fun e he => hevents e (List.mem_cons_of_mem _ he)
      cases event with
      | forward source destination type session msg =>
          refine ⟨forwarded alive source destination type session msg ++ es, fun e he => ?_, ?_⟩
          · exact (List.mem_append.mp he).elim (forwarded_quiet _ _ _ _ _ _ e) (hquiet e)
          · rw [List.cons_append, performAll, perform]
            dsimp only [Option.bind_eq_bind, Option.bind_some]
            rw [heq]
            cases performAll fd buffer alive before h more with
            | none => rfl
            | some r =>
                simp only [Option.map_some, Option.bind_some, List.append_assoc]
                rfl
      | _ => exact (hevents _ List.mem_cons_self).elim

theorem performAll_nil : performAll fd buffer alive before h [] = some (h, []) := rfl

theorem performAll_close :
    performAll fd buffer alive before h [.closeHarbor id] =
      some (h.setQueue id none,
        .error (closedText (before.s id) id fd buffer) ::
          ((if (h.s id).fd ≠ 0 then [Effect.close (h.s id).fd] else []) ++
            releaseQueue (h.queue id))) := by
  rw [performAll, perform, closeHarbor]
  dsimp only [Option.bind_eq_bind, Option.bind_some, performAll_nil, Option.pure_def]
  rw [List.append_nil]

/-- What is done for a live link. -/
theorem performAll_carried {s : Slave} {events : List Event} (hc : Carried id s events)
    {r : Service × List Effect} (hr : performAll fd buffer alive before h events = some r) :
    (Live s ∧ r.1 = h ∧ ∀ e ∈ r.2, Quiet e) ∨
      (s.status = .down ∧ r.1 = h.setQueue id none ∧
        ∃ es, (∀ e ∈ es, Quiet e) ∧ r.2 = es ++ releaseQueue (h.queue id)) := by
  rcases hc with ⟨hs, hall⟩ | ⟨front, rfl, hall, hs⟩
  · obtain ⟨es, hquiet, heq⟩ := @performAll_forwards h before fd buffer alive _ hall []
    rw [List.append_nil, hr] at heq
    obtain rfl := Option.some.inj heq
    exact .inl ⟨hs, rfl, fun e he => hquiet e (List.append_nil es ▸ he)⟩
  · obtain ⟨es, hquiet, heq⟩ :=
      @performAll_forwards h before fd buffer alive _ hall [.closeHarbor id]
    rw [hr, performAll_close] at heq
    obtain rfl := Option.some.inj heq
    refine .inr ⟨hs, rfl, es ++ .error (closedText (before.s id) id fd buffer) ::
      (if (h.s id).fd ≠ 0 then [Effect.close (h.s id).fd] else []), ?_, ?_⟩
    · intro e he
      rcases List.mem_append.mp he with he | he
      · exact hquiet e he
      · rcases List.mem_cons.mp he with rfl | he
        · trivial
        · split at he
          · obtain rfl := List.mem_singleton.mp he
            trivial
          · exact absurd he List.not_mem_nil
    · rw [List.append_assoc, List.cons_append]

end

/-- What a buffer does to the link it comes over: the slave, its queue and the effects. -/
inductive Arrival (h : Service) (id : Nat) (buffer : List UInt8) :
    Slave → Option HarborMsgQueue → List Effect → Prop
  | idle (hs : ¬Live (h.s id)) (hhand : (h.s id).status = .handshake → buffer = []) :
      Arrival h id buffer (h.s id) (h.queue id) []
  | wrong {b : UInt8} {rest : List UInt8} {s : Slave} {es : List Effect}
      (hbuffer : buffer = b :: rest) (hhand : (h.s id).status = .handshake)
      (hne : b.toNat ≠ id) (hdown : s.status = .down) (hquiet : ∀ e ∈ es, Quiet e) :
      Arrival h id buffer s none (es ++ releaseQueue (h.queue id))
  | met {b : UInt8} {rest : List UInt8} {s : Slave} {es : List Effect}
      (hbuffer : buffer = b :: rest) (hhand : (h.s id).status = .handshake)
      (heq : b.toNat = id) (hs : Live s ∨ s.status = .down) (hquiet : ∀ e ∈ es, Quiet e) :
      Arrival h id buffer s none (sendQueue (h.s id).fd (h.pending id) ++ es)
  | read {s : Slave} {es : List Effect} (hlive : Live (h.s id)) (hs : Live s)
      (hquiet : ∀ e ∈ es, Quiet e) : Arrival h id buffer s (h.queue id) es
  | oversized {s : Slave} {es : List Effect} (hlive : Live (h.s id)) (hdown : s.status = .down)
      (hquiet : ∀ e ∈ es, Quiet e) :
      Arrival h id buffer s none (es ++ releaseQueue (h.queue id))

theorem dispatchQueue_eq {h : Service} {id : Nat} {r : Service × List Effect}
    (hr : dispatchQueue h id = some r) : (h.s id).fd ≠ 0 ∧ r.1 = h.setQueue id none ∧
      r.2 = sendQueue (h.s id).fd (h.pending id) := by
  unfold dispatchQueue at hr
  dsimp only at hr
  split at hr
  · exact nomatch hr
  · rename_i hfd
    cases hq : h.queue id with
    | none =>
        rw [hq] at hr
        obtain rfl := Option.some.inj hr
        refine ⟨hfd, ?_, ?_⟩
        · unfold Service.setQueue
          rw [← hq, Function.update_eq_self]
        · unfold Service.pending
          rw [hq]
          rfl
    | some queue =>
        rw [hq] at hr
        obtain rfl := Option.some.inj hr
        refine ⟨hfd, rfl, ?_⟩
        unfold Service.pending
        rw [hq, popQueue_eq]
        rfl

theorem after_self (h : Service) (id : Nat) : h.after id (h.s id) (h.queue id) = h := by
  unfold Service.after Service.setQueue Service.setSlave
  simp only [Function.update_eq_self]

section

variable {h : Service} {fd : Int} {buffer : List UInt8} {alive : Nat → Bool}

theorem pushSocketData_cases {r : Service × List Effect}
    (hr : pushSocketData h fd buffer alive = some r) :
    (h.harbor.find fd = none ∧ r.1 = h ∧ ∀ e ∈ r.2, Quiet e) ∨
      ∃ id s queue, h.harbor.find fd = some id ∧ s.fd = (h.s id).fd ∧
        Arrival h id buffer s queue r.2 ∧ r.1 = h.after id s queue := by
  unfold pushSocketData HarborLink.pushSocketData at hr
  cases hfind : h.harbor.find fd with
  | none =>
      rw [hfind] at hr
      refine .inl ⟨rfl, ?_⟩
      obtain rfl := Option.some.inj hr
      refine ⟨rfl, fun e he => ?_⟩
      obtain rfl := List.mem_singleton.mp he
      trivial
  | some id =>
      rw [hfind] at hr
      cases hloop : loop h.harbor id (buffer.length + 2) (h.s id) buffer with
      | none =>
          have hloop' : loop h.harbor id (buffer.length + 2) (h.harbor.s id) buffer = none := hloop
          simp only [hloop', Option.map_none, Option.bind_eq_bind, Option.bind_none] at hr
          exact nomatch hr
      | some p =>
          have hloop' : loop h.harbor id (buffer.length + 2) (h.harbor.s id) buffer =
              some p := hloop
          simp only [hloop', Option.map_some, Option.bind_eq_bind, Option.bind_some] at hr
          have hfd : p.1.fd = (h.s id).fd := loop_fd hloop
          -- the slave is replaced before the events are looked at, the queue by them
          have hset : ({ h with s := Function.update h.harbor.s id p.1 } : Service) =
            h.after id p.1 (h.queue id) := by
            unfold Service.after Service.setQueue Service.setSlave
            simp only [Function.update_eq_self]
            rfl
          rw [hset] at hr
          refine .inr ⟨id, p.1, ?_⟩
          have hnone : (h.after id p.1 (h.queue id)).setQueue id none = h.after id p.1 none := by
            unfold Service.after Service.setQueue
            simp only [Function.update_idem]
          have hqueue : (h.after id p.1 (h.queue id)).queue id = h.queue id :=
            Function.update_self ..
          by_cases hlive : Live (h.s id)
          · rcases performAll_carried (loop_carried hlive hloop) hr with
              ⟨hs, heq, hquiet⟩ | ⟨hs, heq, es, hquiet, hes⟩
            · exact ⟨h.queue id, rfl, hfd, .read hlive hs hquiet, heq⟩
            · rw [hqueue] at hes
              rw [hes]
              exact ⟨none, rfl, hfd, .oversized hlive hs hquiet, heq.trans hnone⟩
          by_cases hhand : (h.s id).status = .handshake
          · cases buffer with
            | nil =>
                have hp : p = (h.s id, []) := by
                  have hret : pass h.harbor id (h.s id) [] = .ret (h.s id) [] := by
                    unfold HarborLink.pass
                    rw [hhand]
                    rfl
                  rw [loop, hret] at hloop
                  exact (Option.some.inj hloop).symm
                rw [hp, performAll_nil] at hr
                obtain rfl := Option.some.inj hr
                rw [hp]
                exact ⟨h.queue id, rfl, rfl, .idle hlive fun _ => rfl, rfl⟩
            | cons b rest =>
                rcases loop_greeting hhand hloop with ⟨hne, hs, hevents⟩ |
                    ⟨heq, events, hevents, hc⟩
                · have hclose : Carried id p.1 p.2 :=
                    .inr ⟨[], hevents, fun _ he => absurd he List.not_mem_nil, hs⟩
                  rcases performAll_carried hclose hr with ⟨hlive', -⟩ | ⟨-, hr1, es, hquiet, hes⟩
                  · rcases hlive' with hstatus | hstatus <;> rw [hs] at hstatus <;> cases hstatus
                  · rw [hqueue] at hes
                    rw [hes]
                    exact ⟨none, rfl, hfd, .wrong rfl hhand hne hs hquiet, hr1.trans hnone⟩
                · rw [hevents, performAll] at hr
                  obtain ⟨d, hd, hr⟩ := Option.bind_eq_some_iff.mp hr
                  obtain ⟨t, ht, hr⟩ := Option.bind_eq_some_iff.mp hr
                  obtain rfl := Option.some.inj hr
                  obtain ⟨-, hd1, hd2⟩ := dispatchQueue_eq hd
                  rw [hnone] at hd1
                  have hwritten : d.2 = sendQueue (h.s id).fd (h.pending id) := by
                    rw [hd2]
                    unfold Service.pending
                    rw [hqueue, Service.after_s, Function.update_self, hfd]
                  rw [hd1] at ht
                  refine ⟨none, rfl, hfd, ?_⟩
                  rcases performAll_carried hc ht with ⟨hs, ht1, hquiet⟩ |
                      ⟨hs, ht1, es, hquiet, hes⟩
                  · rw [hwritten]
                    exact ⟨.met rfl hhand heq (.inl hs) hquiet, ht1⟩
                  · have hempty : releaseQueue ((h.after id p.1 none).queue id) = [] := by
                      rw [Service.after_queue, Function.update_self]
                      rfl
                    rw [hempty, List.append_nil] at hes
                    rw [hwritten, hes]
                    refine ⟨.met rfl hhand heq (.inr hs) hquiet, ?_⟩
                    rw [ht1]
                    unfold Service.after Service.setQueue
                    simp only [Function.update_idem]
          · have hp := loop_idle hlive hhand hloop
            rw [hp, performAll_nil] at hr
            obtain rfl := Option.some.inj hr
            rw [hp]
            exact ⟨h.queue id, rfl, rfl, .idle hlive fun hs => absurd hs hhand, rfl⟩

end

/-! ## Messages to a handle -/

/-- A message with its cookie as it goes over the link. -/
def packed (source handle type : Nat) (session : Int) (msg : Buffer) : HarborMsg :=
  ⟨cookie source handle type session, msg⟩

/-- The four ways of `remote_send_handle`. -/
inductive Sent (h : Service) (source handle type : Nat) (session : Int) (msg : Buffer) :
    Bool → Service → List Effect → Prop
  | here (hid : handle >>> HANDLE_REMOTE_SHIFT = h.id) :
      Sent h source handle type session msg true h
        [.send source handle (type ||| PTYPE_TAG_DONTCOPY) session (.buffer msg)]
  | kept {queue : HarborMsgQueue} (hid : handle >>> HANDLE_REMOTE_SHIFT ≠ h.id)
      (hwait : (h.s (handle >>> HANDLE_REMOTE_SHIFT)).fd = 0 ∨
        (h.s (handle >>> HANDLE_REMOTE_SHIFT)).status = .handshake)
      (hup : (h.s (handle >>> HANDLE_REMOTE_SHIFT)).status ≠ .down)
      (hqueue : queue.toList = h.pending (handle >>> HANDLE_REMOTE_SHIFT) ++
        [packed source handle type session msg]) :
      Sent h source handle type session msg true
        (h.setQueue (handle >>> HANDLE_REMOTE_SHIFT) (some queue)) []
  | refused {text : String} (hid : handle >>> HANDLE_REMOTE_SHIFT ≠ h.id)
      (hfd : (h.s (handle >>> HANDLE_REMOTE_SHIFT)).fd = 0)
      (hdown : (h.s (handle >>> HANDLE_REMOTE_SHIFT)).status = .down) :
      Sent h source handle type session msg false h
        [.send handle source PTYPE_ERROR 0 .null, .error text]
  | written (hid : handle >>> HANDLE_REMOTE_SHIFT ≠ h.id)
      (hfd : (h.s (handle >>> HANDLE_REMOTE_SHIFT)).fd ≠ 0)
      (hhand : (h.s (handle >>> HANDLE_REMOTE_SHIFT)).status ≠ .handshake) :
      Sent h source handle type session msg false h
        [.sendRemote (h.s (handle >>> HANDLE_REMOTE_SHIFT)).fd
          (packed source handle type session msg)]

theorem remoteSendHandle_sent (h : Service) (source handle type : Nat) (session : Int)
    (msg : Buffer) :
    Sent h source handle type session msg (remoteSendHandle h source handle type session msg).1
      (remoteSendHandle h source handle type session msg).2.1
      (remoteSendHandle h source handle type session msg).2.2 := by
  unfold remoteSendHandle
  dsimp only
  split
  · rename_i hid
    exact .here hid
  · rename_i hid
    split
    · rename_i hwait
      split
      · rename_i hdown
        refine .refused hid (hwait.resolve_right fun hhand => ?_) hdown
        rw [hdown] at hhand
        cases hhand
      · rename_i hup
        refine .kept hid hwait hup ?_
        rw [RingBuffer.toList_pushReserved, toList_getD, Nat.or_comm]
        rfl
    · rename_i hwait
      exact .written hid (fun hfd => hwait (.inl hfd)) fun hhand => hwait (.inr hhand)

/-! ## Messages to a name -/

/-- A message whose handle is not known yet. -/
def unpacked (source type : Nat) (session : Int) (msg : Buffer) : HarborMsg where
  header := {
    source := source
    destination := u32 (type <<< HANDLE_REMOTE_SHIFT)
    session := uint32OfInt session }
  buffer := msg

/-- What `dispatch_name_queue` does to a message that it sends. -/
def patch (handle : Nat) (m : HarborMsg) : HarborMsg :=
  { m with header := { m.header with
    destination := m.header.destination ||| (handle &&& HANDLE_MASK) } }

theorem patch_unpacked (source handle type : Nat) (session : Int) (msg : Buffer) :
    patch handle (unpacked source type session msg) = packed source handle type session msg := by
  unfold patch unpacked packed cookie
  rw [Nat.or_comm (handle &&& HANDLE_MASK)]

section

variable {h : Service} {name : Name}

/-- A name without a handle: the message is queued behind those that wait already. -/
theorem remoteSendName_waits (source type : Nat) (session : Int) (msg : Buffer)
    (hvalue : h.value name = 0) : ∃ h', remoteSendName h source name type session msg =
        (true, h', [.send 0 h.slave PTYPE_TEXT 0 (.text (query name))]) ∧
      h'.s = h.s ∧ h'.queue = h.queue ∧ h'.id = h.id ∧ (∀ other, h'.value other = h.value other) ∧
      (∀ other, ¬Same name other → (node h'.map other).queue = (node h.map other).queue) ∧
      ∀ other, Same name other → ∃ queue, (node h'.map other).queue = some queue ∧
        queue.toList = h.waiting other ++ [unpacked source type session msg] := by
  have hzero : (node h.map name).value = 0 := hvalue
  unfold remoteSendName
  dsimp only
  rw [show (hashNode h.map name).1 = node h.map name from rfl, if_pos hzero]
  have hnew : ({ node h.map name with
      queue := some (((node h.map name).queue.getD newQueue).pushReserved
        (unpacked source type session msg)) } : KeyValue).matches name = true :=
    matches_iff.mpr (matches_iff.mp (node_matches h.map name))
  refine ⟨_, rfl, rfl, rfl, rfl, fun other => ?_, fun other hne => ?_, fun other hsame => ?_⟩
  · refine (congrArg KeyValue.value (node_write hnew other)).trans ?_
    split
    · rename_i hsame
      exact (node_same hsame).1
    · rfl
  · refine (congrArg KeyValue.queue (node_write hnew other)).trans ?_
    rw [if_neg hne]
  · have hwrite := congrArg KeyValue.queue (@node_write h.map _ _ hnew other)
    rw [if_pos hsame] at hwrite
    refine ⟨_, hwrite, ?_⟩
    rw [RingBuffer.toList_pushReserved, toList_getD, (node_same hsame).2]
    rfl

/-- A name with a handle: the message goes to the handle. -/
theorem remoteSendName_sent (source type : Nat) (session : Int) (msg : Buffer)
    (hvalue : h.value name ≠ 0) : ∃ kept h' es,
      remoteSendName h source name type session msg =
        (kept, { h' with map := (hashNode h.map name).2 }, es) ∧
      Sent h source (h.value name) type session msg kept h' es := by
  have hne : (node h.map name).value ≠ 0 := hvalue
  have hsent := remoteSendHandle_sent h source (node h.map name).value type session msg
  refine ⟨_, _, _, ?_, hsent⟩
  unfold remoteSendName
  dsimp only
  rw [show (hashNode h.map name).1 = node h.map name from rfl, if_neg hne]
  unfold remoteSendHandle
  dsimp only
  split
  · rfl
  · split
    · split <;> rfl
    · rfl

/-- What `update_name` does to the messages that wait for the name. -/
inductive Named (h : Service) (name : Name) (handle : Nat) :
    (Nat → Option HarborMsgQueue) → List Effect → Prop
  | quiet (hnone : (node h.map name).queue = none) : Named h name handle h.queue []
  | dropped {queue : HarborMsgQueue} {text : String} (hsome : (node h.map name).queue = some queue)
      (hfd : (h.s (handle >>> HANDLE_REMOTE_SHIFT)).fd = 0)
      (hdown : (h.s (handle >>> HANDLE_REMOTE_SHIFT)).status = .down) :
      Named h name handle h.queue (.error text :: releaseQueue (some queue))
  | merged {queue merged : HarborMsgQueue} (hsome : (node h.map name).queue = some queue)
      (hfd : (h.s (handle >>> HANDLE_REMOTE_SHIFT)).fd = 0)
      (hup : (h.s (handle >>> HANDLE_REMOTE_SHIFT)).status ≠ .down)
      (hmerged : merged.toList = h.pending (handle >>> HANDLE_REMOTE_SHIFT) ++ queue.toList) :
      Named h name handle
        (Function.update h.queue (handle >>> HANDLE_REMOTE_SHIFT) (some merged)) []
  | written {queue : HarborMsgQueue} (hsome : (node h.map name).queue = some queue)
      (hfd : (h.s (handle >>> HANDLE_REMOTE_SHIFT)).fd ≠ 0) :
      Named h name handle h.queue (sendQueue (h.s (handle >>> HANDLE_REMOTE_SHIFT)).fd
        (queue.toList.map (patch handle)))

theorem updateName_cases {handle : Nat} {r : Service × List Effect}
    (hr : updateName h name handle = some r) : ∃ queue, Named h name handle queue r.2 ∧
      r.1 = { h with
        queue := queue
        map := hashWrite { node h.map name with value := handle, queue := none } name
          (hashNode h.map name).2 } ∧
      ((node h.map name).queue ≠ none → handle >>> HANDLE_REMOTE_SHIFT ≠ 0) := by
  unfold updateName at hr
  dsimp only [Option.bind_eq_bind, Option.pure_def] at hr
  rw [show (hashNode h.map name).1 = node h.map name from rfl] at hr
  cases hq : (node h.map name).queue with
  | none =>
      rw [hq] at hr
      obtain rfl := Option.some.inj hr
      exact ⟨h.queue, .quiet hq, rfl, fun hne => absurd rfl hne⟩
  | some queue =>
      rw [hq] at hr
      obtain ⟨d, hd, hr⟩ := Option.bind_eq_some_iff.mp hr
      obtain rfl := Option.some.inj hr
      unfold dispatchNameQueue at hd
      dsimp only at hd
      split at hd
      · exact nomatch hd
      rename_i hharbor
      split at hd
      · rename_i hfd
        split at hd
        · rename_i hdown
          obtain rfl := Option.some.inj hd
          exact ⟨h.queue, .dropped hq hfd hdown, rfl, fun _ => hharbor⟩
        · rename_i hup
          cases hp : h.queue (handle >>> HANDLE_REMOTE_SHIFT) with
          | none =>
              rw [hp] at hd
              obtain rfl := Option.some.inj hd
              refine ⟨_, @Named.merged h name handle queue queue hq hfd hup ?_, rfl, fun _ =>
                hharbor⟩
              unfold Service.pending
              rw [hp]
              rfl
          | some waiting =>
              rw [hp] at hd
              obtain rfl := Option.some.inj hd
              refine ⟨_, .merged hq hfd hup ?_, rfl, fun _ => hharbor⟩
              unfold Service.pending
              rw [hp, toList_foldl, popQueue_eq]
              rfl
      · rename_i hfd
        obtain rfl := Option.some.inj hd
        refine ⟨h.queue, ?_, rfl, fun _ => hharbor⟩
        have hwritten : Named h name handle _ _ := .written hq hfd
        show Named h name handle h.queue (sendQueue _ (List.map _ (popQueue queue)) ++ [])
        rw [List.append_nil, popQueue_eq]
        exact hwritten

end

/-! ## Links -/

/-- An `S` or `A` that is taken. -/
theorem connect_cases {h : Service} {command : UInt8} {fd : Int} {id : Nat}
    {r : Service × List Effect} (hr : connect h command fd id = some r) :
    ((h.s id).fd ≠ 0 ∧ r.1 = h ∧ ∃ text, r.2 = [.error text]) ∨
      ((h.s id).fd = 0 ∧ command = 83 ∧
        r.1 = h.setSlave id { h.s id with fd := fd, status := .handshake } ∧
        r.2 = [.start fd, .handshake fd (UInt8.ofNat h.id)]) ∨
      ((h.s id).fd = 0 ∧ command ≠ 83 ∧ fd ≠ 0 ∧
        r.1 = h.after id { h.s id with fd := fd, status := .header } none ∧
        r.2 = [.start fd, .handshake fd (UInt8.ofNat h.id)] ++ sendQueue fd (h.pending id)) := by
  unfold connect at hr
  split at hr
  · rename_i hfd
    obtain rfl := Option.some.inj hr
    exact .inl ⟨hfd, rfl, _, rfl⟩
  · rename_i hfd
    have hfree : (h.s id).fd = 0 := not_not.mp hfd
    have hhand : ∀ s : Slave, s.fd = fd → handshake (h.setSlave id s) id =
        .handshake fd (UInt8.ofNat h.id) := by
      intro s hs
      unfold handshake
      rw [Service.setSlave_s, Function.update_self, hs]
      rfl
    dsimp only at hr
    by_cases hcommand : command = 83
    · rw [if_pos hcommand, if_pos hcommand] at hr
      obtain rfl := Option.some.inj hr
      exact .inr (.inl ⟨hfree, hcommand, rfl, by rw [hhand _ rfl]⟩)
    · rw [if_neg hcommand, if_neg hcommand] at hr
      obtain ⟨d, hd, hr⟩ := Option.bind_eq_some_iff.mp hr
      obtain rfl := Option.some.inj hr
      obtain ⟨hfd, hd1, hd2⟩ := dispatchQueue_eq hd
      have hslave : ((h.setSlave id { h.s id with fd := fd, status := .header }).s id).fd = fd := by
        rw [Service.setSlave_s, Function.update_self]
      rw [hslave] at hfd hd2
      refine .inr (.inr ⟨hfree, hcommand, hfd, hd1, ?_⟩)
      rw [hhand _ rfl, hd2]
      rfl

end Jump.Skynet.HarborService
