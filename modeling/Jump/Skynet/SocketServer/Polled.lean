import Jump.Skynet.SocketServer.Ownership

/-! # Write events

What the functions of the socket server keep of the poll set, and that a socket with something to
send has its write events enabled.
-/

namespace Jump.Skynet.SocketServer

open Jump.Core

section Socket

variable {w w' w'' : Sockets} {held given : List Int} {h : Nat} {s s' : Socket}

theorem Sent.nil {chain : List WriteBuffer} {n : Nat} (h : Sent [] chain n) : chain = [] := by
  cases h
  rfl

theorem sendBufferEmpty_iff (s : Socket) :
    s.sendBufferEmpty = true ↔ s.high.chain = [] ∧ s.low.chain = [] := by
  unfold Socket.sendBufferEmpty
  rw [Bool.and_eq_true, List.isEmpty_iff, List.isEmpty_iff]

/-- What is empty stays so. -/
theorem Flush.empty (hs : Flush s s') (hempty : s.sendBufferEmpty = true) :
    s'.sendBufferEmpty = true := by
  rw [sendBufferEmpty_iff] at hempty ⊢
  obtain ⟨hhigh, hlow⟩ := hempty
  cases hs with
  | high h _ =>
      rw [hhigh] at h
      exact ⟨h.nil, hlow⟩
  | low _ h _ =>
      rw [hlow] at h
      exact ⟨rfl, h.nil⟩
  | raise _ h _ =>
      rw [hlow] at h
      cases h.nil

theorem Flush.fd (hs : Flush s s') : s'.fd = s.fd := by
  cases hs with
  | high => rfl
  | low => rfl
  | raise => rfl

theorem polled_or_waiting {type : SocketType} (hinvalid : type ≠ .invalid)
    (hreserve : type ≠ .reserve) : type.polled = true ∨ type.waiting = true := by
  cases type with
  | invalid => exact absurd rfl hinvalid
  | reserve => exact absurd rfl hreserve
  | plisten | paccept => exact Or.inr rfl
  | _ => exact Or.inl rfl

/-- The slot of an open socket becomes free, and of the poll set its entry may go. -/
theorem Owned.of_free (ho : Owned w held given)
    (htype : (w.slot h).type.polled = true ∨ (w.slot h).type.waiting = true)
    (hlocal : Local w w') (hother : ∀ i ≠ h, w'.slot i = w.slot i)
    (hpoll : ∀ fd ≠ (w.slot h).fd, w'.poll fd = w.poll fd)
    (hself : (w.slot h).type.waiting = true → w'.poll (w.slot h).fd = none)
    (hfree : (w'.slot h).type = .invalid) : Owned w' held given := by
  have hs : Wired w' held h (w'.slot h) := by
    apply Wired.free
    · rw [hfree]
      rfl
    · rw [hfree]
      rfl
  have hnwait : (w'.slot h).type.waiting = false := by
    rw [hfree]
    rfl
  cases htype with
  | inl hp => exact ho.of_own hp hlocal hother hpoll hnwait hs
  | inr hw =>
      apply ho.of_slot hlocal hother
      · funext fd
        by_cases hfd : fd = (w.slot h).fd
        · rw [hfd, hself hw, ((ho.slot h).waiting hw).2.1]
        · exact hpoll fd hfd
      · intro hw'
        rw [hnwait] at hw'
        cases hw'
      · exact hs

theorem Closes.owned (hw : Closes h w w') (ho : Owned w held given)
    (htype : (w.slot h).type ≠ .invalid) : Owned w' held given := by
  obtain ⟨n, hn⟩ := hw.slot
  apply ho.of_free (polled_or_waiting htype hw.type) hw.inner hw.other
  · intro fd hfd
    rw [hw.poll, Function.update_of_ne hfd]
  · intro _
    rw [hw.poll, Function.update_self]
  · rw [hn]
    rfl

theorem forceClose_owned (ho : Owned w held given) (htype : (w.slot h).type ≠ .invalid) :
    (w.forceClose h).Ensures fun w' => Owned w' held given := by
  refine (forceClose_ends htype).ensures.mono ?_
  intro w' hw'
  exact hw'.owned ho htype

/-- `send_buffer` for an event, of a socket that is not connecting. -/
theorem Flushes.owned {r : Sockets × Bool} (hr : Flushes h w r) (ho : Owned w held given)
    (hinvalid : (w.slot h).type ≠ .invalid) (hreserve : (w.slot h).type ≠ .reserve)
    (hconn : (w.slot h).type ≠ .connecting) : Owned r.1 held given := by
  unfold Flushes at hr
  split at hr
  · exact hr.owned ho hinvalid
  obtain ⟨⟨hlocal, hpoll⟩, hother, hs⟩ := hr
  have hold := ho.slot h
  cases polled_or_waiting hinvalid hreserve with
  | inl hp =>
      obtain ⟨b, hb, hmust⟩ := hold.polled hp
      have helse : ∀ fd ≠ (w.slot h).fd, r.1.poll fd = w.poll fd := by
        intro fd hfd
        cases hpoll with
        | inl hsame => rw [hsame]
        | inr hoff => rw [hoff.2, Sockets.spWrite_poll_ne _ hfd]
      have hnwait : (r.1.slot h).type.waiting = false := by
        rw [hs.type]
        exact polled_not_waiting hp
      apply ho.of_own hp hlocal hother helse hnwait
      refine ⟨?_, fun hw => ?_, fun hw => ?_⟩
      · intro _
        rw [hs.fd, hs.type]
        cases hpoll with
        | inl hsame =>
            refine ⟨b, by rw [hsame, hb], ?_⟩
            intro hmore
            apply hmust
            refine hmore.imp_left fun hleft => ?_
            by_contra hnone
            rw [hs.empty ((Bool.not_eq_false _).mp hnone)] at hleft
            cases hleft
        | inr hoff =>
            refine ⟨false, ?_, ?_⟩
            · rw [hoff.2, Sockets.spWrite_poll_some w hb]
            · intro hmore
              cases hmore with
              | inl hleft =>
                  rw [hoff.1] at hleft
                  cases hleft
              | inr hc => exact absurd hc hconn
      · rw [hnwait] at hw
        cases hw
      · apply hs.empty
        apply hold.empty
        rw [hs.type] at hw
        exact hw
  | inr hw =>
      have hempty := hold.empty (Or.inl hw)
      obtain ⟨hobtain, hnone, hnot⟩ := hold.waiting hw
      have hsame : r.1.poll = w.poll := by
        cases hpoll with
        | inl hsame => exact hsame
        | inr hoff => rw [hoff.2, Sockets.spWrite_poll_none w hnone]
      apply ho.of_slot hlocal hother hsame
      · intro _
        exact ⟨hw, hs.fd⟩
      · refine ⟨?_, ?_, fun _ => hs.empty hempty⟩
        · intro hp
          rw [hs.type, waiting_not_polled hw] at hp
          cases hp
        · intro _
          rw [hs.fd, hsame]
          exact ⟨(hlocal.obtained _).mpr hobtain, hnone, hnot⟩

/-- Something is queued for a socket whose write events are enabled then. -/
theorem Owned.of_pending (ho : Owned w held given)
    (hopen : (w.slot h).type = .connecting ∨ (w.slot h).type = .connected)
    (hlocal : Local w w') (hother : ∀ i ≠ h, w'.slot i = w.slot i)
    (hpoll : ∀ fd ≠ (w.slot h).fd, w'.poll fd = w.poll fd)
    (htype : (w'.slot h).type = (w.slot h).type) (hfd : (w'.slot h).fd = (w.slot h).fd)
    (hon : w'.poll (w.slot h).fd = some (h, true)) : Owned w' held given := by
  have hp : (w.slot h).type.polled = true ∧ (w.slot h).type ≠ .listen := by
    cases hopen with
    | inl htype => rw [htype]; exact ⟨rfl, by decide⟩
    | inr htype => rw [htype]; exact ⟨rfl, by decide⟩
  have hnwait := polled_not_waiting hp.1
  apply ho.of_own hp.1 hlocal hother hpoll
  · rw [htype]
    exact hnwait
  · refine ⟨fun _ => ⟨true, ?_, fun _ => rfl⟩, fun hw => ?_, fun hw => ?_⟩
    · rw [hfd]
      exact hon
    · rw [htype, hnwait] at hw
      cases hw
    · rw [htype, hnwait] at hw
      exact absurd (hw.resolve_left Bool.false_ne_true) hp.2

/-- What `append_sendbuffer_` leaves as it is. -/
structure Appends (h : Nat) (w w' : Sockets) : Prop where
  inner : Local w w'
  other : ∀ i ≠ h, w'.slot i = w.slot i
  poll : w'.poll = w.poll
  type : (w'.slot h).type = (w.slot h).type
  fd : (w'.slot h).fd = (w.slot h).fd

theorem appendSendbuffer_appends (w : Sockets) (h : Nat) (p : Priority) (buffer : Nat) (sz : Int)
    (n : Nat) (address : List UInt8) :
    (w.appendSendbuffer h p buffer sz n address).Ensures (Appends h w) := by
  have hdone : Appends h w ({ w with node := w.node + 1 }.set h
      { (w.slot h).setList (((w.slot h).list p).append (w.buffered buffer sz n address)) p with
        wbSize := (w.slot h).wbSize + (w.buffered buffer sz n address).sz }) := by
    refine ⟨.of_eq rfl rfl, fun i hi => Sockets.set_slot_ne _ hi _, rfl, ?_, ?_⟩
    · rw [Sockets.set_slot]
      cases p with
      | high => rfl
      | low => rfl
    · rw [Sockets.set_slot]
      cases p with
      | high => rfl
      | low => rfl
  unfold Sockets.appendSendbuffer
  dsimp only
  split
  · refine .bind .assert fun _ _ => ?_
    exact .pure hdone
  · exact .pure hdone

/-- `send_socket` after the write that it tries at once -/
theorem afterWrite_owned {p : Priority} {buffer n : Nat} {sz : Int} {address : List UInt8}
    {log : List Effect} {w1 : Sockets} {sent : Prop} [Decidable sent] (ho : Owned w held given)
    (hlocal : Local w { w with log := log }) (hw1 : Owned w1 held given)
    (htype : (w.slot h).type = .connected) :
    (if sent then pure (w1, false)
      else do
        let w' ← Sockets.appendSendbuffer { w with log := log } h p buffer sz n address
        pure (w'.spWrite (w.slot h).fd h true, false) : M (Sockets × Bool)).Ensures
      fun r => Owned r.1 held given := by
  split
  · exact .pure hw1
  refine .bind (appendSendbuffer_appends _ _ _ _ _ _ _) fun w' hw' => ?_
  have hp : (w.slot h).type.polled = true := by
    rw [htype]
    rfl
  obtain ⟨b, hb, _⟩ := (ho.slot h).polled hp
  have hpoll : w'.poll = w.poll := hw'.poll
  apply Outcome.Ensures.pure
  apply ho.of_pending (h := h) (Or.inr htype)
  · exact (hlocal.trans hw'.inner).trans (.of_eq (Sockets.spWrite_soi ..) (Sockets.spWrite_log ..))
  · intro i hi
    rw [Sockets.spWrite_slot]
    exact hw'.other i hi
  · intro fd hfd
    rw [Sockets.spWrite_poll_ne _ hfd, hpoll]
  · rw [Sockets.spWrite_slot]
    exact hw'.type
  · rw [Sockets.spWrite_slot]
    exact hw'.fd
  · rw [← hpoll] at hb
    exact Sockets.spWrite_poll_some w' hb h true

theorem Owned.emit (ho : Owned w held given) {es : List Effect} (hes : Inners es) :
    Owned (w.emit es) held given := ho.of_log (.of_log rfl rfl hes) rfl rfl

theorem sendSocket_owned {id : Int} (ho : Owned w held given) (buffer : Nat) (sz : Int)
    (priority : Priority) (udpAddress : Option (List UInt8)) (ws : WriteResult)
    (hbind : (w.slot (hashId id)).id = id → (w.slot (hashId id)).type ≠ .bind) :
    (w.sendSocket id buffer sz priority udpAddress ws).Ensures
      fun r => Owned r.1 held given := by
  have hwrite : ∀ fd b p n, Inners [.write fd b p n] := fun _ _ _ _ => .cons trivial .nil
  have hfree : ∀ b u, Inners [.free b u] := fun _ _ => .cons trivial .nil
  unfold Sockets.sendSocket
  dsimp only
  split
  · exact .pure (ho.emit (hfree _ _))
  rename_i htaken
  simp only [not_or, ne_eq, not_not] at htaken
  obtain ⟨hinvalid, hid, hhalf, hpaccept⟩ := htaken
  refine .bind .assert fun _ hlisten => ?_
  split
  · rename_i hnow
    have hlog : ∀ {es : List Effect}, Inners es → Local w { w with log := w.log ++ es } :=
      fun hes => .of_log rfl rfl hes
    split
    · cases ws with
      | error => exact .bind (forceClose_owned ho hinvalid) fun w' hw' => .pure hw'
      | _ =>
          refine .bind .answers fun _ _ => ?_
          exact afterWrite_owned ho (hlog (hwrite _ _ _ _))
            ((ho.emit (hwrite _ _ _ _)).emit (hfree _ _)) hnow.2
    · cases ws with
      | ok n =>
          exact afterWrite_owned ho (hlog (hwrite _ _ _ _))
            ((ho.emit (hwrite _ _ _ _)).emit (hfree _ _)) hnow.2
      | _ => exact afterWrite_owned ho (.refl w) (ho.emit (hfree _ _)) hnow.2
  · rename_i hlater
    refine .bind (appendSendbuffer_appends _ _ _ _ _ _ _) fun w' hw' => ?_
    apply Outcome.Ensures.pure
    by_cases hreserve : (w.slot (hashId id)).type = .reserve
    · have hfree : (w'.slot (hashId id)).type = .reserve := hw'.type.trans hreserve
      apply ho.of_slot hw'.inner hw'.other hw'.poll
      · intro hw
        rw [hfree] at hw
        cases hw
      · apply Wired.free
        · rw [hfree]
          rfl
        · rw [hfree]
          rfl
    · have hopen : (w.slot (hashId id)).type = .connecting ∨
          (w.slot (hashId id)).type = .connected := by
        have hnbind := hbind hid
        obtain ⟨hnplisten, hnlisten⟩ := hlisten
        cases htype : (w.slot (hashId id)).type with
        | connecting => exact Or.inl rfl
        | connected => exact Or.inr rfl
        | invalid => exact absurd htype hinvalid
        | reserve => exact absurd htype hreserve
        | plisten => exact absurd htype hnplisten
        | listen => exact absurd htype hnlisten
        | halfclose => exact absurd htype hhalf
        | paccept => exact absurd htype hpaccept
        | bind => exact absurd htype hnbind
      have hp : (w.slot (hashId id)).type.polled = true := by
        cases hopen with
        | inl htype => rw [htype]; rfl
        | inr htype => rw [htype]; rfl
      obtain ⟨b, hb, hmust⟩ := (ho.slot (hashId id)).polled hp
      have hon : b = true := by
        apply hmust
        cases hopen with
        | inl htype => exact Or.inr htype
        | inr htype =>
            left
            by_contra hempty
            exact hlater ⟨(Bool.not_eq_false _).mp hempty, htype⟩
      apply ho.of_pending hopen hw'.inner hw'.other
      · intro fd _
        rw [hw'.poll]
      · exact hw'.type
      · exact hw'.fd
      · rw [hw'.poll, hb, hon]

end Socket

section New

variable {w w' : Sockets} {held given : List Int} {h : Nat} {id fd : Int} {protocol : Protocol}
  {opaqueData : Nat} {add : Option Bool}

/-- The slot becomes free, and nothing else changes. -/
theorem Owned.of_invalid (ho : Owned w held given) (hlocal : Local w w')
    (hother : ∀ i ≠ h, w'.slot i = w.slot i) (hpoll : w'.poll = w.poll)
    (htype : (w'.slot h).type = .invalid) : Owned w' held given := by
  apply ho.of_slot hlocal hother hpoll
  · intro hw
    rw [htype] at hw
    cases hw
  · apply Wired.free
    · rw [htype]
      rfl
    · rw [htype]
      rfl

/-- A held descriptor gets a slot that waits for `start_socket`. -/
theorem Owned.wait (ho : Owned w (fd :: held) given) (hlocal : Local w w')
    (hother : ∀ i ≠ h, w'.slot i = w.slot i) (hpoll : w'.poll = w.poll)
    (htype : (w'.slot h).type.waiting = true) (hfd : (w'.slot h).fd = fd)
    (hempty : (w'.slot h).sendBufferEmpty = true) : Owned w' held given := by
  obtain ⟨hnot, hnodup⟩ := List.nodup_cons.mp ho.nodup
  obtain ⟨hobtain, hnone⟩ := ho.held fd List.mem_cons_self
  have hsub : Owned w held given :=
    ho.mono hnodup (fun _ hmem => List.mem_cons_of_mem fd hmem) fun _ hmem => hmem
  have helse : ∀ fd' ≠ fd, w'.poll fd' = w.poll fd' := by
    intro fd' _
    rw [hpoll]
  apply hsub.update hlocal hother helse
  · intro i _ hp heq
    obtain ⟨b, hb, _⟩ := (ho.slot i).polled hp
    rw [heq, hnone] at hb
    cases hb
  · intro i _ hw
    obtain ⟨_, hnone', hnot'⟩ := (ho.slot i).waiting hw
    rw [hpoll, hfd]
    exact ⟨hnone', fun _ heq => hnot' (heq ▸ List.mem_cons_self)⟩
  · intro fd' hfd'
    rw [hpoll]
    exact (hsub.held fd' hfd').2
  · exact fun _ => Or.inl hobtain
  · refine ⟨?_, ?_, fun _ => hempty⟩
    · intro hp
      rw [waiting_not_polled htype] at hp
      cases hp
    · intro _
      rw [hfd, hpoll]
      exact ⟨(hlocal.obtained fd).mpr hobtain, hnone, hnot⟩

/-- A slot that is made free keeps its descriptor to itself. -/
theorem Owned.drop (ho : Owned w held given) (h : Nat) :
    Owned (w.setType h .invalid) held given := by
  have hlocal : Local w (w.setType h .invalid) := .of_eq rfl rfl
  apply ho.of_invalid (h := h) hlocal
  · exact fun i hi => Sockets.set_slot_ne _ hi _
  · rfl
  · rw [Sockets.setType_slot]

theorem Opens.refused (hr : Opens h id fd protocol opaqueData add w (false, w'))
    (ho : Owned w held given) : Owned w' held given := by
  obtain ⟨⟨hlocal, hadds⟩, hslot⟩ := hr
  rw [if_neg Bool.false_ne_true] at hslot
  have hpoll : w'.poll = w.poll := by
    unfold Adds at hadds
    rw [if_neg (by simp)] at hadds
    exact hadds
  apply ho.of_invalid (h := h) hlocal
  · intro i hi
    rw [hslot, Function.update_of_ne hi]
  · exact hpoll
  · rw [hslot, Function.update_self]

theorem sendBufferEmpty_opened {s : Socket} (hlists : s.high = .empty ∧ s.low = .empty) :
    s.sendBufferEmpty = true := by
  rw [sendBufferEmpty_iff, hlists.1, hlists.2]
  exact ⟨rfl, rfl⟩

theorem Opens.waits (hr : Opens h id fd protocol opaqueData none w (true, w'))
    (ho : Owned w (fd :: held) given) {type : SocketType} (htype : type.waiting = true) :
    Owned (w'.setType h type) held given := by
  obtain ⟨⟨hlocal, hadds⟩, hnew⟩ := hr
  rw [if_pos rfl] at hnew
  obtain ⟨_, hlists, hslot⟩ := hnew
  have hpoll : w'.poll = w.poll := by
    unfold Adds at hadds
    rw [if_neg (by simp)] at hadds
    exact hadds
  have hself : w'.slot h = (w.slot h).opened id fd protocol opaqueData := by
    rw [hslot, Function.update_self]
  have hafter : Local w (w'.setType h type) := hlocal.trans (.of_eq rfl rfl)
  apply ho.wait (h := h) hafter
  · intro i hi
    rw [Sockets.setType, Sockets.set_slot_ne _ hi, hslot, Function.update_of_ne hi]
  · exact hpoll
  · rw [Sockets.setType_slot]
    exact htype
  · rw [Sockets.setType_slot, hself]
    rfl
  · rw [Sockets.setType_slot, hself]
    exact sendBufferEmpty_opened hlists

theorem Opens.poll {answer : Bool}
    (hr : Opens h id fd protocol opaqueData (some answer) w (true, w')) :
    w.poll fd = none ∧ w'.poll = Function.update w.poll fd (some (h, false)) := by
  have hadds := hr.1.2
  unfold Adds at hadds
  rw [if_pos (by simp)] at hadds
  exact hadds

/-- The descriptor of the new socket is in the poll set; `w''` is what its type makes of it. -/
theorem Opens.registers {answer : Bool} {w'' : Sockets} {address : List UInt8}
    (type : SocketType) (b : Bool)
    (hr : Opens h id fd protocol opaqueData (some answer) w (true, w')) (ho : Owned w held given)
    (hfree : fd ∉ held ∧ ∀ i, (w.slot i).type.waiting = true → (w.slot i).fd ≠ fd)
    (hknown : .obtain fd ∈ w.log ∨ .given fd ∈ w.log) (htype : type.polled = true)
    (hb : type = .connecting → b = true) (hlocal : Local w' w'')
    (hslot : w''.slot = Function.update w'.slot h
      { w'.slot h with type := type, udpAddress := address })
    (hpoll : w''.poll = Function.update w.poll fd (some (h, b))) : Owned w'' held given := by
  obtain ⟨hlocal', hnew⟩ := hr
  rw [if_pos rfl] at hnew
  obtain ⟨_, hlists, hslot'⟩ := hnew
  have hself : w''.slot h = { (w.slot h).opened id fd protocol opaqueData with
      type := type, udpAddress := address } := by
    rw [hslot, Function.update_self, hslot', Function.update_self]
  apply ho.register (h := h) (hlocal'.1.trans hlocal)
  · intro i hi
    rw [hslot, Function.update_of_ne hi, hslot', Function.update_of_ne hi]
  · exact (Opens.poll ⟨hlocal', by rw [if_pos rfl]; exact ⟨‹_›, hlists, hslot'⟩⟩).1
  · exact hpoll
  · exact fun i _ => hfree.2 i
  · exact hfree.1
  · exact hknown
  · rw [hself]
    exact htype
  · rw [hself]
    rfl
  · rw [hself]
    exact sendBufferEmpty_opened hlists
  · rw [hself]
    exact hb

/-- It gets its type, and write events are not enabled. -/
theorem Opens.registers_type {answer : Bool}
    (hr : Opens h id fd protocol opaqueData (some answer) w (true, w'))
    (ho : Owned w held given)
    (hfree : fd ∉ held ∧ ∀ i, (w.slot i).type.waiting = true → (w.slot i).fd ≠ fd)
    (hknown : .obtain fd ∈ w.log ∨ .given fd ∈ w.log) (type : SocketType)
    (htype : type.polled = true ∧ type ≠ .connecting) :
    Owned (w'.setType h type) held given :=
  hr.registers type false ho hfree hknown htype.1 (fun heq => absurd heq htype.2)
    (.of_eq rfl rfl) rfl
    hr.poll.2

/-- What is known of a descriptor that is held -/
theorem Owned.of_held (ho : Owned w (fd :: held) given) :
    Owned w held given ∧
      (fd ∉ held ∧ ∀ i, (w.slot i).type.waiting = true → (w.slot i).fd ≠ fd) ∧
      .obtain fd ∈ w.log := by
  obtain ⟨hnot, hnodup⟩ := List.nodup_cons.mp ho.nodup
  refine ⟨ho.mono hnodup (fun _ hmem => List.mem_cons_of_mem fd hmem) fun _ hmem => hmem,
    ⟨hnot, ?_⟩, (ho.held fd List.mem_cons_self).1⟩
  intro i hw heq
  exact ((ho.slot i).waiting hw).2.2 (heq ▸ List.mem_cons_self)

/-- What is known of one that was given -/
theorem Owned.of_given (ho : Owned w held given) (hfd : fd ∈ given) :
    (fd ∉ held ∧ ∀ i, (w.slot i).type.waiting = true → (w.slot i).fd ≠ fd) ∧
      .given fd ∈ w.log := by
  have hgiven := ho.given fd hfd
  refine ⟨⟨fun hmem => ho.disjoint (ho.held fd hmem).1 hgiven, ?_⟩, hgiven⟩
  intro i hw heq
  have hobtain := ((ho.slot i).waiting hw).1
  rw [heq] at hobtain
  exact ho.disjoint hobtain hgiven

theorem obtain_owned (ho : Owned w held given) (fd : Int) :
    (w.obtain fd).Ensures fun w' => Owned w' (fd :: held) given := by
  unfold Sockets.obtain
  refine .bind .answers fun _ hfresh => ?_
  exact .pure (ho.obtain hfresh)

theorem tryAll_owned (ho : Owned w held given) (fds : List Int) :
    (w.tryAll fds).Ensures fun w' => Owned w' held given := by
  induction fds generalizing w with
  | nil => exact .pure ho
  | cons fd fds ih =>
      refine .bind (obtain_owned ho fd) fun w' hw' => ?_
      exact ih hw'.release

end New

/-! ## Commands and events -/

/-- The descriptor from the system that a command brings. -/
def Command.held : Command → Option Int
  | .listen _ fd _ | .udp _ fd _ _ => some fd
  | _ => none

def Command.given : Command → Option Int
  | .bind _ fd _ => some fd
  | _ => none

/-- The descriptor that the socket thread has at hand. -/
def Poll.held : Poll → Option Int
  | .accepting _ fd _ | .accepted _ fd _ => some fd
  | _ => none

section Handlers

variable {w w' : Sockets} {held given : List Int} {h : Nat} {id fd : Int} {opaqueData : Nat}

theorem openSocket_owned (ho : Owned w held given) (id : Int) (opaqueData : Nat) (k : Answers) :
    (w.openSocket id opaqueData k).Ensures
      fun r => Owned r.1 (r.2.held.toList ++ held) given := by
  unfold Sockets.openSocket
  dsimp only
  refine .bind (tryAll_owned ho k.tried) fun w1 hw1 => ?_
  split
  · exact .pure (hw1.drop (hashId id))
  rename_i sock connected _
  refine .bind (obtain_owned hw1 sock) fun w2 hw2 => ?_
  refine .bind (newFd_ends ..).ensures fun r hr => ?_
  obtain ⟨hw2', hfree, hobtain⟩ := hw2.of_held
  obtain ⟨ok, w3⟩ := r
  cases ok with
  | true =>
      rw [if_pos rfl]
      split
      · exact .pure (hr.registers_type hw2' hfree (Or.inl hobtain) .connected ⟨rfl, by decide⟩)
      · have hon : (w3.setType (hashId id) .connecting).poll =
            Function.update w2.poll sock (some (hashId id, false)) := hr.poll.2
        have hwrite : ((w3.setType (hashId id) .connecting).spWrite sock (hashId id) true).poll =
            Function.update w2.poll sock (some (hashId id, true)) := by
          unfold Sockets.spWrite
          rw [hon, Function.update_self, if_pos (Option.isSome_some ..)]
          exact Function.update_idem ..
        have hslot :=
          Sockets.spWrite_slot (w3.setType (hashId id) .connecting) sock (hashId id) true
        exact .pure (hr.registers .connecting true hw2' hfree (Or.inl hobtain) rfl
          (fun _ => rfl) (.of_eq (Sockets.spWrite_soi ..) (Sockets.spWrite_log ..)) hslot hwrite)
  | false => exact .pure (hr.refused hw2).release

theorem listenSocket_owned (ho : Owned w (fd :: held) given) (id : Int) (opaqueData : Nat) :
    (w.listenSocket id fd opaqueData).Ensures
      fun r => Owned r.1 (r.2.held.toList ++ held) given := by
  unfold Sockets.listenSocket
  refine .bind (newFd_ends ..).ensures fun r hr => ?_
  obtain ⟨ok, w'⟩ := r
  cases ok with
  | true => exact .pure (hr.waits ho rfl)
  | false => exact .pure (hr.refused ho).release

theorem bindSocket_owned (ho : Owned w held given) (hfd : fd ∈ given) (id : Int)
    (opaqueData : Nat) (add : Bool) :
    (w.bindSocket id fd opaqueData add).Ensures
      fun r => Owned r.1 (r.2.held.toList ++ held) given := by
  unfold Sockets.bindSocket
  refine .bind (newFd_ends ..).ensures fun r hr => ?_
  obtain ⟨hfree, hgiven⟩ := ho.of_given hfd
  obtain ⟨ok, w'⟩ := r
  cases ok with
  | true => exact .pure (hr.registers_type ho hfree (Or.inr hgiven) .bind ⟨rfl, by decide⟩)
  | false => exact .pure (hr.refused ho)

theorem addUdpSocket_owned (ho : Owned w (fd :: held) given) (id : Int) (family : Protocol)
    (opaqueData : Nat) (add : Bool) :
    (w.addUdpSocket id fd family opaqueData add).Ensures
      fun r => Owned r.1 (r.2.held.toList ++ held) given := by
  unfold Sockets.addUdpSocket
  refine .bind (newFd_ends ..).ensures fun r hr => ?_
  obtain ⟨ho', hfree, hobtain⟩ := ho.of_held
  obtain ⟨ok, w'⟩ := r
  cases ok with
  | true =>
      exact .pure (hr.registers .connected false ho' hfree (Or.inl hobtain) rfl
        (fun heq => absurd heq (by decide)) (.of_eq rfl rfl) rfl hr.poll.2)
  | false => exact .pure (hr.refused ho).release

theorem acceptSocket_owned (ho : Owned w (fd :: held) given) (id : Int) (listener : Nat) :
    (w.acceptSocket id fd listener).Ensures
      fun r => Owned r.1 (r.2.held.toList ++ held) given := by
  unfold Sockets.acceptSocket
  refine .bind (newFd_ends ..).ensures fun r hr => ?_
  obtain ⟨ok, w'⟩ := r
  cases ok with
  | true => exact .pure (hr.waits ho rfl)
  | false => exact .pure (hr.refused ho).release

theorem reportAccept_owned (ho : Owned w held given) (h : Nat) (k : Answers) :
    (w.reportAccept h k).Ensures fun r => Owned r.1 (r.2.held.toList ++ held) given := by
  unfold Sockets.reportAccept
  dsimp only
  split
  · exact .pure ho
  · exact .pure ho
  · exact .bind (obtain_owned ho _) fun w' hw' => .pure hw'

/-- A slot keeps all that matters here. -/
theorem Owned.same (ho : Owned w held given) (hlocal : Local w w')
    (hother : ∀ i ≠ h, w'.slot i = w.slot i) (hpoll : w'.poll = w.poll)
    (htype : (w'.slot h).type = (w.slot h).type) (hfd : (w'.slot h).fd = (w.slot h).fd)
    (hempty : (w'.slot h).sendBufferEmpty = (w.slot h).sendBufferEmpty) :
    Owned w' held given := by
  have hold := ho.slot h
  apply ho.of_slot hlocal hother hpoll
  · intro hw
    rw [htype] at hw
    exact ⟨hw, hfd⟩
  · refine ⟨?_, ?_, ?_⟩
    · rw [htype, hfd, hpoll, hempty]
      exact hold.polled
    · rw [htype, hfd, hpoll, hlocal.obtained]
      exact hold.waiting
    · rw [htype, hempty]
      exact hold.empty

theorem startSocket_owned (ho : Owned w held given) (id : Int) (opaqueData : Nat) (add : Bool) :
    Owned (w.startSocket id opaqueData add).1
      ((w.startSocket id opaqueData add).2.held.toList ++ held) given := by
  have hother : ∀ {w1 : Sockets} (s : Socket), w1.slot = w.slot →
      ∀ i ≠ hashId id, (w1.set (hashId id) s).slot i = w.slot i := by
    intro w1 s hslot i hi
    rw [Sockets.set_slot_ne _ hi, hslot]
  have hlocal := Local.of_eq (Sockets.spAdd_soi w (w.slot (hashId id)).fd (hashId id) add)
    (Sockets.spAdd_log ..)
  have hslot := Sockets.spAdd_slot w (w.slot (hashId id)).fd (hashId id) add
  unfold Sockets.startSocket
  dsimp only
  split
  · exact ho
  split
  · rename_i hwait
    have hwaiting : (w.slot (hashId id)).type.waiting = true := by
      cases hwait with
      | inl htype => rw [htype]; rfl
      | inr htype => rw [htype]; rfl
    have hold := ho.slot (hashId id)
    obtain ⟨hobtain, _, hnot⟩ := hold.waiting hwaiting
    split
    · rename_i hok
      obtain ⟨hnone, hpoll⟩ := Sockets.spAdd_ok w hok
      have hset : ∀ s : Socket, s.type.polled = true → s.type ≠ .connecting →
          s.fd = (w.slot (hashId id)).fd → s.sendBufferEmpty = true →
          Owned ((w.spAdd (w.slot (hashId id)).fd (hashId id) add).2.set (hashId id) s) held
            given := by
        intro s htype hconn hfd hempty
        have hafter : Local w
            ((w.spAdd (w.slot (hashId id)).fd (hashId id) add).2.set (hashId id) s) :=
          hlocal.trans (.of_eq rfl rfl)
        apply ho.register (h := hashId id) (b := false) hafter (hother s hslot) hnone hpoll
        · intro i hi hw hsame
          exact hi (ho.apart hw hwaiting hsame)
        · exact hnot
        · exact Or.inl hobtain
        · rw [Sockets.set_slot]
          exact htype
        · rw [Sockets.set_slot]
          exact hfd
        · rw [Sockets.set_slot]
          exact hempty
        · rw [Sockets.set_slot]
          exact fun heq => absurd heq hconn
      have hempty := hold.empty (Or.inl hwaiting)
      split
      · exact hset _ rfl (by simp) rfl hempty
      · exact hset _ rfl (by simp) rfl hempty
    · rename_i hok
      have hafter : Local w ((w.spAdd (w.slot (hashId id)).fd (hashId id) add).2.setType
          (hashId id) .invalid) := hlocal.trans (.of_eq rfl rfl)
      apply ho.of_invalid (h := hashId id) hafter (hother _ hslot)
      · exact Sockets.spAdd_not_ok w ((Bool.not_eq_true _).mp hok)
      · exact congrArg Socket.type (Sockets.setType_slot ..)
  · split
    · have hafter : Local w (w.set (hashId id)
          { w.slot (hashId id) with opaqueData := opaqueData }) := .of_eq rfl rfl
      apply ho.same (h := hashId id) hafter (hother _ rfl) rfl
      · rw [Sockets.set_slot]
      · rw [Sockets.set_slot]
      · rw [Sockets.set_slot]
        rfl
    · exact ho

theorem setUdpAddress_owned (ho : Owned w held given) (id : Int) (address : List UInt8) :
    Owned (w.setUdpAddress id address).1
      ((w.setUdpAddress id address).2.held.toList ++ held) given := by
  have hset : ∀ bytes, Owned (w.set (hashId id)
      { w.slot (hashId id) with udpAddress := bytes }) held given := by
    intro bytes
    have hafter : Local w (w.set (hashId id)
        { w.slot (hashId id) with udpAddress := bytes }) := .of_eq rfl rfl
    apply ho.same (h := hashId id) hafter (fun i hi => Sockets.set_slot_ne _ hi _) rfl
    · rw [Sockets.set_slot]
    · rw [Sockets.set_slot]
    · rw [Sockets.set_slot]
      rfl
  unfold Sockets.setUdpAddress
  dsimp only
  split
  · exact ho
  split
  · exact ho
  · exact hset _

theorem reportConnect_owned (ho : Owned w held given) (htype : (w.slot h).type = .connecting)
    (k : Answers) :
    (w.reportConnect h k).Ensures fun r => Owned r.1 (r.2.held.toList ++ held) given := by
  have hp : (w.slot h).type.polled = true := by
    rw [htype]
    rfl
  obtain ⟨b, hb, hmust⟩ := (ho.slot h).polled hp
  have hon : b = true := hmust (Or.inr htype)
  have hself := Sockets.setType_slot w h .connected
  unfold Sockets.reportConnect
  dsimp only
  split
  · refine .bind (forceClose_owned ho ?_) fun w' hw' => .pure hw'
    rw [htype]
    decide
  · apply Outcome.Ensures.pure
    have hdone : ∀ w' c, Local w w' → w'.slot = (w.setType h .connected).slot →
        (∀ fd ≠ (w.slot h).fd, w'.poll fd = w.poll fd) →
        w'.poll (w.slot h).fd = some (h, c) →
        ((w.slot h).sendBufferEmpty = false → c = true) → Owned w' held given := by
      intro w' c hlocal hslot hpoll hc hmore
      have hself' : w'.slot h = { w.slot h with type := .connected } := by
        rw [hslot, hself]
      apply ho.of_own hp hlocal
      · intro i hi
        rw [hslot]
        exact Sockets.set_slot_ne _ hi _
      · exact hpoll
      · rw [hself']
        rfl
      · rw [hself']
        refine ⟨fun _ => ⟨c, hc, ?_⟩, fun hw => ?_, fun hw => ?_⟩
        · intro hmust'
          exact hmore (hmust'.resolve_right (by simp))
        · cases hw
        · cases hw with
          | inl hw => cases hw
          | inr hw => cases hw
    have hlocal : Local w (w.setType h .connected) := .of_eq rfl rfl
    split
    · rename_i hempty
      apply hdone _ false
      · exact hlocal.trans (.of_eq (Sockets.spWrite_soi ..) (Sockets.spWrite_log ..))
      · exact Sockets.spWrite_slot ..
      · intro fd hfd
        exact Sockets.spWrite_poll_ne _ hfd h false
      · exact Sockets.spWrite_poll_some (w.setType h .connected) hb h false
      · intro hmore
        rw [hempty] at hmore
        cases hmore
    · exact hdone _ b hlocal rfl (fun _ _ => rfl) hb fun _ => hon

/-- `close_socket` after a `send_buffer` of a socket that had something to send -/
theorem afterFlush_owned {r : Sockets × Bool} {a b c : Poll} (ho : Owned w held given)
    (hr : Flushes h w r) (hp : (w.slot h).type.polled = true)
    (hmore : (w.slot h).sendBufferEmpty = false) (ha : a.held = none) (hb : b.held = none)
    (hc : c.held = none) :
    (if r.2 = true then pure (r.1, a)
      else if (r.1.slot h).sendBufferEmpty = true then do
        let w' ← r.1.forceClose h
        pure (w', b)
      else pure (r.1.setType h .halfclose, c) : M (Sockets × Poll)).Ensures
      fun r => Owned r.1 (r.2.held.toList ++ held) given := by
  have hinvalid : (w.slot h).type ≠ .invalid := by
    intro htype
    rw [htype] at hp
    cases hp
  obtain ⟨w1, closed⟩ := r
  cases closed with
  | true =>
      have hw1 : Closes h w w1 := hr
      rw [if_pos rfl]
      apply Outcome.Ensures.pure
      rw [ha]
      exact hw1.owned ho hinvalid
  | false =>
      obtain ⟨⟨hlocal, hpoll⟩, hother, hs⟩ := hr
      rw [if_neg Bool.false_ne_true]
      have helse : ∀ fd ≠ (w.slot h).fd, w1.poll fd = w.poll fd := by
        intro fd hfd
        cases hpoll with
        | inl hsame =>
            have hsame : w1.poll = w.poll := hsame
            rw [hsame]
        | inr hoff =>
            have hoff : w1.poll = (w.spWrite (w.slot h).fd h false).poll := hoff.2
            rw [hoff, Sockets.spWrite_poll_ne _ hfd]
      have htype1 : (w1.slot h).type = (w.slot h).type := hs.type
      have hfd1 : (w1.slot h).fd = (w.slot h).fd := hs.fd
      split
      · refine .bind (forceClose_ends ?_).ensures fun w2 hw2 => ?_
        · exact fun heq => hinvalid (htype1.symm.trans heq)
        apply Outcome.Ensures.pure
        rw [hb]
        obtain ⟨n, hn⟩ := hw2.slot
        apply ho.of_free (Or.inl hp) (hlocal.trans hw2.inner)
        · intro i hi
          exact (hw2.other i hi).trans (hother i hi)
        · intro fd hfd
          rw [hw2.poll]
          have hne : fd ≠ (w1.slot h).fd := fun heq => hfd (heq.trans hfd1)
          exact (Function.update_of_ne hne ..).trans (helse fd hfd)
        · intro hw
          rw [polled_not_waiting hp] at hw
          cases hw
        · rw [hn]
          rfl
      · rename_i hleft
        have hleft : (w1.slot h).sendBufferEmpty ≠ true := hleft
        apply Outcome.Ensures.pure
        rw [hc]
        have hsame : w1.poll = w.poll := hpoll.resolve_right fun hoff => hleft hoff.1
        obtain ⟨on, hon, hmust⟩ := (ho.slot h).polled hp
        have hself := Sockets.setType_slot w1 h .halfclose
        have hlocal' : Local w (w1.setType h .halfclose) := hlocal.trans (.of_eq rfl rfl)
        apply ho.of_own hp hlocal'
        · intro i hi
          exact (Sockets.set_slot_ne _ hi _).trans (hother i hi)
        · exact helse
        · exact congrArg (fun s : Socket => s.type.waiting) hself
        · have hwired : Wired (w1.setType h .halfclose) held h
              { w1.slot h with type := .halfclose } := by
            refine ⟨fun _ => ⟨on, ?_, fun _ => hmust (Or.inl hmore)⟩, fun hw => ?_, fun hw => ?_⟩
            · change w1.poll (w1.slot h).fd = some (h, on)
              rw [hfd1, hsame, hon]
            · cases hw
            · cases hw with
              | inl hw => cases hw
              | inr hw => cases hw
          rw [← hself] at hwired
          exact hwired

theorem closeSocket_owned (ho : Owned w held given) (id : Int) (opaqueData : Nat)
    (ws : List WriteResult)
    (hreserve : (w.slot (hashId id)).id = id → (w.slot (hashId id)).type = .reserve →
      (w.slot (hashId id)).sendBufferEmpty = true) :
    (w.closeSocket id opaqueData ws).Ensures
      fun r => Owned r.1 (r.2.held.toList ++ held) given := by
  unfold Sockets.closeSocket
  dsimp only
  split
  · exact .pure ho
  rename_i hlive
  simp only [not_or, ne_eq, not_not] at hlive
  split
  · rename_i hempty
    have hclose : (if (w.slot (hashId id)).sendBufferEmpty = true then do
        let w' ← w.forceClose (hashId id)
        pure (w', Poll.clear ⟨.close, opaqueData, id, 0⟩)
        else pure (w.setType (hashId id) .halfclose, .loop) : M (Sockets × Poll)).Ensures
          fun r => Owned r.1 (r.2.held.toList ++ held) given := by
      rw [if_pos hempty]
      exact .bind (forceClose_owned ho hlive.1) fun w' hw' => .pure hw'
    exact hclose
  · rename_i hmore
    have hmore : (w.slot (hashId id)).sendBufferEmpty = false := (Bool.not_eq_true _).mp hmore
    have hp : (w.slot (hashId id)).type.polled = true := by
      have hnreserve : (w.slot (hashId id)).type ≠ .reserve := by
        intro htype
        rw [hreserve hlive.2 htype] at hmore
        cases hmore
      refine (polled_or_waiting hlive.1 hnreserve).resolve_right fun hw => ?_
      rw [(ho.slot (hashId id)).empty (Or.inl hw)] at hmore
      cases hmore
    refine .bind (sendBuffer_ends hlive.1 ws).ensures fun r hr => ?_
    exact afterFlush_owned ho hr hp hmore rfl rfl rfl

theorem forwardTcp_owned (ho : Owned w held given) (htype : (w.slot h).type ≠ .invalid)
    (k : Answers) : (w.forwardTcp h k).Ensures fun r => Owned r.1 held given := by
  unfold Sockets.forwardTcp
  dsimp only
  split
  · exact .pure ho
  · exact .pure ho
  · exact .bind (forceClose_owned ho htype) fun w' hw' => .pure hw'
  · exact .bind (forceClose_owned ho htype) fun w' hw' => .pure hw'
  · exact .pure ho

theorem forwardUdp_owned (ho : Owned w held given) (htype : (w.slot h).type ≠ .invalid)
    (k : Answers) : (w.forwardUdp h k).Ensures fun r => Owned r.1 held given := by
  unfold Sockets.forwardUdp
  dsimp only
  split
  · exact .pure ho
  · exact .pure ho
  · exact .bind (forceClose_owned ho htype) fun w' hw' => .pure hw'
  · exact .pure ho
  · exact .pure ho

/-- The switch of `socket_server_poll` after a read -/
theorem afterRead_owned {r : Sockets × Option SocketMessage} {e kept : Option Event}
    (hr : Owned r.1 held given) :
    (match r.2 with
      | none => pure (r.1, kept, .loop)
      | some msg =>
        if msg.kind = .udp then pure (r.1, e, .report msg) else pure (r.1, kept, .clear msg) :
      M (Sockets × Option Event × Poll)).Ensures
      fun r => Owned r.1 (r.2.2.held.toList ++ held) given := by
  split
  · exact .pure hr
  · split
    · exact .pure hr
    · exact .pure hr

theorem handleEvent_owned (ho : Owned w held given) (e : Event) (k : Answers)
    (hreserve : e.read = false → e.write = true → (w.slot h).type ≠ .reserve) :
    (w.handleEvent h e k).Ensures fun r => Owned r.1 (r.2.2.held.toList ++ held) given := by
  unfold Sockets.handleEvent
  dsimp only
  split
  · rename_i htype
    exact .bind (reportConnect_owned ho htype k) fun r hr => .pure hr
  · exact .bind (reportAccept_owned ho h k) fun r hr => .pure hr
  · exact .pure ho
  rename_i hconn hlisten htype
  have hlive : (w.slot h).type ≠ .invalid := htype
  split
  · split
    · exact .bind (forwardTcp_owned ho hlive k) fun r hr => afterRead_owned hr
    · exact .bind (forwardUdp_owned ho hlive k) fun r hr => afterRead_owned hr
  · rename_i hread
    split
    · rename_i hwrite
      refine .bind (sendBuffer_ends hlive k.ws).ensures fun r hr => ?_
      apply Outcome.Ensures.pure
      have hr' := hr.owned ho hlive (hreserve ((Bool.not_eq_true _).mp hread) hwrite) hconn
      split
      · exact hr'
      · exact hr'
    · exact .pure ho

/-- The step is none by which a socket loses its write events or never had them: no send runs for
a bound socket, and no close for a slot that is reserved and has something to send. -/
def Sockets.Fine (w : Sockets) : Command → Prop
  | .send id _ _ | .sendLow id _ _ | .sendUdp id _ _ _ =>
    (w.slot (hashId id)).id = id → (w.slot (hashId id)).type ≠ .bind
  | .close id _ => (w.slot (hashId id)).id = id → (w.slot (hashId id)).type = .reserve →
    (w.slot (hashId id)).sendBufferEmpty = true
  | _ => True

theorem ctrlCmd_owned {cmd : Command} (ho : Owned w (cmd.held.toList ++ held) given)
    (hgiven : ∀ fd ∈ cmd.given, fd ∈ given) (hfine : w.Fine cmd) (k : Answers) :
    (w.ctrlCmd cmd k).Ensures fun r => Owned r.1 (r.2.held.toList ++ held) given := by
  unfold Sockets.ctrlCmd
  cases cmd with
  | start id opaqueData => exact .pure (startSocket_owned ho id opaqueData k.add)
  | bind id fd opaqueData =>
      exact bindSocket_owned ho (hgiven fd rfl) id opaqueData k.add
  | listen id fd opaqueData => exact listenSocket_owned ho id opaqueData
  | close id opaqueData => exact closeSocket_owned ho id opaqueData k.ws hfine
  | «open» id port opaqueData host => exact openSocket_owned ho id opaqueData k
  | exit => exact .pure ho
  | send id sz buffer | sendLow id sz buffer | sendUdp id sz buffer address =>
      dsimp only
      refine .bind (sendSocket_owned ho buffer sz _ _ _ hfine) fun r hr => ?_
      apply Outcome.Ensures.pure
      split
      · exact hr
      · exact hr
  | setUdp id address => exact .pure (setUdpAddress_owned ho id address)
  | setopt id what value => exact .pure ho
  | udp id fd family opaqueData => exact addUdpSocket_owned ho id family opaqueData k.add

end Handlers

end Jump.Skynet.SocketServer
