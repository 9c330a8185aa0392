import Jump.Skynet.HarborService.Runs

/-! # Links that come up and go down

What is written to a descriptor after an `S` command for it, before and after the first byte
of the peer.

A slave whose link fails keeps its descriptor, so that the service neither answers what is sent
to the harbor nor takes a new link to it.
-/

namespace Jump.Skynet.HarborService

open Jump.Core
open Jump.Skynet.HarborLink

/-! ## Links that have gone down -/

/-- The link to the harbor fails: its socket is closed, or `close_harbor` is called for a wrong
handshake or a message that is too long. -/
def goesDown (h : Service) (i : Input) (h' : Service) (id : Nat) : Prop :=
  match i with
  | .closed fd => fd ≠ 0 ∧ (h.s id).fd = fd
  | .data .. => (h.s id).status ≠ .down ∧ (h'.s id).status = .down
  | _ => False

/-- A command gives the harbor a new link. -/
def reopened (i : Input) (es : List Effect) (id : Nat) : Prop :=
  ∃ msg source command fd, i = .command msg source ∧ linkOf msg = some (command, fd, id) ∧
    .start fd ∈ es

/-- The harbors whose link has gone down and was not replaced since. -/
def downAfter (down : Nat → Prop) (h : Service) (i : Input) (h' : Service) (es : List Effect)
    (id : Nat) : Prop :=
  goesDown h i h' id ∨ (down id ∧ ¬reopened i es id)

/-- The effect is an error message for the handle. -/
def answers (source : Nat) : Effect → Bool
  | .send _ destination type _ _ => destination = source ∧ type = PTYPE_ERROR
  | _ => false

/-- A message for a harbor is answered with one error, and neither written nor kept. -/
structure Answered (h h' : Service) (id source : Nat) (es : List Effect) : Prop where
  error : ∃ e, es.filter (answers source) = [e]
  unwritten : ∀ e ∈ es, ∀ bytes, e.written ≠ some ((h.s id).fd, bytes)
  unkept : h'.pending id = h.pending id

/-- The input is a message for a handle of the harbor; the handle may stand behind a name. -/
def Concerns (h : Service) (i : Input) (id source : Nat) : Prop :=
  ∃ type session name handle bytes, i = .message source type session name handle bytes ∧
    target h name handle ≠ 0 ∧ target h name handle >>> HANDLE_REMOTE_SHIFT = id

/-- The input is an `S` or `A` for the harbor. -/
def Opens (i : Input) (id : Nat) (fd : Int) : Prop :=
  ∃ msg source command, i = .command msg source ∧ linkOf msg = some (command, fd, id)

/-- What is sent to a harbor whose link is down is answered, and a new link is taken. -/
def Reported (down : Nat → Prop) (h : Service) (i : Input) (h' : Service) (es : List Effect) :
    Prop :=
  ∀ id, down id → (∀ source, Concerns h i id source → Answered h h' id source es) ∧
    ∀ fd, Opens i id fd → .start fd ∈ es

/-- Nothing is asked of a harbor whose link is down. -/
def Unasked (down : Nat → Prop) (h : Service) (i : Input) (_ : Service) (_ : List Effect) : Prop :=
  ∀ id, down id → (∀ source, ¬Concerns h i id source) ∧ ∀ fd, ¬Opens i id fd

/-- The links that are down still have a descriptor. -/
def Kept (down : Nat → Prop) (h : Service) : Prop := Inv h ∧ ∀ id, down id → (h.s id).fd ≠ 0

section

variable {down : Nat → Prop} {k : Nat} {h h' : Service} {i : Input} {es : List Effect} {id : Nat}

theorem Kept.step (hkept : Kept down h) (hstep : Step k h i h' es) :
    Kept (downAfter down h i h' es) h' := by
  obtain ⟨inv, hdown⟩ := hkept
  have inv' := inv.step hstep
  refine ⟨inv', fun id hid => ?_⟩
  rcases hid with hid | ⟨hid, -⟩
  · unfold goesDown at hid
    split at hid
    · have hfd : (h.s id).fd ≠ 0 := hid.2 ▸ hid.1
      rw [hstep.fd_stays hfd]
      exact hfd
    · intro hfd
      exact inv'.not_down hfd hid.2
    · exact hid.elim
  · rw [hstep.fd_stays (hdown id hid)]
    exact hdown id hid

theorem filter_answers_free (source : Nat) {kept : Bool} {b : Buffer} :
    (if kept then [] else [Effect.free b]).filter (answers source) = [] := by
  cases kept <;> rfl

/-- `remote_send_handle` looks at the descriptor before the status. -/
theorem not_answered (hstep : Step k h i h' es) (hfd : (h.s id).fd ≠ 0) {source : Nat}
    (hconcerns : Concerns h i id source) : ¬Answered h h' id source es := by
  obtain ⟨type, session, name, handle, bytes, rfl, htarget, hid⟩ := hconcerns
  rintro ⟨⟨e, he⟩, -, -⟩
  cases hstep with
  | @sent _ _ _ _ _ _ kept h₁ es₁ map _ hsent hvalue hqueue =>
      rw [List.filter_append, filter_answers_free, List.append_nil] at he
      subst hid
      cases hsent with
      | here hid =>
          have htag : type ||| PTYPE_TAG_DONTCOPY ≠ PTYPE_ERROR := by
            have hle : PTYPE_TAG_DONTCOPY ≤ type ||| PTYPE_TAG_DONTCOPY := Nat.right_le_or
            have hlt : PTYPE_ERROR < PTYPE_TAG_DONTCOPY := by decide
            omega
          rw [List.filter_cons_of_neg] at he
          · cases he
          · unfold answers
            simp only [htag, and_false, decide_false]
            exact Bool.false_ne_true
      | kept => cases he
      | refused hid hzero => exact hfd hzero
      | written => cases he
  | waits hnone =>
      exact htarget ((if_pos rfl).trans hnone)

/-- A slave with a descriptor takes no new one. -/
theorem not_started (hstep : Step k h i h' es) (hfd : (h.s id).fd ≠ 0) {fd : Int}
    (hopens : Opens i id fd) : .start fd ∉ es := by
  obtain ⟨msg, source, command, rfl, hlink⟩ := hopens
  have hname := (linkOf_spec hlink).2.2.2.2
  intro hmem
  cases hstep with
  | invalid => cases List.mem_singleton.mp hmem
  | taken => cases List.mem_singleton.mp hmem
  | called hlink' hfree =>
      obtain ⟨-, -, rfl⟩ := Option.some.inj (hlink.symm.trans hlink')
      exact hfd hfree
  | accepted hlink' hfree =>
      obtain ⟨-, -, rfl⟩ := Option.some.inj (hlink.symm.trans hlink')
      exact hfd hfree
  | named hname' => exact nomatch hname.symm.trans hname'

end

/-- The service reports the failure of its links in those runs only in which nothing is asked
of a link after it has failed. -/
theorem reported_iff (id slave : Nat) (inputs : List Input) :
    Always Reported downAfter (fun _ => False) 0 (harborInit id slave) inputs ↔
      Always Unasked downAfter (fun _ => False) 0 (harborInit id slave) inputs := by
  refine Always.congr (A := fun _ _ _ _ _ => True) (J := Kept)
    (fun down k h i h' es hkept _ hstep => ⟨hkept.step hstep, fun hreported j hj => ?_,
      fun hunasked j hj => ?_⟩)
    ⟨inv_init id slave, fun _ hfalse => hfalse.elim⟩ (Always.of_forall fun _ _ _ _ _ => trivial)
  · obtain ⟨hanswered, hstarted⟩ := hreported j hj
    have hfd := hkept.2 j hj
    exact ⟨fun source hconcerns => not_answered hstep hfd hconcerns (hanswered source hconcerns),
      fun fd hopens => not_started hstep hfd hopens (hstarted fd hopens)⟩
  · obtain ⟨hconcerns, hopens⟩ := hunasked j hj
    exact ⟨fun source hmem => absurd hmem (hconcerns source), fun fd hmem => absurd hmem
      (hopens fd)⟩

/-- `A 7 2`, the end of the socket 7 and a message for a handle of harbor 2. -/
def lostLink : List Input :=
  [.command (bytesOf "A 7 2") 5, .closed 7, .message 0x1000003 10 1 [] 0x2000004 [104]]

theorem not_reported_lostLink :
    ¬Always Reported downAfter (fun _ => False) 0 (harborInit 1 5) lostLink := by
  intro hall
  obtain ⟨-, hall⟩ := hall _ _ rfl
  obtain ⟨-, hall⟩ := hall _ _ rfl
  obtain ⟨hreported, -⟩ := hall _ _ rfl
  obtain ⟨hanswered, -⟩ := hreported 2 (.inl ⟨by decide, rfl⟩)
  obtain ⟨⟨e, he⟩, -, -⟩ := hanswered 0x1000003 ⟨10, 1, [], 0x2000004, [104], rfl, by decide, rfl⟩
  cases he

/-! ## The handshake -/

/-- What has come over the descriptor: no byte yet, the number of the harbor, or another byte. -/
inductive Phase where
  | waiting
  | met
  | refused
deriving DecidableEq

def phaseAfter (fd : Int) (id : Nat) : Phase → Input → Phase
  | .waiting, .data fd' (b :: _) _ =>
    if fd' = fd then if b.toNat = id then .met else .refused else .waiting
  | g, _ => g

/-- The number of this node is all that is written before the peer's number has come, and
nothing is written after a wrong number. -/
def InOrder (fd : Int) (id : Nat) (g : Phase) (h : Service) (i : Input) (_ : Service)
    (es : List Effect) : Prop :=
  match phaseAfter fd id g i with
  | .waiting => ∀ e ∈ es, ∀ bytes, e.written = some (fd, bytes) → bytes = [UInt8.ofNat h.id]
  | .met => True
  | .refused => ∀ e ∈ es, ∀ bytes, e.written ≠ some (fd, bytes)

/-- The input gives a handle of the harbor to a name that messages wait for. -/
def Resolves (h : Service) (i : Input) (id : Nat) : Prop :=
  ∃ msg source name, i = .command msg source ∧ nameOf msg = some name ∧
    source >>> HANDLE_REMOTE_SHIFT = id ∧ h.waiting name ≠ []

/-- The input is a message for a handle of the harbor. -/
def SentTo (h : Service) (i : Input) (id : Nat) : Prop :=
  ∃ source type session name handle bytes, i = .message source type session name handle bytes ∧
    target h name handle ≠ 0 ∧ target h name handle >>> HANDLE_REMOTE_SHIFT = id

/-- Before the peer's number, no name that messages wait for gets a handle of the harbor; after
a wrong number, no message is sent to the harbor either. -/
def Patient (id : Nat) (g : Phase) (h : Service) (i : Input) (_ : Service) (_ : List Effect) :
    Prop :=
  (g ≠ .met → ¬Resolves h i id) ∧ (g = .refused → id ≠ h.id → ¬SentTo h i id)

/-- No other link is given the descriptor. -/
def Alone (fd : Int) (i : Input) : Prop :=
  ∀ msg source command id, i = .command msg source → linkOf msg ≠ some (command, fd, id)

/-- The link in each phase. -/
structure Greeting (fd : Int) (id own : Nat) (g : Phase) (h : Service) : Prop where
  inv : Inv h
  own_eq : h.id = own
  fd_ne : fd ≠ 0
  fd_eq : (h.s id).fd = fd
  range : 0 < id ∧ id < REMOTE_MAX
  unique : ∀ j, j ≠ id → (h.s j).fd ≠ fd
  waiting : g = .waiting → (h.s id).status = .handshake
  refused : g = .refused → (h.s id).status = .down

section

variable {k : Nat} {h h' : Service} {i : Input} {es : List Effect} {fd : Int} {id own : Nat}
  {g : Phase}

/-- No bytes go to the descriptor. -/
def Unwritten (fd : Int) (es : List Effect) : Prop :=
  ∀ e ∈ es, ∀ bytes, e.written ≠ some (fd, bytes)

theorem Unwritten.append {es es' : List Effect} (h : Unwritten fd es) (h' : Unwritten fd es') :
    Unwritten fd (es ++ es') :=
  fun e he => (List.mem_append.mp he).elim (h e) (h' e)

theorem unwritten_quiet (hquiet : ∀ e ∈ es, Quiet e) : Unwritten fd es := by
  intro e he bytes hwritten
  rw [(hquiet e he).written] at hwritten
  cases hwritten

theorem unwritten_release (queue : Option HarborMsgQueue) : Unwritten fd (releaseQueue queue) := by
  intro e he bytes hwritten
  rw [releaseQueue_eq] at he
  obtain ⟨m, -, rfl⟩ := List.mem_map.mp he
  cases hwritten

theorem unwritten_sendQueue {fd' : Int} (hne : fd' ≠ fd) (msgs : List HarborMsg) :
    Unwritten fd (sendQueue fd' msgs) := by
  intro e he bytes hwritten
  obtain ⟨m, -, he⟩ := List.mem_flatMap.mp he
  rcases List.mem_cons.mp he with rfl | he
  · exact hne (Prod.mk.inj (Option.some.inj hwritten)).1
  · obtain rfl := List.mem_singleton.mp he
    cases hwritten

theorem unwritten_greeting {fd' : Int} (hne : fd' ≠ fd) (own : UInt8) :
    Unwritten fd [.start fd', .handshake fd' own] := by
  intro e he bytes hwritten
  rcases List.mem_cons.mp he with rfl | he
  · cases hwritten
  · obtain rfl := List.mem_singleton.mp he
    exact hne (Prod.mk.inj (Option.some.inj hwritten)).1

theorem find_eq {h : Harbor} {fd : Int} {id : Nat} (hfind : h.find fd = some id) :
    (h.s id).fd = fd := by
  have hfound := List.find?_some hfind
  simp only [decide_eq_true_eq] at hfound
  exact hfound

theorem Greeting.find (hg : Greeting fd id own g h) : h.harbor.find fd = some id := by
  have hmax : REMOTE_MAX = 256 := rfl
  have hrange := hg.range
  cases hfind : h.harbor.find fd with
  | none =>
      have hnot := List.find?_eq_none.mp hfind id (List.mem_range'_1.mpr (by omega))
      rw [decide_eq_true_eq] at hnot
      exact absurd hg.fd_eq hnot
  | some j =>
      by_cases hne : j = id
      · rw [hne]
      · exact absurd (find_eq hfind) (hg.unique j hne)

theorem Greeting.status_ne (hg : Greeting fd id own g h) (hne : g ≠ .met) : ¬Live (h.s id) := by
  intro hlive
  cases g with
  | waiting => exact (live_ne hlive).2.1 (hg.waiting rfl)
  | met => exact hne rfl
  | refused => exact (live_ne hlive).2.2 (hg.refused rfl)

/-- A descriptor is given by a command only. -/
theorem Step.fd_given (hstep : Step k h i h' es) (j : Nat) : (h'.s j).fd = (h.s j).fd ∨
    ∃ msg source command fd, i = .command msg source ∧ linkOf msg = some (command, fd, j) ∧
      (h'.s j).fd = fd := by
  cases hstep with
  | @arrives fd buffer alive id s queue es hfind hfd harrival =>
      refine .inl ?_
      rw [Service.after_s]
      by_cases hj : j = id
      · rw [hj, Function.update_self, hfd]
      · rw [Function.update_of_ne hj]
  | @called msg source fd id hlink hfree =>
      rw [Service.setSlave_s]
      by_cases hj : j = id
      · subst hj
        rw [Function.update_self]
        exact .inr ⟨msg, source, 83, fd, rfl, hlink, rfl⟩
      · rw [Function.update_of_ne hj]
        exact .inl rfl
  | @accepted msg source fd id hlink hfree =>
      rw [Service.after_s]
      by_cases hj : j = id
      · subst hj
        rw [Function.update_self]
        exact .inr ⟨msg, source, 65, fd, rfl, hlink, rfl⟩
      · rw [Function.update_of_ne hj]
        exact .inl rfl
  | sent htarget hsent => cases hsent <;> exact .inl rfl
  | waits hnone hs => exact .inl (congrArg Slave.fd (congrFun hs j))
  | _ => exact .inl rfl

/-- Where the phase changes, a byte has come over the descriptor. -/
theorem phase_cases (fd : Int) (id : Nat) (g : Phase) (i : Input) :
    (phaseAfter fd id g i = g ∧ ∀ b rest alive, i = .data fd (b :: rest) alive → g ≠ .waiting) ∨
      (g = .waiting ∧ ∃ b rest alive, i = .data fd (b :: rest) alive ∧
        phaseAfter fd id g i = if b.toNat = id then .met else .refused) := by
  cases g with
  | met => exact .inl ⟨rfl, fun _ _ _ _ => nofun⟩
  | refused => exact .inl ⟨rfl, fun _ _ _ _ => nofun⟩
  | waiting =>
      cases i with
      | data fd' buffer alive =>
          cases buffer with
          | nil => exact .inl ⟨rfl, fun _ _ _ heq => nomatch heq⟩
          | cons b rest =>
              by_cases hfd : fd' = fd
              · subst hfd
                exact .inr ⟨rfl, b, rest, alive, rfl, if_pos rfl⟩
              · exact .inl ⟨if_neg hfd, fun _ _ _ heq => absurd (Input.data.inj heq).1 hfd⟩
      | _ => exact .inl ⟨rfl, fun _ _ _ heq => nomatch heq⟩

theorem Greeting.step (hg : Greeting fd id own g h) (halone : Alone fd i)
    (hstep : Step k h i h' es) : Greeting fd id own (phaseAfter fd id g i) h' := by
  have hne : (h.s id).fd ≠ 0 := hg.fd_eq ▸ hg.fd_ne
  have hunique : ∀ j, j ≠ id → (h'.s j).fd ≠ fd := by
    intro j hj
    rcases hstep.fd_given j with hsame | ⟨msg, source, command, fd', rfl, hlink, hsame⟩
    · rw [hsame]
      exact hg.unique j hj
    · rw [hsame]
      rintro rfl
      exact halone msg source command j rfl hlink
  -- the slave as it was, or what the buffer made of it
  have hslave : h'.s id = h.s id ∨ ∃ buffer alive queue es', i = .data fd buffer alive ∧
      Arrival h id buffer (h'.s id) queue es' := by
    rcases @Step.slave _ _ _ _ _ id hstep with
      hsame | ⟨fd', buffer, alive, queue, es', rfl, hfind, -, harrival⟩ | hfree
    · exact .inl hsame
    · have heq : fd' = fd := by
        rw [← find_eq hfind]
        exact hg.fd_eq
      exact .inr ⟨buffer, alive, queue, es', heq ▸ rfl, harrival⟩
    · exact absurd hfree hne
  have hstatus : (phaseAfter fd id g i = .waiting → (h'.s id).status = .handshake) ∧
      (phaseAfter fd id g i = .refused → (h'.s id).status = .down) := by
    rcases phase_cases fd id g i with ⟨hphase, hquiet⟩ | ⟨rfl, b, rest, alive, rfl, hphase⟩
    · rw [hphase]
      refine ⟨fun hwait => ?_, fun hrefused => ?_⟩
      · rcases hslave with hsame | ⟨buffer, alive, queue, es', rfl, harrival⟩
        · rw [hsame]
          exact hg.waiting hwait
        · have hlive := hg.status_ne (hwait ▸ nofun)
          generalize h'.s id = s at harrival ⊢
          cases harrival with
          | idle => exact hg.waiting hwait
          | wrong hbuffer => exact absurd hwait (hquiet _ _ alive (by rw [hbuffer]))
          | met hbuffer => exact absurd hwait (hquiet _ _ alive (by rw [hbuffer]))
          | read hs => exact absurd hs hlive
          | oversized hs => exact absurd hs hlive
      · rw [hstep.down_stays hg.inv (hg.refused hrefused)]
        exact hg.refused hrefused
    · rw [hphase]
      by_cases hb : b.toNat = id
      · rw [if_pos hb]
        exact ⟨nofun, nofun⟩
      · rw [if_neg hb]
        refine ⟨nofun, fun _ => ?_⟩
        have hhand := hg.waiting rfl
        cases hstep with
        | unknown hfind => exact nomatch hfind.symm.trans hg.find
        | @arrives _ _ _ j s queue es hfind hfd harrival =>
            obtain rfl := Option.some.inj (hfind.symm.trans hg.find)
            rw [Service.after_s, Function.update_self]
            have hlive := hg.status_ne (g := .waiting) nofun
            cases harrival with
            | idle hs hnil => exact nomatch hnil hhand
            | wrong hbuffer hhand' hne' hdown => exact hdown
            | met hbuffer hhand' heq =>
                obtain ⟨rfl, -⟩ := List.cons.inj hbuffer
                exact absurd heq hb
            | read hs => exact absurd hs hlive
            | oversized hs => exact absurd hs hlive
  exact ⟨hg.inv.step hstep, hstep.id_stays.trans hg.own_eq, hg.fd_ne,
    (hstep.fd_stays hne).trans hg.fd_eq, hg.range, hunique, hstatus.1, hstatus.2⟩

/-- Only a name that messages wait for, or a message to the harbor after a wrong number, makes
the service write to the descriptor before the peer's number has come. -/
theorem Greeting.unwritten (hg : Greeting fd id own g h) (halone : Alone fd i)
    (hstep : Step k h i h' es) (hphase : phaseAfter fd id g i ≠ .met)
    (hresolves : ¬Resolves h i id) (hsent : g = .refused → id ≠ h.id → ¬SentTo h i id) :
    Unwritten fd es := by
  have hmet : g ≠ .met := by
    rintro rfl
    exact hphase rfl
  cases hstep with
  | unknown hfind hquiet => exact unwritten_quiet hquiet
  | @arrives fd' buffer alive j s queue es hfind hfd harrival =>
      cases harrival with
      | idle => exact fun _ he => absurd he List.not_mem_nil
      | wrong hbuffer hhand hne hdown hquiet =>
          exact (unwritten_quiet hquiet).append (unwritten_release _)
      | @met b rest s es hbuffer hhand heq hs hquiet =>
          refine Unwritten.append (unwritten_sendQueue (fun hfd' => ?_) _) (unwritten_quiet hquiet)
          -- the peer's number has come, so that the phase is another one
          have hj : j = id := by
            by_cases hj : j = id
            · exact hj
            · exact absurd hfd' (hg.unique j hj)
          subst hj
          have heqfd : fd' = fd := (find_eq hfind).symm.trans hfd'
          subst heqfd hbuffer
          cases g with
          | waiting =>
              refine hphase ?_
              unfold phaseAfter
              simp only [if_true, heq]
          | met => exact hmet rfl
          | refused =>
              have hdown := hg.refused rfl
              rw [hhand] at hdown
              cases hdown
      | read hlive hs hquiet => exact unwritten_quiet hquiet
      | oversized hlive hdown hquiet =>
          exact (unwritten_quiet hquiet).append (unwritten_release _)
  | closed hquiet => exact unwritten_quiet hquiet
  | connect => exact fun _ he => absurd he List.not_mem_nil
  | otherSocket hquiet => exact unwritten_quiet hquiet
  | invalid => exact unwritten_quiet quiet_error
  | taken => exact unwritten_quiet quiet_error
  | @called msg source fd' j hlink hfree =>
      have hne : fd' ≠ fd := by
        rintro rfl
        exact halone msg source 83 j rfl hlink
      exact unwritten_greeting hne _
  | @accepted msg source fd' j hlink hfree =>
      have hne : fd' ≠ fd := by
        rintro rfl
        exact halone msg source 65 j rfl hlink
      exact (unwritten_greeting hne _).append (unwritten_sendQueue hne _)
  | @named msg source name queue map es hname hnamed hharbor hvalue hqueue =>
      cases hnamed with
      | quiet => exact fun _ he => absurd he List.not_mem_nil
      | @dropped q text =>
          have hdropped : Unwritten fd ([.error text] ++ releaseQueue (some q)) :=
            (unwritten_quiet quiet_error).append (unwritten_release _)
          exact hdropped
      | merged => exact fun _ he => absurd he List.not_mem_nil
      | @written q hsome hfd =>
          refine unwritten_sendQueue
            (fun hfd' => hresolves ⟨msg, source, name, rfl, hname, ?_, ?_⟩) _
          · by_cases hj : source >>> HANDLE_REMOTE_SHIFT = id
            · exact hj
            · exact absurd hfd' (hg.unique _ hj)
          · unfold Service.waiting
            rw [hsome, msgs_some]
            exact hg.inv.full name q hsome
  | @sent source type session name handle bytes kept h₁ es map htarget hsends hvalue hqueue =>
      refine Unwritten.append ?_ ?_
      · cases hsends with
        | here =>
            intro e he _ hwritten
            obtain rfl := List.mem_singleton.mp he
            cases hwritten
        | kept => exact fun _ he => absurd he List.not_mem_nil
        | refused hid hfd =>
            intro e he _ hwritten
            rcases List.mem_cons.mp he with rfl | he
            · cases hwritten
            · obtain rfl := List.mem_singleton.mp he
              cases hwritten
        | written hid hfd hhand =>
            intro e he _ hwritten
            obtain rfl := List.mem_singleton.mp he
            have hfd' := (Prod.mk.inj (Option.some.inj hwritten)).1
            have hj : target h name handle >>> HANDLE_REMOTE_SHIFT = id := by
              by_cases hj : target h name handle >>> HANDLE_REMOTE_SHIFT = id
              · exact hj
              · exact absurd hfd' (hg.unique _ hj)
            rw [hj] at hid hhand
            cases g with
            | waiting => exact hhand (hg.waiting rfl)
            | met => exact hmet rfl
            | refused =>
                exact hsent rfl hid ⟨source, type, session, name, handle, bytes, rfl, htarget, hj⟩
      · cases kept
        · intro e he _ hwritten
          obtain rfl := List.mem_singleton.mp he
          cases hwritten
        · exact fun _ he => absurd he List.not_mem_nil
  | waits => exact unwritten_quiet fun e he => List.mem_singleton.mp he ▸ nofun

theorem sendRemote_ne (buffer : List UInt8) (header : RemoteMessageHeader) (b : UInt8) :
    sendRemote buffer header ≠ [b] := by
  intro heq
  have hlen := congrArg List.length heq
  have hfour : ∀ n, (toBigendian n).length = 4 := BigEndian.length_encode 4
  unfold sendRemote at hlen
  rw [List.length_append, List.length_append, hfour] at hlen
  rw [List.length_singleton] at hlen
  omega

/-- `dispatch_name_queue` looks at the descriptor only. -/
theorem Greeting.resolved (hg : Greeting fd id own g h) (hstep : Step k h i h' es)
    (hresolves : Resolves h i id) : ∃ e ∈ es, ∃ m, e = .sendRemote fd m := by
  obtain ⟨msg, source, name, rfl, hname, rfl, hwaiting⟩ := hresolves
  have hne : (h.s (source >>> HANDLE_REMOTE_SHIFT)).fd ≠ 0 := hg.fd_eq ▸ hg.fd_ne
  cases hstep with
  | invalid hnone => exact nomatch hname.symm.trans hnone
  | taken hlink => exact nomatch hname.symm.trans (linkOf_spec hlink).2.2.2.2
  | called hlink => exact nomatch hname.symm.trans (linkOf_spec hlink).2.2.2.2
  | accepted hlink => exact nomatch hname.symm.trans (linkOf_spec hlink).2.2.2.2
  | named hname' hnamed =>
      obtain rfl := Option.some.inj (hname.symm.trans hname')
      unfold Service.waiting at hwaiting
      cases hnamed with
      | quiet hnone =>
          rw [hnone] at hwaiting
          exact absurd rfl hwaiting
      | dropped hsome hfd => exact absurd hfd hne
      | merged hsome hfd => exact absurd hfd hne
      | @written q hsome hfd =>
          rw [hsome, msgs_some] at hwaiting
          obtain ⟨m, hm⟩ := List.exists_mem_of_ne_nil _ hwaiting
          rw [hg.fd_eq]
          exact ⟨.sendRemote fd (patch source m),
            List.mem_flatMap.mpr ⟨_, List.mem_map_of_mem hm, List.mem_cons_self⟩, _, rfl⟩

/-- `remote_send_handle` does not stop at a link that is down. -/
theorem Greeting.sent (hg : Greeting fd id own .refused h) (hstep : Step k h i h' es)
    (hid : id ≠ h.id) (hsent : SentTo h i id) : ∃ e ∈ es, ∃ m, e = .sendRemote fd m := by
  obtain ⟨source, type, session, name, handle, bytes, rfl, htarget, rfl⟩ := hsent
  have hne : (h.s (target h name handle >>> HANDLE_REMOTE_SHIFT)).fd ≠ 0 := hg.fd_eq ▸ hg.fd_ne
  have hdown := hg.refused rfl
  cases hstep with
  | @sent _ _ _ _ _ _ kept h₁ es map _ hsends hvalue hqueue =>
      cases hsends with
      | here hown => exact absurd hown hid
      | kept hown hwait hup => exact absurd hdown hup
      | refused hown hfd => exact absurd hfd hne
      | written hown hfd hhand =>
          rw [hg.fd_eq]
          exact ⟨_, List.mem_append_left _ (List.mem_singleton.mpr rfl), _, rfl⟩
  | waits hnone => exact absurd ((if_pos rfl).trans hnone) htarget

theorem Greeting.inOrder_iff (hg : Greeting fd id own g h) (halone : Alone fd i)
    (hstep : Step k h i h' es) : InOrder fd id g h i h' es ↔ Patient id g h i h' es := by
  have hdata : ∀ b rest alive, i = .data fd (b :: rest) alive → ¬Resolves h i id ∧
      ¬SentTo h i id := by
    rintro b rest alive rfl
    exact ⟨fun ⟨_, _, _, heq, _⟩ => (nomatch heq), fun ⟨_, _, _, _, _, _, heq, _⟩ => (nomatch heq)⟩
  constructor
  · intro horder
    refine ⟨fun hmet hresolves => ?_, fun hrefused hid hsent => ?_⟩
    · obtain ⟨e, he, m, rfl⟩ := hg.resolved hstep hresolves
      rcases phase_cases fd id g i with ⟨hphase, -⟩ | ⟨-, b, rest, alive, hi, -⟩
      · unfold InOrder at horder
        rw [hphase] at horder
        cases g with
        | waiting => exact sendRemote_ne _ _ _ (horder _ he _ rfl)
        | met => exact hmet rfl
        | refused => exact horder _ he _ rfl
      · exact (hdata b rest alive hi).1 hresolves
    · subst hrefused
      obtain ⟨e, he, m, rfl⟩ := hg.sent hstep hid hsent
      exact horder _ he _ rfl
  · rintro ⟨hresolves, hsent⟩
    have hunwritten : phaseAfter fd id g i ≠ .met → Unwritten fd es := by
      intro hphase
      refine hg.unwritten halone hstep hphase (hresolves ?_) hsent
      rintro rfl
      exact hphase rfl
    unfold InOrder
    split
    · rename_i hphase
      exact fun e he bytes hwritten =>
        absurd hwritten (hunwritten (hphase ▸ nofun) e he bytes)
    · trivial
    · rename_i hphase
      exact hunwritten (hphase ▸ nofun)

/-- The link that an `S` command sets up. -/
theorem greeting_called {s : Slave}
    (inv : Inv (h.setSlave id { s with fd := fd, status := .handshake })) (hfd : fd ≠ 0)
    (hrange : 0 < id ∧ id < REMOTE_MAX) (hunused : ∀ j, (h.s j).fd ≠ fd) :
    Greeting fd id h.id .waiting (h.setSlave id { s with fd := fd, status := .handshake }) := by
  refine ⟨inv, rfl, hfd, ?_, hrange, fun j hj => ?_, fun _ => ?_, nofun⟩
  · rw [Service.setSlave_s, Function.update_self]
  · rw [Service.setSlave_s, Function.update_of_ne hj]
    exact hunused j
  · rw [Service.setSlave_s, Function.update_self]

end

/-- After an `S` command, the handshake comes first in those runs only in which no waiting
message gets a handle of the harbor before the peer's number has come, and nothing is sent to
the harbor after a wrong one. -/
theorem handshake_first_iff {own slave : Nat} {before : List Input} {h : Service}
    {ess : List (List Effect)} (hrun : run 0 (harborInit own slave) before = some (h, ess))
    {msg : List UInt8} {source : Nat} {fd : Int} {id : Nat}
    (hlink : linkOf msg = some (83, fd, id)) (hfree : (h.s id).fd = 0)
    (hunused : ∀ j, (h.s j).fd ≠ fd) {h' : Service} {es : List Effect}
    (hcall : mainloop before.length h (.command msg source) = some (h', es))
    {after : List Input}
    (halone : Always (fun _ _ i _ _ => Alone fd i) (fun g _ i _ _ => phaseAfter fd id g i) .waiting
      (before.length + 1) h' after) :
    es = [.start fd, .handshake fd (UInt8.ofNat h.id)] ∧
      (Always (InOrder fd id) (fun g _ i _ _ => phaseAfter fd id g i) .waiting
          (before.length + 1) h' after ↔
        Always (Patient id) (fun g _ i _ _ => phaseAfter fd id g i) .waiting
          (before.length + 1) h' after) := by
  have inv := run_inv hrun
  obtain ⟨-, hfd, hpos, hlt, hname⟩ := linkOf_spec hlink
  have hstep := mainloop_step hcall
  have hgreeting : es = [.start fd, .handshake fd (UInt8.ofNat h.id)] ∧
      Greeting fd id h.id .waiting h' := by
    cases hstep with
    | invalid _ hnone => exact nomatch hlink.symm.trans hnone
    | taken hlink' hused =>
        obtain ⟨-, -, rfl⟩ := Option.some.inj (hlink.symm.trans hlink')
        exact absurd hfree hused
    | called hlink' hfree' =>
        obtain ⟨-, rfl, rfl⟩ := Option.some.inj (hlink.symm.trans hlink')
        exact ⟨rfl, greeting_called (inv.step (mainloop_step hcall)) hfd ⟨hpos, hlt⟩ hunused⟩
    | accepted hlink' =>
        have hletter := (Prod.mk.inj (Option.some.inj (hlink.symm.trans hlink'))).1
        exact absurd hletter (by decide)
    | named hname' => exact nomatch hname.symm.trans hname'
  refine ⟨hgreeting.1, Always.congr (J := Greeting fd id h.id) ?_ hgreeting.2 halone⟩
  exact fun g k h i h' es hg halone hstep => ⟨hg.step halone hstep, hg.inOrder_iff halone hstep⟩

theorem handshake_first_iff_greeted : ∃ h' es,
    mainloop 0 (harborInit 1 5) (.command (bytesOf "S 7 2") 5) = some (h', es) ∧
      es = [.start 7, .handshake 7 1] ∧
      (Always (InOrder 7 2) (fun g _ i _ _ => phaseAfter 7 2 g i) .waiting 1 h'
          [.data 7 [2] fun _ => true] ↔
        Always (Patient 2) (fun g _ i _ _ => phaseAfter 7 2 g i) .waiting 1 h'
          [.data 7 [2] fun _ => true]) := by
  refine ⟨_, _, rfl, ?_⟩
  have halone : ∀ h', Always (fun _ _ i _ _ => Alone 7 i) (fun g _ i _ _ => phaseAfter 7 2 g i)
      .waiting 1 h' [.data 7 [2] fun _ => true] :=
    fun _ _ _ _ => ⟨fun _ _ _ _ heq => (nomatch heq), trivial⟩
  exact @handshake_first_iff 1 5 [] _ _ rfl (bytesOf "S 7 2") 5 7 2 rfl rfl
    (fun _ => show (0 : Int) ≠ 7 by decide) _ _ rfl _ (halone _)

/-- A message for `foo`, `S 7 2`, and the name given to a handle of harbor 2. -/
theorem not_inOrder_foo : ∃ h ess h' es,
    run 0 (harborInit 1 5) [.message 0x1000003 10 1 fooName 0 [104]] = some (h, ess) ∧
      mainloop 1 h (.command (bytesOf "S 7 2") 5) = some (h', es) ∧
      ¬Always (InOrder 7 2) (fun g _ i _ _ => phaseAfter 7 2 g i) .waiting 2 h'
        [.command (bytesOf "N foo") 0x2000004] := by
  refine ⟨_, _, _, _, rfl, rfl, fun hall => ?_⟩
  obtain ⟨horder, -⟩ := hall _ _ rfl
  have hbytes := horder _ List.mem_cons_self _ rfl
  exact absurd hbytes (by decide)

end Jump.Skynet.HarborService
