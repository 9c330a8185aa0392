import Jump.Skynet.Sending.Intact
import Jump.Skynet.HarborService.Runs

/-! # The sizes that cross a link

A message that `skynet_send` takes for another node, what the harbor of its node writes for it,
and what the harbor at the other end of the link makes of that.
-/

namespace Jump.Skynet.HarborService

open Jump.Core
open Jump.Skynet.HarborLink

/-! ## What is written for a message to a handle -/

/-- If the message was sent to a handle, it is packed for that handle. -/
def Origin (inputs : List Input) (m : HarborMsg) : Prop :=
  m.buffer.number < inputs.length ∧ ∀ source type session name handle bytes,
    inputs[m.buffer.number]? = some (.message source type session name handle bytes) →
      handle ≠ 0 → m = packed source handle type session ⟨m.buffer.number, bytes⟩

/-- The message was sent to a name. -/
def Unaddressed (inputs : List Input) (m : HarborMsg) : Prop :=
  m.buffer.number < inputs.length ∧ ∀ source type session name handle bytes,
    inputs[m.buffer.number]? = some (.message source type session name handle bytes) → handle = 0

structure Sourced (past : List Input) (es : List Effect) (h : Service) : Prop where
  pending : ∀ id, ∀ m ∈ h.pending id, Origin past m
  waiting : ∀ name, ∀ m ∈ h.waiting name, Unaddressed past m
  written : ∀ fd m, .sendRemote fd m ∈ es → Origin past m

section

variable {past : List Input} {es es' : List Effect} {h h' : Service} {i : Input} {m : HarborMsg}

theorem snoc_cases {k : Nat} {j : Input} (hlt : k < past.length) (hj : (past ++ [i])[k]? = some j) :
    past[k]? = some j := by
  rw [List.getElem?_append_left hlt] at hj
  exact hj

theorem lt_snoc {k : Nat} (hlt : k < past.length) : k < (past ++ [i]).length := by
  rw [List.length_append]
  exact Nat.lt_add_right _ hlt

theorem Origin.snoc (hm : Origin past m) (i : Input) : Origin (past ++ [i]) m :=
  ⟨lt_snoc hm.1, fun source type session name handle bytes hj =>
    hm.2 source type session name handle bytes (snoc_cases hm.1 hj)⟩

theorem Unaddressed.snoc (hm : Unaddressed past m) (i : Input) : Unaddressed (past ++ [i]) m :=
  ⟨lt_snoc hm.1, fun source type session name handle bytes hj =>
    hm.2 source type session name handle bytes (snoc_cases hm.1 hj)⟩

theorem Unaddressed.origin (hm : Unaddressed past m) (handle : Nat) :
    Origin past (patch handle m) ∧ Origin past m :=
  ⟨⟨hm.1, fun source type session name handle' bytes hj hne =>
      absurd (hm.2 source type session name handle' bytes hj) hne⟩,
    hm.1, fun source type session name handle' bytes hj hne =>
      absurd (hm.2 source type session name handle' bytes hj) hne⟩

theorem mem_sendQueue {fd fd' : Int} {ms : List HarborMsg}
    (hm : .sendRemote fd m ∈ sendQueue fd' ms) :
    m ∈ ms := by
  obtain ⟨m', hm', he⟩ := List.mem_flatMap.mp hm
  rcases List.mem_cons.mp he with heq | he
  · obtain ⟨-, rfl⟩ := Effect.sendRemote.inj heq
    exact hm'
  · cases List.mem_singleton.mp he

theorem notMem_quiet {fd : Int} (hquiet : ∀ e ∈ es, Quiet e) : .sendRemote fd m ∉ es :=
  fun he => hquiet _ he

theorem notMem_release {fd : Int} (queue : Option HarborMsgQueue) :
    .sendRemote fd m ∉ releaseQueue queue := by
  intro he
  rw [releaseQueue_eq] at he
  obtain ⟨_, -, heq⟩ := List.mem_map.mp he
  cases heq

/-- The message of the last input. -/
theorem origin_last {source type : Nat} {session : Int} {name : Name} {handle target : Nat}
    {bytes : List UInt8} (htarget : handle ≠ 0 → target = handle) :
    Origin (past ++ [.message source type session name handle bytes])
      (packed source target type session ⟨past.length, bytes⟩) := by
  refine ⟨?_, fun source' type' session' name' handle' bytes' hj hne => ?_⟩
  · rw [List.length_append]
    exact Nat.lt_succ_self _
  · have hlast : (past ++ [.message source type session name handle bytes])[past.length]? =
        some (.message source type session name handle bytes) := List.getElem?_concat_length ..
    obtain ⟨rfl, rfl, rfl, rfl, rfl, rfl⟩ :=
      Input.message.inj (Option.some.inj (hlast.symm.trans hj))
    rw [htarget hne]
    rfl

theorem Sourced.step (hs : Sourced past es h) (hstep : Step past.length h i h' es') :
    Sourced (past ++ [i]) (es ++ es') h' := by
  have hpending : ∀ id, ∀ m ∈ h.pending id, Origin (past ++ [i]) m :=
    fun id m hm => (hs.pending id m hm).snoc i
  have hwaiting : ∀ name, ∀ m ∈ h.waiting name, Unaddressed (past ++ [i]) m :=
    fun name m hm => (hs.waiting name m hm).snoc i
  have hwritten : (∀ fd m, .sendRemote fd m ∈ es' → Origin (past ++ [i]) m) →
      ∀ fd m, .sendRemote fd m ∈ es ++ es' → Origin (past ++ [i]) m := fun hnew fd m hm =>
    (List.mem_append.mp hm).elim (fun hm => (hs.written fd m hm).snoc i) (hnew fd m)
  have hquietly : (∀ e ∈ es', Quiet e) → ∀ fd m, .sendRemote fd m ∈ es' → Origin (past ++ [i]) m :=
    fun hquiet fd m hm => absurd hm (notMem_quiet hquiet)
  have hafter : ∀ id s queue, (∀ m ∈ msgs queue, Origin (past ++ [i]) m) →
      ∀ j, ∀ m ∈ (h.after id s queue).pending j, Origin (past ++ [i]) m := by
    intro id s queue hqueue j m hm
    unfold Service.pending at hm
    rw [Service.after_queue] at hm
    by_cases hj : j = id
    · rw [hj, Function.update_self] at hm
      exact hqueue m hm
    · rw [Function.update_of_ne hj] at hm
      exact hpending j m hm
  cases hstep with
  | unknown hfind hquiet => exact ⟨hpending, hwaiting, hwritten (hquietly hquiet)⟩
  | @arrives fd buffer alive id s queue es hfind hfd harrival =>
      have hnil : ∀ m ∈ msgs none, Origin (past ++ [.data fd buffer alive]) m :=
        fun _ hm => absurd hm List.not_mem_nil
      cases harrival with
      | idle =>
          exact ⟨hafter _ _ _ (hpending id), hwaiting, hwritten fun _ _ hm =>
            absurd hm List.not_mem_nil⟩
      | wrong hbuffer hhand hne hdown hquiet =>
          refine ⟨hafter _ _ _ hnil, hwaiting, hwritten fun fd m hm => ?_⟩
          exact (List.mem_append.mp hm).elim (fun hm => absurd hm (notMem_quiet hquiet))
            fun hm => absurd hm (notMem_release _)
      | met hbuffer hhand heq hs' hquiet =>
          refine ⟨hafter _ _ _ hnil, hwaiting, hwritten fun fd m hm => ?_⟩
          exact (List.mem_append.mp hm).elim (fun hm => hpending id m (mem_sendQueue hm))
            (fun hm => absurd hm (notMem_quiet hquiet))
      | read hlive hs' hquiet =>
          exact ⟨hafter _ _ _ (hpending id), hwaiting, hwritten (hquietly hquiet)⟩
      | oversized hlive hdown hquiet =>
          refine ⟨hafter _ _ _ hnil, hwaiting, hwritten fun fd m hm => ?_⟩
          exact (List.mem_append.mp hm).elim (fun hm => absurd hm (notMem_quiet hquiet))
            fun hm => absurd hm (notMem_release _)
  | closed hquiet => exact ⟨hpending, hwaiting, hwritten (hquietly hquiet)⟩
  | connect => exact ⟨hpending, hwaiting, hwritten fun _ _ hm => absurd hm List.not_mem_nil⟩
  | otherSocket hquiet => exact ⟨hpending, hwaiting, hwritten (hquietly hquiet)⟩
  | invalid => exact ⟨hpending, hwaiting, hwritten (hquietly quiet_error)⟩
  | taken => exact ⟨hpending, hwaiting, hwritten (hquietly quiet_error)⟩
  | called =>
      refine ⟨hpending, hwaiting, hwritten fun fd m hm => ?_⟩
      rcases List.mem_cons.mp hm with heq | hm
      · cases heq
      · cases List.mem_singleton.mp hm
  | @accepted msg source fd id hlink hfree =>
      refine ⟨hafter _ _ _ fun _ hm => absurd hm List.not_mem_nil, hwaiting,
        hwritten fun fd m hm => ?_⟩
      rcases List.mem_append.mp hm with hm | hm
      · rcases List.mem_cons.mp hm with heq | hm
        · cases heq
        · cases List.mem_singleton.mp hm
      · exact hpending id m (mem_sendQueue hm)
  | @named msg source name queue map es hname hnamed hharbor hvalue hqueue =>
      have hwaiting' : ∀ other, ∀ m ∈ msgs (node map other).queue,
          Unaddressed (past ++ [.command msg source]) m := by
        intro other m hm
        rw [hqueue] at hm
        split at hm
        · exact absurd hm List.not_mem_nil
        · exact hwaiting other m hm
      have hold : ∀ q, (node h.map name).queue = some q → ∀ m ∈ q.toList,
          Unaddressed (past ++ [.command msg source]) m := by
        intro q hsome m hm
        refine hwaiting name m ?_
        unfold Service.waiting
        rw [hsome]
        exact hm
      cases hnamed with
      | quiet => exact ⟨hpending, hwaiting', hwritten fun _ _ hm => absurd hm List.not_mem_nil⟩
      | @dropped q text =>
          refine ⟨hpending, hwaiting', hwritten fun fd m hm => ?_⟩
          rcases List.mem_cons.mp hm with heq | hm
          · cases heq
          · exact absurd hm (notMem_release (some q))
      | @merged q merged hsome hfd hup hmerged =>
          refine ⟨fun j m hm => ?_, hwaiting', hwritten fun _ _ hm => absurd hm List.not_mem_nil⟩
          have hm' : m ∈ msgs (Function.update h.queue (source >>> HANDLE_REMOTE_SHIFT)
              (some merged) j) := hm
          by_cases hj : j = source >>> HANDLE_REMOTE_SHIFT
          · rw [hj, Function.update_self, msgs_some, hmerged] at hm'
            rcases List.mem_append.mp hm' with hm' | hm'
            · exact hpending _ m hm'
            · exact ((hold q hsome m hm').origin 0).2
          · rw [Function.update_of_ne hj] at hm'
            exact hpending j m hm'
      | @written q hsome hfd =>
          refine ⟨hpending, hwaiting', hwritten fun fd m hm => ?_⟩
          obtain ⟨m', hm', rfl⟩ := List.mem_map.mp (mem_sendQueue hm)
          exact ((hold q hsome m' hm').origin source).1
  | @sent source type session name handle bytes kept h₁ es₁ map htarget hsent hvalue hqueue =>
      have hwaiting' : ∀ other, ∀ m ∈ msgs (node map other).queue, Unaddressed
          (past ++ [.message source type session name handle bytes]) m := by
        intro other m hm
        rw [hqueue] at hm
        exact hwaiting other m hm
      have hlast : Origin (past ++ [.message source type session name handle bytes])
          (packed source (target h name handle) type session ⟨past.length, bytes⟩) :=
        origin_last fun hne => if_neg hne
      have hfree : ∀ fd m, .sendRemote fd m ∈
          (if kept then [] else [Effect.free ⟨past.length, bytes⟩]) → False := by
        intro fd m hm
        split at hm
        · exact absurd hm List.not_mem_nil
        · cases List.mem_singleton.mp hm
      cases hsent with
      | here =>
          refine ⟨hpending, hwaiting', hwritten fun fd m hm => ?_⟩
          cases List.mem_singleton.mp hm
      | @kept queue hown hwait hup hlist =>
          refine ⟨fun j m hm => ?_, hwaiting', hwritten fun _ _ hm => absurd hm List.not_mem_nil⟩
          have hm' : m ∈ msgs (Function.update h.queue
              (target h name handle >>> HANDLE_REMOTE_SHIFT) (some queue) j) := hm
          by_cases hj : j = target h name handle >>> HANDLE_REMOTE_SHIFT
          · rw [hj, Function.update_self, msgs_some, hlist] at hm'
            rcases List.mem_append.mp hm' with hm' | hm'
            · exact hpending _ m hm'
            · exact List.mem_singleton.mp hm' ▸ hlast
          · rw [Function.update_of_ne hj] at hm'
            exact hpending j m hm'
      | refused =>
          refine ⟨hpending, hwaiting', hwritten fun fd m hm => ?_⟩
          rcases List.mem_append.mp hm with hm | hm
          · rcases List.mem_cons.mp hm with heq | hm
            · cases heq
            · cases List.mem_singleton.mp hm
          · exact (hfree fd m hm).elim
      | written =>
          refine ⟨hpending, hwaiting', hwritten fun fd m hm => ?_⟩
          rcases List.mem_append.mp hm with hm | hm
          · obtain ⟨-, rfl⟩ := Effect.sendRemote.inj (List.mem_singleton.mp hm)
            exact hlast
          · exact (hfree fd m hm).elim
  | @waits source type session name bytes h' text hnone hs' hq hid hvalue hother hsame =>
      refine ⟨fun j m hm => ?_, fun other m hm => ?_, hwritten fun fd m hm => ?_⟩
      · unfold Service.pending at hm
        rw [hq] at hm
        exact hpending j m hm
      · by_cases hname : Same name other
        · obtain ⟨queue, hsome, hlist⟩ := hsame other hname
          unfold Service.waiting at hm
          rw [hsome, msgs_some, hlist] at hm
          rcases List.mem_append.mp hm with hm | hm
          · exact hwaiting other m hm
          · obtain rfl := List.mem_singleton.mp hm
            refine ⟨?_, fun _ _ _ _ _ _ hj => ?_⟩
            · rw [List.length_append]
              exact Nat.lt_succ_self _
            · have hlast : (past ++ [.message source type session name 0 bytes])[past.length]? =
                  some (.message source type session name 0 bytes) :=
                List.getElem?_concat_length ..
              exact (Input.message.inj (Option.some.inj (hlast.symm.trans hj))).2.2.2.2.1.symm
        · unfold Service.waiting at hm
          rw [hother other hname] at hm
          exact hwaiting other m hm
      · cases List.mem_singleton.mp hm

end

theorem sourced_init (id slave : Nat) : Sourced [] [] (harborInit id slave) where
  pending _ _ hm := absurd hm List.not_mem_nil
  waiting _ _ hm := absurd hm List.not_mem_nil
  written _ _ hm := absurd hm List.not_mem_nil

theorem Sourced.run {past : List Input} {es : List Effect} {h h' : Service}
    (hs : Sourced past es h) {inputs : List Input} {ess : List (List Effect)}
    (hrun : HarborService.run past.length h inputs = some (h', ess)) :
    Sourced (past ++ inputs) (es ++ ess.flatten) h' := by
  induction inputs generalizing past es h ess with
  | nil =>
      obtain ⟨rfl, rfl⟩ := Prod.mk.inj (Option.some.inj hrun)
      rw [List.append_nil, List.flatten_nil, List.append_nil]
      exact hs
  | cons i inputs ih =>
      obtain ⟨r, hi, hrun⟩ := Option.bind_eq_some_iff.mp hrun
      obtain ⟨t, hrest, hrun⟩ := Option.bind_eq_some_iff.mp hrun
      obtain ⟨rfl, rfl⟩ := Prod.mk.inj (Option.some.inj hrun)
      have hstep := hs.step (mainloop_step hi)
      have hlen : past.length + 1 = (past ++ [i]).length := by
        rw [List.length_append, List.length_singleton]
      rw [hlen] at hrest
      have hafter := ih hstep hrest
      rw [List.append_assoc, List.singleton_append, List.append_assoc] at hafter
      rw [List.flatten_cons]
      exact hafter

/-! ## What the other harbor makes of it -/

/-- A harbor at the other end of the link that stands between two messages hands the message on
and keeps the link, however its bytes are cut. -/
def Accepted (bytes : List UInt8) (source handle type : Nat) (session : Int)
    (payload : List UInt8) : Prop :=
  ∀ (r : Harbor) (fd : Int) (id : Nat), r.find fd = some id → (r.s id).status = .header →
    (r.s id).Fresh → ∀ chunks : List (List UInt8), [] ∉ chunks → chunks.flatten = bytes →
      ∃ r', pushAll r fd chunks = some (r', [.forward source
          ((handle &&& HANDLE_MASK) ||| u32 (r.id <<< HANDLE_REMOTE_SHIFT))
          (type ||| PTYPE_TAG_DONTCOPY) session payload]) ∧
        (r'.s id).status = .header ∧ (r'.s id).Fresh

/-- A message whose size fits in three bytes together with its cookie. -/
theorem accepted_sent (m : Message) :
    Accepted m.sent m.source m.destination m.type m.session m.payload := by
  intro r fd id hfind hstatus hfresh chunks _ hchunks
  have hone : [m].flatMap Message.sent ++ [] = m.sent := by
    rw [List.flatMap_singleton, List.append_nil]
  have hne : m.sent ≠ [] := by
    intro hnil
    have hlen := congrArg List.length hnil
    rw [m.sent_eq, m.header_eq] at hlen
    cases hlen
  have hsplit := split_sent [m] (List.nil_prefix (l := m.sent)) hne.symm
  rw [hone] at hsplit
  have hlegal : Legal ([] ++ chunks.flatten) := by
    have hall := legal_sent [m]
    rw [List.flatMap_singleton] at hall
    rw [hchunks]
    exact hall
  obtain ⟨r', hpush, hs⟩ := pushAll_holds hfind (hfresh.holds hstatus) hlegal
  have hframes : link.split ([] ++ chunks.flatten) = (frames [m], []) := by
    rw [hchunks]
    exact hsplit
  rw [hframes] at hpush hs
  refine ⟨r', ?_, hs.fresh⟩
  rw [hpush]
  exact congrArg (fun e => some (r', [e])) (forwardLocalMessage_sent r m)

/-- The harbor 1 with a link to harbor 2 that stands between two messages. -/
def openHarbor : Harbor where
  id := 1
  s i :=
    { fd := if i = 2 then 7 else 0, status := .header, length := 0, read := 0,
      size := [0, 0, 0, 0], recvBuffer := [] }

/-- The first byte of the size is not 0, and the link is closed. -/
theorem not_accepted {payload : List UInt8} (hlt : payload.length < 2 ^ 24)
    (hge : 2 ^ 24 ≤ payload.length + HEADER_COOKIE_LENGTH) (header : RemoteMessageHeader)
    (source handle type : Nat) (session : Int) :
    ¬Accepted (sendRemote payload header) source handle type session payload := by
  intro haccepted
  have hcookie : HEADER_COOKIE_LENGTH = 12 := rfl
  have hfour : ∀ n, (toBigendian n).length = 4 := BigEndian.length_encode 4
  obtain ⟨rest, hrest⟩ : ∃ rest, rest = payload ++ headerToMessage header := ⟨_, rfl⟩
  have hbytes : sendRemote payload header =
      toBigendian (u32 (payload.length + HEADER_COOKIE_LENGTH)) ++ rest := by
    unfold sendRemote
    rw [List.append_assoc, hrest]
  have hne : sendRemote payload header ≠ [] := by
    intro hnil
    have hlen := congrArg List.length hnil
    rw [hbytes, List.length_append, hfour, List.length_nil] at hlen
    omega
  obtain ⟨r', hpush, -⟩ := haccepted openHarbor 7 2 (by decide) rfl ⟨rfl, rfl⟩
    [sendRemote payload header] (fun hmem => hne (List.mem_singleton.mp hmem).symm)
    (List.append_nil _)
  -- the size takes the first four bytes, and its high byte is 1
  have hsize : (toBigendian (u32 (payload.length + HEADER_COOKIE_LENGTH))).take 1 = [1] := by
    have hu32 : u32 (payload.length + HEADER_COOKIE_LENGTH) =
      payload.length + HEADER_COOKIE_LENGTH := u32_of_lt (by omega)
    have hhigh : (payload.length + HEADER_COOKIE_LENGTH) / 256 ^ 3 = 1 := by omega
    unfold toBigendian
    rw [hu32, BigEndian.encode_succ, hhigh]
    rfl
  have hpass : ∃ s, pass openHarbor 2 (openHarbor.s 2) (sendRemote payload header) =
      .ret s [.closeHarbor 2] := by
    have hshort : ¬(sendRemote payload header).length < 4 - (openHarbor.s 2).read := by
      rw [hbytes, List.length_append, hfour]
      show ¬4 + rest.length < 4
      omega
    have htake : memcpy (openHarbor.s 2).size (openHarbor.s 2).read
        ((sendRemote payload header).take (4 - (openHarbor.s 2).read)) =
          toBigendian (u32 (payload.length + HEADER_COOKIE_LENGTH)) := by
      show [] ++ (sendRemote payload header).take 4 ++
        [0, 0, 0, 0].drop (0 + ((sendRemote payload header).take 4).length) = _
      rw [hbytes, List.take_left' (hfour _), hfour]
      exact List.append_nil _
    have hone : (toBigendian (u32 (payload.length + HEADER_COOKIE_LENGTH))).take 1 ≠ [0] := by
      rw [hsize]
      decide
    refine ⟨{ openHarbor.s 2 with
      size := toBigendian (u32 (payload.length + HEADER_COOKIE_LENGTH)), status := .down }, ?_⟩
    show passHeader openHarbor 2 (openHarbor.s 2) (sendRemote payload header) = _
    unfold passHeader
    dsimp only
    rw [if_neg hshort, htake, if_pos hone]
  obtain ⟨s, hpass⟩ := hpass
  have hfind : openHarbor.find 7 = some 2 := by decide
  have hclosed : pushAll openHarbor 7 [sendRemote payload header] =
      some ({ openHarbor with s := Function.update openHarbor.s 2 s }, [.closeHarbor 2]) := by
    unfold pushAll HarborLink.pushSocketData
    rw [hfind]
    dsimp only
    rw [loop, hpass]
    rfl
  rw [hclosed] at hpush
  cases (Prod.mk.inj (Option.some.inj hpush)).2

/-- What a node writes for a message that `skynet_send` took for a handle of another node is
accepted there exactly if the size fits in 24 bits together with the cookie. -/
theorem accepted_iff {id slave : Nat} {inputs : List Input} {h : Service}
    {ess : List (List Effect)} (hrun : run 0 (harborInit id slave) inputs = some (h, ess))
    {k source type : Nat} {session : Int} {name : Name} {handle : Nat} {bytes : List UInt8}
    (hk : inputs[k]? = some (.message source type session name handle bytes))
    (hhandle : handle ≠ 0) (hsource : source < 2 ^ 32) (hlt : handle < 2 ^ 32)
    (htype : type < 256) (hge : -2 ^ 31 ≤ session) (hle : session < 2 ^ 31)
    (htaken : Sending.messageSize bytes.length = bytes.length) {fd : Int} {m : HarborMsg}
    (hwritten : .sendRemote fd m ∈ ess.flatten) (hnumber : m.buffer.number = k) :
    (∃ frame, Effect.written (.sendRemote fd m) = some (fd, frame) ∧
      Accepted frame source handle type session bytes) ↔
        bytes.length + HEADER_COOKIE_LENGTH < 2 ^ 24 := by
  have hsourced : Sourced inputs ess.flatten h := (sourced_init id slave).run hrun
  have hm : m = packed source handle type session ⟨k, bytes⟩ := by
    have horigin := (hsourced.written fd m hwritten).2 source type session name handle bytes
    rw [hnumber] at horigin
    exact horigin hk hhandle
  have hcookie : HEADER_COOKIE_LENGTH = 12 := rfl
  constructor
  · rintro ⟨frame, hframe, haccepted⟩
    obtain ⟨-, rfl⟩ := Prod.mk.inj (Option.some.inj hframe)
    by_contra hlong
    rw [hm] at haccepted
    exact not_accepted (Sending.messageSize_fits.mp htaken) (Nat.le_of_not_lt hlong) _ _ _ _ _
      haccepted
  · intro hshort
    have haccepted := accepted_sent
      { source := source, destination := handle, type := type, session := session,
        payload := bytes, source_lt := hsource, destination_lt := hlt, type_lt := htype,
        session_ge := hge, session_lt := hle, payload_lt := by omega }
    exact ⟨_, rfl, hm ▸ haccepted⟩

/-- `A 7 2` and a message for a handle of harbor 2. -/
def oneMessage (bytes : List UInt8) : List Input :=
  [.command (bytesOf "A 7 2") 5, .message 0x1000003 10 1 [] 0x2000004 bytes]

theorem oneMessage_run (bytes : List UInt8) : ∃ h ess,
    run 0 (harborInit 1 5) (oneMessage bytes) = some (h, ess) ∧
      .sendRemote 7 (packed 0x1000003 0x2000004 10 1 ⟨1, bytes⟩) ∈ ess.flatten :=
  ⟨_, _, rfl, List.mem_cons_of_mem _ (List.mem_cons_of_mem _ List.mem_cons_self)⟩

theorem accepted_iff_one : ∃ frame, Effect.written
      (.sendRemote 7 (packed 0x1000003 0x2000004 10 1 ⟨1, [104]⟩)) = some (7, frame) ∧
    Accepted frame 0x1000003 0x2000004 10 1 [104] := by
  obtain ⟨h, ess, hrun, hwritten⟩ := oneMessage_run [104]
  exact (accepted_iff hrun (k := 1) rfl (by decide) (by decide) (by decide) (by decide)
    (by decide) (by decide) (by decide) hwritten rfl).mpr (by decide)

/-- A message of 2^24 - 12 bytes, which `skynet_send` takes. -/
theorem not_accepted_long : ∃ bytes : List UInt8,
    Sending.messageSize bytes.length = bytes.length ∧ ∃ h ess,
      run 0 (harborInit 1 5) (oneMessage bytes) = some (h, ess) ∧
      ∃ m, .sendRemote 7 m ∈ ess.flatten ∧ m.buffer.number = 1 ∧
        ∀ frame, Effect.written (.sendRemote 7 m) = some (7, frame) →
          ¬Accepted frame 0x1000003 0x2000004 10 1 bytes := by
  have hlen : (List.replicate (2 ^ 24 - 12) (0 : UInt8)).length = 2 ^ 24 - 12 :=
    List.length_replicate
  have hcookie : HEADER_COOKIE_LENGTH = 12 := rfl
  obtain ⟨h, ess, hrun, hwritten⟩ := oneMessage_run (List.replicate (2 ^ 24 - 12) 0)
  refine ⟨List.replicate (2 ^ 24 - 12) 0, ?_, h, ess, hrun, _, hwritten, rfl, ?_⟩
  · rw [hlen]
    decide
  · intro frame hframe
    obtain ⟨-, rfl⟩ := Prod.mk.inj (Option.some.inj hframe)
    have hlt : (List.replicate (2 ^ 24 - 12) (0 : UInt8)).length < 2 ^ 24 := by
      rw [hlen]
      decide
    have hge : 2 ^ 24 ≤ (List.replicate (2 ^ 24 - 12) (0 : UInt8)).length +
        HEADER_COOKIE_LENGTH := by
      rw [hlen]
      decide
    exact not_accepted hlt hge _ _ _ _ _

end Jump.Skynet.HarborService
