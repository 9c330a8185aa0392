import Jump.Skynet.HarborService.Names

/-! # Where the messages to names leave

Every step of the service under the condition that its names are given in order, and every run.
-/

namespace Jump.Skynet.HarborService

open Jump.Core
open Jump.Skynet.HarborLink

section

variable {past : List Input} {es es' : List Effect} {h h' : Service} {i : Input}

theorem pending_update {id : Nat} {queue : Option HarborMsgQueue}
    (hqueue : h'.queue = Function.update h.queue id queue) (j : Nat) :
    h'.pending j = if j = id then msgs queue else h.pending j := by
  unfold Service.pending
  rw [hqueue]
  by_cases hj : j = id
  · rw [hj, Function.update_self, if_pos rfl]
  · rw [Function.update_of_ne hj, if_neg hj]

/-- The numbers stay below the number of inputs. -/
theorem Tracked.of_names (ht : Tracked past es h) (hstays : Stays h h') (inv : Inv h')
    (hown : h'.pending h.id = []) (hleft : ∀ k ∈ left es', k ≤ past.length)
    (hpending : ∀ id, ∀ k ∈ numbers (h'.pending id), k ∈ numbers (h.pending id) ∨ k = past.length)
    (hnames : ∀ name, Tracks name (past ++ [i]) (es ++ es') h') :
    Tracked (past ++ [i]) (es ++ es') h' where
  inv := inv
  own := hstays.id ▸ hown
  left_lt k hk := by
    rw [List.length_append, List.length_singleton]
    rw [left_append] at hk
    rcases List.mem_append.mp hk with hk | hk
    · exact Nat.lt_succ_of_lt (ht.left_lt k hk)
    · exact Nat.lt_succ_of_le (hleft k hk)
  pending_lt id k hk := by
    rw [List.length_append, List.length_singleton]
    rcases hpending id k hk with hk | rfl
    · exact Nat.lt_succ_of_lt (ht.pending_lt id k hk)
    · exact Nat.lt_succ_self _
  names := hnames

/-- A step without a message and without a name. -/
theorem Tracked.still (ht : Tracked past es h) (hstays : Stays h h') (inv : Inv h')
    (hto : ∀ name, toName name i = false) (hgives : ∀ name, gives name i = none)
    (hvalue : ∀ name, h'.value name = h.value name)
    (hwaiting : ∀ name, h'.waiting name = h.waiting name)
    (hpending : ∀ id, h'.pending id = h.pending id ∨
      (h'.pending id = [] ∧ (h'.s id).status = .down))
    (hleft : left es' = []) : Tracked (past ++ [i]) (es ++ es') h' := by
  refine ht.of_names hstays inv ?_ ?_ ?_ fun name =>
    .still ht hstays (hto name) (hgives name) (hvalue name) (hwaiting name) hpending hleft
  · rcases hpending h.id with hsame | ⟨hnil, -⟩
    · rw [hsame, ht.own]
    · exact hnil
  · intro k hk
    rw [hleft] at hk
    exact absurd hk List.not_mem_nil
  · intro id k hk
    rcases hpending id with hsame | ⟨hnil, -⟩
    · exact .inl (hsame ▸ hk)
    · rw [hnil] at hk
      exact absurd hk List.not_mem_nil

/-- The queue of a link is written to it. -/
theorem Tracked.dispatched (ht : Tracked past es h) (hstays : Stays h h') (inv : Inv h')
    (hto : ∀ name, toName name i = false) (hgives : ∀ name, gives name i = none)
    (hmap : h'.map = h.map) {id : Nat} (hqueue : h'.queue = Function.update h.queue id none)
    {fd : Int} (hfd : fd ≠ 0) (hfd' : (h'.s id).fd = fd) {before after : List Effect}
    (hbefore : ∀ e ∈ before, leaves e = none) (hafter : ∀ e ∈ after, Quiet e)
    (heffects : es' = before ++ sendQueue fd (h.pending id) ++ after) :
    Tracked (past ++ [i]) (es ++ es') h' := by
  have hempty : h'.pending id = [] := by
    rw [pending_update hqueue, if_pos rfl]
    rfl
  have hothers : ∀ j, j ≠ id → h'.pending j = h.pending j := fun j hj => by
    rw [pending_update hqueue, if_neg hj]
  have hleft : left es' = numbers (h.pending id) := by
    have hnone : left before = [] := List.filterMap_eq_nil_iff.mpr hbefore
    rw [heffects, left_append, left_append, hnone, left_quiet hafter, left_sendQueue,
      List.append_nil, List.nil_append]
  have hsends : ∀ e ∈ es', ∀ k, leaves e = some k → ∃ m ∈ h.pending id, e = .sendRemote fd m := by
    intro e he k hk
    rw [heffects] at he
    rcases List.mem_append.mp he with he | he
    · rcases List.mem_append.mp he with he | he
      · exact nomatch (hbefore e he).symm.trans hk
      · obtain ⟨m, hm, he⟩ := List.mem_flatMap.mp he
        rcases List.mem_cons.mp he with rfl | he
        · exact ⟨m, hm, rfl⟩
        · obtain rfl := List.mem_singleton.mp he
          exact nomatch hk
    · have hmem : k ∈ left after := List.mem_filterMap.mpr ⟨e, he, hk⟩
      rw [left_quiet hafter] at hmem
      exact absurd hmem List.not_mem_nil
  have hvalue : ∀ name, h'.value name = h.value name := fun name => by
    unfold Service.value
    rw [hmap]
  have hwaiting : ∀ name, h'.waiting name = h.waiting name := fun name => by
    unfold Service.waiting
    rw [hmap]
  refine ht.of_names hstays inv ?_ ?_ ?_ fun name => .dispatched ht hstays (hto name)
    (hgives name) (hvalue name) (hwaiting name) hfd hfd' hempty hothers hleft hsends
  · by_cases hid : h.id = id
    · rw [hid, hempty]
    · rw [hothers _ hid, ht.own]
  · intro k hk
    rw [hleft] at hk
    exact Nat.le_of_lt (ht.pending_lt id k hk)
  · intro j k hk
    by_cases hj : j = id
    · rw [hj, hempty] at hk
      exact absurd hk List.not_mem_nil
    · exact .inl (hothers j hj ▸ hk)

theorem Tracked.arrives (ht : Tracked past es h) {fd : Int} {buffer : List UInt8}
    {alive : Nat → Bool} {id : Nat} {s : Slave} {queue : Option HarborMsgQueue}
    (harrival : Arrival h id buffer s queue es') (hfd : s.fd = (h.s id).fd)
    (hstays : Stays h (h.after id s queue)) (inv : Inv (h.after id s queue)) :
    Tracked (past ++ [.data fd buffer alive]) (es ++ es') (h.after id s queue) := by
  have hsame : ∀ j, (h.after id s (h.queue id)).pending j = h.pending j := fun j => by
    rw [@pending_update h (h.after id s (h.queue id)) _ _ rfl]
    split
    · rename_i hj
      rw [hj]
      rfl
    · rfl
  have hlost : s.status = .down → ∀ j, (h.after id s none).pending j = h.pending j ∨
      ((h.after id s none).pending j = [] ∧ ((h.after id s none).s j).status = .down) := by
    intro hdown j
    rw [@pending_update h (h.after id s none) _ _ rfl]
    by_cases hj : j = id
    · rw [if_pos hj, hj, Service.after_s, Function.update_self]
      exact .inr ⟨rfl, hdown⟩
    · rw [if_neg hj]
      exact .inl rfl
  cases harrival with
  | idle =>
      exact ht.still hstays inv (fun _ => rfl) (fun _ => rfl) (fun _ => rfl) (fun _ => rfl)
        (fun j => .inl (hsame j)) rfl
  | wrong hbuffer hhand hne hdown hquiet =>
      refine ht.still hstays inv (fun _ => rfl) (fun _ => rfl) (fun _ => rfl) (fun _ => rfl)
        (hlost hdown) ?_
      rw [left_append, left_quiet hquiet, left_release]
      rfl
  | @met b rest s es' hbuffer hhand heq hs hquiet =>
      have hne : (h.s id).fd ≠ 0 := fun hzero => by
        rw [(ht.inv.wait id).mp hzero] at hhand
        cases hhand
      have hnone : ∀ e ∈ ([] : List Effect), leaves e = none := fun _ he =>
        absurd he List.not_mem_nil
      refine ht.dispatched hstays inv (fun _ => rfl) (fun _ => rfl) rfl rfl hne ?_ hnone hquiet rfl
      rw [Service.after_s, Function.update_self, hfd]
  | read hlive hs hquiet =>
      exact ht.still hstays inv (fun _ => rfl) (fun _ => rfl) (fun _ => rfl) (fun _ => rfl)
        (fun j => .inl (hsame j)) (left_quiet hquiet)
  | oversized hlive hdown hquiet =>
      refine ht.still hstays inv (fun _ => rfl) (fun _ => rfl) (fun _ => rfl) (fun _ => rfl)
        (hlost hdown) ?_
      rw [left_append, left_quiet hquiet, left_release]
      rfl

/-- Under the condition the waiting messages are written to the link of the handle. -/
theorem Named.orderly {name : Name} {source : Nat} {queue : Nat → Option HarborMsgQueue}
    (hnamed : Named h name source queue es') (inv : Inv h)
    (hlink : h.waiting name ≠ [] → source >>> HANDLE_REMOTE_SHIFT ≠ h.id ∧
      (h.s (source >>> HANDLE_REMOTE_SHIFT)).fd ≠ 0) :
    queue = h.queue ∧ es' = sendQueue (h.s (source >>> HANDLE_REMOTE_SHIFT)).fd
      ((h.waiting name).map (patch source)) := by
  cases hnamed with
  | quiet hnone =>
      unfold Service.waiting
      rw [hnone]
      exact ⟨rfl, rfl⟩
  | dropped hsome hfd hdown => exact absurd hdown (inv.not_down hfd)
  | merged hsome hfd =>
      have hne : h.waiting name ≠ [] := by
        unfold Service.waiting
        rw [hsome]
        exact inv.full name _ hsome
      exact absurd hfd (hlink hne).2
  | written hsome hfd =>
      unfold Service.waiting
      rw [hsome]
      exact ⟨rfl, rfl⟩

theorem Tracked.named (ht : Tracked past es h) {msg : List UInt8} {source : Nat} {name : Name}
    {queue : Nat → Option HarborMsgQueue} {map : Hashmap} (hname : nameOf msg = some name)
    (hnamed : Named h name source queue es')
    (hvalue : ∀ other, (node map other).value = if Same name other then source else h.value other)
    (hqueue : ∀ other, (node map other).queue =
      if Same name other then none else (node h.map other).queue)
    (horderly : Orderly past h (.command msg source) h' es')
    (hstays : Stays h { h with queue := queue, map := map })
    (inv : Inv { h with queue := queue, map := map }) :
    Tracked (past ++ [.command msg source]) (es ++ es')
      { h with queue := queue, map := map } := by
  obtain ⟨hlink, hharbor⟩ := horderly msg source name rfl hname
  obtain ⟨rfl, heffects⟩ := hnamed.orderly ht.inv hlink
  have hleft : left es' = numbers (h.waiting name) := by
    rw [heffects, left_sendQueue, numbers_patch]
  have hgives : ∀ other, gives other (.command msg source) =
      if Same other name then some source else none := by
    intro other
    unfold gives
    simp only [hname]
  refine ht.of_names hstays inv ht.own ?_ (fun _ _ hk => .inl hk) fun other => ?_
  · intro k hk
    rw [hleft] at hk
    obtain ⟨m, hm, rfl⟩ := mem_numbers.mp hk
    exact Nat.le_of_lt ((ht.names name).waiting m hm).1
  · by_cases hsame : Same name other
    · have hvalues : h.value name = h.value other := (node_same hsame).1
      have hwaits : h.waiting name = h.waiting other := congrArg msgs (node_same hsame).2
      have hboth : sentTo name past = sentTo other past := funext (sentTo_same hsame)
      rw [hwaits] at heffects hlink
      rw [hvalues, hboth] at hharbor
      refine .named ht hstays rfl ((hgives other).trans (if_pos hsame.symm)) ?_ ?_ (fun _ => rfl)
        hharbor hlink rfl heffects
      · exact (hvalue other).trans (if_pos hsame)
      · exact congrArg msgs ((hqueue other).trans (if_pos hsame))
    · have hsame' : ¬Same other name := fun heq => hsame heq.symm
      refine .other_named ht hstays hsame' rfl ((hgives other).trans (if_neg hsame')) ?_ ?_
        (fun _ => rfl) fun k hk => hleft ▸ hk
      · exact (hvalue other).trans (if_neg hsame)
      · exact congrArg msgs ((hqueue other).trans (if_neg hsame))

theorem Tracked.waits (ht : Tracked past es h) {source type : Nat} {session : Int} {name : Name}
    {bytes : List UInt8} (hnone : h.value name = 0) (hq : h'.queue = h.queue)
    (hvalue : ∀ other, h'.value other = h.value other)
    (hother : ∀ other, ¬Same name other → (node h'.map other).queue = (node h.map other).queue)
    (hsame : ∀ other, Same name other → ∃ queue, (node h'.map other).queue = some queue ∧
      queue.toList = h.waiting other ++ [unpacked source type session ⟨past.length, bytes⟩])
    (hstays : Stays h h') (inv : Inv h') (hleft : left es' = []) :
    Tracked (past ++ [.message source type session name 0 bytes]) (es ++ es') h' := by
  have hpending : ∀ id, h'.pending id = h.pending id := fun id => by
    unfold Service.pending
    rw [hq]
  refine ht.of_names hstays inv ((hpending _).trans ht.own) ?_ (fun id k hk => .inl ?_)
    fun other => ?_
  · intro k hk
    rw [hleft] at hk
    exact absurd hk List.not_mem_nil
  · exact hpending id ▸ hk
  · by_cases hname : Same name other
    · have hvalues : h.value name = h.value other := (node_same hname).1
      obtain ⟨queue, hsome, hlist⟩ := hsame other hname
      refine .waits ht hstays hname.symm (hvalues ▸ hnone) (hvalue other) hq ?_ hleft
      unfold Service.waiting
      rw [hsome]
      exact hlist
    · have hto : toName other (.message source type session name 0 bytes) = false := by
        rw [toName_message]
        exact decide_eq_false fun hand => hname hand.2.symm
      refine .elsewhere ht hstays hto rfl (hvalue other) (congrArg msgs (hother other hname))
        (fun id => ⟨[], by rw [hpending, List.append_nil], fun _ hm => absurd hm List.not_mem_nil⟩)
        fun k hk => ?_
      rw [hleft] at hk
      exact absurd hk List.not_mem_nil

/-- A message to a handle, which may stand behind a name. -/
theorem Tracked.sent (ht : Tracked past es h) {source type : Nat} {session : Int} {name : Name}
    {handle : Nat} {bytes : List UInt8} {kept : Bool} {h₁ : Service} {es₁ : List Effect}
    {map : Hashmap} (htarget : target h name handle ≠ 0)
    (hsent : Sent h source (target h name handle) type session ⟨past.length, bytes⟩ kept h₁ es₁)
    (hvalue : ∀ other, (node map other).value = h.value other)
    (hqueue : ∀ other, (node map other).queue = (node h.map other).queue)
    (hstays : Stays h { h₁ with map := map }) (inv : Inv { h₁ with map := map }) :
    Tracked (past ++ [.message source type session name handle bytes])
      (es ++ (es₁ ++ if kept then [] else [.free ⟨past.length, bytes⟩]))
      { h₁ with map := map } := by
  have hfree : ∀ kept : Bool,
      left (if kept then [] else [Effect.free ⟨past.length, bytes⟩]) = [] := by
    intro kept
    cases kept <;> rfl
  have hwaits : ∀ other, msgs (node map other).queue = h.waiting other := fun other =>
    congrArg msgs (hqueue other)
  -- for the names that the message is sent to, the handle is theirs
  have hcase : ∀ other, (toName other (.message source type session name handle bytes) = false) ∨
      (handle = 0 ∧ Same other name ∧ target h name handle = h.value other) := by
    intro other
    rw [toName_message]
    by_cases hto : handle = 0 ∧ Same other name
    · refine .inr ⟨hto.1, hto.2, (if_pos hto.1).trans ?_⟩
      exact (node_same hto.2.symm).1
    · exact .inl (decide_eq_false hto)
  have hfalse : ∀ other, toName other (.message source type session name handle bytes) = false →
      sentTo other (past ++ [.message source type session name handle bytes]) past.length = false :=
    fun other hto => sentTo_last.trans hto
  cases hsent with
  | here hown =>
      refine ht.of_names hstays inv ht.own ?_ (fun _ _ hk => .inl hk) fun other => ?_
      · intro k hk
        exact Nat.le_of_eq (List.mem_singleton.mp hk)
      · rcases hcase other with hto | ⟨rfl, hname, hhandle⟩
        · refine .elsewhere ht hstays hto rfl (hvalue other) (hwaits other)
            (fun id => ⟨[], (List.append_nil _).symm, fun _ hm => absurd hm List.not_mem_nil⟩)
            fun k hk => ?_
          rw [List.mem_singleton.mp hk]
          exact hfalse other hto
        · have hbound := bound_last (((ht.names other).value).symm.trans hhandle.symm ▸ htarget)
            (.message source type session name 0 bytes)
          rw [← (ht.names other).value, ← hhandle] at hbound
          refine .sent ht hstays hname (hhandle ▸ htarget) (hvalue other) (hwaits other)
            (fun _ => rfl) ?_ rfl fun e he k hk => ?_
          · rw [← hhandle, hown, ht.own]
          · obtain rfl := List.mem_singleton.mp he
            exact ⟨hbound, hown, type, rfl, sentAs_last 0⟩
  | @kept queue hown hwait hup hlist =>
      have hpending : ∀ j, ({ h.setQueue (target h name handle >>> HANDLE_REMOTE_SHIFT)
          (some queue) with map := map } : Service).pending j =
          if j = target h name handle >>> HANDLE_REMOTE_SHIFT then
            h.pending (target h name handle >>> HANDLE_REMOTE_SHIFT) ++
              [packed source (target h name handle) type session ⟨past.length, bytes⟩]
          else h.pending j := fun j => by
        rw [pending_update (h := h) rfl, msgs_some, hlist]
      refine ht.of_names hstays inv ?_ (fun _ hk => absurd hk List.not_mem_nil) (fun id k hk => ?_)
        fun other => ?_
      · rw [hpending, if_neg fun heq => hown heq.symm, ht.own]
      · rw [hpending] at hk
        split at hk
        · rename_i hid
          rw [numbers_append] at hk
          rcases List.mem_append.mp hk with hk | hk
          · exact .inl (hid ▸ hk)
          · exact .inr (List.mem_singleton.mp hk)
        · exact .inl hk
      · rcases hcase other with hto | ⟨rfl, hname, hhandle⟩
        · refine .elsewhere ht hstays hto rfl (hvalue other) (hwaits other) (fun id => ?_)
            fun _ hk => absurd hk List.not_mem_nil
          rw [hpending]
          split
          · rename_i hid
            rw [hid]
            refine ⟨_, rfl, fun m hm => ?_⟩
            obtain rfl := List.mem_singleton.mp hm
            exact hfalse other hto
          · exact ⟨[], (List.append_nil _).symm, fun _ hm => absurd hm List.not_mem_nil⟩
        · refine .kept ht hstays hname (hhandle ▸ htarget) (hvalue other) (hwaits other) ?_
            (fun id hid => ?_) rfl
          · rw [← hhandle, hpending, if_pos rfl]
          · rw [hpending, if_neg fun heq => hid (hhandle ▸ heq)]
  | refused hown hfd hdown => exact absurd hdown (ht.inv.not_down hfd)
  | written hown hfd hhand =>
      have hleft : left ([.sendRemote (h.s (target h name handle >>> HANDLE_REMOTE_SHIFT)).fd
          (packed source (target h name handle) type session ⟨past.length, bytes⟩)] ++
            if false then [] else [Effect.free ⟨past.length, bytes⟩]) = [past.length] := rfl
      refine ht.of_names hstays inv ht.own ?_ (fun _ _ hk => .inl hk) fun other => ?_
      · intro k hk
        rw [hleft] at hk
        exact Nat.le_of_eq (List.mem_singleton.mp hk)
      · rcases hcase other with hto | ⟨rfl, hname, hhandle⟩
        · refine .elsewhere ht hstays hto rfl (hvalue other) (hwaits other)
            (fun id => ⟨[], (List.append_nil _).symm, fun _ hm => absurd hm List.not_mem_nil⟩)
            fun k hk => ?_
          rw [hleft] at hk
          rw [List.mem_singleton.mp hk]
          exact hfalse other hto
        · have hbound := bound_last (((ht.names other).value).symm.trans hhandle.symm ▸ htarget)
            (.message source type session name 0 bytes)
          rw [← (ht.names other).value, ← hhandle] at hbound
          refine .sent ht hstays hname (hhandle ▸ htarget) (hvalue other) (hwaits other)
            (fun _ => rfl) ?_ hleft fun e he k hk => ?_
          · rw [← hhandle]
            exact ht.inv.pending_nil hfd hhand
          · rcases List.mem_append.mp he with he | he
            · obtain rfl := List.mem_singleton.mp he
              exact ⟨_, hbound, hown, hfd, rfl, source, type, session, bytes, sentAs_last 0, rfl⟩
            · obtain rfl := List.mem_singleton.mp he
              exact nomatch hk

theorem Tracked.step (ht : Tracked past es h) (horderly : Orderly past h i h' es')
    (hstep : Step past.length h i h' es') : Tracked (past ++ [i]) (es ++ es') h' := by
  have hstays := hstep.stays ht.inv
  have inv := ht.inv.step hstep
  have hstill : (∀ name, toName name i = false) → (∀ name, gives name i = none) → h' = h →
      left es' = [] → Tracked (past ++ [i]) (es ++ es') h' := by
    rintro hto hgives rfl hleft
    exact ht.still hstays inv hto hgives (fun _ => rfl) (fun _ => rfl) (fun _ => .inl rfl) hleft
  cases hstep with
  | unknown hfind hquiet => exact hstill (fun _ => rfl) (fun _ => rfl) rfl (left_quiet hquiet)
  | arrives hfind hfd harrival => exact ht.arrives harrival hfd hstays inv
  | closed hquiet => exact hstill (fun _ => rfl) (fun _ => rfl) rfl (left_quiet hquiet)
  | connect => exact hstill (fun _ => rfl) (fun _ => rfl) rfl rfl
  | otherSocket hquiet => exact hstill (fun _ => rfl) (fun _ => rfl) rfl (left_quiet hquiet)
  | @invalid msg source text hname =>
      refine hstill (fun _ => rfl) (fun _ => ?_) rfl rfl
      unfold gives
      simp only [hname]
  | @taken msg source command fd id text hlink =>
      refine hstill (fun _ => rfl) (fun _ => ?_) rfl rfl
      unfold gives
      simp only [(linkOf_spec hlink).2.2.2.2]
  | @called msg source fd id hlink =>
      refine ht.still hstays inv (fun _ => rfl) (fun _ => ?_) (fun _ => rfl) (fun _ => rfl)
        (fun _ => .inl rfl) rfl
      unfold gives
      simp only [(linkOf_spec hlink).2.2.2.2]
  | @accepted msg source fd id hlink =>
      have hspec := linkOf_spec hlink
      have hbefore : ∀ e ∈ [Effect.start fd, .handshake fd (UInt8.ofNat h.id)], leaves e =
          none := by
        intro e he
        rcases List.mem_cons.mp he with rfl | he
        · rfl
        · obtain rfl := List.mem_singleton.mp he
          rfl
      have hafter : ∀ e ∈ ([] : List Effect), Quiet e := fun _ he => absurd he List.not_mem_nil
      refine ht.dispatched hstays inv (fun _ => rfl) (fun _ => ?_) rfl rfl hspec.2.1 ?_ hbefore
        hafter (List.append_nil _).symm
      · unfold gives
        simp only [hspec.2.2.2.2]
      · rw [Service.after_s, Function.update_self]
  | named hname hnamed hharbor hvalue hqueue =>
      exact ht.named hname hnamed hvalue hqueue horderly hstays inv
  | sent htarget hsent hvalue hqueue => exact ht.sent htarget hsent hvalue hqueue hstays inv
  | waits hnone hs hq hid hvalue hother hsame =>
      exact ht.waits hnone hq hvalue hother hsame hstays inv rfl

theorem tracked_init (id slave : Nat) : Tracked [] [] (harborInit id slave) where
  inv := inv_init id slave
  own := rfl
  left_lt _ hk := absurd hk List.not_mem_nil
  pending_lt _ _ hk := absurd hk List.not_mem_nil
  names _ := {
    value := rfl
    waiting := fun _ hm => absurd hm List.not_mem_nil
    pending := fun _ _ hm => absurd hm List.not_mem_nil
    destined := fun _ he => absurd he List.not_mem_nil
    order := List.Pairwise.nil
    accounted := fun _ hsent => nomatch hsent }

theorem Tracked.run (ht : Tracked past es h) {inputs : List Input} {ess : List (List Effect)}
    (hrun : HarborService.run past.length h inputs = some (h', ess))
    (horderly : Always Orderly (fun past _ i _ _ => past ++ [i]) past past.length h inputs) :
    Tracked (past ++ inputs) (es ++ ess.flatten) h' := by
  induction inputs generalizing past es h ess with
  | nil =>
      obtain ⟨rfl, rfl⟩ := Prod.mk.inj (Option.some.inj hrun)
      rw [List.append_nil, List.flatten_nil, List.append_nil]
      exact ht
  | cons i inputs ih =>
      obtain ⟨r, hi, hrun⟩ := Option.bind_eq_some_iff.mp hrun
      obtain ⟨t, hrest, hrun⟩ := Option.bind_eq_some_iff.mp hrun
      obtain ⟨rfl, rfl⟩ := Prod.mk.inj (Option.some.inj hrun)
      obtain ⟨hfirst, hall⟩ := horderly r.1 r.2 hi
      have hstep := ht.step hfirst (mainloop_step hi)
      have hlen : past.length + 1 = (past ++ [i]).length := by
        rw [List.length_append, List.length_singleton]
      rw [hlen] at hrest hall
      have hafter := ih hstep hrest hall
      rw [List.append_assoc, List.singleton_append, List.append_assoc] at hafter
      rw [List.flatten_cons]
      exact hafter

/-- What is tracked is what was to be shown. -/
theorem Tracked.routed (ht : Tracked past es h) (name : Name) : Routed name past es h where
  destined := (ht.names name).destined
  order := by
    have horder := (ht.names name).order
    unfold flow at horder
    rw [List.append_assoc, List.filter_append] at horder
    exact (List.pairwise_append.mp horder).1
  accounted k hsent := by
    rcases (ht.names name).accounted k hsent with hflow | hdown
    · rcases List.mem_append.mp hflow with hflow | hwaiting
      · rcases List.mem_append.mp hflow with hleft | hpending
        · exact .inl hleft
        · obtain ⟨m, hm, rfl⟩ := mem_numbers.mp hpending
          obtain ⟨-, handle, hbound, hharbor, -⟩ := (ht.names name).pending _ m hm hsent
          refine .inr (.inl (.inr ⟨handle, hbound, ?_, hharbor ▸ hpending⟩))
          rw [hharbor]
          by_contra hlink
          rw [not_or] at hlink
          rw [ht.inv.pending_nil hlink.1 hlink.2] at hm
          exact absurd hm List.not_mem_nil
      · obtain ⟨m, hm, rfl⟩ := mem_numbers.mp hwaiting
        exact .inr (.inl (.inl ⟨((ht.names name).waiting m hm).2.2.1, hwaiting⟩))
    · exact .inr (.inr hdown)

end

/-- In every run in which each name that messages wait for gets a handle behind a link with a
descriptor, and no name changes the harbor while messages to it wait for the link, the messages
to a name leave for its handle, in the order in which they were sent, and none is lost. -/
theorem names_routed {id slave : Nat} {inputs : List Input} {h : Service}
    {ess : List (List Effect)} (hrun : run 0 (harborInit id slave) inputs = some (h, ess))
    (horderly : Always Orderly (fun past _ i _ _ => past ++ [i]) [] 0 (harborInit id slave) inputs)
    (name : Name) : Routed name inputs ess.flatten h :=
  Tracked.routed ((tracked_init id slave).run hrun horderly) name

/-- The name is given first, then the link comes up and a message is sent to the name. -/
def fooLinked : List Input :=
  [.command (bytesOf "N foo") 0x2000004, .command (bytesOf "A 7 2") 5,
    .message 0x1000003 10 1 fooName 0 [104]]

theorem names_routed_foo : ∃ h ess, run 0 (harborInit 1 5) fooLinked = some (h, ess) ∧
    Routed fooName fooLinked ess.flatten h := by
  refine ⟨_, _, rfl, ?_⟩
  have hfirst : ∀ h' es, Orderly [] (harborInit 1 5) (.command (bytesOf "N foo") 0x2000004) h' es :=
    fun _ _ _ _ _ _ _ => ⟨fun hne => absurd rfl hne, fun ⟨_, hk, _⟩ => absurd hk List.not_mem_nil⟩
  have hsecond : ∀ past h h' es, Orderly past h (.command (bytesOf "A 7 2") 5) h' es := by
    intro past h h' es msg source name heq hname
    obtain ⟨rfl, -⟩ := Input.command.inj heq
    cases hname
  have horderly : Always Orderly (fun past _ i _ _ => past ++ [i]) [] 0 (harborInit 1 5)
      fooLinked := by
    intro h' es _
    refine ⟨hfirst h' es, fun h' es _ => ⟨hsecond _ _ h' es, fun _ _ _ => ⟨?_, trivial⟩⟩⟩
    exact fun _ _ _ heq => (nomatch heq)
  exact names_routed rfl horderly fooName

/-- The name is given while a message waits for it and before the link to the harbor of its
handle comes up. -/
def fooEarly : List Input :=
  [.message 0x1000003 10 1 fooName 0 [104], .command (bytesOf "N foo") 0x2000004,
    .command (bytesOf "A 7 2") 5]

theorem not_routed_foo : ∃ h ess, run 0 (harborInit 1 5) fooEarly = some (h, ess) ∧
    ¬Routed fooName fooEarly ess.flatten h := by
  refine ⟨_, _, rfl, fun hrouted => ?_⟩
  have hmem : .sendRemote 7 (unpacked 0x1000003 10 1 ⟨0, [104]⟩) ∈
      [[Effect.send 0 5 PTYPE_TEXT 0 (.text (query fooName))], [],
        [.start 7, .handshake 7 1, .sendRemote 7 (unpacked 0x1000003 10 1 ⟨0, [104]⟩),
          .free ⟨0, [104]⟩]].flatten := by
    refine List.mem_flatten.mpr ⟨_, List.mem_cons_of_mem _ (List.mem_cons_of_mem _
      List.mem_cons_self), ?_⟩
    exact List.mem_cons_of_mem _ (List.mem_cons_of_mem _ List.mem_cons_self)
  obtain ⟨handle, hbound, -, -, -, source, type, session, bytes, ⟨name, handle', hsent⟩, heq⟩ :=
    hrouted.destined _ hmem 0 rfl rfl
  -- the message was sent with type 10, and the name stands for 0x2000004
  obtain ⟨rfl, rfl, rfl, rfl, rfl, rfl⟩ := Input.message.inj (Option.some.inj hsent)
  rcases hbound with ⟨hne, hlast⟩ | ⟨-, hfirst⟩
  · exact hne hlast.symm
  · obtain rfl : 0x2000004 = handle := Option.some.inj hfirst
    exact absurd heq (by decide)

end Jump.Skynet.HarborService
