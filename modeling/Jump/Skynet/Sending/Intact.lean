import Jump.Skynet.Sending.Code

/-! # What comes to the callback

A message keeps its type, its session, its payload and its size on the way to the receiver,
unless the type has its high bit set or the size was never compared with the mask.
-/

namespace Jump.Skynet.Sending

open Jump.Core

/-! ## Type and size -/

section Packing

variable {type : Int} {sz : Nat}

theorem messageSize_eq (sz : Nat) : messageSize sz = sz % 2 ^ 24 :=
  Nat.and_two_pow_sub_one_eq_mod sz 24

theorem messageSize_fits : messageSize sz = sz ↔ sz < 2 ^ 24 := by
  rw [messageSize_eq]
  exact Nat.mod_eq_iff_lt (by decide)

theorem baseType_lt (type : Int) : baseType type < 256 :=
  Nat.lt_of_le_of_lt Nat.and_le_right (by decide)

/-- A type below 128 and a size below the mask do not meet. -/
theorem pack_small {t : Nat} (ht : t < 128) (hsz : sz < 2 ^ 24) :
    pack sz (t : Int) = t * 2 ^ 24 + sz := by
  have hshift : sizeOfInt (shiftType t) = t <<< 24 := by
    unfold sizeOfInt shiftType uint32OfInt HANDLE_REMOTE_SHIFT
    rw [Nat.shiftLeft_eq, Nat.shiftLeft_eq, toInt_of_lt (by omega)]
    omega
  unfold pack
  rw [hshift, Nat.or_comm, ← Nat.shiftLeft_add_eq_or_of_lt hsz, Nat.shiftLeft_eq]

theorem messageType_pack {t : Nat} (ht : t < 128) (hsz : sz < 2 ^ 24) :
    messageType (pack sz (t : Int)) = t := by
  unfold messageType HANDLE_REMOTE_SHIFT
  rw [pack_small ht hsz, Nat.shiftRight_eq_div_pow, toInt_of_lt (by omega)]
  omega

theorem messageSize_pack {t : Nat} (ht : t < 128) (hsz : sz < 2 ^ 24) :
    messageSize (pack sz (t : Int)) = sz := by
  rw [messageSize_eq, pack_small ht hsz]
  omega

/-- An `int` whose low byte has its high bit set. -/
def Signed (type : Int) : Prop := ∃ j : Nat, 0 < j ∧ j ≤ 128 ∧ (type = -j ∨ type = 256 - j)

theorem shiftType_signed {j : Nat} (hpos : 0 < j) (hle : j ≤ 128)
    (htype : type = -j ∨ type = 256 - j) : sizeOfInt (shiftType type) = 2 ^ 64 - j * 2 ^ 24 := by
  unfold sizeOfInt shiftType uint32OfInt HANDLE_REMOTE_SHIFT toInt
  rw [Nat.shiftLeft_eq, Int.bmod_def]
  omega

/-- The shift fills the upper half with the sign, and the type that comes out is negative. -/
theorem messageType_signed (h : Signed type) (sz : Nat) :
    -128 ≤ messageType (pack sz type) ∧ messageType (pack sz type) < 0 := by
  obtain ⟨j, hpos, hle, htype⟩ := h
  have hhigh : (2 ^ 64 - j * 2 ^ 24) >>> 24 % 2 ^ 32 = 2 ^ 32 - j := by
    rw [Nat.shiftRight_eq_div_pow]
    omega
  have hlow : (pack sz type) >>> 24 % 2 ^ 32 = sz >>> 24 % 2 ^ 32 ||| (2 ^ 32 - j) := by
    unfold pack
    rw [shiftType_signed hpos hle htype, Nat.shiftRight_or_distrib, Nat.or_mod_two_pow, hhigh]
  have hge : 2 ^ 32 - j ≤ (pack sz type) >>> 24 % 2 ^ 32 := hlow ▸ Nat.right_le_or
  unfold messageType HANDLE_REMOTE_SHIFT toInt
  rw [Int.bmod_def]
  omega

theorem signed_of_ge {t : Nat} (hge : 128 ≤ t) (hlt : t < 256) : Signed (t : Int) :=
  ⟨256 - t, by omega, by omega, .inr (by omega)⟩

theorem signed_of_neg (hge : -128 ≤ type) (hneg : type < 0) : Signed type :=
  ⟨type.natAbs, by omega, by omega, .inl (by omega)⟩

end Packing

/-! ## The receiver -/

theorem dispatchall_eq {fuel : Nat} {q : RingBuffer Message} (h : q.toList.length ≤ fuel) :
    dispatchall fuel q = q.toList.map dispatchMessage := by
  induction fuel generalizing q with
  | zero =>
      rw [List.eq_nil_of_length_eq_zero (Nat.le_zero.mp h)]
      rfl
  | succ fuel ih =>
      unfold dispatchall
      cases hpop : q.pop with
      | none =>
          rw [RingBuffer.pop_none.mp hpop]
          rfl
      | some r =>
          obtain ⟨msg, q'⟩ := r
          have hlist := RingBuffer.toList_pop hpop
          rw [hlist] at h ⊢
          exact congrArg (_ :: ·) (ih (Nat.le_of_succ_le_succ h))

namespace Node

/-- The calls that the messages in the queue of a context will make. -/
def calls (n : Node) (ctx : Nat) : List Call :=
  dispatchall (n.context ctx).queue.toList.length (n.context ctx).queue

theorem calls_eq (n : Node) (ctx : Nat) :
    n.calls ctx = (n.context ctx).queue.toList.map dispatchMessage :=
  dispatchall_eq (Nat.le_refl _)

variable {n : Node}

theorem setContext_self (ctx : Nat) (x : Context) : (n.setContext ctx x).context ctx = x :=
  Function.update_self ..

theorem setContext_of_ne {ctx i : Nat} (h : i ≠ ctx) (x : Context) :
    (n.setContext ctx x).context i = n.context i := Function.update_of_ne h ..

/-- A new session leaves handles and queues alone. -/
theorem newsession_context (n : Node) (ctx i : Nat) :
    ((n.newsession ctx).2.context i).handle = (n.context i).handle ∧
      ((n.newsession ctx).2.context i).queue = (n.context i).queue := by
  unfold newsession
  by_cases hi : i = ctx
  · subst hi
    rw [setContext_self]
    exact ⟨rfl, rfl⟩
  · rw [setContext_of_ne hi]
    exact ⟨rfl, rfl⟩

theorem newsession_same (n : Node) (ctx : Nat) : (n.newsession ctx).2.storage = n.storage ∧
    (n.newsession ctx).2.remote = n.remote ∧ (n.newsession ctx).2.harbor = n.harbor :=
  ⟨rfl, rfl, rfl⟩

theorem newsession_pos (n : Node) (ctx : Nat) : 0 < (n.newsession ctx).1 := by
  unfold newsession
  dsimp only
  split <;> omega

theorem newsession_calls (n : Node) (ctx i : Nat) : (n.newsession ctx).2.calls i = n.calls i := by
  rw [calls_eq, calls_eq, (n.newsession_context ctx i).2]

theorem calls_mqPush (n : Node) (ctx i : Nat) (smsg : Message) :
    (n.mqPush ctx smsg).calls i =
      if i = ctx then n.calls i ++ [dispatchMessage smsg] else n.calls i := by
  rw [calls_eq, calls_eq]
  unfold mqPush
  by_cases hi : i = ctx
  · subst hi
    rw [setContext_self, if_pos rfl]
    dsimp only
    rw [RingBuffer.toList_push, List.map_append]
    rfl
  · rw [setContext_of_ne hi, if_neg hi]

end Node

/-! ## Requests -/

/-- Where a message is sent: to a handle with `skynet_send`, to a name with `skynet_sendname`. -/
inductive Target where
  | handle (destination : UInt32)
  | name (addr : String)
deriving DecidableEq

structure Request where
  ctx : Nat
  source : UInt32
  target : Target
  type : Int
  session : Int
  data : Buffer
  sz : Nat

def Node.submit (n : Node) (r : Request) : Option Sent :=
  match r.target with
  | .handle destination => n.send r.ctx r.source destination r.type r.session r.data r.sz
  | .name addr => n.sendname r.ctx r.source addr r.type r.session r.data r.sz

/-- What the target stands for. -/
inductive Route where
  | unknown
  | handle (destination : UInt32)
  | global (addr : String)
deriving DecidableEq

def Node.route (n : Node) : Target → Route
  | .handle destination => .handle destination
  | .name addr =>
    match addr.toList with
    | ':' :: hex => .handle (UInt32.ofNat (strtoul16 hex))
    | '.' :: name =>
      let des := findname n.storage (String.ofList name)
      if des = 0 then .unknown else .handle des
    | _ => .global addr

/-- The context with the handle. -/
def Node.grab (n : Node) (handle : UInt32) : Option Nat :=
  Handle.grab (fun ctx => (n.context ctx).handle) handle n.storage

def Request.allocates (r : Request) : Bool := hasTag r.type PTYPE_TAG_ALLOCSESSION

/-- The buffer of the message has the payload that was sent, and the size is the same. -/
def SamePayload (r : Request) (message : Buffer) (sz : Nat) : Prop :=
  sz = r.sz ∧ message.map (·.take sz) = r.data.map (·.take r.sz)

/-- The call of the callback is the message that was sent: at a local receiver with its buffer,
at the harbor service with the message to pass on. -/
def SameMessage (n : Node) (r : Request) (ret : Int) (i : Nat) (call : Call) : Prop :=
  call.type = baseType r.type ∧ call.session = ret ∧
    (r.allocates = false → ret = r.session) ∧
    match call.data with
    | .buffer message => n.route r.target = .handle (n.context i).handle ∧
        SamePayload r message call.sz
    | .remote rmsg => n.remote = some i ∧ SamePayload r rmsg.message rmsg.sz

/-- The message is refused with `-1`, or one callback gets it as it was sent. -/
def Intact (n : Node) (r : Request) : Prop :=
  ∃ sent, n.submit r = some sent ∧
    (sent.ret = -1 ∧ (∀ i, sent.node.calls i = n.calls i) ∨
      ∃ i call, sent.node.calls i = n.calls i ++ [call] ∧
        (∀ j, j ≠ i → sent.node.calls j = n.calls j) ∧ SameMessage n r sent.ret i call)

/-- The harbor service takes the type. -/
def Node.Forwards (n : Node) (t : Nat) : Prop :=
  n.remote.isSome = true ∧ (t : Int) ≠ PTYPE_SYSTEM ∧ (t : Int) ≠ PTYPE_HARBOR

/-- The request has no session yet if one is to be allocated. -/
def Request.Unset (r : Request) : Prop := r.allocates = true → r.session = 0

variable {n n' : Node} {r : Request} {ret : Int} {events : List Event}

theorem intact_aborted (h : n.submit r = none) : ¬Intact n r := by
  rintro ⟨sent, hsent, -⟩
  rw [h] at hsent
  exact nomatch hsent

theorem intact_refused (h : n.submit r = some ⟨-1, n', events⟩)
    (hcalls : ∀ i, n'.calls i = n.calls i) : Intact n r :=
  ⟨_, h, .inl ⟨rfl, hcalls⟩⟩

/-- Nothing was sent. -/
theorem intact_unsent (h : n.submit r = some ⟨ret, n', events⟩)
    (hcalls : ∀ i, n'.calls i = n.calls i) : Intact n r ↔ ret = -1 := by
  refine ⟨?_, fun hret => ⟨_, h, .inl ⟨hret, hcalls⟩⟩⟩
  rintro ⟨sent, hsent, hcase⟩
  obtain rfl := Option.some.inj (h.symm.trans hsent)
  rcases hcase with ⟨hret, -⟩ | ⟨i, call, hmore, -⟩
  · exact hret
  · exact absurd (List.self_eq_append_right.mp ((hcalls i).symm.trans hmore))
      (List.cons_ne_nil _ _)

theorem intact_pushed {i : Nat} {smsg : Message}
    (h : n.submit r = some ⟨ret, n'.mqPush i smsg, events⟩)
    (hcalls : ∀ i, n'.calls i = n.calls i) :
    Intact n r ↔ SameMessage n r ret i (dispatchMessage smsg) := by
  have hself : (n'.mqPush i smsg).calls i = n.calls i ++ [dispatchMessage smsg] := by
    rw [Node.calls_mqPush, if_pos rfl, hcalls]
  have hother : ∀ j, j ≠ i → (n'.mqPush i smsg).calls j = n.calls j := by
    intro j hj
    rw [Node.calls_mqPush, if_neg hj, hcalls]
  have hmore : (n'.mqPush i smsg).calls i ≠ n.calls i := by
    rw [hself]
    exact fun heq => List.cons_ne_nil _ _ (List.self_eq_append_right.mp heq.symm)
  refine ⟨?_, fun hsame => ⟨_, h, .inr ⟨i, _, hself, hother, hsame⟩⟩⟩
  rintro ⟨sent, hsent, hcase⟩
  obtain rfl := Option.some.inj (h.symm.trans hsent)
  rcases hcase with ⟨-, hnone⟩ | ⟨j, call, hj, hrest, hsame⟩
  · exact absurd (hnone i) hmore
  · obtain rfl : i = j := Decidable.not_not.mp fun hne => hmore (hrest i hne)
    obtain rfl := List.singleton_inj.mp (List.append_cancel_left (hself.symm.trans hj))
    exact hsame

/-- What `_filter_args` makes of a request. -/
structure Filtered (n : Node) (r : Request) (session : Int) (data : Buffer) (n' : Node) :
    Prop where
  kept : r.allocates = false → session = r.session
  fresh : r.allocates = true → 0 < session
  data : data.map (·.take r.sz) = r.data.map (·.take r.sz)
  storage : n'.storage = n.storage
  remote : n'.remote = n.remote
  harbor : n'.harbor = n.harbor
  handle (i : Nat) : (n'.context i).handle = (n.context i).handle
  calls (i : Nat) : n'.calls i = n.calls i

theorem filterArgs_none (h : ¬r.Unset) :
    n.filterArgs r.ctx r.type r.session r.data r.sz = none := by
  unfold Request.Unset Request.allocates at h
  rw [Classical.not_imp] at h
  unfold Node.filterArgs
  rw [if_pos h]

theorem filterArgs_some (h : r.Unset) (hdata : ∀ bytes ∈ r.data, r.sz ≤ bytes.length) :
    ∃ session data n', n.filterArgs r.ctx r.type r.session r.data r.sz =
      some (session, data, pack r.sz (baseType r.type), n') ∧ Filtered n r session data n' := by
  have hnot : ¬(hasTag r.type PTYPE_TAG_ALLOCSESSION = true ∧ r.session ≠ 0) :=
    fun ⟨halloc, hne⟩ => hne (h halloc)
  have hcopy : (if (!hasTag r.type PTYPE_TAG_DONTCOPY) = true then
      r.data.map fun bytes => bytes.take r.sz ++ [0] else r.data).map (·.take r.sz) =
        r.data.map (·.take r.sz) := by
    split
    · rw [Option.map_map]
      refine Option.map_congr fun bytes hbytes => ?_
      have hlen : (bytes.take r.sz).length = r.sz := by
        rw [List.length_take, Nat.min_eq_left (hdata bytes hbytes)]
      exact List.take_left' hlen
    · rfl
  unfold Node.filterArgs
  rw [if_neg hnot]
  by_cases halloc : hasTag r.type PTYPE_TAG_ALLOCSESSION = true
  · rw [if_pos halloc]
    have hsame := n.newsession_same r.ctx
    have hpos := n.newsession_pos r.ctx
    have hhandle := fun i => (n.newsession_context r.ctx i).1
    have hcalls := n.newsession_calls r.ctx
    generalize n.newsession r.ctx = new at hsame hpos hhandle hcalls ⊢
    refine ⟨new.1, _, new.2, rfl, fun hno => ?_, fun _ => hpos, hcopy, hsame.1, hsame.2.1,
      hsame.2.2, hhandle, hcalls⟩
    exact absurd (halloc.symm.trans hno) (by decide)
  · rw [if_neg halloc]
    exact ⟨_, _, _, rfl, fun _ => rfl, fun hyes => absurd hyes halloc, hcopy, rfl, rfl, rfl,
      fun _ => rfl, fun _ => rfl⟩

theorem Filtered.grab {session : Int} {data : Buffer} (h : Filtered n r session data n')
    (handle : UInt32) : n'.grab handle = n.grab handle := by
  unfold Node.grab
  rw [h.storage, funext h.handle]

theorem Filtered.isremote {session : Int} {data : Buffer} (h : Filtered n r session data n')
    (handle : UInt32) : n'.isremote handle = n.isremote handle := by
  unfold Node.isremote
  rw [h.harbor]

/-! ## Each way a message can go -/

/-- The context that a handle finds has it. -/
theorem grab_handle {handle : UInt32} {i : Nat} (h : n.grab handle = some i) :
    (n.context i).handle = handle := by
  unfold Node.grab Handle.grab at h
  split at h
  · exact nomatch h
  · rename_i ctx _
    by_cases heq : (n.context ctx).handle = handle
    · rw [if_pos heq] at h
      obtain rfl := Option.some.inj h
      exact heq
    · rw [if_neg heq] at h
      exact nomatch h

/-- A local message, if its size has been compared with the mask. -/
theorem sameMessage_local {session : Int} {data : Buffer} {i : Nat} {source : UInt32}
    (h : Filtered n r session data n') (hsz : r.sz < 2 ^ 24)
    (hroute : n.route r.target = .handle (n.context i).handle) :
    SameMessage n r session i
        (dispatchMessage ⟨source, session, .buffer data, pack r.sz (baseType r.type)⟩) ↔
      baseType r.type < 128 := by
  simp only [SameMessage, dispatchMessage]
  constructor
  · rintro ⟨htype, -⟩
    by_contra hge
    have hsigned := signed_of_ge (Nat.le_of_not_lt hge) (baseType_lt r.type)
    have hneg := (messageType_signed hsigned r.sz).2
    rw [htype] at hneg
    exact absurd hneg (Int.not_lt.mpr (Int.natCast_nonneg _))
  · intro ht
    rw [messageType_pack ht hsz, messageSize_pack ht hsz]
    exact ⟨rfl, trivial, h.kept, hroute, rfl, h.data⟩

/-- A message to the harbor service, whatever its size. -/
theorem sameMessage_remote {session : Int} {data : Buffer} {i : Nat} {source : UInt32}
    {name : List Char} {handle : UInt32} (h : Filtered n r session data n')
    (hremote : n.remote = some i) :
    SameMessage n r session i (dispatchMessage ⟨source, session,
        .remote ⟨name, handle, data, messageSize (pack r.sz (baseType r.type))⟩,
        pack sizeofRemoteMessage (messageType (pack r.sz (baseType r.type)))⟩) ↔
      baseType r.type < 128 ∧ r.sz < 2 ^ 24 := by
  have hsmall : sizeofRemoteMessage < 2 ^ 24 := by decide
  simp only [SameMessage, dispatchMessage]
  constructor
  · rintro ⟨htype, -, -, -, hsize, -⟩
    have hsz : r.sz < 2 ^ 24 := by
      rw [← hsize, messageSize_eq]
      exact Nat.mod_lt _ (by decide)
    refine ⟨?_, hsz⟩
    by_contra hge
    have hsigned := signed_of_ge (Nat.le_of_not_lt hge) (baseType_lt r.type)
    obtain ⟨hlow, hneg⟩ := messageType_signed hsigned r.sz
    have hneg' := (messageType_signed (signed_of_neg hlow hneg) sizeofRemoteMessage).2
    rw [htype] at hneg'
    exact absurd hneg' (Int.not_lt.mpr (Int.natCast_nonneg _))
  · rintro ⟨ht, hsz⟩
    rw [messageType_pack ht hsz, messageType_pack ht hsmall, messageSize_pack ht hsz]
    exact ⟨rfl, trivial, h.kept, hremote, rfl, h.data⟩

/-- The condition under which a message to the harbor service is taken and arrives as it was. -/
theorem intact_remote {session : Int} {data : Buffer} {source : UInt32} {name : List Char}
    {handle : UInt32} (h : Filtered n r session data n')
    (hsubmit : n.submit r =
      (n'.harborSend ⟨name, handle, data, pack r.sz (baseType r.type)⟩ source session).bind
        fun m => some ⟨session, m, []⟩) :
    Intact n r ↔ baseType r.type < 128 ∧ r.sz < 2 ^ 24 ∧ n.Forwards (baseType r.type) := by
  unfold Node.harborSend at hsubmit
  unfold Node.Forwards
  rw [h.remote] at hsubmit
  cases hremote : n.remote with
  | none =>
      rw [hremote] at hsubmit
      exact iff_of_false (intact_aborted hsubmit) fun hall => absurd hall.2.2.1 (by decide)
  | some i =>
      rw [hremote] at hsubmit
      dsimp only at hsubmit
      by_cases hserves : messageType (pack r.sz (baseType r.type)) ≠ PTYPE_SYSTEM ∧
          messageType (pack r.sz (baseType r.type)) ≠ PTYPE_HARBOR
      · rw [if_pos hserves] at hsubmit
        rw [intact_pushed hsubmit h.calls, sameMessage_remote h hremote]
        refine ⟨fun hsent => ⟨hsent.1, hsent.2, rfl, ?_⟩, fun hall => ⟨hall.1, hall.2.1⟩⟩
        rw [messageType_pack hsent.1 hsent.2] at hserves
        exact hserves
      · rw [if_neg hserves] at hsubmit
        refine iff_of_false (intact_aborted hsubmit) fun hall => hserves ?_
        rw [messageType_pack hall.1 hall.2.1]
        exact hall.2.2.2

/-! ## Every message -/

/-- When a message to a handle passes. -/
def PassesTo (n : Node) (r : Request) (destination : UInt32) : Prop :=
  if r.sz < 2 ^ 24 then
    r.Unset ∧
      if destination = 0 then r.allocates = false ∧ r.session = -1
      else match n.isremote destination with
        | none => False
        | some true => baseType r.type < 128 ∧ n.Forwards (baseType r.type)
        | some false => (n.grab destination).isSome = true → baseType r.type < 128
  else True

/-- When a message passes: a type below 128, and for a global name a size below the mask. -/
def Passes (n : Node) (r : Request) : Prop :=
  match n.route r.target with
  | .unknown => True
  | .handle destination => PassesTo n r destination
  | .global _ => r.Unset ∧ baseType r.type < 128 ∧ r.sz < 2 ^ 24 ∧ n.Forwards (baseType r.type)

theorem intact_handle (hdata : ∀ bytes ∈ r.data, r.sz ≤ bytes.length) {destination source : UInt32}
    (hroute : n.route r.target = .handle destination)
    (hsubmit : n.submit r = n.send r.ctx source destination r.type r.session r.data r.sz) :
    Intact n r ↔ PassesTo n r destination := by
  unfold Node.send at hsubmit
  unfold PassesTo
  by_cases hsz : r.sz < 2 ^ 24
  · have hmask : ¬messageSize r.sz ≠ r.sz := not_not.mpr (messageSize_fits.mpr hsz)
    rw [if_neg hmask] at hsubmit
    rw [if_pos hsz]
    by_cases hunset : r.Unset
    · obtain ⟨session, data, n', hfilter, h⟩ := @filterArgs_some n r hunset hdata
      rw [hfilter] at hsubmit
      simp only [Option.bind_eq_bind, Option.bind_some, Option.pure_def] at hsubmit
      rw [h.isremote] at hsubmit
      rw [and_iff_right hunset]
      by_cases hzero : destination = 0
      · rw [if_pos hzero] at hsubmit ⊢
        rw [intact_unsent hsubmit h.calls]
        cases halloc : r.allocates with
        | false => rw [h.kept halloc, eq_self, true_and]
        | true =>
            have hpos := h.fresh halloc
            exact iff_of_false (by omega) nofun
      · rw [if_neg hzero] at hsubmit ⊢
        cases hharbor : n.isremote destination with
        | none =>
            rw [hharbor] at hsubmit
            exact iff_of_false (intact_aborted hsubmit) not_false
        | some remote =>
            rw [hharbor, Option.bind_some] at hsubmit
            cases remote with
            | true =>
                rw [if_pos rfl] at hsubmit
                rw [intact_remote h hsubmit]
                exact and_congr_right fun _ => and_iff_right hsz
            | false =>
                rw [if_neg Bool.false_ne_true] at hsubmit
                unfold Node.contextPush at hsubmit
                have hgrab : Handle.grab (fun ctx => (n'.context ctx).handle) destination
                  n'.storage = n.grab destination := h.grab destination
                rw [hgrab] at hsubmit
                dsimp only
                cases hfound : n.grab destination with
                | none =>
                    rw [hfound] at hsubmit
                    exact iff_of_true (intact_refused hsubmit h.calls) fun hall => nomatch hall
                | some i =>
                    rw [hfound] at hsubmit
                    have hroute' : n.route r.target = .handle (n.context i).handle :=
                      hroute.trans (congrArg Route.handle (grab_handle hfound).symm)
                    rw [intact_pushed hsubmit h.calls, sameMessage_local h hsz hroute']
                    exact ⟨fun ht _ => ht, fun hall => hall rfl⟩
    · rw [filterArgs_none hunset] at hsubmit
      exact iff_of_false (intact_aborted hsubmit) fun hall => hunset hall.1
  · have hmask : messageSize r.sz ≠ r.sz := fun heq => hsz (messageSize_fits.mp heq)
    rw [if_pos hmask] at hsubmit
    rw [if_neg hsz]
    exact iff_of_true (intact_refused hsubmit fun _ => rfl) trivial

/-- A message to a global name, for which no size is compared. -/
theorem intact_global (hdata : ∀ bytes ∈ r.data, r.sz ≤ bytes.length) {addr : String}
    {source : UInt32} (hsubmit : n.submit r =
      (n.filterArgs r.ctx r.type r.session r.data r.sz).bind fun a =>
        (a.2.2.2.harborSend ⟨copyName addr, 0, a.2.1, a.2.2.1⟩ source a.1).bind
          fun m => some ⟨a.1, m, []⟩) :
    Intact n r ↔ r.Unset ∧ baseType r.type < 128 ∧ r.sz < 2 ^ 24 ∧
      n.Forwards (baseType r.type) := by
  by_cases hunset : r.Unset
  · obtain ⟨session, data, n', hfilter, h⟩ := @filterArgs_some n r hunset hdata
    rw [hfilter, Option.bind_some] at hsubmit
    rw [intact_remote h hsubmit, and_iff_right hunset]
  · rw [filterArgs_none hunset] at hsubmit
    exact iff_of_false (intact_aborted hsubmit) fun hall => hunset hall.1

theorem Node.route_dot {addr : String} {name : List Char} (h : addr.toList = '.' :: name) :
    n.route (.name addr) = if findname n.storage (String.ofList name) = 0 then .unknown
      else .handle (findname n.storage (String.ofList name)) := by
  rw [Node.route, h]
  rfl

theorem Node.route_global {addr : String} (hcolon : ∀ hex, addr.toList ≠ ':' :: hex)
    (hdot : ∀ name, addr.toList ≠ '.' :: name) : n.route (.name addr) = .global addr := by
  rw [Node.route]
  split
  · rename_i hlist
    exact absurd hlist (hcolon _)
  · rename_i hlist
    exact absurd hlist (hdot _)
  · rfl

/-- Exactly these messages are refused or arrive as they were sent. -/
theorem intact_iff (n : Node) (r : Request) (hdata : ∀ bytes ∈ r.data, r.sz ≤ bytes.length) :
    Intact n r ↔ Passes n r := by
  unfold Passes
  cases htarget : r.target with
  | handle destination =>
      have hsubmit : n.submit r =
          n.send r.ctx r.source destination r.type r.session r.data r.sz := by
        unfold Node.submit
        rw [htarget]
      have hroute : n.route r.target = .handle destination := by
        rw [htarget]
        rfl
      exact intact_handle hdata hroute hsubmit
  | name addr =>
      have hsubmit : n.submit r =
          n.sendname r.ctx r.source addr r.type r.session r.data r.sz := by
        unfold Node.submit
        rw [htarget]
      have hroute : n.route r.target = n.route (.name addr) := by rw [htarget]
      unfold Node.sendname at hsubmit
      generalize (if r.source = 0 then (n.context r.ctx).handle else r.source) = source at hsubmit
      dsimp only at hsubmit
      split at hsubmit
      · rename_i hex hlist
        rw [Node.route, hlist] at hroute ⊢
        exact intact_handle hdata hroute hsubmit
      · rename_i name hlist
        rw [Node.route_dot hlist] at hroute ⊢
        by_cases hzero : findname n.storage (String.ofList name) = 0
        · rw [if_pos hzero] at hsubmit ⊢
          exact iff_of_true (intact_refused hsubmit fun _ => rfl) trivial
        · rw [if_neg hzero] at hroute hsubmit ⊢
          exact intact_handle hdata hroute hsubmit
      · rename_i hcolon hdot
        rw [Node.route_global hcolon hdot]
        exact intact_global hdata hsubmit

/-- A node of harbor 1 with one service, which is the harbor service too. -/
def oneService : Node where
  storage := Handle.store (Handle.init 1) 1 0
  context := fun _ => ⟨0x1000001, 0, .empty 64 (by decide) ⟨0, 0, .buffer none, 0⟩⟩
  remote := some 0
  harbor := 0x1000000

/-- The byte `A` from the service to itself. -/
def toItself (type : Int) : Request :=
  ⟨0, 0, .handle 0x1000001, type, 0, some [65], 1⟩

theorem intact_iff_text : Intact oneService (toItself 0) ∧ Passes oneService (toItself 0) := by
  have hpasses : Passes oneService (toItself 0) := by
    show PassesTo oneService (toItself 0) 0x1000001
    have hlocal : oneService.isremote 0x1000001 = some false := by decide
    unfold PassesTo
    rw [if_pos (by decide), if_neg (by decide), hlocal]
    exact ⟨fun _ => rfl, fun _ => by decide⟩
  refine ⟨(intact_iff oneService (toItself 0) ?_).mpr hpasses, hpasses⟩
  intro bytes hbytes
  obtain rfl := Option.some.inj hbytes
  exact Nat.le_refl 1

/-- A message of 2 ^ 24 bytes to a global name. -/
def large : Request :=
  ⟨0, 0, .name "master", 0, 0, some (List.replicate (2 ^ 24) 0), 2 ^ 24⟩

/-- A type of 128 arrives as another one, and a payload of 2 ^ 24 bytes as an empty one. -/
theorem not_intact : ¬Intact oneService (toItself 128) ∧ ¬Intact oneService large := by
  constructor
  · have hdata : ∀ bytes ∈ (toItself 128).data, (toItself 128).sz ≤ bytes.length := by
      intro bytes hbytes
      obtain rfl := Option.some.inj hbytes
      exact Nat.le_refl 1
    rw [intact_handle hdata rfl rfl]
    have hlocal : oneService.isremote 0x1000001 = some false := by decide
    unfold PassesTo
    rw [if_pos (by decide), if_neg (by decide), hlocal]
    exact fun hall => absurd (hall.2 (by decide)) (by decide)
  · have hdata : ∀ bytes ∈ large.data, large.sz ≤ bytes.length := by
      intro bytes hbytes
      obtain rfl := Option.some.inj hbytes
      rw [List.length_replicate]
      exact Nat.le_refl _
    rw [intact_global hdata rfl]
    exact fun hall => absurd hall.2.2.1 (Nat.lt_irrefl _)

end Jump.Skynet.Sending
