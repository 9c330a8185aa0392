import Jump.Zone.Packet

/-! # What a packet makes the services read

The dispatcher reads the head of a packet without a look at its length, and the
length of the body is the one the client wrote.
-/

namespace Jump.Zone

open Jump.Core Jump.Core.Bytes

section Header

variable {s bytes : List UInt8} {id : Nat}

theorem blank_notMem_decimal (id : Nat) : blank ∉ decimal id := by
  intro hmem
  obtain ⟨c, hc, hblank⟩ := List.mem_map.mp hmem
  have hdigit := Nat.isDigit_of_mem_toDigits (by decide) (by decide) hc
  have hrange : 48 ≤ c.toNat ∧ c.toNat ≤ 57 := by
    simpa [Char.isDigit, UInt32.le_iff_toNat_le] using hdigit
  have hbyte : c.toNat % 256 = 32 := by
    have hnat := congrArg UInt8.toNat hblank
    rwa [UInt8.toNat_ofNat'] at hnat
  omega

theorem decimal_ne_nil (id : Nat) : decimal id ≠ [] := by
  unfold decimal
  rw [ne_eq, List.map_eq_nil_iff]
  exact Nat.toDigits_ne_nil

theorem scanHeader_blank {spaceCounter : Nat} (hs : blank ∉ s) (hcount : spaceCounter < 2) :
    scanHeader (s ++ blank :: bytes) spaceCounter =
      ((scanHeader bytes (spaceCounter + 1)).1,
        s.length + 1 + (scanHeader bytes (spaceCounter + 1)).2) := by
  induction s with
  | nil => simp [scanHeader, hcount, Nat.add_comm]
  | cons c s ih =>
      have hc : c ≠ blank := by
        rintro rfl
        exact hs List.mem_cons_self
      have hrest := ih fun h => hs (List.mem_cons_of_mem c h)
      simp only [List.cons_append, scanHeader, if_pos hcount, if_neg hc, hrest, List.length_cons]
      rw [Prod.mk.injEq]
      exact ⟨rfl, by omega⟩

/-- What `_forward` puts before the packet. -/
def preamble (id : Nat) : List UInt8 := decimal id ++ ofText " data "

theorem preamble_eq (id : Nat) :
    preamble id = decimal id ++ blank :: (ofText "data" ++ blank :: []) := rfl

theorem scanHeader_preamble (id : Nat) (payload : List UInt8) :
    scanHeader (preamble id ++ payload) 0 = (2, (preamble id).length) := by
  have happend : preamble id ++ payload =
      decimal id ++ blank :: (ofText "data" ++ blank :: payload) := by
    rw [preamble_eq]
    simp
  have hlast : scanHeader payload 2 = (2, 0) := by
    cases payload <;> rfl
  rw [happend, scanHeader_blank (blank_notMem_decimal id) (by decide),
    scanHeader_blank (by decide) (by decide), hlast, preamble_eq]
  simp
  omega

theorem sepstr_preamble (id : Nat) :
    sepstr (preamble id) blank = [decimal id, ofText "data"] := by
  have hsep : ∀ {t : List UInt8}, blank ∉ t → ∀ x ∈ t, (x == blank) = false := by
    intro t ht x hx
    rw [beq_eq_false_iff_ne]
    rintro rfl
    exact ht hx
  unfold sepstr List.splitOn
  rw [preamble_eq, List.splitOnP_append_cons_of_forall_mem (hsep (blank_notMem_decimal id)) blank
    (by decide), List.splitOnP_append_cons_of_forall_mem (hsep (by decide)) blank (by decide)]
  have hne := decimal_ne_nil id
  simp [List.filter, hne]
  decide

end Header

section Head

open PkgHead

theorem ntohl_lt (v : Nat) : ntohl v < 256 ^ 4 := by
  unfold ntohl
  omega

/-- The fields that the game service uses, after the dispatcher has changed the head. -/
theorem load_unpacked (m : Memory) (p fd : Nat) :
    load (store (unpack m p) 4 (p + clientFdAt) fd) 4 (p + cmdAt) =
        ntohl (load m 4 (p + cmdAt)) ∧
      load (store (unpack m p) 4 (p + clientFdAt) fd) 4 (p + bodyLenAt) =
        ntohl (load m 4 (p + bodyLenAt)) := by
  unfold unpack ttlAt cmdAt clientFdAt bodyLenAt
  constructor
  · rw [load_store_frame (by omega), load_store_frame (by omega), load_store,
      load_store_frame (by omega), Nat.mod_eq_of_lt (ntohl_lt _)]
  · rw [load_store_frame (by omega), load_store, load_store_frame (by omega),
      load_store_frame (by omega), Nat.mod_eq_of_lt (ntohl_lt _)]

/-- A field of the head as the client wrote it. -/
def clientField (payload : List UInt8) (p : Nat) : Nat :=
  ntohl (load (ofList payload fun _ => 0) 4 p)

theorem load_payload {pre payload : List UInt8} {behind : Memory} {p : Nat}
    (hp : p + 4 ≤ payload.length) : ntohl (load (ofList (pre ++ payload) behind) 4
      (pre.length + p)) = clientField payload p := by
  unfold clientField
  congr 1
  apply load_shift
  intro i hi
  rw [Nat.add_assoc, ofList_append_right pre payload behind (by omega : p + i < payload.length)]
  unfold ofList
  rw [List.getElem?_eq_getElem (by omega : p + i < payload.length)]
  rfl

theorem load_copy (m behind : Memory) (p : Nat) {len q : Nat} (hq : q + 4 ≤ len) :
    load (ofList (slice m p len) behind) 4 q = load m 4 (p + q) := by
  apply load_shift
  intro i hi
  rw [ofList_slice m behind p (by omega : q + i < len), Nat.add_assoc]

end Head

/-- Register or Login is asked for, and the game service is there to get the message. -/
def Parsed (env : Env) (payload : List UInt8) : Prop :=
  (clientField payload PkgHead.cmdAt = CMD_REG_REQ ∨
      clientField payload PkgHead.cmdAt = CMD_LOGIN_REQ) ∧
    0 < toInt env.game ∧
    skynetSend env (uint32OfInt (toInt env.game)) payload.length = true

/-- The packet gets to the dispatcher. -/
def Dispatched (env : Env) (id : Nat) (payload : List UInt8) : Prop :=
  0 < payload.length ∧ payload.length < 0x1000000 ∧
    skynetSend env env.watchdog ((preamble id).length + payload.length) = true

theorem inside_nil : Inside [] := by
  intro hop hhop
  cases hhop

theorem inside_cons {hop : Nat × List Access} {hops : List (Nat × List Access)} :
    Inside (hop :: hops) ↔ (∀ a ∈ hop.2, a.Inside hop.1) ∧ Inside hops :=
  List.forall_mem_cons

section Hops

variable {env : Env} {id : Nat} {payload : List UInt8} {behind behind' : Memory}

theorem forward_none (h : ¬ Dispatched env id payload) :
    forward env id payload behind = none := by
  unfold Dispatched at h
  unfold forward
  split
  · rfl
  · rename_i hlen
    rw [not_or, not_le] at hlen
    have hsend : skynetSend env env.watchdog
        (decimal id ++ ofText " data " ++ payload).length ≠ true := by
      rw [List.length_append]
      exact fun hsend => h ⟨Nat.pos_of_ne_zero hlen.1, hlen.2, hsend⟩
    rw [if_neg hsend]

theorem forward_some (h : Dispatched env id payload) :
    forward env id payload behind = some ⟨preamble id ++ payload, behind⟩ := by
  obtain ⟨hpos, hlt, hsend⟩ := h
  have hlen : ¬ (payload.length = 0 ∨ 0x1000000 ≤ payload.length) := by omega
  rw [← List.length_append] at hsend
  unfold forward
  rw [if_neg hlen]
  exact if_pos hsend

/-- The bytes that `dispatch` looks at before it sends the packet on. -/
def headAccesses (n : Nat) : List Access :=
  [⟨0, n⟩] ++ (PkgHead.unpackAccesses n ++
    [⟨n + PkgHead.clientFdAt, 4⟩, ⟨n + PkgHead.cmdAt, 4⟩])

/-- The memory of the message after `dispatch`. -/
def dispatched (id : Nat) (payload : List UInt8) (behind : Memory) : Memory :=
  store (PkgHead.unpack (ofList (preamble id ++ payload) behind) (preamble id).length) 4
    ((preamble id).length + PkgHead.clientFdAt) (strto (decimal id))

/-- `dispatch` sends the packet to the game service. -/
def Routed (env : Env) (id : Nat) (payload : List UInt8) (behind : Memory) : Prop :=
  getCmdSvrType (load (dispatched id payload behind) 4
    ((preamble id).length + PkgHead.cmdAt)) = LOGIN_SVR ∧ 0 < toInt env.game

instance : Decidable (Routed env id payload behind) := by
  unfold Routed
  infer_instance

theorem dispatch_preamble (h : payload.length ≤ HANDLE_MASK) :
    dispatch env ⟨preamble id ++ payload, behind⟩ =
      if Routed env id payload behind then
        ⟨headAccesses (preamble id).length ++ [⟨(preamble id).length, payload.length⟩],
          if skynetSend env (uint32OfInt (toInt env.game)) payload.length then
            some (slice (dispatched id payload behind) (preamble id).length payload.length)
          else none⟩
      else ⟨headAccesses (preamble id).length, none⟩ := by
  have hlen : (⟨preamble id ++ payload, behind⟩ : Message).sz - (preamble id).length =
      payload.length := by
    rw [Message.sz, List.length_append, Nat.add_sub_cancel_left]
  unfold dispatch
  simp only [scanHeader_preamble, List.take_left, sepstr_preamble, hlen]
  have hmemory : store (PkgHead.unpack (Message.memory ⟨preamble id ++ payload, behind⟩)
      (preamble id).length) 4 ((preamble id).length + PkgHead.clientFdAt)
      (strto ([decimal id, ofText "data"].headD [])) = dispatched id payload behind := rfl
  rw [hmemory]
  by_cases hcmd : getCmdSvrType (load (dispatched id payload behind) 4
      ((preamble id).length + PkgHead.cmdAt)) = LOGIN_SVR
  · by_cases hgame : 0 < toInt env.game
    · simp [Routed, hcmd, hgame, h, headAccesses]
    · simp [Routed, hcmd, hgame, headAccesses]
  · simp [Routed, hcmd, headAccesses]

theorem inside_head {n len : Nat} :
    (∀ a ∈ headAccesses n, a.Inside (n + len)) ↔ PkgHead.size ≤ len := by
  unfold headAccesses PkgHead.unpackAccesses Access.Inside PkgHead.size PkgHead.ttlAt
    PkgHead.cmdAt PkgHead.bodyLenAt PkgHead.clientFdAt
  simp only [List.cons_append, List.nil_append, List.forall_mem_cons]
  constructor
  · intro h
    omega
  · intro h
    refine ⟨by omega, by omega, by omega, by omega, by omega, by omega, by simp⟩

theorem dispatched_cmd (h : PkgHead.size ≤ payload.length) :
    load (dispatched id payload behind) 4 ((preamble id).length + PkgHead.cmdAt) =
      clientField payload PkgHead.cmdAt := by
  rw [dispatched, (load_unpacked _ _ _).1]
  exact load_payload (Nat.le_trans (by decide) h)

theorem dispatched_bodyLen (h : PkgHead.size ≤ payload.length) :
    load (dispatched id payload behind) 4 ((preamble id).length + PkgHead.bodyLenAt) =
      clientField payload PkgHead.bodyLenAt := by
  rw [dispatched, (load_unpacked _ _ _).2]
  exact load_payload (Nat.le_trans (by decide) h)

/-- What the game service reads of the packet. -/
theorem inside_game (h : PkgHead.size ≤ payload.length) :
    (∀ a ∈ gameCallback ⟨slice (dispatched id payload behind) (preamble id).length
        payload.length, behind'⟩, a.Inside payload.length) ↔
      ((clientField payload PkgHead.cmdAt = CMD_REG_REQ ∨
          clientField payload PkgHead.cmdAt = CMD_LOGIN_REQ) →
        toInt (clientField payload PkgHead.bodyLenAt) ≤
          (payload.length : Int) - PkgHead.size) := by
  have hcmd : load (ofList (slice (dispatched id payload behind) (preamble id).length
      payload.length) behind') 4 (0 + PkgHead.cmdAt) = clientField payload PkgHead.cmdAt := by
    rw [Nat.zero_add, load_copy _ _ _ (Nat.le_trans (by decide) h), dispatched_cmd h]
  have hbody : load (ofList (slice (dispatched id payload behind) (preamble id).length
      payload.length) behind') 4 (0 + PkgHead.bodyLenAt) =
        clientField payload PkgHead.bodyLenAt := by
    rw [Nat.zero_add, load_copy _ _ _ (Nat.le_trans (by decide) h), dispatched_bodyLen h]
  have hhead : Access.Inside payload.length ⟨0, PkgHead.size⟩ := by
    right
    rw [Nat.zero_add]
    exact h
  have hparse : (parseFromArray PkgHead.size (toInt (clientField payload
      PkgHead.bodyLenAt))).Inside payload.length ↔
        toInt (clientField payload PkgHead.bodyLenAt) ≤
          (payload.length : Int) - PkgHead.size := by
    simp only [Access.Inside, parseFromArray]
    omega
  unfold gameCallback cmdDispatch registerInit loginEnter PkgHead.read Message.memory
  simp only [hcmd, hbody, List.forall_mem_cons, hhead, true_and]
  by_cases hreg : clientField payload PkgHead.cmdAt = CMD_REG_REQ
  · simp [hreg, hparse]
  · by_cases hlogin : clientField payload PkgHead.cmdAt = CMD_LOGIN_REQ
    · have hne : CMD_LOGIN_REQ ≠ CMD_REG_REQ := by decide
      simp [hlogin, hne, hparse]
    · simp [hreg, hlogin]

section Process

variable (hdisp : Dispatched env id payload)

include hdisp

theorem process_stays (h : ¬ Routed env id payload behind) :
    process env id payload behind behind' =
      [((preamble id).length + payload.length, headAccesses (preamble id).length)] := by
  have hlen : payload.length ≤ HANDLE_MASK := Nat.le_of_lt_succ hdisp.2.1
  rw [process, forward_some hdisp]
  simp only [dispatch_preamble hlen, if_neg h]
  rw [Message.sz, List.length_append]

theorem process_lost (h : Routed env id payload behind)
    (hsend : skynetSend env (uint32OfInt (toInt env.game)) payload.length ≠ true) :
    process env id payload behind behind' =
      [((preamble id).length + payload.length,
        headAccesses (preamble id).length ++ [⟨(preamble id).length, payload.length⟩])] := by
  have hlen : payload.length ≤ HANDLE_MASK := Nat.le_of_lt_succ hdisp.2.1
  rw [process, forward_some hdisp]
  simp only [dispatch_preamble hlen, if_pos h, if_neg hsend]
  rw [Message.sz, List.length_append]

theorem process_sent (h : Routed env id payload behind)
    (hsend : skynetSend env (uint32OfInt (toInt env.game)) payload.length = true) :
    process env id payload behind behind' =
      [((preamble id).length + payload.length,
        headAccesses (preamble id).length ++ [⟨(preamble id).length, payload.length⟩]),
        (payload.length, gameCallback ⟨slice (dispatched id payload behind)
          (preamble id).length payload.length, behind'⟩)] := by
  have hlen : payload.length ≤ HANDLE_MASK := Nat.le_of_lt_succ hdisp.2.1
  rw [process, forward_some hdisp]
  simp only [dispatch_preamble hlen, if_pos h, if_pos hsend, slice_length]
  rw [Message.sz, List.length_append]

/-- The dispatcher reads the head of a short packet all the same. -/
theorem not_inside_short (h : ¬ PkgHead.size ≤ payload.length) :
    ¬ Inside (process env id payload behind behind') := by
  have hhead : ∀ accesses : List Access, ∀ hops, ¬ Inside
      (((preamble id).length + payload.length, headAccesses (preamble id).length ++ accesses) ::
        hops) := by
    intro accesses hops hinside
    have hfirst := hinside _ List.mem_cons_self
    exact h (inside_head.mp fun a ha => hfirst a (List.mem_append_left accesses ha))
  by_cases hroute : Routed env id payload behind
  · by_cases hsend : skynetSend env (uint32OfInt (toInt env.game)) payload.length = true
    · rw [process_sent hdisp hroute hsend]
      exact hhead _ _
    · rw [process_lost hdisp hroute hsend]
      exact hhead _ _
  · rw [process_stays hdisp hroute, ← List.append_nil (headAccesses _)]
    exact hhead _ _

theorem inside_whole (h : PkgHead.size ≤ payload.length) :
    Inside (process env id payload behind behind') ↔
      (Parsed env payload → toInt (clientField payload PkgHead.bodyLenAt) ≤
        (payload.length : Int) - PkgHead.size) := by
  have hinside : ∀ a ∈ headAccesses (preamble id).length,
      a.Inside ((preamble id).length + payload.length) := inside_head.mpr h
  have hcopied : ∀ a ∈ headAccesses (preamble id).length ++
      [⟨(preamble id).length, payload.length⟩],
        a.Inside ((preamble id).length + payload.length) := by
    intro a ha
    rcases List.mem_append.mp ha with ha | ha
    · exact hinside a ha
    · rw [List.mem_singleton.mp ha]
      exact Or.inr (Nat.le_refl _)
  have hrouted : Routed env id payload behind ↔
      getCmdSvrType (clientField payload PkgHead.cmdAt) = LOGIN_SVR ∧ 0 < toInt env.game := by
    rw [Routed, dispatched_cmd h]
  by_cases hroute : Routed env id payload behind
  · by_cases hsend : skynetSend env (uint32OfInt (toInt env.game)) payload.length = true
    · rw [process_sent hdisp hroute hsend, inside_cons, inside_cons, inside_game h]
      simp only [Parsed, hrouted.mp hroute, hsend, and_true]
      simp only [inside_nil, and_true]
      exact ⟨fun hall => hall.2, fun hgame => ⟨hcopied, hgame⟩⟩
    · rw [process_lost hdisp hroute hsend, inside_cons]
      have hparsed : ¬ Parsed env payload := fun hparsed => hsend hparsed.2.2
      simp only [hparsed, false_implies, inside_nil, and_true, iff_true]
      exact hcopied
  · rw [process_stays hdisp hroute, inside_cons]
    have hparsed : ¬ Parsed env payload := by
      rintro ⟨hcmd, hgame, -⟩
      refine hroute (hrouted.mpr ⟨?_, hgame⟩)
      rcases hcmd with hcmd | hcmd <;> rw [hcmd] <;> decide
    simp only [hparsed, false_implies, inside_nil, and_true, iff_true]
    exact hinside

end Process

end Hops

/-- A packet is handled inside its messages exactly when it has a whole head and, where its
body is parsed, the length in the head is not more than what is there. -/
theorem inside_iff (env : Env) (id : Nat) (payload : List UInt8) (behind behind' : Memory) :
    Inside (process env id payload behind behind') ↔
      (Dispatched env id payload → PkgHead.size ≤ payload.length ∧
        (Parsed env payload → toInt (clientField payload PkgHead.bodyLenAt) ≤
          (payload.length : Int) - PkgHead.size)) := by
  by_cases hdisp : Dispatched env id payload
  · simp only [hdisp, true_implies]
    by_cases hhead : PkgHead.size ≤ payload.length
    · simp only [inside_whole hdisp hhead, hhead, true_and]
    · simp only [not_inside_short hdisp hhead, hhead, false_and]
  · rw [process, forward_none hdisp]
    simp [Inside, hdisp]

/-- A packet of one byte, with a game service and a dispatcher that get every message. -/
theorem one_byte_not_inside :
    ¬ Inside (process ⟨1, 2, fun _ => true⟩ 7 [0] (fun _ => 0) fun _ => 0) := by
  decide +kernel

end Jump.Zone
