import Jump.Skynet.Handle.Names
import Jump.Zone.Packet
import Jump.Zone.Reads

/-! # Where the dispatcher sends a packet

`dispatcher::dispatch` with the calls of `skynet_send` that it makes. The handle of the game
service is compared as an `int32_t`, and the head goes on as `unpack` leaves it.
-/

namespace Jump.Zone

open Jump.Core Jump.Core.Bytes
open Jump.Skynet.Handle

/-- `skynet_send(ctx, 0, destination, PTYPE_TEXT, 0, data)` -/
structure Call where
  destination : Nat
  data : List UInt8
deriving DecidableEq

/-- `dispatcher::dispatch`, with the table of names that `skynet_handle_findname` looks into -/
def dispatchCalls (names : NameTable) (msg : Message) : List Call :=
  let r := scanHeader msg.bytes 0
  let headerIndex := r.2
  let vExtHead := sepstr (msg.bytes.take headerIndex) blank
  if vExtHead.length < 2 then []
  else if r.1 = 2 ∧ vExtHead[1]? = some (ofText "data") then
    let unpacked := PkgHead.unpack msg.memory headerIndex
    let memory := store unpacked 4 (headerIndex + PkgHead.clientFdAt)
      (strto (vExtHead.headD []))
    let pkgLen := msg.sz - headerIndex
    let cmdType := getCmdSvrType (load memory 4 (headerIndex + PkgHead.cmdAt))
    let module : Int :=
      if cmdType = LOGIN_SVR then toInt (names.findname (ofText "game")).toNat else 0
    if 0 < module then [⟨uint32OfInt module, slice memory headerIndex pkgLen⟩]
    else []
  else []

/-- The message that the game service gets is the one of these calls that `skynet_send` gets
through. -/
theorem dispatch_sent {env : Env} {names : NameTable} {msg : Message}
    (hgame : env.game = (names.findname (ofText "game")).toNat) :
    (dispatch env msg).sent = ((dispatchCalls names msg).find?
      fun call => skynetSend env call.destination call.data.length).map Call.data := by
  unfold dispatch dispatchCalls
  dsimp only
  rw [hgame]
  split
  · rfl
  · split
    · generalize (if getCmdSvrType _ = LOGIN_SVR then
        toInt (names.findname (ofText "game")).toNat else (0 : Int)) = module
      by_cases hpos : 0 < module
      · rw [if_pos hpos, if_pos hpos, List.find?_singleton]
        dsimp only
        rw [slice_length]
        by_cases hlen : msg.sz - (scanHeader msg.bytes 0).2 ≤ HANDLE_MASK
        · rw [if_pos hlen]
          dsimp only
          cases skynetSend env (uint32OfInt module) (msg.sz - (scanHeader msg.bytes 0).2) with
          | true => rfl
          | false => rfl
        · have hlost : skynetSend env (uint32OfInt module)
              (msg.sz - (scanHeader msg.bytes 0).2) = false := by
            unfold skynetSend
            rw [decide_eq_false hlen]
            rfl
          rw [if_neg hlen, hlost]
          rfl
      · rw [if_neg hpos, if_neg hpos]
        rfl
    · rfl

/-! ## The bytes of the packet -/

/-- The bytes of a packet whose head has its numbers the other way round, with `fd` for
`client_fd` and `ret` done to the bytes of `ret`. -/
def turned (ret : List UInt8 → List UInt8) (fd : Nat) (payload : List UInt8) : List UInt8 :=
  (payload.take 2).reverse ++ (((payload.drop 2).take 2) ++ (((payload.drop 4).take 4).reverse ++
    (LittleEndian.encode 4 fd ++ (ret ((payload.drop 12).take 4) ++
      (((payload.drop 16).take 4).reverse ++ payload.drop 20)))))

/-- The packet with its head in host order -/
def hostOrder (fd : Nat) (payload : List UInt8) : List UInt8 := turned List.reverse fd payload

/-- The packet with its head as `unpack` leaves it -/
def unpackOrder (fd : Nat) (payload : List UInt8) : List UInt8 := turned id fd payload

/-- The bytes of `ret` are the same from both ends. -/
def RetMirrored (payload : List UInt8) : Prop :=
  ((payload.drop 12).take 4).reverse = (payload.drop 12).take 4

instance (payload : List UInt8) : Decidable (RetMirrored payload) := by
  unfold RetMirrored
  infer_instance

section Turned

variable {b : List UInt8} {fd : Nat} {payload : List UInt8}

theorem encode_ntohs (hb : b.length = 2) :
    LittleEndian.encode 2 (PkgHead.ntohs (LittleEndian.decode b)) = b.reverse := by
  obtain ⟨x, y, rfl⟩ := List.length_eq_two.mp hb
  have hx := x.toNat_lt
  have hy := y.toNat_lt
  have hv : PkgHead.ntohs (LittleEndian.decode [x, y]) = y.toNat + 256 * x.toNat := by
    simp only [LittleEndian.decode, PkgHead.ntohs]
    omega
  have hlow : UInt8.ofNat (y.toNat + 256 * x.toNat) = y := by
    rw [← UInt8.toNat_inj, UInt8.toNat_ofNat']
    omega
  have hhigh : UInt8.ofNat ((y.toNat + 256 * x.toNat) / 256) = x := by
    rw [← UInt8.toNat_inj, UInt8.toNat_ofNat']
    omega
  rw [hv]
  simp only [LittleEndian.encode, hlow, hhigh]
  rfl

theorem encode_ntohl (hb : b.length = 4) :
    LittleEndian.encode 4 (PkgHead.ntohl (LittleEndian.decode b)) = b.reverse := by
  match b, hb with
  | [x, y, z, w], _ =>
      have hx := x.toNat_lt
      have hy := y.toNat_lt
      have hz := z.toNat_lt
      have hw := w.toNat_lt
      have hbytes : LittleEndian.decode [x, y, z, w] =
          w.toNat * 16777216 + z.toNat * 65536 + y.toNat * 256 + x.toNat := by
        simp only [LittleEndian.decode]
        omega
      have hv : PkgHead.ntohl (LittleEndian.decode [x, y, z, w]) =
          w.toNat + 256 * (z.toNat + 256 * (y.toNat + 256 * x.toNat)) := by
        rw [hbytes, Header.ntohl_bytes hw hz hy hx]
        omega
      have hbyte : ∀ (c : UInt8) (n : Nat), UInt8.ofNat (c.toNat + 256 * n) = c := by
        intro c n
        have hc := c.toNat_lt
        rw [← UInt8.toNat_inj, UInt8.toNat_ofNat']
        omega
      have hdiv : ∀ (c : UInt8) (n : Nat), (c.toNat + 256 * n) / 256 = n := by
        intro c n
        have hc := c.toNat_lt
        omega
      rw [hv]
      simp only [LittleEndian.encode, hdiv, hbyte, UInt8.ofNat_toNat]
      rfl

theorem turned_iff : unpackOrder fd payload = hostOrder fd payload ↔ RetMirrored payload := by
  unfold unpackOrder hostOrder turned RetMirrored
  rw [List.append_cancel_left_eq, List.append_cancel_left_eq, List.append_cancel_left_eq,
    List.append_cancel_left_eq, List.append_cancel_right_eq]
  exact eq_comm

/-- The fields of a head and what comes after it. -/
theorem exists_fields (h : PkgHead.size ≤ payload.length) : ∃ ttl pad cmd clientFd ret bodyLen body,
    payload = ttl ++ (pad ++ (cmd ++ (clientFd ++ (ret ++ (bodyLen ++ body))))) ∧
      ttl.length = 2 ∧ pad.length = 2 ∧ cmd.length = 4 ∧ clientFd.length = 4 ∧ ret.length = 4 ∧
      bodyLen.length = 4 := by
  unfold PkgHead.size at h
  refine ⟨payload.take 2, (payload.drop 2).take 2, (payload.drop 4).take 4,
    (payload.drop 8).take 4, (payload.drop 12).take 4, (payload.drop 16).take 4, payload.drop 20,
    ?_, ?_, ?_, ?_, ?_, ?_, ?_⟩
  · have hcut : ∀ p q, payload.drop p = (payload.drop p).take q ++ payload.drop (p + q) := by
      intro p q
      rw [← List.drop_drop, List.take_append_drop]
    rw [← hcut 16 4, ← hcut 12 4, ← hcut 8 4, ← hcut 4 4, ← hcut 2 2, List.take_append_drop]
  · rw [List.length_take]
    omega
  · rw [List.length_take, List.length_drop]
    omega
  · rw [List.length_take, List.length_drop]
    omega
  · rw [List.length_take, List.length_drop]
    omega
  · rw [List.length_take, List.length_drop]
    omega
  · rw [List.length_take, List.length_drop]
    omega

theorem ntohs_ofList {pre rest : List UInt8} {behind : Memory} {p : Nat} (hb : b.length = 2)
    (hp : pre.length = p) : store (ofList (pre ++ (b ++ rest)) behind) 2 p
        (PkgHead.ntohs (load (ofList (pre ++ (b ++ rest)) behind) 2 p)) =
      ofList (pre ++ (b.reverse ++ rest)) behind := by
  have hstore := store_ofList pre b rest behind
  have hload := load_ofList pre b rest behind
  rw [hb, hp] at hstore hload
  rw [hload, hstore, encode_ntohs hb]

theorem ntohl_ofList {pre rest : List UInt8} {behind : Memory} {p : Nat} (hb : b.length = 4)
    (hp : pre.length = p) : store (ofList (pre ++ (b ++ rest)) behind) 4 p
        (PkgHead.ntohl (load (ofList (pre ++ (b ++ rest)) behind) 4 p)) =
      ofList (pre ++ (b.reverse ++ rest)) behind := by
  have hstore := store_ofList pre b rest behind
  have hload := load_ofList pre b rest behind
  rw [hb, hp] at hstore hload
  rw [hload, hstore, encode_ntohl hb]

/-- `unpack` and the id of the connection, in the bytes of the message. -/
theorem unpack_ofList {pre : List UInt8} {behind : Memory} (h : PkgHead.size ≤ payload.length) :
    store (PkgHead.unpack (ofList (pre ++ payload) behind) pre.length) 4
        (pre.length + PkgHead.clientFdAt) fd =
      ofList (pre ++ unpackOrder fd payload) behind := by
  obtain ⟨ttl, pad, cmd, clientFd, ret, bodyLen, body, rfl, httl, hpad, hcmd, hfd, hret, hbody⟩ :=
    exists_fields h
  have hturned : unpackOrder fd
      (ttl ++ (pad ++ (cmd ++ (clientFd ++ (ret ++ (bodyLen ++ body)))))) =
        ttl.reverse ++ (pad ++ (cmd.reverse ++ (LittleEndian.encode 4 fd ++ (ret ++
          (bodyLen.reverse ++ body))))) := by
    simp [unpackOrder, turned, List.drop_append, List.drop_of_length_le, *]
  have hfirst : PkgHead.unpack (ofList (pre ++
      (ttl ++ (pad ++ (cmd ++ (clientFd ++ (ret ++ (bodyLen ++ body))))))) behind) pre.length =
        ofList (pre ++ ttl.reverse ++ pad ++ cmd.reverse ++ (clientFd ++
          (ret ++ (bodyLen.reverse ++ body)))) behind := by
    have hcmdAt : (pre ++ ttl.reverse ++ pad).length = pre.length + PkgHead.cmdAt := by
      simp [PkgHead.cmdAt, httl, hpad]
    have hbodyAt : (pre ++ ttl.reverse ++ pad ++ cmd.reverse ++ clientFd ++ ret).length =
        pre.length + PkgHead.bodyLenAt := by
      simp [PkgHead.bodyLenAt, httl, hpad, hcmd, hfd, hret]
    unfold PkgHead.unpack
    dsimp only
    have httlAt : pre.length = pre.length + PkgHead.ttlAt := rfl
    rw [ntohs_ofList httl httlAt]
    have hsecond : pre ++ (ttl.reverse ++ (pad ++ (cmd ++ (clientFd ++ (ret ++ (bodyLen ++
        body)))))) = pre ++ ttl.reverse ++ pad ++ (cmd ++ (clientFd ++ (ret ++ (bodyLen ++
          body)))) := by
      simp
    rw [hsecond, ntohl_ofList hcmd hcmdAt]
    have hthird : pre ++ ttl.reverse ++ pad ++ (cmd.reverse ++ (clientFd ++ (ret ++ (bodyLen ++
        body)))) = pre ++ ttl.reverse ++ pad ++ cmd.reverse ++ clientFd ++ ret ++ (bodyLen ++
          body) := by
      simp
    rw [hthird, ntohl_ofList hbody hbodyAt]
    simp
  have hfdAt : (pre ++ ttl.reverse ++ pad ++ cmd.reverse).length =
      pre.length + PkgHead.clientFdAt := by
    simp [PkgHead.clientFdAt, httl, hpad, hcmd]
  have hstore := store_ofList (pre ++ ttl.reverse ++ pad ++ cmd.reverse) clientFd
    (ret ++ (bodyLen.reverse ++ body)) behind fd
  rw [hfd, hfdAt] at hstore
  rw [hfirst, hstore, hturned]
  simp

theorem length_unpackOrder (h : PkgHead.size ≤ payload.length) :
    (unpackOrder fd payload).length = payload.length := by
  unfold PkgHead.size at h
  simp [unpackOrder, turned, LittleEndian.length_encode]
  omega

end Turned

/-! ## The calls for a packet of the gate -/

section Calls

variable {C : Type} [DecidableEq C] {harbor : UInt32} {n : Node C} {live : List (UInt32 × C)}
  {names : NameTable} {m : Names} {handle : UInt32} {env : Env} {fd : Nat}
  {payload : List UInt8} {behind : Memory} {msg : Message}

omit [DecidableEq C] in
theorem strto_decimal (h : fd < 2 ^ 32) : strto (decimal fd) = fd := by
  have hfold : ∀ (l : List Char) (v : Nat), (∀ c ∈ l, c.isDigit = true) →
      (l.map fun c => UInt8.ofNat c.toNat).foldl (fun v c => v * 10 + (c.toNat - 48)) v =
        Nat.ofDigitChars 10 l v := by
    intro l
    induction l with
    | nil => exact fun _ _ => rfl
    | cons c l ih =>
        intro v hl
        have hdigit := hl c List.mem_cons_self
        have hrange : 48 ≤ c.toNat ∧ c.toNat ≤ 57 := by
          simpa [Char.isDigit, UInt32.le_iff_toNat_le] using hdigit
        have hbyte : (UInt8.ofNat c.toNat).toNat = c.toNat := by
          rw [UInt8.toNat_ofNat']
          omega
        rw [List.map_cons, List.foldl_cons, ih _ fun c' hc' => hl c' (List.mem_cons_of_mem c hc'),
          Nat.ofDigitChars_cons, hbyte, Nat.mul_comm v 10]
        rfl
  have hdigits : ∀ c ∈ Nat.toDigits 10 fd, c.isDigit = true := fun c hc =>
    Nat.isDigit_of_mem_toDigits (by decide) (by decide) hc
  unfold strto decimal
  rw [hfold _ _ hdigits, Nat.ofDigitChars_toDigits (by decide) (by decide)]
  exact Nat.min_eq_left (by omega)

/-- What the comparison lets through. -/
theorem toInt_pos_iff {g : Nat} (h : g < 2 ^ 32) : 0 < toInt g ↔ 0 < g ∧ g < 2 ^ 31 := by
  unfold toInt
  rw [Int.bmod_def]
  split <;> omega

omit [DecidableEq C] in
theorem dispatchCalls_preamble (names : NameTable) (h : PkgHead.size ≤ payload.length)
    (hfd : fd < 2 ^ 32) (hcmd : getCmdSvrType (clientField payload PkgHead.cmdAt) = LOGIN_SVR) :
    dispatchCalls names ⟨preamble fd ++ payload, behind⟩ =
      if 0 < toInt (names.findname (ofText "game")).toNat then
        [⟨(names.findname (ofText "game")).toNat, unpackOrder fd payload⟩]
      else [] := by
  have hlen : Message.sz ⟨preamble fd ++ payload, behind⟩ - (preamble fd).length =
      payload.length := by
    rw [Message.sz, List.length_append, Nat.add_sub_cancel_left]
  have hcmd' : getCmdSvrType (load (dispatched fd payload behind) 4
      ((preamble fd).length + PkgHead.cmdAt)) = LOGIN_SVR := by
    rw [dispatched_cmd h]
    exact hcmd
  have hbytes : dispatched fd payload behind =
      ofList (preamble fd ++ unpackOrder fd payload) behind := by
    unfold dispatched
    rw [strto_decimal hfd]
    exact unpack_ofList h
  have hslice : slice (dispatched fd payload behind) (preamble fd).length payload.length =
      unpackOrder fd payload := by
    have hall := slice_ofList (preamble fd) (unpackOrder fd payload) behind
    rw [length_unpackOrder h] at hall
    rw [hbytes, hall]
  unfold dispatchCalls
  simp only [scanHeader_preamble, List.take_left, sepstr_preamble, hlen]
  have hmemory : store (PkgHead.unpack (Message.memory ⟨preamble fd ++ payload, behind⟩)
      (preamble fd).length) 4 ((preamble fd).length + PkgHead.clientFdAt)
      (strto ([decimal fd, ofText "data"].headD [])) = dispatched fd payload behind := rfl
  have hcount : ¬ [decimal fd, ofText "data"].length < 2 := Nat.lt_irrefl 2
  have hdata : True ∧ [decimal fd, ofText "data"][1]? = some (ofText "data") := ⟨trivial, rfl⟩
  rw [hmemory, if_neg hcount, if_pos hdata, if_pos hcmd', uint32OfInt_toInt,
    u32_of_lt (UInt32.toNat_lt _), hslice]

omit [DecidableEq C] in
theorem forward_eq (h : forward env fd payload behind = some msg) :
    msg = ⟨preamble fd ++ payload, behind⟩ := by
  unfold forward at h
  split at h
  · exact nomatch h
  · dsimp only at h
    split at h
    · exact (Option.some.inj h).symm
    · exact nomatch h

/-- The packet of a connection goes to the service that is registered as `game`, and nowhere
else, exactly when the handle of the service is positive as an `int32_t`; and its head is in host
order when the bytes of `ret` are the same from both ends. -/
theorem dispatch_calls_iff (hrun : NamesRun harbor n live names m)
    (hname : m (ofText "game") = some handle) (hhandle : handle ≠ 0) (hfd : fd < 2 ^ 31)
    (hmsg : forward env fd payload behind = some msg) (hsize : PkgHead.size ≤ payload.length)
    (hcmd : getCmdSvrType (clientField payload PkgHead.cmdAt) = LOGIN_SVR) :
    (dispatchCalls names msg = [⟨handle.toNat, hostOrder fd payload⟩] ↔
        handle.toNat < 2 ^ 31 ∧ RetMirrored payload) ∧
      (dispatchCalls names msg = [⟨handle.toNat, unpackOrder fd payload⟩] ↔
        handle.toNat < 2 ^ 31) := by
  obtain ⟨_, hsorted, hstands⟩ := namesRun_inv hrun
  have hfind : names.findname (ofText "game") = handle :=
    hsorted.findname_of_mem ((hstands _ _).mpr hname)
  have hwide : fd < 2 ^ 32 := by omega
  have hcalls : dispatchCalls names ⟨preamble fd ++ payload, behind⟩ = _ :=
    dispatchCalls_preamble names hsize hwide hcmd
  have hpos : 0 < handle.toNat := by
    rw [Nat.pos_iff_ne_zero]
    exact fun hzero => hhandle (UInt32.toNat_inj.mp hzero)
  have hsigned := toInt_pos_iff handle.toNat_lt
  rw [forward_eq hmsg, hcalls, hfind]
  by_cases hlow : handle.toNat < 2 ^ 31
  · have hone : ∀ data : List UInt8, [(⟨handle.toNat, unpackOrder fd payload⟩ : Call)] =
        [⟨handle.toNat, data⟩] ↔ unpackOrder fd payload = data := by
      intro data
      simp
    rw [if_pos (hsigned.mpr ⟨hpos, hlow⟩), hone, hone, turned_iff]
    exact ⟨(and_iff_right hlow).symm, iff_of_true rfl hlow⟩
  · rw [if_neg fun hgt => hlow (hsigned.mp hgt).2]
    exact ⟨iff_of_false nofun fun hboth => hlow hboth.1, iff_of_false nofun hlow⟩

/-- A `CMD_LOGIN_REQ` without a body -/
def request (ret : List UInt8) : List UInt8 :=
  [0, 1, 0, 0, 0, 2, 0, 1, 0, 0, 0, 0] ++ ret ++ [0, 0, 0, 0]

/-- The table after `skynet_handle_namehandle(handle, "game")` -/
theorem exists_game (handle : UInt32) : ∃ names : NameTable,
    NamesRun (C := Unit) 0 ⟨init 0, fun _ => 0⟩ [] names
        (Names.add (fun _ => none) (ofText "game") handle) ∧
      names.findname (ofText "game") = handle := by
  have hrun : NamesRun (C := Unit) 0 ⟨init 0, fun _ => 0⟩ [] (.init fun _ => ⟨[], 0⟩)
      fun _ => none := .init (fun _ => 0) fun _ => ⟨[], 0⟩
  obtain ⟨_, hsorted, hstands⟩ := namesRun_inv hrun
  cases hsorted.namehandle_run (fun _ => ⟨[], 0⟩) handle (hstands.no_entry rfl) with
  | inl hfull => exact absurd hfull.1 (by decide)
  | inr hadded =>
      obtain ⟨names, hr, hsorted', _, hentries⟩ := hadded
      exact ⟨names, .namehandle hrun hr,
        hsorted'.findname_of_mem ((hentries _).mpr (Or.inl rfl))⟩

theorem dispatch_calls_iff_low : ∃ names : NameTable,
    dispatchCalls names ⟨preamble 7 ++ request [0, 0, 0, 0], fun _ => 0⟩ =
      [⟨5, hostOrder 7 (request [0, 0, 0, 0])⟩] := by
  obtain ⟨names, hrun, _⟩ := exists_game 5
  have hmsg : forward ⟨1, 5, fun _ => true⟩ 7 (request [0, 0, 0, 0]) (fun _ => 0) =
      some ⟨preamble 7 ++ request [0, 0, 0, 0], fun _ => 0⟩ := rfl
  have hiff := dispatch_calls_iff hrun rfl (by decide) (by decide) hmsg (by decide) (by decide)
  exact ⟨names, hiff.1.mpr ⟨by decide, by decide⟩⟩

/-- Nothing is sent to a service of the harbor 128, and a `ret` of 1 goes on as it came. -/
theorem dispatch_calls_high : ∃ (names names' : NameTable) (m m' : Names),
    (NamesRun (C := Unit) 0 ⟨init 0, fun _ => 0⟩ [] names m ∧
      m (ofText "game") = some 0x80000001 ∧
      dispatchCalls names ⟨preamble 7 ++ request [0, 0, 0, 0], fun _ => 0⟩ = []) ∧
    (NamesRun (C := Unit) 0 ⟨init 0, fun _ => 0⟩ [] names' m' ∧ m' (ofText "game") = some 5 ∧
      dispatchCalls names' ⟨preamble 7 ++ request [0, 0, 0, 1], fun _ => 0⟩ ≠
        [⟨5, hostOrder 7 (request [0, 0, 0, 1])⟩]) := by
  obtain ⟨names, hrun, hfind⟩ := exists_game 0x80000001
  obtain ⟨names', hrun', hfind'⟩ := exists_game 5
  refine ⟨names, names', _, _, ⟨hrun, rfl, ?_⟩, hrun', rfl, ?_⟩
  · rw [dispatchCalls_preamble names (by decide) (by decide) (by decide), hfind]
    exact if_neg (by decide)
  · rw [dispatchCalls_preamble names' (by decide) (by decide) (by decide), hfind',
      if_pos (by decide)]
    decide

end Calls

end Jump.Zone
