import Jump.Core.Bytes
import Jump.Core.Word
import Mathlib.Data.List.Induction

/-! # The command pipe of the socket server

The functions of `socket_server.c` that write a command to the pipe, and the part of `ctrl_cmd`
that reads one. A command is its type, the length of its request in one byte, and the request;
the requests lie in memory as the compiler lays them out for 64 bits.
-/

namespace Jump.Skynet.SocketServer.Pipe

open Jump.Core Jump.Core.Bytes

def sizeofOpen : Nat := 24
def sizeofSend : Nat := 16
def sizeofClose : Nat := 16
def sizeofListen : Nat := 24
def sizeofBind : Nat := 16
def sizeofStart : Nat := 16
def sizeofSetopt : Nat := 12
def sizeofUdp : Nat := 24
def sizeofSetudp : Nat := 24
def UDP_ADDRESS_SIZE : Nat := 19
def TCP_NODELAY : Int := 1

/-- `memcpy(u + p, bytes, size)` -/
def memcpy (u : Memory) (p : Nat) (bytes : List UInt8) : Memory :=
  fun i => if p ≤ i then (bytes[i - p]?).getD (u i) else u i

/-- A member of type `int` -/
def storeInt (u : Memory) (p : Nat) (v : Int) : Memory := store u 4 p (uint32OfInt v)

/-- What `getaddrinfo` finds: no address, or one of this family. -/
inductive Family where
  | none
  | inet
  | inet6
  | other
deriving DecidableEq

/-- A call, with what the system gives for it: the result of `reserve_id`, the descriptor, the
address that was found, or whether the slot has the id. -/
inductive Call where
  | connect (id : Int) (opaqueData : Nat) (addr : List UInt8) (port : Int)
  | listen (id fd : Int) (opaqueData : Nat)
  | bind (id fd : Int) (opaqueData : Nat)
  | start (id : Int) (opaqueData : Nat)
  | close (id : Int) (opaqueData : Nat)
  | nodelay (id : Int)
  | exit
  | send (live : Bool) (id sz : Int) (buffer : Nat)
  | sendLowpriority (live : Bool) (id sz : Int) (buffer : Nat)
  | udp (id fd : Int) (opaqueData : Nat) (family : Int)
  | udpSend (live : Bool) (id sz : Int) (buffer : Nat) (address : Memory)
  | udpConnect (id : Int) (family : Family) (port : Nat) (ip : Memory)

/-- `struct request_package` as it is written: the type and the first `len` bytes of `u`. -/
structure Package where
  type : UInt8
  request : List UInt8
deriving DecidableEq

/-- The first `len` bytes of the request. -/
def package (type : Char) (len : Nat) (u : Memory) : Package :=
  ⟨type.toUInt8, slice u 0 len⟩

/-- What `send_request` writes. -/
def Package.bytes (p : Package) : List UInt8 :=
  p.type :: UInt8.ofNat p.request.length :: p.request

def requestSend (u : Memory) (id sz : Int) (buffer : Nat) : Memory :=
  store (storeInt (storeInt u 0 id) 4 sz) 8 8 buffer

/-- `open_request`, which refuses a long name. -/
def openRequest (u : Memory) (id : Int) (opaqueData : Nat) (addr : List UInt8) (port : Int) :
    Option (Nat × Memory) :=
  let len := addr.length
  if len + sizeofOpen > 256 then none
  else if id < 0 then none
  else
    let u := storeInt (storeInt (store u 8 8 opaqueData) 0 id) 4 port
    some (len, memcpy (memcpy u 16 addr) (16 + len) [0])

/-- The size of an address of the type. -/
def addrsz (type : UInt8) : Option Nat :=
  if type = 1 then some (1 + 2 + 4) else if type = 2 then some (1 + 2 + 16) else none

/-- `gen_udp_address` -/
def genUdpAddress (protocol : UInt8) (port : Nat) (ip : Memory) (u : Memory) (p : Nat) :
    Nat × Memory :=
  let ipsz := if protocol = 1 then 4 else 16
  (1 + 2 + ipsz, memcpy (store (Function.update u p protocol) 2 (p + 1) port) (p + 3)
    (slice ip 0 ipsz))

/-- The command that a call writes, if it writes one. `u` is the memory of the request before. -/
def Call.command (u : Memory) : Call → Option Package
  | .connect id opaqueData addr port =>
    (openRequest u id opaqueData addr port).map fun r => package 'O' (sizeofOpen + r.1) r.2
  | .listen id fd opaqueData =>
    if fd < 0 ∨ id < 0 then none
    else some (package 'L' sizeofListen (storeInt (storeInt (store u 8 8 opaqueData) 0 id) 4 fd))
  | .bind id fd opaqueData =>
    if id < 0 then none
    else some (package 'B' sizeofBind (storeInt (storeInt (store u 8 8 opaqueData) 0 id) 4 fd))
  | .start id opaqueData =>
    some (package 'S' sizeofStart (store (storeInt u 0 id) 8 8 opaqueData))
  | .close id opaqueData =>
    some (package 'K' sizeofClose (store (storeInt u 0 id) 8 8 opaqueData))
  | .nodelay id =>
    some (package 'T' sizeofSetopt (storeInt (storeInt (storeInt u 0 id) 4 TCP_NODELAY) 8 1))
  | .exit => some (package 'X' 0 u)
  | .send live id sz buffer =>
    if live then some (package 'D' sizeofSend (requestSend u id sz buffer)) else none
  | .sendLowpriority live id sz buffer =>
    if live then some (package 'P' sizeofSend (requestSend u id sz buffer)) else none
  | .udp id fd opaqueData family =>
    if fd < 0 ∨ id < 0 then none
    else some (package 'U' sizeofUdp
      (storeInt (store (storeInt (storeInt u 0 id) 4 fd) 8 16 opaqueData) 8 family))
  | .udpSend live id sz buffer address =>
    if live then
      (addrsz (address 0)).map fun addrsz => package 'A' (sizeofSend + addrsz)
        (memcpy (requestSend u id sz buffer) sizeofSend (slice address 0 addrsz))
    else none
  | .udpConnect id family port ip =>
    let setudp (protocol : UInt8) :=
      let r := genUdpAddress protocol port ip (storeInt u 0 id) 4
      some (package 'C' (sizeofSetudp - UDP_ADDRESS_SIZE + r.1) r.2)
    match family with
    | .inet => setudp 1
    | .inet6 => setudp 2
    | .none | .other => none

/-- What `ctrl_cmd` reads from the pipe: the two bytes of the header and as many as its second
one says. Without so many bytes in the pipe there is no result. -/
def ctrlCmd : List UInt8 → Option (Package × List UInt8)
  | type :: len :: rest =>
    if len.toNat ≤ rest.length then
      some (⟨type, rest.take len.toNat⟩, rest.drop len.toNat)
    else none
  | _ => none

structure State where
  pipe : List UInt8
  written : List Package
  read : List Package

/-- A thread calls a function, with whatever its stack holds, or the socket thread looks for a
command. -/
inductive Action where
  | call (u : Memory) (call : Call)
  | poll

def start : State := ⟨[], [], []⟩

def step (s : State) : Action → Option State
  | .call u call =>
    match call.command u with
    | none => some s
    | some p => some { s with pipe := s.pipe ++ p.bytes, written := s.written ++ [p] }
  | .poll =>
    if s.pipe = [] then some s
    else (ctrlCmd s.pipe).map fun r => { s with pipe := r.2, read := s.read ++ [r.1] }

def run (s : State) (actions : List Action) : Option State :=
  actions.foldlM step s

/-! ## In step -/

/-- No host name fills the request to its last byte. -/
def Fits : Call → Prop
  | .connect id _ addr _ => 0 ≤ id → addr.length + sizeofOpen ≠ 256
  | _ => True

/-- The calls of a run, in the order of their writes. -/
def calls (actions : List Action) : List (Memory × Call) :=
  actions.filterMap fun
    | .call u call => some (u, call)
    | .poll => none

/-- Every command that is looked for is read, and the commands are those written, in their order;
nothing is left in the pipe when all are read. -/
def InStep (actions : List Action) : Prop :=
  ∃ s, run start actions = some s ∧ s.read <+: s.written ∧ (s.pipe = [] ↔ s.read = s.written)

theorem length_package (type : Char) (len : Nat) (u : Memory) :
    (package type len u).request.length = len := slice_length u 0 len

/-- The length fits into its byte, unless it is that of a host name that fills the request. -/
theorem length_lt_iff {u : Memory} {call : Call} {p : Package} (h : call.command u = some p) :
    p.request.length < 256 ↔ Fits call := by
  have hshort : ∀ {type len u}, some (package type len u) = some p → len < 256 →
      (p.request.length < 256 ↔ True) := by
    intro type len u heq hlen
    obtain rfl := Option.some.inj heq
    rw [length_package]
    exact iff_true_intro hlen
  have hudp : ∀ {t n}, addrsz t = some n → n ≤ 19 := by
    intro t n hn
    unfold addrsz at hn
    split_ifs at hn <;> obtain rfl := Option.some.inj hn <;> decide
  cases call with
  | connect id opaqueData addr port =>
      obtain ⟨⟨len, u'⟩, hopen, rfl⟩ := Option.map_eq_some_iff.mp h
      unfold openRequest at hopen
      by_cases hlong : addr.length + sizeofOpen > 256
      · rw [if_pos hlong] at hopen
        exact nomatch hopen
      · by_cases hid : id < 0
        · rw [if_neg hlong, if_pos hid] at hopen
          exact nomatch hopen
        · rw [if_neg hlong, if_neg hid] at hopen
          obtain ⟨rfl, -⟩ := Prod.mk.inj (Option.some.inj hopen)
          rw [length_package]
          unfold Fits
          omega
  | listen | bind | udp =>
      simp only [Call.command] at h
      split_ifs at h
      exact hshort h (by decide)
  | start | close | nodelay | exit => exact hshort h (by decide)
  | send | sendLowpriority =>
      simp only [Call.command] at h
      split_ifs at h
      exact hshort h (by decide)
  | udpSend live id sz buffer address =>
      simp only [Call.command] at h
      split_ifs at h
      obtain ⟨n, hn, hp⟩ := Option.map_eq_some_iff.mp h
      have hle := hudp hn
      exact hshort (congrArg some hp) (show 16 + n < 256 by omega)
  | udpConnect id family port ip =>
      cases family with
      | none | other => exact nomatch h
      | inet => exact hshort h (show 5 + 7 < 256 by decide)
      | inet6 => exact hshort h (show 5 + 19 < 256 by decide)

theorem run_concat (s : State) (actions : List Action) (a : Action) :
    run s (actions ++ [a]) = (run s actions).bind (step · a) := by
  unfold run
  rw [List.foldlM_append]
  exact congrArg (Option.bind _) (funext fun t => Option.bind_fun_some (step t a))

/-- A command whose length fits is read as it was written. -/
theorem ctrlCmd_bytes {p : Package} (h : p.request.length < 256) (rest : List UInt8) :
    ctrlCmd (p.bytes ++ rest) = some (p, rest) := by
  have hlen : (UInt8.ofNat p.request.length).toNat = p.request.length := UInt8.toNat_ofNat_of_lt h
  unfold Package.bytes
  rw [List.cons_append, List.cons_append, ctrlCmd, hlen, if_pos, List.take_left, List.drop_left]
  rw [List.length_append]
  exact Nat.le_add_right ..

/-- One of 256 bytes is read without its request. -/
theorem ctrlCmd_overlong {p : Package} (h : p.request.length = 256) (rest : List UInt8) :
    ctrlCmd (p.bytes ++ rest) = some (⟨p.type, []⟩, p.request ++ rest) := by
  have hzero : UInt8.ofNat p.request.length = 0 := by
    rw [h]
    rfl
  unfold Package.bytes
  have hle : (0 : UInt8).toNat ≤ (p.request ++ rest).length := Nat.zero_le _
  rw [hzero, List.cons_append, List.cons_append, ctrlCmd, if_pos hle]
  rfl

/-- The pipe holds the commands that were written and not yet read. -/
structure Inv (s : State) : Prop where
  pending : ∃ rest, s.written = s.read ++ rest ∧ s.pipe = rest.flatMap Package.bytes
  fits : ∀ p ∈ s.written, p.request.length < 256

theorem Inv.step {s : State} (inv : Inv s) {a : Action}
    (hfits : ∀ u call, a = .call u call → Fits call) : ∃ s', step s a = some s' ∧ Inv s' := by
  obtain ⟨⟨rest, hwritten, hpipe⟩, hlen⟩ := inv
  cases a with
  | call u call =>
      unfold Pipe.step
      cases hcommand : call.command u with
      | none => exact ⟨s, by simp only [hcommand], ⟨rest, hwritten, hpipe⟩, hlen⟩
      | some p =>
          refine ⟨_, by simp only [hcommand]; rfl, ⟨rest ++ [p], ?_, ?_⟩, fun q hq => ?_⟩
          · rw [hwritten, List.append_assoc]
          · rw [hpipe, List.flatMap_append, List.flatMap_singleton]
          · rcases List.mem_append.mp hq with hq | hq
            · exact hlen q hq
            · obtain rfl := List.mem_singleton.mp hq
              exact (length_lt_iff hcommand).mpr (hfits u call rfl)
  | poll =>
      unfold Pipe.step
      cases rest with
      | nil => exact ⟨s, if_pos hpipe, ⟨[], hwritten, hpipe⟩, hlen⟩
      | cons p rest =>
          have hp : p.request.length < 256 :=
            hlen p (hwritten ▸ List.mem_append_right _ List.mem_cons_self)
          have hne : s.pipe ≠ [] := by
            rw [hpipe]
            exact List.cons_ne_nil _ _
          rw [if_neg hne, hpipe, List.flatMap_cons, ctrlCmd_bytes hp]
          exact ⟨_, rfl, ⟨rest, by rw [hwritten, List.append_assoc]; rfl, rfl⟩, hlen⟩

theorem run_inv {actions : List Action} (hfits : ∀ c ∈ calls actions, Fits c.2) :
    ∃ s, run start actions = some s ∧ Inv s := by
  induction actions using List.reverseRecOn with
  | nil => exact ⟨start, rfl, ⟨[], rfl, rfl⟩, fun p hp => absurd hp List.not_mem_nil⟩
  | append_singleton actions a ih =>
      have hsplit : calls (actions ++ [a]) = calls actions ++ calls [a] := List.filterMap_append
      rw [hsplit] at hfits
      obtain ⟨s, hrun, inv⟩ := ih fun c hc => hfits c (List.mem_append_left _ hc)
      obtain ⟨s', hstep, inv'⟩ := inv.step (a := a) fun u call ha =>
        hfits (u, call) (List.mem_append_right _ (ha ▸ List.mem_cons_self))
      refine ⟨s', ?_, inv'⟩
      rw [run_concat, hrun, Option.bind_some, hstep]

theorem Inv.inStep {s : State} (inv : Inv s) :
    s.read <+: s.written ∧ (s.pipe = [] ↔ s.read = s.written) := by
  obtain ⟨⟨rest, hwritten, hpipe⟩, -⟩ := inv
  refine ⟨⟨rest, hwritten.symm⟩, ?_⟩
  rw [hwritten, hpipe]
  cases rest with
  | nil => exact iff_of_true rfl (List.append_nil _).symm
  | cons p rest =>
      exact iff_of_false (List.cons_ne_nil _ _) fun heq =>
        List.cons_ne_nil _ _ (List.self_eq_append_right.mp heq)

/-! ## Out of step -/

/-- The commands that the calls write. -/
def commands (cs : List (Memory × Call)) : List Package :=
  cs.filterMap fun c => c.2.command c.1

theorem commands_append (as bs : List (Memory × Call)) :
    commands (as ++ bs) = commands as ++ commands bs := List.filterMap_append

theorem commands_cons (c : Memory × Call) (cs : List (Memory × Call)) :
    commands (c :: cs) = (c.2.command c.1).toList ++ commands cs := by
  unfold commands
  rw [List.filterMap_cons]
  split <;> rename_i hc <;> rw [hc] <;> rfl

theorem run_calls (cs : List (Memory × Call)) :
    run start (cs.map fun c => .call c.1 c.2) =
      some ⟨(commands cs).flatMap Package.bytes, commands cs, []⟩ := by
  induction cs using List.reverseRecOn with
  | nil => rfl
  | append_singleton cs c ih =>
      have hmore : commands (cs ++ [c]) = commands cs ++ (c.2.command c.1).toList := by
        rw [commands_append, commands_cons]
        exact congrArg _ (List.append_nil _)
      rw [List.map_append, List.map_singleton, run_concat, ih, Option.bind_some, hmore]
      unfold step
      cases hc : c.2.command c.1 with
      | none => simp only [hc, Option.toList_none, List.append_nil]
      | some p => simp only [hc, Option.toList_some, List.flatMap_append, List.flatMap_singleton]

/-- The commands at the front of the pipe are read one after the other. -/
theorem run_polls {ps : List Package} (h : ∀ p ∈ ps, p.request.length < 256)
    (tail : List UInt8) (written read : List Package) :
    run ⟨ps.flatMap Package.bytes ++ tail, written, read⟩ (List.replicate ps.length .poll) =
      some ⟨tail, written, read ++ ps⟩ := by
  induction ps generalizing read with
  | nil =>
      rw [List.append_nil]
      rfl
  | cons p ps ih =>
      have hstep : step ⟨(p :: ps).flatMap Package.bytes ++ tail, written, read⟩ .poll =
          some ⟨ps.flatMap Package.bytes ++ tail, written, read ++ [p]⟩ := by
        unfold step
        rw [List.flatMap_cons, List.append_assoc,
          ctrlCmd_bytes (h p List.mem_cons_self) (ps.flatMap Package.bytes ++ tail)]
        exact if_neg (List.cons_ne_nil _ _)
      have hrest := ih (fun q hq => h q (List.mem_cons_of_mem p hq)) (read ++ [p])
      rw [List.append_assoc] at hrest
      rw [List.length_cons, List.replicate_succ]
      unfold run at hrest ⊢
      rw [List.foldlM_cons, hstep]
      exact hrest

/-- The first host name that fills the request. -/
theorem exists_first {cs : List (Memory × Call)} (h : ¬∀ c ∈ cs, Fits c.2) :
    ∃ before c after, cs = before ++ c :: after ∧ (∀ b ∈ before, Fits b.2) ∧ ¬Fits c.2 := by
  induction cs with
  | nil => exact absurd (fun c hc => absurd hc List.not_mem_nil) h
  | cons c cs ih =>
      by_cases hc : Fits c.2
      · obtain ⟨before, d, after, rfl, hbefore, hd⟩ := ih fun hall =>
          h (List.forall_mem_cons.mpr ⟨hc, hall⟩)
        exact ⟨c :: before, d, after, rfl, List.forall_mem_cons.mpr ⟨hc, hbefore⟩, hd⟩
      · exact ⟨[], c, cs, rfl, fun b hb => absurd hb List.not_mem_nil, hc⟩

/-- Such a name is accepted, and its command is 256 bytes long. -/
theorem command_of_not_fits {u : Memory} {call : Call} (h : ¬Fits call) :
    ∃ p, call.command u = some p ∧ p.request.length = 256 := by
  cases call with
  | connect id opaqueData addr port =>
      unfold Fits at h
      rw [Classical.not_imp, not_not] at h
      obtain ⟨hid, hlen⟩ := h
      have hopen : ∃ u', openRequest u id opaqueData addr port = some (addr.length, u') := by
        unfold openRequest
        rw [if_neg (by omega), if_neg (by omega)]
        exact ⟨_, rfl⟩
      obtain ⟨u', hopen⟩ := hopen
      refine ⟨package 'O' (sizeofOpen + addr.length) u', ?_, ?_⟩
      · rw [Call.command, hopen]
        rfl
      · rw [length_package, Nat.add_comm]
        exact hlen
  | _ => exact absurd trivial h

theorem not_inStep {cs : List (Memory × Call)} (h : ¬∀ c ∈ cs, Fits c.2) :
    ∃ actions, calls actions = cs ∧ ¬InStep actions := by
  obtain ⟨before, c, after, rfl, hbefore, hc⟩ := exists_first h
  obtain ⟨p, hp, hlen⟩ := @command_of_not_fits c.1 c.2 hc
  have hsplit : commands (before ++ c :: after) = commands before ++ p :: commands after := by
    rw [commands_append, commands_cons, hp]
    rfl
  have hfits : ∀ q ∈ commands before, q.request.length < 256 := by
    intro q hq
    obtain ⟨b, hb, hbq⟩ := List.mem_filterMap.mp hq
    exact (length_lt_iff hbq).mpr (hbefore b hb)
  let polls := List.replicate (commands before).length Action.poll
  refine ⟨(before ++ c :: after).map (fun c => .call c.1 c.2) ++ (polls ++ [.poll]), ?_, ?_⟩
  · have hcalls : ∀ cs : List (Memory × Call), calls (cs.map fun c => .call c.1 c.2) = cs := by
      intro cs
      unfold calls
      rw [List.filterMap_map]
      exact List.filterMap_some
    have hpolls : ∀ n, calls (List.replicate n .poll) = [] := fun n =>
      List.filterMap_eq_nil_iff.mpr fun a ha => List.eq_of_mem_replicate ha ▸ rfl
    have happend : ∀ a b : List Action, calls (a ++ b) = calls a ++ calls b :=
      fun _ _ => List.filterMap_append
    rw [happend, happend, hcalls, hpolls]
    exact List.append_nil _
  · rintro ⟨s, hrun, hread, -⟩
    rw [← List.append_assoc, run_concat] at hrun
    have hpre : run start ((before ++ c :: after).map (fun c => .call c.1 c.2) ++ polls) =
        some ⟨p.bytes ++ (commands after).flatMap Package.bytes,
          commands before ++ p :: commands after, commands before⟩ := by
      have hcalls := run_calls (before ++ c :: after)
      unfold run at hcalls ⊢
      rw [List.foldlM_append, hcalls, hsplit, List.flatMap_append, List.flatMap_cons]
      exact run_polls hfits _ _ []
    have hne : p.bytes ++ (commands after).flatMap Package.bytes ≠ [] := List.cons_ne_nil _ _
    rw [hpre, Option.bind_some, step, if_neg hne] at hrun
    dsimp only at hrun
    rw [ctrlCmd_overlong hlen] at hrun
    obtain rfl := Option.some.inj hrun
    have hhead := (List.prefix_append_right_inj _).mp hread
    have heq := (List.cons_prefix_cons.mp hhead).1
    rw [← heq] at hlen
    exact absurd (show 0 = 256 from hlen) (Nat.ne_of_lt (by decide))

/-- In every order of the calls and the reads the pipe stays in step, exactly if no host name
fills its request. -/
theorem inStep_iff (cs : List (Memory × Call)) :
    (∀ actions, calls actions = cs → InStep actions) ↔ ∀ c ∈ cs, Fits c.2 := by
  constructor
  · intro h
    by_contra hnot
    obtain ⟨actions, hcalls, hout⟩ := not_inStep hnot
    exact hout (h actions hcalls)
  · rintro h actions rfl
    obtain ⟨s, hrun, inv⟩ := run_inv h
    exact ⟨s, hrun, inv.inStep⟩

/-- A host name of 232 bytes, and one look for a command. -/
def longName : List Action :=
  [.call (fun _ => 0) (.connect 1 0 (List.replicate 232 97) 80), .poll]

theorem longName_out : ¬InStep longName := by
  have hcheck : ((run start longName).all fun s => !s.read.isPrefixOf s.written) = true := by
    decide +kernel
  rintro ⟨s, hrun, hread, -⟩
  rw [hrun, Option.all_some, Bool.not_eq_true', List.isPrefixOf_iff_prefix.mpr hread] at hcheck
  exact Bool.noConfusion hcheck

end Jump.Skynet.SocketServer.Pipe
