import Jump.Core.Threads

/-! # Multicast

`multicastd.lua` with the channels of a node, `lua-multicast.c` with the package that a message to
a channel is, and the dispatch of `multicast.lua` in the services that get it.
-/

namespace Jump.Skynet.Multicast

open Jump.Core

/-! ## Channels -/

/-- The tables of `multicastd.lua`; a group is the list of its keys. -/
structure Multicastd where
  harborId : Nat
  channel : Nat → Option (List Nat)
  channelN : Nat → Option Int
  channelRemote : Nat → Option (List Nat)
  channelId : Nat

/-- `mc.nextid` -/
def nextid (id : Nat) : Nat := (id + 256) % 2 ^ 32

/-- The loop of `NEW`, over the ids with one low byte. -/
def freeId (channel : Nat → Option (List Nat)) : Nat → Nat → Option Nat
  | 0, _ => none
  | fuel + 1, id => if (channel id).isSome then freeId channel fuel (nextid id) else some id

inductive Command where
  | new
  | delr (c : Nat)
  | del (c : Nat)
  | subr (node c : Nat)
  | sub (source c : Nat)
  /-- `SUB` behind its call of `SUBR` in the node of the channel. -/
  | subscribed (source c : Nat) (gone : Bool)
  | usubr (node c : Nat)
  | usub (source c : Nat)
deriving DecidableEq

def Multicastd.delete (d : Multicastd) (c : Nat) : Multicastd :=
  { d with
    channel := Function.update d.channel c none
    channelN := Function.update d.channelN c none }

def Multicastd.create (d : Multicastd) (c : Nat) : Multicastd :=
  { d with
    channel := Function.update d.channel c (some [])
    channelN := Function.update d.channelN c (some 0) }

/-- The end of `SUB`. -/
def Multicastd.join (d : Multicastd) (source c : Nat) : Multicastd :=
  match d.channel c, d.channelN c with
  | some group, some n =>
    if source ∈ group then d
    else
      { d with
        channel := Function.update d.channel c (some (source :: group))
        channelN := Function.update d.channelN c (some (n + 1)) }
  | _, _ => d

/-- The end of `USUB`, for a member of the group. -/
def Multicastd.leave (d : Multicastd) (source c : Nat) (group : List Nat) (n : Int) :
    Multicastd :=
  if n - 1 = 0 ∧ c % 256 ≠ d.harborId then d.delete c
  else
    { d with
      channel := Function.update d.channel c (some (group.erase source))
      channelN := Function.update d.channelN c (some (n - 1)) }

/-- The commands; a failed assertion leaves the tables as they are. -/
def Multicastd.step (d : Multicastd) : Command → Multicastd
  | .new =>
    match freeId d.channel (2 ^ 24) d.channelId with
    | none => d
    | some id => { d.create id with channelId := nextid id }
  | .delr c => d.delete c
  | .del c =>
    if c % 256 ≠ d.harborId then d
    else { d.delete c with channelRemote := Function.update d.channelRemote c none }
  | .subr node c =>
    if (d.channel c).isNone then d
    else if node ≠ d.harborId ∧ c % 256 = d.harborId then
      let group := (d.channelRemote c).getD []
      { d with
        channelRemote := Function.update d.channelRemote c
          (some (if node ∈ group then group else node :: group)) }
    else d
  | .sub source c =>
    if c % 256 ≠ d.harborId ∧ (d.channel c).isNone then d else d.join source c
  | .subscribed source c gone =>
    if gone then d
    else if (d.channel c).isNone then (d.create c).join source c
    else d.join source c
  | .usubr node c =>
    match d.channelRemote c with
    | none => d
    | some group =>
      if node ≠ d.harborId then
        { d with channelRemote := Function.update d.channelRemote c (some (group.erase node)) }
      else d
  | .usub source c =>
    match d.channel c, d.channelN c with
    | some group, some n => if source ∈ group then d.leave source c group n else d
    | _, _ => d

def start (harborId : Nat) : Multicastd :=
  ⟨harborId, fun _ => none, fun _ => none, fun _ => none, harborId⟩

/-- The tables behind some commands. -/
def reached (harborId : Nat) (commands : List Command) : Multicastd :=
  commands.foldl Multicastd.step (start harborId)

/-! ## A package -/

/-- A `struct mc_package` with its data, how often each of the two was freed, and whether one was
used or freed after that. -/
structure Package where
  reference : Int
  packageFrees : Nat
  dataFrees : Nat
  stale : Bool
deriving DecidableEq

/-- The package of `mc.pack`. -/
def newPackage : Package := ⟨0, 0, 0, false⟩

def Package.usePackage (p : Package) : Package :=
  { p with stale := p.stale || decide (0 < p.packageFrees) }

def Package.useData (p : Package) : Package :=
  { p with stale := p.stale || decide (0 < p.dataFrees) }

def Package.freePackage (p : Package) : Package :=
  { p.usePackage with packageFrees := p.packageFrees + 1 }

def Package.freeData (p : Package) : Package :=
  { p.useData with dataFrees := p.dataFrees + 1 }

inductive Instr where
  | bind (ref : Int)
  | close
  /-- `mc.unpack`, which reads the pointer to the data and the size. -/
  | unpack
  /-- A read of the data: `skynet.tostring` in `publish`, `__unpack` in a subscriber. -/
  | read
  /-- `mc.remote` -/
  | remote
  /-- The data is freed with the message that it is. -/
  | trash
  /-- A message to the receiver `k`. -/
  | redirect (k : Nat)
deriving DecidableEq

/-- What an instruction does with the package; `false` is an error. -/
def exec (p : Package) : Instr → Package × Bool
  | .bind ref =>
    let p := p.usePackage
    if p.reference ≠ 0 then (p, false) else ({ p with reference := ref }, true)
  | .close =>
    let p := { p.usePackage with reference := p.reference - 1 }
    if p.reference ≤ 0 then (p.freeData.freePackage, decide (¬p.reference < 0)) else (p, true)
  | .unpack => (p.usePackage, true)
  | .read => (p.useData, true)
  | .remote => (p.usePackage.freePackage, true)
  | .trash => (p.freeData, true)
  | .redirect _ => (p, true)

/-- `dispatch_subscribe`, behind the `unpack` of its protocol, in a service that still subscribes
the channel or not. -/
def dispatchSubscribe (subscribed : Bool) : List Instr :=
  if subscribed then [.unpack, .read, .close] else [.unpack, .close]

/-- What the publishing does, and each receiver with its message. -/
structure Publication where
  publisher : List Instr
  receivers : List (List Instr)
deriving DecidableEq

/-- `publish`, which goes through the group in some `order`; `subscribed` tells which of the
subscribers are still that when they get the message. -/
def publish (d : Multicastd) (c : Nat) (order : List Nat) (subscribed : Nat → Bool) :
    Publication :=
  match d.channel c with
  | none => ⟨[.bind 1, .close], []⟩
  | some _ =>
    match d.channelN c with
    | none => ⟨[], []⟩
    | some n =>
      ⟨.bind n :: (List.range order.length).map .redirect ++
          (if (d.channelRemote c).isSome then [.unpack, .read] else []),
        order.map fun k => dispatchSubscribe (subscribed k)⟩

/-- `remote_publish` of what `mc.remote` returns; the message is the data itself. -/
def remotePublish : Publication := ⟨[.remote, .redirect 0], [[.trash]]⟩

/-- The message of another node, or the command `PUB` of a service in the node `harbor`. -/
inductive Entry where
  | multicast
  | pub (harbor : Nat)
deriving DecidableEq

def dispatch (d : Multicastd) (entry : Entry) (c : Nat) (order : List Nat)
    (subscribed : Nat → Bool) : Option Publication :=
  match entry with
  | .multicast => some (publish d c order subscribed)
  | .pub harbor =>
    if harbor ≠ d.harborId then none
    else if c % 256 ≠ d.harborId then some remotePublish
    else some (publish d c order subscribed)

/-! ## Interleavings -/

/-- What the publisher has still to do is first, then each receiver with a message. -/
structure State where
  package : Package
  threads : List (List Instr)
deriving DecidableEq

def Publication.start (p : Publication) : State :=
  ⟨newPackage, p.publisher :: p.receivers.map fun _ => []⟩

/-- The messages of an instruction start their receivers. -/
def Publication.wake (p : Publication) (threads : List (List Instr)) : Instr → List (List Instr)
  | .redirect k => threads.set (k + 1) (p.receivers.getD k [])
  | _ => threads

/-- The thread `i` executes its next instruction. -/
def Publication.step (p : Publication) (i : Nat) (s : State) : Option State :=
  match s.threads[i]? with
  | some (instr :: rest) =>
    let r := exec s.package instr
    some ⟨r.1, p.wake (s.threads.set i (if r.2 then rest else [])) instr⟩
  | _ => none

/-- The schedule tells which thread takes each step. -/
def Publication.run (p : Publication) : List Nat → State → Option State
  | [], s => some s
  | i :: schedule, s => (p.step i s).bind (p.run schedule)

/-- Publisher and subscribers are done. -/
def State.Finished (s : State) : Prop := ∀ program ∈ s.threads, program = []

instance (s : State) : Decidable s.Finished := inferInstanceAs (Decidable (∀ _ ∈ _, _))

/-! ## The counts of the channels -/

section Channels

variable {d : Multicastd} {c source : Nat}

def Counted (d : Multicastd) : Prop :=
  ∀ c group, d.channel c = some group → d.channelN c = some (group.length : Int)

/-- One channel changes. -/
theorem Counted.update {channel : Option (List Nat)} {n : Option Int} (h : Counted d)
    (hc : ∀ group, channel = some group → n = some (group.length : Int)) :
    ∀ c' group, Function.update d.channel c channel c' = some group →
      Function.update d.channelN c n c' = some (group.length : Int) := by
  intro c' group hgroup
  by_cases heq : c' = c
  · rw [heq, Function.update_self] at hgroup ⊢
    exact hc group hgroup
  · rw [Function.update_of_ne heq] at hgroup ⊢
    exact h c' group hgroup

theorem Counted.delete (h : Counted d) (c : Nat) : Counted (d.delete c) :=
  h.update fun _ hgroup => by cases hgroup

theorem Counted.create (h : Counted d) (c : Nat) : Counted (d.create c) := by
  apply h.update
  intro group hgroup
  cases hgroup
  rfl

theorem Counted.join (h : Counted d) (source c : Nat) : Counted (d.join source c) := by
  unfold Multicastd.join
  cases hchannel : d.channel c with
  | none => exact h
  | some group =>
      have hn := h c group hchannel
      rw [hn]
      simp only
      split
      · exact h
      · apply h.update
        intro group' hgroup'
        cases hgroup'
        rw [List.length_cons]
        push_cast
        rfl

theorem Counted.leave {group : List Nat} (h : Counted d) (hmem : source ∈ group) :
    Counted (d.leave source c group group.length) := by
  unfold Multicastd.leave
  split
  · exact h.delete c
  · apply h.update
    intro group' hgroup'
    cases hgroup'
    have hpos := List.length_pos_of_mem hmem
    rw [List.length_erase_of_mem hmem]
    congr 1
    omega

theorem Counted.step (h : Counted d) (command : Command) : Counted (d.step command) := by
  cases command with
  | new =>
      unfold Multicastd.step
      simp only
      split
      · exact h
      · exact h.create _
  | delr c => exact h.delete c
  | del c =>
      unfold Multicastd.step
      simp only
      split
      · exact h
      · exact h.delete c
  | subr node c =>
      unfold Multicastd.step
      simp only
      split
      · exact h
      · split <;> exact h
  | sub source c =>
      unfold Multicastd.step
      simp only
      split
      · exact h
      · exact h.join source c
  | subscribed source c gone =>
      unfold Multicastd.step
      simp only
      split
      · exact h
      · split
        · exact (h.create c).join source c
        · exact h.join source c
  | usubr node c =>
      unfold Multicastd.step
      simp only
      split
      · exact h
      · split <;> exact h
  | usub source c =>
      unfold Multicastd.step
      cases hchannel : d.channel c with
      | none =>
          simp only [hchannel]
          exact h
      | some group =>
          have hn := h c group hchannel
          simp only [hchannel, hn]
          split
          · rename_i hmem
            exact h.leave hmem
          · exact h

theorem counted_reached (harborId : Nat) (commands : List Command) :
    Counted (reached harborId commands) := by
  have hfold : ∀ d, Counted d → Counted (commands.foldl Multicastd.step d) := by
    induction commands with
    | nil => exact fun _ h => h
    | cons command commands ih => exact fun d h => ih _ (h.step command)
  exact hfold _ fun _ _ hgroup => by cases hgroup

end Channels

end Jump.Skynet.Multicast
