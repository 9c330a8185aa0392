import Jump.Skynet.Multicast.Lifetime

/-! # Publishing

The package of a message to a group lives as long as it is used if there is a subscriber, and if
one is not done with the package before the publisher is.
-/

namespace Jump.Skynet.Multicast

open Jump.Core

def usesPackage : Instr → Bool
  | .bind _ | .close | .unpack | .remote => true
  | .read | .trash | .redirect _ => false

def usesData : Instr → Bool
  | .close | .read | .trash => true
  | .bind _ | .unpack | .remote | .redirect _ => false

/-- The package and its data are used while they are alive, and freed once, when nobody will use
them again. -/
structure Proper (s : State) : Prop where
  alive : s.package.stale = false
  packageOnce : s.package.packageFrees ≤ 1
  dataOnce : s.package.dataFrees ≤ 1
  packageLast : 0 < s.package.packageFrees →
    ∀ program ∈ s.threads, ∀ instr ∈ program, usesPackage instr = false
  dataLast : 0 < s.package.dataFrees →
    ∀ program ∈ s.threads, ∀ instr ∈ program, usesData instr = false
  freed : s.Finished → s.package.packageFrees = 1 ∧ s.package.dataFrees = 1

/-- The publisher is done, or a subscriber has still to close the package. -/
def State.Held (s : State) : Prop := s.threads[0]? = some [] ∨ 0 < outstanding s

instance (s : State) : Decidable s.Held := inferInstanceAs (Decidable (_ ∨ _))

variable {p : Publication} {s s' : State} {rest : List Instr} {n i : Nat} {schedule : List Nat}
  {d : Multicastd} {entry : Entry} {c : Nat} {order : List Nat} {subscribed : Nat → Bool}

theorem not_late_iff : ¬Late s ↔ s.Held := by
  unfold Late State.Held
  constructor
  · intro hnot
    by_cases hdone : s.threads[0]? = some []
    · exact .inl hdone
    · exact .inr (Nat.pos_of_ne_zero fun hzero => hnot ⟨hdone, hzero⟩)
  · rintro (hdone | hpos) ⟨hne, hzero⟩
    · exact hne hdone
    · exact Nat.ne_of_gt hpos hzero

/-! ## A group -/

theorem Bound.proper (h : Bound n rest s) (hn : 0 < n) (hstale : s.package.stale = false)
    (hheld : s.Held) : Proper s := by
  have hnil : outstanding s = 0 → ∀ program ∈ s.threads, ∀ instr ∈ program, False := by
    intro hzero program hmem instr hinstr
    rcases hheld with hdone | hpos
    · rw [h.publisher_nil hdone hzero program hmem] at hinstr
      exact List.not_mem_nil hinstr
    · omega
  have hpackage := h.packageFrees
  have hdata := h.dataFrees
  by_cases hzero : outstanding s = 0
  · rw [if_pos ⟨hn, hzero⟩] at hpackage hdata
    exact ⟨hstale, Nat.le_of_eq hpackage, Nat.le_of_eq hdata,
      fun _ program hmem instr hinstr => (hnil hzero program hmem instr hinstr).elim,
      fun _ program hmem instr hinstr => (hnil hzero program hmem instr hinstr).elim,
      fun _ => ⟨hpackage, hdata⟩⟩
  · rw [if_neg fun hall => hzero hall.2] at hpackage hdata
    refine ⟨hstale, by omega, by omega, fun hpos => by omega, fun hpos => by omega, ?_⟩
    intro hfinished
    refine absurd ?_ hzero
    unfold outstanding Threads.total
    apply List.sum_eq_zero
    intro m hm
    obtain ⟨program, hmem, rfl⟩ := List.mem_map.mp hm
    rw [hfinished program hmem]
    rfl

/-- Nobody closes a package without subscribers. -/
theorem Bound.not_proper (h : Bound 0 rest s) (hfinished : s.Finished) : ¬Proper s := by
  intro hproper
  have hone := (hproper.freed hfinished).1
  rw [h.packageFrees, if_neg fun hall => Nat.lt_irrefl 0 hall.1] at hone
  exact absurd hone (by decide)

theorem Group.start_outstanding (hp : Group p n rest) : outstanding p.start = n := by
  have hrest : owed rest = 0 := by
    rcases hp.rest with h | h <;> rw [h] <;> rfl
  have hzero : Threads.total owed (p.receivers.map fun _ => []) = 0 := by
    unfold Threads.total
    rw [List.map_map]
    apply List.sum_eq_zero
    intro m hm
    obtain ⟨_, -, rfl⟩ := List.mem_map.mp hm
    rfl
  rw [outstanding_cons rfl, hp.publisher, owed_cons, owed_append, owed_redirects, hzero, hrest]
  exact Nat.zero_add n

theorem Group.start_proper (hp : Group p n rest) : Proper p.start := by
  refine ⟨rfl, Nat.zero_le 1, Nat.zero_le 1, fun hpos => absurd hpos (Nat.lt_irrefl 0),
    fun hpos => absurd hpos (Nat.lt_irrefl 0), fun hfinished => ?_⟩
  have hnil := hfinished p.publisher List.mem_cons_self
  rw [hp.publisher] at hnil
  cases hnil

/-- A run of a publication to a group. -/
theorem Group.run (hp : Group p n rest) (hrun : p.run schedule p.start = some s) :
    (0 < n → (∀ before s₁, before <+: schedule → p.run before p.start = some s₁ → s₁.Held) →
      Proper s) ∧
    (s.Finished → Proper s → 0 < n ∧
      ∀ before s₁, before <+: schedule → p.run before p.start = some s₁ → s₁.Held) := by
  cases schedule with
  | nil =>
      cases hrun
      refine ⟨fun _ _ => hp.start_proper, fun hfinished _ => ?_⟩
      have hnil := hfinished p.publisher List.mem_cons_self
      rw [hp.publisher] at hnil
      cases hnil
  | cons i schedule =>
      obtain ⟨s₀, hstep, hrest⟩ := Option.bind_eq_some_iff.mp hrun
      obtain ⟨h₀, hstale₀⟩ := hp.first hstep
      obtain ⟨h, -⟩ := h₀.run hp hrest
      have hlift : ∀ before s₁, p.run before s₀ = some s₁ →
          p.run (i :: before) p.start = some s₁ := by
        intro before s₁ hrun₁
        rw [run_cons, hstep]
        exact hrun₁
      constructor
      · intro hn hheld
        apply h.proper hn _ (hheld _ s (List.prefix_refl _) hrun)
        apply h₀.run_alive hp hstale₀ hrest
        intro before s₁ hbefore hrun₁
        exact not_late_iff.mpr (hheld (i :: before) s₁
          (List.cons_prefix_cons.mpr ⟨rfl, hbefore⟩) (hlift before s₁ hrun₁))
      · intro hfinished hproper
        have hn : 0 < n := by
          rcases Nat.eq_zero_or_pos n with hzero | hpos
          · rw [hzero] at h
            exact absurd hproper (h.not_proper hfinished)
          · exact hpos
        refine ⟨hn, fun before s₁ hbefore hrun₁ => not_late_iff.mp fun hlate => ?_⟩
        cases before with
        | nil =>
            cases hrun₁
            have hzero := hlate.2
            rw [hp.start_outstanding] at hzero
            omega
        | cons j before =>
            obtain ⟨rfl, after, hafter⟩ := List.cons_prefix_cons.mp hbefore
            rw [run_cons, hstep] at hrun₁
            obtain ⟨h₁, -⟩ := h₀.run hp hrun₁
            have hlast : p.run after s₁ = some s := by
              rw [← hafter, run_append] at hrest
              obtain ⟨s₂, hrun₂, hlast⟩ := Option.bind_eq_some_iff.mp hrest
              have hsame : p.run before s₀ = some s₁ := hrun₁
              rw [hsame] at hrun₂
              cases hrun₂
              exact hlast
            have htrue := h₁.run_late hp hn hlate hlast hfinished
            rw [hproper.alive] at htrue
            cases htrue

/-- Without other nodes, the publisher is done with its last message. -/
theorem Bound.held (h : Bound n [] s) : s.Held := by
  obtain ⟨pub, subs, k, hthreads, -, hpub, -, -⟩ := h.threads
  unfold State.Held
  rw [outstanding_cons hthreads, hthreads]
  cases pub with
  | nil => exact .inl rfl
  | cons instr program =>
      rcases publishing_cons hpub (.inl rfl) with ⟨rfl, -, -⟩ | ⟨-, -, -, hne, -⟩
      · right
        rw [owed_cons]
        show 0 < 1 + owed program + _
        omega
      · exact absurd rfl hne

theorem Group.held (hp : Group p n []) (hn : 0 < n) (hrun : p.run schedule p.start = some s) :
    s.Held := by
  cases schedule with
  | nil =>
      cases hrun
      right
      rw [hp.start_outstanding]
      exact hn
  | cons i schedule =>
      obtain ⟨s₀, hstep, hrest⟩ := Option.bind_eq_some_iff.mp hrun
      obtain ⟨h₀, -⟩ := hp.first hstep
      obtain ⟨h, -⟩ := h₀.run hp hrest
      exact h.held

/-! ## Without a group -/

/-- A thread that is there takes the step. -/
theorem step_lt (hstep : p.step i s = some s') : i < s.threads.length := by
  unfold Publication.step at hstep
  split at hstep
  · rename_i hi
    exact (List.getElem?_eq_some_iff.mp hi).1
  · cases hstep

/-- The states of a publication with few of them. -/
theorem run_mem {states : List State}
    (hclosed : ∀ s ∈ states, ∀ i < s.threads.length, (p.step i s).all (· ∈ states) = true)
    (hs : s ∈ states) (hrun : p.run schedule s = some s') : s' ∈ states := by
  induction schedule generalizing s with
  | nil =>
      cases hrun
      exact hs
  | cons i schedule ih =>
      obtain ⟨s₁, hstep, hrest⟩ := Option.bind_eq_some_iff.mp hrun
      have hall := hclosed s hs i (step_lt hstep)
      rw [hstep] at hall
      exact ih (of_decide_eq_true hall) hrest

def deadChannel : Publication := ⟨[.bind 1, .close], []⟩

theorem deadChannel_proper (hrun : deadChannel.run schedule deadChannel.start = some s) :
    Proper s := by
  have hmem : s ∈ [deadChannel.start, ⟨⟨1, 0, 0, false⟩, [[.close]]⟩,
      ⟨⟨0, 1, 1, false⟩, [[]]⟩] := run_mem (by decide) List.mem_cons_self hrun
  rcases List.mem_cons.mp hmem with rfl | hmem
  · exact ⟨rfl, by decide, by decide, by decide, by decide, by decide⟩
  rcases List.mem_cons.mp hmem with rfl | hmem
  · exact ⟨rfl, by decide, by decide, by decide, by decide, by decide⟩
  rw [List.mem_singleton.mp hmem]
  exact ⟨rfl, by decide, by decide, by decide, by decide, by decide⟩

/-- The data goes on in the message to the other node. -/
theorem remotePublish_proper (hrun : remotePublish.run schedule remotePublish.start = some s) :
    Proper s := by
  have hmem : s ∈ [remotePublish.start, ⟨⟨0, 1, 0, false⟩, [[.redirect 0], []]⟩,
      ⟨⟨0, 1, 0, false⟩, [[], [.trash]]⟩, ⟨⟨0, 1, 1, false⟩, [[], []]⟩] :=
    run_mem (by decide) List.mem_cons_self hrun
  rcases List.mem_cons.mp hmem with rfl | hmem
  · exact ⟨rfl, by decide, by decide, by decide, by decide, by decide⟩
  rcases List.mem_cons.mp hmem with rfl | hmem
  · exact ⟨rfl, by decide, by decide, by decide, by decide, by decide⟩
  rcases List.mem_cons.mp hmem with rfl | hmem
  · exact ⟨rfl, by decide, by decide, by decide, by decide, by decide⟩
  rw [List.mem_singleton.mp hmem]
  exact ⟨rfl, by decide, by decide, by decide, by decide, by decide⟩

/-! ## Every publication -/

theorem publish_dead (hchannel : d.channel c = none) :
    publish d c order subscribed = deadChannel := by
  unfold publish
  rw [hchannel]
  rfl

theorem publish_group {group : List Nat} (hd : Counted d) (hchannel : d.channel c = some group)
    (horder : order.Perm group) :
    Group (publish d c order subscribed) group.length
      (if (d.channelRemote c).isSome then [.unpack, .read] else []) := by
  unfold publish
  rw [hchannel, hd c group hchannel]
  constructor
  · rw [← List.range_eq_range', ← horder.length_eq]
    rfl
  · split
    · exact .inr rfl
    · exact .inl rfl
  · show (order.map fun k => dispatchSubscribe (subscribed k)).length = _
    rw [List.length_map, horder.length_eq]
  · intro program hmem
    obtain ⟨k, -, rfl⟩ := List.mem_map.mp hmem
    refine ⟨.unpacking _, ?_⟩
    cases subscribed k <;> rfl

/-- `PUB` for a channel of another node. -/
def Forwards (d : Multicastd) : Entry → Nat → Prop
  | .multicast, _ => False
  | .pub _, c => c % 256 ≠ d.harborId

/-- A group that is not empty, and if nodes subscribe the channel, a publisher that is done before
the last of the local subscribers. -/
def Keeps (d : Multicastd) (entry : Entry) (c : Nat) (p : Publication) (schedule : List Nat) :
    Prop :=
  ¬Forwards d entry c → ∀ group, d.channel c = some group → group ≠ [] ∧
    (d.channelRemote c = none ∨
      ∀ before s, before <+: schedule → p.run before p.start = some s → s.Held)

theorem dispatch_cases (hp : dispatch d entry c order subscribed = some p) :
    Forwards d entry c ∧ p = remotePublish ∨
      ¬Forwards d entry c ∧ p = publish d c order subscribed := by
  cases entry with
  | multicast =>
      cases hp
      exact .inr ⟨id, rfl⟩
  | pub harbor =>
      unfold dispatch at hp
      simp only at hp
      split at hp
      · cases hp
      · split at hp
        · rename_i hnode
          cases hp
          exact .inl ⟨hnode, rfl⟩
        · rename_i hnode
          cases hp
          exact .inr ⟨hnode, rfl⟩

/-- Whatever channel and interleaving, the package is used while it is alive and freed once if
`Keeps` holds; and a publication that went to its end did so only if it holds. -/
theorem proper_iff {harborId : Nat} {commands : List Command}
    (horder : ∀ group, (reached harborId commands).channel c = some group → order.Perm group)
    (hp : dispatch (reached harborId commands) entry c order subscribed = some p)
    (hrun : p.run schedule p.start = some s) :
    (Keeps (reached harborId commands) entry c p schedule → Proper s) ∧
      (s.Finished → Proper s → Keeps (reached harborId commands) entry c p schedule) := by
  have hd := counted_reached harborId commands
  generalize reached harborId commands = d at *
  rcases dispatch_cases hp with ⟨hforwards, rfl⟩ | ⟨hnot, rfl⟩
  · exact ⟨fun _ => remotePublish_proper hrun, fun _ _ hnot => absurd hforwards hnot⟩
  cases hchannel : d.channel c with
  | none =>
      rw [publish_dead hchannel] at hrun
      refine ⟨fun _ => deadChannel_proper hrun, fun _ _ _ group hgroup => ?_⟩
      rw [hchannel] at hgroup
      cases hgroup
  | some group =>
      have hgroup := @publish_group d c order subscribed group hd hchannel (horder group hchannel)
      obtain ⟨hgood, hbad⟩ := hgroup.run hrun
      constructor
      · intro hkeeps
        obtain ⟨hne, hheld⟩ := hkeeps hnot group hchannel
        have hn : 0 < group.length := List.length_pos_of_ne_nil hne
        rcases hheld with hnone | hheld
        · have hlocal := hgroup
          rw [hnone] at hlocal
          exact hgood hn fun before s₁ _ hrun₁ => hlocal.held hn hrun₁
        · exact hgood hn hheld
      · intro hfinished hproper _ group' hgroup'
        rw [hchannel] at hgroup'
        cases hgroup'
        obtain ⟨hn, hheld⟩ := hbad hfinished hproper
        exact ⟨List.ne_nil_of_length_pos hn, .inr hheld⟩

/-- Two subscribers and another node: the publisher reads before the second one closes. -/
theorem proper_two : ∃ p s, dispatch (reached 1 [.new, .sub 7 1, .sub 8 1, .subr 2 1]) (.pub 1) 1
      [8, 7] (fun _ => true) = some p ∧
    p.run [0, 0, 1, 1, 1, 0, 2, 2, 0, 0, 2] p.start = some s ∧ s.Finished ∧ Proper s := by
  have hgroup : (reached 1 [.new, .sub 7 1, .sub 8 1, .subr 2 1]).channel 1 = some [8, 7] := by
    decide +kernel
  have horder : ∀ group, (reached 1 [.new, .sub 7 1, .sub 8 1, .subr 2 1]).channel 1 = some group →
      [8, 7].Perm group := by
    intro group hchannel
    rw [hgroup] at hchannel
    cases hchannel
    exact List.Perm.refl _
  let p : Publication := ⟨[.bind 2, .redirect 0, .redirect 1, .unpack, .read],
    [[.unpack, .read, .close], [.unpack, .read, .close]]⟩
  have hp : dispatch (reached 1 [.new, .sub 7 1, .sub 8 1, .subr 2 1]) (.pub 1) 1 [8, 7]
      (fun _ => true) = some p := by
    decide +kernel
  have hrun : p.run [0, 0, 1, 1, 1, 0, 2, 2, 0, 0, 2] p.start =
      some ⟨⟨0, 1, 1, false⟩, [[], [], []]⟩ := by
    decide +kernel
  refine ⟨p, _, hp, hrun, by decide, (proper_iff horder hp hrun).1 ?_⟩
  intro _ group hchannel
  rw [hgroup] at hchannel
  cases hchannel
  refine ⟨List.cons_ne_nil _ _, .inr fun before s hbefore hs => ?_⟩
  have hall : ∀ before ∈ [0, 0, 1, 1, 1, 0, 2, 2, 0, 0, 2].inits,
      ∀ s ∈ p.run before p.start, s.Held := by
    decide +kernel
  exact hall before ((List.mem_inits before _).mpr hbefore) s hs

/-- The only subscriber of a channel with another node closes the package before the publisher
reads it. -/
theorem package_read_after_free :
    ((publish (reached 1 [.new, .sub 7 1, .subr 2 1]) 1 [7] fun _ => true).run [0, 0, 1, 1, 1, 0, 0]
      (publish (reached 1 [.new, .sub 7 1, .subr 2 1]) 1 [7] fun _ => true).start).map
        (fun s => s.package) = some ⟨0, 1, 1, true⟩ ∧
    ((publish (reached 1 [.new]) 1 [] fun _ => true).run [0]
      (publish (reached 1 [.new]) 1 [] fun _ => true).start).map
        (fun s => (s.package, s.threads)) = some (⟨0, 0, 0, false⟩, [[]]) := by
  decide +kernel

end Jump.Skynet.Multicast
