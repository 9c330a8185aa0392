import Jump.Skynet.GateService.Runs

/-! # What the gate promises

The frames that go out, the boundaries between them, and frames that are too long.
-/

namespace Jump.Skynet.GateService

open Jump.Core

variable {g : Gate} {events : List Event} {steps : List Step} {style : HeaderStyle}
  {watchdog clientTag max : Nat} {listenId : Int}

/-! ## Reassembly -/

/-- Each node of the pool is in the list of one connection or on the free list. -/
structure NodesOnce (g : Gate) (lists : Nat → List Nat) (free : List Nat) : Prop where
  list (i : Nat) : Chain g.mp.next 0 (g.conn i).buffer.head (lists i)
  freelist : Chain g.mp.next 0 g.mp.freelist free
  nodup (i : Nat) : (lists i ++ free).Nodup
  once {p : Nat} : 0 < p → p ≤ g.mp.limit →
    (p ∈ free ∧ ∀ i, p ∉ lists i) ∨ p ∉ free ∧ ∃ i, p ∈ lists i ∧ ∀ j, p ∈ lists j → j = i

theorem Gate.Inv.nodesOnce {lists : Nat → List Nat} {free : List Nat} {rest : Nat → List UInt8}
    (inv : g.Inv lists free rest) : NodesOnce g lists free where
  list i := (inv.layout.buffered i).linked.chain
  freelist := (inv.layout.buffered 0).linked.freelist
  nodup i := (inv.layout.buffered i).linked.nodup
  once hpos hle := inv.layout.once hpos hle

/-- The next chunk is taken without a failed assertion. -/
theorem Gate.Inv.data_isSome {lists : Nat → List Nat} {free : List Nat} {rest : Nat → List UInt8}
    (inv : g.Inv lists free rest) (id : Int) {b : List UInt8} (hb : b ≠ []) :
    (g.step (.data id b)).isSome = true := by
  obtain ⟨g', outs, rest', hstep, -⟩ := step_data inv id hb
  rw [hstep]
  rfl

theorem Gate.Inv.close_isSome {lists : Nat → List Nat} {free : List Nat} {rest : Nat → List UInt8}
    (inv : g.Inv lists free rest) (id : Int) : (g.step (.close id)).isSome = true := by
  obtain ⟨g', outs, rest', hstep, -⟩ := step_close inv id
  rw [hstep]
  rfl

/-- There is a destination for every chunk. -/
def AlwaysAddressed (steps : List Step) : Prop :=
  ∀ s ∈ steps, ∀ id b c, s.event = .data id b → s.gate.connection id = some c →
    Addressed s.gate c

theorem AlwaysAddressed.destined (h : AlwaysAddressed steps) (id : Int) :
    Destined style id steps := by
  intro front s hfront b c hb hc _
  have hmem : s ∈ steps := hfront.subset (List.mem_append_right _ List.mem_cons_self)
  exact h s hmem id b c (Step.of_bytes hb).1 hc

/-- The gate puts the frames of every connection together again. -/
theorem frames_forwarded
    (hrun : (gateInit style watchdog clientTag max listenId).run events = some (g, steps))
    (hlawful : ∀ s ∈ steps, Lawful s.gate s.event) (haddr : AlwaysAddressed steps)
    (hshort : ∀ id, Short style id steps) :
    (∀ id c, g.connection id = some c →
      List.Forall₂ (Delivered id) (forwarded id steps) (frames style (received id steps))) ∧
    (∃ lists free, NodesOnce g lists free) ∧
    (∀ id b, b ≠ [] → (g.step (.data id b)).isSome = true) ∧
    ∀ id, (g.step (.close id)).isSome = true := by
  obtain ⟨lists, free, rest, inv⟩ := run_inv hrun hlawful
  refine ⟨fun id c hc => ?_, ⟨lists, free, inv.nodesOnce⟩, fun id b hb => inv.data_isSome id hb,
    inv.close_isSome⟩
  rcases inv.connection_cases id with ⟨i, hi, -, -⟩ | ⟨-, -, hnone⟩
  · exact run_delivered hrun hlawful (hshort id) (haddr.destined id) hi
  · rw [hnone] at hc
    exact nomatch hc

/-- With a header of two bytes no frame is too long. -/
theorem short_S (id : Int) (steps : List Step) : Short .S id steps := by
  intro front _ frame hmem
  obtain ⟨hheader, hcontent⟩ := (HeaderStyle.S.framing.split_spec _).2.1 frame hmem
  have hlt := BigEndian.decode_lt frame.1
  have hlen : frame.1.length = 2 := hheader
  have hdecode : frame.2.length = BigEndian.decode frame.1 := hcontent
  rw [hlen] at hlt
  omega

/-- Two connections whose chunks come in turn. -/
def twoConnections : List Event :=
  [.accept 1 7, .accept 1 23, .connect 7, .connect 23, .data 7 [0], .data 23 [0, 1],
    .data 7 [2, 65], .data 23 [90, 0], .data 7 [66, 0, 0]]

theorem frames_forwarded_two : ∃ g steps,
    (gateInit .S 2 3 4 1).run twoConnections = some (g, steps) ∧
    received 7 steps = [0, 2, 65, 66, 0, 0] ∧
    (∀ id c, g.connection id = some c →
      List.Forall₂ (Delivered id) (forwarded id steps) (frames .S (received id steps))) ∧
    (∃ lists free, NodesOnce g lists free) ∧
    (∀ id b, b ≠ [] → (g.step (.data id b)).isSome = true) ∧
    ∀ id, (g.step (.close id)).isSome = true := by
  have hcheck : (((gateInit .S 2 3 4 1).run twoConnections).any fun r =>
      received 7 r.2 = [0, 2, 65, 66, 0, 0] ∧
        r.2.all fun s => Lawful s.gate s.event ∧ s.gate.watchdog ≠ 0) = true := by decide +kernel
  obtain ⟨⟨g, steps⟩, hrun, hboth⟩ := (Option.any_eq_true _ _).mp hcheck
  simp only [decide_eq_true_eq, List.all_eq_true] at hboth
  obtain ⟨hreceived, hsteps⟩ := hboth
  exact ⟨g, steps, hrun, hreceived, frames_forwarded hrun (fun s hs => (hsteps s hs).1)
    (fun s hs _ _ _ _ _ => .inr (.inr (hsteps s hs).2)) fun id => short_S id steps⟩

/-! ## Boundaries -/

/-- Every frame of the connection goes to the destination of its time or is dropped, and none of
them is mistaken. -/
def BoundariesKept (style : HeaderStyle) (id : Int) (steps : List Step) : Prop :=
  ∀ front s, front ++ [s] <+: steps → ∀ b c, s.bytes id = some b →
    s.gate.connection id = some c →
    s.outs = if Addressed s.gate c then
        (frames style ((style.framing.split (received id front)).2 ++ b)).map (deliver s.gate c)
      else []

theorem boundaries_kept
    (hrun : (gateInit style watchdog clientTag max listenId).run events = some (g, steps))
    (hlawful : ∀ s ∈ steps, Lawful s.gate s.event) {id : Int} (hshort : Short style id steps)
    (hdest : Destined style id steps) : BoundariesKept style id steps := by
  intro front s hfront b c hb hc
  have hrouted := routedRun_of_destined (run_headerSize hrun hlawful).2 hshort hdest
  obtain ⟨-, houts⟩ := (run_follows hrun hlawful hrouted).2 front s hfront b c hb hc
  have hshort' : Short style id (front ++ [s]) := fun f hf => hshort f (hf.trans hfront)
  rw [waiting_short hshort'.left, cut_legal (hshort'.chunk hb)] at houts
  have hall : s.outs = (frames style ((style.framing.split (received id front)).2 ++ b)).map
      (deliver s.gate c) := houts.trans (List.append_nil _)
  by_cases haddr : Addressed s.gate c
  · rw [if_pos haddr, hall]
  · have hsame : frames style (received id (front ++ [s])) = frames style (received id front) :=
      Decidable.not_not.mp fun hne => haddr (hdest front s hfront b c hb hc hne)
    rw [received_data hb, frames_append] at hsame
    rw [if_neg haddr, hall, List.append_right_eq_self.mp hsame]
    rfl

/-- A frame of two bytes for which there is no destination, then a broker and the frame `A`. -/
def strayFrame : List Event := [.accept 1 7, .data 7 [0, 2, 0, 1], .broker 9, .data 7 [0, 1, 65]]

/-- A frame by itself. -/
theorem frames_one {plen content : List UInt8} (h : style.framing.Complete (plen, content))
    (hne : content ≠ []) : frames style (plen ++ content) = [content] := by
  have hsplit : style.framing.split (plen ++ content) = ([(plen, content)], []) :=
    Framing.split_one h
  unfold frames
  rw [hsplit]
  exact payloads_cons hne []

/-- The broker gets the payload `0` in place of `A`. -/
theorem boundary_lost : ∃ g steps, (gateInit .S 0 3 4 1).run strayFrame = some (g, steps) ∧
    (∀ s ∈ steps, Lawful s.gate s.event) ∧ ¬BoundariesKept .S 7 steps := by
  have hcheck : (((gateInit .S 0 3 4 1).run strayFrame).any fun r =>
      (r.2.all fun s => Lawful s.gate s.event) ∧ received 7 r.2.dropLast = [0, 2, 0, 1] ∧
        r.2.getLast?.any fun s => s.bytes 7 = some [0, 1, 65] ∧
          (s.gate.connection 7).isSome ∧ s.gate.broker = 9 ∧
          s.outs = [.send 0 9 0x10003 [0]]) = true := by decide +kernel
  obtain ⟨⟨g, steps⟩, hrun, hall⟩ := (Option.any_eq_true _ _).mp hcheck
  simp only [decide_eq_true_eq, List.all_eq_true, Option.any_eq_true] at hall
  obtain ⟨hlawful, hreceived, s, hlast, hb, hopen, hbroker, houts⟩ := hall
  refine ⟨g, steps, hrun, hlawful, fun hkept => ?_⟩
  obtain ⟨c, hc⟩ := Option.isSome_iff_exists.mp hopen
  have hsteps : steps.dropLast ++ [s] <+: steps :=
    (List.dropLast_append_getLast? s hlast).symm ▸ List.prefix_refl steps
  have hsent := hkept steps.dropLast s hsteps [0, 1, 65] c hb hc
  have haddr : Addressed s.gate c := .inl (by rw [hbroker]; decide)
  have hfirst : HeaderStyle.S.framing.Complete ([0, 2], [0, 1]) := ⟨rfl, rfl⟩
  have hsecond : HeaderStyle.S.framing.Complete ([0, 1], [65]) := ⟨rfl, rfl⟩
  have hrest : (HeaderStyle.S.framing.split [0, 2, 0, 1]).2 = [] :=
    congrArg Prod.snd (Framing.split_one hfirst)
  have hframes : frames .S [0, 1, 65] = [[65]] := frames_one hsecond (List.cons_ne_nil _ _)
  rw [hreceived, hrest, List.nil_append, hframes, if_pos haddr, houts] at hsent
  unfold deliver at hsent
  rw [List.map_cons, if_pos (by rw [hbroker]; decide)] at hsent
  exact absurd hsent (by simp)

theorem boundaries_kept_two : ∃ g steps,
    (gateInit .S 2 3 4 1).run twoConnections = some (g, steps) ∧ BoundariesKept .S 7 steps := by
  have hcheck : (((gateInit .S 2 3 4 1).run twoConnections).any fun r =>
      r.2.all fun s => Lawful s.gate s.event ∧ s.gate.watchdog ≠ 0) = true := by decide +kernel
  obtain ⟨⟨g, steps⟩, hrun, hsteps⟩ := (Option.any_eq_true _ _).mp hcheck
  simp only [decide_eq_true_eq, List.all_eq_true] at hsteps
  have haddr : AlwaysAddressed steps := fun s hs _ _ _ _ _ => .inr (.inr (hsteps s hs).2)
  exact ⟨g, steps, hrun, boundaries_kept hrun (fun s hs => (hsteps s hs).1) (short_S 7 steps)
    (haddr.destined 7)⟩

/-! ## Frames that are too long -/

theorem run_prefix {g₀ : Gate} {front : List Step} (hrun : g₀.run events = some (g, steps))
    (hfront : front <+: steps) : ∃ events' g', g₀.run events' = some (g', front) := by
  induction events using List.reverseRecOn generalizing g steps with
  | nil =>
      obtain ⟨rfl, rfl⟩ := Prod.mk.inj (Option.some.inj hrun)
      exact ⟨[], g₀, List.prefix_nil.mp hfront ▸ rfl⟩
  | append_singleton events e ih =>
      obtain ⟨g₁, steps₁, outs, hrun₁, hstep, rfl⟩ := run_concat_eq hrun
      rcases List.prefix_concat_iff.mp hfront with rfl | hfront
      · exact ⟨_, g, hrun⟩
      · exact ih hrun₁ hfront

/-- In the step `s` the chunk `b` completes a header of 2 ^ 24 or more. -/
structure HeaderArrives (id : Int) (front : List Step) (s : Step) (b : List UInt8) (c : Connection)
    (fs : List (List UInt8 × List UInt8)) (plen tail : List UInt8) : Prop where
  bytes : s.bytes id = some b
  connection : s.gate.connection id = some c
  stream : waiting .L id front ++ b = Framing.stream fs ++ plen ++ tail
  frames : ∀ frame ∈ fs, HeaderStyle.L.framing.Complete frame ∧ BigEndian.decode frame.1 < 2 ^ 24
  length : plen.length = 4
  big : 2 ^ 24 ≤ BigEndian.decode plen
  now : (waiting .L id front).length < (Framing.stream fs ++ plen).length

/-- The gate closes the connection when the header is complete, with no more than the chunk in the
buffer, and forwards nothing for it in the steps after that. -/
structure Rejected (id : Int) (s : Step) (b : List UInt8) (c : Connection)
    (fs : List (List UInt8 × List UInt8)) (g : Gate) (back : List Step) : Prop where
  closed : s.outs = (payloads fs).map (deliver s.gate c) ++ [.socketClose id]
  buffered : ∀ c', g.connection id = some c' → c'.buffer.size ≤ b.length
  silent : ∀ mid t, mid ++ [t] <+: back → (∀ u ∈ mid, u.event.resets id = false) →
    (t.bytes id).isSome = true → ∀ source destination type msg,
      .send source destination type msg ∉ t.outs

/-- The chunks after the header complete no frame that would be sent on. -/
def Quiet (id : Int) (front back : List Step) : Prop :=
  ∀ mid t, mid ++ [t] <+: back → (∀ u ∈ mid, u.event.resets id = false) → ∀ b, t.bytes id = some b →
    payloads (cut .L (waiting .L id (front ++ mid) ++ b)).frames = [] ∧
      ∀ frame ∈ (cut .L (waiting .L id (front ++ mid) ++ b)).tooLong,
        BigEndian.decode frame.1 < 2 ^ 31

theorem prefix_append_cases {α : Type} {front a b : List α} {s : α}
    (h : front ++ [s] <+: a ++ b) :
    front ++ [s] <+: a ∨ ∃ mid, front = a ++ mid ∧ mid ++ [s] <+: b := by
  rcases List.prefix_or_prefix_of_prefix h (List.prefix_append a b) with hle | ⟨x, hx⟩
  · exact .inl hle
  · rcases List.eq_nil_or_concat x with rfl | ⟨mid, last, hconcat⟩
    · rw [List.append_nil] at hx
      exact .inl (hx ▸ List.prefix_refl _)
    · rw [List.concat_eq_append] at hconcat
      subst hconcat
      rw [← List.append_assoc] at hx
      obtain ⟨hmid, hlast⟩ := List.append_inj' hx rfl
      obtain rfl := List.singleton_inj.mp hlast
      refine .inr ⟨mid, hmid.symm, ?_⟩
      rw [← hmid, List.append_assoc] at h
      exact (List.prefix_append_right_inj a).mp h

theorem HeaderArrives.cut_eq {id : Int} {front : List Step} {s : Step} {b : List UInt8}
    {c : Connection} {fs : List (List UInt8 × List UInt8)} {plen tail : List UInt8}
    (h : HeaderArrives id front s b c fs plen tail)
    (hwhole : BigEndian.decode plen ≤ tail.length) :
    cut .L (waiting .L id front ++ b) =
      ⟨fs, some (plen, tail.take (BigEndian.decode plen)), []⟩ := by
  have hframe : HeaderStyle.L.framing.Complete (plen, tail.take (BigEndian.decode plen)) := by
    refine ⟨h.length, ?_⟩
    show (tail.take (BigEndian.decode plen)).length = BigEndian.decode plen
    rw [List.length_take, Nat.min_eq_left hwhole]
  have htail : plen ++ tail = plen ++ tail.take (BigEndian.decode plen) ++
      tail.drop (BigEndian.decode plen) := by
    rw [List.append_assoc, List.take_append_drop]
  rw [h.stream, List.append_assoc, htail, cut_stream h.frames,
    cut_tooLong hframe (Nat.not_lt_of_le h.big), List.append_nil]

/-- A chunk that completes no frame to send on is routed, whatever the destination. -/
theorem routed_of_quiet {c : Connection} {bytes : List UInt8} (hstyle : g.headerSize = .L)
    (hnone : payloads (cut .L bytes).frames = [])
    (hint : ∀ frame ∈ (cut .L bytes).tooLong, BigEndian.decode frame.1 < 2 ^ 31) :
    Routed g c bytes := by
  unfold Routed
  rw [hstyle]
  refine ⟨hint, fun frame hmem hne => ?_⟩
  have hin : frame.2 ∈ payloads (cut .L bytes).frames := by
    refine List.mem_filter.mpr ⟨List.mem_map_of_mem hmem, ?_⟩
    simpa using hne
  rw [hnone] at hin
  exact absurd hin List.not_mem_nil

theorem Cut.outs_quiet {k : Cut} (hnone : payloads k.frames = []) (c : Connection) (id : Int)
    (source destination type : Nat) (msg : List UInt8) :
    .send source destination type msg ∉ k.outs g c id := by
  unfold Cut.outs
  rw [hnone, List.map_nil, List.nil_append]
  intro hmem
  by_cases hsome : k.tooLong.isSome = true
  · rw [if_pos hsome] at hmem
    exact absurd (List.mem_singleton.mp hmem) nofun
  · rw [if_neg hsome] at hmem
    exact List.not_mem_nil hmem

/-- The step of the header sends the frames before it where they go. -/
theorem HeaderArrives.routedRun {id : Int} {front : List Step} {s : Step} {b : List UInt8}
    {c : Connection} {fs : List (List UInt8 × List UInt8)} {plen tail : List UInt8}
    (h : HeaderArrives id front s b c fs plen tail)
    (hcut : cut .L (waiting .L id front ++ b) =
      ⟨fs, some (plen, tail.take (BigEndian.decode plen)), []⟩)
    (hstyle : ∀ t ∈ front ++ [s], t.gate.headerSize = .L) (hrouted : RoutedRun .L id front)
    (haddr : ∀ frame ∈ fs, frame.2 ≠ [] → Addressed s.gate c)
    (hint : BigEndian.decode plen < 2 ^ 31) : RoutedRun .L id (front ++ [s]) := by
  intro f t hft b' c' hb hc
  rcases List.prefix_concat_iff.mp hft with heq | hft
  · obtain ⟨rfl, ht⟩ := List.append_inj' heq rfl
    obtain rfl := List.singleton_inj.mp ht
    obtain rfl := Option.some.inj (hb.symm.trans h.bytes)
    obtain rfl := Option.some.inj (hc.symm.trans h.connection)
    unfold Routed
    rw [hstyle t (List.mem_append_right _ List.mem_cons_self), hcut]
    refine ⟨fun frame hframe => ?_, haddr⟩
    obtain rfl := Option.some.inj hframe
    exact hint
  · exact hrouted f t hft b' c' hb hc

theorem rejected_when {g' : Gate} {later : List Event} {front back : List Step} {s : Step}
    (hrun : (gateInit .L watchdog clientTag max listenId).run events = some (g, front ++ [s]))
    (hrun' : (gateInit .L watchdog clientTag max listenId).run (events ++ later) =
      some (g', front ++ [s] ++ back))
    (hlawful : ∀ t ∈ front ++ [s] ++ back, Lawful t.gate t.event) {id : Int} {b : List UInt8}
    {c : Connection} {fs : List (List UInt8 × List UInt8)} {plen tail : List UInt8}
    (harrives : HeaderArrives id front s b c fs plen tail) (hrouted : RoutedRun .L id front)
    (haddr : ∀ frame ∈ fs, frame.2 ≠ [] → Addressed s.gate c)
    (hint : BigEndian.decode plen < 2 ^ 31) (hwhole : BigEndian.decode plen ≤ tail.length)
    (hquiet : Quiet id (front ++ [s]) back) : Rejected id s b c fs g back := by
  have hcut := harrives.cut_eq hwhole
  have hstyle := (run_headerSize hrun' hlawful).2
  have hlawful₁ : ∀ t ∈ front ++ [s], Lawful t.gate t.event :=
    fun t ht => hlawful t (List.mem_append_left _ ht)
  have hrouted₁ : RoutedRun .L id (front ++ [s]) :=
    harrives.routedRun hcut (fun t ht => hstyle t (List.mem_append_left _ ht)) hrouted haddr hint
  obtain ⟨⟨lists, free, rest, inv, hfollows⟩, hsent⟩ := run_follows hrun hlawful₁ hrouted₁
  obtain ⟨-, houts⟩ :=
    hsent front s (List.prefix_refl _) b c harrives.bytes harrives.connection
  have hnot : s.event.resets id = false := by
    rw [(Step.of_bytes harrives.bytes).1]
    rfl
  have hwaiting : waiting .L id (front ++ [s]) = [] := by
    rw [waiting_concat, harrives.bytes, hnot]
    exact congrArg Cut.rest hcut
  refine ⟨?_, fun c' hc' => ?_, fun mid t ht hopen hb => ?_⟩
  · rw [houts, hcut]
    rfl
  · rcases inv.connection_cases id with ⟨i, hi, -, hci⟩ | ⟨-, -, hnone⟩
    · rw [hci] at hc'
      obtain rfl := Option.some.inj hc'
      have hsize := (inv.layout.buffered i).size_le
      rw [hfollows.rest hi, hwaiting] at hsize
      exact Nat.le_trans hsize (Nat.zero_le _)
    · rw [hnone] at hc'
      exact nomatch hc'
  · -- the run up to `t` is routed as well, so what `t` sends is the frames of its chunk
    have hpre : front ++ [s] ++ (mid ++ [t]) <+: front ++ [s] ++ back :=
      (List.prefix_append_right_inj _).mpr ht
    obtain ⟨events', g₁, hrun₁⟩ := run_prefix hrun' hpre
    have hbefore : ∀ {mid' u}, mid' ++ [u] <+: mid ++ [t] → mid' <+: mid := by
      intro mid' u hu
      rcases List.prefix_concat_iff.mp hu with heq | hu
      · exact (List.append_inj' heq rfl).1 ▸ List.prefix_refl _
      · exact (List.prefix_append ..).trans hu
    have hrouted₂ : RoutedRun .L id (front ++ [s] ++ (mid ++ [t])) := by
      intro f u hu b' c' hb' hc'
      rcases prefix_append_cases hu with hold | ⟨mid', rfl, hnew⟩
      · exact hrouted₁ f u hold b' c' hb' hc'
      · have hmem : u ∈ back := (hnew.trans ht).subset (List.mem_append_right _ List.mem_cons_self)
        obtain ⟨hnone, hint'⟩ := hquiet mid' u (hnew.trans ht)
          (fun v hv => hopen v ((hbefore hnew).subset hv)) b' hb'
        exact routed_of_quiet (hstyle u (List.mem_append_right _ hmem)) hnone hint'
    obtain ⟨b', hb'⟩ := Option.isSome_iff_exists.mp hb
    obtain ⟨c', hc'⟩ := (Step.of_bytes hb').2
    have hfront : (front ++ [s] ++ mid) ++ [t] <+: front ++ [s] ++ (mid ++ [t]) :=
      List.append_assoc (front ++ [s]) mid [t] ▸ List.prefix_refl _
    obtain ⟨-, hout⟩ :=
      (run_follows hrun₁ (fun u hu => hlawful u (hpre.subset hu)) hrouted₂).2 _ t hfront b' c'
        hb' hc'
    rw [hout]
    exact Cut.outs_quiet (hquiet mid t ht hopen b' hb').1 c' id

/-- One connection, as it is accepted. -/
def oneConnection : List Event := [.accept 1 7]

/-- A header of 2 ^ 24 with that many bytes after it, in one chunk. -/
theorem rejected_when_whole : ∃ front s g, ∃ b c,
    (gateInit .L 2 3 4 1).run (oneConnection ++ [.data 7 b]) = some (g, front ++ [s]) ∧
    b = [1, 0, 0, 0] ++ List.replicate (2 ^ 24) 0 ∧ Rejected 7 s b c [] g [] := by
  have hcheck : (((gateInit .L 2 3 4 1).run oneConnection).any fun r =>
      (r.2.all fun s => Lawful s.gate s.event) ∧ (r.1.connection 7).isSome ∧
        waiting .L 7 r.2 = [] ∧ r.2.all fun s => s.bytes 7 = none) = true := by decide +kernel
  obtain ⟨⟨g, front⟩, hrun, hall⟩ := (Option.any_eq_true _ _).mp hcheck
  simp only [decide_eq_true_eq, List.all_eq_true] at hall
  obtain ⟨hlawful, hopen, hwaiting, hnone⟩ := hall
  obtain ⟨c, hc⟩ := Option.isSome_iff_exists.mp hopen
  obtain ⟨lists, free, rest, inv⟩ := run_inv hrun hlawful
  let b : List UInt8 := [1, 0, 0, 0] ++ List.replicate (2 ^ 24) 0
  have hb : b ≠ [] := List.cons_ne_nil _ _
  obtain ⟨g', outs, rest', hstep, -⟩ := step_data inv 7 hb
  have hbytes : (⟨g, .data 7 b, outs⟩ : Step).bytes 7 = some b :=
    (Step.bytes_open hc).trans (Event.bytes_self 7 b)
  have hrun' : (gateInit .L 2 3 4 1).run (oneConnection ++ [.data 7 b]) =
      some (g', front ++ [⟨g, .data 7 b, outs⟩]) := by
    rw [run_concat, hrun]
    dsimp only [Option.bind_some]
    rw [hstep]
    rfl
  have harrives : HeaderArrives 7 front ⟨g, .data 7 b, outs⟩ b c [] [1, 0, 0, 0]
      (List.replicate (2 ^ 24) 0) :=
    { bytes := hbytes
      connection := hc
      stream := by rw [hwaiting]; rfl
      frames := nofun
      length := rfl
      big := by decide
      now := by rw [hwaiting]; decide }
  have hrun'' : (gateInit .L 2 3 4 1).run (oneConnection ++ [.data 7 b] ++ []) =
      some (g', front ++ [⟨g, .data 7 b, outs⟩] ++ []) := by
    rw [List.append_nil, List.append_nil]
    exact hrun'
  refine ⟨front, _, g', b, c, hrun', rfl,
    rejected_when hrun' hrun'' ?_ harrives ?_ nofun (by decide) ?_ ?_⟩
  · intro t ht
    rw [List.append_nil] at ht
    rcases List.mem_append.mp ht with ht | ht
    · exact hlawful t ht
    · obtain rfl := List.mem_singleton.mp ht
      exact hb
  · intro f t hft b' c' hb' hc'
    have hmem : t ∈ front := hft.subset (List.mem_append_right _ List.mem_cons_self)
    rw [hnone t hmem] at hb'
    exact nomatch hb'
  · rw [List.length_replicate]
    decide
  · intro mid t ht
    exact absurd (List.prefix_nil.mp ht)
      (List.append_ne_nil_of_right_ne_nil _ (List.cons_ne_nil _ _))

/-- The header alone. The gate waits for the bytes after it. -/
def headerAlone : List Event := [.accept 1 7, .data 7 [1, 0, 0, 0]]

theorem header_waits : ∃ front s g, ∃ b c plen,
    (gateInit .L 2 3 4 1).run headerAlone = some (g, front ++ [s]) ∧
    (∀ t ∈ front ++ [s], Lawful t.gate t.event) ∧ HeaderArrives 7 front s b c [] plen [] ∧
    ¬Rejected 7 s b c [] g [] := by
  have hcheck : (((gateInit .L 2 3 4 1).run headerAlone).any fun r =>
      (r.2.all fun s => Lawful s.gate s.event) ∧ waiting .L 7 r.2.dropLast = [] ∧
        r.2.getLast?.any fun s => s.bytes 7 = some [1, 0, 0, 0] ∧
          (s.gate.connection 7).isSome ∧ s.outs.length = 0) = true := by decide +kernel
  obtain ⟨⟨g, steps⟩, hrun, hall⟩ := (Option.any_eq_true _ _).mp hcheck
  simp only [decide_eq_true_eq, List.all_eq_true, Option.any_eq_true] at hall
  obtain ⟨hlawful, hwaiting, s, hlast, hb, hopen, houts⟩ := hall
  obtain ⟨c, hc⟩ := Option.isSome_iff_exists.mp hopen
  have hsteps : steps.dropLast ++ [s] = steps := List.dropLast_append_getLast? s hlast
  refine ⟨steps.dropLast, s, g, [1, 0, 0, 0], c, [1, 0, 0, 0], hsteps.symm ▸ hrun,
    hsteps.symm ▸ hlawful, ⟨hb, hc, by rw [hwaiting]; rfl, nofun, rfl, by decide, ?_⟩, ?_⟩
  · rw [hwaiting]
    decide
  · intro hrejected
    rw [hrejected.closed, List.length_append] at houts
    exact Nat.succ_ne_zero _ houts

end Jump.Skynet.GateService
