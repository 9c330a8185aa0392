import Jump.Skynet.GateService.Steps
import Mathlib.Data.List.Forall2

/-! # Runs of the gate

A run keeps what came before each step and what went out in it, so that the frames of a
connection can be set against the messages that were sent for them.
-/

namespace Jump.Skynet.GateService

open Jump.Core

structure Step where
  gate : Gate
  event : Event
  outs : List Out

/-- The events one after another, with the steps that they make. -/
def Gate.run (g : Gate) (events : List Event) : Option (Gate × List Step) :=
  events.foldl (fun acc e => acc.bind fun r =>
    (r.1.step e).map fun t => (t.1, r.2 ++ [⟨r.1, e, t.2⟩])) (some (g, []))

/-- The chunk that arrives on the connection. -/
def Step.bytes (id : Int) (s : Step) : Option (List UInt8) :=
  if (s.gate.connection id).isSome then s.event.bytes id else none

/-- The bytes that arrived on the connection since it was accepted. -/
def received (id : Int) (steps : List Step) : List UInt8 :=
  steps.foldl (fun bytes s =>
    if s.event.resets id then [] else bytes ++ (s.bytes id).getD []) []

/-- What went out for them, each with the gate as it was then. -/
def forwarded (id : Int) (steps : List Step) : List (Gate × Out) :=
  steps.foldl (fun outs s =>
    if s.event.resets id then []
    else if (s.bytes id).isSome then outs ++ s.outs.map (s.gate, ·)
    else outs) []

/-- What the buffer of the connection holds if its frames are recognised. -/
def waiting (style : HeaderStyle) (id : Int) (steps : List Step) : List UInt8 :=
  steps.foldl (fun bytes s =>
    if s.event.resets id then []
    else match s.bytes id with
      | some b => (cut style (bytes ++ b)).rest
      | none => bytes) []

/-- The payloads of the frames that are complete. -/
def frames (style : HeaderStyle) (bytes : List UInt8) : List (List UInt8) :=
  payloads (style.framing.split bytes).1

variable {g g₀ : Gate} {events : List Event} {steps : List Step} {style : HeaderStyle}

theorem run_concat (g₀ : Gate) (events : List Event) (e : Event) :
    g₀.run (events ++ [e]) = (g₀.run events).bind fun r =>
      (r.1.step e).map fun t => (t.1, r.2 ++ [⟨r.1, e, t.2⟩]) := by
  unfold Gate.run
  rw [List.foldl_concat]

/-- A run of one event more. -/
theorem run_concat_eq {e : Event} (h : g₀.run (events ++ [e]) = some (g, steps)) :
    ∃ g₁ steps₁ outs, g₀.run events = some (g₁, steps₁) ∧ g₁.step e = some (g, outs) ∧
      steps = steps₁ ++ [⟨g₁, e, outs⟩] := by
  rw [run_concat] at h
  obtain ⟨⟨g₁, steps₁⟩, hrun, hrest⟩ := Option.bind_eq_some_iff.mp h
  obtain ⟨⟨g₂, outs⟩, hstep, heq⟩ := Option.map_eq_some_iff.mp hrest
  obtain ⟨rfl, rfl⟩ := Prod.mk.inj heq
  exact ⟨g₁, steps₁, outs, hrun, hstep, rfl⟩

section Streams

variable {id : Int} {s : Step}

theorem Event.eq_data {e : Event} {b : List UInt8} (h : e.bytes id = some b) : e = .data id b := by
  cases e with
  | data fd buffer =>
      by_cases hfd : fd = id
      · subst hfd
        rw [Event.bytes_self] at h
        rw [Option.some.inj h]
      · rw [Event.bytes_other hfd] at h
        exact nomatch h
  | _ => exact nomatch h

theorem Step.bytes_open {c : Connection} (hc : s.gate.connection id = some c) :
    s.bytes id = s.event.bytes id := by
  unfold Step.bytes
  rw [hc]
  rfl

theorem Step.of_bytes {b : List UInt8} (h : s.bytes id = some b) :
    s.event = .data id b ∧ ∃ c, s.gate.connection id = some c := by
  unfold Step.bytes at h
  by_cases hopen : (s.gate.connection id).isSome = true
  · rw [if_pos hopen] at h
    exact ⟨Event.eq_data h, Option.isSome_iff_exists.mp hopen⟩
  · rw [if_neg hopen] at h
    exact nomatch h

theorem received_concat (id : Int) (steps : List Step) (s : Step) :
    received id (steps ++ [s]) =
      if s.event.resets id then [] else received id steps ++ (s.bytes id).getD [] :=
  List.foldl_concat ..

theorem forwarded_concat (id : Int) (steps : List Step) (s : Step) :
    forwarded id (steps ++ [s]) =
      if s.event.resets id then []
      else if (s.bytes id).isSome then forwarded id steps ++ s.outs.map (s.gate, ·)
      else forwarded id steps := List.foldl_concat ..

theorem waiting_concat (style : HeaderStyle) (id : Int) (steps : List Step) (s : Step) :
    waiting style id (steps ++ [s]) =
      if s.event.resets id then []
      else match s.bytes id with
        | some b => (cut style (waiting style id steps ++ b)).rest
        | none => waiting style id steps := List.foldl_concat ..

theorem received_data {b : List UInt8} (h : s.bytes id = some b) (steps : List Step) :
    received id (steps ++ [s]) = received id steps ++ b := by
  rw [received_concat, h, (Step.of_bytes h).1]
  rfl

end Streams

/-- Every reachable gate keeps the invariant, whatever the frames are. -/
theorem run_inv {watchdog clientTag max : Nat} {listenId : Int}
    (hrun : (gateInit style watchdog clientTag max listenId).run events = some (g, steps))
    (hlawful : ∀ s ∈ steps, Lawful s.gate s.event) :
    ∃ lists free rest, g.Inv lists free rest := by
  induction events using List.reverseRecOn generalizing g steps with
  | nil =>
      obtain ⟨rfl, rfl⟩ := Prod.mk.inj (Option.some.inj hrun)
      exact ⟨_, _, _, .init style watchdog clientTag max listenId⟩
  | append_singleton events e ih =>
      obtain ⟨g₁, steps₁, outs, hrun₁, hstep, rfl⟩ := run_concat_eq hrun
      obtain ⟨lists, free, rest, inv⟩ :=
        ih hrun₁ fun s hs => hlawful s (List.mem_append_left _ hs)
      obtain ⟨rest', ⟨lists', free', inv'⟩, -⟩ :=
        step_after inv (hlawful _ (List.mem_append_right _ List.mem_cons_self)) hstep
      exact ⟨lists', free', rest', inv'⟩

theorem run_headerSize {watchdog clientTag max : Nat} {listenId : Int}
    (hrun : (gateInit style watchdog clientTag max listenId).run events = some (g, steps))
    (hlawful : ∀ s ∈ steps, Lawful s.gate s.event) :
    g.headerSize = style ∧ ∀ s ∈ steps, s.gate.headerSize = style := by
  induction events using List.reverseRecOn generalizing g steps with
  | nil =>
      obtain ⟨rfl, rfl⟩ := Prod.mk.inj (Option.some.inj hrun)
      exact ⟨rfl, fun s hs => absurd hs List.not_mem_nil⟩
  | append_singleton events e ih =>
      obtain ⟨g₁, steps₁, outs, hrun₁, hstep, rfl⟩ := run_concat_eq hrun
      have hlawful₁ : ∀ s ∈ steps₁, Lawful s.gate s.event :=
        fun s hs => hlawful s (List.mem_append_left _ hs)
      obtain ⟨hg₁, hsteps₁⟩ := ih hrun₁ hlawful₁
      obtain ⟨lists, free, rest, inv⟩ := run_inv hrun₁ hlawful₁
      obtain ⟨rest', hafter⟩ :=
        step_after inv (hlawful _ (List.mem_append_right _ List.mem_cons_self)) hstep
      refine ⟨hafter.style.trans hg₁, fun s hs => ?_⟩
      rcases List.mem_append.mp hs with hs | hs
      · exact hsteps₁ s hs
      · obtain rfl := List.mem_singleton.mp hs
        exact hg₁

/-! ## One connection -/

/-- The frames of the connection that are completed have a destination then. -/
def RoutedRun (style : HeaderStyle) (id : Int) (steps : List Step) : Prop :=
  ∀ front s, front ++ [s] <+: steps → ∀ b c, s.bytes id = some b →
    s.gate.connection id = some c → Routed s.gate c (waiting style id front ++ b)

/-- What goes out in a step with a chunk of the connection. -/
def SentInStep (style : HeaderStyle) (id : Int) (front : List Step) (s : Step) : Prop :=
  ∀ b c, s.bytes id = some b → s.gate.connection id = some c →
    c.id = id ∧ s.outs = (cut style (waiting style id front ++ b)).outs s.gate c id

/-- The gate after a run, as far as one connection goes. -/
structure Follows (style : HeaderStyle) (id : Int) (g : Gate) (steps : List Step)
    (rest : Nat → List UInt8) : Prop where
  headerSize : g.headerSize = style
  rest {i : Nat} : g.hash.Stored id (i + 1) → rest i = waiting style id steps

theorem Follows.step {id : Int} {lists : Nat → List Nat} {free : List Nat}
    {rest rest' : Nat → List UInt8} {e : Event} {g' : Gate} {outs : List Out}
    (inv : g.Inv lists free rest) (hfollows : Follows style id g steps rest)
    (hrouted : ∀ b c, (⟨g, e, outs⟩ : Step).bytes id = some b → g.connection id = some c →
      Routed g c (waiting style id steps ++ b))
    (hafter : After g rest e g' outs rest') :
    Follows style id g' (steps ++ [⟨g, e, outs⟩]) rest' ∧
      SentInStep style id steps ⟨g, e, outs⟩ := by
  obtain ⟨rfl, hrest⟩ := hfollows
  have hbytes : ∀ {i}, g.hash.Stored id (i + 1) →
      (⟨g, e, outs⟩ : Step).bytes id = e.bytes id := fun hi => Step.bytes_open (inv.connection hi)
  have hroute : ∀ {i}, g.hash.Stored id (i + 1) → ∀ b, e = .data id b →
      Routed g (g.conn i) (rest i ++ b) := by
    rintro i hi b rfl
    rw [hrest hi]
    exact hrouted b _ ((hbytes hi).trans (Event.bytes_self id b)) (inv.connection hi)
  refine ⟨⟨hafter.style, fun {i} hi => ?_⟩, fun b c hb hc => ?_⟩
  · rw [waiting_concat]
    rcases hafter.kept hi with ⟨hresets, hnil⟩ | ⟨hresets, hold, heq⟩
    · rw [if_pos hresets, hnil]
    · rw [heq (hroute hold), hrest hold, hbytes hold]
      rfl
  · rcases inv.connection_cases id with ⟨i, hi, -, hci⟩ | ⟨-, -, hnone⟩
    · rw [hci] at hc
      obtain rfl := Option.some.inj hc
      have he : e = .data id b := (Step.of_bytes hb).1
      refine ⟨inv.stored hi, ?_⟩
      rw [← hrest hi]
      exact hafter.sent he hi (hroute hi b he)
    · rw [hnone] at hc
      exact nomatch hc

theorem run_follows {watchdog clientTag max : Nat} {listenId : Int}
    (hrun : (gateInit style watchdog clientTag max listenId).run events = some (g, steps))
    (hlawful : ∀ s ∈ steps, Lawful s.gate s.event) {id : Int}
    (hrouted : RoutedRun style id steps) :
    (∃ lists free rest, g.Inv lists free rest ∧ Follows style id g steps rest) ∧
      ∀ front s, front ++ [s] <+: steps → SentInStep style id front s := by
  induction events using List.reverseRecOn generalizing g steps with
  | nil =>
      obtain ⟨rfl, rfl⟩ := Prod.mk.inj (Option.some.inj hrun)
      refine ⟨⟨_, _, _, .init style watchdog clientTag max listenId, rfl, fun _ => rfl⟩, ?_⟩
      intro front s hprefix
      exact absurd (List.prefix_nil.mp hprefix)
        (List.append_ne_nil_of_right_ne_nil _ (List.cons_ne_nil _ _))
  | append_singleton events e ih =>
      obtain ⟨g₁, steps₁, outs, hrun₁, hstep, rfl⟩ := run_concat_eq hrun
      have hfront : steps₁ <+: steps₁ ++ [⟨g₁, e, outs⟩] := List.prefix_append ..
      obtain ⟨⟨lists, free, rest, inv, hfollows⟩, hsent⟩ :=
        ih hrun₁ (fun s hs => hlawful s (List.mem_append_left _ hs))
          fun front s h => hrouted front s (h.trans hfront)
      obtain ⟨rest', hafter⟩ :=
        step_after inv (hlawful _ (List.mem_append_right _ List.mem_cons_self)) hstep
      obtain ⟨lists', free', inv'⟩ := hafter.inv
      obtain ⟨hfollows', hsent'⟩ := hfollows.step inv (hrouted _ _ (List.prefix_refl _)) hafter
      refine ⟨⟨lists', free', rest', inv', hfollows'⟩, fun front s h => ?_⟩
      rcases List.prefix_concat_iff.mp h with heq | h
      · obtain ⟨rfl, hs⟩ := List.append_inj' heq rfl
        obtain rfl := List.singleton_inj.mp hs
        exact hsent'
      · exact hsent front s h

/-! ## Frames that are recognised -/

/-- No frame of the connection is too long. -/
def Short (style : HeaderStyle) (id : Int) (steps : List Step) : Prop :=
  ∀ front, front <+: steps →
    ∀ frame ∈ (style.framing.split (received id front)).1, frame.2.length < 2 ^ 24

/-- A frame that is not empty is completed only while there is a destination. -/
def Destined (style : HeaderStyle) (id : Int) (steps : List Step) : Prop :=
  ∀ front s, front ++ [s] <+: steps → ∀ b c, s.bytes id = some b →
    s.gate.connection id = some c →
    frames style (received id (front ++ [s])) ≠ frames style (received id front) →
    Addressed s.gate c

theorem frames_append (style : HeaderStyle) (a b : List UInt8) :
    frames style (a ++ b) = frames style a ++ frames style ((style.framing.split a).2 ++ b) := by
  unfold frames
  rw [Framing.split_append, payloads_append]

theorem Short.left {id : Int} {s : Step} (h : Short style id (steps ++ [s])) :
    Short style id steps := fun front hfront => h front (hfront.trans (List.prefix_append ..))

/-- The frames that a chunk completes are short. -/
theorem Short.chunk {id : Int} {s : Step} {b : List UInt8} (h : Short style id (steps ++ [s]))
    (hb : s.bytes id = some b) :
    ∀ frame ∈ (style.framing.split ((style.framing.split (received id steps)).2 ++ b)).1,
      BigEndian.decode frame.1 < 2 ^ 24 := by
  intro frame hmem
  have hlen : frame.2.length = BigEndian.decode frame.1 :=
    ((style.framing.split_spec _).2.1 frame hmem).2
  rw [← hlen]
  refine h _ (List.prefix_refl _) frame ?_
  rw [received_data hb, Framing.split_append]
  exact List.mem_append_right _ hmem

/-- Short frames are all recognised, and what waits is the part after them. -/
theorem waiting_short {id : Int} (h : Short style id steps) :
    waiting style id steps = (style.framing.split (received id steps)).2 := by
  induction steps using List.reverseRecOn with
  | nil => exact (congrArg Prod.snd Framing.split_nil).symm
  | append_singleton steps s ih =>
      rw [waiting_concat, received_concat]
      by_cases hresets : s.event.resets id = true
      · rw [if_pos hresets, if_pos hresets, Framing.split_nil]
      · rw [if_neg hresets, if_neg hresets, ih h.left]
        cases hb : s.bytes id with
        | none =>
            dsimp only
            rw [Option.getD_none, List.append_nil]
        | some b =>
            dsimp only
            rw [cut_legal (h.chunk hb), Option.getD_some, Framing.split_append (received id steps)]

theorem routedRun_of_destined {id : Int} (hstyle : ∀ s ∈ steps, s.gate.headerSize = style)
    (hshort : Short style id steps) (hdest : Destined style id steps) :
    RoutedRun style id steps := by
  intro front s hfront b c hb hc
  have hmem : s ∈ steps := hfront.subset (List.mem_append_right _ List.mem_cons_self)
  have hshort' : Short style id (front ++ [s]) := fun f hf => hshort f (hf.trans hfront)
  have hsmall := hshort'.chunk hb
  rw [waiting_short hshort'.left]
  unfold Routed
  rw [hstyle s hmem, cut_legal hsmall]
  refine ⟨nofun, fun frame h hne => ?_⟩
  refine hdest front s hfront b c hb hc ?_
  rw [received_data hb, frames_append]
  intro heq
  have hnil := List.append_right_eq_self.mp heq
  have hin : frame.2 ∈ frames style ((style.framing.split (received id front)).2 ++ b) := by
    refine List.mem_filter.mpr ⟨List.mem_map_of_mem h, ?_⟩
    simpa using hne
  rw [hnil] at hin
  exact List.not_mem_nil hin

/-- The message is the payload, sent on for the connection. -/
def Delivered (id : Int) (x : Gate × Out) (payload : List UInt8) : Prop :=
  ∃ c, x.1.connection id = some c ∧ c.id = id ∧ x.2 = deliver x.1 c payload

theorem delivered_map {c : Connection} {id : Int} (hc : g.connection id = some c) (hid : c.id = id)
    (ps : List (List UInt8)) :
    List.Forall₂ (Delivered id) ((ps.map (deliver g c)).map (g, ·)) ps := by
  rw [List.map_map, List.forall₂_map_left_iff]
  exact List.forall₂_same.mpr fun payload _ => ⟨c, hc, hid, rfl⟩

/-- For each complete frame that is not empty one message goes out, in the order of the stream. -/
theorem run_delivered {watchdog clientTag max : Nat} {listenId : Int}
    (hrun : (gateInit style watchdog clientTag max listenId).run events = some (g, steps))
    (hlawful : ∀ s ∈ steps, Lawful s.gate s.event) {id : Int} (hshort : Short style id steps)
    (hdest : Destined style id steps) {i : Nat} (hi : g.hash.Stored id (i + 1)) :
    List.Forall₂ (Delivered id) (forwarded id steps) (frames style (received id steps)) := by
  induction events using List.reverseRecOn generalizing g steps i with
  | nil =>
      obtain ⟨rfl, rfl⟩ := Prod.mk.inj (Option.some.inj hrun)
      exact absurd hi.2.2.1.symm hi.2.2.2
  | append_singleton events e ih =>
      have hrouted := routedRun_of_destined (run_headerSize hrun hlawful).2 hshort hdest
      obtain ⟨-, hsent⟩ := run_follows hrun hlawful hrouted
      obtain ⟨g₁, steps₁, outs, hrun₁, hstep, rfl⟩ := run_concat_eq hrun
      have hlawful₁ : ∀ s ∈ steps₁, Lawful s.gate s.event :=
        fun s hs => hlawful s (List.mem_append_left _ hs)
      have hdest₁ : Destined style id steps₁ :=
        fun front s h => hdest front s (h.trans (List.prefix_append ..))
      obtain ⟨lists, free, rest, inv⟩ := run_inv hrun₁ hlawful₁
      obtain ⟨rest', hafter⟩ :=
        step_after inv (hlawful _ (List.mem_append_right _ List.mem_cons_self)) hstep
      rw [forwarded_concat, received_concat]
      rcases hafter.kept hi with ⟨hresets, -⟩ | ⟨hresets, hold, -⟩
      · rw [if_pos hresets, if_pos hresets]
        unfold frames
        rw [Framing.split_nil]
        exact .nil
      · have hno : ¬e.resets id = true := by
          rw [hresets]
          exact Bool.false_ne_true
        have hrest := ih hrun₁ hlawful₁ hshort.left hdest₁ hold
        have hc := inv.connection hold
        rw [if_neg hno, if_neg hno]
        cases hb : (⟨g₁, e, outs⟩ : Step).bytes id with
        | none =>
            rw [Option.getD_none, List.append_nil]
            exact hrest
        | some b =>
            obtain ⟨hid, houts⟩ := hsent _ _ (List.prefix_refl _) b _ hb hc
            rw [Option.getD_some, frames_append]
            refine List.rel_append hrest ?_
            show List.Forall₂ _ (outs.map (g₁, ·)) _
            have hsmall := hshort.chunk hb
            have hstyle : g₁.headerSize = style := (run_headerSize hrun₁ hlawful₁).1
            rw [waiting_short hshort.left, cut_legal hsmall] at houts
            have heq : outs = (frames style ((style.framing.split (received id steps₁)).2 ++ b)).map
                (deliver g₁ (g₁.conn i)) := houts.trans (List.append_nil _)
            rw [heq]
            exact delivered_map hc hid _

end Jump.Skynet.GateService
