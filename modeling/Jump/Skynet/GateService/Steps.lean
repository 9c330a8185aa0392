import Jump.Skynet.GateService.Invariant

/-! # The gate's steps

What each message to the gate does to the connections' buffers, and what goes out for it.
-/

namespace Jump.Skynet.GateService

open Jump.Core

variable {g g' : Gate} {lists : Nat → List Nat} {free : List Nat} {rest : Nat → List UInt8}
  {outs : List Out}

theorem HeaderStyle.size_le (style : HeaderStyle) : style.size ≤ 4 := by
  cases style <;> decide

theorem Gate.setBuffer_buffer (g : Gate) (i : Nat) (db : DataBuffer) (mp : MessagePool) :
    (fun j => ((g.setBuffer i db mp).conn j).buffer) =
      Function.update (fun j => (g.conn j).buffer) i db := by
  funext j
  unfold Gate.setBuffer
  dsimp only
  by_cases hj : j = i
  · subst hj
    rw [Function.update_self, Function.update_self]
  · rw [Function.update_of_ne hj, Function.update_of_ne hj]

theorem Gate.setBuffer_id (g : Gate) (i j : Nat) (db : DataBuffer) (mp : MessagePool) :
    ((g.setBuffer i db mp).conn j).id = (g.conn j).id := by
  unfold Gate.setBuffer
  dsimp only
  by_cases hj : j = i
  · subst hj
    rw [Function.update_self]
  · rw [Function.update_of_ne hj]

/-- A buffer that changes under an operation of its own. -/
theorem Gate.Inv.setBuffer (inv : g.Inv lists free rest) {id : Int} {i : Nat}
    (hstored : g.hash.Stored id (i + 1)) {db : DataBuffer} {mp : MessagePool}
    {nodes' free' : List Nat} {rest' : List UInt8}
    (heffect : Effect g.mp (lists i ++ free) mp (nodes' ++ free'))
    (hbuffered : Buffered g.headerSize db mp nodes' free' rest') :
    (g.setBuffer i db mp).Inv (Function.update lists i nodes') free'
      (Function.update rest i rest') where
  layout := by
    rw [g.setBuffer_buffer]
    exact inv.layout.update heffect hbuffered
  hash := inv.hash
  stored h := by
    rw [g.setBuffer_id]
    exact inv.stored h
  closed := by
    intro j hj
    have hne : j ≠ i := by
      rintro rfl
      exact hj id hstored
    rw [Function.update_of_ne hne]
    exact inv.closed hj

theorem dispatchMessage_holds (inv : g.Inv lists free rest) {id : Int} {i : Nat}
    (hstored : g.hash.Stored id (i + 1)) {data : List UInt8} (hdata : data ≠ [])
    (hint : ∀ frame ∈ (cut g.headerSize (rest i ++ data)).tooLong,
      BigEndian.decode frame.1 < 2 ^ 31)
    (haddr : ∀ frame ∈ (cut g.headerSize (rest i ++ data)).frames, frame.2 ≠ [] →
      Addressed g (g.conn i)) :
    ∃ db mp lists' free', dispatchMessage g i id data = some (g.setBuffer i db mp,
        (cut g.headerSize (rest i ++ data)).outs g (g.conn i) id) ∧
      (g.setBuffer i db mp).Inv lists' free'
        (Function.update rest i (cut g.headerSize (rest i ++ data)).rest) := by
  obtain ⟨db₁, mp₁, nodes₁, free₁, hpush, hbuffered₁, heffect₁⟩ :=
    (inv.layout.buffered i).push hdata
  have hlen := hbuffered₁.length_le
  have hsize := g.headerSize.size_le
  obtain ⟨db, mp, nodes, free', hloop, hbuffered, heffect⟩ :=
    dispatchLoop_holds id hbuffered₁ hint haddr (show _ < db₁.size + 5 by omega)
  refine ⟨db, mp, _, free', ?_, inv.setBuffer hstored (heffect₁.trans heffect) hbuffered⟩
  unfold dispatchMessage
  rw [hpush]
  simp only [Option.bind_eq_bind, Option.bind_some, hloop]
  rfl

/-- Without a condition on the bytes: no assertion fails, and the invariant stays. -/
theorem dispatchMessage_total (inv : g.Inv lists free rest) {id : Int} {i : Nat}
    (hstored : g.hash.Stored id (i + 1)) {data : List UInt8} (hdata : data ≠ []) :
    ∃ db mp lists' free' rest' outs,
      dispatchMessage g i id data = some (g.setBuffer i db mp, outs) ∧
      (g.setBuffer i db mp).Inv lists' free' (Function.update rest i rest') := by
  obtain ⟨db₁, mp₁, nodes₁, free₁, hpush, hbuffered₁, heffect₁⟩ :=
    (inv.layout.buffered i).push hdata
  have hlen := hbuffered₁.length_le
  have hsize := g.headerSize.size_le
  obtain ⟨db, mp, nodes, free', outs, rest', hloop, hbuffered, heffect⟩ :=
    dispatchLoop_total (c := g.conn i) id hbuffered₁ (show _ < db₁.size + 5 by omega)
  refine ⟨db, mp, _, free', _, outs, ?_, inv.setBuffer hstored (heffect₁.trans heffect) hbuffered⟩
  unfold dispatchMessage
  rw [hpush]
  simp only [Option.bind_eq_bind, Option.bind_some, hloop]
  rfl

/-- What the invariant reads of a gate. -/
theorem Gate.Inv.congr (inv : g.Inv lists free rest) (hstyle : g'.headerSize = g.headerSize)
    (hmp : g'.mp = g.mp) (hhash : g'.hash = g.hash)
    (hconn : ∀ i, (g'.conn i).buffer = (g.conn i).buffer ∧ (g'.conn i).id = (g.conn i).id) :
    g'.Inv lists free rest where
  layout := by
    have hbuffer : (fun i => (g'.conn i).buffer) = fun i => (g.conn i).buffer :=
      funext fun i => (hconn i).1
    rw [hstyle, hmp, hbuffer]
    exact inv.layout
  hash := hhash ▸ inv.hash
  stored := by
    intro id i h
    rw [(hconn i).2]
    exact inv.stored (hhash ▸ h)
  closed h := inv.closed (hhash ▸ h)

/-! ## One step -/

/-- The connection that `hashid_lookup` finds. -/
def Gate.connection (g : Gate) (id : Int) : Option Connection :=
  (g.hash.lookup id).bind fun i => if i ≥ 0 then some (g.conn i.toNat) else none

theorem Gate.Inv.connection (inv : g.Inv lists free rest) {id : Int} {i : Nat}
    (hstored : g.hash.Stored id (i + 1)) : g.connection id = some (g.conn i) := by
  obtain ⟨chains, hinv⟩ := inv.hash
  unfold Gate.connection
  rw [hinv.lookup_stored hstored]
  have hi : ((i + 1 : Nat) : Int) - 1 = i := by omega
  rw [hi]
  rfl

theorem Gate.Inv.connection_cases (inv : g.Inv lists free rest) (id : Int) :
    (∃ i, g.hash.Stored id (i + 1) ∧ g.hash.lookup id = some (i : Int) ∧
      g.connection id = some (g.conn i)) ∨
    (∀ p, ¬g.hash.Stored id p) ∧ g.hash.lookup id = some (-1) ∧ g.connection id = none := by
  obtain ⟨chains, hinv⟩ := inv.hash
  rcases lookup_cases hinv id with ⟨i, hstored, hlookup⟩ | ⟨habs, hlookup⟩
  · exact .inl ⟨i, hstored, hlookup, inv.connection hstored⟩
  · refine .inr ⟨habs, hlookup, ?_⟩
    unfold Gate.connection
    rw [hlookup]
    rfl

/-- The connection starts anew. -/
def Event.resets (id : Int) : Event → Bool
  | .accept _ ud => ud = id
  | .close fd => fd = id
  | _ => false

/-- The bytes that arrive on the connection. -/
def Event.bytes (id : Int) : Event → Option (List UInt8)
  | .data fd buffer => if fd = id then some buffer else none
  | _ => none

theorem Event.bytes_self (id : Int) (b : List UInt8) : (Event.data id b).bytes id = some b :=
  if_pos rfl

theorem Event.bytes_other {fd id : Int} (h : fd ≠ id) (b : List UInt8) :
    (Event.data fd b).bytes id = none := if_neg h

/-- What the socket server sees to: chunks are not empty, and a new id is not in use. -/
def Lawful (g : Gate) : Event → Prop
  | .data _ b => b ≠ []
  | .accept _ ud => 0 ≤ ud ∧ (g.connection ud).isNone = true
  | _ => True

instance (g : Gate) (e : Event) : Decidable (Lawful g e) := by
  cases e <;> unfold Lawful <;> infer_instance

/-- The bytes that stay in the buffer of a connection. -/
def Event.remains (style : HeaderStyle) (id : Int) (bytes : List UInt8) (e : Event) : List UInt8 :=
  if e.resets id then []
  else match e.bytes id with
    | some b => (cut style (bytes ++ b)).rest
    | none => bytes

/-- The frames that a chunk completes have a destination, and the length for which the connection
is closed is no negative `int`. -/
def Routed (g : Gate) (c : Connection) (bytes : List UInt8) : Prop :=
  (∀ frame ∈ (cut g.headerSize bytes).tooLong, BigEndian.decode frame.1 < 2 ^ 31) ∧
    ∀ frame ∈ (cut g.headerSize bytes).frames, frame.2 ≠ [] → Addressed g c

/-- What is known of the gate after a step. -/
structure After (g : Gate) (rest : Nat → List UInt8) (e : Event) (g' : Gate)
    (outs : List Out) (rest' : Nat → List UInt8) : Prop where
  inv : ∃ lists free, g'.Inv lists free rest'
  style : g'.headerSize = g.headerSize
  kept {id : Int} {i : Nat} : g'.hash.Stored id (i + 1) →
    e.resets id = true ∧ rest' i = [] ∨
    e.resets id = false ∧ g.hash.Stored id (i + 1) ∧
      ((∀ b, e = .data id b → Routed g (g.conn i) (rest i ++ b)) →
        rest' i = e.remains g.headerSize id (rest i))
  sent {id : Int} {b : List UInt8} {i : Nat} : e = .data id b → g.hash.Stored id (i + 1) →
    Routed g (g.conn i) (rest i ++ b) →
    outs = (cut g.headerSize (rest i ++ b)).outs g (g.conn i) id

/-- A step that leaves the hash and the buffers alone. -/
theorem Gate.Inv.after (inv : g.Inv lists free rest) (hstyle : g'.headerSize = g.headerSize)
    (hmp : g'.mp = g.mp) (hhash : g'.hash = g.hash)
    (hconn : ∀ i, (g'.conn i).buffer = (g.conn i).buffer ∧ (g'.conn i).id = (g.conn i).id)
    {e : Event} (hresets : ∀ id i, g.hash.Stored id (i + 1) → e.resets id = false)
    (hbytes : ∀ id i, g.hash.Stored id (i + 1) → e.bytes id = none)  :
    After g rest e g' outs rest where
  inv := ⟨lists, free, inv.congr hstyle hmp hhash hconn⟩
  style := hstyle
  kept := by
    intro id i h
    rw [hhash] at h
    refine .inr ⟨hresets id i h, h, fun _ => ?_⟩
    unfold Event.remains
    rw [hresets id i h, hbytes id i h]
    rfl
  sent := by
    rintro id b i rfl h
    have hnone := hbytes id i h
    rw [Event.bytes_self] at hnone
    exact nomatch hnone

/-- A step with a chunk: the other connections keep what they have. -/
theorem Gate.Inv.after_data (inv : g.Inv lists free rest) {id : Int} {b : List UInt8} {i : Nat}
    (hstored : g.hash.Stored id (i + 1)) {rest' : List UInt8}
      (hstyle : g'.headerSize = g.headerSize)
    (hinv : ∃ lists' free', g'.Inv lists' free' (Function.update rest i rest'))
    (hhash : g'.hash = g.hash)
    (hrouted : Routed g (g.conn i) (rest i ++ b) → rest' = (cut g.headerSize (rest i ++ b)).rest ∧
      outs = (cut g.headerSize (rest i ++ b)).outs g (g.conn i) id) :
    After g rest (.data id b) g' outs (Function.update rest i rest') where
  inv := hinv
  style := hstyle
  kept := by
    intro y j hj
    rw [hhash] at hj
    refine .inr ⟨rfl, hj, fun hy => ?_⟩
    unfold Event.remains
    rw [if_neg (show ¬Event.resets y (.data id b) = true from Bool.false_ne_true)]
    by_cases hji : j = i
    · subst hji
      obtain rfl := hstored.id_eq hj
      rw [Function.update_self, Event.bytes_self]
      exact (hrouted (hy b rfl)).1
    · have hne : id ≠ y := by
        rintro rfl
        obtain ⟨chains, hinv'⟩ := inv.hash
        exact hji (Nat.succ.inj (hinv'.unique hj hstored))
      rw [Function.update_of_ne hji, Event.bytes_other hne]
  sent := by
    rintro y c j he hj hy
    obtain ⟨rfl, rfl⟩ := Event.data.inj he
    obtain ⟨chains, hinv'⟩ := inv.hash
    obtain rfl := Nat.succ.inj (hinv'.unique hj hstored)
    exact (hrouted hy).2

theorem step_data {b : List UInt8} (inv : g.Inv lists free rest) (id : Int) (hb : b ≠ []) :
    ∃ g' outs rest', g.step (.data id b) = some (g', outs) ∧
      After g rest (.data id b) g' outs rest' := by
  rcases inv.connection_cases id with ⟨i, hstored, hlookup, -⟩ | ⟨habs, hlookup, -⟩
  · have hstep : ∀ {r}, dispatchMessage g i id b = some r → g.step (.data id b) = some r := by
      intro r hdispatch
      simp only [Gate.step, hlookup, Option.bind_eq_bind, Option.bind_some]
      rw [if_pos (Int.natCast_nonneg i), Int.toNat_natCast]
      exact hdispatch
    by_cases hrouted : Routed g (g.conn i) (rest i ++ b)
    · obtain ⟨db, mp, lists', free', hdispatch, hinv⟩ :=
        dispatchMessage_holds inv hstored hb hrouted.1 hrouted.2
      exact ⟨_, _, _, hstep hdispatch,
        inv.after_data hstored rfl ⟨lists', free', hinv⟩ rfl fun _ => ⟨rfl, rfl⟩⟩
    · obtain ⟨db, mp, lists', free', rest', outs, hdispatch, hinv⟩ :=
        dispatchMessage_total inv hstored hb
      exact ⟨_, _, _, hstep hdispatch, inv.after_data hstored rfl ⟨lists', free', hinv⟩ rfl
        fun h => absurd h hrouted⟩
  · refine ⟨g, [.socketClose id], rest, ?_, inv.after rfl rfl rfl (fun _ => ⟨rfl, rfl⟩)
      (fun _ _ _ => rfl) fun y i hy => ?_⟩
    · simp only [Gate.step, hlookup, Option.bind_eq_bind, Option.bind_some]
      rfl
    · refine Event.bytes_other ?_ b
      rintro rfl
      exact habs _ hy

theorem step_close (inv : g.Inv lists free rest) (id : Int) :
    ∃ g' outs rest', g.step (.close id) = some (g', outs) ∧
      After g rest (.close id) g' outs rest' := by
  obtain ⟨chains, hhash⟩ := inv.hash
  rcases hhash.remove id with ⟨c, hash', hstored, hremove, hinv', hstored'⟩ | ⟨habs, hremove⟩
  · obtain ⟨i, rfl⟩ := Nat.exists_eq_succ_of_ne_zero (Nat.ne_of_gt hstored.1)
    obtain ⟨mp, free', hclear, hholds, heffect⟩ :=
      databufferClear_holds (inv.layout.buffered i).linked
    have hi : ((i + 1 : Nat) : Int) - 1 = i := by omega
    rw [Nat.succ_eq_add_one, hi] at hremove
    have hother : ∀ {y j}, hash'.Stored y (j + 1) → j ≠ i ∧ g.hash.Stored y (j + 1) ∧ y ≠ id := by
      intro y j hj
      obtain ⟨hold, hne⟩ := (hstored' y (j + 1)).mp hj
      refine ⟨?_, hold, hne⟩
      rintro rfl
      exact hne (hold.id_eq hstored)
    have hbuffer : (fun j => (Function.update g.conn i
        { Connection.zero with id := -1 } j).buffer) =
        Function.update (fun j => (g.conn j).buffer) i .zero := by
      funext j
      by_cases hj : j = i
      · subst hj
        rw [Function.update_self, Function.update_self]
        rfl
      · rw [Function.update_of_ne hj, Function.update_of_ne hj]
    refine ⟨{ g with
        hash := hash'
        conn := Function.update g.conn i { Connection.zero with id := -1 }
        mp := mp }, report g (text (toString id ++ " close")), Function.update rest i [], ?_,
      ⟨Function.update lists i [], free', ?_, hinv', ?_, ?_⟩, rfl, ?_, nofun⟩
    · simp only [Gate.step, hremove, Option.bind_eq_bind, Option.bind_some]
      rw [if_pos (Int.natCast_nonneg i), Int.toNat_natCast, hclear]
      rfl
    · show Layout g.headerSize (fun j => (Function.update g.conn i _ j).buffer) _ _ _ _
      rw [hbuffer]
      exact inv.layout.update heffect (.header rfl rfl hholds)
    · intro y j hj
      show (Function.update g.conn i _ j).id = y
      rw [Function.update_of_ne (hother hj).1]
      exact inv.stored (hother hj).2.1
    · intro j hj
      by_cases hji : j = i
      · subst hji
        rw [Function.update_self]
      · rw [Function.update_of_ne hji]
        refine inv.closed fun y hy => hj y ((hstored' y (j + 1)).mpr ⟨hy, ?_⟩)
        rintro rfl
        exact hji (Nat.succ.inj (hhash.unique hy hstored))
    · intro y j hj
      obtain ⟨hji, hold, hne⟩ := hother hj
      have hresets : (Event.close id).resets y = false := decide_eq_false hne.symm
      refine .inr ⟨hresets, hold, fun _ => ?_⟩
      unfold Event.remains
      rw [hresets, Function.update_of_ne hji]
      rfl
  · refine ⟨g, [], rest, ?_, inv.after rfl rfl rfl (fun _ => ⟨rfl, rfl⟩) (fun y i hy => ?_)
      fun _ _ _ => rfl⟩
    · simp only [Gate.step, hremove, Option.bind_eq_bind, Option.bind_some]
      rfl
    · refine decide_eq_false ?_
      rintro rfl
      exact habs _ hy

theorem step_accept {listenId ud : Int} (inv : g.Inv lists free rest)
    (hlawful : Lawful g (.accept listenId ud))
    (hstep : g.step (.accept listenId ud) = some (g', outs)) :
    ∃ rest', After g rest (.accept listenId ud) g' outs rest' := by
  obtain ⟨hud, hnone⟩ := hlawful
  have habs : ∀ p, ¬g.hash.Stored ud p := by
    rcases inv.connection_cases ud with ⟨i, -, -, hsome⟩ | ⟨habs, -⟩
    · rw [hsome] at hnone
      exact nomatch hnone
    · exact habs
  have hresets : ∀ y, y ≠ ud → (Event.accept listenId ud).resets y = false :=
    fun y hy => decide_eq_false hy.symm
  have hold : ∀ y p, g.hash.Stored y p → y ≠ ud := by
    rintro y p hy rfl
    exact habs p hy
  rw [Gate.step] at hstep
  by_cases hlisten : g.listenId ≠ listenId
  · rw [if_pos hlisten] at hstep
    exact nomatch hstep
  · rw [if_neg hlisten] at hstep
    by_cases hfull : g.hash.full = true
    · rw [if_pos hfull] at hstep
      obtain ⟨rfl, rfl⟩ := Prod.mk.inj (Option.some.inj hstep)
      exact ⟨rest, inv.after rfl rfl rfl (fun _ => ⟨rfl, rfl⟩)
        (fun y i hy => hresets y (hold y _ hy)) fun _ _ _ => rfl⟩
    · rw [if_neg hfull] at hstep
      obtain ⟨⟨r, hash'⟩, hinsert, hrest⟩ := Option.bind_eq_some_iff.mp hstep
      obtain ⟨rfl, rfl⟩ := Prod.mk.inj (Option.some.inj hrest)
      obtain ⟨chains, hhash⟩ := inv.hash
      obtain ⟨c, rfl, hfresh, hinv', hstored'⟩ := hhash.insert hud habs hinsert
      have hnew : hash'.Stored ud c := (hstored' ud c).mpr (.inr ⟨rfl, rfl⟩)
      obtain ⟨i, rfl⟩ := Nat.exists_eq_succ_of_ne_zero (Nat.ne_of_gt hnew.1)
      have hi : (((i + 1 : Nat) : Int) - 1).toNat = i := by omega
      refine ⟨rest, ⟨lists, free, ?_, hinv', ?_, ?_⟩, rfl, ?_, nofun⟩
      · have hbuffer : ∀ j, (Function.update g.conn (((i + 1 : Nat) : Int) - 1).toNat
            { g.conn (((i + 1 : Nat) : Int) - 1).toNat with id := ud } j).buffer =
              (g.conn j).buffer := by
          intro j
          by_cases hj : j = (((i + 1 : Nat) : Int) - 1).toNat
          · subst hj
            rw [Function.update_self]
          · rw [Function.update_of_ne hj]
        show Layout g.headerSize (fun j => (Function.update g.conn _ _ j).buffer) _ _ _ _
        rw [funext hbuffer]
        exact inv.layout
      · intro y j hj
        show (Function.update g.conn _ _ j).id = y
        rw [hi]
        rcases (hstored' y (j + 1)).mp hj with hy | ⟨rfl, hji⟩
        · have hji : j ≠ i := by
            rintro rfl
            exact hfresh y hy
          rw [Function.update_of_ne hji]
          exact inv.stored hy
        · obtain rfl := Nat.succ.inj hji
          rw [Function.update_self]
      · intro j hj
        exact inv.closed fun y hy => hj y ((hstored' y (j + 1)).mpr (.inl hy))
      · intro y j hj
        rcases (hstored' y (j + 1)).mp hj with hy | ⟨rfl, hji⟩
        · have hno := hresets y (hold y _ hy)
          refine .inr ⟨hno, hy, fun _ => ?_⟩
          unfold Event.remains
          rw [hno]
          rfl
        · obtain rfl := Nat.succ.inj hji
          exact .inl ⟨decide_eq_true rfl, inv.closed hfresh⟩

/-- The events that touch no buffer. -/
def Event.quiet : Event → Bool
  | .data _ _ | .close _ | .accept _ _ => false
  | _ => true

/-- What such an event leaves as it is. -/
structure Same (g g' : Gate) : Prop where
  style : g'.headerSize = g.headerSize
  mp : g'.mp = g.mp
  hash : g'.hash = g.hash
  conn (i : Nat) : (g'.conn i).buffer = (g.conn i).buffer ∧ (g'.conn i).id = (g.conn i).id

theorem Same.refl (g : Gate) : Same g g := ⟨rfl, rfl, rfl, fun _ => ⟨rfl, rfl⟩⟩

/-- A step that looks an id up and changes nothing. -/
theorem same_of_lookup {id : Int} {yes no : List Out}
    (hstep : ((g.hash.lookup id).bind fun i =>
      if i ≥ 0 then some (g, yes) else some (g, no)) = some (g', outs)) : Same g g' := by
  obtain ⟨i, -, hrest⟩ := Option.bind_eq_some_iff.mp hstep
  by_cases hi : i ≥ 0
  · rw [if_pos hi] at hrest
    obtain ⟨rfl, rfl⟩ := Prod.mk.inj (Option.some.inj hrest)
    exact .refl g
  · rw [if_neg hi] at hrest
    obtain ⟨rfl, rfl⟩ := Prod.mk.inj (Option.some.inj hrest)
    exact .refl g

theorem step_quiet {e : Event} (hquiet : e.quiet = true)
    (hstep : g.step e = some (g', outs)) : Same g g' := by
  cases e with
  | data _ _ | close _ | accept _ _ => exact absurd hquiet Bool.false_ne_true
  | connect id =>
      rw [Gate.step] at hstep
      by_cases hlisten : id = g.listenId
      · rw [if_pos hlisten] at hstep
        obtain ⟨rfl, rfl⟩ := Prod.mk.inj (Option.some.inj hstep)
        exact .refl g
      · rw [if_neg hlisten] at hstep
        exact same_of_lookup hstep
  | kick uid | client uid msg => exact same_of_lookup hstep
  | forward id agent client =>
      obtain ⟨i, -, hrest⟩ := Option.bind_eq_some_iff.mp hstep
      by_cases hi : i ≥ 0
      · rw [if_pos hi] at hrest
        obtain ⟨rfl, rfl⟩ := Prod.mk.inj (Option.some.inj hrest)
        refine ⟨rfl, rfl, rfl, fun j => ?_⟩
        dsimp only
        by_cases hj : j = i.toNat
        · subst hj
          rw [Function.update_self]
          exact ⟨rfl, rfl⟩
        · rw [Function.update_of_ne hj]
          exact ⟨rfl, rfl⟩
      · rw [if_neg hi] at hrest
        obtain ⟨rfl, rfl⟩ := Prod.mk.inj (Option.some.inj hrest)
        exact .refl g
  | broker handle | start =>
      obtain ⟨rfl, rfl⟩ := Prod.mk.inj (Option.some.inj hstep)
      exact ⟨rfl, rfl, rfl, fun _ => ⟨rfl, rfl⟩⟩
  | stop =>
      rw [Gate.step] at hstep
      by_cases hlisten : g.listenId ≥ 0
      · rw [if_pos hlisten] at hstep
        obtain ⟨rfl, rfl⟩ := Prod.mk.inj (Option.some.inj hstep)
        exact ⟨rfl, rfl, rfl, fun _ => ⟨rfl, rfl⟩⟩
      · rw [if_neg hlisten] at hstep
        obtain ⟨rfl, rfl⟩ := Prod.mk.inj (Option.some.inj hstep)
        exact .refl g

theorem Event.quiet_spec {e : Event} (hquiet : e.quiet = true) (id : Int) :
    e.resets id = false ∧ e.bytes id = none := by
  cases e with
  | data _ _ | close _ | accept _ _ => exact absurd hquiet Bool.false_ne_true
  | _ => exact ⟨rfl, rfl⟩

theorem step_after {e : Event} (inv : g.Inv lists free rest) (hlawful : Lawful g e)
    (hstep : g.step e = some (g', outs)) : ∃ rest', After g rest e g' outs rest' := by
  by_cases hquiet : e.quiet = true
  · obtain ⟨hstyle, hmp, hhash, hconn⟩ := step_quiet hquiet hstep
    exact ⟨rest, inv.after hstyle hmp hhash hconn (fun id _ _ => (Event.quiet_spec hquiet id).1)
      fun id _ _ => (Event.quiet_spec hquiet id).2⟩
  · cases e with
    | data id b =>
        obtain ⟨g₁, outs₁, rest', hdata, hafter⟩ := step_data inv id hlawful
        rw [hdata] at hstep
        obtain ⟨rfl, rfl⟩ := Prod.mk.inj (Option.some.inj hstep)
        exact ⟨rest', hafter⟩
    | close id =>
        obtain ⟨g₁, outs₁, rest', hclose, hafter⟩ := step_close inv id
        rw [hclose] at hstep
        obtain ⟨rfl, rfl⟩ := Prod.mk.inj (Option.some.inj hstep)
        exact ⟨rest', hafter⟩
    | accept listenId ud => exact step_accept inv hlawful hstep
    | _ => exact absurd rfl hquiet

end Jump.Skynet.GateService
