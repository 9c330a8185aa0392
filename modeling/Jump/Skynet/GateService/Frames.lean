import Jump.Core.Framing
import Jump.Skynet.GateService.Code
import Jump.Skynet.GateService.Nodes
import Mathlib.Data.List.TakeWhile

/-! # The frames of a connection

What a connection's buffer holds is determined by the bytes since the last frame's end: they are
in its nodes, but for a header that `databuffer_readheader` took already.
-/

namespace Jump.Skynet.GateService

open Jump.Core

theorem HeaderStyle.size_pos (style : HeaderStyle) : 0 < style.size := by
  cases style <;> decide

def HeaderStyle.framing (style : HeaderStyle) : Framing UInt8 where
  header := style.size
  header_pos := style.size_pos
  length := BigEndian.decode

theorem HeaderStyle.header_of_lt (style : HeaderStyle) {plen : List UInt8}
    (h : BigEndian.decode plen < 2 ^ 31) : style.header plen = BigEndian.decode plen := by
  cases style with
  | S => rfl
  | L => exact toInt_of_lt h

/-- The sign bit turns the length negative. -/
theorem HeaderStyle.header_of_ge (style : HeaderStyle) {plen : List UInt8}
    (hlen : plen.length = style.size) (h : 2 ^ 31 ≤ BigEndian.decode plen) :
    style.header plen < 0 := by
  have hlt := BigEndian.decode_lt plen
  rw [hlen] at hlt
  cases style with
  | S => exact absurd (Nat.lt_of_le_of_lt h hlt) (by decide)
  | L => exact toInt_of_ge h hlt

theorem HeaderStyle.header_ne_zero (style : HeaderStyle) {plen : List UInt8}
    (hlen : plen.length = style.size) (h : 0 < BigEndian.decode plen) : style.header plen ≠ 0 := by
  by_cases hlt : BigEndian.decode plen < 2 ^ 31
  · rw [style.header_of_lt hlt]
    omega
  · have hneg := style.header_of_ge hlen (Nat.le_of_not_lt hlt)
    omega

/-- The buffer of a connection on which the bytes arrived since the last frame's end. -/
inductive Buffered (style : HeaderStyle) (db : DataBuffer) (mp : MessagePool)
    (nodes free : List Nat) : List UInt8 → Prop where
  | header {bytes : List UInt8} (hheader : db.header = 0) (hsize : db.size = bytes.length)
      (hholds : Holds db mp nodes free bytes) : Buffered style db mp nodes free bytes
  | content {plen bytes : List UInt8} (hlen : plen.length = style.size)
      (hpos : 0 < BigEndian.decode plen) (hheader : db.header = style.header plen)
      (hsize : db.size = bytes.length) (hholds : Holds db mp nodes free bytes) :
      Buffered style db mp nodes free (plen ++ bytes)

variable {style : HeaderStyle} {db : DataBuffer} {mp : MessagePool} {nodes free : List Nat}
  {bytes : List UInt8}

theorem Buffered.linked (h : Buffered style db mp nodes free bytes) : Linked db mp nodes free := by
  cases h with
  | header _ _ hholds => exact hholds.toLinked
  | content _ _ _ _ hholds => exact hholds.toLinked

theorem Buffered.size_le (h : Buffered style db mp nodes free bytes) :
    db.size ≤ bytes.length := by
  cases h with
  | header _ hsize => exact Nat.le_of_eq hsize
  | content _ _ _ hsize =>
      rw [List.length_append, hsize]
      exact Nat.le_add_left ..

theorem Buffered.length_le (h : Buffered style db mp nodes free bytes) :
    bytes.length ≤ db.size + style.size := by
  cases h with
  | header _ hsize => omega
  | content hlen _ _ hsize =>
      rw [List.length_append, hsize, hlen]
      omega

/-- A chunk goes behind the bytes that wait. -/
theorem Buffered.push (h : Buffered style db mp nodes free bytes) {data : List UInt8}
    (hdata : data ≠ []) :
    ∃ db' mp' nodes' free', databufferPush db mp data = some (db', mp') ∧
      Buffered style db' mp' nodes' free' (bytes ++ data) ∧
      Effect mp (nodes ++ free) mp' (nodes' ++ free') := by
  cases h with
  | header hheader hsize hholds =>
      obtain ⟨db', mp', nodes', free', hpush, hholds', hsize', hheader', heffect⟩ :=
        databufferPush_holds hholds hsize hdata
      exact ⟨db', mp', nodes', free', hpush, .header (hheader'.trans hheader) hsize' hholds',
        heffect⟩
  | content hlen hpos hheader hsize hholds =>
      obtain ⟨db', mp', nodes', free', hpush, hholds', hsize', hheader', heffect⟩ :=
        databufferPush_holds hholds hsize hdata
      refine ⟨db', mp', nodes', free', hpush, ?_, heffect⟩
      rw [List.append_assoc]
      exact .content hlen hpos (hheader'.trans hheader) hsize' hholds'

/-! ## `databuffer_readheader` -/

/-- What the function returns for a header that is there, whether it was read now or before. -/
def available (db : DataBuffer) : Int := if (db.size : Int) < db.header then -1 else db.header

theorem available_pending {plen : List UInt8} (hlen : plen.length = style.size)
    (hheader : db.header = style.header plen) (hshort : db.size < BigEndian.decode plen) :
    available db < 0 := by
  unfold available
  by_cases hlt : BigEndian.decode plen < 2 ^ 31
  · rw [if_pos]
    · decide
    · rw [hheader, style.header_of_lt hlt]
      exact Int.ofNat_lt.mpr hshort
  · have hneg := style.header_of_ge hlen (Nat.le_of_not_lt hlt)
    rw [if_neg (by omega), hheader]
    exact hneg

theorem available_complete {plen : List UInt8} (hlt : BigEndian.decode plen < 2 ^ 31)
    (hheader : db.header = style.header plen) (hlong : BigEndian.decode plen ≤ db.size) :
    available db = BigEndian.decode plen := by
  unfold available
  rw [hheader, style.header_of_lt hlt, if_neg (by omega)]

/-- The header at the front of the bytes is read, now or before. -/
theorem readheader_front {plen rest : List UInt8}
    (h : Buffered style db mp nodes free (plen ++ rest)) (hlen : plen.length = style.size) :
    ∃ db' mp' nodes' free',
      databufferReadheader db mp style = some (available db', db', mp') ∧
      db'.header = style.header plen ∧ Holds db' mp' nodes' free' rest ∧
      db'.size = rest.length ∧ Effect mp (nodes ++ free) mp' (nodes' ++ free') := by
  generalize hbytes : plen ++ rest = bytes at h
  unfold databufferReadheader
  cases h with
  | header hheader hsize hholds =>
      have hlong : style.size ≤ bytes.length := by
        rw [← hbytes, List.length_append, hlen]
        exact Nat.le_add_right ..
      obtain ⟨db', mp', nodes', free', hread, hholds', hsize', -, heffect⟩ :=
        databufferRead_holds hholds hsize style.size_pos hlong
      rw [if_pos hheader, if_neg (by omega), hread]
      rw [← hbytes, ← hlen, List.drop_left] at hholds' hsize'
      rw [← hbytes, ← hlen, List.take_left]
      exact ⟨{ db' with header := style.header plen }, mp', nodes', free', rfl, rfl,
        hholds'.of_fields rfl rfl rfl, hsize', heffect⟩
  | @content plen' rest' hlen' hpos hheader hsize hholds =>
      obtain ⟨rfl, rfl⟩ := List.append_inj hbytes (hlen.trans hlen'.symm)
      rw [if_neg (hheader ▸ style.header_ne_zero hlen hpos)]
      exact ⟨db, mp, nodes, free, rfl, hheader, hholds, hsize, .refl ..⟩

theorem readheader_pending (h : Buffered style db mp nodes free bytes)
    (hpending : style.framing.Pending bytes) :
    ∃ r db' mp' nodes' free', databufferReadheader db mp style = some (r, db', mp') ∧ r < 0 ∧
      Buffered style db' mp' nodes' free' bytes ∧
      Effect mp (nodes ++ free) mp' (nodes' ++ free') := by
  by_cases hshort : bytes.length < style.size
  · cases h with
    | header hheader hsize hholds =>
        refine ⟨-1, db, mp, nodes, free, ?_, by decide, .header hheader hsize hholds, .refl ..⟩
        unfold databufferReadheader
        rw [if_pos hheader, if_pos (hsize ▸ hshort)]
    | content hlen =>
        rw [List.length_append, hlen] at hshort
        omega
  · have hlen : (bytes.take style.size).length = style.size := by
      rw [List.length_take]
      omega
    have hlack : bytes.length < style.size + BigEndian.decode (bytes.take style.size) := by
      rcases hpending with hlack | hlt
      · exact hlack
      · exact absurd hlt hshort
    rw [← List.take_append_drop style.size bytes] at h
    obtain ⟨db', mp', nodes', free', hread, hheader, hholds, hsize, heffect⟩ :=
      readheader_front h hlen
    have hdrop : (bytes.drop style.size).length = bytes.length - style.size := List.length_drop
    refine ⟨available db', db', mp', nodes', free', hread,
      available_pending hlen hheader (by omega), ?_, heffect⟩
    rw [← List.take_append_drop style.size bytes]
    exact .content hlen (by omega) hheader hsize hholds

theorem readheader_complete {plen content rest : List UInt8}
    (h : Buffered style db mp nodes free (plen ++ content ++ rest))
    (hframe : style.framing.Complete (plen, content)) (hlt : BigEndian.decode plen < 2 ^ 31) :
    ∃ db' mp' nodes' free',
      databufferReadheader db mp style = some ((content.length : Int), db', mp') ∧
      db'.header = content.length ∧ Holds db' mp' nodes' free' (content ++ rest) ∧
      db'.size = (content ++ rest).length ∧ Effect mp (nodes ++ free) mp' (nodes' ++ free') := by
  obtain ⟨hlen, hcontent⟩ := hframe
  have hdecode : content.length = BigEndian.decode plen := hcontent
  rw [List.append_assoc] at h
  obtain ⟨db', mp', nodes', free', hread, hheader, hholds, hsize, heffect⟩ :=
    readheader_front h hlen
  have hlong : BigEndian.decode plen ≤ db'.size := by
    rw [hsize, List.length_append, hdecode]
    exact Nat.le_add_right ..
  rw [available_complete hlt hheader hlong, ← hdecode] at hread
  rw [style.header_of_lt hlt, ← hdecode] at hheader
  exact ⟨db', mp', nodes', free', hread, hheader, hholds, hsize, heffect⟩

/-! ## `dispatch_message` -/

/-- There is a broker, an agent or a watchdog for the connection. -/
def Addressed (g : Gate) (c : Connection) : Prop := g.broker ≠ 0 ∨ c.agent ≠ 0 ∨ g.watchdog ≠ 0

instance (g : Gate) (c : Connection) : Decidable (Addressed g c) :=
  inferInstanceAs (Decidable (_ ∨ _))

/-- The message that goes to the destination in force. -/
def deliver (g : Gate) (c : Connection) (payload : List UInt8) : Out :=
  if g.broker ≠ 0 then .send 0 g.broker (g.clientTag ||| PTYPE_TAG_DONTCOPY) payload
  else if c.agent ≠ 0 then .send c.client c.agent (g.clientTag ||| PTYPE_TAG_DONTCOPY) payload
  else .send 0 g.watchdog (PTYPE_TEXT ||| PTYPE_TAG_DONTCOPY) (dataText c.id ++ payload)

/-- The payloads of the frames, without the empty ones. -/
def payloads (frames : List (List UInt8 × List UInt8)) : List (List UInt8) :=
  (frames.map Prod.snd).filter (· ≠ [])

theorem payloads_cons {plen content : List UInt8} (h : content ≠ [])
    (frames : List (List UInt8 × List UInt8)) :
    payloads ((plen, content) :: frames) = content :: payloads frames := by
  unfold payloads
  rw [List.map_cons, List.filter_cons_of_pos (by simpa using h)]

theorem payloads_append (a b : List (List UInt8 × List UInt8)) :
    payloads (a ++ b) = payloads a ++ payloads b := by
  unfold payloads
  rw [List.map_append, List.filter_append]

theorem forward_holds {g : Gate} {c : Connection} (haddr : Addressed g c) {size : Nat}
    (h : Holds db mp nodes free bytes) (hsize : db.size = bytes.length) (hpos : 0 < size)
    (hle : size ≤ bytes.length) :
    ∃ db' mp' nodes' free', forward g c db mp size =
        some (db', mp', [deliver g c (bytes.take size)]) ∧
      Holds db' mp' nodes' free' (bytes.drop size) ∧ db'.size = (bytes.drop size).length ∧
      Effect mp (nodes ++ free) mp' (nodes' ++ free') := by
  obtain ⟨db', mp', nodes', free', hread, hholds, hsize', -, heffect⟩ :=
    databufferRead_holds h hsize hpos hle
  refine ⟨db', mp', nodes', free', ?_, hholds, hsize', heffect⟩
  unfold forward deliver
  rw [hread]
  by_cases hbroker : g.broker ≠ 0
  · rw [if_pos hbroker, if_pos hbroker]
    rfl
  · rw [if_neg hbroker, if_neg hbroker]
    by_cases hagent : c.agent ≠ 0
    · rw [if_pos hagent, if_pos hagent]
      rfl
    · have hwatchdog : g.watchdog ≠ 0 := by
        rcases haddr with h | h | h
        · exact absurd h hbroker
        · exact absurd h hagent
        · exact h
      rw [if_neg hagent, if_neg hagent, if_pos hwatchdog]
      rfl

/-- What the loop makes of the bytes: the frames before the first one that is too long, that
frame, and the bytes that stay in the buffer. -/
structure Cut where
  frames : List (List UInt8 × List UInt8)
  tooLong : Option (List UInt8 × List UInt8)
  rest : List UInt8

/-- The connection is not closed for the frame's length. -/
def fits (frame : List UInt8 × List UInt8) : Bool := BigEndian.decode frame.1 < 2 ^ 24

def cut (style : HeaderStyle) (bytes : List UInt8) : Cut :=
  let r := style.framing.split bytes
  { frames := r.1.takeWhile fits
    tooLong := (r.1.dropWhile fits).head?
    rest := if (r.1.dropWhile fits).isEmpty then r.2 else [] }

theorem cut_pending (h : style.framing.Pending bytes) : cut style bytes = ⟨[], none, bytes⟩ := by
  unfold cut
  rw [Framing.split_pending h]
  rfl

theorem cut_frame {frame : List UInt8 × List UInt8} (h : style.framing.Complete frame)
    (hsmall : BigEndian.decode frame.1 < 2 ^ 24) (bytes : List UInt8) :
    cut style (frame.1 ++ frame.2 ++ bytes) =
      { cut style bytes with frames := frame :: (cut style bytes).frames } := by
  have hfits : fits frame = true := decide_eq_true hsmall
  unfold cut
  rw [Framing.split_frame h]
  dsimp only
  rw [List.takeWhile_cons_of_pos hfits, List.dropWhile_cons_of_pos hfits]

theorem cut_tooLong {frame : List UInt8 × List UInt8} (h : style.framing.Complete frame)
    (hbig : ¬BigEndian.decode frame.1 < 2 ^ 24) (bytes : List UInt8) :
    cut style (frame.1 ++ frame.2 ++ bytes) = ⟨[], some frame, []⟩ := by
  have hfits : ¬fits frame = true := fun h => hbig (of_decide_eq_true h)
  unfold cut
  rw [Framing.split_frame h]
  dsimp only
  rw [List.takeWhile_cons_of_neg hfits, List.dropWhile_cons_of_neg hfits]
  rfl

/-- Without frames that are too long the bytes are split. -/
theorem cut_legal (h : ∀ frame ∈ (style.framing.split bytes).1, BigEndian.decode frame.1 < 2 ^ 24) :
    cut style bytes =
      ⟨(style.framing.split bytes).1, none, (style.framing.split bytes).2⟩ := by
  have hfits : ∀ frame ∈ (style.framing.split bytes).1, fits frame = true :=
    fun frame hmem => decide_eq_true (h frame hmem)
  have hall : (style.framing.split bytes).1.takeWhile fits = (style.framing.split bytes).1 :=
    List.takeWhile_eq_self_iff.mpr hfits
  have hnone : (style.framing.split bytes).1.dropWhile fits = [] :=
    List.dropWhile_eq_nil_iff.mpr hfits
  unfold cut
  dsimp only
  rw [hall, hnone]
  rfl

/-- The frames before one that is too long. -/
theorem cut_stream {frames : List (List UInt8 × List UInt8)}
    (h : ∀ frame ∈ frames, style.framing.Complete frame ∧ BigEndian.decode frame.1 < 2 ^ 24)
    (bytes : List UInt8) : cut style (Framing.stream frames ++ bytes) =
      { cut style bytes with frames := frames ++ (cut style bytes).frames } := by
  induction frames with
  | nil => rfl
  | cons frame frames ih =>
      obtain ⟨hframe, hsmall⟩ := h frame List.mem_cons_self
      rw [Framing.stream_cons, List.append_assoc, cut_frame hframe hsmall,
        ih fun frame' hmem => h frame' (List.mem_cons_of_mem frame hmem)]
      rfl

/-- What goes out for the bytes. -/
def Cut.outs (k : Cut) (g : Gate) (c : Connection) (id : Int) : List Out :=
  (payloads k.frames).map (deliver g c) ++ if k.tooLong.isSome then [.socketClose id] else []

/-- The loop sends the complete frames on and keeps the bytes after them. -/
theorem dispatchLoop_holds {g : Gate} {c : Connection} (id : Int) {fuel : Nat}
    (h : Buffered g.headerSize db mp nodes free bytes)
    (hint : ∀ frame ∈ (cut g.headerSize bytes).tooLong, BigEndian.decode frame.1 < 2 ^ 31)
    (haddr : ∀ frame ∈ (cut g.headerSize bytes).frames, frame.2 ≠ [] → Addressed g c)
    (hfuel : bytes.length < fuel) :
    ∃ db' mp' nodes' free', dispatchLoop g c id fuel db mp =
        some (db', mp', (cut g.headerSize bytes).outs g c id) ∧
      Buffered g.headerSize db' mp' nodes' free' (cut g.headerSize bytes).rest ∧
      Effect mp (nodes ++ free) mp' (nodes' ++ free') := by
  induction fuel generalizing db mp nodes free bytes with
  | zero => exact absurd hfuel (Nat.not_lt_zero _)
  | succ fuel ih =>
      by_cases hpending : g.headerSize.framing.Pending bytes
      · obtain ⟨r, db', mp', nodes', free', hread, hneg, hbuffered, heffect⟩ :=
          readheader_pending h hpending
        rw [cut_pending hpending]
        refine ⟨db', mp', nodes', free', ?_, hbuffered, heffect⟩
        rw [dispatchLoop, hread]
        exact if_pos hneg
      · obtain ⟨⟨plen, content⟩, rest, hframe, rfl⟩ := Framing.exists_frame hpending
        have hdecode : content.length = BigEndian.decode plen := hframe.2
        have hpos := g.headerSize.size_pos
        have hint' : BigEndian.decode plen < 2 ^ 31 := by
          by_cases hsmall : BigEndian.decode plen < 2 ^ 24
          · exact Nat.lt_trans hsmall (by decide)
          · rw [cut_tooLong hframe hsmall] at hint
            exact hint _ rfl
        dsimp only at h hfuel
        obtain ⟨db₁, mp₁, nodes₁, free₁, hread, hheader, hholds, hsize, heffect⟩ :=
          readheader_complete h hframe hint'
        rw [dispatchLoop, hread]
        have hnonneg : ¬((content.length : Int) < 0) := by omega
        by_cases hsmall : BigEndian.decode plen < 2 ^ 24
        · rw [cut_frame hframe hsmall] at haddr hint ⊢
          have hshorter : rest.length < fuel := by
            have hlen : plen.length = g.headerSize.size := hframe.1
            rw [List.length_append, List.length_append] at hfuel
            omega
          have haddr' := fun frame hmem => haddr frame (List.mem_cons_of_mem _ hmem)
          by_cases hempty : content = []
          · subst hempty
            have hbuffered : Buffered g.headerSize db₁ mp₁ nodes₁ free₁ rest :=
              .header hheader hsize hholds
            obtain ⟨db', mp', nodes', free', hloop, hbuffered', heffect'⟩ :=
              ih hbuffered hint haddr' hshorter
            exact ⟨db', mp', nodes', free', hloop, hbuffered', heffect.trans heffect'⟩
          · have hcontent : 0 < content.length := List.length_pos_iff.mpr hempty
            obtain ⟨db₂, mp₂, nodes₂, free₂, hforward, hholds₂, hsize₂, heffect₂⟩ :=
              forward_holds (haddr _ List.mem_cons_self hempty) hholds hsize hcontent
                (by rw [List.length_append]; omega)
            rw [List.take_left] at hforward
            rw [List.drop_left] at hholds₂ hsize₂
            have hbuffered : Buffered g.headerSize (databufferReset db₂) mp₂ nodes₂ free₂ rest :=
              .header rfl hsize₂ (hholds₂.of_fields rfl rfl rfl)
            obtain ⟨db', mp', nodes', free', hloop, hbuffered', heffect'⟩ :=
              ih hbuffered hint haddr' hshorter
            refine ⟨db', mp', nodes', free', ?_, hbuffered', heffect.trans
              (heffect₂.trans heffect')⟩
            have hge : ¬((content.length : Int) ≥ 0x1000000) := by omega
            have hgt : (content.length : Int) > 0 := by omega
            simp only [Option.bind_eq_bind, Option.bind_some, hnonneg, hgt, hge, if_true, if_false,
              Int.toNat_natCast, hforward, hloop, Cut.outs, payloads_cons hempty]
            rfl
        · rw [cut_tooLong hframe hsmall]
          obtain ⟨mp', free', hclear, hholds', heffect'⟩ := databufferClear_holds hholds.toLinked
          refine ⟨.zero, mp', [], free', ?_, .header rfl rfl hholds', heffect.trans heffect'⟩
          have hge : (content.length : Int) ≥ 0x1000000 := by omega
          have hgt : (content.length : Int) > 0 := by omega
          simp only [Option.bind_eq_bind, Option.bind_some, hnonneg, hgt, hge, if_true, if_false,
            hclear]
          rfl

/-- Without a destination the bytes of the frame stay where they are. -/
theorem forward_unaddressed {g : Gate} {c : Connection} (h : ¬Addressed g c) (size : Nat) :
    forward g c db mp size = some (db, mp, []) := by
  unfold Addressed at h
  rw [not_or, not_or] at h
  unfold forward
  rw [if_neg h.1, if_neg h.2.1, if_neg h.2.2]
  rfl

/-- The loop ends without a failed assertion, whatever is in the buffer. -/
theorem dispatchLoop_total {g : Gate} {c : Connection} (id : Int) {fuel : Nat}
    (h : Buffered g.headerSize db mp nodes free bytes) (hfuel : bytes.length < fuel) :
    ∃ db' mp' nodes' free' outs rest, dispatchLoop g c id fuel db mp = some (db', mp', outs) ∧
      Buffered g.headerSize db' mp' nodes' free' rest ∧
      Effect mp (nodes ++ free) mp' (nodes' ++ free') := by
  induction fuel generalizing db mp nodes free bytes with
  | zero => exact absurd hfuel (Nat.not_lt_zero _)
  | succ fuel ih =>
      have hpos := g.headerSize.size_pos
      by_cases hpending : g.headerSize.framing.Pending bytes
      · obtain ⟨r, db', mp', nodes', free', hread, hneg, hbuffered, heffect⟩ :=
          readheader_pending h hpending
        refine ⟨db', mp', nodes', free', [], bytes, ?_, hbuffered, heffect⟩
        rw [dispatchLoop, hread]
        exact if_pos hneg
      · obtain ⟨⟨plen, content⟩, rest, hframe, rfl⟩ := Framing.exists_frame hpending
        dsimp only at h hfuel
        have hlen : plen.length = g.headerSize.size := hframe.1
        have hdecode : content.length = BigEndian.decode plen := hframe.2
        rw [List.length_append, List.length_append] at hfuel
        by_cases hint : BigEndian.decode plen < 2 ^ 31
        · obtain ⟨db₁, mp₁, nodes₁, free₁, hread, hheader, hholds, hsize, heffect⟩ :=
            readheader_complete h hframe hint
          rw [dispatchLoop, hread]
          have hnonneg : ¬((content.length : Int) < 0) := by omega
          by_cases hempty : content = []
          · subst hempty
            obtain ⟨db', mp', nodes', free', outs, rest', hloop, hbuffered, heffect'⟩ :=
              ih (.header hheader hsize hholds) (show rest.length < fuel by omega)
            exact ⟨db', mp', nodes', free', outs, rest', hloop, hbuffered, heffect.trans heffect'⟩
          · have hcontent : 0 < content.length := List.length_pos_iff.mpr hempty
            have hgt : (content.length : Int) > 0 := by omega
            by_cases hge : (content.length : Int) ≥ 0x1000000
            · obtain ⟨mp', free', hclear, hholds', heffect'⟩ :=
                databufferClear_holds hholds.toLinked
              refine ⟨.zero, mp', [], free', [.socketClose id], [], ?_, .header rfl rfl hholds',
                heffect.trans heffect'⟩
              simp only [Option.bind_eq_bind, Option.bind_some, hnonneg, hgt, hge, if_true,
                if_false, hclear]
              rfl
            · have hforward : ∃ db₂ mp₂ nodes₂ free₂ outs bytes₂,
                  forward g c db₁ mp₁ content.length = some (db₂, mp₂, outs) ∧
                  Holds db₂ mp₂ nodes₂ free₂ bytes₂ ∧ db₂.size = bytes₂.length ∧
                  bytes₂.length ≤ content.length + rest.length ∧
                  Effect mp₁ (nodes₁ ++ free₁) mp₂ (nodes₂ ++ free₂) := by
                by_cases haddr : Addressed g c
                · obtain ⟨db₂, mp₂, nodes₂, free₂, hforward, hholds₂, hsize₂, heffect₂⟩ :=
                    forward_holds haddr hholds hsize hcontent
                      (by rw [List.length_append]; omega)
                  refine ⟨db₂, mp₂, nodes₂, free₂, _, _, hforward, hholds₂, hsize₂, ?_, heffect₂⟩
                  rw [List.drop_left]
                  omega
                · exact ⟨db₁, mp₁, nodes₁, free₁, [], content ++ rest,
                    forward_unaddressed haddr _, hholds, hsize, by rw [List.length_append],
                    .refl ..⟩
              obtain ⟨db₂, mp₂, nodes₂, free₂, outs, bytes₂, hforward, hholds₂, hsize₂, hle,
                  heffect₂⟩ :=
                hforward
              have hbuffered : Buffered g.headerSize
                  (databufferReset db₂) mp₂ nodes₂ free₂ bytes₂ :=
                .header rfl hsize₂ (hholds₂.of_fields rfl rfl rfl)
              obtain ⟨db', mp', nodes', free', more, rest', hloop, hbuffered', heffect'⟩ :=
                ih hbuffered (show bytes₂.length < fuel by omega)
              refine ⟨db', mp', nodes', free', outs ++ more, rest', ?_, hbuffered',
                heffect.trans (heffect₂.trans heffect')⟩
              simp only [Option.bind_eq_bind, Option.bind_some, hnonneg, hgt, hge, if_true,
                if_false, Int.toNat_natCast, hforward, hloop]
              rfl
        · -- a length from 2 ^ 31 on is negative, and the loop waits with it
          rw [List.append_assoc] at h
          obtain ⟨db', mp', nodes', free', hread, hheader, hholds, hsize, heffect⟩ :=
            readheader_front h hlen
          have hneg := g.headerSize.header_of_ge hlen (Nat.le_of_not_lt hint)
          have havail : available db' < 0 := by
            unfold available
            rw [hheader, if_neg (by omega)]
            exact hneg
          refine ⟨db', mp', nodes', free', [], _, ?_,
            .content hlen (by omega) hheader hsize hholds, heffect⟩
          rw [dispatchLoop, hread]
          exact if_pos havail

end Jump.Skynet.GateService
