import Jump.Core.Framing
import Jump.Skynet.HarborLink.Code

/-! # What arrives over the link

The slave's state is determined by the bytes that arrived since the last complete message.
-/

namespace Jump.Skynet.HarborLink

open Jump.Core

/-! ## The cookie -/

theorem and_handleMask (n : Nat) : n &&& HANDLE_MASK = n % 2 ^ 24 :=
  Nat.and_two_pow_sub_one_eq_mod n 24

theorem packed {low type : Nat} (hlow : low < 2 ^ 24) (htype : type < 256) :
    low ||| u32 (type <<< HANDLE_REMOTE_SHIFT) = type * 2 ^ 24 + low := by
  have hshift : type <<< HANDLE_REMOTE_SHIFT = type * 2 ^ 24 := Nat.shiftLeft_eq type 24
  have hu32 : u32 (type * 2 ^ 24) = type * 2 ^ 24 := u32_of_lt (by omega)
  rw [hshift, hu32, Nat.or_comm, Nat.mul_comm]
  exact (Nat.two_pow_add_eq_or_of_lt hlow type).symm

theorem cookie_destination {destination type : Nat} (htype : type < 256) (source : Nat)
    (session : Int) : (cookie source destination type session).destination =
      type * 2 ^ 24 + destination % 2 ^ 24 := by
  have hlow : destination &&& HANDLE_MASK < 2 ^ 24 := by
    rw [and_handleMask]
    omega
  show (destination &&& HANDLE_MASK) ||| u32 (type <<< HANDLE_REMOTE_SHIFT) = _
  rw [packed hlow htype, and_handleMask]

theorem messageToHeader_headerToMessage {header : RemoteMessageHeader}
    (hsource : header.source < 2 ^ 32) (hdestination : header.destination < 2 ^ 32)
    (hsession : header.session < 2 ^ 32) :
    messageToHeader (headerToMessage header) = header := by
  have hlen : ∀ n, (toBigendian n).length = 4 := BigEndian.length_encode 4
  have hdecode : ∀ n, n < 2 ^ 32 → BigEndian.decode (toBigendian n) = n := by
    intro n hn
    have hmod := BigEndian.decode_encode 4 n
    have hn' : n < 256 ^ 4 := hn
    rw [Nat.mod_eq_of_lt hn'] at hmod
    exact hmod
  have hfirst : fromBigendian (headerToMessage header) 0 = header.source := by
    unfold fromBigendian headerToMessage
    rw [List.drop_zero, List.append_assoc, List.take_left' (hlen _), hdecode _ hsource]
  have hsecond : fromBigendian (headerToMessage header) 4 = header.destination := by
    unfold fromBigendian headerToMessage
    rw [List.append_assoc, List.drop_left' (hlen _), List.take_left' (hlen _),
      hdecode _ hdestination]
  have hthird : fromBigendian (headerToMessage header) 8 = header.session := by
    have hlen2 : (toBigendian header.source ++ toBigendian header.destination).length = 8 := by
      rw [List.length_append, hlen, hlen]
    unfold fromBigendian headerToMessage
    rw [List.drop_left' hlen2, List.take_of_length_le (Nat.le_of_eq (hlen _)), hdecode _ hsession]
  unfold messageToHeader
  rw [hfirst, hsecond, hthird]

/-- A message as a service hands it to its harbor. -/
structure Message where
  source : Nat
  destination : Nat
  type : Nat
  session : Int
  payload : List UInt8
  source_lt : source < 2 ^ 32
  destination_lt : destination < 2 ^ 32
  type_lt : type < 256
  session_ge : -2 ^ 31 ≤ session
  session_lt : session < 2 ^ 31
  payload_lt : payload.length < 2 ^ 24 - 12

/-- What the message takes on the link. -/
def Message.sent (m : Message) : List UInt8 :=
  sendRemote m.payload (cookie m.source m.destination m.type m.session)

/-- The message with the receiving harbor's number in its destination. -/
def Message.forwarded (m : Message) (h : Harbor) : Event :=
  .forward m.source
    ((m.destination &&& HANDLE_MASK) ||| u32 (h.id <<< HANDLE_REMOTE_SHIFT))
    (m.type ||| PTYPE_TAG_DONTCOPY) m.session m.payload

/-- `forward_local_messsage` finds what `send_remote` packed. -/
theorem forwardLocalMessage_sent (h : Harbor) (m : Message) :
    forwardLocalMessage h (m.payload ++
      headerToMessage (cookie m.source m.destination m.type m.session)) = m.forwarded h := by
  have hdest : (cookie m.source m.destination m.type m.session).destination =
      m.type * 2 ^ 24 + m.destination % 2 ^ 24 := cookie_destination m.type_lt m.source m.session
  have hmod : m.destination % 2 ^ 24 < 2 ^ 24 := Nat.mod_lt _ (by decide)
  have htype := m.type_lt
  have hlt : (cookie m.source m.destination m.type m.session).destination < 2 ^ 32 := by
    rw [hdest]
    omega
  have hheader := messageToHeader_headerToMessage m.source_lt hlt (uint32OfInt_lt m.session)
  have hlen : (m.payload ++
      headerToMessage (cookie m.source m.destination m.type m.session)).length -
        HEADER_COOKIE_LENGTH = m.payload.length := by
    rw [List.length_append]
    exact Nat.add_sub_cancel ..
  have hmask : (m.type * 2 ^ 24 + m.destination % 2 ^ 24) &&& HANDLE_MASK =
      m.destination &&& HANDLE_MASK := by
    rw [and_handleMask, and_handleMask]
    omega
  have hshift : (m.type * 2 ^ 24 + m.destination % 2 ^ 24) >>> HANDLE_REMOTE_SHIFT = m.type := by
    show (m.type * 2 ^ 24 + m.destination % 2 ^ 24) >>> 24 = m.type
    rw [Nat.shiftRight_eq_div_pow]
    omega
  unfold forwardLocalMessage Message.forwarded
  simp only [hlen, List.drop_left, List.take_left, hheader, hdest, hmask, hshift]
  show Event.forward m.source _ _ (toInt (uint32OfInt m.session)) _ = _
  rw [toInt_uint32OfInt m.session_ge m.session_lt]

/-! ## The decoder -/

/-- Messages on the link: the header's first byte is no part of the length. -/
def link : Framing UInt8 where
  header := 4
  header_pos := (by decide)
  length header := BigEndian.decode (header.drop 1)

/-- The slave in the middle of a message of which the bytes `rest` arrived. -/
inductive Slave.Holds (s : Slave) : List UInt8 → Prop where
  | header {rest : List UInt8} (hstatus : s.status = .header) (hsize : s.size.length = 4)
      (hread : s.read = rest.length) (hrest : rest.length < 4)
      (htake : s.size.take s.read = rest) : Holds s rest
  | content {header part : List UInt8} (hstatus : s.status = .content)
      (hsize : s.size.length = 4) (hheader : header.length = 4)
      (hlength : s.length = link.length header) (hbuffer : s.recvBuffer.length = s.length)
      (hread : s.read = part.length) (hpart : part.length < s.length)
      (htake : s.recvBuffer.take s.read = part) : Holds s (header ++ part)

/-- A header that the decoder goes on with; the content has room for the cookie. -/
def LegalHeader (header : List UInt8) : Prop :=
  header.take 1 = [0] ∧ HEADER_COOKIE_LENGTH ≤ link.length header

/-- What one pass of the loop makes of the bytes in `buffer` that come after `rest`. -/
inductive Takes (h : Harbor) (rest buffer : List UInt8) : Pass → Prop where
  | pending {s : Slave} (hpending : link.Pending (rest ++ buffer))
      (hholds : s.Holds (rest ++ buffer)) : Takes h rest buffer (.ret s [])
  | last {s : Slave} {header content : List UInt8} (hframe : link.Complete (header, content))
      (hbytes : rest ++ buffer = header ++ content) (hholds : s.Holds []) :
      Takes h rest buffer (.ret s [forwardLocalMessage h content])
  | more {s : Slave} {header content bytes : List UInt8}
      (hframe : link.Complete (header, content))
      (hbytes : rest ++ buffer = header ++ content ++ bytes)
      (hlt : bytes.length < buffer.length) (hholds : s.Holds []) :
      Takes h rest buffer (.again s bytes [forwardLocalMessage h content])

theorem Slave.Holds.pending {s : Slave} {rest : List UInt8} (hs : s.Holds rest) :
    link.Pending rest := by
  cases hs with
  | header _ _ _ hrest => exact .inr hrest
  | content _ _ hheader hlength _ _ hpart =>
      refine .inl ?_
      rw [List.take_left' (show _ = link.header from hheader), ← hlength, List.length_append,
        hheader]
      exact Nat.add_lt_add_left hpart 4

theorem take_memcpy {buffer bytes : List UInt8} {p : Nat} (hp : p ≤ buffer.length) :
    (memcpy buffer p bytes).take (p + bytes.length) = buffer.take p ++ bytes := by
  have hlen : (buffer.take p ++ bytes).length = p + bytes.length := by
    rw [List.length_append, List.length_take, Nat.min_eq_left hp]
  exact List.take_left' hlen

theorem length_memcpy {buffer bytes : List UInt8} {p : Nat}
    (h : p + bytes.length ≤ buffer.length) : (memcpy buffer p bytes).length = buffer.length := by
  unfold memcpy
  simp only [List.length_append, List.length_take, List.length_drop]
  omega

/-- A buffer that `memcpy` fills to its end. -/
theorem memcpy_full {buffer bytes : List UInt8} {p : Nat} (h : p + bytes.length = buffer.length) :
    memcpy buffer p bytes = buffer.take p ++ bytes := by
  have hlen := length_memcpy (Nat.le_of_eq h)
  have htake : (memcpy buffer p bytes).take (p + bytes.length) = buffer.take p ++ bytes :=
    take_memcpy (by omega)
  rw [← htake, h, ← hlen, List.take_length]

theorem passContent_takes (h : Harbor) {s : Slave} {header part : List UInt8}
    (hstatus : s.status = .content) (hsize : s.size.length = 4) (hheader : header.length = 4)
    (hlength : s.length = link.length header) (hbuffer : s.recvBuffer.length = s.length)
    (hread : s.read = part.length) (hpart : part.length < s.length)
    (htake : s.recvBuffer.take s.read = part) (buffer : List UInt8) :
    Takes h (header ++ part) buffer (passContent h s buffer) := by
  have hhead : (header ++ part ++ buffer).take link.header = header := by
    rw [List.append_assoc]
    exact List.take_left' hheader
  have hlen : (header ++ part ++ buffer).length = 4 + part.length + buffer.length := by
    rw [List.length_append, List.length_append, hheader]
  unfold passContent
  by_cases hshort : buffer.length < s.length - s.read
  · rw [if_pos hshort]
    have hpending : link.Pending (header ++ part ++ buffer) := by
      refine .inl ?_
      rw [hhead, ← hlength, hlen]
      show _ < 4 + s.length
      omega
    refine .pending hpending ?_
    rw [List.append_assoc]
    refine .content hstatus hsize hheader hlength ?_ ?_ ?_ ?_
    · rw [← hbuffer]
      exact length_memcpy (by omega)
    · show s.read + buffer.length = _
      rw [hread, List.length_append]
    · rw [List.length_append]
      show _ < s.length
      omega
    · show (memcpy s.recvBuffer s.read buffer).take (s.read + buffer.length) = _
      rw [take_memcpy (by omega), htake]
  · rw [if_neg hshort]
    have hneed : (buffer.take (s.length - s.read)).length = s.length - s.read := by
      rw [List.length_take]
      omega
    have hfull : memcpy s.recvBuffer s.read (buffer.take (s.length - s.read)) =
        part ++ buffer.take (s.length - s.read) := by
      rw [memcpy_full (by omega), htake]
    have hcomplete : link.Complete (header, part ++ buffer.take (s.length - s.read)) := by
      refine ⟨hheader, ?_⟩
      rw [← hlength, List.length_append, hneed]
      omega
    have hholds : Slave.Holds
        { s with length := 0, read := 0, recvBuffer := [], status := .header } [] :=
      .header rfl hsize rfl (by decide) rfl
    simp only [hfull]
    by_cases hall : buffer.length = s.length - s.read
    · have hbytes : buffer.take (s.length - s.read) = buffer :=
        List.take_of_length_le (Nat.le_of_eq hall)
      rw [hbytes] at hcomplete ⊢
      rw [if_pos hall]
      exact .last hcomplete (List.append_assoc ..) hholds
    · rw [if_neg hall]
      refine .more hcomplete ?_ ?_ hholds
      · simp only [List.append_assoc, List.take_append_drop]
      · rw [List.length_drop]
        omega

/-- The bytes with which the decoder goes on are the same ones, with fewer of them new. -/
theorem Takes.shift {h : Harbor} {rest new buffer : List UInt8} {p : Pass}
    (ht : Takes h (rest ++ new) buffer p) : Takes h rest (new ++ buffer) p := by
  have hlen : buffer.length ≤ (new ++ buffer).length := by
    rw [List.length_append]
    omega
  cases ht with
  | pending hpending hholds =>
      rw [List.append_assoc] at hpending hholds
      exact .pending hpending hholds
  | last hframe hbytes hholds =>
      rw [List.append_assoc] at hbytes
      exact .last hframe hbytes hholds
  | more hframe hbytes hlt hholds =>
      rw [List.append_assoc] at hbytes
      exact .more hframe hbytes (Nat.lt_of_lt_of_le hlt hlen) hholds

theorem passHeader_takes (h : Harbor) (id : Nat) {s : Slave} {rest buffer : List UInt8}
    (hstatus : s.status = .header) (hsize : s.size.length = 4) (hread : s.read = rest.length)
    (hrest : rest.length < 4) (htake : s.size.take s.read = rest)
    (hlegal : 4 ≤ (rest ++ buffer).length → LegalHeader ((rest ++ buffer).take 4)) :
    Takes h rest buffer (passHeader h id s buffer) := by
  have hlen : (rest ++ buffer).length = rest.length + buffer.length := List.length_append
  unfold passHeader
  by_cases hshort : buffer.length < 4 - s.read
  · rw [if_pos hshort]
    have hfew : rest.length + buffer.length < 4 := by omega
    refine .pending (.inr ?_) (.header hstatus ?_ ?_ ?_ ?_)
    · rw [hlen]
      exact hfew
    · show (memcpy s.size s.read buffer).length = 4
      rw [length_memcpy (by omega), hsize]
    · show s.read + buffer.length = _
      rw [hread, hlen]
    · rw [hlen]
      exact hfew
    · show (memcpy s.size s.read buffer).take (s.read + buffer.length) = _
      rw [take_memcpy (by omega), htake]
  · rw [if_neg hshort]
    have hneed : (buffer.take (4 - s.read)).length = 4 - s.read := by
      rw [List.length_take]
      omega
    have hfull : memcpy s.size s.read (buffer.take (4 - s.read)) =
        rest ++ buffer.take (4 - s.read) := by
      rw [memcpy_full (by omega), htake]
    have hheader : (rest ++ buffer.take (4 - s.read)).length = 4 := by
      rw [List.length_append, hneed]
      omega
    have hsplit : rest ++ buffer.take (4 - s.read) ++ buffer.drop (4 - s.read) =
        rest ++ buffer := by
      rw [List.append_assoc, List.take_append_drop]
    have hfirst : (rest ++ buffer).take 4 = rest ++ buffer.take (4 - s.read) := by
      rw [← hsplit]
      exact List.take_left' hheader
    obtain ⟨hzero, hcookie⟩ := hlegal (by omega)
    rw [hfirst] at hzero hcookie
    have hpos : 0 < link.length (rest ++ buffer.take (4 - s.read)) :=
      Nat.lt_of_lt_of_le (by decide) hcookie
    simp only [hfull, hzero, ne_eq, not_true_eq_false, if_false]
    generalize hdef : rest ++ buffer.take (4 - s.read) = header at *
    by_cases hall : buffer.length = 4 - s.read
    · rw [if_pos hall]
      have hnone : buffer.drop (4 - s.read) = [] := List.drop_of_length_le (Nat.le_of_eq hall)
      rw [hnone] at hsplit
      refine .pending ?_ ?_
      · rw [← hsplit, List.append_nil]
        have hwhole : header.take link.header = header :=
          List.take_of_length_le (Nat.le_of_eq hheader)
        refine .inl ?_
        rw [hwhole, hheader]
        exact Nat.lt_add_of_pos_right hpos
      · rw [← hsplit]
        exact .content rfl hheader hheader rfl List.length_replicate rfl hpos rfl
    · rw [if_neg hall]
      have hpass := passContent_takes h (s := { s with
          size := header, length := link.length header, read := 0,
          recvBuffer := List.replicate (link.length header) 0, status := .content })
        rfl hheader hheader rfl List.length_replicate (show 0 = [].length from rfl) hpos rfl
        (buffer.drop (4 - s.read))
      rw [List.append_nil] at hpass
      subst hdef
      have htakes := hpass.shift
      rw [List.take_append_drop] at htakes
      exact htakes

theorem pass_takes (h : Harbor) (id : Nat) {s : Slave} {rest buffer : List UInt8}
    (hs : s.Holds rest)
    (hlegal : 4 ≤ (rest ++ buffer).length → LegalHeader ((rest ++ buffer).take 4)) :
    Takes h rest buffer (pass h id s buffer) := by
  unfold pass
  cases hs with
  | header hstatus hsize hread hrest htake =>
      rw [hstatus]
      exact passHeader_takes h id hstatus hsize hread hrest htake hlegal
  | content hstatus hsize hheader hlength hbuffer hread hpart htake =>
      rw [hstatus]
      exact passContent_takes h hstatus hsize hheader hlength hbuffer hread hpart htake buffer

/-- Every header in the bytes is one that the decoder goes on with. -/
def Legal (bytes : List UInt8) : Prop :=
  (∀ frame ∈ (link.split bytes).1, LegalHeader frame.1) ∧
    (4 ≤ (link.split bytes).2.length → LegalHeader ((link.split bytes).2.take 4))

theorem Legal.first {bytes : List UInt8} (h : Legal bytes) (hlen : 4 ≤ bytes.length) :
    LegalHeader (bytes.take 4) := by
  obtain ⟨hframes, hrest⟩ := h
  by_cases hpending : link.Pending bytes
  · rw [Framing.split_pending hpending] at hrest
    exact hrest hlen
  · obtain ⟨frame, rest, hframe, rfl⟩ := Framing.exists_frame hpending
    have htake : (frame.1 ++ frame.2 ++ rest).take 4 = frame.1 := by
      rw [List.append_assoc]
      exact List.take_left' hframe.1
    rw [Framing.split_frame hframe] at hframes
    rw [htake]
    exact hframes frame List.mem_cons_self

theorem Legal.rest {frame : List UInt8 × List UInt8} {bytes : List UInt8}
    (hframe : link.Complete frame) (h : Legal (frame.1 ++ frame.2 ++ bytes)) : Legal bytes := by
  unfold Legal at h
  rw [Framing.split_frame hframe] at h
  exact ⟨fun frame' hmem => h.1 frame' (List.mem_cons_of_mem frame hmem), h.2⟩

/-- The loop forwards the complete messages and keeps the bytes of the one after them. -/
theorem loop_holds (h : Harbor) (id : Nat) {fuel : Nat} {s : Slave} {rest buffer : List UInt8}
    (hs : s.Holds rest) (hlegal : Legal (rest ++ buffer)) (hfuel : buffer.length < fuel) :
    ∃ s', loop h id fuel s buffer = some (s', (link.split (rest ++ buffer)).1.map fun frame =>
      forwardLocalMessage h frame.2) ∧ s'.Holds (link.split (rest ++ buffer)).2 := by
  induction fuel generalizing s rest buffer with
  | zero => exact absurd hfuel (Nat.not_lt_zero _)
  | succ fuel ih =>
      have hpass := pass_takes h id hs hlegal.first
      rw [loop]
      generalize hp : pass h id s buffer = p at hpass
      cases hpass with
      | pending hpending hholds =>
          rw [Framing.split_pending hpending]
          exact ⟨_, rfl, hholds⟩
      | @last s' header content hframe hbytes hholds =>
          rw [hbytes, Framing.split_one hframe]
          exact ⟨s', rfl, hholds⟩
      | @more s' header content bytes hframe hbytes hlt hholds =>
          rw [hbytes] at hlegal ⊢
          obtain ⟨t, hloop, ht⟩ := @ih s' [] bytes hholds (hlegal.rest hframe) (by omega)
          rw [List.nil_append] at hloop ht
          rw [Framing.split_frame hframe]
          refine ⟨t, ?_, ht⟩
          simp only [hloop]
          rfl

/-! ## The link's place in the harbor -/

def Pass.slave : Pass → Slave
  | .ret s _ => s
  | .again s _ _ => s

theorem passContent_fd (h : Harbor) (s : Slave) (buffer : List UInt8) :
    (passContent h s buffer).slave.fd = s.fd := by
  unfold passContent
  dsimp only
  split
  · rfl
  · split <;> rfl

theorem passHeader_fd (h : Harbor) (id : Nat) (s : Slave) (buffer : List UInt8) :
    (passHeader h id s buffer).slave.fd = s.fd := by
  unfold passHeader
  dsimp only
  split
  · rfl
  · split
    · rfl
    · split
      · rfl
      · rw [passContent_fd]

theorem passHandshake_fd (h : Harbor) (id : Nat) (s : Slave) (buffer : List UInt8) :
    (passHandshake h id s buffer).slave.fd = s.fd := by
  cases buffer with
  | nil => rfl
  | cons remoteId buffer =>
      unfold passHandshake
      dsimp only
      split
      · rfl
      · cases buffer with
        | nil => rfl
        | cons b buffer =>
            have hheader := passHeader_fd h id { s with status := .header } (b :: buffer)
            dsimp only
            split <;> rename_i heq <;> rw [heq] at hheader <;> exact hheader

theorem pass_fd (h : Harbor) (id : Nat) (s : Slave) (buffer : List UInt8) :
    (pass h id s buffer).slave.fd = s.fd := by
  unfold pass
  split
  · exact passHandshake_fd ..
  · exact passHeader_fd ..
  · exact passContent_fd ..
  · rfl

theorem loop_fd {h : Harbor} {id fuel : Nat} {s : Slave} {buffer : List UInt8}
    {r : Slave × List Event} (hloop : loop h id fuel s buffer = some r) : r.1.fd = s.fd := by
  induction fuel generalizing s buffer r with
  | zero => exact nomatch hloop
  | succ fuel ih =>
      have hpass := pass_fd h id s buffer
      rw [loop] at hloop
      cases hp : pass h id s buffer with
      | ret s' events =>
          rw [hp] at hloop hpass
          obtain rfl := Option.some.inj hloop
          exact hpass
      | again s' bytes events =>
          rw [hp] at hloop hpass
          obtain ⟨t, ht, rfl⟩ := Option.map_eq_some_iff.mp hloop
          exact (ih ht).trans hpass

theorem find_update {h : Harbor} {id : Nat} {s : Slave} (hfd : s.fd = (h.s id).fd) (fd : Int) :
    ({ h with s := Function.update h.s id s } : Harbor).find fd = h.find fd := by
  have hsame : ∀ i, (Function.update h.s id s i).fd = (h.s i).fd := by
    intro i
    by_cases hi : i = id
    · subst hi
      rw [Function.update_self, hfd]
    · rw [Function.update_of_ne hi]
  simp only [Harbor.find, hsame]

/-! ## Runs -/

/-- The DATA messages of a descriptor one after another. -/
def pushAll (h : Harbor) (fd : Int) : List (List UInt8) → Option (Harbor × List Event)
  | [] => some (h, [])
  | buffer :: chunks =>
    (pushSocketData h fd buffer).bind fun r =>
      (pushAll r.1 fd chunks).map fun t => (t.1, r.2 ++ t.2)

theorem Legal.left {a b : List UInt8} (h : Legal (a ++ b)) : Legal a := by
  unfold Legal at h
  rw [Framing.split_append] at h
  obtain ⟨hframes, hrest⟩ := h
  have hnext : Legal ((link.split a).2 ++ b) :=
    ⟨fun frame hmem => hframes frame (List.mem_append_right _ hmem), hrest⟩
  refine ⟨fun frame hmem => hframes frame (List.mem_append_left _ hmem), fun hlen => ?_⟩
  have hfirst := hnext.first (by rw [List.length_append]; omega)
  rw [List.take_append_of_le_length hlen] at hfirst
  exact hfirst

theorem Legal.right {a b : List UInt8} (h : Legal (a ++ b)) :
    Legal ((link.split a).2 ++ b) := by
  unfold Legal at h
  rw [Framing.split_append] at h
  obtain ⟨hframes, hrest⟩ := h
  exact ⟨fun frame hmem => hframes frame (List.mem_append_right _ hmem), hrest⟩

/-- One DATA message. -/
theorem pushSocketData_loop {h : Harbor} {fd : Int} {id : Nat} (hfind : h.find fd = some id)
    {buffer rest : List UInt8} {s' : Slave} {events : List Event}
    (hloop : loop h id (buffer.length + 2) (h.s id) buffer = some (s', events))
    (hs' : s'.Holds rest) :
    ∃ h', pushSocketData h fd buffer = some (h', events) ∧ (h'.s id).Holds rest ∧
      h'.id = h.id ∧ h'.find fd = some id := by
  refine ⟨{ h with s := Function.update h.s id s' }, ?_, ?_, rfl, ?_⟩
  · unfold pushSocketData
    rw [hfind]
    simp only [hloop]
    rfl
  · dsimp only
    rw [Function.update_self]
    exact hs'
  · rw [find_update (loop_fd hloop), hfind]

theorem pushAll_cons {h h₁ h₂ : Harbor} {fd : Int} {buffer : List UInt8} {events : List Event}
    (hpush : pushSocketData h fd buffer = some (h₁, events)) (hid : h₁.id = h.id)
    {chunks : List (List UInt8)} {frames : List (List UInt8 × List UInt8)}
    (hall : pushAll h₁ fd chunks =
      some (h₂, frames.map fun frame => forwardLocalMessage h₁ frame.2)) :
    pushAll h fd (buffer :: chunks) =
      some (h₂, events ++ frames.map fun frame => forwardLocalMessage h frame.2) := by
  have hsame : forwardLocalMessage h₁ = forwardLocalMessage h := by
    funext msg
    unfold forwardLocalMessage
    rw [hid]
  rw [pushAll, hpush, Option.bind_some, hall, hsame]
  rfl

theorem pushAll_holds {h : Harbor} {fd : Int} {id : Nat} {rest : List UInt8}
    (hfind : h.find fd = some id) (hs : (h.s id).Holds rest) {chunks : List (List UInt8)}
    (hlegal : Legal (rest ++ chunks.flatten)) :
    ∃ h', pushAll h fd chunks = some (h',
        (link.split (rest ++ chunks.flatten)).1.map fun frame => forwardLocalMessage h frame.2) ∧
      (h'.s id).Holds (link.split (rest ++ chunks.flatten)).2 := by
  induction chunks generalizing h rest with
  | nil =>
      rw [List.flatten_nil, List.append_nil, Framing.split_pending hs.pending]
      exact ⟨h, rfl, hs⟩
  | cons buffer chunks ih =>
      rw [List.flatten_cons, ← List.append_assoc] at hlegal ⊢
      obtain ⟨s₁, hloop, hholds⟩ := loop_holds h id hs hlegal.left
        (show buffer.length < buffer.length + 2 by omega)
      obtain ⟨h₁, hpush, hs₁, hid, hfind₁⟩ := pushSocketData_loop hfind hloop hholds
      obtain ⟨h₂, hall, hs₂⟩ := ih hfind₁ hs₁ hlegal.right
      rw [Framing.split_append, List.map_append]
      exact ⟨h₂, pushAll_cons hpush hid hall, hs₂⟩

/-! ## Messages -/

def Message.header (m : Message) : List UInt8 :=
  toBigendian (u32 (m.payload.length + HEADER_COOKIE_LENGTH))

def Message.content (m : Message) : List UInt8 :=
  m.payload ++ headerToMessage (cookie m.source m.destination m.type m.session)

theorem Message.sent_eq (m : Message) : m.sent = m.header ++ m.content := by
  unfold Message.sent sendRemote Message.header Message.content
  rw [List.append_assoc]

theorem Message.length_content (m : Message) :
    m.content.length = m.payload.length + HEADER_COOKIE_LENGTH := List.length_append

/-- The size fits in the last three bytes of the header. -/
theorem Message.header_eq (m : Message) :
    m.header = 0 :: BigEndian.encode 3 (m.payload.length + HEADER_COOKIE_LENGTH) := by
  have hlt := m.payload_lt
  have hcookie : HEADER_COOKIE_LENGTH = 12 := rfl
  have hu32 : u32 (m.payload.length + HEADER_COOKIE_LENGTH) =
      m.payload.length + HEADER_COOKIE_LENGTH := u32_of_lt (by omega)
  have hzero : (m.payload.length + HEADER_COOKIE_LENGTH) / 256 ^ 3 = 0 :=
    Nat.div_eq_of_lt (by omega)
  unfold Message.header toBigendian
  rw [hu32, BigEndian.encode_succ, hzero]
  rfl

theorem Message.link_length (m : Message) : link.length m.header = m.content.length := by
  have hlt := m.payload_lt
  have hcookie : HEADER_COOKIE_LENGTH = 12 := rfl
  rw [m.header_eq, m.length_content]
  show BigEndian.decode (BigEndian.encode 3 _) = _
  rw [BigEndian.decode_encode, Nat.mod_eq_of_lt (by omega)]

theorem Message.complete (m : Message) : link.Complete (m.header, m.content) :=
  ⟨BigEndian.length_encode 4 _, m.link_length.symm⟩

theorem Message.legalHeader (m : Message) : LegalHeader m.header := by
  refine ⟨?_, ?_⟩
  · rw [m.header_eq]
    rfl
  · rw [m.link_length, m.length_content]
    exact Nat.le_add_left ..

/-- The frames of the messages on the link. -/
def frames (msgs : List Message) : List (List UInt8 × List UInt8) :=
  msgs.map fun m => (m.header, m.content)

theorem stream_frames (msgs : List Message) :
    Framing.stream (frames msgs) = msgs.flatMap Message.sent := by
  unfold Framing.stream frames
  rw [List.flatMap_map]
  exact congrArg (msgs.flatMap ·) (funext fun m => m.sent_eq.symm)

theorem frames_complete (msgs : List Message) : ∀ frame ∈ frames msgs, link.Complete frame := by
  intro frame hmem
  obtain ⟨m, -, rfl⟩ := List.mem_map.mp hmem
  exact m.complete

theorem legal_sent (msgs : List Message) : Legal (msgs.flatMap Message.sent) := by
  have hsplit := Framing.split_stream (frames_complete msgs) []
  rw [List.append_nil, Framing.split_nil, List.append_nil, stream_frames] at hsplit
  unfold Legal
  rw [hsplit]
  refine ⟨fun frame hmem => ?_, fun hlen => absurd hlen (show ¬4 ≤ 0 by decide)⟩
  obtain ⟨m, -, rfl⟩ := List.mem_map.mp hmem
  exact m.legalHeader

/-- The complete messages and a part of the one after them. -/
theorem split_sent (msgs : List Message) {next : Message} {part : List UInt8}
    (hpart : part <+: next.sent) (hne : part ≠ next.sent) :
    link.split (msgs.flatMap Message.sent ++ part) = (frames msgs, part) := by
  rw [next.sent_eq] at hpart hne
  have hpending := Framing.pending_of_prefix next.complete hpart hne
  rw [← stream_frames, Framing.split_stream (frames_complete msgs), Framing.split_pending hpending,
    List.append_nil]

/-- The slave at the start of a message: none of the four bytes of the size is read. -/
structure Slave.Fresh (s : Slave) : Prop where
  size : s.size.length = 4
  read : s.read = 0

theorem Slave.Fresh.holds {s : Slave} (hfresh : s.Fresh) (hstatus : s.status = .header) :
    s.Holds [] := by
  refine .header hstatus hfresh.size hfresh.read (by decide) ?_
  rw [hfresh.read]
  rfl

theorem Slave.Holds.fresh {s : Slave} (hs : s.Holds []) : s.status = .header ∧ s.Fresh := by
  generalize hrest : ([] : List UInt8) = rest at hs
  cases hs with
  | header hstatus hsize hread =>
      subst hrest
      exact ⟨hstatus, hsize, hread⟩
  | content _ _ hheader =>
      have hlen := congrArg List.length hrest
      rw [List.length_append, hheader, List.length_nil] at hlen
      omega

/-- The first byte in the handshake; what follows it is taken as in state HEADER. -/
theorem loop_handshake (h : Harbor) {id : Nat} {s : Slave} (hstatus : s.status = .handshake)
    {b : UInt8} (hb : b.toNat = id) (buffer : List UInt8) (fuel : Nat) :
    ∃ fuel', fuel < fuel' ∧ loop h id (fuel + 2) s (b :: buffer) =
      (loop h id fuel' { s with status := .header } buffer).map fun r =>
        (r.1, .dispatchQueue id :: r.2) := by
  cases buffer with
  | nil =>
      refine ⟨fuel + 1, Nat.lt_succ_self fuel, ?_⟩
      rw [loop]
      simp only [pass, hstatus, passHandshake, hb, ne_eq, not_true_eq_false, if_false]
      rfl
  | cons c buffer =>
      refine ⟨fuel + 2, by omega, ?_⟩
      rw [loop, loop]
      simp only [pass, hstatus, passHandshake, hb, ne_eq, not_true_eq_false, if_false]
      cases passHeader h id { s with status := .header } (c :: buffer) with
      | ret s' events => rfl
      | again s' bytes events =>
          simp only [Option.map_map]
          rfl

/-- What comes before the messages on a link in state HANDSHAKE. -/
def greeting (status : Status) (id : Nat) : List UInt8 :=
  if status = .handshake then [UInt8.ofNat id] else []

/-- What the harbor does on it. -/
def greeted (status : Status) (id : Nat) : List Event :=
  if status = .handshake then [.dispatchQueue id] else []

theorem find_lt {h : Harbor} {fd : Int} {id : Nat} (hfind : h.find fd = some id) :
    id < REMOTE_MAX := by
  have hmem := List.mem_of_find?_eq_some hfind
  obtain ⟨k, hk, rfl⟩ := List.mem_range'.mp hmem
  have hmax : REMOTE_MAX = 256 := rfl
  omega

theorem pushAll_greeting {h : Harbor} {fd : Int} {id : Nat} (hfind : h.find fd = some id)
    (hstatus : (h.s id).status = .header ∨ (h.s id).status = .handshake)
    (hfresh : (h.s id).Fresh) {chunks : List (List UInt8)} (hne : [] ∉ chunks)
    {bytes : List UInt8} (hlegal : Legal bytes)
    (hchunks : chunks.flatten = greeting (h.s id).status id ++ bytes) :
    ∃ h', pushAll h fd chunks = some (h', greeted (h.s id).status id ++
        (link.split bytes).1.map fun frame => forwardLocalMessage h frame.2) ∧
      (h'.s id).Holds (link.split bytes).2 := by
  rcases hstatus with hstatus | hstatus
  · rw [hstatus] at hchunks ⊢
    have hbytes : [] ++ chunks.flatten = bytes := hchunks
    rw [← hbytes] at hlegal ⊢
    exact pushAll_holds hfind (hfresh.holds hstatus) hlegal
  · rw [hstatus] at hchunks ⊢
    have hbyte : (UInt8.ofNat id).toNat = id := by
      rw [UInt8.toNat_ofNat']
      exact Nat.mod_eq_of_lt (find_lt hfind)
    cases chunks with
    | nil => exact nomatch hchunks
    | cons buffer chunks =>
        cases buffer with
        | nil => exact absurd List.mem_cons_self hne
        | cons b buffer =>
            obtain ⟨rfl, hbytes⟩ := List.cons.inj hchunks
            have hfresh' : ({ h.s id with status := .header } : Slave).Fresh :=
              ⟨hfresh.size, hfresh.read⟩
            have hrest : buffer ++ chunks.flatten = bytes := hbytes
            rw [← hrest] at hlegal ⊢
            obtain ⟨fuel, hfuel, hloop⟩ :=
              loop_handshake h hstatus hbyte buffer (buffer.length + 1)
            have hlen : buffer.length < fuel := by omega
            obtain ⟨s₁, hheader, hholds⟩ :=
              loop_holds h id (hfresh'.holds rfl) hlegal.left hlen
            rw [hheader] at hloop
            obtain ⟨h₁, hpush, hs₁, hid, hfind₁⟩ := pushSocketData_loop hfind hloop hholds
            obtain ⟨h₂, hall, hs₂⟩ := pushAll_holds hfind₁ hs₁ hlegal.right
            rw [Framing.split_append, List.map_append]
            exact ⟨h₂, pushAll_cons hpush hid hall, hs₂⟩

/-- The harbor forwards the messages that were sent over the link, and no others. -/
theorem forwarded_as_sent {h : Harbor} {fd : Int} {id : Nat} (hfind : h.find fd = some id)
    (hstatus : (h.s id).status = .header ∨ (h.s id).status = .handshake)
    (hfresh : (h.s id).Fresh) (msgs : List Message) {next : Message} {part : List UInt8}
    (hpart : part <+: next.sent) (hproper : part ≠ next.sent) {chunks : List (List UInt8)}
    (hne : [] ∉ chunks)
    (hchunks : chunks.flatten =
      greeting (h.s id).status id ++ (msgs.flatMap Message.sent ++ part)) :
    ∃ h', pushAll h fd chunks = some (h',
        greeted (h.s id).status id ++ msgs.map (Message.forwarded · h)) ∧
      (part = [] → (h'.s id).status = .header ∧ (h'.s id).Fresh) := by
  have hlegal : Legal (msgs.flatMap Message.sent ++ part) := by
    obtain ⟨tail, htail⟩ := hpart
    have hall := legal_sent (msgs ++ [next])
    rw [List.flatMap_append, List.flatMap_singleton, ← htail, ← List.append_assoc] at hall
    exact hall.left
  obtain ⟨h', hpush, hs'⟩ := pushAll_greeting hfind hstatus hfresh hne hlegal hchunks
  rw [split_sent msgs hpart hproper] at hpush hs'
  have heach : (frames msgs).map (fun frame => forwardLocalMessage h frame.2) =
      msgs.map (Message.forwarded · h) := by
    unfold frames
    rw [List.map_map]
    exact List.map_congr_left fun m _ => forwardLocalMessage_sent h m
  rw [heach] at hpush
  refine ⟨h', hpush, fun hnone => ?_⟩
  rw [hnone] at hs'
  exact hs'.fresh

/-- Harbor 1, whose link to harbor 2 waits for the handshake. -/
def firstHarbor : Harbor where
  id := 1
  s i :=
    { fd := if i = 2 then 7 else 0, status := .handshake, length := 0, read := 0,
      size := [0, 0, 0, 0], recvBuffer := [] }

def ping : Message where
  source := 0x2000003
  destination := 0x1000004
  type := 200
  session := -1
  payload := [104, 105]
  source_lt := by decide
  destination_lt := by decide
  type_lt := by decide
  session_ge := by decide
  session_lt := by decide
  payload_lt := by decide

def pingChunks : List (List UInt8) :=
  [[2], [0, 0], [0, 14, 104], [105, 2, 0, 0, 3, 200, 0, 0, 4, 255, 255], [255, 255]]

theorem forwarded_as_sent_ping :
    ∃ h', pushAll firstHarbor 7 pingChunks =
        some (h', [.dispatchQueue 2,
          .forward 0x2000003 0x1000004 (200 + 0x10000) (-1) [104, 105]]) ∧
      (h'.s 2).status = .header ∧ (h'.s 2).Fresh := by
  obtain ⟨h', hpush, hheader⟩ := forwarded_as_sent (show firstHarbor.find 7 = some 2 by decide)
    (.inr rfl) ⟨rfl, rfl⟩ [ping] (List.nil_prefix (l := ping.sent)) (by decide)
    (show [] ∉ pingChunks by decide) rfl
  exact ⟨h', hpush, hheader rfl⟩

end Jump.Skynet.HarborLink
