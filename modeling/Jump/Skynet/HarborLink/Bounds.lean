import Jump.Core.Outcome
import Jump.Skynet.HarborLink.Stream

/-! # What a peer can make a link touch

`push_socket_data` with the bounds of each access. The length of a frame is what the peer says, and
the cookie is read 12 bytes before its end.
-/

namespace Jump.Skynet.HarborLink

open Jump.Core

/-- An access outside of the chunk, of `s->size`, of `recv_buffer`, or of the frame that is
forwarded. -/
inductive Fault where
  | chunk
  | size
  | recvBuffer
  | cookie
deriving DecidableEq

abbrev Checked := Outcome Fault

/-- `memcpy(buffer + p, bytes, n)` into the buffer whose bounds `e` stands for. -/
def copy (e : Fault) (buffer : List UInt8) (p n : Int) (bytes : List UInt8) :
    Checked (List UInt8) := do
  .assert .chunk (0 ≤ n ∧ n ≤ bytes.length)
  .assert e (0 ≤ p ∧ p + n ≤ buffer.length)
  return memcpy buffer p.toNat (bytes.take n.toNat)

/-- `forward_local_messsage(h, msg, sz)` -/
def forward (h : Harbor) (msg : List UInt8) (sz : Nat) : Checked Event := do
  .assert .cookie (HEADER_COOKIE_LENGTH ≤ sz ∧ sz ≤ msg.length)
  return forwardLocalMessage h (msg.take sz)

/-- `case STATUS_CONTENT` -/
def readContent (h : Harbor) (s : Slave) (buffer : List UInt8) : Checked Pass := do
  let need : Int := s.length - s.read
  if (buffer.length : Int) < need then
    let recvBuffer ← copy .recvBuffer s.recvBuffer s.read buffer.length buffer
    return .ret { s with recvBuffer := recvBuffer, read := s.read + buffer.length } []
  else
    let message ← copy .recvBuffer s.recvBuffer s.read need buffer
    let event ← forward h message s.length
    let s := { s with length := 0, read := 0, recvBuffer := [], status := .header }
    if (buffer.length : Int) = need then return .ret s [event]
    else return .again s (buffer.drop need.toNat) [event]

/-- `case STATUS_HEADER` -/
def readHeader (h : Harbor) (id : Nat) (s : Slave) (buffer : List UInt8) : Checked Pass := do
  let need : Int := 4 - s.read
  if (buffer.length : Int) < need then
    let size ← copy .size s.size s.read buffer.length buffer
    return .ret { s with size := size, read := s.read + buffer.length } []
  else
    let size ← copy .size s.size s.read need buffer
    let s := { s with size := size }
    if size.take 1 ≠ [0] then return .ret { s with status := .down } [.closeHarbor id]
    else
      let length := BigEndian.decode (size.drop 1)
      let s := { s with
        length := length, read := 0, recvBuffer := List.replicate length 0, status := .content }
      if (buffer.length : Int) = need then return .ret s []
      else readContent h s (buffer.drop need.toNat)

/-- `case STATUS_HANDSHAKE` -/
def readHandshake (h : Harbor) (id : Nat) (s : Slave) (buffer : List UInt8) : Checked Pass :=
  match buffer with
  | [] => .fail .chunk
  | remoteId :: buffer =>
    if remoteId.toNat ≠ id then .ok (.ret { s with status := .down } [.closeHarbor id])
    else
      let s := { s with status := .header }
      match buffer with
      | [] => .ok (.again s [] [.dispatchQueue id])
      | _ => (readHeader h id s buffer).bind fun
        | .ret s events => .ok (.ret s (.dispatchQueue id :: events))
        | .again s buffer events => .ok (.again s buffer (.dispatchQueue id :: events))

def readPass (h : Harbor) (id : Nat) (s : Slave) (buffer : List UInt8) : Checked Pass :=
  match s.status with
  | .handshake => readHandshake h id s buffer
  | .header => readHeader h id s buffer
  | .content => readContent h s buffer
  | _ => .ok (.ret s [])

/-- `for (;;)`, for at most `fuel` passes. -/
def readLoop (h : Harbor) (id : Nat) : Nat → Slave → List UInt8 → Checked (Slave × List Event)
  | 0, _, _ => .stuck
  | fuel + 1, s, buffer => (readPass h id s buffer).bind fun
    | .ret s events => .ok (s, events)
    | .again s buffer events =>
      (readLoop h id fuel s buffer).bind fun r => .ok (r.1, events ++ r.2)

/-- `push_socket_data` -/
def readSocketData (h : Harbor) (fd : Int) (buffer : List UInt8) :
    Checked (Harbor × List Event) :=
  match h.find fd with
  | none => .ok (h, [.invalidFd fd])
  | some id => (readLoop h id (buffer.length + 2) (h.s id) buffer).bind fun r =>
    .ok ({ h with s := Function.update h.s id r.1 }, r.2)

/-- The DATA messages of a descriptor one after another. -/
def readAll (h : Harbor) (fd : Int) : List (List UInt8) → Checked (Harbor × List Event)
  | [] => .ok (h, [])
  | buffer :: chunks => (readSocketData h fd buffer).bind fun r =>
    (readAll r.1 fd chunks).bind fun t => .ok (t.1, r.2 ++ t.2)

/-! ## Short frames -/

/-- The bytes lead to a frame without room for the cookie. A frame of length 0 is forwarded with
the byte after its header. -/
inductive Short : List UInt8 → Prop
  | here {header rest : List UInt8} (hheader : header.length = 4) (hzero : header.take 1 = [0])
      (hshort : link.length header < HEADER_COOKIE_LENGTH)
      (hmore : max (link.length header) 1 ≤ rest.length) : Short (header ++ rest)
  | later {header content rest : List UInt8} (hframe : link.Complete (header, content))
      (hlegal : LegalHeader header) (h : Short rest) : Short (header ++ (content ++ rest))

section Short

variable {header rest bytes : List UInt8}

theorem Short.length (h : Short bytes) : 4 ≤ bytes.length := by
  cases h with
  | here hheader =>
      rw [List.length_append]
      omega
  | @later header content rest hframe =>
      have hheader : header.length = 4 := hframe.1
      rw [List.length_append]
      omega

/-- What a stream with this header can be. -/
theorem Short.cases_header (h : Short (header ++ rest)) (hheader : header.length = 4) :
    (header.take 1 = [0] ∧ link.length header < HEADER_COOKIE_LENGTH ∧
        max (link.length header) 1 ≤ rest.length) ∨
      (LegalHeader header ∧ link.length header ≤ rest.length ∧
        Short (rest.drop (link.length header))) := by
  generalize hb : header ++ rest = bytes at h
  cases h with
  | here hheader' hzero hshort hmore =>
      obtain ⟨rfl, rfl⟩ := List.append_inj hb (hheader.trans hheader'.symm)
      exact Or.inl ⟨hzero, hshort, hmore⟩
  | @later header' content rest' hframe hlegal hrest =>
      obtain ⟨hlen, hcontent⟩ := hframe
      obtain ⟨rfl, rfl⟩ := List.append_inj hb (hheader.trans hlen.symm)
      dsimp only at hcontent
      refine Or.inr ⟨hlegal, ?_, ?_⟩
      · rw [List.length_append]
        omega
      · rw [← hcontent, List.drop_left]
        exact hrest

theorem short_closed (hheader : header.length = 4) (hzero : header.take 1 ≠ [0]) :
    ¬ Short (header ++ rest) := by
  intro h
  obtain ⟨hfirst, _⟩ | ⟨hlegal, _⟩ := h.cases_header hheader
  · exact hzero hfirst
  · exact hzero hlegal.1

theorem short_cookie (hheader : header.length = 4) (hzero : header.take 1 = [0])
    (hshort : link.length header < HEADER_COOKIE_LENGTH) :
    Short (header ++ rest) ↔ max (link.length header) 1 ≤ rest.length := by
  constructor
  · intro h
    obtain ⟨_, _, hmore⟩ | ⟨hlegal, _⟩ := h.cases_header hheader
    · exact hmore
    · exact absurd hlegal.2 (Nat.not_le.mpr hshort)
  · exact .here hheader hzero hshort

theorem short_legal (hheader : header.length = 4) (hlegal : LegalHeader header) :
    Short (header ++ rest) ↔
      link.length header ≤ rest.length ∧ Short (rest.drop (link.length header)) := by
  constructor
  · intro h
    obtain ⟨_, hshort, _⟩ | ⟨_, hboth⟩ := h.cases_header hheader
    · exact absurd hlegal.2 (Nat.not_le.mpr hshort)
    · exact hboth
  · rintro ⟨hlen, hrest⟩
    have hframe : link.Complete (header, rest.take (link.length header)) := by
      refine ⟨hheader, ?_⟩
      rw [List.length_take, Nat.min_eq_left hlen]
    have h := Short.later hframe hlegal hrest
    rw [List.take_append_drop] at h
    exact h

end Short

/-! ## Link states -/

/-- What every access of a link relies on. -/
structure Slave.Sound (s : Slave) : Prop where
  size : s.size.length = 4
  idle : s.status = .wait ∨ s.status = .handshake → s.read = 0
  header : s.status = .header → s.read < 4
  zero : s.status = .content → s.size.take 1 = [0]
  length : s.status = .content → s.length = link.length s.size
  buffer : s.status = .content → s.recvBuffer.length = s.length
  read : s.status = .content → s.read < max s.length 1

/-- The frames that the link sees when `bytes` come: those after the peer's id, if it is right, and
those after what is already read. -/
def Slave.framed (s : Slave) (id : Nat) (bytes : List UInt8) : List UInt8 :=
  match s.status with
  | .handshake => if bytes.head?.map UInt8.toNat = some id then bytes.tail else []
  | .header => s.size.take s.read ++ bytes
  | .content => s.size ++ (s.recvBuffer.take s.read ++ bytes)
  | _ => []

/-- A state that a link can be in: the harbor connects, and chunks come. -/
inductive Reached : Harbor → Prop
  | init (id : Nat) : Reached ⟨id, fun _ => ⟨0, .wait, 0, 0, [0, 0, 0, 0], []⟩⟩
  | connect {h : Harbor} {id : Nat} {fd : Int} {status : Status} (hr : Reached h)
      (hfree : (h.s id).fd = 0) (hfd : fd ≠ 0)
      (hstatus : status = .handshake ∨ status = .header) :
      Reached { h with
        s := Function.update h.s id { h.s id with fd := fd, status := status } }
  | data {h h' : Harbor} {fd : Int} {buffer : List UInt8} {events : List Event} (hr : Reached h)
      (hbuffer : buffer ≠ []) (hread : readSocketData h fd buffer = .ok (h', events)) : Reached h'

/-! ## One pass -/

/-- What a pass over `buffer` comes to: a cookie out of bounds, for which the stream has a short
frame, or a sound state that sees of what comes next what the link would have seen. -/
inductive Receives (id : Nat) (s : Slave) (buffer : List UInt8) : Checked Pass → Prop
  | fails (h : Short (s.framed id buffer)) : Receives id s buffer (.fail .cookie)
  | waits {s' : Slave} {events : List Event} (hs : s'.Sound)
      (hnot : ¬ Short (s.framed id buffer))
      (hnext : ∀ more, Short (s.framed id (buffer ++ more)) ↔ Short (s'.framed id more)) :
      Receives id s buffer (.ok (.ret s' events))
  | goes {s' : Slave} {bytes : List UInt8} {events : List Event} (hs : s'.Sound)
      (hstatus : s'.status = .header) (hread : s'.read = 0) (hlt : bytes.length < buffer.length)
      (hnext : ∀ more, Short (s.framed id (buffer ++ more)) ↔ Short (bytes ++ more)) :
      Receives id s buffer (.ok (.again s' bytes events))

section Pass

variable {h : Harbor} {id : Nat} {s : Slave} {buffer bytes : List UInt8} {e : Fault} {p n : Int}

theorem copy_ok (hn : 0 ≤ n ∧ n ≤ bytes.length) (hp : 0 ≤ p ∧ p + n ≤ buffer.length) :
    copy e buffer p n bytes = .ok (memcpy buffer p.toNat (bytes.take n.toNat)) := by
  unfold copy
  rw [Outcome.assert_bind hn, Outcome.assert_bind hp]
  rfl

/-- The state after a frame. -/
theorem Slave.Sound.next (hs : s.Sound) : Slave.Sound
    { s with length := 0, read := 0, recvBuffer := [], status := .header } where
  size := hs.size
  idle _ := rfl
  header _ := Nat.succ_pos 3
  zero hstatus := nomatch hstatus
  length hstatus := nomatch hstatus
  buffer hstatus := nomatch hstatus
  read hstatus := nomatch hstatus

theorem framed_content (hstatus : s.status = .content) (bytes : List UInt8) :
    s.framed id bytes = s.size ++ (s.recvBuffer.take s.read ++ bytes) := by
  unfold Slave.framed
  rw [hstatus]

theorem framed_header (hstatus : s.status = .header) (bytes : List UInt8) :
    s.framed id bytes = s.size.take s.read ++ bytes := by
  unfold Slave.framed
  rw [hstatus]

theorem framed_fresh (hstatus : s.status = .header) (hread : s.read = 0) (bytes : List UInt8) :
    s.framed id bytes = bytes := by
  rw [framed_header hstatus, hread]
  rfl

theorem readContent_receives (hs : s.Sound) (hstatus : s.status = .content)
    (hbuffer : buffer ≠ []) : Receives id s buffer (readContent h s buffer) := by
  have hpos : 0 < buffer.length := List.length_pos_iff.mpr hbuffer
  have hlength := hs.length hstatus
  have hroom := hs.buffer hstatus
  have hread := hs.read hstatus
  have hpart : (s.recvBuffer.take s.read).length = s.read := by
    rw [List.length_take]
    omega
  have hlen : ∀ more : List UInt8, (s.recvBuffer.take s.read ++ more).length =
      s.read + more.length := by
    intro more
    rw [List.length_append, hpart]
  unfold readContent
  dsimp only
  by_cases hshort : (buffer.length : Int) < s.length - s.read
  · rw [if_pos hshort, copy_ok ⟨by omega, Int.le_refl _⟩ ⟨by omega, by omega⟩]
    have htake : buffer.take (buffer.length : Int).toNat = buffer := List.take_length
    have hfull : (memcpy s.recvBuffer s.read buffer).take (s.read + buffer.length) =
        s.recvBuffer.take s.read ++ buffer := take_memcpy (by omega)
    refine .waits ?_ ?_ ?_
    · refine ⟨hs.size, fun hor => ?_, fun hheader => ?_, hs.zero, hs.length, fun _ => ?_,
        fun _ => ?_⟩
      · rw [hstatus] at hor
        simp at hor
      · rw [hstatus] at hheader
        cases hheader
      · rw [htake]
        exact (length_memcpy (by omega)).trans hroom
      · dsimp only
        omega
    · rw [framed_content hstatus]
      intro hbad
      obtain ⟨_, _, hmore⟩ | ⟨_, hmore, _⟩ := hbad.cases_header hs.size
      · rw [← hlength, hlen] at hmore
        omega
      · rw [← hlength, hlen] at hmore
        omega
    · intro more
      rw [framed_content hstatus]
      unfold Slave.framed
      dsimp only
      rw [hstatus]
      dsimp only
      rw [htake, Int.toNat_natCast, hfull, List.append_assoc]
  · rw [if_neg hshort, copy_ok ⟨by omega, by omega⟩ ⟨by omega, by omega⟩]
    have hneed : ((s.length : Int) - s.read).toNat = s.length - s.read := by omega
    have hmessage : (memcpy s.recvBuffer s.read (buffer.take (s.length - s.read))).length =
        s.length := by
      rw [length_memcpy, hroom]
      rw [List.length_take]
      omega
    rw [Int.toNat_natCast, hneed]
    by_cases hcookie : HEADER_COOKIE_LENGTH ≤ s.length
    · have hforward : forward h (memcpy s.recvBuffer s.read (buffer.take (s.length - s.read)))
          s.length = .ok (forwardLocalMessage h ((memcpy s.recvBuffer s.read
            (buffer.take (s.length - s.read))).take s.length)) := by
        unfold forward
        rw [Outcome.assert_bind ⟨hcookie, Nat.le_of_eq hmessage.symm⟩]
        rfl
      have hlegal : LegalHeader s.size := by
        refine ⟨hs.zero hstatus, ?_⟩
        rw [← hlength]
        exact hcookie
      have hnext : ∀ more, Short (s.framed id (buffer ++ more)) ↔
          Short (buffer.drop (s.length - s.read) ++ more) := by
        intro more
        have hdrop : (s.recvBuffer.take s.read ++ (buffer ++ more)).drop s.length =
            buffer.drop (s.length - s.read) ++ more := by
          rw [List.drop_append, hpart, List.drop_of_length_le (by omega), List.nil_append,
            List.drop_append_of_le_length (by omega)]
        rw [framed_content hstatus, short_legal hs.size hlegal, ← hlength, hdrop, hlen,
          List.length_append]
        exact and_iff_right (by omega)
      change Receives id s buffer (forward h _ s.length >>= _)
      rw [hforward]
      change Receives id s buffer (if _ then _ else _)
      split
      · rename_i hall
        have hnone : buffer.drop (s.length - s.read) = [] :=
          List.drop_of_length_le (by omega)
        rw [hnone] at hnext
        refine .waits hs.next ?_ fun more => ?_
        · have hlast := hnext []
          rw [List.append_nil, List.append_nil] at hlast
          rw [hlast]
          exact fun hbad => absurd hbad.length (by decide)
        · rw [hnext, framed_fresh rfl rfl]
          rfl
      · rename_i hmore
        refine .goes hs.next rfl rfl ?_ hnext
        rw [List.length_drop]
        have hmax : HEADER_COOKIE_LENGTH = 12 := rfl
        omega
    · have hforward : forward h (memcpy s.recvBuffer s.read (buffer.take (s.length - s.read)))
          s.length = .fail .cookie := by
        unfold forward Outcome.assert
        rw [if_neg fun hboth => hcookie hboth.1]
        rfl
      change Receives id s buffer (forward h _ s.length >>= _)
      rw [hforward]
      refine .fails ?_
      rw [framed_content hstatus, short_cookie hs.size (hs.zero hstatus) (by omega), ← hlength,
        hlen]
      omega

/-- A pass that goes on from `s'`, which sees the same frames. -/
theorem Receives.of_framed {s' : Slave} {bytes : List UInt8} {out : Checked Pass}
    (hout : Receives id s' bytes out) (hlen : bytes.length ≤ buffer.length)
    (hsame : ∀ more, s'.framed id (bytes ++ more) = s.framed id (buffer ++ more)) :
    Receives id s buffer out := by
  have hall := hsame []
  rw [List.append_nil, List.append_nil] at hall
  cases hout with
  | fails hbad =>
      rw [hall] at hbad
      exact .fails hbad
  | waits hs hnot hnext =>
      rw [hall] at hnot
      refine .waits hs hnot fun more => ?_
      rw [← hsame]
      exact hnext more
  | goes hs hstatus hread hlt hnext =>
      refine .goes hs hstatus hread (Nat.lt_of_lt_of_le hlt hlen) fun more => ?_
      rw [← hsame]
      exact hnext more

theorem readHeader_receives (hs : s.Sound) (hstatus : s.status = .header) :
    Receives id s buffer (readHeader h id s buffer) := by
  have hread := hs.header hstatus
  have hsize := hs.size
  have hpart : (s.size.take s.read).length = s.read := by
    rw [List.length_take]
    omega
  unfold readHeader
  dsimp only
  by_cases hshort : (buffer.length : Int) < 4 - s.read
  · rw [if_pos hshort, copy_ok ⟨by omega, Int.le_refl _⟩ ⟨by omega, by omega⟩]
    have htake : buffer.take (buffer.length : Int).toNat = buffer := List.take_length
    have hfull : (memcpy s.size s.read buffer).take (s.read + buffer.length) =
        s.size.take s.read ++ buffer := take_memcpy (by omega)
    refine .waits ?_ ?_ ?_
    · refine ⟨?_, fun hor => ?_, fun _ => ?_, fun hcontent => ?_, fun hcontent => ?_,
        fun hcontent => ?_, fun hcontent => ?_⟩
      · rw [htake]
        exact (length_memcpy (by omega)).trans hs.size
      · rw [hstatus] at hor
        simp at hor
      · dsimp only
        omega
      · rw [hstatus] at hcontent
        cases hcontent
      · rw [hstatus] at hcontent
        cases hcontent
      · rw [hstatus] at hcontent
        cases hcontent
      · rw [hstatus] at hcontent
        cases hcontent
    · rw [framed_header hstatus]
      intro hbad
      have hlen := hbad.length
      rw [List.length_append, hpart] at hlen
      omega
    · intro more
      rw [framed_header hstatus]
      unfold Slave.framed
      dsimp only
      rw [hstatus]
      dsimp only
      rw [htake, Int.toNat_natCast, hfull, List.append_assoc]
  · rw [if_neg hshort, copy_ok ⟨by omega, by omega⟩ ⟨by omega, by omega⟩]
    have hneed : ((4 : Int) - s.read).toNat = 4 - s.read := by omega
    have hfull : memcpy s.size s.read (buffer.take (4 - s.read)) =
        s.size.take s.read ++ buffer.take (4 - s.read) := by
      apply memcpy_full
      rw [List.length_take]
      omega
    have hlen : (s.size.take s.read ++ buffer.take (4 - s.read)).length = 4 := by
      rw [List.length_append, hpart, List.length_take]
      omega
    rw [Int.toNat_natCast, hneed, hfull]
    generalize hdef : s.size.take s.read ++ buffer.take (4 - s.read) = header at hlen
    have hframed : ∀ more, s.framed id (buffer ++ more) =
        header ++ (buffer.drop (4 - s.read) ++ more) := by
      intro more
      rw [framed_header hstatus, ← hdef, List.append_assoc (s.size.take s.read),
        ← List.append_assoc (buffer.take (4 - s.read)), List.take_append_drop]
    have hall := hframed []
    rw [List.append_nil, List.append_nil] at hall
    change Receives id s buffer (if _ then _ else _)
    split
    · rename_i hzero
      refine .waits ?_ ?_ fun more => ?_
      · refine ⟨hlen, ?_, nofun, nofun, nofun, nofun, nofun⟩
        simp
      · rw [hall]
        exact short_closed hlen hzero
      · rw [hframed]
        refine iff_of_false (short_closed hlen hzero) ?_
        exact fun hbad => absurd hbad.length (Nat.not_le.mpr (Nat.succ_pos 3))
    · rename_i hzero
      rw [not_not] at hzero
      have hnew : Slave.Sound { s with
          size := header, length := BigEndian.decode (header.drop 1), read := 0,
          recvBuffer := List.replicate (BigEndian.decode (header.drop 1)) 0,
          status := .content } := by
        refine ⟨hlen, by simp, nofun, fun _ => hzero, fun _ => rfl, fun _ => ?_, fun _ => ?_⟩
        · exact List.length_replicate
        · exact Nat.lt_of_lt_of_le Nat.zero_lt_one (Nat.le_max_right ..)
      have hsame : ∀ more, Slave.framed { s with
          size := header, length := BigEndian.decode (header.drop 1), read := 0,
          recvBuffer := List.replicate (BigEndian.decode (header.drop 1)) 0,
          status := .content } id (buffer.drop (4 - s.read) ++ more) =
            s.framed id (buffer ++ more) := by
        intro more
        rw [hframed, framed_content rfl]
        rfl
      split
      · rename_i hexact
        have hnone : buffer.drop (4 - s.read) = [] := List.drop_of_length_le (by omega)
        refine .waits hnew ?_ fun more => ?_
        · rw [hall, hnone]
          intro hbad
          obtain ⟨_, _, hmore⟩ | ⟨hlegal, hmore, _⟩ := hbad.cases_header hlen
          · rw [List.length_nil] at hmore
            omega
          · have hroom := hlegal.2
            have hmax : HEADER_COOKIE_LENGTH = 12 := rfl
            rw [List.length_nil] at hmore
            omega
        · rw [← hsame, hnone]
          rfl
      · rename_i hmore
        have hrest : buffer.drop (4 - s.read) ≠ [] := by
          rw [← List.length_pos_iff, List.length_drop]
          omega
        refine (readContent_receives hnew rfl hrest).of_framed ?_ hsame
        rw [List.length_drop]
        exact Nat.sub_le ..

theorem short_nil : ¬ Short [] := fun hbad => absurd hbad.length (by decide)

theorem Receives.dispatched {s' : Slave} {bytes : List UInt8} {out : Checked Pass}
    (hout : Receives id s' bytes out) : Receives id s' bytes (out.bind fun
      | .ret s events => .ok (.ret s (.dispatchQueue id :: events))
      | .again s buffer events => .ok (.again s buffer (.dispatchQueue id :: events))) := by
  cases hout with
  | fails hbad => exact .fails hbad
  | waits hs hnot hnext => exact .waits hs hnot hnext
  | goes hs hstatus hread hlt hnext => exact .goes hs hstatus hread hlt hnext

theorem readHandshake_receives (hs : s.Sound) (hstatus : s.status = .handshake)
    (hbuffer : buffer ≠ []) : Receives id s buffer (readHandshake h id s buffer) := by
  have hread := hs.idle (Or.inr hstatus)
  cases buffer with
  | nil => exact absurd rfl hbuffer
  | cons remoteId buffer =>
      have hframed : ∀ more, s.framed id (remoteId :: buffer ++ more) =
          if remoteId.toNat = id then buffer ++ more else [] := by
        intro more
        unfold Slave.framed
        rw [hstatus]
        exact if_congr Option.some_inj rfl rfl
      have hall := hframed []
      rw [List.append_nil, List.append_nil] at hall
      have hnew : Slave.Sound { s with status := .header } := by
        refine ⟨hs.size, fun _ => hread, fun _ => ?_, nofun, nofun, nofun, nofun⟩
        dsimp only
        omega
      unfold readHandshake
      dsimp only
      by_cases hright : remoteId.toNat = id
      · rw [if_neg (not_not_intro hright)]
        have hsame : ∀ more, Slave.framed { s with status := .header } id (buffer ++ more) =
            s.framed id (remoteId :: buffer ++ more) := by
          intro more
          rw [hframed, if_pos hright]
          exact framed_fresh (s := { s with status := .header }) rfl hread _
        cases buffer with
        | nil =>
            refine .goes hnew rfl hread (Nat.succ_pos _) fun more => ?_
            rw [hframed, if_pos hright]
        | cons b buffer =>
            have hheader : Receives id { s with status := .header } (b :: buffer)
                (readHeader h id { s with status := .header } (b :: buffer)) :=
              readHeader_receives hnew rfl
            exact hheader.dispatched.of_framed (Nat.le_succ _) hsame
      · rw [if_pos hright]
        refine .waits ⟨hs.size, ?_, nofun, nofun, nofun, nofun, nofun⟩ ?_ fun more => ?_
        · simp
        · rw [hall, if_neg hright]
          exact short_nil
        · rw [hframed, if_neg hright]
          rfl

/-- A pass over a chunk, or in state HEADER over what is left of it. -/
theorem readPass_receives (hs : s.Sound) (hbuffer : s.status = .header ∨ buffer ≠ []) :
    Receives id s buffer (readPass h id s buffer) := by
  have hidle : (s.status = .wait ∨ s.status = .down) →
      Receives id s buffer (.ok (.ret s [])) := by
    intro hor
    have hnone : ∀ bytes, s.framed id bytes = [] := by
      intro bytes
      unfold Slave.framed
      obtain hstatus | hstatus := hor
      · rw [hstatus]
      · rw [hstatus]
    refine .waits hs ?_ fun more => ?_
    · rw [hnone]
      exact short_nil
    · rw [hnone, hnone]
  unfold readPass
  split
  · rename_i hstatus
    exact readHandshake_receives hs hstatus (hbuffer.resolve_left (by simp [hstatus]))
  · rename_i hstatus
    exact readHeader_receives hs hstatus
  · rename_i hstatus
    exact readContent_receives hs hstatus (hbuffer.resolve_left (by simp [hstatus]))
  · rename_i hhandshake hheader hcontent
    apply hidle
    cases hstatus : s.status with
    | wait => exact Or.inl rfl
    | down => exact Or.inr rfl
    | handshake => exact absurd hstatus hhandshake
    | header => exact absurd hstatus hheader
    | content => exact absurd hstatus hcontent

/-! ## All of a chunk -/

/-- What a chunk comes to. -/
inductive Reads (id : Nat) (s : Slave) (buffer : List UInt8) : Checked (Slave × List Event) → Prop
  | fails (h : Short (s.framed id buffer)) : Reads id s buffer (.fail .cookie)
  | takes {s' : Slave} {events : List Event} (hs : s'.Sound)
      (hnot : ¬ Short (s.framed id buffer))
      (hnext : ∀ more, Short (s.framed id (buffer ++ more)) ↔ Short (s'.framed id more)) :
      Reads id s buffer (.ok (s', events))

theorem readLoop_takes {fuel : Nat} (hs : s.Sound) (hbuffer : s.status = .header ∨ buffer ≠ [])
    (hfuel : buffer.length < fuel) : Reads id s buffer (readLoop h id fuel s buffer) := by
  induction fuel generalizing s buffer with
  | zero => exact absurd hfuel (Nat.not_lt_zero _)
  | succ fuel ih =>
      have hpass : Receives id s buffer (readPass h id s buffer) := readPass_receives hs hbuffer
      rw [readLoop]
      generalize readPass h id s buffer = out at hpass
      cases hpass with
      | fails hbad => exact .fails hbad
      | waits hs' hnot hnext => exact .takes hs' hnot hnext
      | @goes s' bytes events hs' hstatus hread hlt hnext =>
          have hrest : Reads id s' bytes (readLoop h id fuel s' bytes) :=
            ih hs' (Or.inl hstatus) (by omega)
          have hall := hnext []
          rw [List.append_nil, List.append_nil] at hall
          change Reads id s buffer ((readLoop h id fuel s' bytes).bind _)
          generalize readLoop h id fuel s' bytes = out at hrest
          cases hrest with
          | fails hbad =>
              rw [framed_fresh hstatus hread] at hbad
              exact .fails (hall.mpr hbad)
          | takes hs'' hnot hnext' =>
              rw [framed_fresh hstatus hread] at hnot
              refine .takes hs'' (fun hbad => hnot (hall.mp hbad)) fun more => ?_
              rw [hnext, ← hnext', framed_fresh hstatus hread]

/-! ## The unchecked decoder -/

theorem copy_copies (e : Fault) (buffer bytes : List UInt8) (p n : Int) :
    (copy e buffer p n bytes).Ensures fun r => (0 ≤ n ∧ n ≤ bytes.length) ∧
      r = memcpy buffer p.toNat (bytes.take n.toNat) := by
  unfold copy
  refine .bind .assert fun _ hn => .bind .assert fun _ _ => .pure ⟨hn, rfl⟩

theorem forward_forwards (h : Harbor) (msg : List UInt8) (sz : Nat) :
    (forward h msg sz).Ensures fun event => event = forwardLocalMessage h (msg.take sz) := by
  unfold forward
  exact .bind .assert fun _ _ => .pure rfl

/-- Where no access is out of bounds, the decoder does what it does without the bounds. -/
theorem readContent_pass (hroom : s.recvBuffer.length = s.length) :
    (readContent h s buffer).Ensures fun p => passContent h s buffer = p := by
  unfold readContent passContent
  dsimp only
  split
  · rename_i hshort
    rw [if_pos (by omega)]
    refine .bind (copy_copies _ _ _ _ _) fun r hr => .pure ?_
    have htake : buffer.take (buffer.length : Int).toNat = buffer := List.take_length
    rw [hr.2, htake]
    rfl
  · rename_i hshort
    refine .bind (copy_copies _ _ _ _ _) fun r hr => ?_
    obtain ⟨hn, hr⟩ := hr
    have hneed : ((s.length : Int) - s.read).toNat = s.length - s.read := by omega
    rw [Int.toNat_natCast, hneed] at hr
    rw [if_neg (by omega), hneed]
    have hwhole : r.take s.length = r := by
      apply List.take_of_length_le
      rw [hr, length_memcpy, hroom]
      rw [List.length_take, hroom]
      omega
    refine .bind (forward_forwards _ _ _) fun event hevent => ?_
    rw [hwhole, hr] at hevent
    split
    · rw [if_pos (by omega), hevent]
      exact .pure rfl
    · rw [if_neg (by omega), hevent]
      exact .pure rfl

theorem readHeader_pass (h : Harbor) (id : Nat) (s : Slave) (buffer : List UInt8) :
    (readHeader h id s buffer).Ensures fun p => passHeader h id s buffer = p := by
  unfold readHeader passHeader
  dsimp only
  split
  · rename_i hshort
    rw [if_pos (by omega)]
    refine .bind (copy_copies _ _ _ _ _) fun r hr => .pure ?_
    have htake : buffer.take (buffer.length : Int).toNat = buffer := List.take_length
    rw [hr.2, htake]
    rfl
  · rename_i hshort
    refine .bind (copy_copies _ _ _ _ _) fun r hr => ?_
    obtain ⟨hn, hr⟩ := hr
    have hneed : ((4 : Int) - s.read).toNat = 4 - s.read := by omega
    rw [Int.toNat_natCast, hneed] at hr
    have hlong : ¬ buffer.length < 4 - s.read := by omega
    rw [if_neg hlong, hneed, ← hr]
    split
    · exact .pure rfl
    · split
      · rw [if_pos (by omega)]
        exact .pure rfl
      · rw [if_neg (by omega)]
        exact readContent_pass List.length_replicate

theorem readPass_pass (hs : s.Sound) :
    (readPass h id s buffer).Ensures fun p => pass h id s buffer = p := by
  unfold readPass pass
  cases hstatus : s.status with
  | wait => exact .pure rfl
  | down => exact .pure rfl
  | header => exact readHeader_pass _ _ _ _
  | content => exact readContent_pass (hs.buffer hstatus)
  | handshake =>
      dsimp only
      unfold readHandshake passHandshake
      cases buffer with
      | nil => exact .fail
      | cons remoteId buffer =>
          dsimp only
          split
          · exact .pure rfl
          · cases buffer with
            | nil => exact .pure rfl
            | cons b buffer =>
                refine .bind (readHeader_pass _ _ _ _) fun p hp => ?_
                dsimp only
                rw [hp]
                cases p with
                | ret s' events => exact .pure rfl
                | again s' bytes events => exact .pure rfl

theorem readLoop_loop {fuel : Nat} (hs : s.Sound) (hbuffer : s.status = .header ∨ buffer ≠ []) :
    (readLoop h id fuel s buffer).Ensures fun r => loop h id fuel s buffer = some r := by
  induction fuel generalizing s buffer with
  | zero => exact .stuck
  | succ fuel ih =>
      have hboth : (readPass h id s buffer).Ensures fun p =>
          pass h id s buffer = p ∧ Receives id s buffer (.ok p) := by
        intro p hp
        refine ⟨readPass_pass hs p hp, ?_⟩
        rw [← hp]
        exact readPass_receives hs hbuffer
      rw [readLoop, loop]
      refine .bind hboth fun p hp => ?_
      obtain ⟨hpass, hreceives⟩ := hp
      rw [hpass]
      cases hreceives with
      | waits hs' hnot hnext => exact .pure rfl
      | goes hs' hstatus hread hlt hnext =>
          refine .bind (ih hs' (Or.inl hstatus)) fun r hr => .pure ?_
          dsimp only
          rw [hr]
          rfl

end Pass

/-! ## All of a stream -/

section Stream

variable {h h' : Harbor} {fd : Int} {id : Nat} {s : Slave} {buffer : List UInt8}
  {events : List Event}

/-- A chunk on a sound link. -/
theorem readSocketData_takes (hfind : h.find fd = some id) (hs : (h.s id).Sound)
    (hbuffer : buffer ≠ []) :
    (readSocketData h fd buffer = .fail .cookie ∧ Short ((h.s id).framed id buffer)) ∨
      ∃ s' events, readSocketData h fd buffer =
          .ok ({ h with s := Function.update h.s id s' }, events) ∧ s'.Sound ∧
        loop h id (buffer.length + 2) (h.s id) buffer = some (s', events) ∧
        ∀ more, Short ((h.s id).framed id (buffer ++ more)) ↔ Short (s'.framed id more) := by
  have hreads : Reads id (h.s id) buffer (readLoop h id (buffer.length + 2) (h.s id) buffer) :=
    readLoop_takes hs (Or.inr hbuffer) (by omega)
  have hloop : (readLoop h id (buffer.length + 2) (h.s id) buffer).Ensures fun r =>
      loop h id (buffer.length + 2) (h.s id) buffer = some r :=
    readLoop_loop hs (Or.inr hbuffer)
  unfold readSocketData
  rw [hfind]
  dsimp only
  generalize readLoop h id (buffer.length + 2) (h.s id) buffer = out at hreads hloop
  cases hreads with
  | fails hbad => exact Or.inl ⟨rfl, hbad⟩
  | takes hs' hnot hnext => exact Or.inr ⟨_, _, rfl, hs', hloop _ rfl, hnext⟩

/-- The decoder does nothing on a link that is not connected. -/
theorem loop_wait (hstatus : s.status = .wait) {fuel : Nat} {r : Slave × List Event}
    (hloop : loop h id fuel s buffer = some r) : r.1 = s := by
  cases fuel with
  | zero => exact nomatch hloop
  | succ fuel =>
      rw [loop] at hloop
      unfold pass at hloop
      rw [hstatus] at hloop
      obtain rfl := Option.some.inj hloop
      rfl

theorem Reached.sound (hr : Reached h) :
    ∀ i, (h.s i).Sound ∧ ((h.s i).fd = 0 → (h.s i).status = .wait) := by
  induction hr with
  | init id =>
      intro i
      exact ⟨⟨rfl, fun _ => rfl, nofun, nofun, nofun, nofun, nofun⟩, fun _ => rfl⟩
  | @connect h id fd status hr hfree hfd hstatus ih =>
      intro i
      dsimp only
      by_cases hi : i = id
      · rw [hi, Function.update_self]
        obtain ⟨hs, hwait⟩ := ih id
        have hread := hs.idle (Or.inl (hwait hfree))
        have hnot : status ≠ .content := by
          intro hcontent
          rw [hcontent] at hstatus
          simp at hstatus
        refine ⟨⟨hs.size, fun _ => hread, fun _ => ?_, fun hcontent => absurd hcontent hnot,
          fun hcontent => absurd hcontent hnot, fun hcontent => absurd hcontent hnot,
          fun hcontent => absurd hcontent hnot⟩, fun hzero => ?_⟩
        · dsimp only
          omega
        · exact absurd hzero hfd
      · rw [Function.update_of_ne hi]
        exact ih i
  | @data h h' fd buffer events hr hbuffer hread ih =>
      cases hfind : h.find fd with
      | none =>
          unfold readSocketData at hread
          rw [hfind] at hread
          obtain ⟨rfl, _⟩ := Prod.mk.inj (Outcome.ok.inj hread)
          exact ih
      | some id =>
          obtain ⟨hfail, _⟩ | ⟨s', events', hok, hs', hloop, _⟩ :=
            readSocketData_takes hfind (ih id).1 hbuffer
          · rw [hread] at hfail
            cases hfail
          · rw [hread] at hok
            obtain ⟨rfl, _⟩ := Prod.mk.inj (Outcome.ok.inj hok)
            intro i
            dsimp only
            by_cases hi : i = id
            · rw [hi, Function.update_self]
              refine ⟨hs', fun hzero => ?_⟩
              rw [loop_fd hloop] at hzero
              have hwait := (ih id).2 hzero
              have hsame : s' = h.s id := loop_wait hwait hloop
              rw [hsame]
              exact hwait
            · rw [Function.update_of_ne hi]
              exact ih i

theorem Short.append {bytes : List UInt8} (hbad : Short bytes) (more : List UInt8) :
    Short (bytes ++ more) := by
  induction hbad with
  | here hheader hzero hshort hmore =>
      rw [List.append_assoc]
      refine .here hheader hzero hshort ?_
      rw [List.length_append]
      omega
  | later hframe hlegal hrest ih =>
      rw [List.append_assoc, List.append_assoc]
      exact .later hframe hlegal ih

theorem short_framed_append (hbuffer : buffer ≠ []) (hbad : Short (s.framed id buffer))
    (more : List UInt8) : Short (s.framed id (buffer ++ more)) := by
  have hall := hbad.append more
  unfold Slave.framed at hbad hall ⊢
  cases hstatus : s.status with
  | wait =>
      rw [hstatus] at hbad
      exact absurd hbad short_nil
  | down =>
      rw [hstatus] at hbad
      exact absurd hbad short_nil
  | header =>
      rw [hstatus] at hall
      dsimp only at hall ⊢
      rw [List.append_assoc] at hall
      exact hall
  | content =>
      rw [hstatus] at hall
      dsimp only at hall ⊢
      rw [List.append_assoc, List.append_assoc] at hall
      exact hall
  | handshake =>
      rw [hstatus] at hbad hall
      dsimp only at hbad hall ⊢
      cases buffer with
      | nil => exact absurd rfl hbuffer
      | cons b buffer =>
          change Short (if some b.toNat = some id then buffer else []) at hbad
          change Short ((if some b.toNat = some id then buffer else []) ++ more) at hall
          change Short (if some b.toNat = some id then buffer ++ more else [])
          split
          · rename_i hright
            rw [if_pos hright] at hall
            exact hall
          · rename_i hwrong
            rw [if_neg hwrong] at hbad
            exact absurd hbad short_nil

theorem Slave.Sound.not_short (hs : s.Sound) (id : Nat) : ¬ Short (s.framed id []) := by
  intro hbad
  unfold Slave.framed at hbad
  cases hstatus : s.status with
  | wait =>
      rw [hstatus] at hbad
      exact short_nil hbad
  | down =>
      rw [hstatus] at hbad
      exact short_nil hbad
  | handshake =>
      rw [hstatus] at hbad
      exact short_nil hbad
  | header =>
      rw [hstatus] at hbad
      have hlen := hbad.length
      have hread := hs.header hstatus
      rw [List.append_nil, List.length_take] at hlen
      omega
  | content =>
      rw [hstatus] at hbad
      have hread := hs.read hstatus
      rw [hs.length hstatus] at hread
      obtain ⟨_, _, hmore⟩ | ⟨_, hmore, hrest⟩ := hbad.cases_header hs.size
      · rw [List.append_nil, List.length_take] at hmore
        omega
      · have hlen := hrest.length
        rw [List.append_nil, List.length_drop, List.length_take] at hlen
        omega

/-- From every state of the link and for every cut of the stream, all accesses are in bounds and
every frame that is forwarded has room for its cookie exactly when no frame of the stream that is
complete is shorter than that. -/
theorem read_in_bounds_iff (hr : Reached h) {chunks : List (List UInt8)} (hchunks : [] ∉ chunks) :
    (∃ r, readAll h fd chunks = .ok r) ↔
      ∀ id, h.find fd = some id → ¬ Short ((h.s id).framed id chunks.flatten) := by
  induction chunks generalizing h with
  | nil => exact ⟨fun _ id _ => (hr.sound id).1.not_short id, fun _ => ⟨_, rfl⟩⟩
  | cons buffer chunks ih =>
      rw [List.mem_cons, not_or] at hchunks
      have hbuffer : buffer ≠ [] := fun heq => hchunks.1 heq.symm
      rw [readAll, List.flatten_cons]
      cases hfind : h.find fd with
      | none =>
          have hread : readSocketData h fd buffer = .ok (h, [.invalidFd fd]) := by
            unfold readSocketData
            rw [hfind]
          have hrest := ih hr hchunks.2
          rw [hfind] at hrest
          obtain ⟨r, hr'⟩ := hrest.mpr nofun
          rw [hread]
          change (∃ r, (readAll h fd chunks).bind _ = _) ↔ _
          rw [hr']
          exact ⟨fun _ => nofun, fun _ => ⟨_, rfl⟩⟩
      | some id =>
          have hs := (hr.sound id).1
          have hone : (∀ id', some id = some id' →
              ¬ Short ((h.s id').framed id' (buffer ++ chunks.flatten))) ↔
                ¬ Short ((h.s id).framed id (buffer ++ chunks.flatten)) := by
            constructor
            · exact fun hall => hall id rfl
            · intro hnot id' heq
              obtain rfl := Option.some.inj heq
              exact hnot
          rw [hone]
          obtain ⟨hfail, hbad⟩ | ⟨s', events, hok, hs', hloop, hnext⟩ :=
            readSocketData_takes hfind hs hbuffer
          · rw [hfail]
            refine iff_of_false (fun hex => ?_)
              (not_not_intro (short_framed_append hbuffer hbad _))
            obtain ⟨r, hr'⟩ := hex
            cases hr'
          · have hr' := Reached.data hr hbuffer hok
            have hrest := ih hr' hchunks.2
            have hsame := find_update (h := h) (loop_fd hloop) fd
            rw [hsame, hfind] at hrest
            dsimp only at hrest
            rw [hok]
            change (∃ r, (readAll { h with s := Function.update h.s id s' } fd chunks).bind _ =
              _) ↔ _
            have hstep : (∃ r, readAll { h with s := Function.update h.s id s' } fd chunks =
                .ok r) ↔ ¬ Short ((h.s id).framed id (buffer ++ chunks.flatten)) := by
              rw [hrest, hnext]
              constructor
              · intro hall
                have hnot := hall id rfl
                rw [Function.update_self] at hnot
                exact hnot
              · intro hnot id' heq
                obtain rfl := Option.some.inj heq
                rw [Function.update_self]
                exact hnot
            rw [← hstep]
            constructor
            · rintro ⟨r, hr''⟩
              cases hall : readAll { h with s := Function.update h.s id s' } fd chunks with
              | ok r' => exact ⟨r', rfl⟩
              | stuck =>
                  rw [hall] at hr''
                  cases hr''
              | fail e =>
                  rw [hall] at hr''
                  cases hr''
            · rintro ⟨r, hr''⟩
              rw [hr'']
              exact ⟨_, rfl⟩

/-- The first peer has sent its id. -/
def joined : Harbor :=
  ⟨1, Function.update (fun _ => ⟨0, .wait, 0, 0, [0, 0, 0, 0], []⟩) 2
    ⟨7, .header, 0, 0, [0, 0, 0, 0], []⟩⟩

theorem joined_reached : Reached joined :=
  .connect (.init 1) rfl (by decide) (Or.inr rfl)

/-- A frame of 12 bytes in two chunks. -/
theorem read_in_bounds_iff_cut :
    ¬ Short ((joined.s 2).framed 2 (List.flatten [[0, 0], [0, 12] ++ List.replicate 12 0])) :=
  (read_in_bounds_iff joined_reached (by decide)).mp ⟨_, rfl⟩ 2
    (show joined.find 7 = some 2 by decide)

/-- A frame of 5 bytes. -/
theorem cookie_out_of_bounds : ¬ ∀ (h : Harbor) (fd : Int) (chunks : List (List UInt8)),
    Reached h → [] ∉ chunks → ∃ r, readAll h fd chunks = .ok r := by
  intro hall
  obtain ⟨r, hr⟩ := hall joined 7 [[0, 0, 0, 5, 1, 2, 3, 4, 5]] joined_reached (by decide)
  have hfail : (readAll joined 7 [[0, 0, 0, 5, 1, 2, 3, 4, 5]]).fault = some .cookie := by decide
  rw [hr] at hfail
  exact nomatch hfail

end Stream

end Jump.Skynet.HarborLink
