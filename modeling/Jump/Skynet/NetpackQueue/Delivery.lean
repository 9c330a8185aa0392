import Jump.Core.Bytes
import Jump.Core.Framing
import Jump.Skynet.NetpackQueue.Code

/-! # Delivery of the payloads

A connection has at most one entry in the hash. It is determined by the bytes that arrived on the
connection since the end of its last packet. Each message adds its bytes to those of its
connection, and the service gets the packets that are complete with them.
-/

namespace Jump.Skynet.NetpackQueue

open Jump.Core

section Partial

/-- A payload behind its length. -/
def packets : Framing UInt8 where
  header := 2
  header_pos := by decide
  length := BigEndian.decode

theorem readSize_eq (b₀ b₁ : UInt8) : readSize b₀ b₁ = BigEndian.decode [b₀, b₁] := by
  have hb := b₁.toNat_lt
  show b₀.toNat <<< 8 ||| b₁.toNat = (0 * 256 + b₀.toNat) * 256 + b₁.toNat
  rw [← Nat.shiftLeft_add_eq_or_of_lt hb, Nat.shiftLeft_eq]
  omega

/-! ## The lists of the hash -/

/-- The entries of a connection. -/
def Queue.entries (q : Queue) (fd : Int) : List Uncomplete :=
  (q.hash (hashFd fd)).filter fun uc => uc.pack.id = fd

variable {q q' : Queue} {Q : Option Queue} {fd fd' : Int} {uc : Uncomplete}
  {list list' : List Uncomplete} {bytes buffer : List UInt8}

theorem filter_of_unlink_none (h : unlink fd list = none) :
    list.filter (fun uc => uc.pack.id = fd) = [] := by
  induction list with
  | nil => rfl
  | cons uc next ih =>
      unfold unlink at h
      split at h
      · cases h
      · rename_i hid
        rw [List.filter_cons_of_neg (by simpa using hid)]
        exact ih (Option.map_eq_none_iff.mp h)

theorem filter_of_unlink (h : unlink fd list = some (uc, list')) :
    list.filter (fun uc => uc.pack.id = fd) =
      uc :: list'.filter fun uc => uc.pack.id = fd := by
  induction list generalizing list' with
  | nil => cases h
  | cons first next ih =>
      unfold unlink at h
      split at h
      · rename_i hid
        cases h
        exact List.filter_cons_of_pos (by simpa using hid)
      · rename_i hid
        obtain ⟨⟨found, left⟩, hnext, heq⟩ := Option.map_eq_some_iff.mp h
        cases heq
        rw [List.filter_cons_of_neg (by simpa using hid), ih hnext,
          List.filter_cons_of_neg (by simpa using hid)]

/-- Entries of other connections stay in the list. -/
theorem filter_of_unlink_ne (h : unlink fd list = some (uc, list')) (hne : fd' ≠ fd) :
    list.filter (fun uc => uc.pack.id = fd') = list'.filter fun uc => uc.pack.id = fd' := by
  induction list generalizing list' with
  | nil => cases h
  | cons first next ih =>
      unfold unlink at h
      split at h
      · rename_i hid
        cases h
        exact List.filter_cons_of_neg (by simpa [hid] using Ne.symm hne)
      · obtain ⟨⟨found, left⟩, hnext, heq⟩ := Option.map_eq_some_iff.mp h
        cases heq
        rw [List.filter_cons, List.filter_cons, ih hnext]

theorem setHash_hash (q : Queue) (h : Nat) (list : List Uncomplete) :
    (q.setHash h list).hash = Function.update q.hash h list := rfl

theorem entries_setHash_self (q : Queue) (fd : Int) (list : List Uncomplete) :
    (q.setHash (hashFd fd) list).entries fd = list.filter fun uc => uc.pack.id = fd := by
  unfold Queue.entries
  rw [setHash_hash, Function.update_self]

/-- A change of the list of `fd` that keeps the entries of `fd'`, in case they are in it. -/
theorem entries_setHash (h : (q.hash (hashFd fd)).filter (fun uc => uc.pack.id = fd') =
      list.filter fun uc => uc.pack.id = fd') :
    (q.setHash (hashFd fd) list).entries fd' = q.entries fd' := by
  unfold Queue.entries
  rw [setHash_hash]
  by_cases hhash : hashFd fd' = hashFd fd
  · rw [hhash, Function.update_self, h]
  · rw [Function.update_of_ne hhash]

theorem entries_of_find_none (h : findUncomplete Q fd = none) :
    (getQueue Q).entries fd = [] := by
  cases Q with
  | none => rfl
  | some q => exact filter_of_unlink_none (Option.map_eq_none_iff.mp h)

/-- The entry that is found is taken out. -/
structure Taken (q : Queue) (fd : Int) (uc : Uncomplete) (q' : Queue) : Prop where
  entries : q.entries fd = uc :: q'.entries fd
  others : ∀ fd', fd' ≠ fd → q'.entries fd' = q.entries fd'
  queue : q'.queue = q.queue

theorem taken_of_find (h : findUncomplete Q fd = some (uc, q')) : Taken (getQueue Q) fd uc q' := by
  cases Q with
  | none => cases h
  | some q =>
      obtain ⟨⟨found, list⟩, hunlink, heq⟩ := Option.map_eq_some_iff.mp h
      cases heq
      constructor
      · rw [entries_setHash_self]
        exact filter_of_unlink hunlink
      · intro fd' hne
        exact entries_setHash (filter_of_unlink_ne hunlink hne)
      · rfl

theorem entries_link (hid : uc.pack.id = fd) : (q.link fd uc).entries fd = uc :: q.entries fd := by
  unfold Queue.link
  rw [entries_setHash_self]
  exact List.filter_cons_of_pos (by simpa using hid)

theorem entries_link_ne (hid : uc.pack.id = fd) (hne : fd' ≠ fd) :
    (q.link fd uc).entries fd' = q.entries fd' := by
  apply entries_setHash
  exact (List.filter_cons_of_neg (by simpa [hid] using Ne.symm hne)).symm

theorem queue_pushData (size : Nat) : (pushData Q fd buffer size).queue.toList =
    (getQueue Q).queue.toList ++ [⟨fd, size, buffer⟩] :=
  RingBuffer.toList_pushEnlarging ..

/-! ## The entry of a connection -/

/-- The entry of a connection on which `bytes` arrived since the end of its last packet. -/
inductive Waits (fd : Int) (uc : Uncomplete) : List UInt8 → Prop where
  | header (hid : uc.pack.id = fd) (hread : uc.read = -1) : Waits fd uc [uc.header]
  | content {b₀ b₁ : UInt8} (hid : uc.pack.id = fd) (hread : uc.read = uc.pack.buffer.length)
      (hsize : uc.pack.size = readSize b₀ b₁) (hpart : uc.pack.buffer.length < uc.pack.size) :
      Waits fd uc (b₀ :: b₁ :: uc.pack.buffer)

inductive Part (fd : Int) : List Uncomplete → List UInt8 → Prop where
  | none : Part fd [] []
  | some {uc : Uncomplete} {bytes : List UInt8} (h : Waits fd uc bytes) : Part fd [uc] bytes

theorem pending_nil : packets.Pending [] := .inr (by decide)

theorem pending_one (b : UInt8) : packets.Pending [b] :=
  .inr Nat.one_lt_two

theorem pending_content {b₀ b₁ : UInt8} (h : bytes.length < readSize b₀ b₁) :
    packets.Pending (b₀ :: b₁ :: bytes) := by
  rw [readSize_eq] at h
  left
  show bytes.length + 1 + 1 < 2 + BigEndian.decode [b₀, b₁]
  omega

/-- The packet at the front of the bytes. -/
theorem split_content {b₀ b₁ : UInt8} {content rest : List UInt8}
    (h : content.length = readSize b₀ b₁) : packets.split (b₀ :: b₁ :: (content ++ rest)) =
      (([b₀, b₁], content) :: (packets.split rest).1, (packets.split rest).2) := by
  have hframe : packets.Complete ([b₀, b₁], content) := ⟨rfl, h.trans (readSize_eq b₀ b₁)⟩
  exact Framing.split_frame hframe rest

/-- A packet as the service gets it. -/
def delivered (fd : Int) (frame : List UInt8 × List UInt8) : Netpack :=
  ⟨fd, frame.2.length, frame.2⟩

/-- What became of `bytes`, which begin with a packet: the packets are in the queue and the rest
is the entry of the connection. -/
structure Cut (fd : Int) (bytes : List UInt8) (q q' : Queue) : Prop where
  queue : q'.queue.toList = q.queue.toList ++ (packets.split bytes).1.map (delivered fd)
  part : Part fd (q'.entries fd) (packets.split bytes).2
  others : ∀ fd', fd' ≠ fd → q'.entries fd' = q.entries fd'

theorem Cut.save (hnone : q.entries fd = []) (hwaits : Waits fd uc bytes)
    (hid : uc.pack.id = fd) (hpending : packets.Pending bytes) : Cut fd bytes q (q.link fd uc) := by
  constructor
  · rw [Framing.split_pending hpending, List.map_nil, List.append_nil]
    rfl
  · rw [Framing.split_pending hpending, entries_link hid, hnone]
    exact .some hwaits
  · intro fd' hne
    exact entries_link_ne hid hne

theorem Cut.push {b₀ b₁ : UInt8} {content rest : List UInt8}
    (hcontent : content.length = readSize b₀ b₁)
    (hrest : Cut fd rest (pushData Q fd content (readSize b₀ b₁)) q') :
    Cut fd (b₀ :: b₁ :: (content ++ rest)) (getQueue Q) q' := by
  constructor
  · rw [split_content hcontent, hrest.queue, queue_pushData, List.append_assoc, ← hcontent]
    rfl
  · rw [split_content hcontent]
    exact hrest.part
  · exact hrest.others

theorem Cut.nil (hnone : q.entries fd = []) : Cut fd [] q q := by
  constructor
  · rw [Framing.split_nil, List.map_nil, List.append_nil]
  · rw [Framing.split_nil, hnone]
    exact .none
  · intro fd' hne
    rfl

theorem pushMore_cut (hnone : (getQueue Q).entries fd = []) (hne : bytes ≠ []) :
    ∃ q', pushMore Q fd bytes = some q' ∧ Cut fd bytes (getQueue Q) q' := by
  induction hlength : bytes.length using Nat.strongRecOn generalizing Q bytes with
  | _ n ih =>
      match bytes with
      | [] => exact absurd rfl hne
      | [header] =>
          rw [pushMore]
          exact ⟨_, rfl, Cut.save hnone (.header rfl rfl) rfl (pending_one header)⟩
      | b₀ :: b₁ :: buffer =>
          rw [pushMore]
          by_cases hshort : buffer.length < readSize b₀ b₁
          · rw [if_pos hshort]
            exact ⟨_, rfl, Cut.save hnone (.content rfl rfl rfl hshort) rfl
              (pending_content hshort)⟩
          · have hcontent : (buffer.take (readSize b₀ b₁)).length = readSize b₀ b₁ := by
              rw [List.length_take]
              omega
            have hpushed : (getQueue (some (pushData Q fd (buffer.take (readSize b₀ b₁))
                (readSize b₀ b₁)))).entries fd = [] := hnone
            have hbuffer := List.take_append_drop (readSize b₀ b₁) buffer
            rw [if_neg hshort]
            by_cases hmore : 0 < (buffer.drop (readSize b₀ b₁)).length
            · rw [if_pos hmore]
              obtain ⟨q', hrun, hcut⟩ := ih (buffer.drop (readSize b₀ b₁)).length
                (by simp only [List.length_drop, List.length_cons] at hlength ⊢; omega)
                hpushed (List.ne_nil_of_length_pos hmore) rfl
              refine ⟨q', hrun, ?_⟩
              have hall := Cut.push hcontent hcut
              rwa [hbuffer] at hall
            · rw [if_neg hmore]
              have hdrop : buffer.drop (readSize b₀ b₁) = [] :=
                List.length_eq_zero_iff.mp (by omega)
              refine ⟨_, rfl, ?_⟩
              have hall := Cut.push hcontent (Cut.nil hpushed)
              rwa [← hdrop, hbuffer] at hall

end Partial

section Delivery

variable {q q' : Queue} {Q Q' : Option Queue} {fd fd' : Int} {uc : Uncomplete}
  {rest chunk bytes buffer : List UInt8}

theorem pop_none (h : pop (some q) = none) : q.queue.toList = [] :=
  RingBuffer.pop_none.mp (Option.map_eq_none_iff.mp h)

theorem pop_some {np : Netpack} (h : pop (some q) = some (np, q')) :
    q.queue.toList = np :: q'.queue.toList ∧ q'.hash = q.hash := by
  obtain ⟨⟨x, ring⟩, hring, heq⟩ := Option.map_eq_some_iff.mp h
  cases heq
  exact ⟨RingBuffer.toList_pop hring, rfl⟩

/-- Enough calls of `pop` take every packet out and leave the hash alone. -/
theorem popAll_eq {fuel : Nat} (hfuel : q.queue.toList.length ≤ fuel) :
    ∃ q', popAll fuel (some q) = (q.queue.toList, some q') ∧ q'.queue.toList = [] ∧
      q'.hash = q.hash := by
  induction fuel generalizing q with
  | zero =>
      have hnil := List.length_eq_zero_iff.mp (Nat.le_zero.mp hfuel)
      exact ⟨q, by rw [hnil]; rfl, hnil, rfl⟩
  | succ fuel ih =>
      unfold popAll
      cases hpop : pop (some q) with
      | none =>
          have hnil := pop_none hpop
          exact ⟨q, by rw [hnil], hnil, rfl⟩
      | some r =>
          obtain ⟨np, q₁⟩ := r
          obtain ⟨hcons, hhash⟩ := pop_some hpop
          have hlength : q₁.queue.toList.length ≤ fuel := by
            rw [hcons, List.length_cons] at hfuel
            omega
          obtain ⟨q', hrun, hnil, hhash'⟩ := ih hlength
          refine ⟨q', ?_, hnil, hhash'.trans hhash⟩
          show (np :: (popAll fuel (some q₁)).1, (popAll fuel (some q₁)).2) = _
          rw [hrun, hcons]

/-- What a message leaves when `bytes` are those of its connection since the end of the last
packet, the message included. -/
structure Received (fd : Int) (bytes : List UInt8) (Q : Option Queue)
    (r : List Netpack × Option Queue) : Prop where
  list : r.1 = (packets.split bytes).1.map (delivered fd)
  part : Part fd ((getQueue r.2).entries fd) (packets.split bytes).2
  others : ∀ fd', fd' ≠ fd → (getQueue r.2).entries fd' = (getQueue Q).entries fd'
  empty : (getQueue r.2).queue.toList = []

theorem Received.nothing (hfilter : filter Q (.data fd chunk) = some (some q, .nothing))
    (hpending : packets.Pending bytes) (hpart : Part fd (q.entries fd) bytes)
    (hothers : ∀ fd', fd' ≠ fd → q.entries fd' = (getQueue Q).entries fd')
    (hempty : q.queue.toList = []) :
    ∃ r, receive Q (.data fd chunk) = some r ∧ Received fd bytes Q r := by
  refine ⟨([], some q), ?_, ?_, ?_, hothers, hempty⟩
  · rw [receive, hfilter]
    rfl
  · rw [Framing.split_pending hpending]
    rfl
  · rw [Framing.split_pending hpending]
    exact hpart

theorem Received.data {b₀ b₁ : UInt8} {content : List UInt8} {size : Nat}
    (hfilter : filter Q (.data fd chunk) = some (Q', .data fd content size))
    (hsize : size = readSize b₀ b₁) (hcontent : content.length = readSize b₀ b₁)
    (hnone : (getQueue Q').entries fd = [])
    (hothers : ∀ fd', fd' ≠ fd → (getQueue Q').entries fd' = (getQueue Q).entries fd')
    (hempty : (getQueue Q').queue.toList = []) :
    ∃ r, receive Q (.data fd chunk) = some r ∧ Received fd (b₀ :: b₁ :: content) Q r := by
  have hsplit : packets.split (b₀ :: b₁ :: content) = ([([b₀, b₁], content)], []) := by
    have hone : packets.split (b₀ :: b₁ :: (content ++ [])) = _ := split_content hcontent
    rwa [List.append_nil, Framing.split_nil] at hone
  refine ⟨([⟨fd, size, content⟩], Q'), ?_, ?_, ?_, hothers, hempty⟩
  · rw [receive, hfilter]
    rfl
  · rw [hsplit, hsize, ← hcontent]
    rfl
  · rw [hsplit]
    show Part fd ((getQueue Q').entries fd) []
    rw [hnone]
    exact .none

theorem Received.more (hfilter : filter Q (.data fd chunk) = some (some q', .more))
    (hcut : Cut fd bytes q q') (hempty : q.queue.toList = [])
    (hothers : ∀ fd', fd' ≠ fd → q.entries fd' = (getQueue Q).entries fd') :
    ∃ r, receive Q (.data fd chunk) = some r ∧ Received fd bytes Q r := by
  have hqueue := hcut.queue
  rw [hempty, List.nil_append] at hqueue
  have hfuel : q'.queue.toList.length ≤ q'.queue.cap := by
    rw [RingBuffer.length_toList]
    exact Nat.le_of_lt q'.queue.length_lt
  obtain ⟨q₁, hrun, hnil, hhash⟩ := popAll_eq hfuel
  have hentries : ∀ fd', q₁.entries fd' = q'.entries fd' := by
    intro fd'
    unfold Queue.entries
    rw [hhash]
  refine ⟨(q'.queue.toList, some q₁), ?_, hqueue, ?_, ?_, hnil⟩
  · rw [receive, hfilter]
    exact congrArg some hrun
  · show Part fd (q₁.entries fd) _
    rw [hentries]
    exact hcut.part
  · intro fd' hne
    show q₁.entries fd' = _
    rw [hentries, hcut.others fd' hne, hothers fd' hne]

/-! ## One message -/

/-- A connection without a partial packet. -/
theorem receive_first (hnone : (getQueue Q).entries fd = [])
    (hempty : (getQueue Q).queue.toList = []) (hfind : findUncomplete Q fd = none)
    (hne : chunk ≠ []) :
    ∃ r, receive Q (.data fd chunk) = some r ∧ Received fd chunk Q r := by
  have hfilter : filter Q (.data fd chunk) = firstPacket Q fd chunk := by
    show filterData Q fd chunk = _
    unfold filterData
    rw [hfind]
  have hothers : ∀ fd', fd' ≠ fd → (getQueue Q).entries fd' = (getQueue Q).entries fd' :=
    fun _ _ => rfl
  match chunk with
  | [] => exact absurd rfl hne
  | [header] =>
      have hwaits : Waits fd ⟨⟨fd, 0, []⟩, -1, header⟩ [header] := .header rfl rfl
      have hcut := Cut.save hnone hwaits rfl (pending_one header)
      have hpart := hcut.part
      rw [Framing.split_pending (pending_one header)] at hpart
      exact Received.nothing hfilter (pending_one header) hpart hcut.others hempty
  | b₀ :: b₁ :: buffer =>
      rw [firstPacket] at hfilter
      by_cases hshort : buffer.length < readSize b₀ b₁
      · rw [if_pos hshort] at hfilter
        have hpending := pending_content hshort
        have hwaits : Waits fd ⟨⟨fd, readSize b₀ b₁, buffer⟩, buffer.length, 0⟩
            (b₀ :: b₁ :: buffer) := .content rfl rfl rfl hshort
        have hcut := Cut.save hnone hwaits rfl hpending
        have hpart := hcut.part
        rw [Framing.split_pending hpending] at hpart
        exact Received.nothing hfilter hpending hpart hcut.others hempty
      · rw [if_neg hshort] at hfilter
        by_cases hexact : buffer.length = readSize b₀ b₁
        · rw [if_pos hexact] at hfilter
          exact Received.data hfilter hexact hexact hnone hothers hempty
        · rw [if_neg hexact] at hfilter
          have hcontent : (buffer.take (readSize b₀ b₁)).length = readSize b₀ b₁ := by
            rw [List.length_take]
            omega
          have hrest : buffer.drop (readSize b₀ b₁) ≠ [] := by
            apply List.ne_nil_of_length_pos
            rw [List.length_drop]
            omega
          obtain ⟨q', hmore, hcut⟩ := pushMore_cut
            (Q := some (pushData Q fd (buffer.take (readSize b₀ b₁)) (readSize b₀ b₁))) hnone hrest
          have hall := Cut.push hcontent hcut
          rw [List.take_append_drop] at hall
          rw [hmore] at hfilter
          exact Received.more hfilter hall hempty hothers

/-- A connection whose partial packet `uc` was taken out of the hash. -/
theorem receive_fill {b₀ b₁ : UInt8}
    (hfilter : filter Q (.data fd chunk) = fillUncomplete q fd uc buffer) (hid : uc.pack.id = fd)
    (hread : uc.read = uc.pack.buffer.length) (hsize : uc.pack.size = readSize b₀ b₁)
    (hpart : uc.pack.buffer.length ≤ uc.pack.size) (hnone : q.entries fd = [])
    (hothers : ∀ fd', fd' ≠ fd → q.entries fd' = (getQueue Q).entries fd')
    (hempty : q.queue.toList = []) :
    ∃ r, receive Q (.data fd chunk) = some r ∧
      Received fd (b₀ :: b₁ :: (uc.pack.buffer ++ buffer)) Q r := by
  have hneed : (uc.pack.size - uc.read : Int) =
      ((uc.pack.size - uc.pack.buffer.length : Nat) : Int) := by omega
  generalize hn : uc.pack.size - uc.pack.buffer.length = need at hneed
  unfold fillUncomplete at hfilter
  simp only [hneed, Int.toNat_natCast] at hfilter
  by_cases hshort : buffer.length < need
  · rw [if_pos (by omega)] at hfilter
    have hlt : (uc.pack.buffer ++ buffer).length < readSize b₀ b₁ := by
      rw [List.length_append]
      omega
    have hpending := pending_content hlt
    have hwaits : Waits fd { uc with
        pack := { uc.pack with buffer := uc.pack.buffer ++ buffer }
        read := uc.read + buffer.length } (b₀ :: b₁ :: (uc.pack.buffer ++ buffer)) :=
      .content hid (by rw [hread, List.length_append]; rfl) hsize (by rw [hsize]; exact hlt)
    have hcut := Cut.save hnone hwaits hid hpending
    have hrest := hcut.part
    rw [Framing.split_pending hpending] at hrest
    refine Received.nothing hfilter hpending hrest ?_ hempty
    intro fd' hne
    rw [hcut.others fd' hne, hothers fd' hne]
  · rw [if_neg (by omega)] at hfilter
    have hwhole : (uc.pack.buffer ++ buffer.take need).length = readSize b₀ b₁ := by
      rw [List.length_append, List.length_take]
      omega
    have hbuffer : uc.pack.buffer ++ buffer = uc.pack.buffer ++ buffer.take need ++
        buffer.drop need := by
      rw [List.append_assoc, List.take_append_drop]
    by_cases hend : (buffer.drop need).length = 0
    · rw [if_pos hend] at hfilter
      rw [hbuffer, List.length_eq_zero_iff.mp hend, List.append_nil]
      exact Received.data hfilter hsize hwhole hnone hothers hempty
    · rw [if_neg hend] at hfilter
      have hrest : buffer.drop need ≠ [] := fun hnil => hend (List.length_eq_zero_iff.mpr hnil)
      obtain ⟨q', hmore, hcut⟩ := pushMore_cut
        (Q := some (pushData (some q) fd (uc.pack.buffer ++ buffer.take need) (readSize b₀ b₁)))
        hnone hrest
      have hall := Cut.push hwhole hcut
      rw [hsize, hmore] at hfilter
      rw [hbuffer]
      exact Received.more hfilter hall hempty hothers

theorem receive_data (hpart : Part fd ((getQueue Q).entries fd) rest)
    (hempty : (getQueue Q).queue.toList = []) (hne : chunk ≠ []) :
    ∃ r, receive Q (.data fd chunk) = some r ∧ Received fd (rest ++ chunk) Q r := by
  cases hfind : findUncomplete Q fd with
  | none =>
      have hnone := entries_of_find_none hfind
      rw [hnone] at hpart
      cases hpart
      exact receive_first hnone hempty hfind hne
  | some r =>
      obtain ⟨uc, q⟩ := r
      have htaken := taken_of_find hfind
      have hfilter : filter Q (.data fd chunk) =
          (readHeader uc chunk).bind fun r => fillUncomplete q fd r.1 r.2 := by
        show filterData Q fd chunk = _
        unfold filterData
        rw [hfind]
      rw [htaken.entries] at hpart
      have hnil : q.queue.toList = [] := by
        rw [htaken.queue]
        exact hempty
      generalize hentries : q.entries fd = left at hpart
      cases hpart with
      | some hwaits =>
          cases hwaits with
          | header hid hread =>
              match chunk with
              | [] => exact absurd rfl hne
              | byte :: buffer =>
                  unfold readHeader at hfilter
                  rw [if_pos (by omega), if_pos hread] at hfilter
                  have hsize : byte.toNat ||| uc.header.toNat <<< 8 = readSize uc.header byte :=
                    Nat.or_comm ..
                  exact receive_fill hfilter hid rfl hsize (Nat.zero_le _) hentries htaken.others
                    hnil
          | content hid hread hsize hlt =>
              unfold readHeader at hfilter
              rw [if_neg (by omega)] at hfilter
              exact receive_fill hfilter hid hread hsize (Nat.le_of_lt hlt) hentries htaken.others
                hnil

/-! ## Runs -/

def messages (ms : List (Int × List UInt8)) : List Message := ms.map fun m => .data m.1 m.2

/-- The bytes that arrive on a connection. -/
def bytesOf (fd : Int) (ms : List (Int × List UInt8)) : List UInt8 :=
  (ms.filter fun m => m.1 = fd).flatMap Prod.snd

/-- The payloads that the service gets of a connection. -/
def payloadsOf (fd : Int) (out : List Netpack) : List (List UInt8) :=
  (out.filter fun np => np.id = fd).map fun np => np.buffer.take np.size

/-- The bytes that the calls write to a connection. -/
def sent (calls : List Call) : List UInt8 :=
  calls.flatMap fun c => c.run.toOption.getD []

theorem payloadsOf_append (a b : List Netpack) :
    payloadsOf fd (a ++ b) = payloadsOf fd a ++ payloadsOf fd b := by
  unfold payloadsOf
  rw [List.filter_append, List.map_append]

theorem payloadsOf_delivered (frames : List (List UInt8 × List UInt8)) :
    payloadsOf fd (frames.map (delivered fd)) = frames.map Prod.snd := by
  unfold payloadsOf
  rw [List.filter_eq_self.mpr, List.map_map]
  · apply List.map_congr_left
    intro frame _
    exact List.take_length
  · intro np hnp
    obtain ⟨frame, -, rfl⟩ := List.mem_map.mp hnp
    exact decide_eq_true rfl

theorem payloadsOf_delivered_ne (hne : fd' ≠ fd) (frames : List (List UInt8 × List UInt8)) :
    payloadsOf fd' (frames.map (delivered fd)) = [] := by
  unfold payloadsOf
  rw [List.filter_eq_nil_iff.mpr, List.map_nil]
  intro np hnp
  obtain ⟨frame, -, rfl⟩ := List.mem_map.mp hnp
  show ¬decide (fd = fd') = true
  rw [decide_eq_true_iff]
  exact Ne.symm hne

theorem bytesOf_cons_self (chunk : List UInt8) (ms : List (Int × List UInt8)) :
    bytesOf fd ((fd, chunk) :: ms) = chunk ++ bytesOf fd ms := by
  unfold bytesOf
  rw [List.filter_cons_of_pos (by simp), List.flatMap_cons]

theorem bytesOf_cons_ne (hne : fd' ≠ fd) (chunk : List UInt8) (ms : List (Int × List UInt8)) :
    bytesOf fd' ((fd, chunk) :: ms) = bytesOf fd' ms := by
  unfold bytesOf
  rw [List.filter_cons_of_neg (by simpa using Ne.symm hne)]

theorem Part.pending {list : List Uncomplete} (h : Part fd list bytes) :
    packets.Pending bytes := by
  cases h with
  | none => exact pending_nil
  | some hwaits =>
      cases hwaits with
      | header => exact pending_one _
      | content _ _ hsize hlt => exact pending_content (hsize ▸ hlt)

/-- What a run delivers: the payloads of the stream of each connection, that begins with the
bytes of its partial packet. -/
theorem receiveAll_eq {waiting : Int → List UInt8} {ms : List (Int × List UInt8)}
    (hpart : ∀ fd, Part fd ((getQueue Q).entries fd) (waiting fd))
    (hempty : (getQueue Q).queue.toList = []) (hchunks : ∀ m ∈ ms, m.2 ≠ []) :
    ∃ out, receiveAll Q (messages ms) = some out ∧ ∀ fd, payloadsOf fd out =
      (packets.split (waiting fd ++ bytesOf fd ms)).1.map Prod.snd := by
  induction ms generalizing Q waiting with
  | nil =>
      refine ⟨[], rfl, fun fd => ?_⟩
      show [] = (packets.split (waiting fd ++ [])).1.map Prod.snd
      rw [List.append_nil, Framing.split_pending (hpart fd).pending]
      rfl
  | cons m ms ih =>
      obtain ⟨fd, chunk⟩ := m
      obtain ⟨r, hreceive, hr⟩ := receive_data (hpart fd) hempty
        (hchunks (fd, chunk) List.mem_cons_self)
      have hnext : ∀ fd', Part fd' ((getQueue r.2).entries fd')
          (Function.update waiting fd (packets.split (waiting fd ++ chunk)).2 fd') := by
        intro fd'
        by_cases heq : fd' = fd
        · rw [heq, Function.update_self]
          exact hr.part
        · rw [Function.update_of_ne heq, hr.others fd' heq]
          exact hpart fd'
      obtain ⟨out, hrun, hout⟩ := ih hnext hr.empty
        fun m hm => hchunks m (List.mem_cons_of_mem _ hm)
      refine ⟨r.1 ++ out, ?_, fun fd' => ?_⟩
      · show (receive Q (.data fd chunk)).bind _ = _
        rw [hreceive]
        show (receiveAll r.2 (messages ms)).map _ = _
        rw [hrun]
        rfl
      · rw [payloadsOf_append, hout fd', hr.list]
        by_cases heq : fd' = fd
        · rw [heq, Function.update_self, payloadsOf_delivered, bytesOf_cons_self,
            ← List.append_assoc, Framing.split_append (waiting fd ++ chunk), List.map_append]
        · rw [Function.update_of_ne heq, payloadsOf_delivered_ne heq, bytesOf_cons_ne heq,
            List.nil_append]

theorem receiveAll_none {ms : List (Int × List UInt8)} (hchunks : ∀ m ∈ ms, m.2 ≠ []) :
    ∃ out, receiveAll none (messages ms) = some out ∧
      ∀ fd, payloadsOf fd out = (packets.split (bytesOf fd ms)).1.map Prod.snd := by
  have hpart : ∀ fd, Part fd ((getQueue none).entries fd) ((fun _ => []) fd) := fun _ => .none
  exact receiveAll_eq hpart (RingBuffer.toList_empty ..) hchunks

/-! ## The length field -/

theorem run_eq (c : Call) : c.run = frame c.payload := by
  cases c <;> rfl

theorem run_ok {c : Call} (h : c.run = .ok bytes) :
    bytes = writeSize c.payload.length ++ c.payload := by
  rw [run_eq] at h
  unfold frame at h
  simp only at h
  split at h
  · cases h
  · cases h
    rfl

theorem run_accepted {c : Call} (h : c.payload.length ≤ 0x10000) : ∃ bytes, c.run = .ok bytes := by
  rw [run_eq]
  exact ⟨_, if_neg (Nat.not_lt.mpr h)⟩

theorem decode_writeSize (len : Nat) : BigEndian.decode (writeSize len) = len % 2 ^ 16 := by
  have hand : ∀ n : Nat, n &&& 0xff = n % 2 ^ 8 := fun n => Nat.and_two_pow_sub_one_eq_mod n 8
  have hbyte : ∀ n : Nat, (UInt8.ofNat n).toNat = n % 256 := fun n => UInt8.toNat_ofNat'
  show (0 * 256 + (UInt8.ofNat (len >>> 8 &&& 0xff)).toNat) * 256 +
    (UInt8.ofNat (len &&& 0xff)).toNat = _
  rw [hand, hand, hbyte, hbyte, Nat.shiftRight_eq_div_pow]
  omega

/-- A payload that the length field can count is a packet of the stream. -/
theorem complete_of_lt {c : Call} (hlt : c.payload.length < 2 ^ 16) :
    packets.Complete (writeSize c.payload.length, c.payload) := by
  refine ⟨rfl, ?_⟩
  show c.payload.length = BigEndian.decode (writeSize c.payload.length)
  rw [decode_writeSize, Nat.mod_eq_of_lt hlt]

theorem sent_eq {calls : List Call} (hcalls : ∀ c ∈ calls, ∃ bytes, c.run = .ok bytes) :
    sent calls = Framing.stream
      (calls.map fun c => (writeSize c.payload.length, c.payload)) := by
  unfold sent Framing.stream
  rw [List.flatMap_map]
  apply List.flatMap_congr
  intro c hc
  obtain ⟨bytes, hrun⟩ := hcalls c hc
  rw [hrun]
  exact run_ok hrun

theorem split_sent {calls : List Call} (hcalls : ∀ c ∈ calls, ∃ bytes, c.run = .ok bytes)
    (hlt : ∀ c ∈ calls, c.payload.length < 2 ^ 16) :
    (packets.split (sent calls)).1.map Prod.snd = calls.map Call.payload := by
  have hcomplete : ∀ frame ∈ calls.map fun c => (writeSize c.payload.length, c.payload),
      packets.Complete frame := by
    intro frame hframe
    obtain ⟨c, hc, rfl⟩ := List.mem_map.mp hframe
    exact complete_of_lt (hlt c hc)
  have hsplit := Framing.split_stream hcomplete []
  rw [List.append_nil, Framing.split_nil, List.append_nil, ← sent_eq hcalls] at hsplit
  rw [hsplit, List.map_map]
  rfl

theorem length_lt_of_split {payload : List UInt8}
    (h : payload ∈ (packets.split bytes).1.map Prod.snd) : payload.length < 2 ^ 16 := by
  obtain ⟨frame, hframe, rfl⟩ := List.mem_map.mp h
  obtain ⟨hheader, hcontent⟩ := (packets.split_spec bytes).2.1 frame hframe
  have hlt := BigEndian.decode_lt frame.1
  rw [hheader] at hlt
  rw [hcontent]
  exact hlt

/-- The service gets the payloads of every connection in their order if and only if their
lengths fit in the two bytes; `pack` accepts one that does not. -/
theorem payloads_delivered_iff {calls : Int → List Call} {ms : List (Int × List UInt8)}
    (hcalls : ∀ fd, ∀ c ∈ calls fd, ∃ bytes, c.run = .ok bytes)
    (hchunks : ∀ m ∈ ms, m.2 ≠ []) (hcut : ∀ fd, bytesOf fd ms = sent (calls fd)) :
    (∃ out, receiveAll none (messages ms) = some out ∧
      ∀ fd, payloadsOf fd out = (calls fd).map Call.payload) ↔
    ∀ fd, ∀ c ∈ calls fd, c.payload.length < 2 ^ 16 := by
  obtain ⟨out, hrun, hout⟩ := receiveAll_none hchunks
  constructor
  · rintro ⟨out', hrun', hdelivered⟩ fd c hc
    rw [hrun] at hrun'
    cases hrun'
    have hmem : c.payload ∈ (packets.split (bytesOf fd ms)).1.map Prod.snd := by
      rw [← hout, hdelivered]
      exact List.mem_map_of_mem hc
    exact length_lt_of_split hmem
  · intro hlt
    refine ⟨out, hrun, fun fd => ?_⟩
    rw [hout, hcut, split_sent (hcalls fd) (hlt fd)]

/-- Two connections, with packets of which the messages have parts. -/
theorem payloads_delivered_two :
    ∃ out, receiveAll none (messages [(1, [0]), (4097, [0, 1, 9, 0]), (1, [2, 7, 8, 0]),
        (4097, [0]), (1, [0])]) = some out ∧
      ∀ fd, payloadsOf fd out = ((if fd = 1 then [.pack [7, 8], .packString []]
        else if fd = 4097 then [.packPadding [9] [], .pack []] else []) : List Call).map
          Call.payload := by
  have hiff := @payloads_delivered_iff
    (fun fd => if fd = 1 then [.pack [7, 8], .packString []]
      else if fd = 4097 then [.packPadding [9] [], .pack []] else [])
    [(1, [0]), (4097, [0, 1, 9, 0]), (1, [2, 7, 8, 0]), (4097, [0]), (1, [0])]
  refine (hiff ?_ (by decide) ?_).mpr ?_
  · intro fd
    split
    · intro c hc
      exact run_accepted ((by decide : ∀ c ∈ [Call.pack [7, 8], .packString []],
        c.payload.length ≤ 0x10000) c hc)
    · split
      · intro c hc
        exact run_accepted ((by decide : ∀ c ∈ [Call.packPadding [9] [], .pack []],
          c.payload.length ≤ 0x10000) c hc)
      · exact fun c hc => absurd hc List.not_mem_nil
  · intro fd
    by_cases h₁ : fd = 1
    · rw [h₁]
      decide
    · by_cases h₂ : fd = 4097
      · rw [h₂]
        decide
      · rw [if_neg h₁, if_neg h₂]
        simp [bytesOf, Ne.symm h₁, Ne.symm h₂, sent]
  · intro fd
    split
    · decide
    · split <;> decide

/-- A payload of 65536 bytes is accepted, but the service gets an empty one in its place. -/
theorem payload_of_65536 :
    ((Call.pack (List.replicate 0x10000 0)).run.toOption.isSome ∧
      ∃ out, receiveAll none (messages [(1, sent [.pack (List.replicate 0x10000 0)])]) =
          some out ∧
        (payloadsOf 1 out).head? = some [] ∧
        payloadsOf 1 out ≠ [.pack (List.replicate 0x10000 0)].map Call.payload) := by
  generalize hcontent : List.replicate 0x10000 (0 : UInt8) = content
  have hlength : content.length = 0x10000 := by
    rw [← hcontent, List.length_replicate]
  have hrun : (Call.pack content).run = .ok (writeSize content.length ++ content) := by
    show frame content = _
    unfold frame
    rw [hlength]
    rfl
  have hsent : sent [.pack content] = 0 :: 0 :: ([] ++ content) := by
    show ((Call.pack content).run.toOption.getD []) ++ [] = _
    rw [hrun, hlength, List.append_nil]
    rfl
  have hchunks : ∀ m ∈ [((1 : Int), sent [.pack content])], m.2 ≠ [] := by
    intro m hm
    rw [List.mem_singleton.mp hm, hsent]
    exact List.cons_ne_nil _ _
  obtain ⟨out, hall, hout⟩ := receiveAll_none hchunks
  have hbytes : bytesOf 1 [(1, sent [.pack content])] = 0 :: 0 :: ([] ++ content) := by
    rw [bytesOf_cons_self, hsent]
    exact List.append_nil _
  refine ⟨?_, out, hall, ?_, ?_⟩
  · rw [hrun]
    rfl
  · rw [hout, hbytes, split_content (by decide)]
    rfl
  · intro heq
    have hmem : content ∈ payloadsOf 1 out := by
      rw [heq]
      exact List.mem_singleton_self content
    rw [hout] at hmem
    have hlt := length_lt_of_split hmem
    omega

end Delivery

end Jump.Skynet.NetpackQueue
