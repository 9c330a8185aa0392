import Jump.Skynet.SocketServer.Changes
import Jump.Skynet.SocketServer.Steps
import Mathlib.Data.List.TakeWhile

/-! # What a TCP socket writes

The bytes that go out are whole buffers and at most a part of one more, in the order of the requests
of each priority. Only when all that is queued with high priority went out, the low list is begun.
-/

namespace Jump.Skynet.SocketServer

open Jump.Core

/-! ## Bytes -/

/-- A request for `send_socket` with a plain buffer. -/
structure Request where
  priority : Priority
  buffer : Nat
  sz : Nat
deriving DecidableEq

/-- The `n` bytes from `ptr` on, each by its place in its buffer. -/
def bytesFrom (buffer : Nat) (ptr : Int) (n : Nat) : List (Nat × Int) :=
  (List.range n).map fun i : Nat => (buffer, ptr + i)

def Request.bytes (r : Request) : List (Nat × Int) := bytesFrom r.buffer 0 r.sz

def WriteBuffer.bytes (wb : WriteBuffer) : List (Nat × Int) := bytesFrom wb.buffer wb.ptr wb.sz

/-- The bytes that go out through `fd`. -/
def Effect.bytes (fd : Int) : Effect → List (Nat × Int)
  | .write fd' buffer ptr n => if fd' = fd then bytesFrom buffer ptr n else []
  | _ => []

def streamOf (fd : Int) (es : List Effect) : List (Nat × Int) := es.flatMap (Effect.bytes fd)

/-- The first `k` bytes of what is waiting. -/
def begun (k : Nat) (rs : List Request) : List (Nat × Int) := (rs.flatMap Request.bytes).take k

/-- The buffers in `chain` are those of `rs`, and `k` bytes of the first one went out. -/
inductive Waits : Nat → List WriteBuffer → List Request → Prop
  | nil : Waits 0 [] []
  | cons {k : Nat} {wb : WriteBuffer} {r : Request} {chain : List WriteBuffer}
      {rs : List Request} (hbuffer : wb.buffer = r.buffer) (hptr : wb.ptr = k)
      (hsz : k + wb.sz = r.sz) (hk : k = 0 ∨ k < r.sz) (hrest : Waits 0 chain rs) :
      Waits k (wb :: chain) (r :: rs)

section Bytes

variable {fd : Int} {k n : Nat} {wb : WriteBuffer} {r : Request} {chain : List WriteBuffer}
  {rs rs' : List Request} {es es' : List Effect}

theorem length_bytesFrom (buffer : Nat) (ptr : Int) (n : Nat) :
    (bytesFrom buffer ptr n).length = n := by
  rw [bytesFrom, List.length_map, List.length_range]

theorem bytesFrom_add (buffer : Nat) (ptr : Int) (m n : Nat) :
    bytesFrom buffer ptr (m + n) = bytesFrom buffer ptr m ++ bytesFrom buffer (ptr + m) n := by
  unfold bytesFrom
  rw [List.range_add, List.map_append, List.map_map]
  congr 1
  apply List.map_congr_left
  intro i _
  simp only [Function.comp_apply, Nat.cast_add, add_assoc]

theorem streamOf_append : streamOf fd (es ++ es') = streamOf fd es ++ streamOf fd es' :=
  List.flatMap_append ..

theorem streamOf_write (buffer : Nat) (ptr : Int) :
    streamOf fd [.write fd buffer ptr n] = bytesFrom buffer ptr n := by
  rw [streamOf, List.flatMap_singleton, Effect.bytes, if_pos rfl]

theorem begun_zero (rs : List Request) : begun 0 rs = [] := rfl

theorem length_bytes (r : Request) : r.bytes.length = r.sz := length_bytesFrom ..

/-- Of what is waiting only the first buffer can be begun. -/
theorem begun_cons (hk : k ≤ r.sz) : begun k (r :: rs) = bytesFrom r.buffer 0 k := by
  have hsplit : r.bytes = bytesFrom r.buffer 0 k ++ bytesFrom r.buffer (0 + k) (r.sz - k) := by
    rw [← bytesFrom_add, Nat.add_sub_cancel' hk]
    rfl
  rw [begun, List.flatMap_cons, List.take_append_of_le_length (by rw [length_bytes]; exact hk),
    hsplit, List.take_append_of_le_length (Nat.le_of_eq (length_bytesFrom ..).symm)]
  exact List.take_of_length_le (Nat.le_of_eq (length_bytesFrom ..))

/-- `n` more bytes of the first buffer go out. -/
theorem begun_write (hw : Waits k (wb :: chain) (r :: rs)) (hn : n ≤ wb.sz) :
    begun k (r :: rs) ++ bytesFrom wb.buffer wb.ptr n = begun (k + n) (r :: rs) := by
  cases hw with
  | cons hbuffer hptr hsz hk hrest =>
      rw [begun_cons (by omega), begun_cons (by omega), hbuffer, hptr, bytesFrom_add]
      congr 2
      exact (zero_add _).symm

theorem begun_whole (r : Request) (rs : List Request) : begun r.sz (r :: rs) = r.bytes :=
  begun_cons (Nat.le_refl _)

/-- Behind the buffers that are there, one more. -/
theorem Waits.append (hw : Waits k chain rs) (hbuffer : wb.buffer = r.buffer) (hptr : wb.ptr = 0)
    (hsz : wb.sz = r.sz) : Waits k (chain ++ [wb]) (rs ++ [r]) := by
  have hone : Waits 0 [wb] [r] := .cons hbuffer hptr (by rw [Nat.zero_add, hsz]) (Or.inl rfl) .nil
  induction hw with
  | nil => exact hone
  | cons hbuffer' hptr' hsz' hk hrest ih => exact .cons hbuffer' hptr' hsz' hk ih

theorem begun_append (hw : Waits k chain rs) : begun k (rs ++ rs') = begun k rs := by
  cases hw with
  | nil => rfl
  | cons hbuffer hptr hsz hk hrest =>
      rw [List.cons_append, begun_cons (by omega), begun_cons (by omega)]

end Bytes

/-! ## The loop of `send_list_tcp` -/

/-- What the loop does: whole buffers of `rs` went out, and a part of the next one. -/
structure Goes (fd : Int) (ws : List WriteResult) (k : Nat) (chain : List WriteBuffer)
    (rs : List Request) (p : Progress) : Prop where
  bytes : streamOf fd p.effects ++ p.chain.flatMap WriteBuffer.bytes =
    chain.flatMap WriteBuffer.bytes
  whole : ∃ gone rs' k', rs = gone ++ rs' ∧ Waits k' p.chain rs' ∧
    begun k rs ++ streamOf fd p.effects = gone.flatMap Request.bytes ++ begun k' rs'
  calm : (∀ a ∈ ws, a ≠ .error) → p.ending ≠ .failed ∧ ∀ a ∈ p.ws, a ≠ .error
  quiet : .close fd ∉ p.effects

theorem sendTcp_goes (fd : Int) (ws : List WriteResult) (chain : List WriteBuffer) {k : Nat}
    {rs : List Request} (hw : Waits k chain rs) :
    (sendTcp fd ws chain).Ensures (Goes fd ws k chain rs) := by
  induction ws, chain using sendTcp.induct generalizing k rs with
  | case1 ws =>
      rw [sendTcp]
      cases hw
      refine .pure ⟨rfl, ⟨[], [], 0, rfl, .nil, rfl⟩, fun hcalm => ⟨by simp, hcalm⟩, ?_⟩
      exact List.not_mem_nil
  | case2 tmp rest =>
      rw [sendTcp]
      exact .stuck
  | case3 ws chain hne ih =>
      rw [sendTcp]
      · refine (ih hw).mono ?_
        intro p hp
        refine ⟨hp.bytes, hp.whole, fun hcalm => ?_, hp.quiet⟩
        exact hp.calm (List.forall_mem_cons.mp hcalm).2
      · exact hne
  | case4 ws chain hne =>
      rw [sendTcp]
      · refine .pure ⟨rfl, ⟨[], rs, k, rfl, hw, List.append_nil _⟩, fun hcalm => ⟨by simp, ?_⟩,
          List.not_mem_nil⟩
        exact (List.forall_mem_cons.mp hcalm).2
      · exact hne
  | case5 ws chain hne =>
      rw [sendTcp]
      · refine .pure ⟨rfl, ⟨[], rs, k, rfl, hw, List.append_nil _⟩, fun hcalm => ?_,
          List.not_mem_nil⟩
        exact absurd rfl (List.forall_mem_cons.mp hcalm).1
      · exact hne
  | case6 ws tmp rest ih =>
      rw [sendTcp, if_pos rfl]
      cases hw with
      | @cons _ _ r _ rs hbuffer hptr hsz hk hrest =>
          refine .bind (ih hrest) fun p hp => ?_
          apply Outcome.Ensures.pure
          have hstream :
              streamOf fd (.write fd tmp.buffer tmp.ptr tmp.sz :: tmp.free :: p.effects) =
                tmp.bytes ++ streamOf fd p.effects := by
            rw [← List.singleton_append, streamOf_append, streamOf_write]
            rfl
          have hfirst : begun k (r :: rs) ++ tmp.bytes = r.bytes := by
            have hwrite := begun_write (.cons hbuffer hptr hsz hk hrest) (Nat.le_refl tmp.sz)
            rw [hsz, begun_whole] at hwrite
            exact hwrite
          obtain ⟨gone, rs', k', hrs, hwaits, hbegun⟩ := hp.whole
          refine ⟨?_, ⟨r :: gone, rs', k', ?_, hwaits, ?_⟩, ?_, ?_⟩
          · rw [hstream, List.append_assoc, hp.bytes]
            rfl
          · rw [hrs, List.cons_append]
          · rw [begun_zero, List.nil_append] at hbegun
            rw [hstream, ← List.append_assoc, hfirst, hbegun, ← List.append_assoc]
            rfl
          · exact fun hcalm => hp.calm (List.forall_mem_cons.mp hcalm).2
          · simpa [WriteBuffer.free] using hp.quiet
  | case7 n ws tmp rest hn hlt =>
      rw [sendTcp, if_neg hn, if_pos hlt]
      cases hw with
      | @cons _ _ r _ rs hbuffer hptr hsz hk hrest =>
          refine .pure ⟨?_, ⟨[], r :: rs, k + n, rfl, ?_, ?_⟩, fun hcalm => ⟨by simp, ?_⟩, ?_⟩
          · have hsplit := bytesFrom_add tmp.buffer tmp.ptr n (tmp.sz - n)
            rw [Nat.add_sub_cancel' (Nat.le_of_lt hlt)] at hsplit
            rw [streamOf_write, List.flatMap_cons, List.flatMap_cons, ← List.append_assoc]
            congr 1
            exact hsplit.symm
          · refine .cons hbuffer ?_ ?_ ?_ hrest
            · rw [hptr]
              exact (Int.natCast_add k n).symm
            · change k + n + (tmp.sz - n) = r.sz
              omega
            · right
              omega
          · rw [streamOf_write]
            exact begun_write (.cons hbuffer hptr hsz hk hrest) (Nat.le_of_lt hlt)
          · exact (List.forall_mem_cons.mp hcalm).2
          · simp
  | case8 n ws tmp rest hn hlt =>
      rw [sendTcp, if_neg hn, if_neg hlt]
      exact .stuck

/-! ## `send_buffer` -/

/-- The slot `h` was closed after the effects `es`. -/
structure Shuts (h : Nat) (fd : Int) (w : Sockets) (es : List Effect) (w' : Sockets) : Prop where
  type : (w'.slot h).type = .invalid
  own : (w'.slot h).fd = (w.slot h).fd
  log : ∃ fs, w'.log = w.log ++ (es ++ fs) ∧ streamOf fd fs = []

section Slot

variable {w w' : Sockets} {h k : Nat} {fd : Int} {p : Priority} {ws : List WriteResult}
  {rs : List Request}

theorem streamOf_frees (fd : Int) (chain : List WriteBuffer) :
    streamOf fd (chain.map WriteBuffer.free) = [] := by
  apply List.flatMap_eq_nil_iff.mpr
  intro e he
  obtain ⟨wb, _, rfl⟩ := List.mem_map.mp he
  rfl

theorem forceClose_shuts (htype : (w.slot h).type ≠ .invalid) (fd : Int) :
    (w.forceClose h).Ensures (Shuts h fd w []) := by
  unfold Sockets.forceClose
  dsimp only
  rw [if_neg htype]
  refine .bind .assert fun _ _ => ?_
  have hfrees := streamOf_frees fd ((w.slot h).high.chain ++ (w.slot h).low.chain)
  have hclose : streamOf fd (((w.slot h).high.chain ++ (w.slot h).low.chain).map
      WriteBuffer.free ++ [.close (w.slot h).fd]) = [] := by
    rw [streamOf_append, hfrees]
    rfl
  refine .pure ⟨by rw [Sockets.set_slot], by rw [Sockets.set_slot], ?_⟩
  split_ifs
  · exact ⟨_, List.append_assoc .., hclose⟩
  · exact ⟨_, List.append_assoc .., hclose⟩
  · exact ⟨_, rfl, hfrees⟩
  · exact ⟨_, rfl, hfrees⟩

/-- A list was sent from before. -/
theorem Shuts.behind {w'' : Sockets} {es es' : List Effect} (hw : Shuts h fd w' es' w'')
    (hlog : w'.log = w.log ++ es) (hfd : (w'.slot h).fd = (w.slot h).fd) :
    Shuts h fd w (es ++ es') w'' := by
  obtain ⟨fs, hfs, hnone⟩ := hw.log
  refine ⟨hw.type, hw.own.trans hfd, fs, ?_, hnone⟩
  rw [hfs, hlog, List.append_assoc, List.append_assoc]

/-- `send_list` of a TCP socket -/
theorem sendList_goes (htcp : (w.slot h).protocol = .tcp) (htype : (w.slot h).type ≠ .invalid)
    (hw : Waits k ((w.slot h).list p).chain rs) :
    (w.sendList h p ws).Ensures fun r => ∃ q,
      Goes (w.slot h).fd ws k ((w.slot h).list p).chain rs q ∧ r.2.2 = q.ws ∧
      if r.2.1 then q.ending = .failed ∧ Shuts h (w.slot h).fd w q.effects r.1
      else r.1.log = w.log ++ q.effects ∧ r.1.slot h = (w.slot h).sent p q.chain q.sent := by
  unfold Sockets.sendList
  dsimp only
  rw [if_pos htcp]
  have hloop : (sendTcp (w.slot h).fd ws ((w.slot h).list p).chain).Ensures fun q =>
      Goes (w.slot h).fd ws k ((w.slot h).list p).chain rs q ∧
        q.Of ((w.slot h).list p).chain := by
    intro q hq
    exact ⟨sendTcp_goes _ _ _ hw q hq, (sendTcp_ends _ _ _ fun _ => True).ensures q hq⟩
  refine .bind hloop fun q hq => ?_
  obtain ⟨hgoes, hof⟩ := hq
  have hslot : { (w.slot h).setList ⟨q.chain, if q.ending = .drained then none
      else ((w.slot h).list p).tail⟩ p with wbSize := (w.slot h).wbSize - q.sent } =
      (w.slot h).sent p q.chain q.sent := by
    rw [Socket.sent, WbList.left, if_congr hof.2.1 rfl rfl]
  rw [hslot]
  split
  · rename_i hfailed
    refine .bind (forceClose_shuts ?_ (w.slot h).fd) fun w' hw' => ?_
    · rw [Sockets.set_slot, type_sent]
      exact htype
    · have hshuts : Shuts h (w.slot h).fd w (q.effects ++ []) w' := by
        apply hw'.behind rfl
        rw [Sockets.set_slot, fd_sent]
      rw [List.append_nil] at hshuts
      exact .pure ⟨q, hgoes, rfl, hfailed, hshuts⟩
  · refine .pure ⟨q, hgoes, rfl, rfl, ?_⟩
    rw [Sockets.set_slot]

theorem Waits.of_nil (hw : Waits k [] rs) : k = 0 ∧ rs = [] := by
  cases hw
  exact ⟨rfl, rfl⟩

/-- Where the first buffer is whole, nothing of it went out. -/
theorem Waits.of_complete {l : WbList} (hw : Waits k l.chain rs)
    (hcomplete : listUncomplete l = false) : k = 0 := by
  unfold listUncomplete at hcomplete
  cases hchain : l.chain with
  | nil =>
      rw [hchain] at hw
      exact hw.of_nil.1
  | cons wb chain =>
      rw [hchain] at hw hcomplete
      cases hw with
      | cons hbuffer hptr hsz hk hrest =>
          have hzero : wb.ptr = 0 := by simpa using hcomplete
          omega

theorem Waits.part {chain : List WriteBuffer} (hw : Waits k chain rs) :
    k = 0 ∨ ∃ r rest, rs = r :: rest ∧ k < r.sz := by
  cases hw with
  | nil => exact Or.inl rfl
  | cons hbuffer hptr hsz hk hrest => exact hk.imp_right fun hlt => ⟨_, _, rfl, hlt⟩

/-- What `send_buffer` leaves of a socket besides its lists. -/
structure Socket.Same (s s' : Socket) : Prop where
  type : s'.type = s.type
  id : s'.id = s.id
  fd : s'.fd = s.fd
  protocol : s'.protocol = s.protocol

theorem Socket.Same.trans {s s' s'' : Socket} (hs : s.Same s') (hs' : s'.Same s'') : s.Same s'' :=
  ⟨hs'.type.trans hs.type, hs'.id.trans hs.id, hs'.fd.trans hs.fd, hs'.protocol.trans hs.protocol⟩

theorem same_sent (s : Socket) (p : Priority) (chain : List WriteBuffer) (n : Nat) :
    s.Same (s.sent p chain n) := by
  cases p with
  | high => exact ⟨rfl, rfl, rfl, rfl⟩
  | low => exact ⟨rfl, rfl, rfl, rfl⟩

/-- What `send_buffer` does: the requests `gone` went out as a whole, and `k'` bytes of the first
one of `high'`. -/
structure Flows (h : Nat) (w : Sockets) (ws : List WriteResult) (k : Nat) (high low : List Request)
    (r : Sockets × Bool) (es : List Effect) (gone high' low' : List Request) (k' : Nat) :
    Prop where
  quiet : .close (w.slot h).fd ∉ es
  bytes : streamOf (w.slot h).fd es <+: (w.slot h).high.chain.flatMap WriteBuffer.bytes ++
    (w.slot h).low.chain.flatMap WriteBuffer.bytes
  requests : high ++ low = gone ++ (high' ++ low')
  out : begun k high ++ streamOf (w.slot h).fd es = gone.flatMap Request.bytes ++ begun k' high'
  part : k' = 0 ∨ ∃ r rest, high' = r :: rest ∧ k' < r.sz
  lows : ∀ r ∈ low', r ∈ low
  ends : if r.2 then Shuts h (w.slot h).fd w es r.1 ∧
      ((∀ a ∈ ws, a ≠ .error) → high' = [] ∧ low' = [])
    else r.1.log = w.log ++ es ∧ Waits k' (r.1.slot h).high.chain high' ∧
      Waits 0 (r.1.slot h).low.chain low' ∧ (w.slot h).Same (r.1.slot h)

/-- After the high list was sent -/
theorem afterHigh_flows {w1 : Sockets} {q q' : Progress} {high low : List Request}
    {r : Sockets × Bool × List WriteResult}
    (hq : Goes (w.slot h).fd ws k (w.slot h).high.chain high q) (hdrained : q.chain = [])
    (hlog : w1.log = w.log ++ q.effects) (hslot : w1.slot h = (w.slot h).sent .high [] q.sent)
    (hq' : Goes (w.slot h).fd q.ws 0 (w.slot h).low.chain low q')
    (hr : if r.2.1 then q'.ending = .failed ∧ Shuts h (w.slot h).fd w1 q'.effects r.1
      else r.1.log = w1.log ++ q'.effects ∧
        r.1.slot h = (w1.slot h).sent .low q'.chain q'.sent) :
    (if r.2.1 = true then pure (r.1, true)
      else if listUncomplete (r.1.slot h).low = true then do
        let s ← raiseUncomplete (r.1.slot h)
        pure (r.1.set h s, false)
      else pure (r.1, false) : M (Sockets × Bool)).Ensures fun r =>
        ∃ es gone high' low' k', Flows h w ws k high low r es gone high' low' k' := by
  obtain ⟨gone, rest, k1, hhigh, hwaits, hout⟩ := hq.whole
  rw [hdrained] at hwaits
  obtain ⟨rfl, rfl⟩ := hwaits.of_nil
  obtain ⟨gone', rest', k2, hlow, hwaits', hout'⟩ := hq'.whole
  have hquiet : .close (w.slot h).fd ∉ q.effects ++ q'.effects := by
    intro hmem
    exact (List.mem_append.mp hmem).elim hq.quiet hq'.quiet
  have hbytes : streamOf (w.slot h).fd (q.effects ++ q'.effects) ++
      q'.chain.flatMap WriteBuffer.bytes = (w.slot h).high.chain.flatMap WriteBuffer.bytes ++
        (w.slot h).low.chain.flatMap WriteBuffer.bytes := by
    have hall := hq.bytes
    rw [hdrained, List.flatMap_nil, List.append_nil] at hall
    rw [streamOf_append, hall, List.append_assoc, hq'.bytes]
  have hboth : begun k high ++ streamOf (w.slot h).fd (q.effects ++ q'.effects) =
      (gone ++ gone').flatMap Request.bytes ++ begun k2 rest' := by
    rw [begun_zero, List.nil_append] at hout'
    rw [begun_zero, List.append_nil] at hout
    rw [streamOf_append, ← List.append_assoc, hout, hout', ← List.append_assoc,
      List.flatMap_append]
  have hrequests : high ++ low = (gone ++ gone') ++ rest' := by
    rw [hhigh, hlow, List.append_nil, List.append_assoc]
  cases hclosed : r.2.1 with
  | true =>
      rw [hclosed, if_pos rfl] at hr
      rw [if_pos rfl]
      refine .pure ⟨q.effects ++ q'.effects, gone ++ gone', rest', [], k2, hquiet, ⟨_, hbytes⟩, ?_,
        hboth, hwaits'.part, fun _ hmem => absurd hmem List.not_mem_nil, ?_⟩
      · rw [List.append_nil]
        exact hrequests
      · rw [if_pos rfl]
        refine ⟨hr.2.behind hlog (by rw [hslot, fd_sent]), fun hcalm => ?_⟩
        exact absurd hr.1 (hq'.calm (hq.calm hcalm).2).1
  | false =>
      rw [hclosed, if_neg Bool.false_ne_true] at hr
      obtain ⟨hlog', hslot'⟩ := hr
      rw [if_neg Bool.false_ne_true]
      have hlogs : r.1.log = w.log ++ (q.effects ++ q'.effects) := by
        rw [hlog', hlog, List.append_assoc]
      rw [hslot] at hslot'
      have hsame : (w.slot h).Same (r.1.slot h) := by
        rw [hslot']
        exact (same_sent ..).trans (same_sent ..)
      have hnone : (r.1.slot h).high.chain = [] := by
        rw [hslot']
        rfl
      have hleft : (r.1.slot h).low.chain = q'.chain := by
        rw [hslot']
        rfl
      rw [← hleft] at hwaits'
      cases hhead : listUncomplete (r.1.slot h).low with
      | false =>
          obtain rfl := hwaits'.of_complete hhead
          rw [if_neg Bool.false_ne_true]
          refine .pure ⟨q.effects ++ q'.effects, gone ++ gone', [], rest', 0, hquiet, ⟨_, hbytes⟩,
            hrequests, hboth, Or.inl rfl, ?_, ?_⟩
          · intro r hr
            rw [hlow]
            exact List.mem_append_right _ hr
          · rw [if_neg Bool.false_ne_true, hnone]
            exact ⟨hlogs, .nil, hwaits', hsame⟩
      | true =>
          rw [if_pos rfl]
          cases hchain : (r.1.slot h).low.chain with
          | nil =>
              unfold listUncomplete at hhead
              rw [hchain] at hhead
              cases hhead
          | cons tmp chain =>
              rw [raiseUncomplete_eq hchain hnone]
              rw [hchain] at hwaits'
              cases hwaits' with
              | @cons _ _ r' _ rs hbuffer hptr hsz hk hrest =>
                  have hfirst : begun k2 [r'] = begun k2 (r' :: rs) := by
                    rw [begun_cons (by omega), begun_cons (by omega)]
                  refine .pure ⟨q.effects ++ q'.effects, gone ++ gone', [r'], rs, k2, hquiet,
                    ⟨_, hbytes⟩, hrequests, ?_, ?_, ?_, ?_⟩
                  · rw [hfirst]
                    exact hboth
                  · exact hk.imp_right fun hlt => ⟨r', [], rfl, hlt⟩
                  · intro r hr
                    rw [hlow]
                    exact List.mem_append_right _ (List.mem_cons_of_mem _ hr)
                  · rw [if_neg Bool.false_ne_true, Sockets.set_slot]
                    refine ⟨hlogs, .cons hbuffer hptr hsz hk .nil, hrest, ?_⟩
                    exact hsame.trans ⟨rfl, rfl, rfl, rfl⟩

theorem sendBuffer_flows {high low : List Request} (htcp : (w.slot h).protocol = .tcp)
    (htype : (w.slot h).type ≠ .invalid) (hhigh : Waits k (w.slot h).high.chain high)
    (hlow : Waits 0 (w.slot h).low.chain low) :
    (w.sendBuffer h ws).Ensures fun r =>
      ∃ es gone high' low' k', Flows h w ws k high low r es gone high' low' k' := by
  unfold Sockets.sendBuffer
  refine .bind .assert fun _ _ => ?_
  refine .bind (sendList_goes htcp htype hhigh) fun r hr => ?_
  obtain ⟨q, hq, hws, hr⟩ := hr
  change Goes (w.slot h).fd ws k (w.slot h).high.chain high q at hq
  dsimp only
  obtain ⟨gone, rest, k', hrest, hwaits, hout⟩ := hq.whole
  have hbytes : streamOf (w.slot h).fd q.effects <+:
      (w.slot h).high.chain.flatMap WriteBuffer.bytes ++
        (w.slot h).low.chain.flatMap WriteBuffer.bytes := by
    rw [← hq.bytes, List.append_assoc]
    exact List.prefix_append ..
  have hrequests : high ++ low = gone ++ (rest ++ low) := by
    rw [hrest, List.append_assoc]
  cases hclosed : r.2.1 with
  | true =>
      rw [hclosed, if_pos rfl] at hr
      rw [if_pos rfl]
      refine .pure ⟨q.effects, gone, rest, low, k', hq.quiet, hbytes, hrequests, hout,
        hwaits.part, fun _ hmem => hmem, ?_⟩
      rw [if_pos rfl]
      exact ⟨hr.2, fun hcalm => absurd hr.1 (hq.calm hcalm).1⟩
  | false =>
      rw [hclosed, if_neg Bool.false_ne_true] at hr
      obtain ⟨hlog, hslot⟩ := hr
      rw [if_neg Bool.false_ne_true]
      have hsame : (w.slot h).Same (r.1.slot h) := by
        rw [hslot]
        exact same_sent ..
      have hfirst : (r.1.slot h).high.chain = q.chain := by
        rw [hslot]
        rfl
      have hsecond : (r.1.slot h).low = (w.slot h).low := by
        rw [hslot]
        rfl
      have hwaits' : Waits k' (r.1.slot h).high.chain rest := by
        rw [hfirst]
        exact hwaits
      split
      · rename_i hnil
        have hnil' : q.chain = [] := hfirst.symm.trans hnil
        split
        · have htcp' : (r.1.slot h).protocol = .tcp := hsame.protocol.trans htcp
          have htype' : (r.1.slot h).type ≠ .invalid := by
            rw [hsame.type]
            exact htype
          have hlow' : Waits 0 ((r.1.slot h).list .low).chain low := by
            change Waits 0 (r.1.slot h).low.chain low
            rw [hsecond]
            exact hlow
          refine .bind (sendList_goes htcp' htype' hlow') fun r' hr' => ?_
          obtain ⟨q', hq', _, hr'⟩ := hr'
          rw [hsame.fd] at hq' hr'
          rw [hws] at hq'
          have hchain : ((r.1.slot h).list .low).chain = (w.slot h).low.chain :=
            congrArg WbList.chain hsecond
          rw [hchain] at hq'
          rw [hnil'] at hslot
          exact afterHigh_flows hq hnil' hlog hslot hq' hr'
        · rename_i hempty
          rw [not_not, hsecond] at hempty
          rw [hempty] at hlow
          rw [hnil] at hwaits'
          obtain ⟨rfl, rfl⟩ := hwaits'.of_nil
          obtain ⟨_, rfl⟩ := hlow.of_nil
          have hlog' : (r.1.spWrite (r.1.slot h).fd h false).log = w.log ++ q.effects := by
            rw [Sockets.spWrite_log, hlog]
          split
          · refine .bind (forceClose_shuts ?_ (w.slot h).fd) fun w' hw' => ?_
            · rw [Sockets.spWrite_slot, hsame.type]
              exact htype
            · have hshuts : Shuts h (w.slot h).fd w (q.effects ++ []) w' := by
                apply hw'.behind hlog'
                rw [Sockets.spWrite_slot, hsame.fd]
              rw [List.append_nil] at hshuts
              refine .pure ⟨q.effects, gone, [], [], 0, hq.quiet, hbytes, hrequests, hout,
                Or.inl rfl, fun _ hmem => hmem, ?_⟩
              rw [if_pos rfl]
              exact ⟨hshuts, fun _ => ⟨rfl, rfl⟩⟩
          · refine .pure ⟨q.effects, gone, [], [], 0, hq.quiet, hbytes, hrequests, hout,
              Or.inl rfl, fun _ hmem => hmem, ?_⟩
            rw [if_neg Bool.false_ne_true, Sockets.spWrite_slot, hnil, hsecond, hempty]
            exact ⟨hlog', .nil, .nil, hsame⟩
      · refine .pure ⟨q.effects, gone, rest, low, k', hq.quiet, hbytes, hrequests, hout,
          hwaits.part, fun _ hmem => hmem, ?_⟩
        rw [if_neg Bool.false_ne_true, hsecond]
        exact ⟨hlog, hwaits', hlow, hsame⟩

end Slot

/-! ## Runs -/

/-- `out` is whole buffers of the accepted requests and at most a part of one more, and in each
priority they come in the order of the requests. -/
def Written (accepted : List Request) (out : List (Nat × Int)) : Prop :=
  ∃ (done : List Request) (part : Option Request) (k : Nat),
    out = done.flatMap Request.bytes ++ part.elim [] (fun r => r.bytes.take k) ∧
    (∀ r ∈ part, k < r.sz) ∧ ∀ p, (done ++ part.toList).filter (·.priority = p) <+:
      accepted.filter (·.priority = p)

/-- All accepted requests went out in full. -/
def Complete (accepted : List Request) (out : List (Nat × Int)) : Prop :=
  ∃ done : List Request, out = done.flatMap Request.bytes ∧
    ∀ p, done.filter (·.priority = p) = accepted.filter (·.priority = p)

/-- Nothing goes out through `fd` after it was closed. -/
def SilentAfter (fd : Int) (log : List Effect) : Prop :=
  streamOf fd (log.dropWhile (· ≠ .close fd)) = []

/-- `send_socket` takes the request. -/
def Socket.takes (s : Socket) : Bool := s.type ≠ .invalid ∧ s.type ≠ .halfclose

/-- What is done with the TCP socket `id`, and the requests that it accepts by that: a request, a
write event, a request to close it, or what is done with other sockets. If `calm`, the kernel
reports no errors. -/
inductive TcpStep (calm : Prop) (id : Int) (w : Sockets) : List Request → Sockets → Prop
  | send (p : Priority) (buffer sz : Nat) (address : Option (List UInt8)) (ws : WriteResult)
      {r : Sockets × Bool} (hcalm : calm → ws ≠ .error)
      (hrun : w.sendSocket id buffer sz p address ws = .ok r) :
      TcpStep calm id w (if (w.slot (hashId id)).takes then [⟨p, buffer, sz⟩] else []) r.1
  | event (k : Answers) {r : Sockets × Option Event × Poll}
      (hcalm : calm → k.connectError = false ∧ ∀ a ∈ k.ws, a ≠ .error)
      (hrun : w.handleEvent (hashId id) ⟨some (hashId id), false, true⟩ k = .ok r) :
      TcpStep calm id w [] r.1
  | close (opaqueData : Nat) (ws : List WriteResult) {r : Sockets × Poll}
      (hcalm : calm → ∀ a ∈ ws, a ≠ .error)
      (hrun : w.closeSocket id opaqueData ws = .ok r) : TcpStep calm id w [] r.1
  | other {w' : Sockets} {es : List Effect}
      (hsame : (w.slot (hashId id)).Same (w'.slot (hashId id)))
      (hhigh : (w'.slot (hashId id)).high = (w.slot (hashId id)).high)
      (hlow : (w'.slot (hashId id)).low = (w.slot (hashId id)).low) (hlog : w'.log = w.log ++ es)
      (hes : ∀ e ∈ es, e.bytes (w.slot (hashId id)).fd = [] ∧
        e ≠ .close (w.slot (hashId id)).fd) : TcpStep calm id w [] w'

/-- Some of these in a row, with all the requests that the socket accepted. -/
inductive TcpRun (calm : Prop) (id : Int) (w : Sockets) : List Request → Sockets → Prop
  | start : TcpRun calm id w [] w
  | step {accepted new : List Request} {w' w'' : Sockets} (hw : TcpRun calm id w accepted w')
      (hstep : TcpStep calm id w' new w'') : TcpRun calm id w (accepted ++ new) w''

/-- A TCP socket with nothing to send, through whose descriptor nothing was written. -/
structure Sockets.Begins (w : Sockets) (id : Int) : Prop where
  type : (w.slot (hashId id)).type = .connecting ∨ (w.slot (hashId id)).type = .connected ∨
    (w.slot (hashId id)).type = .bind
  holds : (w.slot (hashId id)).id = id
  protocol : (w.slot (hashId id)).protocol = .tcp
  empty : (w.slot (hashId id)).high.chain = [] ∧ (w.slot (hashId id)).low.chain = []
  stream : streamOf (w.slot (hashId id)).fd w.log = []
  quiet : .close (w.slot (hashId id)).fd ∉ w.log

/-- The socket is open: what went out, and what waits in its lists. -/
structure Lined (id fd : Int) (w : Sockets) (accepted done high low : List Request) (k : Nat) :
    Prop where
  type : (w.slot (hashId id)).type = .connecting ∨ (w.slot (hashId id)).type = .connected ∨
    (w.slot (hashId id)).type = .halfclose ∨ (w.slot (hashId id)).type = .bind
  holds : (w.slot (hashId id)).id = id
  protocol : (w.slot (hashId id)).protocol = .tcp
  own : (w.slot (hashId id)).fd = fd
  quiet : .close fd ∉ w.log
  first : Waits k (w.slot (hashId id)).high.chain high
  second : Waits 0 (w.slot (hashId id)).low.chain low
  out : streamOf fd w.log = done.flatMap Request.bytes ++ begun k high
  order (p : Priority) : accepted.filter (·.priority = p) =
    (done ++ (high ++ low)).filter (·.priority = p)
  lows : ∀ r ∈ low, r.priority = .low

/-- The socket was closed. -/
structure Ended (calm : Prop) (id fd : Int) (w : Sockets) (accepted : List Request) : Prop where
  type : (w.slot (hashId id)).type = .invalid
  silent : SilentAfter fd w.log
  written : Written accepted (streamOf fd w.log)
  complete : calm → Complete accepted (streamOf fd w.log)
  own : (w.slot (hashId id)).fd = fd

/-- What a step puts out is what waits in the high list and, when all of that went out, in the low
list; or it is of a request that comes when nothing waits. -/
def InTurn (id : Int) (w : Sockets) (new : List Request) (out : List (Nat × Int)) : Prop :=
  let s := w.slot (hashId id)
  out <+: s.high.chain.flatMap WriteBuffer.bytes ++ s.low.chain.flatMap WriteBuffer.bytes ∨
    s.sendBufferEmpty = true ∧ ∃ r, new = [r] ∧ out <+: r.bytes

/-- After a step -/
def Advances (calm : Prop) (id fd : Int) (w : Sockets) (accepted new : List Request)
    (w' : Sockets) : Prop :=
  ((∃ done high low k, Lined id fd w' (accepted ++ new) done high low k) ∨
    Ended calm id fd w' (accepted ++ new)) ∧
  ∃ out, streamOf fd w'.log = streamOf fd w.log ++ out ∧ InTurn id w new out

section Run

variable {calm : Prop} {id fd : Int} {w w' : Sockets}
  {accepted new done high low : List Request} {k : Nat} {es : List Effect}

theorem written_of (hk : k = 0 ∨ ∃ r rest, high = r :: rest ∧ k < r.sz)
    (horder : ∀ p, (done ++ (high ++ low)).filter (·.priority = p) <+:
      accepted.filter (·.priority = p)) :
    Written accepted (done.flatMap Request.bytes ++ begun k high) := by
  cases hk with
  | inl hzero =>
      refine ⟨done, none, 0, ?_, by simp, fun p => ?_⟩
      · rw [hzero]
        rfl
      · rw [Option.toList_none, List.append_nil]
        have hall := horder p
        rw [List.filter_append] at hall
        exact (List.prefix_append ..).trans hall
  | inr hpart =>
      obtain ⟨r, rest, rfl, hlt⟩ := hpart
      refine ⟨done, some r, k, ?_, ?_, fun p => ?_⟩
      · congr 1
        rw [begun, List.flatMap_cons, List.take_append_of_le_length]
        · rfl
        · rw [length_bytes]
          exact Nat.le_of_lt hlt
      · intro r' hr'
        obtain rfl := Option.mem_some_iff.mp hr'
        exact hlt
      · have hall := horder p
        have hsplit : done ++ (r :: rest ++ low) = (done ++ [r]) ++ (rest ++ low) := by simp
        rw [hsplit, List.filter_append] at hall
        exact (List.prefix_append ..).trans hall

theorem Lined.written (hw : Lined id fd w accepted done high low k) :
    Written accepted (streamOf fd w.log) := by
  have horder : ∀ p, (done ++ (high ++ low)).filter (·.priority = p) <+:
      accepted.filter (·.priority = p) := by
    intro p
    exact (hw.order p).symm ▸ List.prefix_rfl
  rw [hw.out]
  exact written_of hw.first.part horder

theorem silentAfter_of_not_mem {log : List Effect} (hlog : .close fd ∉ log) :
    SilentAfter fd log := by
  have hnil : log.dropWhile (· ≠ .close fd) = [] := by
    apply List.dropWhile_eq_nil_iff.mpr
    intro e he
    have hne : e ≠ .close fd := fun heq => hlog (heq ▸ he)
    simpa using hne
  rw [SilentAfter, hnil]
  rfl

theorem SilentAfter.append {log : List Effect} (hlog : SilentAfter fd log)
    (hes : streamOf fd es = []) : SilentAfter fd (log ++ es) := by
  have hpart : streamOf fd (es.dropWhile (· ≠ .close fd)) = [] := by
    have hsplit : streamOf fd (es.takeWhile (· ≠ .close fd)) ++
        streamOf fd (es.dropWhile (· ≠ .close fd)) = [] := by
      rw [← streamOf_append, List.takeWhile_append_dropWhile]
      exact hes
    exact (List.append_eq_nil_iff.mp hsplit).2
  unfold SilentAfter at hlog ⊢
  rw [List.dropWhile_append]
  split
  · exact hpart
  · rw [streamOf_append, hlog, hes]
    rfl

theorem Lined.complete (hw : Lined id fd w accepted done [] [] k) :
    Complete accepted (streamOf fd w.log) := by
  refine ⟨done, ?_, fun p => ?_⟩
  · rw [hw.out, begun, List.flatMap_nil, List.take_nil, List.append_nil]
  · rw [hw.order p, List.append_nil, List.append_nil]

variable {ws : List WriteResult} {r : Sockets × Bool} {gone high' low' : List Request} {k' : Nat}

theorem Socket.Same.refl (s : Socket) : s.Same s := ⟨rfl, rfl, rfl, rfl⟩

/-- The socket is the same but for what waits in its lists. -/
theorem Lined.still {done' : List Request} (hw : Lined id fd w accepted done high low k)
    (hsame : (w.slot (hashId id)).Same (w'.slot (hashId id))) (hlog : w'.log = w.log ++ es)
    (hquiet : .close fd ∉ es) (hfirst : Waits k' (w'.slot (hashId id)).high.chain high')
    (hsecond : Waits 0 (w'.slot (hashId id)).low.chain low')
    (hout : streamOf fd (w.log ++ es) = done'.flatMap Request.bytes ++ begun k' high')
    (horder : ∀ p, new.filter (·.priority = p) =
      (done' ++ (high' ++ low')).filter (·.priority = p))
    (hlows : ∀ r ∈ low', r.priority = .low) : Lined id fd w' new done' high' low' k' := by
  refine ⟨?_, hsame.id.trans hw.holds, hsame.protocol.trans hw.protocol, hsame.fd.trans hw.own,
    ?_, hfirst, hsecond, ?_, horder, hlows⟩
  · rw [hsame.type]
    exact hw.type
  · rw [hlog]
    intro hmem
    exact (List.mem_append.mp hmem).elim hw.quiet hquiet
  · rw [hlog]
    exact hout

theorem Flows.stream (hr : Flows (hashId id) w ws k high low r es gone high' low' k')
    (hw : Lined id fd w accepted done high low k) :
    streamOf fd (w.log ++ es) = (done ++ gone).flatMap Request.bytes ++ begun k' high' := by
  have hout := hr.out
  rw [hw.own] at hout
  rw [streamOf_append, hw.out, List.append_assoc, hout, ← List.append_assoc, List.flatMap_append]

theorem Flows.order (hr : Flows (hashId id) w ws k high low r es gone high' low' k')
    (hw : Lined id fd w accepted done high low k) (p : Priority) :
    accepted.filter (·.priority = p) =
      ((done ++ gone) ++ (high' ++ low')).filter (·.priority = p) := by
  rw [hw.order p, hr.requests, List.append_assoc]

/-- The socket is still open after `send_buffer`. -/
theorem Flows.lined (hr : Flows (hashId id) w ws k high low r es gone high' low' k')
    (hw : Lined id fd w accepted done high low k) (hopen : r.2 = false) :
    Lined id fd r.1 accepted (done ++ gone) high' low' k' := by
  have hends := hr.ends
  rw [hopen, if_neg Bool.false_ne_true] at hends
  obtain ⟨hlog, hfirst, hsecond, hsame⟩ := hends
  have hquiet : .close fd ∉ es := by
    rw [← hw.own]
    exact hr.quiet
  exact hw.still hsame hlog hquiet hfirst hsecond (hr.stream hw) (hr.order hw)
    fun r hmem => hw.lows r (hr.lows r hmem)

/-- The effects `es` came before the socket was closed. -/
theorem Shuts.ended (hs : Shuts (hashId id) fd w es w') (hfd : (w.slot (hashId id)).fd = fd)
    (hquiet : .close fd ∉ w.log ++ es) (hwritten : Written accepted (streamOf fd (w.log ++ es)))
    (hcomplete : calm → Complete accepted (streamOf fd (w.log ++ es))) :
    Ended calm id fd w' accepted ∧ streamOf fd w'.log = streamOf fd (w.log ++ es) := by
  obtain ⟨fs, hlog, hnone⟩ := hs.log
  rw [← List.append_assoc] at hlog
  have hstream : streamOf fd w'.log = streamOf fd (w.log ++ es) := by
    rw [hlog, streamOf_append, hnone, List.append_nil]
  refine ⟨⟨hs.type, ?_, ?_, ?_, hs.own.trans hfd⟩, hstream⟩
  · rw [hlog]
    exact (silentAfter_of_not_mem hquiet).append hnone
  · rw [hstream]
    exact hwritten
  · rw [hstream]
    exact hcomplete

/-- The socket was closed by `send_buffer`. -/
theorem Flows.ended (hr : Flows (hashId id) w ws k high low r es gone high' low' k')
    (hw : Lined id fd w accepted done high low k) (hclosed : r.2 = true)
    (hcalm : calm → ∀ a ∈ ws, a ≠ .error) : Ended calm id fd r.1 accepted ∧
      streamOf fd r.1.log = streamOf fd w.log ++ streamOf fd es := by
  have hends := hr.ends
  rw [hclosed, if_pos rfl, hw.own] at hends
  obtain ⟨hshuts, hall⟩ := hends
  have hquiet : .close fd ∉ w.log ++ es := by
    intro hmem
    apply (List.mem_append.mp hmem).elim hw.quiet
    rw [← hw.own]
    exact hr.quiet
  have horder : ∀ p, ((done ++ gone) ++ (high' ++ low')).filter (·.priority = p) <+:
      accepted.filter (·.priority = p) := by
    intro p
    exact (hr.order hw p).symm ▸ List.prefix_rfl
  rw [← streamOf_append]
  apply hshuts.ended hw.own hquiet
  · rw [hr.stream hw]
    exact written_of hr.part horder
  · intro hc
    obtain ⟨rfl, rfl⟩ := hall (hcalm hc)
    refine ⟨done ++ gone, ?_, fun p => ?_⟩
    · rw [hr.stream hw, begun, List.flatMap_nil, List.take_nil, List.append_nil]
    · rw [hr.order hw p, List.append_nil, List.append_nil]

/-! ## Steps -/

/-- Of what waits, nothing goes out. -/
theorem inTurn_nil (id : Int) (w : Sockets) (new : List Request) : InTurn id w new [] :=
  Or.inl List.nil_prefix

theorem advances_lined {w' : Sockets} {out : List (Nat × Int)}
    (hw' : Lined id fd w' accepted done high low k)
    (hout : streamOf fd w'.log = streamOf fd w.log ++ out) (hturn : InTurn id w [] out) :
    Advances calm id fd w accepted [] w' := by
  refine ⟨Or.inl ⟨done, high, low, k, ?_⟩, out, hout, hturn⟩
  rw [List.append_nil]
  exact hw'

theorem advances_ended {w' : Sockets} {out : List (Nat × Int)}
    (hw' : Ended calm id fd w' accepted)
    (hout : streamOf fd w'.log = streamOf fd w.log ++ out) (hturn : InTurn id w [] out) :
    Advances calm id fd w accepted [] w' := by
  refine ⟨Or.inr ?_, out, hout, hturn⟩
  rw [List.append_nil]
  exact hw'

theorem Lined.live (hw : Lined id fd w accepted done high low k) :
    (w.slot (hashId id)).type ≠ .invalid := by
  intro htype
  have hopen := hw.type
  rw [htype] at hopen
  simp at hopen

/-- Only the type of the slot changes. -/
theorem Lined.retyped {type : SocketType} (hw : Lined id fd w accepted done high low k)
    (htype : type = .connected ∨ type = .halfclose) (hlog : w'.log = w.log)
    (hslot : w'.slot (hashId id) = { w.slot (hashId id) with type := type }) :
    Lined id fd w' accepted done high low k := by
  refine ⟨?_, ?_, ?_, ?_, ?_, ?_, ?_, ?_, hw.order, hw.lows⟩
  · rw [hslot]
    cases htype with
    | inl heq => exact Or.inr (Or.inl heq)
    | inr heq => exact Or.inr (Or.inr (Or.inl heq))
  · rw [hslot]
    exact hw.holds
  · rw [hslot]
    exact hw.protocol
  · rw [hslot]
    exact hw.own
  · rw [hlog]
    exact hw.quiet
  · rw [hslot]
    exact hw.first
  · rw [hslot]
    exact hw.second
  · rw [hlog]
    exact hw.out

/-- The socket is closed with nothing more. -/
theorem Lined.shut (hw : Lined id fd w accepted done high low k)
    (hs : Shuts (hashId id) fd w [] w') (hcomplete : calm → high = [] ∧ low = []) :
    Ended calm id fd w' accepted ∧ streamOf fd w'.log = streamOf fd w.log := by
  have hended : .close fd ∉ w.log ++ [] → Written accepted (streamOf fd (w.log ++ [])) →
      (calm → Complete accepted (streamOf fd (w.log ++ []))) →
      Ended calm id fd w' accepted ∧ streamOf fd w'.log = streamOf fd (w.log ++ []) :=
    hs.ended hw.own
  rw [List.append_nil] at hended
  apply hended hw.quiet hw.written
  intro hc
  obtain ⟨rfl, rfl⟩ := hcomplete hc
  exact hw.complete

theorem sendBuffer_advances (hw : Lined id fd w accepted done high low k)
    (hcalm : calm → ∀ a ∈ ws, a ≠ .error) :
    (w.sendBuffer (hashId id) ws).Ensures fun r => (∃ out done' high' low' k',
      streamOf fd r.1.log = streamOf fd w.log ++ out ∧ InTurn id w [] out ∧
      if r.2 then Ended calm id fd r.1 accepted
      else Lined id fd r.1 accepted done' high' low' k') := by
  refine (sendBuffer_flows hw.protocol hw.live hw.first hw.second).mono ?_
  intro r hr
  obtain ⟨es, gone, high', low', k', hflows⟩ := hr
  have hturn : InTurn id w [] (streamOf fd es) := by
    have hbytes := hflows.bytes
    rw [hw.own] at hbytes
    exact Or.inl hbytes
  refine ⟨streamOf fd es, done ++ gone, high', low', k', ?_, hturn, ?_⟩
  · cases hclosed : r.2 with
    | true =>
        have hany : False → ∀ a ∈ ws, a ≠ .error := False.elim
        exact (hflows.ended hw hclosed hany).2
    | false =>
        have hends := hflows.ends
        rw [hclosed, if_neg Bool.false_ne_true] at hends
        rw [hends.1, streamOf_append]
  · cases hclosed : r.2 with
    | true => exact (hflows.ended hw hclosed hcalm).1
    | false => exact hflows.lined hw hclosed

theorem reportConnect_advances (hw : Lined id fd w accepted done high low k) (answers : Answers)
    (hcalm : calm → answers.connectError = false) :
    (w.reportConnect (hashId id) answers).Ensures
      fun r => Advances calm id fd w accepted [] r.1 := by
  unfold Sockets.reportConnect
  dsimp only
  split
  · rename_i herror
    refine .bind (forceClose_shuts hw.live fd) fun w' hw' => ?_
    apply Outcome.Ensures.pure
    have hnever : calm → high = [] ∧ low = [] := by
      intro hc
      rw [hcalm hc] at herror
      cases herror
    obtain ⟨hended, hout⟩ := hw.shut hw' hnever
    exact advances_ended hended (by rw [hout, List.append_nil]) (inTurn_nil ..)
  · apply Outcome.Ensures.pure
    have hlog : (if (w.slot (hashId id)).sendBufferEmpty = true then
        (w.setType (hashId id) .connected).spWrite (w.slot (hashId id)).fd (hashId id) false
        else w.setType (hashId id) .connected).log = w.log := by
      split
      · rw [Sockets.spWrite_log]
        rfl
      · rfl
    have hslot : (if (w.slot (hashId id)).sendBufferEmpty = true then
        (w.setType (hashId id) .connected).spWrite (w.slot (hashId id)).fd (hashId id) false
        else w.setType (hashId id) .connected).slot (hashId id) =
        { w.slot (hashId id) with type := .connected } := by
      split
      · rw [Sockets.spWrite_slot, Sockets.setType_slot]
      · rw [Sockets.setType_slot]
    apply advances_lined (hw.retyped (Or.inl rfl) hlog hslot)
    · rw [hlog, List.append_nil]
    · exact inTurn_nil ..

theorem event_advances (hw : Lined id fd w accepted done high low k) (answers : Answers)
    (hcalm : calm → answers.connectError = false ∧ ∀ a ∈ answers.ws, a ≠ .error) :
    (w.handleEvent (hashId id) ⟨some (hashId id), false, true⟩ answers).Ensures
      fun r => Advances calm id fd w accepted [] r.1 := by
  have hopen := hw.type
  unfold Sockets.handleEvent
  dsimp only
  split
  · refine .bind (reportConnect_advances hw answers fun hc => (hcalm hc).1) fun r hr => ?_
    exact .pure hr
  · rename_i htype
    rw [htype] at hopen
    simp at hopen
  · rename_i htype
    exact absurd htype hw.live
  · rw [if_neg Bool.false_ne_true, if_pos rfl]
    refine .bind (sendBuffer_advances hw fun hc => (hcalm hc).2) fun r hr => ?_
    obtain ⟨out, done', high', low', k', hout, hturn, hend⟩ := hr
    apply Outcome.Ensures.pure
    cases hclosed : r.2 with
    | true =>
        rw [hclosed, if_pos rfl] at hend
        exact advances_ended hend hout hturn
    | false =>
        rw [hclosed, if_neg Bool.false_ne_true] at hend
        exact advances_lined hend hout hturn

theorem lists_of_empty (hw : Lined id fd w accepted done high low k)
    (hempty : (w.slot (hashId id)).sendBufferEmpty = true) : high = [] ∧ low = [] := by
  unfold Socket.sendBufferEmpty at hempty
  rw [Bool.and_eq_true, List.isEmpty_iff, List.isEmpty_iff] at hempty
  have hfirst := hw.first
  have hsecond := hw.second
  rw [hempty.1] at hfirst
  rw [hempty.2] at hsecond
  exact ⟨hfirst.of_nil.2, hsecond.of_nil.2⟩

/-- `close_socket` when its `send_buffer` did not close -/
theorem afterClose_advances {w1 : Sockets} {out : List (Nat × Int)} {a b : Poll}
    (hw1 : Lined id fd w1 accepted done high low k)
    (hout : streamOf fd w1.log = streamOf fd w.log ++ out) (hturn : InTurn id w [] out) :
    (if (w1.slot (hashId id)).sendBufferEmpty = true then do
        let w' ← w1.forceClose (hashId id)
        pure (w', a)
      else pure (w1.setType (hashId id) .halfclose, b) : M (Sockets × Poll)).Ensures
      fun r => Advances calm id fd w accepted [] r.1 := by
  split
  · rename_i hempty
    refine .bind (forceClose_shuts hw1.live fd) fun w' hw' => ?_
    apply Outcome.Ensures.pure
    obtain ⟨hended, hlast⟩ := hw1.shut hw' fun _ : calm => lists_of_empty hw1 hempty
    exact advances_ended hended (hlast.trans hout) hturn
  · apply Outcome.Ensures.pure
    have hslot := Sockets.setType_slot w1 (hashId id) .halfclose
    exact advances_lined (hw1.retyped (Or.inr rfl) rfl hslot) hout hturn

theorem close_advances (hw : Lined id fd w accepted done high low k) (opaqueData : Nat)
    (hcalm : calm → ∀ a ∈ ws, a ≠ .error) :
    (w.closeSocket id opaqueData ws).Ensures
      fun r => Advances calm id fd w accepted [] r.1 := by
  unfold Sockets.closeSocket
  dsimp only
  rw [if_neg (not_or.mpr ⟨hw.live, not_not_intro hw.holds⟩)]
  split
  · exact afterClose_advances hw (List.append_nil _).symm (inTurn_nil ..)
  · refine .bind (sendBuffer_advances hw hcalm) fun r hr => ?_
    obtain ⟨out, done', high', low', k', hout, hturn, hend⟩ := hr
    obtain ⟨w1, closed⟩ := r
    cases closed with
    | true => exact .pure (advances_ended hend hout hturn)
    | false => exact afterClose_advances hend hout hturn

/-- Nothing is done with the socket. -/
theorem Lined.other (hw : Lined id fd w accepted done high low k)
    (hsame : (w.slot (hashId id)).Same (w'.slot (hashId id)))
    (hhigh : (w'.slot (hashId id)).high = (w.slot (hashId id)).high)
    (hlow : (w'.slot (hashId id)).low = (w.slot (hashId id)).low) (hlog : w'.log = w.log ++ es)
    (hout : streamOf fd es = []) (hquiet : .close fd ∉ es) :
    Lined id fd w' accepted done high low k := by
  apply hw.still hsame hlog hquiet
  · rw [hhigh]
    exact hw.first
  · rw [hlow]
    exact hw.second
  · rw [streamOf_append, hout, List.append_nil]
    exact hw.out
  · exact hw.order
  · exact hw.lows

theorem sendObjectInit_plain (soi : ObjectInterface) (buffer sz : Nat) :
    sendObjectInit soi buffer sz = ⟨0, sz, false⟩ := by
  unfold sendObjectInit
  rw [if_neg (Int.not_lt.mpr (Int.natCast_nonneg sz))]
  rfl

/-- What `append_sendbuffer_` does with a plain buffer, of which `n` bytes went out. -/
theorem appendSendbuffer_plain (w : Sockets) (h : Nat) (p : Priority) (buffer sz n : Nat)
    (address : List UInt8) :
    (w.appendSendbuffer h p buffer sz n address).Ensures fun w' => w'.log = w.log ∧
      ∃ (wb : WriteBuffer) (m : Int), wb.buffer = buffer ∧ wb.ptr = (n : Int) ∧ wb.sz = sz - n ∧
        w'.slot h = { (w.slot h).setList (((w.slot h).list p).append wb) p with wbSize := m } := by
  unfold Sockets.appendSendbuffer
  rw [sendObjectInit_plain]
  have hdone : ∀ wb : WriteBuffer, wb.buffer = buffer ∧ wb.ptr = (n : Int) ∧ wb.sz = sz - n →
      ∀ m, ∃ (wb' : WriteBuffer) (m' : Int), wb'.buffer = buffer ∧ wb'.ptr = (n : Int) ∧
        wb'.sz = sz - n ∧ ({ w with node := w.node + 1 }.set h
          { (w.slot h).setList (((w.slot h).list p).append wb) p with wbSize := m }).slot h =
          { (w.slot h).setList (((w.slot h).list p).append wb') p with wbSize := m' } :=
    fun wb hwb m => ⟨wb, m, hwb.1, hwb.2.1, hwb.2.2, Sockets.set_slot ..⟩
  dsimp only
  split
  · refine .bind .assert fun _ _ => ?_
    exact .pure ⟨rfl, hdone _ ⟨rfl, zero_add _, rfl⟩ _⟩
  · exact .pure ⟨rfl, hdone _ ⟨rfl, zero_add _, rfl⟩ _⟩

theorem same_append (s : Socket) (p : Priority) (wb : WriteBuffer) (m : Int) :
    s.Same { s.setList ((s.list p).append wb) p with wbSize := m } := by
  cases p with
  | high => exact ⟨rfl, rfl, rfl, rfl⟩
  | low => exact ⟨rfl, rfl, rfl, rfl⟩

/-- A request gets to the end of a list. -/
theorem Lined.queued {r : Request} {wb : WriteBuffer} {m : Int}
    (hw : Lined id fd w accepted done high low k) (hlog : w'.log = w.log)
    (hbuffer : wb.buffer = r.buffer) (hptr : wb.ptr = 0) (hsz : wb.sz = r.sz)
    (hslot : w'.slot (hashId id) = { (w.slot (hashId id)).setList
      (((w.slot (hashId id)).list r.priority).append wb) r.priority with wbSize := m }) :
    ∃ high' low', Lined id fd w' (accepted ++ [r]) done high' low' k := by
  have hsame : (w.slot (hashId id)).Same (w'.slot (hashId id)) := by
    rw [hslot]
    exact same_append ..
  have hlog' : w'.log = w.log ++ [] := by rw [hlog, List.append_nil]
  have hout : ∀ rest, streamOf fd (w.log ++ []) =
      done.flatMap Request.bytes ++ begun k (high ++ rest) := by
    intro rest
    rw [List.append_nil, begun_append hw.first]
    exact hw.out
  have hlows : low.filter (·.priority = .high) = [] := by
    apply List.filter_eq_nil_iff.mpr
    intro r' hr'
    rw [hw.lows r' hr']
    simp
  cases hp : r.priority with
  | high =>
      rw [hp] at hslot
      refine ⟨high ++ [r], low, hw.still hsame hlog' List.not_mem_nil ?_ ?_ (hout [r]) ?_ hw.lows⟩
      · rw [hslot]
        exact hw.first.append hbuffer hptr hsz
      · rw [hslot]
        exact hw.second
      · intro p
        rw [List.filter_append, hw.order p]
        simp only [List.filter_append]
        cases p with
        | high => rw [hlows, List.append_nil, List.append_nil, List.append_assoc]
        | low =>
            have hnone : [r].filter (·.priority = .low) = [] := by simp [hp]
            rw [hnone, List.append_nil, List.append_nil]
  | low =>
      rw [hp] at hslot
      have hout' := hout []
      rw [List.append_nil high] at hout'
      refine ⟨high, low ++ [r], hw.still hsame hlog' List.not_mem_nil ?_ ?_ hout' ?_ ?_⟩
      · rw [hslot]
        exact hw.first
      · rw [hslot]
        exact hw.second.append hbuffer hptr hsz
      · intro p
        rw [List.filter_append, hw.order p]
        simp only [List.filter_append, List.append_assoc]
      · intro r' hr'
        cases List.mem_append.mp hr' with
        | inl hold => exact hw.lows r' hold
        | inr hnew =>
            rw [List.mem_singleton.mp hnew]
            exact hp

theorem Waits.of_no_requests {chain : List WriteBuffer} (hw : Waits k chain []) :
    k = 0 ∧ chain = [] := by
  cases hw
  exact ⟨rfl, rfl⟩

/-- A request comes when nothing waits. -/
theorem order_one (hw : Lined id fd w accepted done [] [] k) (r : Request) (p : Priority) :
    (accepted ++ [r]).filter (·.priority = p) = (done ++ [r]).filter (·.priority = p) := by
  rw [List.filter_append, hw.order p, List.append_nil, List.append_nil, ← List.filter_append]

/-- The direct write takes the whole buffer. -/
theorem Lined.whole {r : Request} (hw : Lined id fd w accepted done [] [] k)
    (hslot : w'.slot (hashId id) = w.slot (hashId id))
    (hlog : w'.log = w.log ++ [.write fd r.buffer 0 r.sz, .free r.buffer false]) :
    Lined id fd w' (accepted ++ [r]) (done ++ [r]) [] [] 0 := by
  obtain ⟨rfl, hchain⟩ := hw.first.of_no_requests
  have hstream : streamOf fd [.write fd r.buffer 0 r.sz, .free r.buffer false] = r.bytes := by
    rw [← List.singleton_append, streamOf_append, streamOf_write]
    exact List.append_nil _
  have hsame : (w.slot (hashId id)).Same (w'.slot (hashId id)) := by
    rw [hslot]
    exact .refl _
  apply hw.still hsame hlog
  · simp
  · rw [hslot]
    exact hw.first
  · rw [hslot]
    exact hw.second
  · rw [streamOf_append, hw.out, hstream, begun_zero, List.append_nil, List.append_nil,
      List.flatMap_append, List.flatMap_singleton]
  · intro p
    rw [List.append_nil, List.append_nil]
    exact order_one hw r p
  · exact hw.lows

/-- The direct write takes a part of the buffer; the rest waits with high priority. -/
theorem Lined.partly {r : Request} {n : Nat} {wb : WriteBuffer} {m : Int}
    (hw : Lined id fd w accepted done [] [] k) (hn : n < r.sz)
    (hlog : w'.log = w.log ++ [.write fd r.buffer 0 n]) (hbuffer : wb.buffer = r.buffer)
    (hptr : wb.ptr = (n : Int)) (hsz : wb.sz = r.sz - n)
    (hslot : w'.slot (hashId id) = { (w.slot (hashId id)).setList
      (((w.slot (hashId id)).list .high).append wb) .high with wbSize := m }) :
    Lined id fd w' (accepted ++ [r]) done [r] [] n := by
  obtain ⟨rfl, hchain⟩ := hw.first.of_no_requests
  have hsame : (w.slot (hashId id)).Same (w'.slot (hashId id)) := by
    rw [hslot]
    exact same_append ..
  apply hw.still hsame hlog
  · simp
  · rw [hslot]
    change Waits n ((w.slot (hashId id)).high.chain ++ [wb]) [r]
    rw [hchain]
    exact .cons hbuffer hptr (by omega) (Or.inr hn) .nil
  · rw [hslot]
    exact hw.second
  · rw [streamOf_append, hw.out, begun_zero, List.append_nil, streamOf_write,
      begun_cons (Nat.le_of_lt hn)]
  · exact order_one hw r
  · exact hw.lows

/-- `send_socket` after its write -/
theorem afterWrite_advances {r : Request} {n : Nat} (hw : Lined id fd w accepted done high low k)
    (hempty : (w.slot (hashId id)).sendBufferEmpty = true) (hn : n ≤ r.sz) :
    (if n = r.sz then
        pure ((w.emit [.write fd r.buffer 0 n]).emit [.free r.buffer false], false)
      else do
        let w' ← (w.emit [.write fd r.buffer 0 n]).appendSendbuffer (hashId id) .high r.buffer
          r.sz n []
        pure (w'.spWrite fd (hashId id) true, false) : M (Sockets × Bool)).Ensures
      fun x => Advances calm id fd w accepted [r] x.1 := by
  obtain ⟨rfl, rfl⟩ := lists_of_empty hw hempty
  have hturn : InTurn id w [r] (bytesFrom r.buffer 0 n) := by
    have hpre : begun n [r] <+: [r].flatMap Request.bytes := List.take_prefix ..
    rw [begun_cons hn, List.flatMap_singleton] at hpre
    exact Or.inr ⟨hempty, r, rfl, hpre⟩
  split
  · rename_i hwhole
    subst hwhole
    apply Outcome.Ensures.pure
    refine ⟨Or.inl ⟨_, _, _, _, hw.whole rfl ?_⟩, _, ?_, hturn⟩
    · exact List.append_assoc ..
    · rw [Sockets.emit_log, Sockets.emit_log, streamOf_append, streamOf_append, streamOf_write]
      exact List.append_nil _
  · rename_i hpart
    refine .bind (appendSendbuffer_plain _ _ _ r.buffer r.sz n []) fun w' hw' => ?_
    obtain ⟨hlog, wb, m, hbuffer, hptr, hsz, hslot⟩ := hw'
    apply Outcome.Ensures.pure
    refine ⟨Or.inl ⟨_, _, _, _, hw.partly (by omega) ?_ hbuffer hptr hsz (m := m) ?_⟩, _, ?_,
      hturn⟩
    · rw [Sockets.spWrite_log, hlog]
      rfl
    · rw [Sockets.spWrite_slot, hslot]
      rfl
    · rw [Sockets.spWrite_log, hlog, Sockets.emit_log, streamOf_append, streamOf_write]

theorem Written.more {out : List (Nat × Int)} (h : Written accepted out) :
    Written (accepted ++ new) out := by
  obtain ⟨done, part, k, hout, hpart, horder⟩ := h
  refine ⟨done, part, k, hout, hpart, fun p => (horder p).trans ?_⟩
  rw [List.filter_append]
  exact List.prefix_append ..

theorem send_advances (hw : Lined id fd w accepted done high low k) (p : Priority)
    (buffer sz : Nat) (address : Option (List UInt8)) (ws : WriteResult)
    (hcalm : calm → ws ≠ .error) :
    (w.sendSocket id buffer sz p address ws).Ensures fun r => Advances calm id fd w accepted
      (if (w.slot (hashId id)).takes then [⟨p, buffer, sz⟩] else []) r.1 := by
  have hopen := hw.type
  unfold Sockets.sendSocket
  rw [sendObjectInit_plain]
  dsimp only
  split
  · rename_i hrefused
    have hhalf : (w.slot (hashId id)).type = .halfclose := by
      obtain hinvalid | hother | hhalf | hpaccept := hrefused
      · exact absurd hinvalid hw.live
      · exact absurd hw.holds hother
      · exact hhalf
      · rw [hpaccept] at hopen
        simp at hopen
    have hnot : (w.slot (hashId id)).takes = false := by
      unfold Socket.takes
      rw [hhalf]
      rfl
    rw [hnot, if_neg Bool.false_ne_true]
    apply Outcome.Ensures.pure
    have hlog : (w.emit [.free buffer false]).log = w.log ++ [.free buffer false] := rfl
    have hlined : Lined id fd (w.emit [.free buffer false]) accepted done high low k :=
      hw.other (.refl _) rfl rfl hlog rfl (by simp)
    apply advances_lined hlined _ (inTurn_nil ..)
    rw [Sockets.emit_log, streamOf_append]
    rfl
  · rename_i htaken
    simp only [not_or] at htaken
    have htakes : (w.slot (hashId id)).takes = true := by
      unfold Socket.takes
      exact decide_eq_true ⟨htaken.1, htaken.2.2.1⟩
    rw [htakes, if_pos rfl]
    refine .bind .assert fun _ _ => ?_
    split
    · rename_i hnow
      have hdirect : ∀ n, (Outcome.answers (n ≤ sz) : M Unit).bind (fun _ =>
          if n = sz then pure ((w.emit [.write fd buffer 0 n]).emit [.free buffer false], false)
          else do
            let w' ← (w.emit [.write fd buffer 0 n]).appendSendbuffer (hashId id) .high buffer
              sz n []
            pure (w'.spWrite fd (hashId id) true, false)) |>.Ensures
          fun r => Advances calm id fd w accepted [⟨p, buffer, sz⟩] r.1 := by
        intro n
        refine .bind .answers fun _ hn => ?_
        exact afterWrite_advances (r := ⟨p, buffer, sz⟩) hw hnow.1 hn
      rw [if_pos hw.protocol, hw.own]
      cases ws with
      | error =>
          refine .bind (forceClose_shuts hw.live fd) fun w' hw' => ?_
          have hended : .close fd ∉ w.log ++ [] →
              Written (accepted ++ [⟨p, buffer, sz⟩]) (streamOf fd (w.log ++ [])) →
              (calm → Complete (accepted ++ [⟨p, buffer, sz⟩]) (streamOf fd (w.log ++ []))) →
              Ended calm id fd w' (accepted ++ [⟨p, buffer, sz⟩]) ∧
                streamOf fd w'.log = streamOf fd (w.log ++ []) := hw'.ended hw.own
          rw [List.append_nil] at hended
          obtain ⟨hend, hout⟩ := hended hw.quiet hw.written.more fun hc => absurd rfl (hcalm hc)
          refine .pure ⟨Or.inr hend, [], ?_, inTurn_nil ..⟩
          rw [hout, List.append_nil]
      | ok n => exact hdirect n
      | eintr => exact hdirect 0
      | eagain => exact hdirect 0
    · refine .bind (appendSendbuffer_plain _ _ _ buffer sz 0 _) fun w' hw' => ?_
      obtain ⟨hlog, wb, m, hbuffer, hptr, hsz, hslot⟩ := hw'
      apply Outcome.Ensures.pure
      obtain ⟨high', low', hlined⟩ := hw.queued (r := ⟨p, buffer, sz⟩) hlog hbuffer hptr hsz hslot
      refine ⟨Or.inl ⟨_, _, _, _, hlined⟩, [], ?_, inTurn_nil ..⟩
      rw [hlog, List.append_nil]

/-- Nothing more goes out through the descriptor of a closed socket. -/
theorem Ended.other (hw : Ended calm id fd w accepted)
    (htype : (w'.slot (hashId id)).type = (w.slot (hashId id)).type)
    (hown : (w'.slot (hashId id)).fd = (w.slot (hashId id)).fd) (hlog : w'.log = w.log ++ es)
    (hout : streamOf fd es = []) : Advances calm id fd w accepted [] w' := by
  have hstream : streamOf fd w'.log = streamOf fd w.log := by
    rw [hlog, streamOf_append, hout, List.append_nil]
  have hended : Ended calm id fd w' accepted := by
    refine ⟨htype.trans hw.type, ?_, ?_, ?_, hown.trans hw.own⟩
    · rw [hlog]
      exact hw.silent.append hout
    · rw [hstream]
      exact hw.written
    · rw [hstream]
      exact hw.complete
  exact advances_ended hended (by rw [hstream, List.append_nil]) (inTurn_nil ..)

theorem Ended.refl (hw : Ended calm id fd w accepted) : Advances calm id fd w accepted [] w := by
  have hlog : w.log = w.log ++ [] := by rw [List.append_nil]
  exact hw.other rfl rfl hlog rfl

/-- What holds of a TCP socket in a run holds after the next step, which writes in turn. -/
theorem TcpStep.advances (hstep : TcpStep calm id w new w')
    (hw : (∃ done high low k, Lined id fd w accepted done high low k) ∨
      Ended calm id fd w accepted) : Advances calm id fd w accepted new w' := by
  cases hw with
  | inl hlined =>
      obtain ⟨done, high, low, k, hlined⟩ := hlined
      cases hstep with
      | send p buffer sz address ws hcalm hrun =>
          exact send_advances hlined p buffer sz address ws hcalm _ hrun
      | event answers hcalm hrun => exact event_advances hlined answers hcalm _ hrun
      | close opaqueData ws hcalm hrun => exact close_advances hlined opaqueData hcalm _ hrun
      | @other _ es hsame hhigh hlow hlog hes =>
          rw [hlined.own] at hes
          have hout : streamOf fd es = [] := List.flatMap_eq_nil_iff.mpr fun e he => (hes e he).1
          have hquiet : .close fd ∉ es := fun he => (hes _ he).2 rfl
          apply advances_lined (hlined.other hsame hhigh hlow hlog hout hquiet) _ (inTurn_nil ..)
          rw [hlog, streamOf_append, hout]
  | inr hended =>
      cases hstep with
      | send p buffer sz address ws hcalm hrun =>
          have hnot : (w.slot (hashId id)).takes = false := by
            unfold Socket.takes
            rw [hended.type]
            rfl
          rw [hnot, if_neg Bool.false_ne_true]
          unfold Sockets.sendSocket at hrun
          dsimp only at hrun
          rw [if_pos (Or.inl hended.type)] at hrun
          obtain rfl := Outcome.ok.inj hrun
          exact hended.other rfl rfl rfl rfl
      | event answers hcalm hrun =>
          unfold Sockets.handleEvent at hrun
          dsimp only at hrun
          rw [hended.type] at hrun
          obtain rfl := Outcome.ok.inj hrun
          exact hended.refl
      | close opaqueData ws hcalm hrun =>
          unfold Sockets.closeSocket at hrun
          dsimp only at hrun
          rw [if_pos (Or.inl hended.type)] at hrun
          obtain rfl := Outcome.ok.inj hrun
          exact hended.refl
      | @other _ es hsame hhigh hlow hlog hes =>
          rw [hended.own] at hes
          have hout : streamOf fd es = [] := List.flatMap_eq_nil_iff.mpr fun e he => (hes e he).1
          exact hended.other hsame.type hsame.fd hlog hout

theorem Sockets.Begins.lined (hw : w.Begins id) :
    Lined id (w.slot (hashId id)).fd w [] [] [] [] 0 := by
  refine ⟨?_, hw.holds, hw.protocol, rfl, hw.quiet, ?_, ?_, hw.stream, fun _ => rfl, ?_⟩
  · obtain hconnecting | hconnected | hbind := hw.type
    · exact Or.inl hconnecting
    · exact Or.inr (Or.inl hconnected)
    · exact Or.inr (Or.inr (Or.inr hbind))
  · rw [hw.empty.1]
    exact .nil
  · rw [hw.empty.2]
    exact .nil
  · exact fun _ hmem => absurd hmem List.not_mem_nil

/-- In every run the socket is open or closed. -/
theorem TcpRun.holds (hw : w.Begins id) (hrun : TcpRun calm id w accepted w') :
    (∃ done high low k, Lined id (w.slot (hashId id)).fd w' accepted done high low k) ∨
      Ended calm id (w.slot (hashId id)).fd w' accepted := by
  induction hrun with
  | start => exact Or.inl ⟨_, _, _, _, hw.lined⟩
  | step hrun hstep ih => exact (hstep.advances ih).1

/-- What went out through the descriptor of a TCP socket is whole buffers of the accepted requests
and at most a part of one more, each priority in the order of its requests. Nothing goes out once
the descriptor is closed, which it is without an error only when all of them went out in full. In
each step, what waits in the low list is begun only when all of the high list went out. -/
theorem tcp_written (hw : w.Begins id) (hrun : TcpRun calm id w accepted w') :
    Written accepted (streamOf (w.slot (hashId id)).fd w'.log) ∧
      SilentAfter (w.slot (hashId id)).fd w'.log ∧
      (calm → .close (w.slot (hashId id)).fd ∈ w'.log →
        Complete accepted (streamOf (w.slot (hashId id)).fd w'.log)) ∧
      ∀ new w'', TcpStep calm id w' new w'' → ∃ out, streamOf (w.slot (hashId id)).fd w''.log =
        streamOf (w.slot (hashId id)).fd w'.log ++ out ∧ InTurn id w' new out := by
  have hholds := hrun.holds hw
  refine ⟨?_, ?_, ?_, fun new w'' hstep => (hstep.advances hholds).2⟩
  · obtain ⟨done, high, low, k, hlined⟩ | hended := hholds
    · exact hlined.written
    · exact hended.written
  · obtain ⟨done, high, low, k, hlined⟩ | hended := hholds
    · exact silentAfter_of_not_mem hlined.quiet
    · exact hended.silent
  · intro hcalm hclose
    obtain ⟨done, high, low, k, hlined⟩ | hended := hholds
    · exact absurd hclose hlined.quiet
    · exact hended.complete hcalm

end Run

/-- A connected socket -/
def oneConnected : Sockets where
  slot := fun _ => { Socket.zero with type := .connected, id := 1, fd := 5 }
  soi := ⟨fun _ => 8, fun _ => 20⟩
  poll := fun _ => none
  node := 0
  log := []

theorem oneConnected_begins : oneConnected.Begins 1 :=
  ⟨Or.inr (Or.inl rfl), rfl, rfl, ⟨rfl, rfl⟩, rfl, by simp [oneConnected]⟩

/-- A buffer of which a part goes out at once, and the rest with a write event. -/
theorem tcp_written_twice : ∃ w, TcpRun True 1 oneConnected [⟨.high, 100, 5⟩] w ∧
    Written [⟨.high, 100, 5⟩] (streamOf 5 w.log) ∧
    streamOf 5 w.log = [(100, 0), (100, 1), (100, 2), (100, 3), (100, 4)] := by
  have hsend : TcpStep True 1 oneConnected [⟨.high, 100, 5⟩] _ :=
    .send .high 100 5 none (.ok 2) nofun rfl
  have hrun := (TcpRun.start.step hsend).step
    (.event (.writing [.ok 3]) (by simp [Answers.writing]) rfl)
  exact ⟨_, hrun, (tcp_written oneConnected_begins hrun).1, rfl⟩

/-- A request of low priority whose first write takes nothing waits in the high list: it is begun
before a later request of high priority. -/
theorem low_before_high : ¬ ∀ (id : Int) (w w' w'' : Sockets) (accepted new : List Request),
    w.Begins id → TcpRun True id w accepted w' → TcpStep True id w' new w'' →
    ∀ r ∈ accepted, r.priority = .low →
      (∀ b ∈ streamOf (w.slot (hashId id)).fd w'.log, b.1 ≠ r.buffer) →
      (∃ b ∈ streamOf (w.slot (hashId id)).fd w''.log, b.1 = r.buffer) →
      ∀ wb ∈ (w''.slot (hashId id)).high.chain, wb.buffer = r.buffer := by
  intro hall
  have hlow : TcpStep True 1 oneConnected [⟨.low, 100, 10⟩] _ :=
    .send .low 100 10 none .eagain nofun rfl
  have hhigh := (TcpRun.start.step hlow).step (.send .high 200 10 none .eagain nofun rfl)
  have hwait := hall 1 _ _ _ _ _ oneConnected_begins hhigh
    (.event (.writing [.ok 1]) (by simp [Answers.writing]) rfl) ⟨.low, 100, 10⟩
    (List.mem_cons_self ..) rfl (by decide) (by decide)
  have hsecond := hwait ⟨1, 200, 0, 10, false, []⟩ (by decide)
  cases hsecond

end Jump.Skynet.SocketServer
