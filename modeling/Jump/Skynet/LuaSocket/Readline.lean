import Jump.Skynet.LuaSocket.Stream

/-! # Reading a line, and a whole run of calls

`check_sep` compares the separator with the bytes from one place on, across the nodes, and
`lreadline` tries one place after the other.
-/

namespace Jump.Skynet.LuaSocket

open Jump.Core

/-- The nodes from `node` on with their chunks. -/
structure Nodes (pool : Pool) (node : Nat) (xs : List (Nat × List UInt8)) : Prop where
  chain : Chain (fun p => (pool.node p).next) 0 node (xs.map Prod.fst)
  pos : ∀ x ∈ xs, 0 < x.1
  chunk : ∀ x ∈ xs, (pool.node x.1).msg = x.2 ∧ (pool.node x.1).sz = x.2.length ∧ x.2 ≠ []

section Readline

variable {sb : SocketBuffer} {pool : Pool} {xs : List (Nat × List UInt8)} {fs : List Nat}
  {node q start p l fuel i : Nat} {msg buf sep : List UInt8}

theorem Lists.nodes (h : Lists sb pool xs fs) : Nodes pool sb.head xs :=
  ⟨h.chain, fun x hx => (h.used x.1 (List.mem_append_left _ (List.mem_map_of_mem hx))).1, h.chunk⟩

/-- The first node, and the ones after it. -/
theorem Nodes.cons (h : Nodes pool node ((q, msg) :: xs)) :
    node = q ∧ pool.get node = .ok (pool.node q) ∧ Nodes pool (pool.node q).next xs := by
  obtain ⟨hnode, hrest⟩ := h.chain
  refine ⟨hnode, ?_, hrest, fun x hx => h.pos x (List.mem_cons_of_mem _ hx),
    fun x hx => h.chunk x (List.mem_cons_of_mem _ hx)⟩
  rw [hnode]
  exact get_eq (h.pos (q, msg) List.mem_cons_self)

theorem Nodes.next_ne (h : Nodes pool node xs) (hne : xs ≠ []) : node ≠ 0 := by
  cases xs with
  | nil => exact absurd rfl hne
  | cons x xs =>
      rw [h.chain.1]
      exact Nat.pos_iff_ne_zero.mp (h.pos x List.mem_cons_self)

theorem sameBytes_eq {n : Nat} (hmsg : start + n ≤ msg.length) (hsep : p + n ≤ sep.length) :
    sameBytes msg start sep p n =
      .ok (decide ((msg.drop start).take n = (sep.drop p).take n)) := by
  unfold sameBytes
  rw [bytesAt_eq hmsg, bytesAt_eq hsep]
  rfl

/-- A chunk that is too short is compared as a whole. -/
theorem sameBytes_whole (hstart : start ≤ msg.length)
    (hsep : p + (msg.length - start) ≤ sep.length) :
    (if (0 : Int) < (msg.length - start : Nat) then
      sameBytes msg start sep p (msg.length - start : Nat) else .ok true) =
      .ok (decide (msg.drop start = (sep.drop p).take (msg.length - start))) := by
  have hall : (msg.drop start).take (msg.length - start) = msg.drop start :=
    List.take_of_length_le (by rw [List.length_drop])
  by_cases hpos : 0 < msg.length - start
  · rw [if_pos (by omega), sameBytes_eq (Nat.add_sub_of_le hstart).le hsep, hall]
  · have hzero : msg.length - start = 0 := Nat.eq_zero_of_not_pos hpos
    rw [if_neg (by omega), hzero, List.take_zero, List.drop_eq_nil_of_le (by omega)]
    rfl

/-- Lists are the same when their beginnings and what follows are. -/
theorem take_eq_append_iff {u v w : List UInt8} {n : Nat} (hlen : u.length ≤ n)
    (hw : n ≤ w.length) : w.take n = u ++ v ↔
      u = w.take u.length ∧ (w.drop u.length).take (n - u.length) = v := by
  rw [← List.take_append_drop u.length (w.take n), List.take_take, Nat.min_eq_left hlen,
    List.drop_take]
  constructor
  · intro h
    obtain ⟨hl, hr⟩ := List.append_inj h (by rw [List.length_take]; omega)
    exact ⟨hl.symm, hr⟩
  · rintro ⟨hl, hr⟩
    rw [← hl, hr]

/-- `check_sep`: the `l` bytes of the separator from `p` on are the next ones. -/
theorem checkSep_eq (h : Nodes pool node xs) (hne : xs ≠ [])
    (hstart : ∀ x ∈ xs.head?, start ≤ x.2.length) (hl : l ≤ (held xs start).length)
    (hsep : p + l ≤ sep.length) (hfuel : xs.length ≤ fuel) :
    checkSep pool sep fuel node start p l =
      .ok (decide ((sep.drop p).take l = (held xs start).take l)) := by
  induction xs generalizing node start p l fuel with
  | nil => exact absurd rfl hne
  | cons x xs ih =>
      obtain ⟨q, msg⟩ := x
      obtain ⟨fuel, rfl⟩ := Nat.exists_eq_add_one.mpr (Nat.zero_lt_of_lt hfuel)
      obtain ⟨-, hget, hrest⟩ := h.cons
      obtain ⟨hmsg, hlen, -⟩ := h.chunk (q, msg) List.mem_cons_self
      have hin : start ≤ msg.length := hstart (q, msg) rfl
      have hbytes : (pool.node q).sz - start = ((msg.length - start : Nat) : Int) := by
        rw [hlen, Int.ofNat_sub hin]
      rw [held_cons hin] at hl ⊢
      rw [checkSep, hget, Outcome.ok_bind]
      dsimp only at hmsg ⊢
      rw [hbytes, hmsg]
      by_cases hlast : l ≤ msg.length - start
      · rw [if_pos (Int.ofNat_le.mpr hlast), sameBytes_eq (by omega) hsep,
          List.take_append_of_le_length (by rw [List.length_drop]; exact hlast)]
        exact congrArg _ (decide_eq_decide.mpr eq_comm)
      · have hlt := Nat.not_le.mp hlast
        rw [if_neg fun h => hlast (Int.ofNat_le.mp h), sameBytes_whole hin (by omega),
          Outcome.ok_bind]
        have hdrop : (msg.drop start).length = msg.length - start := List.length_drop
        have hmore : xs ≠ [] := by
          rintro rfl
          rw [List.flatMap_nil, List.append_nil, hdrop] at hl
          exact hlast hl
        have hsplit : ((sep.drop p).take l = (msg.drop start ++ xs.flatMap Prod.snd).take l) ↔
            msg.drop start = (sep.drop p).take (msg.length - start) ∧
              (sep.drop (p + (msg.length - start))).take (l - (msg.length - start)) =
                (xs.flatMap Prod.snd).take (l - (msg.length - start)) := by
          have hwhole : (msg.drop start).take l = msg.drop start :=
            List.take_of_length_le (by rw [hdrop]; exact hlt.le)
          rw [List.take_append, hwhole, hdrop,
            take_eq_append_iff (by rw [hdrop]; exact hlt.le) (by rw [List.length_drop]; omega),
            hdrop, List.drop_drop]
        by_cases hsame : msg.drop start = (sep.drop p).take (msg.length - start)
        · have hnext := @ih (pool.node q).next 0 (p + (msg.length - start))
            (l - (msg.length - start)) fuel hrest hmore (fun _ _ => Nat.zero_le _)
            (by rw [List.length_append, hdrop] at hl; exact Nat.sub_le_iff_le_add'.mpr hl)
            (by omega) (Nat.le_of_succ_le_succ hfuel)
          rw [if_pos (decide_eq_true hsame), ← Int.natCast_add, ← Int.ofNat_sub hlt.le]
          refine hnext.trans (congrArg _ (decide_eq_decide.mpr ?_))
          rw [hsplit]
          exact (and_iff_right hsame).symm
        · rw [if_neg (by rw [decide_eq_false hsame]; exact Bool.false_ne_true)]
          refine congrArg Outcome.ok (decide_eq_false fun heq => ?_).symm
          exact hsame (hsplit.mp heq).1

/-- The loop of `lreadline` finds the first place from `i` on where the bytes of the separator are
the next ones. -/
theorem readlineLoop_eq {count : Nat} (h : Nodes pool node ((q, msg) :: xs))
    (hs : start < msg.length) (hheld : held ((q, msg) :: xs) start = buf.drop i)
    (hcount : i + count + l ≤ buf.length + 1) (hl : l ≤ sep.length)
    (hbrk : xs.length < pool.brk) :
    readlineLoop pool sep l count i node start (msg.length - start : Nat) =
      .ok ((List.range' i count).find? fun j => decide (sep.take l = (buf.drop j).take l)) := by
  induction count generalizing node q msg xs start i with
  | zero => rfl
  | succ count ih =>
      obtain ⟨hnode, hget, hrest⟩ := h.cons
      obtain ⟨-, hsz, -⟩ := h.chunk (q, msg) List.mem_cons_self
      have hleft : (buf.drop i).length = buf.length - i := List.length_drop
      have hcheck := @checkSep_eq pool ((q, msg) :: xs) node start 0 l pool.brk sep h
        (List.cons_ne_nil _ _)
        (fun y hy => by
          rw [← Option.mem_some_iff.mp hy]
          exact hs.le)
        (by rw [hheld, hleft]; omega) (by omega) hbrk
      rw [hheld, List.drop_zero] at hcheck
      rw [readlineLoop, List.range'_succ, List.find?_cons]
      refine (congrArg (· >>= _) hcheck).trans ?_
      rw [Outcome.ok_bind]
      by_cases hfound : sep.take l = (buf.drop i).take l
      · rw [decide_eq_true hfound]
        rfl
      · have hpos : 0 < l := Nat.pos_of_ne_zero fun hzero => hfound (by rw [hzero]; rfl)
        rw [decide_eq_false hfound, if_neg Bool.false_ne_true]
        dsimp only
        have hstep := congrArg (List.drop 1) ((held_cons hs.le).symm.trans hheld)
        rw [List.drop_append_of_le_length (by rw [List.length_drop]; omega), List.drop_drop,
          List.drop_drop] at hstep
        by_cases hlast : msg.length - start = 1
        · rw [List.drop_eq_nil_of_le (by omega), List.nil_append] at hstep
          rw [if_pos (by omega), hget, Outcome.ok_bind]
          cases xs with
          | nil =>
              have hend : (pool.node q).next = 0 := hrest.chain
              rw [if_pos hend]
              have hnone : count = 0 := by
                have hlen := congrArg List.length hstep
                rw [List.flatMap_nil, List.length_nil, List.length_drop] at hlen
                omega
              rw [hnone]
              rfl
          | cons y ys =>
              obtain ⟨r, m⟩ := y
              obtain ⟨hnext, hgetn, -⟩ := hrest.cons
              obtain ⟨-, hlen, hm⟩ := hrest.chunk (r, m) List.mem_cons_self
              rw [if_neg (hrest.next_ne (List.cons_ne_nil _ _)), hgetn, Outcome.ok_bind, hlen]
              have hzero : held ((r, m) :: ys) (0 : Nat) = buf.drop (i + 1) := hstep
              exact ih hrest (List.length_pos_iff.mpr hm) hzero (by omega)
                (Nat.lt_of_succ_lt hbrk)
        · have hmore := ih h (by omega) ((held_cons (by omega)).trans hstep) (by omega) hbrk
          have hbytes : ((msg.length - start : Nat) : Int) - 1 =
              (msg.length - (start + 1) : Nat) := by omega
          rw [if_neg (by omega), hbytes]
          exact hmore

theorem isPrefixOf_eq (u v : List UInt8) : u.isPrefixOf v = decide (u = v.take u.length) := by
  rw [Bool.eq_iff_iff, List.isPrefixOf_iff_prefix, decide_eq_true_iff, List.prefix_iff_eq_take]

/-- A separator is only found where it ends in the buffer. -/
theorem firstOccurrence_eq (sep buf : List UInt8) : firstOccurrence sep buf =
    (List.range' 0 (buf.length + 1 - sep.length)).find? fun j =>
      decide (sep = (buf.drop j).take sep.length) := by
  have hsplit : List.range (buf.length + 1) = List.range' 0 (buf.length + 1 - sep.length) ++
      List.range' (buf.length + 1 - sep.length)
        (buf.length + 1 - (buf.length + 1 - sep.length)) := by
    have happend := @List.range'_append_1 0 (buf.length + 1 - sep.length)
      (buf.length + 1 - (buf.length + 1 - sep.length))
    rw [Nat.zero_add, Nat.add_sub_of_le (Nat.sub_le _ _)] at happend
    rw [List.range_eq_range', happend]
  have hlate : (List.range' (buf.length + 1 - sep.length)
      (buf.length + 1 - (buf.length + 1 - sep.length))).find?
        (fun j => decide (sep = (buf.drop j).take sep.length)) = none := by
    refine List.find?_eq_none.mpr fun j hj heq => ?_
    have hmem := List.mem_range'_1.mp hj
    have hlen := congrArg List.length (of_decide_eq_true heq)
    rw [List.length_take, List.length_drop] at hlen
    omega
  unfold firstOccurrence
  simp only [isPrefixOf_eq]
  rw [hsplit, List.find?_append, hlate, Option.or_none]

/-- Where the separator is found, it ends in the buffer. -/
theorem add_length_le (h : firstOccurrence sep buf = some i) : i + sep.length ≤ buf.length := by
  rw [firstOccurrence_eq] at h
  have hmem := List.mem_range'_1.mp (List.mem_of_find?_eq_some h)
  omega

/-- The loop of `lreadline` finds the first occurrence of the bytes that are taken for the
separator. -/
theorem readlineLoop_first {n : Nat} (h : Lists sb pool ((q, msg) :: xs) fs) (hn : n < msg.length)
    (hoffset : sb.offset = n) (hheld : held ((q, msg) :: xs) n = buf) (hl : l ≤ sep.length) :
    readlineLoop pool sep l (buf.length - l + 1 : Int).toNat 0 sb.head sb.offset
      (msg.length - n : Nat) = .ok (firstOccurrence (sep.take l) buf) := by
  have hcount : (buf.length - l + 1 : Int).toNat = buf.length + 1 - l := by omega
  have hlen : (sep.take l).length = l := List.length_take_of_le hl
  have hbrk := h.length_lt
  by_cases hshort : l ≤ buf.length + 1
  · rw [hoffset, hcount, firstOccurrence_eq, hlen]
    exact readlineLoop_eq h.nodes hn hheld (by omega) hl (Nat.lt_of_succ_lt hbrk)
  · rw [hcount, firstOccurrence_eq, hlen, Nat.sub_eq_zero_of_le (Nat.not_le.mp hshort).le]
    rfl

theorem held_ne_nil {n : Nat} (hn : n < msg.length) : held ((q, msg) :: xs) n ≠ [] := by
  rw [held_cons hn.le]
  exact List.append_ne_nil_of_left_ne_nil
    (fun hnil => absurd (List.drop_eq_nil_iff.mp hnil) (Nat.not_le.mpr hn)) _

/-- `lreadline` goes by the first occurrence of the bytes that are taken for the separator. -/
theorem lreadline_first (h : Holds sb pool buf) (hne : buf ≠ []) (hlen : toInt sep.length = l)
    (hl : l ≤ sep.length) (check : Bool) : lreadline sb pool check sep =
      match firstOccurrence (sep.take l) buf with
      | none => .ok (.nothing, sb, pool)
      | some i =>
        if check then .ok (.found, sb, pool)
        else popLstring sb pool (toInt (i + sep.length)) l >>= fun x =>
          .ok (.line x.1,
            { x.2.1 with size := Int.bmod (x.2.1.size - (i + sep.length : Nat)) (2 ^ 32) },
            x.2.2) := by
  obtain ⟨xs, fs, hlists, hstarts, hheld⟩ := h.nodes
  cases xs with
  | nil =>
      rw [show sb.offset = 0 from hstarts] at hheld
      exact absurd hheld.symm hne
  | cons x xs =>
      obtain ⟨q, msg⟩ := x
      obtain ⟨n, hn⟩ := Int.eq_ofNat_of_zero_le hstarts.1
      have hend := hstarts.2
      rw [hn, Int.ofNat_lt] at hend
      rw [hn] at hheld
      obtain ⟨-, -, hget⟩ := hlists.head_pos
      obtain ⟨-, hsz, -⟩ := hlists.chunk (q, msg) List.mem_cons_self
      have hbytes : (pool.node q).sz - sb.offset = ((msg.length - n : Nat) : Int) := by
        rw [hsz, hn, Int.ofNat_sub hend.le]
      unfold lreadline
      rw [if_neg (hlists.head_ne (List.cons_ne_nil _ _)), hget, Outcome.ok_bind, hlen]
      dsimp only
      rw [hbytes, h.size, readlineLoop_first hlists hend hn hheld hl, Outcome.ok_bind]
      rfl

/-- `lreadline` on an empty buffer. -/
theorem lreadline_nil (h : Holds sb pool []) (check : Bool) :
    lreadline sb pool check sep = .ok (.nothing, sb, pool) := by
  obtain ⟨xs, fs, hlists, hstarts, hheld⟩ := h.nodes
  cases xs with
  | nil => exact if_pos hlists.head_nil
  | cons x xs =>
      obtain ⟨n, hn⟩ := Int.eq_ofNat_of_zero_le hstarts.1
      have hend := hstarts.2
      rw [hn, Int.ofNat_lt] at hend
      rw [hn] at hheld
      exact absurd hheld (held_ne_nil hend)

/-- Nothing is read, and the separator does not occur. -/
theorem answer_nothing {check : Bool} (h : Holds sb pool buf)
    (hread : lreadline sb pool check sep = .ok (.nothing, sb, pool))
    (hnone : firstOccurrence sep buf = none) : ∃ r sb' pool',
      lreadline sb pool check sep = .ok (r, sb', pool') ∧
      (answer buf (.readline check sep)).1 = .line r ∧
      Holds sb' pool' (answer buf (.readline check sep)).2 := by
  refine ⟨.nothing, sb, pool, hread, ?_, ?_⟩
  · rw [answer, hnone]
  · rw [answer, hnone]
    exact h

/-- `lreadline` with a separator whose length is an `int`. -/
theorem lreadline_short (h : Holds sb pool buf) (hne : buf ≠ []) (hsep : sep.length < 2 ^ 31)
    (check : Bool) : ∃ r sb' pool',
      lreadline sb pool check sep = .ok (r, sb', pool') ∧
      (answer buf (.readline check sep)).1 = .line r ∧
      Holds sb' pool' (answer buf (.readline check sep)).2 := by
  have hread := lreadline_first h hne (toInt_of_lt hsep) (Nat.le_refl _) check
  rw [List.take_length] at hread
  cases hfound : firstOccurrence sep buf with
  | none =>
      rw [hfound] at hread
      exact answer_nothing h hread hfound
  | some i =>
      rw [hfound] at hread
      dsimp only at hread
      unfold answer
      dsimp only
      rw [hfound]
      cases check with
      | true => exact ⟨.found, sb, pool, hread, rfl, h⟩
      | false =>
          have hle := add_length_le hfound
          have hsmall := h.small
          obtain ⟨sb', pool', hpop, hstored, hsize⟩ :=
            popLstring_eq h.nodes hne (Nat.le_add_left sep.length i) hle
          rw [if_neg Bool.false_ne_true, toInt_of_lt (by omega), hpop, Outcome.ok_bind,
            Nat.add_sub_cancel] at hread
          refine ⟨_, _, _, hread, rfl, hstored.at_size _, ?_, ?_⟩
          · change Int.bmod (sb'.size - (i + sep.length : Nat)) (2 ^ 32) =
              (buf.drop (i + sep.length)).length
            rw [hsize, h.size, ← Int.ofNat_sub hle, List.length_drop]
            exact toInt_of_lt (by omega)
          · change (buf.drop (i + sep.length)).length < 2 ^ 31
            rw [List.length_drop]
            omega

/-- What `lreadline` does with a separator that fits. -/
theorem lreadline_eq (h : Holds sb pool buf) {check : Bool}
    (hfits : (Call.readline check sep).Fits buf) : ∃ r sb' pool',
      lreadline sb pool check sep = .ok (r, sb', pool') ∧
      (answer buf (.readline check sep)).1 = .line r ∧
      Holds sb' pool' (answer buf (.readline check sep)).2 := by
  change if buf = [] then sep ≠ [] else _ at hfits
  by_cases hnil : buf = []
  · subst hnil
    rw [if_pos rfl] at hfits
    refine answer_nothing h (lreadline_nil h check) ?_
    cases sep with
    | nil => exact absurd rfl hfits
    | cons s sep => rfl
  · rw [if_neg hnil] at hfits
    by_cases hsep : sep.length < 2 ^ 31
    · exact lreadline_short h hnil hsep check
    · obtain ⟨hpos, hnone⟩ := hfits.resolve_left hsep
      obtain ⟨l, hl⟩ := Int.eq_ofNat_of_zero_le hpos
      have hle : l ≤ sep.length := by
        unfold toInt at hl
        rw [Int.bmod_def] at hl
        omega
      have hread := lreadline_first h hnil hl hle check
      rw [hl, Int.toNat_natCast] at hnone
      rw [hnone] at hread
      refine answer_nothing h hread ?_
      cases hfound : firstOccurrence sep buf with
      | none => rfl
      | some i =>
          have hin := add_length_le hfound
          have hsmall := h.small
          omega

theorem lpopbuffer_eq (h : Holds sb pool buf) {sz : Nat} (hfits : (Call.pop sz).Fits buf) :
    ∃ sb' pool', call sb pool (.pop sz) = .ok ((answer buf (.pop sz)).1, sb', pool') ∧
      Holds sb' pool' (answer buf (.pop sz)).2 := by
  change sz < 2 ^ 31 ∨ toInt sz = 0 ∨ _ at hfits
  have hsmall := h.small
  rw [call, lpopbuffer, answer, h.size]
  by_cases hnone : buf.length < sz ∨ sz = 0
  · have hint : (buf.length : Int) < Int.bmod sz (2 ^ 32) ∨ Int.bmod sz (2 ^ 32) = 0 := by
      change _ < toInt sz ∨ toInt sz = 0
      by_cases hlt : sz < 2 ^ 31
      · rw [toInt_of_lt hlt]
        omega
      · omega
    rw [if_pos hnone, if_pos hint]
    refine ⟨sb, pool, ?_, h⟩
    rw [← h.size]
    rfl
  · have hlt : sz < 2 ^ 31 := by omega
    have hint : Int.bmod sz (2 ^ 32) = sz := toInt_of_lt hlt
    obtain ⟨hle, hpos⟩ := not_or.mp hnone
    have hne : buf ≠ [] := by
      rintro rfl
      exact hle (Nat.pos_of_ne_zero hpos)
    obtain ⟨sb', pool', hpop, hstored, hsize⟩ :=
      popLstring_eq h.nodes hne (Nat.zero_le sz) (Nat.not_lt.mp hle)
    rw [if_neg hnone, hint, if_neg (by omega)]
    change popLstring sb pool sz 0 = _ at hpop
    rw [hpop, Outcome.ok_bind]
    refine ⟨{ sb' with size := sb'.size - sz }, pool', ?_, hstored.at_size _, ?_, ?_⟩
    · dsimp only
      rw [hsize, h.size]
      rfl
    · change sb'.size - sz = (buf.drop sz).length
      rw [hsize, h.size, List.length_drop]
      omega
    · change (buf.drop sz).length < 2 ^ 31
      rw [List.length_drop]
      omega

/-- A call that fits answers as the bytes that are left say. -/
theorem call_exact (h : Holds sb pool buf) {c : Call} (hfits : c.Fits buf) : ∃ sb' pool',
    call sb pool c = .ok ((answer buf c).1, sb', pool') ∧ Holds sb' pool' (answer buf c).2 := by
  cases c with
  | push msg =>
      obtain ⟨hne, hsmall⟩ := hfits
      obtain ⟨sb', pool', hpush, hstored, hsize⟩ := lpushbuffer_eq h.nodes hne
      rw [h.size] at hsize
      refine ⟨sb', pool', ?_, hstored, ?_, ?_⟩
      · rw [call, hpush, Outcome.ok_bind]
        dsimp only
        rw [hsize]
        rfl
      · rw [hsize]
        simp [answer]
      · simpa [answer] using hsmall
  | pop sz => exact lpopbuffer_eq h hfits
  | readline check sep =>
      obtain ⟨r, sb', pool', hread, hanswer, hholds⟩ := lreadline_eq h hfits
      refine ⟨sb', pool', ?_, hholds⟩
      rw [call, hread, hanswer]
      rfl
  | readall =>
      obtain ⟨xs, fs, hlists, hstarts, hheld⟩ := h.nodes
      obtain ⟨sb', pool', hread, hstored⟩ := readLoop_eq (b := []) hlists hstarts hlists.length_lt
      refine ⟨{ sb' with size := 0 }, pool', ?_, hstored.at_size 0, rfl, Nat.two_pow_pos 31⟩
      rw [call, lreadall, hread, hheld]
      rfl
  | clear =>
      obtain ⟨xs, fs, hlists, hstarts, hheld⟩ := h.nodes
      obtain ⟨sb', pool', hclear, hstored⟩ := clear_eq hlists hstarts hlists.length_lt
      refine ⟨{ sb' with size := 0 }, pool', ?_, hstored.at_size 0, rfl, Nat.two_pow_pos 31⟩
      rw [call, lclearbuffer, hclear]
      rfl

theorem holds_new : Holds newbuffer newpool [] :=
  ⟨⟨[], [], ⟨rfl, rfl, List.nodup_nil, nofun, Nat.one_pos, nofun, rfl⟩, rfl, rfl⟩, rfl, by decide⟩

/-- A run whose calls fit answers as the bytes that are left say. -/
theorem run_exact (h : Holds sb pool buf) {cs : List Call} (hfits : AllFit buf cs) : ∃ sb' pool',
    runCalls sb pool cs = .ok ((answers buf cs).1, sb', pool') ∧
      Holds sb' pool' (answers buf cs).2 := by
  induction cs generalizing sb pool buf with
  | nil => exact ⟨sb, pool, rfl, h⟩
  | cons c cs ih =>
      obtain ⟨hfirst, hrest⟩ := hfits
      obtain ⟨sb₁, pool₁, hcall, hholds⟩ := call_exact h hfirst
      obtain ⟨sb', pool', hrun, hend⟩ := ih hholds hrest
      refine ⟨sb', pool', ?_, hend⟩
      rw [runCalls, hcall, Outcome.ok_bind]
      dsimp only
      rw [hrun]
      rfl

end Readline

/-- Every call returns what the bytes that are left say, and the size is how many these are. -/
def Exact (cs : List Call) : Prop :=
  ∃ sb pool, runCalls newbuffer newpool cs = .ok ((answers [] cs).1, sb, pool) ∧
    sb.size = (answers [] cs).2.length

/-- A run whose calls fit hands the stream on byte for byte, and none of its calls follows a null
pointer, reads outside of a chunk or fails an assertion. -/
theorem stream_exact (cs : List Call) (h : AllFit [] cs) : Exact cs := by
  obtain ⟨sb, pool, hrun, hholds⟩ := run_exact holds_new h
  exact ⟨sb, pool, hrun, hholds.size⟩

/-- Two lines in three chunks, the first one with its separator over two of them. -/
theorem stream_exact_lines : Exact [.push [97, 13], .push [10, 98], .readline false [13, 10],
    .pop 2, .push [99], .pop 2, .readall] :=
  stream_exact _ (by decide)

/-- A length of `2 ^ 32 - 1`, as it stands in a header of four bytes, is -1 as an `int`. -/
theorem pop_length_cut : ¬ ∀ cs, Chunked cs → Exact cs := by
  intro h
  obtain ⟨sb, pool, hrun, -⟩ := h [.push [97], .pop (2 ^ 32 - 1)] ⟨by decide, by decide⟩
  have hfault : (runCalls newbuffer newpool [.push [97], .pop (2 ^ 32 - 1)]).fault =
      some .bounds := by decide
  rw [hrun] at hfault
  exact nomatch hfault

end Jump.Skynet.LuaSocket
