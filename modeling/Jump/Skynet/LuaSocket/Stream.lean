import Jump.Core.Ring
import Jump.Skynet.LuaSocket.Code
import Mathlib.Data.List.Basic
import Mathlib.Data.List.Lemmas

/-! # The stream behind a socket buffer

A socket buffer holds the bytes that were pushed and not taken yet, wherever the chunks were cut.
-/

namespace Jump.Skynet.LuaSocket

open Jump.Core

/-! ## The calls on the bytes -/

/-- Where `sep` stands first. -/
def firstOccurrence (sep buf : List UInt8) : Option Nat :=
  (List.range (buf.length + 1)).find? fun i => sep.isPrefixOf (buf.drop i)

/-- What a call answers if `buf` are the bytes that are left, and what it leaves. -/
def answer (buf : List UInt8) : Call → Answer × List UInt8
  | .push msg => (.size (buf.length + msg.length), buf ++ msg)
  | .pop sz =>
    if buf.length < sz ∨ sz = 0 then (.popped none buf.length, buf)
    else (.popped (some (buf.take sz)) (buf.length - sz), buf.drop sz)
  | .readline check sep =>
    match firstOccurrence sep buf with
    | none => (.line .nothing, buf)
    | some i =>
      if check then (.line .found, buf)
      else (.line (.line (buf.take i)), buf.drop (i + sep.length))
  | .readall => (.all buf, [])
  | .clear => (.cleared, [])

/-- Fewer than `2 ^ 31` bytes are there, and the conversions to `int` do no harm: the size that is
asked for is below `2 ^ 31`, or is 0 or more than there is as an `int` as well; and the separator is
shorter than that, or what its length leaves of it does not occur. An empty separator is not found
in an empty buffer. -/
def Call.Fits (buf : List UInt8) : Call → Prop
  | .push msg => msg ≠ [] ∧ buf.length + msg.length < 2 ^ 31
  | .pop sz => sz < 2 ^ 31 ∨ toInt sz = 0 ∨ (buf.length : Int) < toInt sz
  | .readline _ sep =>
    if buf = [] then sep ≠ []
    else sep.length < 2 ^ 31 ∨
      0 ≤ toInt sep.length ∧ firstOccurrence (sep.take (toInt sep.length).toNat) buf = none
  | .readall => True
  | .clear => True

instance (buf : List UInt8) (c : Call) : Decidable (c.Fits buf) :=
  match c with
  | .push msg => inferInstanceAs (Decidable (msg ≠ [] ∧ buf.length + msg.length < 2 ^ 31))
  | .pop sz => inferInstanceAs
      (Decidable (sz < 2 ^ 31 ∨ toInt sz = 0 ∨ (buf.length : Int) < toInt sz))
  | .readline _ sep => inferInstanceAs (Decidable (if buf = [] then sep ≠ []
      else sep.length < 2 ^ 31 ∨
        0 ≤ toInt sep.length ∧ firstOccurrence (sep.take (toInt sep.length).toNat) buf = none))
  | .readall => inferInstanceAs (Decidable True)
  | .clear => inferInstanceAs (Decidable True)

def answers (buf : List UInt8) : List Call → List Answer × List UInt8
  | [] => ([], buf)
  | c :: cs =>
    let (a, buf) := answer buf c
    let (as, buf) := answers buf cs
    (a :: as, buf)

/-- The stream: all the bytes that are pushed. -/
def pushed (cs : List Call) : List UInt8 :=
  cs.flatMap fun
    | .push msg => msg
    | _ => []

/-- No chunk is empty, and the stream is shorter than `2 ^ 31`. -/
def Chunked (cs : List Call) : Prop := .push [] ∉ cs ∧ (pushed cs).length < 2 ^ 31

/-- Every call fits what is left before it. -/
def AllFit (buf : List UInt8) : List Call → Prop
  | [] => True
  | c :: cs => c.Fits buf ∧ AllFit (answer buf c).2 cs

instance decidableAllFit : (buf : List UInt8) → (cs : List Call) → Decidable (AllFit buf cs)
  | _, [] => inferInstanceAs (Decidable True)
  | buf, c :: cs =>
    have := decidableAllFit (answer buf c).2 cs
    inferInstanceAs (Decidable (c.Fits buf ∧ AllFit (answer buf c).2 cs))

/-! ## The nodes -/

/-- The nodes of the buffer with their chunks, and the free nodes. -/
structure Lists (sb : SocketBuffer) (pool : Pool) (xs : List (Nat × List UInt8)) (fs : List Nat) :
    Prop where
  chain : Chain (fun p => (pool.node p).next) 0 sb.head (xs.map Prod.fst)
  free : Chain (fun p => (pool.node p).next) 0 pool.freeNode fs
  distinct : (xs.map Prod.fst ++ fs).Nodup
  used : ∀ p ∈ xs.map Prod.fst ++ fs, 0 < p ∧ p < pool.brk
  pos : 0 < pool.brk
  chunk : ∀ x ∈ xs, (pool.node x.1).msg = x.2 ∧ (pool.node x.1).sz = x.2.length ∧ x.2 ≠ []
  tail : sb.tail = (xs.map Prod.fst).getLast?.getD 0

/-- `start` is in the first chunk. -/
def Starts (start : Int) : List (Nat × List UInt8) → Prop
  | [] => start = 0
  | x :: _ => 0 ≤ start ∧ start < x.2.length

/-- The bytes in the chunks from `start` on. -/
def held (xs : List (Nat × List UInt8)) (start : Int) : List UInt8 :=
  (xs.flatMap Prod.snd).drop start.toNat

/-- The nodes hold the bytes `buf`. -/
def Stored (sb : SocketBuffer) (pool : Pool) (buf : List UInt8) : Prop :=
  ∃ xs fs, Lists sb pool xs fs ∧ Starts sb.offset xs ∧ held xs sb.offset = buf

/-- The buffer holds the bytes `buf`. -/
structure Holds (sb : SocketBuffer) (pool : Pool) (buf : List UInt8) : Prop where
  nodes : Stored sb pool buf
  size : sb.size = buf.length
  small : buf.length < 2 ^ 31

section Nodes

variable {sb sb' : SocketBuffer} {pool pool' : Pool} {xs : List (Nat × List UInt8)} {fs : List Nat}
  {p : Nat} {msg buf sep : List UInt8} {start : Int}

theorem get_eq (hp : 0 < p) : pool.get p = .ok (pool.node p) := by
  unfold Pool.get
  rw [Outcome.assert_bind (Nat.pos_iff_ne_zero.mp hp)]
  rfl

theorem bytesAt_eq {offset n : Nat} (h : offset + n ≤ msg.length) :
    bytesAt msg offset n = .ok ((msg.drop offset).take n) := by
  unfold bytesAt
  rw [Outcome.assert_bind ⟨Int.natCast_nonneg n, Int.natCast_nonneg offset, by omega⟩]
  rfl

theorem Lists.head_pos (h : Lists sb pool ((p, msg) :: xs) fs) : sb.head = p ∧ 0 < p ∧
    pool.get sb.head = .ok (pool.node p) := by
  obtain ⟨hhead, _⟩ := h.chain
  have hpos := (h.used p List.mem_cons_self).1
  refine ⟨hhead, hpos, ?_⟩
  rw [hhead]
  exact get_eq hpos

theorem Lists.head_nil (h : Lists sb pool [] fs) : sb.head = 0 := h.chain

/-- The buffer has fewer nodes than there are addresses. -/
theorem Lists.length_lt (h : Lists sb pool xs fs) : xs.length < pool.brk := by
  have hsub : xs.map Prod.fst ⊆ (List.range pool.brk).tail := by
    intro p hp
    have hused := h.used p (List.mem_append_left fs hp)
    rw [← List.drop_one, List.mem_drop_iff_getElem]
    refine ⟨p - 1, by rw [List.length_range]; omega, ?_⟩
    rw [List.getElem_range]
    omega
  have hle := (h.distinct.of_append_left).length_le_of_subset hsub
  rw [List.length_map, List.length_tail, List.length_range] at hle
  have hpos := h.pos
  omega

theorem held_nil : held [] 0 = [] := rfl

/-- What is held, with the first node apart. -/
theorem held_cons {n : Nat} (h : n ≤ msg.length) :
    held ((p, msg) :: xs) n = msg.drop n ++ xs.flatMap Prod.snd := by
  unfold held
  rw [Int.toNat_natCast, List.flatMap_cons, List.drop_append_of_le_length h]

/-- `return_free_node` -/
theorem Lists.free_head (h : Lists sb pool ((p, msg) :: xs) fs) : ∃ sb' pool',
    returnFreeNode sb pool = .ok (sb', pool') ∧ Lists sb' pool' xs (p :: fs) ∧ sb'.offset = 0 ∧
      sb'.size = sb.size ∧ pool'.brk = pool.brk := by
  obtain ⟨hhead, hpos, hget⟩ := h.head_pos
  obtain ⟨_, hrest⟩ := h.chain
  have hdistinct := h.distinct
  rw [List.map_cons, List.cons_append, List.nodup_cons, List.mem_append, not_or] at hdistinct
  obtain ⟨⟨hxs, hfs⟩, hnodup⟩ := hdistinct
  have hsame : ∀ q, q ≠ p → ((pool.set sb.head ⟨[], 0, pool.freeNode⟩).node q) = pool.node q := by
    intro q hq
    unfold Pool.set
    dsimp only
    rw [hhead, Function.update_of_ne hq]
  have hnew : (pool.set sb.head ⟨[], 0, pool.freeNode⟩).node p = ⟨[], 0, pool.freeNode⟩ := by
    unfold Pool.set
    dsimp only
    rw [hhead, Function.update_self]
  refine ⟨{ sb with
      offset := 0, head := (pool.node p).next
      tail := if (pool.node p).next = 0 then 0 else sb.tail },
    { pool.set sb.head ⟨[], 0, pool.freeNode⟩ with freeNode := sb.head }, ?_,
    ⟨?_, ?_, ?_, ?_, h.pos, ?_, ?_⟩, rfl, rfl, rfl⟩
  · unfold returnFreeNode
    rw [hget]
    rfl
  · refine hrest.congr fun q hq => ?_
    dsimp only
    rw [hsame q fun heq => hxs (heq ▸ hq)]
  · refine ⟨hhead, ?_⟩
    dsimp only
    rw [hnew]
    exact h.free.congr fun q hq =>
      congrArg BufferNode.next (hsame q fun heq => hfs (heq ▸ hq))
  · exact (List.perm_middle.nodup_iff).mpr (List.nodup_cons.mpr
      ⟨fun hmem => (List.mem_append.mp hmem).elim hxs hfs, hnodup⟩)
  · intro q hq
    exact h.used q (List.perm_middle.mem_iff.mp hq)
  · intro x hx
    have hmem : x.1 ∈ xs.map Prod.fst := List.mem_map_of_mem hx
    have hne : x.1 ≠ p := fun heq => hxs (heq ▸ hmem)
    dsimp only
    rw [hsame x.1 hne]
    exact h.chunk x (List.mem_cons_of_mem _ hx)
  · cases xs with
    | nil =>
        have hend : (pool.node p).next = 0 := hrest
        rw [if_pos hend]
        rfl
    | cons y ys =>
        have hnext : (pool.node p).next = y.1 := hrest.1
        have hy := (h.used y.1 (by simp)).1
        rw [hnext, if_neg (Nat.pos_iff_ne_zero.mp hy), h.tail]
        rfl

/-- The nodes do not depend on the offset. -/
theorem Lists.at_offset (h : Lists sb pool xs fs) (start : Int) :
    Lists { sb with offset := start } pool xs fs :=
  ⟨h.chain, h.free, h.distinct, h.used, h.pos, h.chunk, h.tail⟩

/-- Nor do they depend on the size. -/
theorem Stored.at_size (h : Stored sb pool buf) (size : Int) :
    Stored { sb with size := size } pool buf := by
  obtain ⟨xs, fs, hlists, hrest⟩ := h
  exact ⟨xs, fs, ⟨hlists.chain, hlists.free, hlists.distinct, hlists.used, hlists.pos, hlists.chunk,
    hlists.tail⟩, hrest⟩

/-- No chunk is empty, so what is left may start at the first byte of its first chunk. -/
theorem Lists.start_zero (h : Lists sb pool xs fs) (hoffset : sb.offset = 0) :
    Starts sb.offset xs ∧ held xs sb.offset = xs.flatMap Prod.snd := by
  rw [hoffset]
  cases xs with
  | nil => exact ⟨rfl, rfl⟩
  | cons x xs =>
      have hne := (h.chunk x List.mem_cons_self).2.2
      exact ⟨⟨Int.le_refl 0, Int.natCast_pos.mpr (List.length_pos_iff.mpr hne)⟩, rfl⟩

theorem Lists.head_ne (h : Lists sb pool xs fs) (hne : xs ≠ []) : sb.head ≠ 0 := by
  cases xs with
  | nil => exact absurd rfl hne
  | cons x xs =>
      have hpos := h.head_pos
      omega

/-- `sz` bytes of the first chunk are passed, with its node if they are all. -/
theorem Lists.pass {n sz : Nat} (h : Lists sb pool ((p, msg) :: xs) fs) (hn : n < msg.length)
    (hoffset : sb.offset = n) (hsz : sz < msg.length - n) :
    Stored { sb with offset := sb.offset + sz } pool
      ((held ((p, msg) :: xs) sb.offset).drop sz) := by
  refine ⟨(p, msg) :: xs, fs, h.at_offset _, ⟨?_, ?_⟩, ?_⟩
  · dsimp only
    omega
  · dsimp only
    omega
  · dsimp only
    rw [hoffset, ← Int.natCast_add, held_cons (by omega), held_cons hn.le,
      List.drop_append_of_le_length, List.drop_drop]
    rw [List.length_drop]
    omega

/-- The bytes of the last chunk, without the ones to skip. -/
theorem last_bytes {n sz skip : Nat} (hn : n ≤ msg.length) (hsz : sz ≤ msg.length - n) :
    (if (skip : Int) < sz then bytesAt msg n (sz - skip) else .ok []) =
      .ok ((msg.drop n).take (sz - skip)) := by
  by_cases hskip : skip < sz
  · rw [if_pos (Int.ofNat_lt.mpr hskip), ← Int.ofNat_sub hskip.le]
    exact bytesAt_eq (by omega)
  · rw [if_neg fun hlt => hskip (Int.ofNat_lt.mp hlt), Nat.sub_eq_zero_of_le (Nat.not_lt.mp hskip)]
    rfl

/-- The bytes of a chunk that is not the last one, without the ones to skip. -/
theorem inner_bytes {n sz skip : Nat} (hn : n ≤ msg.length) :
    (if (0 : Int) < sz - skip then
      bytesAt msg n (if (sz - skip : Int) < (msg.length - n : Nat) then sz - skip
        else (msg.length - n : Nat)) else .ok []) =
      .ok ((msg.drop n).take (sz - skip)) := by
  by_cases hskip : skip < sz
  · rw [if_pos (by omega), ← Int.ofNat_sub hskip.le]
    by_cases hlt : sz - skip < msg.length - n
    · rw [if_pos (Int.ofNat_lt.mpr hlt)]
      exact bytesAt_eq (by omega)
    · rw [if_neg fun h => hlt (Int.ofNat_lt.mp h), bytesAt_eq (by omega),
        List.take_of_length_le (by rw [List.length_drop]),
        List.take_of_length_le (by rw [List.length_drop]; omega)]
  · rw [if_neg (by omega), Nat.sub_eq_zero_of_le (Nat.not_lt.mp hskip)]
    rfl

/-- The loop of `pop_lstring` reads the bytes before the last `skip` ones, and passes all. -/
theorem popLoop_eq {sz skip fuel : Nat} {b : List UInt8} (h : Lists sb pool xs fs)
    (hs : Starts sb.offset xs) (hne : xs ≠ []) (hsz : sz ≤ (held xs sb.offset).length)
    (hfuel : xs.length ≤ fuel) : ∃ sb' pool',
      popLoop skip fuel sb pool sb.head sz b =
        .ok (b ++ (held xs sb.offset).take (sz - skip), sb', pool') ∧
      Stored sb' pool' ((held xs sb.offset).drop sz) ∧ sb'.size = sb.size := by
  induction xs generalizing sb pool fs sz fuel b with
  | nil => exact absurd rfl hne
  | cons x xs ih =>
      obtain ⟨p, msg⟩ := x
      obtain ⟨hstart, hend⟩ := hs
      obtain ⟨n, hn⟩ := Int.eq_ofNat_of_zero_le hstart
      rw [hn, Int.ofNat_lt] at hend
      obtain ⟨hhead, hp, hget⟩ := h.head_pos
      obtain ⟨hmsg, hlen, -⟩ := h.chunk (p, msg) List.mem_cons_self
      have hheld : held ((p, msg) :: xs) n = msg.drop n ++ xs.flatMap Prod.snd :=
        held_cons hend.le
      rw [hn, hheld] at hsz ⊢
      have hbytes : (pool.node p).sz - sb.offset = ((msg.length - n : Nat) : Int) := by
        rw [hlen, hn, Int.ofNat_sub hend.le]
      cases fuel with
      | zero => exact absurd hfuel (Nat.not_succ_le_zero _)
      | succ fuel =>
          unfold popLoop
          rw [hget, Outcome.ok_bind]
          dsimp only at hend hbytes hmsg hsz ⊢
          rw [hbytes, hmsg, hn]
          by_cases hle : sz ≤ msg.length - n
          · have htake : ((msg.drop n ++ xs.flatMap Prod.snd).take (sz - skip)) =
                (msg.drop n).take (sz - skip) :=
              List.take_append_of_le_length (by rw [List.length_drop]; omega)
            rw [if_pos (Int.ofNat_le.mpr hle), last_bytes hend.le hle, Outcome.ok_bind, htake]
            by_cases hall : msg.length - n = sz
            · obtain ⟨sb', pool', hfree, hlists, hzero, hsize, -⟩ :=
                (h.at_offset ((n : Int) + sz)).free_head
              rw [if_pos (Int.ofNat_inj.mpr hall), hfree]
              refine ⟨sb', pool', rfl, ?_, hsize⟩
              rw [← hall, ← List.length_drop, List.drop_left]
              exact ⟨xs, p :: fs, hlists, hlists.start_zero hzero⟩
            · rw [if_neg fun heq => hall (Int.ofNat_inj.mp heq)]
              refine ⟨_, _, rfl, ?_, rfl⟩
              have hpass := h.pass hend hn (lt_of_le_of_ne hle (Ne.symm hall))
              rw [hn, hheld] at hpass
              exact hpass
          · have hlt := Nat.not_le.mp hle
            rw [if_neg fun h => hle (Int.ofNat_le.mp h), inner_bytes hend.le, Outcome.ok_bind]
            obtain ⟨sb', pool', hfree, hlists, hzero, hsize, hbrk⟩ := h.free_head
            obtain ⟨hstarts, hrest⟩ := hlists.start_zero hzero
            have hne : xs ≠ [] := by
              rintro rfl
              rw [List.flatMap_nil, List.append_nil, List.length_drop] at hsz
              exact hle hsz
            have hleft : sz - (msg.length - n) ≤ (held xs sb'.offset).length := by
              rw [List.length_append, List.length_drop] at hsz
              rw [hrest]
              omega
            obtain ⟨sb'', pool'', hloop, hstored, hsize'⟩ := ih hlists hstarts
              (b := b ++ (msg.drop n).take (sz - skip)) hne hleft (Nat.le_of_succ_le_succ hfuel)
            rw [hfree, Outcome.ok_bind, ← Int.ofNat_sub hlt.le, if_neg (by omega),
              Outcome.assert_bind (hlists.head_ne hne)]
            refine ⟨sb'', pool'', hloop.trans ?_, ?_, hsize'.trans hsize⟩
            · rw [hrest, List.take_append, List.length_drop, List.append_assoc, Nat.sub_right_comm]
            · rw [hrest] at hstored
              rw [List.drop_append, List.length_drop,
                List.drop_eq_nil_of_le (by rw [List.length_drop]; exact hlt.le)]
              exact hstored

/-- The paths before the loop do what the first pass of the loop does. -/
theorem popLstring_eq_popLoop {n sz skip : Nat} (h : Lists sb pool ((p, msg) :: xs) fs)
    (hn : n < msg.length) (hoffset : sb.offset = n) (hskip : skip ≤ sz) :
    popLstring sb pool sz skip = popLoop skip pool.brk sb pool sb.head sz [] := by
  obtain ⟨-, hp, hget⟩ := h.head_pos
  obtain ⟨hmsg, hlen, -⟩ := h.chunk (p, msg) List.mem_cons_self
  have hbytes : (pool.node p).sz - sb.offset = ((msg.length - n : Nat) : Int) := by
    rw [hlen, hoffset, Int.ofNat_sub hn.le]
  obtain ⟨fuel, hfuel⟩ := Nat.exists_eq_add_one.mpr h.pos
  unfold popLstring
  rw [hget, Outcome.ok_bind, hbytes, hmsg, hoffset]
  by_cases hlast : sz ≤ msg.length - n
  · have hread : bytesAt msg n ((sz : Int) - skip) = .ok ((msg.drop n).take (sz - skip)) := by
      rw [← Int.ofNat_sub hskip]
      exact bytesAt_eq (by omega)
    rw [hfuel, popLoop, hget, Outcome.ok_bind]
    dsimp only
    rw [hbytes, hmsg, hoffset, if_pos (Int.ofNat_le.mpr hlast), last_bytes hn.le hlast, hread]
    by_cases hall : msg.length - n = sz
    · rw [if_neg (by omega), if_pos (by omega), Outcome.ok_bind, Outcome.ok_bind,
        if_pos (by omega)]
      rfl
    · rw [if_pos (by omega), Outcome.ok_bind, Outcome.ok_bind, if_neg (by omega)]
      rfl
  · rw [if_neg (by omega), if_neg (by omega)]

/-- `pop_lstring` returns the bytes before the last `skip` ones, and passes them all. -/
theorem popLstring_eq {sz skip : Nat} (h : Stored sb pool buf) (hne : buf ≠ []) (hskip : skip ≤ sz)
    (hsz : sz ≤ buf.length) : ∃ sb' pool',
      popLstring sb pool sz skip = .ok (buf.take (sz - skip), sb', pool') ∧
      Stored sb' pool' (buf.drop sz) ∧ sb'.size = sb.size := by
  obtain ⟨xs, fs, hlists, hstarts, rfl⟩ := h
  cases xs with
  | nil =>
      rw [show sb.offset = 0 from hstarts] at hne
      exact absurd held_nil hne
  | cons x xs =>
      obtain ⟨p, msg⟩ := x
      obtain ⟨n, hn⟩ := Int.eq_ofNat_of_zero_le hstarts.1
      have hend := hstarts.2
      rw [hn, Int.ofNat_lt] at hend
      rw [popLstring_eq_popLoop hlists hend hn hskip]
      exact popLoop_eq hlists hstarts (List.cons_ne_nil _ _) hsz hlists.length_lt.le

/-- Cells that lie side by side and lead to the next one. -/
theorem chain_range {next : Nat → Nat} {a n : Nat}
    (h : ∀ q, a ≤ q → q < a + n → next q = if q + 1 < a + n then q + 1 else 0) :
    Chain next 0 (if 0 < n then a else 0) (List.range' a n) := by
  induction n generalizing a with
  | zero => rfl
  | succ n ih =>
      rw [if_pos (Nat.succ_pos n), List.range'_succ]
      refine ⟨rfl, ?_⟩
      have hrest := @ih (a + 1) fun q hle hlt => by
        rw [h q (by omega) (by omega), show a + (n + 1) = a + 1 + n by omega]
      rw [h a (Nat.le_refl a) (by omega)]
      by_cases hn : 0 < n
      · rw [if_pos hn] at hrest
        rw [if_pos (by omega)]
        exact hrest
      · rw [if_neg hn] at hrest
        rw [if_neg (by omega)]
        exact hrest

/-- `lnewpool` links the new nodes as free ones. -/
theorem Lists.grow {n : Nat} (h : Lists sb pool xs []) (len : Nat) (hn : 0 < n) :
    Lists sb { pool.grow n with freeNode := pool.brk, len := len } xs
      (List.range' pool.brk n) := by
  have hused : ∀ q ∈ xs.map Prod.fst, 0 < q ∧ q < pool.brk := fun q hq =>
    h.used q (List.mem_append_left [] hq)
  have hold : ∀ q ∈ xs.map Prod.fst, (pool.grow n).node q = pool.node q := by
    intro q hq
    have hlt := (hused q hq).2
    exact if_neg fun hnew => Nat.not_lt.mpr hnew.1 hlt
  refine ⟨?_, ?_, ?_, ?_, ?_, ?_, h.tail⟩
  · exact h.chain.congr fun q hq => congrArg BufferNode.next (hold q hq)
  · have hnew := @chain_range (fun q => ((pool.grow n).node q).next) pool.brk n fun q hle hlt => by
      unfold Pool.grow
      dsimp only
      rw [if_pos ⟨hle, hlt⟩]
    rw [if_pos hn] at hnew
    exact hnew
  · have hxs := h.distinct
    rw [List.append_nil] at hxs
    refine List.nodup_append.mpr ⟨hxs, List.nodup_range', fun q hq r hr => ?_⟩
    have hlt := (hused q hq).2
    have hle := (List.mem_range'_1.mp hr).1
    omega
  · intro q hq
    have hpos := h.pos
    change 0 < q ∧ q < pool.brk + n
    cases List.mem_append.mp hq with
    | inl hxs =>
        have hlt := hused q hxs
        omega
    | inr hnew =>
        have hlt := List.mem_range'_1.mp hnew
        omega
  · exact Nat.add_pos_left h.pos n
  · intro x hx
    have hmem : x.1 ∈ xs.map Prod.fst := List.mem_map_of_mem hx
    dsimp only
    rw [hold x.1 hmem]
    exact h.chunk x hx

/-- The first free node leaves the free list. -/
theorem Lists.take_free (h : Lists sb pool xs (p :: fs)) :
    Lists sb { pool with freeNode := (pool.node p).next } xs fs ∧
      p ∉ xs.map Prod.fst ++ fs := by
  have hdistinct := List.perm_middle.nodup_iff.mp h.distinct
  rw [List.nodup_cons] at hdistinct
  refine ⟨⟨h.chain, h.free.2, hdistinct.2, fun q hq => h.used q ?_, h.pos, h.chunk, h.tail⟩,
    hdistinct.1⟩
  exact List.perm_middle.mem_iff.mpr (List.mem_cons_of_mem p hq)

/-- The pool always has a node, and it is not one of the buffer's. -/
theorem takeNode_eq (h : Lists sb pool xs fs) : ∃ p pool' fs',
    takeNode pool = .ok (p, pool') ∧ Lists sb pool' xs fs' ∧ p ∉ xs.map Prod.fst ++ fs' ∧
      0 < p ∧ p < pool'.brk := by
  have hzero : 0 ∉ fs := fun hmem =>
    Nat.lt_irrefl 0 (h.used 0 (List.mem_append_right _ hmem)).1
  unfold takeNode
  by_cases hfree : pool.freeNode = 0
  · obtain rfl := h.free.eq_nil hzero hfree
    rw [if_pos hfree]
    dsimp only
    generalize (if pool.len = 0 then pool.len + 1 else pool.len) = tsz
    have hn : 0 < (if tsz ≤ LARGE_PAGE_NODE - 3 then 8 <<< tsz
        else 8 <<< (LARGE_PAGE_NODE - 3)) := by
      rw [← apply_ite (8 <<< ·), Nat.shiftLeft_eq]
      exact Nat.mul_pos (by decide) (Nat.two_pow_pos _)
    generalize (if tsz ≤ LARGE_PAGE_NODE - 3 then 8 <<< tsz
      else 8 <<< (LARGE_PAGE_NODE - 3)) = n at *
    obtain ⟨k, rfl⟩ := Nat.exists_eq_add_one.mpr hn
    have hgrow := h.grow (tsz + 1) hn
    have hused := hgrow.used pool.brk (List.mem_append_right _ (List.mem_range'_1.mpr (by omega)))
    rw [List.range'_succ] at hgrow
    obtain ⟨hlists, hfresh⟩ := hgrow.take_free
    refine ⟨_, _, _, ?_, hlists, hfresh, hused⟩
    rw [get_eq h.pos]
    rfl
  · rw [if_neg hfree]
    obtain ⟨fs', rfl, -⟩ := h.free.exists_cons hfree
    obtain ⟨hlists, hfresh⟩ := h.take_free
    have hused := h.used pool.freeNode (List.mem_append_right _ List.mem_cons_self)
    refine ⟨_, _, fs', ?_, hlists, hfresh, hused⟩
    dsimp only
    rw [get_eq hused.1]
    rfl

/-- The first chunk. -/
theorem Lists.push_first (h : Lists sb pool [] fs) (hp : p ∉ fs) (hused : 0 < p ∧ p < pool.brk)
    (hmsg : msg ≠ []) (size : Int) :
    Lists { sb with head := p, tail := p, size := size } (pool.set p ⟨msg, msg.length, 0⟩)
      [(p, msg)] fs := by
  have hnew : (pool.set p ⟨msg, msg.length, 0⟩).node p = ⟨msg, msg.length, 0⟩ :=
    Function.update_self ..
  refine ⟨⟨rfl, ?_⟩, ?_, List.nodup_cons.mpr ⟨hp, h.distinct⟩, ?_, h.pos, ?_, rfl⟩
  · dsimp only
    rw [hnew]
    rfl
  · refine h.free.congr fun q hq => congrArg BufferNode.next (Function.update_of_ne ?_ ..)
    rintro rfl
    exact hp hq
  · intro q hq
    cases List.mem_cons.mp hq with
    | inl heq =>
        rw [heq]
        exact hused
    | inr hmem => exact h.used q hmem
  · intro x hx
    rw [List.mem_singleton.mp hx, hnew]
    exact ⟨rfl, rfl, hmsg⟩

/-- One more chunk, behind the last one. -/
theorem Lists.push_more {ys : List (Nat × List UInt8)} {t : Nat} {m : List UInt8}
    (h : Lists sb pool (ys ++ [(t, m)]) fs) (hp : p ∉ (ys ++ [(t, m)]).map Prod.fst ++ fs)
    (hused : 0 < p ∧ p < pool.brk) (hmsg : msg ≠ []) (size : Int) :
    Lists { sb with tail := p, size := size }
      ((pool.set p ⟨msg, msg.length, 0⟩).set t { pool.node t with next := p })
      (ys ++ [(t, m)] ++ [(p, msg)]) fs := by
  have hpt : p ≠ t := by
    rintro rfl
    exact hp (by simp)
  have hnodup := h.distinct
  have hchain := h.chain
  rw [List.map_append, List.map_cons, List.map_nil] at hnodup hchain hp
  obtain ⟨q, hys, hq, -⟩ := Chain.append_iff.mp hchain
  rw [hq] at hys
  obtain ⟨hcells, -, hfree⟩ := List.nodup_append.mp hnodup
  have htys : t ∉ ys.map Prod.fst := fun hmem =>
    (List.nodup_append.mp hcells).2.2 t hmem t List.mem_cons_self rfl
  have htfs : t ∉ fs := fun hmem => hfree t (by simp) t hmem rfl
  have hnew : ((pool.set p ⟨msg, msg.length, 0⟩).set t { pool.node t with next := p }).node p =
      ⟨msg, msg.length, 0⟩ := by
    unfold Pool.set
    dsimp only
    rw [Function.update_of_ne hpt, Function.update_self]
  have hlast : ((pool.set p ⟨msg, msg.length, 0⟩).set t { pool.node t with next := p }).node t =
      { pool.node t with next := p } := Function.update_self ..
  have hsame : ∀ q, q ≠ p → q ≠ t →
      ((pool.set p ⟨msg, msg.length, 0⟩).set t { pool.node t with next := p }).node q =
        pool.node q := by
    intro q hqp hqt
    unfold Pool.set
    dsimp only
    rw [Function.update_of_ne hqt, Function.update_of_ne hqp]
  have hcells : (ys ++ [(t, m)] ++ [(p, msg)]).map Prod.fst = ys.map Prod.fst ++ [t] ++ [p] := by
    rw [List.map_append, List.map_append]
    rfl
  refine ⟨?_, ?_, ?_, ?_, h.pos, ?_, ?_⟩
  · rw [hcells, List.append_assoc]
    refine Chain.append_iff.mpr ⟨t, hys.congr fun q hq => ?_, rfl, ?_, ?_⟩
    · have hqp : q ≠ p := fun heq => hp (heq ▸ by simp [hq])
      have hqt : q ≠ t := fun heq => htys (heq ▸ hq)
      dsimp only
      rw [hsame q hqp hqt]
    · dsimp only
      rw [hlast]
    · dsimp only
      rw [hnew]
      rfl
  · refine h.free.congr fun q hq => congrArg BufferNode.next (hsame q ?_ ?_)
    · rintro rfl
      exact hp (List.mem_append_right _ hq)
    · exact fun heq => htfs (heq ▸ hq)
  · rw [hcells, List.append_assoc _ [p]]
    exact List.perm_middle.nodup_iff.mpr (List.nodup_cons.mpr ⟨hp, hnodup⟩)
  · intro q hq
    rw [hcells, List.append_assoc _ [p]] at hq
    cases List.mem_cons.mp (List.perm_middle.mem_iff.mp hq) with
    | inl heq =>
        rw [heq]
        exact hused
    | inr hmem =>
        refine h.used q ?_
        rw [List.map_append]
        exact hmem
  · intro x hx
    cases List.mem_append.mp hx with
    | inl hold =>
        have hmem : x.1 ∈ (ys ++ [(t, m)]).map Prod.fst := List.mem_map_of_mem hold
        have hxp : x.1 ≠ p := by
          rintro heq
          rw [List.map_append, heq] at hmem
          exact hp (List.mem_append_left _ hmem)
        have hchunk := h.chunk x hold
        by_cases hxt : x.1 = t
        · rw [hxt] at hchunk ⊢
          rw [hlast]
          exact hchunk
        · rw [hsame x.1 hxp hxt]
          exact hchunk
    | inr hlast =>
        rw [List.mem_singleton.mp hlast, hnew]
        exact ⟨rfl, rfl, hmsg⟩
  · rw [hcells, List.getLast?_append, List.getLast?_singleton]
    rfl

/-- `lpushbuffer` puts a chunk behind what is there. -/
theorem lpushbuffer_eq (h : Stored sb pool buf) (hmsg : msg ≠ []) : ∃ sb' pool',
    lpushbuffer sb pool msg msg.length = .ok (sb', pool') ∧ Stored sb' pool' (buf ++ msg) ∧
      sb'.size = sb.size + msg.length := by
  obtain ⟨xs, fs, hlists, hstarts, hheld⟩ := h
  obtain ⟨p, pool₁, fs', htake, htaken, hfresh, hused⟩ := takeNode_eq hlists
  unfold lpushbuffer
  rw [htake, Outcome.ok_bind]
  dsimp only
  cases List.eq_nil_or_concat xs with
  | inl hnil =>
      subst hnil
      have hlen : 0 < msg.length := List.length_pos_iff.mpr hmsg
      have hoffset : sb.offset = 0 := hstarts
      rw [hoffset] at hheld
      have htail : sb.tail = 0 := htaken.tail
      rw [if_pos htaken.head_nil, Outcome.assert_bind htail]
      refine ⟨_, _, rfl, ⟨[(p, msg)], fs', htaken.push_first hfresh hused hmsg _, ?_, ?_⟩, rfl⟩
      · dsimp only
        exact ⟨hoffset.ge, by rw [hoffset]; exact Int.natCast_pos.mpr hlen⟩
      · dsimp only
        rw [hoffset, ← hheld]
        simp [held]
  | inr hlast =>
      obtain ⟨ys, ⟨t, m⟩, hxs⟩ := hlast
      rw [List.concat_eq_append] at hxs
      subst hxs
      have htail : sb.tail = t := by
        rw [htaken.tail, List.map_append, List.map_cons, List.map_nil, List.getLast?_append,
          List.getLast?_singleton]
        rfl
      have ht := htaken.used t (by simp)
      have hpt : t ≠ p := by
        rintro rfl
        exact hfresh (by simp)
      have hnode : (pool₁.set p ⟨msg, msg.length, 0⟩).node t = pool₁.node t :=
        Function.update_of_ne hpt ..
      rw [if_neg (htaken.head_ne (by simp)), htail, get_eq ht.1, Outcome.ok_bind, hnode]
      refine ⟨_, _, rfl, ⟨_, fs', htaken.push_more hfresh hused hmsg _, ?_, ?_⟩, rfl⟩
      · cases ys with
        | nil => exact hstarts
        | cons y ys => exact hstarts
      · have hin : sb.offset.toNat ≤ ((ys ++ [(t, m)]).flatMap Prod.snd).length := by
          cases ys with
          | nil =>
              have hlt : sb.offset < m.length := hstarts.2
              have hlen : ([(t, m)].flatMap Prod.snd).length = m.length := by
                rw [List.flatMap_singleton]
              change sb.offset.toNat ≤ ([(t, m)].flatMap Prod.snd).length
              omega
          | cons y ys =>
              have hlt : sb.offset < y.2.length := hstarts.2
              rw [List.cons_append, List.flatMap_cons, List.length_append]
              omega
        dsimp only
        unfold held at hheld ⊢
        rw [List.flatMap_append, List.drop_append_of_le_length hin, hheld, List.flatMap_singleton]

/-- The loop that reads all: what is left is read, and every node goes back. -/
theorem readLoop_eq {fuel : Nat} {b : List UInt8} (h : Lists sb pool xs fs)
    (hs : Starts sb.offset xs) (hfuel : xs.length < fuel) : ∃ sb' pool',
      readLoop fuel sb pool b = .ok (b ++ held xs sb.offset, sb', pool') ∧
      Stored sb' pool' [] := by
  induction xs generalizing sb pool fs fuel b with
  | nil =>
      obtain ⟨k, rfl⟩ := Nat.exists_eq_add_one.mpr (Nat.zero_lt_of_lt hfuel)
      have hoffset : sb.offset = 0 := hs
      refine ⟨sb, pool, ?_, [], fs, h, hs, by rw [hoffset, held_nil]⟩
      rw [readLoop, if_pos h.head_nil, hoffset, held_nil, List.append_nil]
  | cons x xs ih =>
      obtain ⟨p, msg⟩ := x
      obtain ⟨k, rfl⟩ := Nat.exists_eq_add_one.mpr (Nat.zero_lt_of_lt hfuel)
      obtain ⟨n, hn⟩ := Int.eq_ofNat_of_zero_le hs.1
      have hend := hs.2
      rw [hn, Int.ofNat_lt] at hend
      obtain ⟨-, -, hget⟩ := h.head_pos
      obtain ⟨hmsg, hlen, -⟩ := h.chunk (p, msg) List.mem_cons_self
      obtain ⟨sb', pool', hfree, hlists, hzero, -, -⟩ := h.free_head
      obtain ⟨hstarts, hrest⟩ := hlists.start_zero hzero
      obtain ⟨sb'', pool'', hloop, hstored⟩ := ih hlists hstarts (b := b ++ msg.drop n)
        (Nat.lt_of_succ_lt_succ hfuel)
      refine ⟨sb'', pool'', ?_, hstored⟩
      have hread : bytesAt msg n (msg.length - n) = .ok (msg.drop n) := by
        rw [← Int.ofNat_sub hend.le, bytesAt_eq (Nat.add_sub_of_le hend.le).le]
        exact congrArg _ (List.take_of_length_le (by rw [List.length_drop]))
      rw [readLoop, if_neg (h.head_ne (List.cons_ne_nil _ _)), hget, Outcome.ok_bind]
      dsimp only at hmsg hlen hend ⊢
      rw [hlen, hmsg, hn, hread, Outcome.ok_bind, hfree, Outcome.ok_bind]
      rw [held_cons hend.le, ← List.append_assoc, ← hrest]
      exact hloop

/-- `lclearbuffer` frees what `lreadall` reads. -/
theorem clear_eq {fuel : Nat} (h : Lists sb pool xs fs) (hs : Starts sb.offset xs)
    (hfuel : xs.length < fuel) : ∃ sb' pool',
      lclearbuffer.clear fuel sb pool = .ok ({ sb' with size := 0 }, pool') ∧
      Stored sb' pool' [] := by
  induction xs generalizing sb pool fs fuel with
  | nil =>
      obtain ⟨k, rfl⟩ := Nat.exists_eq_add_one.mpr (Nat.zero_lt_of_lt hfuel)
      have hoffset : sb.offset = 0 := hs
      refine ⟨sb, pool, ?_, [], fs, h, hs, by rw [hoffset, held_nil]⟩
      rw [lclearbuffer.clear, if_pos h.head_nil]
  | cons x xs ih =>
      obtain ⟨p, msg⟩ := x
      obtain ⟨k, rfl⟩ := Nat.exists_eq_add_one.mpr (Nat.zero_lt_of_lt hfuel)
      obtain ⟨sb', pool', hfree, hlists, hzero, -, -⟩ := h.free_head
      rw [lclearbuffer.clear, if_neg (h.head_ne (List.cons_ne_nil _ _)), hfree]
      exact ih hlists (hlists.start_zero hzero).1 (Nat.lt_of_succ_lt_succ hfuel)

end Nodes

end Jump.Skynet.LuaSocket
