import Jump.Skynet.GateService.Control
import Mathlib.Data.List.TakeWhile

/-! # Which messages the gate takes for what they mean

The loops of `_ctrl` are followed through the copy of the message. None of them leaves the copy;
what can go wrong are the comparisons with the literals and the pieces that are empty.
-/

namespace Jump.Skynet.GateService.Control

open Jump.Core Jump.Core.CString

/-- The characters from `p` on -/
def Lies (b : Nat → Char) (p : Nat) (cs : List Char) : Prop :=
  ∀ i (hi : i < cs.length), b (p + i) = cs[i]

/-- A token of the message against a literal with its NUL -/
def compareWith : List Char → List Char → Option Bool
  | [], _ => some true
  | _ :: _, [] => none
  | c :: t, d :: l => if c = d then compareWith t l else some false

/-- What `forward` takes for its arguments: an empty piece gives what lies behind it. -/
def forwarded (s next : List Char) : Request :=
  match pieces s with
  | none => .nothing
  | some (id, agent, client) =>
    .forward id (if agent = [] then client else agent.drop 1)
      (if client = [] then next else client.drop 1)

/-- The comparisons in their order -/
def firstMatch (t : List Char) : List (List Char × Request) → Option Request
  | [] => some .nothing
  | (literal, r) :: others =>
    match compareWith t (literal ++ [NUL]) with
    | none => none
    | some true => some r
    | some false => firstMatch t others

/-- `none` stands for an access behind a literal. -/
def checked : Option Request → Except CString.Fault Request
  | some r => .ok r
  | none => .error .outOfBounds

/-- `_ctrl` without the copy -/
def request (msg : List Char) : Option Request :=
  firstMatch (token msg) [(KICK, .kick (arg msg)), (FORWARD, forwarded (arg msg) (behind msg)),
    (BROKER, .broker (arg msg)), (START, .start), (CLOSE, .close)]

/-! ## The loops -/

section Loops

variable {b : Nat → Char} {p size : Nat} {c : Char} {s t cs msg : List Char}

theorem Lies.head (h : Lies b p (c :: cs)) : b p = c := h 0 (Nat.succ_pos _)

theorem Lies.tail (h : Lies b p (c :: cs)) : Lies b (p + 1) cs := by
  intro i hi
  have hnext := h (i + 1) (Nat.succ_lt_succ hi)
  rwa [List.getElem_cons_succ, ← Nat.add_assoc, Nat.add_right_comm] at hnext

theorem Lies.suffix (h : Lies b p (s ++ t)) : Lies b (p + s.length) t := by
  intro i hi
  have hnext := h (s.length + i) (by rw [List.length_append]; omega)
  simpa only [List.getElem_append_right (Nat.le_add_right _ _), Nat.add_sub_cancel_left,
    Nat.add_assoc] using hnext

theorem tmp_lies (msg : List Char) : Lies (tmp msg) 0 msg := by
  intro i hi
  rw [tmp, Nat.zero_add, List.getElem?_eq_getElem hi, Option.getD_some]

theorem commandLoop_run (h : Lies b p cs) (hs : p + cs.length ≤ size) :
    commandLoop size cs.length p b = .ok (p + (cs.takeWhile (· ≠ ' ')).length, b) := by
  induction cs generalizing p with
  | nil => rfl
  | cons c cs ih =>
      rw [List.length_cons] at hs
      rw [List.length_cons, commandLoop, bind_ok (charAt_run (by omega)), h.head]
      by_cases hc : c = ' '
      · rw [if_pos hc, List.takeWhile_cons_of_neg (by simpa using hc)]
        rfl
      · rw [if_neg hc, ih h.tail (by omega), List.takeWhile_cons_of_pos (by simpa using hc),
          List.length_cons, Nat.add_right_comm, Nat.add_assoc]

theorem skipLoop_run (h : Lies b p cs) (hs : p + cs.length ≤ size) :
    skipLoop size cs.length p b = .ok (p + (cs.takeWhile (· = ' ')).length, b) := by
  induction cs generalizing p with
  | nil => rfl
  | cons c cs ih =>
      rw [List.length_cons] at hs
      rw [List.length_cons, skipLoop, bind_ok (charAt_run (by omega)), h.head]
      by_cases hc : c = ' '
      · rw [if_neg (not_not_intro hc), ih h.tail (by omega),
          List.takeWhile_cons_of_pos (by simpa using hc), List.length_cons, Nat.add_right_comm,
          Nat.add_assoc]
      · rw [if_pos hc, List.takeWhile_cons_of_neg (by simpa using hc)]
        rfl

theorem memcmpLoop_run (h : Lies b p t) (hs : p + t.length ≤ size) (literal : List Char) :
    memcmpLoop size literal t.length p b = match compareWith t literal with
      | some r => .ok (r, b)
      | none => .error .outOfBounds := by
  induction t generalizing p literal with
  | nil => cases literal <;> rfl
  | cons c t ih =>
      rw [List.length_cons] at hs
      cases literal with
      | nil => rfl
      | cons d literal =>
          rw [List.length_cons, memcmpLoop, bind_ok (charAt_run (by omega)), h.head, compareWith]
          by_cases hcd : c = d
          · rw [if_pos hcd, if_pos hcd]
            exact ih h.tail (by omega) literal
          · rw [if_neg hcd, if_neg hcd]
            rfl

/-- The characters move down by `k`, and nothing else changes. -/
theorem moveLoop_run (k : Nat) : ∀ {cs : List Char} {j : Nat} {b : Nat → Char},
    Lies b (k + j) cs → k + j + cs.length ≤ size →
    ∃ b', moveLoop size k cs.length (k + j) b = .ok (k + j + cs.length, b') ∧ Lies b' j cs ∧
      ∀ x, x < j ∨ j + cs.length ≤ x → b' x = b x := by
  intro cs
  induction cs with
  | nil =>
      intro j b _ _
      refine ⟨b, rfl, ?_, fun x _ => rfl⟩
      intro i hi
      cases hi
  | cons c cs ih =>
      intro j b h hs
      rw [List.length_cons] at hs
      let b₁ : Nat → Char := fun i => if i = j then c else b i
      have hother : ∀ x, x ≠ j → b₁ x = b x := fun x hx => if_neg hx
      have hrest : Lies b₁ (k + (j + 1)) cs := by
        intro i hi
        rw [hother _ (by omega)]
        exact h.tail i hi
      obtain ⟨b', hrun, hlies, hsame⟩ := ih hrest (by omega)
      refine ⟨b', ?_, ?_, ?_⟩
      · have hset : setChar size (k + j - k : Nat) c b = .ok ((), b₁) := by
          rw [Nat.add_sub_cancel_left]
          exact setChar_run (by omega)
        rw [List.length_cons, moveLoop, bind_ok (charAt_run (by omega)), h.head, bind_ok hset,
          Nat.add_assoc k j 1, hrun]
        congr 2
        omega
      · intro i hi
        cases i with
        | zero =>
            rw [Nat.add_zero, hsame j (Or.inl (Nat.lt_succ_self j))]
            exact if_pos rfl
        | succ i =>
            have hnext := hlies i (by rw [List.length_cons] at hi; omega)
            rwa [List.getElem_cons_succ, ← Nat.add_assoc, Nat.add_right_comm]
      · intro x hx
        rw [List.length_cons] at hx
        rw [hsame x (by omega), hother x (by omega)]

end Loops

/-! ## `_parm` -/

section Parm

variable {msg : List Char} {b : Nat → Char}

/-- A message is its first token, blanks, and the rest. -/
theorem split_message (msg : List Char) : msg =
    token msg ++ ((msg.dropWhile (· ≠ ' ')).takeWhile (· = ' ') ++ rest msg) := by
  rw [rest, List.takeWhile_append_dropWhile, token, List.takeWhile_append_dropWhile]

theorem token_le (msg : List Char) : (token msg).length + (rest msg).length ≤ msg.length := by
  have hlen := congrArg List.length (split_message msg)
  rw [List.length_append, List.length_append] at hlen
  omega

/-- The rest is shorter than the message: a token or a blank is in front of it. -/
theorem rest_lt (hne : msg ≠ []) : (rest msg).length < msg.length := by
  have hle := token_le msg
  by_cases htoken : token msg = []
  · obtain ⟨c, cs, rfl⟩ := List.exists_cons_of_ne_nil hne
    have hc : c = ' ' := by
      by_contra hc
      rw [token, List.takeWhile_cons_of_pos (by simpa using hc)] at htoken
      cases htoken
    rw [rest, List.dropWhile_cons_of_neg (by simpa using hc),
      List.dropWhile_cons_of_pos (by simpa using hc), List.length_cons]
    exact Nat.lt_succ_of_le (List.dropWhile_suffix _).length_le
  · have hpos := List.length_pos_of_ne_nil htoken
    omega

theorem arg_le (msg : List Char) : (arg msg).length ≤ (rest msg).length :=
  (List.takeWhile_prefix _).length_le

/-- The copy as `_parm` leaves it -/
structure Moved (msg : List Char) (b : Nat → Char) : Prop where
  text : Lies b 0 (rest msg)
  nul : b (rest msg).length = NUL
  stale : ∀ x, (rest msg).length < x → b x = tmp msg x

theorem parm_run (hne : msg ≠ []) : ∃ b,
    parm (msg.length + 1) msg.length (token msg).length (tmp msg) = .ok ((), b) ∧ Moved msg b := by
  have hlt := rest_lt hne
  have hlies := tmp_lies msg
  have hwhole : token msg ++ msg.dropWhile (· ≠ ' ') = msg := List.takeWhile_append_dropWhile
  have hblanks : (msg.dropWhile (· ≠ ' ')).takeWhile (· = ' ') ++ rest msg =
      msg.dropWhile (· ≠ ' ') := List.takeWhile_append_dropWhile
  have hlen := congrArg List.length hwhole
  have hlen' := congrArg List.length hblanks
  rw [List.length_append] at hlen hlen'
  rw [← hwhole] at hlies
  have hback := hlies.suffix
  rw [hwhole, Nat.zero_add] at hback
  have hfit : (token msg).length + (msg.dropWhile (· ≠ ' ')).length ≤ msg.length + 1 := by omega
  have hskip := skipLoop_run hback hfit
  rw [← hblanks] at hback
  have hrest := hback.suffix
  generalize hk : (token msg).length +
    ((msg.dropWhile (· ≠ ' ')).takeWhile (· = ' ')).length = k at hskip hrest
  have hfit' : k + 0 + (rest msg).length ≤ msg.length + 1 := by omega
  obtain ⟨b₁, hmove, hlies₁, hsame⟩ := moveLoop_run k hrest hfit'
  simp only [Nat.add_zero] at hmove
  have hcount : msg.length - (token msg).length = (msg.dropWhile (· ≠ ' ')).length := by omega
  have hcount' : msg.length - k = (rest msg).length := by omega
  let b₂ : Nat → Char := fun i => if i = (rest msg).length then NUL else b₁ i
  have hset : setChar (msg.length + 1) (k + (rest msg).length - k : Nat) NUL b₁ =
      .ok ((), b₂) := by
    rw [Nat.add_sub_cancel_left]
    exact setChar_run (by omega)
  have hother : ∀ x, x ≠ (rest msg).length → b₂ x = b₁ x := fun x hx => if_neg hx
  refine ⟨b₂, ?_, ?_, if_pos rfl, ?_⟩
  · rw [parm, hcount, bind_ok hskip, hcount', bind_ok hmove, hset]
  · intro i hi
    rw [hother _ (by omega)]
    exact hlies₁ i hi
  · intro x hx
    rw [hother x (by omega), hsame x (by omega)]

theorem Moved.arg_holds (h : Moved msg b) (hne : msg ≠ []) :
    CString.Holds (msg.length + 1) b 0 (arg msg) := by
  have hlt := rest_lt hne
  refine holds_of_list (by omega) h.text ?_
  rw [Nat.zero_add]
  exact h.nul

/-- The whole copy: the text and its NUL have moved over the front of the message. -/
theorem Moved.lies (h : Moved msg b) :
    Lies b 0 (rest msg ++ NUL :: msg.drop ((rest msg).length + 1)) := by
  intro x hx
  rw [Nat.zero_add, List.getElem_append]
  split
  next hfront =>
    have hread := h.text x hfront
    rwa [Nat.zero_add] at hread
  next hback =>
    obtain ⟨m, rfl⟩ : ∃ m, x = (rest msg).length + m := ⟨x - (rest msg).length, by omega⟩
    cases m with
    | zero => simpa using h.nul
    | succ m =>
        rw [List.length_append, List.length_cons, List.length_drop] at hx
        rw [h.stale _ (by omega), tmp, List.getElem?_eq_getElem (by omega), Option.getD_some]
        simp only [Nat.add_sub_cancel_left, List.getElem_cons_succ, List.getElem_drop]
        congr 1
        omega

theorem Moved.behind_holds (h : Moved msg b) (hne : msg ≠ []) :
    CString.Holds (msg.length + 1) b ((arg msg).length + 1) (behind msg) := by
  have hlt := rest_lt hne
  have hle := arg_le msg
  have hlen : (rest msg ++ NUL :: msg.drop ((rest msg).length + 1)).length = msg.length := by
    rw [List.length_append, List.length_cons, List.length_drop]
    omega
  refine holds_of_list ?_ ?_ ?_
  · rw [List.length_drop, hlen]
    omega
  · intro i hi
    rw [List.length_drop] at hi
    have hread := h.lies ((arg msg).length + 1 + i) (by omega)
    rw [List.getElem_drop]
    rwa [Nat.zero_add] at hread
  · rw [List.length_drop, hlen]
    have hend : (arg msg).length + 1 + (msg.length - ((arg msg).length + 1)) = msg.length := by
      omega
    rw [hend, h.stale _ hlt, tmp, List.getElem?_eq_none (Nat.le_refl _)]
    rfl

end Parm

/-! ## The arguments of `forward` -/

section Forward

variable {size p : Nat} {b : Nat → Char} {s x y next : List Char}

theorem cutBlank_none (h : cutBlank s = none) : ' ' ∉ s := by
  intro hmem
  rw [cutBlank, if_pos hmem] at h
  cases h

theorem eq_of_mem_blank (h : ' ' ∈ s) :
    s = s.takeWhile (· ≠ ' ') ++ ' ' :: (s.dropWhile (· ≠ ' ')).drop 1 := by
  induction s with
  | nil => cases h
  | cons c s ih =>
      by_cases hc : c = ' '
      · rw [hc]
        rfl
      · have hmem : ' ' ∈ s := (List.mem_cons.mp h).resolve_left (Ne.symm hc)
        rw [List.takeWhile_cons_of_pos (by simpa using hc),
          List.dropWhile_cons_of_pos (by simpa using hc), List.cons_append, ← ih hmem]

theorem cutBlank_some (h : cutBlank s = some (x, y)) : s = x ++ ' ' :: y ∧ ' ' ∉ x := by
  by_cases hmem : ' ' ∈ s
  · rw [cutBlank, if_pos hmem] at h
    cases h
    refine ⟨eq_of_mem_blank hmem, ?_⟩
    intro htaken
    simpa using List.mem_takeWhile_imp htaken
  · rw [cutBlank, if_neg hmem] at h
    cases h

theorem strsep_none (h : CString.Holds size b p s) (hcut : cutBlank s = none) :
    strsep size p b = .ok (none, b) := by
  rw [strsep, bind_ok (find_none h (cutBlank_none hcut) (by decide))]
  rfl

/-- The blank becomes a NUL between the two parts. -/
theorem strsep_some (h : CString.Holds size b p s) (hcut : cutBlank s = some (x, y)) :
    ∃ b', strsep size p b = .ok (some (p + x.length + 1), b') ∧ CString.Holds size b' p x ∧
      CString.Holds size b' (p + x.length + 1) y ∧ ∀ i, i ≠ p + x.length → b' i = b i := by
  obtain ⟨rfl, hblank⟩ := cutBlank_some hcut
  have hlt := h.lt
  rw [List.length_append, List.length_cons] at hlt
  let b' : Nat → Char := fun i => if i = p + x.length then NUL else b i
  have hother : ∀ i, i ≠ p + x.length → b' i = b i := fun i hi => if_neg hi
  have hset : setChar size (p + x.length : Nat) NUL b = .ok ((), b') := setChar_run (by omega)
  refine ⟨b', ?_, ?_, ?_, hother⟩
  · rw [strsep, bind_ok (find_some h hblank)]
    dsimp only
    rw [bind_ok hset]
    rfl
  · refine h.cut ?_ (if_pos rfl)
    intro i _ hi
    exact hother i (by omega)
  · have hback : CString.Holds size b (p + x.length + 1) y := h.suffix.tail
    refine hback.frame ?_
    intro i hi _
    exact hother i (by omega)

theorem pieces_none_left (h : cutBlank s = none) : pieces s = none := by
  rw [pieces, h]
  rfl

theorem pieces_none_right (h : cutBlank s = some (x, y)) (h' : cutBlank y = none) :
    pieces s = none := by
  rw [pieces, h, Option.bind_some, h']
  rfl

theorem pieces_some {agent client : List Char} (h : cutBlank s = some (x, y))
    (h' : cutBlank y = some (agent, client)) : pieces s = some (x, agent, client) := by
  rw [pieces, h, Option.bind_some, h']
  rfl

/-- What is read behind the first character of a piece, or in its place if it is empty. -/
theorem behind_first {c : List Char} (h : CString.Holds size b p c) (hnext : c = [] →
    CString.Holds size b (p + 1) next) :
    str size (p + 1) b = .ok (if c = [] then next else c.drop 1, b) := by
  cases c with
  | nil => exact str_run (hnext rfl)
  | cons a c =>
      rw [if_neg (List.cons_ne_nil a c)]
      exact str_run h.tail

theorem forwardCommand_run (h : CString.Holds size b 0 s)
    (hnext : CString.Holds size b (s.length + 1) next) :
    ∃ b', forwardCommand size b = .ok (forwarded s next, b') := by
  rw [forwardCommand]
  cases hcut : cutBlank s with
  | none =>
      refine ⟨b, ?_⟩
      rw [bind_ok (strsep_none h hcut), forwarded, pieces_none_left hcut]
      rfl
  | some parts =>
      obtain ⟨id, y⟩ := parts
      obtain ⟨b₁, hsep, hid, hy, hsame⟩ := strsep_some h hcut
      obtain ⟨hs, -⟩ := cutBlank_some hcut
      rw [bind_ok hsep]
      dsimp only
      rw [bind_ok (str_run hid)]
      simp only [Nat.zero_add] at hy ⊢
      cases hcut' : cutBlank y with
      | none =>
          refine ⟨b₁, ?_⟩
          rw [bind_ok (strsep_none hy hcut'), forwarded, pieces_none_right hcut hcut']
          rfl
      | some parts' =>
          obtain ⟨agent, client⟩ := parts'
          obtain ⟨b₂, hsep', hagent, hclient, hsame'⟩ := strsep_some hy hcut'
          obtain ⟨hy', -⟩ := cutBlank_some hcut'
          have hlen : s.length = id.length + 1 + agent.length + 1 + client.length := by
            rw [hs, hy']
            simp only [List.length_append, List.length_cons]
            omega
          have hnext₂ : CString.Holds size b₂ (s.length + 1) next := by
            refine hnext.frame ?_
            intro i hi _
            rw [hsame' i (by omega), hsame i (by omega)]
          have hempty : agent = [] → CString.Holds size b₂ (id.length + 1 + 1) client := by
            intro hnil
            rw [hnil] at hclient
            exact hclient
          have hempty' : client = [] →
              CString.Holds size b₂ (id.length + 1 + agent.length + 1 + 1) next := by
            intro hnil
            rw [hnil] at hlen
            rw [hlen] at hnext₂
            exact hnext₂
          have hread := behind_first hagent hempty
          have hread' := behind_first hclient hempty'
          refine ⟨b₂, ?_⟩
          rw [bind_ok hsep']
          dsimp only
          rw [bind_ok hread, bind_ok hread', forwarded, pieces_some hcut hcut']
          rfl

end Forward

/-! ## The whole function -/

section Parse

variable {msg literal : List Char}

theorem token_lies (msg : List Char) : Lies (tmp msg) 0 (token msg) := by
  intro i hi
  have hle := token_le msg
  have hread := tmp_lies msg i (by omega)
  have hprefix : token msg <+: msg := List.takeWhile_prefix _
  rw [hread, hprefix.getElem hi]

theorem memcmp_bind (f : Bool → Access Request) (literal : List Char) :
    (memcmp (msg.length + 1) literal (token msg).length >>= f) (tmp msg) =
      match compareWith (token msg) (literal ++ [NUL]) with
      | some r => f r (tmp msg)
      | none => .error .outOfBounds := by
  have hle := token_le msg
  have hfit : 0 + (token msg).length ≤ msg.length + 1 := by omega
  have hrun := memcmpLoop_run (token_lies msg) hfit (literal ++ [NUL])
  rw [memcmp]
  cases hcmp : compareWith (token msg) (literal ++ [NUL]) with
  | none =>
      rw [hcmp] at hrun
      exact bind_error hrun
  | some r =>
      rw [hcmp] at hrun
      exact bind_ok hrun

theorem kick_run (hne : msg ≠ []) (f : List Char → Request) : ∃ b,
    (do
      parm (msg.length + 1) msg.length (token msg).length
      return f (← str (msg.length + 1) 0) : Access Request) (tmp msg) = .ok (f (arg msg), b) := by
  obtain ⟨b, hparm, hmoved⟩ := parm_run hne
  refine ⟨b, ?_⟩
  rw [bind_ok hparm, bind_ok (str_run (hmoved.arg_holds hne))]
  rfl

theorem forward_run (hne : msg ≠ []) : ∃ b,
    (do
      parm (msg.length + 1) msg.length (token msg).length
      forwardCommand (msg.length + 1) : Access Request) (tmp msg) =
      .ok (forwarded (arg msg) (behind msg), b) := by
  obtain ⟨b, hparm, hmoved⟩ := parm_run hne
  obtain ⟨b', hrun⟩ := forwardCommand_run (hmoved.arg_holds hne) (hmoved.behind_holds hne)
  refine ⟨b', ?_⟩
  rw [bind_ok hparm, hrun]

theorem unknown_run (msg : List Char) :
    (do
      let _ ← str (msg.length + 1) 0
      return .nothing : Access Request) (tmp msg) = .ok (.nothing, tmp msg) := by
  have hholds : CString.Holds (msg.length + 1) (tmp msg) 0 (msg.takeWhile (· ≠ NUL)) := by
    refine holds_of_list (by omega) (tmp_lies msg) ?_
    rw [Nat.zero_add, tmp, List.getElem?_eq_none (Nat.le_refl _)]
    rfl
  rw [bind_ok (str_run hholds)]
  rfl

/-- A comparison and its two branches -/
theorem firstMatch_run {r : Request} {others : List (List Char × Request)}
    {yes no : Access Request} (hyes : ∃ b, yes (tmp msg) = .ok (r, b))
    (hno : (no (tmp msg)).map Prod.fst = checked (firstMatch (token msg) others)) :
    ((memcmp (msg.length + 1) literal (token msg).length >>= fun found =>
      if found = true then yes else no) (tmp msg)).map Prod.fst =
      checked (firstMatch (token msg) ((literal, r) :: others)) := by
  rw [memcmp_bind, firstMatch]
  cases compareWith (token msg) (literal ++ [NUL]) with
  | none => rfl
  | some found =>
      cases found with
      | true =>
          obtain ⟨b, hrun⟩ := hyes
          exact congrArg (Except.map Prod.fst) hrun
      | false => exact hno

/-- `_ctrl` in terms of the message; it leaves the copy nowhere. -/
theorem parse_eq (hne : msg ≠ []) : parse msg = checked (request msg) := by
  have hlen : msg.length ≠ 0 := fun h => hne (List.length_eq_zero_iff.mp h)
  have hfit : 0 + msg.length ≤ msg.length + 1 := by omega
  have hloop := commandLoop_run (tmp_lies msg) hfit
  rw [Nat.zero_add] at hloop
  rw [parse, if_neg hlen, command, bind_ok hloop]
  refine firstMatch_run (kick_run hne .kick) ?_
  refine firstMatch_run (forward_run hne) ?_
  refine firstMatch_run (kick_run hne .broker) ?_
  refine firstMatch_run ⟨tmp msg, rfl⟩ ?_
  refine firstMatch_run ⟨tmp msg, rfl⟩ ?_
  exact congrArg (Except.map Prod.fst) (unknown_run msg)

end Parse

/-! ## Messages that mean what they say -/

section Meaning

variable {t l literal : List Char} {r u : Request} {c d : Char} {msg : List Char}

theorem compareWith_true : compareWith t l = some true ↔ t <+: l := by
  induction t generalizing l with
  | nil => exact iff_of_true rfl List.nil_prefix
  | cons c t ih =>
      cases l with
      | nil => exact iff_of_false (Option.some_ne_none true ∘ Eq.symm) (by simp)
      | cons d l =>
          rw [compareWith, List.cons_prefix_cons]
          by_cases hcd : c = d
          · rw [if_pos hcd, ih, and_iff_right hcd]
          · rw [if_neg hcd]
            exact iff_of_false (by decide) fun h => hcd h.1

theorem compareWith_none : compareWith t l = none ↔ l <+: t ∧ t ≠ l := by
  induction t generalizing l with
  | nil =>
      refine iff_of_false (Option.some_ne_none true) ?_
      intro h
      exact h.2 (List.prefix_nil.mp h.1).symm
  | cons c t ih =>
      cases l with
      | nil => exact iff_of_true rfl ⟨List.nil_prefix, List.cons_ne_nil c t⟩
      | cons d l =>
          rw [compareWith, List.cons_prefix_cons, Ne, List.cons.injEq]
          by_cases hcd : c = d
          · rw [if_pos hcd, ih]
            simp [hcd]
          · rw [if_neg hcd]
            exact iff_of_false (Option.some_ne_none false) fun h => hcd h.1.1.symm

/-- The comparison with the literal fails in front of its end. -/
def Apart (t literal : List Char) : Prop := compareWith t (literal ++ [NUL]) = some false

theorem apart_of_head (hl : literal.head? = some d) (h : c ≠ d) : Apart (c :: t) literal := by
  cases literal with
  | nil => cases hl
  | cons a literal =>
      cases hl
      exact if_neg h

theorem Apart.ne (h : Apart t literal) : t ≠ literal := by
  intro heq
  have htrue : compareWith t (literal ++ [NUL]) = some true := by
    rw [compareWith_true, heq]
    exact List.prefix_append ..
  rw [h] at htrue
  cases htrue

theorem Apart.not_short (h : Apart t literal) : ¬ t <+: literal ++ [NUL] := by
  intro hprefix
  rw [← compareWith_true, h] at hprefix
  cases hprefix

theorem Apart.not_longer (h : Apart t literal) : ¬ literal ++ [NUL] <+: t := by
  intro hlonger
  have hne : t ≠ literal ++ [NUL] := by
    intro heq
    exact h.not_short (heq ▸ List.prefix_rfl)
  have hnone := compareWith_none.mpr ⟨hlonger, hne⟩
  rw [h] at hnone
  cases hnone

theorem firstMatch_apart {table : List (List Char × Request)} (h : ∀ x ∈ table, Apart t x.1) :
    firstMatch t table = some .nothing := by
  induction table with
  | nil => rfl
  | cons x table ih =>
      have hx : compareWith t (x.1 ++ [NUL]) = some false := h x List.mem_cons_self
      rw [firstMatch, hx]
      exact ih fun y hy => h y (List.mem_cons_of_mem x hy)

/-- A token that one literal only can match -/
theorem firstMatch_one (front back : List (List Char × Request))
    (hfront : ∀ x ∈ front, Apart t x.1) (hback : ∀ x ∈ back, Apart t x.1) :
    firstMatch t (front ++ (literal, r) :: back) = some (if t = literal then u else .nothing) ↔
      (literal ++ [NUL] <+: t → t = literal ++ [NUL]) ∧ (t <+: literal ++ [NUL] →
        t = literal ∧ r = u ∨ t ≠ literal ∧ r = .nothing) := by
  induction front with
  | cons x front ih =>
      have hx : compareWith t (x.1 ++ [NUL]) = some false := hfront x List.mem_cons_self
      rw [List.cons_append, firstMatch, hx]
      exact ih fun y hy => hfront y (List.mem_cons_of_mem x hy)
  | nil =>
      rw [List.nil_append, firstMatch]
      cases hcmp : compareWith t (literal ++ [NUL]) with
      | none =>
          obtain ⟨hlonger, hne⟩ := compareWith_none.mp hcmp
          exact iff_of_false (Option.some_ne_none _ ∘ Eq.symm) fun h => hne (h.1 hlonger)
      | some found =>
          cases found with
          | true =>
              have hprefix := compareWith_true.mp hcmp
              have hlonger : literal ++ [NUL] <+: t → t = literal ++ [NUL] :=
                fun h => hprefix.eq_of_length_le h.length_le
              rw [Option.some.injEq, and_iff_right hlonger, imp_iff_right hprefix]
              by_cases ht : t = literal
              · simp [ht]
              · simp [ht]
          | false =>
              have hapart : Apart t literal := hcmp
              rw [firstMatch_apart hback, if_neg hapart.ne]
              exact iff_of_true rfl ⟨fun h => absurd h hapart.not_longer,
                fun h => absurd h hapart.not_short⟩

/-- The condition on all the literals, where a token is apart from all but one -/
theorem forall_literals_iff (hmem : literal ∈ [KICK, FORWARD, BROKER, START, CLOSE])
    (h : ∀ l ∈ [KICK, FORWARD, BROKER, START, CLOSE], l ≠ literal → Apart t l)
    (Q : List Char → Prop) :
    (∀ l ∈ [KICK, FORWARD, BROKER, START, CLOSE], (l ++ [NUL] <+: t → t = l ++ [NUL]) ∧
      (t <+: l ++ [NUL] → t = l ∨ Q l)) ↔
      (literal ++ [NUL] <+: t → t = literal ++ [NUL]) ∧
      (t <+: literal ++ [NUL] → t = literal ∨ Q literal) := by
  constructor
  · exact fun hall => hall literal hmem
  · intro hone l hl
    by_cases heq : l = literal
    · rw [heq]
      exact hone
    · have hapart := h l hl heq
      exact ⟨fun hp => absurd hp hapart.not_longer, fun hp => absurd hp hapart.not_short⟩

/-- The token begins like one of the literals without arguments of its own kind. -/
theorem request_one (front back : List (List Char × Request))
    (hrequest : request msg = firstMatch (token msg) (front ++ (literal, r) :: back))
    (hmeaning : meaning msg = if token msg = literal then r else .nothing)
    (hmem : literal ∈ [KICK, FORWARD, BROKER, START, CLOSE]) (hforward : literal ≠ FORWARD)
    (hr : r ≠ .nothing) (hfront : ∀ x ∈ front, Apart (token msg) x.1)
    (hback : ∀ x ∈ back, Apart (token msg) x.1)
    (h : ∀ l ∈ [KICK, FORWARD, BROKER, START, CLOSE], l ≠ literal → Apart (token msg) l) :
    request msg = some (meaning msg) ↔ PlainToken msg := by
  have hne : token msg ≠ FORWARD := (h FORWARD (by decide) hforward.symm).ne
  rw [hrequest, hmeaning, firstMatch_one front back hfront hback, PlainToken,
    forall_literals_iff hmem h]
  simp [hr, hforward, hne]

theorem forwarded_nothing {s next : List Char} :
    forwarded s next = .nothing ↔ pieces s = none := by
  rw [forwarded]
  cases pieces s with
  | none => exact iff_of_true rfl rfl
  | some parts => exact iff_of_false (by simp) (Option.some_ne_none parts)

theorem forwarded_eq_iff {s next : List Char} :
    forwarded s next = forwardRequest s ↔
      ∀ id agent client, pieces s = some (id, agent, client) →
        (agent = [] → client = []) ∧ (client = [] → next = []) := by
  rw [forwarded, forwardRequest]
  cases pieces s with
  | none => simp
  | some parts =>
      obtain ⟨id, agent, client⟩ := parts
      simp only [Request.forward.injEq, true_and, Option.some.injEq, Prod.mk.injEq]
      constructor
      · intro h id' agent' client' heq
        obtain ⟨-, rfl, rfl⟩ := heq
        obtain ⟨hagent, hclient⟩ := h
        refine ⟨fun hnil => ?_, fun hnil => ?_⟩
        · rw [if_pos hnil, hnil] at hagent
          exact hagent
        · rw [if_pos hnil, hnil] at hclient
          exact hclient
      · intro h
        obtain ⟨hagent, hclient⟩ := h id agent client ⟨rfl, rfl, rfl⟩
        constructor
        · by_cases hnil : agent = []
          · rw [if_pos hnil, hnil, hagent hnil]
            rfl
          · rw [if_neg hnil]
        · by_cases hnil : client = []
          · rw [if_pos hnil, hclient hnil, hnil]
            rfl
          · rw [if_neg hnil]

theorem request_forward (hK : Apart (token msg) KICK) (hB : Apart (token msg) BROKER)
    (hS : Apart (token msg) START) (hC : Apart (token msg) CLOSE) :
    request msg = some (meaning msg) ↔ PlainToken msg := by
  have hmeaning : meaning msg =
      if token msg = FORWARD then forwardRequest (arg msg) else .nothing := by
    rw [meaning, if_neg hK.ne, if_neg hB.ne, if_neg hS.ne, if_neg hC.ne]
  have hrequest : request msg = firstMatch (token msg) ([(KICK, .kick (arg msg))] ++
      (FORWARD, forwarded (arg msg) (behind msg)) ::
        [(BROKER, .broker (arg msg)), (START, .start), (CLOSE, .close)]) := rfl
  have hother : ∀ l ∈ [KICK, FORWARD, BROKER, START, CLOSE], l ≠ FORWARD →
      Apart (token msg) l := by
    simp only [List.forall_mem_cons]
    exact ⟨fun _ => hK, fun h => absurd rfl h, fun _ => hB, fun _ => hS, fun _ => hC, by simp⟩
  rw [hrequest, hmeaning, firstMatch_one _ _ (by simpa using hK) (by simp [hB, hS, hC]),
    PlainToken, forall_literals_iff (by decide) hother, forwarded_eq_iff, forwarded_nothing]
  by_cases ht : token msg = FORWARD
  · simp [ht]
  · simp [ht]

/-- A token that begins like none of the literals -/
theorem request_unknown
    (h : ∀ l ∈ [KICK, FORWARD, BROKER, START, CLOSE], Apart (token msg) l) :
    request msg = some (meaning msg) ↔ PlainToken msg := by
  have hrequest : request msg = some .nothing := by
    refine firstMatch_apart ?_
    simpa using h
  have hmeaning : meaning msg = .nothing := by
    simp only [List.forall_mem_cons] at h
    obtain ⟨hK, hF, hB, hS, hC, -⟩ := h
    rw [meaning, if_neg hK.ne, if_neg hF.ne, if_neg hB.ne, if_neg hS.ne, if_neg hC.ne]
  refine iff_of_true (hrequest.trans (congrArg some hmeaning.symm)) ⟨?_, ?_⟩
  · intro l hl
    exact ⟨fun hp => absurd hp (h l hl).not_longer, fun hp => absurd hp (h l hl).not_short⟩
  · exact fun ht => absurd ht (h FORWARD (by decide)).ne

/-- A leading blank makes the token empty, and the first comparison passes. -/
theorem request_blank (htoken : token msg = []) :
    request msg = some (meaning msg) ↔ PlainToken msg := by
  have hrequest : request msg = some (.kick (arg msg)) := by
    rw [request, htoken]
    rfl
  have hmeaning : meaning msg = .nothing := by
    rw [meaning, htoken]
    rfl
  rw [hrequest, hmeaning]
  refine iff_of_false (by simp) ?_
  intro h
  have hkick := (h.1 KICK (by decide)).2
  rw [htoken] at hkick
  cases hkick List.nil_prefix with
  | inl heq => cases heq
  | inr hand => exact absurd hand.1 (by decide)

theorem request_iff (msg : List Char) : request msg = some (meaning msg) ↔ PlainToken msg := by
  cases htoken : token msg with
  | nil => exact request_blank htoken
  | cons c t =>
      have hK : c ≠ 'k' → Apart (token msg) KICK := fun h => htoken ▸ apart_of_head rfl h
      have hF : c ≠ 'f' → Apart (token msg) FORWARD := fun h => htoken ▸ apart_of_head rfl h
      have hB : c ≠ 'b' → Apart (token msg) BROKER := fun h => htoken ▸ apart_of_head rfl h
      have hS : c ≠ 's' → Apart (token msg) START := fun h => htoken ▸ apart_of_head rfl h
      have hC : c ≠ 'c' → Apart (token msg) CLOSE := fun h => htoken ▸ apart_of_head rfl h
      by_cases hk : c = 'k'
      · subst hk
        have hmeaning : meaning msg = if token msg = KICK then .kick (arg msg) else .nothing := by
          rw [meaning, if_neg (hF (by decide)).ne, if_neg (hB (by decide)).ne,
            if_neg (hS (by decide)).ne, if_neg (hC (by decide)).ne]
        refine request_one [] _ rfl hmeaning (by decide) (by decide) (by simp) (by simp) ?_ ?_
        all_goals simp [hF, hB, hS, hC]
      by_cases hf : c = 'f'
      · subst hf
        exact request_forward (hK (by decide)) (hB (by decide)) (hS (by decide)) (hC (by decide))
      by_cases hb : c = 'b'
      · subst hb
        have hmeaning : meaning msg =
            if token msg = BROKER then .broker (arg msg) else .nothing := by
          rw [meaning, if_neg (hK (by decide)).ne, if_neg (hF (by decide)).ne,
            if_neg (hS (by decide)).ne, if_neg (hC (by decide)).ne]
        refine request_one [(KICK, .kick (arg msg)), (FORWARD, forwarded (arg msg) (behind msg))] _
          rfl hmeaning (by decide) (by decide) (by simp) ?_ ?_ ?_
        all_goals simp [hK, hF, hS, hC]
      by_cases hs : c = 's'
      · subst hs
        have hmeaning : meaning msg = if token msg = START then .start else .nothing := by
          rw [meaning, if_neg (hK (by decide)).ne, if_neg (hF (by decide)).ne,
            if_neg (hB (by decide)).ne, if_neg (hC (by decide)).ne]
        refine request_one [(KICK, .kick (arg msg)), (FORWARD, forwarded (arg msg) (behind msg)),
          (BROKER, .broker (arg msg))] _ rfl hmeaning (by decide) (by decide) (by simp) ?_ ?_ ?_
        all_goals simp [hK, hF, hB, hC]
      by_cases hc : c = 'c'
      · subst hc
        have hmeaning : meaning msg = if token msg = CLOSE then .close else .nothing := by
          rw [meaning, if_neg (hK (by decide)).ne, if_neg (hF (by decide)).ne,
            if_neg (hB (by decide)).ne, if_neg (hS (by decide)).ne]
        refine request_one [(KICK, .kick (arg msg)), (FORWARD, forwarded (arg msg) (behind msg)),
          (BROKER, .broker (arg msg)), (START, .start)] _ rfl hmeaning (by decide) (by decide)
          (by simp) ?_ ?_ ?_
        all_goals simp [hK, hF, hB, hS]
      refine request_unknown ?_
      simp [hK hk, hF hf, hB hb, hS hs, hC hc]

theorem parse_iff (msg : List Char) : parse msg = .ok (meaning msg) ↔ Plain msg := by
  by_cases hne : msg = []
  · subst hne
    exact iff_of_true rfl (Or.inl rfl)
  · rw [parse_eq hne, Plain, or_iff_right hne, ← request_iff]
    cases request msg with
    | none => exact iff_of_false (by simp [checked]) (Option.some_ne_none _ ∘ Eq.symm)
    | some r => rw [checked, Except.ok.injEq, Option.some.injEq]

/-- A message is taken for what it means just where it is plain, and then the gate does what that
asks for. -/
theorem ctrl_iff (msg : List UInt8) :
    (parse (chars msg) = .ok (meaning (chars msg)) ↔ Plain (chars msg)) ∧
    (Plain (chars msg) → ∀ (queryname : List Char → Nat) (g : Gate),
      g.ctrl queryname msg = g.perform queryname (meaning (chars msg))) := by
  refine ⟨parse_iff (chars msg), ?_⟩
  intro hplain queryname g
  rw [Gate.ctrl, (parse_iff (chars msg)).mpr hplain]

/-- A prefix of `kick`, a `forward` that ends in a blank, a token that goes on behind the NUL of
`kick`, and a prefix of `start` -/
theorem ctrl_not_plain :
    (parse ['k', ' ', '5'] = .ok (.kick ['5']) ∧ meaning ['k', ' ', '5'] = .nothing) ∧
    (parse (FORWARD ++ [' ', '5', ' ', ':', '7', ' ']) =
      .ok (.forward ['5'] ['7'] ['d', ' ', '5', ' ', ':', '7', ' ']) ∧
      meaning (FORWARD ++ [' ', '5', ' ', ':', '7', ' ']) = .forward ['5'] ['7'] []) ∧
    parse (KICK ++ [NUL, 'x']) = .error .outOfBounds ∧
    (gateInit .S 1 2 3 4).ctrl (fun _ => 0) (text "s") =
      some (gateInit .S 1 2 3 4, [.socketStart 4]) :=
  ⟨⟨rfl, rfl⟩, ⟨rfl, rfl⟩, rfl, rfl⟩

end Meaning

end Jump.Skynet.GateService.Control
