import Jump.Core.CString
import Jump.Comm.IniParse.Lines

/-! # `Parse` on its line buffer

The functions `Parse` and `TrimLine` with the pointers and indexes they use. A
pointer into the buffer is the index it points at. Every access is checked, and
`parse_refines` says that the functions on strings compute the same.
-/

namespace Jump.Comm.IniParse.Buffer

open Jump.Core Jump.Core.CString Jump.Core.Lines

/-- `sizeof(line)` -/
def SIZEOF_LINE : Nat := MAX_NUM_OF_CHAR_PER_LINE + 1

/-- The loop of `TrimLine` from the right: `n`, when it ends. -/
def trimRight (line : Nat) : Nat → Access Int
  | 0 => return -1
  | n + 1 => do
      if isBlank (← charAt SIZEOF_LINE (line + n)) then
        setChar SIZEOF_LINE (line + n) NUL
        trimRight line n
      else return n

/-- The loop of `TrimLine` from the left, with `k` turns to go. -/
def trimLeft (line : Nat) : Nat → Nat → Access Nat
  | 0, n => return n
  | k + 1, n => do
      if isBlank (← charAt SIZEOF_LINE (line + n)) then trimLeft line k (n + 1) else return n

/-- `TrimLine`; `none` is the null pointer. -/
def trimLine : Option Nat → Access Nat
  | none => throw .nullPointer
  | some line => do
      let len ← strlen SIZEOF_LINE line
      if len = 0 then return line
      else
        let n ← trimRight line len
        if n = 0 then return line
        else
          let newLen := n + 1
          return line + (← trimLeft line newLen.toNat 0)

/-- `*value_str = 0`, where a separator was found. -/
def cutKey : Option Nat → Access Unit
  | none => return ()
  | some p => setChar SIZEOF_LINE p NUL

/-- The branch of `Parse` for a line that is no comment and no section. -/
def parseValue (sections : List INISection) (newLine : Nat) :
    Access (Option (List INISection)) := do
  let valueStr ← find SIZEOF_LINE '=' newLine
  cutKey valueStr
  let trimKeyStr ← trimLine (some newLine)
  let trimValueStr ← trimLine (valueStr.map (· + 1))
  let key ← str SIZEOF_LINE trimKeyStr
  let value ← str SIZEOF_LINE trimValueStr
  return (insertValue sections key value).toOption

/-- The test for a section; the last character is read where the first is `[`. -/
def isSection (c : Char) (newLine newLineLen : Nat) : Access Bool := do
  if c = '[' then return (← charAt SIZEOF_LINE (newLine + newLineLen - 1)) = ']'
  else return false

/-- The branch of `Parse` for a section. -/
def parseSection (sections : List INISection) (newLine newLineLen : Nat) :
    Access (Option (List INISection)) := do
  setChar SIZEOF_LINE (newLine + newLineLen - 1) NUL
  let sectionName ← trimLine (some (newLine + 1))
  let c ← charAt SIZEOF_LINE sectionName
  if c = NUL then return some sections
  else return some (⟨← str SIZEOF_LINE sectionName, []⟩ :: sections)

/-- One round of the loop in `Parse`; `none` when `Parse` returns `false`. -/
def parseLine (sections : List INISection) : Access (Option (List INISection)) := do
  let newLine ← trimLine (some 0)
  let newLineLen ← strlen SIZEOF_LINE newLine
  let c ← charAt SIZEOF_LINE newLine
  if c = '#' ∨ c = ';' ∨ newLineLen = 0 then return some sections
  else if ← isSection c newLine newLineLen then
    parseSection sections newLine newLineLen
  else parseValue sections newLine

/-- What `fgets` stores. -/
def fill (line : Str) : Access Unit := fun b =>
  if line.length < SIZEOF_LINE then
    .ok ((), fun i => if i = line.length then NUL else line.getD i (b i))
  else .error .outOfBounds

def parseLines (sections : List INISection) : List Str → Access Bool
  | [] => return true
  | line :: rest => do
      fill line
      match ← parseLine sections with
      | none => return false
      | some sections => parseLines sections rest

/-- `INIParse::Parse` -/
def parse (text : Str) : Except Fault Bool :=
  (parseLines [] (lines '\n' (MAX_NUM_OF_CHAR_PER_LINE - 1) text) fun _ => NUL).map Prod.fst

/-! ## `TrimLine` -/

section TrimLine

variable {b : Nat → Char} {p : Nat} {s t : Str}

theorem trimRight_run (h : Holds SIZEOF_LINE b p s) : ∃ b',
    trimRight p s.length b = .ok (((s.rdropWhile isBlank).length : Int) - 1, b') ∧
      Holds SIZEOF_LINE b' p (s.rdropWhile isBlank) ∧
      ∀ i, i < p ∨ p + s.length ≤ i → b' i = b i := by
  induction s using List.reverseRecOn generalizing b with
  | nil => exact ⟨b, rfl, h, fun _ _ => rfl⟩
  | append_singleton s c ih =>
      have hlt := h.lt
      have hread : charAt SIZEOF_LINE (p + s.length : Nat) b = .ok (c, b) := h.suffix.charAt_run
      rw [List.length_append, List.length_singleton] at hlt ⊢
      rw [trimRight, bind_ok (by exact_mod_cast hread)]
      by_cases hc : isBlank c
      · rw [if_pos hc, List.rdropWhile_concat_pos _ _ _ hc]
        have hcut : Holds SIZEOF_LINE (fun i => if i = p + s.length then NUL else b i) p s :=
          h.cut (fun i _ hi => if_neg (by omega)) (if_pos rfl)
        obtain ⟨b', hrun, hb', hframe⟩ := ih hcut
        have hset : setChar SIZEOF_LINE (p + s.length : Nat) NUL b =
            .ok ((), fun i => if i = p + s.length then NUL else b i) := setChar_run (by omega)
        refine ⟨b', ?_, hb', fun i hi => ?_⟩
        · rw [bind_ok (by exact_mod_cast hset), hrun]
        · rw [hframe i (by omega), if_neg (by omega)]
      · rw [if_neg hc, List.rdropWhile_concat_neg _ _ _ hc]
        have hn : ((s ++ [c]).length : Int) - 1 = s.length := by
          rw [List.length_append, List.length_singleton]
          omega
        rw [hn]
        exact ⟨b, rfl, h, fun _ _ => rfl⟩

theorem trimLeft_run {n : Nat} (h : Holds SIZEOF_LINE b (p + n) s) :
    trimLeft p s.length n b = .ok (n + (s.takeWhile isBlank).length, b) := by
  induction s generalizing n with
  | nil => rfl
  | cons c s ih =>
      have hread : charAt SIZEOF_LINE (p + n : Nat) b = .ok (c, b) := h.charAt_run
      rw [List.length_cons, trimLeft, bind_ok (by exact_mod_cast hread)]
      by_cases hc : isBlank c
      · have hrest := ih (n := n + 1) h.tail
        rw [if_pos hc, hrest, List.takeWhile_cons_of_pos hc, List.length_cons,
          show n + 1 + (s.takeWhile isBlank).length = n + ((s.takeWhile isBlank).length + 1) by
            omega]
      · rw [if_neg hc, List.takeWhile_cons_of_neg hc]
        rfl

/-- `TrimLine` stays inside its string. -/
theorem trimLine_run (h : Holds SIZEOF_LINE b p s) : ∃ q b',
    trimLine (some p) b = .ok (q, b') ∧ Holds SIZEOF_LINE b' q (IniParse.trimLine s) ∧ p ≤ q ∧
      q + (IniParse.trimLine s).length ≤ p + s.length ∧
      ∀ i, i < p ∨ p + s.length ≤ i → b' i = b i := by
  rw [trimLine, bind_ok (strlen_run h)]
  by_cases hlen : s.length = 0
  · obtain rfl := List.length_eq_zero_iff.mp hlen
    rw [if_pos hlen]
    exact ⟨p, b, rfl, h, Nat.le_refl p, Nat.le_refl _, fun _ _ => rfl⟩
  · obtain ⟨b', hrun, hb', hframe⟩ := trimRight_run h
    have hle : (s.rdropWhile isBlank).length ≤ s.length :=
        (List.rdropWhile_prefix isBlank s).length_le
    rw [if_neg hlen, bind_ok hrun, IniParse.trimLine]
    simp only
    by_cases hone : (s.rdropWhile isBlank).length = 1
    · rw [if_pos (by omega), if_pos hone]
      exact ⟨p, b', rfl, hb', Nat.le_refl p, by omega, hframe⟩
    · have hnat : (((s.rdropWhile isBlank).length : Int) - 1 + 1).toNat =
          (s.rdropWhile isBlank).length := by omega
      have hsplit := List.takeWhile_append_dropWhile (p := isBlank) (l := s.rdropWhile isBlank)
      have hlens := congrArg List.length hsplit
      rw [List.length_append] at hlens
      have hholds := hb'
      rw [← hsplit] at hholds
      rw [if_neg (by omega), if_neg hone, hnat, bind_ok (trimLeft_run (n := 0) hb'), Nat.zero_add]
      exact ⟨p + ((s.rdropWhile isBlank).takeWhile isBlank).length, b', rfl, hholds.suffix,
        by omega, by omega, hframe⟩

end TrimLine

/-! ## One line -/

/-- How the loop goes on: with more sections, with `return false`, or with a fault. -/
def outcome : Except Failure (List INISection) → Except Fault (Option (List INISection))
  | .ok sections => .ok (some sections)
  | .error .insertFailed => .ok none
  | .error .nullString => .error .nullPointer

/-- The result of a program, without the array it leaves. -/
def result {α : Type} (x : Access α) (b : Nat → Char) : Except Fault α := (x b).map Prod.fst

section Line

variable {α β : Type} {b b' : Nat → Char} {p : Nat} {s : Str} {sections : List INISection}

theorem result_bind {x : Access α} {f : α → Access β} {a : α} (h : x b = .ok (a, b')) :
    result (x >>= f) b = result (f a) b' := by
  rw [result, bind_ok h]
  rfl

theorem result_error {x : Access α} {f : α → Access β} {e : Fault} (h : x b = .error e) :
    result (x >>= f) b = .error e := by
  rw [result, bind_error h]
  rfl

theorem insertValue_outcome (key value : Str) :
    result (pure (insertValue sections key value).toOption : Access _) b =
      outcome (insertValue sections key value) := by
  have hinsert : ∀ s : INISection, (s.insert key value = .error .insertFailed) ∨
      ∃ s', s.insert key value = .ok s' := by
    intro s
    rw [INISection.insert]
    split
    · exact Or.inl rfl
    · exact Or.inr ⟨_, rfl⟩
  cases sections with
  | nil =>
      rw [insertValue]
      rcases hinsert ⟨[], []⟩ with h | ⟨s', h⟩
      · rw [h]
        rfl
      · rw [h]
        rfl
  | cons s others =>
      rw [insertValue]
      rcases hinsert s with h | ⟨s', h⟩
      · rw [h]
        rfl
      · rw [h]
        rfl

/-- A line without `=` hands the null pointer to `TrimLine`. -/
theorem parseValue_bare (h : Holds SIZEOF_LINE b p s) (heq : '=' ∉ s) :
    result (parseValue sections p) b = .error .nullPointer := by
  obtain ⟨q, b', htrim, -⟩ := trimLine_run h
  rw [parseValue, result_bind (find_none h heq (by decide)), cutKey, result_bind pure_ok,
    result_bind htrim, Option.map_none, trimLine]
  exact result_error rfl

theorem parseValue_pair {key value : Str} (h : Holds SIZEOF_LINE b p (key ++ '=' :: value))
    (heq : '=' ∉ key) : result (parseValue sections p) b =
      outcome (insertValue sections (IniParse.trimLine key) (IniParse.trimLine value)) := by
  have hlt := h.lt
  rw [List.length_append, List.length_cons] at hlt
  have hset : setChar SIZEOF_LINE (p + key.length : Nat) NUL b =
      .ok ((), fun i => if i = p + key.length then NUL else b i) := setChar_run (by omega)
  have hkey : Holds SIZEOF_LINE (fun i => if i = p + key.length then NUL else b i) p key :=
    h.cut (fun i _ hi => if_neg (by omega)) (if_pos rfl)
  have hvalue : Holds SIZEOF_LINE (fun i => if i = p + key.length then NUL else b i)
      (p + key.length + 1) value :=
    h.suffix.tail.frame fun i hi _ => if_neg (by omega)
  obtain ⟨q, b₁, hrun₁, hkey₁, hq, hqe, hframe₁⟩ := trimLine_run hkey
  have hvalue₁ := hvalue.frame fun i hi _ => hframe₁ i (Or.inr (by omega))
  obtain ⟨r, b₂, hrun₂, hvalue₂, -, -, hframe₂⟩ := trimLine_run hvalue₁
  have hkey₂ := hkey₁.frame fun i _ hi => hframe₂ i (Or.inl (by omega))
  rw [parseValue, result_bind (find_some h heq), cutKey, result_bind hset, result_bind hrun₁,
    Option.map_some, result_bind hrun₂, result_bind (str_run hkey₂),
    result_bind (str_run hvalue₂)]
  exact insertValue_outcome _ _

theorem parseValue_run (h : Holds SIZEOF_LINE b p s) : result (parseValue sections p) b =
    outcome (match splitValue s with
      | (_, none) => .error .nullString
      | (key, some value) =>
          insertValue sections (IniParse.trimLine key) (IniParse.trimLine value)) := by
  rcases splitValue_spec s with ⟨hsplit, heq⟩ | ⟨key, value, hsplit, rfl, heq⟩
  · rw [hsplit]
    exact parseValue_bare h heq
  · rw [hsplit]
    exact parseValue_pair h heq

theorem isSection_run {c : Char} (h : Holds SIZEOF_LINE b p (c :: s)) :
    isSection c p (c :: s).length b =
      .ok (decide (c = '[' ∧ (c :: s).getLast? = some ']'), b) := by
  have hlast : ∃ d, (c :: s).getLast? = some d := ⟨_, List.getLast?_cons⟩
  obtain ⟨d, hd⟩ := hlast
  rw [isSection, hd]
  by_cases hc : c = '['
  · rw [if_pos hc, bind_ok (CString.Holds.charAt_last h hd), pure_ok]
    simp [hc]
  · rw [if_neg hc, pure_ok]
    simp [hc]

theorem parseSection_run {mid : Str} (h : Holds SIZEOF_LINE b p ('[' :: mid ++ [']'])) :
    result (parseSection sections p ('[' :: mid ++ [']']).length) b =
      outcome (if IniParse.trimLine mid = [] then .ok sections
        else .ok (⟨IniParse.trimLine mid, []⟩ :: sections)) := by
  have hlt := h.lt
  rw [List.length_append, List.length_cons, List.length_singleton] at hlt
  have hset : setChar SIZEOF_LINE (p + ('[' :: mid ++ [']']).length - 1) NUL b =
      .ok ((), fun i => if i = p + 1 + mid.length then NUL else b i) := by
    have hat : (p : Int) + (('[' :: mid ++ [']']).length : Int) - 1 =
        ((p + 1 + mid.length : Nat) : Int) := by
      rw [List.length_append, List.length_cons, List.length_singleton]
      omega
    rw [hat]
    exact setChar_run (by omega)
  have hmid : Holds SIZEOF_LINE (fun i => if i = p + 1 + mid.length then NUL else b i)
      (p + 1) mid :=
    Holds.cut (t := [']']) h.tail (fun i _ hi => if_neg (by omega)) (if_pos rfl)
  obtain ⟨q, b', hrun, hname, -⟩ := trimLine_run hmid
  rw [parseSection, result_bind hset, result_bind hrun, result_bind hname.charAt_run]
  cases hmidname : IniParse.trimLine mid with
  | nil => rfl
  | cons c t =>
      rw [hmidname] at hname
      rw [List.head?_cons, Option.getD_some, if_neg hname.2.2.1, if_neg (List.cons_ne_nil c t),
        result_bind (str_run hname)]
      rfl

/-- The buffer holds a line as a string: the round does what the one on strings does. -/
theorem parseLine_run (h : Holds SIZEOF_LINE b 0 s) :
    result (parseLine sections) b = outcome (IniParse.parseLine sections s) := by
  obtain ⟨q, b', hrun, hnew, -⟩ := trimLine_run h
  rw [parseLine, result_bind hrun, result_bind (strlen_run hnew), result_bind hnew.charAt_run,
    IniParse.parseLine]
  simp only
  generalize IniParse.trimLine s = t at hnew ⊢
  cases t with
  | nil => rfl
  | cons c u =>
      have hlen : (c :: u).length ≠ 0 := Nat.succ_ne_zero u.length
      simp only [List.head?_cons, Option.getD_some, Option.some.injEq, hlen, or_false,
        reduceCtorEq]
      by_cases hcomment : c = '#' ∨ c = ';'
      · rw [if_pos hcomment, if_pos hcomment]
        rfl
      · rw [if_neg hcomment, if_neg hcomment, result_bind (isSection_run hnew)]
        by_cases hsec : c = '[' ∧ (c :: u).getLast? = some ']'
        · obtain ⟨rfl, hlast⟩ := hsec
          obtain ⟨v, hv⟩ := List.getLast?_eq_some_iff.mp hlast
          cases v with
          | nil => cases hv
          | cons d mid =>
              rw [List.cons_append, List.cons_eq_cons] at hv
              obtain ⟨rfl, rfl⟩ := hv
              have hraw : List.drop 1 ('[' :: (mid ++ [']'])).dropLast = mid := by
                rw [← List.cons_append, List.dropLast_concat]
                rfl
              rw [hraw, if_pos (decide_eq_true ⟨rfl, hlast⟩), if_pos ⟨rfl, hlast⟩]
              exact parseSection_run hnew
        · rw [if_neg hsec, if_neg (by simpa using hsec)]
          exact parseValue_run hnew

end Line

end Jump.Comm.IniParse.Buffer
