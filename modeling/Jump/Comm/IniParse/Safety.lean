import Jump.Comm.IniParse.Buffer

/-! # Which files `Parse` survives

`Parse` ends in a fault just where it meets a line without `=` that is neither
blank nor a comment nor a section. A key that comes twice makes it return before.
-/

namespace Jump.Comm.IniParse.Buffer

open Jump.Core Jump.Core.CString Jump.Core.Lines

/-- The string of a line that `fgets` has stored. -/
def cstr (line : Str) : Str := line.takeWhile (· ≠ NUL)

/-- What a line is for `Parse`: a comment or nothing, the start of a section, a key with its
value, or text without `=`. -/
inductive Kind where
  | skip
  | start
  | pair (key : Str)
  | bare
deriving DecidableEq

def kind (line : Str) : Kind :=
  let newLine := IniParse.trimLine line
  if newLine.head? = some '#' ∨ newLine.head? = some ';' ∨ newLine = [] then .skip
  else if newLine.head? = some '[' ∧ newLine.getLast? = some ']' then
    if IniParse.trimLine (newLine.dropLast.drop 1) = [] then .skip else .start
  else
    match splitValue newLine with
    | (_, none) => .bare
    | (key, some _) => .pair (IniParse.trimLine key)

/-- The keys of the section that is open behind a line, from those before it. -/
def openKeys (keys : List Str) : Kind → List Str
  | .start => []
  | .pair key => key :: keys
  | _ => keys

/-- In front of every bare line a key comes twice in its section. -/
def Guarded (keys : List Str) (kinds : List Kind) : Prop :=
  ∀ pre post, kinds = pre ++ .bare :: post →
    ∃ front key back, pre = front ++ .pair key :: back ∧ key ∈ front.foldl openKeys keys

/-! ## One line -/

section Line

variable {sections : List INISection} {line : Str} {key value : Str}

/-- The keys of the last section. -/
def lastKeys : List INISection → List Str
  | [] => []
  | s :: _ => s.entries.map Prod.fst

theorem insertValue_cases (sections : List INISection) (key value : Str) :
    (key ∈ lastKeys sections ∧ insertValue sections key value = .error .insertFailed) ∨
      ∃ sections', key ∉ lastKeys sections ∧ insertValue sections key value = .ok sections' ∧
        ∀ k, k ∈ lastKeys sections' ↔ k = key ∨ k ∈ lastKeys sections := by
  cases sections with
  | nil =>
      refine Or.inr ⟨[⟨[], [(key, value)]⟩], List.not_mem_nil, rfl, fun k => ?_⟩
      simp [lastKeys]
  | cons s others =>
      by_cases h : key ∈ s.entries.map Prod.fst
      · refine Or.inl ⟨h, ?_⟩
        rw [insertValue, INISection.insert, if_pos h]
        rfl
      · refine Or.inr ⟨{ s with entries := s.entries ++ [(key, value)] } :: others, h, ?_,
          fun k => ?_⟩
        · rw [insertValue, INISection.insert, if_neg h]
          rfl
        · simp [lastKeys, or_comm]

theorem parseLine_kind (sections : List INISection) (line : Str) :
    match kind line with
    | .skip => IniParse.parseLine sections line = .ok sections
    | .start => ∃ name, IniParse.parseLine sections line = .ok (⟨name, []⟩ :: sections)
    | .pair key => ∃ value, IniParse.parseLine sections line = insertValue sections key value
    | .bare => IniParse.parseLine sections line = .error .nullString := by
  rw [kind, IniParse.parseLine]
  simp only
  generalize IniParse.trimLine line = newLine
  by_cases hskip : newLine.head? = some '#' ∨ newLine.head? = some ';' ∨ newLine = []
  · rw [if_pos hskip]
    exact if_pos hskip
  · rw [if_neg hskip, if_neg hskip]
    by_cases hsec : newLine.head? = some '[' ∧ newLine.getLast? = some ']'
    · rw [if_pos hsec, if_pos hsec]
      by_cases hname : IniParse.trimLine (newLine.dropLast.drop 1) = []
      · rw [if_pos hname]
        exact if_pos hname
      · rw [if_neg hname, if_neg hname]
        exact ⟨_, rfl⟩
    · rw [if_neg hsec, if_neg hsec]
      rcases splitValue_spec newLine with ⟨hsplit, -⟩ | ⟨a, b, hsplit, -⟩
      · rw [hsplit]
      · rw [hsplit]
        exact ⟨_, rfl⟩

end Line

/-! ## The loop -/

section Loop

variable {b : Nat → Char} {sections : List INISection} {line : Str} {rest : List Str}
  {keys : List Str} {kinds : List Kind}

theorem fill_run (h : line.length < SIZEOF_LINE) : ∃ b', fill line b = .ok ((), b') ∧
    Holds SIZEOF_LINE b' 0 (cstr line) := by
  refine ⟨_, if_pos h, holds_of_list (by omega) (fun i hi => ?_) ?_⟩
  · rw [Nat.zero_add, if_neg (by omega), List.getD_eq_getElem?_getD, List.getElem?_eq_getElem hi,
      Option.getD_some]
  · rw [Nat.zero_add, if_pos rfl]

/-- The loop is at a line: it goes on, returns `false` or ends in the fault of the line. -/
theorem parseLines_cons (sections : List INISection) (rest : List Str) (b : Nat → Char)
    (h : line.length < SIZEOF_LINE) : ∃ b',
    result (parseLines sections (line :: rest)) b =
      match outcome (IniParse.parseLine sections (cstr line)) with
      | .ok (some sections') => result (parseLines sections' rest) b'
      | .ok none => .ok false
      | .error e => .error e := by
  obtain ⟨b₁, hfill, hholds⟩ := fill_run (b := b) h
  have hline : result (parseLine sections) b₁ =
      outcome (IniParse.parseLine sections (cstr line)) := parseLine_run hholds
  cases hrun : parseLine sections b₁ with
  | error e =>
      rw [result, hrun] at hline
      refine ⟨b, ?_⟩
      rw [← hline, parseLines, result_bind hfill, result_error hrun]
      rfl
  | ok r =>
      obtain ⟨next, b'⟩ := r
      rw [result, hrun] at hline
      refine ⟨b', ?_⟩
      rw [← hline, parseLines, result_bind hfill, result_bind hrun]
      cases next with
      | none => rfl
      | some sections' => rfl

theorem guarded_nil : Guarded keys [] := by
  intro pre post h
  have hlen := congrArg List.length h
  simp at hlen

theorem not_guarded_bare : ¬ Guarded keys (.bare :: kinds) := by
  intro h
  obtain ⟨front, key, back, hpre, -⟩ := h [] kinds rfl
  have hlen := congrArg List.length hpre
  simp at hlen

theorem guarded_twice {key : Str} (h : key ∈ keys) : Guarded keys (.pair key :: kinds) := by
  intro pre post hsplit
  cases pre with
  | nil => cases hsplit
  | cons k pre =>
      obtain rfl : Kind.pair key = k := (List.cons_eq_cons.mp hsplit).1
      exact ⟨[], key, pre, rfl, h⟩

/-- A line that is not bare and repeats no key leaves it to the rest. -/
theorem guarded_cons {k : Kind} (hbare : k ≠ .bare) (hnew : ∀ key, k = .pair key → key ∉ keys) :
    Guarded keys (k :: kinds) ↔ Guarded (openKeys keys k) kinds := by
  constructor
  · intro h pre post hsplit
    obtain ⟨front, key, back, hpre, hmem⟩ := h (k :: pre) post (by rw [hsplit]; rfl)
    cases front with
    | nil =>
        obtain ⟨hk, -⟩ := List.cons_eq_cons.mp hpre
        exact absurd hmem (hnew key hk)
    | cons k' front =>
        obtain ⟨rfl, hback⟩ := List.cons_eq_cons.mp hpre
        exact ⟨front, key, back, hback, hmem⟩
  · intro h pre post hsplit
    cases pre with
    | nil => exact absurd (List.cons_eq_cons.mp hsplit).1 hbare
    | cons k' pre =>
        obtain ⟨rfl, hrest⟩ := List.cons_eq_cons.mp hsplit
        obtain ⟨front, key, back, hpre, hmem⟩ := h pre post hrest
        exact ⟨k :: front, key, back, by rw [hpre]; rfl, hmem⟩

theorem guarded_congr {keys' : List Str} (h : ∀ k, k ∈ keys ↔ k ∈ keys') :
    Guarded keys kinds ↔ Guarded keys' kinds := by
  have hfold : ∀ (kinds : List Kind) (ks ks' : List Str), (∀ k, k ∈ ks ↔ k ∈ ks') →
      ∀ k, k ∈ kinds.foldl openKeys ks ↔ k ∈ kinds.foldl openKeys ks' := by
    intro kinds
    induction kinds with
    | nil => exact fun _ _ h => h
    | cons k kinds ih =>
        intro ks ks' hks
        refine ih _ _ fun x => ?_
        cases k with
        | skip => exact hks x
        | start => exact Iff.rfl
        | pair key => simp [openKeys, hks x]
        | bare => exact hks x
  have hone : ∀ {ks ks' : List Str}, (∀ k, k ∈ ks ↔ k ∈ ks') → Guarded ks kinds →
      Guarded ks' kinds := by
    intro ks ks' hks hg pre post hsplit
    obtain ⟨front, key, back, hpre, hmem⟩ := hg pre post hsplit
    exact ⟨front, key, back, hpre, (hfold front ks ks' hks key).mp hmem⟩
  exact ⟨hone h, hone fun k => (h k).symm⟩

/-- The loop returns, or it ends in the null pointer of a line that nothing guards. -/
theorem parseLines_run (hlen : ∀ line ∈ rest, line.length < SIZEOF_LINE)
    (sections : List INISection) (b : Nat → Char) :
    (Guarded (lastKeys sections) (rest.map fun line => kind (cstr line)) ∧
      ∃ r, result (parseLines sections rest) b = .ok r) ∨
    (¬ Guarded (lastKeys sections) (rest.map fun line => kind (cstr line)) ∧
      result (parseLines sections rest) b = .error .nullPointer) := by
  induction rest generalizing sections b with
  | nil => exact Or.inl ⟨guarded_nil, true, rfl⟩
  | cons line rest ih =>
      have htail : ∀ l ∈ rest, l.length < SIZEOF_LINE := fun l hl =>
        hlen l (List.mem_cons_of_mem line hl)
      obtain ⟨b', hrun⟩ := parseLines_cons sections rest b (hlen line List.mem_cons_self)
      have hkind := parseLine_kind sections (cstr line)
      rw [hrun, List.map_cons]
      cases hk : kind (cstr line) with
      | skip =>
          rw [hk] at hkind
          rw [show IniParse.parseLine sections (cstr line) = .ok sections from hkind,
            guarded_cons (by simp) (by simp)]
          exact ih htail sections b'
      | start =>
          rw [hk] at hkind
          obtain ⟨name, hname⟩ := hkind
          rw [hname, guarded_cons (by simp) (by simp)]
          exact ih htail (⟨name, []⟩ :: sections) b'
      | bare =>
          rw [hk] at hkind
          rw [show IniParse.parseLine sections (cstr line) = .error .nullString from hkind]
          exact Or.inr ⟨not_guarded_bare, rfl⟩
      | pair key =>
          rw [hk] at hkind
          obtain ⟨value, hvalue⟩ := hkind
          rw [hvalue]
          rcases insertValue_cases sections key value with ⟨hmem, hins⟩ |
            ⟨sections', hmem, hins, hkeys⟩
          · rw [hins]
            exact Or.inl ⟨guarded_twice hmem, false, rfl⟩
          · have hopen : ∀ k, k ∈ openKeys (lastKeys sections) (.pair key) ↔
                k ∈ lastKeys sections' := fun k => by rw [hkeys, openKeys, List.mem_cons]
            rw [hins, guarded_cons (by simp) (by rintro _ ⟨⟩; exact hmem), guarded_congr hopen]
            exact ih htail sections' b'

end Loop

/-- The lines of a file as `Parse` reads them. -/
def fileKinds (text : Str) : List Kind :=
  (lines '\n' (MAX_NUM_OF_CHAR_PER_LINE - 1) text).map fun line => kind (cstr line)

theorem parse_cases (text : Str) :
    (Guarded [] (fileKinds text) ∧ ∃ r, parse text = .ok r) ∨
      (¬ Guarded [] (fileKinds text) ∧ parse text = .error .nullPointer) := by
  refine parseLines_run (fun line hline => ?_) [] fun _ => NUL
  have hle := (mem_lines hline).1
  unfold SIZEOF_LINE
  omega

/-- `Parse` never leaves its buffer, and it returns just for the files in which a repeated key
comes before every line without `=`. -/
theorem parse_returns_iff (text : Str) : parse text ≠ .error .outOfBounds ∧
    ((∃ r, parse text = .ok r) ↔ Guarded [] (fileKinds text)) := by
  rcases parse_cases text with ⟨hg, r, hrun⟩ | ⟨hg, hrun⟩
  · rw [hrun]
    exact ⟨by simp, ⟨fun _ => hg, fun _ => ⟨r, rfl⟩⟩⟩
  · rw [hrun]
    refine ⟨by simp, ⟨fun h => ?_, fun h => absurd h hg⟩⟩
    obtain ⟨r, hr⟩ := h
    cases hr

/-- A file with the letter `a` alone. -/
theorem parse_bare_line : parse ['a', '\n'] = .error .nullPointer := by
  have hkinds : fileKinds ['a', '\n'] = [.bare] := by decide +kernel
  rcases parse_cases ['a', '\n'] with ⟨hg, -⟩ | ⟨-, hrun⟩
  · rw [hkinds] at hg
    exact absurd hg not_guarded_bare
  · exact hrun

end Jump.Comm.IniParse.Buffer
