import Jump.Comm.IniParse.Code

/-! # One line of an INI file -/

namespace Jump.Comm.IniParse

open Jump.Core.Lines

/-- The early return of `TrimLine` makes no difference. -/
theorem trimLine_eq (line : Str) : trimLine line = trim isBlank line := by
  unfold trimLine trim
  simp only
  split
  · rename_i hlen
    obtain ⟨c, hc⟩ := List.length_eq_one_iff.mp hlen
    have hlast := List.rdropWhile_last_not isBlank line (by simp [hc])
    have hblank : isBlank c = false := by simpa [hc] using hlast
    rw [hc]
    simp [hblank]
  · rfl

theorem blank_newline : isBlank '\n' = true := by decide

theorem blank_space : ∀ c ∈ [' '], isBlank c = true := by
  intro c hc
  rw [List.mem_singleton.mp hc]
  rfl

theorem blank_tabs : ∀ c ∈ ['\t', '\t'], isBlank c = true := by
  intro c hc
  rw [List.eq_of_mem_replicate (n := 2) hc]
  rfl

theorem parseLine_congr {line line' : Str} (h : trimLine line = trimLine line')
    (sections : List INISection) : parseLine sections line = parseLine sections line' := by
  unfold parseLine
  rw [h]

theorem parseLine_append {b : Str} (hb : ∀ c ∈ b, isBlank c = true) (line : Str)
    (sections : List INISection) :
    parseLine sections (line ++ b) = parseLine sections line := by
  apply parseLine_congr
  rw [trimLine_eq, trimLine_eq, trim_append hb]

theorem parseLine_blank {b : Str} (hb : ∀ c ∈ b, isBlank c = true)
    (sections : List INISection) : parseLine sections b = .ok sections := by
  have h := parseLine_append hb [] sections
  rw [List.nil_append] at h
  rw [h]
  rfl

theorem splitValue_found {a : Str} (ha : '=' ∉ a) (b : Str) :
    splitValue (a ++ '=' :: b) = (a, some b) := by
  induction a with
  | nil => rfl
  | cons c a ih =>
      have hc : c ≠ '=' := by
        rintro rfl
        exact ha List.mem_cons_self
      simp [splitValue, hc, ih fun h => ha (List.mem_cons_of_mem c h)]

theorem splitValue_none {a : Str} (ha : '=' ∉ a) : splitValue a = (a, none) := by
  induction a with
  | nil => rfl
  | cons c a ih =>
      have hc : c ≠ '=' := by
        rintro rfl
        exact ha List.mem_cons_self
      simp [splitValue, hc, ih fun h => ha (List.mem_cons_of_mem c h)]

/-- A line is the key, `=` and the value, or it has no `=`. -/
theorem splitValue_spec (line : Str) : (splitValue line = (line, none) ∧ '=' ∉ line) ∨
    ∃ a b, splitValue line = (a, some b) ∧ line = a ++ '=' :: b ∧ '=' ∉ a := by
  by_cases h : '=' ∈ line
  · right
    obtain ⟨a, b, rfl, ha⟩ := List.eq_append_cons_of_mem h
    exact ⟨a, b, splitValue_found ha b, rfl, ha⟩
  · exact Or.inl ⟨splitValue_none h, h⟩

section Pair

variable {a b : Str} {sections : List INISection}

theorem trimLine_pair (a b : Str) :
    trimLine (a ++ '=' :: b) = a.dropWhile isBlank ++ '=' :: b.rdropWhile isBlank := by
  rw [trimLine_eq]
  exact trim_around (by decide) a b

/-- The key starts a line with `=` unless there is none. -/
theorem head_pair (a b : Str) : (trimLine (a ++ '=' :: b)).head? =
    if trimLine a = [] then some '=' else (trimLine a).head? := by
  rw [trimLine_pair, trimLine_eq, ← trim_dropWhile a]
  generalize hcase : a.dropWhile isBlank = l
  cases l with
  | nil => rfl
  | cons x l =>
      have hx := List.head?_dropWhile_not isBlank a
      rw [hcase] at hx
      have htrim : trim isBlank (x :: l) = x :: l.rdropWhile isBlank :=
        trim_around (by simpa using hx) [] l
      simp [htrim]

/-- The value ends a line with `=` unless there is none. -/
theorem last_pair (a b : Str) : (trimLine (a ++ '=' :: b)).getLast? =
    if trimLine b = [] then some '=' else (trimLine b).getLast? := by
  rw [trimLine_pair, trimLine_eq, ← trim_rdropWhile b,
    List.getLast?_append_of_ne_nil _ (by simp)]
  generalize hcase : b.rdropWhile isBlank = l
  rcases List.eq_nil_or_concat l with rfl | ⟨l, x, rfl⟩
  · rfl
  · have hx := List.rdropWhile_last_not isBlank b (by simp [hcase])
    simp only [hcase, List.concat_eq_append, List.getLast_append_singleton] at hx
    have htrim : trim isBlank (l ++ [x]) = l.dropWhile isBlank ++ [x] :=
      trim_around (by simpa using hx) l []
    rw [List.concat_eq_append, htrim]
    simp [List.getLast?_cons]

theorem split_pair (ha : '=' ∉ a) (b : Str) : splitValue (trimLine (a ++ '=' :: b)) =
    (a.dropWhile isBlank, some (b.rdropWhile isBlank)) := by
  rw [trimLine_pair]
  exact splitValue_found (fun h => ha ((List.dropWhile_sublist isBlank).subset h)) _

theorem not_comment_pair (h : (trimLine a).head? ≠ some '#' ∧ (trimLine a).head? ≠ some ';')
    (b : Str) : ¬ ((trimLine (a ++ '=' :: b)).head? = some '#' ∨
      (trimLine (a ++ '=' :: b)).head? = some ';' ∨ trimLine (a ++ '=' :: b) = []) := by
  have hne : trimLine (a ++ '=' :: b) ≠ [] := by
    rw [trimLine_pair]
    simp
  rw [head_pair]
  split <;> simp [h, hne]

/-- A line with a key and a value. -/
theorem parseLine_pair (ha : '=' ∉ a)
    (hcomment : (trimLine a).head? ≠ some '#' ∧ (trimLine a).head? ≠ some ';')
    (hsection : ¬ ((trimLine a).head? = some '[' ∧ (trimLine b).getLast? = some ']')) :
    parseLine sections (a ++ '=' :: b) = insertValue sections (trimLine a) (trimLine b) := by
  have hbracket : ¬ ((trimLine (a ++ '=' :: b)).head? = some '[' ∧
      (trimLine (a ++ '=' :: b)).getLast? = some ']') := by
    rw [head_pair, last_pair]
    rintro ⟨hhead, hlast⟩
    split at hhead
    · cases hhead
    · split at hlast
      · cases hlast
      · exact hsection ⟨hhead, hlast⟩
  unfold parseLine
  simp only [if_neg (not_comment_pair hcomment b), if_neg hbracket, split_pair ha]
  rw [trimLine_eq, trim_dropWhile, trimLine_eq, trim_rdropWhile, trimLine_eq, trimLine_eq]

/-- A line with a key and a value that reads as the name of a section. -/
theorem parseLine_bracket (sections : List INISection)
    (hsection : (trimLine a).head? = some '[' ∧ (trimLine b).getLast? = some ']') :
    ∃ sectionName, sectionName ≠ [] ∧
      parseLine sections (a ++ '=' :: b) = .ok (⟨sectionName, []⟩ :: sections) := by
  have hcomment : (trimLine a).head? ≠ some '#' ∧ (trimLine a).head? ≠ some ';' := by
    rw [hsection.1]
    decide
  have hkey : trimLine a ≠ [] := by
    intro hnil
    simp [hnil] at hsection
  have hvalue : trimLine b ≠ [] := by
    intro hnil
    simp [hnil] at hsection
  have hbracket : (trimLine (a ++ '=' :: b)).head? = some '[' ∧
      (trimLine (a ++ '=' :: b)).getLast? = some ']' := by
    rw [head_pair, last_pair, if_neg hkey, if_neg hvalue]
    exact hsection
  have hinner : trimLine ((trimLine (a ++ '=' :: b)).dropLast.drop 1) ≠ [] := by
    have hleft : a.dropWhile isBlank ≠ [] := by
      intro hnil
      rw [trimLine_eq, ← trim_dropWhile, hnil] at hkey
      exact hkey rfl
    have hright : b.rdropWhile isBlank ≠ [] := by
      intro hnil
      rw [trimLine_eq, ← trim_rdropWhile, hnil] at hvalue
      exact hvalue rfl
    obtain ⟨x, l, hl⟩ := List.exists_cons_of_ne_nil hleft
    obtain ⟨r, y, hr⟩ := (List.eq_nil_or_concat (b.rdropWhile isBlank)).resolve_left hright
    have hshape : x :: l ++ '=' :: r.concat y = (x :: (l ++ '=' :: r)).concat y := by simp
    rw [trimLine_pair, hl, hr, hshape, List.concat_eq_append, List.dropLast_concat, List.drop_one,
      List.tail_cons, trimLine_pair]
    simp
  refine ⟨_, hinner, ?_⟩
  unfold parseLine
  simp only [if_neg (not_comment_pair hcomment b), if_pos hbracket, if_neg hinner]

end Pair

section Text

variable {l rest : Str} {sections : List INISection}

theorem room : 0 < MAX_NUM_OF_CHAR_PER_LINE - 1 := by decide

/-- A line that fits into the buffer; the end of line may come with the next call. -/
theorem parseText_line (hl : '\n' ∉ l) (hlen : l.length ≤ MAX_NUM_OF_CHAR_PER_LINE - 1) :
    parseText sections (l ++ '\n' :: rest) =
      parseLine sections l >>= fun s => parseText s rest := by
  unfold parseText
  rcases Nat.lt_or_eq_of_le hlen with hlt | heq
  · rw [lines_line hl hlt, List.foldlM_cons, parseLine_append (by simp [blank_newline])]
  · rw [lines_full room hl heq, List.foldlM_cons]
    have hnext : lines '\n' (MAX_NUM_OF_CHAR_PER_LINE - 1) ('\n' :: rest) =
        ['\n'] :: lines '\n' (MAX_NUM_OF_CHAR_PER_LINE - 1) rest :=
      lines_line (l := []) (by simp) room
    simp only [hnext, List.foldlM_cons]
    congr 1

/-- The next call goes on where a line has filled the buffer. -/
theorem parseText_full (hl : '\n' ∉ l) (hlen : l.length = MAX_NUM_OF_CHAR_PER_LINE - 1) :
    parseText sections (l ++ rest) = parseLine sections l >>= fun s => parseText s rest := by
  unfold parseText
  rw [lines_full room hl hlen, List.foldlM_cons]

/-- A line with a blank behind it, which may not fit anymore. -/
theorem parseText_blank (hl : '\n' ∉ l) (hlen : l.length ≤ MAX_NUM_OF_CHAR_PER_LINE - 1) :
    parseText sections (l ++ ' ' :: '\n' :: rest) =
      parseLine sections l >>= fun s => parseText s rest := by
  rcases Nat.lt_or_eq_of_le hlen with hlt | heq
  · have hlen' : (l ++ [' ']).length ≤ MAX_NUM_OF_CHAR_PER_LINE - 1 := by
      rw [List.length_append, List.length_singleton]
      omega
    have hline : parseText sections (l ++ [' '] ++ '\n' :: rest) =
        parseLine sections (l ++ [' ']) >>= fun s => parseText s rest :=
      parseText_line (by simpa using hl) hlen'
    rw [List.append_assoc] at hline
    rw [← parseLine_append (b := [' ']) blank_space l sections]
    exact hline
  · rw [parseText_full hl heq]
    congr 1
    funext s
    have hnext : parseText s ([' '] ++ '\n' :: rest) =
        parseLine s [' '] >>= fun s => parseText s rest := parseText_line (by simp) (by decide)
    rw [parseLine_blank blank_space] at hnext
    exact hnext

end Text

end Jump.Comm.IniParse
