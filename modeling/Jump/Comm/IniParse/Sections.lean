import Jump.Comm.IniParse.Lines

/-! # What `Parse` accepts

Every key, value and section name that comes out of `Parse` could be read again
from a line of its own, as far as its characters go. `Save` puts two tabs, `=` and a
blank between key and value, so an entry takes up to four characters more than the
line it came from.
-/

namespace Jump.Comm.IniParse

open Jump.Core.Lines

/-! ## Sections that could have been read -/

/-- The text of a name, a key or a value. -/
structure Clean (s : Str) : Prop where
  trimmed : Trimmed isBlank s
  no_newline : '\n' ∉ s

/-- A key and a value that come from one line. -/
structure GoodEntry (e : Str × Str) : Prop where
  key : Clean e.1
  value : Clean e.2
  no_equals : '=' ∉ e.1
  no_comment : e.1.head? ≠ some '#' ∧ e.1.head? ≠ some ';'
  no_section : ¬ (e.1.head? = some '[' ∧ e.2.getLast? = some ']')
  length_le : e.1.length + 1 + e.2.length ≤ MAX_NUM_OF_CHAR_PER_LINE - 1

/-- The name of a section that has one. -/
structure GoodName (sectionName : Str) : Prop where
  clean : Clean sectionName
  ne_nil : sectionName ≠ []
  length_le : sectionName.length + 2 ≤ MAX_NUM_OF_CHAR_PER_LINE - 1

structure GoodSection (s : INISection) : Prop where
  name : s.sectionName = [] ∨ GoodName s.sectionName
  entries : ∀ e ∈ s.entries, GoodEntry e
  nodup : (s.entries.map Prod.fst).Nodup

/-- Sections, the last one first; only the first section of the file may have no name, and it
has a key then. -/
structure GoodFile (sections : List INISection) : Prop where
  good : ∀ s ∈ sections, GoodSection s
  named : ∀ s ∈ sections.dropLast, s.sectionName ≠ []
  used : ∀ s ∈ sections, s.sectionName = [] → s.entries ≠ []

theorem clean_trim {l : Str} (h : '\n' ∉ l) : Clean (trimLine l) := by
  rw [trimLine_eq]
  exact ⟨trim_trimmed l, fun hmem => h (mem_of_mem_trim hmem)⟩

/-- The trimmed line has no end of line. -/
theorem clean_line {text line : Str}
    (h : line ∈ lines '\n' (MAX_NUM_OF_CHAR_PER_LINE - 1) text) : Clean (trimLine line) ∧
      (trimLine line).length ≤ MAX_NUM_OF_CHAR_PER_LINE - 1 := by
  obtain ⟨hlen, l, hl, hline⟩ := mem_lines h
  have hsame : trimLine line = trimLine l := by
    rcases hline with rfl | rfl
    · rfl
    · rw [trimLine_eq, trimLine_eq, trim_append (by simp [blank_newline])]
  constructor
  · rw [hsame]
    exact clean_trim hl
  · rw [trimLine_eq]
    exact Nat.le_trans (length_trim_le line) hlen

/-- The first character of a key is the first of its line. -/
theorem head_key {a b : Str} (h : Trimmed isBlank (a ++ b)) (hne : trimLine a ≠ []) :
    (trimLine a).head? = (a ++ b).head? := by
  rw [trimLine_eq] at hne ⊢
  obtain ⟨c, d, heq, hc, -⟩ := trim_split (p := isBlank) a
  cases c with
  | nil =>
      obtain ⟨x, l, hx⟩ := List.exists_cons_of_ne_nil hne
      have happend : a ++ b = trim isBlank a ++ (d ++ b) := by
        conv_lhs => rw [heq]
        simp
      rw [happend, hx]
      rfl
  | cons x c =>
      have hblank := hc x List.mem_cons_self
      have hhead := h.head x (by rw [heq]; rfl)
      rw [hhead] at hblank
      cases hblank

/-- The last character of a value is the last of its line. -/
theorem last_value {a b : Str} (h : Trimmed isBlank (a ++ b)) (hne : trimLine b ≠ []) :
    (trimLine b).getLast? = (a ++ b).getLast? := by
  rw [trimLine_eq] at hne ⊢
  obtain ⟨c, d, heq, -, hd⟩ := trim_split (p := isBlank) b
  rcases List.eq_nil_or_concat d with rfl | ⟨d', x, rfl⟩
  · have happend : a ++ b = (a ++ c) ++ trim isBlank b := by
      conv_lhs => rw [heq]
      simp
    rw [happend, List.getLast?_append_of_ne_nil _ hne]
  · have hblank := hd x (by simp)
    have hlast := h.last x (by rw [heq]; simp)
    rw [hlast] at hblank
    cases hblank

/-- The key and the value of a line. -/
theorem goodEntry_of_line {newLine a b : Str} (hclean : Clean newLine)
    (hlen : newLine.length ≤ MAX_NUM_OF_CHAR_PER_LINE - 1)
    (hcomment : ¬ (newLine.head? = some '#' ∨ newLine.head? = some ';' ∨ newLine = []))
    (hsection : ¬ (newLine.head? = some '[' ∧ newLine.getLast? = some ']'))
    (heq : newLine = a ++ '=' :: b) (ha : '=' ∉ a) : GoodEntry (trimLine a, trimLine b) := by
  subst heq
  have hsplit : a ++ '=' :: b = (a ++ ['=']) ++ b := by simp
  constructor
  · exact clean_trim fun hmem => hclean.no_newline (by simp [hmem])
  · exact clean_trim fun hmem => hclean.no_newline (by simp [hmem])
  · rw [trimLine_eq]
    exact fun h => ha (mem_of_mem_trim h)
  · by_cases hne : trimLine a = []
    · simp [hne]
    · simp only [head_key hclean.trimmed hne]
      exact ⟨fun h => hcomment (Or.inl h), fun h => hcomment (Or.inr (Or.inl h))⟩
  · rintro ⟨hhead, hlast⟩
    have hne : trimLine a ≠ [] := by
      intro hnil
      simp [hnil] at hhead
    have hne' : trimLine b ≠ [] := by
      intro hnil
      simp [hnil] at hlast
    have htrimmed := hclean.trimmed
    rw [hsplit] at htrimmed
    apply hsection
    rw [← head_key hclean.trimmed hne, hsplit, ← last_value htrimmed hne']
    exact ⟨hhead, hlast⟩
  · have hka := length_trim_le (p := isBlank) a
    have hvb := length_trim_le (p := isBlank) b
    simp only [List.length_append, List.length_cons] at hlen
    simp only [trimLine_eq]
    omega

/-- The name in the brackets of a line. -/
theorem goodName_of_line {newLine : Str} (hclean : Clean newLine)
    (hlen : newLine.length ≤ MAX_NUM_OF_CHAR_PER_LINE - 1)
    (hne : trimLine (newLine.dropLast.drop 1) ≠ []) :
    GoodName (trimLine (newLine.dropLast.drop 1)) := by
  refine ⟨clean_trim fun hmem => hclean.no_newline ?_, hne, ?_⟩
  · exact (List.dropLast_sublist newLine).subset (List.mem_of_mem_drop hmem)
  · have hpos : 0 < (trimLine (newLine.dropLast.drop 1)).length :=
      List.length_pos_iff.mpr hne
    have hle := length_trim_le (p := isBlank) (newLine.dropLast.drop 1)
    simp only [List.length_drop, List.length_dropLast, trimLine_eq] at hle hpos ⊢
    omega

namespace GoodFile

variable {sections sections' : List INISection}

theorem push (h : GoodFile sections) {sectionName : Str} (hname : GoodName sectionName) :
    GoodFile (⟨sectionName, []⟩ :: sections) := by
  refine ⟨?_, ?_, ?_⟩
  · intro s hs
    rcases List.mem_cons.mp hs with rfl | hs
    · exact ⟨Or.inr hname, by simp, List.nodup_nil⟩
    · exact h.good s hs
  · intro s hs
    cases sections with
    | nil => cases hs
    | cons t sections =>
        rw [List.dropLast_cons_of_ne_nil (by simp)] at hs
        rcases List.mem_cons.mp hs with rfl | hs
        · exact hname.ne_nil
        · exact h.named s hs
  · intro s hs hnil
    rcases List.mem_cons.mp hs with rfl | hs
    · exact absurd hnil hname.ne_nil
    · exact h.used s hs hnil

theorem goodSection_insert {s s' : INISection} {key value : Str} (hs : GoodSection s)
    (he : GoodEntry (key, value)) (hrun : s.insert key value = .ok s') :
    GoodSection s' ∧ s'.sectionName = s.sectionName ∧
      s'.entries = s.entries ++ [(key, value)] := by
  unfold INISection.insert at hrun
  split at hrun
  · cases hrun
  · rename_i hfresh
    cases hrun
    refine ⟨⟨hs.name, ?_, ?_⟩, rfl, rfl⟩
    · intro e hmem
      rcases List.mem_append.mp hmem with hmem | hmem
      · exact hs.entries e hmem
      · rw [List.mem_singleton.mp hmem]
        exact he
    · rw [List.map_append, List.nodup_append]
      refine ⟨hs.nodup, by simp, ?_⟩
      intro k hk k' hk' heq
      rw [List.map_singleton, List.mem_singleton] at hk'
      subst heq
      subst hk'
      exact hfresh hk

theorem insert (h : GoodFile sections) {key value : Str} (he : GoodEntry (key, value))
    (hrun : insertValue sections key value = .ok sections') : GoodFile sections' := by
  cases sections with
  | nil =>
      cases hs : INISection.insert ⟨[], []⟩ key value with
      | error e =>
          simp [insertValue, hs, Except.map] at hrun
      | ok s =>
          simp only [insertValue, hs, Except.map, Except.ok.injEq] at hrun
          subst hrun
          obtain ⟨hgood, -, hentries⟩ :=
            goodSection_insert (s := ⟨[], []⟩) ⟨Or.inl rfl, by simp, List.nodup_nil⟩ he hs
          refine ⟨by simpa using hgood, by simp, ?_⟩
          intro t ht _
          rw [List.mem_singleton.mp ht, hentries]
          simp
  | cons s others =>
      cases hs : s.insert key value with
      | error e =>
          simp [insertValue, hs, Except.map] at hrun
      | ok s' =>
          simp only [insertValue, hs, Except.map, Except.ok.injEq] at hrun
          subst hrun
          obtain ⟨hgood, hname, hentries⟩ :=
            goodSection_insert (h.good s List.mem_cons_self) he hs
          refine ⟨?_, ?_, ?_⟩
          · intro t ht
            rcases List.mem_cons.mp ht with rfl | ht
            · exact hgood
            · exact h.good t (List.mem_cons_of_mem s ht)
          · intro t ht
            cases others with
            | nil => cases ht
            | cons u others =>
                rw [List.dropLast_cons_of_ne_nil (by simp)] at ht
                have hnamed := h.named
                rw [List.dropLast_cons_of_ne_nil (by simp)] at hnamed
                rcases List.mem_cons.mp ht with rfl | ht
                · rw [hname]
                  exact hnamed s List.mem_cons_self
                · exact hnamed t (List.mem_cons_of_mem s ht)
          · intro t ht hnil
            rcases List.mem_cons.mp ht with rfl | ht
            · rw [hentries]
              simp
            · exact h.used t (List.mem_cons_of_mem s ht) hnil

theorem parseLine (h : GoodFile sections) {line : Str} (hclean : Clean (trimLine line))
    (hlen : (trimLine line).length ≤ MAX_NUM_OF_CHAR_PER_LINE - 1)
    (hrun : IniParse.parseLine sections line = .ok sections') : GoodFile sections' := by
  unfold IniParse.parseLine at hrun
  simp only at hrun
  split at hrun
  · cases hrun
    exact h
  · rename_i hcomment
    split at hrun
    · split at hrun
      · cases hrun
        exact h
      · rename_i hne
        cases hrun
        exact h.push (goodName_of_line hclean hlen hne)
    · rename_i hsection
      rcases splitValue_spec (trimLine line) with ⟨hsplit, -⟩ | ⟨a, b, hsplit, heq, ha⟩
      · simp [hsplit] at hrun
      · simp only [hsplit] at hrun
        exact h.insert (goodEntry_of_line hclean hlen hcomment hsection heq ha) hrun

theorem parseText (h : GoodFile sections) {text : Str}
    (hrun : IniParse.parseText sections text = .ok sections') : GoodFile sections' := by
  unfold IniParse.parseText at hrun
  have hlines : ∀ line ∈ lines '\n' (MAX_NUM_OF_CHAR_PER_LINE - 1) text,
      Clean (trimLine line) ∧ (trimLine line).length ≤ MAX_NUM_OF_CHAR_PER_LINE - 1 :=
    fun line hline => clean_line hline
  generalize lines '\n' (MAX_NUM_OF_CHAR_PER_LINE - 1) text = ls at hrun hlines
  induction ls generalizing sections with
  | nil =>
      cases hrun
      exact h
  | cons line ls ih =>
      rw [List.foldlM_cons] at hrun
      cases hline : IniParse.parseLine sections line with
      | error e =>
          rw [hline] at hrun
          cases hrun
      | ok sections₁ =>
          rw [hline] at hrun
          obtain ⟨hclean, hlen⟩ := hlines line List.mem_cons_self
          exact ih (h.parseLine hclean hlen hline) hrun
            fun l hl => hlines l (List.mem_cons_of_mem line hl)

end GoodFile

theorem goodFile_nil : GoodFile [] := ⟨by simp, by simp, by simp⟩

/-! ## Writing a line and reading it again -/

/-- The line that `Save` writes for the entry fits into the buffer of `Parse`, but for a
blank at its end. -/
def Short (e : Str × Str) : Prop :=
  e.1.length + 3 + (if e.2 = [] then 0 else e.2.length + 1) ≤ MAX_NUM_OF_CHAR_PER_LINE - 1

instance (e : Str × Str) : Decidable (Short e) := by unfold Short; infer_instance

/-- What `Save` writes a line for. -/
inductive Item where
  | header (sectionName : Str)
  | entry (e : Str × Str)

namespace Item

def print : Item → Str
  | .header sectionName => '[' :: sectionName ++ [']', '\n']
  | .entry e => printEntry e

/-- What the line should do to the sections. -/
def add (sections : List INISection) : Item → List INISection
  | .header sectionName => ⟨sectionName, []⟩ :: sections
  | .entry e =>
    match sections with
    | [] => [⟨[], [e]⟩]
    | s :: others => ⟨s.sectionName, s.entries ++ [e]⟩ :: others

def Good : Item → Prop
  | .header sectionName => GoodName sectionName
  | .entry e => GoodEntry e

def Fits : Item → Prop
  | .header _ => True
  | .entry e => Short e

/-- The key is not in the section it goes to. -/
def Fresh (sections : List INISection) : Item → Prop
  | .header _ => True
  | .entry e => ∀ s, sections.head? = some s → e.1 ∉ s.entries.map Prod.fst

end Item

/-- Good lines, each fresh where the ones before it have led. -/
def Readable : List INISection → List Item → Prop
  | _, [] => True
  | sections, item :: items =>
    item.Good ∧ item.Fresh sections ∧ Readable (item.add sections) items

theorem insertValue_fresh {sections : List INISection} {e : Str × Str}
    (h : (Item.entry e).Fresh sections) :
    insertValue sections e.1 e.2 = .ok ((Item.entry e).add sections) := by
  cases sections with
  | nil => rfl
  | cons s others =>
      have hkey := h s rfl
      simp [insertValue, INISection.insert, hkey, Except.map, Item.add]

/-- What a line adds when it is an entry at all. -/
theorem insertValue_ok {sections sections' : List INISection} {key value : Str}
    (h : insertValue sections key value = .ok sections') :
    sections' = (Item.entry (key, value)).add sections := by
  cases sections with
  | nil =>
      simp only [insertValue, INISection.insert, Except.map] at h
      cases h
      rfl
  | cons s others =>
      by_cases hkey : key ∈ s.entries.map Prod.fst
      · simp only [insertValue, INISection.insert, if_pos hkey, Except.map] at h
        cases h
      · simp only [insertValue, INISection.insert, if_neg hkey, Except.map] at h
        cases h
        rfl

section Header

variable {sectionName rest : Str} {sections : List INISection}

theorem parseLine_header (h : GoodName sectionName) :
    parseLine sections ('[' :: sectionName ++ [']']) = .ok (⟨sectionName, []⟩ :: sections) := by
  have htrimmed : Trimmed isBlank ('[' :: sectionName ++ [']']) := by
    constructor
    · intro c hc
      cases hc
      decide
    · intro c hc
      rw [List.getLast?_append_of_ne_nil _ (by simp)] at hc
      cases hc
      decide
  have hlast : ('[' :: sectionName ++ [']']).getLast? = some ']' := by
    rw [List.getLast?_append_of_ne_nil _ (by simp)]
    rfl
  have hinner : (('[' :: sectionName ++ [']']).dropLast.drop 1) = sectionName := by
    rw [List.dropLast_concat]
    rfl
  have hhead : ('[' :: sectionName ++ [']']).head? = some '[' := rfl
  unfold parseLine
  simp only [trimLine_eq, trim_self htrimmed, hhead, hlast, hinner,
    trim_self h.clean.trimmed, if_neg h.ne_nil]
  simp

theorem parseText_header (h : GoodName sectionName) :
    parseText sections ((Item.header sectionName).print ++ rest) =
      parseText ((Item.header sectionName).add sections) rest := by
  have hno : '\n' ∉ '[' :: sectionName ++ [']'] := by
    have hclean := h.clean.no_newline
    simp [hclean]
  have hlen : ('[' :: sectionName ++ [']']).length ≤ MAX_NUM_OF_CHAR_PER_LINE - 1 := by
    have hle := h.length_le
    simp only [List.length_append, List.length_cons, List.length_nil]
    omega
  have hline : parseText sections ('[' :: sectionName ++ [']'] ++ '\n' :: rest) =
      parseLine sections ('[' :: sectionName ++ [']']) >>= fun s => parseText s rest :=
    parseText_line hno hlen
  rw [parseLine_header h] at hline
  have happend : (Item.header sectionName).print ++ rest =
      ('[' :: sectionName ++ [']']) ++ '\n' :: rest := by simp [Item.print]
  rw [happend, hline]
  rfl

end Header

section Entry

variable {e : Str × Str} {rest : Str} {sections : List INISection}

theorem no_newline_entry (h : GoodEntry e) {w : Str} (hw : '\n' ∉ w) :
    '\n' ∉ e.1 ++ ['\t', '\t'] ++ '=' :: w := by
  have hkey := h.key.no_newline
  simp [hkey, hw]

theorem trimLine_key (h : GoodEntry e) : trimLine (e.1 ++ ['\t', '\t']) = e.1 := by
  rw [trimLine_eq, trim_append blank_tabs, trim_self h.key.trimmed]

theorem trimLine_value (h : GoodEntry e) : trimLine (' ' :: e.2) = e.2 := by
  have hblank : trim isBlank ([' '] ++ e.2) = trim isBlank e.2 :=
    trim_blank_append blank_space e.2
  rw [trimLine_eq]
  rw [trim_self h.value.trimmed] at hblank
  exact hblank

theorem no_equals_entry (h : GoodEntry e) : '=' ∉ e.1 ++ ['\t', '\t'] := by
  have hkey := h.no_equals
  simp [hkey]

theorem parseLine_entry (h : GoodEntry e) {w : Str} (hw : trimLine w = e.2) :
    parseLine sections (e.1 ++ ['\t', '\t'] ++ '=' :: w) = insertValue sections e.1 e.2 := by
  rw [parseLine_pair (no_equals_entry h), trimLine_key h, hw]
  · rw [trimLine_key h]
    exact h.no_comment
  · rw [trimLine_key h, hw]
    exact h.no_section

/-- An entry that is short enough comes back. -/
theorem parseText_entry (h : GoodEntry e) (hshort : Short e)
    (hfresh : (Item.entry e).Fresh sections) :
    parseText sections ((Item.entry e).print ++ rest) =
      parseText ((Item.entry e).add sections) rest := by
  unfold Short at hshort
  by_cases hvalue : e.2 = []
  · have hline : parseText sections (e.1 ++ ['\t', '\t'] ++ '=' :: [] ++ ' ' :: '\n' :: rest) =
        parseLine sections (e.1 ++ ['\t', '\t'] ++ '=' :: []) >>= fun s => parseText s rest := by
      apply parseText_blank (no_newline_entry h (by simp))
      rw [if_pos hvalue] at hshort
      simpa using hshort
    have happend : (Item.entry e).print ++ rest =
        e.1 ++ ['\t', '\t'] ++ '=' :: [] ++ ' ' :: '\n' :: rest := by
      simp [Item.print, printEntry, hvalue]
    rw [happend, hline, parseLine_entry h (by rw [hvalue]; rfl), insertValue_fresh hfresh]
    rfl
  · have hline : parseText sections (e.1 ++ ['\t', '\t'] ++ '=' :: ' ' :: e.2 ++ '\n' :: rest) =
        parseLine sections (e.1 ++ ['\t', '\t'] ++ '=' :: ' ' :: e.2) >>=
          fun s => parseText s rest := by
      have hclean := h.value.no_newline
      apply parseText_line (no_newline_entry h (by simp [hclean]))
      rw [if_neg hvalue] at hshort
      simp only [List.length_append, List.length_cons, List.length_nil]
      omega
    have happend : (Item.entry e).print ++ rest =
        e.1 ++ ['\t', '\t'] ++ '=' :: ' ' :: e.2 ++ '\n' :: rest := by
      simp [Item.print, printEntry]
    rw [happend, hline, parseLine_entry h (trimLine_value h), insertValue_fresh hfresh]
    rfl

end Entry

end Jump.Comm.IniParse
