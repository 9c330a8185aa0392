import Jump.Comm.IniParse.Sections

/-! # Writing a file and reading it again

Reading only adds: sections, and entries of the last section. So what a line adds is
still there in the result, and a cut line adds something else than the entry it is for.
-/

namespace Jump.Comm.IniParse

open Jump.Core.Lines

/-- The last section of `sections` may have got more entries, and there may be more sections. -/
def Extends : List INISection → List INISection → Prop
  | [], _ => True
  | s :: others, result =>
    ∃ later more, result = later ++ ⟨s.sectionName, s.entries ++ more⟩ :: others

namespace Extends

variable {sections sections' result : List INISection}

theorem refl (sections : List INISection) : Extends sections sections := by
  cases sections with
  | nil => trivial
  | cons s others => exact ⟨[], [], by simp⟩

theorem trans (h : Extends sections sections') (h' : Extends sections' result) :
    Extends sections result := by
  cases sections with
  | nil => trivial
  | cons s others =>
      obtain ⟨later, more, rfl⟩ := h
      cases later with
      | nil =>
          obtain ⟨later', more', rfl⟩ := h'
          exact ⟨later', more ++ more', by simp⟩
      | cons t later =>
          obtain ⟨later', more', rfl⟩ := h'
          exact ⟨later' ++ ⟨t.sectionName, t.entries ++ more'⟩ :: later, more, by simp⟩

theorem add (sections : List INISection) (item : Item) : Extends sections (item.add sections) := by
  cases sections with
  | nil => trivial
  | cons s others =>
      cases item with
      | header sectionName => exact ⟨[⟨sectionName, []⟩], [], by simp [Item.add]⟩
      | entry e => exact ⟨[], [e], by simp [Item.add]⟩

theorem foldl_add (sections : List INISection) (items : List Item) :
    Extends sections (items.foldl Item.add sections) := by
  induction items generalizing sections with
  | nil => exact refl sections
  | cons item items ih => exact (add sections item).trans (ih (item.add sections))

theorem parseLine {line : Str} (h : IniParse.parseLine sections line = .ok sections') :
    Extends sections sections' := by
  unfold IniParse.parseLine at h
  simp only at h
  split at h
  · cases h
    exact refl sections
  · split at h
    · split at h
      · cases h
        exact refl sections
      · cases h
        exact add sections (.header _)
    · split at h
      · cases h
      · rw [insertValue_ok h]
        exact add sections (.entry _)

theorem parseText {text : Str} (h : IniParse.parseText sections text = .ok result) :
    Extends sections result := by
  unfold IniParse.parseText at h
  generalize lines '\n' (MAX_NUM_OF_CHAR_PER_LINE - 1) text = ls at h
  induction ls generalizing sections with
  | nil =>
      rw [← Except.ok.inj h]
      exact refl sections
  | cons line ls ih =>
      rw [List.foldlM_cons] at h
      cases hline : IniParse.parseLine sections line with
      | error e =>
          rw [hline] at h
          cases h
      | ok sections₁ =>
          rw [hline] at h
          exact (parseLine hline).trans (ih h)

/-- Two results of one length agree on the last section and on those before it. -/
theorem inj {s t : INISection} {others others' : List INISection}
    (h : Extends (s :: others) result) (h' : Extends (t :: others') result)
    (hlen : others.length = others'.length) :
    s.sectionName = t.sectionName ∧ others = others' ∧
      ∃ more more', s.entries ++ more = t.entries ++ more' := by
  obtain ⟨later, more, rfl⟩ := h
  obtain ⟨later', more', heq⟩ := h'
  obtain ⟨-, hsame⟩ := List.append_inj' heq (by simp [hlen])
  rw [List.cons.injEq, INISection.mk.injEq] at hsame
  exact ⟨hsame.1.1, hsame.2, more, more', hsame.1.2⟩

/-- Another entry in the place of an entry. -/
theorem entry_inj {e e' : Str × Str} (h : Extends ((Item.entry e).add sections) result)
    (h' : Extends ((Item.entry e').add sections) result) : e = e' := by
  cases sections with
  | nil =>
      obtain ⟨-, -, more, more', heq⟩ := h.inj h' rfl
      exact (List.cons.inj heq).1
  | cons s others =>
      obtain ⟨-, -, more, more', heq⟩ := h.inj h' rfl
      simp only [List.append_assoc, List.append_cancel_left_eq] at heq
      exact (List.cons.inj heq).1

/-- A section in the place of an entry. -/
theorem not_header {e : Str × Str} {sectionName : Str} (hname : sectionName ≠ [])
    (h : Extends ((Item.entry e).add sections) result) :
    ¬ Extends ((Item.header sectionName).add sections) result := by
  intro h'
  cases sections with
  | nil =>
      obtain ⟨hnil, -⟩ := h.inj h' rfl
      exact hname hnil.symm
  | cons s others =>
      obtain ⟨later, more, hentry⟩ := h
      obtain ⟨later', more', hheader⟩ := h'
      have hsame : later ++ [⟨s.sectionName, s.entries ++ [e] ++ more⟩] ++ others =
          (later' ++ [⟨sectionName, [] ++ more'⟩]) ++ s :: others := by
        rw [← List.append_cons, ← hentry, hheader]
        simp
      have hsame' : later ++ [⟨s.sectionName, s.entries ++ [e] ++ more⟩] =
          (later' ++ [⟨sectionName, [] ++ more'⟩]) ++ [s] := by
        rw [List.append_cons (later' ++ _)] at hsame
        exact List.append_cancel_right hsame
      obtain ⟨-, hlast⟩ := List.append_inj' hsame' rfl
      have hentries := congrArg INISection.entries (List.cons.inj hlast).1
      have hlen := congrArg List.length hentries
      simp only [List.length_append, List.length_singleton] at hlen
      omega

end Extends

section Cut

variable {e : Str × Str} {rest : Str} {sections sections' result : List INISection}

theorem bind_ok {α β ε : Type} {x : Except ε α} {f : α → Except ε β} {b : β}
    (h : x >>= f = .ok b) : ∃ a, x = .ok a ∧ f a = .ok b := by
  cases x with
  | error e => cases h
  | ok a => exact ⟨a, rfl, h⟩

/-- The first buffer of an entry whose value is cut. -/
theorem not_extends_value (h : GoodEntry e) {w : Str} (hw : trimLine w ≠ e.2)
    (hrun : parseLine sections (e.1 ++ ['\t', '\t'] ++ '=' :: w) = .ok sections')
    (hresult : Extends sections' result) :
    ¬ Extends ((Item.entry e).add sections) result := by
  intro hentry
  by_cases hsection : e.1.head? = some '[' ∧ (trimLine w).getLast? = some ']'
  · rw [← trimLine_key h] at hsection
    obtain ⟨sectionName, hname, hline⟩ := parseLine_bracket sections hsection
    rw [hrun, Except.ok.injEq] at hline
    subst hline
    exact Extends.not_header hname hentry hresult
  · rw [parseLine_pair (no_equals_entry h), trimLine_key h] at hrun
    · rw [insertValue_ok hrun] at hresult
      have hsame := hresult.entry_inj hentry
      exact hw (congrArg Prod.snd hsame)
    · rw [trimLine_key h]
      exact h.no_comment
    · rw [trimLine_key h]
      exact hsection

/-- A key alone on its line is no entry. -/
theorem parseLine_key (h : GoodEntry e)
    (hrun : parseLine sections e.1 = .ok sections') :
    sections' = sections ∨ ∃ sectionName, sectionName ≠ [] ∧
      sections' = (Item.header sectionName).add sections := by
  have htrim : trimLine e.1 = e.1 := by rw [trimLine_eq, trim_self h.key.trimmed]
  unfold parseLine at hrun
  simp only [htrim] at hrun
  split at hrun
  · cases hrun
    exact Or.inl rfl
  · split at hrun
    · split at hrun
      · cases hrun
        exact Or.inl rfl
      · rename_i hname
        cases hrun
        exact Or.inr ⟨_, hname, rfl⟩
    · rw [splitValue_none h.no_equals] at hrun
      cases hrun

/-- The key and its tabs have filled the buffer; the value comes with the next. -/
theorem not_extends_key (h : GoodEntry e) (hne : e.1 ≠ []) {a b : Str}
    (hab : a ++ b = ['\t', '\t']) (hlen : (e.1 ++ a).length = MAX_NUM_OF_CHAR_PER_LINE - 1)
    (hrun : parseText sections ((e.1 ++ a) ++ (b ++ '=' :: ' ' :: e.2 ++ '\n' :: rest)) =
      .ok result) : ¬ Extends ((Item.entry e).add sections) result := by
  intro hentry
  have hblank : ∀ c ∈ a ++ b, isBlank c = true := by
    rw [hab]
    exact blank_tabs
  have ha : ∀ c ∈ a, isBlank c = true := fun c hc => hblank c (List.mem_append_left b hc)
  have hb : ∀ c ∈ b, isBlank c = true := fun c hc => hblank c (List.mem_append_right a hc)
  have hkey := h.key.no_newline
  have hvalue := h.value.no_newline
  have hnot : ∀ c ∈ a ++ b, c = '\t' := by
    rw [hab]
    simp
  have hna : '\n' ∉ e.1 ++ a := by
    intro hmem
    rcases List.mem_append.mp hmem with hmem | hmem
    · exact hkey hmem
    · exact absurd (hnot '\n' (List.mem_append_left b hmem)) (by decide)
  have hnb : ∀ c, c ≠ '\t' → c ∉ b := by
    intro c hc hmem
    exact hc (hnot c (List.mem_append_right a hmem))
  rw [parseText_full hna hlen] at hrun
  obtain ⟨sections₁, hfirst, hrest⟩ := bind_ok hrun
  rw [parseLine_append ha] at hfirst
  rcases parseLine_key h hfirst with hsame | ⟨sectionName, hname, hheader⟩
  · subst hsame
    have hline : '\n' ∉ b ++ '=' :: ' ' :: e.2 := by
      simp [hnb '\n' (by decide), hvalue]
    have hroom : (b ++ '=' :: ' ' :: e.2).length ≤ MAX_NUM_OF_CHAR_PER_LINE - 1 := by
      have hle := h.length_le
      have hsum := congrArg List.length hab
      have hmax : MAX_NUM_OF_CHAR_PER_LINE = 4096 := rfl
      simp only [List.length_append, List.length_cons, List.length_nil] at hlen hsum ⊢
      omega
    rw [parseText_line hline hroom] at hrest
    obtain ⟨sections₂, hsecond, hlater⟩ := bind_ok hrest
    have hnil : trimLine b = [] := by
      have hblank' := trim_blank_append hb ([] : Str)
      rw [List.append_nil] at hblank'
      rw [trimLine_eq, hblank']
      rfl
    rw [parseLine_pair (hnb '=' (by decide)), hnil] at hsecond
    · have hadd := Extends.parseText hlater
      rw [insertValue_ok hsecond] at hadd
      have hsame := hadd.entry_inj hentry
      exact hne (congrArg Prod.fst hsame).symm
    · rw [hnil]
      simp
    · rw [hnil]
      simp
  · subst hheader
    exact Extends.not_header hname hentry (Extends.parseText hrest)

/-- An entry whose line is cut does not come back. -/
theorem not_extends_long (h : GoodEntry e) (hlong : ¬ Short e)
    (hrun : parseText sections ((Item.entry e).print ++ rest) = .ok result) :
    ¬ Extends ((Item.entry e).add sections) result := by
  have hmax : MAX_NUM_OF_CHAR_PER_LINE - 1 = 4095 := rfl
  have hle := h.length_le
  unfold Short at hlong
  rw [hmax] at hle hlong
  by_cases hkey : e.1.length + 3 ≤ 4095
  · have hvalue : e.2 ≠ [] := by
      intro hnil
      rw [if_pos hnil] at hlong
      omega
    rw [if_neg hvalue] at hlong
    obtain ⟨n, hn⟩ : ∃ n, 4095 = e.1.length + 3 + n := ⟨4095 - (e.1.length + 3), by omega⟩
    have hn' : n ≤ e.2.length := by omega
    have happend : (Item.entry e).print ++ rest =
        (e.1 ++ ['\t', '\t'] ++ '=' :: (' ' :: e.2).take n) ++
          ((' ' :: e.2).drop n ++ '\n' :: rest) := by
      have hvalue' := List.take_append_drop n (' ' :: e.2)
      calc (Item.entry e).print ++ rest
          = e.1 ++ ['\t', '\t'] ++ '=' :: (' ' :: e.2) ++ '\n' :: rest := by
            simp [Item.print, printEntry]
        _ = e.1 ++ ['\t', '\t'] ++ '=' :: ((' ' :: e.2).take n ++ (' ' :: e.2).drop n) ++
              '\n' :: rest := by rw [hvalue']
        _ = _ := by simp only [List.append_assoc, List.cons_append]
    have hno : '\n' ∉ (' ' :: e.2).take n := by
      intro hmem
      rcases List.mem_cons.mp (List.mem_of_mem_take hmem) with heq | hmem
      · exact absurd heq (by decide)
      · exact h.value.no_newline hmem
    have hfull : (e.1 ++ ['\t', '\t'] ++ '=' :: (' ' :: e.2).take n).length =
        MAX_NUM_OF_CHAR_PER_LINE - 1 := by
      simp only [List.length_append, List.length_cons, List.length_nil, List.length_take]
      omega
    rw [happend, parseText_full (no_newline_entry h hno) hfull] at hrun
    obtain ⟨sections₁, hfirst, hlater⟩ := bind_ok hrun
    refine not_extends_value h ?_ hfirst (Extends.parseText hlater)
    intro hsame
    have hlen := congrArg List.length hsame
    have hpos := List.length_pos_iff.mpr hvalue
    cases n with
    | zero =>
        rw [List.take_zero] at hlen
        exact absurd hlen (Nat.ne_of_lt hpos)
    | succ n =>
        have htrim : trim isBlank ([' '] ++ e.2.take n) = trim isBlank (e.2.take n) :=
          trim_blank_append blank_space _
        have hshort := length_trim_le (p := isBlank) (e.2.take n)
        rw [List.take_succ_cons, trimLine_eq, ← List.singleton_append, htrim] at hlen
        rw [List.length_take] at hshort
        omega
  · have hne : e.1 ≠ [] := by
      intro hnil
      rw [hnil] at hkey
      exact hkey (by decide)
    have happend : (Item.entry e).print ++ rest =
        (e.1 ++ ['\t', '\t'].take (4095 - e.1.length)) ++
          (['\t', '\t'].drop (4095 - e.1.length) ++ '=' :: ' ' :: e.2 ++ '\n' :: rest) := by
      have htabs := List.take_append_drop (4095 - e.1.length) ['\t', '\t']
      calc (Item.entry e).print ++ rest
          = e.1 ++ ['\t', '\t'] ++ '=' :: ' ' :: e.2 ++ '\n' :: rest := by
            simp [Item.print, printEntry]
        _ = e.1 ++ (['\t', '\t'].take (4095 - e.1.length) ++
              ['\t', '\t'].drop (4095 - e.1.length)) ++ '=' :: ' ' :: e.2 ++ '\n' :: rest := by
            rw [htabs]
        _ = _ := by simp only [List.append_assoc, List.cons_append]
    rw [happend] at hrun
    refine not_extends_key h hne (List.take_append_drop _ _) ?_ hrun
    simp only [List.length_append, List.length_take, List.length_cons, List.length_nil]
    omega

end Cut

/-- A file comes back exactly when none of its lines is cut. -/
theorem parseText_items {sections : List INISection} {items : List Item}
    (h : Readable sections items) :
    parseText sections (items.flatMap Item.print) = .ok (items.foldl Item.add sections) ↔
      ∀ item ∈ items, item.Fits := by
  induction items generalizing sections with
  | nil => simp [parseText, lines, readLines, pure, Except.pure]
  | cons item items ih =>
      obtain ⟨hgood, hfresh, hrest⟩ := h
      rw [List.flatMap_cons, List.foldl_cons, List.forall_mem_cons]
      cases item with
      | header sectionName =>
          rw [parseText_header hgood, ih hrest]
          simp [Item.Fits]
      | entry e =>
          by_cases hshort : Short e
          · rw [parseText_entry hgood hshort hfresh, ih hrest]
            simp [Item.Fits, hshort]
          · constructor
            · intro hrun
              exact absurd (Extends.foldl_add _ items) (not_extends_long hgood hshort hrun)
            · intro hfits
              exact absurd hfits.1 hshort

/-- The lines of a section. -/
def INISection.items (s : INISection) : List Item :=
  (if s.sectionName = [] then [] else [.header s.sectionName]) ++ s.entries.map .entry

theorem print_items (s : INISection) : s.items.flatMap Item.print =
    printHeader s.sectionName ++ s.entries.flatMap printEntry := by
  unfold INISection.items printHeader
  rw [List.flatMap_append, List.flatMap_map]
  congr 1
  split <;> simp [Item.print]

theorem save_eq (sections : List INISection) :
    save sections = (sections.flatMap INISection.items).flatMap Item.print := by
  unfold save
  rw [List.flatMap_assoc]
  simp only [print_items]

section Built

variable {sections others : List INISection} {sectionName : Str}

theorem readable_append {items items' : List Item} : Readable sections (items ++ items') ↔
    Readable sections items ∧ Readable (items.foldl Item.add sections) items' := by
  induction items generalizing sections with
  | nil => simp [Readable]
  | cons item items ih => simp [Readable, ih, and_assoc]

/-- The lines of a section's entries, after some that are there. -/
theorem readable_entries (sectionName : Str) (others : List INISection)
    (before : List (Str × Str)) {es : List (Str × Str)} (hgood : ∀ e ∈ es, GoodEntry e)
    (hnodup : ((before ++ es).map Prod.fst).Nodup) :
    Readable (⟨sectionName, before⟩ :: others) (es.map .entry) ∧
      (es.map .entry).foldl Item.add (⟨sectionName, before⟩ :: others) =
        ⟨sectionName, before ++ es⟩ :: others := by
  induction es generalizing before with
  | nil => simp [Readable]
  | cons e es ih =>
      rw [List.append_cons] at hnodup
      obtain ⟨hreadable, hfold⟩ :=
        ih (before ++ [e]) (fun d hd => hgood d (List.mem_cons_of_mem e hd)) hnodup
      have hfresh : (Item.entry e).Fresh (⟨sectionName, before⟩ :: others) := by
        intro s hs hmem
        cases hs
        rw [List.map_append, List.map_append, List.append_assoc, List.nodup_append] at hnodup
        exact hnodup.2.2 e.1 hmem e.1 (by simp) rfl
      rw [List.append_cons]
      exact ⟨⟨hgood e List.mem_cons_self, hfresh, hreadable⟩, hfold⟩

/-- The lines of a section build the section. -/
theorem readable_section {s : INISection} (h : GoodFile (s :: others)) :
    Readable others s.items ∧ s.items.foldl Item.add others = s :: others := by
  have hs := h.good s List.mem_cons_self
  unfold INISection.items
  split
  · rename_i hname
    have hnone : others = [] := by
      cases others with
      | nil => rfl
      | cons t others =>
          refine absurd hname (h.named s ?_)
          rw [List.dropLast_cons_of_ne_nil (by simp)]
          exact List.mem_cons_self
    subst hnone
    obtain ⟨sectionName, entries⟩ := s
    cases hname
    cases entries with
    | nil => exact absurd rfl (h.used _ List.mem_cons_self rfl)
    | cons e es =>
        have hnodup := hs.nodup
        have hbuilt := readable_entries [] [] [e]
          (fun d hd => hs.entries d (List.mem_cons_of_mem e hd)) hnodup
        refine ⟨⟨hs.entries e List.mem_cons_self, ?_, hbuilt.1⟩, hbuilt.2⟩
        intro t ht
        cases ht
  · rename_i hname
    have hbuilt := readable_entries s.sectionName others [] hs.entries hs.nodup
    exact ⟨⟨hs.name.resolve_left hname, trivial, hbuilt.1⟩, hbuilt.2⟩

theorem readable_file (h : GoodFile sections) :
    Readable [] (sections.reverse.flatMap INISection.items) ∧
      (sections.reverse.flatMap INISection.items).foldl Item.add [] = sections := by
  induction sections with
  | nil => exact ⟨trivial, rfl⟩
  | cons s others ih =>
      have hothers : GoodFile others := by
        refine ⟨fun t ht => h.good t (List.mem_cons_of_mem s ht), ?_,
          fun t ht => h.used t (List.mem_cons_of_mem s ht)⟩
        intro t ht
        cases others with
        | nil => cases ht
        | cons u others =>
            refine h.named t ?_
            rw [List.dropLast_cons_of_ne_nil (by simp)]
            exact List.mem_cons_of_mem s ht
      obtain ⟨hreadable, hfold⟩ := ih hothers
      obtain ⟨hreadable', hfold'⟩ := readable_section h
      rw [List.reverse_cons, List.flatMap_append, List.flatMap_singleton, readable_append,
        List.foldl_append, hfold]
      exact ⟨⟨hreadable, hreadable'⟩, hfold'⟩

end Built

theorem fits_items (sections : List INISection) :
    (∀ item ∈ sections.flatMap INISection.items, item.Fits) ↔
      ∀ s ∈ sections, ∀ e ∈ s.entries, Short e := by
  constructor
  · intro h s hs e he
    refine h (.entry e) (List.mem_flatMap.mpr ⟨s, hs, ?_⟩)
    exact List.mem_append_right _ (List.mem_map_of_mem he)
  · intro h item hitem
    obtain ⟨s, hs, hitem⟩ := List.mem_flatMap.mp hitem
    unfold INISection.items at hitem
    rcases List.mem_append.mp hitem with hheader | hentry
    · split at hheader
      · cases hheader
      · rw [List.mem_singleton.mp hheader]
        trivial
    · obtain ⟨e, he, rfl⟩ := List.mem_map.mp hentry
      exact h s hs e he

/-- The key and the value of a line that has them. -/
def entryOf (line : Str) : Option (Str × Str) :=
  let newLine := trimLine line
  if newLine.head? = some '#' ∨ newLine.head? = some ';' ∨ newLine = [] then none
  else if newLine.head? = some '[' ∧ newLine.getLast? = some ']' then none
  else (splitValue newLine).2.map fun value => (trimLine (splitValue newLine).1, trimLine value)

section EntryOf

variable {sections sections' : List INISection} {P : Str × Str → Prop}

theorem forall_add_entry (sections : List INISection) (e : Str × Str) :
    (∀ s ∈ (Item.entry e).add sections, ∀ d ∈ s.entries, P d) ↔
      (∀ s ∈ sections, ∀ d ∈ s.entries, P d) ∧ P e := by
  cases sections with
  | nil =>
      simp only [Item.add, List.forall_mem_cons]
      tauto
  | cons s others =>
      simp only [Item.add, List.forall_mem_cons, List.forall_mem_append]
      tauto

/-- A line leaves the entries that are there and adds its own. -/
theorem forall_parseLine {line : Str} (h : parseLine sections line = .ok sections') :
    (∀ s ∈ sections', ∀ d ∈ s.entries, P d) ↔
      (∀ s ∈ sections, ∀ d ∈ s.entries, P d) ∧ ∀ e ∈ entryOf line, P e := by
  unfold parseLine at h
  unfold entryOf
  simp only at h ⊢
  split at h
  · rename_i hcomment
    cases h
    simp [if_pos hcomment]
  · rename_i hcomment
    split at h
    · rename_i hsection
      rw [if_neg hcomment, if_pos hsection]
      split at h
      · cases h
        simp
      · cases h
        simp
    · rename_i hsection
      rw [if_neg hcomment, if_neg hsection]
      split at h
      · cases h
      · rename_i key value hsplit
        rw [insertValue_ok h, forall_add_entry, hsplit]
        simp

theorem forall_parseText {text : Str} (h : parseText sections text = .ok sections') :
    (∀ s ∈ sections', ∀ d ∈ s.entries, P d) ↔ (∀ s ∈ sections, ∀ d ∈ s.entries, P d) ∧
      ∀ line ∈ lines '\n' (MAX_NUM_OF_CHAR_PER_LINE - 1) text, ∀ e ∈ entryOf line, P e := by
  unfold parseText at h
  generalize lines '\n' (MAX_NUM_OF_CHAR_PER_LINE - 1) text = ls at h ⊢
  induction ls generalizing sections with
  | nil =>
      rw [← Except.ok.inj h]
      simp
  | cons line ls ih =>
      rw [List.foldlM_cons] at h
      obtain ⟨sections₁, hline, hrest⟩ := bind_ok h
      rw [ih hrest, forall_parseLine hline, List.forall_mem_cons, and_assoc]

end EntryOf

/-- Saving an accepted file and reading it gives the same file exactly when the entry of
each line, with the characters that `Save` adds, still fits into the line buffer. -/
theorem round_trip_iff (text : Str) (sections : List INISection)
    (h : parse text = .ok sections) : parse (save sections) = .ok sections ↔
      ∀ line ∈ lines '\n' (MAX_NUM_OF_CHAR_PER_LINE - 1) text, ∀ e ∈ entryOf line, Short e := by
  unfold parse at h
  cases hrun : parseText [] text with
  | error e =>
      rw [hrun] at h
      cases h
  | ok kept =>
      rw [hrun] at h
      have hsections : sections = kept.reverse := (Except.ok.inj h).symm
      have hfile := goodFile_nil.parseText hrun
      have hentries := forall_parseText (P := Short) hrun
      obtain ⟨hreadable, hfold⟩ := readable_file hfile
      have hitems := parseText_items hreadable
      rw [hfold, ← save_eq, fits_items, ← hsections] at hitems
      have hsame : (∀ s ∈ sections, ∀ e ∈ s.entries, Short e) ↔
          ∀ s ∈ kept, ∀ e ∈ s.entries, Short e := by simp [hsections]
      rw [hsame, hentries] at hitems
      simp only [List.not_mem_nil, false_implies, implies_true, true_and] at hitems
      rw [← hitems, parse, hsections]
      cases hagain : parseText [] (save kept.reverse) with
      | error e => simp [Except.map]
      | ok kept' => simp [Except.map]

theorem round_trip_one : parse ['a', '=', 'b'] = .ok [⟨[], [(['a'], ['b'])]⟩] ∧
    parse (save [⟨[], [(['a'], ['b'])]⟩]) = .ok [⟨[], [(['a'], ['b'])]⟩] :=
  ⟨by decide +kernel, (round_trip_iff ['a', '=', 'b'] _ (by decide +kernel)).mpr
    (by decide +kernel)⟩

/-- A key that leaves no room for the tabs and `=`. -/
def longKey : Str := List.replicate 4093 'k'

theorem trimmed_longKey : Trimmed isBlank longKey := by
  have hmem : ∀ c ∈ longKey, c = 'k' := fun c hc => List.eq_of_mem_replicate hc
  constructor
  · intro c hc
    rw [hmem c (List.mem_of_head? hc)]
    decide
  · intro c hc
    rw [hmem c (List.mem_of_getLast? hc)]
    decide

theorem notMem_longKey {c : Char} (hc : c ≠ 'k') : c ∉ longKey :=
  fun hmem => hc (List.eq_of_mem_replicate hmem)

/-- The saved file is not even accepted: the tabs fill the buffer and `=` is not in it. -/
theorem long_key_rejected : parse (longKey ++ ['=', '\n']) = .ok [⟨[], [(longKey, [])]⟩] ∧
    parse (save [⟨[], [(longKey, [])]⟩]) = .error .nullString := by
  have hlen : longKey.length = 4093 := List.length_replicate
  have htrim : trimLine longKey = longKey := by rw [trimLine_eq, trim_self trimmed_longKey]
  have hhead : longKey.head? = some 'k' := rfl
  have hline : parseLine [] (longKey ++ '=' :: []) =
      insertValue [] (trimLine longKey) (trimLine []) := by
    apply parseLine_pair (notMem_longKey (by decide))
    · rw [htrim, hhead]
      decide
    · rw [htrim, hhead]
      decide
  have hkey : parseLine [] (longKey ++ ['\t', '\t']) = .error .nullString := by
    have hne : longKey ≠ [] := by
      intro hnil
      rw [hnil] at hhead
      cases hhead
    rw [parseLine_append blank_tabs]
    unfold parseLine
    simp only [htrim, hhead, splitValue_none (notMem_longKey (by decide))]
    simp [hne]
  constructor
  · have hfirst : parseText [] (longKey ++ '=' :: [] ++ '\n' :: []) = _ :=
      parseText_line (by simp [notMem_longKey]) (by simp [hlen, MAX_NUM_OF_CHAR_PER_LINE])
    rw [hline, htrim] at hfirst
    have happend : longKey ++ ['=', '\n'] = longKey ++ '=' :: [] ++ '\n' :: [] := by simp
    rw [parse, happend, hfirst]
    rfl
  · have hsecond : parseText [] ((longKey ++ ['\t', '\t']) ++ ['=', ' ', '\n']) = _ :=
      parseText_full (by simp [notMem_longKey]) (by simp [hlen, MAX_NUM_OF_CHAR_PER_LINE])
    rw [hkey] at hsecond
    have happend : save [⟨[], [(longKey, [])]⟩] =
        (longKey ++ ['\t', '\t']) ++ ['=', ' ', '\n'] := by
      simp [save, printHeader, printEntry]
    rw [parse, happend, hsecond]
    rfl

end Jump.Comm.IniParse
