import Jump.Comm.IniParse.Edit

/-! # `Get` after `Set` and `Add`

The three loops stop at different sections, but what `Set` or `Add` writes is in
front of everything else that `Get` could find.
-/

namespace Jump.Comm.IniParse.Edit

section Names

variable {a b c : Str}

theorem sameName_iff : sameName a b ↔ a.map Char.toLower = b.map Char.toLower := by
  rw [sameName, beq_iff_eq]

theorem sameName_comm : sameName a b ↔ sameName b a := by
  rw [sameName_iff, sameName_iff, eq_comm]

theorem sameName_trans (h : sameName a b) (h' : sameName b c) : sameName a c := by
  rw [sameName_iff] at h h' ⊢
  exact h.trans h'

end Names

section Loops

variable {sec sec' : INISection} {rest rest' sections sections' : List INISection}
  {section_ key value : Str}

/-- What one section has under a name and a key. -/
def valueIn (section_ key : Str) (sec : INISection) : Option Str :=
  if sameName sec.sectionName section_ then sec.keyValue key else none

/-- The loop of `GetStringValue` -/
def getLoop (section_ key : Str) (sections : List INISection) : Option Str :=
  sections.findSome? (valueIn section_ key)

theorem getStringValue_eq (ini : INIParse) (section_ key : Str) :
    getStringValue ini section_ key =
      if ini.initFlag then getLoop section_ key ini.sections else none := by
  rw [getStringValue]
  cases ini.initFlag with
  | false => rfl
  | true => rfl

theorem getLoop_cons : getLoop section_ key (sec :: rest) =
    (valueIn section_ key sec).or (getLoop section_ key rest) := by
  rw [getLoop, List.findSome?_cons]
  cases valueIn section_ key sec with
  | none => rfl
  | some v => rfl

theorem getLoop_append : getLoop section_ key (rest ++ rest') =
    (getLoop section_ key rest).or (getLoop section_ key rest') := by
  rw [getLoop, List.findSome?_append]
  rfl

/-- `Get` sees the value under the names of the section with the key, and nothing else new. -/
def Replaces (section_ key value : Str) (sections sections' : List INISection) : Prop :=
  ∀ name k, getLoop name k sections' =
    if sameName name section_ ∧ k = key then some value else getLoop name k sections

/-- The loop skips a section that has nothing for `Get`. -/
theorem Replaces.cons (h : Replaces section_ key value rest rest')
    (skip : sameName sec.sectionName section_ → sec.keyValue key = none) :
    Replaces section_ key value (sec :: rest) (sec :: rest') := by
  intro name k
  rw [getLoop_cons, getLoop_cons, h name k]
  by_cases hhit : sameName name section_ ∧ k = key
  · have hnone : valueIn name k sec = none := by
      rw [valueIn]
      split
      next hname =>
        rw [hhit.2]
        exact skip (sameName_trans hname hhit.1)
      next => rfl
    rw [if_pos hhit, if_pos hhit, hnone, Option.none_or]
  · rw [if_neg hhit, if_neg hhit]

/-- The loop stops at a section of the name and writes there. -/
theorem replaces_head (hname : sameName sec.sectionName section_)
    (hsame : sec'.sectionName = sec.sectionName)
    (hvalue : sec'.keyValue = Function.update sec.keyValue key (some value)) :
    Replaces section_ key value (sec :: rest) (sec' :: rest) := by
  intro name k
  rw [getLoop_cons, getLoop_cons, valueIn, valueIn, hsame, hvalue]
  by_cases hk : k = key
  · subst hk
    by_cases hn : sameName name section_
    · have hsec : sameName sec.sectionName name := sameName_trans hname (sameName_comm.mp hn)
      have hhit : sameName name section_ ∧ k = k := ⟨hn, rfl⟩
      rw [if_pos hsec, Function.update_self, Option.some_or, if_pos hhit]
    · have hsec : ¬ sameName sec.sectionName name := fun h =>
        hn (sameName_trans (sameName_comm.mp h) hname)
      have hmiss : ¬ (sameName name section_ ∧ k = k) := fun h => hn h.1
      rw [if_neg hsec, if_neg hsec, if_neg hmiss]
  · have hmiss : ¬ (sameName name section_ ∧ k = key) := fun h => hk h.2
    rw [if_neg hmiss, Function.update_of_ne hk]

theorem setLoop_replaces (h : setLoop section_ key value sections = some sections') :
    Replaces section_ key value sections sections' ∧
      (AllOrdered sections → AllOrdered sections') := by
  induction sections generalizing sections' with
  | nil => cases h
  | cons sec rest ih =>
      rw [setLoop] at h
      split at h
      next hhit =>
        cases h
        refine ⟨replaces_head hhit.1 rfl rfl, fun hord t ht => ?_⟩
        rcases List.mem_cons.mp ht with rfl | hrest
        · exact (hord sec List.mem_cons_self).assign hhit.2
        · exact hord t (List.mem_cons_of_mem sec hrest)
      next hmiss =>
        cases hrest : setLoop section_ key value rest with
        | none =>
            rw [hrest] at h
            cases h
        | some rest' =>
            rw [hrest] at h
            cases h
            obtain ⟨hrep, hord'⟩ := ih hrest
            refine ⟨hrep.cons fun hname => ?_, fun hord t ht => ?_⟩
            · by_contra hkey
              exact hmiss ⟨hname, hkey⟩
            · rcases List.mem_cons.mp ht with rfl | hmem
              · exact hord t List.mem_cons_self
              · exact hord' (fun s hs => hord s (List.mem_cons_of_mem sec hs)) t hmem

theorem addLoop_replaces (h : addLoop section_ key value sections = some sections') :
    Replaces section_ key value sections sections' ∧
      (AllOrdered sections → AllOrdered sections') := by
  induction sections generalizing sections' with
  | nil => cases h
  | cons sec rest ih =>
      rw [addLoop] at h
      split at h
      next hname =>
        have hone : ∀ sec' : INISection, (sec.Ordered → sec'.Ordered) → AllOrdered (sec :: rest) →
            AllOrdered (sec' :: rest) := by
          intro sec' hstep hord t ht
          rcases List.mem_cons.mp ht with rfl | hrest
          · exact hstep (hord sec List.mem_cons_self)
          · exact hord t (List.mem_cons_of_mem sec hrest)
        split at h
        next hkey =>
          cases h
          exact ⟨replaces_head hname rfl rfl, hone _ fun hs => hs.assign hkey⟩
        next hkey =>
          cases h
          exact ⟨replaces_head hname rfl rfl, hone _ fun hs => hs.push (not_not.mp hkey)⟩
      next hname =>
        cases hrest : addLoop section_ key value rest with
        | none =>
            rw [hrest] at h
            cases h
        | some rest' =>
            rw [hrest] at h
            cases h
            obtain ⟨hrep, hord'⟩ := ih hrest
            refine ⟨hrep.cons fun h => absurd h hname, fun hord t ht => ?_⟩
            rcases List.mem_cons.mp ht with rfl | hmem
            · exact hord t List.mem_cons_self
            · exact hord' (fun s hs => hord s (List.mem_cons_of_mem sec hs)) t hmem

end Loops

/-! ## `AddSection` -/

section AddSection

variable {ini : INIParse} {name : Str} {lastName : Option Str} {new : INISection}
  {sections sections' : List INISection}

theorem insertBehind_split {last : Str} (h : insertBehind last new sections = some sections') :
    ∃ front back, sections = front ++ back ∧ sections' = front ++ new :: back := by
  induction sections generalizing sections' with
  | nil => cases h
  | cons sec rest ih =>
      cases rest with
      | nil => cases h
      | cons next rest =>
          rw [insertBehind] at h
          split at h
          next =>
            cases h
            exact ⟨[sec], next :: rest, rfl, rfl⟩
          next =>
            cases hrest : insertBehind last new (next :: rest) with
            | none =>
                rw [hrest] at h
                cases h
            | some rest' =>
                rw [hrest] at h
                cases h
                obtain ⟨front, back, hsplit, hnew⟩ := ih hrest
                exact ⟨sec :: front, back, by rw [hsplit]; rfl, by rw [hnew]; rfl⟩

/-- `AddSection` changes nothing, or it puts an empty section somewhere. -/
theorem addSection_split (ini : INIParse) (name : Str) (lastName : Option Str) :
    (addSection ini name lastName).2 = ini ∨
    ∃ front back, ini.sections = front ++ back ∧ (addSection ini name lastName).2 =
      { ini with sections := front ++ .new name :: back } := by
  rw [addSection]
  split
  next => exact Or.inl rfl
  next =>
    refine Or.inr ?_
    cases hins : lastName.bind fun last => insertBehind last (.new name) ini.sections with
    | none =>
        refine ⟨ini.sections, [], (List.append_nil _).symm, ?_⟩
        simp only [Option.getD_none]
    | some sections' =>
        obtain ⟨last, -, hlast⟩ := Option.bind_eq_some_iff.mp hins
        obtain ⟨front, back, hsplit, rfl⟩ := insertBehind_split hlast
        refine ⟨front, back, hsplit, ?_⟩
        simp only [Option.getD_some]

theorem getLoop_new {front back : List INISection} (section_ key : Str) :
    getLoop section_ key (front ++ .new name :: back) = getLoop section_ key (front ++ back) := by
  have hnone : valueIn section_ key (.new name) = none := by
    rw [valueIn]
    split
    next => rfl
    next => rfl
  rw [getLoop_append, getLoop_append, getLoop_cons, hnone, Option.none_or]

end AddSection

/-! ## Whole runs -/

/-- A call of `Set` or `Add` fails without effect, or it replaces what `Get` sees. -/
theorem write_cases (ini : INIParse) {section_ key value : Str}
    {loop : List INISection → Option (List INISection)}
    (hloop : ∀ sections sections', loop sections = some sections' →
      Replaces section_ key value sections sections' ∧
        (AllOrdered sections → AllOrdered sections')) :
    ((write ini loop).1 ≠ 0 ∧ (write ini loop).2 = ini) ∨
    ∃ sections', ini.initFlag ∧ write ini loop = (0, { ini with sections := sections' }) ∧
      Replaces section_ key value ini.sections sections' ∧
        (AllOrdered ini.sections → AllOrdered sections') := by
  rw [write]
  cases hflag : ini.initFlag with
  | false =>
      refine Or.inl ⟨?_, rfl⟩
      change ERR_INI_FILE_NOT_INIT ≠ 0
      decide
  | true =>
      rw [if_neg (by simp)]
      cases hrun : loop ini.sections with
      | none =>
          refine Or.inl ⟨?_, rfl⟩
          change ERR_KEY_NOT_EXIST ≠ 0
          decide
      | some sections' => exact Or.inr ⟨sections', rfl, rfl, hloop _ _ hrun⟩

/-- What one call does: it keeps the sections in order, `Get` finds what a successful call
wrote, and everything else it found before. -/
structure Op.Sound (ini : INIParse) (op : Op) : Prop where
  ordered : AllOrdered ini.sections → AllOrdered (op.run ini).2.sections
  written : ∀ section_ key value, op.written = some (section_, key, value) → (op.run ini).1 = 0 →
    getStringValue (op.run ini).2 section_ key = some value
  frame : ∀ name k, (∀ section_ key value, op.written = some (section_, key, value) →
      k ≠ key ∨ ¬ sameName name section_) →
    getStringValue (op.run ini).2 name k = getStringValue ini name k

theorem sound_write {ini : INIParse} {section_ key value : Str} {op : Op}
    {loop : List INISection → Option (List INISection)}
    (hloop : ∀ sections sections', loop sections = some sections' →
      Replaces section_ key value sections sections' ∧
        (AllOrdered sections → AllOrdered sections'))
    (hrun : op.run ini = write ini loop) (hwrites : op.written = some (section_, key, value)) :
    op.Sound ini := by
  rcases write_cases ini hloop with ⟨hfail, hkeep⟩ | ⟨sections', hflag, hok, hrep, hord⟩
  · refine ⟨fun h => ?_, fun _ _ _ _ h => ?_, fun _ _ _ => ?_⟩
    · rw [hrun, hkeep]
      exact h
    · rw [hrun] at h
      exact absurd h hfail
    · rw [hrun, hkeep]
  · rw [hok] at hrun
    refine ⟨fun h => ?_, fun s k v hw _ => ?_, fun name k hother => ?_⟩
    · rw [hrun]
      exact hord h
    · rw [hwrites] at hw
      cases hw
      rw [hrun, getStringValue_eq, if_pos hflag, hrep,
        if_pos ⟨sameName_iff.mpr rfl, rfl⟩]
    · have hmiss : ¬ (sameName name section_ ∧ k = key) := fun h =>
        (hother section_ key value hwrites).elim (fun hk => hk h.2) fun hn => hn h.1
      rw [hrun, getStringValue_eq, getStringValue_eq, hrep, if_neg hmiss]

theorem Op.sound (ini : INIParse) (op : Op) : op.Sound ini := by
  cases op with
  | addSection name lastName =>
      rcases addSection_split ini name lastName with hsame | ⟨front, back, hsplit, hnew⟩
      · refine ⟨fun h => ?_, fun _ _ _ h => ?_, fun _ _ _ => ?_⟩
        · rwa [Op.run, hsame]
        · cases h
        · rw [Op.run, hsame]
      · refine ⟨fun h => ?_, fun _ _ _ h => ?_, fun s k _ => ?_⟩
        · rw [Op.run, hnew]
          intro t ht
          rw [hsplit] at h
          rcases List.mem_append.mp ht with hfront | hback
          · exact h t (List.mem_append_left _ hfront)
          · rcases List.mem_cons.mp hback with rfl | hback
            · exact INISection.ordered_new name
            · exact h t (List.mem_append_right _ hback)
        · cases h
        · rw [Op.run, hnew, getStringValue_eq, getStringValue_eq, getLoop_new, hsplit]
  | addStringValue section_ key value =>
      exact sound_write (fun _ _ => addLoop_replaces) rfl rfl
  | setStringValue section_ key value =>
      exact sound_write (fun _ _ => setLoop_replaces) rfl rfl

/-- The object after some calls. -/
def runAll (ini : INIParse) (ops : List Op) : INIParse :=
  ops.foldl (fun ini (op : Op) => (op.run ini).2) ini

theorem runAll_ordered {ini : INIParse} (h : AllOrdered ini.sections) (ops : List Op) :
    AllOrdered (runAll ini ops).sections := by
  induction ops generalizing ini with
  | nil => exact h
  | cons op ops ih => exact ih ((op.sound ini).ordered h)

/-- An accepted file after any calls: every section is in order, and the next call is sound. -/
theorem edits_sound {text : Str} {sections : List INISection} (h : parse text = .ok sections)
    (ops : List Op) : AllOrdered (runAll ⟨true, sections⟩ ops).sections ∧
      ∀ op : Op, op.Sound (runAll ⟨true, sections⟩ ops) :=
  ⟨runAll_ordered (allOrdered_parse h) ops, fun op => op.sound _⟩

/-- Two sections of one name, and a key that only the second one has. -/
theorem edits_sound_twice : ∃ sections,
    parse ['[', 't', ']', '\n', '[', 'T', ']', '\n', 'k', '=', '1'] = .ok sections ∧
      AllOrdered (runAll ⟨true, sections⟩ [.setStringValue ['t'] ['k'] ['2'],
        .addStringValue ['T'] ['k'] ['3']]).sections := by
  obtain ⟨sections, h⟩ : ∃ sections, parse ['[', 't', ']', '\n', '[', 'T', ']', '\n', 'k', '=',
    '1'] = .ok sections := ⟨_, rfl⟩
  exact ⟨sections, h, (edits_sound h _).1⟩

end Jump.Comm.IniParse.Edit
