import Jump.Comm.IniParse.Lines
import Mathlib.Data.List.Nodup
import Mathlib.Logic.Function.Basic

/-! # Changing an INI file in memory

Here `key_value` and `key_order` of a section are two members, as in the source.
Names of sections are compared without case, and `Get`, `Set` and `Add` each take
the first section that suits them.
-/

namespace Jump.Comm.IniParse.Edit

structure INISection where
  sectionName : Str
  keyValue : Str → Option Str
  keyOrder : List Str

/-- An `INIParse` behind its constructor. -/
structure INIParse where
  initFlag : Bool
  sections : List INISection

def ERR_INI_FILE_NOT_INIT : Int := 101

def ERR_KEY_NOT_EXIST : Int := 103

/-- `strcasecmp(a, b) == 0` -/
def sameName (a b : Str) : Bool := a.map Char.toLower == b.map Char.toLower

/-- `new INISection` with its name -/
def INISection.new (sectionName : Str) : INISection where
  sectionName := sectionName
  keyValue := fun _ => none
  keyOrder := []

/-- `iter->second = value` -/
def INISection.assign (s : INISection) (key value : Str) : INISection :=
  { s with keyValue := Function.update s.keyValue key (some value) }

/-- The insertion of a new key into both members. -/
def INISection.push (s : INISection) (key value : Str) : INISection where
  sectionName := s.sectionName
  keyValue := Function.update s.keyValue key (some value)
  keyOrder := s.keyOrder ++ [key]

/-! ## `Parse` -/

/-- `std::map::insert`, which leaves a key that is there, and the new place in `key_order`. -/
def INISection.insert (s : INISection) (key value : Str) : Except Failure INISection :=
  if s.keyValue key ≠ none then .error .insertFailed else .ok (s.push key value)

/-- The sections are kept last first. Without a section, one without name is made. -/
def insertValue (sections : List INISection) (key value : Str) :
    Except Failure (List INISection) :=
  match sections with
  | [] => ((INISection.new []).insert key value).map fun s => [s]
  | s :: others => (s.insert key value).map fun s => s :: others

/-- One round of the loop in `Parse`. -/
def parseLine (sections : List INISection) (line : Str) :
    Except Failure (List INISection) :=
  let newLine := trimLine line
  if newLine.head? = some '#' ∨ newLine.head? = some ';' ∨ newLine = [] then .ok sections
  else if newLine.head? = some '[' ∧ newLine.getLast? = some ']' then
    let sectionName := trimLine (newLine.dropLast.drop 1)
    if sectionName = [] then .ok sections else .ok (.new sectionName :: sections)
  else
    match splitValue newLine with
    | (_, none) => .error .nullString
    | (key, some value) => insertValue sections (trimLine key) (trimLine value)

/-- `INIParse::Parse` -/
def parse (text : Str) : Except Failure (List INISection) :=
  ((Core.Lines.lines '\n' (MAX_NUM_OF_CHAR_PER_LINE - 1) text).foldlM parseLine []).map
    List.reverse

/-! ## `Get`, `Set` and `Add` -/

def getStringValue (ini : INIParse) (section_ key : Str) : Option Str :=
  if ¬ ini.initFlag then none
  else ini.sections.findSome? fun sec =>
    if sameName sec.sectionName section_ then sec.keyValue key else none

/-- The loop of `SetStringValue`: the first section of the name that has the key. -/
def setLoop (section_ key value : Str) : List INISection → Option (List INISection)
  | [] => none
  | sec :: rest =>
    if sameName sec.sectionName section_ ∧ sec.keyValue key ≠ none then
      some (sec.assign key value :: rest)
    else (setLoop section_ key value rest).map (sec :: ·)

/-- The loop of `AddStringValue`: the first section of the name. -/
def addLoop (section_ key value : Str) : List INISection → Option (List INISection)
  | [] => none
  | sec :: rest =>
    if sameName sec.sectionName section_ then
      if sec.keyValue key ≠ none then some (sec.assign key value :: rest)
      else some (sec.push key value :: rest)
    else (addLoop section_ key value rest).map (sec :: ·)

/-- The end of `SetStringValue` and `AddStringValue`. -/
def write (ini : INIParse)
    (loop : List INISection → Option (List INISection)) : Int × INIParse :=
  if ¬ ini.initFlag then (ERR_INI_FILE_NOT_INIT, ini)
  else
    match loop ini.sections with
    | none => (ERR_KEY_NOT_EXIST, ini)
    | some sections => (0, { ini with sections := sections })

def setStringValue (ini : INIParse) (section_ key value : Str) : Int × INIParse :=
  write ini (setLoop section_ key value)

def addStringValue (ini : INIParse) (section_ key value : Str) : Int × INIParse :=
  write ini (addLoop section_ key value)

/-- The loop of `AddSection` for a last name: behind the first section of the name that is not
the last one. -/
def insertBehind (lastName : Str) (new : INISection) :
    List INISection → Option (List INISection)
  | [] => none
  | [_] => none
  | sec :: next :: rest =>
    if sameName sec.sectionName lastName then some (sec :: new :: next :: rest)
    else (insertBehind lastName new (next :: rest)).map (sec :: ·)

def addSection (ini : INIParse) (name : Str) (lastName : Option Str) : Int × INIParse :=
  if ini.sections.any fun sec => sameName sec.sectionName name then (0, ini)
  else
    let inserted := lastName.bind fun last => insertBehind last (.new name) ini.sections
    (0, { ini with sections := inserted.getD (ini.sections ++ [.new name]) })

inductive Op where
  | addSection (name : Str) (lastName : Option Str)
  | addStringValue (section_ key value : Str)
  | setStringValue (section_ key value : Str)

def Op.run (ini : INIParse) : Op → Int × INIParse
  | .addSection name lastName => Edit.addSection ini name lastName
  | .addStringValue section_ key value => Edit.addStringValue ini section_ key value
  | .setStringValue section_ key value => Edit.setStringValue ini section_ key value

/-- What a call writes: the section, the key and the value. -/
def Op.written : Op → Option (Str × Str × Str)
  | .addSection _ _ => none
  | .addStringValue section_ key value => some (section_, key, value)
  | .setStringValue section_ key value => some (section_, key, value)

/-! ## The two members of a section -/

/-- `key_order` lists the keys of `key_value`, each once. -/
structure INISection.Ordered (s : INISection) : Prop where
  nodup : s.keyOrder.Nodup
  mem : ∀ key, key ∈ s.keyOrder ↔ s.keyValue key ≠ none

namespace INISection

variable {s s' : INISection} {key value : Str}

theorem ordered_new (sectionName : Str) : (new sectionName).Ordered :=
  ⟨List.nodup_nil, fun _ => ⟨fun h => absurd h List.not_mem_nil, fun h => absurd rfl h⟩⟩

theorem Ordered.assign (h : s.Ordered) (hin : s.keyValue key ≠ none) :
    (s.assign key value).Ordered where
  nodup := h.nodup
  mem k := by
    change k ∈ s.keyOrder ↔ Function.update s.keyValue key (some value) k ≠ none
    by_cases hk : k = key
    · rw [hk, Function.update_self, h.mem]
      simpa using hin
    · rw [Function.update_of_ne hk, h.mem]

theorem Ordered.push (h : s.Ordered) (hnew : s.keyValue key = none) :
    (s.push key value).Ordered where
  nodup := by
    have hmem : key ∉ s.keyOrder := fun hin => (h.mem key).mp hin hnew
    rw [INISection.push, ← List.concat_eq_append]
    exact h.nodup.concat hmem
  mem k := by
    change k ∈ s.keyOrder ++ [key] ↔ Function.update s.keyValue key (some value) k ≠ none
    rw [List.mem_append, List.mem_singleton]
    by_cases hk : k = key
    · rw [hk, Function.update_self]
      simp
    · rw [Function.update_of_ne hk, h.mem]
      simp [hk]

theorem Ordered.insert (h : s.Ordered) (hins : s.insert key value = .ok s') : s'.Ordered := by
  rw [INISection.insert] at hins
  split at hins
  next => cases hins
  next hnew =>
    cases hins
    exact h.push (not_not.mp hnew)

end INISection

/-- Every section is in order. -/
def AllOrdered (sections : List INISection) : Prop := ∀ s ∈ sections, s.Ordered

section Ordered

variable {sections sections' : List INISection} {section_ key value : Str}

theorem AllOrdered.insertValue (h : AllOrdered sections)
    (hins : insertValue sections key value = .ok sections') : AllOrdered sections' := by
  cases sections with
  | nil =>
      rw [Edit.insertValue] at hins
      cases hone : (INISection.new []).insert key value with
      | error e =>
          rw [hone] at hins
          cases hins
      | ok s =>
          rw [hone] at hins
          cases hins
          intro t ht
          rw [List.mem_singleton.mp ht]
          exact (INISection.ordered_new []).insert hone
  | cons s others =>
      rw [Edit.insertValue] at hins
      cases hone : s.insert key value with
      | error e =>
          rw [hone] at hins
          cases hins
      | ok s' =>
          rw [hone] at hins
          cases hins
          intro t ht
          rcases List.mem_cons.mp ht with rfl | hrest
          · exact (h s List.mem_cons_self).insert hone
          · exact h t (List.mem_cons_of_mem s hrest)

theorem AllOrdered.parseLine (h : AllOrdered sections) {line : Str}
    (hline : parseLine sections line = .ok sections') : AllOrdered sections' := by
  unfold Edit.parseLine at hline
  simp only at hline
  split at hline
  next =>
    cases hline
    exact h
  next =>
    split at hline
    next =>
      split at hline
      next =>
        cases hline
        exact h
      next =>
        cases hline
        intro t ht
        rcases List.mem_cons.mp ht with rfl | hrest
        · exact INISection.ordered_new _
        · exact h t hrest
    next =>
      split at hline
      next => cases hline
      next => exact h.insertValue hline

theorem AllOrdered.foldlM (h : AllOrdered sections) {ls : List Str}
    (hfold : ls.foldlM Edit.parseLine sections = .ok sections') : AllOrdered sections' := by
  induction ls generalizing sections with
  | nil =>
      cases hfold
      exact h
  | cons line ls ih =>
      rw [List.foldlM_cons] at hfold
      cases hline : Edit.parseLine sections line with
      | error e =>
          rw [hline] at hfold
          cases hfold
      | ok next =>
          rw [hline] at hfold
          exact ih (h.parseLine hline) hfold

theorem allOrdered_parse {text : Str} (h : parse text = .ok sections) : AllOrdered sections := by
  rw [parse] at h
  cases hfold : (Core.Lines.lines '\n' (MAX_NUM_OF_CHAR_PER_LINE - 1) text).foldlM
      Edit.parseLine [] with
  | error e =>
      rw [hfold] at h
      cases h
  | ok kept =>
      rw [hfold] at h
      cases h
      intro s hs
      have hnil : AllOrdered [] := fun s hs => absurd hs List.not_mem_nil
      exact hnil.foldlM hfold s (List.mem_reverse.mp hs)

end Ordered

/-! ## The one list of `IniParse.INISection` -/

/-- The two members that a list of entries stands for. -/
def split (s : IniParse.INISection) : INISection where
  sectionName := s.sectionName
  keyValue := fun key => (s.entries.find? fun e => e.1 = key).map Prod.snd
  keyOrder := s.entries.map Prod.fst

section Split

variable {s : IniParse.INISection} {sections : List IniParse.INISection} {key value : Str}

theorem split_keyValue : (split s).keyValue key ≠ none ↔ key ∈ s.entries.map Prod.fst := by
  change (s.entries.find? fun e => e.1 = key).map Prod.snd ≠ none ↔ _
  simp [List.find?_eq_none]

theorem split_push (h : key ∉ s.entries.map Prod.fst) :
    (split s).push key value = split { s with entries := s.entries ++ [(key, value)] } := by
  have hnone : s.entries.find? (fun e => e.1 = key) = none := by
    rw [List.find?_eq_none]
    intro e he
    simp only [decide_eq_true_eq]
    exact fun hk => h (hk ▸ List.mem_map_of_mem he)
  simp only [INISection.push, split, List.map_append, List.map_cons, List.map_nil]
  congr 1
  funext k
  rw [List.find?_append]
  by_cases hk : k = key
  · rw [hk, Function.update_self, hnone]
    simp
  · rw [Function.update_of_ne hk]
    simp [Ne.symm hk]

theorem split_insert :
    (split s).insert key value = (s.insert key value).map split := by
  rw [INISection.insert, IniParse.INISection.insert]
  by_cases h : key ∈ s.entries.map Prod.fst
  · rw [if_pos (split_keyValue.mpr h), if_pos h]
    rfl
  · rw [if_neg (fun hne => h (split_keyValue.mp hne)), if_neg h, split_push h]
    rfl

theorem split_insertValue : insertValue (sections.map split) key value =
    (IniParse.insertValue sections key value).map (List.map split) := by
  cases sections with
  | nil =>
      have hone : (INISection.new []).insert key value = _ := split_insert (s := ⟨[], []⟩)
      rw [List.map_nil, insertValue, IniParse.insertValue, hone]
      cases IniParse.INISection.insert ⟨[], []⟩ key value with
      | error e => rfl
      | ok s => rfl
  | cons s others =>
      rw [List.map_cons, insertValue, IniParse.insertValue, split_insert]
      cases s.insert key value with
      | error e => rfl
      | ok s => rfl

theorem split_parseLine (line : Str) : parseLine (sections.map split) line =
    (IniParse.parseLine sections line).map (List.map split) := by
  rw [parseLine, IniParse.parseLine]
  simp only
  split
  next => rfl
  next =>
    split
    next =>
      split
      next => rfl
      next => rfl
    next =>
      rcases splitValue_spec (trimLine line) with ⟨hsplit, -⟩ | ⟨a, b, hsplit, -⟩
      · rw [hsplit]
        rfl
      · rw [hsplit]
        exact split_insertValue

/-- `Parse` makes the sections that the entries of `IniParse.parse` stand for. -/
theorem parse_split (text : Str) : parse text = (IniParse.parse text).map (List.map split) := by
  have hfold : ∀ (ls : List Str) (sections : List IniParse.INISection),
      ls.foldlM parseLine (sections.map split) =
        (ls.foldlM IniParse.parseLine sections).map (List.map split) := by
    intro ls
    induction ls with
    | nil => exact fun _ => rfl
    | cons line ls ih =>
        intro sections
        rw [List.foldlM_cons, List.foldlM_cons, split_parseLine]
        cases IniParse.parseLine sections line with
        | error e => rfl
        | ok next => exact ih next
  rw [parse, IniParse.parse, parseText, ← List.map_nil (f := split), hfold]
  cases (Core.Lines.lines '\n' (MAX_NUM_OF_CHAR_PER_LINE - 1) text).foldlM
      IniParse.parseLine [] with
  | error e => rfl
  | ok kept =>
      change Except.ok (kept.map split).reverse = Except.ok (kept.reverse.map split)
      rw [List.map_reverse]

end Split

end Jump.Comm.IniParse.Edit
