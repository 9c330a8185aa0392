import Jump.Core.Lines

/-! # Reading and writing INI files

The functions `Parse`, `Save` and `TrimLine` of `INIParse`. A text has no NUL
byte, so a C string is the list of its characters. The map of a section and the
order of its keys are one list of pairs here.
-/

namespace Jump.Comm.IniParse

open Jump.Core.Lines

abbrev Str : Type := List Char

def MAX_NUM_OF_CHAR_PER_LINE : Nat := 4 * 1024

/-- `INISection` -/
structure INISection where
  sectionName : Str
  entries : List (Str × Str)
deriving DecidableEq

/-- Why `Parse` does not accept a file: a key comes twice in its section, or a line has no
`=` and `TrimLine` gets the null pointer that `strstr` returned. -/
inductive Failure where
  | insertFailed
  | nullString
deriving DecidableEq

def isBlank (c : Char) : Bool :=
  c == ' ' || c == '\t' || c == '\r' || c == '\n'

/-- `TrimLine`: a line of one character is not trimmed on the left. -/
def trimLine (line : Str) : Str :=
  let right := line.rdropWhile isBlank
  if right.length = 1 then right else right.dropWhile isBlank

/-- The text before the first `=`, and the text behind it if there is one. -/
def splitValue : Str → Str × Option Str
  | [] => ([], none)
  | c :: line =>
    if c = '=' then ([], some line)
    else
      let r := splitValue line
      (c :: r.1, r.2)

/-- The insertion into `key_value` and `key_order` of the section `s`. -/
def INISection.insert (s : INISection) (key value : Str) : Except Failure INISection :=
  if key ∈ s.entries.map Prod.fst then .error .insertFailed
  else .ok { s with entries := s.entries ++ [(key, value)] }

/-- The sections are kept last first: `sections_[sections_.size()-1]` is the head. Without a
section, one without name is made. -/
def insertValue (sections : List INISection) (key value : Str) :
    Except Failure (List INISection) :=
  match sections with
  | [] => (INISection.insert ⟨[], []⟩ key value).map fun s => [s]
  | s :: others => (s.insert key value).map fun s => s :: others

/-- One round of the loop in `Parse`. -/
def parseLine (sections : List INISection) (line : Str) :
    Except Failure (List INISection) :=
  let newLine := trimLine line
  if newLine.head? = some '#' ∨ newLine.head? = some ';' ∨ newLine = [] then .ok sections
  else if newLine.head? = some '[' ∧ newLine.getLast? = some ']' then
    let sectionName := trimLine (newLine.dropLast.drop 1)
    if sectionName = [] then .ok sections else .ok (⟨sectionName, []⟩ :: sections)
  else
    match splitValue newLine with
    | (_, none) => .error .nullString
    | (key, some value) => insertValue sections (trimLine key) (trimLine value)

/-- The loop over the lines of a text. -/
def parseText (sections : List INISection) (text : Str) :
    Except Failure (List INISection) :=
  (lines '\n' (MAX_NUM_OF_CHAR_PER_LINE - 1) text).foldlM parseLine sections

/-- `INIParse::Parse` -/
def parse (text : Str) : Except Failure (List INISection) :=
  (parseText [] text).map List.reverse

def printEntry (e : Str × Str) : Str :=
  e.1 ++ ['\t', '\t', '=', ' '] ++ e.2 ++ ['\n']

def printHeader (sectionName : Str) : Str :=
  if sectionName = [] then [] else '[' :: sectionName ++ [']', '\n']

/-- What `INIParse::Save` writes. -/
def save (sections : List INISection) : Str :=
  sections.flatMap fun s => printHeader s.sectionName ++ s.entries.flatMap printEntry

end Jump.Comm.IniParse
