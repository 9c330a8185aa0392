import Jump.Comm.Table.Code
import Mathlib.Data.List.TakeWhile

/-! # Cells, columns and data rows

`sepstr` cuts at the separators, with the empty pieces or without them, and a field has
the column of its last name in what `sepstr` keeps of the header row.
`loadRows` goes over the rows in front of the first short one, and it has stored their
records by then.

The names of the header row are counted without the blank cells and the cells of a data
row with them, so a blank header cell moves every field behind it one column to the left.

A reload puts the rows straight into `_conf`, which is neither cleared nor put back.
-/

namespace Jump.Comm.Table

open Jump.Core.LastEntry

section Rows

section Text

variable {sSep sStr : Str} {withEmpty : Bool} {fuel i : Nat}

/-- `sepstr` keeps this piece. -/
def kept (withEmpty : Bool) (s : Str) : Bool := withEmpty || !s.isEmpty

end Text

namespace Opened

variable {t : Opened} {f : Str} {pre post : List Str}

end Opened

/-! ## The loop over the data rows -/

variable {κ ν : Type} {c : Classes κ ν} {t : Opened} {line : Str} {lines : List Str}

/-- The cells of a data row, blank ones too -/
def units (line : Str) : List Str := sepstr line [','] true

/-- The rows in front of the first one that fails the length check -/
def Opened.passing (t : Opened) : List Str := t.lines.takeWhile fun line => t.Long line

/-- Without a short row these are all rows. -/
theorem passing_eq_lines (h : ∀ line ∈ t.lines, t.Long line) : t.passing = t.lines := by
  rw [Opened.passing, List.takeWhile_eq_self_iff]
  intro line hline
  exact decide_eq_true (h line hline)

/-- What a row stores, the record under its key -/
def rowEntry (c : Classes κ ν) (t : Opened) (line : Str) : Option (κ × Record ν) :=
  (readRecord c t (units line)).map fun record => (c.getKey record, record)

/-- The entries of some rows -/
def entries (c : Classes κ ν) (t : Opened) (lines : List Str) : List (κ × Record ν) :=
  lines.filterMap (rowEntry c t)

theorem entries_cons_of_some {record : Record ν} (h : readRecord c t (units line) = some record) :
    entries c t (line :: lines) = (c.getKey record, record) :: entries c t lines := by
  rw [entries, List.filterMap_cons_some]
  · rfl
  · rw [rowEntry, h]
    rfl

variable [DecidableEq κ] {conf : Map κ (Record ν)}

theorem loadRows_cons (h : t.Long line) : loadRows c t (line :: lines) conf =
    (readRecord c t (units line)).bind fun record =>
      loadRows c t lines (conf.insert (c.getKey record) record) := by
  rw [loadRows, if_pos h]
  rfl

/-- The process is still there after the loop just where every row that it gets to is read. -/
theorem loadRows_eq_some_iff {b : Bool} {conf' : Map κ (Record ν)} :
    loadRows c t lines conf = some (b, conf') ↔
      (∀ line ∈ lines.takeWhile fun line => t.Long line, readRecord c t (units line) ≠ none) ∧
      b = (lines.all fun line => t.Long line) ∧
      conf' = storeAll (entries c t (lines.takeWhile fun line => t.Long line)) conf := by
  induction lines generalizing conf with
  | nil =>
      simp only [loadRows, Option.some.injEq, Prod.mk.injEq, List.takeWhile_nil, List.not_mem_nil,
        false_implies, implies_true, true_and, List.all_nil]
      exact and_congr eq_comm eq_comm
  | cons line lines ih =>
      by_cases hlong : t.Long line
      · have htake : (line :: lines).takeWhile (fun line => t.Long line) =
            line :: lines.takeWhile fun line => t.Long line := by
          simp [hlong]
        have hall : ((line :: lines).all fun line => t.Long line) =
            lines.all fun line => t.Long line := by
          simp [hlong]
        rw [loadRows_cons hlong, htake, hall, List.forall_mem_cons]
        cases hread : readRecord c t (units line) with
        | none => simp
        | some record =>
            rw [Option.bind_some, ih, entries_cons_of_some hread]
            simp only [ne_eq, reduceCtorEq, not_false_eq_true, true_and]
            rfl
      · have htake : (line :: lines).takeWhile (fun line => t.Long line) = [] := by
          simp [hlong]
        have hall : ((line :: lines).all fun line => t.Long line) = false := by
          simp [hlong]
        rw [loadRows, if_neg hlong, htake, hall]
        simp only [Option.some.injEq, Prod.mk.injEq, List.not_mem_nil, false_implies,
          implies_true, true_and]
        exact and_congr eq_comm eq_comm

end Rows

/-! ## The column of a field -/

section Columns

variable {κ ν : Type} {c : Classes κ ν} {t : Opened} {line f : Str} {csv_file : Option Str}

section Row

end Row

section File

end File

end Columns

/-! ## What a reload leaves in the table -/

section Reload

variable {κ ν : Type} [DecidableEq κ] {c : Classes κ ν} {csv_file : Option Str}
  {conf conf' : Map κ (Record ν)} {b : Bool}

/-- The entries of all data rows of a file -/
def fileEntries (c : Classes κ ν) (csv_file : Option Str) : List (κ × Record ν) :=
  match openTable c csv_file with
  | none => []
  | some t => entries c t t.lines

/-- After `true` the table is the file, after `false` it is as before. -/
def Reloaded (c : Classes κ ν) (csv_file : Option Str) (conf conf' : Map κ (Record ν))
    (b : Bool) : Prop :=
  if b then ∀ k, find conf' k = lastEntry k (fileEntries c csv_file)
  else ∀ k, find conf' k = find conf k

/-- Where every row is long enough, every key of the table has a row in the file; and where
one is not, the rows in front of it hold nothing that the table does not have. -/
def Covered (c : Classes κ ν) (csv_file : Option Str) (conf : Map κ (Record ν)) : Prop :=
  match openTable c csv_file with
  | none => True
  | some t =>
      if ∀ line ∈ t.lines, t.Long line then
        ∀ k, find conf k ≠ none → ∃ e ∈ entries c t t.lines, e.1 = k
      else ∀ k record, lastEntry k (entries c t t.passing) = some record → find conf k = some record

section Overlay

variable {k : κ} {ρ : Type*} {new old : Option ρ}

/-- Nothing old comes through where it is covered. -/
theorem or_eq_left_iff : new.or old = new ↔ (old ≠ none → new ≠ none) := by
  cases new with
  | none => simp [Option.none_or]
  | some r => simp

/-- Nothing new comes in where it is there already. -/
theorem or_eq_right_iff : new.or old = old ↔ ∀ r, new = some r → old = some r := by
  cases new with
  | none => simp
  | some r => simp [eq_comm]

end Overlay

theorem reloaded_iff (h : loadCSV2Map c csv_file conf = some (b, conf')) :
    Reloaded c csv_file conf conf' b ↔ Covered c csv_file conf := by
  unfold Reloaded Covered fileEntries
  unfold loadCSV2Map at h
  cases hopen : openTable c csv_file with
  | none =>
      rw [hopen] at h
      obtain ⟨rfl, rfl⟩ := Prod.mk.inj (Option.some.inj h)
      simp
  | some t =>
      rw [hopen] at h
      obtain ⟨-, hb, hconf⟩ := loadRows_eq_some_iff.mp h
      have hfind : ∀ k, find conf' k =
          (lastEntry k (entries c t t.passing)).or (find conf k) := by
        intro k
        rw [find, hconf, lookup_storeAll]
        rfl
      by_cases hlong : ∀ line ∈ t.lines, t.Long line
      · have htrue : b = true := by
          rw [hb, List.all_eq_true]
          intro line hline
          exact decide_eq_true (hlong line hline)
        simp only [htrue, if_true, if_pos hlong, hfind, passing_eq_lines hlong, or_eq_left_iff]
        refine forall_congr' fun k => imp_congr_right fun _ => ?_
        rw [Ne, lastEntry_eq_none_iff]
        simp only [not_forall, not_not, exists_prop]
      · have hfalse : b = false := by
          rw [hb, Bool.eq_false_iff]
          intro hall
          refine hlong fun line hline => ?_
          exact of_decide_eq_true (List.all_eq_true.mp hall line hline)
        simp only [hfalse, Bool.false_eq_true, if_false, if_neg hlong, hfind, or_eq_right_iff]

theorem covered_of_long {t : Opened} (hopen : openTable c csv_file = some t)
    (hlong : ∀ line ∈ t.lines, t.Long line)
    (h : ∀ k, find conf k ≠ none → ∃ e ∈ entries c t t.lines, e.1 = k) :
    Covered c csv_file conf := by
  simp only [Covered, hopen, if_pos hlong]
  exact h

/-- One text field `i`, which is the key -/
def textClasses : Classes Str Str where
  createMessage _ := some ⟨[['i']], true⟩
  setValue _ unit := unit
  getKey record := ((record.head?).map fun field => field.2).getD []

/-- A table with the rows `8` and `9`. -/
def csvRows : Option Str :=
  some ['m', '\n', 'd', '\n', 'i', '\n', '8', '\n', '9', '\n']

/-- The second column of the second row is missing. -/
def csvShort : Option Str :=
  some ['m', '\n', 'd', '\n', 'i', ',', 'j', '\n', '8', ',', '\n', '9', '\n']

def keep7 : Map Str (Record Str) := storeAll [(['7'], [(['i'], ['7'])])] ∅

theorem reloaded_first : Reloaded textClasses csvRows ∅
    (storeAll [(['8'], [(['i'], ['8'])]), (['9'], [(['i'], ['9'])])] ∅) true := by
  have hload : loadCSV2Map textClasses csvRows ∅ =
      some (true, storeAll [(['8'], [(['i'], ['8'])]), (['9'], [(['i'], ['9'])])] ∅) := rfl
  have hopen : openTable textClasses csvRows =
      some (Opened.mk ⟨[['i']], true⟩ ['i'] [['8'], ['9']]) := rfl
  refine (reloaded_iff hload).mpr (covered_of_long hopen (by decide) ?_)
  intro k hk
  exact (hk rfl).elim

/-- A reload keeps the row that the file no longer has, and a failed one keeps the rows in
front of the short one. -/
theorem reloaded_stale :
    (∃ conf', loadCSV2Map textClasses csvRows keep7 = some (true, conf') ∧
      ¬ Reloaded textClasses csvRows keep7 conf' true) ∧
    ∃ conf', loadCSV2Map textClasses csvShort keep7 = some (false, conf') ∧
      ¬ Reloaded textClasses csvShort keep7 conf' false := by
  refine ⟨⟨_, rfl, fun h => ?_⟩, ⟨_, rfl, fun h => ?_⟩⟩
  · have hstale := h ['7']
    revert hstale
    decide
  · have hnew := h ['8']
    revert hnew
    decide

end Reload

end Jump.Comm.Table
