import Mathlib.Data.List.DropRight
import Mathlib.Data.List.TakeWhile

/-! # Trimming and reading lines

A text is a list. Lines are read into a buffer, so a line longer than the buffer
comes in several pieces.
-/

namespace Jump.Core.Lines

section Trim

variable {α : Type*} (p : α → Bool)

/-- Drop the blanks, the elements with `p`, on both sides. -/
def trim (l : List α) : List α := (l.rdropWhile p).dropWhile p

/-- No blank at either end. -/
structure Trimmed (l : List α) : Prop where
  head : ∀ a, l.head? = some a → p a = false
  last : ∀ a, l.getLast? = some a → p a = false

variable {p} {l m a b : List α}

theorem rdropWhile_append_blank (hb : ∀ x ∈ b, p x = true) :
    (l ++ b).rdropWhile p = l.rdropWhile p := by
  unfold List.rdropWhile
  rw [List.reverse_append, List.dropWhile_append_of_pos]
  intro x hx
  exact hb x (List.mem_reverse.mp hx)

theorem dropWhile_head (h : ∀ x, l.head? = some x → p x = false) : l.dropWhile p = l := by
  cases l with
  | nil => rfl
  | cons x l => simp [h x rfl]

theorem rdropWhile_last (h : ∀ x, l.getLast? = some x → p x = false) :
    l.rdropWhile p = l := by
  unfold List.rdropWhile
  rw [dropWhile_head, List.reverse_reverse]
  rwa [List.head?_reverse]

/-- What lies between blanks is what trimming leaves. -/
theorem trim_eq (ha : ∀ x ∈ a, p x = true) (hm : Trimmed p m) (hb : ∀ x ∈ b, p x = true) :
    trim p (a ++ m ++ b) = m := by
  unfold trim
  rw [rdropWhile_append_blank hb]
  cases hcase : m with
  | nil =>
      rw [List.append_nil, List.rdropWhile_eq_nil_iff.mpr ha]
      rfl
  | cons x m' =>
      rw [← hcase]
      have hlast : ∀ y, (a ++ m).getLast? = some y → p y = false := by
        intro y hy
        rw [List.getLast?_append_of_ne_nil a (by simp [hcase])] at hy
        exact hm.last y hy
      rw [rdropWhile_last hlast, List.dropWhile_append_of_pos ha, dropWhile_head hm.head]

theorem trim_self (hm : Trimmed p m) : trim p m = m := by
  have h := trim_eq (a := []) (b := []) (by simp) hm (by simp)
  simpa using h

theorem trim_trimmed (l : List α) : Trimmed p (trim p l) := by
  constructor
  · intro x hx
    have hnot := List.head?_dropWhile_not p (l.rdropWhile p)
    unfold trim at hx
    rw [hx] at hnot
    simpa using hnot
  · intro x hx
    have hne : trim p l ≠ [] := by
      rintro hnil
      rw [hnil] at hx
      cases hx
    have hsuffix : trim p l <:+ l.rdropWhile p := List.dropWhile_suffix p
    have hne' : l.rdropWhile p ≠ [] := by
      intro hnil
      rw [hnil] at hsuffix
      exact hne (List.suffix_nil.mp hsuffix)
    have hlast := List.rdropWhile_last_not p l hne'
    rw [List.getLast?_eq_some_getLast hne] at hx
    cases hx
    rw [hsuffix.getLast hne]
    simpa using hlast

theorem trim_split (l : List α) : ∃ a b, l = a ++ trim p l ++ b ∧
    (∀ x ∈ a, p x = true) ∧ ∀ x ∈ b, p x = true := by
  refine ⟨(l.rdropWhile p).takeWhile p, l.rtakeWhile p, ?_, ?_, ?_⟩
  · unfold trim
    rw [List.takeWhile_append_dropWhile, List.rdropWhile_append_rtakeWhile]
  · intro x hx
    exact List.mem_takeWhile_imp hx
  · intro x hx
    exact List.mem_rtakeWhile_imp hx

theorem mem_of_mem_trim {x : α} (h : x ∈ trim p l) : x ∈ l := by
  obtain ⟨a, b, heq, -, -⟩ := trim_split (p := p) l
  rw [heq]
  simp [h]

theorem length_trim_le (l : List α) : (trim p l).length ≤ l.length := by
  obtain ⟨a, b, heq, -, -⟩ := trim_split (p := p) l
  have hlen := congrArg List.length heq
  simp only [List.length_append] at hlen
  omega

/-- Blanks around a text are dropped with its own. -/
theorem trim_append (hb : ∀ x ∈ b, p x = true) (l : List α) :
    trim p (l ++ b) = trim p l := by
  obtain ⟨c, d, heq, hc, hd⟩ := trim_split (p := p) l
  have hdb : ∀ x ∈ d ++ b, p x = true := by
    intro x hx
    rcases List.mem_append.mp hx with hx | hx
    · exact hd x hx
    · exact hb x hx
  have h := trim_eq hc (trim_trimmed l) hdb
  rw [← List.append_assoc, ← heq] at h
  exact h

/-- An element that is no blank keeps what is before it from the blanks behind it. -/
theorem trim_around {x : α} (hx : p x = false) (a b : List α) :
    trim p (a ++ x :: b) = a.dropWhile p ++ x :: b.rdropWhile p := by
  have hm : Trimmed p (a.dropWhile p ++ x :: b.rdropWhile p) := by
    constructor
    · intro y hy
      have hnot := List.head?_dropWhile_not p a
      cases hcase : a.dropWhile p with
      | nil =>
          rw [hcase] at hy
          cases hy
          exact hx
      | cons z l =>
          rw [hcase] at hy hnot
          cases hy
          simpa using hnot
    · intro y hy
      rw [List.getLast?_append_of_ne_nil _ (by simp)] at hy
      by_cases hnil : b.rdropWhile p = []
      · rw [hnil] at hy
        cases hy
        exact hx
      · have hlast := List.rdropWhile_last_not p b hnil
        rw [← List.singleton_append, List.getLast?_append_of_ne_nil _ hnil,
          List.getLast?_eq_some_getLast hnil] at hy
        cases hy
        simpa using hlast
  have hsplit : a ++ x :: b =
      a.takeWhile p ++ (a.dropWhile p ++ x :: b.rdropWhile p) ++ b.rtakeWhile p := by
    rw [← List.append_assoc, List.takeWhile_append_dropWhile, List.append_assoc,
      List.cons_append, List.rdropWhile_append_rtakeWhile]
  rw [hsplit]
  exact trim_eq (fun y hy => List.mem_takeWhile_imp hy) hm
    (fun y hy => List.mem_rtakeWhile_imp hy)

theorem trim_blank_append (ha : ∀ x ∈ a, p x = true) (l : List α) :
    trim p (a ++ l) = trim p l := by
  obtain ⟨c, d, heq, hc, hd⟩ := trim_split (p := p) l
  have hac : ∀ x ∈ a ++ c, p x = true := by
    intro x hx
    rcases List.mem_append.mp hx with hx | hx
    · exact ha x hx
    · exact hc x hx
  have h := trim_eq hac (trim_trimmed l) hd
  rw [List.append_assoc, List.append_assoc, ← List.append_assoc c, ← heq] at h
  exact h

theorem trim_dropWhile (l : List α) : trim p (l.dropWhile p) = trim p l := by
  have h := trim_blank_append (fun y (hy : y ∈ l.takeWhile p) => List.mem_takeWhile_imp hy)
    (l.dropWhile p)
  rw [List.takeWhile_append_dropWhile] at h
  exact h.symm

theorem trim_rdropWhile (l : List α) : trim p (l.rdropWhile p) = trim p l := by
  have h := trim_append (fun y (hy : y ∈ l.rtakeWhile p) => List.mem_rtakeWhile_imp hy)
    (l.rdropWhile p)
  rw [List.rdropWhile_append_rtakeWhile] at h
  exact h.symm

end Trim

section Read

variable {α : Type*} [DecidableEq α] (nl : α)

/-- Read up to the next `nl`, and at most `n` elements: the line, and what is left. -/
def fgets : Nat → List α → List α × List α
  | 0, text => ([], text)
  | _ + 1, [] => ([], [])
  | n + 1, c :: text =>
    if c = nl then ([c], text)
    else
      let r := fgets n text
      (c :: r.1, r.2)

/-- Lines are read until the text is used up; `fuel` bounds their number. -/
def readLines (n : Nat) : Nat → List α → List (List α)
  | 0, _ => []
  | _ + 1, [] => []
  | fuel + 1, c :: text =>
    let r := fgets nl n (c :: text)
    r.1 :: readLines n fuel r.2

def lines (n : Nat) (text : List α) : List (List α) := readLines nl n text.length text

variable {nl} {n : Nat} {l rest : List α}

theorem fgets_append (n : Nat) (text : List α) :
    (fgets nl n text).1 ++ (fgets nl n text).2 = text := by
  induction n generalizing text with
  | zero => rfl
  | succ n ih =>
      cases text with
      | nil => rfl
      | cons c text =>
          unfold fgets
          split
          · rfl
          · simp only [List.cons_append, ih]

/-- A line that fits, with the end of line behind it. -/
theorem fgets_line (hl : nl ∉ l) (hlen : l.length < n) :
    fgets nl n (l ++ nl :: rest) = (l ++ [nl], rest) := by
  induction l generalizing n with
  | nil =>
      obtain ⟨n, rfl⟩ : ∃ k, n = k + 1 := ⟨n - 1, by simp at hlen; omega⟩
      simp [fgets]
  | cons c l ih =>
      obtain ⟨n, rfl⟩ : ∃ k, n = k + 1 := ⟨n - 1, by simp at hlen; omega⟩
      have hc : c ≠ nl := by
        rintro rfl
        exact hl List.mem_cons_self
      have hrest := ih (fun h => hl (List.mem_cons_of_mem c h))
        (by simp only [List.length_cons] at hlen; omega : l.length < n)
      simp [fgets, hc, hrest]

/-- A line that fills the buffer. -/
theorem fgets_full (hl : nl ∉ l) (hlen : l.length = n) :
    fgets nl n (l ++ rest) = (l, rest) := by
  induction l generalizing n with
  | nil =>
      subst hlen
      rfl
  | cons c l ih =>
      subst hlen
      have hc : c ≠ nl := by
        rintro rfl
        exact hl List.mem_cons_self
      have hrest := ih (fun h => hl (List.mem_cons_of_mem c h)) rfl
      simp [fgets, hc, hrest]

/-- A line ends the text or ends at `nl`, or it fills the buffer. -/
theorem fgets_cases (n : Nat) (text : List α) :
    (fgets nl n text).1.length ≤ n ∧ ∃ l, nl ∉ l ∧
      ((fgets nl n text).1 = l ∨ (fgets nl n text).1 = l ++ [nl]) := by
  induction n generalizing text with
  | zero => exact ⟨Nat.le_refl _, [], by simp, Or.inl rfl⟩
  | succ n ih =>
      cases text with
      | nil => exact ⟨by simp [fgets], [], by simp, Or.inl rfl⟩
      | cons c text =>
          unfold fgets
          split
          · rename_i hc
            exact ⟨by simp, [], by simp, Or.inr (by simp [hc])⟩
          · rename_i hc
            obtain ⟨hlen, l, hl, hline⟩ := ih text
            have hcl : nl ∉ c :: l := by
              intro hmem
              rcases List.mem_cons.mp hmem with heq | hmem
              · exact hc heq.symm
              · exact hl hmem
            refine ⟨by simpa using hlen, c :: l, hcl, ?_⟩
            rcases hline with hline | hline
            · exact Or.inl (by simp [hline])
            · exact Or.inr (by simp [hline])

theorem readLines_fuel (hn : 0 < n) {fuel fuel' : Nat} {text : List α}
    (h : text.length ≤ fuel) (h' : text.length ≤ fuel') :
    readLines nl n fuel text = readLines nl n fuel' text := by
  induction fuel generalizing fuel' text with
  | zero =>
      have hnil : text = [] := List.length_eq_zero_iff.mp (by omega)
      subst hnil
      cases fuel' <;> rfl
  | succ fuel ih =>
      cases text with
      | nil => cases fuel' <;> rfl
      | cons c text =>
          obtain ⟨fuel', rfl⟩ : ∃ k, fuel' = k + 1 := ⟨fuel' - 1, by simp at h'; omega⟩
          unfold readLines
          have hpos : 0 < (fgets nl n (c :: text)).1.length := by
            obtain ⟨n, rfl⟩ : ∃ k, n = k + 1 := ⟨n - 1, by omega⟩
            unfold fgets
            split <;> simp
          have happend : (fgets nl n (c :: text)).1 ++ (fgets nl n (c :: text)).2 = c :: text :=
            fgets_append n (c :: text)
          have hlen := congrArg List.length happend
          simp only [List.length_append, List.length_cons] at hlen h h'
          simp only [ih (by omega : (fgets nl n (c :: text)).2.length ≤ fuel)
            (by omega : (fgets nl n (c :: text)).2.length ≤ fuel')]

theorem lines_cons (hn : 0 < n) {text : List α} (hne : text ≠ []) :
    lines nl n text = (fgets nl n text).1 :: lines nl n (fgets nl n text).2 := by
  cases text with
  | nil => exact absurd rfl hne
  | cons c text =>
      show (fgets nl n (c :: text)).1 :: readLines nl n text.length (fgets nl n (c :: text)).2 =
        (fgets nl n (c :: text)).1 :: lines nl n (fgets nl n (c :: text)).2
      rw [List.cons.injEq]
      refine ⟨rfl, ?_⟩
      have hpos : 0 < (fgets nl n (c :: text)).1.length := by
        obtain ⟨n, rfl⟩ : ∃ k, n = k + 1 := ⟨n - 1, by omega⟩
        unfold fgets
        split <;> simp
      have happend : (fgets nl n (c :: text)).1 ++ (fgets nl n (c :: text)).2 = c :: text :=
        fgets_append n (c :: text)
      have hlen := congrArg List.length happend
      simp only [List.length_append, List.length_cons] at hlen
      exact readLines_fuel hn (by omega : (fgets nl n (c :: text)).2.length ≤ text.length)
        (Nat.le_refl _)

theorem lines_line (hl : nl ∉ l) (hlen : l.length < n) :
    lines nl n (l ++ nl :: rest) = (l ++ [nl]) :: lines nl n rest := by
  rw [lines_cons (by omega) (by simp), fgets_line hl hlen]

theorem lines_full (hn : 0 < n) (hl : nl ∉ l) (hlen : l.length = n) :
    lines nl n (l ++ rest) = l :: lines nl n rest := by
  have hne : l ++ rest ≠ [] := by
    intro hnil
    have hlnil := (List.append_eq_nil_iff.mp hnil).1
    rw [hlnil] at hlen
    simp at hlen
    omega
  rw [lines_cons hn hne, fgets_full hl hlen]

theorem mem_lines {text line : List α} (h : line ∈ lines nl n text) :
    line.length ≤ n ∧ ∃ l, nl ∉ l ∧ (line = l ∨ line = l ++ [nl]) := by
  unfold lines at h
  generalize text.length = fuel at h
  induction fuel generalizing text with
  | zero => cases h
  | succ fuel ih =>
      cases text with
      | nil => cases h
      | cons c text =>
          unfold readLines at h
          rcases List.mem_cons.mp h with rfl | h
          · exact fgets_cases n _
          · exact ih h

end Read

end Jump.Core.Lines
