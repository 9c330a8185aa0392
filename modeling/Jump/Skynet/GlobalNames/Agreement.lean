import Jump.Skynet.GlobalNames.Sources

/-! # Agreement about names

As long as no slave registers a name that another one knows by another address, all that is known,
under way or answered is the same.
-/

namespace Jump.Skynet.GlobalNames

variable {ι : Type} [DecidableEq ι] {localname : ι → Name → Option Nat} {s : Net ι}
  {i j : ι} {name : Name} {address address' handle : Nat} {action : Action ι}
  {actions : List (Action ι)}

/-! ## Runs -/

/-- A slave that registers a name finds no other one with another address of it. -/
def Lawful (s : Net ι) (action : Action ι) : Prop :=
  ∀ name handle, Registers s action name handle →
    ∀ j address, (s.slave j).globalname name = some address → address = handle

def LawfulRun (localname : ι → Name → Option Nat) : Net ι → List (Action ι) → Prop
  | _, [] => True
  | s, action :: actions => Lawful s action ∧ LawfulRun localname (step localname s action) actions

structure Agreed (s : Net ι) : Prop where
  sourced : ∀ name address, s.Said name address →
    ∃ i, (s.slave i).globalname name = some address
  agree : ∀ name i j address address', (s.slave i).globalname name = some address →
    (s.slave j).globalname name = some address' → address = address'
  reported : ∀ name i, s.Knows i name → s.Reported name
  told : ∀ name i, (s.globalName name).isSome = true → s.Told i name

omit [DecidableEq ι] in
theorem agreed_start : Agreed (start : Net ι) := by
  have hnone : ∀ name address, ¬(start : Net ι).Said name address := by
    intro name address h
    cases h with
    | slave i h => cases h
    | master h => cases h
    | up i h => exact List.not_mem_nil h
    | down i h => exact List.not_mem_nil h
    | answer a hmem _ _ _ => exact List.not_mem_nil hmem
  refine ⟨fun name address h => absurd h (hnone name address), ?_, ?_, ?_⟩
  · intro name i j address address' h
    cases h
  · intro name i h
    cases h
  · intro name i h
    cases h

omit [DecidableEq ι] in
/-- All addresses of a name are the same. -/
theorem Agreed.said (h : Agreed s) (ha : s.Said name address) (ha' : s.Said name address') :
    address = address' := by
  obtain ⟨i, hi⟩ := h.sourced name address ha
  obtain ⟨j, hj⟩ := h.sourced name address' ha'
  exact h.agree name i j address address' hi hj

theorem Agreed.step (h : Agreed s) (hlawful : Lawful s action) :
    Agreed (step localname s action) := by
  have hold : ∀ name address, s.Said name address → ∀ address',
      (GlobalNames.step localname s action).Said name address' → address' = address := by
    intro name address hsaid address' hsaid'
    rcases said_step hsaid' with hsaid' | hregisters
    · exact h.said hsaid' hsaid
    · obtain ⟨i, hi⟩ := h.sourced name address hsaid
      exact (hlawful name address' hregisters i address hi).symm
  constructor
  · intro name address hsaid
    rcases said_step hsaid with hsaid | hregisters
    · obtain ⟨i, hi⟩ := h.sourced name address hsaid
      have hknows : (GlobalNames.step localname s action).Knows i name :=
        knows_step (by unfold Net.Knows; rw [hi]; rfl)
      obtain ⟨address', hi'⟩ := Option.isSome_iff_exists.mp hknows
      refine ⟨i, ?_⟩
      rw [hi', hold name address hsaid address' (.slave i hi')]
    · exact (registers_step hregisters).1
  · intro name i j address address' hi hj
    rcases said_step (.slave i hi) with hsaid | hregisters
    · exact (hold name address hsaid address' (.slave j hj)).symm
    · rcases said_step (.slave j hj) with hsaid' | hregisters'
      · exact hold name address' hsaid' address (.slave i hi)
      · obtain ⟨_, _, rfl, _, _⟩ := hregisters
        obtain ⟨_, _, heq, _, _⟩ := hregisters'
        cases heq
        rfl
  · intro name i hknows
    obtain ⟨address, hi⟩ := Option.isSome_iff_exists.mp hknows
    rcases said_step (.slave i hi) with hsaid | hregisters
    · obtain ⟨j, hj⟩ := h.sourced name address hsaid
      exact reported_step (h.reported name j (by unfold Net.Knows; rw [hj]; rfl))
    · exact (registers_step hregisters).2
  · intro name i hmaster
    rcases master_step hmaster with hmaster | htold
    · exact told_step (h.told name i hmaster)
    · exact htold i

theorem Agreed.run (h : Agreed s) (hlawful : LawfulRun localname s actions) :
    Agreed (run localname actions s) := by
  induction actions generalizing s with
  | nil => exact h
  | cons action actions ih => exact ih (h.step hlawful.1) hlawful.2

omit [DecidableEq ι] in
/-- When no message is in flight, the master and the slaves know the same names by the same
addresses. -/
theorem Agreed.quiet (h : Agreed s) (hquiet : s.Quiet) (i : ι) (name : Name) :
    (s.slave i).globalname name = s.globalName name := by
  cases hmaster : s.globalName name with
  | some address =>
      rcases h.told name i (by rw [hmaster]; rfl) with hknows | ⟨address', hmem⟩
      · obtain ⟨address', hi⟩ := Option.isSome_iff_exists.mp hknows
        rw [hi, h.said (.slave i hi) (.master hmaster)]
      · rw [(hquiet i).2] at hmem
        exact absurd hmem List.not_mem_nil
  | none =>
      rw [← Option.not_isSome_iff_eq_none]
      intro hknows
      rcases h.reported name i hknows with hsome | ⟨j, address, hmem⟩
      · rw [hmaster] at hsome
        cases hsome
      · rw [(hquiet j).1] at hmem
        exact absurd hmem List.not_mem_nil

/-! ## Answers -/

/-- An answer about a name that is not local has an address. -/
def Answered (s : Net ι) : Prop :=
  ∀ a ∈ s.answers, a.name.head? ≠ some 46 → ∃ address, a.address = some address

theorem Answered.setName (h : Answered s) (i : ι) (name : Name) (address : Nat) :
    Answered (s.setName i name address) := by
  intro a hmem hglobal
  rcases List.mem_append.mp hmem with hmem | hmem
  · exact h a hmem hglobal
  · obtain ⟨session, -, rfl⟩ := List.mem_map.mp hmem
    exact ⟨address, rfl⟩

omit [DecidableEq ι] in
theorem Answered.answer {a : Answer ι} (h : Answered s)
    (ha : a.name.head? ≠ some 46 → ∃ address, a.address = some address) :
    Answered (s.answer a) := by
  intro b hmem hglobal
  rcases List.mem_append.mp hmem with hmem | hmem
  · exact h b hmem hglobal
  · rw [List.mem_singleton.mp hmem] at hglobal ⊢
    exact ha hglobal

theorem Answered.step (h : Answered s) : Answered (step localname s action) := by
  cases action with
  | register i global handle =>
      show Answered (s.register i global.name handle)
      unfold Net.register
      split
      · exact h
      · exact h.setName i global.name handle
  | queryname i session name =>
      show Answered (s.queryname localname i session name)
      unfold Net.queryname
      split
      · rename_i hlocal
        exact h.answer fun hglobal => absurd hlocal hglobal
      · cases (s.slave i).globalname name with
        | some result => exact h.answer fun _ => ⟨result, rfl⟩
        | none => exact h
  | monitorHarbor i name =>
      show Answered (s.monitorHarbor i name)
      unfold Net.monitorHarbor
      split <;> exact h
  | dispatchSlave i =>
      show Answered (s.dispatchSlave i)
      unfold Net.dispatchSlave
      cases s.up i with
      | nil => exact h
      | cons package rest => cases package <;> exact h
  | monitorMaster i =>
      show Answered (s.monitorMaster i)
      unfold Net.monitorMaster
      cases s.down i with
      | nil => exact h
      | cons message rest => exact h.setName i message.1 message.2

theorem answered_run (h : Answered s) (actions : List (Action ι)) :
    Answered (run localname actions s) := by
  induction actions generalizing s with
  | nil => exact h
  | cons action actions ih => exact ih h.step

omit [DecidableEq ι] in
theorem Agreed.answers (h : Agreed s) (hanswered : Answered s) {a a' : Answer ι}
    (ha : a ∈ s.answers) (ha' : a' ∈ s.answers) (hname : a.name = a'.name)
    (hglobal : a.name.head? ≠ some 46) : a.address = a'.address := by
  obtain ⟨address, haddress⟩ := hanswered a ha hglobal
  obtain ⟨address', haddress'⟩ := hanswered a' ha' (hname ▸ hglobal)
  have hsaid : s.Said a.name address := .answer a ha rfl hglobal haddress
  have hsaid' : s.Said a.name address' := .answer a' ha' hname.symm hglobal haddress'
  rw [haddress, haddress', h.said hsaid hsaid']

/-! ## When the names agree -/

theorem run_append (before after : List (Action ι)) (s : Net ι) :
    run localname (before ++ after) s = run localname after (run localname before s) :=
  List.foldl_append

theorem lawfulRun_append {before after : List (Action ι)} :
    LawfulRun localname s (before ++ after) ↔
      LawfulRun localname s before ∧ LawfulRun localname (run localname before s) after := by
  induction before generalizing s with
  | nil => exact ⟨fun h => ⟨trivial, h⟩, fun h => h.2⟩
  | cons action before ih =>
      show _ ∧ LawfulRun localname _ (before ++ after) ↔ (_ ∧ _) ∧ _
      rw [ih, and_assoc]
      rfl

theorem lawfulRun_of_steps
    (h : ∀ before action, before ++ [action] <+: actions → Lawful (run localname before s) action) :
    LawfulRun localname s actions := by
  induction actions generalizing s with
  | nil => trivial
  | cons action actions ih =>
      refine ⟨h [] action ⟨actions, rfl⟩, ih fun before action' hbefore => ?_⟩
      exact h (action :: before) action' (List.cons_prefix_cons.mpr ⟨rfl, hbefore⟩)

/-- Queries do not change what the slaves know, so they are lawful. -/
theorem lawfulRun_queries {queries : List (Action ι)}
    (h : ∀ query ∈ queries, ∃ i session name, query = .queryname i session name) :
    LawfulRun localname s queries := by
  apply lawfulRun_of_steps
  rintro before action ⟨after, hafter⟩ name handle ⟨i, global, rfl, -, -⟩
  obtain ⟨j, session, name', heq⟩ := h (.register i global handle) (by
    rw [← hafter, List.append_assoc]
    exact List.mem_append_right _ List.mem_cons_self)
  cases heq

theorem queryname_known {session result : Nat} (hglobal : name.head? ≠ some 46)
    (h : (s.slave i).globalname name = some result) :
    s.queryname localname i session name = s.answer ⟨i, session, name, some result⟩ := by
  unfold Net.queryname
  rw [if_neg hglobal, h]

/-- A slave that registers a name and one that knows it by another address answer
differently. -/
theorem answers_of_registers {global : GlobalName}
    (hnone : (s.slave i).globalname global.name = none)
    (hj : (s.slave j).globalname global.name = some address) :
    let s' := run localname [.register i global handle, .queryname i 0 global.name,
      .queryname j 0 global.name] s
    (⟨i, 0, global.name, some handle⟩ : Answer ι) ∈ s'.answers ∧
      (⟨j, 0, global.name, some address⟩ : Answer ι) ∈ s'.answers := by
  have hne : j ≠ i := by
    rintro rfl
    rw [hnone] at hj
    cases hj
  have hregister : s.register i global.name handle =
      (s.setName i global.name handle).write i (.R global.name handle) := by
    unfold Net.register
    rw [hnone]
    rfl
  have hi : ((s.register i global.name handle).slave i).globalname global.name = some handle := by
    rw [hregister]
    show ((s.setName i global.name handle).slave i).globalname global.name = some handle
    rw [globalname_setName, if_pos ⟨rfl, rfl⟩]
  have hj' : ((s.register i global.name handle).slave j).globalname global.name =
      some address := by
    rw [hregister]
    show ((s.setName i global.name handle).slave j).globalname global.name = some address
    rw [globalname_setName, if_neg fun h => hne h.1, hj]
  show _ ∈ (((s.register i global.name handle).queryname localname i 0 global.name).queryname
    localname j 0 global.name).answers ∧ _
  show _ ∧ _ ∈ (((s.register i global.name handle).queryname localname i 0 global.name).queryname
    localname j 0 global.name).answers
  rw [queryname_known global.not_local hi]
  have hj'' : (((s.register i global.name handle).answer ⟨i, 0, global.name,
      some handle⟩).slave j).globalname global.name = some address := hj'
  rw [queryname_known global.not_local hj'']
  exact ⟨List.mem_append_left _ (List.mem_append_right _ (List.mem_singleton_self _)),
    List.mem_append_right _ (List.mem_singleton_self _)⟩

/-- When no message is in flight the master and the slaves know the same addresses, and no two
answers of a run that queries follow differ, if and only if in no step a slave registers a name
that another one knows by another address. -/
theorem names_agree_iff (localname : ι → Name → Option Nat) (actions : List (Action ι)) :
    (∀ before queries, before <+: actions →
      (∀ query ∈ queries, ∃ i session name, query = .queryname i session name) →
      ((run localname (before ++ queries) start).Quiet → ∀ i name,
        ((run localname (before ++ queries) start).slave i).globalname name =
          (run localname (before ++ queries) start).globalName name) ∧
      ∀ a ∈ (run localname (before ++ queries) start).answers,
        ∀ a' ∈ (run localname (before ++ queries) start).answers,
          a.name = a'.name → a.name.head? ≠ some 46 → a.address = a'.address) ↔
    LawfulRun localname start actions := by
  constructor
  · intro h
    apply lawfulRun_of_steps
    rintro before action hbefore name handle ⟨i, global, rfl, rfl, hnone⟩ j address hj
    have hanswers := @answers_of_registers _ _ localname _ i j address handle global hnone hj
    rw [← run_append] at hanswers
    have hqueries := (h (before ++ [.register i global handle])
      [.queryname i 0 global.name, .queryname j 0 global.name] hbefore (by
        intro query hquery
        rcases List.mem_cons.mp hquery with rfl | hquery
        · exact ⟨i, 0, global.name, rfl⟩
        · exact ⟨j, 0, global.name, List.mem_singleton.mp hquery⟩)).2
    rw [List.append_assoc] at hqueries
    have heq := hqueries _ hanswers.1 _ hanswers.2 rfl global.not_local
    cases heq
    rfl
  · rintro hlawful before queries ⟨after, rfl⟩ hqueries
    have hrun : Agreed (run localname (before ++ queries) start) := by
      apply agreed_start.run
      rw [lawfulRun_append] at hlawful ⊢
      exact ⟨hlawful.1, lawfulRun_queries hqueries⟩
    have hanswered : Answered (run localname (before ++ queries) start) :=
      answered_run (fun a hmem => absurd hmem List.not_mem_nil) _
    exact ⟨hrun.quiet, fun a ha a' ha' => hrun.answers hanswered ha ha'⟩

/-- Two slaves register a name: the master keeps the first address, the slaves end with the
second. -/
theorem names_disagree :
    let name : GlobalName := ⟨[97], by decide, by decide, by decide⟩
    let s := run (fun _ _ => none) [.register 0 name 1, .register 1 name 2, .dispatchSlave 0,
      .dispatchSlave 1, .monitorMaster 0, .monitorMaster 0, .monitorMaster 1, .monitorMaster 1]
      (start : Net (Fin 2))
    s.Quiet ∧ s.globalName [97] = some 1 ∧ ∀ i, (s.slave i).globalname [97] = some 2 := by
  unfold Net.Quiet
  decide

end Jump.Skynet.GlobalNames
