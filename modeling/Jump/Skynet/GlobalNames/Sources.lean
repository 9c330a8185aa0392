import Jump.Skynet.GlobalNames.Code

/-! # Where addresses come from

An address of a name comes from a `REGISTER` only, and what a slave or the master gets to know is
passed on.
-/

namespace Jump.Skynet.GlobalNames

variable {ι : Type} [DecidableEq ι] {localname : ι → Name → Option Nat} {s : Net ι}
  {i j : ι} {name : Name} {address address' handle : Nat} {action : Action ι}
  {actions : List (Action ι)}

/-- Where the address of a name stands. -/
inductive Net.Said (s : Net ι) (name : Name) (address : Nat) : Prop where
  | slave (i : ι) (h : (s.slave i).globalname name = some address)
  | master (h : s.globalName name = some address)
  | up (i : ι) (h : .R name address ∈ s.up i)
  | down (i : ι) (h : (name, address) ∈ s.down i)
  | answer (a : Answer ι) (hmem : a ∈ s.answers) (hname : a.name = name)
      (hglobal : name.head? ≠ some 46) (h : a.address = some address)

/-- A `REGISTER` that is not refused. -/
def Registers (s : Net ι) (action : Action ι) (name : Name) (handle : Nat) : Prop :=
  ∃ i global, action = .register i global handle ∧ global.name = name ∧
    (s.slave i).globalname name = none

theorem globalname_setName (s : Net ι) (i j : ι) (name name' : Name) (address : Nat) :
    ((s.setName i name address).slave j).globalname name' =
      if j = i ∧ name' = name then some address else (s.slave j).globalname name' := by
  show (Function.update s.slave i _ j).globalname name' = _
  by_cases hj : j = i
  · rw [hj, Function.update_self]
    show Function.update (s.slave i).globalname name (some address) name' = _
    by_cases hname : name' = name
    · rw [hname, Function.update_self, if_pos ⟨rfl, rfl⟩]
    · rw [Function.update_of_ne hname, if_neg fun h => hname h.2]
  · rw [Function.update_of_ne hj, if_neg fun h => hj h.1]

/-- What stands in the net when a slave sets a name. -/
theorem said_setName (h : (s.setName i name address).Said name' address') :
    s.Said name' address' ∨ name' = name ∧ address' = address := by
  cases h with
  | slave j h =>
      rw [globalname_setName] at h
      split at h
      · rename_i heq
        cases h
        exact .inr ⟨heq.2, rfl⟩
      · exact .inl (.slave j h)
  | master h => exact .inl (.master h)
  | up j h => exact .inl (.up j h)
  | down j h => exact .inl (.down j h)
  | answer a hmem hname hglobal h =>
      rcases List.mem_append.mp hmem with hmem | hmem
      · exact .inl (.answer a hmem hname hglobal h)
      · obtain ⟨session, -, rfl⟩ := List.mem_map.mp hmem
        cases h
        exact .inr ⟨hname.symm, rfl⟩

theorem said_write (package : Package) (h : (s.write i package).Said name address) :
    s.Said name address ∨ package = .R name address := by
  cases h with
  | slave j h => exact .inl (.slave j h)
  | master h => exact .inl (.master h)
  | up j h =>
      have hup : (s.write i package).up j = if j = i then s.up i ++ [package] else s.up j :=
        Function.update_apply ..
      rw [hup] at h
      split at h
      · rcases List.mem_append.mp h with h | h
        · exact .inl (.up i h)
        · exact .inr (List.mem_singleton.mp h).symm
      · exact .inl (.up j h)
  | down j h => exact .inl (.down j h)
  | answer a hmem hname hglobal h => exact .inl (.answer a hmem hname hglobal h)

omit [DecidableEq ι] in
/-- An answer with an address that stands in the net. -/
theorem said_answer {a : Answer ι} (h : (s.answer a).Said name address)
    (ha : a.name.head? ≠ some 46 → ∀ address, a.address = some address →
      s.Said a.name address) : s.Said name address := by
  cases h with
  | slave j h => exact .slave j h
  | master h => exact .master h
  | up j h => exact .up j h
  | down j h => exact .down j h
  | answer b hmem hname hglobal h =>
      rcases List.mem_append.mp hmem with hmem | hmem
      · exact .answer b hmem hname hglobal h
      · rw [List.mem_singleton.mp hmem] at hname h
        rw [← hname] at hglobal ⊢
        exact ha hglobal address h

theorem said_register (h : (s.register i name handle).Said name' address) :
    s.Said name' address ∨
      (s.slave i).globalname name = none ∧ name' = name ∧ address = handle := by
  unfold Net.register at h
  split at h
  · exact .inl h
  · rename_i hnone
    have hnone := Option.not_isSome_iff_eq_none.mp hnone
    rcases said_write _ h with h | heq
    · rcases said_setName h with h | h
      · exact .inl h
      · exact .inr ⟨hnone, h⟩
    · cases heq
      exact .inr ⟨hnone, rfl, rfl⟩

theorem said_queryname {session : Nat} (h : (s.queryname localname i session name).Said name'
    address) : s.Said name' address := by
  unfold Net.queryname at h
  split at h
  · rename_i hlocal
    exact said_answer h fun hglobal => absurd hlocal hglobal
  · cases hresult : (s.slave i).globalname name with
    | some result =>
        rw [hresult] at h
        exact said_answer h fun _ address heq => by
          cases heq
          exact .slave i hresult
    | none =>
        rw [hresult] at h
        cases h with
        | slave j h =>
            have hslave : (Function.update s.slave i ⟨(s.slave i).globalname,
                Function.update (s.slave i).queryname name
                  ((s.slave i).queryname name ++ [session])⟩ j).globalname =
                (s.slave j).globalname := by
              by_cases hj : j = i
              · rw [hj, Function.update_self]
              · rw [Function.update_of_ne hj]
            refine .slave j ?_
            rw [← hslave]
            exact h
        | master h => exact .master h
        | up j h => exact .up j h
        | down j h => exact .down j h
        | answer a hmem hname hglobal h => exact .answer a hmem hname hglobal h

theorem said_dispatchSlave (h : (s.dispatchSlave i).Said name address) : s.Said name address := by
  unfold Net.dispatchSlave at h
  cases hup : s.up i with
  | nil =>
      rw [hup] at h
      exact h
  | cons package rest =>
      have hrest : ∀ j, .R name address ∈ Function.update s.up i rest j →
          s.Said name address := by
        intro j hmem
        by_cases hj : j = i
        · rw [hj, Function.update_self] at hmem
          exact .up i (by rw [hup]; exact List.mem_cons_of_mem _ hmem)
        · rw [Function.update_of_ne hj] at hmem
          exact .up j hmem
      rw [hup] at h
      cases package with
      | R name' address' =>
          have hsaid : s.Said name' address' := .up i (by rw [hup]; exact List.mem_cons_self)
          cases h with
          | slave j h => exact .slave j h
          | master h =>
              simp only at h
              split at h
              · exact .master h
              · by_cases hname : name = name'
                · rw [hname, Function.update_self] at h
                  cases h
                  rw [hname]
                  exact hsaid
                · rw [Function.update_of_ne hname] at h
                  exact .master h
          | up j h => exact hrest j h
          | down j h =>
              rcases List.mem_append.mp h with h | h
              · exact .down j h
              · cases List.mem_singleton.mp h
                exact hsaid
          | answer a hmem hname hglobal h => exact .answer a hmem hname hglobal h
      | Q name' =>
          cases h with
          | slave j h => exact .slave j h
          | master h => exact .master h
          | up j h => exact hrest j h
          | down j h =>
              simp only at h
              cases hmaster : s.globalName name' with
              | none =>
                  rw [hmaster] at h
                  exact .down j h
              | some result =>
                  rw [hmaster] at h
                  by_cases hj : j = i
                  · rw [hj] at h
                    simp only [Function.update_self] at h
                    rcases List.mem_append.mp h with h | h
                    · exact .down i h
                    · cases List.mem_singleton.mp h
                      exact .master hmaster
                  · simp only [Function.update_of_ne hj] at h
                    exact .down j h
          | answer a hmem hname hglobal h => exact .answer a hmem hname hglobal h

theorem said_monitorMaster (h : (s.monitorMaster i).Said name address) :
    s.Said name address := by
  unfold Net.monitorMaster at h
  cases hdown : s.down i with
  | nil =>
      rw [hdown] at h
      exact h
  | cons message rest =>
      obtain ⟨name', address'⟩ := message
      rw [hdown] at h
      have hsaid : s.Said name' address' := .down i (by rw [hdown]; exact List.mem_cons_self)
      have hset : (s.setName i name' address').Said name address → s.Said name address := by
        intro h
        rcases said_setName h with h | ⟨rfl, rfl⟩
        · exact h
        · exact hsaid
      cases h with
      | slave j h => exact hset (.slave j h)
      | master h => exact hset (.master h)
      | up j h => exact hset (.up j h)
      | down j h =>
          simp only at h
          by_cases hj : j = i
          · rw [hj, Function.update_self] at h
            exact .down i (by rw [hdown]; exact List.mem_cons_of_mem _ h)
          · rw [Function.update_of_ne hj] at h
            exact .down j h
      | answer a hmem hname hglobal h => exact hset (.answer a hmem hname hglobal h)

/-- Only a `REGISTER` brings in an address. -/
theorem said_step (h : (step localname s action).Said name address) :
    s.Said name address ∨ Registers s action name address := by
  cases action with
  | register i global handle =>
      rcases said_register h with h | ⟨hnone, rfl, rfl⟩
      · exact .inl h
      · exact .inr ⟨i, global, rfl, rfl, hnone⟩
  | queryname i session name => exact .inl (said_queryname h)
  | monitorHarbor i name =>
      left
      have hmonitor : (s.monitorHarbor i name).Said _ address := h
      unfold Net.monitorHarbor at hmonitor
      split at hmonitor
      · exact hmonitor
      · rcases said_write _ hmonitor with h | heq
        · exact h
        · cases heq
  | dispatchSlave i => exact .inl (said_dispatchSlave h)
  | monitorMaster i => exact .inl (said_monitorMaster h)

/-! ## What is not lost -/

def Net.Knows (s : Net ι) (i : ι) (name : Name) : Prop :=
  ((s.slave i).globalname name).isSome = true

/-- The master knows the name, or will. -/
def Net.Reported (s : Net ι) (name : Name) : Prop :=
  (s.globalName name).isSome = true ∨ ∃ i address, .R name address ∈ s.up i

/-- The slave knows the name, or will. -/
def Net.Told (s : Net ι) (i : ι) (name : Name) : Prop :=
  s.Knows i name ∨ ∃ address, (name, address) ∈ s.down i

theorem knows_setName (name' : Name) (h : s.Knows j name') :
    (s.setName i name address).Knows j name' := by
  unfold Net.Knows at *
  rw [globalname_setName]
  split
  · rfl
  · exact h

theorem knows_setName_self : (s.setName i name address).Knows i name := by
  unfold Net.Knows
  rw [globalname_setName, if_pos ⟨rfl, rfl⟩]
  rfl

theorem mem_write (package package' : Package) (h : package' ∈ s.up j) :
    package' ∈ (s.write i package).up j := by
  show package' ∈ Function.update s.up i (s.up i ++ [package]) j
  by_cases hj : j = i
  · rw [hj, Function.update_self]
    rw [hj] at h
    exact List.mem_append_left _ h
  · rwa [Function.update_of_ne hj]

theorem mem_write_self (package : Package) : package ∈ (s.write i package).up i := by
  show package ∈ Function.update s.up i (s.up i ++ [package]) i
  rw [Function.update_self]
  exact List.mem_append_right _ (List.mem_singleton_self _)

theorem globalname_queryname (session : Nat) (name' : Name) :
    ((s.queryname localname i session name).slave j).globalname name' =
      (s.slave j).globalname name' := by
  unfold Net.queryname
  split
  · rfl
  · cases (s.slave i).globalname name with
    | some result => rfl
    | none =>
        show (Function.update s.slave i _ j).globalname name' = _
        by_cases hj : j = i
        · rw [hj, Function.update_self]
        · rw [Function.update_of_ne hj]

theorem links_queryname (session : Nat) :
    (s.queryname localname i session name).globalName = s.globalName ∧
      (s.queryname localname i session name).up = s.up ∧
      (s.queryname localname i session name).down = s.down := by
  unfold Net.queryname
  split
  · exact ⟨rfl, rfl, rfl⟩
  · cases (s.slave i).globalname name <;> exact ⟨rfl, rfl, rfl⟩

theorem told_step (h : s.Told i name) : (step localname s action).Told i name := by
  cases action with
  | register j global handle =>
      show (s.register j global.name handle).Told i name
      unfold Net.register
      split
      · exact h
      · rcases h with h | h
        · exact .inl (knows_setName name h)
        · exact .inr h
  | queryname j session name' =>
      show (s.queryname localname j session name').Told i name
      unfold Net.Told Net.Knows
      rw [globalname_queryname, (links_queryname session).2.2]
      exact h
  | monitorHarbor j name' =>
      show (s.monitorHarbor j name').Told i name
      unfold Net.monitorHarbor
      split <;> exact h
  | dispatchSlave j =>
      show (s.dispatchSlave j).Told i name
      unfold Net.dispatchSlave
      cases s.up j with
      | nil => exact h
      | cons package rest =>
          rcases h with h | ⟨address, h⟩
          · cases package <;> exact .inl h
          · right
            refine ⟨address, ?_⟩
            cases package with
            | R name' address' => exact List.mem_append_left _ h
            | Q name' =>
                simp only
                cases s.globalName name' with
                | none => exact h
                | some result =>
                    show _ ∈ Function.update s.down j (s.down j ++ [(name', result)]) i
                    by_cases hi : i = j
                    · rw [hi, Function.update_self]
                      rw [hi] at h
                      exact List.mem_append_left _ h
                    · rwa [Function.update_of_ne hi]
  | monitorMaster j =>
      show (s.monitorMaster j).Told i name
      unfold Net.monitorMaster
      cases hdown : s.down j with
      | nil => exact h
      | cons message rest =>
          rcases h with h | ⟨address, h⟩
          · exact .inl (knows_setName name h)
          · by_cases hi : i = j
            · rw [hi] at h ⊢
              rw [hdown] at h
              rcases List.mem_cons.mp h with rfl | h
              · exact .inl knows_setName_self
              · refine .inr ⟨address, ?_⟩
                show _ ∈ Function.update s.down j rest j
                rwa [Function.update_self]
            · refine .inr ⟨address, ?_⟩
              show _ ∈ Function.update s.down j rest i
              rwa [Function.update_of_ne hi]

/-- A package that is not read yet, or the one that the master has read. -/
theorem mem_up_cons {package package' : Package} {rest : List Package}
    (hup : s.up j = package :: rest) (h : package' ∈ s.up i) :
    package' = package ∨ package' ∈ Function.update s.up j rest i := by
  by_cases hi : i = j
  · rw [hi, hup] at h
    rw [hi, Function.update_self]
    exact List.mem_cons.mp h
  · rw [Function.update_of_ne hi]
    exact .inr h

/-- The names that the master knows when it read a registration. -/
theorem isSome_registered (globalName : Name → Option Nat) (name' : Name) (address : Nat)
    (h : (globalName name).isSome = true ∨ name = name') :
    ((if (globalName name').isSome then globalName
      else Function.update globalName name' (some address)) name).isSome = true := by
  split
  · rename_i hknown
    rcases h with h | rfl
    · exact h
    · exact hknown
  · by_cases hname : name = name'
    · rw [hname, Function.update_self]
      rfl
    · rw [Function.update_of_ne hname]
      exact h.resolve_right hname

theorem reported_step (h : s.Reported name) : (step localname s action).Reported name := by
  cases action with
  | register j global handle =>
      show (s.register j global.name handle).Reported name
      unfold Net.register
      split
      · exact h
      · rcases h with h | ⟨i, address, h⟩
        · exact .inl h
        · exact .inr ⟨i, address, mem_write _ _ h⟩
  | queryname j session name' =>
      show (s.queryname localname j session name').Reported name
      unfold Net.Reported
      rw [(links_queryname session).1, (links_queryname session).2.1]
      exact h
  | monitorHarbor j name' =>
      show (s.monitorHarbor j name').Reported name
      unfold Net.monitorHarbor
      split
      · exact h
      · rcases h with h | ⟨i, address, h⟩
        · exact .inl h
        · exact .inr ⟨i, address, mem_write _ _ h⟩
  | dispatchSlave j =>
      show (s.dispatchSlave j).Reported name
      unfold Net.dispatchSlave
      cases hup : s.up j with
      | nil => exact h
      | cons package rest =>
          cases package with
          | R name' address' =>
              rcases h with h | ⟨i, address, h⟩
              · exact .inl (isSome_registered _ _ _ (.inl h))
              · rcases mem_up_cons hup h with heq | h
                · cases heq
                  exact .inl (isSome_registered _ _ _ (.inr rfl))
                · exact .inr ⟨i, address, h⟩
          | Q name' =>
              rcases h with h | ⟨i, address, h⟩
              · exact .inl h
              · rcases mem_up_cons hup h with heq | h
                · cases heq
                · exact .inr ⟨i, address, h⟩
  | monitorMaster j =>
      show (s.monitorMaster j).Reported name
      unfold Net.monitorMaster
      cases s.down j with
      | nil => exact h
      | cons message rest => exact h

theorem knows_step (h : s.Knows i name) : (step localname s action).Knows i name := by
  cases action with
  | register j global handle =>
      show (s.register j global.name handle).Knows i name
      unfold Net.register
      split
      · exact h
      · exact knows_setName name h
  | queryname j session name' =>
      show (s.queryname localname j session name').Knows i name
      unfold Net.Knows
      rw [globalname_queryname]
      exact h
  | monitorHarbor j name' =>
      show (s.monitorHarbor j name').Knows i name
      unfold Net.monitorHarbor
      split <;> exact h
  | dispatchSlave j =>
      show (s.dispatchSlave j).Knows i name
      unfold Net.dispatchSlave
      cases s.up j with
      | nil => exact h
      | cons package rest => cases package <;> exact h
  | monitorMaster j =>
      show (s.monitorMaster j).Knows i name
      unfold Net.monitorMaster
      cases s.down j with
      | nil => exact h
      | cons message rest => exact knows_setName name h

/-- A slave that registers a name knows it by that address, and the master will know it. -/
theorem registers_step (h : Registers s action name handle) :
    (∃ i, ((step localname s action).slave i).globalname name = some handle) ∧
      (step localname s action).Reported name := by
  obtain ⟨i, global, rfl, rfl, hnone⟩ := h
  have hstep : step localname s (.register i global handle) =
      (s.setName i global.name handle).write i (.R global.name handle) := by
    show s.register i global.name handle = _
    unfold Net.register
    rw [hnone]
    rfl
  rw [hstep]
  refine ⟨⟨i, ?_⟩, .inr ⟨i, handle, mem_write_self _⟩⟩
  show ((s.setName i global.name handle).slave i).globalname global.name = some handle
  rw [globalname_setName, if_pos ⟨rfl, rfl⟩]

/-- When the master gets to know a name, it tells every slave. -/
theorem master_step (h : ((step localname s action).globalName name).isSome = true) :
    (s.globalName name).isSome = true ∨ ∀ i, (step localname s action).Told i name := by
  cases action with
  | register j global handle =>
      left
      have hmaster : (s.register j global.name handle).globalName = s.globalName := by
        unfold Net.register
        split <;> rfl
      rw [← hmaster]
      exact h
  | queryname j session name' =>
      left
      rw [← (@links_queryname _ _ localname s j name' session).1]
      exact h
  | monitorHarbor j name' =>
      left
      have hmaster : (s.monitorHarbor j name').globalName = s.globalName := by
        unfold Net.monitorHarbor
        split <;> rfl
      rw [← hmaster]
      exact h
  | dispatchSlave j =>
      have hdispatch : ((s.dispatchSlave j).globalName name).isSome = true := h
      show _ ∨ ∀ i, (s.dispatchSlave j).Told i name
      unfold Net.dispatchSlave at hdispatch ⊢
      cases hup : s.up j with
      | nil =>
          rw [hup] at hdispatch
          exact .inl hdispatch
      | cons package rest =>
          rw [hup] at hdispatch
          cases package with
          | R name' address =>
              by_cases hname : name = name'
              · right
                intro i
                refine .inr ⟨address, ?_⟩
                rw [hname]
                exact List.mem_append_right _ (List.mem_singleton_self _)
              · left
                simp only at hdispatch
                split at hdispatch
                · exact hdispatch
                · rwa [Function.update_of_ne hname] at hdispatch
          | Q name' => exact .inl hdispatch
  | monitorMaster j =>
      left
      have hmaster : (s.monitorMaster j).globalName = s.globalName := by
        unfold Net.monitorMaster
        cases s.down j <;> rfl
      rw [← hmaster]
      exact h

end Jump.Skynet.GlobalNames
