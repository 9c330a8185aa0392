import Jump.Skynet.DataCenter.Code
import Mathlib.Data.List.Count
import Mathlib.Data.List.Induction

/-! # Waiting

Every request that waits is queued once or answered once, and with nothing but an error or a value
that its path had. Nobody waits for a value that is there, as long as no update gives a table to
those who wait below its path or makes tables for a `nil`, and nobody waits for `false`.
-/

namespace Jump.Skynet.DataCenter

open Jump.Core

/-! ## A step -/

/-- What a request does. -/
inductive Step (s : State) : Request → State → Prop where
  | answered (request : Request) (a : Answer)
      (h : ∀ path, request = .wait path →
        a = .error ∨ ∃ v, a = .returned (some v) ∧ valueAt s.database path = some v) :
      Step s request (s.answer a)
  | queued (key : Scalar) (keys : List Scalar) (ret : Option Value)
      (waitQueue : Scalar → Option Waits) (hquery : commandQuery s.database (key :: keys) = .ok ret)
      (hret : isTrue ret = false) (hwait : waitfor s.waitQueue key keys s.arrived = .ok waitQueue) :
      Step s (.wait (key :: keys)) { s with waitQueue, arrived := s.arrived + 1 }
  | removed (value : Option Value) (key : Scalar) (a : Answer) :
      Step s (.update [] value)
        (State.answer { s with database := Function.update s.database key none } a)
  | written (key : Scalar) (keys : List Scalar) (value ret : Option Value) (database : Table)
      (a : Answer) (hupdate : update s.database key keys value = .ok (database, ret))
      (h : isTrue ret = true ∨ value = none) :
      Step s (.update (key :: keys) value) (State.answer { s with database } a)
  | woken (key : Scalar) (keys : List Scalar) (value : Value) (ret : Option Value)
      (database : Table) (w : Wakeup) (a : Answer)
      (hupdate : update s.database key keys (some value) = .ok (database, ret))
      (hwakeup : w = wakeup s.waitQueue (key :: keys) value) :
      Step s (.update (key :: keys) (some value))
        (State.answer
          { s with
            database
            waitQueue := w.waitQueue
            answers := s.answers ++
              (w.thrown.map (·, .error) ++ w.returned.map (·, .returned (some value))) } a)

theorem valueAt_of_isTrue {database : Table} {path : List Scalar} {ret : Option Value}
    (hquery : commandQuery database path = .ok ret) (hret : isTrue ret = true) :
    ∃ v, ret = some v ∧ valueAt database path = some v := by
  cases ret with
  | none => cases hret
  | some v => exact ⟨v, rfl, ((commandQuery_eq_some database path v).mp hquery).2.1⟩

variable {packs : Value → Bool}

theorem reply_some (v : Value) :
    reply packs (.ok (some v)) = .error ∨ reply packs (.ok (some v)) = .returned (some v) := by
  rw [reply]
  split
  · exact .inr rfl
  · exact .inl rfl

theorem commandUpdate_step {s : State} {path : List Scalar} {value : Option Value} {u : Updated}
    (h : commandUpdate s path value = .ok u) (a : Answer) :
    Step s (.update path value)
      (State.answer
        { s with
          database := u.database
          waitQueue := u.waitQueue
          answers := s.answers ++ u.sent } a) := by
  cases path with
  | nil =>
      cases value with
      | none => cases h
      | some value =>
          cases value with
          | node children =>
              cases h
              rw [List.append_nil]
              exact .answered _ a nofun
          | leaf l =>
              cases l with
              | nan => cases h
              | scalar key =>
                  cases h
                  rw [List.append_nil]
                  exact .removed _ key a
  | cons key keys =>
      rw [commandUpdate] at h
      cases hupdate : update s.database key keys value with
      | stuck =>
          rw [hupdate] at h
          cases h
      | fail e =>
          rw [hupdate] at h
          cases h
      | ok r =>
          obtain ⟨database, ret⟩ := r
          rw [hupdate, Outcome.ok_bind] at h
          cases hret : isTrue ret with
          | true =>
              simp only [hret] at h
              cases h
              rw [List.append_nil]
              exact .written key keys value ret database a hupdate (.inl hret)
          | false =>
              cases value with
              | none =>
                  simp only [hret] at h
                  cases h
                  rw [List.append_nil]
                  exact .written key keys none ret database a hupdate (.inr rfl)
              | some value =>
                  simp only [hret] at h
                  cases h
                  exact .woken key keys value ret database _ a hupdate rfl

theorem dispatch_step (s : State) (request : Request) :
    Step s request (dispatch packs s request) := by
  cases request with
  | query path => exact .answered _ _ nofun
  | update path value =>
      unfold dispatch
      dsimp only
      split
      · rename_i u hu
        exact commandUpdate_step hu _
      · exact .answered _ _ nofun
      · exact .answered _ _ nofun
  | wait path =>
      unfold dispatch
      dsimp only
      split
      · rename_i ret hquery
        split
        · rename_i hret
          obtain ⟨v, rfl, hv⟩ := valueAt_of_isTrue hquery hret
          refine .answered _ _ fun path' hpath => ?_
          cases hpath
          exact (reply_some v).imp_right fun h => ⟨v, h, hv⟩
        · rename_i hret
          cases path with
          | nil => exact .answered _ _ fun _ _ => .inl rfl
          | cons key keys =>
              dsimp only
              split
              · rename_i waitQueue hwait
                exact .queued key keys ret waitQueue hquery (Bool.eq_false_iff.mpr hret) hwait
              · exact .answered _ _ fun _ _ => .inl rfl
              · exact .answered _ _ fun _ _ => .inl rfl
      · exact .answered _ _ fun _ _ => .inl rfl
      · exact .answered _ _ fun _ _ => .inl rfl

/-! ## What the answers are -/

/-- The answers to a request. -/
def sentTo (answers : List (Nat × Answer)) (id : Nat) : List Answer :=
  answers.filterMap fun a => if a.1 = id then some a.2 else none

theorem sentTo_append (before after : List (Nat × Answer)) (id : Nat) :
    sentTo (before ++ after) id = sentTo before id ++ sentTo after id := List.filterMap_append

theorem sentTo_singleton (id : Nat) (a : Answer) : sentTo [(id, a)] id = [a] := by
  simp [sentTo]

theorem sentTo_eq_nil {answers : List (Nat × Answer)} {id : Nat}
    (h : ∀ a ∈ answers, a.1 ≠ id) : sentTo answers id = [] :=
  List.filterMap_eq_nil_iff.mpr fun a ha => if_neg (h a ha)

theorem mem_sentTo {answers : List (Nat × Answer)} {id : Nat} {a : Answer} :
    a ∈ sentTo answers id ↔ (id, a) ∈ answers := by
  constructor
  · intro h
    obtain ⟨⟨i, b⟩, hmem, hb⟩ := List.mem_filterMap.mp h
    split at hb
    · rename_i hi
      obtain rfl := Option.some.inj hb
      obtain rfl : i = id := hi
      exact hmem
    · cases hb
  · exact fun h => List.mem_filterMap.mpr ⟨_, h, if_pos rfl⟩

theorem length_sentTo_map (q : List Nat) (a : Answer) (id : Nat) :
    (sentTo (q.map (·, a)) id).length = q.count id := by
  induction q with
  | nil => rfl
  | cons i q ih =>
      rw [List.map_cons, ← List.singleton_append, sentTo_append, List.length_append, ih,
        List.count_cons]
      by_cases hi : i = id
      · subst hi
        rw [sentTo_singleton]
        simp [Nat.add_comm]
      · rw [sentTo_eq_nil (by simpa using hi)]
        simp [hi]

/-- The requests that are queued, and how often each one is queued or answered. -/
structure Counted (requests : List Request) (s : State) : Prop where
  arrived : s.arrived = requests.length
  queued : ∀ id path, id ∈ queuedAt s.waitQueue path → requests[id]? = some (.wait path)
  sent : ∀ a ∈ s.answers, a.1 < requests.length
  once : ∀ id path, requests[id]? = some (.wait path) →
    (queuedAt s.waitQueue path).count id + (sentTo s.answers id).length = 1

/-- What a step sends: each answer goes to the last request or to one that waited until then, and
a value lies at the path of the one who gets it. -/
structure Sends (requests : List Request) (s : State) (request : Request) (s' : State)
    (sent : List (Nat × Answer)) : Prop where
  arrived : s'.arrived = s.arrived + 1
  answers : s'.answers = s.answers ++ sent
  known : ∀ a ∈ sent, a.1 ≤ requests.length
  queued : ∀ id path, id ∈ queuedAt s'.waitQueue path →
    id ∈ queuedAt s.waitQueue path ∨ id = requests.length ∧ request = .wait path
  old : ∀ id path, requests[id]? = some (.wait path) →
    (queuedAt s'.waitQueue path).count id + (sentTo sent id).length =
      (queuedAt s.waitQueue path).count id
  new : ∀ path, request = .wait path →
    (queuedAt s'.waitQueue path).count requests.length + (sentTo sent requests.length).length = 1
  held : ∀ id path a, (requests ++ [request])[id]? = some (.wait path) → (id, a) ∈ sent →
    a = .error ∨ ∃ v, a = .returned (some v) ∧ valueAt s'.database path = some v

section Sends

variable {requests : List Request} {s s' : State} {request : Request}
  {sent : List (Nat × Answer)}

theorem getElem?_lt {id : Nat} {r : Request} (h : requests[id]? = some r) :
    id < requests.length := (List.getElem?_eq_some_iff.mp h).1

theorem Counted.not_queued (h : Counted requests s) (path : List Scalar) :
    requests.length ∉ queuedAt s.waitQueue path := by
  intro hmem
  have := getElem?_lt (h.queued _ _ hmem)
  omega

theorem Counted.snoc (h : Counted requests s) (hs : Sends requests s request s' sent) :
    Counted (requests ++ [request]) s' where
  arrived := by rw [hs.arrived, h.arrived, List.length_append, List.length_singleton]
  queued id path hmem := by
    obtain hold | ⟨hid, hrequest⟩ := hs.queued id path hmem
    · have hget := h.queued id path hold
      rw [List.getElem?_append_left (getElem?_lt hget), hget]
    · rw [hid, List.getElem?_concat_length, hrequest]
  sent a ha := by
    rw [hs.answers, List.mem_append] at ha
    rw [List.length_append, List.length_singleton]
    obtain ha | ha := ha
    · have := h.sent a ha
      omega
    · have := hs.known a ha
      omega
  once id path hget := by
    rw [hs.answers, sentTo_append, List.length_append]
    by_cases hid : id < requests.length
    · rw [List.getElem?_append_left hid] at hget
      have hold := hs.old id path hget
      have honce := h.once id path hget
      omega
    · have hlt := getElem?_lt hget
      rw [List.length_append, List.length_singleton] at hlt
      obtain rfl : id = requests.length := by omega
      rw [List.getElem?_concat_length] at hget
      have hnew := hs.new path (Option.some.inj hget)
      rw [sentTo_eq_nil fun a ha => (h.sent a ha).ne, List.length_nil, Nat.zero_add]
      exact hnew

/-- The last request alone is answered, and the queues stay. -/
theorem sends_answer (h : Counted requests s) (database : Table) (a : Answer)
    (hheld : ∀ path, request = .wait path →
      a = .error ∨ ∃ v, a = .returned (some v) ∧ valueAt database path = some v) :
    Sends requests s request (State.answer { s with database } a) [(requests.length, a)] where
  arrived := rfl
  answers := by rw [← h.arrived]; rfl
  known b hb := by
    obtain rfl := List.mem_singleton.mp hb
    exact le_rfl
  queued id path hmem := .inl hmem
  old id path hget := by
    have hne : requests.length ≠ id := (getElem?_lt hget).ne'
    rw [sentTo_eq_nil (by simpa using hne)]
    rfl
  new path hpath := by
    rw [sentTo_singleton]
    have hnot : requests.length ∉ queuedAt s.waitQueue path := h.not_queued path
    simp [State.answer, List.count_eq_zero_of_not_mem hnot]
  held id path b hget hmem := by
    obtain ⟨rfl, rfl⟩ := Prod.mk.inj (List.mem_singleton.mp hmem)
    rw [List.getElem?_concat_length] at hget
    exact hheld path (Option.some.inj hget)

theorem sends_queued (h : Counted requests s) {key : Scalar} {keys : List Scalar}
    {waitQueue : Scalar → Option Waits}
    (hwait : waitfor s.waitQueue key keys s.arrived = .ok waitQueue) :
    Sends requests s (.wait (key :: keys)) { s with waitQueue, arrived := s.arrived + 1 } [] where
  arrived := rfl
  answers := (List.append_nil _).symm
  known := nofun
  queued id path hmem := by
    rw [waitfor_queuedAt hwait] at hmem
    split at hmem
    · rename_i hpath
      rw [hpath, List.mem_append, List.mem_singleton, h.arrived] at hmem
      rw [hpath]
      exact hmem.imp_right fun hid => ⟨hid, rfl⟩
    · exact .inl hmem
  old id path hget := by
    have hne : requests.length ≠ id := (getElem?_lt hget).ne'
    dsimp only
    rw [waitfor_queuedAt hwait, h.arrived]
    split
    · simp [List.count_append, hne, sentTo]
    · rfl
  new path hpath := by
    obtain rfl := Request.wait.inj hpath
    dsimp only
    rw [waitfor_queuedAt hwait, if_pos rfl, List.count_append, h.arrived,
      List.count_eq_zero_of_not_mem (h.not_queued _)]
    simp [sentTo]
  held := nofun

theorem sends_woken (h : Counted requests s) {key : Scalar} {keys : List Scalar} {value : Value}
    {ret : Option Value} {database : Table}
    (hupdate : update s.database key keys (some value) = .ok (database, ret)) (a : Answer)
    {w : Wakeup} (hwakeup : w = wakeup s.waitQueue (key :: keys) value) :
    Sends requests s (.update (key :: keys) (some value))
      (State.answer
        { s with
          database
          waitQueue := w.waitQueue
          answers := s.answers ++
            (w.thrown.map (·, .error) ++ w.returned.map (·, .returned (some value))) } a)
      (w.thrown.map (·, .error) ++ w.returned.map (·, .returned (some value)) ++
        [(requests.length, a)]) := by
  obtain ⟨place, htakes⟩ := wakeup_takes s.waitQueue (key :: keys) value
  rw [← hwakeup] at htakes
  obtain ⟨hqueue, hreturned, hthrown⟩ := htakes
  have hplace : ∀ id, id ∈ w.thrown ∨ id ∈ w.returned → id ∈ queuedAt s.waitQueue place := by
    rw [hreturned, hthrown]
    intro id hid
    split at hid <;> simpa using hid
  have hcount : ∀ id, w.thrown.count id + w.returned.count id =
      (queuedAt s.waitQueue place).count id := by
    rw [hreturned, hthrown]
    intro id
    split <;> simp
  constructor
  · rfl
  · rw [← h.arrived]
    exact List.append_assoc _ _ _
  · intro b hb
    simp only [List.mem_append, List.mem_map, List.mem_singleton] at hb
    obtain (⟨id, hid, rfl⟩ | ⟨id, hid, rfl⟩) | rfl := hb
    · exact (getElem?_lt (h.queued _ _ (hplace id (.inl hid)))).le
    · exact (getElem?_lt (h.queued _ _ (hplace id (.inr hid)))).le
    · exact le_rfl
  · intro id path hmem
    dsimp only [State.answer] at hmem
    rw [hqueue] at hmem
    split at hmem
    · cases hmem
    · exact .inl hmem
  · intro id path hget
    have hne : requests.length ≠ id := (getElem?_lt hget).ne'
    have hlast : sentTo [(requests.length, a)] id = [] := sentTo_eq_nil (by simpa using hne)
    rw [sentTo_append, sentTo_append, hlast, List.append_nil, List.length_append,
      length_sentTo_map, length_sentTo_map, hcount]
    dsimp only [State.answer]
    rw [hqueue]
    split
    · rename_i hpath
      rw [hpath, List.count_nil, Nat.zero_add]
    · rename_i hpath
      -- who waits at one place does not wait at another one
      have hzero : (queuedAt s.waitQueue place).count id = 0 := by
        refine List.count_eq_zero_of_not_mem fun hmem => ?_
        have hother := h.queued id place hmem
        rw [hget] at hother
        exact hpath (Request.wait.inj (Option.some.inj hother))
      rw [hzero, Nat.add_zero]
  · exact nofun
  · intro id path b hget hmem
    simp only [List.mem_append, List.mem_map, List.mem_singleton, Prod.mk.injEq] at hmem
    obtain (⟨id', hid, rfl, rfl⟩ | ⟨id', hid, rfl, rfl⟩) | ⟨rfl, rfl⟩ := hmem
    · exact .inl rfl
    · have hwait := h.queued id' place (hplace id' (.inr hid))
      rw [List.getElem?_append_left (getElem?_lt hwait), hwait] at hget
      obtain rfl := Request.wait.inj (Option.some.inj hget)
      have hend : place = key :: keys := by
        by_contra hne
        rw [hreturned, if_neg hne] at hid
        cases hid
      rw [hend]
      exact .inr ⟨value, rfl, PathTree.find_put (update_put _ _ _ _ _ hupdate).1⟩
    · rw [List.getElem?_concat_length] at hget
      cases hget

theorem step_sends (h : Counted requests s) (hstep : Step s request s') :
    ∃ sent, Sends requests s request s' sent := by
  cases hstep with
  | answered _ a hheld => exact ⟨_, sends_answer h s.database a hheld⟩
  | queued key keys ret waitQueue hquery hret hwait => exact ⟨_, sends_queued h hwait⟩
  | removed value key a => exact ⟨_, sends_answer h _ a nofun⟩
  | written key keys value ret database a hupdate hret => exact ⟨_, sends_answer h _ a nofun⟩
  | woken key keys value ret database w a hupdate hwakeup =>
      exact ⟨_, sends_woken h hupdate a hwakeup⟩

end Sends

theorem run_snoc (requests : List Request) (request : Request) :
    run packs (requests ++ [request]) = dispatch packs (run packs requests) request := by
  rw [run, List.foldl_append]
  rfl

theorem queuedAt_start (path : List Scalar) : queuedAt State.start.waitQueue path = [] := by
  cases path with
  | nil => rfl
  | cons key path => exact congrArg queueOf (PathTree.find_none path)

theorem run_step (requests : List Request) (request : Request) :
    Step (run packs requests) request (run packs (requests ++ [request])) := by
  rw [run_snoc]
  exact dispatch_step _ request

theorem run_counted (requests : List Request) : Counted requests (run packs requests) := by
  induction requests using List.reverseRecOn with
  | nil =>
      refine ⟨rfl, fun id path hmem => ?_, nofun, nofun⟩
      rw [run, List.foldl_nil, queuedAt_start] at hmem
      cases hmem
  | append_singleton requests request ih =>
      obtain ⟨sent, hsent⟩ := step_sends ih (run_step requests request)
      exact ih.snoc hsent

/-- A request that waits is answered with an error or with a value that its path had. -/
theorem run_held (requests : List Request) {id : Nat} {path : List Scalar} {a : Answer}
    (hget : requests[id]? = some (.wait path)) (ha : a ∈ sentTo (run packs requests).answers id) :
    a = .error ∨ ∃ v before, a = .returned (some v) ∧ before <+: requests ∧
      valueAt (run packs before).database path = some v := by
  induction requests using List.reverseRecOn with
  | nil => cases hget
  | append_singleton requests request ih =>
      have hcounted : Counted requests (run packs requests) := run_counted requests
      obtain ⟨sent, hsent⟩ := step_sends hcounted (run_step requests request)
      rw [hsent.answers, sentTo_append, List.mem_append] at ha
      obtain ha | ha := ha
      · have hlt : id < requests.length := hcounted.sent _ (mem_sentTo.mp ha)
        rw [List.getElem?_append_left hlt] at hget
        exact (ih hget ha).imp_right fun ⟨v, before, hv, hbefore, hvalue⟩ =>
          ⟨v, before, hv, hbefore.trans (List.prefix_append _ _), hvalue⟩
      · exact (hsent.held id path a hget (mem_sentTo.mp ha)).imp_right fun ⟨v, hv, hvalue⟩ =>
          ⟨v, _, hv, List.prefix_rfl, hvalue⟩

/-! ## Who waits -/

/-- Nobody waits at a path for which `QUERY` returns a value. -/
def Ready (s : State) : Prop :=
  ∀ path v, queuedAt s.waitQueue path ≠ [] → commandQuery s.database path ≠ .ok (some v)

/-- A step after which nobody waits in vain. An update must not give a value to those who wait
below its path, nor, when it deletes, make tables for those who wait above; and who waits for
`false` must not be queued. -/
def Meets (s : State) : Request → Prop
  | .query _ => True
  | .update [] _ => True
  | .update (key :: keys) value =>
      Blocked s.database (key :: keys) ∨
        (∀ more, more ≠ [] → queuedAt s.waitQueue (key :: keys ++ more) ≠ [] →
          PathTree.find value more = none) ∧
        (value = none → ∀ above more, above ++ more = key :: keys → more ≠ [] →
          queuedAt s.waitQueue above = [])
  | .wait path =>
      commandQuery s.database path = .ok (some (.leaf (.scalar (.boolean false)))) →
        Taken s.waitQueue path

section Ready

variable {s s' : State} {request : Request} {database : Table} {key : Scalar}
  {keys path : List Scalar} {value ret : Option Value} {v : Value}

/-- What `QUERY` does not return from a place that an update leaves alone, it does not return
afterwards. -/
theorem not_returned_of_put (hput : PathTree.put s.database key keys value = some database)
    (hbefore : ∀ v, commandQuery s.database path ≠ .ok (some v)) (habove : ¬ path <+: key :: keys)
    (hbelow : ∀ more, more ≠ [] → path = key :: keys ++ more → PathTree.find value more = none) :
    commandQuery database path ≠ .ok (some v) := by
  intro h
  obtain ⟨hne, hvalue, hfirst⟩ := (commandQuery_eq_some database path v).mp h
  by_cases hpart : key :: keys <+: path
  · obtain ⟨more, rfl⟩ := hpart
    have hmore : more ≠ [] := by
      rintro rfl
      exact habove (by rw [List.append_nil])
    rw [valueAt, PathTree.find_put_append hput, hbelow more hmore rfl] at hvalue
    cases hvalue
  · rw [valueAt, PathTree.find_put_of_not_prefix hput hpart habove] at hvalue
    exact hbefore v ((commandQuery_eq_some s.database path v).mpr ⟨hne, hvalue, hfirst⟩)

/-- Where an update finds something, `QUERY` finds something at its path and above. -/
theorem returned_of_isTrue (hret : isTrue (valueAt s.database (key :: keys)) = true)
    (hne : path ≠ []) (habove : path <+: key :: keys) :
    ∃ v, commandQuery s.database path = .ok (some v) := by
  obtain ⟨more, happend⟩ := habove
  cases hfound : valueAt s.database (key :: keys) with
  | none =>
      rw [hfound] at hret
      cases hret
  | some found =>
      by_cases hmore : more = []
      · rw [hmore, List.append_nil] at happend
        rw [hfound] at hret
        rw [happend]
        exact ⟨found, (commandQuery_eq_some _ _ _).mpr ⟨nofun, hfound, fun _ => hret⟩⟩
      · rw [← happend] at hfound
        obtain ⟨children, hnode⟩ := PathTree.exists_node_of_find_append hfound hmore
        exact ⟨_, (commandQuery_eq_some _ _ _).mpr ⟨hne, hnode, fun _ => rfl⟩⟩

theorem eq_false_of_isTrue (h : isTrue (some v) = false) :
    v = .leaf (.scalar (.boolean false)) := by
  unfold isTrue at h
  split at h
  · contradiction
  · rename_i b heq
    cases heq
    rw [h]
  · cases h

theorem ne_nil_of_queued {waitQueue : Scalar → Option Waits} (h : queuedAt waitQueue path ≠ []) :
    path ≠ [] := by
  rintro rfl
  exact h rfl

theorem ready_queued (h : Ready s) (hmeets : Meets s (.wait (key :: keys)))
    {waitQueue : Scalar → Option Waits}
    (hquery : commandQuery s.database (key :: keys) = .ok ret) (hret : isTrue ret = false)
    (hwait : waitfor s.waitQueue key keys s.arrived = .ok waitQueue) :
    Ready { s with waitQueue, arrived := s.arrived + 1 } := by
  intro path v hqueued
  dsimp only at hqueued ⊢
  rw [waitfor_queuedAt hwait] at hqueued
  split at hqueued
  · rename_i hpath
    rw [hpath, hquery]
    rintro hv
    obtain rfl := Outcome.ok.inj hv
    rw [eq_false_of_isTrue hret] at hquery
    exact waitfor_not_taken hwait (hmeets hquery)
  · exact h path v hqueued

theorem ready_removed (h : Ready s) (key : Scalar) (a : Answer) :
    Ready (State.answer { s with database := Function.update s.database key none } a) := by
  intro path v hqueued hquery
  obtain ⟨hne, hvalue, hfirst⟩ := (commandQuery_eq_some _ path v).mp hquery
  cases path with
  | nil => exact hne rfl
  | cons other path =>
      by_cases hother : other = key
      · rw [valueAt, hother, State.answer, PathTree.find_update_self, PathTree.find_none] at hvalue
        cases hvalue
      · rw [valueAt, State.answer, PathTree.find_update_of_ne _ hother] at hvalue
        exact h _ v hqueued ((commandQuery_eq_some _ _ v).mpr ⟨hne, hvalue, hfirst⟩)

theorem ready_written (h : Ready s) (hmeets : Meets s (.update (key :: keys) value))
    (hupdate : update s.database key keys value = .ok (database, ret))
    (hret : isTrue ret = true ∨ value = none) (a : Answer) :
    Ready (State.answer { s with database } a) := by
  intro path v hqueued
  dsimp only [State.answer] at hqueued ⊢
  obtain ⟨hput, rfl⟩ := update_put _ _ _ _ _ hupdate
  obtain ⟨hbelow, hnil⟩ := hmeets.resolve_left (update_not_blocked hupdate)
  have hbefore : ∀ v, commandQuery s.database path ≠ .ok (some v) := fun v => h path v hqueued
  by_cases habove : path <+: key :: keys
  · obtain htrue | rfl := hret
    · obtain ⟨found, hfound⟩ := returned_of_isTrue htrue (ne_nil_of_queued hqueued) habove
      exact absurd hfound (hbefore found)
    · obtain ⟨more, happend⟩ := habove
      by_cases hmore : more = []
      · rw [hmore, List.append_nil] at happend
        intro hquery
        have hvalue := ((commandQuery_eq_some _ _ v).mp hquery).2.1
        rw [happend, valueAt, PathTree.find_put hput] at hvalue
        cases hvalue
      · exact absurd (hnil rfl path more happend hmore) hqueued
  · refine not_returned_of_put hput hbefore habove fun more hmore hpath => hbelow more hmore ?_
    rwa [← hpath]

theorem ready_woken (h : Ready s) {value : Value}
    (hmeets : Meets s (.update (key :: keys) (some value)))
    (hupdate : update s.database key keys (some value) = .ok (database, ret)) {w : Wakeup}
    (hwakeup : w = wakeup s.waitQueue (key :: keys) value) (answers : List (Nat × Answer))
    (a : Answer) :
    Ready (State.answer { s with database, waitQueue := w.waitQueue, answers } a) := by
  intro path v hqueued
  dsimp only [State.answer] at hqueued ⊢
  have habove : ¬ path <+: key :: keys := by
    intro habove
    rw [hwakeup, wakeup_clears _ _ habove] at hqueued
    exact hqueued rfl
  have hbefore : queuedAt s.waitQueue path ≠ [] := by
    obtain ⟨place, hqueue, -⟩ := wakeup_takes s.waitQueue (key :: keys) value
    rw [hwakeup, hqueue] at hqueued
    split at hqueued
    · exact absurd rfl hqueued
    · exact hqueued
  obtain ⟨hbelow, -⟩ := hmeets.resolve_left (update_not_blocked hupdate)
  refine not_returned_of_put (update_put _ _ _ _ _ hupdate).1 (fun v => h path v hbefore) habove
    fun more hmore hpath => hbelow more hmore ?_
  rwa [← hpath]

theorem Ready.step (h : Ready s) (hmeets : Meets s request) (hstep : Step s request s') :
    Ready s' := by
  cases hstep with
  | answered _ a hheld => exact h
  | queued key keys ret waitQueue hquery hret hwait =>
      exact ready_queued h hmeets hquery hret hwait
  | removed value key a => exact ready_removed h key a
  | written key keys value ret database a hupdate hret =>
      exact ready_written h hmeets hupdate hret a
  | woken key keys value ret database w a hupdate hwakeup =>
      exact ready_woken h hmeets hupdate hwakeup _ a

end Ready

variable (packs) in
/-- A run whose steps all meet the condition. -/
def RunMeets (requests : List Request) : Prop :=
  ∀ before request, before ++ [request] <+: requests → Meets (run packs before) request

variable {requests : List Request}

theorem RunMeets.mono (h : RunMeets packs requests) {before : List Request}
    (hbefore : before <+: requests) : RunMeets packs before :=
  fun _ request hpart => h _ request (hpart.trans hbefore)

theorem run_ready (h : RunMeets packs requests) : Ready (run packs requests) := by
  induction requests using List.reverseRecOn with
  | nil =>
      intro path v hqueued
      exact absurd (queuedAt_start path) hqueued
  | append_singleton requests request ih =>
      have hbefore := ih (h.mono (List.prefix_append _ _))
      exact hbefore.step (h requests request List.prefix_rfl) (run_step requests request)

variable (packs) in
/-- What waiting promises after some requests. A request that waits is queued once and not
answered, or answered once and not queued. `QUERY` returns no value for the path of one that is
queued, and an update that makes it return one answers who waited until then. The answer is an
error or a value that the path had. -/
structure Served (requests : List Request) : Prop where
  once : ∀ id path, requests[id]? = some (.wait path) →
    (queuedAt (run packs requests).waitQueue path).count id +
      (sentTo (run packs requests).answers id).length = 1
  ready : ∀ id path v, id ∈ queuedAt (run packs requests).waitQueue path →
    commandQuery (run packs requests).database path ≠ .ok (some v)
  woken : ∀ before request id path v, requests = before ++ [request] →
    id ∈ queuedAt (run packs before).waitQueue path →
    commandQuery (run packs requests).database path = .ok (some v) →
    (∃ keys value, request = .update keys value) ∧ sentTo (run packs before).answers id = [] ∧
      ∃ a, sentTo (run packs requests).answers id = [a]
  held : ∀ id path a, requests[id]? = some (.wait path) →
    a ∈ sentTo (run packs requests).answers id →
    a = .error ∨ ∃ v before, a = .returned (some v) ∧ before <+: requests ∧
      valueAt (run packs before).database path = some v

/-- Only an update changes what `QUERY` returns. -/
theorem update_of_returned {s s' : State} {request : Request} {path : List Scalar} {v : Value}
    (hstep : Step s request s') (hbefore : commandQuery s.database path ≠ .ok (some v))
    (hafter : commandQuery s'.database path = .ok (some v)) :
    ∃ keys value, request = .update keys value := by
  cases hstep with
  | answered _ a hheld => exact absurd hafter hbefore
  | queued key keys ret waitQueue hquery hret hwait => exact absurd hafter hbefore
  | removed value key a => exact ⟨_, _, rfl⟩
  | written key keys value ret database a hupdate hret => exact ⟨_, _, rfl⟩
  | woken key keys value ret database w a hupdate hwakeup => exact ⟨_, _, rfl⟩

theorem woken_once (h : RunMeets packs requests) {before : List Request} {request : Request}
    {id : Nat} {path : List Scalar} {v : Value} (hlast : requests = before ++ [request])
    (hqueued : id ∈ queuedAt (run packs before).waitQueue path)
    (hquery : commandQuery (run packs requests).database path = .ok (some v)) :
    (∃ keys value, request = .update keys value) ∧ sentTo (run packs before).answers id = [] ∧
      ∃ a, sentTo (run packs requests).answers id = [a] := by
  have hpart : before <+: requests := hlast ▸ List.prefix_append _ _
  have hcounted : Counted before (run packs before) := run_counted before
  have hget := hcounted.queued id path hqueued
  have honce := hcounted.once id path hget
  have hcount := List.count_pos_iff.mpr hqueued
  have hready := run_ready (h.mono hpart)
  refine ⟨?_, List.eq_nil_of_length_eq_zero (by omega), ?_⟩
  · rw [hlast] at hquery
    exact update_of_returned (run_step before request)
      (hready path v (List.ne_nil_of_mem hqueued)) hquery
  · have hlater : requests[id]? = some (.wait path) := by
      rw [hlast, List.getElem?_append_left (getElem?_lt hget), hget]
    have hnobody : queuedAt (run packs requests).waitQueue path = [] := by
      by_contra hne
      exact run_ready h path v hne hquery
    have hafter : Counted requests (run packs requests) := run_counted requests
    have hsent := hafter.once id path hlater
    rw [hnobody, List.count_nil, Nat.zero_add] at hsent
    exact List.length_eq_one_iff.mp hsent

/-- After every part of a run whose steps meet the condition, waiting keeps its promises. -/
theorem waits_served (packs : Value → Bool) (requests : List Request)
    (h : ∀ before request, before ++ [request] <+: requests →
      Meets (run packs before) request) (reached : List Request) (hreached : reached <+: requests) :
    Served packs reached := by
  have hrun : RunMeets packs reached := RunMeets.mono h hreached
  exact {
    once := (run_counted reached).once
    ready := fun id path v hid => run_ready hrun path v (List.ne_nil_of_mem hid)
    woken := fun before request id path v => woken_once hrun
    held := fun id path a => run_held reached }

/-- The table `{b = b}`. -/
def sampleTable (b : Int64) : Value :=
  .node fun key => if key = .string "b" then some (.leaf (.scalar (.integer b))) else none

/-- Who waits at `a`, `b` stays queued when `a` gets the table `{b = 1}`. -/
theorem table_leaves_waiting :
    ¬ Served (fun _ => true)
      [.wait [.string "a", .string "b"], .update [.string "a"] (some (sampleTable 1))] := by
  intro h
  have hqueued : 0 ∈ queuedAt (run (fun _ => true)
      [.wait [.string "a", .string "b"],
        .update [.string "a"] (some (sampleTable 1))]).waitQueue [.string "a", .string "b"] := by
    decide
  exact h.ready 0 _ (.leaf (.scalar (.integer 1))) hqueued rfl

theorem RunMeets.snoc (h : RunMeets packs requests) {request : Request}
    (hlast : Meets (run packs requests) request) : RunMeets packs (requests ++ [request]) := by
  intro before next hpart
  obtain heq | hpart := List.prefix_concat_iff.mp hpart
  · obtain ⟨rfl, hnext⟩ := List.append_inj' heq rfl
    obtain rfl := List.singleton_inj.mp hnext
    exact hlast
  · exact h before next hpart

/-- A wait, the update of its path, and a wait that is answered at once. -/
def sampleRun : List Request :=
  [.wait [.string "a", .string "b"],
    .update [.string "a", .string "b"] (some (.leaf (.scalar (.integer 1)))),
    .wait [.string "a"]]

theorem sampleRun_meets : RunMeets (fun _ => true) sampleRun := by
  have hstart : RunMeets (fun _ => true) [] := by
    intro before request hpart
    simp at hpart
  have hwait : RunMeets (fun _ => true) (sampleRun.take 1) := hstart.snoc nofun
  have hupdate : RunMeets (fun _ => true) (sampleRun.take 2) := by
    refine hwait.snoc (.inr ⟨fun more hmore _ => ?_, nofun⟩)
    cases more with
    | nil => exact absurd rfl hmore
    | cons key more => rfl
  refine hupdate.snoc fun hfalse => ?_
  cases hfalse

theorem waits_served_sample : Served (fun _ => true) sampleRun :=
  waits_served (fun _ => true) sampleRun sampleRun_meets sampleRun List.prefix_rfl

end Jump.Skynet.DataCenter
