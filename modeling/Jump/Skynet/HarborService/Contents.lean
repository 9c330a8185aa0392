import Jump.Skynet.HarborService.Code

/-! # What the queues and the names hold

The queues as lists, and the hash map by the names it is asked for.
-/

namespace Jump.Skynet.HarborService

open Jump.Core
open Jump.Skynet.HarborLink

/-! ## Queues -/

/-- The messages of a queue, first one first. -/
def msgs (queue : Option HarborMsgQueue) : List HarborMsg := queue.elim [] RingBuffer.toList

@[simp] theorem msgs_none : msgs none = [] := rfl

@[simp] theorem msgs_some (queue : HarborMsgQueue) : msgs (some queue) = queue.toList := rfl

theorem popQueue_eq (queue : HarborMsgQueue) : popQueue queue = queue.toList :=
  RingBuffer.drain_eq (Nat.le_of_lt queue.length_lt)

theorem releaseQueue_eq (queue : Option HarborMsgQueue) :
    releaseQueue queue = (msgs queue).map fun m => .free m.buffer := by
  cases queue with
  | none => rfl
  | some queue =>
      show (popQueue queue).map _ = _
      rw [popQueue_eq]
      rfl

theorem toList_newQueue : newQueue.toList = [] := rfl

theorem toList_getD (queue : Option HarborMsgQueue) :
    (queue.getD newQueue).toList = msgs queue := by
  cases queue with
  | none => exact toList_newQueue
  | some queue => rfl

/-- One queue poured into another. -/
theorem toList_foldl (more : List HarborMsg) (queue : HarborMsgQueue) :
    (more.foldl RingBuffer.pushReserved queue).toList = queue.toList ++ more := by
  induction more generalizing queue with
  | nil => rw [List.foldl_nil, List.append_nil]
  | cons m more ih =>
      rw [List.foldl_cons, ih, RingBuffer.toList_pushReserved, List.append_assoc,
        List.singleton_append]

/-! ## Names -/

/-- `foo` as a name of 16 bytes. -/
def fooName : Name := bytesOf "foo" ++ List.replicate 13 0

/-- The search takes the two names for one. -/
def Same (a b : Name) : Prop := nameHash a = nameHash b ∧ nameText a = nameText b

instance (a b : Name) : Decidable (Same a b) := inferInstanceAs (Decidable (_ ∧ _))

theorem Same.symm {a b : Name} (h : Same a b) : Same b a := ⟨h.1.symm, h.2.symm⟩

theorem Same.trans {a b c : Name} (h : Same a b) (h' : Same b c) : Same a c :=
  ⟨h.1.trans h'.1, h.2.trans h'.2⟩

theorem matches_iff {n : KeyValue} {name : Name} :
    n.matches name = true ↔ n.hash = nameHash name ∧ nameText n.key = nameText name :=
  decide_eq_true_iff

/-- Two names of one node. -/
theorem matches_same {n : KeyValue} {name other : Name} (h : n.matches name = true) :
    n.matches other = true ↔ Same name other := by
  rw [matches_iff] at h ⊢
  obtain ⟨hhash, hkey⟩ := h
  rw [hhash, hkey]
  exact Iff.rfl

theorem matches_newNode (name : Name) : (newNode name).matches name = true :=
  matches_iff.mpr ⟨rfl, rfl⟩

theorem hashSearch_found {n : KeyValue} {name : Name} (h : n.matches name = true) (map : Hashmap) :
    hashSearch (n :: map) name = some n := List.find?_cons_of_pos h

theorem hashSearch_next {n : KeyValue} {name : Name} (h : ¬n.matches name = true)
    (map : Hashmap) : hashSearch (n :: map) name = hashSearch map name :=
  List.find?_cons_of_neg h

/-- The node of a name. -/
def node (map : Hashmap) (name : Name) : KeyValue := (hashNode map name).1

theorem hashNode_cases (map : Hashmap) (name : Name) :
    (hashSearch map name = some (node map name) ∧ (hashNode map name).2 = map) ∨
      (hashSearch map name = none ∧ node map name = newNode name ∧
        (hashNode map name).2 = newNode name :: map) := by
  unfold node hashNode
  cases hashSearch map name with
  | none => exact .inr ⟨rfl, rfl, rfl⟩
  | some n => exact .inl ⟨rfl, rfl⟩

theorem node_matches (map : Hashmap) (name : Name) : (node map name).matches name = true := by
  rcases hashNode_cases map name with ⟨hfound, -⟩ | ⟨-, hnew, -⟩
  · exact List.find?_some (p := fun n : KeyValue => n.matches name) hfound
  · rw [hnew]
    exact matches_newNode name

/-- The node is in the map that goes on. -/
theorem hashSearch_hashNode (map : Hashmap) (name : Name) :
    hashSearch (hashNode map name).2 name = some (node map name) := by
  rcases hashNode_cases map name with ⟨hfound, hmap⟩ | ⟨-, hnew, hmap⟩
  · rw [hmap, hfound]
  · rw [hmap, hnew]
    exact hashSearch_found (matches_newNode name) map

theorem hashSearch_other {name other : Name} (hne : ¬Same name other) (map : Hashmap) :
    hashSearch (hashNode map name).2 other = hashSearch map other := by
  rcases hashNode_cases map name with ⟨-, hmap⟩ | ⟨-, -, hmap⟩
  · rw [hmap]
  · rw [hmap]
    exact hashSearch_next (fun h => hne ((matches_same (matches_newNode name)).mp h)) map

/-- What is found after a write to a node. -/
theorem hashSearch_write {map : Hashmap} {name : Name} {n n' : KeyValue}
    (hfound : hashSearch map name = some n) (hn' : n'.matches name = true) (other : Name) :
    hashSearch (hashWrite n' name map) other =
      if Same name other then some n' else hashSearch map other := by
  induction map with
  | nil => exact nomatch hfound
  | cons first map ih =>
      unfold hashWrite
      by_cases hfirst : first.matches name = true
      · rw [if_pos hfirst]
        by_cases hsame : Same name other
        · rw [if_pos hsame]
          exact hashSearch_found ((matches_same hn').mpr hsame) map
        · have hnot : ¬n'.matches other = true := fun h => hsame ((matches_same hn').mp h)
          have hnot' : ¬first.matches other = true := fun h => hsame ((matches_same hfirst).mp h)
          rw [if_neg hsame, hashSearch_next hnot, hashSearch_next hnot']
      · rw [hashSearch_next hfirst] at hfound
        rw [if_neg hfirst]
        by_cases hother : first.matches other = true
        · have hsame : ¬Same name other := fun h => hfirst ((matches_same hother).mpr h.symm)
          rw [if_neg hsame, hashSearch_found hother, hashSearch_found hother]
        · rw [hashSearch_next hother, hashSearch_next hother]
          exact ih hfound

theorem node_eq (map : Hashmap) (name : Name) :
    node map name = (hashSearch map name).getD (newNode name) := by
  unfold node hashNode
  cases hashSearch map name <;> rfl

/-- The node of each name after a write. -/
theorem node_write {map : Hashmap} {name : Name} {n' : KeyValue}
    (hn' : n'.matches name = true) (other : Name) :
    node (hashWrite n' name (hashNode map name).2) other =
      if Same name other then n' else node map other := by
  rw [node_eq, hashSearch_write (hashSearch_hashNode map name) hn']
  split
  · rfl
  · rename_i hne
    rw [hashSearch_other hne, ← node_eq]

theorem node_hashNode (map : Hashmap) (name other : Name) :
    (node (hashNode map name).2 other).value = (node map other).value ∧
      (node (hashNode map name).2 other).queue = (node map other).queue := by
  by_cases hsame : Same name other
  · have hboth : ∀ m, hashSearch m name = hashSearch m other := by
      intro m
      unfold hashSearch
      congr 1
      funext n
      rw [Bool.eq_iff_iff, matches_iff, matches_iff, hsame.1, hsame.2]
    rw [node_eq, ← hboth, hashSearch_hashNode, node_eq, node_eq, ← hboth]
    cases hashSearch map name with
    | none => exact ⟨rfl, rfl⟩
    | some n => exact ⟨rfl, rfl⟩
  · rw [node_eq, hashSearch_other hsame, ← node_eq]
    exact ⟨rfl, rfl⟩

theorem node_same {map : Hashmap} {name other : Name} (h : Same name other) :
    (node map name).value = (node map other).value ∧
      (node map name).queue = (node map other).queue := by
  have hboth : hashSearch map name = hashSearch map other := by
    unfold hashSearch
    congr 1
    funext n
    rw [Bool.eq_iff_iff, matches_iff, matches_iff, h.1, h.2]
  rw [node_eq, node_eq, hboth]
  cases hashSearch map other <;> exact ⟨rfl, rfl⟩

namespace Service

/-- The handle of a name; 0 for a name without one. -/
def value (h : Service) (name : Name) : Nat := (node h.map name).value

/-- The messages that wait for the handle of a name. -/
def waiting (h : Service) (name : Name) : List HarborMsg := msgs (node h.map name).queue

/-- The messages that wait for the link to a harbor. -/
def pending (h : Service) (id : Nat) : List HarborMsg := msgs (h.queue id)

end Service

end Jump.Skynet.HarborService
