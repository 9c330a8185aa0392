import Jump.Core.Outcome
import Jump.Core.PathTree

/-! # The data centre

`datacenterd.lua`. A table of values and a table of those who wait are two trees under paths of
keys. An update answers those who wait at the path that it writes, and throws those away that it
meets on the way.
-/

namespace Jump.Skynet.DataCenter

open Jump.Core

section Code

/-- A key of a table. As a key, a float with an integer value is that integer. -/
inductive Scalar where
  | boolean (b : Bool)
  | integer (n : Int64)
  | float (bits : UInt64)
  | string (s : String)
deriving DecidableEq

/-- A value that is no table: one that may be a key, or the float that is not equal to itself. -/
inductive Atom where
  | scalar (s : Scalar)
  | nan
deriving DecidableEq

abbrev Value := PathTree Scalar Atom

abbrev Table := Scalar → Option Value

/-- A queue of those who wait (`[mode] = "queue"`) or a branch. -/
abbrev Waits := PathTree Scalar (List Nat)

inductive Fault where
  | indexed
  | function
  | nilKey
  | nanKey
  | notAQueue
  | notABranch
deriving DecidableEq

abbrev M := Outcome Fault

/-- What a string has at a key: the functions of the string library. -/
def stringMethods : List String :=
  ["byte", "char", "dump", "find", "format", "gmatch", "gsub", "len", "lower", "match", "pack",
    "packsize", "rep", "reverse", "sub", "unpack", "upper"]

/-- A value that counts as true. -/
def isTrue : Option Value → Bool
  | none => false
  | some (.leaf (.scalar (.boolean b))) => b
  | some _ => true

/-- `db[key]`. A function can neither be indexed nor sent. -/
def index : Value → Scalar → M (Option Value)
  | .node db, key => .ok (db key)
  | .leaf (.scalar (.string _)), .string name =>
      if name ∈ stringMethods then .fail .function else .ok none
  | .leaf (.scalar (.string _)), _ => .ok none
  | .leaf _, _ => .fail .indexed

/-- `query` -/
def query : Option Value → List Scalar → M (Option Value)
  | db, [] => .ok db
  | none, _ :: _ => .fail .indexed
  | some db, key :: keys => do
      let d ← index db key
      query d keys

/-- `command.QUERY` -/
def commandQuery (database : Table) : List Scalar → M (Option Value)
  | [] => .ok none
  | key :: keys => if isTrue (database key) then query (database key) keys else .ok none

/-- `update`. Below a table that it made itself it does not fail, so a failure changes nothing. -/
def update (db : Table) (key : Scalar) :
    List Scalar → Option Value → M (Table × Option Value)
  | [], value => .ok (Function.update db key value, db key)
  | next :: keys, value =>
      match PathTree.inner (db key) with
      | none => .fail .indexed
      | some inner => do
          let (inner, ret) ← update inner next keys value
          .ok (Function.update db key (some (.node inner)), ret)

/-- What `wakeup` leaves, the queue that it returns, and those to whom it answers an error. -/
structure Wakeup where
  waitQueue : Scalar → Option Waits
  returned : List Nat
  thrown : List Nat

/-- `wakeup`, whose arguments are the keys with the value behind them. At a queue, one argument is
left when that is the value. -/
def wakeup (db : Scalar → Option Waits) : List Scalar → Value → Wakeup
  | [], .leaf (.scalar key) =>
      match db key with
      | some (.leaf q) => ⟨Function.update db key none, [], q⟩
      | some (.node _) => ⟨db, [], []⟩
      | none => ⟨db, [], []⟩
  | [], _ => ⟨db, [], []⟩
  | key :: keys, value =>
      match db key with
      | none => ⟨db, [], []⟩
      | some (.leaf q) =>
          if keys = [] then ⟨Function.update db key none, q, []⟩
          else ⟨Function.update db key none, [], q⟩
      | some (.node inner) =>
          let w := wakeup inner keys value
          ⟨Function.update db key (some (.node w.waitQueue)), w.returned, w.thrown⟩

/-- `waitfor`. It fails, too, before it changes anything. -/
def waitfor (db : Scalar → Option Waits) (key : Scalar) :
    List Scalar → Nat → M (Scalar → Option Waits)
  | [], id =>
      match db key with
      | none => .ok (Function.update db key (some (.leaf [id])))
      | some (.leaf q) => .ok (Function.update db key (some (.leaf (q ++ [id]))))
      | some (.node _) => .fail .notAQueue
  | next :: keys, id =>
      match PathTree.inner (db key) with
      | none => .fail .notABranch
      | some inner => do
          let inner ← waitfor inner next keys id
          .ok (Function.update db key (some (.node inner)))

inductive Request where
  | query (path : List Scalar)
  | update (path : List Scalar) (value : Option Value)
  | wait (path : List Scalar)

inductive Answer where
  | returned (value : Option Value)
  | error

/-- The two tables, the number of requests so far, and the answers to them in the order in which
they were sent. -/
structure State where
  database : Table
  waitQueue : Scalar → Option Waits
  arrived : Nat
  answers : List (Nat × Answer)

def State.start : State where
  database _ := none
  waitQueue _ := none
  arrived := 0
  answers := []

/-- What `command.UPDATE` changes, what it returns, and the answers that it sends. -/
structure Updated where
  database : Table
  waitQueue : Scalar → Option Waits
  ret : Option Value
  sent : List (Nat × Answer)

/-- `command.UPDATE`, whose arguments are the keys with the value behind them. A value alone is the
key, and `nil` the value. -/
def commandUpdate (s : State) : List Scalar → Option Value → M Updated
  | [], none => .fail .nilKey
  | [], some (.leaf .nan) => .fail .nanKey
  | [], some (.node _) => .ok ⟨s.database, s.waitQueue, none, []⟩
  | [], some (.leaf (.scalar key)) =>
      .ok ⟨Function.update s.database key none, s.waitQueue, s.database key, []⟩
  | key :: keys, value => do
      let (database, ret) ← update s.database key keys value
      match isTrue ret, value with
      | false, some value =>
          let w := wakeup s.waitQueue (key :: keys) value
          .ok ⟨database, w.waitQueue, none, w.thrown.map (·, .error) ++
            w.returned.map (·, .returned (some value))⟩
      | _, _ => .ok ⟨database, s.waitQueue, ret, []⟩

-- `packs` says which values `skynet.pack` takes: it refuses tables that are nested too deep.
variable (packs : Value → Bool)

/-- `skynet.ret(skynet.pack(ret))` -/
def reply : M (Option Value) → Answer
  | .ok none => .returned none
  | .ok (some v) => if packs v then .returned (some v) else .error
  | .stuck | .fail _ => .error

/-- The last request is answered. -/
def State.answer (s : State) (a : Answer) : State := { s with
  arrived := s.arrived + 1
  answers := s.answers ++ [(s.arrived, a)] }

/-- The function that `skynet.dispatch` gets. An error in it is an error for the one who asked. -/
def dispatch (s : State) : Request → State
  | .query path => s.answer (reply packs (commandQuery s.database path))
  | .update path value =>
      match commandUpdate s path value with
      | .ok u =>
          { s with
            database := u.database
            waitQueue := u.waitQueue
            answers := s.answers ++ u.sent }.answer (reply packs (.ok u.ret))
      | .stuck | .fail _ => s.answer .error
  | .wait path =>
      match commandQuery s.database path with
      | .ok ret =>
          if isTrue ret then s.answer (reply packs (.ok ret))
          else
            match path with
            | [] => s.answer .error
            | key :: keys =>
                match waitfor s.waitQueue key keys s.arrived with
                | .ok waitQueue => { s with waitQueue, arrived := s.arrived + 1 }
                | .stuck | .fail _ => s.answer .error
      | .stuck | .fail _ => s.answer .error

def run (requests : List Request) : State := requests.foldl (dispatch packs) .start

end Code

/-! ## What lies in the two trees -/

def valueAt (database : Table) (path : List Scalar) : Option Value :=
  PathTree.find (some (.node database)) path

def waitsAt (waitQueue : Scalar → Option Waits) (path : List Scalar) : Option Waits :=
  PathTree.find (some (.node waitQueue)) path

def queueOf : Option Waits → List Nat
  | some (.leaf q) => q
  | some (.node _) | none => []

/-- Those who wait at a path. -/
def queuedAt (waitQueue : Scalar → Option Waits) (path : List Scalar) : List Nat :=
  queueOf (waitsAt waitQueue path)

theorem index_leaf {l : Atom} {key : Scalar} : (index (.leaf l) key).Ensures (· = none) := by
  unfold index
  split
  · rename_i h
    cases h
  · split
    · exact .fail
    · exact .pure rfl
  · exact .pure rfl
  · exact .fail

theorem query_none {keys : List Scalar} : (query none keys).Ensures (· = none) := by
  cases keys with
  | nil => exact .pure rfl
  | cons key keys => exact .fail

theorem query_eq_some (d : Option Value) (keys : List Scalar) (v : Value) :
    query d keys = .ok (some v) ↔ PathTree.find d keys = some v := by
  induction keys generalizing d with
  | nil => simp [query]
  | cons key keys ih =>
      cases d with
      | none => simp [query]
      | some d =>
          cases d with
          | node children => exact ih (children key)
          | leaf l =>
              have hnone : (query (some (.leaf l)) (key :: keys)).Ensures (· = none) := by
                refine Outcome.Ensures.bind index_leaf fun d hd => ?_
                rw [hd]
                exact query_none
              exact iff_of_false (fun h => nomatch hnone _ h) nofun

/-- `QUERY` returns what lies at the path, but no `false` at its first key. -/
theorem commandQuery_eq_some (database : Table) (path : List Scalar) (v : Value) :
    commandQuery database path = .ok (some v) ↔
      path ≠ [] ∧ valueAt database path = some v ∧ (path.length = 1 → isTrue (some v)) := by
  cases path with
  | nil => simp [commandQuery]
  | cons key keys =>
      rw [commandQuery, valueAt, PathTree.find_node]
      split
      · rename_i htrue
        rw [query_eq_some]
        simp only [ne_eq, reduceCtorEq, not_false_eq_true, true_and, List.length_cons]
        refine ⟨fun h => ⟨h, fun hlen => ?_⟩, And.left⟩
        obtain rfl : keys = [] := List.length_eq_zero_iff.mp (by omega)
        rw [PathTree.find_nil] at h
        rwa [← h]
      · rename_i hfalse
        refine iff_of_false nofun fun h => hfalse ?_
        obtain ⟨-, hfind, hlen⟩ := h
        cases keys with
        | nil =>
            rw [PathTree.find_nil] at hfind
            rw [hfind]
            exact hlen rfl
        | cons next keys =>
            cases hkey : database key with
            | none =>
                rw [hkey] at hfind
                cases hfind
            | some d =>
                cases d with
                | leaf l =>
                    rw [hkey] at hfind
                    cases hfind
                | node children => rfl

theorem update_put (db : Table) (key : Scalar) (keys : List Scalar) (value : Option Value) :
    (update db key keys value).Ensures fun r =>
      PathTree.put db key keys value = some r.1 ∧ r.2 = valueAt db (key :: keys) := by
  induction keys generalizing db key with
  | nil => exact .pure ⟨rfl, (PathTree.find_nil _).symm⟩
  | cons next keys ih =>
      rw [update]
      cases hinner : PathTree.inner (db key) with
      | none => exact .fail
      | some inner =>
          refine (ih inner next).bind fun r hr => .pure ⟨?_, ?_⟩
          · simp only [PathTree.put, hinner, hr.1, Option.bind_eq_bind, Option.bind_some]
          · rw [hr.2, valueAt, PathTree.find_inner hinner, valueAt, PathTree.find_node]

theorem waitfor_put (db : Scalar → Option Waits) (key : Scalar) (keys : List Scalar) (id : Nat) :
    (waitfor db key keys id).Ensures fun after =>
      PathTree.put db key keys (some (.leaf (queuedAt db (key :: keys) ++ [id]))) = some after ∧
        ∀ children, waitsAt db (key :: keys) ≠ some (.node children) := by
  induction keys generalizing db key with
  | nil =>
      rw [waitfor]
      cases hkey : db key with
      | none => exact .pure (by simp [PathTree.put, queuedAt, queueOf, waitsAt, hkey])
      | some w =>
          cases w with
          | leaf q => exact .pure (by simp [PathTree.put, queuedAt, queueOf, waitsAt, hkey])
          | node children => exact .fail
  | cons next keys ih =>
      rw [waitfor]
      cases hinner : PathTree.inner (db key) with
      | none => exact .fail
      | some inner =>
          refine (ih inner next).bind fun after h => .pure ?_
          have hwaits : waitsAt inner (next :: keys) = waitsAt db (key :: next :: keys) :=
            PathTree.find_inner hinner next keys
          rw [queuedAt, hwaits] at h
          refine ⟨?_, h.2⟩
          simp only [PathTree.put, hinner, queuedAt, h.1, Option.bind_eq_bind, Option.bind_some]

section Wakeup

variable {db : Scalar → Option Waits} {key : Scalar}

@[simp] theorem queuedAt_nil (db : Scalar → Option Waits) : queuedAt db [] = [] := rfl

theorem queuedAt_cons (db : Scalar → Option Waits) (key : Scalar) (path : List Scalar) :
    queuedAt db (key :: path) = queueOf (PathTree.find (db key) path) := rfl

theorem queuedAt_leaf {q : List Nat} (h : db key = some (.leaf q)) (path : List Scalar) :
    queuedAt db (key :: path) = if path = [] then q else [] := by
  rw [queuedAt_cons, h]
  cases path <;> simp [queueOf]

theorem queuedAt_node {inner : Scalar → Option Waits} (h : db key = some (.node inner))
    (path : List Scalar) : queuedAt db (key :: path) = queuedAt inner path := by
  rw [queuedAt_cons, h]
  rfl

theorem queuedAt_update_self (t : Option Waits) (path : List Scalar) :
    queuedAt (Function.update db key t) (key :: path) = queueOf (PathTree.find t path) := by
  rw [queuedAt_cons, Function.update_self]

theorem queuedAt_update_of_ne {other : Scalar} (h : other ≠ key) (t : Option Waits)
    (path : List Scalar) :
    queuedAt (Function.update db key t) (other :: path) = queuedAt db (other :: path) := by
  rw [queuedAt_cons, Function.update_of_ne h, queuedAt_cons]

/-- A queue is taken out. -/
theorem queuedAt_removed {q : List Nat} (h : db key = some (.leaf q)) (path : List Scalar) :
    queuedAt (Function.update db key none) path =
      if path = [key] then [] else queuedAt db path := by
  cases path with
  | nil => simp
  | cons other path =>
      by_cases hother : other = key
      · rw [hother, queuedAt_update_self, queuedAt_leaf h]
        simp only [PathTree.find_none, queueOf, List.cons.injEq, true_and]
        split <;> rfl
      · rw [queuedAt_update_of_ne hother, if_neg]
        exact fun heq => hother (List.cons.inj heq).1

/-- `wakeup` takes out the queue at one place, if there is one. It returns the queue if the place
is the end of the keys, and answers errors to it otherwise. -/
def Takes (db : Scalar → Option Waits) (keys : List Scalar) (w : Wakeup) (place : List Scalar) :
    Prop :=
  (∀ path, queuedAt w.waitQueue path = if path = place then [] else queuedAt db path) ∧
    w.returned = (if place = keys then queuedAt db place else []) ∧
    w.thrown = if place = keys then [] else queuedAt db place

theorem takes_nothing (db : Scalar → Option Waits) (keys : List Scalar) :
    Takes db keys ⟨db, [], []⟩ [] := by
  refine ⟨fun path => ?_, ?_, ?_⟩
  · split
    · rename_i h
      rw [h, queuedAt_nil]
    · rfl
  · split <;> rfl
  · split <;> rfl

theorem takes_node {inner : Scalar → Option Waits} (h : db key = some (.node inner))
    {keys place : List Scalar} {w : Wakeup} (hw : Takes inner keys w place) :
    Takes db (key :: keys)
      ⟨Function.update db key (some (.node w.waitQueue)), w.returned, w.thrown⟩
      (key :: place) := by
  obtain ⟨hqueue, hreturned, hthrown⟩ := hw
  have hend : key :: place = key :: keys ↔ place = keys := by simp
  refine ⟨fun path => ?_, ?_, ?_⟩
  · cases path with
    | nil => simp
    | cons other path =>
        by_cases hother : other = key
        · rw [hother, queuedAt_update_self, queuedAt_node h]
          simp only [List.cons.injEq, true_and]
          exact hqueue path
        · rw [queuedAt_update_of_ne hother, if_neg]
          exact fun heq => hother (List.cons.inj heq).1
  · rw [hreturned, queuedAt_node h]
    simp only [hend]
  · rw [hthrown, queuedAt_node h]
    simp only [hend]

theorem wakeup_takes (db : Scalar → Option Waits) (keys : List Scalar) (value : Value) :
    ∃ place, Takes db keys (wakeup db keys value) place := by
  induction keys generalizing db with
  | nil =>
      cases value with
      | node children => exact ⟨[], takes_nothing db []⟩
      | leaf l =>
          cases l with
          | nan => exact ⟨[], takes_nothing db []⟩
          | scalar key =>
              rw [wakeup]
              split
              · rename_i q hkey
                exact ⟨[key], queuedAt_removed hkey, rfl, by simp [queuedAt_leaf hkey]⟩
              · exact ⟨[], takes_nothing db []⟩
              · exact ⟨[], takes_nothing db []⟩
  | cons key keys ih =>
      rw [wakeup]
      split
      · exact ⟨[], takes_nothing db _⟩
      · rename_i q hkey
        split
        · rename_i hkeys
          subst hkeys
          exact ⟨[key], queuedAt_removed hkey, by simp [queuedAt_leaf hkey], by simp⟩
        · rename_i hkeys
          exact ⟨[key], queuedAt_removed hkey, by simp [Ne.symm hkeys],
            by simp [queuedAt_leaf hkey, Ne.symm hkeys]⟩
      · rename_i inner hkey
        obtain ⟨place, hplace⟩ := ih inner
        exact ⟨key :: place, takes_node hkey hplace⟩

/-- Nobody waits any more at the end of the keys or on the way there. -/
theorem wakeup_clears (db : Scalar → Option Waits) {keys path : List Scalar} (value : Value)
    (h : path <+: keys) : queuedAt (wakeup db keys value).waitQueue path = [] := by
  induction keys generalizing db path with
  | nil =>
      rw [List.prefix_nil.mp h]
      rfl
  | cons key keys ih =>
      cases path with
      | nil => rfl
      | cons other path =>
          obtain ⟨rfl, htail⟩ := List.cons_prefix_cons.mp h
          rw [wakeup]
          split
          · rename_i hkey
            simp [queuedAt_cons, hkey, queueOf]
          · split <;> rw [queuedAt_update_self, PathTree.find_none] <;> rfl
          · rename_i inner hkey
            rw [queuedAt_update_self]
            exact ih inner htail

end Wakeup

/-- Something other than a table lies above the end of the path, and so `update` fails. -/
def Blocked (database : Table) (path : List Scalar) : Prop :=
  ∃ above more l, above ++ more = path ∧ more ≠ [] ∧ valueAt database above = some (.leaf l)

/-- Others wait below the path or above its end, and so `waitfor` fails. -/
def Taken (waitQueue : Scalar → Option Waits) (path : List Scalar) : Prop :=
  (∃ children, waitsAt waitQueue path = some (.node children)) ∨
    ∃ above more q, above ++ more = path ∧ more ≠ [] ∧ waitsAt waitQueue above = some (.leaf q)

theorem update_not_blocked {db : Table} {key : Scalar} {keys : List Scalar}
    {value : Option Value} {r : Table × Option Value}
    (h : update db key keys value = .ok r) : ¬ Blocked db (key :: keys) := by
  intro ⟨above, more, l, happend, hmore, hleaf⟩
  exact PathTree.find_of_put (update_put db key keys value r h).1 happend hmore l hleaf

section Waitfor

variable {db after : Scalar → Option Waits} {key : Scalar} {keys : List Scalar} {id : Nat}

theorem waitfor_not_taken (h : waitfor db key keys id = .ok after) :
    ¬ Taken db (key :: keys) := by
  obtain ⟨hput, hnode⟩ := waitfor_put db key keys id after h
  rintro (⟨children, hchildren⟩ | ⟨above, more, q, happend, hmore, hleaf⟩)
  · exact hnode children hchildren
  · exact PathTree.find_of_put hput happend hmore q hleaf

theorem queueOf_eq_nil {t : Option Waits} (h : ∀ q, t ≠ some (.leaf q)) : queueOf t = [] := by
  cases t with
  | none => rfl
  | some t =>
      cases t with
      | leaf q => exact absurd rfl (h q)
      | node children => rfl

theorem find_queue_cons {t : Option Waits} (h : ∀ children, t ≠ some (.node children))
    (key : Scalar) (path : List Scalar) : PathTree.find t (key :: path) = none := by
  cases t with
  | none => rfl
  | some t =>
      cases t with
      | leaf q => rfl
      | node children => exact absurd rfl (h children)

/-- The request is the last one in the queue at its path. -/
theorem waitfor_queuedAt (h : waitfor db key keys id = .ok after) (path : List Scalar) :
    queuedAt after path =
      if path = key :: keys then queuedAt db path ++ [id] else queuedAt db path := by
  obtain ⟨hput, hnode⟩ := waitfor_put db key keys id after h
  split
  · rename_i hpath
    rw [hpath, queuedAt, waitsAt, PathTree.find_put hput]
    rfl
  · rename_i hpath
    by_cases hbelow : key :: keys <+: path
    · obtain ⟨more, rfl⟩ := hbelow
      cases more with
      | nil => exact absurd (List.append_nil _) hpath
      | cons next more =>
          have hbefore : waitsAt db (key :: keys ++ next :: more) = none := by
            rw [waitsAt, PathTree.find_append]
            exact find_queue_cons hnode next more
          rw [queuedAt, queuedAt, hbefore, waitsAt, PathTree.find_put_append hput,
            PathTree.find_leaf]
    · by_cases habove : path <+: key :: keys
      · obtain ⟨more, happend⟩ := habove
        have hmore : more ≠ [] := by
          rintro rfl
          exact hpath ((List.append_nil _).symm.trans happend)
        obtain ⟨children, hchildren⟩ := PathTree.exists_node_of_put hput happend hmore
        rw [queuedAt, waitsAt, hchildren]
        exact (queueOf_eq_nil (PathTree.find_of_put hput happend hmore)).symm
      · rw [queuedAt, queuedAt, waitsAt, PathTree.find_put_of_not_prefix hput hbelow habove]
        rfl

end Waitfor

end Jump.Skynet.DataCenter
