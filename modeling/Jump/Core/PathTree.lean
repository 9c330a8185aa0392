import Mathlib.Data.List.Infix
import Mathlib.Logic.Function.Basic

/-! # Trees under paths of keys

A tree is a leaf or a map from keys to trees. A path of keys leads from a tree to one below it.
-/

namespace Jump.Core

inductive PathTree (K L : Type) where
  | leaf (l : L)
  | node (children : K → Option (PathTree K L))

namespace PathTree

variable {K L : Type}

/-- The tree at the end of a path. -/
def find : Option (PathTree K L) → List K → Option (PathTree K L)
  | t, [] => t
  | some (.node children), key :: path => find (children key) path
  | some (.leaf _), _ :: _ => none
  | none, _ :: _ => none

@[simp] theorem find_nil (t : Option (PathTree K L)) : find t [] = t := by
  cases t with
  | none => rfl
  | some t => cases t <;> rfl

@[simp] theorem find_none (path : List K) : find (none : Option (PathTree K L)) path = none := by
  cases path <;> rfl

@[simp] theorem find_node (children : K → Option (PathTree K L)) (key : K) (path : List K) :
    find (some (.node children)) (key :: path) = find (children key) path := rfl

@[simp] theorem find_leaf (l : L) (key : K) (path : List K) :
    find (some (.leaf l)) (key :: path) = none := rfl

theorem find_append (t : Option (PathTree K L)) (p q : List K) :
    find t (p ++ q) = find (find t p) q := by
  induction p generalizing t with
  | nil => rw [List.nil_append, find_nil]
  | cons key p ih =>
      cases t with
      | none => simp
      | some t =>
          cases t with
          | leaf l => simp
          | node children => exact ih (children key)

/-- Above a tree there are nodes only. -/
theorem exists_node_of_find_append {t : Option (PathTree K L)} {p q : List K}
    {found : PathTree K L} (h : find t (p ++ q) = some found) (hq : q ≠ []) :
    ∃ children, find t p = some (.node children) := by
  rw [find_append] at h
  cases q with
  | nil => exact absurd rfl hq
  | cons key q =>
      cases ht : find t p with
      | none =>
          rw [ht, find_none] at h
          cases h
      | some above =>
          cases above with
          | leaf l =>
              rw [ht] at h
              cases h
          | node children => exact ⟨children, rfl⟩

/-- The map below a place: an empty place gets one. -/
def inner : Option (PathTree K L) → Option (K → Option (PathTree K L))
  | none => some fun _ => none
  | some (.node children) => some children
  | some (.leaf _) => none

theorem find_inner {t : Option (PathTree K L)} {children : K → Option (PathTree K L)}
    (h : inner t = some children) (key : K) (path : List K) :
    find (some (.node children)) (key :: path) = find t (key :: path) := by
  cases t with
  | none =>
      obtain rfl := Option.some.inj h
      simp
  | some t =>
      cases t with
      | leaf l => cases h
      | node sub =>
          obtain rfl := Option.some.inj h
          rfl

variable [DecidableEq K]

/-- Puts `t` at the end of the path `key :: path`, which must not go through a leaf. -/
def put (children : K → Option (PathTree K L)) (key : K) :
    List K → Option (PathTree K L) → Option (K → Option (PathTree K L))
  | [], t => some (Function.update children key t)
  | next :: path, t => do
      let sub ← inner (children key)
      let sub ← put sub next path t
      some (Function.update children key (some (.node sub)))

theorem find_update_self (children : K → Option (PathTree K L)) (key : K)
    (t : Option (PathTree K L)) (path : List K) :
    find (some (.node (Function.update children key t))) (key :: path) = find t path := by
  rw [find_node, Function.update_self]

theorem find_update_of_ne (children : K → Option (PathTree K L)) {key other : K}
    (h : other ≠ key) (t : Option (PathTree K L)) (path : List K) :
    find (some (.node (Function.update children key t))) (other :: path) =
      find (some (.node children)) (other :: path) := by
  rw [find_node, find_node, Function.update_of_ne h]

variable {children after : K → Option (PathTree K L)} {key : K} {path : List K}
  {t : Option (PathTree K L)}

theorem put_cons {next : K} (h : put children key (next :: path) t = some after) :
    ∃ sub sub', inner (children key) = some sub ∧ put sub next path t = some sub' ∧
      after = Function.update children key (some (.node sub')) := by
  rw [put] at h
  obtain ⟨sub, hsub, h⟩ := Option.bind_eq_some_iff.mp h
  obtain ⟨sub', hput, h⟩ := Option.bind_eq_some_iff.mp h
  exact ⟨sub, sub', hsub, hput, (Option.some.inj h).symm⟩

theorem find_put_append (h : put children key path t = some after) (more : List K) :
    find (some (.node after)) (key :: path ++ more) = find t more := by
  induction path generalizing children key after with
  | nil =>
      obtain rfl := Option.some.inj h
      exact find_update_self children key t more
  | cons next path ih =>
      obtain ⟨sub, sub', hs, hput, rfl⟩ := put_cons h
      have hrest := ih hput
      rwa [List.cons_append, find_update_self]

theorem find_put (h : put children key path t = some after) :
    find (some (.node after)) (key :: path) = t := by
  have := find_put_append h []
  rwa [List.append_nil, find_nil] at this

theorem find_put_of_not_prefix (h : put children key path t = some after) {p : List K}
    (hbelow : ¬ key :: path <+: p) (habove : ¬ p <+: key :: path) :
    find (some (.node after)) p = find (some (.node children)) p := by
  induction path generalizing children key after p with
  | nil =>
      obtain rfl := Option.some.inj h
      cases p with
      | nil => exact absurd (List.nil_prefix) habove
      | cons k p =>
          refine find_update_of_ne children (fun hk => hbelow ?_) t p
          rw [hk]
          exact List.prefix_append [key] p
  | cons next path ih =>
      obtain ⟨sub, sub', hs, hput, rfl⟩ := put_cons h
      cases p with
      | nil => exact absurd (List.nil_prefix) habove
      | cons k p =>
          by_cases hk : k = key
          · subst hk
            cases p with
            | nil => exact absurd (List.prefix_append [k] (next :: path)) habove
            | cons k' p =>
                have hrest := ih hput (fun hp => hbelow (List.cons_prefix_cons.mpr ⟨rfl, hp⟩))
                  fun hp => habove (List.cons_prefix_cons.mpr ⟨rfl, hp⟩)
                rw [find_update_self, hrest, find_inner hs, find_node]
          · exact find_update_of_ne children hk _ p

/-- What lay above the end of the path was nothing or a node. -/
theorem find_of_put {p more : List K} (h : put children key path t = some after)
    (hp : p ++ more = key :: path) (hmore : more ≠ []) (l : L) :
    find (some (.node children)) p ≠ some (.leaf l) := by
  induction path generalizing children key after p with
  | nil =>
      cases p with
      | nil => exact nofun
      | cons k p =>
          have htail : p ++ more = [] := (List.cons.inj hp).2
          exact absurd (List.append_eq_nil_iff.mp htail).2 hmore
  | cons next path ih =>
      obtain ⟨sub, sub', hs, hput, rfl⟩ := put_cons h
      cases p with
      | nil => exact nofun
      | cons k p =>
          obtain ⟨rfl, htail⟩ := List.cons.inj hp
          cases p with
          | nil =>
              rw [find_node, find_nil]
              intro hleaf
              rw [hleaf] at hs
              cases hs
          | cons k' p =>
              have hrest := ih hput htail
              rwa [find_inner hs] at hrest

/-- Above the end of the path there are nodes then. -/
theorem exists_node_of_put {p more : List K} (h : put children key path t = some after)
    (hp : p ++ more = key :: path) (hmore : more ≠ []) :
    ∃ children, find (some (.node after)) p = some (.node children) := by
  induction path generalizing children key after p with
  | nil =>
      cases p with
      | nil => exact ⟨after, rfl⟩
      | cons k p =>
          have htail : p ++ more = [] := (List.cons.inj hp).2
          exact absurd (List.append_eq_nil_iff.mp htail).2 hmore
  | cons next path ih =>
      obtain ⟨sub, sub', hs, hput, rfl⟩ := put_cons h
      cases p with
      | nil => exact ⟨_, rfl⟩
      | cons k p =>
          obtain ⟨rfl, htail⟩ := List.cons.inj hp
          rw [find_update_self]
          exact ih hput htail

end PathTree

end Jump.Core
