import Mathlib.Data.List.Nodup
import Mathlib.Data.List.Perm.Basic

/-! # Coloured binary trees and their contexts

A context is a tree with one subtree taken out, read from the hole to the root.
Everything an imperative tree program does on the way up is a change of the
subtree in the hole, so order, colour and height are stated once for the
subtree and once for the context and meet in `plug`.
-/

namespace Jump.Core

inductive Dir where
  | left
  | right
  deriving DecidableEq, Repr

namespace Dir

def flip : Dir → Dir
  | .left => .right
  | .right => .left

@[simp] theorem flip_flip (d : Dir) : d.flip.flip = d := by cases d <;> rfl

@[simp] theorem flip_ne (d : Dir) : d.flip ≠ d := by cases d <;> decide

@[simp] theorem ne_flip (d : Dir) : d ≠ d.flip := by cases d <;> decide

theorem eq_or_eq_flip (d e : Dir) : e = d ∨ e = d.flip := by
  cases d <;> cases e <;> decide

end Dir

inductive Color where
  | red
  | black
  deriving DecidableEq, Repr

/-- What a node of this colour adds to a black height. -/
def Color.height : Color → Nat
  | .red => 0
  | .black => 1

inductive ColoredTree (α : Type) where
  | leaf
  | node (c : Color) (l : ColoredTree α) (a : α) (r : ColoredTree α)

namespace ColoredTree

variable {α : Type}

def toList : ColoredTree α → List α
  | leaf => []
  | node _ l a r => l.toList ++ a :: r.toList

def card (t : ColoredTree α) : Nat := t.toList.length

/-- Leaves count as black. -/
def color : ColoredTree α → Color
  | leaf => .black
  | node c _ _ _ => c

/-- The node with `t` on side `d` and `u` on the other side. -/
def join (c : Color) (d : Dir) (t : ColoredTree α) (a : α) (u : ColoredTree α) : ColoredTree α :=
  match d with
  | .left => node c t a u
  | .right => node c u a t

@[simp] theorem toList_leaf : (leaf : ColoredTree α).toList = [] := rfl

@[simp] theorem toList_node (c : Color) (l r : ColoredTree α) (a : α) :
    (node c l a r).toList = l.toList ++ a :: r.toList := rfl

@[simp] theorem card_leaf : (leaf : ColoredTree α).card = 0 := rfl

@[simp] theorem card_node (c : Color) (l r : ColoredTree α) (a : α) :
    (node c l a r).card = l.card + r.card + 1 := by
  simp [card]
  omega

@[simp] theorem color_leaf : (leaf : ColoredTree α).color = .black := rfl

@[simp] theorem color_node (c : Color) (l r : ColoredTree α) (a : α) :
    (node c l a r).color = c := rfl

@[simp] theorem color_join (c : Color) (d : Dir) (t u : ColoredTree α) (a : α) :
    (join c d t a u).color = c := by cases d <;> rfl

@[simp] theorem card_join (c : Color) (d : Dir) (t u : ColoredTree α) (a : α) :
    (join c d t a u).card = t.card + u.card + 1 := by
  cases d <;> simp [join]
  omega

theorem mem_toList_join {c : Color} {d : Dir} {t u : ColoredTree α} {a x : α} :
    x ∈ (join c d t a u).toList ↔ x ∈ t.toList ∨ x = a ∨ x ∈ u.toList := by
  cases d <;> simp [join]
  tauto

theorem toList_join_perm (c : Color) (d : Dir) (t u : ColoredTree α) (a : α) :
    (join c d t a u).toList.Perm (a :: (t.toList ++ u.toList)) := by
  cases d
  · exact List.perm_middle
  · exact List.perm_middle.trans (List.Perm.cons a List.perm_append_comm)

theorem node_eq_join (c : Color) (d : Dir) (l r : ColoredTree α) (a : α) :
    ∃ t u, node c l a r = join c d t a u := by
  cases d
  · exact ⟨l, r, rfl⟩
  · exact ⟨r, l, rfl⟩

theorem join_flip (c : Color) (d : Dir) (t u : ColoredTree α) (a : α) :
    join c d.flip t a u = join c d u a t := by cases d <;> rfl

theorem toList_join_recolor (c c' : Color) (d : Dir) (t u : ColoredTree α) (a : α) :
    (join c' d t a u).toList = (join c d t a u).toList := by cases d <;> rfl

/-- Either subtree of a node can be named first. -/
theorem join_eq_join (c : Color) (d e : Dir) (t u : ColoredTree α) (a : α) :
    join c e t a u = join c d t a u ∨ join c e t a u = join c d u a t := by
  rcases Dir.eq_or_eq_flip d e with rfl | rfl
  · exact Or.inl rfl
  · exact Or.inr (join_flip c d t u a)

/-- A rotation does not change the sequence. -/
theorem toList_rotate (c c' e e' : Color) (d : Dir) (t u v : ColoredTree α) (a b : α) :
    (join e' d (join e d t a u) b v).toList = (join c d t a (join c' d u b v)).toList := by
  cases d <;> simp [join]

/-- Red-black balance with black height `n`; the root may be red. -/
inductive Balanced : ColoredTree α → Nat → Prop where
  | leaf : Balanced leaf 0
  | red {l r : ColoredTree α} {a : α} {n : Nat} : Balanced l n → Balanced r n → l.color = .black →
      r.color = .black → Balanced (node .red l a r) n
  | black {l r : ColoredTree α} {a : α} {n : Nat} : Balanced l n → Balanced r n →
      Balanced (node .black l a r) (n + 1)

theorem balanced_leaf_iff {n : Nat} : Balanced (leaf : ColoredTree α) n ↔ n = 0 := by
  constructor
  · intro h
    cases h
    rfl
  · rintro rfl
    exact .leaf

theorem balanced_node_iff {c : Color} {l r : ColoredTree α} {a : α} {n : Nat} :
    Balanced (node c l a r) n ↔ ∃ k, n = k + c.height ∧ Balanced l k ∧ Balanced r k ∧
      (c = .red → l.color = .black ∧ r.color = .black) := by
  constructor
  · intro h
    cases h with
    | red hl hr cl cr => exact ⟨n, rfl, hl, hr, fun _ => ⟨cl, cr⟩⟩
    | @black _ _ _ k hl hr => exact ⟨k, rfl, hl, hr, by simp⟩
  · rintro ⟨k, rfl, hl, hr, hc⟩
    cases c with
    | red => exact .red hl hr (hc rfl).1 (hc rfl).2
    | black => exact .black hl hr

theorem balanced_join_iff {c : Color} {d : Dir} {t u : ColoredTree α} {a : α} {n : Nat} :
    Balanced (join c d t a u) n ↔ ∃ k, n = k + c.height ∧ Balanced t k ∧ Balanced u k ∧
      (c = .red → t.color = .black ∧ u.color = .black) := by
  cases d
  · exact balanced_node_iff
  · refine balanced_node_iff.trans (exists_congr fun k => ?_)
    exact ⟨fun ⟨h, l, r, hc⟩ => ⟨h, r, l, fun e => (hc e).symm⟩,
      fun ⟨h, l, r, hc⟩ => ⟨h, r, l, fun e => (hc e).symm⟩⟩

/-- A red tree is a node, so a balanced tree of positive height has a root. -/
theorem Balanced.ne_leaf {t : ColoredTree α} {n : Nat} (h : Balanced t (n + 1)) :
    t ≠ ColoredTree.leaf := by
  rintro rfl
  cases h

/-- Blackening the root. -/
def blacken : ColoredTree α → ColoredTree α
  | leaf => leaf
  | node _ l a r => node .black l a r

@[simp] theorem toList_blacken (t : ColoredTree α) :
    t.blacken.toList = t.toList := by cases t <;> rfl

@[simp] theorem color_blacken (t : ColoredTree α) : t.blacken.color = .black := by cases t <;> rfl

theorem blacken_of_black {t : ColoredTree α} (h : t.color = .black) : t.blacken = t := by
  cases t with
  | leaf => rfl
  | node c l a r =>
      cases h
      rfl

theorem Balanced.blacken {t : ColoredTree α} {n : Nat} (h : Balanced t n) :
    Balanced t.blacken (if t.color = .red then n + 1 else n) := by
  cases h with
  | leaf => exact .leaf
  | red hl hr _ _ => exact .black hl hr
  | black hl hr => exact .black hl hr

end ColoredTree

/-- One step up from the hole: the hole hangs on side `dir` of `label`. -/
structure Frame (α : Type) where
  dir : Dir
  color : Color
  label : α
  sibling : ColoredTree α

abbrev Ctx (α : Type) : Type := List (Frame α)

namespace Ctx

open ColoredTree

variable {α : Type}

def plug : Ctx α → ColoredTree α → ColoredTree α
  | [], t => t
  | f :: k, t => plug k (join f.color f.dir t f.label f.sibling)

/-- What comes before the hole in the sequence of the whole tree. -/
def before : Ctx α → List α
  | [] => []
  | ⟨.left, _, _, _⟩ :: k => before k
  | ⟨.right, _, a, s⟩ :: k => before k ++ (s.toList ++ [a])

def after : Ctx α → List α
  | [] => []
  | ⟨.left, _, a, s⟩ :: k => a :: s.toList ++ after k
  | ⟨.right, _, _, _⟩ :: k => after k

/-- The labels of a context. -/
def labels (k : Ctx α) : List α := before k ++ after k

/-- The colour of the node the hole hangs on. -/
def topColor : Ctx α → Option Color
  | [] => none
  | f :: _ => some f.color

@[simp] theorem plug_nil (t : ColoredTree α) : plug [] t = t := rfl

@[simp] theorem plug_cons (f : Frame α) (k : Ctx α) (t : ColoredTree α) :
    plug (f :: k) t = plug k (join f.color f.dir t f.label f.sibling) := rfl

theorem plug_append (k k' : Ctx α) (t : ColoredTree α) : plug (k ++ k') t = plug k' (plug k t) := by
  induction k generalizing t with
  | nil => rfl
  | cons f k ih => exact ih _

theorem toList_plug (k : Ctx α) (t : ColoredTree α) :
    (plug k t).toList = before k ++ t.toList ++ after k := by
  induction k generalizing t with
  | nil => simp [before, after]
  | cons f k ih =>
      obtain ⟨d, c, a, s⟩ := f
      cases d <;> simp [ih, join, before, after]

theorem toList_plug_congr (k : Ctx α) {t t' : ColoredTree α} (h : t'.toList = t.toList) :
    (plug k t').toList = (plug k t).toList := by
  rw [toList_plug, toList_plug, h]

theorem toList_plug_perm (k : Ctx α) (t : ColoredTree α) :
    (plug k t).toList.Perm (t.toList ++ labels k) := by
  rw [toList_plug, labels, ← List.append_assoc]
  exact List.Perm.append_right _ List.perm_append_comm

theorem card_plug (k : Ctx α) (t : ColoredTree α) :
    (plug k t).card = t.card + (labels k).length := by
  simpa [card] using (toList_plug_perm k t).length_eq

theorem length_le_labels (k : Ctx α) : k.length ≤ (labels k).length := by
  induction k with
  | nil => simp
  | cons f k ih =>
      obtain ⟨d, c, a, s⟩ := f
      cases d <;> simp [labels, before, after] at ih ⊢ <;> omega

theorem labels_cons_perm (f : Frame α) (k : Ctx α) :
    (labels (f :: k)).Perm (f.label :: (f.sibling.toList ++ labels k)) := by
  obtain ⟨d, c, a, s⟩ := f
  cases d
  · change (before k ++ a :: (s.toList ++ after k)).Perm (a :: (s.toList ++ (before k ++ after k)))
    refine List.perm_middle.trans (List.Perm.cons a ?_)
    rw [← List.append_assoc, ← List.append_assoc]
    exact List.Perm.append_right _ List.perm_append_comm
  · have h : (before k ++ (s.toList ++ [a])).Perm (a :: (s.toList ++ before k)) := by
      refine List.perm_append_comm.trans ?_
      rw [List.append_assoc]
      exact List.perm_middle
    simpa [labels, before, after] using List.Perm.append_right (after k) h

theorem mem_labels_cons {f : Frame α} {k : Ctx α} {x : α} :
    x ∈ labels (f :: k) ↔ x = f.label ∨ x ∈ f.sibling.toList ∨ x ∈ labels k := by
  simp [(labels_cons_perm f k).mem_iff]

@[simp] theorem labels_nil : labels ([] : Ctx α) = [] := rfl

theorem mem_labels_append {k k' : Ctx α} {x : α} :
    x ∈ labels (k ++ k') ↔ x ∈ labels k ∨ x ∈ labels k' := by
  induction k with
  | nil => simp
  | cons f k ih => simp [mem_labels_cons, ih, or_assoc]

/-- Every node of a tree is the root of a subtree in some context. -/
theorem exists_plug_of_mem {t : ColoredTree α} {a : α} (h : a ∈ t.toList) :
    ∃ (k : Ctx α) (c : Color) (l r : ColoredTree α), t = plug k (node c l a r) := by
  induction t with
  | leaf => simp at h
  | node c l b r ihl ihr =>
      simp only [toList_node, List.mem_append, List.mem_cons] at h
      rcases h with h | rfl | h
      · obtain ⟨k, c', l', r', rfl⟩ := ihl h
        exact ⟨k ++ [⟨.left, c, b, r⟩], c', l', r', by simp [plug_append, join]⟩
      · exact ⟨[], c, l, r, rfl⟩
      · obtain ⟨k, c', l', r', rfl⟩ := ihr h
        exact ⟨k ++ [⟨.right, c, b, l⟩], c', l', r', by simp [plug_append, join]⟩

/-! ## Balance of a context -/

/-- The context takes a black-rooted balanced tree of black height `n`, and its
own root is black. -/
def Fits : Ctx α → Nat → Prop
  | [], _ => True
  | f :: k, n => Balanced f.sibling n ∧
      (f.color = .red → f.sibling.color = .black ∧ topColor k = some .black) ∧
      Fits k (n + f.color.height)

theorem Fits.balanced_plug {k : Ctx α} {t : ColoredTree α} {n : Nat} (hk : Fits k n)
    (ht : Balanced t n) (top : topColor k ≠ some .black → t.color = .black) :
    ∃ n', Balanced (plug k t) n' ∧ (plug k t).color = .black := by
  induction k generalizing t n with
  | nil => exact ⟨n, ht, top (by simp [topColor])⟩
  | cons f k ih =>
      obtain ⟨hs, hc, hk⟩ := hk
      refine ih hk (t := join f.color f.dir t f.label f.sibling) ?_ ?_
      · refine balanced_join_iff.mpr ⟨n, rfl, ht, hs, fun e => ⟨top ?_, (hc e).1⟩⟩
        simp [topColor, e]
      · intro htop
        rw [color_join]
        cases hf : f.color with
        | red => exact absurd (hc hf).2 htop
        | black => rfl

theorem plug_ne_leaf {k : Ctx α} {t : ColoredTree α} (ht : t ≠ leaf) : plug k t ≠ leaf := by
  induction k generalizing t with
  | nil => exact ht
  | cons f k ih => exact ih (by cases f.dir <;> simp [join])

/-- With no red node above the hole, a red root is the only fault that can be left. -/
theorem Fits.balanced_blacken {k : Ctx α} {t : ColoredTree α} {n : Nat} (hk : Fits k n)
    (ht : Balanced t n) (top : topColor k ≠ some .red) : ∃ n', Balanced (plug k t).blacken n' := by
  cases k with
  | nil => exact ⟨_, ht.blacken⟩
  | cons f k =>
      have hf : f.color = .black := by
        cases hc : f.color with
        | red => exact absurd (by simp [topColor, hc]) top
        | black => rfl
      obtain ⟨n', hb, hroot⟩ := hk.balanced_plug ht (by simp [topColor, hf])
      exact ⟨n', by rwa [blacken_of_black hroot]⟩

theorem fits_of_balanced_plug {k : Ctx α} {t : ColoredTree α} {n : Nat}
    (h : Balanced (plug k t) n) (root : (plug k t).color = .black) :
    ∃ n', Fits k n' ∧ Balanced t n' ∧ (topColor k ≠ some .black → t.color = .black) := by
  induction k generalizing t with
  | nil => exact ⟨n, trivial, h, fun _ => root⟩
  | cons f k ih =>
      obtain ⟨n', hk, ht, top⟩ := ih h root
      obtain ⟨j, rfl, ht, hs, hc⟩ := balanced_join_iff.mp ht
      refine ⟨j, ⟨hs, fun e => ⟨(hc e).2, ?_⟩, hk⟩, ht, fun e => ?_⟩
      · by_contra hne
        have hb := top hne
        rw [color_join, e] at hb
        cases hb
      · cases hf : f.color with
        | red => exact (hc hf).1
        | black => exact absurd (by simp [topColor, hf]) e

/-- Only colours and siblings of a context matter to its balance. -/
theorem fits_relabel {k k' : Ctx α} {d : Dir} {c : Color} {a b : α} {s : ColoredTree α} {n : Nat}
    (h : Fits (k ++ ⟨d, c, a, s⟩ :: k') n) : Fits (k ++ ⟨d, c, b, s⟩ :: k') n := by
  induction k generalizing n with
  | nil => exact h
  | cons f k ih =>
      obtain ⟨hs, hc, hk⟩ := h
      refine ⟨hs, fun e => ⟨(hc e).1, ?_⟩, ih hk⟩
      have htop := (hc e).2
      cases k with
      | nil => exact htop
      | cons g k => exact htop

/-! ## Ends of the sequence -/

/-- The element at end `d` of a sequence. -/
def rim (d : Dir) (xs : List α) : Option α :=
  match d with
  | .left => xs.head?
  | .right => xs.getLast?

/-- The labels between the hole and end `d`. -/
def beside (d : Dir) (k : Ctx α) : List α :=
  match d with
  | .left => before k
  | .right => after k

theorem rim_mem {d : Dir} {xs : List α} {a : α} (h : rim d xs = some a) : a ∈ xs := by
  cases d with
  | left => exact List.mem_of_head? h
  | right => exact List.mem_of_getLast? h

theorem rim_eq_none {d : Dir} {xs : List α} : rim d xs = none ↔ xs = [] := by
  cases d with
  | left => exact List.head?_eq_none_iff
  | right => exact List.getLast?_eq_none_iff

/-- An element in the middle is an end only when nothing lies beyond it. -/
theorem rim_middle {d : Dir} {xs ys : List α} {a : α} (hd : (xs ++ a :: ys).Nodup)
    (h : rim d (xs ++ a :: ys) = some a) : (match d with | .left => xs | .right => ys) = [] := by
  rw [List.nodup_append, List.nodup_cons] at hd
  obtain ⟨-, ⟨hay, -⟩, hxy⟩ := hd
  cases d with
  | left =>
      cases xs with
      | nil => rfl
      | cons b xs =>
          simp only [rim, List.cons_append, List.head?_cons, Option.some.injEq] at h
          exact absurd h (hxy b List.mem_cons_self a List.mem_cons_self)
  | right =>
      cases hy : ys.getLast? with
      | none => exact List.getLast?_eq_none_iff.mp hy
      | some b =>
          simp only [rim, List.getLast?_append, List.getLast?_cons, hy, Option.getD_some,
            Option.some_or, Option.some.injEq] at h
          exact absurd (h ▸ List.mem_of_getLast? hy) hay

theorem rim_erase_middle {d : Dir} {xs ys : List α} {a : α} (h : rim d (xs ++ a :: ys) ≠ some a) :
    rim d (xs ++ ys) = rim d (xs ++ a :: ys) := by
  cases d with
  | left =>
      cases xs with
      | nil => exact absurd rfl h
      | cons b xs => rfl
  | right =>
      cases hy : ys.getLast? with
      | none =>
          obtain rfl := List.getLast?_eq_none_iff.mp hy
          exact absurd (by simp [rim]) h
      | some b => simp [rim, hy, List.getLast?_cons]

theorem rim_plug {d : Dir} {k : Ctx α} {t : ColoredTree α} (hk : beside d k = []) (ht : t ≠ leaf) :
    rim d (plug k t).toList = rim d t.toList := by
  have hne : t.toList ≠ [] := by
    cases t with
    | leaf => exact absurd rfl ht
    | node c l a r => simp
  rw [toList_plug]
  cases d with
  | left =>
      have hb : before k = [] := hk
      rw [hb, List.nil_append]
      exact List.head?_append_of_ne_nil _ hne
  | right =>
      have ha : after k = [] := hk
      rw [ha, List.append_nil]
      exact List.getLast?_append_of_ne_nil _ hne

/-- With nothing on side `d` of an empty hole, the node above the hole is that end. -/
theorem rim_plug_leaf {d : Dir} {f : Frame α} {k : Ctx α} (hk : beside d (f :: k) = []) :
    rim d (plug (f :: k) leaf).toList = some f.label := by
  obtain ⟨e, c, a, s⟩ := f
  rw [toList_plug]
  cases d with
  | left =>
      cases e with
      | left =>
          have hb : before k = [] := hk
          simp [rim, before, after, hb]
      | right => simp [beside, before] at hk
  | right =>
      cases e with
      | left => simp [beside, after] at hk
      | right =>
          have ha : after k = [] := hk
          simp [rim, before, after, ha]

theorem rim_plug_of_beside {d : Dir} {k : Ctx α} (hk : beside d k ≠ []) (t : ColoredTree α) :
    rim d (plug k t).toList = rim d (beside d k) := by
  rw [toList_plug]
  cases d with
  | left =>
      rw [List.append_assoc]
      exact List.head?_append_of_ne_nil _ hk
  | right => exact List.getLast?_append_of_ne_nil _ hk

/-! ## Neighbours of the hole -/

/-- The nearest label above the hole with the hole on its side `e`. -/
def nearest (e : Dir) : Ctx α → Option α
  | [] => none
  | f :: k => if f.dir = e then some f.label else nearest e k

theorem nearest_left (k : Ctx α) : nearest .left k = (after k).head? := by
  induction k with
  | nil => rfl
  | cons f k ih =>
      obtain ⟨d, c, a, s⟩ := f
      cases d
      · rfl
      · simpa [nearest, after] using ih

theorem nearest_right (k : Ctx α) : nearest .right k = (before k).getLast? := by
  induction k with
  | nil => rfl
  | cons f k ih =>
      obtain ⟨d, c, a, s⟩ := f
      cases d
      · simpa [nearest, before] using ih
      · simp [nearest, before]

/-- A context that only ever turned to side `d` has nothing on that side. -/
theorem before_eq_nil {k : Ctx α} (h : ∀ f ∈ k, f.dir = .left) : before k = [] := by
  induction k with
  | nil => rfl
  | cons f k ih =>
      obtain ⟨d, c, a, s⟩ := f
      obtain rfl : d = .left := h _ List.mem_cons_self
      exact ih fun g hg => h g (List.mem_cons_of_mem _ hg)

theorem after_eq_nil {k : Ctx α} (h : ∀ f ∈ k, f.dir = .right) : after k = [] := by
  induction k with
  | nil => rfl
  | cons f k ih =>
      obtain ⟨d, c, a, s⟩ := f
      obtain rfl : d = .right := h _ List.mem_cons_self
      exact ih fun g hg => h g (List.mem_cons_of_mem _ hg)

/-! ## Descents -/

/-- The way down from `t` that turns left exactly at the labels `p` holds of. -/
def descend (p : α → Bool) : ColoredTree α → Ctx α → Ctx α
  | leaf, k => k
  | node c l a r, k =>
      if p a then descend p l (⟨.left, c, a, r⟩ :: k) else descend p r (⟨.right, c, a, l⟩ :: k)

theorem plug_descend (p : α → Bool) (t : ColoredTree α) (k : Ctx α) :
    plug (descend p t k) leaf = plug k t := by
  induction t generalizing k with
  | leaf => rfl
  | node c l a r ihl ihr =>
      rw [descend]
      split
      · rw [ihl]
        rfl
      · rw [ihr]
        rfl

/-- A descent turns left exactly at the labels `p` holds of. -/
theorem descend_dir {p : α → Bool} {t : ColoredTree α} {k : Ctx α}
    (hk : ∀ f ∈ k, f.dir = .left ↔ p f.label) : ∀ f ∈ descend p t k, f.dir = .left ↔ p f.label := by
  induction t generalizing k with
  | leaf => exact hk
  | node c l a r ihl ihr =>
      rw [descend]
      split
      next hp =>
        refine ihl fun f hf => ?_
        rcases List.mem_cons.mp hf with rfl | hf
        · simp [hp]
        · exact hk f hf
      next hp =>
        refine ihr fun f hf => ?_
        rcases List.mem_cons.mp hf with rfl | hf
        · simp [hp]
        · exact hk f hf

/-- On a sequence where `p`, once true, stays true, the descent ends where `p` turns true. -/
theorem descend_splits {p : α → Bool} {t : ColoredTree α} {k : Ctx α}
    (mono : (plug k t).toList.Pairwise fun a b => p a → p b)
    (hb : ∀ a ∈ before k, ¬ p a) (ha : ∀ a ∈ after k, p a) :
    (∀ a ∈ before (descend p t k), ¬ p a) ∧ ∀ a ∈ after (descend p t k), p a := by
  induction t generalizing k with
  | leaf => exact ⟨hb, ha⟩
  | node c l a r ihl ihr =>
      have hsplit := mono
      rw [toList_plug, toList_node, List.append_assoc, List.pairwise_append] at hsplit
      have hmid := hsplit.2.1
      rw [List.append_assoc, List.pairwise_append, List.cons_append, List.pairwise_cons] at hmid
      rw [descend]
      split
      next hp =>
        refine ihl mono hb fun x hx => ?_
        simp only [after, List.cons_append, List.mem_cons, List.mem_append] at hx
        rcases hx with rfl | hx | hx
        · exact hp
        · exact hmid.2.1.1 x (List.mem_append_left _ hx) hp
        · exact ha x hx
      next hp =>
        refine ihr mono (fun x hx => ?_) ha
        simp only [before, List.mem_append, List.mem_singleton] at hx
        rcases hx with hx | hx | rfl
        · exact hb x hx
        · exact fun hpx => hp (hmid.2.2 x hx a List.mem_cons_self hpx)
        · exact hp

end Ctx

end Jump.Core
