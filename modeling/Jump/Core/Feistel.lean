import Mathlib.Data.Prod.Basic

/-! # Feistel networks

A round adds to one half a value that is computed from the other half and the key of the round,
and the halves change places. Whatever is computed, the rounds are undone by the same rounds with
the keys in the reverse order.
-/

namespace Jump.Core.Feistel

variable {α κ : Type} (add : α → α → α) (f : κ → α → α)

def round (p : α × α) (k : κ) : α × α := (p.2, add p.1 (f k p.2))

def network (keys : List κ) (p : α × α) : α × α := keys.foldl (round add f) p

variable {add f}

theorem network_cons (k : κ) (keys : List κ) (p : α × α) :
    network add f (k :: keys) p = network add f keys (round add f p k) := rfl

theorem network_append (keys keys' : List κ) (p : α × α) :
    network add f (keys ++ keys') p = network add f keys' (network add f keys p) :=
  List.foldl_append

/-- A round on the halves that changed places takes back the round before. -/
theorem round_swap_round (hadd : ∀ a b, add (add a b) b = a) (p : α × α) (k : κ) :
    round add f (round add f p k).swap k = p.swap := by
  simp only [round, Prod.fst_swap, Prod.snd_swap, hadd]
  rfl

theorem network_reverse (hadd : ∀ a b, add (add a b) b = a) (keys : List κ) (p : α × α) :
    network add f keys.reverse (network add f keys p).swap = p.swap := by
  induction keys generalizing p with
  | nil => rfl
  | cons k keys ih =>
      have hlast : network add f [k] (round add f p k).swap = p.swap := round_swap_round hadd p k
      rw [List.reverse_cons, network_append, network_cons k keys, ih, hlast]

end Jump.Core.Feistel
