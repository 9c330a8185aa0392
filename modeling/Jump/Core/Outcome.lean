import Mathlib.Logic.Basic

/-! # Programs that may fail

A program ends with a result, fails, or gets stuck because what its surroundings answer does not
fit. `Ensures` speaks of the results alone; `Ends` also says which failures there may be.
-/

namespace Jump.Core

inductive Outcome (ε α : Type*) where
  | ok (a : α)
  | stuck
  | fail (e : ε)
deriving DecidableEq

namespace Outcome

variable {ε : Type} {α β : Type}

def bind (x : Outcome ε α) (f : α → Outcome ε β) : Outcome ε β :=
  match x with
  | .ok a => f a
  | .stuck => .stuck
  | .fail e => .fail e

instance : Monad (Outcome ε) where
  pure := .ok
  bind := bind

/-- An assertion. -/
def assert (e : ε) (p : Prop) [Decidable p] : Outcome ε Unit := if p then .ok () else .fail e

/-- What the surroundings answer is one of the answers they may give. -/
def answers (p : Prop) [Decidable p] : Outcome ε Unit := if p then .ok () else .stuck

def Ensures (x : Outcome ε α) (post : α → Prop) : Prop := ∀ a, x = .ok a → post a

/-- The results and the failures that a program may end with. -/
def Ends (x : Outcome ε α) (post : α → Prop) (may : ε → Prop) : Prop :=
  match x with
  | .ok a => post a
  | .stuck => True
  | .fail e => may e

/-- The result, if there is one. -/
def result : Outcome ε α → Option α
  | .ok a => some a
  | .stuck | .fail _ => none

/-- The failure, if there is one. -/
def fault : Outcome ε α → Option ε
  | .fail e => some e
  | .ok _ | .stuck => none

variable {x y : Outcome ε α} {f : α → Outcome ε β} {post post' : α → Prop} {after : β → Prop}
  {may may' : ε → Prop}

theorem Ensures.pure {a : α} (h : post a) : (Outcome.ok a : Outcome ε α).Ensures post := by
  intro b hb
  obtain rfl := Outcome.ok.inj hb
  exact h

/-- The program after `x` starts from what is known of its result. -/
theorem Ensures.bind (hx : x.Ensures post) (hf : ∀ a, post a → (f a).Ensures after) :
    (x >>= f).Ensures after := by
  intro b hb
  cases hres : x with
  | ok a =>
      rw [hres] at hb
      exact hf a (hx a hres) b hb
  | stuck =>
      rw [hres] at hb
      exact nomatch hb
  | fail e =>
      rw [hres] at hb
      exact nomatch hb

theorem Ensures.mono (hx : x.Ensures post) (h : ∀ a, post a → post' a) : x.Ensures post' :=
  fun a ha => h a (hx a ha)

theorem Ensures.fail {e : ε} : (Outcome.fail e : Outcome ε α).Ensures post := nofun

theorem Ensures.stuck : (Outcome.stuck : Outcome ε α).Ensures post := nofun

theorem Ensures.assert {e : ε} {p : Prop} [Decidable p] :
    (Outcome.assert e p).Ensures fun _ => p := by
  unfold Outcome.assert
  split
  · exact .pure ‹p›
  · exact .fail

theorem Ensures.answers {p : Prop} [Decidable p] :
    (answers p : Outcome ε Unit).Ensures fun _ => p := by
  unfold Outcome.answers
  split
  · exact .pure ‹p›
  · exact .stuck

theorem ok_bind (a : α) (f : α → Outcome ε β) : (Outcome.ok a >>= f) = f a := rfl

theorem assert_bind {e : ε} {p : Prop} [Decidable p] (h : p) (f : Unit → Outcome ε β) :
    (assert e p >>= f) = f () := by
  rw [show assert e p = .ok () from if_pos h]
  rfl

theorem assert_bind_neg {e : ε} {p : Prop} [Decidable p] (h : ¬ p) (f : Unit → Outcome ε β) :
    (assert e p >>= f) = .fail e := by
  rw [show assert e p = .fail e from if_neg h]
  rfl

theorem answers_bind {p : Prop} [Decidable p] (h : p) (f : Unit → Outcome ε β) :
    (answers p >>= f) = f () := by
  rw [show (answers p : Outcome ε Unit) = .ok () from if_pos h]
  rfl

theorem Ends.stuck : (Outcome.stuck : Outcome ε α).Ends post may := trivial

theorem Ends.bind (hx : x.Ends post may) (hf : ∀ a, post a → (f a).Ends after may) :
    (x >>= f).Ends after may := by
  cases x with
  | ok a => exact hf a hx
  | stuck => trivial
  | fail e => exact hx

theorem Ends.mono (hx : x.Ends post may) (hpost : ∀ a, post a → post' a)
    (hmay : ∀ e, may e → may' e) : x.Ends post' may' := by
  cases x with
  | ok a => exact hpost a hx
  | stuck => trivial
  | fail e => exact hmay e hx

/-- The same failures, and less of the results. -/
theorem Ends.imp (hx : x.Ends post may) (hpost : ∀ a, post a → post' a) : x.Ends post' may :=
  hx.mono hpost fun _ h => h

theorem Ends.assert {e : ε} {p : Prop} [Decidable p] (h : ¬ p → may e) :
    (Outcome.assert e p).Ends (fun _ => p) may := by
  unfold Outcome.assert
  split
  · assumption
  · exact h ‹_›

theorem Ends.answers {p : Prop} [Decidable p] :
    (answers p : Outcome ε Unit).Ends (fun _ => p) may := by
  unfold Outcome.answers
  split
  · assumption
  · trivial

/-- What holds of a result. -/
theorem Ends.of_ok {a : α} (hx : x.Ends post may) (h : x = .ok a) : post a := by
  rw [h] at hx
  exact hx

theorem Ends.of_fail {e : ε} (hx : x.Ends post may) (h : x = .fail e) : may e := by
  rw [h] at hx
  exact hx

theorem Ends.ensures (hx : x.Ends post may) : x.Ensures post := by
  intro a ha
  exact hx.of_ok ha

theorem exists_of_result {γ : Type} {g : α → γ} {c : γ} (h : x.result.map g = some c) :
    ∃ a, x = .ok a ∧ g a = c := by
  cases x with
  | ok a => exact ⟨a, rfl, Option.some.inj h⟩
  | stuck => cases h
  | fail e => cases h

end Outcome

end Jump.Core
