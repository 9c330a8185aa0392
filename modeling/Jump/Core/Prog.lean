import Mathlib.Data.List.Infix

/-! # Programs over a mapped memory, with the writes they make

A program reads a store and answers with a result and the writes it made, in
program order. The final store is the replay of the writes and nothing else, so
a process that dies after any number of writes leaves the replay of a prefix.
`none` is the program that does not return.
-/

namespace Jump.Core

/-- A store changes by single writes only. -/
class Store (σ : Type) (ω : outParam Type) where
  apply : ω → σ → σ

/-- The store after the writes of a list, first write first. -/
def replay {σ ω : Type} [Store σ ω] (ws : List ω) (s : σ) : σ :=
  ws.foldl (fun s w => Store.apply w s) s

def Prog (σ ω α : Type) : Type := σ → Option (α × List ω)

namespace Prog

variable {σ ω α β : Type}

/-- The program that never returns. -/
def stuck : Prog σ ω α := fun _ => none

def read (f : σ → α) : Prog σ ω α := fun s => some (f s, [])

def write (w : ω) : Prog σ ω Unit := fun _ => some ((), [w])

theorem run_write {w : ω} {s : σ} : (write w : Prog σ ω Unit) s = some ((), [w]) := rfl

theorem write_eq_some {w : ω} {u : Unit} {s : σ} {ws : List ω} :
    (write w : Prog σ ω Unit) s = some (u, ws) ↔ ws = [w] := by
  constructor
  · intro h
    cases h
    rfl
  · rintro rfl
    rfl

/-- Every write of every run of the program satisfies `W`. -/
def Emits (x : Prog σ ω α) (W : ω → Prop) : Prop :=
  ∀ s a ws, x s = some (a, ws) → ∀ w ∈ ws, W w

theorem emits_read {f : σ → α} {W : ω → Prop} : Emits (read f : Prog σ ω α) W := by
  intro s b ws h
  cases h
  simp

theorem emits_write {w : ω} {W : ω → Prop} (hw : W w) : Emits (write w : Prog σ ω Unit) W := by
  intro s b ws h
  cases h
  simpa using hw

theorem emits_stuck {W : ω → Prop} : Emits (stuck : Prog σ ω α) W := by
  intro s b ws h
  cases h

theorem Emits.ite {c : Prop} [Decidable c] {x y : Prog σ ω α} {W : ω → Prop}
    (hx : Emits x W) (hy : Emits y W) : Emits (if c then x else y) W := by
  split
  · exact hx
  · exact hy

/-- A program that writes nothing leaves the store as it is. -/
theorem Emits.quiet {x : Prog σ ω α} (h : Emits x fun _ => False) {s : σ} {a : α}
    {ws : List ω} (hx : x s = some (a, ws)) : ws = [] :=
  List.eq_nil_iff_forall_not_mem.mpr fun w hw => h s a ws hx w hw

/-- Run a program on the part `part` of the store; `wrap` makes its writes writes
to the whole. -/
def zoom {τ ω' : Type} (part : σ → τ) (wrap : ω' → ω) (x : Prog τ ω' α) : Prog σ ω α :=
  fun s => (x (part s)).map fun r => (r.1, r.2.map wrap)

theorem zoom_run {τ ω' : Type} {part : σ → τ} {wrap : ω' → ω} {x : Prog τ ω' α} {s : σ} {a : α}
    {ws : List ω'} (h : x (part s) = some (a, ws)) :
    zoom part wrap x s = some (a, ws.map wrap) := by
  rw [zoom, h]
  rfl

end Prog

section Calculus

variable {σ ω α β : Type} [Store σ ω]

@[simp] theorem replay_nil (s : σ) : replay ([] : List ω) s = s := rfl

@[simp] theorem replay_cons (w : ω) (ws : List ω) (s : σ) :
    replay (w :: ws) s = replay ws (Store.apply w s) := rfl

theorem replay_append (ws ws' : List ω) (s : σ) :
    replay (ws ++ ws') s = replay ws' (replay ws s) :=
  List.foldl_append

/-- What no write of a list touches is unchanged by the list. -/
theorem replay_unchanged {γ : Type} (field : σ → γ) {ws : List ω}
    (h : ∀ w ∈ ws, ∀ s : σ, field (Store.apply w s) = field s) (s : σ) :
    field (replay ws s) = field s := by
  induction ws generalizing s with
  | nil => rfl
  | cons w ws ih =>
      rw [replay_cons, ih (fun v hv => h v (List.mem_cons_of_mem w hv)) (Store.apply w s)]
      exact h w List.mem_cons_self s

namespace Prog

instance : Monad (Prog σ ω) where
  pure a := fun _ => some (a, [])
  bind x f := fun s =>
    match x s with
    | none => none
    | some (a, ws) =>
        match f a (replay ws s) with
        | none => none
        | some (b, ws') => some (b, ws ++ ws')

/-- A loop whose body continues with `inl` or leaves with `inr`, cut after `fuel` turns. -/
def loop (body : α → Prog σ ω (α ⊕ β)) : Nat → α → Prog σ ω β
  | 0, _ => stuck
  | fuel + 1, a => body a >>= fun r =>
      match r with
      | .inl a' => loop body fuel a'
      | .inr b => pure b

/-- The counted loop over `i, i + 1, …`, `n` turns. -/
def times (body : Nat → Prog σ ω Unit) : Nat → Nat → Prog σ ω Unit
  | _, 0 => pure ()
  | i, n + 1 => body i >>= fun _ => times body (i + 1) n

/-! ## Total correctness -/

/-- The program returns, and its result and final store satisfy `Q`. -/
def Ends (x : Prog σ ω α) (s : σ) (Q : α → σ → Prop) : Prop :=
  ∃ a ws, x s = some (a, ws) ∧ Q a (replay ws s)

@[simp] theorem ends_pure {a : α} {s : σ} {Q : α → σ → Prop} :
    Ends (pure a : Prog σ ω α) s Q ↔ Q a s := by
  constructor
  · rintro ⟨b, ws, h, hq⟩
    cases h
    exact hq
  · intro hq
    exact ⟨a, [], rfl, hq⟩

@[simp] theorem ends_read {f : σ → α} {s : σ} {Q : α → σ → Prop} :
    Ends (read f : Prog σ ω α) s Q ↔ Q (f s) s := by
  constructor
  · rintro ⟨b, ws, h, hq⟩
    cases h
    exact hq
  · intro hq
    exact ⟨f s, [], rfl, hq⟩

@[simp] theorem ends_write {w : ω} {s : σ} {Q : Unit → σ → Prop} :
    Ends (write w) s Q ↔ Q () (Store.apply w s) := by
  constructor
  · rintro ⟨b, ws, h, hq⟩
    cases h
    exact hq
  · intro hq
    exact ⟨(), [w], rfl, hq⟩

theorem bind_eq_some {x : Prog σ ω α} {f : α → Prog σ ω β} {s : σ} {b : β} {ws : List ω} :
    (x >>= f) s = some (b, ws) ↔
      ∃ a ws₁ ws₂, x s = some (a, ws₁) ∧ f a (replay ws₁ s) = some (b, ws₂) ∧
        ws = ws₁ ++ ws₂ := by
  constructor
  · intro h
    change (match x s with
      | none => none
      | some (a, ws) => match f a (replay ws s) with
          | none => none
          | some (b, ws') => some (b, ws ++ ws')) = some (b, ws) at h
    split at h
    · cases h
    · next a ws₁ hx =>
        split at h
        · cases h
        · next b' ws₂ hf =>
            cases h
            exact ⟨a, ws₁, ws₂, hx, hf, rfl⟩
  · rintro ⟨a, ws₁, ws₂, hx, hf, rfl⟩
    change (match x s with
      | none => none
      | some (a, ws) => match f a (replay ws s) with
          | none => none
          | some (b, ws') => some (b, ws ++ ws')) = _
    simp only [hx, hf]

@[simp] theorem ends_bind {x : Prog σ ω α} {f : α → Prog σ ω β} {s : σ} {Q : β → σ → Prop} :
    Ends (x >>= f) s Q ↔ Ends x s fun a s' => Ends (f a) s' Q := by
  constructor
  · rintro ⟨b, ws, h, hq⟩
    obtain ⟨a, ws₁, ws₂, hx, hf, rfl⟩ := bind_eq_some.mp h
    exact ⟨a, ws₁, hx, b, ws₂, hf, by simpa [replay_append] using hq⟩
  · rintro ⟨a, ws₁, hx, b, ws₂, hf, hq⟩
    exact ⟨b, ws₁ ++ ws₂, bind_eq_some.mpr ⟨a, ws₁, ws₂, hx, hf, rfl⟩,
      by simpa [replay_append] using hq⟩

@[simp] theorem ends_ite {c : Prop} [Decidable c] {x y : Prog σ ω α} {s : σ}
    {Q : α → σ → Prop} :
    Ends (if c then x else y) s Q ↔ if c then Ends x s Q else Ends y s Q := by
  split <;> rfl

theorem Ends.mono {x : Prog σ ω α} {s : σ} {Q Q' : α → σ → Prop} (h : Ends x s Q)
    (imp : ∀ a s', Q a s' → Q' a s') : Ends x s Q' := by
  obtain ⟨a, ws, hx, hq⟩ := h
  exact ⟨a, ws, hx, imp _ _ hq⟩

theorem Ends.of_eq {x : Prog σ ω α} {s : σ} {Q : α → σ → Prop} {a : α} {ws : List ω}
    (h : Ends x s Q) (hx : x s = some (a, ws)) : Q a (replay ws s) := by
  obtain ⟨a', ws', hx', hq⟩ := h
  rw [hx] at hx'
  cases hx'
  exact hq

theorem Ends.and {x : Prog σ ω α} {s : σ} {Q Q' : α → σ → Prop} (h : Ends x s Q)
    (h' : Ends x s Q') : Ends x s fun a s' => Q a s' ∧ Q' a s' := by
  obtain ⟨a, ws, hx, hq⟩ := h
  exact ⟨a, ws, hx, hq, h'.of_eq hx⟩

/-- The loop rule. `I k a s` says that at most `k` further turns are needed from
local state `a` in store `s`. -/
theorem ends_loop {body : α → Prog σ ω (α ⊕ β)} {Q : β → σ → Prop} (I : Nat → α → σ → Prop)
    (turn : ∀ k a s, I k a s → Ends (body a) s fun r s' =>
      r.elim (fun a' => ∃ k' < k, I k' a' s') (fun b => Q b s'))
    {fuel k : Nat} {a : α} {s : σ} (start : I k a s) (enough : k < fuel) :
    Ends (loop body fuel a) s Q := by
  induction fuel generalizing k a s with
  | zero => omega
  | succ fuel ih =>
      rw [loop, ends_bind]
      refine (turn k a s start).mono fun r s' h => ?_
      cases r with
      | inl a' =>
          obtain ⟨k', hk, hI⟩ := h
          exact ih hI (by omega)
      | inr b => simpa using h

theorem ends_times {body : Nat → Prog σ ω Unit} (I : Nat → σ → Prop) {i n : Nat} {s : σ}
    (turn : ∀ j s, i ≤ j → j < i + n → I j s → Ends (body j) s fun _ s' => I (j + 1) s')
    (start : I i s) : Ends (times body i n) s fun _ s' => I (i + n) s' := by
  induction n generalizing i s with
  | zero => simpa [times] using start
  | succ n ih =>
      rw [times, ends_bind]
      refine (turn i s (Nat.le_refl i) (by omega) start).mono fun _ s' h => ?_
      have hrest := ih (i := i + 1) (s := s')
        (fun j s hj hn hI => turn j s (by omega) (by omega) hI) h
      rwa [Nat.add_right_comm i 1 n] at hrest

/-! ## Which writes a program can make -/

/-- The final store of a run is the replay of writes the program can make. -/
theorem Ends.emits {x : Prog σ ω α} {s : σ} {Q : α → σ → Prop} {W : ω → Prop}
    (h : Ends x s Q) (hx : Emits x W) :
    Ends x s fun a s' => Q a s' ∧ ∃ ws, s' = replay ws s ∧ ∀ w ∈ ws, W w := by
  obtain ⟨a, ws, hr, hq⟩ := h
  exact ⟨a, ws, hr, hq, ws, rfl, hx s a ws hr⟩

theorem emits_pure {a : α} {W : ω → Prop} : Emits (pure a : Prog σ ω α) W := by
  intro s b ws h
  cases h
  simp

theorem Emits.bind {x : Prog σ ω α} {f : α → Prog σ ω β} {W : ω → Prop} (hx : Emits x W)
    (hf : ∀ a, Emits (f a) W) : Emits (x >>= f) W := by
  intro s b ws h w hw
  obtain ⟨a, ws₁, ws₂, h₁, h₂, rfl⟩ := bind_eq_some.mp h
  rcases List.mem_append.mp hw with hw | hw
  · exact hx _ _ _ h₁ w hw
  · exact hf a _ _ _ h₂ w hw

/-! ## Reading a run from its writes -/

@[simp] theorem pure_eq_some {a b : α} {s : σ} {ws : List ω} :
    (pure a : Prog σ ω α) s = some (b, ws) ↔ b = a ∧ ws = [] := by
  constructor
  · intro h
    cases h
    exact ⟨rfl, rfl⟩
  · rintro ⟨rfl, rfl⟩
    rfl

theorem read_bind {g : σ → α} {f : α → Prog σ ω β} {s : σ} {b : β} {ws : List ω} :
    (read g >>= f) s = some (b, ws) ↔ f (g s) s = some (b, ws) := by
  rw [bind_eq_some]
  constructor
  · rintro ⟨a, ws₁, ws₂, h₁, h₂, rfl⟩
    cases h₁
    exact h₂
  · intro h
    exact ⟨g s, [], ws, rfl, h, rfl⟩

theorem write_bind {w : ω} {f : Unit → Prog σ ω β} {s : σ} {b : β} {ws : List ω} :
    (write w >>= f) s = some (b, ws) ↔
      ∃ ws', f () (Store.apply w s) = some (b, ws') ∧ ws = w :: ws' := by
  rw [bind_eq_some]
  constructor
  · rintro ⟨a, ws₁, ws₂, h₁, h₂, rfl⟩
    cases h₁
    exact ⟨ws₂, h₂, rfl⟩
  · rintro ⟨ws', h, rfl⟩
    exact ⟨(), [w], ws', rfl, h, rfl⟩

/-! ## Computing a run -/

theorem run_pure {a : α} {s : σ} : (pure a : Prog σ ω α) s = some (a, []) := rfl

theorem run_bind {x : Prog σ ω α} {f : α → Prog σ ω β} {s : σ} {a : α} {ws : List ω}
    (h : x s = some (a, ws)) :
    (x >>= f) s = (f a (replay ws s)).map fun r => (r.1, ws ++ r.2) := by
  change (match x s with
    | none => none
    | some (a, ws) => match f a (replay ws s) with
        | none => none
        | some (b, ws') => some (b, ws ++ ws')) = _
  simp only [h]
  cases f a (replay ws s) with
  | none => rfl
  | some r => rfl

theorem run_none {x : Prog σ ω α} {f : α → Prog σ ω β} {s : σ} (h : x s = none) :
    (x >>= f) s = none := by
  change (match x s with
    | none => none
    | some (a, ws) => match f a (replay ws s) with
        | none => none
        | some (b, ws') => some (b, ws ++ ws')) = _
  simp only [h]

theorem run_read_bind {g : σ → α} {f : α → Prog σ ω β} {s : σ} :
    (read g >>= f) s = f (g s) s := by
  have h : (read g >>= f) s = (f (g s) s).map fun r => (r.1, [] ++ r.2) := run_bind rfl
  rw [h]
  cases f (g s) s with
  | none => rfl
  | some r => rfl

theorem run_write_bind {w : ω} {f : Unit → Prog σ ω β} {s : σ} :
    (write w >>= f) s = (f () (Store.apply w s)).map fun r => (r.1, w :: r.2) := by
  rw [run_bind run_write]
  rfl

/-- A run splits after a part whose writes are known. -/
theorem Emits.split {x : Prog σ ω α} {f : α → Prog σ ω β} {W : ω → Prop} (hx : Emits x W)
    {s : σ} {b : β} {ws : List ω} (h : (x >>= f) s = some (b, ws)) :
    ∃ a ws₁ ws₂, x s = some (a, ws₁) ∧ (∀ w ∈ ws₁, W w) ∧
      f a (replay ws₁ s) = some (b, ws₂) ∧ ws = ws₁ ++ ws₂ := by
  obtain ⟨a, ws₁, ws₂, h₁, h₂, rfl⟩ := bind_eq_some.mp h
  exact ⟨a, ws₁, ws₂, h₁, hx s a ws₁ h₁, h₂, rfl⟩

/-- A part without writes leaves the store to the rest. -/
theorem Emits.skip {x : Prog σ ω α} {f : α → Prog σ ω β} (hx : Emits x fun _ => False)
    {s : σ} {b : β} {ws : List ω} (h : (x >>= f) s = some (b, ws)) :
    ∃ a, x s = some (a, []) ∧ f a s = some (b, ws) := by
  obtain ⟨a, ws₁, ws₂, h₁, hw, h₂, rfl⟩ := hx.split h
  obtain rfl := hx.quiet h₁
  exact ⟨a, h₁, h₂⟩

/-- More fuel gives the same run. -/
theorem loop_mono {body : α → Prog σ ω (α ⊕ β)} {fuel fuel' : Nat} {a : α} {s : σ}
    {r : β × List ω} (h : loop body fuel a s = some r) (hle : fuel ≤ fuel') :
    loop body fuel' a s = some r := by
  induction fuel generalizing fuel' a s r with
  | zero => cases h
  | succ fuel ih =>
      obtain ⟨fuel', rfl⟩ : ∃ n, fuel' = n + 1 := ⟨fuel' - 1, by omega⟩
      obtain ⟨b, ws⟩ := r
      rw [loop, bind_eq_some] at h ⊢
      obtain ⟨c, ws₁, ws₂, hbody, hrest, rfl⟩ := h
      refine ⟨c, ws₁, ws₂, hbody, ?_, rfl⟩
      cases c with
      | inl a' => exact ih hrest (by omega)
      | inr b' => exact hrest

/-- A turn that changes nothing is repeated for ever. -/
theorem loop_spin {body : α → Prog σ ω (α ⊕ β)} {a : α} {s : σ}
    (h : body a s = some (.inl a, [])) (fuel : Nat) : loop body fuel a s = none := by
  induction fuel with
  | zero => rfl
  | succ fuel ih =>
      rw [loop, run_bind h]
      simp [ih]

theorem Emits.loop {body : α → Prog σ ω (α ⊕ β)} {W : ω → Prop} (h : ∀ a, Emits (body a) W)
    (fuel : Nat) (a : α) : Emits (loop body fuel a) W := by
  induction fuel generalizing a with
  | zero => exact emits_stuck
  | succ fuel ih =>
      refine (h a).bind fun r => ?_
      cases r with
      | inl a' => exact ih a'
      | inr b => exact emits_pure

end Prog

end Calculus

end Jump.Core
