import Jump.GameServer.System

/-! # The life of a transaction object

The issuing thread is still in `Enter` while the callbacks may already run, and the
last callback deletes the object.
-/

namespace Jump.GameServer

variable {ι V : Type} [DecidableEq ι] {cdc : Codec V}

/-- The callback answers the client, instead of sending the next command. -/
def Callback.answers {V : Type} : Callback → Reply V → Bool
  | .gotName, .nil => false
  | .gotUid, .integer _ => false
  | _, _ => true

/-- The profile in the response of the callback. -/
def Callback.profile {V : Type} (cb : Callback) (r : Reply V) (t : Txn V) (pool : Pool) :
    Option PProfile :=
  match cb, r with
  | .gotProfile, .done => t.player.bind pool.profile
  | _, _ => t.rsp

/-- Only registrations whose body can be parsed are issued; a callback that answers runs after
the issuing thread has left `Enter`, and its response fits into the buffer. -/
def Event.orderly (cdc : Codec V) (s : System ι V) : Event ι → Bool
  | .enter _ _ (.reg (some _)) => true
  | .enter _ _ _ => false
  | .deliver i _ =>
    match s.txn i with
    | none => true
    | some t =>
      match t.wait with
      | .back cb r =>
        !cb.answers r || (!t.inEnter && cdc.fits (cb.profile r t s.pool))
      | _ => true
  | _ => true

/-- The transaction that takes the step. -/
def Event.target : Event ι → ι
  | .enter i _ _ => i
  | .leave i => i
  | .exec i => i
  | .fail i => i
  | .deliver i _ => i

/-- One response, one `delete`, and nothing after it. -/
structure Clean (t : Txn V) : Prop where
  noLateTouch : t.lateTouches = 0
  destroyed_le : t.destroyed ≤ 1
  sent_le : (t.answers.filter Answer.sent).length ≤ 1
  ended : t.wait = .nothing → t.inEnter = false →
    (t.answers.filter Answer.sent).length = 1 ∧ t.destroyed = 1

/-- The transaction waits for a reply and has not answered yet. -/
structure Pending (t : Txn V) : Prop where
  req : ∃ req, t.req = .reg (some req)
  wait : t.wait ≠ .nothing
  rsp : t.rsp = none
  answers : t.answers = []
  destroyed : t.destroyed = 0
  lateTouches : t.lateTouches = 0

/-- The transaction has answered and is gone. -/
structure Closed (t : Txn V) : Prop where
  wait : t.wait = .nothing
  inEnter : t.inEnter = false
  answers : (t.answers.filter Answer.sent).length = 1
  destroyed : t.destroyed = 1
  lateTouches : t.lateTouches = 0

theorem Pending.clean {t : Txn V} (h : Pending t) : Clean t where
  noLateTouch := h.lateTouches
  destroyed_le := by rw [h.destroyed]; decide
  sent_le := by rw [h.answers]; decide
  ended := fun hwait => absurd hwait h.wait

theorem Closed.clean {t : Txn V} (h : Closed t) : Clean t where
  noLateTouch := h.lateTouches
  destroyed_le := Nat.le_of_eq h.destroyed
  sent_le := Nat.le_of_eq h.answers
  ended := fun _ _ => ⟨h.answers, h.destroyed⟩

/-- How often the first transaction answered, was deleted, and was used after that, when
nothing is left to do for it. -/
def ending (es : List (Event Nat)) : Option (Nat × Nat × Nat) :=
  (runEvents plainCodec (fun _ _ => true) emptySystem es).bind fun s =>
    (s.txn 0).bind fun t =>
      if t.wait = .nothing ∧ t.inEnter = false then
        some ((t.answers.filter Answer.sent).length, t.destroyed, t.lateTouches)
      else none

end Jump.GameServer
