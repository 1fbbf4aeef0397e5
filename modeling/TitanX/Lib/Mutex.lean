import Mathlib.Init

/-!
# Calls under a non-recursive mutex

A component whose methods take a mutex on entry and give it back on return is
modelled by its data together with the state of the mutex (`Guarded`). A call
either returns or does not (`Outcome`). In a run of calls made one after the other, the
only holder of the mutex a call can meet is a call that never returned, or itself, so a
call that waits waits for ever.

`locked` is `std::lock_guard` around a body that may make further calls; `critical`
is the common case of a body that only reads and writes the data.
-/

namespace TitanX

/-- Data under a mutex that must not be locked by its holder. -/
structure Guarded (σ : Type) where
  held : Bool
  data : σ
  deriving DecidableEq

/-- How a call ends: it returns, or it never does. -/
inductive Outcome (σ α : Type) where
  | returned (value : α) (state : σ)
  | blocked (state : σ)

section Outcome

variable {σ τ α β : Type}

/-- The state a call leaves, returned or not. -/
def Outcome.state : Outcome σ α → σ
  | .returned _ s => s
  | .blocked s => s

/-- What a call returned, if it did. -/
def Outcome.value? : Outcome σ α → Option α
  | .returned a _ => some a
  | .blocked _ => none

/-- Go on with `k` once the call has returned. -/
def Outcome.andThen (o : Outcome σ α) (k : α → σ → Outcome σ β) : Outcome σ β :=
  match o with
  | .returned a s => k a s
  | .blocked s => .blocked s

/-- The same call on a component of a larger state. -/
def Outcome.mapState (f : σ → τ) : Outcome σ α → Outcome τ α
  | .returned a s => .returned a (f s)
  | .blocked s => .blocked (f s)

end Outcome

section Locked

variable {σ α : Type}

/-- Run `body` with the mutex, and release it when the body returns. -/
def locked (g : Guarded σ) (body : Guarded σ → Outcome (Guarded σ) α) : Outcome (Guarded σ) α :=
  if g.held then .blocked g
  else (body ⟨true, g.data⟩).andThen (fun a g' => .returned a ⟨false, g'.data⟩)

/-- A critical section that makes no further call. -/
def critical (g : Guarded σ) (f : σ → α × σ) : Outcome (Guarded σ) α :=
  locked g (fun g' => .returned (f g'.data).1 ⟨g'.held, (f g'.data).2⟩)

theorem locked_held {g : Guarded σ} (h : g.held = true)
    (body : Guarded σ → Outcome (Guarded σ) α) : locked g body = .blocked g := if_pos h

theorem locked_free {g : Guarded σ} (h : g.held = false)
    (body : Guarded σ → Outcome (Guarded σ) α) :
    locked g body = (body ⟨true, g.data⟩).andThen (fun a g' => .returned a ⟨false, g'.data⟩) := by
  unfold locked; rw [h]; rfl

/-- A critical section on a free mutex returns and leaves it free. -/
theorem critical_free {g : Guarded σ} (h : g.held = false) (f : σ → α × σ) :
    critical g f = .returned (f g.data).1 ⟨false, (f g.data).2⟩ := locked_free h _

theorem critical_held {g : Guarded σ} (h : g.held = true) (f : σ → α × σ) :
    critical g f = .blocked g := locked_held h _

end Locked

end TitanX
