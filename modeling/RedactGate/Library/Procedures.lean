import RedactGate.Library.System

/-!
# Procedures

Programs that change a state and can raise, where what was changed before stays changed. What
a procedure does to the state is proved statement by statement.
-/
namespace RedactGate.Library

/-- A program with a state that returns or raises. -/
def Proc (σ ε α : Type) : Type := σ → Except ε α × σ

namespace Proc

variable {σ ε α β : Type}

def andThen (m : Proc σ ε α) (f : α → Proc σ ε β) : Proc σ ε β := fun s =>
  match m s with
  | (.ok a, s) => f a s
  | (.error e, s) => (.error e, s)

instance : Monad (Proc σ ε) where
  pure a s := (.ok a, s)
  bind := andThen

def raise (e : ε) : Proc σ ε α := fun s => (.error e, s)

def read (f : σ → α) : Proc σ ε α := fun s => (.ok (f s), s)

def change (f : σ → σ) : Proc σ ε Unit := fun s => (.ok (), f s)

def lift (r : Except ε α) : Proc σ ε α := fun s => (r, s)

/-- Raise unless the state meets a condition. -/
def require (p : σ → Bool) (e : ε) : Proc σ ε Unit := fun s =>
  (if p s then .ok () else .error e, s)

/-- A procedure raises where its first statement does. -/
theorem bind_of_raised {m : Proc σ ε α} {f : α → Proc σ ε β} {s s' : σ} {e : ε}
    (raised : m s = (.error e, s')) : (m >>= f) s = (.error e, s') := by
  have unfolded : (m >>= f) s = andThen m f s := rfl
  rw [unfolded, andThen, raised]

theorem bind_of_returned {m : Proc σ ε α} {f : α → Proc σ ε β} {s s' : σ} {a : α}
    (returned : m s = (.ok a, s')) : (m >>= f) s = f a s' := by
  have unfolded : (m >>= f) s = andThen m f s := rfl
  rw [unfolded, andThen, returned]

/-- Where two statements return, the first one has returned, and then the second one in the state
that it left. -/
theorem returned_of_bind {m : Proc σ ε α} {f : α → Proc σ ε β} {s s'' : σ} {b : β}
    (returned : (m >>= f) s = (.ok b, s'')) :
    ∃ a s', m s = (.ok a, s') ∧ f a s' = (.ok b, s'') := by
  cases done : m s with
  | mk outcome s' =>
    cases outcome with
    | ok a =>
      rw [bind_of_returned done] at returned
      exact ⟨a, s', rfl, returned⟩
    | error e =>
      rw [bind_of_raised done] at returned
      cases (Prod.mk.inj returned).1

/-! ## What becomes of the state -/

/-- Each run of the procedure takes the state along the relation. -/
def Moves (R : σ → σ → Prop) (m : Proc σ ε α) : Prop := ∀ s, R s (m s).2

section Moves

variable {R : σ → σ → Prop} {m : Proc σ ε α} {f : α → Proc σ ε β}

/-- The second statement runs in the state that the first one leaves, and with what it returns. -/
theorem Moves.bind_returned (first : Moves R m)
    (trans : ∀ {s s' s''}, R s s' → R s' s'' → R s s'')
    (next : ∀ {a s s'}, m s = (.ok a, s') → R s' (f a s').2) : Moves R (m >>= f) := by
  intro s
  have one := first s
  cases done : m s with
  | mk outcome s' =>
    rw [done] at one
    cases outcome with
    | ok a => exact bind_of_returned done ▸ trans one (next done)
    | error e => exact bind_of_raised done ▸ one

theorem Moves.bind (first : Moves R m) (trans : ∀ {s s' s''}, R s s' → R s' s'' → R s s'')
    (next : ∀ a, Moves R (f a)) : Moves R (m >>= f) :=
  first.bind_returned trans fun _ => next _ _

theorem Moves.imp {R' : σ → σ → Prop} (moves : Moves R m) (weaker : ∀ {s s'}, R s s' → R' s s') :
    Moves R' m := fun s => weaker (moves s)

end Moves

end Proc

end RedactGate.Library
