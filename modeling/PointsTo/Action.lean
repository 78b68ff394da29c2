import PointsTo.Error

/-!
# Actions

An `Action σ α` works on a state of type `σ` and either gives a value or fails.
A failed action gives the state as well, since what it had done before it failed
stays done.
-/

namespace PointsTo

abbrev Action (σ : Type) : Type → Type := EStateM AnalysisError σ

namespace Action

variable {σ α : Type}

def ofExcept : Except AnalysisError α → Action σ α
  | .ok a => fun s => .ok a s
  | .error e => fun s => .error e s

/-- What an action gives, without the state. -/
def value (m : Action σ α) (s : σ) : Except AnalysisError α :=
  match m s with
  | .ok a _ => .ok a
  | .error e _ => .error e

/-- The state that an action leaves. -/
def state (m : Action σ α) (s : σ) : σ :=
  match m s with
  | .ok _ s => s
  | .error _ s => s

/-- What an action gives and the state it leaves, if it does not fail. -/
def result (m : Action σ α) (s : σ) : Except AnalysisError (α × σ) :=
  match m s with
  | .ok a s => .ok (a, s)
  | .error e _ => .error e

/-- Goes on with the state that `f` gives, and with the old one if it gives none. -/
def ofStep (f : σ → Except AnalysisError (α × σ)) : Action σ α := fun s =>
  match f s with
  | .ok (a, s) => .ok a s
  | .error e => .error e s

@[simp] theorem ofExcept_ok (a : α) (s : σ) : (ofExcept (.ok a) : Action σ α) s = .ok a s := rfl

@[simp] theorem ofExcept_error (e : AnalysisError) (s : σ) :
    (ofExcept (.error e) : Action σ α) s = .error e s := rfl

theorem result_eq_ok_iff {m : Action σ α} {s t : σ} {a : α} :
    result m s = .ok (a, t) ↔ m s = .ok a t := by
  rw [result]
  cases m s <;> simp

end Action

end PointsTo
