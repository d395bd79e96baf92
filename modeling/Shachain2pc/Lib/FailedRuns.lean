import Shachain2pc.Lib.JointRuns

/-!
# Runs which fail

A program fails after some traffic when it raises the same error whatever comes later.
-/

namespace JointRuns

variable {E S A B L : Type} [Traffic L] [Port S L]

/-- A program fails with some traffic, whatever comes later. -/
def Fails (prog : EStateM E S A) (s : S) (events : L) (e : E) (s' : S) : Prop :=
  ∀ todo done, prog (Port.load (events ++ todo) done s) =
    .error e (Port.load todo (done ++ events) s')

variable {prog : EStateM E S A} {next : A → EStateM E S B} {s s' s'' : S} {events later : L} {a : A}
  {e : E}

/-- An error. -/
theorem Fails.throw (e : E) (s : S) : Fails (throw e : EStateM E S A) s Traffic.none e s := by
  intro todo done
  rw [Traffic.none_append, Traffic.append_none]
  rfl

/-- What follows an error is not run. -/
theorem Fails.bind (h : Fails prog s events e s') (next : A → EStateM E S B) :
    Fails (prog >>= next) s events e s' := by
  intro todo done
  rw [Triples.bind_error (h todo done)]

/-- A program returns, and what follows fails. -/
theorem Runs.bindFails (h : Runs prog s events a s') (h' : Fails (next a) s' later e s'') :
    Fails (prog >>= next) s (events ++ later) e s'' := by
  intro todo done
  rw [Traffic.append_assoc, Triples.bind_ok (h _ _), h' _ _, Traffic.append_assoc]

end JointRuns
