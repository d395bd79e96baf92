/-!
# Triples for programs which keep a state and may fail

A triple says what a program leaves when it starts in a good state: what holds of its value
and its state when it returns, and of its state when it fails. Two programs are related when,
from related states, both return related values or both fail with one error, and related
states are left. A failing program keeps the changes which it made before.
-/

namespace Triples

variable {E F S T A B C D : Type}

/-- What a program leaves. -/
def Triple (pre : S → Prop) (prog : EStateM E S A) (post : A → S → Prop) (fail : S → Prop) : Prop :=
  ∀ s, pre s → match prog s with
    | .ok a t => post a t
    | .error _ t => fail t

/-- Related outcomes. -/
inductive ResultRel (rel : S → T → Prop) (value : A → B → Prop) :
    EStateM.Result E S A → EStateM.Result E T B → Prop
  | ok {a : A} {b : B} {s : S} {t : T} (hvalue : value a b) (hrel : rel s t) :
    ResultRel rel value (.ok a s) (.ok b t)
  | error {e : E} {s : S} {t : T} (hrel : rel s t) : ResultRel rel value (.error e s) (.error e t)

/-- Related programs. -/
def Related (rel : S → T → Prop) (value : A → B → Prop) (prog : EStateM E S A)
    (prog' : EStateM E T B) : Prop :=
  ∀ s t, rel s t → ResultRel rel value (prog s) (prog' t)

/-- The state which a program leaves, also when it fails. -/
def finalState : EStateM.Result E S A → S
  | .ok _ s => s
  | .error _ s => s

/-- Run a program on a part of a state. -/
def zoom (wrap : E → F) (get : S → T) (set : T → S → S) (prog : EStateM E T A) : EStateM F S A :=
  fun s => match prog (get s) with
    | .ok a t => .ok a (set t s)
    | .error e t => .error (wrap e) (set t s)

section Run

variable {prog : EStateM E S A} {next : A → EStateM E S B} {s t : S} {a : A} {e : E}

/-- A program after one which returned. -/
theorem bind_ok (h : prog s = .ok a t) : (prog >>= next) s = next a t := by
  change EStateM.bind prog next s = _
  rw [EStateM.bind, h]

/-- A program after one which failed. -/
theorem bind_error (h : prog s = .error e t) : (prog >>= next) s = .error e t := by
  change EStateM.bind prog next s = _
  rw [EStateM.bind, h]

/-- A program after a result. -/
theorem ofExcept_ok {result : Except E A} (h : result = .ok a) :
    ((MonadExcept.ofExcept result : EStateM E S A) >>= next) s = next a s := by
  rw [h]
  rfl

end Run

section Triple

variable {pre pre' : S → Prop} {prog : EStateM E S A} {post post' : A → S → Prop}
  {fail fail' : S → Prop}

/-- What a triple says of a program which returns. -/
theorem Triple.of_ok (h : Triple pre prog post fail) {s t : S} {a : A} (hs : pre s)
    (hrun : prog s = .ok a t) : post a t := by
  have hresult := h s hs
  rw [hrun] at hresult
  exact hresult

/-- What a triple says of a program which fails. -/
theorem Triple.of_error (h : Triple pre prog post fail) {s t : S} {e : E} (hs : pre s)
    (hrun : prog s = .error e t) : fail t := by
  have hresult := h s hs
  rw [hrun] at hresult
  exact hresult

/-- A precondition which does not speak of the state is assumed. -/
theorem Triple.assume {p : Prop} (h : p → Triple pre prog post fail) :
    Triple (fun s => pre s ∧ p) prog post fail :=
  fun s hs => h hs.2 s hs.1

/-- What a triple says of the state which is left. -/
theorem Triple.of_finalState (h : Triple pre prog post fail) {s : S} (hs : pre s) {q : S → Prop}
    (hpost : ∀ a t, post a t → q t) (hfail : ∀ t, fail t → q t) : q (finalState (prog s)) := by
  have hresult := h s hs
  cases hrun : prog s with
  | ok a t =>
    rw [hrun] at hresult
    exact hpost a t hresult
  | error e t =>
    rw [hrun] at hresult
    exact hfail t hresult

/-- A triple is weakened. -/
theorem Triple.mono (h : Triple pre prog post fail) (hpre : ∀ s, pre' s → pre s)
    (hpost : ∀ a s, post a s → post' a s) (hfail : ∀ s, fail s → fail' s) :
    Triple pre' prog post' fail' := by
  intro s hs
  have hresult := h s (hpre s hs)
  cases hrun : prog s with
  | ok a t =>
    rw [hrun] at hresult
    exact hpost a t hresult
  | error e t =>
    rw [hrun] at hresult
    exact hfail t hresult

/-- A program which only returns. -/
theorem Triple.pure {a : A} (h : ∀ s, pre s → post a s) :
    Triple pre (Pure.pure a : EStateM E S A) post fail := h

/-- A program which reads the state. -/
theorem Triple.get {post : S → S → Prop} (h : ∀ s, pre s → post s s) :
    Triple pre (MonadState.get : EStateM E S S) post fail := h

/-- A program which changes the state. -/
theorem Triple.update {f : S → S} {post : Unit → S → Prop} (h : ∀ s, pre s → post () (f s)) :
    Triple pre (modify f : EStateM E S Unit) post fail := h

/-- A result which may be an error. -/
theorem Triple.ofExcept {result : Except E A} (hok : ∀ s a, pre s → result = .ok a → post a s)
    (herror : ∀ s, pre s → fail s) :
    Triple pre (MonadExcept.ofExcept result : EStateM E S A) post fail := by
  intro s hs
  cases result with
  | ok a => exact hok s a hs rfl
  | error e => exact herror s hs

/-- One program after another. -/
theorem Triple.bind {next : A → EStateM E S B} {q : A → S → Prop} {post : B → S → Prop}
    (hfirst : Triple pre prog q fail) (hnext : ∀ a, Triple (q a) (next a) post fail) :
    Triple pre (prog >>= next) post fail := by
  intro s hs
  have hresult := hfirst s hs
  simp only [Bind.bind, EStateM.bind]
  cases hrun : prog s with
  | ok a t =>
    rw [hrun] at hresult
    exact hnext a t hresult
  | error e t =>
    rw [hrun] at hresult
    exact hresult

/-- A program which reads the state first. -/
theorem Triple.get_bind {next : S → EStateM E S B} {post : B → S → Prop}
    (h : ∀ s, pre s → Triple (fun t => t = s) (next s) post fail) :
    Triple pre (MonadState.get >>= next) post fail :=
  fun s hs => h s hs s rfl

/-- A program which needs a result first. -/
theorem Triple.ofExcept_bind {result : Except E A} {next : A → EStateM E S B} {post : B → S → Prop}
    (herror : ∀ s, pre s → fail s) (h : ∀ a, result = .ok a → Triple pre (next a) post fail) :
    Triple pre (MonadExcept.ofExcept result >>= next) post fail := by
  intro s hs
  cases hresult : result with
  | ok a => exact h a hresult s hs
  | error e => exact herror s hs

/-- A program which changes the state first. -/
theorem Triple.update_bind {f : S → S} {next : Unit → EStateM E S B} {q : S → Prop}
    {post : B → S → Prop} (hf : ∀ s, pre s → q (f s)) (h : Triple q (next ()) post fail) :
    Triple pre (modify f >>= next) post fail :=
  fun s hs => h (f s) (hf s hs)

/-- A program on a part of the state. -/
theorem Triple.zoom {wrap : E → F} {get : S → T} {set : T → S → S} {prog : EStateM E T A}
    {p : T → Prop} {q : A → T → Prop} {r : T → Prop}
    (h : Triple p prog q r) (hpre : ∀ s, pre s → p (get s))
    (hpost : ∀ s a t, pre s → q a t → post a (set t s))
    (hfail : ∀ s t, pre s → r t → fail (set t s)) :
    Triple pre (zoom wrap get set prog) post fail := by
  intro s hs
  have hresult := h (get s) (hpre s hs)
  simp only [Triples.zoom]
  cases hrun : prog (get s) with
  | ok a t =>
    rw [hrun] at hresult
    exact hpost s a t hs hresult
  | error e t =>
    rw [hrun] at hresult
    exact hfail s t hs hresult

end Triple

section Related

variable {rel : S → T → Prop} {value : A → B → Prop} {prog : EStateM E S A} {prog' : EStateM E T B}

/-- Returned values which are related. -/
theorem Related.pure {a : A} {b : B} (h : value a b) :
    Related rel value (Pure.pure a : EStateM E S A) (Pure.pure b) :=
  fun _ _ hrel => .ok h hrel

/-- One program after another, on both sides. -/
theorem Related.bind {next : A → EStateM E S C} {next' : B → EStateM E T D} {value' : C → D → Prop}
    (hfirst : Related rel value prog prog')
    (hnext : ∀ a b, value a b → Related rel value' (next a) (next' b)) :
    Related rel value' (prog >>= next) (prog' >>= next') := by
  intro s t hrel
  have hresult := hfirst s t hrel
  simp only [Bind.bind, EStateM.bind]
  cases hs : prog s with
  | ok a mid =>
    cases ht : prog' t with
    | ok b mid' =>
      rw [hs, ht] at hresult
      cases hresult with
      | ok hvalue hmid => exact hnext a b hvalue mid mid' hmid
    | error e mid' =>
      rw [hs, ht] at hresult
      cases hresult
  | error e mid =>
    cases ht : prog' t with
    | ok b mid' =>
      rw [hs, ht] at hresult
      cases hresult
    | error e' mid' =>
      rw [hs, ht] at hresult
      cases hresult with
      | error hmid => exact .error hmid

/-- Related outcomes leave related states. -/
theorem ResultRel.finalState {result : EStateM.Result E S A} {result' : EStateM.Result E T B}
    (h : ResultRel rel value result result') :
    rel (Triples.finalState result) (Triples.finalState result') := by
  cases h with
  | ok _ hrel => exact hrel
  | error hrel => exact hrel

/-- A weaker relation of the states which are left. -/
theorem ResultRel.mono {rel' : S → T → Prop} {result : EStateM.Result E S A}
    {result' : EStateM.Result E T B} (h : ResultRel rel value result result')
    (hrel : ∀ s t, rel s t → rel' s t) : ResultRel rel' value result result' := by
  cases h with
  | ok hvalue hs => exact .ok hvalue (hrel _ _ hs)
  | error hs => exact .error (hrel _ _ hs)

/-- Outcomes related to one outcome, with the same value, are related. -/
theorem ResultRel.join {rel' : D → T → Prop} {result : EStateM.Result E S A}
    {other : EStateM.Result E D A} {common : EStateM.Result E T A}
    (h : ResultRel rel (· = ·) result common) (h' : ResultRel rel' (· = ·) other common) :
    ResultRel (fun s d => ∃ t, rel s t ∧ rel' d t) (· = ·) result other := by
  cases h with
  | ok hvalue hrel =>
    cases h' with
    | ok hvalue' hrel' => exact .ok (hvalue.trans hvalue'.symm) ⟨_, hrel, hrel'⟩
  | error hrel =>
    cases h' with
    | error hrel' => exact .error ⟨_, hrel, hrel'⟩

end Related

end Triples
