import Mathlib.Data.List.Forall2
import Shachain2pc.Lib.Triples

/-!
# Joint runs of two programs

Two programs keep states, may fail, and exchange messages over streams. What a program sends
and receives at its end is its traffic. The traffic of two ends meets when both can be carried
out to the end with queues in between: nothing is received before it was sent, and nothing is
left. A joint run of two programs gives each its traffic, and what both return is related.

A run is stated from any traffic which came before and whatever comes after, so that runs of
one program after another compose.
-/

namespace JointRuns

/-- Something that happens at one end of a stream. -/
inductive Event (M : Type) where
  | sent (message : List M)
  | received (message : List M)
  deriving DecidableEq, Repr

/-- Two ends carry out their events, with what is on the way to the left and to the right end, until
nothing is left. -/
inductive Crossing {M : Type} : List M → List M → List (Event M) → List (Event M) → Prop
  | done : Crossing [] [] [] []
  | sendLeft {toLeft toRight message : List M} {left right : List (Event M)}
      (rest : Crossing toLeft (toRight ++ message) left right) :
      Crossing toLeft toRight (.sent message :: left) right
  | receiveLeft {toLeft toRight message : List M} {left right : List (Event M)}
      (rest : Crossing toLeft toRight left right) :
      Crossing (message ++ toLeft) toRight (.received message :: left) right
  | sendRight {toLeft toRight message : List M} {left right : List (Event M)}
      (rest : Crossing (toLeft ++ message) toRight left right) :
      Crossing toLeft toRight left (.sent message :: right)
  | receiveRight {toLeft toRight message : List M} {left right : List (Event M)}
      (rest : Crossing toLeft toRight left right) :
      Crossing toLeft (message ++ toRight) left (.received message :: right)

/-- What happens at one end of some streams, in order, and when two ends meet. -/
class Traffic (L : Type) extends Append L where
  none : L
  none_append : ∀ a : L, none ++ a = a
  append_none : ∀ a : L, a ++ none = a
  append_assoc : ∀ a b c : L, a ++ b ++ c = a ++ (b ++ c)
  Meets : L → L → Prop
  meets_none : Meets none none
  meets_append : ∀ {a b c d : L}, Meets a b → Meets c d → Meets (a ++ c) (b ++ d)
  meets_symm : ∀ {a b : L}, Meets a b → Meets b a

/-- States which hold ends of streams: the traffic to come, and the traffic so far. -/
class Port (S : Type) (L : outParam Type) where
  load : L → L → S → S

section Events

variable {M : Type} {toLeft toRight message : List M} {left right left' right' : List (Event M)}

/-- What follows when nothing is on the way. -/
theorem Crossing.append (h : Crossing toLeft toRight left right)
    (h' : Crossing [] [] left' right') :
    Crossing toLeft toRight (left ++ left') (right ++ right') := by
  induction h with
  | done => exact h'
  | sendLeft _ ih => exact .sendLeft ih
  | receiveLeft _ ih => exact .receiveLeft ih
  | sendRight _ ih => exact .sendRight ih
  | receiveRight _ ih => exact .receiveRight ih

/-- The ends may be exchanged. -/
theorem Crossing.symm (h : Crossing toLeft toRight left right) :
    Crossing toRight toLeft right left := by
  induction h with
  | done => exact .done
  | sendLeft _ ih => exact .sendRight ih
  | receiveLeft _ ih => exact .receiveRight ih
  | sendRight _ ih => exact .sendLeft ih
  | receiveRight _ ih => exact .receiveLeft ih

/-- The traffic of one stream. -/
instance : Traffic (List (Event M)) where
  none := []
  none_append := List.nil_append
  append_none := List.append_nil
  append_assoc := List.append_assoc
  Meets := Crossing [] []
  meets_none := .done
  meets_append := Crossing.append
  meets_symm := Crossing.symm

/-- The traffic of two streams. -/
instance {L L' : Type} [Traffic L] [Traffic L'] : Traffic (L × L') where
  append a b := (a.1 ++ b.1, a.2 ++ b.2)
  none := (Traffic.none, Traffic.none)
  none_append a := Prod.ext (Traffic.none_append a.1) (Traffic.none_append a.2)
  append_none a := Prod.ext (Traffic.append_none a.1) (Traffic.append_none a.2)
  append_assoc a b c :=
    Prod.ext (Traffic.append_assoc a.1 b.1 c.1) (Traffic.append_assoc a.2 b.2 c.2)
  Meets a b := Traffic.Meets a.1 b.1 ∧ Traffic.Meets a.2 b.2
  meets_none := ⟨Traffic.meets_none, Traffic.meets_none⟩
  meets_append h h' := ⟨Traffic.meets_append h.1 h'.1, Traffic.meets_append h.2 h'.2⟩
  meets_symm h := ⟨Traffic.meets_symm h.1, Traffic.meets_symm h.2⟩

/-- The left end sends, and the right end receives. -/
theorem Crossing.sendToRight (h : Crossing [] [] left right) :
    Crossing [] [] (.sent message :: left) (.received message :: right) := by
  have hrest : Crossing [] (message ++ []) left (.received message :: right) := .receiveRight h
  rw [List.append_nil] at hrest
  exact .sendLeft hrest

/-- The right end sends, and the left end receives. -/
theorem Crossing.sendToLeft (h : Crossing [] [] left right) :
    Crossing [] [] (.received message :: left) (.sent message :: right) := by
  have hrest : Crossing (message ++ []) [] (.received message :: left) right := .receiveLeft h
  rw [List.append_nil] at hrest
  exact .sendRight hrest

/-- What happens at the other end. -/
def Event.opposite : Event M → Event M
  | .sent message => .received message
  | .received message => .sent message

/-- Two ends which do opposite things in one order leave nothing. -/
theorem Crossing.opposite (events : List (Event M)) :
    Crossing [] [] events (events.map Event.opposite) := by
  induction events with
  | nil => exact .done
  | cons event rest ih =>
    cases event with
    | sent message => exact ih.sendToRight
    | received message => exact ih.sendToLeft

/-- The messages which an end sends. -/
def sentBy (events : List (Event M)) : List M :=
  events.flatMap fun
    | .sent message => message
    | .received _ => []

/-- The messages which an end receives. -/
def receivedBy (events : List (Event M)) : List M :=
  events.flatMap fun
    | .sent _ => []
    | .received message => message

/-- Each end receives what was on the way to it and what the other end sends. -/
theorem Crossing.delivers (h : Crossing toLeft toRight left right) :
    receivedBy left = toLeft ++ sentBy right ∧ receivedBy right = toRight ++ sentBy left := by
  induction h with
  | done => exact ⟨rfl, rfl⟩
  | sendLeft _ ih => exact ⟨ih.1, ih.2.trans (List.append_assoc ..)⟩
  | receiveLeft _ ih => exact ⟨(congrArg (_ ++ ·) ih.1).trans (List.append_assoc ..).symm, ih.2⟩
  | sendRight _ ih => exact ⟨ih.1.trans (List.append_assoc ..), ih.2⟩
  | receiveRight _ ih => exact ⟨ih.1, (congrArg (_ ++ ·) ih.2).trans (List.append_assoc ..).symm⟩

/-- What was sent comes off the way in pieces of any lengths. -/
theorem Crossing.drain (toRight : List M) (received : List (List M))
    (h : received.flatten = toRight) :
    Crossing [] toRight [] (received.map .received) := by
  induction received generalizing toRight with
  | nil =>
    subst h
    exact .done
  | cons message rest ih =>
    subst h
    exact .receiveRight (ih rest.flatten rfl)

/-- The left end sends messages, and the right end receives the same in pieces of other lengths. -/
theorem Crossing.resized {sent received : List (List M)} (h : sent.flatten = received.flatten) :
    Crossing [] [] (sent.map .sent) (received.map .received) := by
  have hqueued (toRight : List M) (htotal : toRight ++ sent.flatten = received.flatten) :
      Crossing [] toRight (sent.map .sent) (received.map .received) := by
    clear h
    induction sent generalizing toRight with
    | nil => exact .drain toRight received (by simpa using htotal.symm)
    | cons message rest ih => exact .sendLeft (ih _ (by simpa using htotal))
  exact hqueued [] h

end Events

/-! ## Rounds -/

/-- Rounds, in each of which two streams are used, whichever goes first. The first stream of one
party is the second of the other. -/
def Rounds (L : Type) : Type := List (L × L)

namespace Rounds

variable {L : Type} [Traffic L]

/-- The traffic of the first stream. -/
def first (rounds : Rounds L) : L :=
  List.foldr (fun round rest => round.1 ++ rest) Traffic.none rounds

/-- The traffic of the second stream. -/
def second (rounds : Rounds L) : L :=
  List.foldr (fun round rest => round.2 ++ rest) Traffic.none rounds

/-- In every round the streams of two parties meet. -/
def Meet (left right : Rounds L) : Prop :=
  List.Forall₂ (fun a b => Traffic.Meets a.1 b.2 ∧ Traffic.Meets a.2 b.1) left right

instance : Traffic (Rounds L) where
  append left right := List.append left right
  none := []
  none_append := List.nil_append
  append_none := List.append_nil
  append_assoc := List.append_assoc
  Meets := Meet
  meets_none := .nil
  meets_append h h' := List.rel_append h h'
  meets_symm h := List.Forall₂.flip (List.Forall₂.imp (fun _ _ hround =>
    ⟨Traffic.meets_symm hround.2, Traffic.meets_symm hround.1⟩) h)

/-- The first stream, round after round. -/
theorem first_append (left right : Rounds L) :
    first (left ++ right) = first left ++ first right := by
  induction left with
  | nil => exact (Traffic.none_append _).symm
  | cons round rest ih => exact (congrArg (round.1 ++ ·) ih).trans (Traffic.append_assoc ..).symm

/-- The second stream, round after round. -/
theorem second_append (left right : Rounds L) :
    second (left ++ right) = second left ++ second right := by
  induction left with
  | nil => exact (Traffic.none_append _).symm
  | cons round rest ih => exact (congrArg (round.2 ++ ·) ih).trans (Traffic.append_assoc ..).symm

/-- One round. -/
def one (first second : L) : Rounds L := [(first, second)]

@[simp] theorem first_one (a b : L) : first (one a b) = a := Traffic.append_none a

@[simp] theorem second_one (a b : L) : second (one a b) = b := Traffic.append_none b

/-- One round meets another. -/
theorem meets_one {a b c d : L} (h : Traffic.Meets a d) (h' : Traffic.Meets b c) :
    Traffic.Meets (one a b) (one c d) := .cons ⟨h, h'⟩ .nil

end Rounds

/-! ## Runs -/

section Runs

variable {E F S T A B L L' : Type} [Traffic L] [Traffic L'] [Port S L] [Port T L']

/-- A program returns with some traffic, whatever comes later. -/
def Runs (prog : EStateM E S A) (s : S) (events : L) (a : A) (s' : S) : Prop :=
  ∀ todo done, prog (Port.load (events ++ todo) done s) = .ok a (Port.load todo (done ++ events) s')

variable {prog : EStateM E S A} {next : A → EStateM E S B} {s s' s'' : S} {events later : L} {a : A}
  {b : B}

/-- A program which communicates nothing. -/
theorem Runs.local
    (h : ∀ todo done, prog (Port.load todo done s) = .ok a (Port.load todo done s')) :
    Runs prog s Traffic.none a s' := by
  intro todo done
  rw [Traffic.none_append, Traffic.append_none]
  exact h todo done

/-- A value. -/
theorem Runs.pure (a : A) (s : S) : Runs (Pure.pure a : EStateM E S A) s Traffic.none a s :=
  .local fun _ _ => rfl

/-- A program and then another. -/
theorem Runs.bind (h : Runs prog s events a s') (h' : Runs (next a) s' later b s'') :
    Runs (prog >>= next) s (events ++ later) b s'' := by
  intro todo done
  rw [Traffic.append_assoc, Triples.bind_ok (h _ _), h' _ _, Traffic.append_assoc]

/-- A program which communicates nothing comes first. -/
theorem Runs.bindLocal (h : Runs prog s Traffic.none a s') (h' : Runs (next a) s' later b s'') :
    Runs (prog >>= next) s later b s'' := by
  have hboth := h.bind h'
  rwa [Traffic.none_append] at hboth

/-- A program which communicates nothing comes last. -/
theorem Runs.bindQuiet (h : Runs prog s events a s') (h' : Runs (next a) s' Traffic.none b s'') :
    Runs (prog >>= next) s events b s'' := by
  have hboth := h.bind h'
  rwa [Traffic.append_none] at hboth

/-- What a program does with its state does not depend on the traffic. -/
theorem Runs.get {next : S → EStateM E S B} (h : Runs (next s) s events b s')
    (hnext : ∀ todo done, next (Port.load todo done s) = next s) :
    Runs (MonadState.get >>= next) s events b s' := by
  intro todo done
  have hget : (MonadState.get : EStateM E S S) (Port.load (events ++ todo) done s) =
      .ok (Port.load (events ++ todo) done s) (Port.load (events ++ todo) done s) := rfl
  rw [Triples.bind_ok hget, hnext]
  exact h todo done

/-- A result which is given. -/
theorem Runs.ofExcept {result : Except E A} (hresult : result = .ok a)
    (h : Runs (next a) s events b s') :
    Runs (MonadExcept.ofExcept result >>= next) s events b s' := by
  intro todo done
  rw [Triples.ofExcept_ok hresult]
  exact h todo done

/-- A part of a state holds some of the ends. -/
structure Within (get : S → T) (set : T → S → S) (into : L' → L) : Prop where
  run : ∀ (events : L') (todo done : L) (s : S), ∃ todo' done',
    get (Port.load (into events ++ todo) done s) = Port.load (events ++ todo') done' (get s) ∧
      ∀ t, set (Port.load todo' (done' ++ events) t) (Port.load (into events ++ todo) done s) =
        Port.load todo (done ++ into events) (set t s)

/-- A run on a part of a state. -/
theorem Runs.zoom {get : S → T} {set : T → S → S} {into : L' → L} (hwithin : Within get set into)
    {wrap : E → F} {prog : EStateM E T A} {events : L'} {t : T} (h : Runs prog (get s) events a t) :
    Runs (Triples.zoom wrap get set prog) s (into events) a (set t s) := by
  intro todo done
  obtain ⟨todo', done', hget, hset⟩ := hwithin.run events todo done s
  rw [Triples.zoom, hget, h todo' done']
  exact congrArg _ (hset t)

end Runs

/-! ## Joint runs -/

section Joint

variable {E F S T A B C D L : Type} [Traffic L] [Port S L] [Port T L]

/-- Two programs, from related states, return with traffic which meets, and leave what is
related. -/
def Joint (pre : S → T → Prop) (prog : EStateM E S A) (prog' : EStateM F T B)
    (post : A → S → B → T → Prop) : Prop :=
  ∀ s t, pre s t → ∃ left right a s' b t',
    Traffic.Meets left right ∧ Runs prog s left a s' ∧ Runs prog' t right b t' ∧ post a s' b t'

variable {pre pre' : S → T → Prop} {prog : EStateM E S A} {prog' : EStateM F T B}
  {post post' : A → S → B → T → Prop}

/-- Two values. -/
theorem Joint.pure {a : A} {b : B} (h : ∀ s t, pre s t → post a s b t) :
    Joint pre (Pure.pure a : EStateM E S A) (Pure.pure b : EStateM F T B) post :=
  fun s t hst => ⟨_, _, a, s, b, t, Traffic.meets_none, .pure a s, .pure b t, h s t hst⟩

/-- Two programs and then two others. -/
theorem Joint.bind {next : A → EStateM E S C} {next' : B → EStateM F T D}
    {last : C → S → D → T → Prop} (h : Joint pre prog prog' post)
    (hnext : ∀ a b, Joint (post a · b ·) (next a) (next' b) last) :
    Joint pre (prog >>= next) (prog' >>= next') last := by
  intro s t hst
  obtain ⟨left, right, a, s', b, t', hmeets, hleft, hright, hpost⟩ := h s t hst
  obtain ⟨left', right', c, s'', d, t'', hmeets', hleft', hright', hlast⟩ := hnext a b s' t' hpost
  exact ⟨_, _, c, s'', d, t'', Traffic.meets_append hmeets hmeets', hleft.bind hleft',
    hright.bind hright', hlast⟩

/-- A joint run is weakened. -/
theorem Joint.mono (h : Joint pre prog prog' post) (hpre : ∀ s t, pre' s t → pre s t)
    (hpost : ∀ a s b t, post a s b t → post' a s b t) : Joint pre' prog prog' post' := by
  intro s t hst
  obtain ⟨left, right, a, s', b, t', hmeets, hleft, hright, hlast⟩ := h s t (hpre s t hst)
  exact ⟨left, right, a, s', b, t', hmeets, hleft, hright, hpost a s' b t' hlast⟩

/-- A fact which does not speak of the states is assumed. -/
theorem Joint.assume {p : Prop} (h : p → Joint pre prog prog' post) :
    Joint (fun s t => p ∧ pre s t) prog prog' post :=
  fun s t hst => h hst.1 s t hst.2

/-- Joint runs on parts of two states, which keep what holds of the rest. -/
theorem Joint.zoom {S' T' L' E' F' : Type} [Traffic L'] [Port S' L'] [Port T' L'] {get : S' → S}
    {set : S → S' → S'} {get' : T' → T} {set' : T → T' → T'} {into into' : L → L'} {wrap : E → E'}
    {wrap' : F → F'} {rest : S' → T' → Prop} (hwithin : Within get set into)
    (hwithin' : Within get' set' into')
    (hmeets : ∀ left right, Traffic.Meets left right → Traffic.Meets (into left) (into' right))
    (h : Joint pre prog prog' post) :
    Joint (fun s t => pre (get s) (get' t) ∧ rest s t) (Triples.zoom wrap get set prog)
      (Triples.zoom wrap' get' set' prog')
      (fun a s b t => ∃ s₀ t₀ x y, rest s₀ t₀ ∧ s = set x s₀ ∧ t = set' y t₀ ∧ post a x b y) := by
  rintro s t ⟨hst, hrest⟩
  obtain ⟨left, right, a, x, b, y, hmeet, hleft, hright, hpost⟩ := h _ _ hst
  exact ⟨_, _, a, _, b, _, hmeets _ _ hmeet, hleft.zoom hwithin, hright.zoom hwithin', s, t, x,
    y, hrest, rfl,
    rfl, hpost⟩

/-- The two sides of a joint run may be exchanged. -/
theorem Joint.symm (h : Joint pre prog prog' post) :
    Joint (fun t s => pre s t) prog' prog (fun b t a s => post a s b t) := by
  intro t s hst
  obtain ⟨left, right, a, s', b, t', hmeets, hleft, hright, hpost⟩ := h s t hst
  exact ⟨right, left, b, t', a, s', Traffic.meets_symm hmeets, hright, hleft, hpost⟩

end Joint

/-! ## Exchanges -/

/-- States which depend on the events at an end of a stream in a given way. -/
class Evolves (S : Type) (M : outParam Type) [Port S (List (Event M))] where
  after : List (Event M) → S → S
  after_nil : ∀ s : S, after [] s = s
  after_append :
      ∀ (first later : List (Event M)) (s : S), after (first ++ later) s =
        after later (after first s)

section Exchanges

variable {E S M A B : Type} [Port S (List (Event M))] [Evolves S M] {prog : EStateM E S A}
  {next : A → EStateM E S B} {events later : List (Event M)} {a : A} {b : B}

/-- A program which does one thing at its end, in every state. -/
def Exchanges (prog : EStateM E S A) (events : List (Event M)) (a : A) : Prop :=
  ∀ s, Runs prog s events a (Evolves.after events s)

/-- A value. -/
theorem Exchanges.pure (a : A) : Exchanges (Pure.pure a : EStateM E S A) [] a := by
  intro s
  rw [Evolves.after_nil]
  exact .pure a s

/-- One program after another. -/
theorem Exchanges.bind (h : Exchanges prog events a) (h' : Exchanges (next a) later b) :
    Exchanges (prog >>= next) (events ++ later) b := by
  intro s
  rw [Evolves.after_append]
  exact (h s).bind (h' _)

/-- A program which communicates nothing comes last. -/
theorem Exchanges.bindQuiet (h : Exchanges prog events a) (h' : Exchanges (next a) [] b) :
    Exchanges (prog >>= next) events b := by
  have hboth := h.bind h'
  rwa [List.append_nil] at hboth

/-- A result. -/
theorem Exchanges.result {result : Except E A} (hresult : result = .ok a) :
    Exchanges (MonadExcept.ofExcept result : EStateM E S A) [] a := by
  rw [hresult]
  exact .pure a

/-- A result which is used. -/
theorem Exchanges.ofExcept {result : Except E A} (hresult : result = .ok a)
    (h : Exchanges (next a) events b) :
    Exchanges (MonadExcept.ofExcept result >>= next) events b :=
  fun s => .ofExcept hresult (h s)

end Exchanges

end JointRuns
