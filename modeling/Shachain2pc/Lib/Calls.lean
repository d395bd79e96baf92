import Mathlib.Data.List.Basic

/-!
# Programs that call a service

A program sends requests to a service and goes on with the replies. The service is not part
of the program: a run is the list of the requests with their replies. Two programs run
together when the service answers their requests pairwise, so neither can send a request
more than the other.
-/

/-- A program which calls a service, and returns a value or an error. -/
inductive Calls (Req Rep E A : Type) where
  | done (result : Except E A)
  | call (request : Req) (next : Rep → Calls Req Rep E A)

namespace Calls

variable {Req Rep E A B : Type}

/-- Continue with the value a program returns. -/
def bind (calls : Calls Req Rep E A) (next : A → Calls Req Rep E B) : Calls Req Rep E B :=
  match calls with
  | done (.ok value) => next value
  | done (.error e) => done (.error e)
  | call request rest => call request fun reply => (rest reply).bind next

instance : Monad (Calls Req Rep E) where
  pure value := done (.ok value)
  bind := bind

/-- Send one request. -/
def request (req : Req) : Calls Req Rep E Rep := call req fun reply => done (.ok reply)

/-- The program sends these requests, and returns the value when it receives these replies. -/
inductive Returns : Calls Req Rep E A → List (Req × Rep) → A → Prop where
  | done {value : A} : Returns (done (.ok value)) [] value
  | call {req : Req} {next : Rep → Calls Req Rep E A} {reply : Rep} {rest : List (Req × Rep)}
      {value : A} :
        Returns (next reply) rest value → Returns (call req next) ((req, reply) :: rest) value

/-- Both programs return, when the service answers their requests pairwise. -/
inductive Together (serve : Req → Req → Rep → Rep → Prop) :
    Calls Req Rep E A → Calls Req Rep E B → List (Req × Req) → A → B → Prop where
  | done {left : A} {right : B} : Together serve (done (.ok left)) (done (.ok right)) [] left right
  | call {req req' : Req} {next : Rep → Calls Req Rep E A} {next' : Rep → Calls Req Rep E B}
      {reply reply' : Rep} {rest : List (Req × Req)} {left : A} {right : B} :
      serve req req' reply reply' → Together serve (next reply) (next' reply') rest left right →
        Together serve (call req next) (call req' next') ((req, req') :: rest) left right

/-- The programs send their requests pairwise and both return, with whatever the service answers;
the requests and the returned values then meet a condition. -/
inductive Ensures (serve : Req → Req → Rep → Rep → Prop) :
    Calls Req Rep E A → Calls Req Rep E B → (List (Req × Req) → A → B → Prop) → Prop where
  | done {left : A} {right : B} {post : List (Req × Req) → A → B → Prop} :
      post [] left right → Ensures serve (done (.ok left)) (done (.ok right)) post
  | call {req req' : Req} {next : Rep → Calls Req Rep E A} {next' : Rep → Calls Req Rep E B}
      {post : List (Req × Req) → A → B → Prop} :
      (∀ reply reply', serve req req' reply reply' →
        Ensures serve (next reply) (next' reply') fun runs => post ((req, req') :: runs)) →
        Ensures serve (call req next) (call req' next') post

variable {serve : Req → Req → Rep → Rep → Prop} {A' B' : Type} {left : Calls Req Rep E A}
  {right : Calls Req Rep E A'} {post weaker : List (Req × Req) → A → A' → Prop}

/-- Returned values meet the condition without requests. -/
theorem Ensures.pure {value : A} {value' : A'} (h : post [] value value') :
    Ensures serve (Pure.pure value : Calls Req Rep E A)
      (Pure.pure value' : Calls Req Rep E A') post :=
  .done h

/-- Weaken a condition. -/
theorem Ensures.mono (h : Ensures serve left right post)
    (hweaker : ∀ runs value value', post runs value value' → weaker runs value value') :
    Ensures serve left right weaker := by
  induction h generalizing weaker with
  | done hpost => exact .done (hweaker _ _ _ hpost)
  | call _ ih => exact .call fun reply reply' hserve => ih reply reply' hserve fun _ => hweaker _

/-- A pair of sequences: what the first parts ensure, and then what the rests do. -/
theorem Ensures.bind {next : A → Calls Req Rep E B} {next' : A' → Calls Req Rep E B'}
    {last : List (Req × Req) → B → B' → Prop} (h : Ensures serve left right post)
    (hnext : ∀ runs value value', post runs value value' →
      Ensures serve (next value) (next' value') fun rest => last (runs ++ rest)) :
    Ensures serve (left >>= next) (right >>= next') last := by
  induction h generalizing last with
  | done hpost => exact hnext _ _ _ hpost
  | call _ ih =>
    refine .call fun reply reply' hserve => ih reply reply' hserve fun runs value value' hpost => ?_
    exact hnext _ _ _ hpost

/-- What is ensured holds when both programs return together. -/
theorem Ensures.of_together (h : Ensures serve left right post) {runs : List (Req × Req)}
    {value : A} {value' : A'} (hrun : Together serve left right runs value value') :
    post runs value value' := by
  induction h generalizing runs with
  | done hpost =>
    cases hrun
    exact hpost
  | call _ ih =>
    cases hrun with
    | call hserve hrest => exact ih _ _ hserve hrest

/-- What is ensured of a program next to itself holds when it returns. -/
theorem Ensures.of_returns {post : List (Req × Req) → A → A → Prop}
    (h : Ensures (fun _ _ reply reply' => reply = reply') left left post) {runs : List (Req × Rep)}
    {value : A} (hrun : Returns left runs value) :
    post (runs.map fun run => (run.1, run.1)) value value := by
  induction hrun generalizing post with
  | done =>
    cases h with
    | done hpost => exact hpost
  | call _ ih =>
    cases h with
    | call hall => exact ih (hall _ _ rfl)

/-- A program which ensures a condition next to itself returns, whatever the replies are. -/
theorem Ensures.exists_returns {post : List (Req × Req) → A → A → Prop}
    (h : Ensures (fun _ _ reply reply' => reply = reply') left left post) (answer : Req → Rep) :
    ∃ runs value, Returns left runs value ∧ ∀ run ∈ runs, run.2 = answer run.1 := by
  induction left generalizing post with
  | done result =>
    cases h with
    | done _ => exact ⟨[], _, .done, fun _ hmem => absurd hmem List.not_mem_nil⟩
  | call req next ih =>
    cases h with
    | call hall =>
      obtain ⟨runs, value, hrun, hanswer⟩ := ih (answer req) (hall _ _ rfl)
      exact ⟨_, value, .call hrun, List.forall_mem_cons.mpr ⟨rfl, hanswer⟩⟩

/-- With a service which always answers, programs that ensure a condition return together. -/
theorem Ensures.exists_together (h : Ensures serve left right post)
    (htotal : ∀ req req', ∃ reply reply', serve req req' reply reply') :
    ∃ runs value value', Together serve left right runs value value' := by
  induction h with
  | done => exact ⟨_, _, _, .done⟩
  | @call req req' _ _ _ _ ih =>
    obtain ⟨reply, reply', hserve⟩ := htotal req req'
    obtain ⟨runs, value, value', hrun⟩ := ih reply reply' hserve
    exact ⟨_, value, value', .call hserve hrun⟩

end Calls
