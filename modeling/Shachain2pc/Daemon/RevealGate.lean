import Shachain2pc.Daemon.RevealTasks

/-!
# The reveal gate

A call returns a secret, or sends an opening to the peer, only when the secret is derivable
from the known secrets or the requested index is the expected one, and at index zero only
when the seed may be revealed. A handler answers with its share only after it has taken an
authorization that a local call registered under the same key, and has compared the
request with its own channel.
-/

namespace Shachain2pc

open Runs (run)

variable {hashes : Hashes} {inner : Inner} {key : RevealRequestKey} {pc : RevealPc}
  {input : RevealInput} {pending : PendingReveals} {channel : ℕ} {effect : RevealEffect}
  {s t : RevealState}

/-- The requested index is the expected one, and the seed is requested only when allowed. -/
structure RevealRequestKey.Gated (key : RevealRequestKey) : Prop where
  expected : key.requestedIndex = key.expectedNextIndex
  seed : key.requestedIndex = 0 → key.allowSeedReveal = true

/-- The channel's known secrets yield a secret for the requested index. -/
def Derivable (hashes : Hashes) (inner : Inner) (key : RevealRequestKey) (secret : Value32) :
    Prop :=
  ∃ index : Index48, index.get = key.requestedIndex ∧
    deriveKnown hashes.onValue inner.db key.channelIndex index = some secret

/-- A call may return the secret: it is derivable or expected, and the seed is returned only when
allowed. -/
structure RevealAllowed (hashes : Hashes) (inner : Inner) (key : RevealRequestKey)
    (secret : Value32) : Prop where
  gate : Derivable hashes inner key secret ∨ key.requestedIndex = key.expectedNextIndex
  seed : key.requestedIndex = 0 → key.allowSeedReveal = true

/-- What the gate says of an event, given the earlier ones. -/
def EventAllowed (hashes : Hashes) (earlier : List RevealEvent) : RevealEvent → Prop
  | .returned key inner response => RevealAllowed hashes inner key response.secret
  | .sent key opening => key.Gated ∧ ∀ request, opening = .request request → request.key = key
  | .registered key _ => key.Gated
  | .consumed _ key channel _ => .registered key channel ∈ earlier
  | .compared handler inner request context =>
    (∃ channel owned, .consumed handler request.key channel owned ∈ earlier) ∧
      request.key.Gated ∧
      revealNodeContext hashes inner request.key.channelIndex request.key.requestedIndex =
        .ok context ∧
      request.sspTarget = context.sspTarget ∧
      request.deltaLifetimeCheckedUnitsCap = context.deltaLifetimeCheckedUnitsCap ∧
      request.publicBinding = context.publicBinding
  | .released handler request context _ =>
    ∃ inner, .compared handler inner request context ∈ earlier

/-- Every event of a history, latest first, is allowed by the earlier ones. -/
def LogAllowed (hashes : Hashes) : List RevealEvent → Prop
  | [] => True
  | event :: earlier => EventAllowed hashes earlier event ∧ LogAllowed hashes earlier

/-- The call has passed the gate and has not ended. -/
def RevealPc.pastGate : RevealPc → Bool
  | .fresh | .done _ | .dropped => false
  | _ => true

/-- What a handler has done so far. -/
def HandlerAllowed (log : List RevealEvent) (id : ℕ) (handler : RevealHandler) : Prop :=
  match handler.pc with
  | .took channel => ∃ owned, .consumed id handler.request.key channel owned ∈ log
  | .loaded channel _ => (∃ owned, .consumed id handler.request.key channel owned ∈ log) ∧
      handler.request.key.Gated
  | .opened _ context _ _ => ∃ inner, .compared id inner handler.request context ∈ log
  | _ => True

/-- The invariant of the runs. -/
structure GateInvariant (hashes : Hashes) (s : RevealState) : Prop where
  calls : ∀ call ∈ s.calls, call.pc.pastGate = true → call.key.Gated
  pending : ∀ key channel, s.pending key = some channel → .registered key channel ∈ s.log
  handlers : ∀ id handler, s.handlers[id]? = some handler → HandlerAllowed s.log id handler
  log : LogAllowed hashes s.log

/-- The gate at the start of a call: what it returns or lets pass is allowed. -/
theorem revealGate_allowed (hashes : Hashes) (inner : Inner) (key : RevealRequestKey) :
    ((revealGate hashes inner key).pastGate = true → key.Gated) ∧
      ∀ response, revealGate hashes inner key = .done (.ok response) →
        RevealAllowed hashes inner key response.secret := by
  unfold revealGate
  split
  · simp [RevealPc.pastGate]
  · next index hindex =>
    have hget : index.get = key.requestedIndex := Index48.new_get hindex
    split
    · simp [RevealPc.pastGate]
    · next hseed =>
      have hallow : key.requestedIndex = 0 → key.allowSeedReveal = true := by
        simpa [hget] using hseed
      split
      · next secret hknown =>
        refine ⟨by simp [RevealPc.pastGate], fun response h => ?_⟩
        cases h
        exact ⟨.inl ⟨index, hget, hknown⟩, hallow⟩
      · split
        · simp [RevealPc.pastGate]
        · next hexpected => exact ⟨fun _ => ⟨not_not.mp hexpected, hallow⟩, by simp⟩

/-- The gate ends a call or lets it load the node. -/
theorem revealGate_cases (hashes : Hashes) (inner : Inner) (key : RevealRequestKey) :
    (∃ result, revealGate hashes inner key = .done result) ∨
      revealGate hashes inner key = .loadFirst := by
  unfold revealGate
  repeat' split
  all_goals first | exact .inl ⟨_, rfl⟩ | exact .inr rfl

/-- What a step of a call may leave. -/
structure StepAllowed (hashes : Hashes) (inner : Inner) (pending : PendingReveals) (channel : ℕ)
    (key : RevealRequestKey) (effect : RevealEffect) : Prop where
  pc : effect.pc.pastGate = true → key.Gated
  returned : ∀ response, effect.pc = .done (.ok response) →
    RevealAllowed hashes inner key response.secret
  sent : ∀ opening, effect.opening = some opening →
    key.Gated ∧ ∀ request, opening = .request request → request.key = key
  registered : effect.registered = true → key.Gated
  pending : ∀ key' channel', effect.pending key' = some channel' → pending key' = some channel' ∨
    effect.registered = true ∧ key' = key ∧ channel' = channel

/-- The step of a gated call needs only to keep the authorizations and to send its own key. -/
theorem StepAllowed.of_gated (hkey : key.Gated)
    (hsent : ∀ request, effect.opening = some (.request request) → request.key = key)
    (hpending : ∀ key' channel', effect.pending key' = some channel' →
      pending key' = some channel' ∨ effect.registered = true ∧ key' = key ∧ channel' = channel) :
    StepAllowed hashes inner pending channel key effect where
  pc _ := hkey
  returned _ _ := ⟨.inr hkey.expected, hkey.seed⟩
  sent _ hopening := ⟨hkey, fun _ h => hsent _ (h ▸ hopening)⟩
  registered _ := hkey
  pending := hpending

/-- Moving a gated call is allowed. -/
theorem stepAllowed_goto (hkey : key.Gated) (inner' : Inner) (pc : RevealPc) :
    StepAllowed hashes inner pending channel key (.goto inner' pending pc) :=
  .of_gated hkey (by simp [RevealEffect.goto]) fun _ _ h => .inl h

/-- Opening a node by a computation is allowed for a gated call. -/
theorem revealPersistedNode_allowed (hkey : key.Gated) (attempt : Attempt) :
    StepAllowed hashes inner pending channel key
      (revealPersistedNode inner pending key.channelIndex attempt) := by
  unfold revealPersistedNode
  split
  · exact stepAllowed_goto hkey _ _
  · exact .of_gated hkey (by simp) fun _ _ h => .inl h

/-- Opening a cached node is allowed for a gated call. -/
theorem revealCachedNode_allowed (hkey : key.Gated) (attempt : Attempt)
    (node : Ag2pcSecureWires) : StepAllowed hashes inner pending channel key
      (revealCachedNode hashes inner pending channel key attempt node) := by
  have hpersisted : StepAllowed hashes inner pending channel key
      (revealPersistedNode inner pending key.channelIndex attempt) :=
    revealPersistedNode_allowed hkey attempt
  unfold revealCachedNode
  simp only
  split
  · exact hpersisted
  · split
    · split
      · exact stepAllowed_goto hkey _ _
      · split
        · exact stepAllowed_goto hkey _ _
        · exact .of_gated hkey (by simp [eq_comm]) fun _ _ h => .inl h
    · split
      · exact stepAllowed_goto hkey _ _
      · have hupdate : ∀ key' channel', Function.update pending key (some channel) key' =
            some channel' → pending key' = some channel' ∨
              true = true ∧ key' = key ∧ channel' = channel := by
          intro key' channel' h
          by_cases hkey' : key' = key
          · subst hkey'
            rw [Function.update_self, Option.some.injEq] at h
            exact .inr ⟨rfl, rfl, h.symm⟩
          · rw [Function.update_of_ne hkey'] at h
            exact .inl h
        split
        · exact .of_gated hkey (by simp) hupdate
        · exact .of_gated hkey (by simp) hupdate
    · exact hpersisted

/-- A step of a call is allowed. -/
theorem revealStep_allowed
    (h : revealStep hashes inner pending channel key pc input = some effect)
    (hpc : pc.pastGate = true → key.Gated) :
    StepAllowed hashes inner pending channel key effect := by
  unfold revealStep at h
  simp only at h
  split at h
  case h_1 | h_2 | h_19 => cases h
  case h_3 =>
    obtain rfl := Option.some.inj h
    exact ⟨by simp [RevealEffect.goto, RevealPc.pastGate], by simp [RevealEffect.goto],
      by simp [RevealEffect.goto], by simp [RevealEffect.goto], fun _ _ h => .inl h⟩
  case h_4 =>
    obtain rfl := Option.some.inj h
    obtain ⟨hgate, hreturned⟩ := revealGate_allowed hashes inner key
    exact ⟨hgate, hreturned, by simp [RevealEffect.goto], by simp [RevealEffect.goto],
      fun _ _ h => .inl h⟩
  case h_6 =>
    obtain rfl := Option.some.inj h
    exact revealCachedNode_allowed (hpc rfl) _ _
  case h_11 =>
    obtain rfl := Option.some.inj h
    refine .of_gated (hpc rfl) (by simp) fun key' channel' h => ?_
    by_cases hkey : key' = key
    · simp [hkey] at h
    · exact .inl (by simpa [Function.update_of_ne hkey] using h)
  case h_13 =>
    split at h <;> obtain rfl := Option.some.inj h <;> exact stepAllowed_goto (hpc rfl) _ _
  case h_14 =>
    obtain rfl := Option.some.inj h
    split
    · exact stepAllowed_goto (hpc rfl) _ _
    · split
      · exact stepAllowed_goto (hpc rfl) _ _
      · split
        · exact stepAllowed_goto (hpc rfl) _ _
        · exact .of_gated (hpc rfl) (by simp) fun _ _ h => .inl h
  case h_16 =>
    split at h
    · obtain rfl := Option.some.inj h
      exact stepAllowed_goto (hpc rfl) _ _
    · split at h <;> obtain rfl := Option.some.inj h <;> exact stepAllowed_goto (hpc rfl) _ _
  case h_17 =>
    split at h <;> obtain rfl := Option.some.inj h <;> exact stepAllowed_goto (hpc rfl) _ _
  case h_18 =>
    obtain rfl := Option.some.inj h
    unfold storeAndRespond
    split
    · exact stepAllowed_goto (hpc rfl) _ _
    · split <;> exact stepAllowed_goto (hpc rfl) _ _
  all_goals
    obtain rfl := Option.some.inj h
    exact stepAllowed_goto (hpc rfl) _ _

/-- Allowed events before an allowed history are allowed, when they need nothing of it. -/
theorem logAllowed_append {events log : List RevealEvent}
    (hevents : ∀ event ∈ events, ∀ earlier, EventAllowed hashes earlier event)
    (hlog : LogAllowed hashes log) : LogAllowed hashes (events ++ log) := by
  induction events with
  | nil => exact hlog
  | cons event rest ih =>
    exact ⟨hevents event List.mem_cons_self _,
      ih fun event' h => hevents event' (List.mem_cons_of_mem _ h)⟩

/-- The events of an allowed step of a call are allowed. -/
theorem callEvents_allowed {call : RevealCall}
    (h : StepAllowed hashes inner pending channel call.key effect) :
    ∀ event ∈ callEvents call inner channel effect, ∀ earlier,
      EventAllowed hashes earlier event := by
  intro event hevent earlier
  rw [callEvents, List.mem_append, List.mem_append] at hevent
  obtain (hevent | hevent) | hevent := hevent
  · split at hevent
    · next response hpc =>
      obtain rfl := List.mem_singleton.mp hevent
      exact h.returned response hpc
    · cases hevent
  · split at hevent
    · next opening hopening =>
      obtain rfl := List.mem_singleton.mp hevent
      exact h.sent opening hopening
    · cases hevent
  · split at hevent
    · next hregistered =>
      obtain rfl := List.mem_singleton.mp hevent
      exact h.registered hregistered
    · cases hevent

/-- What a handler has done it has done in every longer history. -/
theorem HandlerAllowed.mono {log log' : List RevealEvent} (hlog : ∀ event ∈ log, event ∈ log')
    {id : ℕ} {handler : RevealHandler} (h : HandlerAllowed log id handler) :
    HandlerAllowed log' id handler := by
  unfold HandlerAllowed at h ⊢
  split
  · next hpc =>
    simp only [hpc] at h
    exact h.imp fun _ => hlog _
  · next hpc =>
    simp only [hpc] at h
    exact ⟨h.1.imp fun _ => hlog _, h.2⟩
  · next hpc =>
    simp only [hpc] at h
    exact h.imp fun _ => hlog _
  · trivial

/-- A step of a call keeps the invariant. -/
theorem GateInvariant.step_call (h : GateInvariant hashes s) {id : ℕ}
    (hstep : s.step hashes (.step id input) = some t) : GateInvariant hashes t := by
  obtain ⟨call, hcall, hstep⟩ := Option.bind_eq_some_iff.mp hstep
  obtain ⟨-, hstep⟩ := Option.ite_none_right_eq_some.mp hstep
  obtain ⟨effect, heffect, rfl⟩ := Option.map_eq_some_iff.mp hstep
  have hmem := List.mem_of_getElem? hcall
  have hallowed := revealStep_allowed heffect (h.calls call hmem)
  have hlog : ∀ event ∈ s.log, event ∈ (s.afterCall id call effect).log :=
    fun event hevent => List.mem_append_right _ hevent
  refine ⟨fun call' hcall' => ?_, fun key channel hpending => ?_, fun id' handler hhandler =>
    (h.handlers id' handler hhandler).mono hlog,
    logAllowed_append (callEvents_allowed hallowed) h.log⟩
  · rcases List.mem_or_eq_of_mem_set hcall' with hcall' | rfl
    · exact h.calls call' hcall'
    · exact hallowed.pc
  · rcases hallowed.pending key channel hpending with hpending | ⟨hregistered, rfl, rfl⟩
    · exact hlog _ (h.pending key channel hpending)
    · refine List.mem_append_left _ (List.mem_append_right _ ?_)
      rw [if_pos hregistered]
      exact List.mem_singleton_self _

/-- A step which moves one handler keeps the invariant when the moved handler and the new history
are allowed. -/
theorem GateInvariant.of_handler (h : GateInvariant hashes s) {id : ℕ} {handler : RevealHandler}
    (events : List RevealEvent) (hcalls : t.calls = s.calls)
    (hpending : ∀ key channel, t.pending key = some channel → s.pending key = some channel)
    (hhandlers : t.handlers = s.handlers.set id handler) (hlog : t.log = events ++ s.log)
    (hallowed : LogAllowed hashes t.log) (hhandler : HandlerAllowed t.log id handler) :
    GateInvariant hashes t := by
  have hmem : ∀ event ∈ s.log, event ∈ t.log := fun event hevent =>
    hlog ▸ List.mem_append_right _ hevent
  refine ⟨hcalls ▸ h.calls, fun key channel hkey => hmem _ (h.pending key channel
    (hpending key channel hkey)), fun id' handler' hget => ?_, hallowed⟩
  rw [hhandlers, List.getElem?_set] at hget
  split at hget
  · next heq =>
    subst heq
    split at hget
    · obtain rfl := Option.some.inj hget
      exact hhandler
    · cases hget
  · exact (h.handlers id' handler' hget).mono hmem

/-- A failing handler keeps the invariant. -/
theorem GateInvariant.failHandler (h : GateInvariant hashes s) (inner : Inner) (id : ℕ)
    (handler : RevealHandler) (channel : ℕ) (error : DaemonError) :
    GateInvariant hashes ({ s with inner := inner }.failHandler id handler channel error) :=
  h.of_handler [] rfl (fun _ _ h => h) rfl rfl h.log trivial

/-- A request which passes its checks has passed the gate. -/
theorem checkCachedRequest_gated {request : RevealCachedRequest} {node : Ag2pcSecureWires}
    (h : checkCachedRequest hashes inner request = .ok node) : request.key.Gated := by
  unfold checkCachedRequest at h
  split at h
  · cases h
  · next index hindex =>
    rw [Index48.new_get hindex] at h
    split at h
    · cases h
    · next hseed =>
      split at h
      · cases h
      · next hexpected => exact ⟨not_not.mp hexpected, by simpa using hseed⟩

/-- A request is opened only in the context of the channel it names. -/
theorem openCachedRequest_context {request : RevealCachedRequest} {node : Ag2pcSecureWires}
    {context : RevealNodeContext} {response : RevealCachedResponse} {value : Value32}
    (h : openCachedRequest hashes inner request node = .ok (context, response, value)) :
    revealNodeContext hashes inner request.key.channelIndex request.key.requestedIndex =
        .ok context ∧
      request.sspTarget = context.sspTarget ∧
      request.deltaLifetimeCheckedUnitsCap = context.deltaLifetimeCheckedUnitsCap ∧
      request.publicBinding = context.publicBinding := by
  unfold openCachedRequest at h
  cases hcontext : revealNodeContext hashes inner request.key.channelIndex
      request.key.requestedIndex with
  | error error => simp [hcontext, bind, Except.bind] at h
  | ok context' =>
    simp only [hcontext, bind, Except.bind] at h
    split at h
    · cases h
    · next hcompare =>
      have hsame : context' = context := by
        repeat' split at h
        all_goals cases h
        rfl
      subst hsame
      simpa [and_assoc] using hcompare

/-- A step of a handler keeps the invariant. -/
theorem GateInvariant.work (h : GateInvariant hashes s) {id : ℕ} {written : Bool}
    (hstep : s.step hashes (.work id written) = some t) : GateInvariant hashes t := by
  obtain ⟨handler, hhandler, hstep⟩ := Option.bind_eq_some_iff.mp hstep
  have hdone := h.handlers id handler hhandler
  unfold RevealState.work at hstep
  unfold HandlerAllowed at hdone
  split at hstep
  · next channel hpc =>
    simp only [hpc] at hdone
    obtain rfl := Option.some.inj hstep
    split
    · exact h.failHandler s.inner id handler channel _
    · next node hcheck =>
      exact h.of_handler [] rfl (fun _ _ h => h) rfl rfl h.log
        ⟨hdone, checkCachedRequest_gated hcheck⟩
  · next channel node hpc =>
    simp only [hpc] at hdone
    obtain ⟨⟨owned, hconsumed⟩, hgated⟩ := hdone
    obtain rfl := Option.some.inj hstep
    split
    · exact h.failHandler s.inner id handler channel _
    · next context response value hopen =>
      refine h.of_handler [.compared id s.inner handler.request context] rfl
        (fun _ _ h => h) rfl rfl ⟨?_, h.log⟩ ⟨s.inner, List.mem_cons_self⟩
      exact ⟨⟨channel, owned, hconsumed⟩, hgated, openCachedRequest_context hopen⟩
  · next channel context response value hpc =>
    simp only [hpc] at hdone
    obtain rfl := Option.some.inj hstep
    unfold RevealState.finishHandler
    split
    · exact h.failHandler s.inner id handler channel _
    · split
      · exact h.failHandler s.inner id handler channel _
      · next inner mutations hstore =>
        split
        · exact h.of_handler [.released id handler.request context response] rfl
            (fun _ _ h => h) rfl rfl ⟨hdone, h.log⟩ trivial
        · exact h.failHandler inner id handler channel _
  · cases hstep

/-- Taking an authorization keeps the invariant. -/
theorem GateInvariant.take (h : GateInvariant hashes s) {id : ℕ}
    (hstep : s.step hashes (.take id) = some t) : GateInvariant hashes t := by
  obtain ⟨handler, hhandler, hstep⟩ := Option.bind_eq_some_iff.mp hstep
  obtain ⟨-, hstep⟩ := Option.ite_none_right_eq_some.mp hstep
  obtain ⟨channel, hchannel, rfl⟩ := Option.map_eq_some_iff.mp hstep
  refine h.of_handler [.consumed id handler.request.key channel
    (s.owned handler.request.key channel)] rfl (fun key channel' hkey => ?_) rfl rfl
    ⟨h.pending _ _ hchannel, h.log⟩ ⟨_, List.mem_cons_self⟩
  by_cases heq : key = handler.request.key
  · simp [heq] at hkey
  · simpa [Function.update_of_ne heq] using hkey

/-- One step keeps the invariant. -/
theorem GateInvariant.step (h : GateInvariant hashes s) {label : RevealLabel}
    (hstep : s.step hashes label = some t) : GateInvariant hashes t := by
  cases label with
  | call key =>
    obtain rfl := Option.some.inj hstep
    refine ⟨fun call hcall => ?_, h.pending, h.handlers, h.log⟩
    rcases List.mem_append.mp hcall with hcall | hcall
    · exact h.calls call hcall
    · obtain rfl := List.mem_singleton.mp hcall
      simp [RevealPc.pastGate]
  | step id input => exact h.step_call hstep
  | incoming request =>
    obtain rfl := Option.some.inj hstep
    refine ⟨h.calls, h.pending, fun id handler hhandler => ?_, h.log⟩
    rw [List.getElem?_append] at hhandler
    split at hhandler
    · exact h.handlers id handler hhandler
    · obtain rfl := List.mem_singleton.mp (List.mem_of_getElem? hhandler)
      trivial
  | take id => exact h.take hstep
  | authorizationTimer id =>
    obtain ⟨handler, hhandler, hstep⟩ := Option.bind_eq_some_iff.mp hstep
    obtain ⟨-, hstep⟩ := Option.ite_none_right_eq_some.mp hstep
    obtain rfl := Option.some.inj hstep
    exact h.of_handler [] rfl (fun _ _ h => h) rfl rfl h.log trivial
  | work id written => exact h.work hstep
  | dropHandler id =>
    obtain ⟨handler, hhandler, hstep⟩ := Option.bind_eq_some_iff.mp hstep
    split at hstep
    · cases hstep
    · cases hstep
    · obtain rfl := Option.some.inj hstep
      split <;> exact h.of_handler [] rfl (fun _ _ h => h) rfl rfl h.log trivial
  | memory inner =>
    obtain rfl := Option.some.inj hstep
    exact ⟨h.calls, h.pending, h.handlers, h.log⟩

/-- A daemon with no reveal task meets the invariant. -/
theorem GateInvariant.start (hashes : Hashes) (inner : Inner) :
    GateInvariant hashes (.start inner) where
  calls _ h := (List.not_mem_nil h).elim
  pending _ _ h := nomatch h
  handlers _ _ h := nomatch h
  log := trivial

/-- A call which may return no secret ends at the gate. -/
theorem revealGate_refused (h : ¬ ∃ secret, RevealAllowed hashes inner key secret) :
    ∃ error, revealGate hashes inner key = .done (.error error) := by
  obtain ⟨hgated, hreturned⟩ := revealGate_allowed hashes inner key
  rcases revealGate_cases hashes inner key with ⟨result, hdone⟩ | hload
  · cases result with
    | error error => exact ⟨error, hdone⟩
    | ok response => exact absurd ⟨_, hreturned response hdone⟩ h
  · have hkey := hgated (by rw [hload]; rfl)
    exact absurd ⟨⟨Vector.replicate 32 0⟩, .inr hkey.expected, hkey.seed⟩ h

/-- In every run a secret is returned or an opening sent only past the gate, and a share is released
only after a local authorization with the same key and a comparison with the channel; and a
call which may return no secret ends at the gate and leaves everything else unchanged. -/
theorem reveal_gate (hashes : Hashes) (inner : Inner) (labels : List RevealLabel)
    (hrun : run (RevealState.step hashes) (.start inner) labels = some t) :
    LogAllowed hashes t.log ∧
      ∀ id call, t.calls[id]? = some call → call.pc = .fresh →
        (¬ ∃ secret, RevealAllowed hashes t.inner call.key secret) →
        ∃ error, t.step hashes (.step id .lock) = some { t with
          nextChannel := t.nextChannel + 1
          calls := t.calls.set id { call with pc := .done (.error error) } } := by
  have hinv : GateInvariant hashes t :=
    Runs.invariant_of_step (fun _ _ _ h hstep => h.step hstep) (.start hashes inner) hrun
  refine ⟨hinv.log, fun id call hcall hfresh hrefused => ?_⟩
  obtain ⟨error, herror⟩ := revealGate_refused hrefused
  refine ⟨error, ?_⟩
  obtain ⟨key, pc⟩ := call
  obtain rfl : pc = .fresh := hfresh
  simp [RevealState.step, hcall, RevealState.admits, revealStep, herror, RevealState.afterCall,
    RevealEffect.goto, callEvents]

/-- Constant hash functions. -/
def constantHashes : Hashes :=
  ⟨fun _ => ⟨Vector.replicate 32 0⟩, fun _ _ => ⟨Vector.replicate 32 0⟩⟩

/-- A node whose bits and shares are all zero. -/
def zeroNode : Ag2pcSecureWires where
  lambda := List.replicate 256 0
  wireBundle := List.replicate 256 ⟨Vector.replicate 16 0, Vector.replicate 16 0⟩
  label0 := []
  evalLabel := []

/-- A daemon with one enabled channel which holds the node of index one. -/
def oneNodeInner (role : Role) : Inner where
  cfg := ⟨role, some "peer", 1, 1⟩
  masterSecret := []
  db := PlainDb.default.setChannel 1 { emptyChannelRecord with
    enabled := true
    frontierNodes := (∅ : DecimalMap WireRecord).insert 1
      (.ofWires (⟨Vector.replicate 32 0⟩, ⟨Vector.replicate 32 0⟩) zeroNode) }
  activeJobs := ∅
  nextJobId := 0

/-- The request that the peer sends for this node. -/
def oneNodeRequest : RevealCachedRequest where
  key := ⟨1, 1, 1, false⟩
  shareBits := List.replicate 256 0
  macDigest := List.replicate 32 0
  sspTarget := defaultSspTarget
  deltaLifetimeCheckedUnitsCap := defaultDeltaCap
  publicBinding := ⟨Vector.replicate 32 0⟩

/-- A call on Bob registers its authorization, and the peer's request takes it and is answered. -/
theorem reveal_gate_released : ∃ t,
    run (RevealState.step constantHashes) (.start (oneNodeInner .bob))
      [.call ⟨1, 1, 1, false⟩, .step 0 .lock, .step 0 .lock, .step 0 .lock,
        .incoming oneNodeRequest, .take 0, .work 0 true, .work 0 true, .work 0 true] = some t ∧
      (t.log.any fun event => event matches .released ..) = true ∧
      LogAllowed constantHashes t.log := by
  have hreleased : ((run (RevealState.step constantHashes) (.start (oneNodeInner .bob))
      [.call ⟨1, 1, 1, false⟩, .step 0 .lock, .step 0 .lock, .step 0 .lock,
        .incoming oneNodeRequest, .take 0, .work 0 true, .work 0 true, .work 0 true]).map
      fun t => t.log.any fun event => event matches .released ..) = some true := by
    decide +kernel
  obtain ⟨t, hrun, hreleased⟩ := Option.map_eq_some_iff.mp hreleased
  exact ⟨t, hrun, hreleased, (reveal_gate _ _ _ hrun).1⟩

end Shachain2pc
