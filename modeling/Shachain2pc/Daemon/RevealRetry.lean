import Shachain2pc.Daemon.PendingReveals
import Shachain2pc.Daemon.RevealPair

/-!
# Retrying a reveal after a lost message

When one daemon has a secret and the other does not, a retry calls `reveal` on both. The
daemon which has the secret answers its own call from its known secrets, so it neither sends
a request nor registers an authorization, and the call of the other daemon finds no partner.
The retry succeeds exactly when the other daemon can derive the secret by itself.
-/

namespace Shachain2pc

open Std
open Runs (run Along)

variable {hashes : Hashes} {key : RevealRequestKey} {secret : Value32}

/-- The known secrets of a channel, none where it does not exist. -/
def PlainDb.knownSecrets (db : PlainDb) (channelIndex : ℕ) : DecimalMap Value32 :=
  (db.channelOrEmpty channelIndex).knownSecrets

/-- The steps of a daemon in a retry started from `base`: those of the fresh call, which is not
dropped, of new handlers, and of tasks which leave the channel's known secrets alone. -/
def RetryTask (base : RevealState) (channelIndex : ℕ) (d : RevealState) : RevealLabel → Prop
  | .step id input => id = base.calls.length ∧ input ≠ .drop
  | .take id | .authorizationTimer id | .work id _ => base.handlers.length ≤ id
  | .memory inner => inner.db.knownSecrets channelIndex = d.inner.db.knownSecrets channelIndex
  | _ => False

instance (base : RevealState) (channelIndex : ℕ) (d : RevealState) :
    ∀ label, Decidable (RetryTask base channelIndex d label)
  | .step _ _ => inferInstanceAs (Decidable (_ ∧ _))
  | .take _ | .authorizationTimer _ | .work _ _ => inferInstanceAs (Decidable (_ ≤ _))
  | .memory _ => inferInstanceAs (Decidable (_ = _))
  | .call _ | .incoming _ | .dropHandler _ => isFalse id

/-- A step of the fresh call is one of the retry's. -/
theorem RetryTask.step (base : RevealState) (channelIndex : ℕ) (d : RevealState)
    {input : RevealInput} (hdrop : input ≠ .drop) :
    RetryTask base channelIndex d (.step base.calls.length input) :=
  ⟨rfl, hdrop⟩

/-- The steps of a retry: those of the daemons, of the new exchanges, none of which is lost, and of
the fresh calls together. -/
def RetryStep (base : RevealPair) (channelIndex : ℕ) (s : RevealPair) : PairLabel → Prop
  | .task role label => RetryTask (base.daemons role) channelIndex (s.daemons role) label
  | .deliver n | .answer n | .receive n => base.exchanges.length ≤ n
  | .lose _ _ => False
  | .frontier role id _ => id = (base.daemons role).calls.length
  | .compute id _ => ∀ role, id role = (base.daemons role).calls.length

instance (base : RevealPair) (channelIndex : ℕ) (s : RevealPair) :
    ∀ label, Decidable (RetryStep base channelIndex s label)
  | .task _ _ => inferInstanceAs (Decidable (RetryTask ..))
  | .deliver _ | .answer _ | .receive _ => inferInstanceAs (Decidable (_ ≤ _))
  | .lose _ _ => isFalse id
  | .frontier _ _ _ => inferInstanceAs (Decidable (_ = _))
  | .compute id _ => decidable_of_iff (id .alice = (base.daemons .alice).calls.length ∧
      id .bob = (base.daemons .bob).calls.length)
      ⟨fun h role => by cases role <;> simp [h], fun h => ⟨h .alice, h .bob⟩⟩

/-- The fresh call of a daemon has returned the secret. -/
def RevealState.Returned (base d : RevealState) (secret : Value32) : Prop :=
  ∃ key response, d.calls[base.calls.length]? = some ⟨key, .done (.ok response)⟩ ∧
    response.secret = secret

/-- The fresh call of a daemon has not started. -/
def RevealState.NotStarted (base d : RevealState) : Prop :=
  ∃ key, d.calls[base.calls.length]? = some ⟨key, .fresh⟩

/-- A retry from `base` in which no message is lost returns the secret on both daemons: both calls
can end, and whenever one has taken a step it has ended with the secret. -/
structure Retried (hashes : Hashes) (base : RevealPair) (key : RevealRequestKey)
    (secret : Value32) :
    Prop where
  ends : ∃ labels t, run (RevealPair.step hashes) (base.callBoth key) labels = some t ∧
    Along (RevealPair.step hashes) (RetryStep base key.channelIndex) (base.callBoth key) labels ∧
    ∀ role, (base.daemons role).Returned (t.daemons role) secret
  returns : ∀ labels t, run (RevealPair.step hashes) (base.callBoth key) labels = some t →
    Along (RevealPair.step hashes) (RetryStep base key.channelIndex) (base.callBoth key) labels →
    ∀ role, (base.daemons role).NotStarted (t.daemons role) ∨
      (base.daemons role).Returned (t.daemons role) secret

/-- `derive_known` reads only the known secrets of the channel. -/
theorem deriveKnown_eq (sha256 : Value32 → Value32) (db : PlainDb) (channelIndex : ℕ)
    (index : Index48) : deriveKnown sha256 db channelIndex index =
      (db.knownSecrets channelIndex).toList.findSome? fun entry =>
        deriveFromKnown sha256 entry.1 entry.2 index.get := by
  rw [deriveKnown, PlainDb.knownSecrets, PlainDb.channelOrEmpty]
  cases hc : db.channels[channelIndex]? with
  | none => rw [Option.getD_none, show emptyChannelRecord.knownSecrets.toList = [] from rfl]; rfl
  | some channel => rfl

/-- What is derivable depends only on the known secrets of the channel. -/
theorem Derivable.congr {inner inner' : Inner}
    (hknown : inner'.db.knownSecrets key.channelIndex = inner.db.knownSecrets key.channelIndex)
    (h : Derivable hashes inner key secret) : Derivable hashes inner' key secret := by
  obtain ⟨index, hindex, hderive⟩ := h
  exact ⟨index, hindex, by rwa [deriveKnown_eq, hknown, ← deriveKnown_eq]⟩

/-- A fresh call for a derivable secret returns it. -/
theorem revealGate_derivable {inner : Inner} (hgated : key.Gated)
    (h : Derivable hashes inner key secret) :
    ∃ response, revealGate hashes inner key = .done (.ok response) ∧ response.secret = secret := by
  obtain ⟨index, hindex, hderive⟩ := h
  have hnew : Index48.new key.requestedIndex = .ok index := by
    rw [← hindex]
    exact dif_pos index.le_max
  refine ⟨⟨key.channelIndex, index.get, secret, true, "known"⟩, ?_, rfl⟩
  have hseed : ¬ (index.get = 0 ∧ ¬ key.allowSeedReveal) := by
    rw [hindex]
    exact fun h => h.2 (hgated.seed h.1)
  simp only [revealGate, hnew, if_neg hseed, hderive]

/-- A daemon which has the secret: its fresh call has not started or has returned, and the handlers
of new requests find no authorization. -/
structure KnownSide (base d : RevealState) (key : RevealRequestKey) (secret : Value32) : Prop where
  call : d.calls[base.calls.length]? = some ⟨key, .fresh⟩ ∨
    ∃ response, d.calls[base.calls.length]? = some ⟨key, .done (.ok response)⟩ ∧
      response.secret = secret
  known : d.inner.db.knownSecrets key.channelIndex = base.inner.db.knownSecrets key.channelIndex
  pending : d.pending = base.pending
  length : base.handlers.length ≤ d.handlers.length
  handlers : ∀ id handler, base.handlers.length ≤ id → d.handlers[id]? = some handler →
    base.pending key = none ∧ handler.request.key = key ∧
      (handler.pc = .waiting ∨ ∃ error, handler.pc = .done (.error error))

/-- The daemon with a fresh call is such a daemon. -/
theorem KnownSide.start (base : RevealState) (key : RevealRequestKey) (secret : Value32) :
    KnownSide base { base with calls := base.calls ++ [⟨key, .fresh⟩] } key secret where
  call := .inl (by simp)
  known := rfl
  pending := rfl
  length := Nat.le_refl _
  handlers id handler hid hget := by
    rw [List.getElem?_eq_none hid] at hget
    cases hget

/-- The only step of a fresh call for a derivable secret returns the secret and changes nothing
else. -/
theorem revealStep_fresh_derivable {inner : Inner} {pending : PendingReveals} {channel : ℕ}
    {input : RevealInput} {effect : RevealEffect} (hgated : key.Gated)
    (hderivable : Derivable hashes inner key secret) (hdrop : input ≠ .drop)
    (h : revealStep hashes inner pending channel key .fresh input = some effect) :
    ∃ response, response.secret = secret ∧ effect = .goto inner pending (.done (.ok response)) := by
  obtain ⟨response, hgate, hsecret⟩ := revealGate_derivable hgated hderivable
  cases input with
  | lock =>
    simp only [revealStep, hgate, Option.some.injEq] at h
    exact ⟨response, hsecret, h.symm⟩
  | drop => exact absurd rfl hdrop
  | _ => cases h

/-- In a retry a daemon which has the secret keeps it, and sends no request. -/
theorem KnownSide.task {base d d' : RevealState} {label : RevealLabel}
    (h : KnownSide base d key secret) (role : Role) (hgated : key.Gated)
    (hbase : Derivable hashes base.inner key secret)
    (hretry : RetryTask base key.channelIndex d label) (hstep : d.step hashes label = some d') :
    KnownSide base d' key secret ∧ d.sends hashes role label = [] := by
  cases label with
  | call _ => exact hretry.elim
  | incoming _ => exact hretry.elim
  | dropHandler _ => exact hretry.elim
  | step id input =>
    obtain ⟨rfl, hdrop⟩ := hretry
    obtain ⟨call, hcall, hstep⟩ := Option.bind_eq_some_iff.mp hstep
    obtain ⟨-, hstep⟩ := Option.ite_none_right_eq_some.mp hstep
    obtain ⟨effect, heffect, rfl⟩ := Option.map_eq_some_iff.mp hstep
    rcases h.call with hfresh | ⟨response, hdone, -⟩
    · obtain rfl := Option.some.inj (hcall.symm.trans hfresh)
      obtain ⟨response, hsecret, rfl⟩ := revealStep_fresh_derivable hgated
        (hbase.congr h.known) hdrop heffect
      have hlt := (List.getElem?_eq_some_iff.mp hcall).1
      refine ⟨⟨.inr ⟨response, List.getElem?_set_self hlt, hsecret⟩, h.known, h.pending, h.length,
        h.handlers⟩, ?_⟩
      simp only [RevealState.sends, hcall, heffect, RevealEffect.goto]
    · obtain rfl := Option.some.inj (hcall.symm.trans hdone)
      simp [revealStep] at heffect
  | take id =>
    obtain ⟨handler, hhandler, hstep⟩ := Option.bind_eq_some_iff.mp hstep
    obtain ⟨-, hstep⟩ := Option.ite_none_right_eq_some.mp hstep
    obtain ⟨hnone, hkey, -⟩ := h.handlers id handler hretry hhandler
    rw [hkey, h.pending, hnone] at hstep
    cases hstep
  | authorizationTimer id =>
    obtain ⟨handler, hhandler, hstep⟩ := Option.bind_eq_some_iff.mp hstep
    obtain ⟨-, hstep⟩ := Option.ite_none_right_eq_some.mp hstep
    obtain rfl := Option.some.inj hstep
    obtain ⟨hnone, hkey, -⟩ := h.handlers id handler hretry hhandler
    refine ⟨⟨h.call, h.known, h.pending, ?_, fun id' handler' hid' hget => ?_⟩, rfl⟩
    · rw [RevealState.setHandler, List.length_set]
      exact h.length
    · rw [RevealState.setHandler, List.getElem?_set] at hget
      split at hget
      · split at hget
        · obtain rfl := Option.some.inj hget
          exact ⟨hnone, hkey, .inr ⟨_, rfl⟩⟩
        · cases hget
      · exact h.handlers id' handler' hid' hget
  | work id written =>
    obtain ⟨handler, hhandler, hstep⟩ := Option.bind_eq_some_iff.mp hstep
    obtain ⟨-, -, hpc | ⟨error, hpc⟩⟩ := h.handlers id handler hretry hhandler
    all_goals
      rw [RevealState.work, hpc] at hstep
      cases hstep
  | memory inner =>
    obtain rfl := Option.some.inj hstep
    exact ⟨⟨h.call, hretry.trans h.known, h.pending, h.length, h.handlers⟩, rfl⟩

/-- A new request of the key finds no authorization at a daemon which has the secret. -/
theorem KnownSide.incoming {base d : RevealState} (h : KnownSide base d key secret)
    (hnone : base.pending key = none) {request : RevealCachedRequest} (hkey : request.key = key) :
    KnownSide base { d with handlers := d.handlers ++ [⟨request, .waiting⟩] } key secret := by
  refine ⟨h.call, h.known, h.pending, ?_, fun id handler hid hget => ?_⟩
  · rw [List.length_append]
    exact Nat.le_add_right_of_le h.length
  · rw [List.getElem?_append] at hget
    split at hget
    · exact h.handlers id handler hid hget
    · obtain rfl := List.mem_singleton.mp (List.mem_of_getElem? hget)
      exact ⟨hnone, hkey, .inl rfl⟩

/-- A call of a daemon which has the secret takes part in no computation. -/
theorem KnownSide.computation {base d : RevealState} (h : KnownSide base d key secret) :
    d.calls[base.calls.length]?.bind (·.computation) = none := by
  rcases h.call with hfresh | ⟨response, hdone, -⟩
  · rw [hfresh]
    rfl
  · rw [hdone]
    rfl

/-- The call has not got the secret. -/
def RevealPc.Withholds (secret : Value32) : RevealPc → Prop
  | .store .. => False
  | .done (.ok response) => response.secret ≠ secret
  | _ => True

/-- The input brings a call no secret. -/
def RevealInput.Withholds : RevealInput → Prop
  | .response (.ok _) | .authorized (.ok _) | .opened (.ok _) | .root (.ok _) _ => False
  | _ => True

/-- Reconciling keeps the known secrets. -/
theorem reconcileWithPeer_knownSecrets (inner : Inner) (c channelIndex : ℕ)
    (response : Option GetFrontierResponse) :
    (reconcileWithPeer inner c response).1.db.knownSecrets channelIndex =
      inner.db.knownSecrets channelIndex := by
  unfold reconcileWithPeer
  split
  · next response' channel hchannel =>
    split
    · simp only [PlainDb.knownSecrets, Inner.setChannel, channelOrEmpty_setChannel]
      split
      · next heq =>
        subst heq
        simp [PlainDb.channelOrEmpty, hchannel]
      · rfl
    · rfl
  · rfl

/-- A failed cached open brings no secret. -/
theorem afterCachedError_withholds (secret : Value32) (attempt : Attempt) (error : DaemonError) :
    (afterCachedError attempt error).Withholds secret := by
  unfold afterCachedError
  split <;> trivial

/-- A call passes the gate with the secret only when it is derivable. -/
theorem revealGate_withholds {inner : Inner} (hnot : ¬ Derivable hashes inner key secret) :
    (revealGate hashes inner key).Withholds secret := by
  unfold revealGate
  split
  · trivial
  · next index hindex =>
    split
    · trivial
    · split
      · next known hknown =>
        rintro rfl
        exact hnot ⟨index, Index48.new_get hindex, hknown⟩
      · split <;> trivial

/-- Opening a cached node brings no secret yet and keeps the memory. -/
theorem revealCachedNode_withholds (hashes : Hashes) (inner : Inner) (pending : PendingReveals)
    (channel : ℕ) (key : RevealRequestKey) (attempt : Attempt) (node : Ag2pcSecureWires)
    (secret : Value32) :
    (revealCachedNode hashes inner pending channel key attempt node).pc.Withholds secret ∧
      (revealCachedNode hashes inner pending channel key attempt node).inner = inner := by
  unfold revealCachedNode revealPersistedNode
  simp only
  repeat' split
  all_goals exact ⟨by first | exact afterCachedError_withholds .. | trivial, rfl⟩

/-- A call which gets no secret from its input and can derive none has none after its step, and
leaves the known secrets alone. -/
theorem revealStep_withholds {inner : Inner} {pending : PendingReveals} {channel : ℕ}
    {pc : RevealPc} {input : RevealInput} {effect : RevealEffect}
    (h : revealStep hashes inner pending channel key pc input = some effect)
    (hnot : ¬ Derivable hashes inner key secret) (hpc : pc.Withholds secret)
    (hinput : input.Withholds) : effect.pc.Withholds secret ∧
      effect.inner.db.knownSecrets key.channelIndex = inner.db.knownSecrets key.channelIndex := by
  have hgoto {pc' : RevealPc} (hpc' : pc'.Withholds secret) :
      (RevealEffect.goto inner pending pc').pc.Withholds secret ∧
        (RevealEffect.goto inner pending pc').inner.db.knownSecrets key.channelIndex =
          inner.db.knownSecrets key.channelIndex := ⟨hpc', rfl⟩
  unfold revealStep at h
  simp only at h
  split at h
  case h_1 | h_2 | h_19 => cases h
  case h_4 =>
    obtain rfl := Option.some.inj h
    exact hgoto (revealGate_withholds hnot)
  case h_6 attempt node =>
    obtain rfl := Option.some.inj h
    have hopen := revealCachedNode_withholds hashes inner pending channel key attempt node secret
    exact ⟨hopen.1, by rw [hopen.2]⟩
  case h_18 => exact hpc.elim
  case h_3 =>
    obtain rfl := Option.some.inj h
    exact hgoto trivial
  case h_5 =>
    obtain rfl := Option.some.inj h
    exact hgoto (by split <;> trivial)
  case h_7 result =>
    obtain rfl := Option.some.inj h
    cases result with
    | ok _ => exact hinput.elim
    | error error => exact hgoto (afterCachedError_withholds ..)
  case h_8 result =>
    obtain rfl := Option.some.inj h
    cases result with
    | ok _ => exact hinput.elim
    | error error => exact hgoto (afterCachedError_withholds ..)
  case h_12 result =>
    obtain rfl := Option.some.inj h
    cases result with
    | ok _ => exact hinput.elim
    | error error => exact hgoto (afterCachedError_withholds ..)
  case h_9 =>
    obtain rfl := Option.some.inj h
    exact hgoto (afterCachedError_withholds ..)
  case h_10 =>
    obtain rfl := Option.some.inj h
    exact hgoto trivial
  case h_11 =>
    obtain rfl := Option.some.inj h
    exact ⟨afterCachedError_withholds .., rfl⟩
  case h_13 =>
    split at h <;> obtain rfl := Option.some.inj h
    · exact hgoto trivial
    · refine ⟨?_, reconcileWithPeer_knownSecrets ..⟩
      simp only [RevealEffect.goto]
      split <;> trivial
  case h_14 =>
    obtain rfl := Option.some.inj h
    repeat' split
    all_goals exact ⟨trivial, rfl⟩
  case h_15 =>
    obtain rfl := Option.some.inj h
    refine hgoto ?_
    split
    · trivial
    · split <;> trivial
  case h_16 =>
    split at h
    · obtain rfl := Option.some.inj h
      exact hgoto trivial
    · exact hinput.elim
  case h_17 =>
    split at h
    · obtain rfl := Option.some.inj h
      exact hgoto trivial
    · exact hinput.elim

/-- A daemon which lacks the secret: its fresh call has not got it, no new channel has delivered a
secret, and no request has arrived. -/
structure LackingSide (base d : RevealState) (key : RevealRequestKey) (secret : Value32) :
    Prop where
  call : ∃ pc, d.calls[base.calls.length]? = some ⟨key, pc⟩ ∧ pc.Withholds secret ∧
    ∀ channel, pc.channel = some channel → base.nextChannel ≤ channel
  known : d.inner.db.knownSecrets key.channelIndex = base.inner.db.knownSecrets key.channelIndex
  handlers : d.handlers.length = base.handlers.length
  next : base.nextChannel ≤ d.nextChannel
  mailbox : ∀ channel, base.nextChannel ≤ channel → ∀ value,
    d.mailbox channel ≠ .delivered (.ok value)

/-- The daemon with a fresh call is such a daemon, when no new channel has been used. -/
theorem LackingSide.start {base : RevealState} (key : RevealRequestKey) (secret : Value32)
    (hnew : ∀ channel, base.nextChannel ≤ channel → base.mailbox channel = .empty) :
    LackingSide base { base with calls := base.calls ++ [⟨key, .fresh⟩] } key secret where
  call := ⟨.fresh, by simp, trivial, nofun⟩
  known := rfl
  handlers := rfl
  next := Nat.le_refl _
  mailbox channel hle value := by
    rw [hnew channel hle]
    exact nofun

/-- The requests a call sends are under its own key. -/
theorem sends_key {d : RevealState} {role : Role} {id : ℕ} {input : RevealInput} {call : RevealCall}
    (hcall : d.calls[id]? = some call) (hgated : call.key.Gated) {exchange : Exchange}
    (hmem : exchange ∈ d.sends hashes role (.step id input)) :
    exchange.caller = role ∧ exchange.id = id ∧ exchange.request.key = call.key ∧
      exchange.phase = .sent := by
  simp only [RevealState.sends, hcall] at hmem
  split at hmem
  · cases hmem
  · next effect heffect =>
    split at hmem
    · next request hopening =>
      obtain rfl := List.mem_singleton.mp hmem
      have hallowed := revealStep_allowed heffect fun _ => hgated
      exact ⟨rfl, rfl, (hallowed.sent _ hopening).2 request rfl, rfl⟩
    · cases hmem

/-- A step of the fresh call brings a daemon without the secret no secret, unless the peer does. -/
theorem LackingSide.step {base d d' : RevealState} {input : RevealInput}
    (h : LackingSide base d key secret) (hnot : ¬ Derivable hashes base.inner key secret)
    (hinput : input.Withholds ∨ ∃ result, input = .authorized result)
    (hstep : d.step hashes (.step base.calls.length input) = some d') :
    LackingSide base d' key secret := by
  obtain ⟨call, hcall, hstep⟩ := Option.bind_eq_some_iff.mp hstep
  obtain ⟨hadmits, hstep⟩ := Option.ite_none_right_eq_some.mp hstep
  obtain ⟨effect, heffect, rfl⟩ := Option.map_eq_some_iff.mp hstep
  obtain ⟨pc, hpc, hwithholds, hchannel⟩ := h.call
  obtain rfl := Option.some.inj (hcall.symm.trans hpc)
  have hlt := (List.getElem?_eq_some_iff.mp hcall).1
  have hinput : input.Withholds := by
    rcases hinput with hinput | ⟨result, rfl⟩
    · exact hinput
    · cases result with
      | error error => trivial
      | ok value =>
        -- A new channel has delivered no secret.
        cases pc with
        | waiting attempt channel =>
          exact absurd (beq_iff_eq.mp hadmits) (h.mailbox channel (hchannel channel rfl) value)
        | _ => simp [revealStep] at heffect
  have hnot' : ¬ Derivable hashes d.inner key secret := fun hd => hnot (hd.congr h.known.symm)
  obtain ⟨hwithholds', hknown⟩ := revealStep_withholds heffect hnot' hwithholds hinput
  refine
    { call := ⟨effect.pc, List.getElem?_set_self hlt, hwithholds', fun channel hnext => ?_⟩
      known := hknown.trans h.known
      handlers := h.handlers
      next := Nat.le_succ_of_le h.next
      mailbox := fun channel hle value => ?_ }
  · cases revealStep_channel heffect with
    | leave hends hpending hclosed hnone => cases hnone.symm.trans hnext
    | timer hpending hclosed hwaiting htimed =>
      rw [htimed] at hnext
      obtain rfl : pc = _ := hwaiting
      exact hchannel channel hnext
    | register hcached hlock hpending hfree hclosed hwaiting =>
      rw [hwaiting] at hnext
      exact Option.some.inj hnext ▸ h.next
    | replace hcached hlock hpending hold hclosed hnone => cases hnone.symm.trans hnext
    | remove htimed hlock hpending hclosed hnone => cases hnone.symm.trans hnext
  · cases hclosed : effect.closed with
    | none =>
      simp only [RevealState.afterCall, hclosed]
      exact h.mailbox channel hle value
    | some closed =>
      simp only [RevealState.afterCall, hclosed]
      by_cases heq : channel = closed
      · subst heq
        simp [Function.update_self]
      · rw [Function.update_of_ne heq]
        exact h.mailbox channel hle value

/-- In a retry a daemon without the secret gets none by its own steps. -/
theorem LackingSide.task {base d d' : RevealState} {label : RevealLabel}
    (h : LackingSide base d key secret) (hnot : ¬ Derivable hashes base.inner key secret)
    (hretry : RetryTask base key.channelIndex d label) (hlocal : label.isLocal = true)
    (hstep : d.step hashes label = some d') : LackingSide base d' key secret := by
  have hno_handler {id : ℕ} (hid : base.handlers.length ≤ id) : d.handlers[id]? = none :=
    List.getElem?_eq_none (h.handlers ▸ hid)
  cases label with
  | call _ => exact hretry.elim
  | incoming _ => exact hretry.elim
  | dropHandler _ => exact hretry.elim
  | step id input =>
    obtain ⟨rfl, -⟩ := hretry
    refine h.step hnot ?_ hstep
    cases input with
    | authorized result => exact .inr ⟨result, rfl⟩
    | response result => cases hlocal
    | opened result =>
      cases result with
      | error error => exact .inl trivial
      | ok value => cases hlocal
    | root result written =>
      cases result with
      | error error => exact .inl trivial
      | ok wires => cases hlocal
    | _ => exact .inl trivial
  | take id => simp [RevealState.step, hno_handler hretry] at hstep
  | authorizationTimer id => simp [RevealState.step, hno_handler hretry] at hstep
  | work id written => simp [RevealState.step, hno_handler hretry] at hstep
  | memory inner =>
    obtain rfl := Option.some.inj hstep
    exact ⟨h.call, Eq.trans hretry h.known, h.handlers, h.next, h.mailbox⟩

variable {base s t : RevealPair} {role : Role}

/-- In a retry on two daemons which have the secret both calls stay fresh or return, and no request
is sent. -/
structure BothKnown (base s : RevealPair) (key : RevealRequestKey) (secret : Value32) : Prop where
  side : ∀ role, KnownSide (base.daemons role) (s.daemons role) key secret
  exchanges : s.exchanges = base.exchanges

/-- A step of the retry keeps this. -/
theorem BothKnown.step (h : BothKnown base s key secret) (hgated : key.Gated)
    (hbase : ∀ role, Derivable hashes (base.daemons role).inner key secret) {label : PairLabel}
    (hretry : RetryStep base key.channelIndex s label) (hstep : s.step hashes label = some t) :
    BothKnown base t key secret := by
  have hno_exchange {n : ℕ} (hn : base.exchanges.length ≤ n) : s.exchanges[n]? = none :=
    List.getElem?_eq_none (h.exchanges ▸ hn)
  have htask {role : Role} {label : RevealLabel} {t : RevealPair}
      (hretry : RetryTask (base.daemons role) key.channelIndex (s.daemons role) label)
      (hstep : s.daemonStep hashes role label = some t) : BothKnown base t key secret := by
    obtain ⟨daemon, hdaemon, rfl⟩ := Option.map_eq_some_iff.mp hstep
    obtain ⟨hside, hsends⟩ := (h.side role).task role hgated (hbase role) hretry hdaemon
    refine ⟨fun role' => ?_, by simp [hsends, h.exchanges]⟩
    by_cases hrole : role' = role
    · subst hrole
      simpa only [Function.update_self] using hside
    · simpa only [Function.update_of_ne hrole] using h.side role'
  cases label with
  | task role label =>
    obtain ⟨-, hstep⟩ := Option.ite_none_right_eq_some.mp hstep
    exact htask hretry hstep
  | lose n message => exact hretry.elim
  | deliver n => simp [RevealPair.step, hno_exchange hretry] at hstep
  | answer n => simp [RevealPair.step, hno_exchange hretry] at hstep
  | receive n => simp [RevealPair.step, hno_exchange hretry] at hstep
  | frontier role id written =>
    obtain ⟨call, hcall, hstep⟩ := Option.bind_eq_some_iff.mp hstep
    obtain rfl : id = _ := hretry
    exact htask (.step _ _ _ (by simp : RevealInput.frontier _ written ≠ .drop)) hstep
  | compute id input =>
    obtain ⟨⟨hsome, -⟩, -⟩ := Option.ite_none_right_eq_some.mp hstep
    rw [RevealPair.computation, hretry .alice, (h.side .alice).computation] at hsome
    exact absurd rfl hsome

/-- The peer is another daemon. -/
theorem Role.other_ne (role : Role) : role.other ≠ role := by
  cases role <;> exact nofun

/-- The peer of the peer is the daemon itself. -/
theorem Role.other_other (role : Role) : role.other.other = role := by
  cases role <;> rfl

/-- Every daemon is one of the two. -/
theorem Role.eq_or_other (role role' : Role) : role' = role ∨ role' = role.other := by
  cases role <;> cases role' <;> simp [Role.other]

/-- The exchange is with a new handler, if it is with one, and has not been answered with a
share. -/
def ExchangePhase.Refused (handlers : ℕ) : ExchangePhase → Prop
  | .handled id => handlers ≤ id
  | .answered (.ok _) => False
  | _ => True

/-- The exchange is one of the retry's, and has brought no secret. -/
structure Exchange.Refused (base : RevealPair) (role : Role) (key : RevealRequestKey)
    (exchange : Exchange) : Prop where
  caller : exchange.caller = role.other
  id : exchange.id = (base.daemons role.other).calls.length
  key : exchange.request.key = key
  phase : exchange.phase.Refused (base.daemons role).handlers.length

/-- In a retry in which only one daemon has the secret the other gets none. -/
structure OneKnown (base s : RevealPair) (role : Role) (key : RevealRequestKey) (secret : Value32) :
    Prop where
  known : KnownSide (base.daemons role) (s.daemons role) key secret
  lacking : LackingSide (base.daemons role.other) (s.daemons role.other) key secret
  length : base.exchanges.length ≤ s.exchanges.length
  exchanges : ∀ n exchange, base.exchanges.length ≤ n → s.exchanges[n]? = some exchange →
    exchange.Refused base role key

/-- Moving a refused exchange keeps this. -/
theorem OneKnown.setExchange (h : OneKnown base s role key secret) {n : ℕ} {exchange : Exchange}
    (hexchange : exchange.Refused base role key) (phase : ExchangePhase)
    (hphase : phase.Refused (base.daemons role).handlers.length) :
    OneKnown base (s.setExchange n exchange phase) role key secret := by
  refine ⟨h.known, h.lacking, ?_, fun n' exchange' hn' hget => ?_⟩
  · rw [RevealPair.setExchange, List.length_set]
    exact h.length
  · rw [RevealPair.setExchange, List.getElem?_set] at hget
    split at hget
    · split at hget
      · obtain rfl := Option.some.inj hget
        exact ⟨hexchange.caller, hexchange.id, hexchange.key, hphase⟩
      · cases hget
    · exact h.exchanges n' exchange' hn' hget

/-- A step of the daemon which has the secret keeps this, when it sends nothing. -/
theorem OneKnown.stepKnown (h : OneKnown base s role key secret) {label : RevealLabel}
    (hside : ∀ daemon, (s.daemons role).step hashes label = some daemon →
      KnownSide (base.daemons role) daemon key secret ∧
        (s.daemons role).sends hashes role label = [])
    (hstep : s.daemonStep hashes role label = some t) : OneKnown base t role key secret := by
  obtain ⟨daemon, hdaemon, rfl⟩ := Option.map_eq_some_iff.mp hstep
  obtain ⟨hside, hsends⟩ := hside daemon hdaemon
  refine ⟨?_, ?_, ?_, ?_⟩
  · simpa only [Function.update_self] using hside
  · simpa only [Function.update_of_ne role.other_ne] using h.lacking
  · simpa only [hsends, List.append_nil] using h.length
  · simpa only [hsends, List.append_nil] using h.exchanges

/-- A step of the daemon which lacks the secret keeps this, when its requests are under the key. -/
theorem OneKnown.stepLacking (h : OneKnown base s role key secret) {label : RevealLabel}
    (hside : ∀ daemon, (s.daemons role.other).step hashes label = some daemon →
      LackingSide (base.daemons role.other) daemon key secret)
    (hsends : ∀ exchange ∈ (s.daemons role.other).sends hashes role.other label,
      exchange.Refused base role key)
    (hstep : s.daemonStep hashes role.other label = some t) : OneKnown base t role key secret := by
  obtain ⟨daemon, hdaemon, rfl⟩ := Option.map_eq_some_iff.mp hstep
  refine ⟨?_, ?_, ?_, fun n exchange hn hget => ?_⟩
  · simpa only [Function.update_of_ne role.other_ne.symm] using h.known
  · simpa only [Function.update_self] using hside daemon hdaemon
  · rw [List.length_append]
    exact Nat.le_add_right_of_le h.length
  · rw [List.getElem?_append] at hget
    split at hget
    · exact h.exchanges n exchange hn hget
    · exact hsends exchange (List.mem_of_getElem? hget)

/-- The fresh call of the daemon which lacks the secret sends requests under the key. -/
theorem OneKnown.sends (h : OneKnown base s role key secret) (hgated : key.Gated)
    {input : RevealInput} {exchange : Exchange}
    (hmem : exchange ∈ (s.daemons role.other).sends hashes role.other
      (.step (base.daemons role.other).calls.length input)) : exchange.Refused base role key := by
  obtain ⟨pc, hcall, -⟩ := h.lacking.call
  obtain ⟨hcaller, hid, hkey, hphase⟩ := sends_key hcall hgated hmem
  exact ⟨hcaller, hid, hkey, by rw [hphase]; trivial⟩

/-- A step of the fresh call of the daemon which lacks the secret keeps this. -/
theorem OneKnown.stepCall (h : OneKnown base s role key secret) (hgated : key.Gated)
    (hnot : ¬ Derivable hashes (base.daemons role.other).inner key secret) {input : RevealInput}
    (hinput : input.Withholds ∨ ∃ result, input = .authorized result)
    (hstep : s.daemonStep hashes role.other
      (.step (base.daemons role.other).calls.length input) = some t) :
    OneKnown base t role key secret := by
  exact h.stepLacking (fun daemon => h.lacking.step hnot hinput)
    (fun exchange => h.sends hgated) hstep

/-- A step of the retry keeps this. -/
theorem OneKnown.step (h : OneKnown base s role key secret) (hgated : key.Gated)
    (hbase : Derivable hashes (base.daemons role).inner key secret)
    (hnone : (base.daemons role).pending key = none)
    (hnot : ¬ Derivable hashes (base.daemons role.other).inner key secret) {label : PairLabel}
    (hretry : RetryStep base key.channelIndex s label) (hstep : s.step hashes label = some t) :
    OneKnown base t role key secret := by
  cases label with
  | task role' label =>
    obtain ⟨hlocal, hstep⟩ := Option.ite_none_right_eq_some.mp hstep
    rcases role.eq_or_other role' with rfl | rfl
    · exact h.stepKnown (fun daemon => h.known.task _ hgated hbase hretry) hstep
    · refine h.stepLacking (fun daemon => h.lacking.task hnot hretry hlocal)
        (fun exchange hmem => ?_) hstep
      cases label with
      | step id input =>
        obtain ⟨rfl, -⟩ := hretry
        exact h.sends hgated hmem
      | _ => cases hmem
  | lose n message => exact hretry.elim
  | deliver n =>
    obtain ⟨exchange, hexchange, hstep⟩ := Option.bind_eq_some_iff.mp hstep
    have hrefused := h.exchanges n exchange hretry hexchange
    split at hstep
    · rw [hrefused.caller, role.other_other] at hstep
      refine (h.setExchange hrefused (.handled _) h.known.length).stepKnown
        (fun daemon hdaemon => ?_) hstep
      obtain rfl := Option.some.inj hdaemon
      exact ⟨h.known.incoming hnone hrefused.key, rfl⟩
    · cases hstep
  | answer n =>
    obtain ⟨exchange, hexchange, hstep⟩ := Option.bind_eq_some_iff.mp hstep
    have hrefused := h.exchanges n exchange hretry hexchange
    split at hstep
    · next id hphase =>
      obtain ⟨handler, hhandler, hstep⟩ := Option.bind_eq_some_iff.mp hstep
      rw [hrefused.caller, role.other_other] at hhandler
      have hid := hrefused.phase
      rw [hphase] at hid
      obtain ⟨-, -, hpc | ⟨error, hpc⟩⟩ := h.known.handlers id handler hid hhandler
      · rw [hpc] at hstep
        cases hstep
      · rw [hpc] at hstep
        obtain rfl := Option.some.inj hstep
        exact h.setExchange hrefused (.answered (.error _)) trivial
    · cases hstep
  | receive n =>
    obtain ⟨exchange, hexchange, hstep⟩ := Option.bind_eq_some_iff.mp hstep
    have hrefused := h.exchanges n exchange hretry hexchange
    split at hstep
    · next result hphase =>
      have hresult := hrefused.phase
      rw [hphase] at hresult
      cases result with
      | ok response => exact hresult.elim
      | error error =>
        rw [hrefused.caller, hrefused.id] at hstep
        refine (h.setExchange hrefused .over trivial).stepCall hgated
          hnot (.inl ?_) hstep
        trivial
    · cases hstep
  | frontier role' id written =>
    obtain ⟨call, hcall, hstep⟩ := Option.bind_eq_some_iff.mp hstep
    obtain rfl : id = _ := hretry
    rcases role.eq_or_other role' with rfl | rfl
    · exact h.stepKnown (fun daemon => h.known.task _ hgated hbase
        (.step _ _ _ (by simp : RevealInput.frontier _ written ≠ .drop))) hstep
    · refine h.stepCall hgated hnot (.inl ?_) hstep
      trivial
  | compute id input =>
    obtain ⟨⟨hsome, heq⟩, -⟩ := Option.ite_none_right_eq_some.mp hstep
    have hno : s.computation role (id role) = none := by
      rw [RevealPair.computation, hretry role, h.known.computation]
    cases role with
    | alice => exact absurd hno hsome
    | bob => exact absurd (heq.trans hno) hsome

/-- Channels are used only once they are registered. -/
structure ChannelsNew (d : RevealState) : Prop where
  mailbox : ∀ channel, d.nextChannel ≤ channel → d.mailbox channel = .empty
  pending : ∀ key channel, d.pending key = some channel → channel < d.nextChannel
  handlers : ∀ handler ∈ d.handlers, ∀ channel, handler.pc.channel = some channel →
    channel < d.nextChannel

/-- Answering on a used channel keeps this. -/
theorem ChannelsNew.answer {d : RevealState} (h : ChannelsNew d) {channel : ℕ}
    (hlt : channel < d.nextChannel) (mailbox : Mailbox) :
    ChannelsNew (d.answer channel mailbox) := by
  refine ⟨fun channel' hle => ?_, h.pending, h.handlers⟩
  exact (Function.update_of_ne (Nat.ne_of_gt (Nat.lt_of_lt_of_le hlt hle)) ..).trans
    (h.mailbox channel' hle)

/-- Moving a handler to a used channel, or to none, keeps this. -/
theorem ChannelsNew.setHandler {d : RevealState} (h : ChannelsNew d) (id : ℕ)
    (handler : RevealHandler) (pc : HandlerPc)
    (hpc : ∀ channel, pc.channel = some channel → channel < d.nextChannel) :
    ChannelsNew (d.setHandler id handler pc) := by
  refine ⟨h.mailbox, h.pending, fun handler' hmem => ?_⟩
  rcases List.mem_or_eq_of_mem_set hmem with hmem | rfl
  · exact h.handlers handler' hmem
  · exact hpc

/-- The memory and the history do not matter. -/
theorem ChannelsNew.congr {d d' : RevealState} (h : ChannelsNew d)
    (hmailbox : d'.mailbox = d.mailbox) (hpending : d'.pending = d.pending)
    (hnext : d'.nextChannel = d.nextChannel) (hhandlers : d'.handlers = d.handlers) :
    ChannelsNew d' := by
  refine ⟨?_, ?_, ?_⟩
  · rw [hmailbox, hnext]
    exact h.mailbox
  · rw [hpending, hnext]
    exact h.pending
  · rw [hhandlers, hnext]
    exact h.handlers

/-- A failing handler keeps this. -/
theorem ChannelsNew.failHandler {d : RevealState} (h : ChannelsNew d) (id : ℕ)
    (handler : RevealHandler) {channel : ℕ} (hlt : channel < d.nextChannel) (error : DaemonError) :
    ChannelsNew (d.failHandler id handler channel error) :=
  (h.setHandler id handler _ (by simp [HandlerPc.channel])).answer hlt _

/-- A step of a call keeps this. -/
theorem ChannelsNew.step_call {d d' : RevealState} (h : ChannelsNew d) {id : ℕ}
    {input : RevealInput} (hstep : d.step hashes (.step id input) = some d') : ChannelsNew d' := by
  obtain ⟨call, hcall, hstep⟩ := Option.bind_eq_some_iff.mp hstep
  obtain ⟨-, hstep⟩ := Option.ite_none_right_eq_some.mp hstep
  obtain ⟨effect, heffect, rfl⟩ := Option.map_eq_some_iff.mp hstep
  have hclosed : ∀ channel, effect.closed = some channel → channel < d.nextChannel := by
    intro channel hclosed
    cases revealStep_channel heffect with
    | leave _ _ hnone _ => cases hnone.symm.trans hclosed
    | timer _ hnone _ _ => cases hnone.symm.trans hclosed
    | register _ _ _ _ hnone _ => cases hnone.symm.trans hclosed
    | replace _ _ _ hold hsome _ => exact h.pending _ _ (hold.trans (hsome.symm.trans hclosed))
    | remove _ _ _ hsome _ => exact h.pending _ _ (hsome.symm.trans hclosed)
  have hpending : ∀ key channel, effect.pending key = some channel →
      channel < d.nextChannel + 1 := by
    intro key channel hkey
    have hupdate
      (hkey : Function.update d.pending call.key (some d.nextChannel) key = some channel) :
        channel < d.nextChannel + 1 := by
      rw [Function.update_apply] at hkey
      split at hkey
      · cases hkey
        exact Nat.lt_succ_self _
      · exact Nat.lt_succ_of_lt (h.pending key channel hkey)
    cases revealStep_channel heffect with
    | leave _ heq _ _ => exact Nat.lt_succ_of_lt (h.pending key channel (heq ▸ hkey))
    | timer heq _ _ _ => exact Nat.lt_succ_of_lt (h.pending key channel (heq ▸ hkey))
    | register _ _ heq _ _ _ => exact hupdate (heq ▸ hkey)
    | replace _ _ heq _ _ _ => exact hupdate (heq ▸ hkey)
    | remove _ _ heq _ _ =>
      rw [heq, Function.update_apply] at hkey
      split at hkey
      · cases hkey
      · exact Nat.lt_succ_of_lt (h.pending key channel hkey)
  refine ⟨fun channel hle => ?_, hpending, fun handler hmem channel hchannel =>
    Nat.lt_succ_of_lt (h.handlers handler hmem channel hchannel)⟩
  have hle : d.nextChannel + 1 ≤ channel := hle
  cases hsome : effect.closed with
  | none =>
    simp only [RevealState.afterCall, hsome]
    exact h.mailbox channel (by omega)
  | some closed =>
    have hlt := hclosed closed hsome
    simp only [RevealState.afterCall, hsome]
    rw [Function.update_of_ne (by omega)]
    exact h.mailbox channel (by omega)

/-- A step of the reveal tasks keeps this. -/
theorem ChannelsNew.step {d d' : RevealState} (h : ChannelsNew d) {label : RevealLabel}
    (hstep : d.step hashes label = some d') : ChannelsNew d' := by
  cases label with
  | call key =>
    obtain rfl := Option.some.inj hstep
    exact h.congr rfl rfl rfl rfl
  | step id input => exact h.step_call hstep
  | incoming request =>
    obtain rfl := Option.some.inj hstep
    refine ⟨h.mailbox, h.pending, fun handler hmem => ?_⟩
    rcases List.mem_append.mp hmem with hmem | hmem
    · exact h.handlers handler hmem
    · obtain rfl := List.mem_singleton.mp hmem
      exact nofun
  | take id =>
    obtain ⟨handler, hhandler, hstep⟩ := Option.bind_eq_some_iff.mp hstep
    obtain ⟨-, hstep⟩ := Option.ite_none_right_eq_some.mp hstep
    obtain ⟨channel, hchannel, rfl⟩ := Option.map_eq_some_iff.mp hstep
    have hmoved := h.setHandler id handler (.took channel) fun channel' hsome =>
      Option.some.inj hsome ▸ h.pending _ _ hchannel
    refine ⟨hmoved.mailbox, fun key channel' hkey => ?_, hmoved.handlers⟩
    simp only [Function.update_apply] at hkey
    split at hkey
    · cases hkey
    · exact h.pending key channel' hkey
  | authorizationTimer id =>
    obtain ⟨handler, hhandler, hstep⟩ := Option.bind_eq_some_iff.mp hstep
    obtain ⟨-, hstep⟩ := Option.ite_none_right_eq_some.mp hstep
    obtain rfl := Option.some.inj hstep
    exact h.setHandler id handler _ nofun
  | work id written =>
    obtain ⟨handler, hhandler, hstep⟩ := Option.bind_eq_some_iff.mp hstep
    have hlt {channel : ℕ} (hpc : handler.pc.channel = some channel) : channel < d.nextChannel :=
      h.handlers handler (List.mem_of_getElem? hhandler) channel hpc
    unfold RevealState.work at hstep
    split at hstep
    · next channel hpc =>
      have hchannel : channel < d.nextChannel := hlt (by rw [hpc]; rfl)
      obtain rfl := Option.some.inj hstep
      split
      · exact h.failHandler id handler hchannel _
      · exact h.setHandler id handler _ fun channel' hsome => Option.some.inj hsome ▸ hchannel
    · next channel node hpc =>
      have hchannel : channel < d.nextChannel := hlt (by rw [hpc]; rfl)
      obtain rfl := Option.some.inj hstep
      split
      · exact h.failHandler id handler hchannel _
      · next context response value hopen =>
        have hmoved := h.setHandler id handler (.opened channel context response value)
          fun channel' hsome => Option.some.inj hsome ▸ hchannel
        exact hmoved.congr rfl rfl rfl rfl
    · next channel context response value hpc =>
      have hchannel : channel < d.nextChannel := hlt (by rw [hpc]; rfl)
      obtain rfl := Option.some.inj hstep
      unfold RevealState.finishHandler
      split
      · exact h.failHandler id handler hchannel _
      · split
        · exact h.failHandler id handler hchannel _
        · next inner mutations hstore =>
          split
          · have hanswered := (h.setHandler id handler (.done (.ok response)) (by simp
              [HandlerPc.channel])).answer hchannel (.delivered (.ok value))
            exact hanswered.congr rfl rfl rfl rfl
          · have hfailed := h.failHandler id handler hchannel writerStopped
            exact hfailed.congr rfl rfl rfl rfl
    · cases hstep
  | dropHandler id =>
    obtain ⟨handler, hhandler, hstep⟩ := Option.bind_eq_some_iff.mp hstep
    have hmoved := h.setHandler id handler .dropped (by simp [HandlerPc.channel])
    split at hstep
    · cases hstep
    · cases hstep
    · obtain rfl := Option.some.inj hstep
      split
      · next channel hpc =>
        exact hmoved.answer (h.handlers handler (List.mem_of_getElem? hhandler) channel hpc) _
      · exact hmoved
  | memory inner =>
    obtain rfl := Option.some.inj hstep
    exact h.congr rfl rfl rfl rfl

/-- A daemon with no reveal task has used no channel. -/
theorem ChannelsNew.start (inner : Inner) : ChannelsNew (.start inner) :=
  ⟨fun _ _ => rfl, nofun, nofun⟩

/-- What every step of a daemon's tasks preserves, a step of the pair preserves at both daemons. -/
theorem RevealPair.preserves {P : RevealState → Prop}
    (hP : ∀ d label d', P d → d.step hashes label = some d' → P d')
    (h : ∀ role, P (s.daemons role)) {label : PairLabel} (hstep : s.step hashes label = some t)
    (role : Role) : P (t.daemons role) := by
  have hdaemon {s t : RevealPair} {role' : Role} {label : RevealLabel}
      (h : ∀ role, P (s.daemons role)) (hstep : s.daemonStep hashes role' label = some t)
      (role : Role) : P (t.daemons role) := by
    obtain ⟨daemon, hdaemon, rfl⟩ := Option.map_eq_some_iff.mp hstep
    by_cases hrole : role = role'
    · subst hrole
      simpa only [Function.update_self] using hP _ _ _ (h role) hdaemon
    · simpa only [Function.update_of_ne hrole] using h role
  cases label with
  | task role' label =>
    obtain ⟨-, hstep⟩ := Option.ite_none_right_eq_some.mp hstep
    exact hdaemon h hstep role
  | deliver n =>
    obtain ⟨exchange, -, hstep⟩ := Option.bind_eq_some_iff.mp hstep
    split at hstep
    · exact hdaemon (s := s.setExchange ..) h hstep role
    · cases hstep
  | lose n message =>
    obtain ⟨exchange, -, hstep⟩ := Option.bind_eq_some_iff.mp hstep
    split at hstep
    · cases hstep
    · exact hdaemon (s := s.setExchange ..) h hstep role
  | answer n =>
    obtain ⟨exchange, -, hstep⟩ := Option.bind_eq_some_iff.mp hstep
    split at hstep
    · obtain ⟨handler, -, hstep⟩ := Option.bind_eq_some_iff.mp hstep
      split at hstep
      · obtain rfl := Option.some.inj hstep
        exact h role
      · cases hstep
    · cases hstep
  | receive n =>
    obtain ⟨exchange, -, hstep⟩ := Option.bind_eq_some_iff.mp hstep
    split at hstep
    · exact hdaemon (s := s.setExchange ..) h hstep role
    · cases hstep
  | frontier role' id written =>
    obtain ⟨call, -, hstep⟩ := Option.bind_eq_some_iff.mp hstep
    exact hdaemon h hstep role
  | compute id input =>
    obtain ⟨-, hstep⟩ := Option.ite_none_right_eq_some.mp hstep
    obtain ⟨mid, hfirst, hsecond⟩ := Option.bind_eq_some_iff.mp hstep
    exact hdaemon (hdaemon h hfirst) hsecond role

/-- The fresh call of a daemon which has the secret can end. -/
theorem BothKnown.finish (h : BothKnown base s key secret) (hgated : key.Gated)
    (hbase : ∀ role, Derivable hashes (base.daemons role).inner key secret) (role : Role) :
    ∃ labels t, run (RevealPair.step hashes) s labels = some t ∧
      Along (RevealPair.step hashes) (RetryStep base key.channelIndex) s labels ∧
      BothKnown base t key secret ∧ (base.daemons role).Returned (t.daemons role) secret ∧
      ∀ role', role' ≠ role → t.daemons role' = s.daemons role' := by
  rcases (h.side role).call with hfresh | ⟨response, hdone, hsecret⟩
  · obtain ⟨response, hgate, hsecret⟩ := revealGate_derivable hgated
      ((hbase role).congr (h.side role).known)
    have hlt := (List.getElem?_eq_some_iff.mp hfresh).1
    have hdaemon : (s.daemons role).step hashes (.step (base.daemons role).calls.length .lock) =
        some ((s.daemons role).afterCall (base.daemons role).calls.length ⟨key, .fresh⟩
          (.goto (s.daemons role).inner (s.daemons role).pending (.done (.ok response)))) := by
      simp [RevealState.step, hfresh, RevealState.admits, revealStep, hgate]
    have hretry : RetryStep base key.channelIndex s
        (.task role (.step (base.daemons role).calls.length .lock)) :=
      RetryTask.step _ key.channelIndex (s.daemons role) (by simp)
    have hstep : s.step hashes (.task role (.step (base.daemons role).calls.length .lock)) =
        some _ := congrArg (Option.map _) hdaemon
    refine ⟨[_], _, Runs.run_cons.mpr ⟨_, hstep, rfl⟩, ⟨hretry, fun _ _ => trivial⟩,
      h.step hgated hbase hretry hstep, ⟨key, response, ?_, hsecret⟩, fun role' hrole => ?_⟩
    · simp only [Function.update_self]
      exact List.getElem?_set_self hlt
    · exact Function.update_of_ne hrole ..
  · exact ⟨[], s, rfl, trivial, h, ⟨key, response, hdone, hsecret⟩, fun _ _ => rfl⟩

/-- When one daemon has the secret, a retry returns it on both if the other can derive it; and when
the other cannot, and no authorization waits for its request, no retry returns it there. -/
theorem reveal_retry (hashes : Hashes) (inner : Role → Inner) (labels : List PairLabel)
    (hrun : run (RevealPair.step hashes) (.start inner) labels = some base) (role : Role)
    (key : RevealRequestKey) (hgated : key.Gated) (secret : Value32)
    (hstored : Derivable hashes (base.daemons role).inner key secret) :
    (Derivable hashes (base.daemons role.other).inner key secret → Retried hashes base key secret) ∧
      (¬ Derivable hashes (base.daemons role.other).inner key secret →
        (base.daemons role).pending key = none → ∀ labels t,
          run (RevealPair.step hashes) (base.callBoth key) labels = some t →
          Along (RevealPair.step hashes) (RetryStep base key.channelIndex) (base.callBoth key)
            labels → ¬ (base.daemons role.other).Returned (t.daemons role.other) secret) := by
  constructor
  · intro hother
    have hbase (role' : Role) : Derivable hashes (base.daemons role').inner key secret := by
      rcases role.eq_or_other role' with rfl | rfl
      · exact hstored
      · exact hother
    have hstart : BothKnown base (base.callBoth key) key secret :=
      ⟨fun role' => .start (base.daemons role') key secret, rfl⟩
    refine ⟨?_, fun labels t hrun halong role' => ?_⟩
    · obtain ⟨first, mid, hrun, halong, hmid, hreturned, -⟩ := hstart.finish hgated hbase role
      obtain ⟨second, t, hrun', halong', ht, hreturned', hframe⟩ :=
        hmid.finish hgated hbase role.other
      refine ⟨first ++ second, t, Runs.run_append.mpr ⟨mid, hrun, hrun'⟩,
        (Runs.along_append_iff hrun).mpr ⟨halong, halong'⟩, fun role' => ?_⟩
      rcases role.eq_or_other role' with rfl | rfl
      · rw [hframe _ role'.other_ne.symm]
        exact hreturned
      · exact hreturned'
    · have hstep (s : RevealPair) (label : PairLabel) (t : RevealPair)
          (h : BothKnown base s key secret) (hretry : RetryStep base key.channelIndex s label)
          (hstep : s.step hashes label = some t) := h.step hgated hbase hretry hstep
      have ht := Runs.invariant hstep hstart hrun halong
      rcases (ht.side role').call with hfresh | ⟨response, hdone, hsecret⟩
      · exact .inl ⟨key, hfresh⟩
      · exact .inr ⟨key, response, hdone, hsecret⟩
  · intro hnot hnone labels t hretry halong ⟨key', response, hdone, hsecret⟩
    have hnew (role' : Role) : ChannelsNew (base.daemons role') :=
      Runs.invariant_of_step (fun _ _ _ h hstep => RevealPair.preserves
        (fun _ _ _ h hstep => h.step hstep) h hstep) (fun role' => .start (inner role')) hrun role'
    have hstart : OneKnown base (base.callBoth key) role key secret :=
      ⟨.start _ key secret, .start key secret (hnew role.other).mailbox, Nat.le_refl _,
        fun n exchange hn hget => by
          rw [RevealPair.callBoth, List.getElem?_eq_none hn] at hget
          cases hget⟩
    have hstep (s : RevealPair) (label : PairLabel) (t : RevealPair)
        (h : OneKnown base s role key secret) (hretry : RetryStep base key.channelIndex s label)
        (hstep : s.step hashes label = some t) := h.step hgated hstored hnone hnot hretry hstep
    have ht := Runs.invariant hstep hstart hretry halong
    obtain ⟨pc, hcall, hwithholds, -⟩ := ht.lacking.call
    obtain ⟨-, rfl⟩ := RevealCall.mk.inj (Option.some.inj (hcall.symm.trans hdone))
    exact hwithholds hsecret

/-- A fresh call runs until it sends its request or registers its authorization. -/
def openingSteps (role : Role) (id : ℕ) : List PairLabel :=
  [.task role (.step id .lock), .task role (.step id .lock), .task role (.step id .lock)]

/-- Both daemons call, Bob answers Alice's request and stores the secret, and the response is
lost. -/
def lostResponse : List PairLabel :=
  [.task .bob (.call oneNodeKey), .task .alice (.call oneNodeKey)] ++ openingSteps .bob 0 ++
    openingSteps .alice 0 ++
    [.deliver 0, .task .bob (.take 0), .task .bob (.work 0 true), .task .bob (.work 0 true),
      .task .bob (.work 0 true), .answer 0, .lose 0 "transport error",
      .task .bob (.step 0 (.authorized (.ok ⟨Vector.replicate 32 0⟩))),
      .task .bob (.step 0 (.written true))]

/-- The retry: Bob's fresh call returns the secret, and Alice's request finds no authorization. -/
def retriedReveal : List PairLabel :=
  .task .bob (.step 1 .lock) :: openingSteps .alice 1 ++
    [.deliver 1, .task .bob (.authorizationTimer 1), .answer 1, .receive 1]

/-- Two daemons which both hold the node of index one. -/
def oneNodePair : RevealPair := .start oneNodeInner

/-- The secret of the node whose bits are all zero. -/
def zeroSecret : Value32 := ⟨Vector.replicate 32 0⟩

/-- The index of the node. -/
def oneIndex : Index48 := ⟨1, by decide⟩

/-- Both daemons call, and no message is lost. -/
def firstReveal : List PairLabel :=
  [.task .bob (.call oneNodeKey), .task .alice (.call oneNodeKey)] ++ openingSteps .bob 0 ++
    openingSteps .alice 0 ++
    [.deliver 0, .task .bob (.take 0), .task .bob (.work 0 true), .task .bob (.work 0 true),
      .task .bob (.work 0 true), .answer 0, .receive 0, .task .alice (.step 0 (.written true))]

/-- What both daemons have revealed, a retry returns. -/
theorem reveal_retry_known : ∃ base,
    run (RevealPair.step constantHashes) oneNodePair firstReveal = some base ∧
      Retried constantHashes base oneNodeKey zeroSecret := by
  have hknown : (run (RevealPair.step constantHashes) oneNodePair firstReveal).map
      (fun base => (deriveKnown constantHashes.onValue (base.daemons .alice).inner.db 1 oneIndex,
        deriveKnown constantHashes.onValue (base.daemons .bob).inner.db 1 oneIndex)) =
      some (some zeroSecret, some zeroSecret) := by
    decide +kernel
  obtain ⟨base, hrun, hknown⟩ := Option.map_eq_some_iff.mp hknown
  obtain ⟨halice, hbob⟩ := Prod.mk.inj hknown
  exact ⟨base, hrun, (reveal_retry constantHashes oneNodeInner firstReveal hrun .alice oneNodeKey
    ⟨rfl, nofun⟩ zeroSecret ⟨oneIndex, rfl, halice⟩).1 ⟨oneIndex, rfl, hbob⟩⟩

/-- After a lost response Bob has the secret and Alice has not. In a retry that loses no message
Bob's call returns it, and Alice's call fails. -/
theorem reveal_retry_lost : ∃ base t,
    run (RevealPair.step constantHashes) oneNodePair lostResponse = some base ∧
      Derivable constantHashes (base.daemons .bob).inner oneNodeKey zeroSecret ∧
      run (RevealPair.step constantHashes) (base.callBoth oneNodeKey) retriedReveal = some t ∧
      Along (RevealPair.step constantHashes) (RetryStep base 1) (base.callBoth oneNodeKey)
        retriedReveal ∧
      (t.daemons .alice).calls[1]? = some ⟨oneNodeKey, .done (.error (.tonicStatus .invalidArgument
        "cached reveal needs matching local authorization"))⟩ ∧
      ¬ Retried constantHashes base oneNodeKey zeroSecret := by
  have hstates : (run (RevealPair.step constantHashes) oneNodePair lostResponse).bind
      (fun base =>
        (run (RevealPair.step constantHashes) (base.callBoth oneNodeKey) retriedReveal).map
        fun t => ((base.daemons .alice).calls.length, (t.daemons .alice).calls[1]?,
          deriveKnown constantHashes.onValue (base.daemons .bob).inner.db 1 oneIndex,
          decide (Along (RevealPair.step constantHashes) (RetryStep base 1)
            (base.callBoth oneNodeKey)
            retriedReveal))) =
      some (1, some ⟨oneNodeKey, .done (.error (.tonicStatus .invalidArgument
          "cached reveal needs matching local authorization"))⟩, some zeroSecret, true) := by
    decide +kernel
  obtain ⟨base, hrun, h⟩ := Option.bind_eq_some_iff.mp hstates
  obtain ⟨t, hretry, h⟩ := Option.map_eq_some_iff.mp h
  simp only [Prod.mk.injEq, decide_eq_true_eq] at h
  obtain ⟨hlength, hcall, hknown, halong⟩ := h
  refine ⟨base, t, hrun, ⟨oneIndex, rfl, hknown⟩, hretry, halong, hcall, fun hretried => ?_⟩
  have hreturns := hretried.returns retriedReveal t hretry halong .alice
  rw [RevealState.NotStarted, RevealState.Returned, hlength, hcall] at hreturns
  simp at hreturns

end Shachain2pc
