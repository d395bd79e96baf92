import Shachain2pc.Daemon.RevealGate

/-!
# Who owns a pending authorization

An authorization belongs to the call which registered it and has neither returned nor been
dropped. A call registers with an insert that replaces whatever the key held, a timed-out
call removes whatever its key holds, and a dropped call leaves its entry behind. When no
call touches an entry that is not its own, and none is dropped while its entry is pending,
every entry has its owner, and only handlers take an entry from its owner.
-/

namespace Shachain2pc

open Runs (run Along)

variable {hashes : Hashes} {s t : RevealState}

/-- The call waits on the channel, or has timed out and not yet removed its entry. -/
def RevealState.Owns (s : RevealState) (id : ℕ) (key : RevealRequestKey) (channel : ℕ) : Prop :=
  ∃ call, s.calls[id]? = some call ∧ call.key = key ∧ call.pc.channel = some channel

/-- The call waits on the channel. -/
def RevealState.Waits (s : RevealState) (id : ℕ) (key : RevealRequestKey) (channel : ℕ) : Prop :=
  ∃ call attempt, s.calls[id]? = some call ∧ call.key = key ∧ call.pc = .waiting attempt channel

/-- The handler has taken the channel of an authorization and not yet answered on it. -/
def RevealState.Holds (s : RevealState) (id : ℕ) (key : RevealRequestKey) (channel : ℕ) : Prop :=
  ∃ handler, s.handlers[id]? = some handler ∧ handler.request.key = key ∧
    handler.pc.channel = some channel

/-- Every pending authorization has exactly one owner, a share is released only by taking one from
its owner, and the authorization of a waiting call stays until a handler takes it. -/
structure PendingOwned (s : RevealState) : Prop where
  owner : ∀ key channel, s.pending key = some channel → ∃ id, s.Owns id key channel
  unique : ∀ id id' key key' channel, s.Owns id key channel → s.Owns id' key' channel → id = id'
  released : ∀ handler request context response,
    .released handler request context response ∈ s.log →
      ∃ channel, .consumed handler request.key channel true ∈ s.log
  kept : ∀ id key channel, s.Waits id key channel → s.mailbox channel = .empty →
    s.pending key = some channel ∨ ∃ handler, s.Holds handler key channel
  displaced : s.displaced = []

/-- The step of a call touches no entry but its own: none is pending when the call opens its cached
node, a timed-out call finds none but its own, and no call is dropped while its own is pending. -/
def RevealState.touchesOwnEntry (s : RevealState) : RevealLabel → Bool
  | .step id .lock => s.calls[id]?.all fun call => match call.pc with
    | .cached _ _ => s.pending call.key = none
    | .timedOut _ own => s.pending call.key = none ∨ s.pending call.key = some own
    | _ => true
  | .step id .drop => s.calls[id]?.all fun call =>
    call.pc.channel = none ∨ s.pending call.key ≠ call.pc.channel
  | _ => true

/-- The invariant of the runs: channels are new when they are registered, and each is owned by one
call and, once taken, held by one handler. -/
structure PendingInvariant (s : RevealState) : Prop where
  newMailbox : ∀ channel, s.nextChannel ≤ channel → s.mailbox channel = .empty
  ownsBelow : ∀ id key channel, s.Owns id key channel → channel < s.nextChannel
  holdsBelow : ∀ id key channel, s.Holds id key channel → channel < s.nextChannel
  owner : ∀ key channel, s.pending key = some channel →
    (∃ id, s.Owns id key channel) ∧ s.mailbox channel = .empty
  unique : ∀ id id' key key' channel, s.Owns id key channel → s.Owns id' key' channel → id = id'
  held : ∀ id key channel, s.Holds id key channel →
    s.mailbox channel = .empty ∧ ∀ key', s.pending key' ≠ some channel
  heldUnique :
      ∀ id id' key key' channel, s.Holds id key channel → s.Holds id' key' channel → id = id'
  kept : ∀ id key channel, s.Waits id key channel → s.mailbox channel = .empty →
    s.pending key = some channel ∨ ∃ handler, s.Holds handler key channel
  displaced : s.displaced = []
  consumed : ∀ handler key channel owned,
    .consumed handler key channel owned ∈ s.log → owned = true

/-- A failed or successful cached open leaves no channel. -/
@[simp] theorem afterCachedError_channel (attempt : Attempt) (error : DaemonError) :
    (afterCachedError attempt error).channel = none := by
  unfold afterCachedError
  split <;> rfl

@[simp] theorem afterCached_channel (attempt : Attempt) (result : Except DaemonError Value32) :
    (afterCached attempt result).channel = none := by
  cases result with
  | error error => exact afterCachedError_channel attempt error
  | ok secret =>
    simp only [afterCached, afterCachedOpen]
    split <;> rfl

/-- The input ends the wait of a call which owns a channel, if it owns one: the channel has been
answered, or the call is dropped. -/
def EndsWait (pc : RevealPc) (input : RevealInput) : Prop :=
  pc.channel = none ∨ input = .drop ∨ ∃ attempt own, pc = .waiting attempt own ∧
    (input = .senderDropped ∨ ∃ result, input = .authorized result)

/-- What a step of a call can do to the authorizations: leave them, register, or remove. -/
inductive ChannelStep (pending : PendingReveals) (channel : ℕ) (key : RevealRequestKey)
    (pc : RevealPc) (input : RevealInput) (effect : RevealEffect) : Prop where
  | leave (hends : EndsWait pc input) (hpending : effect.pending = pending)
    (hclosed : effect.closed = none) (hnext : effect.pc.channel = none)
  | timer {attempt : Attempt} {own : ℕ} (hpending : effect.pending = pending)
    (hclosed : effect.closed = none) (hpc : pc = .waiting attempt own)
    (hnext : effect.pc = .timedOut attempt own)
  | register {attempt : Attempt} {node : Ag2pcSecureWires} (hpc : pc = .cached attempt node)
    (hinput : input = .lock)
      (hpending : effect.pending = Function.update pending key (some channel))
    (hfree : pending key = none) (hclosed : effect.closed = none)
    (hnext : effect.pc = .waiting attempt channel)
  | replace {attempt : Attempt} {node : Ag2pcSecureWires} {old : ℕ}
      (hpc : pc = .cached attempt node)
    (hinput : input = .lock)
      (hpending : effect.pending = Function.update pending key (some channel))
    (hold : pending key = some old) (hclosed : effect.closed = some old)
    (hnext : effect.pc.channel = none)
  | remove {attempt : Attempt} {own : ℕ} (hpc : pc = .timedOut attempt own) (hinput : input = .lock)
    (hpending : effect.pending = Function.update pending key none)
    (hclosed : effect.closed = pending key) (hnext : effect.pc.channel = none)

/-- Every step of a call is one of these. -/
theorem revealStep_channel {inner : Inner} {key : RevealRequestKey} {pc : RevealPc}
    {input : RevealInput} {pending : PendingReveals} {channel : ℕ} {effect : RevealEffect}
    (h : revealStep hashes inner pending channel key pc input = some effect) :
    ChannelStep pending channel key pc input effect := by
  have hgoto (hends : EndsWait pc input) (inner' : Inner) {pc' : RevealPc}
      (hpc' : pc'.channel = none) :
      ChannelStep pending channel key pc input (.goto inner' pending pc') :=
    .leave hends rfl rfl hpc'
  unfold revealStep at h
  simp only at h
  split at h
  case h_1 | h_2 | h_19 => cases h
  case h_3 =>
    obtain rfl := Option.some.inj h
    exact hgoto (.inr (.inl rfl)) inner rfl
  case h_4 =>
    obtain rfl := Option.some.inj h
    rcases revealGate_cases hashes inner key with ⟨result, hdone⟩ | hload
    · exact hgoto (.inl rfl) inner (by rw [hdone]; rfl)
    · exact hgoto (.inl rfl) inner (by rw [hload]; rfl)
  case h_6 attempt node =>
    obtain rfl := Option.some.inj h
    unfold revealCachedNode revealPersistedNode
    simp only
    repeat' split
    all_goals first
      | exact hgoto (.inl rfl) inner (by simp)
      | exact .leave (.inl rfl) rfl rfl rfl
      | skip
    · next hold => exact .replace rfl rfl rfl hold rfl (by simp)
    · next hfree => exact .register rfl rfl rfl hfree rfl rfl
  case h_8 attempt own result =>
    obtain rfl := Option.some.inj h
    exact hgoto (.inr (.inr ⟨attempt, own, rfl, .inr ⟨result, rfl⟩⟩)) inner (by simp)
  case h_9 attempt own =>
    obtain rfl := Option.some.inj h
    exact hgoto (.inr (.inr ⟨attempt, own, rfl, .inl rfl⟩)) inner (by simp)
  case h_10 =>
    obtain rfl := Option.some.inj h
    exact .timer rfl rfl rfl rfl
  case h_11 =>
    obtain rfl := Option.some.inj h
    exact .remove rfl rfl rfl rfl (by simp)
  case h_13 =>
    split at h <;> obtain rfl := Option.some.inj h
    · exact hgoto (.inl rfl) inner rfl
    · exact hgoto (.inl rfl) _ (by split <;> rfl)
  case h_14 =>
    obtain rfl := Option.some.inj h
    repeat' split
    all_goals first | exact hgoto (.inl rfl) inner rfl | exact .leave (.inl rfl) rfl rfl rfl
  case h_16 =>
    repeat' split at h
    all_goals
      obtain rfl := Option.some.inj h
      exact hgoto (.inl rfl) _ rfl
  case h_17 => split at h <;> obtain rfl := Option.some.inj h <;> exact hgoto (.inl rfl) inner rfl
  case h_18 =>
    obtain rfl := Option.some.inj h
    unfold storeAndRespond
    repeat' split
    all_goals exact hgoto (.inl rfl) _ rfl
  all_goals
    obtain rfl := Option.some.inj h
    exact hgoto (.inl rfl) inner (by repeat' first | split | simp | rfl)

/-- The owners after one call is replaced. -/
theorem owns_set {id : ℕ} {call : RevealCall} (hcalls : t.calls = s.calls.set id call) {id' : ℕ}
    {key : RevealRequestKey} {channel : ℕ} (h : t.Owns id' key channel) :
    id' = id ∧ call.key = key ∧ call.pc.channel = some channel ∨ id' ≠ id ∧
    s.Owns id' key channel := by
  obtain ⟨call', hcall', hkey, hchannel⟩ := h
  rw [hcalls, List.getElem?_set] at hcall'
  split at hcall'
  · next heq =>
    split at hcall'
    · obtain rfl := Option.some.inj hcall'
      exact .inl ⟨heq.symm, hkey, hchannel⟩
    · cases hcall'
  · next hne => exact .inr ⟨Ne.symm hne, call', hcall', hkey, hchannel⟩

/-- Other calls keep what they own. -/
theorem owns_set_of_ne {id : ℕ} {call : RevealCall} (hcalls : t.calls = s.calls.set id call)
    {id' : ℕ} (hne : id' ≠ id) {key : RevealRequestKey} {channel : ℕ} (h : s.Owns id' key channel) :
    t.Owns id' key channel := by
  obtain ⟨call', hcall', hkey, hchannel⟩ := h
  exact ⟨call', by rw [hcalls, List.getElem?_set, if_neg (Ne.symm hne), hcall'], hkey, hchannel⟩

/-- The calls which wait own their channel. -/
theorem RevealState.Waits.owns {id : ℕ} {key : RevealRequestKey} {channel : ℕ}
    (h : s.Waits id key channel) : s.Owns id key channel := by
  obtain ⟨call, attempt, hcall, hkey, hpc⟩ := h
  exact ⟨call, hcall, hkey, by rw [hpc]; rfl⟩

/-- Other calls wait as before. -/
theorem waits_set_of_ne {id : ℕ} {call : RevealCall} (hcalls : t.calls = s.calls.set id call)
    {id' : ℕ} (hne : id' ≠ id) {key : RevealRequestKey} {channel : ℕ}
    (h : t.Waits id' key channel) : s.Waits id' key channel := by
  obtain ⟨call', attempt, hcall', hkey, hpc⟩ := h
  rw [hcalls, List.getElem?_set, if_neg (Ne.symm hne)] at hcall'
  exact ⟨call', attempt, hcall', hkey, hpc⟩

/-- A call's step logs no consumption. -/
theorem consumed_not_mem_callEvents {call : RevealCall} {inner : Inner} {channel' : ℕ}
    {effect : RevealEffect} {handler : ℕ} {key : RevealRequestKey} {channel : ℕ} {owned : Bool} :
    .consumed handler key channel owned ∉ callEvents call inner channel' effect := by
  unfold callEvents
  repeat' split
  all_goals simp

/-- A step which logs only a call's events logs no new consumption. -/
theorem PendingInvariant.consumed_append (h : PendingInvariant s) {call : RevealCall}
    {inner : Inner} {channel' : ℕ} {effect : RevealEffect} {handler : ℕ} {key : RevealRequestKey}
    {channel : ℕ} {owned : Bool}
    (hmem : .consumed handler key channel owned ∈ callEvents call inner channel' effect ++ s.log) :
    owned = true := by
  rcases List.mem_append.mp hmem with hmem | hmem
  · exact absurd hmem consumed_not_mem_callEvents
  · exact h.consumed handler key channel owned hmem

/-- A step of a call which leaves the authorizations alone keeps the invariant. -/
theorem PendingInvariant.leave (h : PendingInvariant s) {id : ℕ} {call : RevealCall}
    (hcall : s.calls[id]? = some call) {effect : RevealEffect}
    (hfree : ∀ channel, call.pc.channel = some channel → s.mailbox channel = .empty →
      s.pending call.key ≠ some channel)
    (hpending : effect.pending = s.pending) (hclosed : effect.closed = none)
    (hnext : effect.pc.channel = none) : PendingInvariant (s.afterCall id call effect) := by
  have hcalls : (s.afterCall id call effect).calls = s.calls.set id { call with pc := effect.pc } :=
    rfl
  have howns {id' key channel} (howns : (s.afterCall id call effect).Owns id' key channel) :
      id' ≠ id ∧ s.Owns id' key channel := by
    rcases owns_set hcalls howns with ⟨-, -, hchannel⟩ | howns
    · cases hnext.symm.trans hchannel
    · exact howns
  have hmailbox : (s.afterCall id call effect).mailbox = s.mailbox := by
    simp only [RevealState.afterCall, hclosed]
  have hpending' : (s.afterCall id call effect).pending = s.pending := hpending
  refine
    { newMailbox := fun channel hle => ?_
      ownsBelow := fun id' key channel h' => Nat.lt_succ_of_lt (h.ownsBelow _ _ _ (howns h').2)
      holdsBelow := fun id' key channel h' => Nat.lt_succ_of_lt (h.holdsBelow id' key channel h')
      owner := fun key channel hkey => ?_
      unique := fun _ _ _ _ _ h₁ h₂ => h.unique _ _ _ _ _ (howns h₁).2 (howns h₂).2
      held := fun id' key channel h' => ?_
      heldUnique := h.heldUnique
      kept := fun id' key channel hwaits => ?_
      displaced := ?_
      consumed := fun handler key channel owned hmem => h.consumed_append hmem }
  · rw [hmailbox]
    exact h.newMailbox channel (Nat.le_of_succ_le hle)
  · rw [hpending'] at hkey
    obtain ⟨⟨id', howner⟩, hempty⟩ := h.owner key channel hkey
    refine ⟨⟨id', owns_set_of_ne hcalls ?_ howner⟩, by rw [hmailbox, hempty]⟩
    rintro rfl
    obtain ⟨call', hcall', rfl, hchannel⟩ := howner
    obtain rfl := Option.some.inj (hcall.symm.trans hcall')
    exact hfree channel hchannel hempty hkey
  · rw [hmailbox, hpending']
    exact h.held id' key channel h'
  · rw [hmailbox, hpending']
    exact h.kept id' key channel (waits_set_of_ne hcalls (howns hwaits.owns).1 hwaits)
  · simpa only [RevealState.afterCall, hclosed] using h.displaced

/-- The timer of a waiting call keeps the invariant: the call still owns its authorization. -/
theorem PendingInvariant.timer (h : PendingInvariant s) {id : ℕ} {call : RevealCall}
    (hcall : s.calls[id]? = some call) {effect : RevealEffect} {attempt : Attempt} {own : ℕ}
    (hpending : effect.pending = s.pending) (hclosed : effect.closed = none)
    (hpc : call.pc = .waiting attempt own) (hnext : effect.pc = .timedOut attempt own) :
    PendingInvariant (s.afterCall id call effect) := by
  have hcalls : (s.afterCall id call effect).calls = s.calls.set id { call with pc := effect.pc } :=
    rfl
  have hown : s.Owns id call.key own := ⟨call, hcall, rfl, by rw [hpc]; rfl⟩
  have howns {id' key channel} (howns : (s.afterCall id call effect).Owns id' key channel) :
      s.Owns id' key channel := by
    rcases owns_set hcalls howns with ⟨rfl, rfl, hchannel⟩ | ⟨-, howns⟩
    · rw [hnext] at hchannel
      cases hchannel
      exact hown
    · exact howns
  have hmailbox : (s.afterCall id call effect).mailbox = s.mailbox := by
    simp only [RevealState.afterCall, hclosed]
  have hpending' : (s.afterCall id call effect).pending = s.pending := hpending
  refine
    { newMailbox := fun channel hle => ?_
      ownsBelow := fun id' key channel h' => Nat.lt_succ_of_lt (h.ownsBelow _ _ _ (howns h'))
      holdsBelow := fun id' key channel h' => Nat.lt_succ_of_lt (h.holdsBelow id' key channel h')
      owner := fun key channel hkey => ?_
      unique := fun _ _ _ _ _ h₁ h₂ => h.unique _ _ _ _ _ (howns h₁) (howns h₂)
      held := fun id' key channel h' => ?_
      heldUnique := h.heldUnique
      kept := fun id' key channel hwaits => ?_
      displaced := ?_
      consumed := fun handler key channel owned hmem => h.consumed_append hmem }
  · rw [hmailbox]
    exact h.newMailbox channel (Nat.le_of_succ_le hle)
  · rw [hpending'] at hkey
    obtain ⟨⟨id', howner⟩, hempty⟩ := h.owner key channel hkey
    refine ⟨⟨id', ?_⟩, by rw [hmailbox, hempty]⟩
    by_cases hid : id' = id
    · subst hid
      obtain ⟨call', hcall', rfl, hchannel⟩ := howner
      obtain rfl := Option.some.inj (hcall.symm.trans hcall')
      rw [hpc] at hchannel
      cases hchannel
      have hlt := (List.getElem?_eq_some_iff.mp hcall).1
      exact ⟨{ call with pc := effect.pc }, by rw [hcalls, List.getElem?_set_self hlt], rfl,
        by rw [hnext]; rfl⟩
    · exact owns_set_of_ne hcalls hid howner
  · rw [hmailbox, hpending']
    exact h.held id' key channel h'
  · rw [hmailbox, hpending']
    refine h.kept id' key channel (waits_set_of_ne hcalls ?_ hwaits)
    rintro rfl
    obtain ⟨call', attempt', hcall', -, hpc'⟩ := hwaits
    have hlt := (List.getElem?_eq_some_iff.mp hcall).1
    rw [hcalls, List.getElem?_set_self hlt] at hcall'
    obtain rfl := Option.some.inj hcall'
    cases hnext.symm.trans hpc'
  · simpa only [RevealState.afterCall, hclosed] using h.displaced

/-- A registration under a free key keeps the invariant. -/
theorem PendingInvariant.register (h : PendingInvariant s) {id : ℕ} {call : RevealCall}
    (hcall : s.calls[id]? = some call) {effect : RevealEffect} {attempt : Attempt}
    (hpc : call.pc.channel = none) (hfree : s.pending call.key = none)
    (hpending : effect.pending = Function.update s.pending call.key (some s.nextChannel))
    (hclosed : effect.closed = none) (hnext : effect.pc = .waiting attempt s.nextChannel) :
    PendingInvariant (s.afterCall id call effect) := by
  have hcalls : (s.afterCall id call effect).calls = s.calls.set id { call with pc := effect.pc } :=
    rfl
  have hlt := (List.getElem?_eq_some_iff.mp hcall).1
  have hcases {id' key channel} (howns : (s.afterCall id call effect).Owns id' key channel) :
      id' = id ∧ key = call.key ∧ channel = s.nextChannel ∨ s.Owns id' key channel := by
    rcases owns_set hcalls howns with ⟨hid, hkey, hchannel⟩ | ⟨-, howns⟩
    · rw [hnext] at hchannel
      exact .inl ⟨hid, hkey.symm, (Option.some.inj hchannel).symm⟩
    · exact .inr howns
  have hne {id' key channel} (howns : s.Owns id' key channel) : id' ≠ id := by
    rintro rfl
    obtain ⟨other, hother, hkey, hchannel⟩ := howns
    obtain rfl := Option.some.inj (hcall.symm.trans hother)
    cases hpc.symm.trans hchannel
  have hmailbox : (s.afterCall id call effect).mailbox = s.mailbox := by
    simp only [RevealState.afterCall, hclosed]
  have hpending' : (s.afterCall id call effect).pending =
      Function.update s.pending call.key (some s.nextChannel) := hpending
  refine
    { newMailbox := fun channel hle => ?_
      ownsBelow := fun id' key channel h' => ?_
      holdsBelow := fun id' key channel h' => Nat.lt_succ_of_lt (h.holdsBelow id' key channel h')
      owner := fun key channel hkey => ?_
      unique := fun id₁ id₂ key₁ key₂ channel h₁ h₂ => ?_
      held := fun id' key channel h' => ?_
      heldUnique := h.heldUnique
      kept := fun id' key channel hwaits => ?_
      displaced := ?_
      consumed := fun handler key channel owned hmem => h.consumed_append hmem }
  · rw [hmailbox]
    exact h.newMailbox channel (Nat.le_of_succ_le hle)
  · rcases hcases h' with ⟨-, -, rfl⟩ | h'
    · exact Nat.lt_succ_self _
    · exact Nat.lt_succ_of_lt (h.ownsBelow id' key channel h')
  · rw [hpending'] at hkey
    rw [hmailbox]
    by_cases heq : key = call.key
    · subst heq
      rw [Function.update_self] at hkey
      cases hkey
      exact ⟨⟨id, { call with pc := effect.pc }, by rw [hcalls, List.getElem?_set_self hlt], rfl,
        by rw [hnext]; rfl⟩, h.newMailbox _ (Nat.le_refl _)⟩
    · rw [Function.update_of_ne heq] at hkey
      obtain ⟨⟨id', howner⟩, hempty⟩ := h.owner key channel hkey
      exact ⟨⟨id', owns_set_of_ne hcalls (hne howner) howner⟩, hempty⟩
  · rcases hcases h₁ with ⟨hid₁, -, hch₁⟩ | h₁ <;> rcases hcases h₂ with ⟨hid₂, -, hch₂⟩ | h₂
    · exact hid₁.trans hid₂.symm
    · exact absurd (h.ownsBelow _ _ _ h₂) (hch₁ ▸ Nat.lt_irrefl _)
    · exact absurd (h.ownsBelow _ _ _ h₁) (hch₂ ▸ Nat.lt_irrefl _)
    · exact h.unique _ _ _ _ _ h₁ h₂
  · obtain ⟨hempty, hnone⟩ := h.held id' key channel h'
    rw [hmailbox, hpending']
    refine ⟨hempty, fun key' => ?_⟩
    by_cases heq : key' = call.key
    · rw [heq, Function.update_self]
      rintro hch
      cases hch
      exact Nat.lt_irrefl _ (h.holdsBelow id' key _ h')
    · rw [Function.update_of_ne heq]
      exact hnone key'
  · rw [hmailbox, hpending']
    intro hempty
    rcases hcases hwaits.owns with ⟨-, rfl, rfl⟩ | howned
    · exact .inl (Function.update_self ..)
    · refine (h.kept id' key channel (waits_set_of_ne hcalls (hne howned) hwaits) hempty).imp_left
        fun hkey => ?_
      have hne : key ≠ call.key := by
        rintro rfl
        cases hfree.symm.trans hkey
      rw [Function.update_of_ne hne, hkey]
  · simpa only [RevealState.afterCall, hclosed] using h.displaced

/-- A timed-out call which removes its own authorization keeps the invariant. -/
theorem PendingInvariant.remove (h : PendingInvariant s) {id : ℕ} {call : RevealCall}
    (hcall : s.calls[id]? = some call) {effect : RevealEffect} {own : ℕ}
    (hown : call.pc.channel = some own)
    (hentry : s.pending call.key = none ∨ s.pending call.key = some own)
    (hpending : effect.pending = Function.update s.pending call.key none)
    (hclosed : effect.closed = s.pending call.key) (hnext : effect.pc.channel = none) :
    PendingInvariant (s.afterCall id call effect) := by
  have hcalls : (s.afterCall id call effect).calls = s.calls.set id { call with pc := effect.pc } :=
    rfl
  have howner : s.Owns id call.key own := ⟨call, hcall, rfl, hown⟩
  have howns {id' key channel} (howns : (s.afterCall id call effect).Owns id' key channel) :
      id' ≠ id ∧ s.Owns id' key channel := by
    rcases owns_set hcalls howns with ⟨-, -, hchannel⟩ | howns
    · cases hnext.symm.trans hchannel
    · exact howns
  have hne_own {id' key channel} (hid : id' ≠ id) (howns : s.Owns id' key channel) :
      channel ≠ own := fun hchannel => hid (h.unique _ _ _ _ _ (hchannel ▸ howns) howner)
  have hmailbox {channel} (hne : channel ≠ own ∨ s.pending call.key = none) :
      (s.afterCall id call effect).mailbox channel = s.mailbox channel := by
    simp only [RevealState.afterCall, hclosed]
    rcases hentry with hentry | hentry
    · rw [hentry]
    · rw [hentry] at hne ⊢
      exact Function.update_of_ne (hne.resolve_right (Option.some_ne_none own)) ..
  have hpending' : (s.afterCall id call effect).pending =
      Function.update s.pending call.key none := hpending
  have hremoved {key channel}
      (hkey : (s.afterCall id call effect).pending key = some channel) :
      key ≠ call.key ∧ s.pending key = some channel := by
    rw [hpending'] at hkey
    by_cases heq : key = call.key
    · simp [heq] at hkey
    · exact ⟨heq, by simpa [Function.update_of_ne heq] using hkey⟩
  refine
    { newMailbox := fun channel hle => ?_
      ownsBelow := fun id' key channel h' => Nat.lt_succ_of_lt (h.ownsBelow _ _ _ (howns h').2)
      holdsBelow := fun id' key channel h' => Nat.lt_succ_of_lt (h.holdsBelow id' key channel h')
      owner := fun key channel hkey => ?_
      unique := fun _ _ _ _ _ h₁ h₂ => h.unique _ _ _ _ _ (howns h₁).2 (howns h₂).2
      held := fun id' key channel h' => ?_
      heldUnique := h.heldUnique
      kept := fun id' key channel hwaits hempty => ?_
      displaced := ?_
      consumed := fun handler key channel owned hmem => h.consumed_append hmem }
  · have hlt := h.ownsBelow _ _ _ howner
    have hle : s.nextChannel + 1 ≤ channel := hle
    rw [hmailbox (.inl (by omega))]
    exact h.newMailbox channel (by omega)
  · obtain ⟨hne, hentry⟩ := hremoved hkey
    obtain ⟨⟨id', howner'⟩, hempty⟩ := h.owner key channel hentry
    have hid : id' ≠ id := by
      rintro rfl
      obtain ⟨call', hcall', rfl, -⟩ := howner'
      exact hne (by rw [Option.some.inj (hcall.symm.trans hcall')])
    exact ⟨⟨id', owns_set_of_ne hcalls hid howner'⟩,
      by rw [hmailbox (.inl (hne_own hid howner')), hempty]⟩
  · obtain ⟨hempty, hnone⟩ := h.held id' key channel h'
    refine ⟨?_, fun key' hkey => hnone key' (hremoved hkey).2⟩
    rw [hmailbox, hempty]
    rcases hentry with hentry | hentry
    · exact .inr hentry
    · exact .inl fun heq => hnone call.key (heq ▸ hentry)
  · obtain ⟨hid, howned⟩ := howns hwaits.owns
    have hchannel := hne_own hid howned
    rw [hmailbox (.inl hchannel)] at hempty
    refine (h.kept id' key channel (waits_set_of_ne hcalls hid hwaits) hempty).imp_left
      fun hkey => ?_
    have hne : key ≠ call.key := by
      rintro rfl
      rcases hentry with hentry | hentry
      · cases hentry.symm.trans hkey
      · exact hchannel (Option.some.inj (hkey.symm.trans hentry))
    rw [hpending', Function.update_of_ne hne, hkey]
  · simp only [RevealState.afterCall, hclosed]
    rcases hentry with hentry | hentry
    · simpa only [hentry] using h.displaced
    · simpa only [hentry, hown, if_true] using h.displaced

/-- A step of a call that touches no entry but its own keeps the invariant. -/
theorem PendingInvariant.step_call (h : PendingInvariant s) {id : ℕ} {input : RevealInput}
    (hown : s.touchesOwnEntry (.step id input)) (hstep : s.step hashes (.step id input) = some t) :
    PendingInvariant t := by
  obtain ⟨call, hcall, hstep⟩ := Option.bind_eq_some_iff.mp hstep
  obtain ⟨hadmits, hstep⟩ := Option.ite_none_right_eq_some.mp hstep
  obtain ⟨effect, heffect, rfl⟩ := Option.map_eq_some_iff.mp hstep
  cases revealStep_channel heffect with
  | leave hends hpending hclosed hnext =>
    refine h.leave hcall (fun channel hchannel hempty => ?_) hpending hclosed hnext
    rcases hends with hnone | rfl | ⟨attempt, own, hpc, hinput⟩
    · cases hnone.symm.trans hchannel
    · have hdrop : call.pc.channel = none ∨ s.pending call.key ≠ call.pc.channel := by
        simpa [RevealState.touchesOwnEntry, hcall] using hown
      rw [hchannel] at hdrop
      exact hdrop.resolve_left nofun
    · obtain rfl : own = channel := by simpa [hpc, RevealPc.channel] using hchannel
      rcases hinput with rfl | ⟨result, rfl⟩ <;> simp [hpc, RevealState.admits, hempty] at hadmits
  | timer hpending hclosed hpc hnext => exact h.timer hcall hpending hclosed hpc hnext
  | register hpc hinput hpending hfree hclosed hnext =>
    exact h.register hcall (by rw [hpc]; rfl) hfree hpending hclosed hnext
  | replace hpc hinput hpending hold hclosed hnext =>
    subst hinput
    have hfree : s.pending call.key = none := by
      simpa [RevealState.touchesOwnEntry, hcall, hpc] using hown
    cases hfree.symm.trans hold
  | @remove attempt own hpc hinput hpending hclosed hnext =>
    subst hinput
    have hentry : s.pending call.key = none ∨ s.pending call.key = some own := by
      simpa [RevealState.touchesOwnEntry, hcall, hpc] using hown
    exact h.remove hcall (by rw [hpc]; rfl) hentry hpending hclosed hnext

/-- What the handlers hold after one of them is replaced. -/
theorem holds_set {id : ℕ} {handler : RevealHandler}
    (hhandlers : t.handlers = s.handlers.set id handler) {id' : ℕ} {key : RevealRequestKey}
    {channel : ℕ} (h : t.Holds id' key channel) :
    id' = id ∧ handler.request.key = key ∧ handler.pc.channel = some channel ∨
      id' ≠ id ∧ s.Holds id' key channel := by
  obtain ⟨handler', hhandler', hkey, hchannel⟩ := h
  rw [hhandlers, List.getElem?_set] at hhandler'
  split at hhandler'
  · next heq =>
    split at hhandler'
    · obtain rfl := Option.some.inj hhandler'
      exact .inl ⟨heq.symm, hkey, hchannel⟩
    · cases hhandler'
  · next hne => exact .inr ⟨Ne.symm hne, handler', hhandler', hkey, hchannel⟩

/-- Other handlers keep what they hold. -/
theorem holds_set_of_ne {id : ℕ} {handler : RevealHandler}
    (hhandlers : t.handlers = s.handlers.set id handler) {id' : ℕ} (hne : id' ≠ id)
    {key : RevealRequestKey} {channel : ℕ} (h : s.Holds id' key channel) :
    t.Holds id' key channel := by
  obtain ⟨handler', hhandler', hkey, hchannel⟩ := h
  exact ⟨handler', by rw [hhandlers, List.getElem?_set, if_neg (Ne.symm hne), hhandler'], hkey,
    hchannel⟩

/-- A move of a handler which neither takes nor answers keeps the invariant. -/
theorem PendingInvariant.moveHandler (h : PendingInvariant s) {id : ℕ} {handler : RevealHandler}
    (hhandler : s.handlers[id]? = some handler) (pc : HandlerPc)
    (hpc : pc.channel = handler.pc.channel) : PendingInvariant (s.setHandler id handler pc) := by
  have hhandlers : (s.setHandler id handler pc).handlers =
      s.handlers.set id { handler with pc := pc } := rfl
  have hholds {id' key channel} : (s.setHandler id handler pc).Holds id' key channel ↔
      s.Holds id' key channel := by
    constructor
    · intro h'
      rcases holds_set hhandlers h' with ⟨rfl, hkey, hchannel⟩ | ⟨-, h'⟩
      · exact ⟨handler, hhandler, hkey, hpc ▸ hchannel⟩
      · exact h'
    · intro h'
      by_cases hid : id' = id
      · subst hid
        obtain ⟨handler', hhandler', hkey, hchannel⟩ := h'
        obtain rfl := Option.some.inj (hhandler.symm.trans hhandler')
        have hlt := (List.getElem?_eq_some_iff.mp hhandler).1
        exact ⟨{ handler with pc := pc }, by rw [hhandlers, List.getElem?_set_self hlt], hkey,
          hpc.trans hchannel⟩
      · exact holds_set_of_ne hhandlers hid h'
  exact
    { newMailbox := h.newMailbox
      ownsBelow := h.ownsBelow
      holdsBelow := fun id' key channel h' => h.holdsBelow id' key channel (hholds.mp h')
      owner := h.owner
      unique := h.unique
      held := fun id' key channel h' => h.held id' key channel (hholds.mp h')
      heldUnique := fun _ _ _ _ _ h₁ h₂ => h.heldUnique _ _ _ _ _ (hholds.mp h₁) (hholds.mp h₂)
      kept := fun id' key channel hwaits hempty =>
        (h.kept id' key channel hwaits hempty).imp_right fun ⟨id'', h'⟩ => ⟨id'', hholds.mpr h'⟩
      displaced := h.displaced
      consumed := h.consumed }

/-- A handler which answers on the channel it holds, or drops its sender, keeps the invariant. -/
theorem PendingInvariant.answer (h : PendingInvariant s) {id : ℕ} {handler : RevealHandler}
    (hhandler : s.handlers[id]? = some handler) {own : ℕ} (hown : handler.pc.channel = some own)
    (pc : HandlerPc) (hpc : pc.channel = none) (mailbox : Mailbox) (hmailbox : mailbox ≠ .empty) :
    PendingInvariant ((s.setHandler id handler pc).answer own mailbox) := by
  set t := (s.setHandler id handler pc).answer own mailbox with ht
  have hhandlers : t.handlers = s.handlers.set id { handler with pc := pc } := rfl
  have hholder : s.Holds id handler.request.key own := ⟨handler, hhandler, rfl, hown⟩
  have hholds {id' key channel} (h' : t.Holds id' key channel) :
      id' ≠ id ∧ s.Holds id' key channel := by
    rcases holds_set hhandlers h' with ⟨-, -, hchannel⟩ | h'
    · cases hpc.symm.trans hchannel
    · exact h'
  have hother {channel} (hne : channel ≠ own) : t.mailbox channel = s.mailbox channel :=
    Function.update_of_ne hne ..
  refine
    { newMailbox := fun channel hle => ?_
      ownsBelow := h.ownsBelow
      holdsBelow := fun id' key channel h' => h.holdsBelow id' key channel (hholds h').2
      owner := fun key channel hkey => ?_
      unique := h.unique
      held := fun id' key channel h' => ?_
      heldUnique := fun _ _ _ _ _ h₁ h₂ => h.heldUnique _ _ _ _ _ (hholds h₁).2 (hholds h₂).2
      kept := fun id' key channel hwaits hempty => ?_
      displaced := h.displaced
      consumed := h.consumed }
  · have hlt := h.holdsBelow _ _ _ hholder
    rw [hother (Nat.ne_of_gt (Nat.lt_of_lt_of_le hlt hle))]
    exact h.newMailbox channel hle
  · obtain ⟨howner, hempty⟩ := h.owner key channel hkey
    refine ⟨howner, ?_⟩
    rw [hother fun heq => (h.held _ _ _ hholder).2 key (heq ▸ hkey), hempty]
  · obtain ⟨hid, h'⟩ := hholds h'
    rw [hother fun heq => hid (h.heldUnique _ _ _ _ _ (heq ▸ h') hholder)]
    exact h.held id' key channel h'
  · by_cases heq : channel = own
    · subst heq
      exact absurd ((Function.update_self ..).symm.trans hempty) hmailbox
    · rw [hother heq] at hempty
      refine (h.kept id' key channel hwaits hempty).imp_right fun ⟨id'', h'⟩ => ⟨id'', ?_⟩
      refine holds_set_of_ne hhandlers ?_ h'
      rintro rfl
      obtain ⟨handler', hhandler', -, hchannel⟩ := h'
      obtain rfl := Option.some.inj (hhandler.symm.trans hhandler')
      exact heq (Option.some.inj (hchannel.symm.trans hown))

/-- A new call owns nothing. -/
theorem PendingInvariant.newCall (h : PendingInvariant s) (key : RevealRequestKey) :
    PendingInvariant { s with calls := s.calls ++ [⟨key, .fresh⟩] } := by
  set t : RevealState := { s with calls := s.calls ++ [⟨key, .fresh⟩] } with ht
  have hget {id : ℕ} {call : RevealCall} (hcall : t.calls[id]? = some call) :
      s.calls[id]? = some call ∨ call = ⟨key, .fresh⟩ := by
    have hcall : (s.calls ++ [⟨key, .fresh⟩])[id]? = some call := hcall
    rw [List.getElem?_append] at hcall
    split at hcall
    · exact .inl hcall
    · exact .inr (List.mem_singleton.mp (List.mem_of_getElem? hcall))
  have howns {id key' channel} (h' : t.Owns id key' channel) : s.Owns id key' channel := by
    obtain ⟨call, hcall, hkey, hchannel⟩ := h'
    rcases hget hcall with hcall | rfl
    · exact ⟨call, hcall, hkey, hchannel⟩
    · cases hchannel
  have hwaits {id key' channel} (h' : t.Waits id key' channel) : s.Waits id key' channel := by
    obtain ⟨call, attempt, hcall, hkey, hpc⟩ := h'
    rcases hget hcall with hcall | rfl
    · exact ⟨call, attempt, hcall, hkey, hpc⟩
    · cases hpc
  have hkept {id key' channel} (h' : s.Owns id key' channel) : t.Owns id key' channel := by
    obtain ⟨call, hcall, hkey, hchannel⟩ := h'
    exact ⟨call, List.getElem?_append_left (List.getElem?_eq_some_iff.mp hcall).1 ▸ hcall, hkey,
      hchannel⟩
  exact
    { newMailbox := h.newMailbox
      ownsBelow := fun _ _ _ h' => h.ownsBelow _ _ _ (howns h')
      holdsBelow := h.holdsBelow
      owner := fun key' channel hkey =>
        ⟨(h.owner key' channel hkey).1.imp fun _ => hkept, (h.owner key' channel hkey).2⟩
      unique := fun _ _ _ _ _ h₁ h₂ => h.unique _ _ _ _ _ (howns h₁) (howns h₂)
      held := h.held
      heldUnique := h.heldUnique
      kept := fun id key' channel h' => h.kept id key' channel (hwaits h')
      displaced := h.displaced
      consumed := h.consumed }

/-- A new handler holds nothing. -/
theorem PendingInvariant.newHandler (h : PendingInvariant s) (request : RevealCachedRequest) :
    PendingInvariant { s with handlers := s.handlers ++ [⟨request, .waiting⟩] } := by
  set t : RevealState := { s with handlers := s.handlers ++ [⟨request, .waiting⟩] } with ht
  have hholds {id key channel} (h' : t.Holds id key channel) : s.Holds id key channel := by
    obtain ⟨handler, hhandler, hkey, hchannel⟩ := h'
    have hhandler : (s.handlers ++ [⟨request, .waiting⟩])[id]? = some handler := hhandler
    rw [List.getElem?_append] at hhandler
    split at hhandler
    · exact ⟨handler, hhandler, hkey, hchannel⟩
    · obtain rfl := List.mem_singleton.mp (List.mem_of_getElem? hhandler)
      cases hchannel
  have hkept {id key channel} (h' : s.Holds id key channel) : t.Holds id key channel := by
    obtain ⟨handler, hhandler, hkey, hchannel⟩ := h'
    exact ⟨handler, List.getElem?_append_left (List.getElem?_eq_some_iff.mp hhandler).1 ▸ hhandler,
      hkey, hchannel⟩
  exact
    { newMailbox := h.newMailbox
      ownsBelow := h.ownsBelow
      holdsBelow := fun id key channel h' => h.holdsBelow id key channel (hholds h')
      owner := h.owner
      unique := h.unique
      held := fun id key channel h' => h.held id key channel (hholds h')
      heldUnique := fun _ _ _ _ _ h₁ h₂ => h.heldUnique _ _ _ _ _ (hholds h₁) (hholds h₂)
      kept := fun id key channel hwaits hempty =>
        (h.kept id key channel hwaits hempty).imp_right (.imp fun _ => hkept)
      displaced := h.displaced
      consumed := h.consumed }

/-- The memory does not enter the invariant. -/
theorem PendingInvariant.memory (h : PendingInvariant s) (inner : Inner) :
    PendingInvariant { s with inner := inner } :=
  ⟨h.newMailbox, h.ownsBelow, h.holdsBelow, h.owner, h.unique, h.held, h.heldUnique, h.kept,
    h.displaced, h.consumed⟩

/-- An event that is not a consumption does not enter the invariant. -/
theorem PendingInvariant.logged (h : PendingInvariant s) {event : RevealEvent}
    (hevent : ∀ handler key channel owned, event ≠ .consumed handler key channel owned) :
    PendingInvariant { s with log := event :: s.log } :=
  ⟨h.newMailbox, h.ownsBelow, h.holdsBelow, h.owner, h.unique, h.held, h.heldUnique, h.kept,
    h.displaced, fun handler key channel owned hmem => h.consumed handler key channel owned
      ((List.mem_cons.mp hmem).resolve_left (hevent handler key channel owned).symm)⟩

/-- A failing handler keeps the invariant. -/
theorem PendingInvariant.failHandler (h : PendingInvariant s) {id : ℕ} {handler : RevealHandler}
    (hhandler : s.handlers[id]? = some handler) {own : ℕ} (hown : handler.pc.channel = some own)
    (error : DaemonError) : PendingInvariant (s.failHandler id handler own error) :=
  h.answer hhandler hown _ rfl _ nofun

/-- A step of a handler keeps the invariant. -/
theorem PendingInvariant.work (h : PendingInvariant s) {id : ℕ} {written : Bool}
    (hstep : s.step hashes (.work id written) = some t) : PendingInvariant t := by
  obtain ⟨handler, hhandler, hstep⟩ := Option.bind_eq_some_iff.mp hstep
  unfold RevealState.work at hstep
  split at hstep
  · next own hpc =>
    have hown : handler.pc.channel = some own := by rw [hpc]; rfl
    obtain rfl := Option.some.inj hstep
    split
    · exact h.failHandler hhandler hown _
    · exact h.moveHandler hhandler _ hown.symm
  · next own node hpc =>
    have hown : handler.pc.channel = some own := by rw [hpc]; rfl
    obtain rfl := Option.some.inj hstep
    split
    · exact h.failHandler hhandler hown _
    · exact (h.moveHandler hhandler (.opened own _ _ _) hown.symm).logged fun _ _ _ _ => nofun
  · next own context response value hpc =>
    have hown : handler.pc.channel = some own := by rw [hpc]; rfl
    obtain rfl := Option.some.inj hstep
    unfold RevealState.finishHandler
    split
    · exact h.failHandler hhandler hown _
    · split
      · exact h.failHandler hhandler hown _
      · next inner mutations hstore =>
        split
        · have hanswered := h.answer hhandler hown (.done (.ok response)) rfl
            (.delivered (.ok value)) nofun
          exact (hanswered.memory inner).logged fun _ _ _ _ => nofun
        · exact (h.memory inner).failHandler hhandler hown _
  · cases hstep

/-- A handler takes an authorization from the call that owns it. -/
theorem PendingInvariant.take (h : PendingInvariant s) {id : ℕ}
    (hstep : s.step hashes (.take id) = some t) : PendingInvariant t := by
  obtain ⟨handler, hhandler, hstep⟩ := Option.bind_eq_some_iff.mp hstep
  obtain ⟨hwaiting, hstep⟩ := Option.ite_none_right_eq_some.mp hstep
  obtain ⟨own, hentry, rfl⟩ := Option.map_eq_some_iff.mp hstep
  obtain ⟨⟨owner, howner⟩, hempty⟩ := h.owner _ _ hentry
  have hlt := (List.getElem?_eq_some_iff.mp hhandler).1
  have howned : s.owned handler.request.key own = true := by
    obtain ⟨call, hcall, hkey, hchannel⟩ := howner
    exact List.any_eq_true.mpr ⟨call, List.mem_of_getElem? hcall, by simp [hkey, hchannel]⟩
  set t : RevealState := { s.setHandler id handler (.took own) with
    pending := Function.update s.pending handler.request.key none
    log := .consumed id handler.request.key own (s.owned handler.request.key own) :: s.log } with ht
  have hhandlers : t.handlers = s.handlers.set id { handler with pc := .took own } := rfl
  have hremoved {key channel} (hkey : t.pending key = some channel) :
      key ≠ handler.request.key ∧ s.pending key = some channel := by
    have hkey : Function.update s.pending handler.request.key none key = some channel := hkey
    by_cases heq : key = handler.request.key
    · simp [heq] at hkey
    · exact ⟨heq, by simpa [Function.update_of_ne heq] using hkey⟩
  have hown_ne {key} (hkey : t.pending key = some own) : False := by
    obtain ⟨hne, hkey⟩ := hremoved hkey
    obtain ⟨⟨owner', howner'⟩, -⟩ := h.owner key own hkey
    obtain rfl := h.unique _ _ _ _ _ howner' howner
    obtain ⟨call, hcall, rfl, -⟩ := howner'
    obtain ⟨call', hcall', hkey', -⟩ := howner
    obtain rfl := Option.some.inj (hcall.symm.trans hcall')
    exact hne hkey'
  have hother {id' key} (h' : s.Holds id' key own) : False :=
    (h.held id' key own h').2 _ hentry
  refine
    { newMailbox := h.newMailbox
      ownsBelow := h.ownsBelow
      holdsBelow := fun id' key channel h' => ?_
      owner := fun key channel hkey => h.owner key channel (hremoved hkey).2
      unique := h.unique
      held := fun id' key channel h' => ?_
      heldUnique := fun id₁ id₂ key₁ key₂ channel h₁ h₂ => ?_
      kept := fun id' key channel hwaits hempty => ?_
      displaced := h.displaced
      consumed := fun handler' key channel owned hmem => ?_ }
  · rcases holds_set hhandlers h' with ⟨-, -, hchannel⟩ | ⟨-, h'⟩
    · obtain rfl : own = channel := Option.some.inj hchannel
      exact h.ownsBelow _ _ _ howner
    · exact h.holdsBelow id' key channel h'
  · rcases holds_set hhandlers h' with ⟨-, -, hchannel⟩ | ⟨-, h'⟩
    · obtain rfl : own = channel := Option.some.inj hchannel
      exact ⟨hempty, fun key' hkey => hown_ne hkey⟩
    · exact ⟨(h.held id' key channel h').1, fun key' hkey =>
        (h.held id' key channel h').2 key' (hremoved hkey).2⟩
  · rcases holds_set hhandlers h₁ with ⟨hid₁, -, hchannel⟩ | ⟨-, h₁⟩ <;>
      rcases holds_set hhandlers h₂ with ⟨hid₂, -, hchannel'⟩ | ⟨-, h₂⟩
    · exact hid₁.trans hid₂.symm
    · exact (hother (Option.some.inj hchannel ▸ h₂)).elim
    · exact (hother (Option.some.inj hchannel' ▸ h₁)).elim
    · exact h.heldUnique _ _ _ _ _ h₁ h₂
  · have htaken : t.Holds id handler.request.key own :=
      ⟨{ handler with pc := .took own }, by rw [hhandlers, List.getElem?_set_self hlt], rfl, rfl⟩
    rcases h.kept id' key channel hwaits hempty with hkey | ⟨id'', h'⟩
    · by_cases heq : key = handler.request.key
      · subst heq
        obtain rfl : own = channel := Option.some.inj (hentry.symm.trans hkey)
        exact .inr ⟨id, htaken⟩
      · exact .inl ((Function.update_of_ne heq ..).trans hkey)
    · refine .inr ⟨id'', holds_set_of_ne hhandlers ?_ h'⟩
      rintro rfl
      obtain ⟨handler', hhandler', -, hchannel⟩ := h'
      obtain rfl := Option.some.inj (hhandler.symm.trans hhandler')
      rw [hwaiting] at hchannel
      cases hchannel
  · rcases List.mem_cons.mp hmem with heq | hmem
    · cases heq
      exact howned
    · exact h.consumed handler' key channel owned hmem

/-- One step of a run whose calls touch only their own entries keeps the invariant. -/
theorem PendingInvariant.step (h : PendingInvariant s) {label : RevealLabel}
    (hown : s.touchesOwnEntry label) (hstep : s.step hashes label = some t) :
    PendingInvariant t := by
  cases label with
  | call key =>
    obtain rfl := Option.some.inj hstep
    exact h.newCall key
  | step id input => exact h.step_call hown hstep
  | incoming request =>
    obtain rfl := Option.some.inj hstep
    exact h.newHandler request
  | take id => exact h.take hstep
  | authorizationTimer id =>
    obtain ⟨handler, hhandler, hstep⟩ := Option.bind_eq_some_iff.mp hstep
    obtain ⟨hwaiting, hstep⟩ := Option.ite_none_right_eq_some.mp hstep
    obtain rfl := Option.some.inj hstep
    exact h.moveHandler hhandler _ (by rw [hwaiting]; rfl)
  | work id written => exact h.work hstep
  | dropHandler id =>
    obtain ⟨handler, hhandler, hstep⟩ := Option.bind_eq_some_iff.mp hstep
    split at hstep
    · cases hstep
    · cases hstep
    · obtain rfl := Option.some.inj hstep
      split
      · next own hown => exact h.answer hhandler hown _ rfl _ nofun
      · next hown => exact h.moveHandler hhandler _ hown.symm
  | memory inner =>
    obtain rfl := Option.some.inj hstep
    exact h.memory inner

/-- A daemon with no reveal task meets the invariant. -/
theorem PendingInvariant.start (inner : Inner) : PendingInvariant (.start inner) where
  newMailbox _ _ := rfl
  ownsBelow _ _ _ h := by obtain ⟨_, h, -⟩ := h; cases h
  holdsBelow _ _ _ h := by obtain ⟨_, h, -⟩ := h; cases h
  owner _ _ h := nomatch h
  unique _ _ _ _ _ h := by obtain ⟨_, h, -⟩ := h; cases h
  held _ _ _ h := by obtain ⟨_, h, -⟩ := h; cases h
  heldUnique _ _ _ _ _ h := by obtain ⟨_, h, -⟩ := h; cases h
  kept _ _ _ h := by obtain ⟨_, _, h, -⟩ := h; cases h
  displaced := rfl
  consumed _ _ _ _ h := (List.not_mem_nil h).elim

/-- Every event of an allowed history is allowed by events of the history. -/
theorem LogAllowed.of_mem {log : List RevealEvent} (h : LogAllowed hashes log) {event : RevealEvent}
    (hmem : event ∈ log) : ∃ earlier, earlier ⊆ log ∧ EventAllowed hashes earlier event := by
  induction log with
  | nil => cases hmem
  | cons latest earlier ih =>
    rcases List.mem_cons.mp hmem with rfl | hmem
    · exact ⟨earlier, List.subset_cons_self .., h.1⟩
    · obtain ⟨earlier', hsub, hallowed⟩ := ih h.2 hmem
      exact ⟨earlier', List.Subset.trans hsub (List.subset_cons_self ..), hallowed⟩

/-- Every released share has a consumption in an allowed history. -/
theorem LogAllowed.consumed_of_released {log : List RevealEvent} (h : LogAllowed hashes log)
    {handler : ℕ} {request : RevealCachedRequest} {context : RevealNodeContext}
    {response : RevealCachedResponse} (hmem : .released handler request context response ∈ log) :
    ∃ channel owned, .consumed handler request.key channel owned ∈ log := by
  obtain ⟨earlier, hsub, inner, hcompared⟩ := h.of_mem hmem
  obtain ⟨earlier', hsub', ⟨channel, owned, hconsumed⟩, -⟩ := h.of_mem (hsub hcompared)
  exact ⟨channel, owned, hsub' hconsumed⟩

/-- In a run whose calls touch only their own entries every pending authorization has its owner. -/
theorem pending_owned (hashes : Hashes) (inner : Inner) (labels : List RevealLabel)
    (hrun : run (RevealState.step hashes) (.start inner) labels = some t)
    (hown : Along (RevealState.step hashes) (fun s label => s.touchesOwnEntry label) (.start inner)
      labels) :
    PendingOwned t := by
  have h : PendingInvariant t :=
    Runs.invariant (fun _ _ _ h hcond hstep => h.step hcond hstep) (.start inner) hrun hown
  have hgate : GateInvariant hashes t :=
    Runs.invariant_of_step (fun _ _ _ h hstep => h.step hstep) (.start hashes inner) hrun
  exact
    { owner := fun key channel hkey => (h.owner key channel hkey).1
      unique := h.unique
      released := fun handler request context response hmem => by
        obtain ⟨channel, owned, hconsumed⟩ := hgate.log.consumed_of_released hmem
        obtain rfl := h.consumed _ _ _ _ hconsumed
        exact ⟨channel, hconsumed⟩
      kept := h.kept
      displaced := h.displaced }

/-- The key of a reveal of index one of channel one. -/
def oneNodeKey : RevealRequestKey := ⟨1, 1, 1, false⟩

/-- One call registers, its timer fires and it removes its entry, and a second call registers. -/
theorem pending_owned_retry : ∃ t,
    run (RevealState.step constantHashes) (.start (oneNodeInner .bob))
      [.call oneNodeKey, .step 0 .lock, .step 0 .lock, .step 0 .lock, .step 0 .timer, .step 0 .lock,
        .call oneNodeKey, .step 1 .lock, .step 1 .lock, .step 1 .lock] = some t ∧
      t.pending oneNodeKey = some 7 ∧ PendingOwned t := by
  have hpending : ((run (RevealState.step constantHashes) (.start (oneNodeInner .bob))
      [.call oneNodeKey, .step 0 .lock, .step 0 .lock, .step 0 .lock, .step 0 .timer, .step 0 .lock,
        .call oneNodeKey, .step 1 .lock, .step 1 .lock, .step 1 .lock]).map
      fun t => t.pending oneNodeKey) = some (some 7) := by
    decide +kernel
  obtain ⟨t, hrun, hpending⟩ := Option.map_eq_some_iff.mp hpending
  exact ⟨t, hrun, hpending, pending_owned _ _ _ hrun (by decide +kernel)⟩

/-- A second call with the key of a waiting one is refused, but has replaced its entry: the entry
belongs to the refused call, and the sender of the waiting one is gone. -/
theorem pending_owned_duplicate : ∃ t,
    run (RevealState.step constantHashes) (.start (oneNodeInner .bob))
      [.call oneNodeKey, .step 0 .lock, .step 0 .lock, .step 0 .lock,
        .call oneNodeKey, .step 1 .lock, .step 1 .lock, .step 1 .lock] = some t ∧
      t.pending oneNodeKey = some 5 ∧ t.mailbox 2 = .closed ∧
      t.calls = [⟨oneNodeKey, .waiting .first 2⟩,
        ⟨oneNodeKey, .done (.error (.refused "cached reveal is already pending"))⟩] ∧
      ¬ PendingOwned t := by
  have hstate : ((run (RevealState.step constantHashes) (.start (oneNodeInner .bob))
      [.call oneNodeKey, .step 0 .lock, .step 0 .lock, .step 0 .lock,
        .call oneNodeKey, .step 1 .lock, .step 1 .lock, .step 1 .lock]).map
      fun t => (t.pending oneNodeKey, t.mailbox 2, t.calls)) = some (some 5, .closed,
        [⟨oneNodeKey, .waiting .first 2⟩,
          ⟨oneNodeKey, .done (.error (.refused "cached reveal is already pending"))⟩]) := by
    decide +kernel
  obtain ⟨t, hrun, hstate⟩ := Option.map_eq_some_iff.mp hstate
  simp only [Prod.mk.injEq] at hstate
  obtain ⟨hpending, hmailbox, hcalls⟩ := hstate
  refine ⟨t, hrun, hpending, hmailbox, hcalls, fun h => ?_⟩
  obtain ⟨id, call, hcall, -, hchannel⟩ := h.owner _ _ hpending
  have hmem := List.mem_of_getElem? hcall
  rw [hcalls] at hmem
  rcases List.mem_cons.mp hmem with rfl | hmem
  · simp [RevealPc.channel] at hchannel
  · obtain rfl := List.mem_singleton.mp hmem
    simp [RevealPc.channel] at hchannel

end Shachain2pc
