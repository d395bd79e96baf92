import Shachain2pc.Daemon.RevealRetry
import Shachain2pc.Lib.Rust
import Mathlib.Data.List.Induction

/-!
# Falling back to a full derivation

A reveal asks `derive_known` once, before its first await. By the time it falls back to
`run_full_derivation`, other reveals and handlers of the peer's requests may have stored
secrets. The fallback starts for a derivable secret exactly when one of them has, since the
question was asked, stored a secret of the channel which derives the requested index.
-/

namespace Shachain2pc

open Std
open Runs (run Along)

/-- The next step of the call starts `run_full_derivation`. -/
def RevealState.StartsFullDerivation (hashes : Hashes) (s : RevealState) (id : ℕ)
    (call : RevealCall) : Prop :=
  s.calls[id]? = some call ∧
    (revealStep hashes s.inner s.pending s.nextChannel call.key call.pc .lock).bind (·.opening) =
      some .fullDerivation

instance (hashes : Hashes) (s : RevealState) (id : ℕ) (call : RevealCall) :
    Decidable (s.StartsFullDerivation hashes id call) := inferInstanceAs (Decidable (_ ∧ _))

/-- The arguments with which a step calls `store_known_secret`: those of a call which has got its
secret, or those of a request which a handler has opened. -/
def RevealState.storing (s : RevealState) : RevealLabel → Option RevealRequestKey
  | .step id (.written _) => s.calls[id]?.bind fun call => match call.pc with
    | .store .. => some call.key
    | _ => none
  | .work id _ => s.handlers[id]?.bind fun handler => match handler.pc with
    | .opened .. => some handler.request.key
    | _ => none
  | _ => none

/-- A secret stored with these arguments derives the one of the key. -/
structure Inner.StoresDeriving (inner : Inner) (key stored : RevealRequestKey) : Prop where
  channel : stored.channelIndex = key.channelIndex
  exists_channel : key.channelIndex ∈ inner.db.channels
  index : stored.requestedIndex ≤ maxIndex
  derives : Derives stored.requestedIndex key.requestedIndex

/-- The step stores a secret of the key's channel which derives the secret of the key. -/
def RevealState.StoresDeriving (s : RevealState) (key : RevealRequestKey) (label : RevealLabel) :
    Prop :=
  ∃ stored ∈ s.storing label, s.inner.StoresDeriving key stored

/-- The step is one of a reveal call or of a handler, or leaves the known secrets alone. -/
def RevealState.LeavesKnown (s : RevealState) : RevealLabel → Prop
  | .memory inner => ∀ c, inner.db.knownSecrets c = s.inner.db.knownSecrets c
  | _ => True

/-- In the run the call asks `derive_known`, which leads to the state from which the later labels
are taken. -/
def RevealState.Asks (hashes : Hashes) (start : RevealState) (labels : List RevealLabel) (id : ℕ)
    (key : RevealRequestKey) (s : RevealState) (later : List RevealLabel) : Prop :=
  ∃ earlier asking, labels = earlier ++ .step id .lock :: later ∧
    run (RevealState.step hashes) start earlier = some asking ∧
    asking.calls[id]? = some ⟨key, .fresh⟩ ∧ asking.step hashes (.step id .lock) = some s

variable {hashes : Hashes} {inner inner' : Inner} {key stored : RevealRequestKey}
  {s t : RevealState} {label : RevealLabel} {id : ℕ} {call : RevealCall}

/-! ## What a memory yields -/

/-- A stored secret of the channel yields the secret of the index. -/
def PlainDb.Yields (db : PlainDb) (channelIndex index : ℕ) : Prop :=
  ∃ i ∈ db.knownSecrets channelIndex, deriveTests i index

/-- A secret is derivable exactly when a stored one yields it. -/
theorem exists_derivable_iff (hindex : key.requestedIndex ≤ maxIndex) :
    (∃ secret, Derivable hashes inner key secret) ↔
      inner.db.Yields key.channelIndex key.requestedIndex := by
  have hsome : (∃ secret, Derivable hashes inner key secret) ↔
      (deriveKnown hashes.onValue inner.db key.channelIndex
        ⟨key.requestedIndex, hindex⟩).isSome := by
    rw [Option.isSome_iff_exists]
    refine exists_congr fun secret => ⟨fun ⟨index, hget, hderive⟩ => ?_, fun h => ⟨_, rfl, h⟩⟩
    obtain rfl : index = ⟨key.requestedIndex, hindex⟩ := by
      cases index
      cases hget
      rfl
    exact hderive
  rw [hsome, deriveKnown_eq, List.findSome?_isSome_iff]
  constructor
  · rintro ⟨⟨i, v⟩, hmem, hyields⟩
    exact ⟨i, ExtTreeMap.mem_iff_isSome_getElem?.mpr (mem_toList.mp hmem ▸ rfl),
      deriveFromKnown_isSome.mp hyields⟩
  · rintro ⟨i, hi, htests⟩
    obtain ⟨v, hv⟩ := Option.isSome_iff_exists.mp (ExtTreeMap.mem_iff_isSome_getElem?.mp hi)
    exact ⟨(i, v), mem_toList.mpr hv, deriveFromKnown_isSome.mpr htests⟩

/-- Storing a channel record changes the known secrets of this channel only. -/
theorem knownSecrets_setChannel (db : PlainDb) (c c' : ℕ) (channel : ChannelRecord) :
    (db.setChannel c channel).knownSecrets c' =
      if c = c' then channel.knownSecrets else db.knownSecrets c' := by
  rw [PlainDb.knownSecrets, channelOrEmpty_setChannel]
  split <;> rfl

/-- The known secrets of a channel which exists. -/
theorem knownSecrets_of_channel {db : PlainDb} {c : ℕ} {channel : ChannelRecord}
    (hc : db.channels[c]? = some channel) : db.knownSecrets c = channel.knownSecrets := by
  rw [PlainDb.knownSecrets, PlainDb.channelOrEmpty, hc]
  rfl

/-- Storing a node leaves the known secrets. -/
theorem storeNode_knownSecrets {sha256 : List UInt8 → Value32} {c c' mask : ℕ}
    {wires : Ag2pcSecureWires} {mutations : List Mutation}
    (h : storeNode sha256 inner c mask wires = .ok (inner', mutations)) :
    inner'.db.knownSecrets c' = inner.db.knownSecrets c' := by
  unfold storeNode at h
  cases hc : inner.db.channels[c]? with
  | none => simp [bindingPair, hc, bind, Except.bind] at h
  | some channel =>
    simp only [bindingPair_of_channel hc, hc, bind, Except.bind] at h
    cases h
    rw [Inner.setChannel, knownSecrets_setChannel]
    split
    · next heq => rw [← heq, knownSecrets_of_channel hc]
    · rfl

/-- Storing a secret adds what it derives to what the memory yields. -/
theorem storeKnownSecret_yields {index : Index48} {secret : Value32} {mutations : List Mutation}
    (hindex : key.requestedIndex ≤ maxIndex) (hnew : Index48.new stored.requestedIndex = .ok index)
    (h : inner.storeKnownSecret hashes.sha256 stored.channelIndex index stored.expectedNextIndex
      secret = .ok (inner', mutations)) :
    inner'.db.Yields key.channelIndex key.requestedIndex ↔
      inner.db.Yields key.channelIndex key.requestedIndex ∨ inner.StoresDeriving key stored := by
  obtain ⟨⟨db', _⟩, hstore, heq⟩ := Rust.map_eq_ok h
  obtain ⟨rfl, -⟩ := Prod.mk.inj heq
  have hget := Index48.new_get hnew
  cases hc : inner.db.channels[stored.channelIndex]? with
  | none => simp [Shachain2pc.storeKnownSecret, hc] at hstore
  | some channel =>
    simp only [Shachain2pc.storeKnownSecret, hc, Except.ok.injEq, Prod.mk.injEq] at hstore
    obtain ⟨rfl, -⟩ := hstore
    unfold PlainDb.Yields
    rw [knownSecrets_setChannel]
    by_cases heq : stored.channelIndex = key.channelIndex
    · rw [if_pos heq, insertKnown_yields hindex, ← heq, knownSecrets_of_channel hc]
      refine or_congr_right ⟨fun htests => ⟨heq, ?_, ?_, ?_⟩, fun hstores => ?_⟩
      · exact ExtTreeMap.mem_iff_isSome_getElem?.mpr (heq ▸ hc ▸ rfl)
      · exact hget ▸ index.le_max
      · exact hget ▸ (derives_iff index.le_max hindex).mpr htests
      · exact (derives_iff index.le_max hindex).mp (hget ▸ hstores.derives)
    · rw [if_neg heq]
      exact (or_iff_left fun hstores => heq hstores.channel).symm

/-- A store which fails would have stored nothing. -/
theorem not_storesDeriving_of_error {index : Index48} {secret : Value32} {error : DaemonError}
    (h : inner.storeKnownSecret hashes.sha256 stored.channelIndex index stored.expectedNextIndex
      secret = .error error) : ¬inner.StoresDeriving key stored := by
  intro hstores
  have hmem := hstores.exists_channel
  rw [← hstores.channel, ExtTreeMap.mem_iff_isSome_getElem?] at hmem
  obtain ⟨channel, hc⟩ := Option.isSome_iff_exists.mp hmem
  simp [Inner.storeKnownSecret, Shachain2pc.storeKnownSecret, hc, Except.map] at h

/-! ## One step -/

/-- A memory with the same known secrets yields the same. -/
theorem yields_congr {db db' : PlainDb} {c index : ℕ} (h : db'.knownSecrets c = db.knownSecrets c) :
    db'.Yields c index ↔ db.Yields c index := by
  rw [PlainDb.Yields, h, PlainDb.Yields]

/-- The step of a call which does not store its secret leaves the known secrets. -/
theorem revealStep_knownSecrets {pending : PendingReveals} {channel : ℕ} {pc : RevealPc}
    {input : RevealInput} {effect : RevealEffect} (c : ℕ)
    (h : revealStep hashes inner pending channel key pc input = some effect)
    (hstore : ∀ secret fromCache source, pc ≠ .store secret fromCache source) :
    effect.inner.db.knownSecrets c = inner.db.knownSecrets c := by
  unfold revealStep at h
  simp only at h
  split at h
  case h_1 | h_2 | h_19 => cases h
  case h_6 attempt node =>
    obtain rfl := Option.some.inj h
    rw [(revealCachedNode_withholds hashes inner pending channel key attempt node ⟨default⟩).2]
  case h_13 =>
    split at h
    · obtain rfl := Option.some.inj h
      rfl
    · obtain rfl := Option.some.inj h
      exact reconcileWithPeer_knownSecrets ..
  case h_14 =>
    obtain rfl := Option.some.inj h
    repeat' split
    all_goals rfl
  case h_16 =>
    split at h
    · obtain rfl := Option.some.inj h
      rfl
    · split at h
      · obtain rfl := Option.some.inj h
        rfl
      · next hnode =>
        obtain rfl := Option.some.inj h
        exact storeNode_knownSecrets hnode
  case h_17 =>
    split at h <;> obtain rfl := Option.some.inj h <;> rfl
  case h_18 => exact absurd rfl (hstore _ _ _)
  all_goals
    obtain rfl := Option.some.inj h
    rfl

/-- A call which stores its secret adds what it derives. -/
theorem storeAndRespond_yields {own : RevealRequestKey} {pending : PendingReveals}
    {secret : Value32} {fromCache written : Bool} {source : String}
    (hindex : key.requestedIndex ≤ maxIndex) :
    (storeAndRespond hashes inner pending own secret fromCache source written).inner.db.Yields
        key.channelIndex key.requestedIndex ↔
      inner.db.Yields key.channelIndex key.requestedIndex ∨ inner.StoresDeriving key own := by
  unfold storeAndRespond
  cases hnew : Index48.new own.requestedIndex with
  | error error =>
    refine (or_iff_left fun hstores => ?_).symm
    rw [Index48.new, dif_pos hstores.index] at hnew
    cases hnew
  | ok index =>
    cases hstore : inner.storeKnownSecret hashes.sha256 own.channelIndex index own.expectedNextIndex
        secret with
    | error error =>
      simp only [hstore]
      exact (or_iff_left (not_storesDeriving_of_error hstore)).symm
    | ok result =>
      simp only [hstore]
      exact storeKnownSecret_yields hindex hnew hstore

/-- A handler which stores the secret it opened adds what it derives. -/
theorem finishHandler_yields {handler : RevealHandler} {channel : ℕ} {context : RevealNodeContext}
    {response : RevealCachedResponse} {value : Value32} {written : Bool}
    (hindex : key.requestedIndex ≤ maxIndex) :
    (s.finishHandler hashes id handler channel context response value written).inner.db.Yields
        key.channelIndex key.requestedIndex ↔
      s.inner.db.Yields key.channelIndex key.requestedIndex ∨
        s.inner.StoresDeriving key handler.request.key := by
  unfold RevealState.finishHandler
  cases hnew : Index48.new handler.request.key.requestedIndex with
  | error error =>
    refine (or_iff_left fun hstores => ?_).symm
    rw [Index48.new, dif_pos hstores.index] at hnew
    cases hnew
  | ok index =>
    cases hstore : s.inner.storeKnownSecret hashes.sha256 handler.request.key.channelIndex index
        handler.request.key.expectedNextIndex value with
    | error error =>
      simp only [hstore]
      exact (or_iff_left (not_storesDeriving_of_error hstore)).symm
    | ok result =>
      simp only [hstore]
      refine Iff.trans ?_ (storeKnownSecret_yields hindex hnew hstore)
      split <;> rfl

/-- What the daemon yields after a step is what it has yielded before, and what the step stored. -/
theorem RevealState.step_yields (hstep : s.step hashes label = some t)
    (hleaves : s.LeavesKnown label) (hindex : key.requestedIndex ≤ maxIndex) :
    t.inner.db.Yields key.channelIndex key.requestedIndex ↔
      s.inner.db.Yields key.channelIndex key.requestedIndex ∨ s.StoresDeriving key label := by
  have hkept (hknown : ∀ c, t.inner.db.knownSecrets c = s.inner.db.knownSecrets c)
      (hnone : s.storing label = none) : t.inner.db.Yields key.channelIndex key.requestedIndex ↔
        s.inner.db.Yields key.channelIndex key.requestedIndex ∨ s.StoresDeriving key label := by
    rw [yields_congr (hknown _)]
    refine (or_iff_left ?_).symm
    rintro ⟨stored, hstored, -⟩
    rw [hnone] at hstored
    cases hstored
  have hstores {stored : RevealRequestKey} (hsome : s.storing label = some stored) :
      s.StoresDeriving key label ↔ s.inner.StoresDeriving key stored := by
    simp [RevealState.StoresDeriving, hsome]
  cases label with
  | call _ | incoming _ =>
    obtain rfl := Option.some.inj hstep
    exact hkept (fun _ => rfl) rfl
  | memory inner =>
    obtain rfl := Option.some.inj hstep
    exact hkept hleaves rfl
  | take id =>
    obtain ⟨handler, -, hstep⟩ := Option.bind_eq_some_iff.mp hstep
    obtain ⟨-, hstep⟩ := Option.ite_none_right_eq_some.mp hstep
    obtain ⟨channel, -, rfl⟩ := Option.map_eq_some_iff.mp hstep
    exact hkept (fun _ => rfl) rfl
  | authorizationTimer id =>
    obtain ⟨handler, -, hstep⟩ := Option.bind_eq_some_iff.mp hstep
    obtain ⟨-, hstep⟩ := Option.ite_none_right_eq_some.mp hstep
    obtain rfl := Option.some.inj hstep
    exact hkept (fun _ => rfl) rfl
  | dropHandler id =>
    obtain ⟨handler, -, hstep⟩ := Option.bind_eq_some_iff.mp hstep
    refine hkept (fun _ => ?_) rfl
    split at hstep
    · cases hstep
    · cases hstep
    · obtain rfl := Option.some.inj hstep
      split <;> rfl
  | step id input =>
    obtain ⟨call, hcall, hstep⟩ := Option.bind_eq_some_iff.mp hstep
    obtain ⟨-, hstep⟩ := Option.ite_none_right_eq_some.mp hstep
    obtain ⟨effect, heffect, rfl⟩ := Option.map_eq_some_iff.mp hstep
    by_cases hstore : ∃ secret fromCache source, call.pc = .store secret fromCache source
    · obtain ⟨secret, fromCache, source, hpc⟩ := hstore
      rw [hpc] at heffect
      cases input with
      | written written =>
        have hstoring : s.storing (.step id (.written written)) = some call.key := by
          simp [RevealState.storing, hcall, hpc]
        obtain rfl := Option.some.inj heffect
        rw [hstores hstoring]
        exact storeAndRespond_yields hindex
      | drop =>
        obtain rfl := Option.some.inj heffect
        exact hkept (fun _ => rfl) rfl
      | _ => cases heffect
    · have hne : ∀ secret fromCache source, call.pc ≠ .store secret fromCache source :=
        fun secret fromCache source hpc => hstore ⟨secret, fromCache, source, hpc⟩
      refine hkept (fun c => revealStep_knownSecrets c heffect hne) ?_
      cases input with
      | written written =>
        obtain ⟨own, pc⟩ := call
        cases pc with
        | store secret fromCache source => exact absurd rfl (hne _ _ _)
        | _ => simp [RevealState.storing, hcall]
      | _ => rfl
  | work id written =>
    obtain ⟨handler, hhandler, hstep⟩ := Option.bind_eq_some_iff.mp hstep
    unfold RevealState.work at hstep
    split at hstep
    · next channel hpc =>
      obtain rfl := Option.some.inj hstep
      refine hkept (fun _ => ?_) (by simp [RevealState.storing, hhandler, hpc])
      split <;> rfl
    · next channel node hpc =>
      obtain rfl := Option.some.inj hstep
      refine hkept (fun _ => ?_) (by simp [RevealState.storing, hhandler, hpc])
      split <;> rfl
    · next channel context response value hpc =>
      have hstoring : s.storing (.work id written) = some handler.request.key := by
        simp [RevealState.storing, hhandler, hpc]
      obtain rfl := Option.some.inj hstep
      rw [hstores hstoring]
      exact finishHandler_yields hindex
    · cases hstep

/-- A call whose gate lets it load a node asked for an index, and found its secret underivable. -/
theorem revealGate_loadFirst (h : revealGate hashes inner key = .loadFirst) :
    key.requestedIndex ≤ maxIndex ∧ ¬∃ secret, Derivable hashes inner key secret := by
  unfold revealGate at h
  split at h
  · cases h
  · next index hindex =>
    have hget := Index48.new_get hindex
    refine ⟨hget ▸ index.le_max, fun ⟨secret, index', hget', hderive⟩ => ?_⟩
    obtain rfl : index' = index := by
      cases index
      cases index'
      cases hget.trans hget'.symm
      rfl
    split at h
    · cases h
    · rw [hderive] at h
      cases h

/-- A step of a handler moves no call. -/
theorem RevealState.work_calls {handler : RevealHandler} {written : Bool}
    (h : s.work hashes id handler written = some t) : t.calls = s.calls := by
  unfold RevealState.work RevealState.finishHandler at h
  repeat' split at h
  all_goals cases h
  all_goals rfl

/-- After a step, a call which is past the gate was past it before, or has just asked `derive_known`
in vain. -/
theorem RevealState.step_pastGate (hstep : s.step hashes label = some t)
    (hcall : t.calls[id]? = some call) (hpast : call.pc.pastGate = true) :
    (∃ pc, s.calls[id]? = some ⟨call.key, pc⟩ ∧ pc.pastGate = true) ∨
      label = .step id .lock ∧ s.calls[id]? = some ⟨call.key, .fresh⟩ ∧
        revealGate hashes s.inner call.key = .loadFirst ∧ t.inner = s.inner := by
  have hsame (hcalls : t.calls = s.calls) : ∃ pc, s.calls[id]? = some ⟨call.key, pc⟩ ∧
      pc.pastGate = true := ⟨call.pc, hcalls ▸ hcall, hpast⟩
  cases label with
  | call key =>
    obtain rfl := Option.some.inj hstep
    rw [List.getElem?_append] at hcall
    split at hcall
    · exact .inl ⟨call.pc, hcall, hpast⟩
    · obtain rfl := List.mem_singleton.mp (List.mem_of_getElem? hcall)
      cases hpast
  | incoming _ | memory _ =>
    obtain rfl := Option.some.inj hstep
    exact .inl (hsame rfl)
  | take _ =>
    obtain ⟨handler, -, hstep⟩ := Option.bind_eq_some_iff.mp hstep
    obtain ⟨-, hstep⟩ := Option.ite_none_right_eq_some.mp hstep
    obtain ⟨channel, -, rfl⟩ := Option.map_eq_some_iff.mp hstep
    exact .inl (hsame rfl)
  | authorizationTimer _ =>
    obtain ⟨handler, -, hstep⟩ := Option.bind_eq_some_iff.mp hstep
    obtain ⟨-, hstep⟩ := Option.ite_none_right_eq_some.mp hstep
    obtain rfl := Option.some.inj hstep
    exact .inl (hsame rfl)
  | dropHandler _ =>
    obtain ⟨handler, -, hstep⟩ := Option.bind_eq_some_iff.mp hstep
    refine .inl (hsame ?_)
    split at hstep
    · cases hstep
    · cases hstep
    · obtain rfl := Option.some.inj hstep
      split <;> rfl
  | work _ _ =>
    obtain ⟨handler, -, hstep⟩ := Option.bind_eq_some_iff.mp hstep
    exact .inl (hsame (work_calls hstep))
  | step moved input =>
    obtain ⟨before, hbefore, hstep⟩ := Option.bind_eq_some_iff.mp hstep
    obtain ⟨-, hstep⟩ := Option.ite_none_right_eq_some.mp hstep
    obtain ⟨effect, heffect, rfl⟩ := Option.map_eq_some_iff.mp hstep
    have hcall : (s.calls.set moved { before with pc := effect.pc })[id]? = some call := hcall
    by_cases heq : moved = id
    · subst heq
      rw [List.getElem?_set_self (List.getElem?_eq_some_iff.mp hbefore).1] at hcall
      obtain rfl := Option.some.inj hcall
      obtain ⟨own, pc⟩ := before
      by_cases hpc : pc.pastGate = true
      · exact .inl ⟨pc, hbefore, hpc⟩
      cases pc with
      | fresh =>
        cases input with
        | lock =>
          obtain rfl := Option.some.inj heffect
          refine .inr ⟨rfl, hbefore, ?_, rfl⟩
          rcases revealGate_cases hashes s.inner own with ⟨result, hdone⟩ | hload
          · dsimp only [RevealEffect.goto] at hpast
            rw [hdone] at hpast
            cases hpast
          · exact hload
        | drop =>
          obtain rfl := Option.some.inj heffect
          cases hpast
        | _ => cases heffect
      | done _ | dropped => cases heffect
      | _ => exact absurd rfl hpc
    · rw [List.getElem?_set_ne heq] at hcall
      exact .inl ⟨call.pc, hcall, hpast⟩

/-! ## A whole run -/

/-- A run of reveal calls and handlers alone leaves the known secrets to them. -/
theorem leavesKnown_of_tasks (hashes : Hashes) (s : RevealState) {labels : List RevealLabel}
    (h : ∀ inner, .memory inner ∉ labels) :
    Along (RevealState.step hashes) RevealState.LeavesKnown s labels := by
  have hne : ∀ label ∈ labels, ∀ inner, label ≠ .memory inner := by
    rintro label hlabel inner rfl
    exact h inner hlabel
  refine (Along.of_mem hne s).mono fun s label hlabel => ?_
  cases label with
  | memory inner => exact absurd rfl (hlabel inner)
  | _ => trivial

/-- In every run, a call past the gate has asked `derive_known` in vain, and its secret has stayed
underivable exactly when no step since then has stored one which derives it. -/
theorem asks_of_pastGate {labels : List RevealLabel}
    (hrun : run (RevealState.step hashes) (.start inner) labels = some t)
    (hleaves : Along (RevealState.step hashes) RevealState.LeavesKnown (.start inner) labels)
    (hcall : t.calls[id]? = some call) (hpast : call.pc.pastGate = true) :
    call.key.requestedIndex ≤ maxIndex ∧ ∃ s later,
      RevealState.Asks hashes (.start inner) labels id call.key s later ∧
      run (RevealState.step hashes) s later = some t ∧
      ((¬∃ secret, Derivable hashes t.inner call.key secret) ↔
        Along (RevealState.step hashes)
          (fun s label => ¬s.StoresDeriving call.key label) s later) := by
  induction labels using List.reverseRecOn generalizing t call with
  | nil =>
    cases hrun
    cases hcall
  | append_singleton labels label ih =>
    obtain ⟨mid, hmid, hlast⟩ := Runs.run_append.mp hrun
    obtain ⟨t', hstep, heq⟩ := Runs.run_cons.mp hlast
    obtain rfl : t' = t := Option.some.inj heq
    obtain ⟨hleaves, hleavesLast, -⟩ := (Runs.along_append_iff hmid).mp hleaves
    rcases RevealState.step_pastGate hstep hcall hpast with
      ⟨pc, hbefore, hpc⟩ | ⟨rfl, hbefore, hload, hinner⟩
    · obtain ⟨hindex, s, later, ⟨earlier, asking, hlabels, hask⟩, hlater, hiff⟩ :=
        ih hmid hleaves hbefore hpc
      refine ⟨hindex, s, later ++ [label], ⟨earlier, asking, by simp [hlabels], hask⟩,
        Runs.run_append.mpr ⟨mid, hlater, hlast⟩, ?_⟩
      rw [Runs.along_append_iff hlater, ← hiff, exists_derivable_iff hindex,
        exists_derivable_iff hindex, RevealState.step_yields hstep hleavesLast hindex, not_or]
      exact and_congr_right fun _ => (and_iff_left fun _ _ => trivial).symm
    · obtain ⟨hindex, hunknown⟩ := revealGate_loadFirst hload
      refine ⟨hindex, t', [], ⟨labels, mid, rfl, hmid, hbefore, hstep⟩, rfl, ?_⟩
      rw [hinner]
      exact iff_of_true hunknown trivial

/-- Only a call which has passed the gate starts a full derivation. -/
theorem RevealState.StartsFullDerivation.pastGate (h : s.StartsFullDerivation hashes id call) :
    call.pc.pastGate = true := by
  obtain ⟨key, pc⟩ := call
  have hopening := h.2
  cases pc with
  | fresh => cases hopening
  | done _ | dropped => cases hopening
  | _ => rfl

/-- In every run whose other tasks leave the known secrets alone, a call which starts a full
derivation has asked `derive_known` before, and at that moment its secret is underivable exactly
when no step between the two has stored a secret of the channel which derives it. -/
theorem fullDerivation_unknown_iff (hashes : Hashes) (inner : Inner) (labels : List RevealLabel)
    (hrun : run (RevealState.step hashes) (.start inner) labels = some t)
    (hleaves : Along (RevealState.step hashes) RevealState.LeavesKnown (.start inner) labels)
    (hstart : t.StartsFullDerivation hashes id call) :
    ∃ s later, RevealState.Asks hashes (.start inner) labels id call.key s later ∧
      run (RevealState.step hashes) s later = some t ∧
      ((¬∃ secret, Derivable hashes t.inner call.key secret) ↔
        Along (RevealState.step hashes)
          (fun s label => ¬s.StoresDeriving call.key label) s later) :=
  (asks_of_pastGate hrun hleaves hstart.1 hstart.pastGate).2

/-- The peer's answer that it holds no node of the channel. -/
def noNodesResponse : GetFrontierResponse where
  nodes := []
  channelEnabled := true
  precompute := 1
  sspTarget := defaultSspTarget
  deltaLifetimeCheckedUnitsCap := defaultDeltaCap
  workers := 1
  effectiveWorkers := 1

/-- A call times out, reconciles and loads no node, while nothing else happens. -/
def fallbackLabels : List RevealLabel :=
  [.call oneNodeKey, .step 0 .lock, .step 0 .lock, .step 0 .lock, .step 0 .timer, .step 0 .lock,
    .step 0 (.frontier (.ok (some noNodesResponse)) true)]

/-- A call which nothing overtakes starts its full derivation for an underivable secret. -/
theorem fullDerivation_unknown_iff_fallback : ∃ t call,
    run (RevealState.step constantHashes) (.start (oneNodeInner .bob)) fallbackLabels = some t ∧
      t.StartsFullDerivation constantHashes 0 call ∧ ∃ s later,
        RevealState.Asks constantHashes
          (.start (oneNodeInner .bob)) fallbackLabels 0 call.key s later ∧
        run (RevealState.step constantHashes) s later = some t ∧
        ((¬∃ secret, Derivable constantHashes t.inner call.key secret) ↔
          Along (RevealState.step constantHashes)
            (fun s label => ¬s.StoresDeriving call.key label) s
            later) := by
  have hstarts : ((run (RevealState.step constantHashes) (.start (oneNodeInner .bob))
      fallbackLabels).map fun t => decide (t.StartsFullDerivation constantHashes 0
        ⟨oneNodeKey, .loadSecond⟩)) = some true := by
    decide +kernel
  obtain ⟨t, hrun, hstart⟩ := Option.map_eq_some_iff.mp hstarts
  have hstart := of_decide_eq_true hstart
  have hleaves := leavesKnown_of_tasks constantHashes (.start (oneNodeInner .bob))
    (show ∀ inner, .memory inner ∉ fallbackLabels by simp [fallbackLabels])
  exact ⟨t, ⟨oneNodeKey, .loadSecond⟩, hrun, hstart,
    fullDerivation_unknown_iff _ _ _ hrun hleaves hstart⟩

/-- A call times out; a second call with the same arguments is answered through the peer's request,
which stores the secret and removes the node; then the first call reconciles, finds no node, and
starts a full derivation although the secret is known. -/
theorem fullDerivation_of_known : ∃ t,
    run (RevealState.step constantHashes) (.start (oneNodeInner .bob))
      [.call oneNodeKey, .step 0 .lock, .step 0 .lock, .step 0 .lock, .step 0 .timer, .step 0 .lock,
        .call oneNodeKey, .step 1 .lock, .step 1 .lock, .step 1 .lock,
        .incoming oneNodeRequest, .take 0, .work 0 true, .work 0 true, .work 0 true,
        .step 0 (.frontier (.ok (some noNodesResponse)) true)] = some t ∧
      t.StartsFullDerivation constantHashes 0 ⟨oneNodeKey, .loadSecond⟩ ∧
      ∃ secret, Derivable constantHashes t.inner oneNodeKey secret := by
  have hstate : ((run (RevealState.step constantHashes) (.start (oneNodeInner .bob))
      [.call oneNodeKey, .step 0 .lock, .step 0 .lock, .step 0 .lock, .step 0 .timer, .step 0 .lock,
        .call oneNodeKey, .step 1 .lock, .step 1 .lock, .step 1 .lock,
        .incoming oneNodeRequest, .take 0, .work 0 true, .work 0 true, .work 0 true,
        .step 0 (.frontier (.ok (some noNodesResponse)) true)]).map fun t =>
      (decide (t.StartsFullDerivation constantHashes 0 ⟨oneNodeKey, .loadSecond⟩),
        (deriveKnown constantHashes.onValue t.inner.db 1 ⟨1, by decide⟩).isSome)) =
      some (true, true) := by
    decide +kernel
  obtain ⟨t, hrun, hstate⟩ := Option.map_eq_some_iff.mp hstate
  obtain ⟨hstart, hknown⟩ := Prod.mk.inj hstate
  obtain ⟨secret, hsecret⟩ := Option.isSome_iff_exists.mp hknown
  exact ⟨t, hrun, of_decide_eq_true hstart, secret, ⟨1, by decide⟩, rfl, hsecret⟩

end Shachain2pc
