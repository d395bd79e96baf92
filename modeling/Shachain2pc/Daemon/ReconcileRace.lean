import Shachain2pc.Daemon.Persistence
import Mathlib.Logic.Function.Basic

/-!
# Reconciling with a peer which goes on

A daemon drops the nodes that its peer's answer does not name. The peer answers from its memory
and goes on, and the daemon takes its own lock later. A target which both finish in between is
held by both and not named, so the daemon drops a node its peer holds.

The nodes which the peer stored since its answer are recorded with the call. Everything else that
the peer holds is named in the answer.
-/

namespace Shachain2pc

open Std
open Function (update)
open Runs (run)

/-- The public binding of the node which a channel holds at a mask. -/
def Inner.nodeBinding (inner : Inner) (channelIndex mask : ℕ) : Option Value32 :=
  inner.db.channels[channelIndex]?.bind fun channel =>
    channel.frontierNodes[mask]?.map (·.publicBinding)

/-- The channel, the mask and the public binding of the node that an operation stores. -/
def Operation.storedNode? (sha256 : List UInt8 → Value32) (inner : Inner) :
    Operation → Option (ℕ × ℕ × Value32)
  | .storeNode c mask _ | .storePrecomputedTargetWiresAndFinishJob c _ _ mask _ =>
    (bindingPair sha256 inner c mask).toOption.map fun bindings => (c, mask, bindings.1)
  | _ => none

/-- A call of `reconcile_with_peer` with the answer of its peer, and the nodes which the peer stored
in the channel since. -/
structure ReconcileCall where
  role : Role
  channelIndex : ℕ
  response : GetFrontierResponse
  joined : List (ℕ × Value32)
  deriving DecidableEq

/-- Record that the peer stored a node. -/
def ReconcileCall.note (call : ReconcileCall) (peer : Role) :
    Option (ℕ × ℕ × Value32) → ReconcileCall
  | some (c, node) =>
    if call.role.other = peer ∧ call.channelIndex = c then
      { call with joined := call.joined ++ [node] }
    else call
  | none => call

/-- The memories of two daemons, and the calls of `reconcile_with_peer` which have an answer. -/
structure DaemonPair where
  inner : Role → Inner
  calls : List ReconcileCall

/-- A daemon runs a critical section or is configured; a peer answers a call; a call takes its
lock. -/
inductive DaemonPairLabel where
  | operation (role : Role) (operation : Operation)
  | setConfig (role : Role) (req : SetConfigRequest)
  | answer (role : Role) (channelIndex effectiveWorkers : ℕ)
  | drop (k : ℕ)

namespace DaemonPair

/-- One step. Nodes are dropped for the peer's answers alone. -/
def step (sha256 : List UInt8 → Value32) (s : DaemonPair) : DaemonPairLabel → Option DaemonPair
  | .operation _ (.reconcileWithPeer ..) => none
  | .operation role operation => match (s.inner role).perform sha256 operation with
    | .error _ => some s
    | .ok (inner, _) => some {
        inner := update s.inner role inner
        calls := s.calls.map fun call =>
          call.note role (operation.storedNode? sha256 (s.inner role)) }
  | .setConfig role req =>
    some { s with inner := update s.inner role (Shachain2pc.setConfig (s.inner role) req) }
  | .answer role c effectiveWorkers => some { s with
      calls := s.calls ++ [⟨role, c, getFrontier (s.inner role.other) c effectiveWorkers, []⟩] }
  | .drop k => s.calls[k]?.map fun call => {
      inner := update s.inner call.role
        (reconcileWithPeer (s.inner call.role) call.channelIndex (some call.response)).1
      calls := s.calls.eraseIdx k }

/-- The daemon of a call holds a node. -/
def CallerHolds (s : DaemonPair) (call : ReconcileCall) (mask : ℕ) (binding : Value32) : Prop :=
  (s.inner call.role).nodeBinding call.channelIndex mask = some binding

/-- The peer of a call holds a node. -/
def PeerHolds (s : DaemonPair) (call : ReconcileCall) (mask : ℕ) (binding : Value32) : Prop :=
  (s.inner call.role.other).nodeBinding call.channelIndex mask = some binding

/-- What the peer holds is named in its answer, or was stored since. -/
def Covers (s : DaemonPair) : Prop :=
  ∀ call ∈ s.calls, ∀ mask binding, s.PeerHolds call mask binding →
    (peerNodes call.response.nodes)[mask]? = some binding ∨ (mask, binding) ∈ call.joined

end DaemonPair

variable {sha256 : List UInt8 → Value32} {inner inner' : Inner} {c mask : ℕ} {binding : Value32}
  {mutations : List Mutation}

/-! ## Nodes in one memory -/

/-- The node of a stored channel. -/
theorem nodeBinding_setChannel {channel : ChannelRecord}
    (hdb : inner'.db = inner.db.setChannel c channel) (c' mask : ℕ) :
    inner'.nodeBinding c' mask =
      if c = c' then channel.frontierNodes[mask]?.map (·.publicBinding)
      else inner.nodeBinding c' mask := by
  rw [Inner.nodeBinding, hdb, PlainDb.setChannel]
  by_cases heq : c = c'
  · subst heq
    simp
  · rw [if_neg heq, ExtTreeMap.getElem?_insert, if_neg (by simpa using heq)]
    rfl

/-- The node of a channel. -/
theorem nodeBinding_of_channel {channel : ChannelRecord} (hc : inner.db.channels[c]? = some channel)
    (mask : ℕ) : inner.nodeBinding c mask = channel.frontierNodes[mask]?.map (·.publicBinding) := by
  rw [Inner.nodeBinding, hc]
  rfl

/-- Storing a channel which gained no node gains no node. -/
theorem nodeBinding_of_setChannel {channel channel' : ChannelRecord}
    (hc : inner.db.channels[c]? = some channel) (hdb : inner'.db = inner.db.setChannel c channel')
    (hnodes : ∀ (mask : ℕ) binding, channel'.frontierNodes[mask]?.map (·.publicBinding) =
      some binding → channel.frontierNodes[mask]?.map (·.publicBinding) = some binding)
    {c' : ℕ} (h : inner'.nodeBinding c' mask = some binding) :
    inner.nodeBinding c' mask = some binding := by
  rw [nodeBinding_setChannel hdb] at h
  split at h
  · next heq =>
    subst heq
    rw [nodeBinding_of_channel hc]
    exact hnodes mask binding h
  · exact h

/-- Storing a channel with one more node gains that node. -/
theorem nodeBinding_of_insert {channel channel' : ChannelRecord} {record : WireRecord} {mask' : ℕ}
    (hc : inner.db.channels[c]? = some channel) (hdb : inner'.db = inner.db.setChannel c channel')
    (hnodes : channel'.frontierNodes = channel.frontierNodes.insert mask' record) {c' : ℕ}
    (h : inner'.nodeBinding c' mask = some binding) :
    inner.nodeBinding c' mask = some binding ∨ (c, mask', record.publicBinding) =
      (c', mask, binding) := by
  rw [nodeBinding_setChannel hdb] at h
  split at h
  · next heq =>
    subst heq
    rw [nodeBinding_of_channel hc]
    rw [hnodes] at h
    by_cases hmask : mask' = mask
    · subst hmask
      rw [ExtTreeMap.getElem?_insert_self] at h
      exact .inr (by rw [← Option.some.inj h])
    · rw [ExtTreeMap.getElem?_insert, if_neg (by simpa using hmask)] at h
      exact .inl h
  · exact .inl h

/-- Nodes entered under other masks do not matter. -/
theorem getElem?_foldl_insert_of_forall_ne {nodes : List FrontierNode}
    (h : ∀ node ∈ nodes, node.mask ≠ mask) (peer : DecimalMap Value32) :
    (nodes.foldl (fun peer node => peer.insert node.mask node.publicBinding) peer)[mask]? =
      peer[mask]? := by
  induction nodes generalizing peer with
  | nil => rfl
  | cons node rest ih =>
    rw [List.foldl_cons, ih fun later hlater => h later (List.mem_cons_of_mem _ hlater),
      ExtTreeMap.getElem?_insert, if_neg]
    simpa using h node List.mem_cons_self

/-- Among nodes with distinct masks, each is entered. -/
theorem getElem?_foldl_insert_of_mem {nodes : List FrontierNode}
    (hdistinct : nodes.Pairwise fun a b => a.mask ≠ b.mask) {node : FrontierNode}
    (hmem : node ∈ nodes) (peer : DecimalMap Value32) :
    (nodes.foldl (fun peer node => peer.insert node.mask node.publicBinding) peer)[node.mask]? =
      some node.publicBinding := by
  induction nodes generalizing peer with
  | nil => cases hmem
  | cons first rest ih =>
    obtain ⟨hfirst, hrest⟩ := List.pairwise_cons.mp hdistinct
    rw [List.foldl_cons]
    rcases List.mem_cons.mp hmem with rfl | hmem
    · rw [getElem?_foldl_insert_of_forall_ne fun later hlater => (hfirst later hlater).symm,
        ExtTreeMap.getElem?_insert_self]
    · exact ih hrest hmem _

/-- A peer's answer names exactly the nodes it holds. -/
theorem peerNodes_toList (frontierNodes : DecimalMap WireRecord) (mask : ℕ) :
    (peerNodes (frontierNodes.toList.map fun entry => ⟨entry.1, entry.2.publicBinding⟩))[mask]? =
      frontierNodes[mask]?.map (·.publicBinding) := by
  have hdistinct : (frontierNodes.toList.map fun entry =>
      (⟨entry.1, entry.2.publicBinding⟩ : FrontierNode)).Pairwise fun a b => a.mask ≠ b.mask := by
    rw [List.pairwise_map]
    exact ExtTreeMap.distinct_keys_toList.imp fun hne heq =>
      hne (LawfulEqCmp.compare_eq_iff_eq.mpr heq)
  cases hrecord : frontierNodes[mask]? with
  | some record =>
    have hmem :
        (⟨mask, record.publicBinding⟩ : FrontierNode) ∈ frontierNodes.toList.map fun entry =>
        (⟨entry.1, entry.2.publicBinding⟩ : FrontierNode) :=
      List.mem_map.mpr ⟨(mask, record), mem_toList.mpr hrecord, rfl⟩
    exact getElem?_foldl_insert_of_mem hdistinct hmem ∅
  | none =>
    rw [peerNodes, getElem?_foldl_insert_of_forall_ne, ExtTreeMap.getElem?_empty, Option.map_none]
    intro node hnode heq
    obtain ⟨entry, hentry, rfl⟩ := List.mem_map.mp hnode
    have hfound := mem_toList.mp hentry
    rw [show entry.1 = mask from heq, hrecord] at hfound
    cases hfound

/-- What a peer holds is named in the answer it gives now. -/
theorem peerNodes_getFrontier (inner : Inner) (c workers mask : ℕ) :
    (peerNodes (getFrontier inner c workers).nodes)[mask]? = inner.nodeBinding c mask := by
  rw [Inner.nodeBinding, getFrontier]
  cases hc : inner.db.channels[c]? with
  | none => exact ExtTreeMap.getElem?_empty
  | some channel => exact peerNodes_toList channel.frontierNodes mask

/-- Dropping keeps exactly the nodes which an enabled peer's answer names. -/
theorem nodeBinding_reconcile (inner : Inner) (c : ℕ) (response : GetFrontierResponse) (mask : ℕ) :
    (reconcileWithPeer inner c (some response)).1.nodeBinding c mask =
      if response.channelEnabled = true then
        (inner.nodeBinding c mask).filter fun binding =>
          (peerNodes response.nodes)[mask]? = some binding
      else inner.nodeBinding c mask := by
  unfold reconcileWithPeer
  cases hc : inner.db.channels[c]? with
  | none => simp [Inner.nodeBinding, hc]
  | some channel =>
    by_cases henabled : response.channelEnabled = true
    · simp only [henabled, if_true]
      rw [nodeBinding_setChannel rfl, if_pos rfl, nodeBinding_of_channel hc, getElem?_foldl_erase]
      cases hrecord : channel.frontierNodes[mask]? with
      | none => simp
      | some record =>
        have hmem : mask ∈ dropMasks (peerNodes response.nodes) channel.frontierNodes ↔
            (peerNodes response.nodes)[mask]? ≠ some record.publicBinding := by
          simp only [dropMasks, List.mem_map, List.mem_filter, decide_eq_true_eq]
          constructor
          · rintro ⟨⟨key, value⟩, ⟨hvalue, hne⟩, rfl⟩
            rw [mem_toList.mp hvalue, Option.some.injEq] at hrecord
            exact hrecord ▸ hne
          · exact fun hne => ⟨(mask, record), ⟨mem_toList.mpr hrecord, hne⟩, rfl⟩
        by_cases hnamed : (peerNodes response.nodes)[mask]? = some record.publicBinding
        · rw [if_neg fun hdrop => hmem.mp hdrop hnamed]
          simp [Option.filter, hnamed]
        · rw [if_pos (hmem.mpr hnamed)]
          simp [Option.filter, hnamed]
    · simp [henabled]

/-- Dropping nodes gains none. -/
theorem nodeBinding_of_reconcile {response : Option GetFrontierResponse} {c' : ℕ}
    (h : (reconcileWithPeer inner c response).1.nodeBinding c' mask = some binding) :
    inner.nodeBinding c' mask = some binding := by
  unfold reconcileWithPeer at h
  split at h
  · next response channel hc =>
    split at h
    · refine nodeBinding_of_setChannel hc rfl (fun mask binding hbinding => ?_) h
      rw [getElem?_foldl_erase] at hbinding
      split at hbinding
      · cases hbinding
      · exact hbinding
    · exact h
  · exact h

/-- Enabling a channel gains no node. -/
theorem nodeBinding_of_enableChannel {req : EnableChannelRequest}
    (h : (enableChannel inner req).1.nodeBinding c mask = some binding) :
    inner.nodeBinding c mask = some binding := by
  rw [enableChannel, Inner.setChannel, nodeBinding_setChannel rfl] at h
  split at h
  · next heq =>
    subst heq
    cases hc : inner.db.channels[req.channelIndex]? with
    | none => simp [Inner.enabledEntry, hc] at h
    | some channel =>
      rw [nodeBinding_of_channel hc]
      simpa [Inner.enabledEntry, hc] using h
  · exact h

/-- An operation gains only the node it stores. -/
theorem nodeBinding_of_perform {operation : Operation}
    (h : inner.perform sha256 operation = .ok (inner', mutations))
    (hnode : inner'.nodeBinding c mask = some binding) :
    inner.nodeBinding c mask = some binding ∨
      operation.storedNode? sha256 inner = some (c, mask, binding) := by
  cases operation with
  | enableChannel req =>
    cases h
    exact .inl (nodeBinding_of_enableChannel hnode)
  | disableChannel c =>
    obtain ⟨result, hdisable, heq⟩ := Rust.map_eq_ok h
    cases heq
    unfold disableChannel at hdisable
    split at hdisable
    · cases hdisable
    · split at hdisable
      · cases hdisable
      · next channel hc =>
        cases hdisable
        exact .inl (nodeBinding_of_setChannel hc rfl (by simp) hnode)
  | storeKnownSecret c index next secret =>
    obtain ⟨⟨db', _⟩, hstore, heq⟩ := Rust.map_eq_ok h
    cases heq
    unfold storeKnownSecret at hstore
    split at hstore
    · cases hstore
    · next channel hc =>
      cases hstore
      refine .inl (nodeBinding_of_setChannel hc rfl (fun mask binding hbinding => ?_) hnode)
      simp only [ExtTreeMap.getElem?_erase] at hbinding
      split at hbinding
      · cases hbinding
      · exact hbinding
  | recordFailedPrecomputeAttempt c units =>
    change recordFailedPrecomputeAttempt inner c units = _ at h
    unfold recordFailedPrecomputeAttempt at h
    split at h
    · cases h
    · next channel hc =>
      cases h
      refine .inl (nodeBinding_of_setChannel hc rfl ?_ hnode)
      exact fun _ _ hbinding => hbinding
  | reconcileWithPeer c response =>
    have heq : (reconcileWithPeer inner c response).1 = inner' :=
      congrArg Prod.fst (Except.ok.inj h)
    rw [← heq] at hnode
    exact .inl (nodeBinding_of_reconcile hnode)
  | storeNode c mask wires =>
    change storeNode sha256 inner c mask wires = _ at h
    unfold storeNode at h
    cases hc : inner.db.channels[c]? with
    | none => simp [bindingPair, hc, bind, Except.bind] at h
    | some channel =>
      simp only [bindingPair_of_channel hc, hc, bind, Except.bind] at h
      cases h
      rw [Operation.storedNode?, bindingPair_of_channel hc]
      exact (nodeBinding_of_insert hc rfl rfl hnode).imp_right (congrArg some)
  | beginPrecomputeJobstream c index peer units workers =>
    obtain ⟨⟨_, _, start⟩, hok, heq⟩ := Rust.map_eq_ok h
    cases heq
    obtain ⟨rfl, -, -⟩ | ⟨channel, job, hc, -, -, -, -, rfl⟩ := beginPrecomputeJobstream_cases hok
    · exact .inl hnode
    · refine .inl (nodeBinding_of_setChannel hc rfl ?_ hnode)
      exact fun _ _ hbinding => hbinding
  | beginIncomingPrecomputeTarget descriptor index units workers =>
    obtain ⟨⟨_, _, jobId⟩, hok, heq⟩ := Rust.map_eq_ok h
    cases heq
    obtain ⟨channel, hc, -, -, -, -, -, rfl⟩ := beginIncomingPrecomputeTarget_ok hok
    refine .inl (nodeBinding_of_setChannel hc rfl ?_ hnode)
    exact fun _ _ hbinding => hbinding
  | storePrecomputedTargetWiresAndFinishJob c jobId units mask wires =>
    change storePrecomputedTargetWiresAndFinishJob sha256 inner c jobId units mask wires = _ at h
    unfold storePrecomputedTargetWiresAndFinishJob at h
    cases hc : inner.db.channels[c]? with
    | none => simp [bindingPair, hc, bind, Except.bind] at h
    | some channel =>
      simp only [bindingPair_of_channel hc, hc, bind, Except.bind] at h
      split at h
      · cases h
      · cases h
        rw [Operation.storedNode?, bindingPair_of_channel hc]
        exact (nodeBinding_of_insert hc rfl rfl hnode).imp_right (congrArg some)
  | finishJob jobId failed =>
    rw [Inner.perform, Except.ok.injEq] at h
    unfold finishJob at h
    cases hjob : inner.activeJobs[jobId]? with
    | none =>
      rw [hjob] at h
      cases h
      exact .inl hnode
    | some job =>
      cases hc : inner.db.channels[job.channelIndex]? with
      | none =>
        simp only [hjob, hc] at h
        cases h
        exact .inl hnode
      | some channel =>
        simp only [hjob, hc] at h
        cases failed with
        | true =>
          cases h
          refine .inl (nodeBinding_of_setChannel hc rfl ?_ hnode)
          exact fun _ _ hbinding => hbinding
        | false =>
          cases h
          exact .inl hnode

namespace DaemonPair

variable {s t u : DaemonPair}

/-! ## What an answer names -/

/-- A call keeps its place. -/
theorem note_eq (call : ReconcileCall) (peer : Role) (node : Option (ℕ × ℕ × Value32)) :
    (call.note peer node).role = call.role ∧ (call.note peer node).channelIndex =
      call.channelIndex ∧
      (call.note peer node).response = call.response ∧
      ∀ joined ∈ call.joined, joined ∈ (call.note peer node).joined := by
  unfold ReconcileCall.note
  split
  · split
    · exact ⟨rfl, rfl, rfl, fun joined hjoined => List.mem_append_left _ hjoined⟩
    · exact ⟨rfl, rfl, rfl, fun _ hjoined => hjoined⟩
  · exact ⟨rfl, rfl, rfl, fun _ hjoined => hjoined⟩

/-- A node which the peer stored is recorded. -/
theorem mem_note {call : ReconcileCall} {peer : Role} {mask : ℕ} {binding : Value32}
    (hpeer : call.role.other = peer) :
    (mask, binding) ∈ (call.note peer (some (call.channelIndex, mask, binding))).joined := by
  rw [ReconcileCall.note, if_pos ⟨hpeer, rfl⟩]
  exact List.mem_append_right _ (List.mem_singleton_self _)

/-- A step after which no daemon holds a new node, and each call is an old one, keeps the answers
covering. -/
theorem Covers.frame (h : s.Covers) (hcalls : ∀ call ∈ t.calls, call ∈ s.calls)
    (hinner : ∀ role c mask binding, (t.inner role).nodeBinding c mask = some binding →
      (s.inner role).nodeBinding c mask = some binding) : t.Covers :=
  fun call hcall mask binding hholds =>
    h call (hcalls call hcall) mask binding (hinner _ _ mask binding hholds)

/-- One step keeps the answers covering. -/
theorem Covers.step (h : s.Covers) {label : DaemonPairLabel}
    (hstep : s.step sha256 label = some t) :
    t.Covers := by
  cases label with
  | operation role operation =>
    have hperform : (s = t) ∨ ∃ inner mutations,
        (s.inner role).perform sha256 operation = .ok (inner, mutations) ∧
        t = { inner := update s.inner role inner
              calls := s.calls.map fun call =>
                call.note role (operation.storedNode? sha256 (s.inner role)) } := by
      unfold DaemonPair.step at hstep
      split at hstep
      · cases hstep
      · next heq =>
        cases heq
        split at hstep
        · exact .inl (Option.some.inj hstep)
        · next inner mutations hperform =>
          exact .inr ⟨inner, mutations, hperform, (Option.some.inj hstep).symm⟩
      all_goals next heq => cases heq
    obtain rfl | ⟨inner, mutations, hperform, rfl⟩ := hperform
    · exact h
    · intro call hcall mask binding hholds
      obtain ⟨old, hold, rfl⟩ := List.mem_map.mp hcall
      obtain ⟨hrole, hchannel, hresponse, hjoined⟩ :=
        note_eq old role (operation.storedNode? sha256 (s.inner role))
      rw [PeerHolds, hrole, hchannel] at hholds
      rw [hresponse]
      by_cases hpeer : old.role.other = role
      · subst hpeer
        dsimp only at hholds
        rw [Function.update_self] at hholds
        rcases nodeBinding_of_perform hperform hholds with hheld | hstored
        · exact (h old hold mask binding hheld).imp_right (hjoined _)
        · rw [hstored]
          exact .inr (mem_note rfl)
      · dsimp only at hholds
        rw [Function.update_of_ne hpeer] at hholds
        exact (h old hold mask binding hholds).imp_right (hjoined _)
  | setConfig role req =>
    cases hstep
    refine h.frame (fun _ hcall => hcall) fun other c mask binding hholds => ?_
    dsimp only at hholds
    by_cases heq : other = role
    · subst heq
      rw [Function.update_self] at hholds
      exact hholds
    · rwa [Function.update_of_ne heq] at hholds
  | answer role c workers =>
    cases hstep
    intro call hcall mask binding hholds
    rcases List.mem_append.mp hcall with hcall | hcall
    · exact h call hcall mask binding hholds
    · cases List.mem_singleton.mp hcall
      exact .inl ((peerNodes_getFrontier _ c workers mask).trans hholds)
  | drop k =>
    obtain ⟨call, -, rfl⟩ := Option.map_eq_some_iff.mp hstep
    refine h.frame (fun _ hcall => List.mem_of_mem_eraseIdx hcall) fun role c mask binding hholds =>
      ?_
    dsimp only at hholds
    by_cases heq : role = call.role
    · subst heq
      rw [Function.update_self] at hholds
      exact nodeBinding_of_reconcile hholds
    · rwa [Function.update_of_ne heq] at hholds

/-- In every run, a call removes no node which its peer holds at that moment under the same public
binding exactly when the answer says that the channel is disabled, or no node which the peer stored
after its answer, and which the answer does not name, is held by both. -/
theorem reconcile_asymmetric_iff {inner : Role → Inner} {labels : List DaemonPairLabel}
    (hrun : run (step sha256) ⟨inner, []⟩ labels = some t) {k : ℕ} {call : ReconcileCall}
    (hk : t.calls[k]? = some call) (hdrop : t.step sha256 (.drop k) = some u) :
    (∀ mask binding, t.CallerHolds call mask binding → ¬u.CallerHolds call mask binding →
      ¬t.PeerHolds call mask binding) ↔
    (call.response.channelEnabled = true → ∀ node ∈ call.joined,
      (peerNodes call.response.nodes)[node.1]? ≠ some node.2 →
        ¬(t.CallerHolds call node.1 node.2 ∧ t.PeerHolds call node.1 node.2)) := by
  have hcovers : t.Covers := Runs.invariant_of_step (fun _ _ _ h hstep => Covers.step h hstep)
    (fun _ hcall => absurd hcall List.not_mem_nil) hrun
  have hu (mask : ℕ) (binding : Value32) (hholds : t.CallerHolds call mask binding) :
      u.CallerHolds call mask binding ↔ (call.response.channelEnabled = true →
        (peerNodes call.response.nodes)[mask]? = some binding) := by
    rw [DaemonPair.step, hk, Option.map_some, Option.some.injEq] at hdrop
    subst hdrop
    rw [CallerHolds] at hholds ⊢
    dsimp only
    rw [Function.update_self, nodeBinding_reconcile, hholds]
    by_cases henabled : call.response.channelEnabled = true <;> simp [henabled, Option.filter]
  constructor
  · intro h henabled node hnode hnamed hboth
    refine h node.1 node.2 hboth.1 (fun hkept => hnamed ?_) hboth.2
    exact (hu node.1 node.2 hboth.1).mp hkept henabled
  · intro h mask binding hholds hremoved hpeer
    rw [hu mask binding hholds, Classical.not_imp] at hremoved
    obtain ⟨henabled, hnamed⟩ := hremoved
    rcases hcovers call (List.mem_of_getElem? hk) mask binding hpeer with hnamed' | hjoined
    · exact hnamed hnamed'
    · exact h henabled (mask, binding) hjoined hnamed ⟨hholds, hpeer⟩

/-- Two daemons without a channel. -/
def freshInner (role : Role) : Inner where
  cfg := ⟨role, some "peer", 1, 1⟩
  masterSecret := []
  db := .default
  activeJobs := ∅
  nextJobId := 0

/-- Bob answers Alice's call from an empty channel, and then both finish the first target. -/
def joinedLabels : List DaemonPairLabel :=
  [.operation .alice (.enableChannel ⟨7, 1, 0, 0⟩), .operation .bob (.enableChannel ⟨7, 1, 0, 0⟩),
    .answer .alice 7 1,
    .operation .bob (.storePrecomputedTargetWiresAndFinishJob 7 "job" 1 1 ⟨[], [], [], []⟩),
    .operation .alice (.storePrecomputedTargetWiresAndFinishJob 7 "job" 1 1 ⟨[], [], [], []⟩)]

/-- Alice's call, as it takes her lock. -/
def joinedCall : ReconcileCall where
  role := .alice
  channelIndex := 7
  response := ⟨[], true, 1, defaultSspTarget, defaultDeltaCap, 1, 1⟩
  joined := [(1, ⟨.replicate 32 0⟩)]

/-- The memories before and after Alice's call takes her lock, in the hash which is always zero. -/
theorem joined_run :
    ∃ t u, run (step fun _ => ⟨.replicate 32 0⟩) ⟨freshInner, []⟩ joinedLabels = some t ∧
    t.calls[0]? = some joinedCall ∧ t.step (fun _ => ⟨.replicate 32 0⟩) (.drop 0) = some u ∧
      (t.inner .alice).nodeBinding 7 1 = some ⟨.replicate 32 0⟩ ∧
      (t.inner .bob).nodeBinding 7 1 = some ⟨.replicate 32 0⟩ ∧
      (u.inner .alice).nodeBinding 7 1 = none := by
  have hrun : (run (step fun _ => ⟨.replicate 32 0⟩) ⟨freshInner, []⟩ joinedLabels).any (fun t =>
      decide (t.calls[0]? = some joinedCall) &&
        (t.step (fun _ => ⟨.replicate 32 0⟩) (.drop 0)).any fun u =>
          decide ((t.inner .alice).nodeBinding 7 1 = some ⟨.replicate 32 0⟩ ∧
            (t.inner .bob).nodeBinding 7 1 = some ⟨.replicate 32 0⟩ ∧
            (u.inner .alice).nodeBinding 7 1 = none)) = true := by
    decide +kernel
  obtain ⟨t, hrun, ht⟩ := (Option.any_eq_true _ _).mp hrun
  obtain ⟨hcall, hdrop⟩ := Bool.and_eq_true_iff.mp ht
  obtain ⟨u, hu, hholds⟩ := (Option.any_eq_true _ _).mp hdrop
  exact ⟨t, u, hrun, of_decide_eq_true hcall, hu, of_decide_eq_true hholds⟩

/-- The joined node decides what Alice's call may remove. -/
theorem reconcile_asymmetric_iff_joined : ∃ t u,
    run (step fun _ => ⟨.replicate 32 0⟩) ⟨freshInner, []⟩ joinedLabels = some t ∧
      t.step (fun _ => ⟨.replicate 32 0⟩) (.drop 0) = some u ∧
      ((∀ mask binding, t.CallerHolds joinedCall mask binding →
        ¬u.CallerHolds joinedCall mask binding → ¬t.PeerHolds joinedCall mask binding) ↔
      (joinedCall.response.channelEnabled = true → ∀ node ∈ joinedCall.joined,
        (peerNodes joinedCall.response.nodes)[node.1]? ≠ some node.2 →
          ¬(t.CallerHolds joinedCall node.1 node.2 ∧ t.PeerHolds joinedCall node.1 node.2))) := by
  obtain ⟨t, u, hrun, hcall, hdrop, -⟩ := joined_run
  exact ⟨t, u, hrun, hdrop, reconcile_asymmetric_iff hrun hcall hdrop⟩

/-- Alice's call removes the node of the first target, which Bob holds under the same binding. -/
theorem reconcile_drops_joined : ∃ t u call mask binding,
    run (step fun _ => ⟨.replicate 32 0⟩) ⟨freshInner, []⟩ joinedLabels = some t ∧
      t.calls[0]? = some call ∧ t.step (fun _ => ⟨.replicate 32 0⟩) (.drop 0) = some u ∧
      t.CallerHolds call mask binding ∧ ¬u.CallerHolds call mask binding ∧
      t.PeerHolds call mask binding := by
  obtain ⟨t, u, hrun, hcall, hdrop, halice, hbob, hremoved⟩ := joined_run
  refine ⟨t, u, joinedCall, 1, ⟨.replicate 32 0⟩, hrun, hcall, hdrop, halice, fun hkept => ?_, hbob⟩
  cases hremoved.symm.trans hkept

end DaemonPair

end Shachain2pc
