import Shachain2pc.Daemon.Scheduler

/-!
# What the scheduler takes for missing

A node in the frontier is the only sign that an index of the precompute range needs no work.
Storing a secret removes the node of its index, which the selections then take for missing, and
the scheduler computes what is already known.

The selections keep off known indices as long as every known index of the range has its node.
-/

namespace Shachain2pc

open Std
open Runs (run Along)

/-- A known secret derives the secret of the index. -/
def ChannelRecord.Knows (channel : ChannelRecord) (index : ℕ) : Prop :=
  ∃ known ∈ channel.knownSecrets, deriveTests known index

namespace Scheduler

/-- The index is in the precompute range of the channel, or in the range a task found for it. -/
def InReach (s : Scheduler) (c : ℕ) (channel : ChannelRecord) (index : ℕ) : Prop :=
  1 ≤ index ∧ index ≤ maxIndex ∧ (index ≤ s.inner.localPrecompute channel ∨
    ∃ task ∈ s.tasks, ∃ bound, task = ⟨c, .nextMissing bound⟩ ∧ index ≤ bound)

/-- Every known index in reach has its node. -/
def Stocked (sha256 : List UInt8 → Value32) (s : Scheduler) : Prop :=
  ∀ (c : ℕ) channel, s.inner.db.channels[c]? = some channel → ∀ index, s.InReach c channel index →
    channel.Knows index → channel.holdsNode sha256 s.inner.cfg.role c index = true

/-- Neither selection takes an index for missing whose secret is derivable. -/
structure WorksOnUnknown (sha256 : List UInt8 → Value32) (s : Scheduler) : Prop where
  next : ∀ task ∈ s.tasks, ∀ bound, task.pc = .nextMissing bound → ∀ index : Index48,
    nextMissingFrontier sha256 s.inner task.channelIndex bound = some index.get →
      deriveKnown (fun v => sha256 v.bytes.toList) s.inner.db task.channelIndex index = none
  candidates : ∀ (c : ℕ) channel, s.inner.db.channels[c]? = some channel → channel.enabled = true →
    ∀ index : Index48, index.get ∈ List.range' 1 (min (s.inner.localPrecompute channel) maxIndex) →
      channel.holdsNode sha256 s.inner.cfg.role c index.get = false →
        deriveKnown (fun v => sha256 v.bytes.toList) s.inner.db c index = none

/-- The response drops no node of a known index in reach. -/
def SparesNodes (s : Scheduler) (c : ℕ) (response : Option GetFrontierResponse) : Prop :=
  ∀ channel ∈ s.inner.db.channels[c]?, ∀ answer ∈ response, answer.channelEnabled = true →
    ∀ index ∈ dropMasks (peerNodes answer.nodes) channel.frontierNodes,
      s.InReach c channel index → ¬channel.Knows index

/-- A reveal stores no secret for an index in reach, and the seed only while every node in reach is
stored; nothing drops the node of a known index in reach, or brings one without its node into
reach. -/
def Spares (sha256 : List UInt8 → Value32) (s : Scheduler) : SchedulerLabel → Prop
  | .operation (.storeKnownSecret c index _ _) => ∀ channel ∈ s.inner.db.channels[c]?,
    ¬s.InReach c channel index.get ∧ (index.get = 0 → ∀ i, s.InReach c channel i →
      channel.holdsNode sha256 s.inner.cfg.role c i = true)
  | .operation (.reconcileWithPeer c response) => s.SparesNodes c response
  | .task k (.nodes response) => ∀ task ∈ s.tasks[k]?, s.SparesNodes task.channelIndex response
  | .operation (.disableChannel c) => s.inner.hasActiveJob c = false →
    ∀ channel ∈ s.inner.db.channels[c]?, ∀ index, s.InReach c channel index → ¬channel.Knows index
  | .operation (.enableChannel req) =>
    ∀ channel ∈ (enableChannel s.inner req).1.db.channels[req.channelIndex]?, ∀ index,
      InReach { s with inner := (enableChannel s.inner req).1 } req.channelIndex channel index →
        channel.Knows index →
          channel.holdsNode sha256 s.inner.cfg.role req.channelIndex index = true
  | .setConfig req => ∀ (c : ℕ), ∀ channel ∈ s.inner.db.channels[c]?, ∀ index,
    InReach { s with inner := Shachain2pc.setConfig s.inner req } c channel index →
      channel.Knows index → channel.holdsNode sha256 s.inner.cfg.role c index = true
  | _ => True

variable {sha256 : List UInt8 → Value32} {s t : Scheduler}

/-! ## What is known -/

/-- A derivation needs a known secret which yields it. -/
theorem knows_of_deriveKnown {hash : Value32 → Value32} {db : PlainDb} {c : ℕ} {index : Index48}
    {secret : Value32} (h : deriveKnown hash db c index = some secret) :
    ∃ channel, db.channels[c]? = some channel ∧ channel.Knows index.get := by
  unfold deriveKnown at h
  split at h
  · cases h
  · next channel hc =>
    obtain ⟨⟨known, value⟩, hmem, hderive⟩ := List.exists_of_findSome?_eq_some h
    refine ⟨channel, hc, known, ?_, ?_⟩
    · exact ExtTreeMap.mem_iff_isSome_getElem?.mpr (mem_toList.mp hmem ▸ rfl)
    · unfold deriveFromKnown at hderive
      dsimp only at hderive
      split_ifs at hderive with hsub hlow
      exact ⟨not_not.mp hsub, fun hne => not_not.mp fun hlow' => hlow ⟨hne, hlow'⟩⟩

/-- Where every known index in reach has its node, the selections keep off known indices. -/
theorem Stocked.worksOnUnknown (h : s.Stocked sha256) : s.WorksOnUnknown sha256 := by
  refine ⟨fun task htask bound hpc index hnext => ?_,
    fun c channel hc _ index hrange hmissing => ?_⟩
  · rw [Option.eq_none_iff_forall_not_mem]
    intro secret hsecret
    obtain ⟨channel, hc, hknows⟩ := knows_of_deriveKnown hsecret
    rw [nextMissingFrontier, hc] at hnext
    have hmissing := List.find?_some hnext
    have hrange := List.mem_range'_1.mp (List.mem_of_find?_eq_some hnext)
    have hreach : s.InReach task.channelIndex channel index.get := by
      refine ⟨hrange.1, index.le_max, .inr ⟨task, htask, bound, ?_, by omega⟩⟩
      rw [← hpc]
    rw [h _ channel hc _ hreach hknows] at hmissing
    cases hmissing
  · rw [Option.eq_none_iff_forall_not_mem]
    intro secret hsecret
    obtain ⟨channel', hc', hknows⟩ := knows_of_deriveKnown hsecret
    rw [hc] at hc'
    cases hc'
    have hrange := List.mem_range'_1.mp hrange
    rw [h c channel hc _ ⟨hrange.1, index.le_max, .inl (by omega)⟩ hknows] at hmissing
    cases hmissing

/-! ## One step -/

/-- A memory with no channel is stocked. -/
theorem stocked_start {inner : Inner} (hdb : inner.db = .default) :
    (start inner).Stocked sha256 := by
  intro c channel hc
  simp [start, hdb, PlainDb.default] at hc

/-- The tasks look at no index out of reach. -/
def TasksInReach (s t : Scheduler) : Prop :=
  ∀ c bound, ⟨c, .nextMissing bound⟩ ∈ t.tasks → ⟨c, .nextMissing bound⟩ ∈ s.tasks ∨
    ∃ channel, s.inner.db.channels[c]? = some channel ∧ bound ≤ s.inner.localPrecompute channel

/-- An index in reach was in reach, when neither the range nor the tasks grew. -/
theorem InReach.of_step {c index : ℕ} {channel channel' : ChannelRecord}
    (h : t.InReach c channel' index) (hcfg : t.inner.cfg = s.inner.cfg)
    (hc : s.inner.db.channels[c]? = some channel)
    (htarget : channel'.precomputeTarget = channel.precomputeTarget) (htasks : s.TasksInReach t) :
    s.InReach c channel index := by
  refine ⟨h.1, h.2.1, ?_⟩
  rcases h.2.2 with hrange | ⟨task, hmem, bound, rfl, hle⟩
  · rw [Inner.localPrecompute, htarget, hcfg] at hrange
    exact .inl hrange
  · rcases htasks c bound hmem with hmem | ⟨other, hother, hbound⟩
    · exact .inr ⟨_, hmem, bound, rfl, hle⟩
    · rw [hc] at hother
      cases hother
      exact .inl (hle.trans hbound)

/-- A memory which gained nodes is stocked as before. -/
theorem Stocked.extend (h : s.Stocked sha256) (hextends : s.inner.Extends sha256 t.inner)
    (htasks : s.TasksInReach t) : t.Stocked sha256 := by
  intro c channel' hc index hreach hknows
  obtain ⟨channel, hold, htarget, hsecrets, hnodes⟩ := hextends.channel c channel' hc
  rw [ChannelRecord.Knows, hsecrets] at hknows
  rw [hextends.cfg]
  exact hnodes index
    (h c channel hold index (hreach.of_step hextends.cfg hold htarget htasks) hknows)

/-- Storing a channel with its old target keeps a memory stocked, when the channel is. -/
theorem Stocked.setChannel (h : s.Stocked sha256) {c : ℕ} {channel channel' : ChannelRecord}
    (hc : s.inner.db.channels[c]? = some channel)
    (hdb : t.inner.db = s.inner.db.setChannel c channel') (hcfg : t.inner.cfg = s.inner.cfg)
    (htarget : channel'.precomputeTarget = channel.precomputeTarget) (htasks : s.TasksInReach t)
    (hstocked : ∀ index, s.InReach c channel index → channel'.Knows index →
      channel'.holdsNode sha256 s.inner.cfg.role c index = true) : t.Stocked sha256 := by
  intro other channel'' hother index hreach hknows
  rw [hdb, PlainDb.setChannel] at hother
  rw [hcfg]
  by_cases heq : c = other
  · subst heq
    rw [ExtTreeMap.getElem?_insert_self] at hother
    cases hother
    exact hstocked index (hreach.of_step hcfg hc htarget htasks) hknows
  · rw [ExtTreeMap.getElem?_insert, if_neg (by simpa using heq)] at hother
    exact h other channel'' hother index (hreach.of_step hcfg hother rfl htasks) hknows

/-- A stored secret adds only its index to the known ones. -/
theorem mem_insertKnown {hash : Value32 → Value32} {c index known : ℕ} {secret : Value32}
    {secrets : DecimalMap Value32} (h : known ∈ (insertKnown hash c index secret secrets).1) :
    known = index ∨ known ∈ secrets := by
  by_cases hredundant : Redundant hash secrets index secret
  · rw [insertKnown_redundant hredundant] at h
    exact .inr h
  · rw [ExtTreeMap.mem_iff_isSome_getElem?, insertKnown_getElem? hredundant] at h
    split at h
    · next heq => exact .inl heq
    · refine .inr (ExtTreeMap.mem_iff_isSome_getElem?.mpr ?_)
      cases hvalue : secrets[known]? with
      | none => simp [hvalue] at h
      | some => rfl

/-- A channel without a node loses no other node. -/
theorem holdsNode_erase {channel channel' : ChannelRecord} {role : Role} {c mask index : ℕ}
    (hnode : channel.holdsNode sha256 role c index = true) (hne : mask ≠ index)
    (hnodes : channel'.frontierNodes = channel.frontierNodes.erase mask)
    (hssp : channel'.sspTarget = channel.sspTarget)
    (hcap : channel'.deltaLifetimeCheckedUnitsCap = channel.deltaLifetimeCheckedUnitsCap) :
    channel'.holdsNode sha256 role c index = true := by
  have hbindings :
      channel'.bindings sha256 role c index = channel.bindings sha256 role c index := by
    rw [ChannelRecord.bindings, hssp, hcap, ChannelRecord.bindings]
  rw [ChannelRecord.holdsNode, hnodes, hbindings, ExtTreeMap.getElem?_erase,
    if_neg (by simpa using hne)]
  exact hnode

/-- A reveal out of reach keeps a memory stocked. -/
theorem Stocked.storeKnownSecret (h : s.Stocked sha256) {c next : ℕ} {index : Index48}
    {secret : Value32} {mutations : List Mutation}
    (hspares : s.Spares sha256 (.operation (.storeKnownSecret c index next secret)))
    (hstore : s.inner.storeKnownSecret sha256 c index next secret = .ok (t.inner, mutations))
    (htasks : t.tasks = s.tasks) : t.Stocked sha256 := by
  obtain ⟨⟨db', _⟩, hstore, heq⟩ := Rust.map_eq_ok hstore
  obtain ⟨hinner, -⟩ := Prod.mk.inj heq
  cases hc : s.inner.db.channels[c]? with
  | none => simp [Shachain2pc.storeKnownSecret, hc] at hstore
  | some channel =>
    obtain ⟨hout, hseed⟩ := hspares channel hc
    rw [Shachain2pc.storeKnownSecret, hc] at hstore
    cases hstore
    refine h.setChannel hc (congrArg Inner.db hinner).symm (congrArg Inner.cfg hinner).symm rfl
      (fun c bound hmem => .inl (htasks ▸ hmem)) fun i hreach ⟨known, hmem, hderives⟩ => ?_
    have hne : index.get ≠ i := by
      rintro rfl
      exact hout hreach
    have hnode : channel.holdsNode sha256 s.inner.cfg.role c i = true := by
      rcases mem_insertKnown hmem with rfl | hmem
      · -- What the revealed index derives lies above it, so in reach only above the seed.
        by_cases hzero : index.get = 0
        · exact hseed hzero i hreach
        · have hle :=
            ((derives_iff index.le_max hreach.2.1).mpr hderives).le index.le_max hreach.2.1
          refine absurd ⟨Nat.one_le_iff_ne_zero.mpr hzero, index.le_max, ?_⟩ hout
          rcases hreach.2.2 with hrange | ⟨task, htask, bound, heq, hbound⟩
          · exact .inl (hle.trans hrange)
          · exact .inr ⟨task, htask, bound, heq, hle.trans hbound⟩
      · exact h c channel hc i hreach ⟨known, hmem, hderives⟩
    exact holdsNode_erase hnode hne rfl rfl rfl

/-- A response which spares the nodes of known indices keeps a memory stocked. -/
theorem Stocked.reconcile (h : s.Stocked sha256) {c : ℕ} {response : Option GetFrontierResponse}
    (hspares : s.SparesNodes c response)
    (hinner : t.inner = (reconcileWithPeer s.inner c response).1) (htasks : s.TasksInReach t) :
    t.Stocked sha256 := by
  unfold reconcileWithPeer at hinner
  split at hinner
  · next answer channel hc =>
    split at hinner
    · next henabled =>
      have hcfg : t.inner.cfg = s.inner.cfg := by rw [hinner]; rfl
      refine h.setChannel hc (congrArg Inner.db hinner) hcfg rfl htasks fun index hreach hknows =>
        ?_
      have hkept := hspares channel hc answer rfl henabled index
      have hnode := h c channel hc index hreach hknows
      rw [ChannelRecord.holdsNode, getElem?_foldl_erase, if_neg fun hmem =>
        hkept hmem hreach hknows]
      exact hnode
    · exact h.extend (hinner ▸ .refl _) htasks
  · exact h.extend (hinner ▸ .refl _) htasks

/-- Disabling a channel with no known index in reach keeps a memory stocked. -/
theorem Stocked.disable (h : s.Stocked sha256) {c : ℕ}
    {result : Inner × List Mutation × ChannelResponse}
    (hspares : s.Spares sha256 (.operation (.disableChannel c)))
    (hdisable : disableChannel s.inner c = .ok result) (hinner : t.inner = result.1)
    (htasks : t.tasks = s.tasks) : t.Stocked sha256 := by
  unfold disableChannel at hdisable
  split at hdisable
  · cases hdisable
  · next hjob =>
    split at hdisable
    · cases hdisable
    · next channel hc =>
      cases hdisable
      have hcfg : t.inner.cfg = s.inner.cfg := by rw [hinner]; rfl
      refine h.setChannel hc (congrArg Inner.db hinner) hcfg rfl
        (fun c bound hmem => .inl (htasks ▸ hmem))
        fun index hreach hknows => ?_
      exact absurd hknows (hspares (by simpa using hjob) channel hc index hreach)

/-- Enabling a channel whose known indices in reach have their nodes keeps a memory stocked. -/
theorem Stocked.enable (h : s.Stocked sha256) {req : EnableChannelRequest}
    (hspares : s.Spares sha256 (.operation (.enableChannel req)))
    (hinner : t.inner = (enableChannel s.inner req).1) (htasks : t.tasks = s.tasks) :
    t.Stocked sha256 := by
  have hcfg : t.inner.cfg = s.inner.cfg := by rw [hinner]; rfl
  intro c channel hc index hreach hknows
  rw [hcfg]
  by_cases heq : req.channelIndex = c
  · subst heq
    rw [hinner] at hc
    refine hspares channel hc index ?_ hknows
    rw [InReach, hinner, htasks] at hreach
    exact hreach
  · rw [hinner, enableChannel, Inner.setChannel, PlainDb.setChannel, ExtTreeMap.getElem?_insert,
      if_neg (by simpa using heq)] at hc
    exact h c channel hc index
      (hreach.of_step hcfg hc rfl fun c bound hmem => .inl (htasks ▸ hmem)) hknows

/-- A task which does not drop the nodes of known indices keeps a memory stocked. -/
theorem Stocked.stepTask (h : s.Stocked sha256) {k : ℕ} {task : ScheduledTask}
    (hk : s.tasks[k]? = some task) {event : ScheduleEvent}
    (hspares : s.Spares sha256 (.task k event)) (hstep : s.stepTask sha256 k task event = some t) :
    t.Stocked sha256 := by
  have hmoved (pc : SchedulePc) (hpc : ∀ bound, pc = .nextMissing bound →
      ∃ channel, s.inner.db.channels[task.channelIndex]? = some channel ∧
        bound ≤ s.inner.localPrecompute channel) {t' : Scheduler}
      (htasks : t'.tasks = (s.setTask k pc).tasks) : s.TasksInReach t' := by
    intro c bound hmem
    rw [htasks] at hmem
    obtain ⟨i, hi⟩ := List.mem_iff_getElem?.mp hmem
    rw [setTask, List.getElem?_modify] at hi
    obtain ⟨old, hold, heq⟩ := Option.map_eq_some_iff.mp hi
    split at heq
    · next hki =>
      subst hki
      rw [hk] at hold
      cases hold
      obtain ⟨rfl, hbound⟩ := ScheduledTask.mk.inj heq
      exact .inr (hpc bound hbound)
    · cases heq
      exact .inl (List.mem_of_getElem? hold)
  unfold Scheduler.stepTask at hstep
  split at hstep
  · next job _ =>
    cases hstep
    exact h.extend (.refl _) (hmoved (.dropDeadline job) (by simp) rfl)
  · next job _ =>
    cases hstep
    exact h.extend (.refl _)
      (hmoved (job.elim (.returned false) .finish) (by cases job <;> simp) rfl)
  · cases hstep
    exact h.extend (.refl _) (hmoved .done (by simp) rfl)
  · obtain ⟨⟨inner, pc⟩, hadvance, rfl⟩ := Option.map_eq_some_iff.mp hstep
    have hspec := SchedulePc.advance_spec hadvance
    have htasks : s.TasksInReach { s.setTask k pc with inner := inner } :=
      hmoved pc (fun bound hbound => (hspec.nextMissing bound hbound).2) rfl
    rcases hspec.memory with hextends | ⟨response, rfl, hinner⟩
    · exact h.extend hextends htasks
    · exact h.reconcile (hspares task hk) hinner htasks

/-- Every step which spares the nodes of known indices keeps a memory stocked. -/
theorem Stocked.step (h : s.Stocked sha256) {label : SchedulerLabel}
    (hspares : s.Spares sha256 label) (hstep : s.step sha256 label = some t) :
    t.Stocked sha256 := by
  have hsame {t' : Scheduler} (htasks : t'.tasks = s.tasks) : s.TasksInReach t' :=
    fun c bound hmem => .inl (htasks ▸ hmem)
  cases label with
  | count =>
    simp only [Scheduler.step] at hstep
    repeat' split at hstep
    all_goals cases hstep
    · exact h.extend (.refl _) (hsame rfl)
    · exact h
  | select now =>
    simp only [Scheduler.step] at hstep
    split at hstep
    · cases hstep
      exact h.extend (.refl _) (hsame rfl)
    · cases hstep
  | spawn =>
    simp only [Scheduler.step] at hstep
    split at hstep
    · cases hstep
      refine h.extend (.refl _) fun c bound hmem => ?_
      rcases List.mem_append.mp hmem with hmem | hmem
      · exact .inl hmem
      · obtain ⟨_, -, heq⟩ := List.mem_map.mp hmem
        cases heq
    · cases hstep
  | task k event =>
    obtain ⟨task, hk, hstep⟩ := Option.bind_eq_some_iff.mp hstep
    exact h.stepTask hk hspares hstep
  | dropDisabled k =>
    obtain ⟨⟨c, pc⟩, -, hstep⟩ := Option.bind_eq_some_iff.mp hstep
    cases pc <;> cases hstep
    · exact h.extend (.refl _) (hsame rfl)
    · exact h.extend (.refl _) (hsame rfl)
  | operation operation =>
    simp only [Scheduler.step] at hstep
    split at hstep
    · cases hstep
      exact h
    · next inner mutations hperform =>
      cases hstep
      by_cases hnarrows : operation.Narrows
      · cases operation with
        | enableChannel req =>
          cases hperform
          exact h.enable hspares rfl rfl
        | disableChannel c =>
          obtain ⟨result, hdisable, heq⟩ := Rust.map_eq_ok hperform
          exact h.disable hspares hdisable (Prod.mk.inj heq).1.symm rfl
        | storeKnownSecret c index next secret => exact h.storeKnownSecret hspares hperform rfl
        | reconcileWithPeer c response =>
          exact h.reconcile hspares (congrArg Prod.fst (Except.ok.inj hperform)).symm (hsame rfl)
        | _ => exact absurd hnarrows (by simp [Operation.Narrows])
      · exact h.extend (Inner.perform_extends hnarrows hperform) (hsame rfl)
  | setConfig req =>
    cases hstep
    exact fun c channel hc index hreach hknows => hspares c channel hc index hreach hknows

/-- Started with every known index of a range in possession of its node, and while every step spares
the nodes of known indices, neither selection takes a known index for missing. -/
theorem scheduler_worksOnUnknown {inner : Inner} (hstart : (start inner).Stocked sha256)
    {labels : List SchedulerLabel} (hrun : run (step sha256) (start inner) labels = some t)
    (halong : Along (step sha256) (Spares sha256) (start inner) labels) : t.WorksOnUnknown sha256 :=
  (Runs.invariant (fun _ _ _ h hspares hstep => h.step hspares hstep) hstart hrun
    halong).worksOnUnknown

/-- The top index is revealed, far above the range of the first index. -/
theorem scheduler_worksOnUnknown_top : ∃ t,
    run (step fun _ => ⟨.replicate 32 0⟩) (start oneIndexInner)
      [.operation (.enableChannel ⟨7, 1, 0, 0⟩), .operation
        (.storeKnownSecret 7 ⟨maxIndex, le_rfl⟩ maxIndex ⟨.replicate 32 0⟩)] = some t ∧
      t.WorksOnUnknown fun _ => ⟨.replicate 32 0⟩ := by
  obtain ⟨t, hrun⟩ : ∃ t, run (step fun _ => ⟨.replicate 32 0⟩) (start oneIndexInner)
    [.operation (.enableChannel ⟨7, 1, 0, 0⟩), .operation
      (.storeKnownSecret 7 ⟨maxIndex, le_rfl⟩ maxIndex ⟨.replicate 32 0⟩)] = some t := ⟨_, rfl⟩
  refine ⟨t, hrun, scheduler_worksOnUnknown (stocked_start rfl) hrun
    ⟨fun channel hc index _ hknows => ?_, fun s hs => ⟨fun channel hc => ?_, fun _ _ => trivial⟩⟩⟩
  · -- The enabled channel knows nothing.
    change (PlainDb.default.channels.insert 7 _)[7]? = some channel at hc
    rw [ExtTreeMap.getElem?_insert_self] at hc
    cases hc
    obtain ⟨known, hknown, -⟩ := hknows
    exact absurd hknown ExtTreeMap.not_mem_empty
  · cases hs
    change (PlainDb.default.channels.insert 7 _)[7]? = some channel at hc
    rw [ExtTreeMap.getElem?_insert_self] at hc
    cases hc
    refine ⟨fun hreach => ?_, fun hzero => absurd hzero (by decide)⟩
    rcases hreach.2.2 with hrange | ⟨task, htask, -⟩
    · exact absurd hrange (by decide)
    · cases htask

/-- A peer with the same range, and the parameters of a channel enabled by default. -/
def oneIndexPeer : PeerFrontierConfig := ⟨true, 1, 4, 4, defaultSspTarget, defaultDeltaCap⟩

/-- The first index is computed and revealed, and the next task of its channel finds it missing. -/
theorem scheduler_worksOnKnown : ∃ t,
    run (step fun _ => ⟨.replicate 32 0⟩) (start oneIndexInner)
      [.operation (.enableChannel ⟨7, 1, 0, 0⟩),
        .operation (.storePrecomputedTargetWiresAndFinishJob 7 "job" 1 1 ⟨[], [], [], []⟩),
        .operation (.storeKnownSecret 7 ⟨1, by decide⟩ 1 ⟨.replicate 32 0⟩), .count,
          .select 0, .spawn,
        .task 0 (.frontier oneIndexPeer),
        .task 0 (.nodes (some ⟨[], true, 1, defaultSspTarget, defaultDeltaCap, 4, 4⟩)),
        .task 0 .proceed, .task 0 .proceed] = some t ∧
      ¬t.WorksOnUnknown fun _ => ⟨.replicate 32 0⟩ := by
  have hpicks : (run (step fun _ => ⟨.replicate 32 0⟩) (start oneIndexInner)
      [.operation (.enableChannel ⟨7, 1, 0, 0⟩),
        .operation (.storePrecomputedTargetWiresAndFinishJob 7 "job" 1 1 ⟨[], [], [], []⟩),
        .operation (.storeKnownSecret 7 ⟨1, by decide⟩ 1 ⟨.replicate 32 0⟩), .count,
        .select 0, .spawn,
        .task 0 (.frontier oneIndexPeer),
        .task 0 (.nodes (some ⟨[], true, 1, defaultSspTarget, defaultDeltaCap, 4, 4⟩)),
        .task 0 .proceed, .task 0 .proceed]).any (fun t =>
      decide (t.tasks = [⟨7, .nextMissing 1⟩]) &&
        nextMissingFrontier (fun _ => ⟨.replicate 32 0⟩) t.inner 7 1 == some 1 &&
        (deriveKnown (fun _ => ⟨.replicate 32 0⟩) t.inner.db 7 ⟨1, by decide⟩).isSome) = true := by
    decide +kernel
  obtain ⟨t, hrun, hpicks⟩ := (Option.any_eq_true _ _).mp hpicks
  simp only [Bool.and_eq_true, decide_eq_true_eq, beq_iff_eq] at hpicks
  obtain ⟨⟨htasks, hnext⟩, hderive⟩ := hpicks
  refine ⟨t, hrun, fun hunknown => ?_⟩
  have hnone := hunknown.next ⟨7, .nextMissing 1⟩ (htasks ▸ List.mem_singleton_self _) 1 rfl
    ⟨1, by decide⟩ hnext
  rw [hnone] at hderive
  cases hderive

end Scheduler

end Shachain2pc
