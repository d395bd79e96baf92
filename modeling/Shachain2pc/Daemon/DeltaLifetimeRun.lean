import Shachain2pc.Daemon.DeltaLifetime

/-!
# Runs under one Delta

As long as every job that starts finds the earlier ones of its channel stored, the estimate of
the channel covers all the work that was started, and the cap bounds it. A job that failed is
in no estimate, and the next one is admitted as if it had never run.
-/

namespace Shachain2pc

open Std
open Runs (run Along)

namespace DeltaLifetime

variable {sha256 : List UInt8 → Value32} {s t : DeltaLifetime} {quantity : StartedJob → ℕ}

/-- The sum over more jobs. -/
theorem total_append (jobs more : List StartedJob) :
    total quantity (jobs ++ more) = total quantity jobs + total quantity more := by
  induction jobs with
  | nil => simp [total]
  | cons job rest ih =>
    have hrest : total quantity (rest ++ more) = total quantity rest + total quantity more := ih
    simp only [total, List.cons_append, List.foldr_cons] at hrest ⊢
    omega

/-- Changing one job changes the sum by what the job contributes. -/
theorem total_modify {jobs : List StartedJob} {k : ℕ} {job : StartedJob} (hk : jobs[k]? = some job)
    (change : StartedJob → StartedJob) :
    total quantity (jobs.modify k change) + quantity job =
      total quantity jobs + quantity (change job) := by
  induction jobs generalizing k with
  | nil => simp at hk
  | cons first rest ih =>
    cases k with
    | zero =>
      obtain rfl : first = job := by simpa using hk
      simp only [total, List.modify_zero_cons, List.foldr_cons]
      omega
    | succ k =>
      have hrest := ih (k := k) (by simpa using hk)
      simp only [total, List.modify_succ_cons, List.foldr_cons] at hrest ⊢
      omega

/-- Changing jobs without changing what they contribute keeps the sum. -/
theorem total_map {jobs : List StartedJob} {change : StartedJob → StartedJob}
    (h : ∀ job, quantity (change job) = quantity job) :
    total quantity (jobs.map change) = total quantity jobs := by
  simp only [total, List.foldr_map, h]

/-- The sum is monotone in what the jobs contribute. -/
theorem total_le {other : StartedJob → ℕ} {jobs : List StartedJob}
    (h : ∀ job ∈ jobs, quantity job ≤ other job) : total quantity jobs ≤ total other jobs := by
  induction jobs with
  | nil => exact Nat.le_refl _
  | cons job rest ih =>
    have hjob := h job List.mem_cons_self
    have hrest := ih fun later hlater => h later (List.mem_cons_of_mem _ hlater)
    simp only [total, List.foldr_cons] at hrest ⊢
    omega

/-- The work of every channel is estimated once it is stored, and stays within the cap. -/
structure Covered (s : DeltaLifetime) : Prop where
  persistence : PersistenceInvariant s.daemon
  missing : ∀ c : ℕ, s.daemon.inner.db.channels[c]? = none → s.startedUnits c = 0
  stored : ∀ (c : ℕ) (channel : ChannelRecord), s.daemon.inner.db.channels[c]? = some channel →
    s.storedUnits c ≤ channel.estimatedCheckedUnits
  small : ∀ c, s.startedUnits c ≤ 2 ^ 64 - 1
  within : s.WithinCap

/-- A daemon whose table mirrors its memory has started nothing. -/
theorem Covered.start {daemon : Persistence} (hdrained : daemon.Drained)
    (hmirrors : Mirrors daemon.writer.table daemon.inner.db) : (start daemon).Covered where
  persistence := .start hdrained hmirrors
  missing _ _ := rfl
  stored _ _ _ := Nat.zero_le _
  small _ := Nat.zero_le _
  within _ _ _ := Nat.zero_le _

/-- The stored work is part of the started work. -/
theorem storedUnits_le (s : DeltaLifetime) (c : ℕ) : s.storedUnits c ≤ s.startedUnits c := by
  refine total_le fun job _ => ?_
  unfold storedUnitsOn
  split
  · exact Nat.le_refl _
  · exact Nat.zero_le _

/-- A step which keeps the budgets, starts nothing and stores nothing keeps everything covered. -/
theorem Covered.frame (h : s.Covered) (hpersistence : PersistenceInvariant t.daemon)
    (hbudgets : s.daemon.inner.KeepsBudgets t.daemon.inner)
    (hstarted : ∀ c, t.startedUnits c = s.startedUnits c)
    (hstored : ∀ c, t.storedUnits c = s.storedUnits c) : t.Covered := by
  have hback (c : ℕ) (channel : ChannelRecord)
      (hc : t.daemon.inner.db.channels[c]? = some channel) :
      s.startedUnits c = 0 ∨ ∃ old : ChannelRecord, s.daemon.inner.db.channels[c]? = some old ∧
        channel.estimatedCheckedUnits = old.estimatedCheckedUnits ∧
        channel.deltaLifetimeCheckedUnitsCap = old.deltaLifetimeCheckedUnitsCap := by
    cases hold : s.daemon.inner.db.channels[c]? with
    | none => exact .inl (h.missing c hold)
    | some old =>
      obtain ⟨channel', hc', hsame⟩ := hbudgets c old hold
      cases hc.symm.trans hc'
      exact .inr ⟨old, rfl, hsame⟩
  refine ⟨hpersistence, fun c hc => ?_, fun c channel hc => ?_, fun c => ?_, fun c channel hc => ?_⟩
  · rw [hstarted]
    cases hold : s.daemon.inner.db.channels[c]? with
    | none => exact h.missing c hold
    | some old =>
      obtain ⟨channel', hc', -⟩ := hbudgets c old hold
      rw [hc] at hc'
      cases hc'
  · rw [hstored]
    obtain hzero | ⟨old, hold, hestimate, -⟩ := hback c channel hc
    · have hle := s.storedUnits_le c
      omega
    · exact hestimate ▸ h.stored c old hold
  · rw [hstarted]
    exact h.small c
  · rw [hstarted]
    obtain hzero | ⟨old, hold, -, hcap⟩ := hback c channel hc
    · omega
    · exact hcap ▸ h.within c old hold

/-- A critical section which stores no node and changes no cap keeps the table behind the memory,
the budgets and the jobs. -/
theorem perform_spec {operation : Operation} (h : PersistenceInvariant s.daemon)
    (hstore : ∀ c jobId units mask wires,
      operation ≠ .storePrecomputedTargetWiresAndFinishJob c jobId units mask wires)
    (hpermitted : s.Permitted (.operate operation))
    (hstep : s.perform sha256 operation = some t) :
    PersistenceInvariant t.daemon ∧ t.jobs = s.jobs ∧
      s.daemon.inner.KeepsBudgets t.daemon.inner := by
  obtain ⟨daemon, hdaemon, rfl⟩ := Option.map_eq_some_iff.mp hstep
  refine ⟨h.perform hdaemon, rfl, ?_⟩
  simp only [Persistence.step] at hdaemon
  split at hdaemon
  · cases hdaemon
    exact .of_eq rfl
  · next inner mutations hperform =>
    cases hdaemon
    refine Inner.perform_keepsBudgets hstore (fun req hreq => ?_) hperform
    subst hreq
    exact hpermitted

/-- A running job is one of the started jobs. -/
theorem running_eq_some {k : ℕ} {job : StartedJob} (h : s.running k = some job) :
    s.jobs[k]? = some job ∧ job.phase = .running := by
  obtain ⟨hjob, hphase⟩ := Option.filter_eq_some_iff.mp h
  exact ⟨hjob, of_decide_eq_true hphase⟩

/-- Moving a job on starts no work. -/
theorem startedUnits_setPhase {k : ℕ} {job : StartedJob} (hk : s.jobs[k]? = some job)
    (phase : JobPhase) (c : ℕ) : (s.setPhase k phase).startedUnits c = s.startedUnits c := by
  have hsum : total (unitsOn c) (s.jobs.modify k fun job => { job with phase := phase }) +
      unitsOn c job = total (unitsOn c) s.jobs + unitsOn c job := total_modify hk _
  exact Nat.add_right_cancel hsum

/-- A running job counts as stored work once it is stored. -/
theorem storedUnits_setPhase {k : ℕ} {job : StartedJob} (h : s.running k = some job)
    (phase : JobPhase) (c : ℕ) : (s.setPhase k phase).storedUnits c =
      s.storedUnits c + if phase = .stored then unitsOn c job else 0 := by
  obtain ⟨hk, hphase⟩ := running_eq_some h
  have hsum : total (storedUnitsOn c) (s.jobs.modify k fun job => { job with phase := phase }) +
      storedUnitsOn c job = total (storedUnitsOn c) s.jobs +
        storedUnitsOn c { job with phase := phase } := total_modify hk _
  have hzero : storedUnitsOn c job = 0 := if_neg (by simp [hphase])
  rw [hzero] at hsum
  exact hsum

/-- The stored work and that of a running job are part of the started work. -/
theorem storedUnits_add_le {k : ℕ} {job : StartedJob} (h : s.running k = some job) (c : ℕ) :
    s.storedUnits c + unitsOn c job ≤ s.startedUnits c := by
  have hstored := storedUnits_setPhase h .stored c
  have hle := storedUnits_le (s.setPhase k .stored) c
  rw [startedUnits_setPhase (running_eq_some h).1] at hle
  rw [if_pos rfl] at hstored
  omega

/-- When every earlier job of the channel is stored, all its started work is stored. -/
theorem Counted.startedUnits_eq {job : StartedJob} (h : s.Counted job) :
    s.startedUnits job.channelIndex ≤ s.storedUnits job.channelIndex := by
  refine total_le fun earlier hmem => ?_
  by_cases hchannel : earlier.channelIndex = job.channelIndex
  · by_cases hunits : 0 < earlier.plannedCheckedUnits
    · rw [storedUnitsOn, if_pos (h.1 earlier hmem hchannel hunits)]
    · rw [unitsOn, if_pos hchannel]
      omega
  · rw [unitsOn, if_neg hchannel]
    exact Nat.zero_le _

/-- A counted job that is admitted fits into the cap beside all the earlier work. -/
theorem Covered.fits (h : s.Covered) {job : StartedJob} (hcounted : s.Counted job)
    {channel : ChannelRecord} (hc : s.daemon.inner.db.channels[job.channelIndex]? = some channel)
    (hused : s.daemon.inner.used job.channelIndex channel job.plannedCheckedUnits ≤
      channel.deltaLifetimeCheckedUnitsCap) :
    s.startedUnits job.channelIndex + job.plannedCheckedUnits ≤ 2 ^ 64 - 1 ∧
      s.startedUnits job.channelIndex + job.plannedCheckedUnits ≤
        channel.deltaLifetimeCheckedUnitsCap := by
  have hstarted := hcounted.startedUnits_eq
  have hstored := h.stored _ _ hc
  have hlarge := hcounted.2 channel hc
  unfold Inner.used saturatingAdd at hused
  omega

/-- The channel of a job which starts has room for it. -/
structure Admitted (s : DeltaLifetime) (job : StartedJob) : Prop where
  running : job.phase = .running
  fits : ∃ channel : ChannelRecord, s.daemon.inner.db.channels[job.channelIndex]? = some channel ∧
    s.daemon.inner.used job.channelIndex channel job.plannedCheckedUnits ≤
      channel.deltaLifetimeCheckedUnitsCap

/-- A step starts at most one job, and admits it. -/
theorem started_cases (s : DeltaLifetime) (label : LifetimeLabel) :
    s.started sha256 label = [] ∨ ∃ job, s.started sha256 label = [job] ∧ s.Admitted job := by
  unfold started
  split
  · next c index peer units workers =>
    split
    · next job hbegin =>
      obtain ⟨-, -, h⟩ | ⟨channel, job', hc, -, heq, hunits, -, -⟩ :=
        beginPrecomputeJobstream_cases hbegin
      · cases h
      · cases heq
        refine .inr ⟨_, rfl, rfl, channel, hc, ?_⟩
        exact hunits ▸ beginPrecomputeJobstream_used_le hbegin channel hc
    · exact .inl rfl
  · next descriptor index units workers =>
    split
    · next hbegin =>
      obtain ⟨channel, hc, -⟩ := beginIncomingPrecomputeTarget_ok hbegin
      exact .inr ⟨_, rfl, rfl, channel, hc, beginIncomingPrecomputeTarget_used_le hbegin channel hc⟩
    · exact .inl rfl
  · exact .inl rfl

/-- Starting a counted job keeps everything covered. -/
theorem Covered.admit (h : s.Covered) {job : StartedJob} (hcounted : s.Counted job)
    (hadmitted : s.Admitted job) (hpersistence : PersistenceInvariant t.daemon)
    (hbudgets : s.daemon.inner.KeepsBudgets t.daemon.inner) (hjobs : t.jobs = s.jobs ++ [job]) :
    t.Covered := by
  obtain ⟨channel, hc, hused⟩ := hadmitted.fits
  obtain ⟨hsmall, hcap⟩ := h.fits hcounted hc hused
  obtain ⟨channel', hc', -, hcap'⟩ := hbudgets _ _ hc
  have hkept : Covered { t with jobs := s.jobs } :=
    h.frame hpersistence hbudgets (fun _ => rfl) fun _ => rfl
  have hstarted (c : ℕ) : t.startedUnits c = s.startedUnits c + unitsOn c job := by
    rw [startedUnits, hjobs, total_append]
    rfl
  have hstored (c : ℕ) : t.storedUnits c = s.storedUnits c := by
    have hzero : storedUnitsOn c job = 0 := if_neg (by simp [hadmitted.running])
    rw [storedUnits, hjobs, total_append]
    simp [total, hzero, storedUnits]
  refine ⟨hpersistence, fun c hmissing => ?_, fun c found hfound => ?_, fun c => ?_,
    fun c found hfound => ?_⟩
  · have hne : job.channelIndex ≠ c := by
      intro heq
      rw [← heq, hc'] at hmissing
      cases hmissing
    rw [hstarted, unitsOn, if_neg hne]
    exact hkept.missing c hmissing
  · exact hstored c ▸ hkept.stored c found hfound
  · rw [hstarted, unitsOn]
    split
    · next heq => exact heq ▸ hsmall
    · exact h.small c
  · rw [hstarted, unitsOn]
    split
    · next heq =>
      subst heq
      cases hfound.symm.trans hc'
      exact hcap' ▸ hcap
    · exact hkept.within c found hfound

/-- Beginning a target keeps everything covered when the job it starts is counted. -/
theorem Covered.begin (h : s.Covered) {operation : Operation} {label : LifetimeLabel}
    (hstore : ∀ c jobId units mask wires,
      operation ≠ .storePrecomputedTargetWiresAndFinishJob c jobId units mask wires)
    (hpermitted : s.Permitted (.operate operation))
    (hcounts : ∀ job ∈ s.started sha256 label, s.Counted job)
    (hstep : (s.perform sha256 operation).map (fun t =>
      { t with jobs := s.jobs ++ s.started sha256 label }) = some t) : t.Covered := by
  obtain ⟨mid, hperform, rfl⟩ := Option.map_eq_some_iff.mp hstep
  obtain ⟨hpersistence, -, hbudgets⟩ := perform_spec h.persistence hstore hpermitted hperform
  obtain hnone | ⟨job, hone, hadmitted⟩ := started_cases s label
  · rw [hnone, List.append_nil]
    exact h.frame hpersistence hbudgets (fun _ => rfl) fun _ => rfl
  · rw [hone] at hcounts ⊢
    exact h.admit (hcounts _ List.mem_cons_self) hadmitted hpersistence hbudgets rfl

/-- A running job which ends without storing its node keeps everything covered. -/
theorem Covered.finish (h : s.Covered) {k : ℕ} {job : StartedJob}
    (hrunning : s.running k = some job) (hpersistence : PersistenceInvariant t.daemon)
    (hbudgets : s.daemon.inner.KeepsBudgets t.daemon.inner)
    (hjobs : t.jobs = (s.setPhase k .ended).jobs) : t.Covered := by
  refine h.frame hpersistence hbudgets (fun c => ?_) fun c => ?_
  · rw [startedUnits, hjobs]
    exact startedUnits_setPhase (running_eq_some hrunning).1 .ended c
  · rw [storedUnits, hjobs]
    exact storedUnits_setPhase hrunning .ended c

/-- Storing the node of a running job keeps everything covered: its units enter the estimate. -/
theorem Covered.store (h : s.Covered) {k : ℕ} {job : StartedJob} (hrunning : s.running k = some job)
    {channel : ChannelRecord}
    (hc : s.daemon.inner.db.channels[job.channelIndex]? = some channel)
    {channel' : ChannelRecord}
    (hestimate : channel'.estimatedCheckedUnits =
      saturatingAdd channel.estimatedCheckedUnits job.plannedCheckedUnits)
    (hcap : channel'.deltaLifetimeCheckedUnitsCap = channel.deltaLifetimeCheckedUnitsCap)
    (hdb : t.daemon.inner.db = s.daemon.inner.db.setChannel job.channelIndex channel')
    (hpersistence : PersistenceInvariant t.daemon) (hjobs : t.jobs = (s.setPhase k .stored).jobs) :
    t.Covered := by
  have hstarted (c : ℕ) : t.startedUnits c = s.startedUnits c := by
    rw [startedUnits, hjobs]
    exact startedUnits_setPhase (running_eq_some hrunning).1 .stored c
  have hstored (c : ℕ) : t.storedUnits c = s.storedUnits c + unitsOn c job := by
    rw [storedUnits, hjobs]
    exact storedUnits_setPhase hrunning .stored c
  have hself : t.daemon.inner.db.channels[job.channelIndex]? = some channel' := by
    rw [hdb]
    exact ExtTreeMap.getElem?_insert_self
  have hother (c : ℕ) (hne : job.channelIndex ≠ c) :
      t.daemon.inner.db.channels[c]? = s.daemon.inner.db.channels[c]? := by
    simp [hdb, PlainDb.setChannel, ExtTreeMap.getElem?_insert, hne]
  refine ⟨hpersistence, fun c hmissing => ?_, fun c found hfound => ?_, fun c => ?_,
    fun c found hfound => ?_⟩
  · by_cases hne : job.channelIndex = c
    · rw [← hne, hself] at hmissing
      cases hmissing
    · rw [hstarted]
      exact h.missing c (hother c hne ▸ hmissing)
  · by_cases hne : job.channelIndex = c
    · subst hne
      cases hself.symm.trans hfound
      have hle := storedUnits_add_le hrunning job.channelIndex
      have hsmall := h.small job.channelIndex
      have hold := h.stored _ _ hc
      rw [hstored, hestimate]
      rw [unitsOn, if_pos rfl] at hle ⊢
      unfold saturatingAdd
      omega
    · rw [hstored, unitsOn, if_neg hne]
      exact h.stored c found (hother c hne ▸ hfound)
  · exact hstarted c ▸ h.small c
  · rw [hstarted]
    by_cases hne : job.channelIndex = c
    · subst hne
      cases hself.symm.trans hfound
      exact hcap ▸ h.within _ _ hc
    · exact h.within c found (hother c hne ▸ hfound)

/-- What storing the node of a job does to the channels. -/
theorem storePrecomputedTargetWiresAndFinishJob_db {inner inner' : Inner} {c units mask : ℕ}
    {jobId : String} {wires : Ag2pcSecureWires} {mutations : List Mutation}
    (h : storePrecomputedTargetWiresAndFinishJob sha256 inner c jobId units mask wires =
      .ok (inner', mutations)) :
    ∃ channel channel' : ChannelRecord, inner.db.channels[c]? = some channel ∧
      channel'.estimatedCheckedUnits = saturatingAdd channel.estimatedCheckedUnits units ∧
      channel'.deltaLifetimeCheckedUnitsCap = channel.deltaLifetimeCheckedUnitsCap ∧
      inner'.db = inner.db.setChannel c channel' := by
  obtain ⟨bindings, -, h⟩ := Rust.bind_eq_ok h
  repeat' split at h
  all_goals cases h
  next channel hc _ =>
    refine ⟨channel, _, hc, ?_, ?_, rfl⟩
    · rfl
    · rfl

/-- One permitted step which counts its work keeps everything covered. -/
theorem Covered.step (h : s.Covered) {label : LifetimeLabel} (hpermitted : s.Permitted label)
    (hcounts : s.CountsWork sha256 label) (hstep : s.step sha256 label = some t) : t.Covered := by
  cases label with
  | operate operation =>
    simp only [DeltaLifetime.step, Option.ite_none_left_eq_some] at hstep
    obtain ⟨hjob, hperform⟩ := hstep
    have hstore : ∀ c jobId units mask wires,
        operation ≠ .storePrecomputedTargetWiresAndFinishJob c jobId units mask wires := by
      rintro c jobId units mask wires rfl
      exact hjob rfl
    obtain ⟨hpersistence, hjobs, hbudgets⟩ :=
      perform_spec h.persistence hstore hpermitted hperform
    refine h.frame hpersistence hbudgets (fun c => ?_) fun c => ?_
    · rw [startedUnits, startedUnits, hjobs]
    · rw [storedUnits, storedUnits, hjobs]
  | begin c index peer units workers =>
    refine h.begin ?_ ?_ hcounts.1 hstep
    · intros
      exact Operation.noConfusion
    · trivial
  | beginIncoming descriptor index units workers =>
    refine h.begin ?_ ?_ hcounts.1 hstep
    · intros
      exact Operation.noConfusion
    · trivial
  | store k wires =>
    obtain ⟨job, hrunning, hstep⟩ := Option.bind_eq_some_iff.mp hstep
    split at hstep
    · cases hstep
    · next result hok =>
      obtain ⟨mid, hperform, rfl⟩ := Option.map_eq_some_iff.mp hstep
      obtain ⟨daemon, hdaemon, rfl⟩ := Option.map_eq_some_iff.mp hperform
      have hpersistence := h.persistence.perform hdaemon
      simp only [Persistence.step, Inner.perform, hok] at hdaemon
      cases hdaemon
      obtain ⟨channel, channel', hc, hestimate, hcap, hdb⟩ :=
        storePrecomputedTargetWiresAndFinishJob_db hok
      exact h.store hrunning hc hestimate hcap hdb hpersistence rfl
  | fail k =>
    obtain ⟨job, hrunning, hstep⟩ := Option.bind_eq_some_iff.mp hstep
    obtain ⟨mid, hperform, rfl⟩ := Option.map_eq_some_iff.mp hstep
    have hpermitted : s.Permitted (.operate (.finishJob job.jobId true)) := trivial
    obtain ⟨hpersistence, hjobs, hbudgets⟩ :=
      perform_spec h.persistence (by intros; exact Operation.noConfusion) hpermitted hperform
    exact h.finish hrunning hpersistence hbudgets (by simp only [setPhase, hjobs])
  | drop k =>
    obtain ⟨job, hrunning, rfl⟩ := Option.map_eq_some_iff.mp hstep
    exact h.finish hrunning h.persistence (.of_eq rfl) rfl
  | write label =>
    have hdaemon : ∃ daemon, s.daemon.step sha256 label = some daemon ∧
        daemon.inner = s.daemon.inner ∧ t = { s with daemon := daemon } := by
      cases label with
      | perform operation => cases hstep
      | send position =>
        obtain ⟨daemon, hsend, rfl⟩ := Option.map_eq_some_iff.mp hstep
        obtain ⟨batch, -, hmap⟩ := Option.bind_eq_some_iff.mp hsend
        obtain ⟨writer, -, rfl⟩ := Option.map_eq_some_iff.mp hmap
        exact ⟨_, hsend, rfl, rfl⟩
      | flush ack =>
        obtain ⟨daemon, hflush, rfl⟩ := Option.map_eq_some_iff.mp hstep
        obtain ⟨writer, -, rfl⟩ := Option.map_eq_some_iff.mp hflush
        exact ⟨_, hflush, rfl, rfl⟩
      | process count =>
        obtain ⟨daemon, hprocess, rfl⟩ := Option.map_eq_some_iff.mp hstep
        obtain ⟨result, -, rfl⟩ := Option.map_eq_some_iff.mp hprocess
        exact ⟨_, hprocess, rfl, rfl⟩
      | checkpoint =>
        obtain ⟨daemon, hcheckpoint, rfl⟩ := Option.map_eq_some_iff.mp hstep
        obtain ⟨-, heq⟩ := Option.ite_none_right_eq_some.mp hcheckpoint
        cases heq
        exact ⟨_, hcheckpoint, rfl, rfl⟩
    obtain ⟨daemon, hdaemon, hinner, rfl⟩ := hdaemon
    exact h.frame (h.persistence.step hcounts.2 hdaemon) (.of_eq (congrArg Inner.db hinner))
      (fun _ => rfl) fun _ => rfl
  | failCommit count => exact hcounts.2.elim
  | restart records =>
    obtain ⟨hdrained, hlists⟩ := hpermitted
    have hmirrors : Mirrors s.daemon.writer.table s.daemon.inner.db := by
      have hpending := h.persistence.mirrors
      simp only [Persistence.pendingMutations, hdrained.1, hdrained.2] at hpending
      exact hpending
    have hload := loadRedbState_of_mirrors hmirrors hlists
    simp only [DeltaLifetime.step, hload] at hstep
    cases hstep
    refine h.frame (.start hdrained hmirrors) (.of_eq rfl) (fun c => ?_) fun c => ?_
    · refine total_map fun job => ?_
      split <;> rfl
    · refine total_map fun job => ?_
      split
      · next hrunning => simp [storedUnitsOn, hrunning]
      · rfl

/-- In every permitted run in which a job starts only once the earlier jobs of its channel are
stored, the planned units of all jobs ever started under a channel's Delta stay within its cap. -/
theorem startedUnits_within_cap {daemon : Persistence} {labels : List LifetimeLabel}
    (hdrained : daemon.Drained) (hmirrors : Mirrors daemon.writer.table daemon.inner.db)
    (hpermitted : Along (DeltaLifetime.step sha256) Permitted (.start daemon) labels)
    (hcounts : Along (DeltaLifetime.step sha256) (CountsWork sha256) (.start daemon) labels)
    (hrun : run (DeltaLifetime.step sha256) (.start daemon) labels = some t) : t.WithinCap := by
  have hstep (s : DeltaLifetime) (label : LifetimeLabel) (t : DeltaLifetime) (h : s.Covered)
      (hcond : s.Permitted label ∧ s.CountsWork sha256 label)
      (hstep : s.step sha256 label = some t) : t.Covered := h.step hcond.1 hcond.2 hstep
  exact (Runs.invariant hstep (.start hdrained hmirrors) hrun (hpermitted.and hcounts)).within

/-- A channel with a cap of three units, a job of two, what becomes of it, and another job. -/
def capLabels (outcome : LifetimeLabel) (units : ℕ) : List LifetimeLabel :=
  [.operate (.enableChannel ⟨1, 0, 0, 3⟩),
    .begin 1 ⟨3, by decide⟩ ⟨true, 1, 1, 1, 40, 3⟩ 2 1, outcome,
    .begin 1 ⟨5, by decide⟩ ⟨true, 1, 1, 1, 40, 3⟩ units 1]

/-- The runs of the example are permitted whatever becomes of the first job. -/
theorem capLabels_permitted {outcome : LifetimeLabel} (h : ∀ s : DeltaLifetime, s.Permitted outcome)
    (units : ℕ) : Along (DeltaLifetime.step sha256) Permitted (.start .fresh)
      (capLabels outcome units) := by
  refine ⟨fun channel hc => ?_, fun _ _ => ⟨trivial, fun _ _ => ⟨h _, fun _ _ => ⟨trivial, ?_⟩⟩⟩⟩
  · cases hc
  · intro _ _
    trivial

/-- The first job stores its node, and the second takes the rest of the cap. -/
theorem startedUnits_within_cap_stored : ∃ t,
    run (DeltaLifetime.step fun _ => ⟨Vector.replicate 32 0⟩) (.start .fresh)
      (capLabels (.store 0 ⟨[], [], [], []⟩) 1) = some t ∧ t.startedUnits 1 = 3 ∧ t.WithinCap := by
  have hcounts : Along (DeltaLifetime.step fun _ => ⟨Vector.replicate 32 0⟩)
      (fun s label => ∀ job ∈ s.started (fun _ => ⟨Vector.replicate 32 0⟩) label, s.Counted job)
      (.start .fresh) (capLabels (.store 0 ⟨[], [], [], []⟩) 1) := by
    decide +kernel
  have hunits : (run (DeltaLifetime.step fun _ => ⟨Vector.replicate 32 0⟩) (.start .fresh)
      (capLabels (.store 0 ⟨[], [], [], []⟩) 1)).map (·.startedUnits 1) = some 3 := by
    decide +kernel
  obtain ⟨t, hrun, ht⟩ := Option.map_eq_some_iff.mp hunits
  have hstored : ∀ s : DeltaLifetime, s.Permitted (.store 0 ⟨[], [], [], []⟩) := fun _ => trivial
  have hdrained : Persistence.fresh.Drained := ⟨rfl, rfl⟩
  refine ⟨t, hrun, ht,
    startedUnits_within_cap hdrained rfl (capLabels_permitted hstored 1) ?_ hrun⟩
  exact ⟨⟨hcounts.1, trivial⟩, fun _ h1 => ⟨⟨(hcounts.2 _ h1).1, trivial⟩, fun _ h2 =>
    ⟨⟨((hcounts.2 _ h1).2 _ h2).1, trivial⟩, fun _ h3 =>
      ⟨⟨(((hcounts.2 _ h1).2 _ h2).2 _ h3).1, trivial⟩, fun _ _ => trivial⟩⟩⟩⟩

/-- When the first job fails, its two units are forgotten, and a second job of two is admitted under
the cap of three. -/
theorem startedUnits_exceed_cap : ∃ labels t,
    Along (DeltaLifetime.step fun _ => ⟨Vector.replicate 32 0⟩) Permitted (.start .fresh) labels ∧
      run (DeltaLifetime.step fun _ => ⟨Vector.replicate 32 0⟩) (.start .fresh) labels = some t ∧
      ¬ t.WithinCap := by
  have hunits : (run (DeltaLifetime.step fun _ => ⟨Vector.replicate 32 0⟩) (.start .fresh)
      (capLabels (.fail 0) 2)).map (fun t => (t.startedUnits 1,
        t.daemon.inner.db.channels[1]?.map (·.deltaLifetimeCheckedUnitsCap))) =
          some (4, some 3) := by
    decide +kernel
  obtain ⟨t, hrun, ht⟩ := Option.map_eq_some_iff.mp hunits
  obtain ⟨hstarted, hcap⟩ := Prod.mk.inj ht
  obtain ⟨channel, hc, hthree⟩ := Option.map_eq_some_iff.mp hcap
  have hfailed : ∀ s : DeltaLifetime, s.Permitted (.fail 0) := fun _ => trivial
  refine ⟨_, t, capLabels_permitted hfailed 2, hrun, fun h => ?_⟩
  have hle := h 1 channel hc
  omega

end DeltaLifetime

end Shachain2pc
