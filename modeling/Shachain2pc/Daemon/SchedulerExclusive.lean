import Shachain2pc.Daemon.Scheduler

/-!
# One task for each channel

The mark of a channel keeps the loop from selecting it again, as long as only the task which the
selection spawned clears it. A task which drops its session clears its own mark before it ends,
and a disabling call clears the mark of a channel whose task may still run. A second task of the
channel can start then, and the first one clears the mark of the second when it ends.
-/

namespace Shachain2pc

open Std
open Runs (run Along)

/-- The channels which are selected and not yet spawned. -/
def Tick.candidates : Tick → List ℕ
  | .selected candidates => candidates
  | _ => []

/-- The task is about to drop its session, which clears its mark. -/
def SchedulePc.dropsMark : SchedulePc → Bool
  | .dropMark _ => true
  | _ => false

namespace Scheduler

/-- A channel has at most one task, and the channel of a task is marked. -/
structure Exclusive (s : Scheduler) : Prop where
  unique : ∀ (i j : ℕ) first second, s.tasks[i]? = some first → s.tasks[j]? = some second →
    first.alive = true → second.alive = true → first.channelIndex = second.channelIndex → i = j
  marked : ∀ task ∈ s.tasks, task.alive = true → task.channelIndex ∈ s.scheduledPrecomputeChannels

/-- The channels with a task, selected for one, or with an active job. -/
def busy (s : Scheduler) : Finset ℕ :=
  s.inner.activeChannels ∪ (s.tick.candidates.toFinset ∪
    ((s.tasks.filter ScheduledTask.alive).map (·.channelIndex)).toFinset)

/-- The step clears no mark of a channel whose task is selected or runs, other than by the end of
the task. -/
def KeepsMarks (s : Scheduler) : SchedulerLabel → Prop
  | .task k _ => ∀ task ∈ s.tasks[k]?, task.pc.dropsMark = false
  | .dropDisabled k => ∀ disable ∈ s.disabling[k]?, disable.2 = .writing →
    disable.1 ∉ s.tick.candidates ∧
      ∀ task ∈ s.tasks, task.alive = true → task.channelIndex ≠ disable.1
  | _ => True

instance (s : Scheduler) (label : SchedulerLabel) : Decidable (s.KeepsMarks label) :=
  match label with
  | .task k _ => inferInstanceAs (Decidable (∀ task ∈ s.tasks[k]?, task.pc.dropsMark = false))
  | .dropDisabled k =>
    inferInstanceAs (Decidable (∀ disable ∈ s.disabling[k]?, disable.2 = .writing →
    disable.1 ∉ s.tick.candidates ∧
      ∀ task ∈ s.tasks, task.alive = true → task.channelIndex ≠ disable.1))
  | .count | .select _ | .spawn | .operation _ | .setConfig _ => isTrue trivial

/-- The step leaves the worker count alone. -/
def FixedWorkers (s : Scheduler) : SchedulerLabel → Prop
  | .setConfig req =>
    (Shachain2pc.setConfig s.inner req).effectiveWorkers = s.inner.effectiveWorkers
  | _ => True

instance (s : Scheduler) (label : SchedulerLabel) : Decidable (s.FixedWorkers label) :=
  match label with
  | .setConfig _ => inferInstanceAs (Decidable (_ = _))
  | .count | .select _ | .spawn | .task _ _ | .dropDisabled _ | .operation _ => isTrue trivial

/-- Tasks are exclusive, and no task of a selected channel runs, which is marked as well. -/
structure Marks (s : Scheduler) : Prop where
  exclusive : s.Exclusive
  nodup : s.tick.candidates.Nodup
  fresh : ∀ task ∈ s.tasks, task.alive = true → task.channelIndex ∉ s.tick.candidates
  selected : ∀ c ∈ s.tick.candidates, c ∈ s.scheduledPrecomputeChannels

variable {sha256 : List UInt8 → Value32} {s t : Scheduler}

/-! ## What is selected -/

/-- A kept channel is listed and has no mark. -/
theorem schedulerCandidate_eq_some {inner : Inner} {scheduled : Finset ℕ}
    {fullReconcileAfter : ℕ → Option ℕ} {now : ℕ} {entry : ℕ × ChannelRecord} {candidate : ℕ × Bool}
    (h : schedulerCandidate sha256 inner scheduled fullReconcileAfter now entry = some candidate) :
    candidate.1 = entry.1 ∧ candidate.1 ∉ scheduled := by
  unfold schedulerCandidate at h
  dsimp only at h
  repeat' split at h
  all_goals cases h
  next hmark => exact ⟨rfl, fun hscheduled => hmark (.inr hscheduled)⟩

/-- Selected channels are distinct. -/
theorem schedulerCandidates_nodup (inner : Inner) (scheduled : Finset ℕ)
    (fullReconcileAfter : ℕ → Option ℕ) (workers now : ℕ) :
    ((schedulerCandidates sha256 inner scheduled fullReconcileAfter workers now).map
      Prod.fst).Nodup := by
  have hdistinct : inner.db.channels.toList.Pairwise fun a b => a.1 ≠ b.1 :=
    ExtTreeMap.distinct_keys_toList.imp fun hne heq => hne (LawfulEqCmp.compare_eq_iff_eq.mpr heq)
  unfold schedulerCandidates
  split
  · exact List.nodup_nil
  · dsimp only
    split
    · exact List.nodup_nil
    · refine List.Nodup.sublist (List.Sublist.map _ (List.take_sublist _ _)) ?_
      rw [List.Nodup, List.pairwise_map]
      refine hdistinct.filterMap _ fun a b hne first hfirst second hsecond heq => hne ?_
      rw [← (schedulerCandidate_eq_some hfirst).1, ← (schedulerCandidate_eq_some hsecond).1, heq]

/-- Selected channels are unmarked. -/
theorem not_mem_scheduled_of_candidate {inner : Inner} {scheduled : Finset ℕ}
    {fullReconcileAfter : ℕ → Option ℕ} {workers now c : ℕ}
    (h : c ∈ (schedulerCandidates sha256 inner scheduled fullReconcileAfter workers now).map
      Prod.fst) :
    c ∉ scheduled := by
  obtain ⟨candidate, hmem, rfl⟩ := List.mem_map.mp h
  unfold schedulerCandidates at hmem
  split at hmem
  · cases hmem
  · dsimp only at hmem
    split at hmem
    · cases hmem
    · obtain ⟨entry, -, hentry⟩ := List.mem_filterMap.mp (List.mem_of_mem_take hmem)
      exact (schedulerCandidate_eq_some hentry).2

/-- No more channels are selected than there are free workers. -/
theorem schedulerCandidates_length {inner : Inner} {scheduled : Finset ℕ}
    {fullReconcileAfter : ℕ → Option ℕ} {workers now : ℕ}
    (h : schedulerCandidates sha256 inner scheduled fullReconcileAfter workers now ≠ []) :
    (inner.activeChannels ∪ scheduled).card +
      (schedulerCandidates sha256 inner scheduled fullReconcileAfter workers now).length ≤
        workers := by
  unfold schedulerCandidates at h ⊢
  split at h
  · exact absurd rfl h
  · dsimp only at h
    split at h
    · exact absurd rfl h
    · next hworkers hfree =>
      simp only [if_neg hworkers, if_neg hfree]
      have hlength := List.length_take_le (workers - (inner.activeChannels ∪ scheduled).card)
        (inner.db.channels.toList.filterMap
          (schedulerCandidate sha256 inner scheduled fullReconcileAfter now))
      omega

/-! ## One step -/

/-- Before any task is spawned. -/
theorem Marks.start (inner : Inner) : (start inner).Marks :=
  ⟨⟨fun _ _ _ _ h => absurd h (by simp [Scheduler.start]),
    fun _ h => absurd h (by simp [Scheduler.start])⟩,
    List.nodup_nil, fun _ h => absurd h (by simp [Scheduler.start]),
    fun _ h => absurd h List.not_mem_nil⟩

/-- The loop selects channels without a task. -/
theorem Marks.select (h : s.Marks) (workers now : ℕ) : (s.select sha256 workers now).Marks := by
  have hsubset : s.scheduledPrecomputeChannels ⊆
      (s.select sha256 workers now).scheduledPrecomputeChannels := Finset.subset_union_left
  refine ⟨⟨h.exclusive.unique, fun task htask halive =>
    hsubset (h.exclusive.marked task htask halive)⟩,
    schedulerCandidates_nodup _ _ _ _ _, fun task htask halive hmem => ?_, fun c hc => ?_⟩
  · exact not_mem_scheduled_of_candidate hmem (h.exclusive.marked task htask halive)
  · exact Finset.mem_union_right _ (List.mem_toFinset.mpr hc)

/-- The loop spawns the tasks of the selected channels. -/
theorem Marks.spawn (h : s.Marks) {candidates : List ℕ} (htick : s.tick = .selected candidates) :
    Marks { s with
      tick := .idle
      tasks := s.tasks ++ candidates.map fun c => ⟨c, .peerFrontier⟩ } := by
  have hcandidates : s.tick.candidates = candidates := by rw [htick]; rfl
  have hnodup := h.nodup
  have hfresh := h.fresh
  rw [hcandidates] at hnodup hfresh
  -- The tasks are the old ones, and the new ones by their place among the candidates.
  have hcases {i : ℕ} {task : ScheduledTask}
      (hi : (s.tasks ++ candidates.map fun c => (⟨c, .peerFrontier⟩ : ScheduledTask))[i]? =
        some task) :
      s.tasks[i]? = some task ∨
        s.tasks.length ≤ i ∧ candidates[i - s.tasks.length]? = some task.channelIndex := by
    rw [List.getElem?_append] at hi
    split at hi
    · exact .inl hi
    · next hlt =>
      rw [List.getElem?_map] at hi
      obtain ⟨c, hc, rfl⟩ := Option.map_eq_some_iff.mp hi
      exact .inr ⟨Nat.le_of_not_lt hlt, hc⟩
  refine ⟨⟨fun i j first second hi hj hfirst hsecond heq => ?_, fun task htask halive => ?_⟩,
    List.nodup_nil, fun _ _ _ => List.not_mem_nil, fun _ hc => absurd hc List.not_mem_nil⟩
  · rcases hcases hi with hi | ⟨hilen, hi⟩ <;> rcases hcases hj with hj | ⟨hjlen, hj⟩
    · exact h.exclusive.unique i j first second hi hj hfirst hsecond heq
    · have hmem := List.mem_of_getElem? hj
      exact absurd (heq ▸ hmem) (hfresh first (List.mem_of_getElem? hi) hfirst)
    · have hmem := List.mem_of_getElem? hi
      exact absurd (heq ▸ hmem) (hfresh second (List.mem_of_getElem? hj) hsecond)
    · have hlt := (List.getElem?_eq_some_iff.mp hi).1
      have hsame := (List.getElem?_inj hlt hnodup).mp (hi.trans (heq ▸ hj.symm))
      omega
  · rcases List.mem_append.mp htask with htask | htask
    · exact h.exclusive.marked task htask halive
    · obtain ⟨c, hc, rfl⟩ := List.mem_map.mp htask
      exact h.selected c (hcandidates.symm ▸ hc)

/-- A step which spawns nothing, and clears only marks of channels without a task, keeps the
marks. -/
theorem Marks.frame (h : s.Marks) (htick : t.tick.candidates = s.tick.candidates)
    (htasks : ∀ (i : ℕ) task', t.tasks[i]? = some task' → ∃ task, s.tasks[i]? = some task ∧
      task'.channelIndex = task.channelIndex ∧ (task'.alive = true → task.alive = true))
    (hmarks : ∀ c ∈ s.scheduledPrecomputeChannels, c ∉ t.scheduledPrecomputeChannels →
      c ∉ s.tick.candidates ∧ ∀ task ∈ t.tasks, task.alive = true → task.channelIndex ≠ c) :
    t.Marks := by
  have hold {task' : ScheduledTask} (hmem : task' ∈ t.tasks) (halive : task'.alive = true) :
      ∃ task ∈ s.tasks, task.alive = true ∧ task'.channelIndex = task.channelIndex := by
    obtain ⟨i, hi⟩ := List.mem_iff_getElem?.mp hmem
    obtain ⟨task, htask, hchannel, halive'⟩ := htasks i task' hi
    exact ⟨task, List.mem_of_getElem? htask, halive' halive, hchannel⟩
  refine ⟨⟨fun i j first second hi hj hfirst hsecond heq => ?_, fun task htask halive => ?_⟩,
    htick.symm ▸ h.nodup, fun task htask halive => ?_, fun c hc => ?_⟩
  · obtain ⟨first', hi', hfirstc, hfirsta⟩ := htasks i first hi
    obtain ⟨second', hj', hsecondc, hseconda⟩ := htasks j second hj
    exact h.exclusive.unique i j first' second' hi' hj' (hfirsta hfirst) (hseconda hsecond)
      (hfirstc ▸ hsecondc ▸ heq)
  · obtain ⟨old, hmem, holdalive, hchannel⟩ := hold htask halive
    by_contra hunmarked
    have hmarked := hchannel ▸ h.exclusive.marked old hmem holdalive
    exact (hmarks _ hmarked hunmarked).2 task htask halive rfl
  · obtain ⟨old, hmem, holdalive, hchannel⟩ := hold htask halive
    rw [htick, hchannel]
    exact h.fresh old hmem holdalive
  · rw [htick] at hc
    by_contra hunmarked
    exact (hmarks c (h.selected c hc) hunmarked).1 hc

/-- Moving a task keeps the channels of the tasks. -/
theorem getElem?_setTask {k : ℕ} {task : ScheduledTask} (hk : s.tasks[k]? = some task)
    (halive : task.alive = true) (pc : SchedulePc) (i : ℕ) (task' : ScheduledTask)
    (hi : (s.setTask k pc).tasks[i]? = some task') : ∃ old, s.tasks[i]? = some old ∧
      task'.channelIndex = old.channelIndex ∧ (task'.alive = true → old.alive = true) := by
  rw [setTask, List.getElem?_modify] at hi
  obtain ⟨old, hold, heq⟩ := Option.map_eq_some_iff.mp hi
  refine ⟨old, hold, ?_⟩
  split at heq
  · next hki =>
    subst hki
    cases heq
    rw [hk] at hold
    cases hold
    exact ⟨rfl, fun _ => halive⟩
  · cases heq
    exact ⟨rfl, id⟩

/-- A task which runs and does not drop its session keeps the marks. -/
theorem Marks.stepTask (h : s.Marks) {k : ℕ} {task : ScheduledTask} (hk : s.tasks[k]? = some task)
    {event : ScheduleEvent} (hkeeps : task.pc.dropsMark = false)
    (hstep : s.stepTask sha256 k task event = some t) : t.Marks := by
  unfold Scheduler.stepTask at hstep
  split at hstep
  · next hpc =>
    rw [hpc] at hkeeps
    cases hkeeps
  · next hpc =>
    cases hstep
    exact h.frame rfl (getElem?_setTask hk (by simp [ScheduledTask.alive, hpc]) _)
      fun c hc hc' => absurd hc hc'
  · next hpc =>
    have halive : task.alive = true := by simp [ScheduledTask.alive, hpc]
    cases hstep
    refine h.frame rfl (getElem?_setTask hk halive _) fun c hc hc' => ?_
    -- The task which ends is the only one of its channel.
    have hchannel : c = task.channelIndex := by
      by_contra hne
      exact hc' (Finset.mem_erase.mpr ⟨hne, hc⟩)
    subst hchannel
    refine ⟨h.fresh task (List.mem_of_getElem? hk) halive, fun other hmem hother heq => ?_⟩
    obtain ⟨i, hi⟩ := List.mem_iff_getElem?.mp hmem
    obtain ⟨old, hold, hsame, holdalive⟩ := getElem?_setTask hk halive .done i other hi
    have hik : i = k := h.exclusive.unique i k old task hold hk (holdalive hother) halive
      (hsame.symm.trans heq)
    subst hik
    change (s.setTask i .done).tasks[i]? = some other at hi
    rw [setTask, List.getElem?_modify_eq, hk] at hi
    cases hi
    simp [ScheduledTask.alive] at hother
  · obtain ⟨⟨inner, pc⟩, hadvance, rfl⟩ := Option.map_eq_some_iff.mp hstep
    have halive : task.alive = true := by
      simp [ScheduledTask.alive, (SchedulePc.advance_spec hadvance).ne_done]
    exact h.frame rfl (getElem?_setTask hk halive _) fun c hc hc' => absurd hc hc'

/-- Every step which keeps the marks of running tasks keeps the invariant. -/
theorem Marks.step (h : s.Marks) {label : SchedulerLabel} (hkeeps : s.KeepsMarks label)
    (hstep : s.step sha256 label = some t) : t.Marks := by
  have hsame (i : ℕ) (task : ScheduledTask) (hi : s.tasks[i]? = some task) :
      ∃ old, s.tasks[i]? = some old ∧ task.channelIndex = old.channelIndex ∧
        (task.alive = true → old.alive = true) := ⟨task, hi, rfl, id⟩
  cases label with
  | count =>
    simp only [Scheduler.step] at hstep
    split at hstep
    · next htick =>
      split at hstep
      · cases hstep
        exact h.frame (by rw [htick]; rfl) hsame fun c hc hc' => absurd hc hc'
      · cases hstep
        exact h
    · cases hstep
  | select now =>
    simp only [Scheduler.step] at hstep
    split at hstep
    · cases hstep
      exact h.select _ now
    · cases hstep
  | spawn =>
    simp only [Scheduler.step] at hstep
    split at hstep
    · next htick =>
      cases hstep
      exact h.spawn htick
    · cases hstep
  | task k event =>
    obtain ⟨task, hk, hstep⟩ := Option.bind_eq_some_iff.mp hstep
    exact h.stepTask hk (hkeeps task hk) hstep
  | dropDisabled k =>
    obtain ⟨⟨c, pc⟩, hk, hstep⟩ := Option.bind_eq_some_iff.mp hstep
    cases pc with
    | writing =>
      cases hstep
      refine h.frame rfl hsame fun c' hc hc' => ?_
      have hchannel : c' = c := by
        by_contra hne
        exact hc' (Finset.mem_erase.mpr ⟨hne, hc⟩)
      exact hchannel ▸ hkeeps (c, .writing) hk rfl
    | dropDeadline =>
      cases hstep
      exact h.frame rfl hsame fun c' hc hc' => absurd hc hc'
    | done => cases hstep
  | operation operation =>
    simp only [Scheduler.step] at hstep
    split at hstep
    · cases hstep
      exact h
    · cases hstep
      exact h.frame rfl hsame fun c' hc hc' => absurd hc hc'
  | setConfig req =>
    cases hstep
    exact h.frame rfl hsame fun c' hc hc' => absurd hc hc'

/-- In a run of steps which keep the marks, tasks stay exclusive. -/
theorem marks_run {inner : Inner} {labels : List SchedulerLabel}
    (hrun : run (step sha256) (start inner) labels = some t)
    (halong : Along (step sha256) KeepsMarks (start inner) labels) : t.Marks :=
  Runs.invariant (fun _ _ _ h hkeeps hstep => h.step hkeeps hstep) (.start inner) hrun halong

/-! ## The worker count -/

/-- The worker count which the loop read is the present one. -/
def Counted (s : Scheduler) : Prop :=
  ∀ workers, s.tick = .counted workers → workers = s.inner.effectiveWorkers

/-- Every step which leaves the worker count alone keeps what the loop read. -/
theorem Counted.step (h : s.Counted) {label : SchedulerLabel} (hfixed : s.FixedWorkers label)
    (hstep : s.step sha256 label = some t) : t.Counted := by
  have hcfg {inner : Inner} (heq : inner.cfg = s.inner.cfg) :
      inner.effectiveWorkers = s.inner.effectiveWorkers := by
    rw [Inner.effectiveWorkers, heq, Inner.effectiveWorkers]
  cases label with
  | count =>
    simp only [Scheduler.step] at hstep
    split at hstep
    · split at hstep
      · cases hstep
        intro workers hworkers
        cases hworkers
        rfl
      · cases hstep
        exact h
    · cases hstep
  | select now =>
    simp only [Scheduler.step] at hstep
    split at hstep
    · cases hstep
      exact fun workers hworkers => by simp [Scheduler.select] at hworkers
    · cases hstep
  | spawn =>
    simp only [Scheduler.step] at hstep
    split at hstep
    · cases hstep
      exact fun workers hworkers => by simp at hworkers
    · cases hstep
  | task k event =>
    obtain ⟨task, -, hstep⟩ := Option.bind_eq_some_iff.mp hstep
    unfold Scheduler.stepTask at hstep
    split at hstep
    · cases hstep
      exact h
    · cases hstep
      exact h
    · cases hstep
      exact h
    · obtain ⟨⟨inner, pc⟩, hadvance, rfl⟩ := Option.map_eq_some_iff.mp hstep
      refine fun workers hworkers => (h workers hworkers).trans (hcfg ?_).symm
      rcases (SchedulePc.advance_spec hadvance).memory with hextends | ⟨answer, -, rfl⟩
      · exact hextends.cfg
      · exact reconcileWithPeer_cfg _ _ _
  | dropDisabled k =>
    obtain ⟨⟨c, pc⟩, -, hstep⟩ := Option.bind_eq_some_iff.mp hstep
    cases pc <;> cases hstep
    · exact h
    · exact h
  | operation operation =>
    simp only [Scheduler.step] at hstep
    split at hstep
    · cases hstep
      exact h
    · next hperform =>
      cases hstep
      exact fun workers hworkers =>
        (h workers hworkers).trans (hcfg (Inner.perform_cfg hperform)).symm
  | setConfig req =>
    cases hstep
    exact fun workers hworkers => (h workers hworkers).trans hfixed.symm

/-- Right after channels are selected, no more channels are busy than there are workers. -/
theorem Marks.busy_select (h : s.Marks) {workers now : ℕ}
    (hselected : (s.select sha256 workers now).tick.candidates ≠ []) :
    (s.select sha256 workers now).busy.card ≤ workers := by
  have hne : schedulerCandidates sha256 s.inner s.scheduledPrecomputeChannels s.fullReconcileAfter
      workers now ≠ [] := fun hnil => hselected (by simp [Scheduler.select, Tick.candidates, hnil])
  have hlength := schedulerCandidates_length hne
  have hsubset : (s.select sha256 workers now).busy ⊆
      (s.inner.activeChannels ∪ s.scheduledPrecomputeChannels) ∪
        ((schedulerCandidates sha256 s.inner s.scheduledPrecomputeChannels s.fullReconcileAfter
          workers now).map Prod.fst).toFinset := by
    intro c hc
    simp only [busy, Finset.mem_union] at hc ⊢
    rcases hc with hactive | hselected | htask
    · exact .inl (.inl hactive)
    · exact .inr hselected
    · obtain ⟨task, hmem, rfl⟩ := List.mem_map.mp (List.mem_toFinset.mp htask)
      obtain ⟨hmem, halive⟩ := List.mem_filter.mp hmem
      exact .inl (.inr (h.exclusive.marked task hmem halive))
  calc (s.select sha256 workers now).busy.card
      ≤ _ := Finset.card_le_card hsubset
    _ ≤ _ := Finset.card_union_le _ _
    _ ≤ (s.inner.activeChannels ∪ s.scheduledPrecomputeChannels).card +
        (schedulerCandidates sha256 s.inner s.scheduledPrecomputeChannels s.fullReconcileAfter
          workers now).length := by
      have hcard := List.toFinset_card_le ((schedulerCandidates sha256 s.inner
        s.scheduledPrecomputeChannels s.fullReconcileAfter workers now).map Prod.fst)
      rw [List.length_map] at hcard
      exact Nat.add_le_add_left hcard _
    _ ≤ workers := hlength

/-- While no step clears the mark of a channel whose task is selected or runs, other than by its
end, every channel has at most one task and its mark; with a fixed worker count, right after the
loop selected channels no more channels have a task or an active job than there are workers. -/
theorem scheduler_exclusive {inner : Inner} {labels : List SchedulerLabel}
    (hrun : run (step sha256) (start inner) labels = some t)
    (halong : Along (step sha256) KeepsMarks (start inner) labels) :
    t.Exclusive ∧ (Along (step sha256) FixedWorkers (start inner) labels → ∀ now u,
      t.step sha256 (.select now) = some u → u.tick.candidates ≠ [] →
        u.busy.card ≤ u.inner.effectiveWorkers) := by
  have hmarks := marks_run hrun halong
  refine ⟨hmarks.exclusive, fun hfixed now u hselect hne => ?_⟩
  have hcounted : t.Counted :=
    Runs.invariant (fun _ _ _ h hfixed hstep => Counted.step h hfixed hstep)
    (fun workers hworkers => by simp [start] at hworkers) hrun hfixed
  simp only [Scheduler.step] at hselect
  split at hselect
  · next workers htick =>
    cases hselect
    exact (hmarks.busy_select hne).trans (hcounted workers htick).le
  · cases hselect

/-- A channel is enabled, selected, and its task spawned. -/
def oneTask : List SchedulerLabel :=
  [.operation (.enableChannel ⟨7, 1, 0, 0⟩), .count, .select 0, .spawn]

/-- The task finds no peer and ends, and the channel is selected again. -/
theorem scheduler_exclusive_again :
    ∃ t, run (step fun _ => ⟨.replicate 32 0⟩) (start oneIndexInner)
        (oneTask ++ [.task 0 (.frontier none), .task 0 .proceed, .count]) = some t ∧
      t.Exclusive ∧ ∀ now u, t.step (fun _ => ⟨.replicate 32 0⟩) (.select now) = some u →
        u.tick.candidates ≠ [] → u.busy.card ≤ u.inner.effectiveWorkers := by
  have hsome : (run (step fun _ => ⟨.replicate 32 0⟩) (start oneIndexInner)
    (oneTask ++ [.task 0 (.frontier none), .task 0 .proceed, .count])).isSome := by decide +kernel
  obtain ⟨t, hrun⟩ := Option.isSome_iff_exists.mp hsome
  obtain ⟨hexclusive, hbusy⟩ := scheduler_exclusive hrun (by decide +kernel)
  exact ⟨t, hrun, hexclusive, hbusy (by decide +kernel)⟩

/-- The channel is disabled while its task waits for the peer, which clears the mark, and enabled
again: the loop spawns a second task. -/
theorem scheduler_not_exclusive :
    ∃ t, run (step fun _ => ⟨.replicate 32 0⟩) (start oneIndexInner) (oneTask ++
        [.operation (.disableChannel 7), .dropDisabled 0, .dropDisabled 0] ++ oneTask) = some t ∧
      ¬t.Exclusive := by
  have htasks : (run (step fun _ => ⟨.replicate 32 0⟩) (start oneIndexInner) (oneTask ++
      [.operation (.disableChannel 7), .dropDisabled 0, .dropDisabled 0] ++ oneTask)).any
      (·.tasks = [⟨7, .peerFrontier⟩, ⟨7, .peerFrontier⟩]) = true := by decide +kernel
  obtain ⟨t, hrun, htwo⟩ := (Option.any_eq_true _ _).mp htasks
  have htwo : t.tasks = [⟨7, .peerFrontier⟩, ⟨7, .peerFrontier⟩] := of_decide_eq_true htwo
  refine ⟨t, hrun, fun hexclusive => ?_⟩
  have hsame := hexclusive.unique 0 1 ⟨7, .peerFrontier⟩ ⟨7, .peerFrontier⟩ (by rw [htwo]; rfl)
    (by rw [htwo]; rfl) rfl rfl rfl
  cases hsame

end Scheduler

end Shachain2pc
