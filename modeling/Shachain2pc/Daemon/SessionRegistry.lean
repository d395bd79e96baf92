import Shachain2pc.Daemon.SessionTasks
import Mathlib.Data.List.Nodup
import Mathlib.Data.List.Perm.Basic

/-!
# The session registry

The registry is right as long as a registration is not suspended once it spawned a session,
no session is registered or set up for a channel which is disabled, no session is replaced
or dropped while a call holds it, and no command fails. A session which ends removes the
entry of its channel, whichever session that is.
-/

namespace Shachain2pc

open Std
open Runs (run Along)

/-- A map that gives every value to one key has as many entries as values. -/
theorem size_eq_length_of_injective {K V : Type} [Ord K] [TransOrd K] [LawfulEqOrd K]
    {m : ExtTreeMap K V} {values : List V} (hnodup : values.Nodup)
    (hmem : ∀ value, value ∈ values ↔ ∃ key : K, m[key]? = some value)
    (hinj : ∀ (key key' : K) (value : V), m[key]? = some value → m[key']? =
      some value → key = key') :
    m.size = values.length := by
  have hkeys : ∀ key ∈ m.keys, ∃ value, m[key]? = some value := by
    intro key hkey
    exact ⟨_, ExtTreeMap.getElem?_eq_some_getElem (ExtTreeMap.mem_keys.mp hkey)⟩
  have hnodup' : (m.keys.filterMap fun key => m[key]?).Nodup := by
    refine List.Nodup.filterMap ?_ ExtTreeMap.nodup_keys
    intro key key' value hkey hkey'
    exact hinj key key' value hkey hkey'
  have hperm : (m.keys.filterMap fun key => m[key]?).Perm values := by
    refine (List.perm_ext_iff_of_nodup hnodup' hnodup).mpr fun value => ?_
    rw [hmem, List.mem_filterMap]
    constructor
    · rintro ⟨key, -, hkey⟩
      exact ⟨key, hkey⟩
    · rintro ⟨key, hkey⟩
      refine ⟨key, ExtTreeMap.mem_keys.mpr ?_, hkey⟩
      by_contra habsent
      rw [ExtTreeMap.getElem?_eq_none habsent] at hkey
      cases hkey
  rw [← hperm.length_eq, ← ExtTreeMap.length_keys]
  clear hperm hnodup' hmem hinj
  generalize m.keys = keys at hkeys ⊢
  induction keys with
  | nil => rfl
  | cons key rest ih =>
    obtain ⟨value, hvalue⟩ := hkeys key List.mem_cons_self
    rw [List.filterMap_cons_some hvalue, List.length_cons, List.length_cons,
      ih fun k hk => hkeys k (List.mem_cons_of_mem _ hk)]

namespace Sessions

variable {Stream : Type} {s t : Sessions Stream}

/-- An outgoing session of a channel whose task did not fail a command. -/
def live (s : Sessions Stream) (session c : ℕ) : Bool :=
  s.outgoing[session]?.any fun o => o.channelIndex == c && !o.failed

/-- A call holds a session of the channel whose task did not fail a command. -/
def heldLive (s : Sessions Stream) (c : ℕ) : Bool :=
  s.calls.any fun call => call.pc.session.any fun session => s.live session c

/-- A call of `disable_channel` is between its two removals, and the channel was not enabled
since. -/
def closing (s : Sessions Stream) (c : ℕ) : Bool :=
  s.disabling.any fun d => d.channelIndex == c && d.pc == .dropIncoming && !d.superseded

/-- The stream completes a session. -/
def completes (s : Sessions Stream) (descriptor : GrpcJobDescriptor) (channel : ℕ)
    (stream : Stream) :
    Bool :=
  match (s.grpcJobs.register descriptor channel stream).2 with
  | .ok (some _) => true
  | _ => false

/-- When the registry is right: a registration which spawns a session is not suspended, and its
channel is not disabled; a set-up session finds its channel neither disabled nor held by a call; an
entry is not removed while a call holds its session; and no command fails. -/
def Orderly (s : Sessions Stream) : SessionLabel Stream → Prop
  | .accept descriptor channel stream suspended => s.completes descriptor channel stream = true →
    suspended = false ∧ s.quiet descriptor.channelIndex = false
  | .setUp k => ∀ call ∈ s.calls[k]?, s.quiet call.channelIndex = false ∧
    s.closing call.channelIndex = false ∧ s.heldLive call.channelIndex = false
  | .failCommand _ => False
  | .dropOutgoing k => ∀ d ∈ s.disabling[k]?, s.heldLive d.channelIndex = false
  | _ => True

/-- What holds along orderly runs. -/
structure Registry (s : Sessions Stream) : Prop where
  idle : s.registering = none
  incoming : ∀ task c, s.incomingAlive task c = true ↔ s.incomingPrecomputeSessions[c]? = some task
  entered : ∀ session c, s.precomputeSessions[c]? = some session → s.live session c = true
  held : ∀ session c, s.held session = true → s.live session c = true →
    s.precomputeSessions[c]? = some session
  calm : ∀ call ∈ s.calls, ∀ session,
    call.pc ≠ .dropOutgoing session ∧ call.pc ≠ .dropIncoming session
  quiet : ∀ c, s.quiet c = true →
    s.incomingPrecomputeSessions[c]? = none ∧ s.precomputeSessions[c]? = none
  closing : ∀ c, s.closing c = true → s.precomputeSessions[c]? = none

/-- The outgoing sessions that are alive are those with an entry. -/
theorem Registry.outgoing (h : s.Registry) (session c : ℕ) :
    s.outgoingAlive session c = true ↔ s.precomputeSessions[c]? = some session := by
  change (s.live session c && (s.precomputeSessions[c]? == some session || s.held session)) = true ↔
    _
  simp only [Bool.and_eq_true, Bool.or_eq_true, beq_iff_eq]
  constructor
  · rintro ⟨hlive, hentry | hheld⟩
    · exact hentry
    · exact h.held session c hheld hlive
  · intro hentry
    exact ⟨h.entered session c hentry, .inl hentry⟩

/-- The channel of an alive incoming session is that of its descriptor. -/
theorem incomingAlive_inj {task c c' : ℕ} (h : s.incomingAlive task c = true)
    (h' : s.incomingAlive task c' = true) : c = c' := by
  simp only [incomingAlive, Option.any_eq_true, Bool.and_eq_true, beq_iff_eq] at h h'
  obtain ⟨t, ht, hc, -⟩ := h
  obtain ⟨t', ht', hc', -⟩ := h'
  obtain rfl := Option.some.inj (ht.symm.trans ht')
  exact hc.symm.trans hc'

/-- A live outgoing session has one channel. -/
theorem live_inj {session c c' : ℕ} (h : s.live session c = true) (h' : s.live session c' = true) :
    c = c' := by
  simp only [live, Option.any_eq_true, Bool.and_eq_true, beq_iff_eq] at h h'
  obtain ⟨o, ho, hc, -⟩ := h
  obtain ⟨o', ho', hc', -⟩ := h'
  obtain rfl := Option.some.inj (ho.symm.trans ho')
  exact hc.symm.trans hc'

/-- The alive incoming sessions are those with an entry. -/
theorem Registry.mem_aliveTasks (h : s.Registry) (task : ℕ) :
    task ∈ s.aliveTasks ↔ ∃ c : ℕ, s.incomingPrecomputeSessions[c]? = some task := by
  have halive :
      (s.tasks[task]?.any (·.phase.alive)) = true ↔ ∃ c, s.incomingAlive task c = true := by
    simp only [incomingAlive, Option.any_eq_true, Bool.and_eq_true, beq_iff_eq]
    constructor
    · rintro ⟨t, ht, hphase⟩
      exact ⟨_, t, ht, rfl, hphase⟩
    · rintro ⟨c, t, ht, -, hphase⟩
      exact ⟨t, ht, hphase⟩
  rw [aliveTasks, List.mem_filter, halive, List.mem_range]
  simp only [h.incoming, and_iff_right_iff_imp]
  rintro ⟨c, hc⟩
  have halive := (h.incoming task c).mpr hc
  simp only [incomingAlive, Option.any_eq_true] at halive
  obtain ⟨t, ht, -⟩ := halive
  exact (List.getElem?_eq_some_iff.mp ht).1

/-- The alive outgoing sessions are those with an entry. -/
theorem Registry.mem_aliveSessions (h : s.Registry) (session : ℕ) :
    session ∈ s.aliveSessions ↔ ∃ c : ℕ, s.precomputeSessions[c]? = some session := by
  rw [aliveSessions, List.mem_filter, List.mem_range]
  constructor
  · rintro ⟨-, halive⟩
    obtain ⟨o, -, ho⟩ := (Option.any_eq_true _ _).mp halive
    exact ⟨o.channelIndex, (h.outgoing _ _).mp ho⟩
  · rintro ⟨c, hc⟩
    have hlive := h.entered session c hc
    simp only [live, Option.any_eq_true, Bool.and_eq_true, beq_iff_eq] at hlive
    obtain ⟨o, ho, rfl, -⟩ := hlive
    refine ⟨(List.getElem?_eq_some_iff.mp ho).1, (Option.any_eq_true _ _).mpr ⟨o, ho, ?_⟩⟩
    exact (h.outgoing session o.channelIndex).mpr hc

/-- A registry of this kind is right. -/
theorem Registry.tracked (h : s.Registry) : s.Tracked where
  incoming := h.incoming
  outgoing := h.outgoing
  count := by
    have hsessions : s.precomputeSessions.size = s.aliveSessions.length :=
      size_eq_length_of_injective (List.nodup_range.filter _) h.mem_aliveSessions
        fun c c' session hc hc' => live_inj (h.entered session c hc) (h.entered session c' hc')
    have htasks : s.incomingPrecomputeSessions.size = s.aliveTasks.length :=
      size_eq_length_of_injective (List.nodup_range.filter _) h.mem_aliveTasks
        fun c c' task hc hc' =>
          incomingAlive_inj ((h.incoming task c).mpr hc) ((h.incoming task c').mpr hc')
    rw [liveSessionCount, hsessions, htasks]
  quiet := by
    intro c hc
    obtain ⟨hincoming, houtgoing⟩ := h.quiet c hc
    constructor
    · intro task
      rw [Bool.eq_false_iff]
      intro halive
      rw [(h.incoming task c).mp halive] at hincoming
      cases hincoming
    · intro session
      rw [Bool.eq_false_iff]
      intro halive
      rw [(h.outgoing session c).mp halive] at houtgoing
      cases houtgoing

/-! ## Updates -/

/-- A moved task keeps its channel, and is alive when it was. -/
theorem incomingAlive_setPhase {task : ℕ} {t : IncomingTask} (ht : s.tasks[task]? = some t)
    {phase : IncomingPhase} (hphase : phase.alive = t.phase.alive) (task' c : ℕ) :
    (s.setPhase task phase).incomingAlive task' c = s.incomingAlive task' c := by
  by_cases htask : task = task'
  · subst htask
    simp [incomingAlive, Sessions.setPhase, ht, hphase]
  · simp [incomingAlive, Sessions.setPhase, htask]

/-- A stopped task is not alive. -/
theorem incomingAlive_stop (task : ℕ) {f : IncomingTask → IncomingTask}
    (hf : ∀ t, (f t).phase.alive = false) (task' c : ℕ) :
    incomingAlive { s with tasks := s.tasks.modify task f } task' c = true ↔
      s.incomingAlive task' c = true ∧ task ≠ task' := by
  by_cases htask : task = task'
  · subst htask
    cases ht : s.tasks[task]? <;> simp [incomingAlive, ht, hf]
  · simp [incomingAlive, htask]

/-- Entries stay right when the entry of a channel is removed with the task it names. -/
theorem Registry.incoming_erase (h : s.Registry) (c task' c' : ℕ) :
    (s.incomingAlive task' c' = true ∧ s.incomingPrecomputeSessions[c]? ≠ some task') ↔
      (s.incomingPrecomputeSessions.erase c)[c']? = some task' := by
  rw [ExtTreeMap.getElem?_erase, h.incoming]
  by_cases hc : c = c'
  · subst hc
    simp
  · simp only [Std.compare_eq_iff_eq, hc, ↓reduceIte, and_iff_left_iff_imp]
    intro hentry hother
    exact hc (incomingAlive_inj ((h.incoming _ _).mpr hother) ((h.incoming _ _).mpr hentry))

/-- A map without an entry has none after a removal. -/
theorem getElem?_erase_of_none {m : ExtTreeMap ℕ ℕ} {c c' : ℕ} (h : m[c']? = none) :
    (m.erase c)[c']? = none := by
  rw [ExtTreeMap.getElem?_erase, h, ite_self]

/-- Moving a task that stays alive changes no entry. -/
theorem Registry.setPhase (h : s.Registry) {task : ℕ} {t : IncomingTask}
    (ht : s.tasks[task]? = some t) {phase : IncomingPhase} (hphase : phase.alive = t.phase.alive) :
    (s.setPhase task phase).Registry := by
  refine ⟨h.idle, fun task' c => ?_, h.entered, h.held, h.calm, h.quiet, h.closing⟩
  rw [incomingAlive_setPhase ht hphase]
  exact h.incoming task' c

/-- A task which ends removes its own entry. -/
theorem Registry.unregister (h : s.Registry) {task : ℕ} {t : IncomingTask}
    (ht : s.tasks[task]? = some t) (hphase : t.phase = .returned) :
    Registry { s.setPhase task .finished with
      incomingPrecomputeSessions :=
        s.incomingPrecomputeSessions.erase t.descriptor.channelIndex } := by
  have halive : s.incomingAlive task t.descriptor.channelIndex = true := by
    simp [incomingAlive, ht, hphase, IncomingPhase.alive]
  have hentry := (h.incoming _ _).mp halive
  refine ⟨h.idle, fun task' c => ?_, h.entered, h.held, h.calm, fun c hc => ?_, h.closing⟩
  · refine (incomingAlive_stop task (f := fun t => { t with phase := .finished })
      (fun _ => rfl) _ _).trans
      ?_
    rw [← h.incoming_erase, hentry]
    simp only [ne_eq, Option.some.injEq]
  · exact ⟨getElem?_erase_of_none (h.quiet c hc).1, (h.quiet c hc).2⟩

/-- The entry of an incoming session is dropped, and the session with it. -/
theorem Registry.dropIncoming (h : s.Registry) (c : ℕ) :
    (s.dropIncoming c).Registry ∧ (s.dropIncoming c).incomingPrecomputeSessions[c]? = none := by
  have hquiet : ∀ c', s.quiet c' = true → (s.incomingPrecomputeSessions.erase c)[c']? = none ∧
      s.precomputeSessions[c']? = none := fun c' hc' =>
    ⟨getElem?_erase_of_none (h.quiet c' hc').1, (h.quiet c' hc').2⟩
  unfold Sessions.dropIncoming
  cases hentry : s.incomingPrecomputeSessions[c]? with
  | none =>
    refine ⟨⟨h.idle, fun task' c' => ?_, h.entered, h.held, h.calm, hquiet, h.closing⟩, by simp⟩
    have herase := h.incoming_erase c task' c'
    rw [hentry, and_iff_left (by simp)] at herase
    exact herase
  | some task =>
    refine ⟨⟨h.idle, fun task' c' => ?_, h.entered, h.held, h.calm, hquiet,
      h.closing⟩, by simp [abort]⟩
    refine (incomingAlive_stop (s := s) task
      (f := fun t => { t with phase := if t.phase.alive then .aborted else t.phase }) ?_ _ _).trans
        ?_
    · intro t
      cases t.phase <;> rfl
    · have herase := h.incoming_erase c task' c'
      rw [hentry, ne_eq, Option.some.injEq] at herase
      exact herase

/-- An item at a position of an extended list is the new one or an old one. -/
theorem any_getElem?_concat {A : Type} (xs : List A) (x : A) (p : A → Bool) (i : ℕ) :
    (xs ++ [x])[i]?.any p = true ↔ (i = xs.length ∧ p x = true) ∨ xs[i]?.any p = true := by
  rw [List.getElem?_append]
  by_cases hold : i < xs.length
  · simp [hold, hold.ne]
  · by_cases hnew : i = xs.length
    · subst hnew
      simp
    · have hpast : [x][i - xs.length]? = none := List.getElem?_eq_none (by simp; omega)
      simp [hold, hnew, hpast]

/-- A spawned task is alive, under its channel. -/
theorem incomingAlive_push (descriptor : GrpcJobDescriptor) (task c : ℕ) :
    incomingAlive { s with tasks := s.tasks ++ [⟨descriptor, .starting⟩] } task c = true ↔
      (task = s.tasks.length ∧ descriptor.channelIndex = c) ∨ s.incomingAlive task c = true := by
  refine (any_getElem?_concat s.tasks _ _ task).trans ?_
  simp [IncomingPhase.alive, incomingAlive]

/-- A session spawned, entered, and put in the place of an older one without a suspension. -/
theorem Registry.spawn (h : s.Registry) {job : ReadyJob Stream}
    (hquiet : s.quiet job.descriptor.channelIndex = false)
    (hstep : (s.spawn job).enter.bind abortOld = some t) : t.Registry := by
  obtain ⟨mid, hmid, hstep⟩ := Option.bind_eq_some_iff.mp hstep
  simp only [Sessions.enter, Sessions.spawn, List.getElem?_concat_length, Option.map_some,
    Option.some.injEq] at hmid
  subst hmid
  simp only [abortOld, Option.some.injEq] at hstep
  subst hstep
  have hnew : ∀ task c, s.incomingAlive task c = true → task ≠ s.tasks.length := by
    rintro task c halive rfl
    simp [incomingAlive] at halive
  have hentries (task c : ℕ) :
      ((task = s.tasks.length ∧ job.descriptor.channelIndex = c) ∨ s.incomingAlive task c = true) ∧
          s.incomingPrecomputeSessions[job.descriptor.channelIndex]? ≠ some task ↔
        (s.incomingPrecomputeSessions.insert job.descriptor.channelIndex s.tasks.length)[c]? =
          some task := by
    rw [ExtTreeMap.getElem?_insert]
    by_cases hc : job.descriptor.channelIndex = c
    · subst hc
      simp only [Std.compare_eq_iff_eq, ↓reduceIte, Option.some.injEq, and_true]
      rw [h.incoming]
      constructor
      · rintro ⟨rfl | hentry, hother⟩
        · rfl
        · exact absurd hentry hother
      · rintro rfl
        exact ⟨.inl rfl, fun hentry => hnew _ _ ((h.incoming _ _).mpr hentry) rfl⟩
    · simp only [Std.compare_eq_iff_eq, hc, ↓reduceIte, and_false, false_or, h.incoming]
      refine and_iff_left_of_imp fun hentry hother => hc ?_
      exact incomingAlive_inj ((h.incoming _ _).mpr hother) ((h.incoming _ _).mpr hentry)
  have hquiet' : ∀ c, s.quiet c = true →
      (s.incomingPrecomputeSessions.insert job.descriptor.channelIndex s.tasks.length)[c]? = none ∧
        s.precomputeSessions[c]? = none := by
    intro c hc
    have hne : job.descriptor.channelIndex ≠ c := by
      rintro rfl
      rw [hquiet] at hc
      cases hc
    rw [ExtTreeMap.getElem?_insert, if_neg (by simpa using hne)]
    exact h.quiet c hc
  cases hold : s.incomingPrecomputeSessions[job.descriptor.channelIndex]? with
  | none =>
    refine ⟨rfl, fun task c => ?_, h.entered, h.held, h.calm, hquiet', h.closing⟩
    have hentry := hentries task c
    rw [hold, and_iff_left (by simp)] at hentry
    exact (incomingAlive_push job.descriptor task c).trans hentry
  | some old =>
    refine ⟨rfl, fun task c => ?_, h.entered, h.held, h.calm, hquiet', h.closing⟩
    have hentry := hentries task c
    rw [hold, ne_eq, Option.some.injEq, ← incomingAlive_push] at hentry
    refine Iff.trans ?_ hentry
    refine incomingAlive_stop old (f := fun t =>
      { t with phase := if t.phase.alive then .aborted else t.phase }) ?_ _ _
    intro t
    cases t.phase <;> rfl

/-- The calls after one was moved. -/
theorem mem_modify_call {k : ℕ} {pc : SetupPc} {call : SetupCall}
    (h : call ∈ s.calls.modify k fun call => { call with pc := pc }) :
    call ∈ s.calls ∨ call.pc = pc := by
  obtain ⟨i, hi⟩ := List.mem_iff_getElem?.mp h
  rw [List.getElem?_modify] at hi
  obtain ⟨before, hbefore, rfl⟩ := Option.map_eq_some_iff.mp hi
  split
  · exact .inr rfl
  · exact .inl (List.mem_of_getElem? hbefore)

/-- A call moves to where it holds no session, or one that has its entry. -/
theorem Registry.setCall (h : s.Registry) (k : ℕ) {pc : SetupPc}
    (hpc : ∀ session, pc.session = some session → ∃ c : ℕ, s.precomputeSessions[c]? = some session)
    (hcalm : ∀ session, pc ≠ .dropOutgoing session ∧ pc ≠ .dropIncoming session) :
    (s.setCall k pc).Registry := by
  refine ⟨h.idle, h.incoming, h.entered, fun session c hheld hlive => ?_,
    fun call hcall => ?_, h.quiet,
    h.closing⟩
  · obtain ⟨call, hcall, hsession⟩ := List.any_eq_true.mp hheld
    rcases mem_modify_call hcall with hold | rfl
    · exact h.held session c (List.any_eq_true.mpr ⟨call, hold, hsession⟩) hlive
    · obtain ⟨c', hentry⟩ := hpc session (by simpa using hsession)
      rw [← live_inj (h.entered session c' hentry) hlive]
      exact hentry
  · rcases mem_modify_call hcall with hold | rfl
    · exact h.calm call hold
    · exact hcalm

/-- The entry of an outgoing session is dropped, and no call holds the session. -/
theorem Registry.dropOutgoing (h : s.Registry) {c : ℕ} (hheld : s.heldLive c = false) :
    (s.dropOutgoing c).Registry := by
  refine ⟨h.idle, h.incoming, fun session c' hentry => ?_, fun session c' hcall hlive => ?_, h.calm,
    fun c' hc' => ?_, fun c' hc' => getElem?_erase_of_none (h.closing c' hc')⟩
  · rw [Sessions.dropOutgoing, ExtTreeMap.getElem?_erase] at hentry
    exact h.entered session c' (Option.ite_none_left_eq_some.mp hentry).2
  · rw [Sessions.dropOutgoing, ExtTreeMap.getElem?_erase, if_neg, h.held session c' hcall hlive]
    rintro hc
    rw [Std.compare_eq_iff_eq] at hc
    subst hc
    obtain ⟨call, hmem, hsession⟩ := List.any_eq_true.mp hcall
    rw [Bool.eq_false_iff] at hheld
    refine hheld (List.any_eq_true.mpr ⟨call, hmem, ?_⟩)
    rw [eq_of_beq hsession, Option.any_some]
    exact hlive
  · exact ⟨(h.quiet c' hc').1, getElem?_erase_of_none (h.quiet c' hc').2⟩

/-- A session set up later leaves the older ones. -/
theorem live_push (c session c' : ℕ) :
    live { s with outgoing := s.outgoing ++ [⟨c, false⟩] } session c' = true ↔
      (session = s.outgoing.length ∧ c = c') ∨ s.live session c' = true := by
  refine (any_getElem?_concat s.outgoing _ _ session).trans ?_
  simp [live]

/-- A set-up session is entered for a channel which is not disabled, and of which no call holds a
session. -/
theorem Registry.setUp (h : s.Registry) (k : ℕ) {call : SetupCall}
    (hquiet : s.quiet call.channelIndex = false) (hclosing : s.closing call.channelIndex = false)
    (hheld : s.heldLive call.channelIndex = false) : (s.setUp k call).Registry := by
  have hinsert (c : ℕ) : (s.precomputeSessions.insert call.channelIndex s.outgoing.length)[c]? =
      if call.channelIndex = c then some s.outgoing.length else s.precomputeSessions[c]? := by
    simp [ExtTreeMap.getElem?_insert]
  have hother {c : ℕ} (hne : s.quiet c = true ∨ s.closing c = true) : call.channelIndex ≠ c := by
    rintro rfl
    simp [hquiet, hclosing] at hne
  refine ⟨h.idle, h.incoming, fun session c hentry => ?_, fun session c hcall hlive => ?_,
    fun other hmem => ?_, fun c hc => ?_, fun c hc => ?_⟩
  · refine (live_push call.channelIndex session c).mpr ?_
    have hentry := (hinsert c).symm.trans hentry
    split at hentry
    · exact .inl ⟨(Option.some.inj hentry).symm, ‹_›⟩
    · exact .inr (h.entered session c hentry)
  · refine (hinsert c).trans ?_
    have hlive := (live_push call.channelIndex session c).mp hlive
    obtain ⟨holder, hmem, hsession⟩ := List.any_eq_true.mp hcall
    rcases hlive with ⟨rfl, rfl⟩ | hlive
    · exact if_pos rfl
    · rcases mem_modify_call hmem with hold | hnew
      · rw [if_neg]
        · exact h.held session c (List.any_eq_true.mpr ⟨holder, hold, hsession⟩) hlive
        · rintro rfl
          rw [Bool.eq_false_iff] at hheld
          refine hheld (List.any_eq_true.mpr ⟨holder, hold, ?_⟩)
          rw [eq_of_beq hsession, Option.any_some]
          exact hlive
      · rw [hnew] at hsession
        obtain rfl : s.outgoing.length = session := by simpa [SetupPc.session] using hsession
        simp [live] at hlive
  · rcases mem_modify_call hmem with hold | hnew
    · exact h.calm other hold
    · rw [hnew]
      intro session
      exact ⟨by simp, by simp⟩
  · exact ⟨(h.quiet c hc).1, (hinsert c).trans ((if_neg (hother (.inl hc))).trans (h.quiet c hc).2)⟩
  · exact (hinsert c).trans ((if_neg (hother (.inr hc))).trans (h.closing c hc))

/-- The calls of `disable_channel` after one was moved. -/
theorem mem_modify_disable {k : ℕ} {pc : DisablePc} {d : DisableCall}
    (h : d ∈ s.disabling.modify k fun d => { d with pc := pc }) :
    d ∈ s.disabling ∨ ∃ before, s.disabling[k]? = some before ∧ d = { before with pc := pc } := by
  obtain ⟨i, hi⟩ := List.mem_iff_getElem?.mp h
  rw [List.getElem?_modify] at hi
  obtain ⟨before, hbefore, rfl⟩ := Option.map_eq_some_iff.mp hi
  split
  · rename_i hik
    exact .inr ⟨before, hik ▸ hbefore, rfl⟩
  · exact .inl (List.mem_of_getElem? hbefore)

/-- A call of `disable_channel` moves; once it dropped the outgoing session, no session has an
entry. -/
theorem Registry.setDisable (h : s.Registry) (k : ℕ) {pc : DisablePc}
    (hpc : pc = .dropIncoming → ∀ d ∈ s.disabling[k]?,
      s.precomputeSessions[d.channelIndex]? = none) :
    (s.setDisable k pc).Registry := by
  refine ⟨h.idle, h.incoming, h.entered, h.held, h.calm, h.quiet, fun c hc => ?_⟩
  obtain ⟨d, hd, hmatch⟩ := List.any_eq_true.mp hc
  rcases mem_modify_disable hd with hold | ⟨before, hbefore, rfl⟩
  · exact h.closing c (List.any_eq_true.mpr ⟨d, hold, hmatch⟩)
  · simp only [Bool.and_eq_true, beq_iff_eq] at hmatch
    obtain ⟨⟨rfl, rfl⟩, -⟩ := hmatch
    exact hpc rfl before hbefore

/-- A job taken out of the map keeps its descriptor. -/
theorem put_descriptor {jobs : GrpcJobs Stream} {entry : PendingGrpcJob Stream}
    {job : ReadyJob Stream} (h : (jobs.put entry).2 = .ok (some job)) :
    job.descriptor = entry.descriptor := by
  have hready : entry.ready? = some job := Except.ok.inj h
  unfold PendingGrpcJob.ready? at hready
  split at hready
  · rw [← Option.some.inj hready]
  · cases hready

/-- A completed session has the descriptor of the stream that completed it. -/
theorem register_descriptor {jobs : GrpcJobs Stream} {descriptor : GrpcJobDescriptor} {channel : ℕ}
    {stream : Stream} {job : ReadyJob Stream}
    (h : (jobs.register descriptor channel stream).2 = .ok (some job)) :
    job.descriptor = descriptor := by
  unfold GrpcJobs.register at h
  simp only at h
  split at h
  · cases h
  · rename_i hsame
    split at h
    · split at h
      · cases h
      · have hkept := put_descriptor h
        exact hkept.trans (not_not.mp hsame)
    · split at h
      · cases h
      · have hkept := put_descriptor h
        exact hkept.trans (not_not.mp hsame)
    · cases h

/-- A registration spawns at most the session it completes. -/
theorem Registry.accept (h : s.Registry) {descriptor : GrpcJobDescriptor} {channel : ℕ}
    {stream : Stream} {suspended : Bool}
    (horderly : s.Orderly (.accept descriptor channel stream suspended))
    (hstep : s.accept descriptor channel stream suspended = some t) : t.Registry := by
  have hjobs : Registry { s with grpcJobs := (s.grpcJobs.register descriptor channel stream).1 } :=
    ⟨h.idle, h.incoming, h.entered, h.held, h.calm, h.quiet, h.closing⟩
  obtain ⟨-, hstep⟩ := Option.ite_none_left_eq_some.mp hstep
  simp only at hstep
  split at hstep
  · rename_i job hjob
    have hcompletes : s.completes descriptor channel stream = true := by
      rw [completes, hjob]
    obtain ⟨hsuspended, hquiet⟩ := horderly hcompletes
    rw [hsuspended] at hstep
    rw [← register_descriptor hjob] at hquiet
    exact hjobs.spawn hquiet hstep
  · obtain rfl := Option.some.inj hstep
    exact hjobs

/-- A new call holds no session. -/
theorem Registry.call (h : s.Registry) (c : ℕ) (peer : PeerFrontierConfig) :
    Registry { s with calls := s.calls ++ [⟨c, peer, .lookup⟩] } := by
  refine ⟨h.idle, h.incoming, h.entered, fun session c' hheld hlive => ?_,
    fun call hcall => ?_, h.quiet,
    h.closing⟩
  · refine h.held session c' ?_ hlive
    simpa [Sessions.held, SetupPc.session] using hheld
  · rcases List.mem_append.mp hcall with hold | hnew
    · exact h.calm call hold
    · obtain rfl := List.mem_singleton.mp hnew
      simp

/-- A call finds the session that has the entry of its channel, or none. -/
theorem Registry.lookup (h : s.Registry) (k : ℕ) (call : SetupCall) :
    (s.lookup k call).Registry := by
  unfold Sessions.lookup
  split
  · rename_i session hentry
    have hlive := h.entered session call.channelIndex hentry
    have hopen : s.outgoing[session]?.any (fun o => !o.failed) = true := by
      simp only [live, Option.any_eq_true, Bool.and_eq_true] at hlive ⊢
      obtain ⟨o, ho, -, hfailed⟩ := hlive
      exact ⟨o, ho, hfailed⟩
    rw [if_pos hopen]
    refine h.setCall k (fun session' hsession => ⟨call.channelIndex, ?_⟩) (by simp)
    rw [hentry]
    exact hsession
  · exact h.setCall k (by simp [SetupPc.session]) (by simp)

/-- Dropping the incoming session leaves the outgoing ones. -/
theorem dropIncoming_precomputeSessions (c : ℕ) :
    (s.dropIncoming c).precomputeSessions = s.precomputeSessions := by
  unfold Sessions.dropIncoming
  cases s.incomingPrecomputeSessions[c]? <;> rfl

/-- Disabling a channel returns with no session left. -/
theorem Registry.returnDisable (h : s.Registry) (k : ℕ) {d : DisableCall}
    (hd : s.disabling[k]? = some d) (hpc : d.pc = .dropIncoming) :
    Registry { (s.dropIncoming d.channelIndex).setDisable k .done with
      quiet := if d.superseded then s.quiet else Function.update s.quiet d.channelIndex true } := by
  obtain ⟨hdropped, hnone⟩ := h.dropIncoming d.channelIndex
  have hmoved : ((s.dropIncoming d.channelIndex).setDisable k .done).Registry :=
    hdropped.setDisable k (by simp)
  have hquiet : (s.dropIncoming d.channelIndex).quiet = s.quiet := by
    unfold Sessions.dropIncoming
    cases s.incomingPrecomputeSessions[d.channelIndex]? <;> rfl
  refine ⟨hmoved.idle, hmoved.incoming, hmoved.entered, hmoved.held, hmoved.calm, fun c hc => ?_,
    hmoved.closing⟩
  have hbefore (hc : s.quiet c = true) := hmoved.quiet c (hquiet ▸ hc)
  cases hsuperseded : d.superseded with
  | true => exact hbefore (by simpa [hsuperseded] using hc)
  | false =>
    by_cases hchannel : c = d.channelIndex
    · subst hchannel
      refine ⟨hnone, (congrArg (·[d.channelIndex]?) (dropIncoming_precomputeSessions _)).trans ?_⟩
      refine h.closing _ (List.any_eq_true.mpr ⟨d, List.mem_of_getElem? hd, ?_⟩)
      simp [hpc, hsuperseded]
    · exact hbefore (by simpa [hsuperseded, hchannel] using hc)

/-- A channel that is disabled again keeps the calls past their first removal. -/
theorem Registry.disable (h : s.Registry) (inner : Inner) (c : ℕ) :
    Registry { s with inner := inner, disabling := s.disabling ++ [⟨c, .writing, false⟩] } := by
  refine ⟨h.idle, h.incoming, h.entered, h.held, h.calm, h.quiet, fun c' hc' => h.closing c' ?_⟩
  simpa [Sessions.closing] using hc'

/-- Enabling a channel ends what its disabling promised. -/
theorem Registry.enable (h : s.Registry) (inner : Inner) (c : ℕ) :
    Registry { s with
      inner := inner
      disabling := s.disabling.map fun d =>
        if d.channelIndex = c then { d with superseded := true } else d
      quiet := Function.update s.quiet c false } := by
  refine ⟨h.idle, h.incoming, h.entered, h.held, h.calm, fun c' hc' => h.quiet c' ?_,
    fun c' hc' => h.closing c' ?_⟩
  · by_cases hsame : c' = c
    · simp [hsame] at hc'
    · simpa [hsame] using hc'
  · obtain ⟨d, hd, hmatch⟩ := List.any_eq_true.mp hc'
    obtain ⟨before, hbefore, rfl⟩ := List.mem_map.mp hd
    refine List.any_eq_true.mpr ⟨before, hbefore, ?_⟩
    split at hmatch
    · simp at hmatch
    · exact hmatch

/-- Along orderly steps the registry is right. -/
theorem Registry.step {sha256 : List UInt8 → Value32} (s : Sessions Stream)
    (label : SessionLabel Stream) (t : Sessions Stream) (h : s.Registry)
    (horderly : s.Orderly label) (hstep : s.step sha256 label = some t) : t.Registry := by
  cases label with
  | accept descriptor channel stream suspended => exact h.accept horderly hstep
  | enter => simp [Sessions.step, Sessions.enter, h.idle] at hstep
  | abortOld => simp [Sessions.step, Sessions.abortOld, h.idle] at hstep
  | dropRegistration => simp [Sessions.step, h.idle] at hstep
  | beginTask task =>
    obtain ⟨task', htask, hstep⟩ := Option.bind_eq_some_iff.mp hstep
    obtain ⟨hphase, rfl⟩ := Runs.guard_eq_some.mp hstep
    refine h.setPhase htask ?_
    rw [hphase]
    split <;> rfl
  | returnTask task =>
    obtain ⟨task', htask, hstep⟩ := Option.bind_eq_some_iff.mp hstep
    obtain ⟨hphase, rfl⟩ := Runs.guard_eq_some.mp hstep
    exact h.setPhase htask (by rw [hphase]; rfl)
  | unregister task =>
    obtain ⟨task', htask, hstep⟩ := Option.bind_eq_some_iff.mp hstep
    obtain ⟨hphase, rfl⟩ := Runs.guard_eq_some.mp hstep
    exact h.unregister htask hphase
  | call c peer =>
    obtain rfl := Option.some.inj hstep
    exact h.call c peer
  | lookup k =>
    obtain ⟨call, hcall, hstep⟩ := Option.bind_eq_some_iff.mp hstep
    obtain ⟨-, rfl⟩ := Runs.guard_eq_some.mp hstep
    exact h.lookup k call
  | check k =>
    obtain ⟨call, hcall, hstep⟩ := Option.bind_eq_some_iff.mp hstep
    obtain ⟨-, hstep⟩ := Option.ite_none_right_eq_some.mp hstep
    split at hstep
    · rename_i result hresult
      obtain rfl := Option.some.inj hstep
      have hmoved : (s.setCall k (.setup result.2)).Registry :=
        h.setCall k (by simp [SetupPc.session]) (by simp)
      exact ⟨hmoved.idle, hmoved.incoming, hmoved.entered, hmoved.held, hmoved.calm, hmoved.quiet,
        hmoved.closing⟩
    · obtain rfl := Option.some.inj hstep
      exact h.setCall k (by simp [SetupPc.session]) (by simp)
  | setUp k =>
    obtain ⟨call, hcall, hstep⟩ := Option.bind_eq_some_iff.mp hstep
    split at hstep
    · obtain rfl := Option.some.inj hstep
      obtain ⟨hquiet, hclosing, hheld⟩ := horderly call hcall
      exact h.setUp k hquiet hclosing hheld
    · cases hstep
  | failCommand k => exact absurd horderly id
  | dropSession k =>
    obtain ⟨call, hcall, hstep⟩ := Option.bind_eq_some_iff.mp hstep
    have hcalm := h.calm call (List.mem_of_getElem? hcall)
    split at hstep
    · exact absurd ‹_› (hcalm _).1
    · exact absurd ‹_› (hcalm _).2
    · cases hstep
  | release k =>
    obtain rfl := Option.some.inj hstep
    exact h.setCall k (by simp [SetupPc.session]) (by simp)
  | disable c =>
    simp only [Sessions.step] at hstep
    split at hstep
    · obtain rfl := Option.some.inj hstep
      exact h.disable _ c
    · obtain rfl := Option.some.inj hstep
      exact h
  | failWrite k =>
    obtain ⟨d, hd, hstep⟩ := Option.bind_eq_some_iff.mp hstep
    obtain ⟨-, rfl⟩ := Runs.guard_eq_some.mp hstep
    exact h.setDisable k (by simp)
  | dropOutgoing k =>
    obtain ⟨d, hd, hstep⟩ := Option.bind_eq_some_iff.mp hstep
    obtain ⟨-, rfl⟩ := Runs.guard_eq_some.mp hstep
    refine (h.dropOutgoing (horderly d hd)).setDisable k ?_
    rintro - d' hd'
    obtain rfl := Option.some.inj (hd.symm.trans hd')
    simp [Sessions.dropOutgoing]
  | returnDisable k =>
    obtain ⟨d, hd, hstep⟩ := Option.bind_eq_some_iff.mp hstep
    obtain ⟨hpc, rfl⟩ := Runs.guard_eq_some.mp hstep
    exact h.returnDisable k hd hpc
  | enable req =>
    obtain rfl := Option.some.inj hstep
    exact h.enable _ _
  | memory inner =>
    obtain rfl := Option.some.inj hstep
    exact ⟨h.idle, h.incoming, h.entered, h.held, h.calm, h.quiet, h.closing⟩

/-- A daemon with no session has a right registry. -/
theorem Registry.start (inner : Inner) : (Sessions.start inner : Sessions Stream).Registry := by
  refine ⟨rfl, fun task c => ?_, fun session c h => ?_, fun session c h => ?_, fun call h => ?_,
    fun c h => ?_, fun c h => ?_⟩
  · simp [incomingAlive, Sessions.start]
  · simp [Sessions.start] at h
  · simp [Sessions.held, Sessions.start] at h
  · simp [Sessions.start] at h
  · simp [Sessions.start] at h
  · simp [Sessions.closing, Sessions.start] at h

end Sessions

/-- In a run of orderly steps the registry is right. -/
theorem sessions_tracked {Stream : Type} {sha256 : List UInt8 → Value32} {inner : Inner}
    {labels : List (SessionLabel Stream)} {t : Sessions Stream}
    (hrun : run (Sessions.step sha256) (.start inner) labels = some t)
    (horderly : Along (Sessions.step sha256) Sessions.Orderly (.start inner) labels) : t.Tracked :=
  (Runs.invariant Sessions.Registry.step (.start inner) hrun horderly).tracked

/-- Whether a step is orderly is decided label by label. -/
instance Sessions.Orderly.decidable {Stream : Type} (s : Sessions Stream) :
    ∀ label, Decidable (s.Orderly label)
  | .accept descriptor channel stream suspended => inferInstanceAs (Decidable
      (s.completes descriptor channel stream = true →
        suspended = false ∧ s.quiet descriptor.channelIndex = false))
  | .setUp k =>
    inferInstanceAs (Decidable (∀ call ∈ s.calls[k]?, s.quiet call.channelIndex = false ∧
      s.closing call.channelIndex = false ∧ s.heldLive call.channelIndex = false))
  | .dropOutgoing k =>
    inferInstanceAs (Decidable (∀ d ∈ s.disabling[k]?, s.heldLive d.channelIndex = false))
  | .failCommand _ => isFalse id
  | .enter | .abortOld | .dropRegistration | .beginTask _ | .returnTask _ |
      .unregister _ | .call _ _
  | .lookup _ | .check _ | .dropSession _ | .release _ | .disable _ | .failWrite _ |
      .returnDisable _
  | .enable _ | .memory _ => isTrue trivial

/-- A daemon with a channel that is enabled. -/
def sessionDaemon : Inner :=
  (enableChannel
    { cfg := ⟨.bob, none, 1, 4⟩
      masterSecret := List.replicate 32 0
      db := { channels := ∅ }
      activeJobs := ∅
      nextJobId := 0 } ⟨7, 4, 40, 1000⟩).1

/-- What the peer says of the channel. -/
def sessionPeer : PeerFrontierConfig := ⟨true, 4, 1, 1, 40, 1000⟩

/-- The descriptor of a session that the peer opens for the channel. -/
def sessionDescriptor (n : ℕ) : GrpcJobDescriptor where
  jobId := s!"precompute-session-7-{n}"
  channelIndex := 7
  targetIndex := 0
  ssp := sspEffective 40 1000
  sspTarget := 40
  deltaLifetimeCheckedUnitsCap := 1000
  digest := jobDigest Value32.ofList 7 "precompute-session" 0 0 (sspEffective 40 1000)

/-- Sessions come in and are set up, one replaces another, and the channel is disabled. -/
def orderlyLabels : List (SessionLabel ℕ) :=
  [.accept (sessionDescriptor 1) 1 10 true, .accept (sessionDescriptor 1) 2 11 false, .beginTask 0,
    .accept (sessionDescriptor 2) 1 20 true, .accept (sessionDescriptor 2) 2 21 false, .beginTask 1,
    .call 7 sessionPeer, .lookup 0, .check 0, .setUp 0, .release 0, .disable 7, .dropOutgoing 0,
    .returnDisable 0]

/-- After such a run no session is left. -/
theorem sessions_tracked_disabled :
    ∃ t, run (Sessions.step Value32.ofList) (.start sessionDaemon) orderlyLabels = some t ∧
      t.quiet 7 = true ∧ t.Tracked := by
  have hrun : (run (Sessions.step Value32.ofList) (.start sessionDaemon) orderlyLabels).any
      (fun t => t.quiet 7) = true := by decide +kernel
  have horderly : Along (Sessions.step Value32.ofList) Sessions.Orderly (.start sessionDaemon)
      orderlyLabels := by decide +kernel
  obtain ⟨t, ht, hquiet⟩ := (Option.any_eq_true _ _).mp hrun
  exact ⟨t, ht, hquiet, sessions_tracked ht horderly⟩

/-- The channel is disabled between the check of a setup and its end. -/
def setUpLateLabels : List (SessionLabel ℕ) :=
  [.call 7 sessionPeer, .lookup 0, .check 0, .disable 7, .dropOutgoing 0,
    .returnDisable 0, .setUp 0]

/-- A session that ended removes the entry of the one that replaced it. -/
def unregisterLateLabels : List (SessionLabel ℕ) :=
  [.accept (sessionDescriptor 1) 1 10 true, .accept (sessionDescriptor 1) 2 11 false, .beginTask 0,
    .returnTask 0, .accept (sessionDescriptor 2) 1 20 true, .accept (sessionDescriptor 2) 2 21 true,
    .enter, .unregister 0, .abortOld]

/-- A session ends before its registration enters it. -/
def enterLateLabels : List (SessionLabel ℕ) :=
  [.accept (sessionDescriptor 1) 1 10 true, .accept (sessionDescriptor 1) 2 11 true, .beginTask 0,
    .returnTask 0, .unregister 0, .enter, .abortOld]

/-- A session can be set up for a channel that was disabled, be alive without an entry, or have an
entry when it is not alive. -/
theorem sessions_untracked :
    (∃ t, run (Sessions.step Value32.ofList) (.start sessionDaemon) setUpLateLabels = some t ∧
      t.quiet 7 = true ∧ t.outgoingAlive 0 7 = true) ∧
    (∃ t, run (Sessions.step Value32.ofList) (.start sessionDaemon) unregisterLateLabels = some t ∧
      t.incomingAlive 1 7 = true ∧ t.incomingPrecomputeSessions[7]? = none) ∧
    (∃ t, run (Sessions.step Value32.ofList) (.start sessionDaemon) enterLateLabels = some t ∧
      t.incomingAlive 0 7 = false ∧ t.incomingPrecomputeSessions[7]? = some 0) ∧
    ¬ ∀ (labels : List (SessionLabel ℕ)) (t : Sessions ℕ),
      run (Sessions.step Value32.ofList) (.start sessionDaemon) labels = some t → t.Tracked := by
  have hsetUp : (run (Sessions.step Value32.ofList) (.start sessionDaemon) setUpLateLabels).any
      (fun t => t.quiet 7 && t.outgoingAlive 0 7) = true := by decide +kernel
  have hunregister :
      (run (Sessions.step Value32.ofList) (.start sessionDaemon) unregisterLateLabels).any (fun t =>
        t.incomingAlive 1 7 && t.incomingPrecomputeSessions[7]? == none) = true := by decide +kernel
  have henter :
      (run (Sessions.step Value32.ofList) (.start sessionDaemon) enterLateLabels).any (fun t =>
      t.incomingAlive 0 7 == false && t.incomingPrecomputeSessions[7]? == some 0) = true := by
    decide +kernel
  simp only [Option.any_eq_true, Bool.and_eq_true, beq_iff_eq] at hsetUp hunregister henter
  refine ⟨hsetUp, hunregister, henter, fun htracked => ?_⟩
  obtain ⟨t, ht, hquiet, halive⟩ := hsetUp
  have hdead := ((htracked _ t ht).quiet 7 hquiet).2 0
  rw [halive] at hdead
  cases hdead

end Shachain2pc
